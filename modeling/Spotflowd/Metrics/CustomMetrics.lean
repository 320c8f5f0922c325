import Spotflowd.Metrics.Delivery
import Spotflowd.Metrics.Subsystem
import Spotflowd.Metrics.Windows

open lines
open spotflowd.config spotflowd.mqtt
open spotflowd.metrics.aggregator spotflowd.metrics.socket

namespace spotflowd.metrics

/-- The custom samples that the ticks of a run were given. -/
def customs (cfg : MetricsConfig) (events : List Event) : List MetricSample :=
  events.flatMap fun
    | .tick tick => if cfg.custom.enabled then tick.custom.map Prod.fst else []
    | .shutdown _ _ => []

namespace Subsystem

variable {c : Ciborium} {cfg : MetricsConfig} {from_str : FromStr}

/-- The samples of one connection that were taken in. -/
def sent_by (number : Nat) (accepted : List (Nat × MetricSample)) : List MetricSample :=
  (accepted.filter fun sample => sample.1 = number).map Prod.snd

theorem sent_by_append (number : Nat) (accepted more : List (Nat × MetricSample)) :
    sent_by number (accepted ++ more) = sent_by number accepted ++ sent_by number more := by
  simp [sent_by]

theorem sent_by_own (number : Nat) (sent : List MetricSample) :
    sent_by number (sent.map fun sample => (number, sample)) = sent := by
  simp [sent_by, List.filter_map, Function.comp_def]

theorem sent_by_other {number other : Nat} (hne : other ≠ number) (sent : List MetricSample) :
    sent_by number (sent.map fun sample => (other, sample)) = [] := by
  simp [sent_by, List.filter_map, Function.comp_def, hne]

/-- What was taken in from a connection against what its task has read: all of it, but for the
last sample if that was refused. The loop is left at the end of the stream, at a line that
is not UTF-8, or at a refused sample. -/
structure Served (from_str : FromStr) (iteration : Iteration String) (sent : List MetricSample)
    (connection : Connection) : Prop where
  all : connection.pc ≠ .refused → said from_str iteration (split connection.read) = sent
  refused : connection.pc = .refused →
    ∃ sample, said from_str iteration (split connection.read) = sent ++ [sample]
  finished : connection.pc = .finished →
    connection.closed = true ∧ connection.unread = [] ∨
      ∃ line ∈ split connection.read, cbor.ofUtf8 line = none

/-- Between two lines, the task has read whole lines, or the last one was the end of the stream. -/
structure Reading (from_str : FromStr) (connection : Connection) : Prop where
  legible : Legible from_str (split connection.read)
  between : Complete connection.read ∨ connection.closed = true ∧ connection.unread = []

/-- Every connection is served, and what was taken in came from one of them. -/
structure Sound (from_str : FromStr) (s : Subsystem) : Prop where
  served : ∀ number connection, s.connections[number]? = some connection → ∀ iteration,
    Served from_str iteration (sent_by number s.accepted) connection
  reading : ∀ connection ∈ s.connections, connection.pc = .reading → Reading from_str connection
  known : ∀ sample ∈ s.accepted, sample.1 < s.connections.length

theorem turn_ended {line : Bytes} (hturn : turn from_str line = .ended) :
    line = [] ∨ cbor.ofUtf8 line = none := by
  unfold turn at hturn
  split at hturn
  · exact Or.inl ‹_›
  · split at hturn
    · exact Or.inr ‹_›
    · dsimp only at hturn
      split at hturn
      · cases hturn
      · split at hturn <;> cases hturn

/-- A line read from a stream is the next one of all that were read. -/
theorem split_read {connection : Connection} (hreading : Reading from_str connection) :
    split (connection.read ++ next_line connection.unread) =
      split connection.read ++
        if connection.unread = [] then [] else [next_line connection.unread] := by
  by_cases hend : connection.unread = []
  · simp [hend, next_line]
  · have hcomplete := hreading.between.resolve_right fun hclosed => hend hclosed.2
    rw [split_append hcomplete, split_line hend, if_neg hend]

theorem said_read (iteration : Iteration String) {connection : Connection}
    (hreading : Reading from_str connection) :
    said from_str iteration (split (connection.read ++ next_line connection.unread)) =
      said from_str iteration (split connection.read) ++
        (turn from_str (next_line connection.unread)).samples iteration := by
  rw [split_read hreading, said_append hreading.legible]
  split
  · next hend =>
    rw [hend]
    rfl
  · rw [said_singleton]

/-- What `handle` does with a line: end the loop, take in what the line says, or refuse it. -/
theorem handle_cases (from_str : FromStr) (iteration : Iteration String) (receiver : Bool) (line : Bytes)
    (connection : Connection) (channel : Channel CHANNEL_CAPACITY MetricSample) :
    (turn from_str line = .ended ∧ handle from_str iteration receiver line connection channel =
      ({ connection with pc := .finished }, channel, [])) ∨
    (turn from_str line ≠ .ended ∧ ∃ after : Channel CHANNEL_CAPACITY MetricSample,
      after.queue = channel.queue ++ (turn from_str line).samples iteration ∧
        handle from_str iteration receiver line connection channel =
          (connection, after, (turn from_str line).samples iteration)) ∨
    ∃ msg, turn from_str line = .received msg ∧
      handle from_str iteration receiver line connection channel =
        ({ connection with pc := .refused }, channel, []) := by
  unfold handle
  cases turn from_str line with
  | ended => exact Or.inl ⟨rfl, rfl⟩
  | skipped => exact Or.inr (Or.inl ⟨nofun, channel, (List.append_nil _).symm, rfl⟩)
  | received msg =>
    dsimp only
    cases hsend : if receiver then channel.send (msg.sample iteration) else none with
    | none => exact Or.inr (Or.inr ⟨msg, rfl, rfl⟩)
    | some after =>
      obtain ⟨-, hsend⟩ := Option.ite_none_right_eq_some.mp hsend
      exact Or.inr (Or.inl ⟨nofun, after, (Channel.send_eq_some hsend).2, rfl⟩)

/-- A connection with the next line read. -/
abbrev advanced (connection : Connection) : Connection :=
  { connection with
    unread := connection.unread.drop (next_line connection.unread).length
    read := connection.read ++ next_line connection.unread }

/-- After a line that does not end the loop, the task is between two lines again. -/
theorem Reading.next {connection : Connection} (hreading : Reading from_str connection)
    (hready : connection.Ready) (hturn : turn from_str (next_line connection.unread) ≠ .ended) :
    Reading from_str (advanced connection) := by
  have hne : connection.unread ≠ [] := by
    intro hend
    rw [hend] at hturn
    exact hturn rfl
  have hcomplete := hreading.between.resolve_right fun hclosed => hne hclosed.2
  constructor
  · rw [split_read hreading, if_neg hne]
    intro line hline
    obtain hline | hline := List.mem_append.mp hline
    · exact hreading.legible line hline
    · rw [List.mem_singleton.mp hline]
      exact hturn
  · by_cases hnewline : NEWLINE ∈ connection.unread
    · exact Or.inl (hcomplete.append (next_line_complete hnewline))
    · refine Or.inr ⟨hready.2.resolve_left hnewline, ?_⟩
      change connection.unread.drop _ = []
      rw [next_line_of_not_mem hnewline, List.drop_length]

/-- One turn of the loop takes in what the line says, once. -/
theorem Served.next {iteration : Iteration String} {sent : List MetricSample} {connection : Connection}
    (hserved : Served from_str iteration sent connection) (hreading : Reading from_str connection)
    (hready : connection.Ready) {order : Iteration String} {receiver : Bool}
    {channel channel' : Channel CHANNEL_CAPACITY MetricSample} {after : Connection}
    {new : List MetricSample} (hhandle : handle from_str order receiver (next_line connection.unread)
      (advanced connection) channel = (after, channel', new)) :
    Served from_str iteration (sent ++ new) after ∧ (after.pc = .reading → Reading from_str after) ∧
      channel'.queue = channel.queue ++ new := by
  have hsaid := said_read iteration hreading
  rw [hserved.all (by rw [hready.1]; nofun)] at hsaid
  obtain ⟨hturn, heq⟩ | ⟨hturn, grown, hgrown, heq⟩ | ⟨msg, hturn, heq⟩ :=
    handle_cases from_str order receiver (next_line connection.unread) (advanced connection) channel
  all_goals
    rw [hhandle] at heq
    cases heq
  · rw [hturn, Turn.samples, List.append_nil] at hsaid
    rw [List.append_nil, List.append_nil]
    refine ⟨⟨fun _ => hsaid, nofun, fun _ => ?_⟩, nofun, rfl⟩
    by_cases hend : connection.unread = []
    · refine Or.inl ⟨hready.2.resolve_left (by simp [hend]), ?_⟩
      simp [hend]
    · refine Or.inr ⟨next_line connection.unread, ?_, ?_⟩
      · simp [split_read hreading, hend]
      · exact (turn_ended hturn).resolve_left (mt next_line_eq_nil.mp hend)
  · rw [Turn.samples_eq _ order iteration]
    refine ⟨⟨fun _ => hsaid, ?_, ?_⟩, fun _ => hreading.next hready hturn, ?_⟩
    · intro hrefused
      rw [hready.1] at hrefused
      cases hrefused
    · intro hfinished
      rw [hready.1] at hfinished
      cases hfinished
    · rw [hgrown, Turn.samples_eq _ order iteration]
  · rw [hturn] at hsaid
    rw [List.append_nil, List.append_nil]
    exact ⟨⟨fun hnot => absurd rfl hnot, fun _ => ⟨msg.sample iteration, hsaid⟩, nofun⟩, nofun, rfl⟩

theorem Sound.start (cfg : MetricsConfig) (runner : Runner) (bound : Bool) :
    Sound from_str (start cfg runner bound) := by
  refine ⟨?_, ?_, ?_⟩
  · intro number connection hconnection
    cases hconnection
  · intro connection hmem
    cases hmem
  · intro sample hmem
    cases hmem

/-- Only the connections and what was taken in count. -/
theorem Sound.of_same {s t : Subsystem} (hsound : Sound from_str s)
    (hconnections : t.connections = s.connections) (haccepted : t.accepted = s.accepted) :
    Sound from_str t := by
  constructor
  · rw [hconnections, haccepted]
    exact hsound.served
  · rw [hconnections]
    exact hsound.reading
  · rw [hconnections, haccepted]
    exact hsound.known

/-- Nothing was taken in from a connection that does not exist. -/
theorem Sound.sent_by_fresh {s : Subsystem} (hsound : Sound from_str s) :
    sent_by s.connections.length s.accepted = [] := by
  rw [sent_by, List.map_eq_nil_iff, List.filter_eq_nil_iff]
  intro sample hmem
  simpa using Nat.ne_of_lt (hsound.known sample hmem)

theorem Sound.connect {s : Subsystem} (hsound : Sound from_str s) :
    Sound from_str { s with connections := s.connections ++ [.new] } := by
  have hnew : Reading from_str .new := ⟨(fun _ hmem => by cases hmem), Or.inl Complete.nil⟩
  constructor
  · intro number connection hconnection iteration
    rw [List.getElem?_append] at hconnection
    split at hconnection
    · exact hsound.served number connection hconnection iteration
    · obtain ⟨hlt, heq⟩ := List.getElem?_eq_some_iff.mp hconnection
      rw [List.length_singleton] at hlt
      obtain rfl : number = s.connections.length := by omega
      obtain rfl : Connection.new = connection := by simpa using hconnection
      dsimp only
      rw [hsound.sent_by_fresh]
      exact ⟨fun _ => rfl, nofun, nofun⟩
  · intro connection hmem hreading
    obtain hmem | hmem := List.mem_append.mp hmem
    · exact hsound.reading connection hmem hreading
    · rw [List.mem_singleton.mp hmem]
      exact hnew
  · intro sample hmem
    rw [List.length_append]
    exact Nat.lt_add_right _ (hsound.known sample hmem)

/-- One connection changes and its samples, if any, are taken in. -/
theorem Sound.set {s t : Subsystem} {number : Nat} {connection after : Connection}
    (new : List MetricSample) (hsound : Sound from_str s)
    (hconnection : s.connections[number]? = some connection)
    (hconnections : t.connections = s.connections.set number after)
    (haccepted : t.accepted = s.accepted ++ new.map fun sample => (number, sample))
    (hserved : ∀ iteration, Served from_str iteration (sent_by number s.accepted ++ new) after)
    (hreading : after.pc = .reading → Reading from_str after) : Sound from_str t := by
  obtain ⟨hlt, -⟩ := List.getElem?_eq_some_iff.mp hconnection
  constructor
  · intro other found hfound iteration
    rw [hconnections] at hfound
    rw [haccepted, sent_by_append]
    by_cases hown : number = other
    · subst hown
      rw [List.getElem?_set_self hlt, Option.some.injEq] at hfound
      rw [sent_by_own, ← hfound]
      exact hserved iteration
    · rw [List.getElem?_set_ne hown] at hfound
      rw [sent_by_other hown, List.append_nil]
      exact hsound.served other found hfound iteration
  · intro found hmem hopen
    rw [hconnections] at hmem
    obtain hmem | rfl := List.mem_or_eq_of_mem_set hmem
    · exact hsound.reading found hmem hopen
    · exact hreading hopen
  · intro sample hmem
    rw [hconnections, List.length_set]
    rw [haccepted] at hmem
    obtain hmem | hmem := List.mem_append.mp hmem
    · exact hsound.known sample hmem
    · obtain ⟨_, -, rfl⟩ := List.mem_map.mp hmem
      exact hlt

theorem serve_eq_some {s t : Subsystem} {number : Nat} {order : Iteration String}
    (hserve : s.serve from_str number order = some t) :
    ∃ connection after channel new, s.connections[number]? = some connection ∧ connection.Ready ∧
      handle from_str order (!s.runner.stopped) (next_line connection.unread) (advanced connection)
        s.channel = (after, channel, new) ∧
      t = { s with
        connections := s.connections.set number after
        channel := channel
        accepted := s.accepted ++ new.map fun sample => (number, sample) } := by
  unfold serve at hserve
  obtain ⟨connection, hconnection, hserve⟩ := Option.bind_eq_some_iff.mp hserve
  obtain ⟨⟨line, next⟩, hnext, hserve⟩ := Option.bind_eq_some_iff.mp hserve
  unfold Connection.next_line at hnext
  split at hnext
  · next hready =>
    cases hnext
    cases hserve
    exact ⟨connection, _, _, _, hconnection, hready, rfl, rfl⟩
  · cases hnext

theorem Sound.serve {s t : Subsystem} {number : Nat} {order : Iteration String}
    (hsound : Sound from_str s) (hserve : s.serve from_str number order = some t) :
    Sound from_str t ∧ t.runner = s.runner ∧ t.drained = s.drained ∧
      ∃ new, t.accepted.map Prod.snd = s.accepted.map Prod.snd ++ new ∧
        t.channel.queue = s.channel.queue ++ new := by
  obtain ⟨connection, after, channel, new, hconnection, hready, hhandle, rfl⟩ := serve_eq_some hserve
  have hreading := hsound.reading connection (List.mem_of_getElem? hconnection) hready.1
  have hnext := fun iteration =>
    (hsound.served number connection hconnection iteration).next hreading hready hhandle
  have hsame := hnext order
  refine ⟨hsound.set _ hconnection rfl rfl (fun iteration => (hnext iteration).1) hsame.2.1, rfl, rfl,
    new, ?_, hsame.2.2⟩
  simp

/-- What a client does is not yet read. -/
theorem Sound.client {s t : Subsystem} {number : Nat} {f : Connection → Connection}
    (hsound : Sound from_str s) (hclient : s.client number f = some t)
    (hf : ∀ connection, (f connection).pc = connection.pc ∧ (f connection).read = connection.read) :
    Sound from_str t ∧ t.runner = s.runner ∧ t.drained = s.drained ∧ t.accepted = s.accepted ∧
      t.channel = s.channel := by
  unfold Subsystem.client at hclient
  obtain ⟨connection, hconnection, hclient⟩ := Option.bind_eq_some_iff.mp hclient
  split at hclient
  · cases hclient
  · next hopen =>
    cases hclient
    rw [Bool.not_eq_true] at hopen
    obtain ⟨hpc, hread⟩ := hf connection
    have hserved := hsound.served number connection hconnection
    refine ⟨hsound.set [] hconnection rfl (List.append_nil _).symm ?_ ?_, rfl, rfl, rfl, rfl⟩
    · intro iteration
      rw [List.append_nil]
      refine ⟨?_, ?_, ?_⟩
      · rw [hpc, hread]
        exact (hserved iteration).all
      · rw [hpc, hread]
        exact (hserved iteration).refused
      · rw [hpc, hread]
        intro hfinished
        refine Or.inr (((hserved iteration).finished hfinished).resolve_left ?_)
        rw [hopen]
        exact fun hclosed => Bool.noConfusion hclosed.1
    · intro hpc'
      rw [hpc] at hpc'
      have hreading := hsound.reading connection (List.mem_of_getElem? hconnection) hpc'
      refine ⟨by rw [hread]; exact hreading.legible, Or.inl ?_⟩
      rw [hread]
      refine hreading.between.resolve_right ?_
      rw [hopen]
      exact fun hclosed => Bool.noConfusion hclosed.1

theorem map_fst_stamped (handled_at : Nat → Instant) (samples : List MetricSample) :
    (stamped handled_at samples).map Prod.fst = samples := by
  unfold stamped
  rw [List.map_map]
  exact List.zipIdx_map_fst 0 samples

/-- The step of the metrics loop in a step of the subsystem, if there is one. -/
def inner (self : Subsystem) : Event → Option metrics.Event
  | .tick tick handled_at => some (.tick { tick with custom := stamped handled_at self.drained })
  | .shutdown iteration verdicts => some (.shutdown iteration verdicts)
  | _ => none

theorem customs_append (steps more : List metrics.Event) :
    customs cfg (steps ++ more) = customs cfg steps ++ customs cfg more :=
  List.flatMap_append

/-- Every connection is served. What was taken in has been given to the ticks, in order, or waits
to be. -/
structure Collected (cfg : MetricsConfig) (from_str : FromStr) (steps : List metrics.Event)
    (s : Subsystem) : Prop where
  sound : Sound from_str s
  order : s.accepted.map Prod.snd = customs cfg steps ++ s.drained ++ s.channel.queue
  enabled : s.drained ≠ [] → cfg.custom.enabled = true

/-- A step outside the metrics loop takes in samples, if any, at the end of the channel. -/
theorem Collected.aside {steps : List metrics.Event} {s t : Subsystem}
    (hcollected : Collected cfg from_str steps s) (hsound : Sound from_str t)
    (hdrained : t.drained = s.drained) {new : List MetricSample}
    (haccepted : t.accepted.map Prod.snd = s.accepted.map Prod.snd ++ new)
    (hqueue : t.channel.queue = s.channel.queue ++ new) : Collected cfg from_str steps t := by
  refine ⟨hsound, ?_, by rw [hdrained]; exact hcollected.enabled⟩
  rw [haccepted, hcollected.order, hdrained, hqueue, List.append_assoc]

theorem Collected.client {steps : List metrics.Event} {s t : Subsystem} {number : Nat}
    {f : Connection → Connection} (hcollected : Collected cfg from_str steps s)
    (hclient : s.client number f = some t)
    (hf : ∀ connection, (f connection).pc = connection.pc ∧ (f connection).read = connection.read) :
    t.runner = s.runner ∧ Collected cfg from_str steps t := by
  obtain ⟨hsound, hrunner, hdrained, haccepted, hchannel⟩ := hcollected.sound.client hclient hf
  exact ⟨hrunner, hcollected.aside hsound hdrained (by rw [haccepted, List.append_nil])
    (by rw [hchannel, List.append_nil])⟩

theorem Collected.try_recv {steps : List metrics.Event} {s t : Subsystem}
    (hcollected : Collected cfg from_str steps s) (hrecv : s.try_recv cfg = some t) :
    t.runner = s.runner ∧ Collected cfg from_str steps t := by
  unfold Subsystem.try_recv at hrecv
  split at hrecv
  · next hopen =>
    obtain ⟨⟨first, channel⟩, hfirst, rfl⟩ := Option.map_eq_some_iff.mp hrecv
    refine ⟨rfl, hcollected.sound.of_same rfl rfl, ?_, fun _ => (Bool.and_eq_true_iff.mp hopen).1⟩
    dsimp only
    rw [hcollected.order, Channel.recv_eq_some hfirst]
    simp
  · cases hrecv

/-- A tick is given what it has taken out of the channel. -/
theorem Collected.tick {steps : List metrics.Event} {s t : Subsystem} {tick : Tick}
    {handled_at : Nat → Instant} (hcollected : Collected cfg from_str steps s)
    (htick : s.tick c cfg tick handled_at = some t) :
    (run c cfg).step s.runner (.tick { tick with custom := stamped handled_at s.drained }) =
        some t.runner ∧
      Collected cfg from_str
        (steps ++ [.tick { tick with custom := stamped handled_at s.drained }]) t := by
  unfold Subsystem.tick at htick
  split at htick
  · obtain ⟨runner, hrunner, rfl⟩ := Option.map_eq_some_iff.mp htick
    refine ⟨hrunner, hcollected.sound.of_same rfl rfl, ?_, fun hne => absurd rfl hne⟩
    have hgiven : customs cfg [.tick { tick with custom := stamped handled_at s.drained }] = s.drained := by
      simp only [customs, List.flatMap_cons, List.flatMap_nil, List.append_nil, map_fst_stamped]
      split
      · rfl
      · next hoff => exact (not_not.mp (mt hcollected.enabled hoff)).symm
    dsimp only
    rw [hcollected.order, customs_append, hgiven, List.append_nil]
  · cases htick

/-- What a step does: nothing to the metrics loop, or one of its steps. -/
theorem Collected.step {steps : List metrics.Event} {s t : Subsystem} {event : Event}
    (hcollected : Collected cfg from_str steps s)
    (hstep : (subsystem c cfg from_str).step s event = some t) :
    (t.runner = s.runner ∧ Collected cfg from_str steps t) ∨
      ∃ step, s.inner event = some step ∧ (run c cfg).step s.runner step = some t.runner ∧
        Collected cfg from_str (steps ++ [step]) t := by
  cases event with
  | connect =>
    obtain ⟨-, rfl⟩ := Option.ite_none_right_eq_some.mp hstep |>.imp id Option.some.inj
    exact Or.inl ⟨rfl, hcollected.aside hcollected.sound.connect rfl (List.append_nil _).symm
      (List.append_nil _).symm⟩
  | write number bytes => exact Or.inl (hcollected.client hstep fun _ => ⟨rfl, rfl⟩)
  | close number => exact Or.inl (hcollected.client hstep fun _ => ⟨rfl, rfl⟩)
  | serve number iteration =>
    obtain ⟨hsound, hrunner, hdrained, new, haccepted, hqueue⟩ := hcollected.sound.serve hstep
    exact Or.inl ⟨hrunner, hcollected.aside hsound hdrained haccepted hqueue⟩
  | try_recv => exact Or.inl (hcollected.try_recv hstep)
  | tick tick handled_at => exact Or.inr ⟨_, rfl, hcollected.tick hstep⟩
  | stop_listening =>
    cases hstep
    exact Or.inl ⟨rfl, hcollected.sound.of_same rfl rfl, hcollected.order, hcollected.enabled⟩
  | shutdown iteration verdicts =>
    obtain ⟨hnone, hstep⟩ := Option.ite_none_right_eq_some.mp hstep
    obtain ⟨runner, hrunner, rfl⟩ := Option.map_eq_some_iff.mp hstep
    refine Or.inr ⟨_, rfl, hrunner, hcollected.sound.of_same rfl rfl, ?_, hcollected.enabled⟩
    rw [customs_append]
    simpa [customs] using hcollected.order

/-- The metrics loop inside the subsystem takes the steps of `run`. -/
theorem refines_run (inside : Runner → metrics.Event → Prop) {runner : Runner} {bound : Bool}
    {events : List Event} {s : Subsystem}
    (hrun : (subsystem c cfg from_str).Run (fun s event => ∀ step ∈ s.inner event, inside s.runner step)
      (start cfg runner bound) events s) :
    ∃ steps, (run c cfg).Run inside runner steps s.runner ∧ Collected cfg from_str steps s := by
  refine hrun.simulates Subsystem.runner (Collected cfg from_str)
    ⟨.start cfg runner bound, rfl, fun hne => absurd rfl hne⟩ ?_
  intro past t event u hcollected hallowed hstep
  obtain hsame | ⟨step, hinner, hstep, hcollected⟩ := hcollected.step hstep
  · exact Or.inl hsame
  · exact Or.inr ⟨step, hallowed step hinner, hstep, hcollected⟩

/-- Custom metrics are collected once. However clients split what they write, whatever else they
write and however connections, ticks and shutdown interleave: what the channel has taken in has been
given to the ticks of the metrics loop, in order, or still waits to be; and it consists of what each
connection has said up to where its task stands, but for a sample that was refused,
which is then the last. In which order hash maps are iterated makes no difference. -/
theorem custom_metrics_are_collected {runner : Runner} {bound : Bool} {events : List Event}
    {s : Subsystem}
    (hrun : (subsystem c cfg from_str).Run (fun _ _ => True) (start cfg runner bound) events s) :
    ∃ steps, (run c cfg).Run (fun _ _ => True) runner steps s.runner ∧
      s.accepted.map Prod.snd = customs cfg steps ++ s.drained ++ s.channel.queue ∧
      (∀ sample ∈ s.accepted, sample.1 < s.connections.length) ∧
      ∀ number connection, s.connections[number]? = some connection → ∀ iteration,
        Served from_str iteration (sent_by number s.accepted) connection := by
  obtain ⟨steps, hsteps, hcollected⟩ :=
    refines_run (fun _ _ => True) (hrun.mono fun _ _ _ _ _ => trivial)
  exact ⟨steps, hsteps, hcollected.order, hcollected.sound.known, hcollected.sound.served⟩

/-- Custom metrics only, a message a minute for each stream. -/
def timed_custom : MetricsConfig :=
  { aggregation_interval := "1m", custom := { enabled := true } }

/-- One message and nothing else. -/
def one_gauge : FromStr := fun line =>
  if line = "\x7b\"name\":\"a\",\"value\":42\x7d" then some ⟨"a", 42, ∅⟩ else none

/-- The streams and labels as they come. -/
def in_order : Iteration String := ⟨id, fun keys => .refl keys⟩

/-- A client writes a message in two pieces, and closes its side. -/
def in_pieces : List Event :=
  [.connect, .write 0 (encode "\x7b\"name\":\"a\",".toList), .write 0 (encode "\"value\":42\x7d\n".toList),
    .serve 0 in_order, .close 0, .serve 0 in_order]

/-- A tick some seconds after the start, with the client connected. -/
def tick_at (secs : Nat) : Event := .tick {
  collected := []
  custom := []
  uptime_ms := UInt64.ofNat (secs * 1000)
  now := from_secs secs
  iteration := in_order
  connected := true
  outcomes := []
  checked_at := 0
  saved_at := 0
  saving := in_order
  verdicts := [] } fun _ => from_secs secs

/-- Two clients write the message, the one before a tick and the other after it. -/
def before_and_after : List Event :=
  in_pieces ++ [.try_recv, tick_at 0, .connect,
    .write 1 (encode "\x7b\"name\":\"a\",\"value\":42\x7d\n".toList), .serve 1 in_order]

theorem custom_metrics_are_collected_in_pieces : ∃ (runner : Runner) (s : Subsystem),
    Runner.new .wire timed_custom fresh_client fresh_dir 0 = .ok runner ∧
    (s.accepted.map Prod.fst = [0, 1] ∧ s.drained = [] ∧ s.channel.queue.length = 1) ∧
    ∃ steps, (run .wire timed_custom).Run (fun _ _ => True) runner steps s.runner ∧
      s.accepted.map Prod.snd = customs timed_custom steps ++ s.drained ++ s.channel.queue ∧
      (∀ sample ∈ s.accepted, sample.1 < s.connections.length) ∧
      ∀ number connection, s.connections[number]? = some connection → ∀ iteration,
        Served one_gauge iteration (sent_by number s.accepted) connection := by
  have htest : (Runner.new .wire timed_custom fresh_client fresh_dir 0).toOption.any (fun runner =>
      ((subsystem .wire timed_custom one_gauge).exec (fun _ _ => True) (start timed_custom runner true)
        before_and_after).any fun s =>
          s.accepted.map Prod.fst = [0, 1] ∧ s.drained = [] ∧ s.channel.queue.length = 1) = true := by
    decide +kernel
  obtain ⟨runner, hnew, htest⟩ := effect.exists_ok_of_any htest
  obtain ⟨s, hrun, htest⟩ := Machine.exists_run_of_exec _ htest
  exact ⟨runner, s, hnew, of_decide_eq_true htest, custom_metrics_are_collected hrun⟩

end Subsystem

/-- What the ticks of a run have fed to one stream. -/
def fed_by (cfg : MetricsConfig) (key : String) (events : List Event) : List (ℚ × UInt64) :=
  events.flatMap fun
    | .tick tick => fed_of key tick.uptime_ms (tick.feed cfg).samples
    | .shutdown _ _ => []

/-- The tick finds room for its streams, and the client takes its readings. -/
def Calm (c : Ciborium) (cfg : MetricsConfig) (s : Runner) : Event → Prop
  | .tick tick => Roomy s.agg (tick.feed cfg) ∧ Online c cfg s (.tick tick) ∧ Bounded cfg s (.tick tick)
  | .shutdown _ _ => True

instance (c : Ciborium) (cfg : MetricsConfig) (s : Runner) : (event : Event) →
    Decidable (Calm c cfg s event)
  | .tick _ => inferInstanceAs (Decidable (_ ∧ _))
  | .shutdown _ _ => inferInstanceAs (Decidable True)

theorem Calm.online {c : Ciborium} {cfg : MetricsConfig} {s : Runner} {event : Event}
    (hcalm : Calm c cfg s event) : Online c cfg s event ∧ Bounded cfg s event := by
  cases event with
  | tick tick => exact hcalm.2
  | shutdown iteration verdicts => exact ⟨trivial, trivial⟩

variable {c : Ciborium} {cfg : MetricsConfig}

/-- The account of a run of the metrics loop so far. -/
structure Accounting (cfg : MetricsConfig) (events : List Event) (s : Runner) : Prop where
  timed : s.agg.agg_duration ≠ none ∧ s.agg.agg_cbor ≠ AGG_NONE
  keyed : s.agg.Keyed
  windows : ∀ key, Accounted (fed_by cfg key events) (aggregated key s.emitted)
    (s.agg.states.lookup key)
  delivered : s.pending = [] ∧ s.outbox.accepted = s.emitted

/-- The readings of a tick account for what it was fed; the uptime belongs to no window. -/
theorem Accounting.readings {events : List Event} {s : Runner} (haccounting : Accounting cfg events s)
    {feed : Feed} (hroomy : Roomy s.agg feed) :
    let after := readings cfg s.agg feed
    (after.1.agg_duration ≠ none ∧ after.1.agg_cbor ≠ AGG_NONE) ∧ after.1.Keyed ∧
      ∀ key, Accounted (fed_by cfg key events ++ fed_of key feed.uptime_ms feed.samples)
        (aggregated key (s.emitted ++ after.2)) (after.1.states.lookup key) := by
  obtain ⟨duration, hduration⟩ := Option.ne_none_iff_exists'.mp haccounting.timed.1
  have hstanding := Standing.ingest haccounting.keyed haccounting.windows hduration
    haccounting.timed.2 hroomy
  have htimed := haccounting.timed
  rw [← hstanding.window.1, ← hstanding.window.2] at htimed
  have haccounted : ∀ key, Accounted (fed_by cfg key events ++ fed_of key feed.uptime_ms feed.samples)
      (aggregated key (s.emitted ++ (s.agg.ingest feed).2)) ((s.agg.ingest feed).1.states.lookup key) := by
    intro key
    rw [aggregated, List.filter_append]
    exact hstanding.accounted key
  unfold metrics.readings
  dsimp only
  split
  · refine ⟨htimed, hstanding.keyed, ?_⟩
    intro key
    rw [← List.append_assoc, aggregated_snoc, if_neg (fun hown => hown.1 rfl), List.append_nil]
    exact haccounted key
  · exact ⟨htimed, hstanding.keyed, haccounted⟩

theorem fed_by_append (key : String) (events more : List Event) :
    fed_by cfg key (events ++ more) = fed_by cfg key events ++ fed_by cfg key more :=
  List.flatMap_append

theorem fed_by_tick (key : String) (tick : Tick) :
    fed_by cfg key [.tick tick] = fed_of key tick.uptime_ms (tick.feed cfg).samples := List.append_nil _

theorem fed_by_shutdown (key : String) (iteration : Iteration String) (verdicts : List fs.Verdict) :
    fed_by cfg key [.shutdown iteration verdicts] = [] := rfl

theorem Accounting.step {events : List Event} {s t : Runner} {event : Event}
    (haccounting : Accounting cfg events s) (hcalm : Calm c cfg s event)
    (hstep : (run c cfg).step s event = some t) : Accounting cfg (events ++ [event]) t := by
  obtain ⟨honline, hbounded⟩ := hcalm.online
  obtain ⟨hempty, hall⟩ := haccounting.delivered
  obtain ⟨hpending, ready, hemitted, hhanded, hiff⟩ := online_step honline hempty hstep
  have hdelivered : t.pending = [] ∧ t.outbox.accepted = t.emitted := by
    rw [hhanded, hemitted, hall, capped, if_neg (not_lt.mpr (hiff.mp hbounded))]
    exact ⟨hpending, rfl⟩
  cases event with
  | tick tick =>
    obtain ⟨-, rfl⟩ := run_tick hstep
    obtain ⟨hagg, hemitted, -⟩ := (s.collect cfg tick).publish_keeps c tick
    obtain ⟨htimed, hkeyed, hwindows⟩ := haccounting.readings hcalm.1
    refine ⟨?_, ?_, ?_, hdelivered⟩
    · rw [Runner.tick, hagg]
      exact htimed
    · rw [Runner.tick, hagg]
      exact hkeyed
    · intro key
      rw [Runner.tick, hagg, hemitted, fed_by_append, fed_by_tick]
      exact hwindows key
  | shutdown iteration verdicts =>
    obtain ⟨-, rfl⟩ := run_shutdown hstep
    obtain ⟨hagg, hemitted, -⟩ := s.shutdown_keeps c iteration verdicts
    refine ⟨?_, ?_, ?_, hdelivered⟩
    · rw [hagg]
      exact haccounting.timed
    · rw [hagg]
      exact haccounting.keyed
    · intro key
      rw [hagg, hemitted, fed_by_append, fed_by_shutdown, List.append_nil]
      exact haccounting.windows key

/-- A new loop with a timed interval has nothing to account for. -/
theorem Accounting.new (htimed : cfg.aggregation_interval ≠ "none") {publisher : MqttPublisher}
    {dir : fs.Fs} {now : Instant} {s : Runner} (hnew : Runner.new c cfg publisher dir now = .ok s) :
    Accounting cfg [] s := by
  obtain ⟨hstates, -, hpending, hemitted, haccepted, -⟩ := Runner.new_eq hnew
  refine ⟨?_, .of_empty hstates, ?_, hpending, by rw [haccepted, hemitted]⟩
  · unfold Runner.new at hnew
    cases hagg : Aggregator.new c cfg dir with
    | error e =>
      rw [hagg] at hnew
      cases hnew
    | ok found =>
      rw [hagg] at hnew
      cases hnew
      exact interval_timed htimed (Aggregator.new_eq hagg).1
  · intro key
    rw [hstates, hemitted, AList.lookup_empty]
    exact ⟨[], [], rfl, .nil, rfl⟩

namespace Subsystem

variable {from_str : FromStr}

/-- A connection says gauges that go through a window. -/
theorem said_windowed (from_str : FromStr) (iteration : Iteration String) (lines : List Bytes) :
    ∀ sample ∈ said from_str iteration lines, windowed sample = true := by
  induction lines with
  | nil => simp [said]
  | cons line lines ih =>
    rw [said]
    split
    · simp
    · exact ih
    · exact List.forall_mem_cons.mpr ⟨rfl, ih⟩

theorem Served.windowed {iteration : Iteration String} {sent : List MetricSample}
    {connection : Connection} (hserved : Served from_str iteration sent connection) :
    ∀ sample ∈ sent, windowed sample = true := by
  have hsaid := said_windowed from_str iteration (split connection.read)
  by_cases hrefused : connection.pc = .refused
  · obtain ⟨last, hlast⟩ := hserved.refused hrefused
    rw [hlast] at hsaid
    exact fun sample hmem => hsaid sample (List.mem_append_left _ hmem)
  · rwa [hserved.all hrefused] at hsaid

theorem Sound.windowed {s : Subsystem} (hsound : Sound from_str s) (iteration : Iteration String) :
    ∀ sample ∈ s.accepted.map Prod.snd, windowed sample = true := by
  intro sample hmem
  obtain ⟨⟨number, sample⟩, hsample, rfl⟩ := List.mem_map.mp hmem
  have hconnection := List.getElem?_eq_getElem (hsound.known _ hsample)
  refine (hsound.served number _ hconnection iteration).windowed sample ?_
  exact List.mem_map.mpr ⟨(number, sample), List.mem_filter.mpr ⟨hsample, decide_eq_true rfl⟩, rfl⟩

/-- The custom samples that went to one stream. -/
def values_of (key : String) (samples : List MetricSample) : List ℚ :=
  (samples.filter fun sample => Aggregator.sample_key sample = key).map fun sample => sample.value.as_f64

theorem values_of_append (key : String) (samples more : List MetricSample) :
    values_of key (samples ++ more) = values_of key samples ++ values_of key more := by
  simp [values_of]

theorem map_fst_fed_of (key : String) (uptime_ms : UInt64) (samples : List (MetricSample × Instant)) :
    (fed_of key uptime_ms samples).map Prod.fst =
      values_of key ((samples.map Prod.fst).filter windowed) := by
  simp [fed_of, values_of, List.filter_map, Function.comp_def, Bool.and_comm]

/-- Among all that a stream is fed, the custom samples keep their order. -/
theorem values_of_customs {events : List metrics.Event}
    (hwindowed : ∀ sample ∈ customs cfg events, windowed sample = true) (key : String) :
    (values_of key (customs cfg events)).Sublist ((fed_by cfg key events).map Prod.fst) := by
  induction events using List.reverseRecOn with
  | nil => exact List.nil_sublist _
  | append_singleton events event ih =>
    rw [customs_append] at hwindowed ⊢
    obtain ⟨hbefore, hlast⟩ := List.forall_mem_append.mp hwindowed
    rw [fed_by_append, List.map_append, values_of_append]
    refine (ih hbefore).append ?_
    cases event with
    | shutdown iteration verdicts => exact List.nil_sublist _
    | tick tick =>
      have hgiven : (tick.feed cfg).samples.map Prod.fst =
          (if cfg.enabled then tick.collected else []).map Prod.fst ++ customs cfg [.tick tick] := by
        simp only [Tick.feed, customs, List.flatMap_cons, List.flatMap_nil, List.append_nil,
          List.map_append]
        cases cfg.custom.enabled <;> rfl
      rw [fed_by_tick, map_fst_fed_of, hgiven, List.filter_append, values_of_append,
        List.filter_eq_self.mpr hlast]
      exact List.sublist_append_right _ _

/-- Custom metrics are delivered. With a timed interval, in every interleaving in which the ticks
have room for the streams and find the client online: what the channel has taken in is fed to
its streams once and in order, but for what still waits; and the values fed to each stream fall into
consecutive groups, one for each aggregated message that the client has taken, which sums it
up, and the one in the open window. A value is taken as its `f64`. -/
theorem custom_metrics_are_delivered (htimed : cfg.aggregation_interval ≠ "none")
    {publisher : MqttPublisher} {dir : fs.Fs} {now : Instant} {runner : Runner}
    (hnew : Runner.new c cfg publisher dir now = .ok runner) {bound : Bool} {events : List Event}
    {s : Subsystem} (hrun : (subsystem c cfg from_str).Run
      (fun s event => ∀ step ∈ s.inner event, Calm c cfg s.runner step) (start cfg runner bound) events s) :
    ∃ steps, (run c cfg).Run (Calm c cfg) runner steps s.runner ∧
      s.accepted.map Prod.snd = customs cfg steps ++ s.drained ++ s.channel.queue ∧
      ∀ key, (values_of key (customs cfg steps)).Sublist ((fed_by cfg key steps).map Prod.fst) ∧
        ∃ groups last, fed_by cfg key steps = groups.flatten ++ last ∧
          List.Forall₂ Emitted groups (aggregated key s.runner.outbox.accepted) ∧
          Open (s.runner.agg.states.lookup key) last := by
  obtain ⟨steps, hsteps, hcollected⟩ := refines_run _ hrun
  have haccounting : Accounting cfg steps s.runner :=
    hsteps.history (.new htimed hnew) fun _ _ _ _ hpast hcalm hstep => hpast.step hcalm hstep
  have hwindowed : ∀ sample ∈ customs cfg steps, windowed sample = true := by
    intro sample hmem
    refine hcollected.sound.windowed ⟨id, fun keys => .refl keys⟩ sample ?_
    rw [hcollected.order, List.append_assoc]
    exact List.mem_append_left _ hmem
  refine ⟨steps, hsteps, hcollected.order, fun key => ⟨values_of_customs hwindowed key, ?_⟩⟩
  rw [haccounting.delivered.2]
  exact haccounting.windows key

theorem custom_metrics_are_delivered_minute : ∃ (runner : Runner) (s : Subsystem),
    Runner.new .wire timed_custom fresh_client fresh_dir 0 = .ok runner ∧
    s.runner.outbox.accepted ≠ [] ∧
    ∃ steps, (run .wire timed_custom).Run (Calm .wire timed_custom) runner steps s.runner ∧
      s.accepted.map Prod.snd = customs timed_custom steps ++ s.drained ++ s.channel.queue ∧
      ∀ key, (values_of key (customs timed_custom steps)).Sublist
          ((fed_by timed_custom key steps).map Prod.fst) ∧
        ∃ groups last, fed_by timed_custom key steps = groups.flatten ++ last ∧
          List.Forall₂ Emitted groups (aggregated key s.runner.outbox.accepted) ∧
          Open (s.runner.agg.states.lookup key) last := by
  have htest : (Runner.new .wire timed_custom fresh_client fresh_dir 0).toOption.any (fun runner =>
      ((subsystem .wire timed_custom one_gauge).exec
        (fun s event => ∀ step ∈ s.inner event, Calm .wire timed_custom s.runner step)
        (start timed_custom runner true) (in_pieces ++ [.try_recv, tick_at 0, tick_at 60])).any
          fun s => s.runner.outbox.accepted ≠ []) = true := by
    decide +kernel
  obtain ⟨runner, hnew, htest⟩ := effect.exists_ok_of_any htest
  obtain ⟨s, hrun, htest⟩ := Machine.exists_run_of_exec _ htest
  exact ⟨runner, s, hnew, of_decide_eq_true htest,
    custom_metrics_are_delivered (by decide) hnew hrun⟩

end Subsystem

end spotflowd.metrics
