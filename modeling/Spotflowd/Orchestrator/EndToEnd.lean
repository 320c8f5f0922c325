import Spotflowd.Orchestrator.Pipeline

open effect fs chunked
open spotflowd.buffer spotflowd.config spotflowd.log_entry spotflowd.mqtt

namespace spotflowd.orchestrator

namespace Pipeline

variable {c : Ciborium}

/-- What the channel has accepted, in order, whichever source it came from. -/
def accepted (self : Pipeline) : List LogEntry := self.sent.map Prod.snd

/-- What the channel has accepted and the ingestion task has not pushed. -/
def waiting (self : Pipeline) : List LogEntry := self.ingester.holding ++ self.channel.queue

/-- The log path stays as it is. At most one entry comes in, at the end of the queue. -/
structure Aside (s t : Pipeline) : Prop where
  system : t.system = s.system
  taken : t.taken = s.taken
  entered : ∃ entries, t.accepted = s.accepted ++ entries ∧ t.waiting = s.waiting ++ entries

/-- The ingestion task pushes the entry it holds. -/
structure Pushes (c : Ciborium) (entry : LogEntry) (s t : Pipeline) : Prop where
  ingested : ingest c entry s.system = some t.system
  taken : t.taken = s.taken ++ [entry]
  accepted : t.accepted = s.accepted
  waiting : s.waiting = entry :: t.waiting

/-- The log path takes a step of its own. -/
structure Daemon (c : Ciborium) (event : orchestrator.Event) (s t : Pipeline) : Prop where
  other : pushes [event] = []
  stepped : (orchestrator.run c).step s.system event = some t.system
  taken : t.taken = s.taken
  accepted : t.accepted = s.accepted
  waiting : t.waiting = s.waiting

theorem Aside.still {s t : Pipeline} (hsystem : t.system = s.system) (htaken : t.taken = s.taken)
    (hsent : t.sent = s.sent) (hwaiting : t.waiting = s.waiting) : Aside s t :=
  ⟨hsystem, htaken, [], by rw [accepted, hsent, accepted, List.append_nil],
    by rw [hwaiting, List.append_nil]⟩

theorem send_aside {source : Source} {entry : LogEntry} {s t : Pipeline}
    (hsend : s.send source entry = some t) : Aside s t := by
  unfold send at hsend
  split at hsend
  · split at hsend
    · cases hsend
      exact .still rfl rfl rfl rfl
    · obtain ⟨channel, hchannel, rfl⟩ := Option.map_eq_some_iff.mp hsend
      refine ⟨rfl, rfl, [entry], by simp [accepted], ?_⟩
      simp [waiting, (Channel.send_eq_some hchannel).2]
  · cases hsend

theorem receive_aside {s t : Pipeline} (hreceive : s.receive = some t) : Aside s t := by
  unfold receive at hreceive
  split at hreceive
  · next hready =>
    obtain ⟨⟨first, channel⟩, hrecv, rfl⟩ := Option.map_eq_some_iff.mp hreceive
    refine .still rfl rfl rfl ?_
    simp [waiting, Ingester.holding, hready, Channel.recv_eq_some hrecv]
  · cases hreceive

theorem push_pushes {s t : Pipeline} (hpush : s.push c = some t) : ∃ entry, Pushes c entry s t := by
  unfold push at hpush
  split at hpush
  · next entry hlocking =>
    obtain ⟨system, hingest, rfl⟩ := Option.map_eq_some_iff.mp hpush
    exact ⟨entry, hingest, rfl, rfl, by simp [waiting, hlocking, Ingester.holding]⟩
  · cases hpush

theorem daemon_steps {event : orchestrator.Event} {s t : Pipeline}
    (hdaemon : s.daemon c event = some t) : Daemon c event s t := by
  have hsteps : pushes [event] = [] →
      ((orchestrator.run c).step s.system event).map (fun system => { s with system := system }) =
        some t → Daemon c event s t := by
    intro hother hstep
    obtain ⟨system, hsystem, rfl⟩ := Option.map_eq_some_iff.mp hstep
    exact ⟨hother, hsystem, rfl, rfl, rfl⟩
  cases event with
  | push entry => cases hdaemon
  | shutdown =>
    simp only [daemon] at hdaemon
    split at hdaemon
    · exact hsteps rfl hdaemon
    · cases hdaemon
  | link connected => exact hsteps rfl hdaemon
  | tick => exact hsteps rfl hdaemon
  | flush => exact hsteps rfl hdaemon

/-- What a step can do: leave the log path alone, push an entry, or be a step of the log path. -/
theorem step_cases {event : Event} {s t : Pipeline} (hstep : (run c).step s event = some t) :
    Aside s t ∨ (event = .push ∧ ∃ entry, Pushes c entry s t) ∨
      ∃ inner, event = .daemon inner ∧ Daemon c inner s t := by
  have hended : s.ingester = .receiving →
      some { s with ingester := Ingester.finished } = some t → Aside s t := by
    intro hready hsome
    cases hsome
    exact .still rfl rfl rfl (by simp [waiting, hready, Ingester.holding])
  cases event with
  | send source entry => exact Or.inl (send_aside hstep)
  | leave source =>
    simp only [run] at hstep
    split at hstep
    · cases hstep
      exact Or.inl (.still rfl rfl rfl rfl)
    · cases hstep
  | receive => exact Or.inl (receive_aside hstep)
  | push => exact Or.inr (Or.inl ⟨rfl, push_pushes hstep⟩)
  | close =>
    simp only [run] at hstep
    split at hstep
    · next hclosed => exact Or.inl (hended hclosed.1 hstep)
    · cases hstep
  | stop =>
    simp only [run] at hstep
    split at hstep
    · next hstopped => exact Or.inl (hended hstopped.1 hstep)
    · cases hstep
  | signal =>
    cases hstep
    exact Or.inl (.still rfl rfl rfl rfl)
  | daemon inner => exact Or.inr (Or.inr ⟨inner, rfl, daemon_steps hstep⟩)

/-- What the ingestion task has taken, what it holds and what waits in the channel make up
what the channel has accepted, in this order. -/
def InOrder (self : Pipeline) : Prop := self.accepted = self.taken ++ self.waiting

theorem InOrder.step {event : Event} {s t : Pipeline} (horder : s.InOrder)
    (hstep : (run c).step s event = some t) : t.InOrder := by
  unfold InOrder at horder ⊢
  obtain haside | ⟨-, entry, hpushes⟩ | ⟨inner, -, hdaemon⟩ := step_cases hstep
  · obtain ⟨entries, haccepted, hwaiting⟩ := haside.entered
    rw [haccepted, horder, haside.taken, hwaiting, List.append_assoc]
  · rw [hpushes.accepted, horder, hpushes.taken, hpushes.waiting, List.append_assoc,
      List.singleton_append]
  · rw [hdaemon.accepted, horder, hdaemon.taken, hdaemon.waiting]

theorem InOrder.start (sources : SourcesConfig) (cfg : ValidBufferConfig) (fs : Fs)
    (publisher : MqttPublisher) : (start sources cfg fs publisher).InOrder := rfl

/-- The log path inside the pipeline takes the steps of `orchestrator.run`, its pushes being
what the ingestion task takes out of the channel. `inside` says which of these steps follow
from the steps `allowed` in the pipeline. -/
theorem refines_run {allowed : Pipeline → Event → Prop}
    (inside : System → orchestrator.Event → Prop)
    (hpush : ∀ s entry, allowed s .push → inside s.system (.push entry))
    (hdaemon : ∀ s inner, allowed s (.daemon inner) → inside s.system inner)
    {s₀ s : Pipeline} {events : List Event} (hrun : (run c).Run allowed s₀ events s)
    (hfresh : s₀.taken = []) (horder : s₀.InOrder) :
    ∃ steps, (orchestrator.run c).Run inside s₀.system steps s.system ∧
      s.taken = pushes steps ∧ s.InOrder := by
  refine hrun.simulates Pipeline.system (fun steps s => s.taken = pushes steps ∧ s.InOrder)
    ⟨hfresh, horder⟩ ?_
  intro past t event u ⟨htaken, horder⟩ hallowed hstep
  have horder' := horder.step hstep
  obtain haside | ⟨rfl, entry, hpushes⟩ | ⟨inner, rfl, hinner⟩ := step_cases hstep
  · exact Or.inl ⟨haside.system, haside.taken.trans htaken, horder'⟩
  · refine Or.inr ⟨.push entry, hpush t entry hallowed, hpushes.ingested, ?_, horder'⟩
    rw [hpushes.taken, htaken, pushes_append, pushes_push]
  · refine Or.inr ⟨inner, hdaemon t inner hallowed, hinner.stepped, ?_, horder'⟩
    rw [hinner.taken, htaken, pushes_append_of_nil hinner.other]

/-- The channel and the ingestion task only delay. In every run, whatever fails, the log path
has taken the steps of `orchestrator.run`, pushing what the channel has accepted in the
order in which it was accepted; no more than the channel's capacity and one entry are late. -/
theorem ingestion_only_delays {sources : SourcesConfig} {cfg : ValidBufferConfig} {fs : Fs}
    {publisher : MqttPublisher} {events : List Event} {s : Pipeline}
    (hrun : (run c).Run (fun _ _ => True) (start sources cfg fs publisher) events s) :
    ∃ steps, (orchestrator.run c).Run (fun _ _ => True) (orchestrator.start cfg fs publisher) steps
        s.system ∧
      s.accepted = pushes steps ++ s.waiting ∧ s.waiting.length ≤ CHANNEL_CAPACITY + 1 := by
  obtain ⟨steps, hsteps, htaken, horder⟩ := refines_run (fun _ _ => True)
    (fun _ _ _ => trivial) (fun _ _ _ => trivial) hrun rfl (InOrder.start sources cfg fs publisher)
  refine ⟨steps, hsteps, by rw [horder, htaken], ?_⟩
  have hbounded := s.channel.bounded
  have hheld : s.ingester.holding.length ≤ 1 := by
    cases s.ingester <;> simp [Ingester.holding]
  rw [waiting, List.length_append]
  omega

/-- A device that follows syslog, with room for two entries in memory. -/
def following (publisher : MqttPublisher) : Pipeline :=
  start ⟨false, true⟩ (.sized 2 1 Nat.two_pos Nat.one_pos) ⟨none, [], [], []⟩ publisher

/-- Two entries come in, the first is handed over. -/
def two_entries : List Event :=
  [.send .syslog (entry "a"), .receive, .send .syslog (entry "b"), .push, .daemon .tick, .daemon .tick,
    .daemon .tick, .daemon .tick]

theorem ingestion_only_delays_two : ∃ s : Pipeline, s.accepted = [entry "a", entry "b"] ∧
    ∃ steps, (orchestrator.run .wire).Run (fun _ _ => True) (following ⟨true, [], [], []⟩).system steps
        s.system ∧
      s.accepted = pushes steps ++ s.waiting ∧ s.waiting.length ≤ CHANNEL_CAPACITY + 1 := by
  have hexec : ((run .wire).exec (fun _ _ => True) (following ⟨true, [], [], []⟩) two_entries).any
      (fun s => s.accepted = [entry "a", entry "b"]) = true := by
    rfl
  obtain ⟨s, hrun, htest⟩ := Machine.exists_run_of_exec _ hexec
  exact ⟨s, of_decide_eq_true htest, ingestion_only_delays hrun⟩

/-- A step without failures, as for the log path alone. -/
def Smooth (c : Ciborium) (s : Pipeline) : Event → Prop
  | .push => PushFits c s.system.storage
  | .daemon event => FailureFree c s.system event
  | _ => True

instance (c : Ciborium) (s : Pipeline) : (event : Event) → Decidable (Smooth c s event)
  | .push => inferInstanceAs (Decidable (PushFits c s.system.storage))
  | .daemon event => inferInstanceAs (Decidable (FailureFree c s.system event))
  | .send _ _ => inferInstanceAs (Decidable True)
  | .leave _ => inferInstanceAs (Decidable True)
  | .receive => inferInstanceAs (Decidable True)
  | .close => inferInstanceAs (Decidable True)
  | .stop => inferInstanceAs (Decidable True)
  | .signal => inferInstanceAs (Decidable True)

/-- Exactly once from the sources to the client. Without failures, in every state between
two ticks, whatever the sources, the ingestion task and the publish loop have done in
between, the entries the channel has accepted and those in the initial chunks are the
entries handed to the client, those in memory, in chunk files, with the ingestion task and
in the channel, each of them exactly once. -/
theorem exactly_once_end_to_end (hround : c.RoundTrips) {sources : SourcesConfig}
    {cfg : ValidBufferConfig} {fs : Fs} {publisher : MqttPublisher} (hquiet : fs.verdicts = [])
    (hhanded : publisher.handed = []) {events : List Event} {s : Pipeline}
    (hrun : (run c).Run (Smooth c) (start sources cfg fs publisher) events s)
    (hidle : s.system.tick = .idle) :
    disk_entries c fs.files + ↑s.accepted =
      ↑s.system.publisher.handed + ↑s.system.storage.buf.memory +
        disk_entries c s.system.storage.fs.files + ↑s.waiting := by
  obtain ⟨steps, hsteps, htaken, horder⟩ := refines_run (FailureFree c)
    (fun _ _ hallowed => hallowed) (fun _ _ hallowed => hallowed) hrun rfl rfl
  obtain ⟨hconserved, hpushed⟩ : Conserved c (disk_entries c fs.files) s.system ∧
      s.system.pushed = pushes steps := by
    refine hsteps.history (P := fun past s => Conserved c (disk_entries c fs.files) s ∧
      s.pushed = pushes past) ⟨.start cfg hquiet hhanded, rfl⟩ ?_
    intro past t event u ⟨hinv, hpast⟩ hallowed hstep
    obtain ⟨hinv', hpushed⟩ := hinv.step hround hallowed hstep
    exact ⟨hinv', by rw [hpushed, hpast, pushes_append]⟩
  have hbalance := hconserved.balance
  simp only [held, hidle, Tick.in_flight, Tick.handed_from_chunk, contents, Multiset.coe_nil,
    add_zero] at hbalance
  rw [horder, htaken, ← hpushed, ← Multiset.coe_add, ← add_assoc, ← hbalance]
  abel

theorem exactly_once_end_to_end_two : ∃ s : Pipeline,
    s.system.publisher.handed = [entry "a"] ∧ s.waiting = [entry "b"] ∧
      disk_entries .wire ∅ + ↑s.accepted =
        ↑s.system.publisher.handed + ↑s.system.storage.buf.memory +
          disk_entries .wire s.system.storage.fs.files + ↑s.waiting := by
  have hexec : ((run .wire).exec (Smooth .wire) (following ⟨true, [], [], []⟩) two_entries).any
      (fun s => s.system.tick = .idle ∧ s.system.publisher.handed = [entry "a"] ∧
        s.waiting = [entry "b"]) = true := by
    rfl
  obtain ⟨s, hrun, htest⟩ := Machine.exists_run_of_exec _ hexec
  obtain ⟨hidle, hhanded, hwaiting⟩ := of_decide_eq_true htest
  exact ⟨s, hhanded, hwaiting, exactly_once_end_to_end Ciborium.wire_roundTrips rfl rfl hrun hidle⟩

/-- Nothing is given up, as for the log path alone. -/
def Careful (c : Ciborium) (s : Pipeline) : Event → Prop
  | .push => PushFits c s.system.storage ∧ s.system.phase ≠ .stopped
  | .daemon event => Healthy c s.system event ∧ Graceful c s.system event
  | _ => True

instance (c : Ciborium) (s : Pipeline) : (event : Event) → Decidable (Careful c s event)
  | .push => inferInstanceAs (Decidable (_ ∧ _))
  | .daemon event => inferInstanceAs (Decidable (Healthy c s.system event ∧ Graceful c s.system event))
  | .send _ _ => inferInstanceAs (Decidable True)
  | .leave _ => inferInstanceAs (Decidable True)
  | .receive => inferInstanceAs (Decidable True)
  | .close => inferInstanceAs (Decidable True)
  | .stop => inferInstanceAs (Decidable True)
  | .signal => inferInstanceAs (Decidable True)

theorem pushed_of_healthy (hround : c.RoundTrips) {total : Multiset LogEntry} {s t : System}
    {event : orchestrator.Event} (hkept : Kept c total s) (hhealthy : Healthy c s event)
    (hstep : (orchestrator.run c).step s event = some t) : t.pushed = s.pushed ++ pushes [event] := by
  cases event with
  | push entry => exact (ingest_balance hround hkept.intact hhealthy hstep).2.2.1
  | link connected =>
    cases hstep
    exact (List.append_nil _).symm
  | tick =>
    obtain ⟨-, rfl⟩ := run_tick_eq_some hstep
    exact (publish_tick_pushed s).trans (List.append_nil _).symm
  | shutdown =>
    simp only [orchestrator.run] at hstep
    split at hstep
    · cases hstep
      exact (List.append_nil _).symm
    · cases hstep
  | flush =>
    simp only [orchestrator.run] at hstep
    split at hstep
    · cases hstep
      exact (List.append_nil _).symm
    · cases hstep

/-- Shutdown loses at most what the ingestion task has not taken. When nothing is given up
on the way, once the publish loop has ended, every entry the channel has ever accepted and
every entry of the initial chunks has been handed over, is in a chunk file, or is among
those still in the channel or with the ingestion task. -/
theorem shutdown_loses_only_the_waiting (hround : c.RoundTrips) {sources : SourcesConfig}
    {cfg : ValidBufferConfig} {fs : Fs} {publisher : MqttPublisher} (hquiet : fs.verdicts = [])
    (hhanded : publisher.handed = []) {events : List Event} {s : Pipeline}
    (hrun : (run c).Run (Careful c) (start sources cfg fs publisher) events s)
    (hstopped : s.system.phase = .stopped) :
    disk_entries c fs.files + ↑s.accepted ≤
      ↑s.system.publisher.handed + disk_entries c s.system.storage.fs.files + ↑s.waiting := by
  obtain ⟨steps, hsteps, htaken, horder⟩ :=
    refines_run (fun s event => Healthy c s event ∧ Graceful c s event)
      (fun _ _ hallowed => hallowed) (fun _ _ hallowed => hallowed) hrun rfl rfl
  obtain ⟨hkept, hpushed⟩ : Kept c (disk_entries c fs.files) s.system ∧
      s.system.pushed = pushes steps := by
    refine hsteps.history (P := fun past s => Kept c (disk_entries c fs.files) s ∧
      s.pushed = pushes past) ⟨(Conserved.start cfg hquiet hhanded).kept rfl, rfl⟩ ?_
    intro past t event u ⟨hinv, hpast⟩ hallowed hstep
    refine ⟨hinv.step hround hallowed hstep, ?_⟩
    rw [pushed_of_healthy hround hinv hallowed.1 hstep, hpast, pushes_append]
  have hbound := hkept.bound
  have htick : s.system.tick = .idle := hkept.dropped (by rw [hstopped]; nofun)
  simp only [held, htick, contents, hkept.flushed hstopped, Tick.in_flight, Tick.handed_from_chunk,
    Multiset.coe_nil, add_zero, zero_add] at hbound
  rw [horder, htaken, ← hpushed, ← Multiset.coe_add, ← add_assoc]
  refine add_le_add ?_ le_rfl
  rwa [add_comm (disk_entries c s.system.storage.fs.files)] at hbound

/-- The signal comes when the first entry has been handed over and the second is in the channel. -/
theorem shutdown_loses_only_the_waiting_two : ∃ s : Pipeline,
    s.accepted = [entry "a", entry "b"] ∧ s.waiting = [entry "b"] ∧ s.ingester = .finished ∧
      disk_entries .wire ∅ + ↑s.accepted ≤
        ↑s.system.publisher.handed + disk_entries .wire s.system.storage.fs.files + ↑s.waiting := by
  have hexec : ((run .wire).exec (Careful .wire) (following ⟨true, [], [], []⟩)
      (two_entries ++ [.signal, .stop, .daemon .shutdown, .daemon .flush])).any (fun s =>
        s.system.phase = .stopped ∧ s.accepted = [entry "a", entry "b"] ∧
          s.waiting = [entry "b"] ∧ s.ingester = .finished) = true := by
    rfl
  obtain ⟨s, hrun, htest⟩ := Machine.exists_run_of_exec _ hexec
  obtain ⟨hstopped, haccepted, hwaiting, hfinished⟩ := of_decide_eq_true htest
  exact ⟨s, haccepted, hwaiting, hfinished,
    shutdown_loses_only_the_waiting Ciborium.wire_roundTrips rfl rfl hrun hstopped⟩

/-- The daemon's own steps. -/
def Internal (_ : Pipeline) : Event → Prop
  | .receive => True
  | .push => True
  | .daemon event => event = .tick
  | _ => False

/-- The lock is held inside a tick only, and once the publish loop has left, no tick runs. -/
def Unlocked (s : System) : Prop := s.phase ≠ .running → s.tick = .idle

theorem Unlocked.step {s t : System} {event : orchestrator.Event} (hunlocked : Unlocked s)
    (hstep : (orchestrator.run c).step s event = some t) : Unlocked t := by
  cases event with
  | push entry =>
    obtain ⟨-, ⟨storage, -, rfl⟩ | ⟨e, storage, -, rfl⟩⟩ := ingest_cases hstep
    all_goals exact hunlocked
  | link connected =>
    cases hstep
    exact hunlocked
  | tick =>
    obtain ⟨hrunning, rfl⟩ := run_tick_eq_some hstep
    exact fun hleft => absurd ((publish_tick_phase c s).trans hrunning) hleft
  | shutdown =>
    simp only [orchestrator.run] at hstep
    split at hstep
    · cases hstep
      exact fun _ => rfl
    · cases hstep
  | flush =>
    simp only [orchestrator.run] at hstep
    split at hstep
    · next hstopping =>
      cases hstep
      exact fun _ => hunlocked (by simp [hstopping])
    · cases hstep

/-- A tick that holds the lock gives it back with its next step. -/
theorem publish_tick_unlocks {s : System} (hheld : s.tick.holds_lock = true) :
    (publish_tick c s).tick = .idle := by
  unfold publish_tick
  cases htick : s.tick with
  | sleeping held => rfl
  | delete_chunk path read held => rfl
  | _ =>
    rw [htick] at hheld
    cases hheld

theorem ingest_of_unlocked {s : System} (entry : LogEntry) (hfree : s.tick.holds_lock = false) :
    ∃ t, ingest c entry s = some t := by
  unfold ingest
  rw [hfree, if_neg Bool.false_ne_true]
  split
  · exact ⟨_, rfl⟩
  · exact ⟨_, rfl⟩

/-- The ingestion task, receiving, takes an entry out of a channel that is not empty. -/
theorem receive_frees {s : Pipeline} (hready : s.ingester = .receiving)
    (hwaiting : s.channel.queue ≠ []) : ∃ t : Pipeline, (run c).step s .receive = some t ∧
      t.live = s.live ∧ t.channel.queue.length < s.channel.queue.length := by
  obtain ⟨first, channel, hrecv⟩ := Channel.exists_recv hwaiting
  refine ⟨{ s with channel := channel, ingester := .locking first }, ?_, rfl, ?_⟩
  · simp [run, receive, hready, hrecv]
  · simp [Channel.recv_eq_some hrecv]

/-- With the lock free, the ingestion task pushes what it holds and receives again. -/
theorem push_frees {s : Pipeline} {entry : LogEntry} (hlocking : s.ingester = .locking entry)
    (hfree : s.system.tick.holds_lock = false) : ∃ t : Pipeline, (run c).step s .push = some t ∧
      t.ingester = .receiving ∧ t.live = s.live ∧ t.channel = s.channel := by
  obtain ⟨system, hingest⟩ := ingest_of_unlocked (c := c) entry hfree
  refine ⟨{ s with system := system, ingester := .receiving, taken := s.taken ++ [entry] },
    ?_, rfl, rfl, rfl⟩
  simp [run, push, hlocking, hingest]

/-- From every state with room to make, at most three steps of the daemon make it. -/
theorem room_is_made {s : Pipeline} (hunlocked : Unlocked s.system) (hopen : s.ingester ≠ .finished)
    (hwaiting : s.channel.queue ≠ []) :
    ∃ steps t, steps.length ≤ 3 ∧ (run c).Run Internal s steps t ∧ t.live = s.live ∧
      t.channel.queue.length < s.channel.queue.length := by
  cases hingester : s.ingester with
  | finished => exact absurd hingester hopen
  | receiving =>
    obtain ⟨t, hreceive, hlive, hless⟩ := receive_frees (c := c) hingester hwaiting
    exact ⟨[.receive], t, by decide, .single trivial hreceive, hlive, hless⟩
  | locking entry =>
    have hpushed : ∀ s' : Pipeline, s'.ingester = .locking entry →
        s'.system.tick.holds_lock = false → s'.channel = s.channel → s'.live = s.live →
        ∃ t, (run c).Run Internal s' [.push, .receive] t ∧ t.live = s.live ∧
          t.channel.queue.length < s.channel.queue.length := by
      intro s' hlocking hfree hchannel hlive
      obtain ⟨u, hpush, hready, hlive', hchannel'⟩ := push_frees (c := c) hlocking hfree
      have hsame := hchannel'.trans hchannel
      obtain ⟨t, hreceive, hlive'', hless⟩ :=
        receive_frees (c := c) hready (by rw [hsame]; exact hwaiting)
      rw [hsame] at hless
      exact ⟨t, (Machine.Run.single trivial hpush).trans (.single trivial hreceive),
        hlive''.trans (hlive'.trans hlive), hless⟩
    cases hheld : s.system.tick.holds_lock with
    | false =>
      obtain ⟨t, hrun, hlive, hless⟩ := hpushed s hingester hheld rfl rfl
      exact ⟨_, t, by decide, hrun, hlive, hless⟩
    | true =>
      have hrunning : s.system.phase = .running := by
        by_contra hleft
        rw [hunlocked hleft] at hheld
        cases hheld
      have htick : (run c).step s (.daemon .tick) =
          some { s with system := publish_tick c s.system } := by
        simp [run, daemon, orchestrator.run, hrunning]
      obtain ⟨t, hrun, hlive, hless⟩ := hpushed { s with system := publish_tick c s.system }
        hingester (by simp [publish_tick_unlocks hheld, Tick.holds_lock]) rfl rfl
      have hall : (run c).Run Internal s ([.daemon .tick] ++ [.push, .receive]) t :=
        (Machine.Run.single (show Internal s (.daemon .tick) from rfl) htick).trans hrun
      exact ⟨_, t, by decide, hall, hlive, hless⟩

/-- No source waits forever. In every state that any run reaches (whatever failed on the way),
a source that wants to send an entry can do so after at most three steps of the daemon: the
channel accepts the entry, or, once the ingestion task has ended, the source is turned away. -/
theorem no_source_waits_forever {sources : SourcesConfig} {cfg : ValidBufferConfig} {fs : Fs}
    {publisher : MqttPublisher} {events : List Event} {s : Pipeline}
    (hrun : (run c).Run (fun _ _ => True) (start sources cfg fs publisher) events s)
    {source : Source} (hlive : source ∈ s.live) (entry : LogEntry) :
    ∃ steps t u, steps.length ≤ 3 ∧ (run c).Run Internal s steps t ∧
      (run c).step t (.send source entry) = some u ∧
      (u.sent = t.sent ++ [(source, entry)] ∨
        t.ingester = .finished ∧ u.live = t.live.erase source) := by
  have hunlocked : Unlocked s.system := by
    refine hrun.invariant (P := fun s => Unlocked s.system) (fun hleft => absurd rfl hleft) ?_
    intro t event u hinv _ hstep
    obtain haside | ⟨-, entry, hpushes⟩ | ⟨inner, -, hdaemon⟩ := step_cases hstep
    · rw [haside.system]
      exact hinv
    · have hstepped : (orchestrator.run c).step t.system (.push entry) = some u.system := hpushes.ingested
      exact hinv.step hstepped
    · exact hinv.step hdaemon.stepped
  have hsends : ∀ t : Pipeline, t.live = s.live → t.ingester = .finished ∨
      t.channel.queue.length < CHANNEL_CAPACITY → ∃ u, (run c).step t (.send source entry) = some u ∧
        (u.sent = t.sent ++ [(source, entry)] ∨
          t.ingester = .finished ∧ u.live = t.live.erase source) := by
    intro t hsame hturn
    by_cases hfinished : t.ingester = .finished
    · exact ⟨{ t with live := t.live.erase source }, by simp [run, send, hsame, hlive, hfinished],
        Or.inr ⟨hfinished, rfl⟩⟩
    · have hroom := hturn.resolve_left hfinished
      obtain ⟨channel, hsend⟩ := Option.ne_none_iff_exists'.mp
        (mt Channel.send_eq_none.mp (Nat.ne_of_lt hroom) : t.channel.send entry ≠ none)
      exact ⟨{ t with channel := channel, sent := t.sent ++ [(source, entry)] },
        by simp [run, send, hsame, hlive, hfinished, hsend], Or.inl rfl⟩
  by_cases hturn : s.ingester = .finished ∨ s.channel.queue.length < CHANNEL_CAPACITY
  · obtain ⟨u, hsend, houtcome⟩ := hsends s rfl hturn
    exact ⟨[], s, u, by decide, .nil s, hsend, houtcome⟩
  · rw [not_or, not_lt] at hturn
    have hwaiting : s.channel.queue ≠ [] := by
      intro hnil
      rw [hnil] at hturn
      exact absurd hturn.2 (by decide)
    obtain ⟨steps, t, hfew, hmade, hsame, hless⟩ := room_is_made (c := c) hunlocked hturn.1 hwaiting
    obtain ⟨u, hsend, houtcome⟩ := hsends t hsame (Or.inr (hless.trans_le s.channel.bounded))
    exact ⟨steps, t, u, hfew, hmade, hsend, houtcome⟩

/-- One entry waits, and the source has another one. -/
theorem no_source_waits_forever_second : ∃ (steps : List Event) (t u : Pipeline), steps.length ≤ 3 ∧
    (run .wire).step t (.send .syslog (entry "b")) = some u ∧
      (u.sent = t.sent ++ [(.syslog, entry "b")] ∨
        t.ingester = .finished ∧ u.live = t.live.erase .syslog) := by
  have hexec : ((run .wire).exec (fun _ _ => True) (following ⟨true, [], [], []⟩)
      [.send .syslog (entry "a")]).any (fun s => Source.syslog ∈ s.live) = true := by
    rfl
  obtain ⟨s, hrun, htest⟩ := Machine.exists_run_of_exec _ hexec
  obtain ⟨steps, t, u, hfew, -, hsend, houtcome⟩ :=
    no_source_waits_forever hrun (of_decide_eq_true htest) (entry "b")
  exact ⟨steps, t, u, hfew, hsend, houtcome⟩

end Pipeline

end spotflowd.orchestrator
