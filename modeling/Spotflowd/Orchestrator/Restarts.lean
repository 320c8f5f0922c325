import Spotflowd.Buffer.Interrupted
import Spotflowd.Buffer.Wear
import Spotflowd.Orchestrator.Shutdown

open effect fs chunked
open spotflowd.buffer spotflowd.config spotflowd.log_entry spotflowd.mqtt

namespace spotflowd.orchestrator

/-- The entries the tick is about to push back. -/
def Tick.pushing : Tick → List LogEntry
  | .lock_requeue batch => batch
  | .lock_tail _ entries published => (entries.drop published).reverse
  | _ => []

/-- The process dies during an event, and its storage is left like this. Only a push or the final
flush can be cut off half-way, and a push when it flushes the memory. -/
def DiesDuring (c : Ciborium) (s : System) : Event → Storage → Prop
  | .push entry, left => (Buffer.push_steps c entry).cut s.storage left
  | .link _, left => left = s.storage
  | .tick, left => left = s.storage ∨ ∃ before entry after, s.tick.pushing = before ++ entry :: after ∧
      (Buffer.push_steps c entry).cut (push_all c before s.storage) left
  | .shutdown, left => left = s.storage
  | .flush, left => s.phase = .stopping ∧ (Buffer.flush_memory_to_disk_steps c).cut s.storage left

/-- The log path over several processes. `earlier` is what the processes before the present one
have pushed, `crashes` the number of those that have not come to the end of their final flush. -/
structure Service where
  system : System
  earlier : List LogEntry
  crashes : Nat

namespace Service

inductive Event where
  | process (event : orchestrator.Event)
  /-- the process ends, perhaps during an event, and another one finds what it has left -/
  | restart (during : orchestrator.Event) (left : Storage) (publisher : MqttPublisher)

/-- The first process. -/
def start (cfg : ValidBufferConfig) (fs : Fs) (publisher : MqttPublisher) : Service where
  system := orchestrator.start cfg fs publisher
  earlier := []
  crashes := 0

def service (c : Ciborium) (cfg : ValidBufferConfig) : Machine Service Event where
  step s
    | .process event => ((run c).step s.system event).map fun t => { s with system := t }
    | .restart _ left publisher => some
      { system := orchestrator.start cfg left.fs publisher
        earlier := s.earlier ++ s.system.pushed
        crashes := if s.system.phase = .stopped then s.crashes else s.crashes + 1 }

/-- All entries that any process has pushed. -/
def pushed (s : Service) : List LogEntry := s.earlier ++ s.system.pushed

/-- Nothing is given up while a process is alive. It may die at any point; what its client has
been handed stays handed. -/
def Spared (c : Ciborium) (s : Service) : Event → Prop
  | .process event => Healthy c s.system event ∧ Graceful c s.system event
  | .restart during left publisher => Healthy c s.system during ∧ DiesDuring c s.system during left ∧
      publisher.handed = s.system.publisher.handed

end Service

variable {c : Ciborium} {cfg : ValidBufferConfig}

/-- What the tick has drained from memory, handed over or not. -/
def Tick.drained : Tick → List LogEntry
  | .memory_batch sent unsent later => sent ++ unsent ++ later.flatten
  | .lock_requeue batch => batch
  | _ => []

theorem length_in_flight_le (tick : Tick) : tick.in_flight.length ≤ tick.drained.length := by
  cases tick with
  | memory_batch sent unsent later => simp [Tick.in_flight, Tick.drained]
  | _ => exact le_rfl

/-- The memory keeps to its limit, and so does what has been drained from it. -/
structure Modest (cfg : ValidBufferConfig) (s : System) : Prop where
  same_cfg : s.storage.buf.cfg = cfg
  memory : s.storage.buf.memory.length ≤ cfg.memory_max_entries
  drained : s.tick.drained.length ≤ cfg.memory_max_entries

theorem read_chunk_buf (path : FileName) :
    Respects (fun s t : Storage => t.buf = s.buf) (Buffer.read_chunk c path) := by
  have htrans : ∀ s t u : Storage, t.buf = s.buf → u.buf = t.buf → u.buf = s.buf :=
    fun _ _ _ hfirst hsecond => hsecond.trans hfirst
  have hread : ∀ context : Option String,
      Respects (fun s t : Storage => t.buf = s.buf) (on_disk context (fs.read path)) :=
    fun _ => Respects.zoom (S := fun _ _ => True) (fun _ => trivial) fun _ _ _ => rfl
  apply Respects.bind htrans (fun _ => rfl)
  intro s
  apply Respects.bind htrans (hread _)
  intro data
  split
  · exact fun _ => rfl
  · exact fun _ => rfl

/-- However a push ends, the memory is within its limit. -/
theorem push_memory_le (entry : LogEntry) (s : Storage) :
    (finalState (Buffer.push c entry s)).buf.memory.length ≤ s.buf.cfg.memory_max_entries := by
  by_cases hfull : s.buf.cfg.memory_max_entries ≤ s.buf.memory.length
  · have hempty := (Buffer.flush_memory_to_disk_buf c s).1
    rw [Buffer.push_of_full hfull, bind_run]
    cases hrun : Buffer.flush_memory_to_disk c s with
    | ok _ t =>
      rw [hrun, finalState_ok] at hempty
      simp only [Buffer.update, modify_run, finalState_ok, hempty]
      exact s.buf.cfg.memory_pos
    | error e t =>
      rw [hrun] at hempty
      rw [hempty]
      exact Nat.zero_le _
  · rw [not_le] at hfull
    rw [Buffer.push_of_room entry hfull, finalState_ok, List.length_append]
    exact hfull

theorem push_all_memory_le (entries : List LogEntry) {s : Storage} (hcfg : s.buf.cfg = cfg)
    (hmemory : s.buf.memory.length ≤ cfg.memory_max_entries) :
    (push_all c entries s).buf.cfg = cfg ∧
      (push_all c entries s).buf.memory.length ≤ cfg.memory_max_entries := by
  induction entries generalizing s with
  | nil => exact ⟨hcfg, hmemory⟩
  | cons entry entries ih =>
    subst hcfg
    exact ih (Buffer.push_buf c entry s).2 (push_memory_le entry s)

theorem drained_next_memory_batch (batches : List (List LogEntry)) :
    (next_memory_batch batches).drained = batches.flatten := by
  cases batches <;> rfl

theorem drained_disk_done (path : FileName) (entries : List LogEntry) (published : Nat) :
    (disk_done path entries published).drained = [] := by
  unfold disk_done
  split
  · rfl
  · split <;> rfl

theorem drained_next_disk_batch (path : FileName) (entries : List LogEntry) (published : Nat)
    (batches : List (List LogEntry)) : (next_disk_batch path entries published batches).drained = [] := by
  cases batches with
  | nil => exact drained_disk_done path entries published
  | cons batch later => rfl

/-- What a tick has drained, it drained before, or it is what the memory holds. -/
theorem drained_publish_tick (c : Ciborium) (s : System) :
    (publish_tick c s).tick.drained.length ≤ max s.tick.drained.length s.storage.buf.memory.length := by
  unfold publish_tick
  cases htick : s.tick with
  | idle =>
    simp only
    split <;> exact Nat.zero_le _
  | sleeping held => exact Nat.zero_le _
  | lock_memory =>
    simp only
    split
    · rw [drained_next_memory_batch, flatten_chunks (by decide)]
      exact le_max_right _ _
    · exact Nat.zero_le _
  | memory_batch sent unsent later =>
    apply le_max_of_le_left
    cases unsent with
    | nil =>
      rw [drained_next_memory_batch]
      exact (List.sublist_append_right _ _).length_le
    | cons entry unsent =>
      simp only
      split
      · rw [Tick.drained, Tick.drained, List.append_assoc sent, List.singleton_append]
      · exact (List.sublist_append_left _ _).length_le
  | lock_requeue batch => exact Nat.zero_le _
  | lock_disk =>
    simp only
    split <;> exact Nat.zero_le _
  | read_chunk path =>
    simp only
    split
    · rw [drained_next_disk_batch]
      exact Nat.zero_le _
    · exact Nat.zero_le _
  | disk_batch path entries published sent unsent later =>
    cases unsent with
    | nil =>
      rw [drained_next_disk_batch]
      exact Nat.zero_le _
    | cons entry unsent =>
      simp only
      split
      · exact Nat.zero_le _
      · rw [drained_disk_done]
        exact Nat.zero_le _
  | lock_tail path entries published => exact Nat.zero_le _
  | delete_chunk path result held => exact Nat.zero_le _

theorem publish_tick_memory_le {s : System} (hcfg : s.storage.buf.cfg = cfg)
    (hmemory : s.storage.buf.memory.length ≤ cfg.memory_max_entries) :
    (publish_tick c s).storage.buf.cfg = cfg ∧
      (publish_tick c s).storage.buf.memory.length ≤ cfg.memory_max_entries := by
  have htouches := publish_tick_touches c s
  generalize (publish_tick c s).storage = after at htouches ⊢
  cases htouches with
  | nothing => exact ⟨hcfg, hmemory⟩
  | drain => exact ⟨hcfg, Nat.zero_le _⟩
  | push_back entries => exact push_all_memory_le entries hcfg hmemory
  | next_disk_chunk =>
    obtain ⟨hcfg', hmemory'⟩ := Buffer.next_disk_chunk_frame s.storage
    exact ⟨hcfg'.trans hcfg, by rw [hmemory']; exact hmemory⟩
  | read_chunk path =>
    rw [read_chunk_buf path s.storage]
    exact ⟨hcfg, hmemory⟩
  | delete_chunk path =>
    rw [(Buffer.delete_chunk_files path s.storage).1]
    exact ⟨hcfg, hmemory⟩

theorem Modest.tick {s : System} (hmodest : Modest cfg s) : Modest cfg (publish_tick c s) := by
  obtain ⟨hcfg, hmemory⟩ := publish_tick_memory_le (c := c) hmodest.same_cfg hmodest.memory
  exact ⟨hcfg, hmemory, (drained_publish_tick c s).trans (max_le hmodest.drained hmodest.memory)⟩

theorem Modest.step {s t : System} {event : Event} (hmodest : Modest cfg s)
    (hstep : (run c).step s event = some t) : Modest cfg t := by
  cases event with
  | push entry =>
    obtain ⟨-, hstorage, htick, -⟩ := ingest_effect hstep
    obtain ⟨hcfg, hmemory⟩ := push_all_memory_le (c := c) [entry] hmodest.same_cfg hmodest.memory
    change (finalState (Buffer.push c entry s.storage)).buf.cfg = cfg at hcfg
    exact ⟨by rw [hstorage]; exact hcfg, by rw [hstorage]; exact hmemory, by rw [htick]; exact hmodest.drained⟩
  | link connected =>
    cases hstep
    exact ⟨hmodest.same_cfg, hmodest.memory, hmodest.drained⟩
  | tick =>
    obtain ⟨-, rfl⟩ := run_tick_eq_some hstep
    exact hmodest.tick
  | shutdown =>
    simp only [run] at hstep
    split at hstep
    · cases hstep
      exact ⟨hmodest.same_cfg, hmodest.memory, Nat.zero_le _⟩
    · cases hstep
  | flush =>
    simp only [run] at hstep
    split at hstep
    · cases hstep
      obtain ⟨hmemory, hcfg⟩ := Buffer.flush_memory_to_disk_buf c s.storage
      exact ⟨hcfg.trans hmodest.same_cfg, by simp only [hmemory]; exact Nat.zero_le _, hmodest.drained⟩
    · cases hstep

/-- A new process on a spool that works. -/
theorem start_eq (cfg : ValidBufferConfig) {fs : Fs} (hquiet : fs.verdicts = []) (publisher : MqttPublisher) :
    (start cfg fs publisher).storage.fs = fs ∧ (start cfg fs publisher).storage.buf.memory = [] ∧
      (start cfg fs publisher).storage.buf.cfg = cfg := by
  simp [start, Buffer.new, spool_files_newest_first_quiet hquiet]

/-- The new process has what it finds on disk; what has been handed over stays handed over. -/
theorem Kept.start {fs : Fs} (hquiet : fs.verdicts = []) (publisher : MqttPublisher) :
    Kept c (disk_entries c fs.files + ↑publisher.handed) (start cfg fs publisher) := by
  obtain ⟨hfs, hmemory, -⟩ := start_eq cfg hquiet publisher
  refine ⟨⟨by rw [hfs]; exact hquiet, trivial⟩, ?_, fun hphase => absurd rfl hphase, fun h => by cases h⟩
  rw [held, contents, hfs, hmemory]
  simp [orchestrator.start, Tick.in_flight, Tick.handed_from_chunk]

theorem Modest.start {fs : Fs} (hquiet : fs.verdicts = []) (publisher : MqttPublisher) :
    Modest cfg (start cfg fs publisher) := by
  obtain ⟨-, hmemory, hcfg⟩ := start_eq cfg hquiet publisher
  exact ⟨hcfg, by rw [hmemory]; exact Nat.zero_le _, Nat.zero_le _⟩

/-- Pushes that find room, one after another up to one of them. -/
theorem push_all_fits (hround : c.RoundTrips) {before after : List LogEntry} {entry : LogEntry} {s : Storage}
    (hfits : BeforeEach c (PushFits c) (before ++ entry :: after) s) :
    PushFits c (push_all c before s) ∧ contents c (push_all c before s) = contents c s + ↑before := by
  induction before generalizing s with
  | nil => exact ⟨hfits.1, by simp [push_all]⟩
  | cons first before ih =>
    obtain ⟨t, -, hpush, -, hcontents⟩ := Buffer.push_fits hround first hfits.1
    have hrest := hfits.2
    rw [hpush, finalState_ok] at hrest
    obtain ⟨hpushed, hmore⟩ := ih hrest
    rw [push_all, List.foldl_cons, hpush, finalState_ok]
    refine ⟨hpushed, hmore.trans ?_⟩
    rw [hcontents, ← Multiset.cons_coe, ← Multiset.singleton_add, add_assoc]

/-- What a process that dies now may lose: as much as it has in memory, nothing after the final flush. -/
def System.cost (cfg : ValidBufferConfig) (s : System) : Nat :=
  if s.phase = .stopped then 0 else 2 * cfg.memory_max_entries

/-- The chunks are still there, and the rest was in memory. -/
theorem lost_of_unlost {total : Multiset LogEntry} {s : System} {left : Storage} (hkept : Kept c total s)
    (hmodest : Modest cfg s) (hunlost : Unlost c s.storage left) :
    ∃ lost : Multiset LogEntry, lost.card ≤ s.cost cfg ∧
      contents c s.storage + ↑s.tick.in_flight ≤ disk_entries c left.fs.files + lost := by
  refine ⟨↑s.storage.buf.memory + ↑s.tick.in_flight, ?_, ?_⟩
  · rw [Multiset.card_add, Multiset.coe_card, Multiset.coe_card, System.cost]
    split
    · next hstopped =>
      have hidle : s.tick = .idle := hkept.dropped (by rw [hstopped]; exact Phase.noConfusion)
      rw [hkept.flushed hstopped, hidle]
      exact le_rfl
    · have hmemory := hmodest.memory
      have hflight := (length_in_flight_le s.tick).trans hmodest.drained
      omega
  · rw [contents, ← add_assoc, add_comm (disk_entries c left.fs.files)]
    gcongr
    exact hunlost.entries

/-- A death while entries are pushed back: those that have been, and the others, were in memory. -/
theorem lost_of_pushing (hround : c.RoundTrips) {total : Multiset LogEntry} {s : System} {left : Storage}
    (hkept : Kept c total s) (hmodest : Modest cfg s) (hfits : TickFits c s.storage s.tick)
    {before after : List LogEntry} {entry : LogEntry} (hpushing : s.tick.pushing = before ++ entry :: after)
    (hcut : (Buffer.push_steps c entry).cut (push_all c before s.storage) left) :
    left.fs.verdicts = [] ∧ ∃ lost : Multiset LogEntry, lost.card ≤ s.cost cfg ∧
      contents c s.storage + ↑s.tick.in_flight ≤ disk_entries c left.fs.files + lost := by
  have hrunning : s.phase ≠ .stopped := by
    intro hstopped
    have hidle := hkept.dropped (by rw [hstopped]; exact Phase.noConfusion)
    rw [hidle] at hpushing
    exact absurd hpushing.symm (by simp [Tick.pushing])
  have hmemory := (push_all_memory_le (c := c) before hmodest.same_cfg hmodest.memory).2
  have hdrained := hmodest.drained
  rw [System.cost, if_neg hrunning]
  cases htick : s.tick with
  | lock_requeue batch =>
    rw [htick] at hpushing hfits hdrained
    obtain rfl : batch = before ++ entry :: after := hpushing
    obtain ⟨hpush, hcontents⟩ := push_all_fits hround hfits
    obtain ⟨hquiet, hentries⟩ := Buffer.push_unlost hround hpush hcut
    refine ⟨hquiet, ↑(push_all c before s.storage).buf.memory + ↑(entry :: after), ?_, ?_⟩
    · rw [Multiset.card_add, Multiset.coe_card, Multiset.coe_card]
      rw [Tick.drained, List.length_append] at hdrained
      omega
    · rw [Tick.in_flight, ← Multiset.coe_add, ← add_assoc, ← hcontents, contents, ← add_assoc,
        add_comm (disk_entries c left.fs.files)]
      gcongr
  | lock_tail path entries published =>
    rw [htick] at hpushing hfits
    have heach : BeforeEach c (PushFits c) (before ++ entry :: after) s.storage := by
      rw [← hpushing]
      exact hfits
    obtain ⟨hpush, hcontents⟩ := push_all_fits hround heach
    obtain ⟨hquiet, hentries⟩ := Buffer.push_unlost hround hpush hcut
    refine ⟨hquiet, ↑(push_all c before s.storage).buf.memory, ?_, ?_⟩
    · rw [Multiset.coe_card]
      omega
    · calc contents c s.storage + ↑(Tick.lock_tail path entries published).in_flight
          = contents c s.storage := by simp [Tick.in_flight]
        _ ≤ contents c (push_all c before s.storage) := by rw [hcontents]; exact le_self_add
        _ ≤ disk_entries c left.fs.files + ↑(push_all c before s.storage).buf.memory := by
          rw [contents, add_comm]
          gcongr
  | _ =>
    rw [htick] at hpushing
    exact absurd hpushing.symm (by simp [Tick.pushing])

/-- At the end of an interrupted process, all but what it had in memory is on disk. -/
theorem DiesDuring.left (hround : c.RoundTrips) {total : Multiset LogEntry} {s : System} {during : Event}
    {left : Storage} (hdies : DiesDuring c s during left) (hkept : Kept c total s)
    (hmodest : Modest cfg s) (hhealthy : Healthy c s during) :
    left.fs.verdicts = [] ∧ ∃ lost : Multiset LogEntry, lost.card ≤ s.cost cfg ∧
      contents c s.storage + ↑s.tick.in_flight ≤ disk_entries c left.fs.files + lost := by
  have hrefl : Unlost c s.storage s.storage := .refl hkept.intact.quiet
  cases during with
  | push entry =>
    have hunlost := Buffer.push_unlost hround hhealthy hdies
    exact ⟨hunlost.quiet, lost_of_unlost hkept hmodest hunlost⟩
  | tick =>
    obtain rfl | ⟨before, entry, after, hpushing, hcut⟩ := hdies
    · exact ⟨hkept.intact.quiet, lost_of_unlost hkept hmodest hrefl⟩
    · exact lost_of_pushing hround hkept hmodest hhealthy hpushing hcut
  | flush =>
    have hunlost := Buffer.flush_memory_to_disk_unlost hround hhealthy hdies.2
    exact ⟨hunlost.quiet, lost_of_unlost hkept hmodest hunlost⟩
  | link connected | shutdown =>
    obtain rfl := hdies
    exact ⟨hkept.intact.quiet, lost_of_unlost hkept hmodest hrefl⟩

namespace Service

/-- What the crashes so far may have cost, and what the present process has to account for. -/
structure Spent (c : Ciborium) (cfg : ValidBufferConfig) (total : Multiset LogEntry) (s : Service) : Prop where
  modest : Modest cfg s.system
  kept : ∃ base lost : Multiset LogEntry, Kept c base s.system ∧
    lost.card ≤ s.crashes * (2 * cfg.memory_max_entries) ∧ total + ↑s.earlier ≤ base + lost

theorem Spent.step (hround : c.RoundTrips) {total : Multiset LogEntry} {s t : Service} {event : Event}
    (hspent : Spent c cfg total s) (hspared : Spared c s event)
    (hstep : (service c cfg).step s event = some t) : Spent c cfg total t := by
  obtain ⟨hmodest, base, lost, hkept, hcard, hbound⟩ := hspent
  cases event with
  | process event =>
    obtain ⟨system, hsystem, rfl⟩ := Option.map_eq_some_iff.mp hstep
    exact ⟨hmodest.step hsystem, base, lost, hkept.step hround hspared hsystem, hcard, hbound⟩
  | restart during left publisher =>
    obtain rfl := Option.some.inj hstep
    obtain ⟨hhealthy, hdies, hhanded⟩ := hspared
    obtain ⟨hquiet, more, hmore, hleft⟩ := hdies.left hround hkept hmodest hhealthy
    refine ⟨.start hquiet publisher, _, lost + more, .start hquiet publisher, ?_, ?_⟩
    · rw [Multiset.card_add]
      rw [System.cost] at hmore
      simp only
      split at hmore
      · next hstopped =>
        rw [if_pos hstopped]
        omega
      · next hstopped =>
        rw [if_neg hstopped, Nat.succ_mul]
        omega
    · have hheld : base + ↑s.system.pushed ≤ held c s.system := le_self_add.trans hkept.bound
      calc total + ↑(s.earlier ++ s.system.pushed)
          = total + ↑s.earlier + ↑s.system.pushed := by rw [← Multiset.coe_add, add_assoc]
        _ ≤ base + lost + ↑s.system.pushed := by gcongr
        _ = base + ↑s.system.pushed + lost := add_right_comm _ _ _
        _ ≤ held c s.system + lost := by gcongr
        _ = contents c s.system.storage + ↑s.system.tick.in_flight + ↑s.system.publisher.handed + lost := rfl
        _ ≤ disk_entries c left.fs.files + more + ↑s.system.publisher.handed + lost := by gcongr
        _ = disk_entries c left.fs.files + ↑publisher.handed + (lost + more) := by
          rw [hhanded]
          abel

/-- What crashes cost. A process may die at any point, in the middle of a flush as well, as often
as it likes, and another one starts on the spool it has left. Over all processes, every entry
pushed and every entry of the initial chunks has been handed over or is in the buffer or with the
tick of the present process, but for those that were lost in crashes: for each of
them no more than twice what the memory holds. A process that has come to its end costs nothing. -/
theorem crashes_cost_the_memory (hround : c.RoundTrips) {fs : Fs} {publisher : MqttPublisher}
    (hquiet : fs.verdicts = []) (hhanded : publisher.handed = []) {events : List Event} {s : Service}
    (hrun : (service c cfg).Run (Spared c) (start cfg fs publisher) events s) :
    ∃ lost : Multiset LogEntry, lost.card ≤ s.crashes * (2 * cfg.memory_max_entries) ∧
      disk_entries c fs.files + ↑s.pushed ≤
        ↑s.system.publisher.handed + contents c s.system.storage + ↑s.system.tick.in_flight + lost := by
  have hstart : Spent c cfg (disk_entries c fs.files) (start cfg fs publisher) := by
    refine ⟨.start hquiet publisher, _, 0, .start hquiet publisher, Nat.zero_le _, ?_⟩
    simp [start, hhanded]
  obtain ⟨-, base, lost, hkept, hcard, hbound⟩ :=
    hrun.invariant hstart fun _ _ _ hspent hspared hstep => hspent.step hround hspared hstep
  refine ⟨lost, hcard, ?_⟩
  have hheld : base + ↑s.system.pushed ≤ held c s.system := le_self_add.trans hkept.bound
  calc disk_entries c fs.files + ↑s.pushed
      = disk_entries c fs.files + ↑s.earlier + ↑s.system.pushed := by
        rw [pushed, ← Multiset.coe_add, add_assoc]
    _ ≤ base + lost + ↑s.system.pushed := by gcongr
    _ = base + ↑s.system.pushed + lost := add_right_comm _ _ _
    _ ≤ held c s.system + lost := by gcongr
    _ = _ := by
      rw [held]
      abel

/-- The first process has one entry in memory. -/
def one_pushed : Service where
  system := ⟨one_in_memory, ⟨true, [], [], []⟩, .idle, .running, [entry "a"]⟩
  earlier := []
  crashes := 0

/-- It dies while the next push writes this entry to disk. -/
def one_torn : Service where
  system := orchestrator.start one_in_memory.buf.cfg torn.fs ⟨true, [], [], []⟩
  earlier := [entry "a"]
  crashes := 1

theorem one_torn_run : (service .wire one_in_memory.buf.cfg).Run (Spared .wire)
    (start one_in_memory.buf.cfg ⟨none, [], [], []⟩ ⟨true, [], [], []⟩)
    [.process (.push (entry "a")), .restart (.push (entry "b")) torn ⟨true, [], [], []⟩] one_torn := by
  have hpush : (service .wire one_in_memory.buf.cfg).Run (Spared .wire)
      (start one_in_memory.buf.cfg ⟨none, [], [], []⟩ ⟨true, [], [], []⟩) [.process (.push (entry "a"))]
      one_pushed := .single ⟨by decide, by decide⟩ rfl
  refine .snoc hpush ⟨by decide, ?_, rfl⟩ rfl
  exact Or.inr ⟨_, _, rfl, Or.inl torn_cut⟩

/-- The entry is lost. -/
theorem crashes_cost_the_memory_torn : ∃ lost : Multiset LogEntry, lost.card ≤ 1 * (2 * 1) ∧
    one_torn.pushed = [entry "a"] ∧ ↑one_torn.pushed ≤ lost := by
  obtain ⟨lost, hcard, hbound⟩ := crashes_cost_the_memory Ciborium.wire_roundTrips rfl rfl one_torn_run
  refine ⟨lost, hcard, rfl, ?_⟩
  have hempty : contents .wire one_torn.system.storage = 0 := by rfl
  have hnothing : disk_entries .wire (Fs.files ⟨none, [], [], []⟩) = 0 := by rfl
  rw [hempty, hnothing] at hbound
  simpa [one_torn, orchestrator.start, Tick.in_flight] using hbound

end Service

end spotflowd.orchestrator
