import Spotflowd.Orchestrator.HandOver

open effect fs
open spotflowd.buffer spotflowd.config spotflowd.log_entry spotflowd.mqtt

namespace spotflowd.orchestrator

/-- File operations succeed and the spool stays under its size limit. -/
def Healthy (c : Ciborium) (s : System) : Event → Prop
  | .push _ => PushFits c s.storage
  | .link _ => True
  | .tick => TickFits c s.storage s.tick
  | .shutdown => True
  | .flush => FlushFits c s.storage

instance (c : Ciborium) (s : System) : (event : Event) → Decidable (Healthy c s event)
  | .push _ => inferInstanceAs (Decidable (PushFits c s.storage))
  | .link _ => inferInstanceAs (Decidable True)
  | .tick => inferInstanceAs (Decidable (TickFits c s.storage s.tick))
  | .shutdown => inferInstanceAs (Decidable True)
  | .flush => inferInstanceAs (Decidable (FlushFits c s.storage))

/-- Nothing is given up: the ingestion task takes no entry after the final flush, no memory
batch is refused while others wait behind it, and the tick is not dropped with entries it
has drained from memory. -/
def Graceful (c : Ciborium) (s : System) : Event → Prop
  | .push _ => s.phase ≠ .stopped
  | .link _ => True
  | .tick => Accepts c s ∨ s.tick.at_stake = []
  | .shutdown => s.tick.in_flight = []
  | .flush => True

instance (c : Ciborium) (s : System) : (event : Event) → Decidable (Graceful c s event)
  | .push _ => inferInstanceAs (Decidable (s.phase ≠ .stopped))
  | .link _ => inferInstanceAs (Decidable True)
  | .tick => inferInstanceAs (Decidable (Accepts c s ∨ s.tick.at_stake = []))
  | .shutdown => inferInstanceAs (Decidable (s.tick.in_flight = []))
  | .flush => inferInstanceAs (Decidable True)

/-- Every entry that has come in is in the buffer, in flight or handed over, at least once;
after the final flush nothing is left in memory. -/
structure Kept (c : Ciborium) (total : Multiset LogEntry) (s : System) : Prop where
  intact : Intact c s
  bound : total + ↑s.pushed + ↑s.tick.handed_from_chunk ≤ held c s
  dropped : s.phase ≠ .running → s.tick = .idle
  flushed : s.phase = .stopped → s.storage.buf.memory = []

variable {c : Ciborium} {total : Multiset LogEntry}

theorem Conserved.kept {s : System} (hconserved : Conserved c total s)
    (hrunning : s.phase = .running) : Kept c total s where
  intact := hconserved.intact
  bound := hconserved.balance.ge
  dropped := fun hphase => absurd hrunning hphase
  flushed := fun hphase => by
    rw [hrunning] at hphase
    cases hphase

/-- What repeats entries but loses none keeps every bound. -/
theorem Moves.bound {s t : System} {again : List LogEntry} {incoming : Multiset LogEntry}
    (hmoves : Moves c s t [] again) (hbound : incoming + ↑s.tick.handed_from_chunk ≤ held c s) :
    incoming + ↑t.tick.handed_from_chunk ≤ held c t := by
  apply le_of_add_le_add_right (a := (↑s.tick.handed_from_chunk : Multiset LogEntry))
  calc incoming + ↑t.tick.handed_from_chunk + ↑s.tick.handed_from_chunk
      = incoming + ↑s.tick.handed_from_chunk + ↑t.tick.handed_from_chunk := add_right_comm _ _ _
    _ ≤ held c s + ↑t.tick.handed_from_chunk := by gcongr
    _ ≤ held c s + ↑t.tick.handed_from_chunk + ↑again := le_self_add
    _ = held c t + ↑s.tick.handed_from_chunk := by
      rw [← hmoves.balance, Multiset.coe_nil, add_zero]

theorem Kept.push (hround : c.RoundTrips) {s t : System} {entry : LogEntry}
    (hkept : Kept c total s) (hfits : PushFits c s.storage) (hphase : s.phase ≠ .stopped)
    (hingest : ingest c entry s = some t) : Kept c total t := by
  obtain ⟨hintact, hheld, hpushed, htick, hsame⟩ := ingest_balance hround hkept.intact hfits hingest
  refine ⟨hintact, ?_, ?_, ?_⟩
  · rw [hheld, hpushed, htick, ← Multiset.coe_add, Multiset.coe_singleton, ← add_assoc,
      add_right_comm]
    gcongr
    exact hkept.bound
  · rw [hsame, htick]
    exact hkept.dropped
  · rw [hsame]
    exact fun hstopped => absurd hstopped hphase

theorem Kept.tick (hround : c.RoundTrips) {s : System} (hkept : Kept c total s)
    (hrunning : s.phase = .running) (hfits : TickFits c s.storage s.tick)
    (hgraceful : Accepts c s ∨ s.tick.at_stake = []) : Kept c total (publish_tick c s) := by
  have hmoves : ∃ again, Moves c s (publish_tick c s) [] again := by
    by_cases haccepts : Accepts c s
    · exact ⟨_, (publish_tick_balance hround hkept.intact haccepts hfits).1⟩
    · have hrefused := publish_tick_refused hkept.intact haccepts
      rw [hgraceful.resolve_left haccepts] at hrefused
      exact ⟨_, hrefused⟩
  obtain ⟨again, hmoves⟩ := hmoves
  have hphase := (publish_tick_phase c s).trans hrunning
  refine ⟨hmoves.intact, ?_, fun hstill => absurd hphase hstill, ?_⟩
  · rw [publish_tick_pushed]
    exact hmoves.bound hkept.bound
  · rw [hphase]
    nofun

/-- A tick that is dropped without entries in flight takes nothing with it. -/
theorem Kept.shutdown {s : System} (hkept : Kept c total s) (hnone : s.tick.in_flight = []) :
    Kept c total { s with tick := .idle, phase := .stopping } := by
  refine ⟨⟨hkept.intact.quiet, trivial⟩, ?_, fun _ => rfl, nofun⟩
  have hbound : total + ↑s.pushed ≤ held c s := le_self_add.trans hkept.bound
  rw [held, hnone] at hbound
  simpa only [held, Tick.in_flight, Tick.handed_from_chunk, Multiset.coe_nil, add_zero] using hbound

theorem Kept.flush (hround : c.RoundTrips) {s : System} (hkept : Kept c total s)
    (hstopping : s.phase = .stopping) (hfits : FlushFits c s.storage) :
    Kept c total { s with
      storage := finalState (Buffer.flush_memory_to_disk c s.storage)
      phase := .stopped } := by
  have htick : s.tick = .idle := hkept.dropped (by rw [hstopping]; nofun)
  obtain ⟨t, hflush, hmemory, hgrows⟩ := Buffer.flush_memory_to_disk_fits hround hfits
  have hcontents : contents c t = contents c s.storage := by
    rw [contents, hmemory, hgrows.entries, Multiset.coe_nil, zero_add, contents]
  rw [hflush, finalState_ok]
  refine ⟨⟨hgrows.quiet, ?_⟩, ?_, fun _ => htick, fun _ => hmemory⟩
  · simp only [htick]
    trivial
  · have hbound := hkept.bound
    rw [held] at hbound ⊢
    simpa only [hcontents] using hbound

theorem Kept.step (hround : c.RoundTrips) {s t : System} {event : Event} (hkept : Kept c total s)
    (hallowed : Healthy c s event ∧ Graceful c s event) (hstep : (run c).step s event = some t) :
    Kept c total t := by
  obtain ⟨hhealthy, hgraceful⟩ := hallowed
  cases event with
  | push entry => exact hkept.push hround hhealthy hgraceful hstep
  | link connected =>
    cases hstep
    exact ⟨⟨hkept.intact.quiet, hkept.intact.holding⟩, hkept.bound, hkept.dropped, hkept.flushed⟩
  | tick =>
    obtain ⟨hrunning, rfl⟩ := run_tick_eq_some hstep
    exact hkept.tick hround hrunning hhealthy hgraceful
  | shutdown =>
    simp only [run] at hstep
    split at hstep
    · cases hstep
      exact hkept.shutdown hgraceful
    · cases hstep
  | flush =>
    simp only [run] at hstep
    split at hstep
    · next hstopping =>
      cases hstep
      exact hkept.flush hround hstopping hhealthy
    · cases hstep

/-- Graceful shutdown. When nothing is given up on the way, every entry ever pushed and
every entry of the initial chunks has been handed to the client or is in a chunk file
once `run` has returned. -/
theorem graceful_shutdown_keeps_all (hround : c.RoundTrips) {cfg : ValidBufferConfig} {fs : Fs}
    {publisher : MqttPublisher} (hquiet : fs.verdicts = []) (hhanded : publisher.handed = [])
    {events : List Event} {s : System}
    (hrun : (run c).Run (fun s event => Healthy c s event ∧ Graceful c s event)
      (start cfg fs publisher) events s) (hstopped : s.phase = .stopped) :
    disk_entries c fs.files + ↑s.pushed ≤
      ↑s.publisher.handed + disk_entries c s.storage.fs.files := by
  have hstart := (Conserved.start (c := c) cfg hquiet hhanded).kept rfl
  have hkept := hrun.invariant hstart fun _ _ _ hkept hallowed hstep => hkept.step hround hallowed hstep
  have htick : s.tick = .idle := hkept.dropped (by rw [hstopped]; nofun)
  have hbound := hkept.bound
  simp only [held, htick, contents, hkept.flushed hstopped, Tick.in_flight, Tick.handed_from_chunk,
    Multiset.coe_nil, add_zero, zero_add] at hbound
  rwa [add_comm (disk_entries c s.storage.fs.files)] at hbound

/-- An entry handed over and one still in memory when the shutdown is signalled. -/
theorem graceful_shutdown_keeps_all_flushed :
    ∃ s : System, s.pushed = [entry "a", entry "b"] ∧ s.publisher.handed = [entry "a"] ∧
      disk_entries .wire ∅ + ↑s.pushed ≤
        ↑s.publisher.handed + disk_entries .wire s.storage.fs.files := by
  have hexec : ((run .wire).exec (fun s event => Healthy .wire s event ∧ Graceful .wire s event)
      fresh [.push (entry "a"), .tick, .tick, .tick, .tick, .push (entry "b"), .shutdown,
        .flush]).any (fun s => s.phase = .stopped ∧ s.pushed = [entry "a", entry "b"] ∧
          s.publisher.handed = [entry "a"]) = true := by
    rfl
  obtain ⟨s, hrun, htest⟩ := Machine.exists_run_of_exec _ hexec
  obtain ⟨hstopped, hpushed, hhanded⟩ := of_decide_eq_true htest
  exact ⟨s, hpushed, hhanded,
    graceful_shutdown_keeps_all Ciborium.wire_roundTrips rfl rfl hrun hstopped⟩

/-- The tick is dropped right after it has drained the memory: the entry it holds is
neither handed over nor on disk. -/
theorem dropped_tick_loses_entry :
    ∃ s : System, (run .wire).Run (Healthy .wire) fresh
        [.push (entry "a"), .tick, .tick, .shutdown, .flush] s ∧ s.phase = .stopped ∧
      entry "a" ∈ s.pushed ∧ entry "a" ∉ s.publisher.handed ∧
      entry "a" ∉ disk_entries .wire s.storage.fs.files := by
  have hexec : ((run .wire).exec (Healthy .wire) fresh
      [.push (entry "a"), .tick, .tick, .shutdown, .flush]).any (fun s =>
        s.phase = .stopped ∧ entry "a" ∈ s.pushed ∧ entry "a" ∉ s.publisher.handed ∧
          entry "a" ∉ disk_entries .wire s.storage.fs.files) = true := by
    rfl
  obtain ⟨s, hrun, htest⟩ := Machine.exists_run_of_exec _ hexec
  exact ⟨s, hrun, of_decide_eq_true htest⟩

end spotflowd.orchestrator
