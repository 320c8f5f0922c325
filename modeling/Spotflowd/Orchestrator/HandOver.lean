import Spotflowd.Orchestrator.Balance

open effect fs chunked
open spotflowd.buffer spotflowd.config spotflowd.log_entry spotflowd.mqtt

namespace spotflowd.orchestrator

/-- Every entry that has come in is in the buffer, in flight or handed over, exactly once;
what a chunk still holds of the entries already handed over is accounted for. -/
structure Conserved (c : Ciborium) (total : Multiset LogEntry) (s : System) : Prop where
  intact : Intact c s
  calm : ¬ s.tick.recovering
  balance : held c s = total + ↑s.pushed + ↑s.tick.handed_from_chunk

variable {c : Ciborium} {total : Multiset LogEntry}

theorem Conserved.push (hround : c.RoundTrips) {s t : System} {entry : LogEntry}
    (hconserved : Conserved c total s) (hfits : PushFits c s.storage)
    (hingest : ingest c entry s = some t) :
    Conserved c total t ∧ t.pushed = s.pushed ++ [entry] := by
  obtain ⟨hintact, hheld, hpushed, htick, -⟩ := ingest_balance hround hconserved.intact hfits hingest
  refine ⟨⟨hintact, by rw [htick]; exact hconserved.calm, ?_⟩, hpushed⟩
  rw [hheld, hpushed, htick, hconserved.balance, ← Multiset.coe_add, Multiset.coe_singleton]
  abel

theorem publish_tick_pushed (s : System) : (publish_tick c s).pushed = s.pushed := by
  unfold publish_tick
  repeat' split
  all_goals rfl

theorem Conserved.tick (hround : c.RoundTrips) {s : System} (hconserved : Conserved c total s)
    (haccepts : Accepts c s) : Conserved c total (publish_tick c s) := by
  obtain ⟨⟨hintact, hbalance⟩, hcalm⟩ :=
    publish_tick_balance hround hconserved.intact haccepts (.of_not_recovering hconserved.calm)
  refine ⟨hintact, hcalm, ?_⟩
  rw [hconserved.balance, Multiset.coe_nil, add_zero, add_zero, add_right_comm] at hbalance
  rw [publish_tick_pushed]
  exact add_right_cancel hbalance

/-- The daemon after start: whatever the spool holds, nothing pushed or published yet. -/
def start (cfg : ValidBufferConfig) (fs : Fs) (publisher : MqttPublisher) : System where
  storage := Buffer.new cfg fs
  publisher := publisher
  tick := .idle
  phase := .running
  pushed := []

/-- A run without failures: every push finds room, the connection stays, the client
accepts every entry it is given, and nobody shuts the daemon down. -/
def FailureFree (c : Ciborium) (s : System) : Event → Prop
  | .push _ => PushFits c s.storage
  | .link connected => connected = true
  | .tick => Accepts c s
  | .shutdown => False
  | .flush => False

instance (c : Ciborium) (s : System) : (event : Event) → Decidable (FailureFree c s event)
  | .push _ => inferInstanceAs (Decidable (PushFits c s.storage))
  | .link connected => inferInstanceAs (Decidable (connected = true))
  | .tick => inferInstanceAs (Decidable (Accepts c s))
  | .shutdown => inferInstanceAs (Decidable False)
  | .flush => inferInstanceAs (Decidable False)

theorem Conserved.start (cfg : ValidBufferConfig) {fs : Fs} {publisher : MqttPublisher}
    (hquiet : fs.verdicts = []) (hhanded : publisher.handed = []) :
    Conserved c (disk_entries c fs.files) (start cfg fs publisher) := by
  have hnew : (Buffer.new cfg fs).fs = fs ∧ (Buffer.new cfg fs).buf.memory = [] := by
    simp [Buffer.new, spool_files_newest_first_quiet hquiet]
  refine ⟨⟨by rw [orchestrator.start, hnew.1, hquiet], trivial⟩, id, ?_⟩
  simp [orchestrator.start, held, contents, hnew, hhanded, Tick.in_flight, Tick.handed_from_chunk]

theorem Conserved.step (hround : c.RoundTrips) {s t : System} {event : Event}
    (hconserved : Conserved c total s) (hallowed : FailureFree c s event)
    (hstep : (run c).step s event = some t) :
    Conserved c total t ∧ t.pushed = s.pushed ++ pushes [event] := by
  cases event with
  | push entry => exact hconserved.push hround hallowed hstep
  | link connected =>
    cases hstep
    refine ⟨⟨⟨hconserved.intact.quiet, hconserved.intact.holding⟩, hconserved.calm, ?_⟩,
      (List.append_nil _).symm⟩
    exact hconserved.balance
  | tick =>
    obtain ⟨-, rfl⟩ := run_tick_eq_some hstep
    exact ⟨hconserved.tick hround hallowed, (publish_tick_pushed s).trans (List.append_nil _).symm⟩
  | shutdown => exact hallowed.elim
  | flush => exact hallowed.elim

/-- Exactly-once hand-over. Without failures, in every state between two ticks the
entries ever pushed and those in the initial chunks are the entries handed to the
client, those in memory and those in chunk files, each of them exactly once. -/
theorem exactly_once_hand_over (hround : c.RoundTrips) {cfg : ValidBufferConfig} {fs : Fs}
    {publisher : MqttPublisher} (hquiet : fs.verdicts = []) (hhanded : publisher.handed = [])
    {events : List Event} {s : System}
    (hrun : (run c).Run (FailureFree c) (start cfg fs publisher) events s)
    (hidle : s.tick = .idle) :
    disk_entries c fs.files + ↑(pushes events) =
      ↑s.publisher.handed + ↑s.storage.buf.memory + disk_entries c s.storage.fs.files := by
  obtain ⟨hconserved, hpushed⟩ :
      Conserved c (disk_entries c fs.files) s ∧ s.pushed = pushes events := by
    refine hrun.history (P := fun past s => Conserved c (disk_entries c fs.files) s ∧
      s.pushed = pushes past) ⟨.start cfg hquiet hhanded, rfl⟩ ?_
    intro past t event u ⟨hinv, hpast⟩ hallowed hstep
    obtain ⟨hinv', hpushed⟩ := hinv.step hround hallowed hstep
    exact ⟨hinv', by rw [hpushed, hpast, pushes_append]⟩
  have hbalance := hconserved.balance
  simp only [held, hidle, Tick.in_flight, Tick.handed_from_chunk, contents, Multiset.coe_nil,
    add_zero] at hbalance
  rw [← hpushed, ← hbalance]
  abel

/-- A fresh device with room for one entry in memory. -/
def fresh : System := start (.sized 1 1 Nat.one_pos Nat.one_pos) ⟨none, [], [], []⟩ ⟨true, [], [], []⟩

/-- One entry overflows to disk, the next one is published from memory. -/
theorem exactly_once_hand_over_overflow :
    ∃ s : System, s.publisher.handed = [entry "b"] ∧ s.storage.buf.memory = [] ∧
      disk_entries .wire ∅ + ↑[entry "a", entry "b"] =
        ↑s.publisher.handed + ↑s.storage.buf.memory + disk_entries .wire s.storage.fs.files := by
  have hexec : ((run .wire).exec (FailureFree .wire) fresh
      [.push (entry "a"), .push (entry "b"), .tick, .tick, .tick, .tick]).any (fun s =>
        s.tick = .idle ∧ s.publisher.handed = [entry "b"] ∧ s.storage.buf.memory = []) = true := by
    decide +kernel
  obtain ⟨s, hrun, htest⟩ := Machine.exists_run_of_exec _ hexec
  obtain ⟨hidle, hhanded, hmemory⟩ := of_decide_eq_true htest
  exact ⟨s, hhanded, hmemory, exactly_once_hand_over Ciborium.wire_roundTrips rfl rfl hrun hidle⟩

end spotflowd.orchestrator
