import Spotflowd.Orchestrator.Accounting
import Spotflowd.Orchestrator.MemoryPath

open effect chunked
open spotflowd.buffer spotflowd.config spotflowd.log_entry spotflowd.mqtt
open spotflowd.mqtt.MqttPublisher (first_failure)

namespace spotflowd.orchestrator

variable {c : Ciborium}

/-- The part of the failed batch that the client had accepted before it failed. -/
def accepted_of_failed (c : Ciborium) (outcomes : List Bool) (entries : List LogEntry) :
    List LogEntry :=
  match first_failure c outcomes entries with
  | none => []
  | some k => (entries.take k).drop (batch_start k)

/-- The batches after the one that failed. -/
def later_batches (c : Ciborium) (outcomes : List Bool) (entries : List LogEntry) : List LogEntry :=
  match first_failure c outcomes entries with
  | none => []
  | some k => entries.drop (batch_start k + PUBLISH_BATCH_SIZE)

/-- How drained entries divide up: accepted, refused or not reached within the failed
batch, and later batches; the recovery pushes back the failed batch as a whole. -/
theorem failed_batch_split (c : Ciborium) (outcomes : List Bool) (entries : List LogEntry) :
    ∃ rest, entries = accepted c outcomes entries ++ (rest ++ later_batches c outcomes entries) ∧
      failed_batch c outcomes entries = accepted_of_failed c outcomes entries ++ rest := by
  unfold accepted later_batches failed_batch accepted_of_failed
  cases first_failure c outcomes entries with
  | none => exact ⟨[], by simp, rfl⟩
  | some k =>
    have hle := batch_start_le k
    have hlt := lt_batch_start_add k
    refine ⟨(entries.drop k).take (batch_start k + PUBLISH_BATCH_SIZE - k), ?_, ?_⟩
    · have hdrop : (entries.drop k).drop (batch_start k + PUBLISH_BATCH_SIZE - k) =
          entries.drop (batch_start k + PUBLISH_BATCH_SIZE) := by
        rw [List.drop_drop]
        congr 1
        omega
      simp only
      rw [← hdrop, List.take_append_drop, List.take_append_drop]
    · have hsum : PUBLISH_BATCH_SIZE =
          (k - batch_start k) + (batch_start k + PUBLISH_BATCH_SIZE - k) := by omega
      simp only
      rw [List.drop_take]
      conv_lhs => rw [hsum]
      rw [List.take_add, List.drop_drop]
      congr 3
      omega

/-- What the recovery keeps. After a tick that drained `entries`, with every file operation
succeeding and room in the spool, all drained entries that the client did not accept
are again in the buffer exactly when the batches after the failed one hold nothing but
copies of entries that the failed batch had already got through. -/
theorem memory_recovery_keeps_all_iff (hround : c.RoundTrips) {entries : List LogEntry}
    {s₀ s : System} {events : List Event}
    (hdrained : s₀.tick = next_memory_batch (chunks PUBLISH_BATCH_SIZE entries))
    (hquiet : s₀.storage.fs.verdicts = []) (hrun : (run c).Run (RoomyTick c) s₀ events s)
    (hreturned : s.tick = .idle) :
    (∀ taken, s.publisher.handed = s₀.publisher.handed ++ taken →
      contents c s₀.storage + ↑(pushes events) + (↑entries - ↑taken) ≤ contents c s.storage) ↔
    (later_batches c s₀.publisher.outcomes entries : Multiset LogEntry) ≤
      ↑(accepted_of_failed c s₀.publisher.outcomes entries) := by
  obtain ⟨⟨before, after, hsplit, -, hcontents⟩, hhanded⟩ :=
    (memory_path (follows_adds hround (contents c s₀.storage)) (fun _ _ h => h.oneTick) hdrained
      ⟨hquiet, by simp⟩ hrun).returned hreturned
  obtain ⟨rest, hentries, hfailed⟩ := failed_batch_split c s₀.publisher.outcomes entries
  have hrefused : (entries : Multiset LogEntry) - ↑(accepted c s₀.publisher.outcomes entries) =
      ↑rest + ↑(later_batches c s₀.publisher.outcomes entries) := by
    have hsum : (entries : Multiset LogEntry) = ↑(accepted c s₀.publisher.outcomes entries) +
        (↑rest + ↑(later_batches c s₀.publisher.outcomes entries)) := by
      rw [Multiset.coe_add, Multiset.coe_add, ← hentries]
    rw [hsum, add_tsub_cancel_left]
  have hbalance : contents c s₀.storage + ↑(pushes events) +
        (↑rest + ↑(later_batches c s₀.publisher.outcomes entries)) ≤ contents c s.storage ↔
      (later_batches c s₀.publisher.outcomes entries : Multiset LogEntry) ≤
        ↑(accepted_of_failed c s₀.publisher.outcomes entries) := by
    rw [hcontents, hsplit, hfailed]
    simp only [← Multiset.coe_add]
    generalize (later_batches c s₀.publisher.outcomes entries : Multiset LogEntry) = later
    generalize (accepted_of_failed c s₀.publisher.outcomes entries : Multiset LogEntry) = again
    rw [show contents c s₀.storage + (↑before + ↑after) + (↑rest + later) =
        contents c s₀.storage + ↑before + ↑after + ↑rest + later by abel,
      show contents c s₀.storage + (↑before + (again + ↑rest) + ↑after) =
        contents c s₀.storage + ↑before + ↑after + ↑rest + again by abel]
    exact add_le_add_iff_left _
  constructor
  · intro hkept
    rw [← hbalance, ← hrefused]
    exact hkept _ hhanded
  · intro hle taken htaken
    have heq := List.append_cancel_left (htaken.symm.trans hhanded)
    rw [heq, hrefused, hbalance]
    exact hle

/-- A daemon whose tick has just drained the given entries, on a device without a spool. -/
def after_drain (entries : List LogEntry) (outcomes : List Bool) : System where
  storage := ⟨⟨.sized 1000 200 default_memory_pos default_chunk_pos, [], false⟩, ⟨none, [], [], []⟩⟩
  publisher := ⟨true, outcomes, [], []⟩
  tick := next_memory_batch (chunks PUBLISH_BATCH_SIZE entries)
  phase := .running
  pushed := []

theorem after_drain_tick (entries : List LogEntry) (outcomes : List Bool) :
    (after_drain entries outcomes).tick = next_memory_batch (chunks PUBLISH_BATCH_SIZE entries) := rfl

def full_batch : List LogEntry := List.replicate PUBLISH_BATCH_SIZE (entry "a")

/-- The second batch fails at its second entry, after something has been pushed. -/
theorem memory_recovery_keeps_all_iff_full :
    let entries := full_batch ++ [entry "b", entry "c"]
    let outcomes := List.replicate 201 true ++ [false]
    ∃ s : System, s.publisher.handed.length = 201 ∧
      s.storage.buf.memory = [entry "d", entry "b", entry "c"] ∧
      ((∀ taken : List LogEntry, s.publisher.handed = [] ++ taken →
        contents .wire (after_drain entries outcomes).storage + ↑[entry "d"] + (↑entries - ↑taken) ≤
          contents .wire s.storage) ↔
        (later_batches .wire outcomes entries : Multiset LogEntry) ≤
          ↑(accepted_of_failed .wire outcomes entries)) := by
  intro entries outcomes
  have hexec : ((run .wire).exec (RoomyTick .wire) (after_drain entries outcomes)
      (.push (entry "d") :: List.replicate 205 .tick)).any (fun s => s.tick = .idle ∧
        s.publisher.handed.length = 201 ∧
        s.storage.buf.memory = [entry "d", entry "b", entry "c"]) = true := by
    decide +kernel
  obtain ⟨s, hrun, htest⟩ := Machine.exists_run_of_exec _ hexec
  obtain ⟨hidle, hhanded, hmemory⟩ := of_decide_eq_true htest
  have hpushes : pushes (.push (entry "d") :: List.replicate 205 Event.tick) = [entry "d"] := by rfl
  have hiff := memory_recovery_keeps_all_iff Ciborium.wire_roundTrips (after_drain_tick entries outcomes)
    rfl hrun hidle
  rw [hpushes] at hiff
  exact ⟨s, hhanded, hmemory, hiff⟩

/-- A failure in the first of two batches: the second batch is gone. Its entry was neither
accepted nor is it in the buffer after the tick. -/
theorem memory_recovery_loses_later_batch :
    ∃ s : System, (run .wire).Run (RoomyTick .wire)
        (after_drain (full_batch ++ [entry "b"]) [false]) [.tick, .tick, .tick] s ∧
      s.tick = .idle ∧ s.publisher.handed = [] ∧ entry "b" ∉ contents .wire s.storage := by
  have hexec : ((run .wire).exec (RoomyTick .wire)
      (after_drain (full_batch ++ [entry "b"]) [false])
      [.tick, .tick, .tick]).any (fun s => s.tick = .idle ∧ s.publisher.handed = [] ∧
        entry "b" ∉ s.storage.buf.memory ∧ s.storage.fs.dir.isNone) = true := by
    decide +kernel
  obtain ⟨s, hrun, htest⟩ := Machine.exists_run_of_exec _ hexec
  obtain ⟨hidle, hhanded, hmemory, hdir⟩ := of_decide_eq_true htest
  refine ⟨s, hrun, hidle, hhanded, ?_⟩
  have hfiles : s.storage.fs.files = ∅ := by simp [fs.Fs.files, Option.isNone_iff_eq_none.mp hdir]
  simpa [contents, disk_entries, hfiles] using hmemory

end spotflowd.orchestrator
