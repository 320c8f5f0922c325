import Spotflowd.Buffer.Contents
import Spotflowd.Lib.Words
import Spotflowd.Orchestrator.DiskPath
import Spotflowd.Orchestrator.MemoryPath
import Spotflowd.Orchestrator.Resend

open effect chunked fs words
open spotflowd.buffer spotflowd.log_entry spotflowd.mqtt

namespace spotflowd.orchestrator

/-- The memory holds the latest of the entries received, in the order they came. -/
def Latest (received : List LogEntry) (s : Storage) : Prop := s.buf.memory <:+ received

theorem suffix_snoc {α : Type} {first second : List α} (a : α) (hsuffix : first <:+ second) :
    first ++ [a] <:+ second ++ [a] := by
  obtain ⟨before, rfl⟩ := hsuffix
  exact ⟨before, (List.append_assoc _ _ _).symm⟩

theorem Latest.push {c : Ciborium} {received : List LogEntry} {s : Storage}
    (hlatest : Latest received s) (entry : LogEntry) :
    Latest (received ++ [entry]) (finalState (Buffer.push c entry s)) :=
  (Buffer.push_buf c entry s).1.trans (suffix_snoc entry hlatest)

theorem follows_latest (c : Ciborium) : Follows c OneTick Latest where
  push := fun _ hlatest => hlatest.push _
  requeue := fun _ _ hlatest => push_all_extends (fun entry _ _ hlatest => hlatest.push entry) hlatest

section Recovery

variable {c : Ciborium} {entries : List LogEntry} {s₀ s : System} {events : List Event}
  (hrun : (run c).Run OneTick s₀ events s)

include hrun

/-- The failed batch goes to the end of the queue, behind what has come in since the drain. -/
theorem memory_after_requeue {batch : List LogEntry}
    (hdrained : s₀.tick = next_memory_batch (chunks PUBLISH_BATCH_SIZE entries))
    (hempty : s₀.storage.buf.memory = []) (hrequeue : s.tick = .lock_requeue batch)
    (hroom : s.storage.buf.memory.length + batch.length ≤ s.storage.buf.cfg.memory_max_entries) :
    batch = failed_batch c s₀.publisher.outcomes entries ∧
      s.storage.buf.memory <:+ pushes events ∧
      (publish_tick c s).storage.buf.memory = s.storage.buf.memory ++ batch := by
  have hpath := memory_path (follows_latest c) (fun _ _ h => h) hdrained (by simp [Latest, hempty]) hrun
  unfold MemoryPath at hpath
  rw [hrequeue] at hpath
  refine ⟨hpath.2.1, hpath.1, ?_⟩
  simp only [publish_tick, hrequeue, push_all_of_room hroom]

/-- The tail of the chunk goes to the end of the queue, last entry first. -/
theorem memory_after_tail {path p : FileName} {es : List LogEntry} {published : Nat}
    (hread : s₀.tick = next_disk_batch path entries 0 (chunks PUBLISH_BATCH_SIZE entries))
    (htail : s.tick = .lock_tail p es published)
    (hroom : s.storage.buf.memory.length + (es.drop published).length ≤
      s.storage.buf.cfg.memory_max_entries) :
    es.drop published = chunk_tail c s₀.publisher.outcomes entries ∧
      (publish_tick c s).storage.buf.memory =
        s.storage.buf.memory ++ (es.drop published).reverse := by
  have hfollows : FollowsChunk c OneTick path entries (chunk_tail c s₀.publisher.outcomes entries)
      (fun _ _ => True) (fun _ _ => True) :=
    ⟨fun _ _ => trivial, fun _ _ => trivial, fun _ _ _ _ => trivial, fun _ _ _ => trivial⟩
  have hpath := disk_path hfollows (fun _ _ h => h) hread trivial hrun
  unfold DiskPath at hpath
  rw [htail] at hpath
  obtain ⟨-, rfl, -, hdrop, -⟩ := hpath
  refine ⟨hdrop, ?_⟩
  have hroom' : s.storage.buf.memory.length + (es.drop published).reverse.length ≤
      s.storage.buf.cfg.memory_max_entries := by rwa [List.length_reverse]
  simp only [publish_tick, htail, push_all_of_room hroom']

end Recovery

/-- When a recovery keeps the order. A batch drained from memory comes before what was
pushed after the drain exactly when nothing of the kind is there (or when the two are
repetitions of one sequence, so that no order can be told); the tail of a chunk keeps its
order exactly when it reads the same backwards. -/
theorem recovery_keeps_order_iff (c : Ciborium) :
    (∀ entries s₀ events s batch, s₀.tick = next_memory_batch (chunks PUBLISH_BATCH_SIZE entries) →
      s₀.storage.buf.memory = [] → (run c).Run OneTick s₀ events s → s.tick = .lock_requeue batch →
      s.storage.buf.memory.length + batch.length ≤ s.storage.buf.cfg.memory_max_entries →
      batch = failed_batch c s₀.publisher.outcomes entries ∧
        s.storage.buf.memory <:+ pushes events ∧
        ((publish_tick c s).storage.buf.memory = batch ++ s.storage.buf.memory ↔
          ∃ word, IsPower word batch ∧ IsPower word s.storage.buf.memory)) ∧
    (∀ path entries s₀ events s p es published,
      s₀.tick = next_disk_batch path entries 0 (chunks PUBLISH_BATCH_SIZE entries) →
      (run c).Run OneTick s₀ events s → s.tick = .lock_tail p es published →
      s.storage.buf.memory.length + (es.drop published).length ≤
        s.storage.buf.cfg.memory_max_entries →
      es.drop published = chunk_tail c s₀.publisher.outcomes entries ∧
        ((publish_tick c s).storage.buf.memory = s.storage.buf.memory ++ es.drop published ↔
          (es.drop published).reverse = es.drop published)) := by
  constructor
  · intro entries s₀ events s batch hdrained hempty hrun hrequeue hroom
    obtain ⟨hbatch, hlatest, hmemory⟩ := memory_after_requeue hrun hdrained hempty hrequeue hroom
    refine ⟨hbatch, hlatest, ?_⟩
    rw [hmemory, ← append_comm_iff]
    exact eq_comm
  · intro path entries s₀ events s p es published hread hrun htail hroom
    obtain ⟨hdrop, hmemory⟩ := memory_after_tail hrun hread htail hroom
    exact ⟨hdrop, by rw [hmemory, List.append_cancel_left_eq]⟩

/-- A recovery of two entries from memory into an empty queue, and one of a tail that reads the same
backwards from a chunk. -/
theorem recovery_keeps_order_iff_full :
    (∃ s : System, (publish_tick .wire s).storage.buf.memory = [entry "b", entry "c"]) ∧
    ∃ s : System, (publish_tick .wire s).storage.buf.memory = [entry "b", entry "c", entry "b"] := by
  obtain ⟨hmemory, hdisk⟩ := recovery_keeps_order_iff .wire
  constructor
  · have hexec : ((run .wire).exec OneTick
        (after_drain (full_batch ++ [entry "b", entry "c"]) (List.replicate 200 true ++ [false]))
        (List.replicate 202 .tick)).any (fun s => s.tick = .lock_requeue [entry "b", entry "c"] ∧
          s.storage.buf.memory = [] ∧ s.storage.buf.cfg.memory_max_entries = 1000) = true := by
      decide +kernel
    obtain ⟨s, hrun, htest⟩ := Machine.exists_run_of_exec _ hexec
    obtain ⟨hrequeue, hempty, hmax⟩ := of_decide_eq_true htest
    have horder := (hmemory _ _ _ s _ (after_drain_tick _ _) rfl hrun hrequeue (by simp [hempty, hmax])).2.2
    refine ⟨s, ?_⟩
    rw [hempty] at horder
    exact horder.mpr ⟨[entry "b", entry "c"], isPower_self _, isPower_nil _⟩
  · have hexec : ((run .wire).exec OneTick
        (after_read (full_batch ++ [entry "b", entry "c", entry "b"]) (List.replicate 200 true ++ [false]))
        (List.replicate 202 .tick)).any (fun s =>
          s.tick = .lock_tail (chunk_name 1) (full_batch ++ [entry "b", entry "c", entry "b"]) 200 ∧
          s.storage.buf.memory = [] ∧ s.storage.buf.cfg.memory_max_entries = 1000) = true := by
      decide +kernel
    obtain ⟨s, hrun, htest⟩ := Machine.exists_run_of_exec _ hexec
    obtain ⟨htail, hempty, hmax⟩ := of_decide_eq_true htest
    have hdrop : (full_batch ++ [entry "b", entry "c", entry "b"]).drop 200 =
        [entry "b", entry "c", entry "b"] :=
      List.drop_left' (List.length_replicate ..)
    have horder := (hdisk _ _ _ _ s _ _ _ (after_read_tick _ _) hrun htail
      (by rw [hdrop, hempty, hmax]; decide)).2
    rw [hdrop, hempty] at horder
    exact ⟨s, horder.mpr rfl⟩

/-- An entry pushed while the batch was out is in front of it after the recovery, and the
two unpublished entries of a chunk come back in the wrong order. -/
theorem recovery_reorders :
    (∃ s : System, (run .wire).Run OneTick (after_drain [entry "a"] [false])
        [.tick, .push (entry "b"), .tick] s ∧
      s.tick = .sleeping true ∧ s.storage.buf.memory = [entry "b", entry "a"]) ∧
    ∃ s : System, (run .wire).Run OneTick
        (after_read (List.replicate 200 (entry "a") ++ [entry "b", entry "c"])
          (List.replicate 200 true ++ [false])) (List.replicate 203 .tick) s ∧
      s.tick = .delete_chunk (chunk_name 1)
        (some (List.replicate 200 (entry "a") ++ [entry "b", entry "c"])) true ∧
      s.storage.buf.memory = [entry "c", entry "b"] := by
  constructor
  · have hexec : ((run .wire).exec OneTick (after_drain [entry "a"] [false])
        [.tick, .push (entry "b"), .tick]).any (fun s =>
          s.tick = .sleeping true ∧ s.storage.buf.memory = [entry "b", entry "a"]) = true := by
      rfl
    obtain ⟨s, hrun, htest⟩ := Machine.exists_run_of_exec _ hexec
    exact ⟨s, hrun, of_decide_eq_true htest⟩
  · have hexec : ((run .wire).exec OneTick
        (after_read (List.replicate 200 (entry "a") ++ [entry "b", entry "c"])
          (List.replicate 200 true ++ [false])) (List.replicate 203 .tick)).any (fun s =>
          s.tick = .delete_chunk (chunk_name 1)
            (some (List.replicate 200 (entry "a") ++ [entry "b", entry "c"])) true ∧
          s.storage.buf.memory = [entry "c", entry "b"]) = true := by
      decide +kernel
    obtain ⟨s, hrun, htest⟩ := Machine.exists_run_of_exec _ hexec
    exact ⟨s, hrun, of_decide_eq_true htest⟩

end spotflowd.orchestrator
