import Spotflowd.Buffer.Contents

open effect fs chunked
open spotflowd.config spotflowd.log_entry

namespace spotflowd.buffer

/-- Verdicts are only ever used up. -/
def UsesUp (s t : Storage) : Prop := t.fs.verdicts <:+ s.fs.verdicts

theorem UsesUp.refl (s : Storage) : UsesUp s s := List.suffix_refl _

theorem UsesUp.trans (s t u : Storage) (hfirst : UsesUp s t) (hsecond : UsesUp t u) : UsesUp s u :=
  List.IsSuffix.trans hsecond hfirst

theorem usesUp_on_disk {α : Type} {context : Option String} {x : FsM α}
    (hx : Respects (fun s t => t.verdicts <:+ s.verdicts) x) : Respects UsesUp (on_disk context x) :=
  Respects.zoom hx fun _ _ h => h

theorem usesUp_of_pruned {α : Type} {context : Option String} {x : FsM α} (hx : Respects Pruned x) :
    Respects UsesUp (on_disk context x) :=
  usesUp_on_disk (Respects.mono (fun _ _ h => h.verdicts) hx)

theorem verdicts_write (name : FileName) (content : Bytes) :
    Respects (fun s t => t.verdicts <:+ s.verdicts) (write name content) := by
  intro s
  have hnext : s.next.2.verdicts <:+ s.verdicts := (Pruned.next s).verdicts
  rw [write]
  simp only
  split
  · exact hnext
  · exact hnext
  · split <;> exact hnext

theorem verdicts_rename (source target : FileName) :
    Respects (fun s t => t.verdicts <:+ s.verdicts) (rename source target) := by
  intro s
  have hnext : s.next.2.verdicts <:+ s.verdicts := (Pruned.next s).verdicts
  rw [rename]
  simp only
  split <;> exact hnext

namespace Buffer

theorem usesUp_get : Respects UsesUp (get : BufferM Storage) := fun s => UsesUp.refl s

theorem usesUp_update (f : Buffer → Buffer) : Respects UsesUp (update f) := fun s => UsesUp.refl s

theorem usesUp_write_chunk (c : Ciborium) (entries : List LogEntry) :
    Respects UsesUp (write_chunk c entries) := by
  apply Respects.bind UsesUp.trans usesUp_get
  intro s
  apply Respects.bind UsesUp.trans (usesUp_of_pruned pruned_create_dir_all)
  intro _
  apply Respects.bind UsesUp.trans (usesUp_of_pruned (enforce_limit_pruned _))
  intro _
  apply Respects.bind UsesUp.trans (usesUp_of_pruned pruned_next_chunk_path)
  intro path
  cases c.into_writer entries with
  | none => exact Respects.throw UsesUp.refl _
  | some bytes =>
    apply Respects.bind UsesUp.trans (usesUp_on_disk (verdicts_write _ _))
    intro _
    apply Respects.bind UsesUp.trans (usesUp_on_disk (verdicts_rename _ _))
    intro _
    exact usesUp_update _

theorem usesUp_write_chunks (c : Ciborium) (pieces : List (List LogEntry)) :
    Respects UsesUp (write_chunks c pieces) := by
  induction pieces with
  | nil => exact Respects.pure UsesUp.refl _
  | cons piece pieces ih =>
    apply Respects.bind UsesUp.trans (usesUp_write_chunk c piece)
    intro _
    exact ih

theorem usesUp_flush_memory_to_disk (c : Ciborium) : Respects UsesUp (flush_memory_to_disk c) := by
  apply Respects.bind UsesUp.trans usesUp_get
  intro s
  simp only
  split
  · exact Respects.pure UsesUp.refl _
  · apply Respects.bind UsesUp.trans (usesUp_update _)
    intro _
    exact usesUp_write_chunks c _

theorem usesUp_push (c : Ciborium) (entry : LogEntry) : Respects UsesUp (push c entry) := by
  apply Respects.bind UsesUp.trans usesUp_get
  intro s
  simp only
  split
  · apply Respects.bind UsesUp.trans (usesUp_flush_memory_to_disk c)
    intro _
    exact usesUp_update _
  · exact usesUp_update _

/-- Where the spool directory cannot be created, nothing is written and nothing evicted. -/
theorem write_chunk_uncreatable {c : Ciborium} {s : Storage} (entries : List LogEntry)
    (hfails : s.fs.next.1.fails .create_dir_all = true) :
    ∃ e, write_chunk c entries s = .error e { s with fs := s.fs.next.2 } := by
  have hcreate : create_dir_all s.fs = .error ⟨.create_dir_all⟩ s.fs.next.2 := by
    simp [create_dir_all, hfails]
  refine ⟨⟨some ("create spool dir " ++ s.buf.cfg.disk_path), .io ⟨.create_dir_all⟩⟩, ?_⟩
  rw [write_chunk, bind_of_ok (get_run s)]
  apply bind_of_error
  rw [on_disk, zoom, hcreate]

/-- There a push that overflows loses the whole memory, and its entry as well. -/
theorem push_uncreatable (c : Ciborium) (entry : LogEntry) {s : Storage}
    (hfull : s.buf.cfg.memory_max_entries ≤ s.buf.memory.length)
    (hfails : s.fs.next.1.fails .create_dir_all = true) :
    finalState (push c entry s) =
      { s with buf := { s.buf with memory := [] }, fs := s.fs.next.2 } := by
  have hmemory : s.buf.memory ≠ [] := by
    have := s.buf.cfg.memory_pos
    exact List.ne_nil_of_length_pos (by omega)
  rw [push_of_full hfull, bind_run, flush_memory_to_disk_of_nonempty hmemory,
    chunks_eq_cons s.buf.cfg.chunk_pos hmemory, write_chunks, List.forM_cons]
  obtain ⟨e, hwrite⟩ := write_chunk_uncreatable (c := c) (s := s.drained)
    (s.buf.memory.take s.buf.cfg.disk_chunk_max_entries) hfails
  rw [bind_of_error hwrite]
  rfl

end Buffer

end spotflowd.buffer
