import Spotflowd.Buffer.Crash
import Spotflowd.Lib.Confined

open effect fs path chunked
open spotflowd.config spotflowd.log_entry

namespace spotflowd.buffer

/-- A chunk, or a chunk that is being written. -/
def spool_file (name : FileName) : Prop := is_chunk_file name = true ∨ ∃ seq, name = tmp_name seq

theorem Pruned.confined {s t : Fs} (hpruned : Pruned s t) : Confined spool_file s t := by
  obtain ⟨gone, hremoves, -, hchunks⟩ := hpruned.files
  intro name hname
  apply hremoves.lookup_of_forall_ne
  rintro file hfile rfl
  exact hname (Or.inl (hchunks file hfile))

/-- The buffer may change, the files outside the spool may not. -/
def Minds (s t : Storage) : Prop := Confined spool_file s.fs t.fs

theorem Minds.refl (s : Storage) : Minds s s := Confined.refl s.fs

theorem Minds.trans (s t u : Storage) (hfirst : Minds s t) (hsecond : Minds t u) : Minds s u :=
  Confined.trans _ _ _ hfirst hsecond

theorem on_disk_steps_minds {α : Type} {context : Option String} {x : Interruptible IoError Fs α}
    (hx : x.Respects (Confined spool_file)) : (on_disk_steps context x).Respects Minds :=
  Interruptible.Respects.zoom hx fun _ _ h => h

theorem whole_minds {α : Type} {context : Option String} {x : FsM α}
    (hx : Respects (Confined spool_file) x) :
    (on_disk_steps context (.whole x)).Respects Minds :=
  on_disk_steps_minds (.whole Confined.refl hx)

theorem on_disk_minds {α : Type} {context : Option String} {x : FsM α}
    (hx : Respects (Confined spool_file) x) : Respects Minds (on_disk context x) :=
  Respects.zoom hx fun _ _ h => h

theorem get_minds : Respects Minds (get : BufferM Storage) := fun s => Minds.refl s

theorem get_steps_minds : (Interruptible.whole (get : BufferM Storage)).Respects Minds :=
  .whole Minds.refl get_minds

theorem update_minds (f : Buffer → Buffer) :
    (Interruptible.whole (Buffer.update f)).Respects Minds :=
  .whole Minds.refl fun s => Minds.refl s

theorem enforce_limit_steps_confined (max_bytes : Nat) :
    (enforce_limit_steps max_bytes).Respects (Confined spool_file) := by
  have hround : Respects (Confined spool_file) (limit_round max_bytes) :=
    (usesVerdict_limit_round max_bytes).mono fun _ _ h => h.1.confined
  refine ⟨fun s => (enforce_limit_pruned max_bytes s).confined, ?_⟩
  intro s t hcut
  exact (Interruptible.Respects.loop Confined.refl Confined.trans
    (Interruptible.Respects.whole Confined.refl hround) (rounds_left s + 1)).cut s t hcut

theorem write_steps_confined (seq : Nat) (content : Bytes) :
    (write_steps (tmp_name seq) content).Respects (Confined spool_file) := by
  have hname : spool_file (tmp_name seq) := Or.inr ⟨seq, rfl⟩
  refine ⟨write_confined hname content, ?_⟩
  rintro s t (rfl | ⟨d, n, hdir, rfl⟩)
  · exact Confined.refl t
  · refine @Confined.insert _ _ _ _ (content.take n) hname ?_
    rw [Fs.files, Fs.files, hdir]
    rfl

namespace Buffer

/-- Wherever a chunk write ends or is cut off. -/
theorem write_chunk_steps_minds (c : Ciborium) (entries : List LogEntry) :
    (write_chunk_steps c entries).Respects Minds := by
  apply Interruptible.Respects.bind Minds.trans get_steps_minds
  intro found
  apply Interruptible.Respects.bind Minds.trans (whole_minds create_dir_all_confined)
  intro _
  apply Interruptible.Respects.bind Minds.trans
    (on_disk_steps_minds (enforce_limit_steps_confined _))
  intro _
  refine Interruptible.Respects.bind_of Minds.trans (P := fun path => ∃ seq, path = chunk_name seq)
    (whole_minds (pruned_next_chunk_path.mono fun _ _ h => h.confined)) ?_ ?_
  · intro s path t hrun
    exact next_chunk_path_ok (on_disk_eq_ok_iff.mp hrun).1
  · rintro path ⟨seq, rfl⟩
    cases c.into_writer entries with
    | none => exact .whole Minds.refl fun s => Minds.refl s
    | some buf =>
      apply Interruptible.Respects.bind Minds.trans
        (on_disk_steps_minds (write_steps_confined seq buf))
      intro _
      apply Interruptible.Respects.bind Minds.trans
        (whole_minds (rename_confined (Or.inr ⟨seq, rfl⟩) (Or.inl (is_chunk_file_chunk_name seq))))
      intro _
      exact update_minds _

theorem flush_memory_to_disk_steps_minds (c : Ciborium) :
    (flush_memory_to_disk_steps c).Respects Minds := by
  apply Interruptible.Respects.bind Minds.trans get_steps_minds
  intro found
  dsimp only
  split
  · exact .pure Minds.refl _
  · apply Interruptible.Respects.bind Minds.trans (update_minds _)
    intro _
    exact .forM Minds.refl Minds.trans fun piece => write_chunk_steps_minds c piece

theorem flush_memory_to_disk_minds (c : Ciborium) : Respects Minds (flush_memory_to_disk c) := by
  rw [← run_flush_memory_to_disk_steps]
  exact (flush_memory_to_disk_steps_minds c).run

theorem push_minds (c : Ciborium) (entry : LogEntry) : Respects Minds (push c entry) := by
  apply Respects.bind Minds.trans get_minds
  intro found
  simp only
  split
  · exact Respects.bind Minds.trans (flush_memory_to_disk_minds c) fun _ s => Minds.refl s
  · exact fun s => Minds.refl s

theorem next_disk_chunk_minds : Respects Minds next_disk_chunk := by
  apply Respects.bind Minds.trans get_minds
  intro found
  dsimp only
  split
  · apply Respects.bind Minds.trans
      (on_disk_minds (pruned_spool_files_newest_first.mono fun _ _ h => h.confined))
    intro files
    split
    · exact Respects.pure Minds.refl _
    · exact Respects.bind Minds.trans (fun s => Minds.refl s) fun _ => Respects.pure Minds.refl _
  · exact Respects.pure Minds.refl _

theorem read_chunk_minds (c : Ciborium) (path : FileName) : Respects Minds (read_chunk c path) := by
  apply Respects.bind Minds.trans get_minds
  intro found
  apply Respects.bind Minds.trans (on_disk_minds (read_confined path))
  intro data
  split
  · exact Respects.pure Minds.refl _
  · exact Respects.throw Minds.refl _

theorem delete_chunk_minds {path : FileName} (hchunk : is_chunk_file path = true) :
    Respects Minds (delete_chunk path) := by
  apply Respects.bind Minds.trans get_minds
  intro found
  exact on_disk_minds (remove_file_confined (Or.inl hchunk))

end Buffer

end spotflowd.buffer
