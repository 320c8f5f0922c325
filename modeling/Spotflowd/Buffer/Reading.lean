import Spotflowd.Buffer.Contents

open effect fs
open spotflowd.config spotflowd.log_entry

namespace spotflowd.buffer

namespace Buffer

variable {c : Ciborium}

/-- Looking for a chunk changes neither the memory nor the disk. -/
theorem next_disk_chunk_quiet {s : Storage} (hquiet : s.fs.verdicts = []) :
    ∃ next t, next_disk_chunk s = .ok next t ∧ t.fs = s.fs ∧ t.buf.memory = s.buf.memory ∧
      t.buf.cfg = s.buf.cfg ∧ ∀ path, next = some path → newest_chunk s.fs.files = some path := by
  unfold next_disk_chunk
  rw [bind_of_ok (get_run s)]
  by_cases hflag : s.buf.may_have_chunks = true
  · simp only [hflag, if_true]
    rw [bind_of_ok (on_disk_of_ok (spool_files_newest_first_quiet hquiet))]
    cases hnewest : newest_chunk s.fs.files with
    | none =>
      rw [newest_chunk] at hnewest
      simp only [hnewest]
      exact ⟨none, _, rfl, rfl, rfl, rfl, by simp⟩
    | some path =>
      rw [newest_chunk] at hnewest
      simp only [hnewest]
      exact ⟨some path, _, rfl, rfl, rfl, rfl, by simp⟩
  · simp only [hflag]
    exact ⟨none, s, rfl, rfl, rfl, rfl, by simp⟩

theorem next_disk_chunk_of_newest {s : Storage} {path : FileName} (hquiet : s.fs.verdicts = [])
    (hflag : s.buf.may_have_chunks = true) (hnewest : newest_chunk s.fs.files = some path) :
    next_disk_chunk s = .ok (some path) s := by
  rw [newest_chunk] at hnewest
  unfold next_disk_chunk
  rw [bind_of_ok (get_run s)]
  simp only [hflag, if_true]
  rw [bind_of_ok (on_disk_of_ok (spool_files_newest_first_quiet hquiet))]
  simp only [hnewest]
  rfl

/-- Reading a chunk that is there: its entries, or an error when the call fails or they do
not decode. -/
theorem read_chunk_cases {s : Storage} {path : FileName} {bytes : Bytes}
    (hlookup : s.fs.files.lookup path = some bytes) :
    (s.fs.next.1.fails .read = false ∧ ∃ entries, c.from_reader bytes = some entries ∧
      read_chunk c path s = .ok entries { s with fs := s.fs.next.2 }) ∨
    ((s.fs.next.1.fails .read = true ∨ c.from_reader bytes = none) ∧
      ∃ e, read_chunk c path s = .error e { s with fs := s.fs.next.2 }) := by
  have hread : fs.read path s.fs = if s.fs.next.1.fails .read then .error ⟨.read⟩ s.fs.next.2
      else .ok bytes s.fs.next.2 := by
    rw [fs.read]
    simp only [Fs.next_files, hlookup]
    cases s.fs.next.1.fails .read <;> rfl
  rw [read_chunk, bind_of_ok (get_run s)]
  cases hfails : s.fs.next.1.fails .read with
  | true =>
    rw [hfails, if_pos rfl] at hread
    refine Or.inr ⟨Or.inl rfl, ?_⟩
    exact ⟨_, bind_of_error (on_disk_eq_error_iff.mpr ⟨_, hread, rfl, rfl⟩)⟩
  | false =>
    rw [hfails, if_neg Bool.false_ne_true] at hread
    rw [bind_of_ok (on_disk_of_ok hread)]
    cases hdecode : c.from_reader bytes with
    | none => exact Or.inr ⟨Or.inr rfl, _, rfl⟩
    | some entries => exact Or.inl ⟨rfl, entries, rfl, rfl⟩

theorem read_chunk_quiet {s : Storage} {path : FileName} {bytes : Bytes} (hquiet : s.fs.verdicts = [])
    (hlookup : s.fs.files.lookup path = some bytes) :
    (∃ entries, c.from_reader bytes = some entries ∧ read_chunk c path s = .ok entries s) ∨
      (c.from_reader bytes = none ∧ ∃ e, read_chunk c path s = .error e s) := by
  have hcases := read_chunk_cases (c := c) hlookup
  rw [next_quiet hquiet] at hcases
  obtain ⟨-, entries, hdecode, hread⟩ | ⟨hcause, e, hread⟩ := hcases
  · exact Or.inl ⟨entries, hdecode, hread⟩
  · exact Or.inr ⟨hcause.resolve_left Bool.false_ne_true, e, hread⟩

theorem read_chunk_quiet_missing {s : Storage} {path : FileName} (hquiet : s.fs.verdicts = [])
    (hlookup : s.fs.files.lookup path = none) : ∃ e, read_chunk c path s = .error e s := by
  rw [read_chunk, bind_of_ok (get_run s)]
  exact ⟨_, bind_of_error (on_disk_eq_error_iff.mpr
    ⟨_, read_quiet_missing hquiet hlookup, rfl, rfl⟩)⟩

theorem delete_chunk_quiet {s : Storage} {path : FileName} {content : Bytes}
    (hquiet : s.fs.verdicts = []) (hlookup : s.fs.files.lookup path = some content) :
    delete_chunk path s = .ok () { s with fs := { s.fs with
      dir := some (s.fs.files.erase path)
      removed := s.fs.removed ++ [(path, content)] } } := by
  unfold delete_chunk
  rw [bind_of_ok (get_run s), on_disk_of_ok (remove_file_quiet hquiet hlookup)]

theorem delete_chunk_quiet_missing {s : Storage} {path : FileName}
    (hquiet : s.fs.verdicts = []) (hlookup : s.fs.files.lookup path = none) :
    finalState (delete_chunk path s) = s := by
  unfold delete_chunk
  rw [bind_of_ok (get_run s)]
  simp [on_disk, zoom, remove_file_quiet_missing hquiet hlookup]

/-- Undisturbed, a deletion leaves no file of the name behind. -/
theorem delete_chunk_gone {s : Storage} (hquiet : s.fs.verdicts = []) (path : FileName) :
    path ∉ (finalState (delete_chunk path s)).fs.files := by
  cases hlookup : s.fs.files.lookup path with
  | none =>
    rw [delete_chunk_quiet_missing hquiet hlookup]
    exact AList.lookup_eq_none.mp hlookup
  | some content =>
    rw [delete_chunk_quiet hquiet hlookup, finalState_ok]
    simp [Fs.files]

/-- Deleting a chunk takes its entries out of the contents. -/
theorem contents_delete_chunk {s : Storage} {path : FileName} {content : Bytes}
    (hquiet : s.fs.verdicts = []) (hchunk : is_chunk_file path = true)
    (hlookup : s.fs.files.lookup path = some content) :
    contents c (finalState (delete_chunk path s)) + ↑(decoded c content) = contents c s := by
  have hzero : ∀ content, chunk_entries_except c path path content = 0 := by
    simp [chunk_entries_except]
  rw [← holdings_except_add hchunk hlookup, delete_chunk_quiet hquiet hlookup, finalState_ok]
  rw [← holdings_except_of_notMem c (show path ∉ _ by simp [Fs.files])]
  congr 1
  simp only [holdings, Fs.files, Option.getD_some]
  rw [Dir.total_erase_of_zero _ hzero]

theorem remove_file_files (name : FileName) (s : Fs) :
    (finalState (remove_file name s)).files = s.files ∨
      (finalState (remove_file name s)).files = s.files.erase name := by
  rw [remove_file]
  simp only [Fs.next_files]
  split
  · exact Or.inr rfl
  · exact Or.inl (Fs.next_files s)

/-- However a deletion ends, at most the one file is gone. -/
theorem delete_chunk_files (path : FileName) (s : Storage) :
    (finalState (delete_chunk path s)).buf = s.buf ∧
      ((finalState (delete_chunk path s)).fs.files = s.fs.files ∨
        (finalState (delete_chunk path s)).fs.files = s.fs.files.erase path) := by
  have hfiles := remove_file_files path s.fs
  rw [delete_chunk, bind_of_ok (get_run s), on_disk, zoom]
  cases hremove : remove_file path s.fs with
  | ok _ t =>
    rw [hremove] at hfiles
    exact ⟨rfl, hfiles⟩
  | error e t =>
    rw [hremove] at hfiles
    exact ⟨rfl, hfiles⟩

theorem delete_chunk_holdings_le (f : FileName → Bytes → Multiset LogEntry) (path : FileName)
    (s : Storage) : holdings f (finalState (delete_chunk path s)) ≤ holdings f s := by
  obtain ⟨hbuf, hfiles | hfiles⟩ := delete_chunk_files path s
  · rw [holdings, hbuf, hfiles, holdings]
  · rw [holdings, hbuf, hfiles, holdings]
    gcongr
    exact Dir.total_erase_le f _ _

end Buffer

end spotflowd.buffer
