import Spotflowd.Buffer.Ascending
import Spotflowd.Buffer.Reading
import Spotflowd.Buffer.Room
import Mathlib.Algebra.Order.BigOperators.Group.List

open effect fs path chunked
open spotflowd.config spotflowd.log_entry

namespace spotflowd.buffer

/-- The newest chunk, the last one to be evicted, fits into the limit next to the files
that are no chunks. -/
def NewestFits (max_bytes : Nat) (d : Dir) : Prop :=
  ∃ name content, newest_chunk d = some name ∧ d.lookup name = some content ∧
    other_bytes d + content.length ≤ max_bytes

instance (max_bytes : Nat) (d : Dir) : Decidable (NewestFits max_bytes d) :=
  decidable_of_iff (((newest_chunk d).bind d.lookup).any fun content =>
      other_bytes d + content.length ≤ max_bytes) <| by
    simp only [NewestFits, Option.any_eq_true, Option.bind_eq_some_iff, decide_eq_true_eq]
    constructor
    · rintro ⟨content, ⟨name, hnewest, hlookup⟩, hfits⟩
      exact ⟨name, content, hnewest, hlookup, hfits⟩
    · rintro ⟨name, content, hnewest, hlookup, hfits⟩
      exact ⟨content, ⟨name, hnewest, hlookup⟩, hfits⟩

theorem exists_newest_chunk {d : Dir} {p : FileName} (hp : p ∈ d) (hchunk : is_chunk_file p = true) :
    ∃ name, newest_chunk d = some name := by
  rw [← Option.isSome_iff_exists, newest_chunk, List.isSome_head?]
  intro hnil
  have hmem : p ∈ (d.keys.filter is_chunk_file).insertionSort (· ≥ ·) :=
    (List.mem_insertionSort _).mpr (List.mem_filter.mpr ⟨hp, hchunk⟩)
  rw [hnil] at hmem
  cases hmem

theorem other_bytes_of_removes {d d' : Dir} {gone : List (FileName × Bytes)}
    (hremoves : d.Removes gone d') (hchunks : ∀ file ∈ gone, is_chunk_file file.1 = true) :
    other_bytes d' = other_bytes d := by
  have htotal := hremoves.total fun name content => if is_chunk_file name then 0 else content.length
  rw [List.sum_eq_zero, zero_add] at htotal
  · exact htotal
  · intro share hshare
    obtain ⟨file, hfile, rfl⟩ := List.mem_map.mp hshare
    simp [hchunks file hfile]

/-- A chunk and the files that are no chunks are part of the spool. -/
theorem other_bytes_add_le {d : Dir} {name : FileName} {content : Bytes}
    (hlookup : d.lookup name = some content) (hchunk : is_chunk_file name = true) :
    other_bytes d + content.length ≤ spool_bytes d := by
  have hall := Dir.total_erase (fun _ content => List.length content) hlookup
  have hother := Dir.total_erase (fun name content => if is_chunk_file name then 0 else content.length)
    hlookup
  have hle : other_bytes (d.erase name) ≤ spool_bytes (d.erase name) := by
    apply List.sum_le_sum
    intro file _
    dsimp only
    split
    · exact Nat.zero_le _
    · exact le_rfl
  simp only [hchunk, if_true] at hother
  unfold other_bytes spool_bytes at *
  omega

/-- Eviction leaves a chunk exactly when the newest one fits. -/
theorem Evicts.leaves_chunk_iff {max_bytes : Nat} {d d' : Dir} {gone : List (FileName × Bytes)}
    (hevicts : Evicts max_bytes d gone d') :
    (∃ p ∈ d', is_chunk_file p = true) ↔ NewestFits max_bytes d := by
  constructor
  · rintro ⟨p, hp, hchunk⟩
    obtain ⟨name, hnewest⟩ := exists_newest_chunk (hevicts.removes.mem hp) hchunk
    obtain ⟨hmem, hchunkn, hgreatest⟩ := newest_chunk_spec hnewest
    have hkept : name ∈ d' := by
      obtain hkept | ⟨content, hgone⟩ := hevicts.removes.mem_or hmem
      · exact hkept
      · have hlt := hevicts.oldest_first _ hgone p hp hchunk
        exact absurd (hgreatest p (hevicts.removes.mem hp) hchunk) (not_le.mpr hlt)
    obtain ⟨content, hlookup⟩ := Option.isSome_iff_exists.mp (AList.lookup_isSome.mpr hkept)
    obtain henough | hnone := hevicts.enough
    · refine ⟨name, content, hnewest, hevicts.removes.lookup hlookup, ?_⟩
      rw [← other_bytes_of_removes hevicts.removes hevicts.chunks]
      exact (other_bytes_add_le hlookup hchunkn).trans henough
    · rw [hnone p hp] at hchunk
      cases hchunk
  · rintro ⟨name, content, hnewest, hlookup, hfits⟩
    obtain ⟨-, hchunk, hgreatest⟩ := newest_chunk_spec hnewest
    exact ⟨name, hevicts.newest_kept name content hlookup hchunk hgreatest hfits, hchunk⟩

theorem number_le_max_seq {names : List FileName} {name : FileName} (hmem : name ∈ names) :
    number name ≤ max_seq names := by
  unfold number
  cases hseq : sequence_number name with
  | none => exact Nat.zero_le _
  | some seq => exact le_max_seq hmem hseq

theorem next_seq_removes_le {d d' : Dir} {gone : List (FileName × Bytes)}
    (hremoves : d.Removes gone d') : next_seq d' ≤ next_seq d := by
  apply Nat.succ_le_succ
  rw [max_seq_le_iff]
  intro name hname seq hseq
  exact le_max_seq (AList.mem_keys.mp (hremoves.mem (AList.mem_keys.mpr hname))) hseq

/-- The chunk at `path`, while it is there, has the content it was read with; the other
chunks are older ones, or newer ones with higher numbers, of which one at least is there
once the chunk has been evicted. -/
structure Held (path : FileName) (content : Bytes → Prop) (d : Dir) : Prop where
  chunk : is_chunk_file path = true
  content : ∀ found, d.lookup path = some found → content found
  others : ∀ p ∈ d, is_chunk_file p = true → p ≠ path → p < path ∧ path ∈ d ∨ number path < number p
  some_chunk : ∃ p ∈ d, is_chunk_file p = true

variable {path : FileName} {content : Bytes → Prop} {d : Dir}

/-- The chunk that is picked is held. -/
theorem held_newest (hnewest : newest_chunk d = some path) : Held path (fun _ => True) d := by
  obtain ⟨hmem, hchunk, hgreatest⟩ := newest_chunk_spec hnewest
  refine ⟨hchunk, fun _ _ => trivial, ?_, path, hmem, hchunk⟩
  intro p hp hchunkp hne
  exact Or.inl ⟨lt_of_le_of_ne (hgreatest p hp hchunkp) hne, hmem⟩

theorem Held.mono {content' : Bytes → Prop} (hheld : Held path content d)
    (hcontent : ∀ found, d.lookup path = some found → content' found) : Held path content' d :=
  ⟨hheld.chunk, hcontent, hheld.others, hheld.some_chunk⟩

/-- As long as a chunk is left, the next number is higher than that of the held chunk. -/
theorem Held.number_lt (hheld : Held path content d) : number path < next_seq d := by
  obtain ⟨p, hp, hchunk⟩ := hheld.some_chunk
  apply Nat.lt_succ_of_le
  by_cases heq : p = path
  · subst heq
    exact number_le_max_seq (AList.mem_keys.mp hp)
  · obtain ⟨-, hmem⟩ | hlt := hheld.others p hp hchunk heq
    · exact number_le_max_seq (AList.mem_keys.mp hmem)
    · exact hlt.le.trans (number_le_max_seq (AList.mem_keys.mp hp))

theorem Held.evict (hheld : Held path content d) {max_bytes : Nat} {d' : Dir}
    {gone : List (FileName × Bytes)} (hevicts : Evicts max_bytes d gone d')
    (hfits : NewestFits max_bytes d) : Held path content d' := by
  refine ⟨hheld.chunk, ?_, ?_, hevicts.leaves_chunk_iff.mpr hfits⟩
  · exact fun found hlookup => hheld.content found (hevicts.removes.lookup hlookup)
  · intro p hp hchunk hne
    obtain ⟨hlt, hmem⟩ | hlt := hheld.others p (hevicts.removes.mem hp) hchunk hne
    · obtain hkept | ⟨content, hgone⟩ := hevicts.removes.mem_or hmem
      · exact Or.inl ⟨hlt, hkept⟩
      · exact absurd (hevicts.oldest_first _ hgone p hp hchunk) (not_lt.mpr hlt.le)
    · exact Or.inr hlt

theorem Held.ne_next (hheld : Held path content d) (hbound : next_seq d < 2 ^ 64) :
    path ≠ chunk_name (next_seq d) := by
  intro heq
  have hlt := hheld.number_lt
  rw [heq, number_chunk_name hbound] at hlt
  exact lt_irrefl _ hlt

theorem Held.store (hheld : Held path content d) (hbound : next_seq d < 2 ^ 64) (bytes : Bytes) :
    Held path content (stored d (next_seq d) bytes) := by
  have hne := hheld.ne_next hbound
  have hmem : ∀ p, is_chunk_file p = true → p ≠ chunk_name (next_seq d) →
      (p ∈ stored d (next_seq d) bytes ↔ p ∈ d) := by
    intro p hchunk hother
    rw [← AList.lookup_isSome, ← AList.lookup_isSome, lookup_stored_ne hchunk hother]
  refine ⟨hheld.chunk, ?_, ?_, chunk_name (next_seq d), ?_, is_chunk_file_chunk_name _⟩
  · intro found hlookup
    rw [lookup_stored_ne hheld.chunk hne] at hlookup
    exact hheld.content found hlookup
  · intro p hp hchunk hother
    by_cases hnew : p = chunk_name (next_seq d)
    · rw [hnew, number_chunk_name hbound]
      exact Or.inr hheld.number_lt
    · rw [hmem p hchunk hnew] at hp
      rw [hmem path hheld.chunk hne]
      exact hheld.others p hp hchunk hother
  · exact AList.lookup_isSome.mp (by rw [lookup_stored_self]; rfl)

/-- At every chunk write the newest chunk fits, so that the eviction leaves one, and the
number of the new chunk is within range. -/
def Spares (c : Ciborium) : List (List LogEntry) → Storage → Prop
  | [], _ => True
  | piece :: pieces, s =>
    NewestFits s.buf.max_bytes s.fs.files ∧ next_seq s.fs.files < 2 ^ 64 ∧
      Spares c pieces (finalState (Buffer.write_chunk c piece s))

instance decidableSpares (c : Ciborium) : (pieces : List (List LogEntry)) → (s : Storage) →
    Decidable (Spares c pieces s)
  | [], _ => isTrue trivial
  | piece :: pieces, s =>
    have := decidableSpares c pieces (finalState (Buffer.write_chunk c piece s))
    inferInstanceAs (Decidable (_ ∧ _ ∧ _))

/-- If the push overflows, every chunk write of the flush leaves a chunk in the spool. -/
def PushSpares (c : Ciborium) (s : Storage) : Prop :=
  s.buf.cfg.memory_max_entries ≤ s.buf.memory.length →
    Spares c (chunks s.buf.cfg.disk_chunk_max_entries s.buf.memory) s.drained

instance (c : Ciborium) (s : Storage) : Decidable (PushSpares c s) :=
  inferInstanceAs (Decidable (_ → _))

/-- No file operation fails, the chunk at `path` is held, and no chunk has been put in its
place since `before` were the renamed files. -/
structure Holding (path : FileName) (content : Bytes → Prop) (before : List (FileName × Bytes))
    (s : Storage) : Prop where
  quiet : s.fs.verdicts = []
  held : Held path content s.fs.files
  unwritten : ∃ written, s.fs.renamed = before ++ written ∧ ∀ file ∈ written, file.1 ≠ path

namespace Buffer

/-- When the files that are no chunks take up the whole limit, a chunk write evicts every
chunk there is, and the numbers start over. -/
theorem write_chunk_restarts {c : Ciborium} {entries : List LogEntry} {s : Storage} {bytes : Bytes}
    (hquiet : s.fs.verdicts = []) (hbytes : c.into_writer entries = some bytes)
    (hcrowded : s.buf.max_bytes < other_bytes s.fs.files)
    (hunnumbered : ∀ p ∈ s.fs.files, is_chunk_file p = false → sequence_number p = none) :
    ∃ gone d, write_chunk c entries s = .ok () (s.store d gone 1 bytes) := by
  obtain ⟨gone, d, hevicts, hwrite⟩ := write_chunk_quiet hquiet hbytes
  have hnone : ∀ p ∈ d, is_chunk_file p = false := by
    intro p hp
    by_contra hchunk
    rw [Bool.not_eq_false] at hchunk
    obtain ⟨name, content, -, -, hfits⟩ := hevicts.leaves_chunk_iff.mp ⟨p, hp, hchunk⟩
    omega
  have hmax : max_seq d.keys ≤ 0 := by
    rw [max_seq_le_iff]
    intro name hname seq hseq
    have hmem := AList.mem_keys.mpr hname
    rw [hunnumbered name (hevicts.removes.mem hmem) (hnone name hmem)] at hseq
    cases hseq
  have hnext : next_seq d % 2 ^ 64 = 1 := by
    rw [next_seq]
    omega
  exact ⟨gone, d, by rw [hwrite, hnext]⟩

theorem memory_ne_nil_of_full {s : Storage}
    (hfull : s.buf.cfg.memory_max_entries ≤ s.buf.memory.length) : s.buf.memory ≠ [] := by
  have hpos := s.buf.cfg.memory_pos
  intro hnil
  rw [hnil, List.length_nil] at hfull
  omega

/-- So an overflow that makes one chunk writes it under the first number. -/
theorem push_restarts {c : Ciborium} {s : Storage} {bytes : Bytes} (entry : LogEntry)
    (hquiet : s.fs.verdicts = []) (hfull : s.buf.cfg.memory_max_entries ≤ s.buf.memory.length)
    (hpiece : s.buf.memory.length ≤ s.buf.cfg.disk_chunk_max_entries)
    (hbytes : c.into_writer s.buf.memory = some bytes)
    (hcrowded : s.buf.max_bytes < other_bytes s.fs.files)
    (hunnumbered : ∀ p ∈ s.fs.files, is_chunk_file p = false → sequence_number p = none) :
    ∃ t, push c entry s = .ok () t ∧ t.fs.verdicts = [] ∧
      (chunk_name 1, bytes) ∈ t.fs.renamed ∧ t.fs.files.lookup (chunk_name 1) = some bytes := by
  have hmemory := memory_ne_nil_of_full hfull
  obtain ⟨gone, d, hwrite⟩ := write_chunk_restarts (s := s.drained) hquiet hbytes hcrowded hunnumbered
  have hflush : flush_memory_to_disk c s = .ok () (s.drained.store d gone 1 bytes) := by
    rw [flush_memory_to_disk_of_nonempty hmemory, chunks_eq_cons s.buf.cfg.chunk_pos hmemory,
      List.take_of_length_le hpiece, List.drop_of_length_le hpiece, chunks_nil, write_chunks,
      List.forM_cons, bind_of_ok hwrite]
    rfl
  rw [push_of_full hfull, bind_of_ok hflush]
  refine ⟨_, rfl, hquiet, ?_, ?_⟩
  · exact List.mem_append_right _ List.mem_cons_self
  · exact lookup_stored_self _ _ _

variable {before : List (FileName × Bytes)} {s : Storage}

theorem write_chunk_holding (c : Ciborium) (entries : List LogEntry)
    (hholding : Holding path content before s) (hfits : NewestFits s.buf.max_bytes s.fs.files)
    (hbound : next_seq s.fs.files < 2 ^ 64) :
    Holding path content before (finalState (write_chunk c entries s)) := by
  obtain ⟨hquiet, hheld, written, hrenamed, hne⟩ := hholding
  cases hbytes : c.into_writer entries with
  | none =>
    obtain ⟨gone, d, hevicts, hwrite⟩ := write_chunk_quiet_none hquiet hbytes
    rw [hwrite, finalState_error]
    exact ⟨hquiet, hheld.evict hevicts hfits, written, hrenamed, hne⟩
  | some bytes =>
    obtain ⟨gone, d, hevicts, hwrite⟩ := write_chunk_quiet hquiet hbytes
    have hevicted := hheld.evict hevicts hfits
    have hseq : next_seq d < 2 ^ 64 := (next_seq_removes_le hevicts.removes).trans_lt hbound
    rw [hwrite, finalState_ok, Nat.mod_eq_of_lt hseq]
    refine ⟨hquiet, hevicted.store hseq bytes, written ++ [(chunk_name (next_seq d), bytes)], ?_, ?_⟩
    · rw [Storage.store, hrenamed, List.append_assoc]
    · intro file hfile
      obtain hold | hnew := List.mem_append.mp hfile
      · exact hne file hold
      · rw [List.mem_singleton.mp hnew]
        exact (hevicted.ne_next hseq).symm

theorem write_chunks_holding (c : Ciborium) {pieces : List (List LogEntry)}
    (hholding : Holding path content before s) (hspares : Spares c pieces s) :
    Holding path content before (finalState (write_chunks c pieces s)) := by
  induction pieces generalizing s with
  | nil => exact hholding
  | cons piece pieces ih =>
    obtain ⟨hfits, hbound, hrest⟩ := hspares
    have hpiece := write_chunk_holding c piece hholding hfits hbound
    rw [write_chunks, List.forM_cons]
    cases hwrite : write_chunk c piece s with
    | ok _ t =>
      rw [hwrite, finalState_ok] at hpiece hrest
      rw [bind_of_ok hwrite]
      exact ih hpiece hrest
    | error e t =>
      rw [hwrite, finalState_error] at hpiece
      rw [bind_of_error hwrite]
      exact hpiece

theorem push_holding (c : Ciborium) (entry : LogEntry) (hholding : Holding path content before s)
    (hspares : PushSpares c s) : Holding path content before (finalState (push c entry s)) := by
  by_cases hfull : s.buf.cfg.memory_max_entries ≤ s.buf.memory.length
  · have hmemory := memory_ne_nil_of_full hfull
    have hdrained : Holding path content before s.drained :=
      ⟨hholding.quiet, hholding.held, hholding.unwritten⟩
    have hflush := write_chunks_holding c hdrained (hspares hfull)
    rw [← flush_memory_to_disk_of_nonempty hmemory] at hflush
    rw [push_of_full hfull]
    cases hrun : flush_memory_to_disk c s with
    | ok _ t =>
      rw [hrun, finalState_ok] at hflush
      rw [bind_of_ok hrun]
      exact ⟨hflush.quiet, hflush.held, hflush.unwritten⟩
    | error e t =>
      rw [hrun, finalState_error] at hflush
      rw [bind_of_error hrun]
      exact hflush
  · rw [push_of_room _ (not_le.mp hfull)]
    exact ⟨hholding.quiet, hholding.held, hholding.unwritten⟩

end Buffer

end spotflowd.buffer
