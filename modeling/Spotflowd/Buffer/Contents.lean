import Spotflowd.Buffer.WriteChunk
import Mathlib.Data.Multiset.OrderedMonoid

open effect fs path chunked
open spotflowd.config spotflowd.log_entry

namespace spotflowd.buffer

section Totals

variable {M : Type} [AddCommMonoid M] [PartialOrder M] [CanonicallyOrderedAdd M]
  (f : FileName → Bytes → M)

theorem Pruned.total_le {s t : Fs} (hpruned : Pruned s t) : t.files.total f ≤ s.files.total f := by
  obtain ⟨gone, hremoves, -, -⟩ := hpruned.files
  rw [← hremoves.total f]
  exact le_add_self

/-- A failed chunk write adds nothing to a sum in which temporary files count nothing. -/
theorem Unwritten.total_le (htmp : ∀ seq content, f (tmp_name seq) content = 0) {s t : Fs}
    (hunwritten : Unwritten s t) : t.files.total f ≤ s.files.total f := by
  obtain ⟨u, hpruned, -, -, hfiles | ⟨seq, content, hfiles⟩⟩ := hunwritten
  · rw [hfiles]
    exact hpruned.total_le f
  · rw [hfiles, Dir.total_insert_of_zero f content (htmp seq)]
    exact hpruned.total_le f

variable [IsOrderedAddMonoid M]

/-- A chunk write that succeeds adds the share of its chunk at most. -/
theorem Written.total_le {c : Ciborium} {entries : List LogEntry} {s t : Fs} {seq : Nat}
    {bytes : Bytes} (hwritten : Written c entries s t seq bytes) :
    t.files.total f ≤ f (chunk_name seq) bytes + s.files.total f := by
  obtain ⟨u, hpruned, hfiles, -, -⟩ := hwritten.state
  rw [hfiles, stored, Dir.total_insert]
  gcongr
  exact (Dir.total_erase_le f _ _).trans ((Dir.total_erase_le f _ _).trans (hpruned.total_le f))

end Totals

/-- The entries in a file's bytes; none when they do not decode. -/
def decoded (c : Ciborium) (bytes : Bytes) : List LogEntry := (c.from_reader bytes).getD []

/-- What a file counts for: the entries of a chunk, nothing for any other file. -/
def chunk_entries (c : Ciborium) (name : FileName) (content : Bytes) : Multiset LogEntry :=
  if is_chunk_file name then ↑(decoded c content) else 0

/-- All entries in chunk files. -/
def disk_entries (c : Ciborium) (d : Dir) : Multiset LogEntry := d.total (chunk_entries c)

/-- All entries the buffer holds, in memory and on disk. -/
def contents (c : Ciborium) (s : Storage) : Multiset LogEntry :=
  ↑s.buf.memory + disk_entries c s.fs.files

@[simp] theorem chunk_entries_tmp_name (c : Ciborium) (seq : Nat) (content : Bytes) :
    chunk_entries c (tmp_name seq) content = 0 := by
  simp [chunk_entries]

theorem chunk_entries_of_written {c : Ciborium} (hround : c.RoundTrips) {entries : List LogEntry}
    {bytes : Bytes} (hbytes : c.into_writer entries = some bytes) (seq : Nat) :
    chunk_entries c (chunk_name seq) bytes = ↑entries := by
  simp [chunk_entries, decoded, hround entries bytes hbytes]

/-- What the buffer holds when a file counts for `f`, in memory and on disk. -/
def holdings (f : FileName → Bytes → Multiset LogEntry) (s : Storage) : Multiset LogEntry :=
  ↑s.buf.memory + s.fs.files.total f

/-- No file counts for more than the entries in it. -/
def Counts (c : Ciborium) (f : FileName → Bytes → Multiset LogEntry) : Prop :=
  ∀ name content, f name content ≤ chunk_entries c name content

theorem counts_chunk_entries (c : Ciborium) : Counts c (chunk_entries c) := fun _ _ => le_rfl

/-- Chunk files count, except for one. -/
def chunk_entries_except (c : Ciborium) (path name : FileName) (content : Bytes) :
    Multiset LogEntry :=
  if name = path then 0 else chunk_entries c name content

theorem counts_chunk_entries_except (c : Ciborium) (path : FileName) :
    Counts c (chunk_entries_except c path) := by
  intro name content
  unfold chunk_entries_except
  split
  · exact zero_le
  · exact le_rfl

/-- Once the file is gone, leaving it out makes no difference. -/
theorem holdings_except_of_notMem (c : Ciborium) {path : FileName} {s : Storage}
    (hgone : path ∉ s.fs.files) : holdings (chunk_entries_except c path) s = contents c s := by
  have htotal : s.fs.files.total (chunk_entries_except c path) = disk_entries c s.fs.files := by
    apply Dir.total_congr
    intro name hmem content
    have hne : name ≠ path := by
      rintro rfl
      exact hgone hmem
    simp [chunk_entries_except, hne]
  rw [holdings, htotal, contents]

/-- A chunk's entries and everything else make up the contents. -/
theorem holdings_except_add {c : Ciborium} {path : FileName} {bytes : Bytes} {s : Storage}
    (hchunk : is_chunk_file path = true) (hlookup : s.fs.files.lookup path = some bytes) :
    holdings (chunk_entries_except c path) s + ↑(decoded c bytes) = contents c s := by
  have hzero : ∀ content, chunk_entries_except c path path content = 0 := by
    simp [chunk_entries_except]
  have herased : Dir.total (chunk_entries c) (s.fs.files.erase path) =
      s.fs.files.total (chunk_entries_except c path) := by
    rw [← Dir.total_erase_of_zero _ hzero]
    apply Dir.total_congr
    intro name hmem content
    simp [chunk_entries_except, (AList.mem_erase.mp hmem).1]
  have htotal := Dir.total_erase (chunk_entries c) hlookup
  rw [herased, chunk_entries, if_pos hchunk] at htotal
  rw [holdings, contents, disk_entries, ← htotal, add_assoc, add_comm (Dir.total _ _)]

namespace Buffer

variable {c : Ciborium} (hround : c.RoundTrips) {f : FileName → Bytes → Multiset LogEntry}
  (hcounts : Counts c f)

include hround hcounts

theorem write_chunk_ok_entries {entries : List LogEntry} {s t : Storage}
    (hok : write_chunk c entries s = .ok () t) :
    t.buf = { s.buf with may_have_chunks := true } ∧
      t.fs.files.total f ≤ ↑entries + s.fs.files.total f := by
  obtain ⟨hbuf, seq, bytes, hwritten⟩ := write_chunk_ok hok
  refine ⟨hbuf, (hwritten.total_le f).trans ?_⟩
  rw [← chunk_entries_of_written hround hwritten.serialized seq]
  gcongr
  exact hcounts _ _

/-- Chunk writes that all succeed put no more on disk than they were given. -/
theorem write_chunks_ok_entries {pieces : List (List LogEntry)} {s t : Storage}
    (hok : write_chunks c pieces s = .ok () t) :
    t.buf.memory = s.buf.memory ∧
      t.fs.files.total f ≤ ↑pieces.flatten + s.fs.files.total f := by
  induction pieces generalizing s with
  | nil =>
    cases hok
    simp
  | cons piece pieces ih =>
    obtain ⟨_, u, hwrite, hrest⟩ := bind_eq_ok_iff.mp hok
    obtain ⟨hbuf, hfirst⟩ := write_chunk_ok_entries hround hcounts hwrite
    obtain ⟨hmemory, hdisk⟩ := ih hrest
    refine ⟨by rw [hmemory, hbuf], hdisk.trans ?_⟩
    rw [List.flatten_cons, ← Multiset.coe_add, add_comm (piece : Multiset LogEntry), add_assoc]
    gcongr

/-- Chunk writes that fail at some piece have put at most the pieces before it on disk. -/
theorem write_chunks_error_entries {pieces : List (List LogEntry)} {s t : Storage} {e : Error}
    (herror : write_chunks c pieces s = .error e t) :
    t.buf.memory = s.buf.memory ∧ ∃ done piece rest, pieces = done ++ piece :: rest ∧
      t.fs.files.total f ≤ ↑done.flatten + s.fs.files.total f := by
  induction pieces generalizing s with
  | nil => cases herror
  | cons piece pieces ih =>
    rcases bind_eq_error_iff.mp herror with hwrite | ⟨_, u, hwrite, hrest⟩
    · obtain ⟨hbuf, hunwritten⟩ := write_chunk_error hwrite
      have htmp : ∀ seq content, f (tmp_name seq) content = 0 := fun seq content =>
        le_antisymm ((hcounts _ _).trans_eq (chunk_entries_tmp_name c seq content)) (zero_le)
      exact ⟨by rw [hbuf], [], piece, pieces, rfl, by simpa using hunwritten.total_le f htmp⟩
    · obtain ⟨hbuf, hfirst⟩ := write_chunk_ok_entries hround hcounts hwrite
      obtain ⟨hmemory, done, failed, rest, rfl, hdisk⟩ := ih hrest
      refine ⟨by rw [hmemory, hbuf], piece :: done, failed, rest, rfl, hdisk.trans ?_⟩
      rw [List.flatten_cons, ← Multiset.coe_add, add_comm (piece : Multiset LogEntry), add_assoc]
      gcongr

end Buffer

/-- The state in which the memory has been taken out. -/
def Storage.drained (s : Storage) : Storage := { s with buf := { s.buf with memory := [] } }

namespace Buffer

variable {c : Ciborium}

theorem flush_memory_to_disk_of_empty {s : Storage} (hempty : s.buf.memory = []) :
    flush_memory_to_disk c s = .ok () s := by
  unfold flush_memory_to_disk
  rw [bind_of_ok (get_run s)]
  simp [hempty]

/-- A flush drains the memory and writes what was in it piece by piece. -/
theorem flush_memory_to_disk_of_nonempty {s : Storage} (hmemory : s.buf.memory ≠ []) :
    flush_memory_to_disk c s =
      write_chunks c (chunks s.buf.cfg.disk_chunk_max_entries s.buf.memory) s.drained := by
  unfold flush_memory_to_disk
  rw [bind_of_ok (get_run s)]
  simp only [List.isEmpty_iff, hmemory, if_false]
  rfl

theorem push_of_full {s : Storage} {entry : LogEntry}
    (hfull : s.buf.cfg.memory_max_entries ≤ s.buf.memory.length) :
    push c entry s = (flush_memory_to_disk c >>= fun _ =>
      update fun self => { self with memory := self.memory ++ [entry] }) s := by
  unfold push
  rw [bind_of_ok (get_run s)]
  simp only [hfull, if_true]

theorem push_of_room {s : Storage} (entry : LogEntry)
    (hroom : s.buf.memory.length < s.buf.cfg.memory_max_entries) :
    push c entry s =
      .ok () { s with buf := { s.buf with memory := s.buf.memory ++ [entry] } } := by
  unfold push
  rw [bind_of_ok (get_run s)]
  simp only [not_le.mpr hroom, if_false]
  rfl

/-- Chunk writes leave the memory alone. -/
theorem write_chunks_buf (c : Ciborium) (pieces : List (List LogEntry)) :
    Respects (fun s t : Storage => t.buf.memory = s.buf.memory ∧ t.buf.cfg = s.buf.cfg)
      (write_chunks c pieces) := by
  have hpiece : ∀ piece, Respects (fun s t : Storage =>
      t.buf.memory = s.buf.memory ∧ t.buf.cfg = s.buf.cfg) (write_chunk c piece) := by
    intro piece s
    cases hwrite : write_chunk c piece s with
    | ok _ t =>
      obtain ⟨hbuf, -⟩ := write_chunk_ok hwrite
      simp [hbuf]
    | error e t =>
      obtain ⟨hbuf, -⟩ := write_chunk_error hwrite
      simp [hbuf]
  induction pieces with
  | nil => exact fun s => ⟨rfl, rfl⟩
  | cons piece pieces ih =>
    apply Respects.seq (hpiece piece) (fun _ => ih) (fun _ _ h => h)
    intro s t u hfirst hrest
    exact ⟨hrest.1.trans hfirst.1, hrest.2.trans hfirst.2⟩

/-- However a flush ends, the memory is empty afterwards. -/
theorem flush_memory_to_disk_buf (c : Ciborium) (s : Storage) :
    (finalState (flush_memory_to_disk c s)).buf.memory = [] ∧
      (finalState (flush_memory_to_disk c s)).buf.cfg = s.buf.cfg := by
  by_cases hmemory : s.buf.memory = []
  · rw [flush_memory_to_disk_of_empty hmemory]
    exact ⟨hmemory, rfl⟩
  · rw [flush_memory_to_disk_of_nonempty hmemory]
    exact write_chunks_buf c _ s.drained

/-- However a push ends, the memory holds the latest entries in the order they came. -/
theorem push_buf (c : Ciborium) (entry : LogEntry) (s : Storage) :
    (finalState (push c entry s)).buf.memory <:+ s.buf.memory ++ [entry] ∧
      (finalState (push c entry s)).buf.cfg = s.buf.cfg := by
  by_cases hfull : s.buf.cfg.memory_max_entries ≤ s.buf.memory.length
  · obtain ⟨hmemory, hcfg⟩ := flush_memory_to_disk_buf c s
    rw [push_of_full hfull, bind_run]
    cases hflush : flush_memory_to_disk c s with
    | ok _ t =>
      rw [hflush, finalState_ok] at hmemory hcfg
      refine ⟨?_, hcfg⟩
      simp [update, hmemory]
    | error e t =>
      rw [hflush, finalState_error] at hmemory hcfg
      refine ⟨?_, hcfg⟩
      simp [hmemory]
  · rw [push_of_room _ (not_le.mp hfull)]
    exact ⟨List.suffix_refl _, rfl⟩

variable (hround : c.RoundTrips) {f : FileName → Bytes → Multiset LogEntry}
  (hcounts : Counts c f)

include hround hcounts

/-- A flush that fails has put on disk at most the pieces before the one it failed at. -/
theorem flush_memory_to_disk_error {s t : Storage} {e : Error}
    (herror : flush_memory_to_disk c s = .error e t) :
    t.buf.memory = [] ∧ ∃ done piece rest,
      chunks s.buf.cfg.disk_chunk_max_entries s.buf.memory = done ++ piece :: rest ∧
        t.fs.files.total f ≤ ↑done.flatten + s.fs.files.total f := by
  by_cases hmemory : s.buf.memory = []
  · rw [flush_memory_to_disk_of_empty hmemory] at herror
    cases herror
  · rw [flush_memory_to_disk_of_nonempty hmemory] at herror
    exact write_chunks_error_entries hround hcounts herror

/-- What a failed flush loses: the piece it failed at and all that come after. -/
theorem flush_memory_to_disk_lost {s t : Storage} {e : Error}
    (herror : flush_memory_to_disk c s = .error e t) :
    ∃ lost, lost ≠ [] ∧ lost <:+ s.buf.memory ∧ holdings f t + ↑lost ≤ holdings f s := by
  obtain ⟨hmemory, done, piece, rest, hsplit, hdisk⟩ := flush_memory_to_disk_error hround hcounts herror
  have hflatten : done.flatten ++ (piece :: rest).flatten = s.buf.memory := by
    rw [← List.flatten_append, ← hsplit, flatten_chunks s.buf.cfg.chunk_pos]
  have hpiece : piece ≠ [] :=
    ne_nil_of_mem_chunks s.buf.cfg.chunk_pos (hsplit ▸ List.mem_append_right _ List.mem_cons_self)
  refine ⟨(piece :: rest).flatten, by simp [hpiece], ⟨_, hflatten⟩, ?_⟩
  simp only [holdings, hmemory, ← hflatten, ← Multiset.coe_add, Multiset.coe_nil, zero_add]
  rw [add_right_comm]
  gcongr

/-- However a flush ends, it makes no entry out of nothing. -/
theorem flush_memory_to_disk_holdings_le (s : Storage) :
    holdings f (finalState (flush_memory_to_disk c s)) ≤ holdings f s := by
  cases hrun : flush_memory_to_disk c s with
  | ok _ t =>
    by_cases hmemory : s.buf.memory = []
    · rw [flush_memory_to_disk_of_empty hmemory] at hrun
      cases hrun
      exact le_rfl
    · rw [flush_memory_to_disk_of_nonempty hmemory] at hrun
      obtain ⟨hbuf, hdisk⟩ := write_chunks_ok_entries hround hcounts hrun
      rw [flatten_chunks s.buf.cfg.chunk_pos] at hdisk
      simpa [holdings, hbuf, Storage.drained] using hdisk
  | error e t =>
    obtain ⟨lost, -, -, hle⟩ := flush_memory_to_disk_lost hround hcounts hrun
    exact le_self_add.trans hle

/-- However a push ends, it adds its entry at most. -/
theorem push_holdings_le (entry : LogEntry) (s : Storage) :
    holdings f (finalState (push c entry s)) ≤ holdings f s + {entry} := by
  have hflush := flush_memory_to_disk_holdings_le hround hcounts s
  by_cases hfull : s.buf.cfg.memory_max_entries ≤ s.buf.memory.length
  · rw [push_of_full hfull, bind_run]
    cases hrun : flush_memory_to_disk c s with
    | ok _ t =>
      rw [hrun] at hflush
      simp only [finalState_ok, update, modify_run, holdings] at hflush ⊢
      rw [← Multiset.coe_add, Multiset.coe_singleton, add_right_comm]
      gcongr
    | error e t =>
      rw [hrun] at hflush
      exact hflush.trans le_self_add
  · rw [push_of_room _ (not_le.mp hfull)]
    simp only [finalState_ok, holdings]
    rw [← Multiset.coe_add, Multiset.coe_singleton, add_right_comm]

end Buffer

end spotflowd.buffer
