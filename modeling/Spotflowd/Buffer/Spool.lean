import Spotflowd.Lib.Fs
import Spotflowd.Lib.Path
import Mathlib.Data.List.Sort

open effect fs path

namespace spotflowd.buffer

/-- A `.cbor` extension and a purely numeric stem. -/
def is_chunk_file (p : FileName) : Bool :=
  extension p == some "cbor" &&
    match file_stem p with
    | some stem => stem.toList.all Char.isDigit
    | none => false

def chunk_files (entries : List DirEntry) : List FileName :=
  (entries.map DirEntry.name).filter is_chunk_file

/-- Chunk names sorted newest-first, by descending file name. -/
def spool_files_newest_first : FsM (List FileName) := do
  if ← path_exists then
    let entries ← read_dir
    return (chunk_files entries).insertionSort (· ≥ ·)
  else
    return []

/-- Bytes of every file of the spool directory; zero when it cannot be listed. -/
def total_spool_bytes : FsM Nat := do
  if ← path_exists then
    match ← attempt read_dir with
    | .ok entries => return (entries.map DirEntry.len).sum
    | .error _ => return 0
  else
    return 0

/-- The number in the name of a `.cbor` file, if there is one. -/
def sequence_number (p : FileName) : Option Nat :=
  if extension p = some "cbor" then (file_stem p).bind parse_u64 else none

/-- `format!("{:010}.cbor")`. -/
def chunk_name (seq : Nat) : FileName :=
  String.ofList (padded 10 seq ++ '.' :: "cbor".toList)

/-- The highest number in a list of file names, zero when there is none. -/
def max_seq (names : List FileName) : Nat :=
  (names.filterMap sequence_number).max?.getD 0

/-- One more than the highest number, as a `u64`. -/
def next_chunk_path : FsM FileName := do
  if ← path_exists then
    let entries ← read_dir
    return chunk_name ((max_seq (entries.map DirEntry.name) + 1) % 2 ^ 64)
  else
    return chunk_name 1

def drop_oldest_chunk : FsM Unit := do
  if ← path_exists then
    let entries ← read_dir
    match (chunk_files entries).insertionSort (· ≤ ·) with
    | oldest :: _ => remove_file oldest
    | [] => return ()

/-- One round of the loop in `write_chunk` that drops oldest chunks until the spool
is under its limit or holds no chunk. Answers whether the loop goes on. -/
def limit_round (max_bytes : Nat) : FsM Bool := do
  if max_bytes < (← total_spool_bytes) then
    drop_oldest_chunk
    return !(← spool_files_newest_first).isEmpty
  else
    return false

/-- A bound on the rounds: each one uses up a verdict or a file. -/
def rounds_left (s : Fs) : Nat := s.verdicts.length + s.files.keys.length

def enforce_limit (max_bytes : Nat) : FsM Unit := fun s =>
  loop (limit_round max_bytes) (rounds_left s + 1) s

theorem chunk_name_extension (seq : Nat) : extension (chunk_name seq) = some "cbor" :=
  extension_dotted (padded_ne_nil 10 seq) (by decide) (by decide)

theorem chunk_name_file_stem (seq : Nat) :
    file_stem (chunk_name seq) = some (String.ofList (padded 10 seq)) :=
  file_stem_dotted (padded_ne_nil 10 seq) (by decide) (by decide)

@[simp] theorem is_chunk_file_chunk_name (seq : Nat) : is_chunk_file (chunk_name seq) = true := by
  simp only [is_chunk_file, chunk_name_extension, chunk_name_file_stem, String.toList_ofList,
    BEq.rfl, Bool.true_and, List.all_eq_true]
  exact fun c hmem => isDigit_of_mem_padded hmem

theorem sequence_number_chunk_name {seq : Nat} (hbound : seq < 2 ^ 64) :
    sequence_number (chunk_name seq) = some seq := by
  simp [sequence_number, chunk_name_extension, chunk_name_file_stem, parse_u64_padded hbound]

theorem chunk_name_injective {m n : Nat} (hm : m < 2 ^ 64) (hn : n < 2 ^ 64)
    (heq : chunk_name m = chunk_name n) : m = n := by
  have h := sequence_number_chunk_name hm
  rw [heq, sequence_number_chunk_name hn] at h
  exact (Option.some.inj h).symm

/-- Below 10^10 the names are as wide as the format, and come in the order of the numbers. -/
theorem chunk_name_lt {m n : Nat} (hlt : m < n) (hbound : n < 10 ^ 10) : chunk_name m < chunk_name n := by
  have hlength : (padded 10 m).length = (padded 10 n).length := by
    rw [length_padded (by omega) (hlt.trans hbound), length_padded (by omega) hbound]
  rw [String.lt_iff_toList_lt]
  simp only [chunk_name, String.toList_ofList]
  exact append_lt_append hlength (padded_lt (by omega) hlt hbound) _ _

/-- The name a chunk is written under before it is renamed. -/
def tmp_name (seq : Nat) : FileName := with_extension (chunk_name seq) "cbor.tmp"

theorem tmp_name_extension (seq : Nat) : extension (tmp_name seq) = some "tmp" := by
  have hname : tmp_name seq =
      String.ofList ((padded 10 seq ++ ".cbor".toList) ++ '.' :: "tmp".toList) := by
    apply String.toList_injective
    simp only [tmp_name, with_extension, chunk_name_file_stem, String.toList_append,
      String.toList_ofList, List.append_assoc]
    rfl
  rw [hname]
  exact extension_dotted (by simp [padded_ne_nil]) (by decide) (by decide)

@[simp] theorem is_chunk_file_tmp_name (seq : Nat) : is_chunk_file (tmp_name seq) = false := by
  simp [is_chunk_file, tmp_name_extension]

@[simp] theorem sequence_number_tmp_name (seq : Nat) : sequence_number (tmp_name seq) = none := by
  simp [sequence_number, tmp_name_extension]

theorem le_max_seq {names : List FileName} {name : FileName} {seq : Nat} (hmem : name ∈ names)
    (hseq : sequence_number name = some seq) : seq ≤ max_seq names :=
  List.le_max?_getD_of_mem (List.mem_filterMap.mpr ⟨name, hmem, hseq⟩)

theorem max_seq_le_iff {names : List FileName} {n : Nat} :
    max_seq names ≤ n ↔ ∀ name ∈ names, ∀ seq, sequence_number name = some seq → seq ≤ n := by
  constructor
  · exact fun hle name hmem seq hseq => (le_max_seq hmem hseq).trans hle
  · intro hbound
    unfold max_seq
    cases hmax : (names.filterMap sequence_number).max? with
    | none => simp
    | some m =>
      obtain ⟨name, hmem, hseq⟩ := List.mem_filterMap.mp (List.max?_mem hmax)
      exact hbound name hmem m hseq

/-- The next number is not the number of any file that is there. -/
theorem chunk_name_fresh {names : List FileName} (hbound : max_seq names + 1 < 2 ^ 64) :
    chunk_name (max_seq names + 1) ∉ names := by
  intro hmem
  have := le_max_seq hmem (sequence_number_chunk_name hbound)
  omega

end spotflowd.buffer
