import Spotflowd.Buffer.Listing

open effect fs path
open spotflowd.log_entry

namespace spotflowd.buffer

/-- The number of digits in a chunk's name, at least ten. -/
def width (n : Nat) : Nat := (padded 10 n).length

/-- Which of two numbered names comes first. -/
theorem chunk_name_lt_iff {m n : Nat} (hlt : m < n) :
    chunk_name m < chunk_name n ↔ m ≤ n / 10 ^ (width n - width m) := by
  rw [String.lt_iff_toList_lt]
  simp only [chunk_name, String.toList_ofList]
  exact padded_dotted_lt_iff hlt _

/-- Every chunk file has a name that `next_chunk_path` can return. -/
def WriteNamed (d : Dir) : Prop := ∀ p ∈ d, is_chunk_file p = true → ∃ n < 2 ^ 64, p = chunk_name n

/-- The number in the name that `next_chunk_path` returns. -/
def next_number (d : Dir) : Nat := next_seq d % 2 ^ 64

/-- The numbers of the chunk files and the next one. -/
def InUse (d : Dir) (n : Nat) : Prop := n = next_number d ∨ n < 2 ^ 64 ∧ chunk_name n ∈ d

/-- The next number has not overflowed, unless there is no chunk, and of two numbers in use the
smaller is at most what as many leading digits of the greater make. -/
structure InOrder (d : Dir) : Prop where
  no_overflow : next_seq d < 2 ^ 64 ∨ ∀ p ∈ d, is_chunk_file p = false
  leading : ∀ m n, InUse d m → InUse d n → m < n → m ≤ n / 10 ^ (width n - width m)

/-- The directory once the next chunk has been written. -/
def after_write (s : Fs) (bytes : Bytes) : Fs :=
  { s with dir := some (stored s.files (next_number s.files) bytes) }

theorem after_write_files (s : Fs) (bytes : Bytes) :
    (after_write s bytes).files = stored s.files (next_number s.files) bytes := rfl

/-- Names are given out in the order of the writes: the next one is free and above all others, names
come in the order of their numbers, and after the write the chunks are listed from the highest
number to the lowest and the lowest is dropped. -/
structure NamedInOrder (s : Fs) (bytes : Bytes) : Prop where
  next : next_chunk_path s = .ok (chunk_name (next_number s.files)) s
  free : chunk_name (next_number s.files) ∉ s.files
  greatest : ∀ n < 2 ^ 64, chunk_name n ∈ s.files → n < next_number s.files
  order : ∀ m n, InUse s.files m → InUse s.files n → (chunk_name m < chunk_name n ↔ m < n)
  listing : ∃ numbers : List Nat,
    spool_files_newest_first (after_write s bytes) =
      .ok (numbers.map chunk_name) (after_write s bytes) ∧
    numbers.Pairwise (· > ·) ∧ ∀ n, n ∈ numbers ↔ InUse s.files n
  dropping : ∃ n, InUse s.files n ∧ (∀ m, InUse s.files m → n ≤ m) ∧
    drop_oldest_chunk (after_write s bytes) = .ok () (dropped (after_write s bytes) (chunk_name n))

theorem sequence_number_lt {p : FileName} {n : Nat} (hnumber : sequence_number p = some n) :
    n < 2 ^ 64 := by
  unfold sequence_number at hnumber
  split at hnumber
  · obtain ⟨stem, -, hparse⟩ := Option.bind_eq_some_iff.mp hnumber
    exact parse_u64_lt hparse
  · cases hnumber

theorem next_seq_le_two_pow (d : Dir) : next_seq d ≤ 2 ^ 64 := by
  refine Nat.succ_le_of_lt (Nat.lt_of_le_of_lt (max_seq_le_iff.mpr ?_) (Nat.pred_lt (by decide)))
  intro name _ n hnumber
  exact Nat.le_pred_of_lt (sequence_number_lt hnumber)

theorem inUse_lt {d : Dir} {n : Nat} (hn : InUse d n) : n < 2 ^ 64 := by
  obtain rfl | ⟨hn, -⟩ := hn
  · exact Nat.mod_lt _ (by decide)
  · exact hn

/-- What the chunk files are after the write. -/
theorem mem_stored_iff {d : Dir} {n : Nat} (hn : n < 2 ^ 64) (bytes : Bytes) :
    chunk_name n ∈ stored d (next_number d) bytes ↔ InUse d n := by
  have hne : chunk_name n ≠ tmp_name (next_number d) :=
    tmp_name_ne_chunk (is_chunk_file_chunk_name n)
  rw [stored, AList.mem_insert, AList.mem_erase, InUse]
  constructor
  · rintro (heq | ⟨-, hmem⟩)
    · exact Or.inl (chunk_name_injective hn (Nat.mod_lt _ (by decide)) heq)
    · exact Or.inr ⟨hn, hmem⟩
  · rintro (rfl | ⟨-, hmem⟩)
    · exact Or.inl rfl
    · exact Or.inr ⟨hne, hmem⟩

/-- Every chunk after the write is one of the numbers in use. -/
theorem WriteNamed.stored {d : Dir} (hnamed : WriteNamed d) (bytes : Bytes) {p : FileName}
    (hp : p ∈ stored d (next_number d) bytes) (hchunk : is_chunk_file p = true) :
    ∃ n, InUse d n ∧ p = chunk_name n := by
  obtain rfl | hold := (AList.mem_insert _).mp hp
  · exact ⟨_, Or.inl rfl, rfl⟩
  · obtain ⟨n, hn, rfl⟩ := hnamed p (AList.mem_erase.mp hold).2 hchunk
    exact ⟨n, Or.inr ⟨hn, (AList.mem_erase.mp hold).2⟩, rfl⟩

theorem next_chunk_path_number {s : Fs} (hquiet : s.verdicts = []) :
    next_chunk_path s = .ok (chunk_name (next_number s.files)) s := by
  cases hdir : s.dir with
  | none =>
    have hnumber : next_number s.files = 1 := by
      simp [Fs.files, hdir, next_number, next_seq, max_seq]
    unfold next_chunk_path
    rw [bind_of_ok (path_exists_quiet hquiet), hdir, hnumber]
    rfl
  | some d =>
    rw [next_chunk_path_quiet hquiet hdir, next_number, Fs.files, hdir]
    rfl

section InOrder

variable {d : Dir} (horder : InOrder d)

include horder

theorem InOrder.lt_iff {m n : Nat} (hm : InUse d m) (hn : InUse d n) :
    chunk_name m < chunk_name n ↔ m < n := by
  rcases Nat.lt_trichotomy m n with hlt | rfl | hgt
  · exact iff_of_true ((chunk_name_lt_iff hlt).mpr (horder.leading m n hm hn hlt)) hlt
  · exact iff_of_false (lt_irrefl _) (lt_irrefl _)
  · have hname := (chunk_name_lt_iff hgt).mpr (horder.leading n m hn hm hgt)
    exact iff_of_false (lt_asymm hname) (lt_asymm hgt)

theorem InOrder.free : chunk_name (next_number d) ∉ d := by
  intro hmem
  obtain hroom | hnone := horder.no_overflow
  · rw [next_number, Nat.mod_eq_of_lt hroom] at hmem
    exact chunk_name_next_seq_fresh hroom hmem
  · have hchunk := is_chunk_file_chunk_name (next_number d)
    rw [hnone _ hmem] at hchunk
    cases hchunk

theorem InOrder.greatest {n : Nat} (hn : n < 2 ^ 64) (hmem : chunk_name n ∈ d) : n < next_number d := by
  obtain hroom | hnone := horder.no_overflow
  · rw [next_number, Nat.mod_eq_of_lt hroom]
    exact Nat.lt_succ_of_le (le_max_seq (AList.mem_keys.mp hmem) (sequence_number_chunk_name hn))
  · have hchunk := is_chunk_file_chunk_name n
    rw [hnone _ hmem] at hchunk
    cases hchunk

end InOrder

section AfterWrite

variable {s : Fs} (hquiet : s.verdicts = []) (hnamed : WriteNamed s.files) (horder : InOrder s.files)
  (bytes : Bytes)

include hquiet hnamed horder

/-- The chunks are listed from the highest number to the lowest. -/
theorem InOrder.listing : ∃ numbers : List Nat,
    spool_files_newest_first (after_write s bytes) =
      .ok (numbers.map chunk_name) (after_write s bytes) ∧
    numbers.Pairwise (· > ·) ∧ ∀ n, n ∈ numbers ↔ InUse s.files n := by
  have hlisting := spool_files_newest_first_quiet (s := after_write s bytes) hquiet
  change spool_files_newest_first _ =
    .ok ((chunk_names (stored s.files (next_number s.files) bytes)).insertionSort (· ≥ ·)) _ at hlisting
  have hsorted := List.pairwise_insertionSort (· ≥ ·)
    (chunk_names (stored s.files (next_number s.files) bytes))
  have hperm := List.perm_insertionSort (· ≥ ·)
    (chunk_names (stored s.files (next_number s.files) bytes))
  have hnodup := hperm.nodup_iff.mpr (nodup_chunk_names _)
  revert hlisting hsorted hperm hnodup
  generalize (chunk_names (stored s.files (next_number s.files) bytes)).insertionSort (· ≥ ·) = names
  intro hlisting hsorted hperm hnodup
  have hname : ∀ name ∈ names, ∃ n, InUse s.files n ∧ name = chunk_name n ∧ number name = n := by
    intro name hmem
    obtain ⟨hin, hchunk⟩ := mem_chunk_names.mp (hperm.subset hmem)
    obtain ⟨n, hn, rfl⟩ := hnamed.stored bytes hin hchunk
    exact ⟨n, hn, rfl, number_chunk_name (inUse_lt hn)⟩
  refine ⟨names.map number, ?_, ?_, ?_⟩
  · rw [hlisting, List.map_map]
    congr 1
    refine (List.map_id names).symm.trans (List.map_congr_left ?_)
    intro name hmem
    obtain ⟨n, -, rfl, hnumber⟩ := hname name hmem
    rw [Function.comp_apply, hnumber]
    rfl
  · rw [List.pairwise_map]
    refine (hsorted.and hnodup).imp_of_mem ?_
    rintro p q hp hq ⟨hge, hne⟩
    obtain ⟨m, hm, rfl, hnumber⟩ := hname p hp
    obtain ⟨n, hn, rfl, hnumber'⟩ := hname q hq
    rw [hnumber, hnumber']
    exact (horder.lt_iff hn hm).mp (lt_of_le_of_ne hge (Ne.symm hne))
  · intro n
    rw [List.mem_map]
    constructor
    · rintro ⟨name, hmem, rfl⟩
      obtain ⟨m, hm, -, hnumber⟩ := hname name hmem
      rw [hnumber]
      exact hm
    · intro hn
      have hlt := inUse_lt hn
      refine ⟨chunk_name n, hperm.symm.subset (mem_chunk_names.mpr ⟨?_, is_chunk_file_chunk_name n⟩),
        number_chunk_name hlt⟩
      exact (mem_stored_iff hlt bytes).mpr hn

/-- The chunk with the lowest number is dropped. -/
theorem InOrder.dropping : ∃ n, InUse s.files n ∧ (∀ m, InUse s.files m → n ≤ m) ∧
    drop_oldest_chunk (after_write s bytes) =
      .ok () (dropped (after_write s bytes) (chunk_name n)) := by
  have hdrop := drop_oldest_chunk_quiet (s := after_write s bytes) hquiet
  rw [after_write_files] at hdrop
  cases holdest : oldest_chunk (stored s.files (next_number s.files) bytes) with
  | none =>
    have hmem := (mem_stored_iff (Nat.mod_lt _ (by decide)) bytes).mpr
      (Or.inl (Eq.refl (next_number s.files)))
    have hchunk := oldest_chunk_eq_none holdest hmem
    rw [is_chunk_file_chunk_name] at hchunk
    cases hchunk
  | some name =>
    obtain ⟨hmem, hchunk, hleast⟩ := oldest_chunk_spec holdest
    obtain ⟨n, hn, rfl⟩ := hnamed.stored bytes hmem hchunk
    rw [holdest] at hdrop
    refine ⟨n, hn, ?_, hdrop⟩
    intro m hm
    by_contra hless
    have hname := (horder.lt_iff hm hn).mpr (not_le.mp hless)
    have hin := (mem_stored_iff (inUse_lt hm) bytes).mpr hm
    exact absurd (hleast _ hin (is_chunk_file_chunk_name m)) (not_le.mpr hname)

end AfterWrite

/-- Chunk names follow the order of the writes, undisturbed and with names from `next_chunk_path`, if
and only if the next number has not overflowed, or there is no chunk, and no number in use is
above the leading digits of a greater one. -/
theorem names_follow_write_order_iff {s : Fs} (hquiet : s.verdicts = []) (hnamed : WriteNamed s.files)
    (bytes : Bytes) : NamedInOrder s bytes ↔ InOrder s.files := by
  constructor
  · intro hnames
    refine ⟨?_, ?_⟩
    · by_contra hover
      obtain ⟨hwrapped, hsome⟩ := not_or.mp hover
      obtain ⟨p, hchunk⟩ := not_forall.mp hsome
      obtain ⟨hp, hchunk⟩ := Classical.not_imp.mp hchunk
      obtain ⟨n, hn, rfl⟩ := hnamed p hp (Bool.not_eq_false _ ▸ hchunk)
      have hlt := hnames.greatest n hn hp
      have hzero : next_number s.files = 0 := by
        rw [next_number, le_antisymm (next_seq_le_two_pow _) (not_lt.mp hwrapped), Nat.mod_self]
      omega
    · intro m n hm hn hlt
      exact (chunk_name_lt_iff hlt).mp ((hnames.order m n hm hn).mpr hlt)
  · intro horder
    exact {
      next := next_chunk_path_number hquiet
      free := horder.free
      greatest := fun n hn hmem => horder.greatest hn hmem
      order := fun m n hm hn => horder.lt_iff hm hn
      listing := horder.listing hquiet hnamed bytes
      dropping := horder.dropping hquiet hnamed bytes }

theorem width_of_lt {n : Nat} (hn : n < 10 ^ 10) : width n = 10 := length_padded (by decide) hn

/-- As long as the numbers have at most ten digits, the names are in order. -/
theorem inOrder_of_lt {d : Dir} (hfew : next_seq d < 10 ^ 10) : InOrder d := by
  have hroom : next_seq d < 2 ^ 64 := hfew.trans (by decide)
  have hbound : ∀ n, InUse d n → n < 10 ^ 10 := by
    rintro n (rfl | ⟨hn, hmem⟩)
    · rwa [next_number, Nat.mod_eq_of_lt hroom]
    · have hle := le_max_seq (AList.mem_keys.mp hmem) (sequence_number_chunk_name hn)
      unfold next_seq at hfew
      omega
  refine ⟨Or.inl hroom, ?_⟩
  intro m n hm hn hlt
  rw [width_of_lt (hbound m hm), width_of_lt (hbound n hn), Nat.sub_self, Nat.pow_zero, Nat.div_one]
  exact hlt.le

/-- A directory with one chunk of the given number. -/
def chunk_at (n : Nat) : Fs := ⟨some (AList.singleton (chunk_name n) [0]), [], [], []⟩

theorem writeNamed_chunk_at {n : Nat} (hn : n < 2 ^ 64) : WriteNamed (chunk_at n).files := by
  intro p hp _
  have hmem : p ∈ (AList.singleton (chunk_name n) [0] : Dir) := hp
  rw [← AList.insert_empty, AList.mem_insert] at hmem
  exact ⟨n, hn, hmem.resolve_right (AList.notMem_empty p)⟩

theorem names_follow_write_order_first : NamedInOrder (chunk_at 7) [1] :=
  (names_follow_write_order_iff rfl (writeNamed_chunk_at (by decide)) [1]).mpr
    (inOrder_of_lt (by decide))

/-- The number after 9999999999 has one digit more, and its name comes before. The chunk that was
just written is listed last and dropped first. -/
theorem longer_name_comes_first :
    (chunk_at 9999999999).verdicts = [] ∧ WriteNamed (chunk_at 9999999999).files ∧
    next_chunk_path (chunk_at 9999999999) = .ok (chunk_name 10000000000) (chunk_at 9999999999) ∧
    chunk_name 10000000000 < chunk_name 9999999999 ∧
    spool_files_newest_first (after_write (chunk_at 9999999999) [1]) =
      .ok [chunk_name 9999999999, chunk_name 10000000000] (after_write (chunk_at 9999999999) [1]) ∧
    drop_oldest_chunk (after_write (chunk_at 9999999999) [1]) =
      .ok () (dropped (after_write (chunk_at 9999999999) [1]) (chunk_name 10000000000)) ∧
    ¬ NamedInOrder (chunk_at 9999999999) [1] := by
  have hnumber : next_number (chunk_at 9999999999).files = 10000000000 := by rfl
  have hnext := next_chunk_path_number (s := chunk_at 9999999999) rfl
  rw [hnumber] at hnext
  have hlisting := spool_files_newest_first_quiet (s := after_write (chunk_at 9999999999) [1]) rfl
  have hnames : (((after_write (chunk_at 9999999999) [1]).files.keys.filter is_chunk_file).insertionSort
      (· ≥ ·)) = [chunk_name 9999999999, chunk_name 10000000000] := by
    rfl
  have hdrop := drop_oldest_chunk_quiet (s := after_write (chunk_at 9999999999) [1]) rfl
  have holdest : oldest_chunk (after_write (chunk_at 9999999999) [1]).files =
      some (chunk_name 10000000000) := by
    rfl
  rw [hnames] at hlisting
  rw [holdest] at hdrop
  have hbefore : chunk_name 10000000000 < chunk_name 9999999999 := by decide
  refine ⟨rfl, writeNamed_chunk_at (by decide), hnext, hbefore, hlisting, hdrop, ?_⟩
  intro hnames
  have hold : InUse (chunk_at 9999999999).files 9999999999 := Or.inr ⟨by decide, by decide⟩
  exact lt_asymm hbefore ((hnames.order _ _ hold (Or.inl hnumber.symm)).mpr (by decide))

end spotflowd.buffer
