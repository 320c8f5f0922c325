import Spotflowd.Buffer.Ascending

open effect fs
open spotflowd.log_entry

namespace spotflowd.buffer

/-- The chunk files in the order in which they are dropped. -/
def spool (d : Dir) : List (FileName × Bytes) :=
  ((chunk_names d).insertionSort (· ≤ ·)).map fun name => (name, (d.lookup name).getD [])

/-- There is one ascending arrangement of some names. -/
theorem insertionSort_eq {names sorted : List FileName} (hperm : sorted.Perm names)
    (hsorted : sorted.Pairwise (· ≤ ·)) : names.insertionSort (· ≤ ·) = sorted := by
  apply ((List.perm_insertionSort _ names).trans hperm.symm).eq_of_pairwise _
    (List.pairwise_insertionSort _ names) hsorted
  intro a b _ _ hab hba
  exact le_antisymm hab hba

theorem mem_chunk_names {d : Dir} {name : FileName} :
    name ∈ chunk_names d ↔ name ∈ d ∧ is_chunk_file name = true :=
  List.mem_filter

theorem nodup_chunk_names (d : Dir) : (chunk_names d).Nodup :=
  List.Nodup.filter _ d.nodupKeys

theorem mem_spool {d : Dir} {name : FileName} {content : Bytes} :
    (name, content) ∈ spool d ↔ is_chunk_file name = true ∧ d.lookup name = some content := by
  unfold spool
  rw [List.mem_map]
  constructor
  · rintro ⟨name', hmem, heq⟩
    cases heq
    obtain ⟨hin, hchunk⟩ := mem_chunk_names.mp ((List.mem_insertionSort _).mp hmem)
    obtain ⟨content, hlookup⟩ := Option.isSome_iff_exists.mp (AList.lookup_isSome.mpr hin)
    exact ⟨hchunk, by rw [hlookup, Option.getD_some]⟩
  · rintro ⟨hchunk, hlookup⟩
    refine ⟨name, (List.mem_insertionSort _).mpr (mem_chunk_names.mpr ⟨?_, hchunk⟩), ?_⟩
    · exact AList.lookup_isSome.mp (by rw [hlookup]; rfl)
    · rw [hlookup, Option.getD_some]

theorem map_fst_spool (d : Dir) :
    (spool d).map Prod.fst = (chunk_names d).insertionSort (· ≤ ·) := by
  rw [spool, List.map_map]
  exact List.map_id _

theorem oldest_chunk_eq (d : Dir) : oldest_chunk d = (spool d).head?.map Prod.fst := by
  rw [← List.head?_map, map_fst_spool]
  rfl

/-- The same chunks with the same contents are the same spool. -/
theorem spool_congr {d d' : Dir} (hnames : chunk_names d' = chunk_names d)
    (hcontents : ∀ name ∈ chunk_names d, d'.lookup name = d.lookup name) : spool d' = spool d := by
  rw [spool, spool, hnames]
  apply List.map_congr_left
  intro name hname
  rw [hcontents name ((List.mem_insertionSort _).mp hname)]

/-- Dropping the oldest chunk leaves the others. -/
theorem spool_erase {d : Dir} {name : FileName} {content : Bytes} {files : List (FileName × Bytes)}
    (hspool : spool d = (name, content) :: files) : spool (d.erase name) = files := by
  have hsorted := List.pairwise_insertionSort (· ≤ ·) (chunk_names d)
  have hperm := List.perm_insertionSort (· ≤ ·) (chunk_names d)
  rw [← map_fst_spool, hspool, List.map_cons] at hsorted hperm
  have hnames : chunk_names (d.erase name) = (chunk_names d).erase name := by
    rw [chunk_names, chunk_names, AList.keys_erase, List.erase_filter]
  have hrest : (chunk_names (d.erase name)).insertionSort (· ≤ ·) = files.map Prod.fst := by
    apply insertionSort_eq _ (List.pairwise_cons.mp hsorted).2
    rw [hnames]
    have herase := hperm.erase name
    rwa [List.erase_cons_head] at herase
  have hnodup := hperm.nodup_iff.mpr (nodup_chunk_names d)
  rw [spool, hrest, List.map_map]
  refine (List.map_congr_left ?_).trans (List.map_id files)
  rintro ⟨other, bytes⟩ hmem
  have hne : other ≠ name := by
    rintro rfl
    exact (List.nodup_cons.mp hnodup).1 (List.mem_map.mpr ⟨(other, bytes), hmem, rfl⟩)
  have hlookup := (mem_spool.mp (hspool ▸ List.mem_cons_of_mem _ hmem)).2
  simp [AList.lookup_erase_ne hne, hlookup]

theorem ne_of_mem_chunk_names {d : Dir} {name p : FileName} (hother : is_chunk_file name = false)
    (hp : p ∈ chunk_names d) : p ≠ name := by
  rintro rfl
  rw [(mem_chunk_names.mp hp).2] at hother
  cases hother

/-- A file that is not a chunk does not show. -/
theorem spool_erase_other {d : Dir} {name : FileName} (hother : is_chunk_file name = false) :
    spool (d.erase name) = spool d := by
  apply spool_congr
  · rw [chunk_names, chunk_names, AList.keys_erase, ← List.erase_filter]
    exact List.erase_of_not_mem fun hmem => ne_of_mem_chunk_names (d := d) hother hmem rfl
  · intro p hp
    rw [AList.lookup_erase_ne (ne_of_mem_chunk_names hother hp)]

theorem spool_insert_other {d : Dir} {name : FileName} (hother : is_chunk_file name = false)
    (content : Bytes) : spool (d.insert name content) = spool d := by
  apply spool_congr
  · rw [chunk_names, chunk_names, AList.keys_insert, List.filter_cons_of_neg (by simp [hother]),
      ← List.erase_filter]
    exact List.erase_of_not_mem fun hmem => ne_of_mem_chunk_names (d := d) hother hmem rfl
  · intro p hp
    rw [AList.lookup_insert_ne (ne_of_mem_chunk_names hother hp)]

/-- A chunk with a name above all others goes to the end. -/
theorem spool_insert_newest {d : Dir} {name : FileName} (hchunk : is_chunk_file name = true)
    (hgreatest : ∀ p ∈ chunk_names d, p < name) (content : Bytes) :
    spool (d.insert name content) = spool d ++ [(name, content)] := by
  have hfresh : name ∉ chunk_names d := fun hmem => lt_irrefl _ (hgreatest name hmem)
  have hnames : chunk_names (d.insert name content) = name :: chunk_names d := by
    rw [chunk_names, AList.keys_insert, List.filter_cons_of_pos hchunk, ← List.erase_filter]
    exact congrArg _ (List.erase_of_not_mem hfresh)
  have hsorted : (name :: chunk_names d).insertionSort (· ≤ ·) =
      (chunk_names d).insertionSort (· ≤ ·) ++ [name] := by
    apply insertionSort_eq
    · exact (List.perm_append_singleton name _).trans ((List.perm_insertionSort _ _).cons name)
    · rw [List.pairwise_append]
      refine ⟨List.pairwise_insertionSort _ _, List.pairwise_singleton _ _, ?_⟩
      intro p hp q hq
      rw [List.mem_singleton.mp hq]
      exact (hgreatest p ((List.mem_insertionSort _).mp hp)).le
  rw [spool, hnames, hsorted, List.map_append, List.map_singleton, AList.lookup_insert,
    Option.getD_some, spool]
  congr 1
  apply List.map_congr_left
  intro p hp
  have hne : p ≠ name := by
    rintro rfl
    exact hfresh ((List.mem_insertionSort _).mp hp)
  rw [AList.lookup_insert_ne hne]

def total_bytes (files : List (FileName × Bytes)) : Nat :=
  (files.map fun file => file.2.length).sum

theorem total_bytes_cons (file : FileName × Bytes) (files : List (FileName × Bytes)) :
    total_bytes (file :: files) = file.2.length + total_bytes files := by
  rw [total_bytes, List.map_cons, List.sum_cons, total_bytes]

/-- The chunk files and the other files add up. -/
theorem spool_bytes_eq (d : Dir) : spool_bytes d = other_bytes d + total_bytes (spool d) := by
  induction hspool : spool d generalizing d with
  | nil =>
    rw [spool_bytes_eq_other_bytes, total_bytes]
    · rfl
    · exact fun p hp => oldest_chunk_eq_none (by rw [oldest_chunk_eq, hspool]; rfl) hp
  | cons file files ih =>
    obtain ⟨name, content⟩ := file
    obtain ⟨hchunk, hlookup⟩ := mem_spool.mp (hspool ▸ List.mem_cons_self)
    have hall := Dir.total_erase (fun _ content => List.length content) hlookup
    have hrest := ih (d.erase name) (spool_erase hspool)
    rw [other_bytes_erase d hchunk] at hrest
    unfold spool_bytes at hrest ⊢
    rw [total_bytes_cons]
    dsimp only
    omega

/-- What is left of the chunk files, oldest first, once the oldest have been dropped until all files
are within the limit; `others` is the size of the other files. -/
def kept (limit others : Nat) : List (FileName × Bytes) → List (FileName × Bytes)
  | [] => []
  | file :: files =>
    if limit < others + total_bytes (file :: files) then kept limit others files else file :: files

theorem kept_suffix (limit others : Nat) (files : List (FileName × Bytes)) :
    kept limit others files <:+ files := by
  induction files with
  | nil => exact List.suffix_rfl
  | cons file files ih =>
    unfold kept
    split
    · exact ih.trans (List.suffix_cons _ _)
    · exact List.suffix_rfl

theorem total_bytes_suffix {files files' : List (FileName × Bytes)} (hsuffix : files <:+ files') :
    total_bytes files ≤ total_bytes files' := by
  obtain ⟨older, rfl⟩ := hsuffix
  rw [total_bytes, total_bytes, List.map_append, List.sum_append]
  exact Nat.le_add_left _ _

theorem kept_fits (limit others : Nat) (files : List (FileName × Bytes)) :
    kept limit others files = [] ∨ others + total_bytes (kept limit others files) ≤ limit := by
  induction files with
  | nil => exact Or.inl rfl
  | cons file files ih =>
    unfold kept
    split
    · exact ih
    · next hfits => exact Or.inr (not_lt.mp hfits)

/-- No more of the newest files are within the limit than those that are left. -/
theorem suffix_kept {limit others : Nat} {files newest : List (FileName × Bytes)}
    (hsuffix : newest <:+ files) (hfits : others + total_bytes newest ≤ limit) :
    newest <:+ kept limit others files := by
  induction files with
  | nil =>
    rw [List.suffix_nil.mp hsuffix]
    exact List.nil_suffix
  | cons file files ih =>
    unfold kept
    split
    · next hover =>
      obtain rfl | hrest := List.suffix_cons_iff.mp hsuffix
      · omega
      · exact ih hrest
    · exact hsuffix

section Quiet

variable {s : Fs} (hquiet : s.verdicts = [])

include hquiet

/-- A round of the loop, in terms of the chunk files. -/
theorem limit_round_spool (max_bytes : Nat) :
    (∃ file files, spool s.files = file :: files ∧ max_bytes < spool_bytes s.files ∧
      limit_round max_bytes s = .ok (!files.isEmpty) (dropped s file.1) ∧
      spool (dropped s file.1).files = files) ∨
    ((spool s.files = [] ∨ spool_bytes s.files ≤ max_bytes) ∧
      limit_round max_bytes s = .ok false s) := by
  have hround := limit_round_quiet hquiet max_bytes
  split at hround
  · next hover =>
    rw [oldest_chunk_eq] at hround
    cases hspool : spool s.files with
    | nil =>
      rw [hspool] at hround
      exact Or.inr ⟨Or.inl rfl, hround⟩
    | cons file files =>
      obtain ⟨name, content⟩ := file
      have hrest := spool_erase hspool
      rw [hspool] at hround
      refine Or.inl ⟨(name, content), files, rfl, hover, ?_, hrest⟩
      rw [hround]
      simp only [List.head?_cons, Option.map_some]
      rw [oldest_chunk_eq, hrest]
      cases files <;> rfl
  · next hunder => exact Or.inr ⟨Or.inr (not_lt.mp hunder), hround⟩

end Quiet

/-- Undisturbed, the loop drops the oldest chunks as far as needed, and nothing else; what it drops
goes from the front of the chunk files to those removed. -/
theorem enforce_limit_spool (max_bytes : Nat) {s t : Fs} (hquiet : s.verdicts = [])
    (hlimit : enforce_limit max_bytes s = .ok () t) :
    spool t.files = kept max_bytes (other_bytes s.files) (spool s.files) ∧
      t.removed ++ spool t.files = s.removed ++ spool s.files := by
  induction hspool : spool s.files generalizing s with
  | nil =>
    obtain ⟨file, files, hcons, -⟩ | ⟨-, hround⟩ := limit_round_spool hquiet max_bytes
    · rw [hspool] at hcons
      cases hcons
    · rw [enforce_limit_eq, bind_of_ok hround] at hlimit
      cases hlimit
      exact ⟨hspool, by rw [hspool]⟩
  | cons file files ih =>
    have hsize := spool_bytes_eq s.files
    rw [hspool] at hsize
    obtain ⟨file', files', hcons, hover, hround, hrest⟩ | ⟨hunder, hround⟩ :=
      limit_round_spool hquiet max_bytes
    · rw [hspool] at hcons
      cases hcons
      rw [kept, if_pos (by omega)]
      rw [enforce_limit_eq, bind_of_ok hround] at hlimit
      obtain ⟨hchunk, hlookup⟩ := mem_spool.mp (hspool ▸ List.mem_cons_self)
      have hothers : other_bytes (dropped s file.1).files = other_bytes s.files :=
        other_bytes_erase s.files hchunk
      have hremoved : (dropped s file.1).removed = s.removed ++ [file] := by
        rw [dropped, hlookup, Option.getD_some]
      rw [← hothers]
      cases hfiles : files with
      | nil =>
        rw [hfiles] at hlimit
        cases hlimit
        rw [hrest, hfiles, hremoved]
        exact ⟨rfl, List.append_nil _⟩
      | cons next more =>
        rw [hfiles] at hlimit
        rw [← hfiles]
        obtain ⟨hkept, hall⟩ := @ih (dropped s file.1) hquiet hlimit hrest
        refine ⟨hkept, ?_⟩
        rw [hall, hremoved, List.append_assoc, List.singleton_append]
    · rw [enforce_limit_eq, bind_of_ok hround] at hlimit
      cases hlimit
      refine ⟨?_, by rw [hspool]⟩
      obtain hnil | hfits := hunder
      · rw [hspool] at hnil
        cases hnil
      · rw [kept, if_neg (by omega)]
        exact hspool

theorem enforce_limit_kept (max_bytes : Nat) {s t : Fs} (hquiet : s.verdicts = [])
    (hlimit : enforce_limit max_bytes s = .ok () t) :
    spool t.files = kept max_bytes (other_bytes s.files) (spool s.files) :=
  (enforce_limit_spool max_bytes hquiet hlimit).1

end spotflowd.buffer
