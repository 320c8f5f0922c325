import Spotflowd.Buffer.Spool

open effect fs path

namespace spotflowd.buffer

/-- Nothing has happened to the directory but the removal of chunk files. -/
structure Pruned (s t : Fs) : Prop where
  files : ∃ gone, s.files.Removes gone t.files ∧ t.removed = s.removed ++ gone ∧
    ∀ file ∈ gone, is_chunk_file file.1 = true
  renamed : t.renamed = s.renamed
  verdicts : t.verdicts <:+ s.verdicts

theorem Pruned.refl (s : Fs) : Pruned s s :=
  ⟨⟨[], .nil _, by simp, by simp⟩, rfl, List.suffix_refl _⟩

theorem Pruned.trans (s t u : Fs) (hfirst : Pruned s t) (hsecond : Pruned t u) : Pruned s u := by
  obtain ⟨gone, hremoves, hremoved, hchunks⟩ := hfirst.files
  obtain ⟨gone', hremoves', hremoved', hchunks'⟩ := hsecond.files
  refine ⟨⟨gone ++ gone', hremoves.trans hremoves', ?_, ?_⟩, ?_, ?_⟩
  · rw [hremoved', hremoved, List.append_assoc]
  · intro file hmem
    rcases List.mem_append.mp hmem with hmem | hmem
    · exact hchunks file hmem
    · exact hchunks' file hmem
  · rw [hsecond.renamed, hfirst.renamed]
  · exact hsecond.verdicts.trans hfirst.verdicts

theorem Pruned.next (s : Fs) : Pruned s s.next.2 :=
  ⟨⟨[], by rw [Fs.next_files]; exact .nil _, by simp, by simp⟩, by simp,
    by rw [Fs.next_verdicts]; exact List.tail_suffix _⟩

theorem pruned_path_exists : Respects Pruned path_exists :=
  fun s => Pruned.next s

theorem pruned_create_dir_all : Respects Pruned create_dir_all := by
  intro s
  unfold create_dir_all
  simp only
  split
  · exact Pruned.next s
  · exact Pruned.trans _ _ _ (Pruned.next s)
      ⟨⟨[], .nil _, by simp, by simp⟩, rfl, List.suffix_refl _⟩

theorem pruned_read_dir : Respects Pruned read_dir := by
  intro s
  unfold read_dir
  simp only
  split <;> exact Pruned.next s

theorem pruned_remove_file {name : FileName} (hchunk : is_chunk_file name = true) :
    Respects Pruned (remove_file name) := by
  intro s
  unfold remove_file
  simp only
  split
  · next content hlookup _ =>
    refine Pruned.trans _ _ _ (Pruned.next s) ⟨⟨[(name, content)], ?_, ?_, ?_⟩, rfl, ?_⟩
    · exact .single hlookup
    · simp
    · simpa using hchunk
    · exact List.suffix_refl _
  · exact Pruned.next s

theorem is_chunk_file_of_mem {entries : List DirEntry} {name : FileName}
    (hmem : name ∈ chunk_files entries) : is_chunk_file name = true :=
  (List.mem_filter.mp hmem).2

/-- A computation that only lists the directory, if there is one. -/
theorem pruned_listing {α : Type} (listed : List DirEntry → α) (missing : α) :
    Respects Pruned (do if ← path_exists then return listed (← read_dir) else return missing) := by
  apply Respects.bind Pruned.trans pruned_path_exists
  intro found
  split
  · exact Respects.bind Pruned.trans pruned_read_dir fun _ => Respects.pure Pruned.refl _
  · exact Respects.pure Pruned.refl _

theorem pruned_spool_files_newest_first : Respects Pruned spool_files_newest_first :=
  pruned_listing (fun entries => (chunk_files entries).insertionSort (· ≥ ·)) []

theorem pruned_next_chunk_path : Respects Pruned next_chunk_path :=
  pruned_listing (fun entries => chunk_name ((max_seq (entries.map DirEntry.name) + 1) % 2 ^ 64))
    (chunk_name 1)

/-- A computation that makes at least one call uses up a verdict if there is one. -/
def UsesVerdict (s t : Fs) : Prop := Pruned s t ∧ t.verdicts <:+ s.verdicts.tail

theorem UsesVerdict.trans (s t u : Fs) (hfirst : UsesVerdict s t) (hrest : Pruned t u) :
    UsesVerdict s u :=
  ⟨Pruned.trans _ _ _ hfirst.1 hrest, hrest.verdicts.trans hfirst.2⟩

theorem usesVerdict_path_exists : Respects UsesVerdict path_exists :=
  fun s => ⟨Pruned.next s, by simp [path_exists]⟩

theorem usesVerdict_total_spool_bytes : Respects UsesVerdict total_spool_bytes := by
  apply Respects.seq usesVerdict_path_exists _ (fun _ _ h => h) UsesVerdict.trans
  intro found
  split
  · apply Respects.bind Pruned.trans (Respects.attempt pruned_read_dir)
    intro listing
    cases listing <;> exact Respects.pure Pruned.refl _
  · exact Respects.pure Pruned.refl _

theorem pruned_drop_oldest_chunk : Respects Pruned drop_oldest_chunk := by
  apply Respects.bind Pruned.trans pruned_path_exists
  intro found
  split
  · apply Respects.bind Pruned.trans pruned_read_dir
    intro entries
    split
    · next oldest _ hsorted =>
      apply pruned_remove_file
      have hmem : oldest ∈ (chunk_files entries).insertionSort (· ≤ ·) := by simp [hsorted]
      exact is_chunk_file_of_mem ((List.mem_insertionSort _).mp hmem)
    · exact Respects.pure Pruned.refl _
  · exact Respects.pure Pruned.refl _

theorem usesVerdict_limit_round (max_bytes : Nat) :
    Respects UsesVerdict (limit_round max_bytes) := by
  apply Respects.seq usesVerdict_total_spool_bytes _ (fun _ _ h => h) UsesVerdict.trans
  intro total
  split
  · apply Respects.bind Pruned.trans pruned_drop_oldest_chunk
    intro _
    exact Respects.bind Pruned.trans pruned_spool_files_newest_first
      fun _ => Respects.pure Pruned.refl _
  · exact Respects.pure Pruned.refl _

/-- Whatever the environment does, bringing the spool under its limit only
removes chunk files. -/
theorem enforce_limit_pruned (max_bytes : Nat) : Respects Pruned (enforce_limit max_bytes) :=
  fun s => Respects.loop Pruned.refl Pruned.trans
    (Respects.mono (fun _ _ h => h.1) (usesVerdict_limit_round max_bytes)) _ s

/-- What `total_spool_bytes` adds up. -/
def spool_bytes (d : Dir) : Nat := d.total fun _ content => content.length

/-- The share of files that are not chunks, which no eviction brings down. -/
def other_bytes (d : Dir) : Nat :=
  d.total fun name content => if is_chunk_file name then 0 else content.length

/-- The chunk that comes first in a sorted listing. -/
theorem head_chunk_spec {r : FileName → FileName → Prop} [DecidableRel r] [Std.Total r]
    [IsTrans FileName r] {d : Dir} {name : FileName}
    (hhead : ((d.keys.filter is_chunk_file).insertionSort r).head? = some name) :
    name ∈ d ∧ is_chunk_file name = true ∧
      ∀ p ∈ d, is_chunk_file p = true → p = name ∨ r name p := by
  obtain ⟨rest, hsorted⟩ := List.head?_eq_some_iff.mp hhead
  have hmem : name ∈ d.keys.filter is_chunk_file := (List.mem_insertionSort r).mp (by simp [hsorted])
  refine ⟨(List.mem_filter.mp hmem).1, (List.mem_filter.mp hmem).2, ?_⟩
  intro p hp hchunk
  have hpairwise := List.pairwise_insertionSort r (d.keys.filter is_chunk_file)
  have hin : p ∈ (d.keys.filter is_chunk_file).insertionSort r :=
    (List.mem_insertionSort _).mpr (List.mem_filter.mpr ⟨hp, hchunk⟩)
  rw [hsorted] at hpairwise hin
  rcases List.mem_cons.mp hin with heq | hin
  · exact Or.inl heq
  · exact Or.inr ((List.pairwise_cons.mp hpairwise).1 p hin)

/-- The first chunk by file name, the one that is dropped. -/
def oldest_chunk (d : Dir) : Option FileName :=
  ((d.keys.filter is_chunk_file).insertionSort (· ≤ ·)).head?

theorem oldest_chunk_spec {d : Dir} {name : FileName} (holdest : oldest_chunk d = some name) :
    name ∈ d ∧ is_chunk_file name = true ∧ ∀ p ∈ d, is_chunk_file p = true → name ≤ p := by
  obtain ⟨hmem, hchunk, hleast⟩ := head_chunk_spec holdest
  exact ⟨hmem, hchunk, fun p hp hchunkp => (hleast p hp hchunkp).elim Eq.ge id⟩

/-- The last chunk by file name, the one that is published next. -/
def newest_chunk (d : Dir) : Option FileName :=
  ((d.keys.filter is_chunk_file).insertionSort (· ≥ ·)).head?

theorem newest_chunk_spec {d : Dir} {name : FileName} (hnewest : newest_chunk d = some name) :
    name ∈ d ∧ is_chunk_file name = true ∧ ∀ p ∈ d, is_chunk_file p = true → p ≤ name := by
  obtain ⟨hmem, hchunk, hgreatest⟩ := head_chunk_spec hnewest
  exact ⟨hmem, hchunk, fun p hp hchunkp => (hgreatest p hp hchunkp).elim Eq.le id⟩

theorem oldest_chunk_eq_none {d : Dir} (holdest : oldest_chunk d = none) {p : FileName}
    (hp : p ∈ d) : is_chunk_file p = false := by
  have hnil := (List.perm_insertionSort (· ≤ ·) (d.keys.filter is_chunk_file)).symm
  rw [List.head?_eq_none_iff.mp holdest, List.perm_nil, List.filter_eq_nil_iff] at hnil
  simpa using hnil p hp

theorem isEmpty_newest_first (d : Dir) :
    ((d.keys.filter is_chunk_file).insertionSort (· ≥ ·)).isEmpty = (oldest_chunk d).isNone := by
  rw [Bool.eq_iff_iff, List.isEmpty_iff, Option.isNone_iff_eq_none, oldest_chunk,
    List.head?_eq_none_iff, ← List.length_eq_zero_iff, ← List.length_eq_zero_iff,
    List.length_insertionSort, List.length_insertionSort]

theorem spool_bytes_eq_zero {s : Fs} (hdir : s.dir = none) : spool_bytes s.files = 0 := by
  simp [Fs.files, hdir, spool_bytes]

section Quiet

variable {s : Fs} (hquiet : s.verdicts = [])

include hquiet

theorem spool_files_newest_first_quiet : spool_files_newest_first s =
    .ok ((s.files.keys.filter is_chunk_file).insertionSort (· ≥ ·)) s := by
  unfold spool_files_newest_first
  rw [bind_of_ok (path_exists_quiet hquiet)]
  cases hdir : s.dir with
  | none => simp [Fs.files, hdir]
  | some d =>
    simp only [Option.isSome_some, if_true]
    rw [bind_of_ok (read_dir_quiet hquiet hdir)]
    simp [chunk_files, Fs.files, hdir, AList.keys, List.keys, Function.comp_def]

theorem total_spool_bytes_quiet : total_spool_bytes s = .ok (spool_bytes s.files) s := by
  unfold total_spool_bytes
  rw [bind_of_ok (path_exists_quiet hquiet)]
  cases hdir : s.dir with
  | none => simp [spool_bytes_eq_zero hdir]
  | some d =>
    simp [bind_run, attempt, read_dir_quiet hquiet hdir, Fs.files, hdir, spool_bytes, Dir.total,
      Function.comp_def]

/-- The state after the removal of one file. -/
def dropped (s : Fs) (name : FileName) : Fs :=
  { s with
    dir := some (s.files.erase name)
    removed := s.removed ++ [(name, (s.files.lookup name).getD [])] }

omit hquiet in
@[simp] theorem dropped_files (name : FileName) : (dropped s name).files = s.files.erase name := rfl

theorem drop_oldest_chunk_quiet : drop_oldest_chunk s =
    match oldest_chunk s.files with
    | some name => .ok () (dropped s name)
    | none => .ok () s := by
  unfold drop_oldest_chunk
  rw [bind_of_ok (path_exists_quiet hquiet)]
  cases hdir : s.dir with
  | none => simp [oldest_chunk, Fs.files, hdir]
  | some d =>
    have hfiles : s.files = d := by simp [Fs.files, hdir]
    have hnames : chunk_files (d.entries.map fun file => ⟨file.1, file.2.length⟩) =
        d.keys.filter is_chunk_file := by
      simp [chunk_files, AList.keys, List.keys, Function.comp_def]
    simp only [Option.isSome_some, if_true]
    rw [bind_of_ok (read_dir_quiet hquiet hdir), hnames, hfiles]
    cases holdest : oldest_chunk d with
    | none => simp [List.head?_eq_none_iff.mp holdest]
    | some name =>
      obtain ⟨rest, hsorted⟩ := List.head?_eq_some_iff.mp holdest
      obtain ⟨content, hlookup⟩ := Option.isSome_iff_exists.mp
        (AList.lookup_isSome.mpr (oldest_chunk_spec holdest).1)
      rw [← hfiles] at hlookup
      simp [hsorted, remove_file_quiet hquiet hlookup, dropped, hlookup]

theorem limit_round_quiet (max_bytes : Nat) : limit_round max_bytes s =
    if max_bytes < spool_bytes s.files then
      match oldest_chunk s.files with
      | some name => .ok (oldest_chunk (s.files.erase name)).isSome (dropped s name)
      | none => .ok false s
    else .ok false s := by
  unfold limit_round
  rw [bind_of_ok (total_spool_bytes_quiet hquiet)]
  split
  · rw [bind_run, drop_oldest_chunk_quiet hquiet]
    cases holdest : oldest_chunk s.files with
    | none =>
      simp only
      rw [bind_of_ok (spool_files_newest_first_quiet hquiet), isEmpty_newest_first, holdest]
      rfl
    | some name =>
      have hstill : (dropped s name).verdicts = [] := hquiet
      simp only
      rw [bind_of_ok (spool_files_newest_first_quiet hstill), isEmpty_newest_first]
      simp
  · rfl

end Quiet

/-- A round that asks for another one has used up a verdict or a file. -/
theorem limit_round_decreases (max_bytes : Nat) (s t : Fs)
    (hround : limit_round max_bytes s = .ok true t) : rounds_left t < rounds_left s := by
  have huses := usesVerdict_limit_round max_bytes s
  rw [hround, finalState_ok] at huses
  obtain ⟨gone, hremoves, hremoved, -⟩ := huses.1.files
  have hfiles := hremoves.length
  have hverdicts := huses.2.length_le
  cases hquiet : s.verdicts with
  | nil =>
    rw [hquiet] at hverdicts
    have hgone : gone ≠ [] := by
      rintro rfl
      rw [limit_round_quiet hquiet] at hround
      split at hround
      · split at hround
        · have hstate := (EStateM.Result.ok.inj hround).2
          simp [← hstate, dropped] at hremoved
        · cases hround
      · cases hround
    have hpos := List.length_pos_iff.mpr hgone
    simp only [rounds_left, hquiet]
    simp only [List.tail_nil, List.length_nil] at hverdicts ⊢
    omega
  | cons verdict rest =>
    rw [hquiet] at hverdicts
    simp only [rounds_left, hquiet]
    simp only [List.tail_cons, List.length_cons] at hverdicts ⊢
    omega

/-- The loop of the source: a round, and as long as it asks for it the loop again. -/
theorem enforce_limit_eq (max_bytes : Nat) :
    enforce_limit max_bytes = (do
      if ← limit_round max_bytes then
        enforce_limit max_bytes) :=
  funext fun s => loop_eq rounds_left (limit_round_decreases max_bytes) s

/-- What undisturbed eviction does to a directory: it removes chunks, oldest first
and only as far as needed. -/
structure Evicts (max_bytes : Nat) (d : Dir) (gone : List (FileName × Bytes)) (d' : Dir) : Prop where
  removes : d.Removes gone d'
  chunks : ∀ file ∈ gone, is_chunk_file file.1 = true
  oldest_first : ∀ file ∈ gone, ∀ p ∈ d', is_chunk_file p = true → file.1 < p
  needed : spool_bytes d ≤ max_bytes → gone = []
  enough : spool_bytes d' ≤ max_bytes ∨ ∀ p ∈ d', is_chunk_file p = false
  newest_kept : ∀ name content, d.lookup name = some content → is_chunk_file name = true →
    (∀ p ∈ d, is_chunk_file p = true → p ≤ name) →
    other_bytes d + content.length ≤ max_bytes → name ∈ d'

theorem Evicts.refl {max_bytes : Nat} {d : Dir}
    (henough : spool_bytes d ≤ max_bytes ∨ ∀ p ∈ d, is_chunk_file p = false) :
    Evicts max_bytes d [] d where
  removes := .nil d
  chunks := by simp
  oldest_first := by simp
  needed := fun _ => rfl
  enough := henough
  newest_kept := fun _ _ hlookup _ _ _ => AList.lookup_isSome.mp (by rw [hlookup]; rfl)

theorem spool_bytes_eq_other_bytes {d : Dir} (hnone : ∀ p ∈ d, is_chunk_file p = false) :
    spool_bytes d = other_bytes d := by
  apply Dir.total_congr
  intro name hmem content
  simp [hnone name hmem]

/-- The other files are not touched when a chunk goes. -/
theorem other_bytes_erase (d : Dir) {name : FileName} (hchunk : is_chunk_file name = true) :
    other_bytes (d.erase name) = other_bytes d :=
  Dir.total_erase_of_zero _ (by simp [hchunk])

/-- One more chunk evicted, the oldest, in front of those that follow. -/
theorem Evicts.cons {max_bytes : Nat} {d d' : Dir} {gone : List (FileName × Bytes)}
    {name : FileName} {content : Bytes} (hover : max_bytes < spool_bytes d)
    (holdest : oldest_chunk d = some name) (hlookup : d.lookup name = some content)
    (hrest : Evicts max_bytes (d.erase name) gone d') :
    Evicts max_bytes d ((name, content) :: gone) d' := by
  obtain ⟨hmem, hchunk, hleast⟩ := oldest_chunk_spec holdest
  have hkept : ∀ p ∈ d', p ∈ d ∧ p ≠ name := by
    intro p hp
    obtain ⟨bytes, hbytes⟩ := Option.isSome_iff_exists.mp (AList.lookup_isSome.mpr hp)
    have herased : p ∈ d.erase name :=
      AList.lookup_isSome.mp (by rw [hrest.removes.lookup hbytes]; rfl)
    rw [AList.mem_erase] at herased
    exact ⟨herased.2, herased.1⟩
  have hother := other_bytes_erase d hchunk
  constructor
  case removes => exact .cons hlookup hrest.removes
  case chunks =>
    intro file hfile
    rcases List.mem_cons.mp hfile with rfl | hfile
    · exact hchunk
    · exact hrest.chunks file hfile
  case oldest_first =>
    intro file hfile p hp hchunkp
    rcases List.mem_cons.mp hfile with rfl | hfile
    · exact lt_of_le_of_ne (hleast p (hkept p hp).1 hchunkp) (hkept p hp).2.symm
    · exact hrest.oldest_first file hfile p hp hchunkp
  case needed => omega
  case enough => exact hrest.enough
  case newest_kept =>
    intro newest bytes hnewest hchunkn hgreatest hfits
    by_cases heq : newest = name
    · subst heq
      rw [hlookup, Option.some.injEq] at hnewest
      subst hnewest
      have hnone : ∀ p ∈ d.erase newest, is_chunk_file p = false := by
        intro p hp
        rw [AList.mem_erase] at hp
        by_contra hchunkp
        rw [Bool.not_eq_false] at hchunkp
        exact hp.1 (le_antisymm (hgreatest p hp.2 hchunkp) (hleast p hp.2 hchunkp))
      have htotal := Dir.total_erase (fun _ bytes => List.length bytes) hlookup
      have hrestBytes := spool_bytes_eq_other_bytes hnone
      unfold spool_bytes at hover hrestBytes
      omega
    · apply hrest.newest_kept newest bytes _ hchunkn _ (by rw [hother]; exact hfits)
      · rwa [AList.lookup_erase_ne heq]
      · intro p hp hchunkp
        exact hgreatest p (AList.mem_erase.mp hp).2 hchunkp

/-- Undisturbed, the loop always gets through. -/
theorem enforce_limit_quiet (max_bytes : Nat) {s : Fs} {d : Dir} (hquiet : s.verdicts = [])
    (hdir : s.dir = some d) :
    ∃ gone d', enforce_limit max_bytes s =
        .ok () { s with dir := some d', removed := s.removed ++ gone } ∧
      Evicts max_bytes d gone d' := by
  induction hsize : d.keys.length using Nat.strongRecOn generalizing s d with
  | ind size ih =>
    have hfiles : s.files = d := by simp [Fs.files, hdir]
    have hsame : s = { s with dir := some d, removed := s.removed ++ [] } := by simp [← hdir]
    have hround := limit_round_quiet hquiet max_bytes
    rw [hfiles] at hround
    split at hround
    · next hover =>
      cases holdest : oldest_chunk d with
      | none =>
        rw [holdest] at hround
        refine ⟨[], d, ?_, .refl (Or.inr fun p hp => oldest_chunk_eq_none holdest hp)⟩
        rw [enforce_limit_eq, bind_of_ok hround, ← hsame]
        rfl
      | some name =>
        rw [holdest] at hround
        simp only at hround
        obtain ⟨hmem, hchunk, hleast⟩ := oldest_chunk_spec holdest
        obtain ⟨content, hlookup⟩ := Option.isSome_iff_exists.mp (AList.lookup_isSome.mpr hmem)
        have hdropped : dropped s name =
            { s with dir := some (d.erase name), removed := s.removed ++ [(name, content)] } := by
          simp [dropped, hfiles, hlookup]
        cases hleft : oldest_chunk (d.erase name) with
        | none =>
          rw [hleft] at hround
          refine ⟨[(name, content)], d.erase name, ?_, .cons hover holdest hlookup
            (.refl (Or.inr fun p hp => oldest_chunk_eq_none hleft hp))⟩
          rw [enforce_limit_eq, bind_of_ok hround, hdropped]
          rfl
        | some next =>
          rw [hleft] at hround
          have hlength := List.length_erase_of_mem (AList.mem_keys.mp hmem)
          have hpos := List.length_pos_of_mem (AList.mem_keys.mp hmem)
          obtain ⟨gone, d', hloop, hevicts⟩ := ih _ (by rw [AList.keys_erase]; omega)
            (s := dropped s name) (d := d.erase name) hquiet (by simp [dropped, hfiles]) rfl
          refine ⟨(name, content) :: gone, d', ?_, .cons hover holdest hlookup hevicts⟩
          rw [enforce_limit_eq, bind_of_ok hround]
          simp only [Option.isSome_some, if_true]
          rw [hloop, hdropped]
          simp
    · next hunder =>
      refine ⟨[], d, ?_, .refl (Or.inl (by omega))⟩
      rw [enforce_limit_eq, bind_of_ok hround, ← hsame]
      rfl

end spotflowd.buffer
