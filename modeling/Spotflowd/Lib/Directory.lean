import Mathlib.Data.List.AList
import Mathlib.Algebra.BigOperators.Group.List.Basic
import Mathlib.Algebra.Order.Monoid.Canonical.Defs
import Mathlib.Data.String.Basic
import Mathlib.Algebra.Ring.Int.Defs
import Mathlib.Algebra.Ring.Nat

namespace fs

abbrev Bytes := List UInt8

abbrev FileName := String

/-- The regular files of one directory. -/
abbrev Dir := AList (fun _ : FileName => Bytes)

variable {M : Type} [AddCommMonoid M] (f : FileName → Bytes → M)

/-- Sum of a quantity over the files of a directory. -/
def Dir.total (d : Dir) : M :=
  (d.entries.map fun file => f file.1 file.2).sum

@[simp] theorem Dir.total_empty : Dir.total f (∅ : Dir) = 0 := rfl

theorem Dir.total_congr {g : FileName → Bytes → M} {d : Dir}
    (hsame : ∀ name ∈ d, ∀ content, f name content = g name content) :
    Dir.total f d = Dir.total g d := by
  rw [Dir.total, Dir.total]
  congr 1
  apply List.map_congr_left
  intro file hfile
  exact hsame file.1 (AList.mem_keys.mpr (List.mem_map_of_mem hfile)) file.2

theorem Dir.total_insert_fresh {d : Dir} {name : FileName} (content : Bytes) (hfresh : name ∉ d) :
    Dir.total f (d.insert name content) = f name content + Dir.total f d := by
  rw [Dir.total, AList.entries_insert_of_notMem hfresh]
  rfl

theorem Dir.erase_of_notMem {d : Dir} {name : FileName} (hfresh : name ∉ d) : d.erase name = d := by
  apply AList.ext
  exact List.kerase_of_notMem_keys hfresh

/-- Removing a file takes exactly its share out of the sum. -/
theorem Dir.total_erase {d : Dir} {name : FileName} {content : Bytes}
    (hlookup : d.lookup name = some content) :
    f name content + Dir.total f (d.erase name) = Dir.total f d := by
  have hmem : name ∈ d := AList.lookup_isSome.mp (by rw [hlookup]; rfl)
  obtain ⟨found, before, after, _, hsplit, herase⟩ := List.exists_of_kerase (AList.mem_keys.mp hmem)
  have hfound : found = content := by
    have hin : (⟨name, found⟩ : Sigma fun _ : FileName => Bytes) ∈ d.entries := by
      rw [hsplit]
      simp
    have := AList.mem_lookup_iff.mpr hin
    rw [hlookup] at this
    exact (Option.some.inj this).symm
  subst hfound
  change _ + (((d.erase name).entries.map _).sum) = _
  rw [show (d.erase name).entries = before ++ after from herase, Dir.total, hsplit]
  simp only [List.map_append, List.map_cons, List.sum_append, List.sum_cons]
  exact add_left_comm _ _ _

theorem Dir.total_insert (d : Dir) (name : FileName) (content : Bytes) :
    Dir.total f (d.insert name content) = f name content + Dir.total f (d.erase name) := by
  rw [Dir.total, AList.entries_insert]
  rfl

/-- Files that count for nothing can come and go. -/
theorem Dir.total_erase_of_zero {d : Dir} {name : FileName} (hzero : ∀ content, f name content = 0) :
    Dir.total f (d.erase name) = Dir.total f d := by
  by_cases hmem : name ∈ d
  · obtain ⟨content, hlookup⟩ := Option.isSome_iff_exists.mp (AList.lookup_isSome.mpr hmem)
    rw [← Dir.total_erase f hlookup, hzero, zero_add]
  · rw [Dir.erase_of_notMem hmem]

theorem Dir.total_insert_of_zero {d : Dir} {name : FileName} (content : Bytes)
    (hzero : ∀ content, f name content = 0) :
    Dir.total f (d.insert name content) = Dir.total f d := by
  rw [Dir.total_insert, hzero, zero_add, Dir.total_erase_of_zero f hzero]

theorem Dir.total_erase_le [PartialOrder M] [CanonicallyOrderedAdd M] (d : Dir) (name : FileName) :
    Dir.total f (d.erase name) ≤ Dir.total f d := by
  by_cases hmem : name ∈ d
  · obtain ⟨content, hlookup⟩ := Option.isSome_iff_exists.mp (AList.lookup_isSome.mpr hmem)
    rw [← Dir.total_erase f hlookup]
    exact le_add_self
  · rw [Dir.erase_of_notMem hmem]

theorem Dir.erase_insert (d : Dir) (name : FileName) (content : Bytes) :
    (d.insert name content).erase name = d.erase name := by
  apply AList.ext
  change ((d.insert name content).entries.kerase name) = d.entries.kerase name
  rw [AList.entries_insert]
  exact List.kerase_cons_eq rfl

@[simp] theorem Dir.lookup_singleton (name : FileName) (content : Bytes) :
    (AList.singleton name content : Dir).lookup name = some content := by
  rw [← AList.insert_empty, AList.lookup_insert]

@[simp] theorem Dir.erase_singleton (name : FileName) (content : Bytes) :
    (AList.singleton name content : Dir).erase name = ∅ := by
  rw [← AList.insert_empty, Dir.erase_insert, Dir.erase_of_notMem (AList.notMem_empty name)]

@[simp] theorem Dir.total_singleton (name : FileName) (content : Bytes) :
    Dir.total f (AList.singleton name content) = f name content := by
  rw [← AList.insert_empty, Dir.total_insert_fresh f content (AList.notMem_empty name),
    Dir.total_empty, add_zero]

/-- Taking the files away one after another leads from one directory to the other. -/
inductive Dir.Removes : Dir → List (FileName × Bytes) → Dir → Prop
  | nil (d : Dir) : Removes d [] d
  | cons {d d' : Dir} {name : FileName} {content : Bytes} {files : List (FileName × Bytes)}
      (hlookup : d.lookup name = some content) (hrest : Removes (d.erase name) files d') :
      Removes d ((name, content) :: files) d'

theorem Dir.Removes.trans {d d' d'' : Dir} {files files' : List (FileName × Bytes)}
    (hfirst : d.Removes files d') (hsecond : d'.Removes files' d'') :
    d.Removes (files ++ files') d'' := by
  induction hfirst with
  | nil => exact hsecond
  | cons hlookup _ ih => exact .cons hlookup (ih hsecond)

theorem Dir.Removes.single {d : Dir} {name : FileName} {content : Bytes}
    (hlookup : d.lookup name = some content) : d.Removes [(name, content)] (d.erase name) :=
  .cons hlookup (.nil _)

/-- What is taken away and what stays add up. -/
theorem Dir.Removes.total {d d' : Dir} {files : List (FileName × Bytes)} (h : d.Removes files d') :
    (files.map fun file => f file.1 file.2).sum + Dir.total f d' = Dir.total f d := by
  induction h with
  | nil => simp
  | cons hlookup _ ih =>
    rw [List.map_cons, List.sum_cons, add_assoc, ih, Dir.total_erase f hlookup]

/-- A file that stays was there, with the same content. -/
theorem Dir.Removes.lookup {d d' : Dir} {files : List (FileName × Bytes)} (h : d.Removes files d')
    {name : FileName} {content : Bytes} (hlookup : d'.lookup name = some content) :
    d.lookup name = some content := by
  induction h with
  | nil => exact hlookup
  | @cons d d' gone _ _ _ _ ih =>
    have hkept := ih hlookup
    by_cases heq : name = gone
    · subst heq
      rw [AList.lookup_erase] at hkept
      cases hkept
    · rwa [AList.lookup_erase_ne heq] at hkept

/-- A file that is not among those taken away is as it was. -/
theorem Dir.Removes.lookup_of_forall_ne {d d' : Dir} {files : List (FileName × Bytes)}
    (h : d.Removes files d') {name : FileName} (hother : ∀ file ∈ files, file.1 ≠ name) :
    d'.lookup name = d.lookup name := by
  induction h with
  | nil => rfl
  | @cons d d' gone content files _ _ ih =>
    rw [ih fun file hfile => hother file (List.mem_cons_of_mem _ hfile)]
    exact AList.lookup_erase_ne (hother (gone, content) List.mem_cons_self).symm

theorem Dir.Removes.mem {d d' : Dir} {files : List (FileName × Bytes)} (h : d.Removes files d')
    {name : FileName} (hmem : name ∈ d') : name ∈ d := by
  obtain ⟨content, hlookup⟩ := Option.isSome_iff_exists.mp (AList.lookup_isSome.mpr hmem)
  exact AList.lookup_isSome.mp (by rw [h.lookup hlookup]; rfl)

/-- A file that was there stays or is among those taken away. -/
theorem Dir.Removes.mem_or {d d' : Dir} {files : List (FileName × Bytes)} (h : d.Removes files d')
    {name : FileName} (hmem : name ∈ d) : name ∈ d' ∨ ∃ content, (name, content) ∈ files := by
  induction h with
  | nil => exact Or.inl hmem
  | @cons d d' gone content _ _ _ ih =>
    by_cases heq : name = gone
    · subst heq
      exact Or.inr ⟨content, List.mem_cons_self⟩
    · obtain hkept | ⟨content', hgone⟩ := ih (AList.mem_erase.mpr ⟨heq, hmem⟩)
      · exact Or.inl hkept
      · exact Or.inr ⟨content', List.mem_cons_of_mem _ hgone⟩

theorem Dir.Removes.length {d d' : Dir} {files : List (FileName × Bytes)}
    (h : d.Removes files d') : d'.keys.length + files.length = d.keys.length := by
  induction h with
  | nil => rfl
  | @cons d _ name _ _ hlookup _ ih =>
    have hmem : name ∈ d.keys := AList.lookup_isSome.mp (by rw [hlookup]; rfl)
    have hpos := List.length_pos_of_mem hmem
    rw [AList.keys_erase, List.length_erase_of_mem hmem] at ih
    rw [List.length_cons]
    omega

end fs
