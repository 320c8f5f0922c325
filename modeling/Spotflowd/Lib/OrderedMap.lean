import Mathlib.Order.Basic
import Mathlib.Data.List.Basic
import Mathlib.Order.Lattice

/-- A finite map kept as its entries in ascending key order, so that two maps with
the same entries are equal. -/
structure OrderedMap (K V : Type) [LinearOrder K] where
  entries : List (K × V)
  ascending : (entries.map Prod.fst).Pairwise (· < ·)
deriving DecidableEq

namespace OrderedMap

variable {K V : Type} [LinearOrder K]

instance : EmptyCollection (OrderedMap K V) := ⟨⟨[], .nil⟩⟩

@[simp] theorem entries_empty : (∅ : OrderedMap K V).entries = [] := rfl

/-- Entries with `key` mapped to `value`, replacing an earlier value. -/
def insertEntry (key : K) (value : V) : List (K × V) → List (K × V)
  | [] => [(key, value)]
  | (k, v) :: rest =>
    if key < k then (key, value) :: (k, v) :: rest
    else if key = k then (key, value) :: rest
    else (k, v) :: insertEntry key value rest

theorem mem_keys_insertEntry {key k : K} {value : V} {entries : List (K × V)}
    (hmem : k ∈ (insertEntry key value entries).map Prod.fst) :
    k = key ∨ k ∈ entries.map Prod.fst := by
  induction entries with
  | nil => simpa [insertEntry] using hmem
  | cons entry rest ih =>
    obtain ⟨k', v'⟩ := entry
    unfold insertEntry at hmem
    split at hmem
    · simpa using hmem
    · split at hmem
      · next heq =>
        simp only [List.map_cons, List.mem_cons] at hmem ⊢
        rcases hmem with rfl | hmem
        · exact Or.inl rfl
        · exact Or.inr (Or.inr hmem)
      · simp only [List.map_cons, List.mem_cons] at hmem ⊢
        rcases hmem with rfl | hmem
        · exact Or.inr (Or.inl rfl)
        · rcases ih hmem with h | h
          · exact Or.inl h
          · exact Or.inr (Or.inr h)

theorem ascending_insertEntry (key : K) (value : V) {entries : List (K × V)}
    (hascending : (entries.map Prod.fst).Pairwise (· < ·)) :
    ((insertEntry key value entries).map Prod.fst).Pairwise (· < ·) := by
  induction entries with
  | nil => simp [insertEntry]
  | cons entry rest ih =>
    obtain ⟨k, v⟩ := entry
    rw [List.map_cons, List.pairwise_cons] at hascending
    obtain ⟨hhead, htail⟩ := hascending
    unfold insertEntry
    split
    · next hlt =>
      simp only [List.map_cons, List.pairwise_cons, List.mem_cons, forall_eq_or_imp]
      exact ⟨⟨hlt, fun k' hk' => hlt.trans (hhead k' hk')⟩, hhead, htail⟩
    · split
      · next heq =>
        subst heq
        simpa only [List.map_cons, List.pairwise_cons] using And.intro hhead htail
      · next hnot hne =>
        rw [List.map_cons, List.pairwise_cons]
        refine ⟨?_, ih htail⟩
        intro k' hk'
        rcases mem_keys_insertEntry hk' with rfl | hk'
        · exact lt_of_le_of_ne (not_lt.mp hnot) (Ne.symm hne)
        · exact hhead k' hk'

def insert (m : OrderedMap K V) (key : K) (value : V) : OrderedMap K V :=
  ⟨insertEntry key value m.entries, ascending_insertEntry key value m.ascending⟩

/-- The value at a key. -/
def getEntry (key : K) : List (K × V) → Option V
  | [] => none
  | (k, v) :: rest => if k = key then some v else getEntry key rest

def get? (m : OrderedMap K V) (key : K) : Option V := getEntry key m.entries

@[simp] theorem get?_empty (key : K) : (∅ : OrderedMap K V).get? key = none := rfl

theorem getEntry_insertEntry (key other : K) (value : V) (entries : List (K × V)) :
    getEntry other (insertEntry key value entries) =
      if key = other then some value else getEntry other entries := by
  induction entries with
  | nil => rfl
  | cons entry rest ih =>
    obtain ⟨k, v⟩ := entry
    rw [insertEntry]
    split
    · rw [getEntry]
    · split
      · next heq =>
        rw [getEntry, getEntry, heq]
        split <;> rfl
      · next hne =>
        rw [getEntry, getEntry]
        split
        · next heq => rw [if_neg (heq ▸ hne)]
        · rw [ih]

theorem get?_insert (m : OrderedMap K V) (key other : K) (value : V) :
    (m.insert key value).get? other = if key = other then some value else m.get? other :=
  getEntry_insertEntry key other value m.entries

/-- The map that receives the pairs one after another. -/
def ofPairs (pairs : List (K × V)) : OrderedMap K V :=
  pairs.foldl (fun m pair => m.insert pair.1 pair.2) ∅

theorem perm_insertEntry {key : K} {value : V} {entries : List (K × V)}
    (hfresh : key ∉ entries.map Prod.fst) :
    (insertEntry key value entries).Perm ((key, value) :: entries) := by
  induction entries with
  | nil => exact List.Perm.refl _
  | cons entry rest ih =>
    obtain ⟨k, v⟩ := entry
    rw [List.map_cons, List.mem_cons, not_or] at hfresh
    unfold insertEntry
    split
    · exact List.Perm.refl _
    · rw [if_neg hfresh.1]
      exact ((ih hfresh.2).cons _).trans (List.Perm.swap _ _ _)

/-- Pairs with different keys are the entries of the map they make. -/
theorem perm_ofPairs {pairs : List (K × V)} (hnodup : (pairs.map Prod.fst).Nodup) :
    (ofPairs pairs).entries.Perm pairs := by
  suffices h : ∀ (todo : List (K × V)) (done : OrderedMap K V),
      ((done.entries ++ todo).map Prod.fst).Nodup →
      (todo.foldl (fun m pair => m.insert pair.1 pair.2) done).entries.Perm (done.entries ++ todo) by
    exact h pairs ∅ hnodup
  intro todo
  induction todo with
  | nil => simp
  | cons pair todo ih =>
    intro done hnodup
    have hmoved : (pair :: done.entries ++ todo).Perm (done.entries ++ pair :: todo) :=
      List.perm_middle.symm
    have hnodup' := (hmoved.map Prod.fst).nodup_iff.mpr hnodup
    rw [List.cons_append, List.map_cons, List.nodup_cons, List.map_append, List.mem_append,
      not_or] at hnodup'
    have hinsert : (done.insert pair.1 pair.2).entries.Perm (pair :: done.entries) :=
      perm_insertEntry hnodup'.1.1
    have hrest : ((done.insert pair.1 pair.2).entries ++ todo).Perm (done.entries ++ pair :: todo) :=
      (hinsert.append_right todo).trans hmoved
    exact (ih (done.insert pair.1 pair.2) ((hrest.map Prod.fst).nodup_iff.mpr hnodup)).trans hrest

/-- A map is rebuilt from its own entries in any order. -/
theorem ofPairs_of_perm {m : OrderedMap K V} {pairs : List (K × V)} (hperm : pairs.Perm m.entries) :
    ofPairs pairs = m := by
  have hnodup : (pairs.map Prod.fst).Nodup :=
    (hperm.map Prod.fst).nodup_iff.mpr (m.ascending.imp ne_of_lt)
  have hentries : (ofPairs pairs).entries = m.entries := by
    have hsame := (perm_ofPairs hnodup).trans hperm
    have hsorted : (ofPairs pairs).entries.Pairwise fun a b => a.1 < b.1 :=
      List.pairwise_map.mp (ofPairs pairs).ascending
    refine hsame.eq_of_pairwise ?_ hsorted (List.pairwise_map.mp m.ascending)
    intro a b _ _ hab hba
    exact absurd (hab.trans hba) (lt_irrefl _)
  cases hmap : ofPairs pairs
  rw [hmap] at hentries
  cases hentries
  rfl

end OrderedMap
