import Mathlib.Data.List.AList

/-- A hash map: what it holds, without an order. -/
abbrev HashMap (K V : Type) := AList fun _ : K => V

/-- The order in which one iteration over a hash map meets its keys. -/
structure Iteration (K : Type) where
  order : List K → List K
  perm : ∀ keys, (order keys).Perm keys

namespace Iteration

variable {K V : Type} [DecidableEq K]

/-- `HashMap::iter`. -/
def iter (i : Iteration K) (m : HashMap K V) : List (K × V) :=
  (i.order m.keys).filterMap fun key => (m.lookup key).map fun value => (key, value)

theorem mem_iter {i : Iteration K} {m : HashMap K V} {key : K} {value : V} :
    (key, value) ∈ i.iter m ↔ m.lookup key = some value := by
  simp only [iter, List.mem_filterMap, Option.map_eq_some_iff, Prod.mk.injEq]
  constructor
  · rintro ⟨key', -, value', hlookup, rfl, rfl⟩
    exact hlookup
  · intro hlookup
    have hmem : key ∈ m.keys := AList.mem_keys.mp (AList.lookup_isSome.mp (by rw [hlookup]; rfl))
    exact ⟨key, (i.perm m.keys).mem_iff.mpr hmem, value, hlookup, rfl, rfl⟩

/-- An iteration meets every key once. -/
theorem nodup_iter (i : Iteration K) (m : HashMap K V) : ((i.iter m).map Prod.fst).Nodup := by
  have hmap : (i.iter m).map Prod.fst =
      (i.order m.keys).filterMap fun key => (m.lookup key).map fun _ => key := by
    rw [iter, List.map_filterMap]
    congr 1
    funext key
    cases m.lookup key <;> rfl
  rw [hmap]
  apply List.Nodup.filterMap _ ((i.perm m.keys).nodup_iff.mpr m.keys_nodup)
  intro key key' found hfound hfound'
  simp only [Option.mem_def, Option.map_eq_some_iff] at hfound hfound'
  obtain ⟨-, -, rfl⟩ := hfound
  obtain ⟨-, -, rfl⟩ := hfound'
  rfl

/-- An iteration meets the entries of the map. -/
theorem iter_perm (i : Iteration K) (m : HashMap K V) :
    (i.iter m).Perm (m.entries.map fun entry => (entry.1, entry.2)) := by
  have hkeys : m.keys.filterMap (fun key => (m.lookup key).map fun value => (key, value)) =
      m.entries.map fun entry => (entry.1, entry.2) := by
    rw [AList.keys, List.keys, List.filterMap_map, List.filterMap_eq_map_iff_forall_eq_some]
    intro entry hmem
    have hlookup := AList.mem_lookup_iff.mpr hmem
    rw [Option.mem_def] at hlookup
    simp [hlookup]
  rw [← hkeys]
  exact (i.perm m.keys).filterMap _

end Iteration

namespace HashMap

variable {K V : Type} [DecidableEq K]

/-- A map is one of its entries and the rest. -/
theorem entries_perm_erase {m : HashMap K V} {key : K} {value : V} (hlookup : m.lookup key = some value) :
    m.entries.Perm (⟨key, value⟩ :: (m.erase key).entries) := by
  have hmem : key ∈ m.entries.keys := AList.lookup_isSome.mp (by rw [hlookup]; rfl)
  obtain ⟨value', before, after, -, hentries, herase⟩ := List.exists_of_kerase hmem
  have hvalue : m.lookup key = some value' := by
    rw [← Option.mem_def, AList.mem_lookup_iff, hentries]
    simp
  rw [hlookup] at hvalue
  cases hvalue
  rw [hentries]
  change (before ++ ⟨key, value⟩ :: after).Perm (⟨key, value⟩ :: m.entries.kerase key)
  rw [herase]
  exact List.perm_middle

/-- Inserting pairs with different keys, one after another, adds just these. -/
theorem lookup_insert_all {pairs : List (K × V)} (hdistinct : (pairs.map Prod.fst).Nodup)
    (m : HashMap K V) (key : K) :
    (pairs.foldl (fun m pair => m.insert pair.1 pair.2) m).lookup key =
      (pairs.lookup key).or (m.lookup key) := by
  induction pairs generalizing m with
  | nil => rfl
  | cons pair pairs ih =>
    obtain ⟨hnew, hrest⟩ := List.nodup_cons.mp hdistinct
    rw [List.foldl_cons, ih hrest]
    by_cases hkey : key = pair.1
    · subst hkey
      have hnone : pairs.lookup pair.1 = none := by
        rw [List.lookup_eq_none_iff]
        intro other hother
        rw [bne_iff_ne]
        intro heq
        exact hnew (heq ▸ List.mem_map_of_mem hother)
      rw [hnone, AList.lookup_insert, List.lookup_cons, beq_self_eq_true]
      rfl
    · rw [AList.lookup_insert_ne hkey, List.lookup_cons, beq_false_of_ne hkey]

/-- A map is rebuilt from an iteration over it. -/
theorem lookup_insert_iter (i : Iteration K) (m : HashMap K V) (key : K) :
    ((i.iter m).foldl (fun m pair => m.insert pair.1 pair.2) (∅ : HashMap K V)).lookup key =
      m.lookup key := by
  rw [lookup_insert_all (i.nodup_iter m), AList.lookup_empty, Option.or_none]
  cases hlookup : m.lookup key with
  | none =>
    rw [List.lookup_eq_none_iff]
    rintro ⟨key', value⟩ hmem
    rw [Iteration.mem_iter] at hmem
    rw [bne_iff_ne]
    rintro rfl
    rw [hlookup] at hmem
    cases hmem
  | some value =>
    have hmem : (key, value) ∈ i.iter m := Iteration.mem_iter.mpr hlookup
    cases hfound : (i.iter m).lookup key with
    | none =>
      rw [List.lookup_eq_none_iff] at hfound
      have := hfound _ hmem
      simp at this
    | some other =>
      have hother : (key, other) ∈ i.iter m := by
        obtain ⟨before, after, hsplit, -⟩ := List.lookup_eq_some_iff.mp hfound
        rw [hsplit]
        simp
      rw [Iteration.mem_iter, hlookup] at hother
      exact hother.symm

end HashMap
