import Mathlib.Data.List.Sort

namespace ordered

variable {α : Type} (key : α → Nat)

/-- The values in ascending order of their keys. -/
def ascending (values : List α) : List α := values.insertionSort fun a b => key a ≤ key b

instance total_le : Std.Total (fun a b => key a ≤ key b) := ⟨fun a b => Nat.le_total (key a) (key b)⟩

instance isTrans_le : IsTrans α (fun a b => key a ≤ key b) := ⟨fun _ _ _ => Nat.le_trans⟩

theorem perm_ascending (values : List α) : (ascending key values).Perm values :=
  List.perm_insertionSort _ values

theorem mem_ascending {values : List α} {a : α} : a ∈ ascending key values ↔ a ∈ values :=
  (perm_ascending key values).mem_iff

theorem pairwise_ascending (values : List α) :
    (ascending key values).Pairwise fun a b => key a ≤ key b :=
  List.pairwise_insertionSort _ values

/-- The key tells the values apart. -/
def Distinct (values : List α) : Prop := ∀ a ∈ values, ∀ b ∈ values, key a = key b → a = b

variable {key}

/-- With distinct keys, there is one ascending arrangement. -/
theorem ascending_eq {values sorted : List α} (hdistinct : Distinct key values)
    (hperm : sorted.Perm values) (hsorted : sorted.Pairwise fun a b => key a ≤ key b) :
    ascending key values = sorted := by
  have hperm' : (ascending key values).Perm sorted := (perm_ascending key values).trans hperm.symm
  apply hperm'.eq_of_pairwise _ (pairwise_ascending key values) hsorted
  intro a b ha hb hab hba
  exact hdistinct a ((mem_ascending key).mp ha) b (hperm.subset hb) (Nat.le_antisymm hab hba)

/-- Taking a value away leaves the others in their order. -/
theorem ascending_erase [DecidableEq α] {values : List α} (hdistinct : Distinct key values) (a : α) :
    ascending key (values.erase a) = (ascending key values).erase a := by
  apply ascending_eq
  · intro b hb b' hb'
    exact hdistinct b (List.mem_of_mem_erase hb) b' (List.mem_of_mem_erase hb')
  · exact (perm_ascending key values).erase a
  · exact (pairwise_ascending key values).sublist List.erase_sublist

/-- A value with a greater key than all others goes to the end. -/
theorem ascending_cons {values : List α} {a : α} (hdistinct : Distinct key values)
    (hgreatest : ∀ b ∈ values, key b < key a) :
    ascending key (a :: values) = ascending key values ++ [a] := by
  apply ascending_eq
  · intro b hb b' hb' heq
    rw [List.mem_cons] at hb hb'
    obtain rfl | hb := hb
    · obtain rfl | hb' := hb'
      · rfl
      · exact absurd heq (Nat.ne_of_gt (hgreatest b' hb'))
    · obtain rfl | hb' := hb'
      · exact absurd heq (Nat.ne_of_lt (hgreatest b hb))
      · exact hdistinct b hb b' hb' heq
  · exact (List.perm_append_singleton a _).trans ((perm_ascending key values).cons a)
  · rw [List.pairwise_append]
    refine ⟨pairwise_ascending key values, List.pairwise_singleton _ _, ?_⟩
    intro b hb a' ha'
    rw [List.mem_singleton.mp ha']
    exact (hgreatest b ((mem_ascending key).mp hb)).le

end ordered
