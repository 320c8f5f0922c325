import Mathlib.Data.List.Basic

namespace separator

variable {α : Type}

/-- A list is cut at the first separator in one way only. -/
theorem append_cons_inj {sep : α} {before before' after after' : List α} (hbefore : sep ∉ before)
    (hbefore' : sep ∉ before') :
    before ++ sep :: after = before' ++ sep :: after' ↔ before = before' ∧ after = after' := by
  constructor
  · intro heq
    induction before generalizing before' with
    | nil =>
      cases before' with
      | nil => exact ⟨rfl, List.tail_eq_of_cons_eq heq⟩
      | cons c before' => exact absurd (List.head_eq_of_cons_eq heq ▸ List.mem_cons_self) hbefore'
    | cons c before ih =>
      cases before' with
      | nil => exact absurd (List.head_eq_of_cons_eq heq ▸ List.mem_cons_self) hbefore
      | cons c' before' =>
        obtain ⟨rfl, hrest⟩ := List.cons_eq_cons.mp heq
        obtain ⟨rfl, hafter⟩ := ih (List.not_mem_of_not_mem_cons hbefore)
          (List.not_mem_of_not_mem_cons hbefore') hrest
        exact ⟨rfl, hafter⟩
  · rintro ⟨rfl, rfl⟩
    rfl

/-- A list is cut at the last separator in one way only. -/
theorem append_cons_inj_last {sep : α} {before before' after after' : List α} (hafter : sep ∉ after)
    (hafter' : sep ∉ after') (heq : before ++ sep :: after = before' ++ sep :: after') :
    before = before' ∧ after = after' := by
  have hreverse : after.reverse ++ sep :: before.reverse = after'.reverse ++ sep :: before'.reverse := by
    simpa using congrArg List.reverse heq
  have hcut := (append_cons_inj (by simpa using hafter) (by simpa using hafter')).mp hreverse
  exact ⟨List.reverse_inj.mp hcut.2, List.reverse_inj.mp hcut.1⟩

end separator
