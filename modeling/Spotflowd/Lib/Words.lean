import Mathlib.Data.List.Basic

namespace words

variable {α : Type}

/-- Repetitions of one word. -/
def IsPower (word values : List α) : Prop := ∃ n, values = (List.replicate n word).flatten

theorem isPower_nil (word : List α) : IsPower word [] := ⟨0, rfl⟩

theorem isPower_self (word : List α) : IsPower word word := ⟨1, by simp⟩

theorem IsPower.append {word first second : List α} (hfirst : IsPower word first)
    (hsecond : IsPower word second) : IsPower word (first ++ second) := by
  obtain ⟨m, rfl⟩ := hfirst
  obtain ⟨n, rfl⟩ := hsecond
  exact ⟨m + n, by rw [List.replicate_add, List.flatten_append]⟩

theorem IsPower.comm {word first second : List α} (hfirst : IsPower word first)
    (hsecond : IsPower word second) : first ++ second = second ++ first := by
  obtain ⟨m, rfl⟩ := hfirst
  obtain ⟨n, rfl⟩ := hsecond
  rw [← List.flatten_append, ← List.flatten_append, ← List.replicate_add, ← List.replicate_add,
    Nat.add_comm]

/-- Two lists commute exactly when both repeat one word. -/
theorem append_comm_iff (first second : List α) :
    first ++ second = second ++ first ↔ ∃ word, IsPower word first ∧ IsPower word second := by
  constructor
  · induction hsize : first.length + second.length using Nat.strongRecOn generalizing first second with
    | ind size ih =>
      intro hcomm
      -- the shorter list is taken off the front of the longer one
      have hshorter : ∀ a b : List α, a ≠ [] → a.length + b.length = size → a <+: b →
          a ++ b = b ++ a → ∃ word, IsPower word a ∧ IsPower word b := by
        intro a b hne hlength hfront hab
        obtain ⟨rest, rfl⟩ := hfront
        have hpos := List.length_pos_iff.mpr hne
        rw [List.length_append] at hlength
        rw [List.append_assoc, List.append_cancel_left_eq] at hab
        obtain ⟨word, ha, hrest⟩ := ih _ (by omega) a rest rfl hab
        exact ⟨word, ha, ha.append hrest⟩
      by_cases hfirst : first = []
      · exact ⟨second, hfirst ▸ isPower_nil second, isPower_self second⟩
      by_cases hsecond : second = []
      · exact ⟨first, isPower_self first, hsecond ▸ isPower_nil first⟩
      rcases Nat.le_total first.length second.length with hle | hle
      · apply hshorter first second hfirst hsize _ hcomm
        exact List.prefix_of_prefix_length_le ⟨second, hcomm⟩ (List.prefix_append _ _) hle
      · obtain ⟨word, hb, ha⟩ := hshorter second first hsecond (by omega)
          (List.prefix_of_prefix_length_le ⟨first, hcomm.symm⟩ (List.prefix_append _ _) hle) hcomm.symm
        exact ⟨word, ha, hb⟩
  · rintro ⟨word, hfirst, hsecond⟩
    exact hfirst.comm hsecond

end words
