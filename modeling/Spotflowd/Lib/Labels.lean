import Mathlib.Data.List.Basic
import Mathlib.Data.List.Nodup

namespace labels

variable {α : Type} [DecidableEq α]

/-- Each item with the number of its occurrences before it, those that were passed included. -/
def occurrences (passed : List α) : List α → List (α × Nat)
  | [] => []
  | a :: rest => (a, passed.count a) :: occurrences (a :: passed) rest

theorem map_fst_occurrences (passed items : List α) : (occurrences passed items).map Prod.fst = items := by
  induction items generalizing passed with
  | nil => rfl
  | cons a rest ih => rw [occurrences, List.map_cons, ih]

theorem mem_occurrences {passed items : List α} {a : α} {n : Nat} :
    (a, n) ∈ occurrences passed items ↔
      passed.count a ≤ n ∧ n < passed.count a + items.count a := by
  induction items generalizing passed with
  | nil =>
    rw [occurrences, List.count_nil, Nat.add_zero]
    refine iff_of_false List.not_mem_nil ?_
    rintro ⟨hle, hlt⟩
    omega
  | cons b rest ih =>
    rw [occurrences, List.mem_cons, ih, Prod.mk.injEq]
    by_cases hab : a = b
    · subst hab
      rw [List.count_cons_self, List.count_cons_self, and_iff_right rfl]
      omega
    · rw [List.count_cons_of_ne (Ne.symm hab), List.count_cons_of_ne (Ne.symm hab)]
      simp [hab]

/-- No item occurs twice with the same number. -/
theorem nodup_occurrences (passed items : List α) : (occurrences passed items).Nodup := by
  induction items generalizing passed with
  | nil => exact List.nodup_nil
  | cons a rest ih =>
    rw [occurrences, List.nodup_cons]
    refine ⟨fun hmem => ?_, ih (a :: passed)⟩
    have hle := (mem_occurrences.mp hmem).1
    rw [List.count_cons_self] at hle
    omega

/-- An item that occurs several times is told apart by its number. -/
def label (number : α → Nat → α) (items : List α) (occurrence : α × Nat) : α :=
  if 1 < items.count occurrence.1 then number occurrence.1 occurrence.2 else occurrence.1

def labelled (number : α → Nat → α) (items : List α) : List α :=
  (occurrences [] items).map (label number items)

theorem mem_occurrences_nil {items : List α} {a : α} {n : Nat} :
    (a, n) ∈ occurrences [] items ↔ n < items.count a := by
  rw [mem_occurrences, List.count_nil]
  omega

/-- All labels are different if and only if no item that occurs once is already the label of one that
occurs several times. -/
theorem nodup_labelled_iff {number : α → Nat → α}
    (hnumber : ∀ a b n k, number a n = number b k → a = b ∧ n = k) (items : List α) :
    (labelled number items).Nodup ↔
      ∀ a ∈ items, items.count a = 1 → ∀ b ∈ items, 1 < items.count b →
        ∀ n < items.count b, a ≠ number b n := by
  rw [labelled, List.nodup_map_iff_inj_on (nodup_occurrences [] items)]
  constructor
  · intro hinj a ha hone b hb hmore n hn hsame
    have hlabel : label number items (a, 0) = label number items (b, n) := by
      rw [label, label, if_neg (hone.symm ▸ Nat.lt_irrefl 1), if_pos hmore, hsame]
    have heq := hinj (a, 0) (mem_occurrences_nil.mpr (by omega)) (b, n) (mem_occurrences_nil.mpr hn) hlabel
    obtain ⟨rfl, -⟩ := Prod.mk.inj heq
    omega
  · rintro hapart ⟨a, n⟩ ha ⟨b, k⟩ hb hlabel
    rw [mem_occurrences_nil] at ha hb
    have ha' : a ∈ items := List.count_pos_iff.mp (by omega)
    have hb' : b ∈ items := List.count_pos_iff.mp (by omega)
    rw [label, label] at hlabel
    dsimp only at hlabel
    split at hlabel
    · next hmore =>
      split at hlabel
      · obtain ⟨rfl, rfl⟩ := hnumber a b n k hlabel
        rfl
      · exact absurd hlabel.symm (hapart b hb' (by omega) a ha' hmore n ha)
    · split at hlabel
      · next hmore => exact absurd hlabel (hapart a ha' (by omega) b hb' hmore k hb)
      · subst hlabel
        obtain rfl : n = k := by omega
        rfl

end labels
