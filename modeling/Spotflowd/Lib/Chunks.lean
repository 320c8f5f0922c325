import Mathlib.Data.List.Basic

namespace chunked

variable {α : Type}

/-- Rust's `slice::chunks`: consecutive pieces of `size` elements, the last one
possibly shorter. `size` must not be zero (Rust panics there). -/
def chunks (size : Nat) (values : List α) : List (List α) :=
  (List.range ((values.length + size - 1) / size)).map fun i =>
    (values.drop (size * i)).take size

@[simp] theorem chunks_nil (size : Nat) : chunks size ([] : List α) = [] := by
  unfold chunks
  cases size with
  | zero => simp
  | succ n => simp [Nat.div_eq_of_lt]

/-- The defining recursion: one piece off the front, then the rest. -/
theorem chunks_eq_cons {size : Nat} (hsize : 0 < size) {values : List α} (hvalues : values ≠ []) :
    chunks size values = values.take size :: chunks size (values.drop size) := by
  have hlength : 0 < values.length := List.length_pos_iff.mpr hvalues
  have hcount : (values.length + size - 1) / size =
      ((values.drop size).length + size - 1) / size + 1 := by
    rw [List.length_drop]
    by_cases hle : values.length ≤ size
    · have hone : (values.length + size - 1) / size = 1 := by
        rw [Nat.div_eq_iff hsize]
        omega
      have hzero : (values.length - size + size - 1) / size = 0 := by
        apply Nat.div_eq_of_lt
        omega
      omega
    · rw [show values.length + size - 1 = (values.length - size + size - 1) + size by omega,
        Nat.add_div_right _ hsize]
  unfold chunks
  rw [hcount, List.range_succ_eq_map, List.map_cons, List.map_map]
  rw [List.cons.injEq]
  constructor
  · simp
  · apply List.map_congr_left
    intro i _
    simp only [Function.comp_apply, List.drop_drop, Nat.mul_succ]
    rw [Nat.add_comm]

/-- Induction along the pieces. -/
theorem chunks_induction {size : Nat} (hsize : 0 < size) {P : List α → Prop} (hnil : P [])
    (hcons : ∀ values, values ≠ [] → P (values.drop size) → P values) (values : List α) :
    P values := by
  induction hlength : values.length using Nat.strongRecOn generalizing values with
  | ind n ih =>
    by_cases hempty : values = []
    · exact hempty ▸ hnil
    · have hpos : 0 < values.length := List.length_pos_iff.mpr hempty
      apply hcons values hempty
      exact ih _ (by rw [List.length_drop]; omega) _ rfl

theorem flatten_chunks {size : Nat} (hsize : 0 < size) (values : List α) :
    (chunks size values).flatten = values := by
  induction values using chunks_induction hsize with
  | hnil => simp
  | hcons values hvalues ih =>
    rw [chunks_eq_cons hsize hvalues, List.flatten_cons, ih, List.take_append_drop]

theorem length_of_mem_chunks {size : Nat} (hsize : 0 < size) {values piece : List α}
    (hmem : piece ∈ chunks size values) : 1 ≤ piece.length ∧ piece.length ≤ size := by
  induction values using chunks_induction hsize with
  | hnil => simp at hmem
  | hcons values hvalues ih =>
    rw [chunks_eq_cons hsize hvalues, List.mem_cons] at hmem
    rcases hmem with rfl | hmem
    · have hpos : 0 < values.length := List.length_pos_iff.mpr hvalues
      rw [List.length_take]
      omega
    · exact ih hmem

theorem ne_nil_of_mem_chunks {size : Nat} (hsize : 0 < size) {values piece : List α}
    (hmem : piece ∈ chunks size values) : piece ≠ [] := by
  have hlength := (length_of_mem_chunks hsize hmem).1
  rintro rfl
  simp at hlength

/-- The pieces around a given one are determined by its position: those before
it are full, and those after it are the pieces of what remains. -/
theorem chunks_split {size : Nat} (hsize : 0 < size) {values : List α}
    {before after : List (List α)} {piece : List α}
    (hsplit : chunks size values = before ++ piece :: after) :
    before.flatten = values.take (size * before.length) ∧
      size * before.length < values.length ∧
      piece = (values.drop (size * before.length)).take size ∧
      after = chunks size (values.drop (size * before.length + size)) := by
  induction before generalizing values with
  | nil =>
    have hvalues : values ≠ [] := by
      rintro rfl
      simp at hsplit
    rw [chunks_eq_cons hsize hvalues, List.nil_append, List.cons.injEq] at hsplit
    obtain ⟨rfl, rfl⟩ := hsplit
    simpa [List.length_pos_iff] using hvalues
  | cons first before ih =>
    have hvalues : values ≠ [] := by
      rintro rfl
      simp at hsplit
    rw [chunks_eq_cons hsize hvalues, List.cons_append, List.cons.injEq] at hsplit
    obtain ⟨rfl, hrest⟩ := hsplit
    obtain ⟨hflatten, hlength, hpiece, hafter⟩ := ih hrest
    rw [List.length_drop] at hlength
    have hmul : size * (before.length + 1) = size + size * before.length := by
      rw [Nat.mul_succ, Nat.add_comm]
    simp only [List.length_cons, hmul]
    refine ⟨?_, by omega, ?_, ?_⟩
    · rw [List.flatten_cons, hflatten, ← List.take_add]
    · rw [hpiece, List.drop_drop]
    · rw [hafter, List.drop_drop, Nat.add_assoc]

end chunked
