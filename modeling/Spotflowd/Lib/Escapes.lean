import Mathlib.Data.List.Basic
import Mathlib.Data.Nat.Basic
import Mathlib.Order.Basic

namespace escapes

/-- What escape sequences are made of: an escape is `esc`, or `hash` and then `octal`; it takes with
it either `bracket` and everything up to a `final` letter, or one letter. -/
structure Codes (α : Type) where
  esc : α
  hash : α
  octal : List α
  bracket : α
  final : α → Bool

namespace Codes

variable {α : Type} [DecidableEq α] (k : Codes α)

/-- What follows the escape that a text begins with. -/
def escape : List α → Option (List α)
  | [] => none
  | a :: rest =>
    if a = k.esc then some rest
    else if a = k.hash ∧ k.octal <+: rest then some (rest.drop k.octal.length)
    else none

def after_final : List α → List α
  | [] => []
  | a :: rest => if k.final a then rest else after_final rest

/-- What follows the sequence that an escape has begun. -/
def after_escape : List α → List α
  | [] => []
  | a :: rest => if a = k.bracket then k.after_final rest else rest

/-- The one letter that an escape takes with it. -/
def second : List α → List α
  | [] => []
  | a :: _ => if a = k.bracket then [] else [a]

theorem escape_length {a : α} {rest after : List α} (hescape : k.escape (a :: rest) = some after) :
    after.length ≤ rest.length := by
  rw [escape] at hescape
  by_cases hesc : a = k.esc
  · rw [if_pos hesc, Option.some.injEq] at hescape
    rw [hescape]
  · rw [if_neg hesc] at hescape
    by_cases hoctal : a = k.hash ∧ k.octal <+: rest
    · rw [if_pos hoctal, Option.some.injEq] at hescape
      rw [← hescape, List.length_drop]
      exact Nat.sub_le _ _
    · rw [if_neg hoctal] at hescape
      cases hescape

omit [DecidableEq α] in
theorem after_final_length (rest : List α) : (k.after_final rest).length ≤ rest.length := by
  induction rest with
  | nil => exact le_rfl
  | cons a rest ih =>
    rw [after_final]
    split
    · exact Nat.le_succ _
    · exact ih.trans (Nat.le_succ _)

theorem after_escape_length (after : List α) : (k.after_escape after).length ≤ after.length := by
  cases after with
  | nil => exact le_rfl
  | cons a rest =>
    rw [after_escape]
    split
    · exact (k.after_final_length rest).trans (Nat.le_succ _)
    · exact Nat.le_succ _

/-- A text without its escape sequences. -/
def strip : List α → List α
  | [] => []
  | a :: rest =>
    match hescape : k.escape (a :: rest) with
    | some after =>
      have := k.escape_length hescape
      have := k.after_escape_length after
      strip (k.after_escape after)
    | none => a :: strip rest
termination_by text => text.length
decreasing_by
  all_goals
    simp only [List.length_cons]
    omega

/-- The letters that its two-letter sequences have taken along. -/
def seconds : List α → List α
  | [] => []
  | a :: rest =>
    match hescape : k.escape (a :: rest) with
    | some after =>
      have := k.escape_length hescape
      have := k.after_escape_length after
      k.second after ++ seconds (k.after_escape after)
    | none => seconds rest
termination_by text => text.length
decreasing_by
  all_goals
    simp only [List.length_cons]
    omega

@[simp] theorem escape_nil : k.escape [] = none := rfl

@[simp] theorem strip_nil : k.strip [] = [] := by rw [strip]

@[simp] theorem seconds_nil : k.seconds [] = [] := by rw [seconds]

variable {k}

theorem strip_escape {text after : List α} (hescape : k.escape text = some after) :
    k.strip text = k.strip (k.after_escape after) := by
  cases text with
  | nil => cases hescape
  | cons a rest =>
    rw [strip]
    split
    · next found hfound =>
      rw [hescape, Option.some.injEq] at hfound
      rw [hfound]
    · next hnone =>
      rw [hescape] at hnone
      cases hnone

theorem strip_letter {a : α} {rest : List α} (hescape : k.escape (a :: rest) = none) :
    k.strip (a :: rest) = a :: k.strip rest := by
  rw [strip]
  split
  · next found hfound =>
    rw [hescape] at hfound
    cases hfound
  · rfl

theorem seconds_escape {text after : List α} (hescape : k.escape text = some after) :
    k.seconds text = k.second after ++ k.seconds (k.after_escape after) := by
  cases text with
  | nil => cases hescape
  | cons a rest =>
    rw [seconds]
    split
    · next found hfound =>
      rw [hescape, Option.some.injEq] at hfound
      rw [hfound]
    · next hnone =>
      rw [hescape] at hnone
      cases hnone

theorem seconds_letter {a : α} {rest : List α} (hescape : k.escape (a :: rest) = none) :
    k.seconds (a :: rest) = k.seconds rest := by
  rw [seconds]
  split
  · next found hfound =>
    rw [hescape] at hfound
    cases hfound
  · rfl

/-- A text is at its end, or begins with an escape, or with a letter. -/
theorem text_induction {P : List α → Prop} (nil : P [])
    (escape : ∀ text after, k.escape text = some after → P (k.after_escape after) → P text)
    (letter : ∀ a rest, k.escape (a :: rest) = none → P rest → P (a :: rest)) (text : List α) :
    P text := by
  induction hsize : text.length using Nat.strong_induction_on generalizing text with
  | h size ih =>
    cases text with
    | nil => exact nil
    | cons a rest =>
      rw [List.length_cons] at hsize
      cases hescape : k.escape (a :: rest) with
      | some after =>
        have hshort := k.escape_length hescape
        have hshorter := k.after_escape_length after
        exact escape _ after hescape (ih _ (by omega) _ rfl)
      | none => exact letter a rest hescape (ih _ (by omega) rest rfl)

theorem eq_cons_of_mem_second {a : α} {after : List α} (hmem : a ∈ k.second after) :
    ∃ rest, after = a :: rest := by
  cases after with
  | nil => cases hmem
  | cons b rest =>
    rw [second] at hmem
    split at hmem
    · cases hmem
    · exact ⟨rest, by rw [List.mem_singleton.mp hmem]⟩

variable (k) in
theorem strip_length (text : List α) : (k.strip text).length ≤ text.length := by
  induction text using text_induction (k := k) with
  | nil => rw [strip_nil]
  | escape text after hescape ih =>
    cases text with
    | nil => cases hescape
    | cons a rest =>
      have hshort := k.escape_length hescape
      have hshorter := k.after_escape_length after
      rw [strip_escape hescape, List.length_cons]
      omega
  | letter a rest hescape ih =>
    rw [strip_letter hescape, List.length_cons, List.length_cons]
    exact Nat.succ_le_succ ih

/-- Letters in which no escape begins are kept. -/
theorem strip_append {before rest : List α}
    (hplain : ∀ i < before.length, k.escape ((before ++ rest).drop i) = none) :
    k.strip (before ++ rest) = before ++ k.strip rest := by
  induction before with
  | nil => rfl
  | cons a before ih =>
    have hfirst : k.escape (a :: (before ++ rest)) = none := hplain 0 (Nat.zero_lt_succ _)
    have hothers : ∀ i < before.length, k.escape ((before ++ rest).drop i) = none :=
      fun i hi => hplain (i + 1) (Nat.succ_lt_succ hi)
    rw [List.cons_append, strip_letter hfirst, ih hothers, List.cons_append]

theorem seconds_append {before rest : List α}
    (hplain : ∀ i < before.length, k.escape ((before ++ rest).drop i) = none) :
    k.seconds (before ++ rest) = k.seconds rest := by
  induction before with
  | nil => rfl
  | cons a before ih =>
    have hfirst : k.escape (a :: (before ++ rest)) = none := hplain 0 (Nat.zero_lt_succ _)
    have hothers : ∀ i < before.length, k.escape ((before ++ rest).drop i) = none :=
      fun i hi => hplain (i + 1) (Nat.succ_lt_succ hi)
    rw [List.cons_append, seconds_letter hfirst, ih hothers]

theorem escape_eq_none_iff {text : List α} :
    k.escape text = none ↔ ¬ [k.esc] <+: text ∧ ¬ (k.hash :: k.octal) <+: text := by
  cases text with
  | nil => simp
  | cons a rest =>
    rw [escape, List.cons_prefix_cons, List.cons_prefix_cons, eq_comm (a := k.esc),
      eq_comm (a := k.hash)]
    by_cases hesc : a = k.esc
    · simp [hesc]
    · rw [if_neg hesc]
      by_cases hoctal : a = k.hash ∧ k.octal <+: rest
      · simp [hoctal]
      · simp [hesc, hoctal]

/-- No escape begins with a letter that is neither code. -/
theorem escape_of_ne {a : α} (hesc : a ≠ k.esc) (hhash : a ≠ k.hash) (rest : List α) :
    k.escape (a :: rest) = none := by
  rw [escape, if_neg hesc, if_neg fun h => hhash h.1]

theorem escape_append_of_ne {letters : List α} (hletters : ∀ a ∈ letters, a ≠ k.esc ∧ a ≠ k.hash)
    (rest : List α) : ∀ i < letters.length, k.escape ((letters ++ rest).drop i) = none := by
  intro i hi
  obtain ⟨hesc, hhash⟩ := hletters _ (List.getElem_mem hi)
  rw [List.drop_append_of_le_length hi.le, List.drop_eq_getElem_cons hi, List.cons_append]
  exact escape_of_ne hesc hhash _

/-- Letters that are neither code are kept. -/
theorem strip_append_of_ne {letters : List α} (hletters : ∀ a ∈ letters, a ≠ k.esc ∧ a ≠ k.hash)
    (rest : List α) : k.strip (letters ++ rest) = letters ++ k.strip rest :=
  strip_append (escape_append_of_ne hletters rest)

theorem seconds_append_of_ne {letters : List α} (hletters : ∀ a ∈ letters, a ≠ k.esc ∧ a ≠ k.hash)
    (rest : List α) : k.seconds (letters ++ rest) = k.seconds rest :=
  seconds_append (escape_append_of_ne hletters rest)

omit [DecidableEq α] in
theorem after_final_append {letters : List α} (hletters : ∀ a ∈ letters, k.final a = false)
    (rest : List α) : k.after_final (letters ++ rest) = k.after_final rest := by
  induction letters with
  | nil => rfl
  | cons a letters ih =>
    rw [List.cons_append, after_final, if_neg (by simp [hletters a List.mem_cons_self])]
    exact ih fun b hb => hletters b (List.mem_cons_of_mem a hb)

variable (k) in
/-- A text in which neither code occurs. -/
def Plain (text : List α) : Prop := k.esc ∉ text ∧ ¬ (k.hash :: k.octal) <:+: text

omit [DecidableEq α] in
theorem Plain.inside {piece text : List α} (hplain : k.Plain text) (hpiece : piece <:+: text) :
    k.Plain piece :=
  ⟨fun hmem => hplain.1 (hpiece.subset hmem), fun hoctal => hplain.2 (hoctal.trans hpiece)⟩

omit [DecidableEq α] in
theorem plain_nil : k.Plain [] := by
  refine ⟨List.not_mem_nil, fun hoctal => ?_⟩
  cases List.infix_nil.mp hoctal

theorem plain_cons_iff {a : α} {rest : List α} :
    k.Plain (a :: rest) ↔ k.escape (a :: rest) = none ∧ k.Plain rest := by
  have hnil : [] <+: rest := List.nil_prefix
  rw [escape_eq_none_iff, List.cons_prefix_cons, Plain, Plain, List.mem_cons, List.infix_cons_iff]
  simp only [hnil, and_true, not_or]
  tauto

/-- Nothing is taken from a text exactly when no code occurs in it. -/
theorem strip_eq_self_iff {text : List α} : k.strip text = text ↔ k.Plain text := by
  induction text using text_induction (k := k) with
  | nil => exact iff_of_true k.strip_nil plain_nil
  | escape text after hescape ih =>
    cases text with
    | nil => cases hescape
    | cons a rest =>
      refine iff_of_false (fun hsame => ?_) fun hplain => ?_
      · have hshort := k.escape_length hescape
        have hshorter := k.after_escape_length after
        have hstrip := k.strip_length (k.after_escape after)
        rw [strip_escape hescape] at hsame
        rw [hsame, List.length_cons] at hstrip
        omega
      · rw [(plain_cons_iff.mp hplain).1] at hescape
        cases hescape
  | letter a rest hescape ih =>
    rw [strip_letter hescape, List.cons_inj_right, ih, plain_cons_iff, and_iff_right hescape]

variable (k) in
/-- The runs of letters that are kept, with a sequence between each of them and the next one. -/
def pieces : List α → List (List α)
  | [] => [[]]
  | a :: rest =>
    match hescape : k.escape (a :: rest) with
    | some after =>
      have := k.escape_length hescape
      have := k.after_escape_length after
      [] :: pieces (k.after_escape after)
    | none => (pieces rest).modifyHead (a :: ·)
termination_by text => text.length
decreasing_by
  all_goals
    simp only [List.length_cons]
    omega

@[simp] theorem pieces_nil : k.pieces [] = [[]] := by rw [pieces]

theorem pieces_escape {text after : List α} (hescape : k.escape text = some after) :
    k.pieces text = [] :: k.pieces (k.after_escape after) := by
  cases text with
  | nil => cases hescape
  | cons a rest =>
    rw [pieces]
    split
    · next found hfound =>
      rw [hescape, Option.some.injEq] at hfound
      rw [hfound]
    · next hnone =>
      rw [hescape] at hnone
      cases hnone

theorem pieces_letter {a : α} {rest : List α} (hescape : k.escape (a :: rest) = none) :
    k.pieces (a :: rest) = (k.pieces rest).modifyHead (a :: ·) := by
  rw [pieces]
  split
  · next found hfound =>
    rw [hescape] at hfound
    cases hfound
  · rfl

/-- There is a first piece, and the text begins with it. -/
theorem pieces_eq_cons (text : List α) :
    ∃ piece more, k.pieces text = piece :: more ∧ piece <+: text := by
  induction text using text_induction (k := k) with
  | nil => exact ⟨[], [], pieces_nil, List.prefix_rfl⟩
  | escape text after hescape ih => exact ⟨[], _, pieces_escape hescape, List.nil_prefix⟩
  | letter a rest hescape ih =>
    obtain ⟨piece, more, hpieces, hstarts⟩ := ih
    refine ⟨a :: piece, more, ?_, List.cons_prefix_cons.mpr ⟨rfl, hstarts⟩⟩
    rw [pieces_letter hescape, hpieces]
    rfl

/-- A text without its sequences is its pieces, one after another. -/
theorem strip_eq_flatten (text : List α) : k.strip text = (k.pieces text).flatten := by
  induction text using text_induction (k := k) with
  | nil => rw [strip_nil, pieces_nil, List.flatten_singleton]
  | escape text after hescape ih =>
    rw [strip_escape hescape, pieces_escape hescape, List.flatten_cons, List.nil_append, ih]
  | letter a rest hescape ih =>
    obtain ⟨piece, more, hpieces, -⟩ := pieces_eq_cons (k := k) rest
    rw [strip_letter hescape, pieces_letter hescape, ih, hpieces]
    rfl

/-- No code occurs in a piece. -/
theorem plain_of_mem_pieces {text piece : List α} (hmem : piece ∈ k.pieces text) : k.Plain piece := by
  induction text using text_induction (k := k) generalizing piece with
  | nil =>
    rw [pieces_nil, List.mem_singleton] at hmem
    rw [hmem]
    exact plain_nil
  | escape text after hescape ih =>
    rw [pieces_escape hescape] at hmem
    obtain rfl | hmem := List.mem_cons.mp hmem
    · exact plain_nil
    · exact ih hmem
  | letter a rest hescape ih =>
    obtain ⟨first, more, hpieces, hstarts⟩ := pieces_eq_cons (k := k) rest
    rw [pieces_letter hescape, hpieces] at hmem
    obtain rfl | hmem := List.mem_cons.mp hmem
    · refine plain_cons_iff.mpr ⟨?_, ih (hpieces ▸ List.mem_cons_self)⟩
      rw [escape_eq_none_iff] at hescape ⊢
      have hlonger : a :: first <+: a :: rest := List.cons_prefix_cons.mpr ⟨rfl, hstarts⟩
      exact ⟨fun h => hescape.1 (h.trans hlonger), fun h => hescape.2 (h.trans hlonger)⟩
    · exact ih (hpieces ▸ List.mem_cons_of_mem _ hmem)

/-- What is left has no `esc`. -/
theorem esc_not_mem_strip (text : List α) : k.esc ∉ k.strip text := by
  rw [strip_eq_flatten]
  intro hmem
  obtain ⟨piece, hpiece, hesc⟩ := List.mem_flatten.mp hmem
  exact (plain_of_mem_pieces hpiece).1 hesc

end Codes

end escapes
