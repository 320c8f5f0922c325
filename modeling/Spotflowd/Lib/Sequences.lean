import Spotflowd.Lib.Escapes
import Mathlib.Data.List.Infix

namespace escapes

namespace Codes

variable {α : Type} {k : Codes α}

/-- Codes that cannot be taken for one another. -/
structure Apart (k : Codes α) : Prop where
  esc_ne_hash : k.esc ≠ k.hash
  bracket_ne_esc : k.bracket ≠ k.esc
  bracket_ne_hash : k.bracket ≠ k.hash
  esc_not_mem_octal : k.esc ∉ k.octal
  hash_not_mem_octal : k.hash ∉ k.octal
  esc_not_final : k.final k.esc = false
  hash_not_final : k.final k.hash = false
  bracket_not_final : k.final k.bracket = false
  octal_not_final : ∀ a ∈ k.octal, k.final a = false

/-- A bracketed sequence: how its escape is spelled, and what stands between the bracket and the
last letter. -/
structure Sequence (k : Codes α) where
  spelled_out : Bool
  body : List α
  last : α
  body_not_final : ∀ a ∈ body, k.final a = false

def Sequence.letters (q : k.Sequence) : List α :=
  (if q.spelled_out then k.hash :: k.octal else [k.esc]) ++ k.bracket :: (q.body ++ [q.last])

/-- A sequence and the text up to the next one. -/
structure Segment (k : Codes α) extends Sequence k where
  text : List α
  text_plain : k.Plain text

def Segment.letters (g : k.Segment) : List α := g.toSequence.letters ++ g.text

/-- What is left of the text after a sequence: a sequence that its last letter does not end goes on
in the text. -/
def Segment.left (g : k.Segment) : List α :=
  if k.final g.last then g.text else k.after_final g.text

variable (k) in
theorem after_final_suffix (text : List α) : k.after_final text <:+ text := by
  induction text with
  | nil => exact List.suffix_rfl
  | cons a rest ih =>
    rw [after_final]
    split
    · exact List.suffix_cons a rest
    · exact ih.trans (List.suffix_cons a rest)

/-- The letters after a text are still there when a letter of the text has ended the sequence. -/
theorem after_final_append_of_mem {text : List α} (hfinal : ∃ a ∈ text, k.final a = true)
    (rest : List α) : k.after_final (text ++ rest) = k.after_final text ++ rest := by
  induction text with
  | nil =>
    obtain ⟨a, hmem, -⟩ := hfinal
    cases hmem
  | cons a text ih =>
    rw [List.cons_append, after_final, after_final]
    split
    · rfl
    · next hnot =>
      obtain ⟨b, hmem, hb⟩ := hfinal
      obtain rfl | hmem := List.mem_cons.mp hmem
      · exact absurd hb hnot
      · exact ih ⟨b, hmem, hb⟩

theorem after_final_eq_nil {text : List α} (hnone : ∀ a ∈ text, k.final a = false) :
    k.after_final text = [] := by
  have hend := after_final_append hnone []
  rwa [List.append_nil] at hend

/-- Something of a text is always lost when a sequence goes on in it. -/
theorem after_final_eq_self_iff {text : List α} : k.after_final text = text ↔ text = [] := by
  constructor
  · intro hsame
    cases text with
    | nil => rfl
    | cons a rest =>
      have hlength := congrArg List.length hsame
      have hrest := k.after_final_length rest
      rw [after_final] at hlength
      split at hlength
      · rw [List.length_cons] at hlength
        omega
      · rw [List.length_cons] at hlength
        omega
  · rintro rfl
    rfl

theorem Segment.left_suffix (g : k.Segment) : g.left <:+ g.text := by
  rw [Segment.left]
  split
  · exact List.suffix_rfl
  · exact k.after_final_suffix g.text

theorem Segment.left_eq_text_iff (g : k.Segment) : g.left = g.text ↔ k.final g.last = true ∨ g.text = [] := by
  rw [Segment.left]
  split
  · next hlast => exact iff_of_true rfl (Or.inl hlast)
  · next hlast => rw [after_final_eq_self_iff, or_iff_right hlast]

theorem flatMap_left_length (segments : List k.Segment) :
    (segments.flatMap Segment.left).length ≤ (segments.flatMap Segment.text).length := by
  induction segments with
  | nil => exact le_rfl
  | cons g segments ih =>
    rw [List.flatMap_cons, List.flatMap_cons, List.length_append, List.length_append]
    exact Nat.add_le_add g.left_suffix.length_le ih

/-- All the text is left if and only if all of each piece is. -/
theorem flatMap_left_eq_iff (segments : List k.Segment) :
    segments.flatMap Segment.left = segments.flatMap Segment.text ↔ ∀ g ∈ segments, g.left = g.text := by
  induction segments with
  | nil => simp
  | cons g segments ih =>
    rw [List.forall_mem_cons, List.flatMap_cons, List.flatMap_cons]
    constructor
    · intro hsame
      have hlength := congrArg List.length hsame
      have hfirst := g.left_suffix.length_le
      have hothers := flatMap_left_length segments
      rw [List.length_append, List.length_append] at hlength
      obtain ⟨hleft, hrest⟩ := List.append_inj hsame (by omega)
      exact ⟨hleft, ih.mp hrest⟩
    · rintro ⟨hfirst, hothers⟩
      rw [hfirst, ih.mpr hothers]

/-- After a sequence that an escape has begun, or that goes on, only its last letter can end it. -/
theorem after_final_body (q : k.Sequence) (rest : List α) :
    k.after_final (q.body ++ q.last :: rest) = if k.final q.last then rest else k.after_final rest := by
  rw [after_final_append q.body_not_final, after_final]

theorem head_letters (segments : List k.Segment) (hapart : k.Apart) :
    ∀ a ∈ (segments.flatMap Segment.letters).head?, a ∉ k.octal := by
  intro a hhead
  cases segments with
  | nil => cases hhead
  | cons g segments =>
    rw [List.flatMap_cons, Segment.letters, Sequence.letters] at hhead
    cases hspelled : g.spelled_out with
    | false =>
      rw [hspelled] at hhead
      cases hhead
      exact hapart.esc_not_mem_octal
    | true =>
      rw [hspelled] at hhead
      cases hhead
      exact hapart.hash_not_mem_octal

/-- What is put together with letters that do not continue it was there before. -/
theorem prefix_of_prefix_append {p before rest : List α} (hstart : ∀ a ∈ rest.head?, a ∉ p)
    (hp : p <+: before ++ rest) : p <+: before := by
  obtain hp' | ⟨more, rfl⟩ := List.prefix_or_prefix_of_prefix hp (List.prefix_append before rest)
  · exact hp'
  · have hmore : more <+: rest := (List.prefix_append_right_inj before).mp hp
    cases more with
    | nil => simp
    | cons a more =>
      obtain ⟨tail, rfl⟩ := hmore
      exact absurd (List.mem_append_right _ List.mem_cons_self) (hstart a rfl)

/-- A sequence inside one that goes on is passed over like any other letters. -/
theorem Sequence.after_final_letters (q : k.Sequence) (rest : List α) (hapart : k.Apart) :
    k.after_final (q.letters ++ rest) = if k.final q.last then rest else k.after_final rest := by
  have hbegin : ∀ a ∈ (if q.spelled_out then k.hash :: k.octal else [k.esc]) ++ [k.bracket],
      k.final a = false := by
    intro a hmem
    obtain hmem | hmem := List.mem_append.mp hmem
    · split at hmem
      · obtain rfl | hmem := List.mem_cons.mp hmem
        · exact hapart.hash_not_final
        · exact hapart.octal_not_final a hmem
      · rw [List.mem_singleton.mp hmem]
        exact hapart.esc_not_final
    · rw [List.mem_singleton.mp hmem]
      exact hapart.bracket_not_final
  have hletters : q.letters ++ rest =
      ((if q.spelled_out then k.hash :: k.octal else [k.esc]) ++ [k.bracket]) ++
        (q.body ++ q.last :: rest) := by
    simp [Sequence.letters]
  rw [hletters, after_final_append hbegin, after_final_body]

section Scan

variable [DecidableEq α]

theorem escape_of_plain_append {first rest : List α} (hfirst : k.Plain first)
    (hstart : ∀ a ∈ rest.head?, a ∉ k.octal) :
    ∀ i < first.length, k.escape ((first ++ rest).drop i) = none := by
  intro i hi
  have hinside := (List.drop_suffix i first).isInfix
  rw [List.drop_append_of_le_length hi.le]
  rw [List.drop_eq_getElem_cons hi] at hinside ⊢
  have hnone := (plain_cons_iff.mp (hfirst.inside hinside)).1
  rw [escape_eq_none_iff, List.cons_prefix_cons, List.cons_prefix_cons] at hnone
  rw [List.cons_append, escape_eq_none_iff, List.cons_prefix_cons, List.cons_prefix_cons]
  exact ⟨fun h => hnone.1 ⟨h.1, List.nil_prefix⟩,
    fun h => hnone.2 ⟨h.1, prefix_of_prefix_append hstart h.2⟩⟩

theorem Sequence.escape_letters (q : k.Sequence) (rest : List α) (hapart : k.Apart) :
    k.escape (q.letters ++ rest) = some (k.bracket :: (q.body ++ q.last :: rest)) := by
  rw [Sequence.letters]
  cases q.spelled_out with
  | false => simp [escape]
  | true =>
    have hhash : k.hash ≠ k.esc := hapart.esc_ne_hash.symm
    have hoctal : k.octal <+: k.octal ++ (k.bracket :: (q.body ++ q.last :: rest)) := List.prefix_append _ _
    simp only [if_true, List.cons_append, List.append_assoc, List.nil_append, escape, if_neg hhash,
      hoctal, and_self]
    rw [List.drop_left]

theorem Sequence.after_escape_letters (q : k.Sequence) (rest : List α) :
    k.after_escape (k.bracket :: (q.body ++ q.last :: rest)) =
      if k.final q.last then rest else k.after_final rest := by
  rw [after_escape, if_pos rfl, after_final_body]

/-- Plain text in front of sequences is kept, and no two-letter sequence begins in it. -/
theorem strip_plain_append {first : List α} (hfirst : k.Plain first) (segments : List k.Segment)
    (hapart : k.Apart) :
    k.strip (first ++ segments.flatMap Segment.letters) =
        first ++ k.strip (segments.flatMap Segment.letters) ∧
      k.seconds (first ++ segments.flatMap Segment.letters) =
        k.seconds (segments.flatMap Segment.letters) :=
  have hnone := escape_of_plain_append hfirst (head_letters segments hapart)
  ⟨strip_append hnone, seconds_append hnone⟩

/-- The sequences are taken out of the text, and with each of them what it goes on in. Beside the scan
of the segments themselves stands the scan of what a sequence before them leaves. -/
theorem strip_segments (segments : List k.Segment) (hapart : k.Apart) :
    (k.strip (segments.flatMap Segment.letters) = segments.flatMap Segment.left ∧
      k.seconds (segments.flatMap Segment.letters) = []) ∧
    (k.strip (k.after_final (segments.flatMap Segment.letters)) = segments.flatMap Segment.left ∧
      k.seconds (k.after_final (segments.flatMap Segment.letters)) = []) := by
  induction segments with
  | nil => simp [after_final]
  | cons g segments ih =>
    obtain ⟨⟨hstrip, hseconds⟩, hstripped, hnone⟩ := ih
    -- what comes after the last letter of the first sequence
    have hafter : k.strip (if k.final g.last then g.text ++ segments.flatMap Segment.letters
          else k.after_final (g.text ++ segments.flatMap Segment.letters)) =
        g.left ++ segments.flatMap Segment.left ∧
      k.seconds (if k.final g.last then g.text ++ segments.flatMap Segment.letters
          else k.after_final (g.text ++ segments.flatMap Segment.letters)) = [] := by
      rw [Segment.left]
      split
      · obtain ⟨hkept, hsame⟩ := strip_plain_append g.text_plain segments hapart
        rw [hkept, hsame, hstrip]
        exact ⟨rfl, hseconds⟩
      · by_cases hfinal : ∃ a ∈ g.text, k.final a = true
        · have hplain := g.text_plain.inside (k.after_final_suffix g.text).isInfix
          obtain ⟨hkept, hsame⟩ := strip_plain_append hplain segments hapart
          rw [after_final_append_of_mem hfinal, hkept, hsame, hstrip]
          exact ⟨rfl, hseconds⟩
        · have hnone' : ∀ a ∈ g.text, k.final a = false := fun a ha =>
            Bool.eq_false_iff.mpr fun hb => hfinal ⟨a, ha, hb⟩
          rw [after_final_append hnone', after_final_eq_nil hnone', List.nil_append]
          exact ⟨hstripped, hnone⟩
    have hescape := g.escape_letters (g.text ++ segments.flatMap Segment.letters) hapart
    have hletters : (g :: segments).flatMap Segment.letters =
        g.toSequence.letters ++ (g.text ++ segments.flatMap Segment.letters) := by
      rw [List.flatMap_cons, Segment.letters, List.append_assoc]
    rw [hletters, List.flatMap_cons, strip_escape hescape, seconds_escape hescape,
      g.after_escape_letters, g.after_final_letters _ hapart]
    exact ⟨⟨hafter.1, by rw [hafter.2, second, if_pos rfl, List.append_nil]⟩, hafter⟩

variable (k) in
def respell_letter (a : α) : List α := if a = k.esc then k.hash :: k.octal else [a]

variable (k) in
/-- A text with each `esc` spelled out. -/
def respell (text : List α) : List α := text.flatMap k.respell_letter

@[simp] theorem respell_nil : k.respell [] = [] := rfl

theorem respell_esc (rest : List α) : k.respell (k.esc :: rest) = k.hash :: (k.octal ++ k.respell rest) := by
  rw [respell, List.flatMap_cons, respell_letter, if_pos rfl]
  rfl

theorem respell_cons {a : α} (ha : a ≠ k.esc) (rest : List α) :
    k.respell (a :: rest) = a :: k.respell rest := by
  rw [respell, List.flatMap_cons, respell_letter, if_neg ha]
  rfl

/-- Letters other than `hash` that a text begins with after it is respelled were there before. -/
theorem prefix_of_prefix_respell {p text : List α} (hp : k.hash ∉ p) (hstarts : p <+: k.respell text) :
    p <+: text := by
  induction text generalizing p with
  | nil => exact hstarts
  | cons a rest ih =>
    cases p with
    | nil => exact List.nil_prefix
    | cons b p =>
      by_cases ha : a = k.esc
      · rw [ha, respell_esc, List.cons_prefix_cons] at hstarts
        exact absurd hstarts.1 (Ne.symm (List.ne_of_not_mem_cons hp))
      · rw [respell_cons ha, List.cons_prefix_cons] at hstarts
        exact List.cons_prefix_cons.mpr ⟨hstarts.1, ih (List.not_mem_of_not_mem_cons hp) hstarts.2⟩

/-- A sequence ends where it did. -/
theorem after_final_respell (hapart : k.Apart) (text : List α) :
    k.after_final (k.respell text) = k.respell (k.after_final text) := by
  induction text with
  | nil => rfl
  | cons a rest ih =>
    by_cases ha : a = k.esc
    · have hspelled : ∀ b ∈ k.hash :: k.octal, k.final b = false :=
        List.forall_mem_cons.mpr ⟨hapart.hash_not_final, hapart.octal_not_final⟩
      rw [ha, respell_esc, ← List.cons_append, after_final_append hspelled, ih, after_final,
        if_neg (by simp [hapart.esc_not_final])]
    · rw [respell_cons ha, after_final, after_final]
      split
      · rfl
      · exact ih

/-- What is left over of a respelled `esc` that an escape takes along. -/
def left_over (k : Codes α) (letters : List α) : List α := letters.flatMap fun a => if a = k.esc then k.octal else []

/-- The scan goes on as before, after what is left over. -/
theorem after_escape_respell (hapart : k.Apart) (after : List α) :
    k.after_escape (k.respell after) = k.left_over (k.second after) ++ k.respell (k.after_escape after) := by
  cases after with
  | nil => rfl
  | cons a rest =>
    rw [second, after_escape]
    by_cases ha : a = k.esc
    · subst ha
      have hbracket : k.esc ≠ k.bracket := hapart.bracket_ne_esc.symm
      have hhash : k.hash ≠ k.bracket := hapart.bracket_ne_hash.symm
      rw [respell_esc, after_escape, if_neg hhash, if_neg hbracket, if_neg hbracket]
      simp [left_over]
    · rw [respell_cons ha, after_escape]
      by_cases hbracket : a = k.bracket
      · rw [if_pos hbracket, if_pos hbracket, if_pos hbracket, after_final_respell hapart]
        rfl
      · rw [if_neg hbracket, if_neg hbracket, if_neg hbracket]
        simp [left_over, ha]

theorem escape_respell {text after : List α} (hspelled : ¬ (k.hash :: k.octal) <:+: text)
    (hapart : k.Apart) (hescape : k.escape text = some after) :
    k.escape (k.respell text) = some (k.respell after) := by
  cases text with
  | nil => cases hescape
  | cons a rest =>
    rw [escape] at hescape
    by_cases ha : a = k.esc
    · subst ha
      rw [if_pos rfl, Option.some.injEq] at hescape
      rw [respell_esc, escape, if_neg hapart.esc_ne_hash.symm, if_pos ⟨rfl, List.prefix_append _ _⟩,
        List.drop_left, hescape]
    · rw [if_neg ha] at hescape
      split at hescape
      · next hstarts =>
        exact absurd (List.cons_prefix_cons.mpr ⟨hstarts.1.symm, hstarts.2⟩).isInfix hspelled
      · cases hescape

theorem escape_respell_eq_none {a : α} {rest : List α} (hapart : k.Apart)
    (hescape : k.escape (a :: rest) = none) : k.escape (a :: k.respell rest) = none := by
  rw [escape_eq_none_iff, List.cons_prefix_cons, List.cons_prefix_cons] at hescape ⊢
  exact ⟨fun h => hescape.1 ⟨h.1, List.nil_prefix⟩,
    fun h => hescape.2 ⟨h.1, prefix_of_prefix_respell hapart.hash_not_mem_octal h.2⟩⟩

theorem after_escape_suffix (after : List α) : k.after_escape after <:+ after := by
  cases after with
  | nil => exact List.suffix_rfl
  | cons a rest =>
    rw [after_escape]
    split
    · exact (k.after_final_suffix rest).trans (List.suffix_cons a rest)
    · exact List.suffix_cons a rest

theorem escape_suffix {text after : List α} (hescape : k.escape text = some after) : after <:+ text := by
  cases text with
  | nil => cases hescape
  | cons a rest =>
    rw [escape] at hescape
    split at hescape
    · cases hescape
      exact List.suffix_cons a _
    · split at hescape
      · cases hescape
        exact (List.drop_suffix _ rest).trans (List.suffix_cons a rest)
      · cases hescape

/-- The scan goes on inside the text. -/
theorem after_escape_inside {text after : List α} (hescape : k.escape text = some after) :
    k.after_escape after <:+: text :=
  (after_escape_suffix after).isInfix.trans (escape_suffix hescape).isInfix

theorem ne_esc_of_letter {a : α} {rest : List α} (hescape : k.escape (a :: rest) = none) : a ≠ k.esc := by
  rintro rfl
  exact (escape_eq_none_iff.mp hescape).1 (List.cons_prefix_cons.mpr ⟨rfl, List.nil_prefix⟩)

theorem left_over_append (letters more : List α) :
    k.left_over (letters ++ more) = k.left_over letters ++ k.left_over more := List.flatMap_append

theorem left_over_eq_nil_iff (hoctal : k.octal ≠ []) {letters : List α} :
    k.left_over letters = [] ↔ k.esc ∉ letters := by
  rw [left_over, List.flatMap_eq_nil_iff]
  constructor
  · intro hnone hmem
    have hesc := hnone k.esc hmem
    rw [if_pos rfl] at hesc
    exact hoctal hesc
  · intro hnot a hmem
    rw [if_neg (ne_of_mem_of_not_mem hmem hnot)]

/-- The letters of the octal number begin no escape. -/
theorem ne_of_mem_left_over (hapart : k.Apart) {a : α} {letters : List α} (hmem : a ∈ k.left_over letters) :
    a ≠ k.esc ∧ a ≠ k.hash := by
  obtain ⟨b, -, hb⟩ := List.mem_flatMap.mp hmem
  split at hb
  · exact ⟨fun ha => hapart.esc_not_mem_octal (ha ▸ hb), fun ha => hapart.hash_not_mem_octal (ha ▸ hb)⟩
  · cases hb

/-- In a respelled text what was kept is kept, and what is left over of each `esc` that was taken along. -/
theorem strip_respell {text : List α} (hspelled : ¬ (k.hash :: k.octal) <:+: text) (hapart : k.Apart) :
    List.Sublist (k.strip text) (k.strip (k.respell text)) ∧
      (k.strip (k.respell text)).length = (k.strip text).length + (k.left_over (k.seconds text)).length := by
  induction text using text_induction (k := k) with
  | nil => simp [left_over]
  | escape text after hescape ih =>
    have hinside := after_escape_inside hescape
    obtain ⟨hsublist, hlength⟩ := ih fun h => hspelled (h.trans hinside)
    have hkept : k.strip (k.respell text) =
        k.left_over (k.second after) ++ k.strip (k.respell (k.after_escape after)) := by
      rw [strip_escape (escape_respell hspelled hapart hescape), after_escape_respell hapart,
        strip_append_of_ne fun a ha => ne_of_mem_left_over hapart ha]
    rw [hkept, strip_escape hescape, seconds_escape hescape, left_over_append]
    refine ⟨hsublist.trans (List.sublist_append_right _ _), ?_⟩
    rw [List.length_append, List.length_append, hlength]
    omega
  | letter a rest hescape ih =>
    have ha := ne_esc_of_letter hescape
    obtain ⟨hsublist, hlength⟩ := ih fun h => hspelled (h.trans (List.suffix_cons a rest).isInfix)
    rw [respell_cons ha, strip_letter (escape_respell_eq_none hapart hescape), strip_letter hescape,
      seconds_letter hescape, List.length_cons, List.length_cons, hlength]
    exact ⟨hsublist.cons_cons a, by omega⟩

/-- The same is kept if and only if no `esc` was taken along. -/
theorem strip_respell_eq_iff (hoctal : k.octal ≠ []) {text : List α}
    (hspelled : ¬ (k.hash :: k.octal) <:+: text) (hapart : k.Apart) :
    k.strip (k.respell text) = k.strip text ↔ k.esc ∉ k.seconds text := by
  obtain ⟨hsublist, hlength⟩ := strip_respell hspelled hapart
  rw [← left_over_eq_nil_iff hoctal, ← List.length_eq_zero_iff]
  constructor
  · intro hsame
    rw [hsame] at hlength
    omega
  · intro hnone
    rw [hnone] at hlength
    exact (hsublist.eq_of_length hlength.symm).symm

theorem second_respell {a : α} {after : List α} (hmem : a ∈ k.second (k.respell after)) :
    a = k.hash ∨ a ∈ k.second after := by
  cases after with
  | nil => cases hmem
  | cons b rest =>
    by_cases hb : b = k.esc
    · rw [hb, respell_esc, second] at hmem
      split at hmem
      · cases hmem
      · exact Or.inl (List.mem_singleton.mp hmem)
    · rw [respell_cons hb] at hmem
      exact Or.inr hmem

/-- What is taken along was taken along before, or is the first letter of an `esc` spelled out. -/
theorem mem_seconds_respell {a : α} {text : List α} (hspelled : ¬ (k.hash :: k.octal) <:+: text)
    (hapart : k.Apart) (hmem : a ∈ k.seconds (k.respell text)) : a = k.hash ∨ a ∈ k.seconds text := by
  induction text using text_induction (k := k) with
  | nil =>
    rw [respell_nil, seconds_nil] at hmem
    cases hmem
  | escape text after hescape ih =>
    have hinside := after_escape_inside hescape
    rw [seconds_escape (escape_respell hspelled hapart hescape), after_escape_respell hapart,
      seconds_append_of_ne fun b hb => ne_of_mem_left_over hapart hb] at hmem
    rw [seconds_escape hescape, List.mem_append]
    obtain hmem | hmem := List.mem_append.mp hmem
    · exact (second_respell hmem).imp_right Or.inl
    · exact (ih (fun h => hspelled (h.trans hinside)) hmem).imp_right Or.inr
  | letter b rest hescape ih =>
    have hb := ne_esc_of_letter hescape
    rw [respell_cons hb, seconds_letter (escape_respell_eq_none hapart hescape)] at hmem
    rw [seconds_letter hescape]
    exact ih (fun h => hspelled (h.trans (List.suffix_cons b rest).isInfix)) hmem

end Scan

end Codes

end escapes
