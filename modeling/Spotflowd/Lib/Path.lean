import Mathlib.Data.List.Basic
import Mathlib.Data.String.Basic

namespace path

/-- Text before and after the last dot. -/
def rsplitDot (name : List Char) : Option (List Char × List Char) :=
  match name.reverse.dropWhile (· ≠ '.') with
  | [] => none
  | _ :: before => some (before.reverse, (name.reverse.takeWhile (· ≠ '.')).reverse)

/-- `Path::extension` of a file name. A name without a dot, with only a leading
dot, or `..` has none. -/
def extension (name : String) : Option String :=
  if name = ".." then none
  else match rsplitDot name.toList with
    | none => none
    | some ([], _) => none
    | some (_, after) => some (String.ofList after)

/-- `Path::file_stem` of a file name: the whole name when it has no extension. -/
def file_stem (name : String) : Option String :=
  if name = ".." then some name
  else match rsplitDot name.toList with
    | none => some name
    | some ([], _) => some name
    | some (before, _) => some (String.ofList before)

/-- `Path::with_extension`. -/
def with_extension (name ext : String) : String :=
  match file_stem name with
  | some stem => stem ++ "." ++ ext
  | none => name

theorem rsplitDot_append {before after : List Char} (hafter : '.' ∉ after) :
    rsplitDot (before ++ '.' :: after) = some (before, after) := by
  have hkeep : ∀ c ∈ after.reverse, (decide (c ≠ '.')) = true := by
    intro c hc
    have : c ≠ '.' := fun heq => hafter (heq ▸ List.mem_reverse.mp hc)
    simpa using this
  unfold rsplitDot
  rw [List.reverse_append, List.reverse_cons, List.append_assoc, List.dropWhile_append_of_pos hkeep,
    List.takeWhile_append_of_pos hkeep]
  simp

private theorem ne_dotdot {before after : List Char} (hbefore : before ≠ []) (hafter : after ≠ []) :
    String.ofList (before ++ '.' :: after) ≠ ".." := by
  intro h
  have hlist := congrArg String.toList h
  rw [String.toList_ofList] at hlist
  have hlength := congrArg List.length hlist
  have h1 := List.length_pos_iff.mpr hbefore
  have h2 := List.length_pos_iff.mpr hafter
  simp only [List.length_append, List.length_cons, show "..".toList.length = 2 by decide] at hlength
  omega

section Dotted

variable {before after : List Char} (hbefore : before ≠ []) (hafter : after ≠ [])
  (hdot : '.' ∉ after)

include hbefore hafter hdot

theorem extension_dotted :
    extension (String.ofList (before ++ '.' :: after)) = some (String.ofList after) := by
  unfold extension
  rw [if_neg (ne_dotdot hbefore hafter), String.toList_ofList, rsplitDot_append hdot]
  cases before with
  | nil => exact absurd rfl hbefore
  | cons c cs => rfl

theorem file_stem_dotted :
    file_stem (String.ofList (before ++ '.' :: after)) = some (String.ofList before) := by
  unfold file_stem
  rw [if_neg (ne_dotdot hbefore hafter), String.toList_ofList, rsplitDot_append hdot]
  cases before with
  | nil => exact absurd rfl hbefore
  | cons c cs => rfl

end Dotted

/-- `str::parse::<u64>`: decimal digits after an optional plus sign, below 2^64. -/
def parse_u64 (text : String) : Option Nat :=
  let digits := match text.toList with
    | '+' :: rest => rest
    | chars => chars
  if digits ≠ [] ∧ digits.all Char.isDigit ∧ Nat.ofDigitChars 10 digits 0 < 2 ^ 64 then
    some (Nat.ofDigitChars 10 digits 0)
  else none

/-- `format!("{:0width}")` of an unsigned integer: decimal, zero-padded on the left. -/
def padded (width n : Nat) : List Char :=
  List.replicate (width - (Nat.toDigits 10 n).length) '0' ++ Nat.toDigits 10 n

theorem isDigit_of_mem_padded {width n : Nat} {c : Char} (hmem : c ∈ padded width n) :
    c.isDigit = true := by
  rcases List.mem_append.mp hmem with hzero | hdigit
  · rw [List.eq_of_mem_replicate hzero]
    rfl
  · exact Nat.isDigit_of_mem_toDigits (by decide) (by decide) hdigit

theorem padded_ne_nil (width n : Nat) : padded width n ≠ [] := by
  have hdigits : Nat.toDigits 10 n ≠ [] := Nat.toDigits_ne_nil
  simp [padded, hdigits]

theorem not_mem_padded {width n : Nat} {c : Char} (hdigit : c.isDigit = false) :
    c ∉ padded width n := by
  intro hmem
  rw [isDigit_of_mem_padded hmem] at hdigit
  cases hdigit

@[simp] theorem ofDigitChars_padded (width n : Nat) :
    Nat.ofDigitChars 10 (padded width n) 0 = n := by
  rw [padded, Nat.ofDigitChars_append, Nat.ofDigitChars_replicate_zero, Nat.mul_zero]
  exact Nat.ofDigitChars_ten_toDigits

/-- Formatting an integer and parsing it back gives the integer. -/
theorem parse_u64_padded {width n : Nat} (hbound : n < 2 ^ 64) :
    parse_u64 (String.ofList (padded width n)) = some n := by
  have hplus : ∀ rest, padded width n ≠ '+' :: rest := by
    intro rest heq
    exact not_mem_padded (c := '+') (by decide) (heq ▸ List.mem_cons_self)
  have hdigits : (match padded width n with
      | '+' :: rest => rest
      | chars => chars) = padded width n := by
    split
    · next heq => exact absurd heq (hplus _)
    · rfl
  have hall : (padded width n).all Char.isDigit = true :=
    List.all_eq_true.mpr fun c hc => isDigit_of_mem_padded hc
  unfold parse_u64
  rw [String.toList_ofList, hdigits]
  simpa [padded_ne_nil, hall] using hbound

theorem parse_u64_lt {text : String} {n : Nat} (hparse : parse_u64 text = some n) : n < 2 ^ 64 := by
  unfold parse_u64 at hparse
  dsimp only at hparse
  rw [Option.ite_none_right_eq_some] at hparse
  obtain ⟨⟨-, -, hbound⟩, heq⟩ := hparse
  rw [← Option.some.inj heq]
  exact hbound

theorem digit_range {c : Char} (hdigit : c.isDigit = true) : 48 ≤ c.toNat ∧ c.toNat ≤ 57 :=
  Char.isDigit_iff_toNat.mp hdigit

theorem ofDigitChars_cons_zero (c : Char) (digits : List Char) :
    Nat.ofDigitChars 10 (c :: digits) 0 =
      10 ^ digits.length * (c.toNat - 48) + Nat.ofDigitChars 10 digits 0 := by
  rw [Nat.ofDigitChars_cons, Nat.ofDigitChars_eq_ofDigitChars_zero, Nat.mul_zero, Nat.zero_add]
  rfl

theorem ofDigitChars_lt {digits : List Char} (hdigits : ∀ c ∈ digits, c.isDigit = true) :
    Nat.ofDigitChars 10 digits 0 < 10 ^ digits.length := by
  induction digits with
  | nil => simp
  | cons c digits ih =>
    have hc := digit_range (hdigits c List.mem_cons_self)
    have hrest := ih fun c hc => hdigits c (List.mem_cons_of_mem _ hc)
    have hmul := Nat.mul_le_mul_left (10 ^ digits.length) (show c.toNat - 48 ≤ 9 by omega)
    rw [ofDigitChars_cons_zero, List.length_cons, Nat.pow_succ]
    omega

/-- Of two numbers with as many digits, the smaller one comes first as a text. -/
theorem lt_of_ofDigitChars_lt {digits digits' : List Char}
    (hdigits : ∀ c ∈ digits, c.isDigit = true) (hdigits' : ∀ c ∈ digits', c.isDigit = true)
    (hlength : digits.length = digits'.length)
    (hlt : Nat.ofDigitChars 10 digits 0 < Nat.ofDigitChars 10 digits' 0) : digits < digits' := by
  induction digits generalizing digits' with
  | nil =>
    rw [List.eq_nil_of_length_eq_zero hlength.symm] at hlt
    exact absurd hlt (lt_irrefl _)
  | cons c digits ih =>
    cases digits' with
    | nil => cases hlength
    | cons c' digits' =>
      have hrest' := ofDigitChars_lt fun d hd => hdigits' d (List.mem_cons_of_mem _ hd)
      have hc := digit_range (hdigits c List.mem_cons_self)
      have hc' := digit_range (hdigits' c' List.mem_cons_self)
      rw [List.length_cons, List.length_cons, Nat.succ_inj] at hlength
      rw [ofDigitChars_cons_zero, ofDigitChars_cons_zero, hlength] at hlt
      rw [List.cons_lt_cons_iff]
      rcases Nat.lt_trichotomy c.toNat c'.toNat with hfirst | hsame | hfirst
      · exact Or.inl (Char.lt_def.mpr (UInt32.lt_iff_toNat_lt.mpr hfirst))
      · refine Or.inr ⟨Char.toNat_inj.mp hsame, ?_⟩
        rw [hsame] at hlt
        exact ih (fun d hd => hdigits d (List.mem_cons_of_mem _ hd))
          (fun d hd => hdigits' d (List.mem_cons_of_mem _ hd)) hlength (by omega)
      · have hmul := Nat.mul_le_mul_left (10 ^ digits'.length)
          (show c'.toNat - 48 + 1 ≤ c.toNat - 48 by omega)
        rw [Nat.mul_add, Nat.mul_one] at hmul
        omega

theorem length_padded {width n : Nat} (hwidth : 0 < width) (hbound : n < 10 ^ width) :
    (padded width n).length = width := by
  have hlength := (Nat.length_toDigits_le_iff (b := 10) (by decide) hwidth).mpr hbound
  rw [padded, List.length_append, List.length_replicate]
  omega

/-- Padded to one width, numbers come in the order of their values. -/
theorem padded_lt {width m n : Nat} (hwidth : 0 < width) (hlt : m < n) (hbound : n < 10 ^ width) :
    padded width m < padded width n := by
  apply lt_of_ofDigitChars_lt (fun c hc => isDigit_of_mem_padded hc) fun c hc => isDigit_of_mem_padded hc
  · rw [length_padded hwidth (hlt.trans hbound), length_padded hwidth hbound]
  · rw [ofDigitChars_padded, ofDigitChars_padded]
    exact hlt

/-- What follows two texts of one length does not change their order. -/
theorem append_lt_append {before before' : List Char} (hlength : before.length = before'.length)
    (hlt : before < before') (after after' : List Char) : before ++ after < before' ++ after' := by
  induction before generalizing before' with
  | nil =>
    rw [List.eq_nil_of_length_eq_zero hlength.symm] at hlt
    exact absurd hlt (lt_irrefl _)
  | cons c before ih =>
    cases before' with
    | nil => cases hlength
    | cons c' before' =>
      rw [List.length_cons, List.length_cons, Nat.succ_inj] at hlength
      rw [List.cons_append, List.cons_append, List.cons_lt_cons_iff]
      obtain hfirst | ⟨heq, hrest⟩ := List.cons_lt_cons_iff.mp hlt
      · exact Or.inl hfirst
      · exact Or.inr ⟨heq, ih hlength hrest⟩

/-- With as many digits, equal numbers are equal texts. -/
theorem ofDigitChars_inj {digits digits' : List Char} (hdigits : ∀ c ∈ digits, c.isDigit = true)
    (hdigits' : ∀ c ∈ digits', c.isDigit = true) (hlength : digits.length = digits'.length)
    (heq : Nat.ofDigitChars 10 digits 0 = Nat.ofDigitChars 10 digits' 0) : digits = digits' := by
  induction digits generalizing digits' with
  | nil => exact (List.eq_nil_of_length_eq_zero hlength.symm).symm
  | cons c digits ih =>
    cases digits' with
    | nil => cases hlength
    | cons c' digits' =>
      have hrest := ofDigitChars_lt fun d hd => hdigits d (List.mem_cons_of_mem _ hd)
      have hrest' := ofDigitChars_lt fun d hd => hdigits' d (List.mem_cons_of_mem _ hd)
      have hc := digit_range (hdigits c List.mem_cons_self)
      have hc' := digit_range (hdigits' c' List.mem_cons_self)
      rw [List.length_cons, List.length_cons, Nat.succ_inj] at hlength
      rw [ofDigitChars_cons_zero, ofDigitChars_cons_zero, ← hlength] at heq
      rw [← hlength] at hrest'
      have hfirst : c.toNat - 48 = c'.toNat - 48 := by
        have hpos : 0 < 10 ^ digits.length := Nat.pow_pos (by decide)
        have hdiv := congrArg (· / 10 ^ digits.length) heq
        simpa only [Nat.mul_add_div hpos, Nat.div_eq_of_lt hrest, Nat.div_eq_of_lt hrest',
          Nat.add_zero] using hdiv
      rw [hfirst, Nat.add_left_cancel_iff] at heq
      rw [Char.toNat_inj.mp (show c.toNat = c'.toNat by omega),
        ih (fun d hd => hdigits d (List.mem_cons_of_mem _ hd))
          (fun d hd => hdigits' d (List.mem_cons_of_mem _ hd)) hlength heq]

theorem length_padded_mono {width m n : Nat} (hle : m ≤ n) :
    (padded width m).length ≤ (padded width n).length := by
  have hlength : (Nat.toDigits 10 m).length ≤ (Nat.toDigits 10 n).length := by
    have hpos : 0 < (Nat.toDigits 10 n).length := List.length_pos_iff.mpr Nat.toDigits_ne_nil
    rw [Nat.length_toDigits_le_iff (by decide) hpos]
    exact hle.trans_lt ((Nat.length_toDigits_le_iff (by decide) hpos).mp le_rfl)
  rw [padded, padded, List.length_append, List.length_append, List.length_replicate,
    List.length_replicate]
  omega

/-- The leading digits of a number make the number divided by a power of ten. -/
theorem ofDigitChars_take {digits : List Char} (hdigits : ∀ c ∈ digits, c.isDigit = true) (k : Nat) :
    Nat.ofDigitChars 10 (digits.take k) 0 =
      Nat.ofDigitChars 10 digits 0 / 10 ^ (digits.length - k) := by
  have hrest := ofDigitChars_lt fun c (hc : c ∈ digits.drop k) => hdigits c (List.mem_of_mem_drop hc)
  have hpos : 0 < 10 ^ (digits.length - k) := Nat.pow_pos (by decide)
  have hsplit := Nat.ofDigitChars_append (b := 10) (l := digits.take k) (m := digits.drop k) 0
  rw [List.take_append_drop, Nat.ofDigitChars_eq_ofDigitChars_zero (l := digits.drop k),
    List.length_drop] at hsplit
  rw [List.length_drop] at hrest
  rw [hsplit, Nat.mul_add_div hpos, Nat.div_eq_of_lt hrest, Nat.add_zero]

/-- Of two padded numbers with a dot behind, the smaller comes first as a text if and only if it is
at most what as many leading digits of the greater make. -/
theorem padded_dotted_lt_iff {width m n : Nat} (hlt : m < n) (after : List Char) :
    padded width m ++ '.' :: after < padded width n ++ '.' :: after ↔
      m ≤ n / 10 ^ ((padded width n).length - (padded width m).length) := by
  have hdigits : ∀ c ∈ padded width m, c.isDigit = true := fun c hc => isDigit_of_mem_padded hc
  have hdigits' : ∀ c ∈ padded width n, c.isDigit = true := fun c hc => isDigit_of_mem_padded hc
  have hlead := ofDigitChars_take hdigits' (padded width m).length
  rw [ofDigitChars_padded] at hlead
  have hlength : (padded width m).length = ((padded width n).take (padded width m).length).length := by
    rw [List.length_take, Nat.min_eq_left (length_padded_mono hlt.le)]
  have hleading : ∀ c ∈ (padded width n).take (padded width m).length, c.isDigit = true :=
    fun c hc => hdigits' c (List.mem_of_mem_take hc)
  rw [← hlead]
  conv_lhs => rw [← List.take_append_drop (padded width m).length (padded width n), List.append_assoc]
  rcases Nat.lt_trichotomy m (Nat.ofDigitChars 10 ((padded width n).take (padded width m).length) 0)
    with hless | hsame | hgreater
  · have horder := lt_of_ofDigitChars_lt hdigits hleading hlength
      (by rw [ofDigitChars_padded]; exact hless)
    exact iff_of_true (append_lt_append hlength horder _ _) hless.le
  · -- the smaller number ends where the greater one goes on with a digit
    have htake := ofDigitChars_inj hdigits hleading hlength (by rw [ofDigitChars_padded]; exact hsame)
    refine iff_of_true ?_ hsame.le
    rw [← htake]
    cases hrest : (padded width n).drop (padded width m).length with
    | nil =>
      rw [List.take_of_length_le (List.drop_eq_nil_iff.mp hrest)] at hsame
      rw [ofDigitChars_padded] at hsame
      omega
    | cons c rest =>
      have hc := digit_range (hdigits' c (List.mem_of_mem_drop (hrest ▸ List.mem_cons_self)))
      apply List.append_left_lt
      rw [List.cons_append, List.cons_lt_cons_iff]
      refine Or.inl (Char.lt_def.mpr (UInt32.lt_iff_toNat_lt.mpr ?_))
      change '.'.toNat < c.toNat
      exact lt_of_lt_of_le (by decide) hc.1
  · have horder := lt_of_ofDigitChars_lt hleading hdigits hlength.symm
      (by rw [ofDigitChars_padded]; exact hgreater)
    exact iff_of_false (lt_asymm (append_lt_append hlength.symm horder _ _)) (not_le.mpr hgreater)

end path
