import Mathlib.Algebra.Order.Archimedean.Basic
import Mathlib.Algebra.Order.Field.Power
import Mathlib.Algebra.Order.Field.Rat
import Mathlib.Tactic.FieldSimp
import Mathlib.Tactic.Linarith
import Mathlib.Tactic.Ring

namespace rounding

/-- A number of at most `p` significant binary digits. -/
def IsFloat (p : ℕ) (x : ℚ) : Prop := ∃ m e : ℤ, |m| < 2 ^ p ∧ x = m * 2 ^ e

/-- Written with `p` significant binary digits, the last of them is zero. -/
def EndsEven (p : ℕ) (x : ℚ) : Prop :=
  ∃ m e : ℤ, Even m ∧ 2 ^ (p - 1) ≤ |m| ∧ |m| ≤ 2 ^ p ∧ x = m * 2 ^ e

/-- `y` is `x` rounded to `p` digits: to the nearest, and between two of them to the even one. -/
structure Rounds (p : ℕ) (x y : ℚ) : Prop where
  float : IsFloat p y
  nearest : ∀ z, IsFloat p z → |x - y| ≤ |x - z|
  even : ∀ z, IsFloat p z → z ≠ y → |x - y| = |x - z| → EndsEven p y

/-- A natural number rounded to `p` digits. -/
def round_nat (p n : ℕ) : ℕ :=
  let unit := 2 ^ (n.log2 + 1 - p)
  let down := n / unit
  let rest := n % unit
  if 2 * rest < unit ∨ 2 * rest = unit ∧ down % 2 = 0 then down * unit else (down + 1) * unit

/-- An integer rounded to `p` digits. -/
def round (p : ℕ) (i : ℤ) : ℤ := i.sign * round_nat p i.natAbs

variable {p : ℕ} {x y : ℚ}

theorem IsFloat.neg (hfloat : IsFloat p x) : IsFloat p (-x) := by
  obtain ⟨m, e, hm, rfl⟩ := hfloat
  exact ⟨-m, e, by rwa [abs_neg], by push_cast; ring⟩

theorem EndsEven.neg (heven : EndsEven p x) : EndsEven p (-x) := by
  obtain ⟨m, e, hm, hleast, hmost, rfl⟩ := heven
  exact ⟨-m, e, hm.neg, by rwa [abs_neg], by rwa [abs_neg], by push_cast; ring⟩

theorem Rounds.neg (hrounds : Rounds p x y) : Rounds p (-x) (-y) := by
  have hdistance (z : ℚ) : |(-x) - (-z)| = |x - z| := by
    rw [← abs_neg, neg_sub, sub_neg_eq_add, neg_add_eq_sub]
  refine ⟨hrounds.float.neg, fun z hz => ?_, fun z hz hne hsame => ?_⟩
  · rw [hdistance, ← neg_neg z, hdistance]
    exact hrounds.nearest (-z) hz.neg
  · rw [hdistance, ← neg_neg z, hdistance] at hsame
    exact (hrounds.even (-z) hz.neg (fun h => hne (by rw [← h, neg_neg])) hsame).neg

/-- A number that has few enough digits is not changed. -/
theorem IsFloat.rounds (hfloat : IsFloat p x) : Rounds p x x := by
  refine ⟨hfloat, fun z _ => ?_, fun z _ hne hsame => ?_⟩
  · rw [sub_self, abs_zero]
    exact abs_nonneg _
  · rw [sub_self, abs_zero, eq_comm, abs_eq_zero, sub_eq_zero] at hsame
    exact absurd hsame.symm hne

theorem Rounds.eq_of_isFloat (hrounds : Rounds p x y) (hfloat : IsFloat p x) : y = x := by
  have hzero := hrounds.nearest x hfloat
  rw [sub_self, abs_zero] at hzero
  exact (sub_eq_zero.mp (abs_eq_zero.mp (le_antisymm hzero (abs_nonneg _)))).symm

/-- Between two neighbours there is nothing. -/
theorem IsFloat.le_or_ge {q e : ℕ} (hp : 0 < p) (hq : 2 ^ (p - 1) ≤ q) (hfloat : IsFloat p x) :
    x ≤ q * 2 ^ e ∨ (q + 1) * 2 ^ e ≤ x := by
  obtain ⟨m, f, hm, rfl⟩ := hfloat
  have hunit : (0 : ℚ) < 2 ^ e := by positivity
  rcases le_or_gt (e : ℤ) f with hle | hgt
  · -- a multiple of the unit
    have hmultiple : (m : ℚ) * 2 ^ f = (m * 2 ^ (f - e).toNat : ℤ) * 2 ^ e := by
      have hsplit : f = ((f - e).toNat : ℤ) + e := by omega
      conv_lhs => rw [hsplit, zpow_add₀ two_ne_zero, zpow_natCast, zpow_natCast]
      push_cast
      ring
    rw [hmultiple]
    rcases le_or_gt (m * 2 ^ (f - e).toNat : ℤ) q with hdown | hup
    · left
      exact mul_le_mul_of_nonneg_right (by exact_mod_cast hdown) hunit.le
    · right
      have hup' : ((q : ℤ) + 1) ≤ m * 2 ^ (f - e).toNat := hup
      exact mul_le_mul_of_nonneg_right (by exact_mod_cast hup') hunit.le
  · -- a finer unit, and too small for that
    left
    have hpow : (2 : ℚ) ^ p = 2 ^ (p - 1) * 2 := by
      rw [← pow_succ, Nat.sub_add_cancel hp]
    have hfiner : (2 : ℚ) ^ f * 2 ≤ 2 ^ e := by
      rw [← zpow_add_one₀ two_ne_zero, ← zpow_natCast]
      exact zpow_le_zpow_right₀ one_le_two hgt
    have hmantissa : (m : ℚ) ≤ 2 ^ (p - 1) * 2 := by
      rw [← hpow]
      exact_mod_cast (le_abs_self m).trans hm.le
    have hleast : ((2 : ℚ) ^ (p - 1)) ≤ q := by exact_mod_cast hq
    calc (m : ℚ) * 2 ^ f ≤ 2 ^ (p - 1) * 2 * 2 ^ f :=
          mul_le_mul_of_nonneg_right hmantissa (by positivity)
      _ = 2 ^ (p - 1) * (2 ^ f * 2) := by ring
      _ ≤ 2 ^ (p - 1) * 2 ^ e := mul_le_mul_of_nonneg_left hfiner (by positivity)
      _ ≤ q * 2 ^ e := mul_le_mul_of_nonneg_right hleast hunit.le

/-- The nearer neighbour, when there is nothing between the two. -/
theorem Rounds.of_neighbours {low high : ℚ} (hlow : IsFloat p low) (hhigh : IsFloat p high)
    (hbetween : ∀ z, IsFloat p z → z ≤ low ∨ high ≤ z) (hle : low ≤ x) (hlt : x < high) :
    ((x - low < high - x ∨ x - low = high - x ∧ EndsEven p low) → Rounds p x low) ∧
      ((high - x < x - low ∨ x - low = high - x ∧ EndsEven p high) → Rounds p x high) := by
  have hlow_distance : |x - low| = x - low := abs_of_nonneg (sub_nonneg.mpr hle)
  have hhigh_distance : |x - high| = high - x := by
    rw [abs_sub_comm]
    exact abs_of_nonneg (sub_nonneg.mpr hlt.le)
  have hfar (z : ℚ) (hz : IsFloat p z) :
      z ≤ low ∧ |x - z| = x - z ∨ high ≤ z ∧ |x - z| = z - x := by
    rcases hbetween z hz with hbelow | habove
    · exact Or.inl ⟨hbelow, abs_of_nonneg (by linarith)⟩
    · refine Or.inr ⟨habove, ?_⟩
      rw [abs_sub_comm]
      exact abs_of_nonneg (by linarith)
  constructor
  · intro hnearer
    have hle' : x - low ≤ high - x := hnearer.elim le_of_lt fun h => h.1.le
    refine ⟨hlow, fun z hz => ?_, fun z hz hne hsame => ?_⟩
    · rw [hlow_distance]
      obtain ⟨hz, hdistance⟩ | ⟨hz, hdistance⟩ := hfar z hz <;> rw [hdistance] <;> linarith
    · rw [hlow_distance] at hsame
      obtain ⟨-, hdistance⟩ | ⟨hz, hdistance⟩ := hfar z hz
      · rw [hdistance] at hsame
        exact absurd (by linarith) hne
      · rw [hdistance] at hsame
        exact hnearer.elim (fun h => absurd h (by linarith)) And.right
  · intro hnearer
    have hle' : high - x ≤ x - low := hnearer.elim le_of_lt fun h => h.1.ge
    refine ⟨hhigh, fun z hz => ?_, fun z hz hne hsame => ?_⟩
    · rw [hhigh_distance]
      obtain ⟨hz, hdistance⟩ | ⟨hz, hdistance⟩ := hfar z hz <;> rw [hdistance] <;> linarith
    · rw [hhigh_distance] at hsame
      obtain ⟨hz, hdistance⟩ | ⟨-, hdistance⟩ := hfar z hz
      · rw [hdistance] at hsame
        exact hnearer.elim (fun h => absurd h (by linarith)) And.right
      · rw [hdistance] at hsame
        exact absurd (by linarith) hne

/-- A multiple of the unit by `p` digits. -/
theorem isFloat_mul {q e : ℕ} (hq : q < 2 ^ p) : IsFloat p (q * 2 ^ e) := by
  refine ⟨q, e, ?_, by rw [Int.cast_natCast, zpow_natCast]⟩
  rw [abs_of_nonneg (Int.natCast_nonneg q)]
  exact_mod_cast hq

/-- The next multiple takes one digit more when it is a power of two. -/
theorem isFloat_succ_mul {q e : ℕ} (hp : 0 < p) (hq : q < 2 ^ p) : IsFloat p ((q + 1) * 2 ^ e) := by
  rcases Nat.lt_or_ge (q + 1) (2 ^ p) with hlt | hge
  · exact_mod_cast isFloat_mul (e := e) hlt
  · have hcarry : q + 1 = 2 ^ p := le_antisymm hq hge
    have hpow : (2 : ℚ) ^ p * 2 ^ e = (2 ^ (p - 1) : ℕ) * 2 ^ (e + 1) := by
      rw [Nat.cast_pow, Nat.cast_ofNat, ← pow_add, ← pow_add]
      congr 1
      omega
    have hvalue : ((q : ℚ) + 1) * 2 ^ e = (2 ^ (p - 1) : ℕ) * 2 ^ (e + 1) := by
      rw [← hpow]
      exact_mod_cast congrArg (fun k : ℕ => (k : ℚ) * 2 ^ e) hcarry
    rw [hvalue]
    exact isFloat_mul (Nat.pow_lt_pow_right (by decide) (Nat.sub_lt hp Nat.one_pos))

theorem endsEven_mul {q e : ℕ} (heven : q % 2 = 0) (hleast : 2 ^ (p - 1) ≤ q) (hmost : q ≤ 2 ^ p) :
    EndsEven p (q * 2 ^ e) := by
  refine ⟨q, e, by exact_mod_cast Nat.even_iff.mpr heven, ?_, ?_,
    by rw [Int.cast_natCast, zpow_natCast]⟩
  all_goals rw [abs_of_nonneg (Int.natCast_nonneg q)]
  · exact_mod_cast hleast
  · exact_mod_cast hmost

/-- The leading digits of a number that has more than `p` of them. -/
theorem leading_digits {n : ℕ} (hp : 0 < p) (hlong : 2 ^ p ≤ n) :
    2 ^ (p - 1) ≤ n / 2 ^ (n.log2 + 1 - p) ∧ n / 2 ^ (n.log2 + 1 - p) < 2 ^ p := by
  have hpos : n ≠ 0 := Nat.ne_of_gt (Nat.lt_of_lt_of_le (Nat.two_pow_pos p) hlong)
  have hlog : p ≤ n.log2 := (Nat.le_log2 hpos).mpr hlong
  constructor
  · rw [Nat.le_div_iff_mul_le (Nat.two_pow_pos _), ← Nat.pow_add]
    have hexponent : p - 1 + (n.log2 + 1 - p) = n.log2 := by omega
    rw [hexponent]
    exact Nat.log2_self_le hpos
  · rw [Nat.div_lt_iff_lt_mul (Nat.two_pow_pos _), ← Nat.pow_add]
    have hexponent : p + (n.log2 + 1 - p) = n.log2 + 1 := by omega
    rw [hexponent]
    exact Nat.lt_log2_self

theorem rounds_round_nat (hp : 0 < p) (n : ℕ) : Rounds p n (round_nat p n) := by
  rcases Nat.lt_or_ge n (2 ^ p) with hshort | hlong
  · have hunit : n.log2 + 1 - p = 0 := by
      rcases Nat.eq_zero_or_pos n with rfl | hpos
      · have hzero : Nat.log2 0 = 0 := by decide
        omega
      · have hlog := (Nat.log2_lt hpos.ne').mpr hshort
        omega
    have hsame : round_nat p n = n := by
      simp [round_nat, hunit, Nat.mod_one]
    rw [hsame]
    simpa using (isFloat_mul (e := 0) hshort).rounds
  · obtain ⟨hleast, hmost⟩ := leading_digits hp hlong
    unfold round_nat
    dsimp only
    generalize hexponent : n.log2 + 1 - p = e at hleast hmost ⊢
    have hsplit : 2 ^ e * (n / 2 ^ e) + n % 2 ^ e = n := Nat.div_add_mod n (2 ^ e)
    have hrest : n % 2 ^ e < 2 ^ e := Nat.mod_lt n (Nat.two_pow_pos e)
    generalize n / 2 ^ e = q at hleast hmost hsplit ⊢
    generalize n % 2 ^ e = rest at hrest hsplit ⊢
    have hsplit' : (2 : ℚ) ^ e * q + rest = n := by exact_mod_cast hsplit
    have hrest' : (rest : ℚ) < 2 ^ e := by exact_mod_cast hrest
    have hrest_nonneg : (0 : ℚ) ≤ rest := Nat.cast_nonneg rest
    obtain ⟨hdown, hup⟩ := Rounds.of_neighbours (x := n) (isFloat_mul (e := e) hmost)
      (isFloat_succ_mul (e := e) hp hmost) (fun z hz => hz.le_or_ge hp hleast)
      (by linarith) (by linarith)
    split
    · next hnearer =>
      push_cast
      apply hdown
      rcases hnearer with hlt | ⟨hhalf, heven⟩
      · have hlt' : (2 : ℚ) * rest < 2 ^ e := by exact_mod_cast hlt
        exact Or.inl (by linarith)
      · have hhalf' : (2 : ℚ) * rest = 2 ^ e := by exact_mod_cast hhalf
        exact Or.inr ⟨by linarith, endsEven_mul heven hleast hmost.le⟩
    · next hfarther =>
      push_cast
      apply hup
      rcases Nat.lt_or_ge (2 ^ e) (2 * rest) with hgt | hle
      · have hgt' : (2 : ℚ) ^ e < 2 * rest := by exact_mod_cast hgt
        exact Or.inl (by linarith)
      · have hhalf : 2 * rest = 2 ^ e := by omega
        have hhalf' : (2 : ℚ) * rest = 2 ^ e := by exact_mod_cast hhalf
        have hodd : (q + 1) % 2 = 0 := by omega
        refine Or.inr ⟨by linarith, ?_⟩
        exact_mod_cast endsEven_mul (e := e) hodd (by omega) hmost

/-- Rounding is to the nearest number of `p` digits, and between two of them to the even one. -/
theorem rounds_round (hp : 0 < p) (i : ℤ) : Rounds p i (round p i) := by
  have hmagnitude := rounds_round_nat hp i.natAbs
  unfold round
  rcases lt_trichotomy i 0 with hneg | rfl | hpos
  · have hvalue : (i : ℚ) = -(i.natAbs : ℚ) := by
      rw [Nat.cast_natAbs, abs_of_neg hneg]
      push_cast
      ring
    rw [Int.sign_eq_neg_one_of_neg hneg, hvalue]
    simpa using hmagnitude.neg
  · have hzero : IsFloat p 0 := ⟨0, 0, by simp, by simp⟩
    simpa using hzero.rounds
  · have hvalue : (i : ℚ) = i.natAbs := by
      rw [Nat.cast_natAbs, abs_of_pos hpos]
    rw [Int.sign_eq_one_of_pos hpos, hvalue]
    simpa using hmagnitude

/-- An integer of at most `p` digits is not changed. -/
theorem round_eq_self (hp : 0 < p) {i : ℤ} (hshort : i.natAbs < 2 ^ p) : round p i = i := by
  have hfloat : IsFloat p i := ⟨i, 0, by rw [Int.abs_eq_natAbs]; exact_mod_cast hshort, by simp⟩
  exact_mod_cast (rounds_round hp i).eq_of_isFloat hfloat

example : round 53 (2 ^ 53 + 1) = 2 ^ 53 ∧ round 53 (2 ^ 53 + 3) = 2 ^ 53 + 4 ∧
    round 53 (2 ^ 63 - 1) = 2 ^ 63 := by
  decide

end rounding
