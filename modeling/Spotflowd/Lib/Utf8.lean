import Spotflowd.Lib.Lines

namespace lines

open str

/-- A byte that follows the first one of a character. -/
def Continuation (byte : UInt8) : Prop := 0x80 ≤ byte.toNat ∧ byte.toNat < 0xC0

theorem continuation_ofNat (n : Nat) : Continuation (UInt8.ofNat (n % 0x40 + 0x80)) := by
  unfold Continuation
  rw [UInt8.toNat_ofNat']
  omega

/-- An ASCII character is its own byte. -/
theorem encode_ascii {c : Char} (hc : c.toNat < 0x80) : String.utf8EncodeChar c = [UInt8.ofNat c.toNat] := by
  have hsize : c.utf8Size = 1 := by
    rw [Char.utf8Size_eq_one_iff, UInt32.le_iff_toNat_le]
    exact Nat.le_of_lt_succ hc
  rw [String.utf8EncodeChar_eq_singleton hsize]
  rfl

/-- Any other character is a first byte and continuations. -/
theorem encode_wide {c : Char} (hc : 0x80 ≤ c.toNat) :
    ∃ lead byte more, String.utf8EncodeChar c = lead :: byte :: more ∧ 0xC0 ≤ lead.toNat ∧
      ∀ b ∈ byte :: more, Continuation b := by
  have hlead {n : Nat} (hlow : 0xC0 ≤ n) (hhigh : n < 256) : 0xC0 ≤ (UInt8.ofNat n).toNat := by
    rw [UInt8.toNat_ofNat']
    omega
  have hvalue : c.toNat = c.val.toNat := rfl
  fun_cases String.utf8EncodeChar c
  · omega
  all_goals
    refine ⟨_, _, _, rfl, hlead (by omega) (by omega), ?_⟩
    simp only [List.forall_mem_cons, continuation_ofNat, List.not_mem_nil, false_implies,
      implies_true, and_self]

/-- No text goes on with a continuation after whole characters. -/
theorem not_encode_of_continuation {s t : Str} {byte : UInt8} {more : Bytes}
    (hbyte : Continuation byte) : encode t ≠ encode s ++ byte :: more := by
  intro heq
  have hsame : encode s ++ byte :: more <+: encode t := ⟨[], by rw [List.append_nil, heq]⟩
  obtain ⟨tail, rfl, hstarts⟩ := prefix_of_encode_append hsame
  cases tail with
  | nil => cases List.eq_nil_of_prefix_nil hstarts
  | cons c tail =>
    rw [encode_cons] at hstarts
    unfold Continuation at hbyte
    by_cases hc : c.toNat < 0x80
    · rw [encode_ascii hc] at hstarts
      obtain ⟨hfirst, -⟩ := List.cons_prefix_cons.mp hstarts
      rw [hfirst, UInt8.toNat_ofNat'] at hbyte
      omega
    · obtain ⟨lead, next, rest, hchar, hlead, -⟩ := encode_wide (Nat.le_of_not_lt hc)
      rw [hchar] at hstarts
      obtain ⟨rfl, -⟩ := List.cons_prefix_cons.mp hstarts
      omega

/-- A text begins with another exactly when its bytes do. -/
theorem encode_prefix_iff {s t : Str} : encode s <+: encode t ↔ s <+: t := by
  constructor
  · intro hstarts
    rw [← List.append_nil (encode s)] at hstarts
    obtain ⟨tail, rfl, -⟩ := prefix_of_encode_append hstarts
    exact List.prefix_append _ _
  · rintro ⟨tail, rfl⟩
    rw [encode_append]
    exact List.prefix_append _ _

end lines
