import Spotflowd.Lib.Cbor
import Spotflowd.Sources.Crashdump.State

open fs

namespace spotflowd.sources.crashdump

namespace StateJson

def delivered_key : List Char := "\x7b\"delivered\":[".toList

def id_key : List Char := "\x7b\"id\":".toList

def ts_key : List Char := ",\"ts\":".toList

/-- `{"id":…,"ts":…}`. -/
def record_text (r : DeliveredRecord) : List Char :=
  id_key ++ (Nat.toDigits 10 r.id.toNat ++ (ts_key ++ (Nat.toDigits 10 r.ts.toNat ++ ['}'])))

/-- The records of an array, with its closing bracket. -/
def records_text : List DeliveredRecord → List Char
  | [] => [']']
  | [r] => record_text r ++ [']']
  | r :: rs => record_text r ++ ',' :: records_text rs

/-- `{"delivered":[…]}`. -/
def text (state : State) : List Char :=
  delivered_key ++ (records_text state.delivered ++ ['}'])

/-- Read a fixed text off the front. -/
def expect (expected input : List Char) : Option (List Char) :=
  if expected.isPrefixOf input then some (input.drop expected.length) else none

/-- Read a number off the front, if it fits 64 bits. -/
def number (input : List Char) : Option (UInt64 × List Char) :=
  let digits := input.takeWhile Char.isDigit
  let n := Nat.ofDigitChars 10 digits 0
  if digits ≠ [] ∧ n < 2 ^ 64 then some (UInt64.ofNat n, input.dropWhile Char.isDigit) else none

def record (input : List Char) : Option (DeliveredRecord × List Char) := do
  let input ← expect id_key input
  let (id, input) ← number input
  let input ← expect ts_key input
  let (ts, input) ← number input
  let input ← expect ['}'] input
  return (⟨id, ts⟩, input)

/-- One record at least, up to the closing bracket. -/
def records : Nat → List Char → Option (List DeliveredRecord × List Char)
  | 0, _ => none
  | fuel + 1, input => do
    let (r, input) ← record input
    match input with
    | ',' :: input =>
      let (rs, input) ← records fuel input
      return (r :: rs, input)
    | ']' :: input => return ([r], input)
    | _ => none

/-- What follows the opening bracket of an array. -/
def array : List Char → Option (List DeliveredRecord × List Char)
  | ']' :: input => some ([], input)
  | input => records input.length input

def state (input : List Char) : Option State := do
  let input ← expect delivered_key input
  let (rs, input) ← array input
  let input ← expect ['}'] input
  if input.isEmpty then return ⟨rs⟩ else none

@[simp] theorem expect_append (expected rest : List Char) :
    expect expected (expected ++ rest) = some rest := by
  simp [expect]

theorem number_digits (n : UInt64) {rest : List Char}
    (hrest : ∀ c ∈ rest.head?, c.isDigit = false) :
    number (Nat.toDigits 10 n.toNat ++ rest) = some (n, rest) := by
  have hdigits : ∀ c ∈ Nat.toDigits 10 n.toNat, c.isDigit = true := fun c hc =>
    Nat.isDigit_of_mem_toDigits (by decide) (by decide) hc
  have hstop : rest.takeWhile Char.isDigit = [] ∧ rest.dropWhile Char.isDigit = rest := by
    cases rest with
    | nil => exact ⟨rfl, rfl⟩
    | cons c rest =>
      have hc := hrest c rfl
      simp [hc]
  have hvalue : Nat.ofDigitChars 10 (Nat.toDigits 10 n.toNat) 0 = n.toNat :=
    Nat.ofDigitChars_ten_toDigits
  have hnonempty : Nat.toDigits 10 n.toNat ≠ [] := Nat.toDigits_ne_nil
  rw [number, List.takeWhile_append_of_pos hdigits, List.dropWhile_append_of_pos hdigits, hstop.1,
    hstop.2, List.append_nil]
  simp [hvalue, hnonempty, n.toNat_lt]

theorem record_record_text (r : DeliveredRecord) (rest : List Char) :
    record (record_text r ++ rest) = some (r, rest) := by
  have hcomma : ∀ c ∈ (ts_key ++ (Nat.toDigits 10 r.ts.toNat ++ (['}'] ++ rest))).head?,
      c.isDigit = false := by
    intro c hc
    cases hc
    rfl
  have hid := number_digits r.id hcomma
  have hts := number_digits r.ts
    (show ∀ c ∈ (['}'] ++ rest).head?, c.isDigit = false by simp)
  simp only [record, record_text, List.append_assoc, expect_append, hid, hts, Option.bind_eq_bind,
    Option.bind_some]
  rfl

theorem records_records_text {rs : List DeliveredRecord} (hrs : rs ≠ []) {fuel : Nat}
    (hfuel : rs.length ≤ fuel) (rest : List Char) :
    records fuel (records_text rs ++ rest) = some (rs, rest) := by
  induction rs generalizing fuel with
  | nil => exact absurd rfl hrs
  | cons r rs ih =>
    cases fuel with
    | zero => exact absurd hfuel (Nat.not_succ_le_zero _)
    | succ fuel =>
      cases rs with
      | nil =>
        simp only [records, records_text, List.append_assoc, record_record_text]
        rfl
      | cons r' rs =>
        have hrest := ih (by simp) (Nat.le_of_succ_le_succ hfuel)
        simp only [records, records_text, List.append_assoc, record_record_text,
          List.cons_append, Option.bind_eq_bind, Option.bind_some] at hrest ⊢
        rw [hrest]
        rfl

theorem length_le_records_text (rs : List DeliveredRecord) :
    rs.length ≤ (records_text rs).length := by
  induction rs with
  | nil => exact Nat.zero_le _
  | cons r rs ih =>
    cases rs with
    | nil => simp [records_text]
    | cons r' rs =>
      simp only [records_text, List.length_append, List.length_cons] at ih ⊢
      omega

theorem array_records_text (rs : List DeliveredRecord) (rest : List Char) :
    array (records_text rs ++ rest) = some (rs, rest) := by
  cases rs with
  | nil => rfl
  | cons r rs =>
    have hfuel : (r :: rs).length ≤ (records_text (r :: rs) ++ rest).length := by
      rw [List.length_append]
      exact (length_le_records_text _).trans (Nat.le_add_right _ _)
    have hread := records_records_text (List.cons_ne_nil r rs) hfuel rest
    obtain ⟨tail, htail⟩ : ∃ tail, records_text (r :: rs) ++ rest = '\x7b' :: tail := by
      cases rs with
      | nil => exact ⟨_, rfl⟩
      | cons r' rs => exact ⟨_, rfl⟩
    rw [htail] at hread ⊢
    exact hread

theorem state_text (s : State) : state (text s) = some s := by
  simp only [state, text, expect_append, array_records_text, Option.bind_eq_bind, Option.bind_some]
  rfl

end StateJson

/-- The text `serde_json` writes, as UTF-8. -/
def SerdeJson.wire : SerdeJson where
  to_vec state := some (cbor.utf8 (String.ofList (StateJson.text state)))
  from_slice bytes := (cbor.ofUtf8 bytes).bind fun text => StateJson.state text.toList

theorem SerdeJson.wire_roundTrips : SerdeJson.wire.RoundTrips := by
  intro state bytes hbytes
  obtain rfl := Option.some.inj hbytes
  simp only [wire, cbor.ofUtf8_utf8, Option.bind_some, String.toList_ofList]
  exact StateJson.state_text state

end spotflowd.sources.crashdump
