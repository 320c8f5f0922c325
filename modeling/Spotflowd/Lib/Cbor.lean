import Mathlib.Data.List.Basic
import Mathlib.Data.Nat.Basic
import Mathlib.Data.Rat.Defs
import Mathlib.Algebra.Ring.Int.Defs
import Mathlib.Algebra.Ring.Nat

namespace cbor

/-- The CBOR data items a program builds or reads. -/
inductive Value where
  | Integer (value : Int)
  | Bytes (content : List UInt8)
  | Text (content : String)
  | Array (items : List Value)
  | Map (pairs : List (Value × Value))
  | Bool (value : Bool)
  | Null
  | Float (value : ℚ)
deriving Repr

/-- `width` bytes, most significant first. -/
def bigEndian : Nat → Nat → List UInt8
  | 0, _ => []
  | width + 1, n => bigEndian width (n / 256) ++ [UInt8.ofNat (n % 256)]

def ofBigEndian (bytes : List UInt8) : Nat :=
  bytes.foldl (fun acc byte => acc * 256 + byte.toNat) 0

/-- Initial byte and argument of an item, in the shortest form. -/
def head (major n : Nat) : List UInt8 :=
  if n < 24 then [UInt8.ofNat (major * 32 + n)]
  else if n < 2 ^ 8 then UInt8.ofNat (major * 32 + 24) :: bigEndian 1 n
  else if n < 2 ^ 16 then UInt8.ofNat (major * 32 + 25) :: bigEndian 2 n
  else if n < 2 ^ 32 then UInt8.ofNat (major * 32 + 26) :: bigEndian 4 n
  else UInt8.ofNat (major * 32 + 27) :: bigEndian 8 n

/-- The argument that follows an initial byte with additional information `info`. -/
def argument (info : Nat) (bytes : List UInt8) : Option (Nat × List UInt8) :=
  let sized (width : Nat) :=
    if width ≤ bytes.length then some (ofBigEndian (bytes.take width), bytes.drop width) else none
  if info < 24 then some (info, bytes)
  else if info = 24 then sized 1
  else if info = 25 then sized 2
  else if info = 26 then sized 4
  else if info = 27 then sized 8
  else none

def utf8 (text : String) : List UInt8 := text.toByteArray.data.toList

def ofUtf8 (bytes : List UInt8) : Option String := String.fromUTF8? ⟨bytes.toArray⟩

mutual

def encode : Value → List UInt8
  | .Integer value =>
    if 0 ≤ value then head 0 value.toNat else head 1 (-1 - value).toNat
  | .Bytes content => head 2 content.length ++ content
  | .Text content => head 3 (utf8 content).length ++ utf8 content
  | .Array items => head 4 items.length ++ encodeItems items
  | .Map pairs => head 5 pairs.length ++ encodePairs pairs
  | .Bool value => head 7 (if value then 21 else 20)
  | .Null => head 7 22
  -- the bit patterns of floats are left out; no float fits
  | .Float _ => []

def encodeItems : List Value → List UInt8
  | [] => []
  | item :: items => encode item ++ encodeItems items

def encodePairs : List (Value × Value) → List UInt8
  | [] => []
  | (key, value) :: pairs => encode key ++ (encode value ++ encodePairs pairs)

end

mutual

/-- Every number and length fits the 64 bits CBOR has for it, and there is no float. -/
def fits : Value → Bool
  | .Integer value => decide (-(2 ^ 64) ≤ value ∧ value < 2 ^ 64)
  | .Bytes content => decide (content.length < 2 ^ 64)
  | .Text content => decide ((utf8 content).length < 2 ^ 64)
  | .Array items => decide (items.length < 2 ^ 64) && fitsItems items
  | .Map pairs => decide (pairs.length < 2 ^ 64) && fitsPairs pairs
  | .Bool _ => true
  | .Null => true
  | .Float _ => false

def fitsItems : List Value → Bool
  | [] => true
  | item :: items => fits item && fitsItems items

def fitsPairs : List (Value × Value) → Bool
  | [] => true
  | (key, value) :: pairs => fits key && (fits value && fitsPairs pairs)

end

/-- Read `count` things one after another. -/
def repeated {α : Type} (item : List UInt8 → Option (α × List UInt8)) :
    Nat → List UInt8 → Option (List α × List UInt8)
  | 0, bytes => some ([], bytes)
  | count + 1, bytes => do
    let (first, bytes) ← item bytes
    let (others, bytes) ← repeated item count bytes
    return (first :: others, bytes)

/-- Read two things one after another. -/
def paired {α : Type} (item : List UInt8 → Option (α × List UInt8)) (bytes : List UInt8) :
    Option ((α × α) × List UInt8) := do
  let (key, bytes) ← item bytes
  let (value, bytes) ← item bytes
  return ((key, value), bytes)

/-- One item off the front, with what follows it. The fuel bounds the nesting. -/
def decode : Nat → List UInt8 → Option (Value × List UInt8)
  | 0, _ => none
  | _ + 1, [] => none
  | fuel + 1, initial :: bytes => do
    let (n, bytes) ← argument (initial.toNat % 32) bytes
    match initial.toNat / 32 with
    | 0 => return (.Integer n, bytes)
    | 1 => return (.Integer (-1 - n), bytes)
    | 2 => if n ≤ bytes.length then return (.Bytes (bytes.take n), bytes.drop n) else none
    | 3 =>
      if n ≤ bytes.length then
        let text ← ofUtf8 (bytes.take n)
        return (.Text text, bytes.drop n)
      else none
    | 4 => do
      let (items, bytes) ← repeated (decode fuel) n bytes
      return (.Array items, bytes)
    | 5 => do
      let (pairs, bytes) ← repeated (paired (decode fuel)) n bytes
      return (.Map pairs, bytes)
    | 7 =>
      match n with
      | 20 => return (.Bool false, bytes)
      | 21 => return (.Bool true, bytes)
      | 22 => return (.Null, bytes)
      | _ => none
    | _ => none

theorem length_bigEndian (width n : Nat) : (bigEndian width n).length = width := by
  induction width generalizing n with
  | zero => rfl
  | succ width ih => simp [bigEndian, ih]

theorem length_head_le (major n : Nat) : (head major n).length ≤ 9 := by
  unfold head
  split_ifs <;> simp [length_bigEndian]

theorem ofBigEndian_bigEndian {width n : Nat} (hbound : n < 256 ^ width) :
    ofBigEndian (bigEndian width n) = n := by
  induction width generalizing n with
  | zero =>
    simp only [Nat.pow_zero, Nat.lt_one_iff] at hbound
    simp [bigEndian, ofBigEndian, hbound]
  | succ width ih =>
    have hhigh : n / 256 < 256 ^ width := by
      rw [Nat.div_lt_iff_lt_mul (by omega)]
      simpa [Nat.pow_succ] using hbound
    have hhead := ih hhigh
    unfold ofBigEndian at hhead ⊢
    rw [bigEndian, List.foldl_append, hhead]
    have hlow : (UInt8.ofNat (n % 256)).toNat = n % 256 := by simp
    simp only [List.foldl_cons, List.foldl_nil, hlow]
    omega

theorem ofUtf8_utf8 (text : String) : ofUtf8 (utf8 text) = some text := by
  unfold ofUtf8 utf8 String.fromUTF8?
  have hsame : (⟨text.toByteArray.data.toList.toArray⟩ : ByteArray) = text.toByteArray := by simp
  rw [hsame, dif_pos text.isValidUTF8]
  rfl

theorem utf8_of_ofUtf8 {bytes : List UInt8} {text : String} (htext : ofUtf8 bytes = some text) :
    utf8 text = bytes := by
  unfold ofUtf8 String.fromUTF8? at htext
  split at htext
  · cases htext
    simp [utf8, String.fromUTF8]
  · cases htext

/-- The head of an item is read back as its major type and argument. -/
theorem head_cons (major : Nat) {n : Nat} (hmajor : major < 8) (hbound : n < 2 ^ 64)
    (rest : List UInt8) :
    ∃ initial tail, head major n = initial :: tail ∧ initial.toNat / 32 = major ∧
      argument (initial.toNat % 32) (tail ++ rest) = some (n, rest) := by
  have hinitial : ∀ info, info < 32 → (UInt8.ofNat (major * 32 + info)).toNat = major * 32 + info := by
    intro info hinfo
    rw [UInt8.toNat_ofNat']
    omega
  have hsized : ∀ width info, info < 32 → n < 256 ^ width →
      (∀ bytes, argument info bytes = if width ≤ bytes.length then
        some (ofBigEndian (bytes.take width), bytes.drop width) else none) →
      (UInt8.ofNat (major * 32 + info)).toNat / 32 = major ∧
        argument ((UInt8.ofNat (major * 32 + info)).toNat % 32) (bigEndian width n ++ rest) =
          some (n, rest) := by
    intro width info hinfo hn hargument
    rw [hinitial info hinfo]
    have hmod : (major * 32 + info) % 32 = info := by omega
    have hlength := length_bigEndian width n
    refine ⟨by omega, ?_⟩
    rw [hmod, hargument, if_pos (by simp [hlength])]
    rw [List.take_append_of_le_length (by omega), List.drop_append_of_le_length (by omega),
      List.take_of_length_le (by omega), List.drop_of_length_le (by omega), ofBigEndian_bigEndian hn]
    rfl
  unfold head
  split
  · next hsmall =>
    refine ⟨_, [], rfl, ?_, ?_⟩
    · rw [hinitial n (by omega)]
      omega
    · rw [hinitial n (by omega), show (major * 32 + n) % 32 = n by omega]
      simp [argument, hsmall]
  · split
    · exact ⟨_, _, rfl, hsized 1 24 (by omega) (by omega) (fun _ => rfl)⟩
    · split
      · exact ⟨_, _, rfl, hsized 2 25 (by omega) (by omega) (fun _ => rfl)⟩
      · split
        · exact ⟨_, _, rfl, hsized 4 26 (by omega) (by omega) (fun _ => rfl)⟩
        · exact ⟨_, _, rfl, hsized 8 27 (by omega) (by omega) (fun _ => rfl)⟩

/-- Reading a sequence of items back, given that each of them is read back. -/
theorem repeated_encodeItems {item : List UInt8 → Option (Value × List UInt8)} {items : List Value}
    (hitem : ∀ value ∈ items, ∀ rest, item (encode value ++ rest) = some (value, rest))
    (rest : List UInt8) :
    repeated item items.length (encodeItems items ++ rest) = some (items, rest) := by
  induction items with
  | nil => rfl
  | cons first items ih =>
    have hfirst := hitem first List.mem_cons_self
    have hothers := ih fun value hmem => hitem value (List.mem_cons_of_mem _ hmem)
    simp [repeated, encodeItems, hfirst, hothers]

theorem repeated_encodePairs {item : List UInt8 → Option ((Value × Value) × List UInt8)}
    {pairs : List (Value × Value)}
    (hitem : ∀ pair ∈ pairs, ∀ rest,
      item (encode pair.1 ++ (encode pair.2 ++ rest)) = some (pair, rest))
    (rest : List UInt8) :
    repeated item pairs.length (encodePairs pairs ++ rest) = some (pairs, rest) := by
  induction pairs with
  | nil => rfl
  | cons first pairs ih =>
    have hfirst := hitem first List.mem_cons_self
    have hothers := ih fun value hmem => hitem value (List.mem_cons_of_mem _ hmem)
    obtain ⟨key, value⟩ := first
    simp [repeated, encodePairs, hfirst, hothers]

theorem length_encode_le_encodeItems {items : List Value} {item : Value} (hmem : item ∈ items) :
    (encode item).length ≤ (encodeItems items).length := by
  induction items with
  | nil => cases hmem
  | cons first items ih =>
    simp only [encodeItems, List.length_append]
    rcases List.mem_cons.mp hmem with rfl | hmem
    · omega
    · have := ih hmem
      omega

theorem length_encode_le_encodePairs {pairs : List (Value × Value)} {pair : Value × Value}
    (hmem : pair ∈ pairs) :
    (encode pair.1).length ≤ (encodePairs pairs).length ∧
      (encode pair.2).length ≤ (encodePairs pairs).length := by
  induction pairs with
  | nil => cases hmem
  | cons first pairs ih =>
    obtain ⟨key, value⟩ := first
    simp only [encodePairs, List.length_append]
    rcases List.mem_cons.mp hmem with rfl | hmem
    · constructor <;> dsimp only <;> omega
    · have := ih hmem
      omega

theorem fits_of_mem_items {items : List Value} (hfits : fitsItems items = true) {item : Value}
    (hmem : item ∈ items) : fits item = true := by
  induction items with
  | nil => cases hmem
  | cons first items ih =>
    simp only [fitsItems, Bool.and_eq_true] at hfits
    rcases List.mem_cons.mp hmem with rfl | hmem
    · exact hfits.1
    · exact ih hfits.2 hmem

theorem fits_of_mem_pairs {pairs : List (Value × Value)} (hfits : fitsPairs pairs = true)
    {pair : Value × Value} (hmem : pair ∈ pairs) : fits pair.1 = true ∧ fits pair.2 = true := by
  induction pairs with
  | nil => cases hmem
  | cons first pairs ih =>
    obtain ⟨key, value⟩ := first
    simp only [fitsPairs, Bool.and_eq_true] at hfits
    rcases List.mem_cons.mp hmem with rfl | hmem
    · exact ⟨hfits.1, hfits.2.1⟩
    · exact ih hfits.2.2 hmem

theorem head_ne_nil (major n : Nat) : head major n ≠ [] := by
  unfold head
  repeat' split
  all_goals exact List.cons_ne_nil _ _

theorem encode_ne_nil {item : Value} (hfits : fits item = true) : encode item ≠ [] := by
  intro hnil
  cases item <;> simp only [encode, List.append_eq_nil_iff] at hnil
  case Integer value => split at hnil <;> exact absurd hnil (head_ne_nil _ _)
  case Float value => cases hfits
  all_goals first
    | exact absurd hnil (head_ne_nil _ _)
    | exact absurd hnil.1 (head_ne_nil _ _)

theorem decode_integer (fuel : Nat) {value : Int} (hfits : fits (.Integer value) = true)
    (rest : List UInt8) :
    decode (fuel + 1) (encode (.Integer value) ++ rest) = some (.Integer value, rest) := by
  simp only [fits, decide_eq_true_eq] at hfits
  by_cases hsign : 0 ≤ value
  · obtain ⟨initial, tail, hhead, hmajor, hargument⟩ :=
      head_cons 0 (n := value.toNat) (by omega) (by omega) rest
    simp only [encode, hsign, if_true, hhead, decode, List.cons_append, hargument, hmajor,
      Option.bind_eq_bind, Option.bind_some, Option.pure_def, Option.some.injEq, Prod.mk.injEq,
      Value.Integer.injEq, and_true]
    omega
  · obtain ⟨initial, tail, hhead, hmajor, hargument⟩ :=
      head_cons 1 (n := (-1 - value).toNat) (by omega) (by omega) rest
    simp only [encode, hsign, if_false, hhead, decode, List.cons_append, hargument, hmajor,
      Option.bind_eq_bind, Option.bind_some, Option.pure_def, Option.some.injEq, Prod.mk.injEq,
      Value.Integer.injEq, and_true]
    omega

theorem decode_array {fuel : Nat} {items : List Value} (hbound : items.length < 2 ^ 64)
    (hitem : ∀ item ∈ items, ∀ rest, decode fuel (encode item ++ rest) = some (item, rest))
    (rest : List UInt8) :
    decode (fuel + 1) (encode (.Array items) ++ rest) = some (.Array items, rest) := by
  obtain ⟨initial, tail, hhead, hmajor, hargument⟩ :=
    head_cons 4 (by omega) hbound (encodeItems items ++ rest)
  simp [encode, hhead, decode, hargument, hmajor, repeated_encodeItems hitem]

theorem decode_map {fuel : Nat} {pairs : List (Value × Value)} (hbound : pairs.length < 2 ^ 64)
    (hpair : ∀ pair ∈ pairs, ∀ rest, decode fuel (encode pair.1 ++ rest) = some (pair.1, rest) ∧
      decode fuel (encode pair.2 ++ rest) = some (pair.2, rest)) (rest : List UInt8) :
    decode (fuel + 1) (encode (.Map pairs) ++ rest) = some (.Map pairs, rest) := by
  obtain ⟨initial, tail, hhead, hmajor, hargument⟩ :=
    head_cons 5 (by omega) hbound (encodePairs pairs ++ rest)
  have hpairs : repeated (paired (decode fuel)) pairs.length (encodePairs pairs ++ rest) =
      some (pairs, rest) := by
    refine repeated_encodePairs ?_ rest
    intro pair hmem rest
    have hkey := (hpair pair hmem (encode pair.2 ++ rest)).1
    have hvalue := (hpair pair hmem rest).2
    simp [paired, hkey, hvalue]
  simp [encode, hhead, decode, hargument, hmajor, hpairs]

/-- Decoding undoes encoding and leaves what follows the item untouched. -/
theorem decode_encode {fuel : Nat} {item : Value} (hfits : fits item = true)
    (hfuel : (encode item).length ≤ fuel) (rest : List UInt8) :
    decode fuel (encode item ++ rest) = some (item, rest) := by
  induction fuel generalizing item rest with
  | zero => exact absurd (List.length_eq_zero_iff.mp (Nat.le_zero.mp hfuel)) (encode_ne_nil hfits)
  | succ fuel ih =>
    have hinner {major n : Nat} {content : List UInt8} (hlength : (head major n ++ content).length ≤ fuel + 1) :
        content.length ≤ fuel := by
      have hpos := List.length_pos_of_ne_nil (head_ne_nil major n)
      rw [List.length_append] at hlength
      omega
    cases item with
    | Integer value => exact decode_integer fuel hfits rest
    | Bytes content =>
      simp only [fits, decide_eq_true_eq] at hfits
      obtain ⟨initial, tail, hhead, hmajor, hargument⟩ :=
        head_cons 2 (by omega) hfits (content ++ rest)
      simp [encode, hhead, decode, hargument, hmajor]
    | Text content =>
      simp only [fits, decide_eq_true_eq] at hfits
      obtain ⟨initial, tail, hhead, hmajor, hargument⟩ :=
        head_cons 3 (by omega) hfits (utf8 content ++ rest)
      simp [encode, hhead, decode, hargument, hmajor, ofUtf8_utf8]
    | Array items =>
      simp only [fits, Bool.and_eq_true, decide_eq_true_eq] at hfits
      rw [encode] at hfuel
      refine decode_array hfits.1 (fun item hmem rest => ?_) rest
      exact ih (fits_of_mem_items hfits.2 hmem)
        (le_trans (length_encode_le_encodeItems hmem) (hinner hfuel)) rest
    | Map pairs =>
      simp only [fits, Bool.and_eq_true, decide_eq_true_eq] at hfits
      rw [encode] at hfuel
      refine decode_map hfits.1 (fun pair hmem rest => ?_) rest
      have hpair := fits_of_mem_pairs hfits.2 hmem
      have hle := length_encode_le_encodePairs hmem
      exact ⟨ih hpair.1 (le_trans hle.1 (hinner hfuel)) rest, ih hpair.2 (le_trans hle.2 (hinner hfuel)) rest⟩
    | Bool value =>
      cases value with
      | false =>
        obtain ⟨initial, tail, hhead, hmajor, hargument⟩ :=
          head_cons 7 (n := 20) (by omega) (by omega) rest
        simp [encode, hhead, decode, hargument, hmajor]
      | true =>
        obtain ⟨initial, tail, hhead, hmajor, hargument⟩ :=
          head_cons 7 (n := 21) (by omega) (by omega) rest
        simp [encode, hhead, decode, hargument, hmajor]
    | Null =>
      obtain ⟨initial, tail, hhead, hmajor, hargument⟩ :=
        head_cons 7 (n := 22) (by omega) (by omega) rest
      simp [encode, hhead, decode, hargument, hmajor]
    | Float value => cases hfits

/-- The value under a numbered key of a map. -/
def numbered (key : Int) : List (Value × Value) → Option Value
  | [] => none
  | (.Integer n, value) :: pairs => if n = key then some value else numbered key pairs
  | _ :: pairs => numbered key pairs

end cbor
