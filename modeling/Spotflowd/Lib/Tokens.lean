import Spotflowd.Lib.Str

namespace str

/-- `str::splitn`: at most `n` parts, the last one unsplit. -/
def splitn (sep : Char) : Nat → Str → List Str
  | 0, _ => []
  | 1, s => [s]
  | n + 2, s =>
    match split_once sep s with
    | some (part, rest) => part :: splitn sep (n + 1) rest
    | none => [s]

@[simp] theorem splitn_one (sep : Char) (s : Str) : splitn sep 1 s = [s] := rfl

theorem splitn_append {sep : Char} {part : Str} (hpart : sep ∉ part) (n : Nat) (rest : Str) :
    splitn sep (n + 2) (part ++ sep :: rest) = part :: splitn sep (n + 1) rest := by
  rw [splitn, split_once_append hpart]

/-- Two parts or more: the first one was split off. -/
theorem splitn_eq_cons_cons {sep : Char} {n : Nat} {s part next : Str} {parts : List Str}
    (hsplit : splitn sep (n + 2) s = part :: next :: parts) :
    ∃ rest, s = part ++ sep :: rest ∧ sep ∉ part ∧ splitn sep (n + 1) rest = next :: parts := by
  rw [splitn] at hsplit
  cases honce : split_once sep s with
  | none =>
    rw [honce] at hsplit
    cases hsplit
  | some halves =>
    obtain ⟨front, rest⟩ := halves
    rw [honce] at hsplit
    obtain ⟨rfl, hfront⟩ := split_once_eq_some honce
    obtain ⟨rfl, hrest⟩ := List.cons.inj hsplit
    exact ⟨rest, rfl, hfront, hrest⟩

theorem length_splitn (sep : Char) (n : Nat) (s : Str) :
    (splitn sep (n + 1) s).length = min (n + 1) (s.count sep + 1) := by
  induction n generalizing s with
  | zero => simp
  | succ n ih =>
    rw [splitn]
    cases hsplit : split_once sep s with
    | none =>
      have hcount : s.count sep = 0 := List.count_eq_zero.mpr (split_once_eq_none.mp hsplit)
      simp only [hcount, List.length_singleton]
      omega
    | some halves =>
      obtain ⟨part, rest⟩ := halves
      obtain ⟨rfl, hpart⟩ := split_once_eq_some hsplit
      have hcount : (part ++ sep :: rest).count sep = rest.count sep + 1 := by
        rw [List.count_append, List.count_cons_self, List.count_eq_zero.mpr hpart, Nat.zero_add]
      simp only [hcount, List.length_cons, ih]
      omega

theorem inside_of_mem_splitn {sep : Char} {n : Nat} {s part : Str} (hpart : part ∈ splitn sep n s) :
    part <:+: s := by
  induction n generalizing s with
  | zero => cases hpart
  | succ n ih =>
    cases n with
    | zero =>
      obtain rfl := List.mem_singleton.mp hpart
      exact List.infix_refl _
    | succ n =>
      rw [splitn] at hpart
      cases hsplit : split_once sep s with
      | none =>
        rw [hsplit] at hpart
        obtain rfl := List.mem_singleton.mp hpart
        exact List.infix_refl _
      | some halves =>
        obtain ⟨front, rest⟩ := halves
        rw [hsplit] at hpart
        obtain ⟨rfl, -⟩ := split_once_eq_some hsplit
        obtain rfl | hpart := List.mem_cons.mp hpart
        · exact (List.prefix_append _ _).isInfix
        · exact (ih hpart).trans ((List.suffix_cons _ _).trans (List.suffix_append _ _)).isInfix

/-- Columns with a separator after each, and the text after them. -/
def columns (sep : Char) (fields : List Str) (rest : Str) : Str :=
  fields.foldr (fun field tail => field ++ sep :: tail) rest

/-- A text has as many columns before its end as separators. -/
theorem le_count_iff {sep : Char} {n : Nat} {s : Str} :
    n ≤ s.count sep ↔
      ∃ fields rest, fields.length = n ∧ (∀ field ∈ fields, sep ∉ field) ∧ s = columns sep fields rest := by
  induction n generalizing s with
  | zero => exact ⟨fun _ => ⟨[], s, rfl, by simp, rfl⟩, fun _ => Nat.zero_le _⟩
  | succ n ih =>
    constructor
    · intro hle
      have hmem : sep ∈ s := List.count_pos_iff.mp (by omega)
      obtain ⟨field, tail, rfl, hfield⟩ := List.eq_append_cons_of_mem hmem
      rw [List.count_append, List.count_cons_self, List.count_eq_zero_of_not_mem hfield] at hle
      obtain ⟨fields, rest, rfl, hfields, rfl⟩ := ih.mp (show n ≤ tail.count sep by omega)
      exact ⟨field :: fields, rest, rfl, List.forall_mem_cons.mpr ⟨hfield, hfields⟩, rfl⟩
    · rintro ⟨fields, rest, hlength, hfields, rfl⟩
      obtain ⟨field, fields, rfl⟩ := List.exists_cons_of_length_eq_add_one hlength
      have htail : n ≤ (columns sep fields rest).count sep :=
        ih.mpr ⟨fields, rest, Nat.succ.inj hlength, fun f hf => hfields f (List.mem_cons_of_mem _ hf), rfl⟩
      change n + 1 ≤ (field ++ sep :: columns sep fields rest).count sep
      rw [List.count_append, List.count_cons_self]
      omega

def is_ascii_whitespace (c : Char) : Bool :=
  c = ' ' || c = '\t' || c = '\n' || c = '\x0C' || c = '\r'

theorem isDigit_of_is_ascii_whitespace {c : Char} (hspace : is_ascii_whitespace c = true) :
    c.isDigit = false := by
  simp only [is_ascii_whitespace, Bool.or_eq_true, decide_eq_true_eq] at hspace
  obtain (((rfl | rfl) | rfl) | rfl) | rfl := hspace <;> decide

/-- `str::split_ascii_whitespace` -/
def split_ascii_whitespace (s : Str) : List Str :=
  (s.splitOnP is_ascii_whitespace).filter (!·.isEmpty)

/-- A word: not empty, and without white space. -/
def IsWord (word : Str) : Prop := word ≠ [] ∧ ∀ c ∈ word, is_ascii_whitespace c = false

theorem not_mem_of_unspaced {s : Str} (hs : ∀ c ∈ s, is_ascii_whitespace c = false) {c : Char}
    (hspace : is_ascii_whitespace c = true) : c ∉ s := by
  intro hmem
  rw [hs c hmem] at hspace
  cases hspace

theorem IsWord.not_mem {word : Str} (hword : IsWord word) {c : Char}
    (hspace : is_ascii_whitespace c = true) : c ∉ word :=
  not_mem_of_unspaced hword.2 hspace

theorem IsWord.count_eq_zero {word : Str} (hword : IsWord word) {c : Char}
    (hspace : is_ascii_whitespace c = true) : word.count c = 0 :=
  List.count_eq_zero.mpr (hword.not_mem hspace)

theorem IsWord.append {word tail : Str} (hword : IsWord word)
    (htail : ∀ c ∈ tail, is_ascii_whitespace c = false) : IsWord (word ++ tail) := by
  refine ⟨List.append_ne_nil_of_left_ne_nil hword.1 tail, fun c hc => ?_⟩
  obtain hc | hc := List.mem_append.mp hc
  · exact hword.2 c hc
  · exact htail c hc

theorem split_ascii_whitespace_append (front : Str) {sep : Char} (hsep : is_ascii_whitespace sep = true)
    (rest : Str) :
    split_ascii_whitespace (front ++ sep :: rest) =
      split_ascii_whitespace front ++ split_ascii_whitespace rest := by
  simp only [split_ascii_whitespace, List.splitOnP_append_cons front rest hsep, List.filter_append]

/-- Text without white space is one token, unless it is empty. -/
theorem split_ascii_whitespace_unspaced {s : Str} (hs : ∀ c ∈ s, is_ascii_whitespace c = false) :
    split_ascii_whitespace s = [s].filter (!·.isEmpty) := by
  rw [split_ascii_whitespace, List.splitOnP_eq_singleton hs]

theorem split_ascii_whitespace_word {word : Str} (hword : IsWord word) {sep : Char}
    (hsep : is_ascii_whitespace sep = true) (rest : Str) :
    split_ascii_whitespace (word ++ sep :: rest) = word :: split_ascii_whitespace rest := by
  have hne : (!word.isEmpty) = true := by simpa using hword.1
  rw [split_ascii_whitespace_append word hsep, split_ascii_whitespace_unspaced hword.2,
    List.filter_singleton, hne, Bool.cond_true, List.singleton_append]

theorem split_ascii_whitespace_skip {sep : Char} (hsep : is_ascii_whitespace sep = true) (rest : Str) :
    split_ascii_whitespace (sep :: rest) = split_ascii_whitespace rest :=
  split_ascii_whitespace_append [] hsep rest

/-- A line without the carriage return in front of its newline. -/
def strip_cr (line : Str) : Str := if line.getLast? = some '\r' then line.dropLast else line

/-- `str::lines`: what is between the newlines, and what is after the last one unless that is
nothing. -/
def lines (s : Str) : List Str :=
  let parts := s.splitOnP (· = '\n')
  parts.dropLast.map strip_cr ++ parts.getLast?.toList.filter (!·.isEmpty)

/-- `char::is_whitespace`: the characters with the Unicode property `White_Space`. -/
def is_whitespace (c : Char) : Bool :=
  let n := c.toNat
  (0x09 ≤ n && n ≤ 0x0D) || n = 0x20 || n = 0x85 || n = 0xA0 || n = 0x1680 ||
    (0x2000 ≤ n && n ≤ 0x200A) || n = 0x2028 || n = 0x2029 || n = 0x202F || n = 0x205F || n = 0x3000

theorem not_is_whitespace_of_isDigit {c : Char} (hdigit : c.isDigit = true) : is_whitespace c = false := by
  have hbounds : 48 ≤ c.toNat ∧ c.toNat ≤ 57 := Char.isDigit_iff_toNat.mp hdigit
  simp only [is_whitespace, Bool.or_eq_false_iff, Bool.and_eq_false_iff, decide_eq_false_iff_not]
  omega

def trim_start (s : Str) : Str := s.dropWhile is_whitespace

def trim_start_matches (c : Char) (s : Str) : Str := s.dropWhile (· = c)

def trim_end_matches (c : Char) (s : Str) : Str := s.rdropWhile (· = c)

/-- `str::trim` -/
def trim (s : Str) : Str := (trim_start s).rdropWhile is_whitespace

theorem trim_start_of_head {s : Str} (hhead : ∀ c ∈ s.head?, is_whitespace c = false) :
    trim_start s = s := by
  cases s with
  | nil => rfl
  | cons c s => rw [trim_start, List.dropWhile_cons_of_neg (by simp [hhead c rfl])]

theorem trim_start_cons {c : Char} (hspace : is_whitespace c = true) (s : Str) :
    trim_start (c :: s) = trim_start s := by
  rw [trim_start, List.dropWhile_cons_of_pos hspace]
  rfl

theorem trim_end_matches_append {c : Char} {s : Str} (hs : c ∉ s) :
    trim_end_matches c (s ++ [c]) = s := by
  rw [trim_end_matches, List.rdropWhile_concat_pos _ _ _ (by simp), List.rdropWhile_eq_self_iff]
  intro hne hlast
  have heq : s.getLast hne = c := by simpa using hlast
  exact hs (heq ▸ List.getLast_mem hne)

/-- A decimal number: at least one digit, and nothing else. -/
def decimal (s : Str) : Option Nat :=
  if s ≠ [] ∧ s.all Char.isDigit then some (Nat.ofDigitChars 10 s 0) else none

/-- `str::parse::<u8>` -/
def parse_u8 (s : Str) : Option Nat :=
  match s with
  | '+' :: rest => (decimal rest).filter (· < 2 ^ 8)
  | _ => (decimal s).filter (· < 2 ^ 8)

/-- `str::parse::<i64>` -/
def parse_i64 (s : Str) : Option Int64 :=
  match s with
  | '-' :: rest => ((decimal rest).filter (· ≤ 2 ^ 63)).map fun n : Nat => Int64.ofInt (-n)
  | '+' :: rest => ((decimal rest).filter (· < 2 ^ 63)).map fun n => Int64.ofNat n
  | _ => ((decimal s).filter (· < 2 ^ 63)).map fun n => Int64.ofNat n

/-- The integer that a text spells: a decimal number with or without a sign. -/
def integer (s : Str) : Option Int :=
  match s with
  | '-' :: rest => (decimal rest).map fun n : Nat => -(n : Int)
  | '+' :: rest => (decimal rest).map fun n : Nat => (n : Int)
  | _ => (decimal s).map fun n : Nat => (n : Int)

/-- What is parsed is the integer, if it fits. -/
theorem parse_i64_eq (s : Str) :
    (parse_i64 s).map Int64.toInt = (integer s).filter fun i => -2 ^ 63 ≤ i ∧ i < 2 ^ 63 := by
  have hpositive (n : Option Nat) : ((n.filter (· < 2 ^ 63)).map fun n : Nat => Int64.ofNat n).map Int64.toInt =
      (n.map fun n : Nat => (n : Int)).filter fun i => -2 ^ 63 ≤ i ∧ i < 2 ^ 63 := by
    cases n with
    | none => rfl
    | some n =>
      rw [Option.filter_some, Option.map_some, Option.filter_some]
      by_cases hfits : n < 2 ^ 63
      · rw [if_pos (decide_eq_true hfits), if_pos (decide_eq_true (by omega)), Option.map_some,
          Option.map_some, Int64.toInt_ofNat_of_lt hfits]
      · rw [if_neg (by simpa using hfits), if_neg (by simp only [decide_eq_true_eq]; omega)]
        rfl
  have hnegative (n : Option Nat) :
      ((n.filter (· ≤ 2 ^ 63)).map fun n : Nat => Int64.ofInt (-n)).map Int64.toInt =
        (n.map fun n : Nat => -(n : Int)).filter fun i => -2 ^ 63 ≤ i ∧ i < 2 ^ 63 := by
    cases n with
    | none => rfl
    | some n =>
      rw [Option.filter_some, Option.map_some, Option.filter_some]
      by_cases hfits : n ≤ 2 ^ 63
      · rw [if_pos (decide_eq_true hfits), if_pos (decide_eq_true (by omega)), Option.map_some,
          Option.map_some, Int64.toInt_ofInt_of_le (by omega) (by omega)]
      · rw [if_neg (by simpa using hfits), if_neg (by simp only [decide_eq_true_eq]; omega)]
        rfl
  unfold parse_i64 integer
  split
  · exact hnegative _
  · exact hpositive _
  · exact hpositive _

theorem isDigit_of_mem_toDigits {n : Nat} {c : Char} (hmem : c ∈ Nat.toDigits 10 n) :
    c.isDigit = true :=
  Nat.isDigit_of_mem_toDigits (by decide) (by decide) hmem

theorem not_mem_toDigits {n : Nat} {c : Char} (hdigit : c.isDigit = false) : c ∉ Nat.toDigits 10 n := by
  intro hmem
  rw [isDigit_of_mem_toDigits hmem] at hdigit
  cases hdigit

theorem decimal_toDigits (n : Nat) : decimal (Nat.toDigits 10 n) = some n := by
  have hall : (Nat.toDigits 10 n).all Char.isDigit = true :=
    List.all_eq_true.mpr fun c hc => isDigit_of_mem_toDigits hc
  rw [decimal, if_pos ⟨Nat.toDigits_ne_nil, hall⟩, Nat.ofDigitChars_ten_toDigits]

theorem toDigits_ne_cons {n : Nat} {c : Char} (hdigit : c.isDigit = false) (rest : Str) :
    Nat.toDigits 10 n ≠ c :: rest :=
  fun heq => not_mem_toDigits hdigit (heq ▸ List.mem_cons_self)

theorem parse_u8_toDigits {n : Nat} (hbound : n < 2 ^ 8) : parse_u8 (Nat.toDigits 10 n) = some n := by
  unfold parse_u8
  split
  · next heq => exact absurd heq (toDigits_ne_cons (by decide) _)
  · rw [decimal_toDigits, Option.filter_some, if_pos (decide_eq_true hbound)]

theorem parse_i64_toDigits {n : Nat} (hbound : n < 2 ^ 63) :
    parse_i64 (Nat.toDigits 10 n) = some (Int64.ofNat n) := by
  unfold parse_i64
  split
  · next heq => exact absurd heq (toDigits_ne_cons (by decide) _)
  · next heq => exact absurd heq (toDigits_ne_cons (by decide) _)
  · rw [decimal_toDigits, Option.filter_some, if_pos (decide_eq_true hbound)]
    rfl

end str
