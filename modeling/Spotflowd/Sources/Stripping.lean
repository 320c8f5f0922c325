import Spotflowd.Lib.Escapes
import Spotflowd.Lib.Utf8
import Spotflowd.Sources

open effect escapes lines str

namespace spotflowd.sources

abbrev byte_codes : Codes UInt8 where
  esc := ESC
  hash := HASH
  octal := OCTAL
  bracket := BRACKET
  final := is_ascii_alphabetic

theorem get_range_octal {b : List UInt8} {i : Nat} :
    get_range b (i + 1) (i + 4) = some OCTAL ↔ OCTAL <+: b.drop (i + 1) := by
  have htake : (b.take (i + 4)).drop (i + 1) = (b.drop (i + 1)).take 3 := by
    rw [List.drop_take, show i + 4 - (i + 1) = 3 by omega]
  rw [List.prefix_iff_eq_take, get_range, htake]
  constructor
  · intro hrange
    split at hrange
    · exact (Option.some.inj hrange).symm
    · cases hrange
  · intro hoctal
    have hlength := congrArg List.length hoctal
    rw [show OCTAL.length = 3 by rfl, List.length_take, List.length_drop] at hlength
    rw [if_pos (by omega)]
    exact congrArg some hoctal.symm

theorem drop_of_lt {b : List UInt8} {i : Nat} (hlt : i < b.length) : b.drop i = b[i] :: b.drop (i + 1) :=
  List.drop_eq_getElem_cons hlt

theorem skip_parameters_run {b : List UInt8} {s : Strip} (hle : s.i ≤ b.length) :
    ∃ i, skip_parameters b s = .ok () { s with i := i } ∧ i ≤ b.length ∧
      b.drop i = byte_codes.after_final (b.drop s.i) := by
  induction hrest : b.drop s.i generalizing s with
  | nil =>
    have hend : ¬ s.i < b.length := not_lt.mpr (List.drop_eq_nil_iff.mp hrest)
    have hround : skip_parameter b s = .ok false s := by
      rw [skip_parameter, bind_of_ok (get_run s)]
      simp only [hend, if_false]
      rfl
    refine ⟨s.i, ?_, hle, hrest⟩
    rw [skip_parameters_eq, bind_of_ok hround]
    rfl
  | cons byte rest ih =>
    have hlt : s.i < b.length := by
      by_contra hnot
      rw [List.drop_eq_nil_iff.mpr (not_lt.mp hnot)] at hrest
      cases hrest
    obtain ⟨hbyte, hdrop⟩ := List.cons.inj ((drop_of_lt hlt).symm.trans hrest)
    have hround : skip_parameter b s = .ok (!is_ascii_alphabetic byte) { s with i := s.i + 1 } := by
      rw [skip_parameter, bind_of_ok (get_run s)]
      simp only [hlt, if_true]
      rw [byte_at_of_lt hlt, hbyte]
      rfl
    rw [skip_parameters_eq, bind_of_ok hround, Codes.after_final]
    cases halpha : is_ascii_alphabetic byte with
    | true =>
      refine ⟨s.i + 1, rfl, hlt, ?_⟩
      rw [hdrop, if_pos halpha]
    | false =>
      obtain ⟨i, hrun, hi, hafter⟩ := ih (s := { s with i := s.i + 1 }) hlt hdrop
      refine ⟨i, hrun, hi, ?_⟩
      rw [hafter, if_neg (by simpa using halpha)]

theorem skip_after_esc_run {b : List UInt8} {s : Strip} (hle : s.i ≤ b.length) :
    ∃ i, skip_after_esc b s = .ok () { s with i := i } ∧ i ≤ b.length ∧
      b.drop i = byte_codes.after_escape (b.drop s.i) := by
  rw [skip_after_esc, bind_of_ok (get_run s)]
  by_cases hlt : s.i < b.length
  · rw [drop_of_lt hlt, Codes.after_escape, List.getElem?_eq_getElem hlt]
    dsimp only
    by_cases hbracket : b[s.i] = BRACKET
    · obtain ⟨i, hrun, hi, hafter⟩ := skip_parameters_run (b := b) (s := { s with i := s.i + 1 }) hlt
      refine ⟨i, ?_, hi, ?_⟩
      · rw [if_pos hbracket]
        exact hrun
      · rw [hafter, if_pos hbracket]
    · refine ⟨s.i + 1, ?_, hlt, ?_⟩
      · rw [if_neg hbracket]
        rfl
      · rw [if_neg hbracket]
  · have hnone : b[s.i]? = none := List.getElem?_eq_none (not_lt.mp hlt)
    refine ⟨s.i, ?_, hle, ?_⟩
    · rw [hnone]
      rfl
    · rw [List.drop_eq_nil_of_le (not_lt.mp hlt)]
      rfl

/-- An escape at the front, in either spelling, is a round of its own. -/
theorem strip_round_escape {b : List UInt8} {s : Strip} {after : List UInt8}
    (hescape : byte_codes.escape (b.drop s.i) = some after) :
    ∃ i, strip_round b s = .ok true { s with i := i } ∧ i ≤ b.length ∧
      b.drop i = byte_codes.after_escape after := by
  have hlt : s.i < b.length := by
    by_contra hnot
    rw [List.drop_eq_nil_iff.mpr (not_lt.mp hnot)] at hescape
    cases hescape
  have hskip {n : Nat} (hn : s.i + n ≤ b.length) (hafter : b.drop (s.i + n) = after) :
      ∃ i, (do Scan.advance n; skip_after_esc b; pure true) s = .ok true { s with i := i } ∧
        i ≤ b.length ∧ b.drop i = byte_codes.after_escape after := by
    obtain ⟨i, hrun, hi, hdrop⟩ := skip_after_esc_run (b := b) (s := { s with i := s.i + n }) hn
    refine ⟨i, ?_, hi, by rw [hdrop, hafter]⟩
    have hadvance : Scan.advance n s = .ok () { s with i := s.i + n } := rfl
    rw [bind_of_ok hadvance, bind_of_ok hrun]
    rfl
  rw [drop_of_lt hlt, Codes.escape] at hescape
  rw [strip_round, bind_of_ok (get_run s)]
  simp only [hlt, if_true]
  rw [byte_at_of_lt hlt, pure_bind]
  by_cases hesc : b[s.i] = ESC
  · rw [if_pos hesc, Option.some.injEq] at hescape
    rw [if_pos hesc]
    exact hskip hlt hescape
  · rw [if_neg hesc] at hescape
    by_cases hoctal : b[s.i] = HASH ∧ OCTAL <+: b.drop (s.i + 1)
    · rw [if_pos hoctal, Option.some.injEq, List.drop_drop] at hescape
      rw [if_neg hesc, if_pos ⟨hoctal.1, get_range_octal.mpr hoctal.2⟩]
      have hlength := hoctal.2.length_le
      rw [List.length_drop, show OCTAL.length = 3 by rfl] at hlength
      exact hskip (by omega) hescape
    · rw [if_neg hoctal] at hescape
      cases hescape

theorem strip_round_letter {b : List UInt8} {s : Strip} {byte : UInt8} {rest : List UInt8}
    (hdrop : b.drop s.i = byte :: rest) (hescape : byte_codes.escape (byte :: rest) = none) :
    strip_round b s = .ok true { s with i := s.i + 1, out := s.out ++ [byte] } ∧
      s.i + 1 ≤ b.length ∧ b.drop (s.i + 1) = rest := by
  have hlt : s.i < b.length := by
    by_contra hnot
    rw [List.drop_eq_nil_iff.mpr (not_lt.mp hnot)] at hdrop
    cases hdrop
  obtain ⟨hbyte, hrest⟩ := List.cons.inj ((drop_of_lt hlt).symm.trans hdrop)
  refine ⟨?_, hlt, hrest⟩
  rw [Codes.escape] at hescape
  have hesc : byte ≠ ESC := by
    intro h
    rw [if_pos h] at hescape
    cases hescape
  have hoctal : ¬ (byte = HASH ∧ OCTAL <+: rest) := by
    intro h
    rw [if_neg hesc, if_pos h] at hescape
    cases hescape
  rw [strip_round, bind_of_ok (get_run s)]
  simp only [hlt, if_true]
  rw [byte_at_of_lt hlt, pure_bind, hbyte, if_neg hesc, if_neg]
  · rfl
  · rw [get_range_octal, hrest]
    exact hoctal

/-- What the scan keeps of the bytes to come. -/
theorem strip_rounds_run {b : List UInt8} {s : Strip} (hle : s.i ≤ b.length) :
    ∃ t, strip_rounds b s = .ok () t ∧ t.out = s.out ++ byte_codes.strip (b.drop s.i) := by
  suffices h : ∀ text, ∀ s : Strip, s.i ≤ b.length → b.drop s.i = text →
      ∃ t, strip_rounds b s = .ok () t ∧ t.out = s.out ++ byte_codes.strip text from h _ s hle rfl
  refine Codes.text_induction (k := byte_codes) ?_ ?_ ?_
  · intro s hle hdrop
    have hend : ¬ s.i < b.length := not_lt.mpr (List.drop_eq_nil_iff.mp hdrop)
    have hround : strip_round b s = .ok false s := by
      rw [strip_round, bind_of_ok (get_run s)]
      simp only [hend, if_false]
      rfl
    refine ⟨s, ?_, by rw [Codes.strip_nil, List.append_nil]⟩
    rw [strip_rounds_eq, bind_of_ok hround]
    rfl
  · intro text after hescape ih s hle hdrop
    obtain ⟨i, hround, hi, hafter⟩ := strip_round_escape (hdrop ▸ hescape)
    obtain ⟨t, hrun, hout⟩ := ih { s with i := i } hi hafter
    refine ⟨t, ?_, by rw [hout, Codes.strip_escape hescape]⟩
    rw [strip_rounds_eq, bind_of_ok hround]
    exact hrun
  · intro byte rest hescape ih s hle hdrop
    obtain ⟨hround, hi, hrest⟩ := strip_round_letter hdrop hescape
    obtain ⟨t, hrun, hout⟩ := ih { i := s.i + 1, out := s.out ++ [byte] } hi hrest
    refine ⟨t, ?_, by rw [hout, Codes.strip_letter hescape, List.append_assoc]; rfl⟩
    rw [strip_rounds_eq, bind_of_ok hround]
    exact hrun

abbrev char_codes : Codes Char where
  esc := '\x1b'
  hash := '#'
  octal := "033".toList
  bracket := '['
  final := Char.isAlpha

theorem encode_cons_ascii {c : Char} (hc : c.toNat < 0x80) (s : Str) :
    encode (c :: s) = UInt8.ofNat c.toNat :: encode s := by
  rw [encode_cons, encode_ascii hc]
  rfl

/-- ASCII characters are told apart by their bytes. -/
theorem ofNat_toNat_inj {c d : Char} (hc : c.toNat < 0x80) (hd : d.toNat < 0x80) :
    UInt8.ofNat c.toNat = UInt8.ofNat d.toNat ↔ c = d := by
  constructor
  · intro heq
    have hvalues := congrArg UInt8.toNat heq
    rw [UInt8.toNat_ofNat', UInt8.toNat_ofNat'] at hvalues
    have hsame : c.toNat = d.toNat := by omega
    exact Char.ext (UInt32.toNat_inj.mp hsame)
  · exact fun heq => heq ▸ rfl

theorem is_ascii_alphabetic_iff {byte : UInt8} : is_ascii_alphabetic byte = true ↔
    0x41 ≤ byte.toNat ∧ byte.toNat ≤ 0x5A ∨ 0x61 ≤ byte.toNat ∧ byte.toNat ≤ 0x7A := by
  simp [is_ascii_alphabetic, UInt8.le_iff_toNat_le]

theorem isAlpha_iff {c : Char} : c.isAlpha = true ↔
    0x41 ≤ c.toNat ∧ c.toNat ≤ 0x5A ∨ 0x61 ≤ c.toNat ∧ c.toNat ≤ 0x7A := by
  change (decide (0x41 ≤ c.val ∧ c.val ≤ 0x5A) || (0x61 ≤ c.val && c.val ≤ 0x7A)) = true ↔ _
  simp [UInt32.le_iff_toNat_le]

theorem is_ascii_alphabetic_ofNat {c : Char} (hc : c.toNat < 0x80) :
    is_ascii_alphabetic (UInt8.ofNat c.toNat) = c.isAlpha := by
  rw [Bool.eq_iff_iff, is_ascii_alphabetic_iff, isAlpha_iff, UInt8.toNat_ofNat',
    Nat.mod_eq_of_lt (by omega)]

/-- The bytes of a character beyond ASCII are no codes. -/
theorem wide_byte {c : Char} (hc : 0x80 ≤ c.toNat) {byte : UInt8} (hbyte : byte ∈ String.utf8EncodeChar c) :
    byte ≠ ESC ∧ byte ≠ HASH ∧ byte ≠ BRACKET ∧ is_ascii_alphabetic byte = false := by
  have hhigh : 0x80 ≤ byte.toNat := by
    obtain ⟨lead, next, more, hchar, hlead, hmore⟩ := encode_wide hc
    rw [hchar] at hbyte
    obtain rfl | hbyte := List.mem_cons.mp hbyte
    · omega
    · exact (hmore byte hbyte).1
  have hne {code : UInt8} (hcode : code.toNat < 0x80) : byte ≠ code := by
    rintro rfl
    omega
  refine ⟨hne (by decide), hne (by decide), hne (by decide), ?_⟩
  rw [← Bool.not_eq_true, is_ascii_alphabetic_iff]
  omega

theorem escape_encode (s : Str) : byte_codes.escape (encode s) = (char_codes.escape s).map encode := by
  cases s with
  | nil => rfl
  | cons c s =>
    by_cases hc : c.toNat < 0x80
    · have hoctal : OCTAL = encode "033".toList := rfl
      have hesc : UInt8.ofNat c.toNat = ESC ↔ c = '\x1b' :=
        ofNat_toNat_inj (d := '\x1b') hc (by decide)
      have hhash : UInt8.ofNat c.toNat = HASH ↔ c = '#' :=
        ofNat_toNat_inj (d := '#') hc (by decide)
      rw [encode_cons_ascii hc, Codes.escape, Codes.escape]
      simp only [hesc, hhash, hoctal, encode_prefix_iff]
      split
      · rfl
      · split
        · next hspelled =>
          obtain ⟨rest, rfl⟩ := hspelled.2
          rw [encode_append, List.drop_left, List.drop_left]
          rfl
        · rfl
    · have hwide := Nat.le_of_not_lt hc
      obtain ⟨lead, next, more, hchar, -, -⟩ := encode_wide hwide
      obtain ⟨hesc, hhash, -⟩ := wide_byte hwide (hchar ▸ List.mem_cons_self)
      have hesc' : c ≠ '\x1b' := by
        rintro rfl
        exact hc (by decide)
      have hhash' : c ≠ '#' := by
        rintro rfl
        exact hc (by decide)
      rw [encode_cons, hchar, List.cons_append, Codes.escape_of_ne hesc hhash,
        Codes.escape_of_ne hesc' hhash']
      rfl

theorem after_final_encode (s : Str) :
    byte_codes.after_final (encode s) = encode (char_codes.after_final s) := by
  induction s with
  | nil => rfl
  | cons c s ih =>
    rw [Codes.after_final]
    by_cases hc : c.toNat < 0x80
    · rw [encode_cons_ascii hc, Codes.after_final]
      simp only [is_ascii_alphabetic_ofNat hc]
      split
      · rfl
      · exact ih
    · have hwide := Nat.le_of_not_lt hc
      have hletter : ¬ c.isAlpha = true := by
        rw [isAlpha_iff]
        omega
      rw [encode_cons, Codes.after_final_append fun byte hbyte => (wide_byte hwide hbyte).2.2.2, ih,
        if_neg hletter]

/-- After an escape the scan goes on with whole characters, as long as the one letter it takes along
is ASCII. -/
theorem after_escape_encode {s : Str} (hsecond : ∀ c ∈ char_codes.second s, c.toNat < 0x80) :
    byte_codes.after_escape (encode s) = encode (char_codes.after_escape s) := by
  cases s with
  | nil => rfl
  | cons c s =>
    have hc : c.toNat < 0x80 := by
      by_cases hbracket : c = '['
      · rw [hbracket]
        decide
      · exact hsecond c (by rw [Codes.second, if_neg hbracket]; exact List.mem_cons_self)
    have hbracket : UInt8.ofNat c.toNat = BRACKET ↔ c = '[' :=
      ofNat_toNat_inj (d := '[') hc (by decide)
    rw [encode_cons_ascii hc, Codes.after_escape, Codes.after_escape]
    simp only [hbracket]
    split
    · exact after_final_encode s
    · rfl

/-- Otherwise it goes on in the middle of a character. -/
theorem after_escape_encode_wide {c : Char} (hc : 0x80 ≤ c.toNat) (s : Str) :
    ∃ byte more, Continuation byte ∧ byte_codes.after_escape (encode (c :: s)) = byte :: more := by
  obtain ⟨lead, byte, more, hchar, -, hmore⟩ := encode_wide hc
  obtain ⟨-, -, hbracket, -⟩ := wide_byte hc (hchar ▸ List.mem_cons_self)
  refine ⟨byte, more ++ encode s, hmore byte List.mem_cons_self, ?_⟩
  rw [encode_cons, hchar, List.cons_append, Codes.after_escape, if_neg hbracket, List.cons_append]

theorem strip_encode_letter {c : Char} {rest : Str} (hescape : char_codes.escape (c :: rest) = none) :
    byte_codes.strip (encode (c :: rest)) = String.utf8EncodeChar c ++ byte_codes.strip (encode rest) := by
  by_cases hc : c.toNat < 0x80
  · have hbytes := escape_encode (c :: rest)
    rw [hescape, Option.map_none, encode_cons_ascii hc] at hbytes
    rw [encode_cons_ascii hc, Codes.strip_letter hbytes, encode_ascii hc]
    rfl
  · rw [encode_cons]
    exact Codes.strip_append_of_ne (fun byte hbyte => ⟨(wide_byte (Nat.le_of_not_lt hc) hbyte).1,
      (wide_byte (Nat.le_of_not_lt hc) hbyte).2.1⟩) _

/-- Every character that is taken along by an escape as the second of two is ASCII. -/
def AsciiSeconds (s : Str) : Prop := ∀ c ∈ char_codes.seconds s, c.toNat < 0x80

instance (s : Str) : Decidable (AsciiSeconds s) := inferInstanceAs (Decidable (∀ c ∈ _, _))

/-- Stripping the bytes of a text is stripping its characters. -/
theorem strip_encode {s : Str} (hseconds : AsciiSeconds s) :
    byte_codes.strip (encode s) = encode (char_codes.strip s) := by
  unfold AsciiSeconds at hseconds
  induction s using Codes.text_induction (k := char_codes) with
  | nil => rw [encode_nil, Codes.strip_nil, Codes.strip_nil, encode_nil]
  | escape text after hescape ih =>
    have hbytes := escape_encode text
    rw [hescape, Option.map_some] at hbytes
    rw [Codes.seconds_escape hescape] at hseconds
    rw [Codes.strip_escape hbytes, Codes.strip_escape hescape,
      after_escape_encode fun c hc => hseconds c (List.mem_append_left _ hc)]
    exact ih fun c hc => hseconds c (List.mem_append_right _ hc)
  | letter c rest hescape ih =>
    rw [Codes.seconds_letter hescape] at hseconds
    rw [strip_encode_letter hescape, Codes.strip_letter hescape, encode_cons, ih hseconds]

/-- A character beyond ASCII that is taken along leaves its continuations. -/
theorem strip_encode_wide {s : Str} (hwide : ¬ AsciiSeconds s) :
    ∃ kept byte more, Continuation byte ∧ byte_codes.strip (encode s) = encode kept ++ byte :: more := by
  unfold AsciiSeconds at hwide
  induction s using Codes.text_induction (k := char_codes) with
  | nil => simp at hwide
  | escape text after hescape ih =>
    have hbytes := escape_encode text
    rw [hescape, Option.map_some] at hbytes
    rw [Codes.seconds_escape hescape] at hwide
    rw [Codes.strip_escape hbytes]
    by_cases hsecond : ∀ c ∈ char_codes.second after, c.toNat < 0x80
    · rw [after_escape_encode hsecond]
      apply ih
      intro hrest
      exact hwide fun c hc => (List.mem_append.mp hc).elim (hsecond c) (hrest c)
    · push Not at hsecond
      obtain ⟨c, hc, hbeyond⟩ := hsecond
      obtain ⟨rest, rfl⟩ := Codes.eq_cons_of_mem_second hc
      obtain ⟨byte, more, hbyte, hafter⟩ := after_escape_encode_wide hbeyond rest
      have hne {code : UInt8} (hcode : code.toNat < 0x80) : byte ≠ code := by
        rintro rfl
        exact absurd hbyte.1 (not_le.mpr hcode)
      refine ⟨[], byte, byte_codes.strip more, hbyte, ?_⟩
      rw [hafter, Codes.strip_letter (Codes.escape_of_ne (hne (by decide)) (hne (by decide)) _)]
      rfl
  | letter c rest hescape ih =>
    rw [Codes.seconds_letter hescape] at hwide
    obtain ⟨kept, byte, more, hbyte, hstrip⟩ := ih hwide
    refine ⟨c :: kept, byte, more, hbyte, ?_⟩
    rw [strip_encode_letter hescape, hstrip, encode_cons, List.append_assoc]

theorem escape_eq_none_iff {s : Str} :
    char_codes.escape s = none ↔ ¬ "\x1b".toList <+: s ∧ ¬ "#033".toList <+: s :=
  Codes.escape_eq_none_iff

/-- No escape begins anywhere in a text without escapes. -/
theorem escape_of_plain {s : Str} (hplain : has_esc s = false) (i : Nat) :
    char_codes.escape ((s ++ []).drop i) = none := by
  rw [has_esc_eq_false] at hplain
  rw [List.append_nil, escape_eq_none_iff]
  constructor
  · exact fun hesc => hplain.1 ((List.drop_suffix i s).subset (hesc.subset (by decide)))
  · exact fun hoctal => hplain.2 (hoctal.isInfix.trans (List.drop_suffix i s).isInfix)

theorem strip_of_plain {s : Str} (hplain : has_esc s = false) : char_codes.strip s = s := by
  have hkept := Codes.strip_append (k := char_codes) fun i _ => escape_of_plain hplain i
  rwa [Codes.strip_nil, List.append_nil] at hkept

theorem asciiSeconds_of_plain {s : Str} (hplain : has_esc s = false) : AsciiSeconds s := by
  have hnone := Codes.seconds_append (k := char_codes) fun i _ => escape_of_plain hplain i
  rw [Codes.seconds_nil, List.append_nil] at hnone
  intro c hc
  rw [hnone] at hc
  cases hc

/-- What the scan of a whole text keeps. -/
theorem strip_rounds_encode (s : Str) :
    ∃ t, strip_rounds (encode s) { i := 0, out := [] } = .ok () t ∧
      t.out = byte_codes.strip (encode s) :=
  strip_rounds_run (Nat.zero_le _)

/-- As long as only ASCII is taken along, stripping works on the characters. -/
theorem strip_ansi_eq {s : Str} (hseconds : AsciiSeconds s) :
    strip_ansi s = .ok (char_codes.strip s) := by
  unfold strip_ansi
  split
  · next hplain => rw [strip_of_plain hplain]
  · obtain ⟨t, hrun, hout⟩ := strip_rounds_encode s
    rw [strip_encode hseconds] at hout
    unfold encode at hrun
    dsimp only
    rw [hrun]
    dsimp only
    rw [hout, decode_encode, Option.getD_some, String.toList_ofList]

/-- Bytes that go on with a continuation after whole characters are no text. -/
theorem ofUtf8_of_continuation {kept : Str} {byte : UInt8} {more : Bytes} (hbyte : Continuation byte) :
    cbor.ofUtf8 (encode kept ++ byte :: more) = none := by
  cases htext : cbor.ofUtf8 (encode kept ++ byte :: more) with
  | none => rfl
  | some text =>
    have hbytes := cbor.utf8_of_ofUtf8 htext
    rw [← String.ofList_toList (s := text)] at hbytes
    exact absurd hbytes (not_encode_of_continuation hbyte)

/-- Otherwise nothing is left. -/
theorem strip_ansi_eq_nil {s : Str} (hseconds : ¬ AsciiSeconds s) : strip_ansi s = .ok [] := by
  unfold strip_ansi
  split
  · next hplain => exact absurd (asciiSeconds_of_plain hplain) hseconds
  · obtain ⟨t, hrun, hout⟩ := strip_rounds_encode s
    obtain ⟨kept, byte, more, hbyte, hstrip⟩ := strip_encode_wide hseconds
    unfold encode at hrun
    dsimp only
    rw [hrun]
    dsimp only
    rw [hout, hstrip, ofUtf8_of_continuation hbyte]
    rfl

/-- What is kept can be read again only if nothing else was taken along. -/
theorem asciiSeconds_of_text {s : Str} (htext : ∃ t text,
    strip_rounds (encode s) { i := 0, out := [] } = .ok () t ∧ t.out = encode text) : AsciiSeconds s := by
  by_contra hwide
  obtain ⟨t, text, hrun, hout⟩ := htext
  obtain ⟨t', hrun', hout'⟩ := strip_rounds_encode s
  obtain ⟨kept, byte, more, hbyte, hstrip⟩ := strip_encode_wide hwide
  rw [hrun] at hrun'
  cases hrun'
  rw [hout, hstrip] at hout'
  exact not_encode_of_continuation hbyte hout'

/-- What stripping keeps is a text, namely the result, and begins with what comes before the first
escape, if and only if no character beyond ASCII is taken along as the second of two. -/
theorem strip_ansi_keeps_text_iff (s : Str) :
    (∃ t text, strip_rounds (encode s) { i := 0, out := [] } = .ok () t ∧ t.out = encode text ∧
      strip_ansi s = .ok text ∧
      ∀ before rest, s = before ++ rest →
        (∀ i < before.length, ¬ "\x1b".toList <+: s.drop i ∧ ¬ "#033".toList <+: s.drop i) →
        before <+: text) ↔
    AsciiSeconds s := by
  obtain ⟨t, hrun, hout⟩ := strip_rounds_encode s
  constructor
  · rintro ⟨t', text, hrun', hout', -⟩
    exact asciiSeconds_of_text ⟨t', text, hrun', hout'⟩
  · intro hseconds
    refine ⟨t, char_codes.strip s, hrun, by rw [hout, strip_encode hseconds], strip_ansi_eq hseconds, ?_⟩
    rintro before rest rfl hplain
    rw [Codes.strip_append fun i hi => escape_eq_none_iff.mpr (hplain i hi)]
    exact List.prefix_append _ _

/-- The first byte of `é` is taken along by an escape, and the whole text is lost. -/
theorem strip_ansi_loses_text :
    strip_ansi "a\x1bé".toList = .ok [] ∧
      (¬ ∃ t text, strip_rounds (encode "a\x1bé".toList) { i := 0, out := [] } = .ok () t ∧
        t.out = encode text) ∧
      "a\x1bé".toList = "a".toList ++ "\x1bé".toList ∧ has_esc "a".toList = false ∧
        ¬ "a".toList <+: [] := by
  have hseconds : char_codes.seconds "a\x1bé".toList = ['é'] := by
    rw [show "a\x1bé".toList = 'a' :: '\x1b' :: ['é'] from rfl, Codes.seconds_letter (by decide),
      Codes.seconds_escape (show char_codes.escape ('\x1b' :: ['é']) = some ['é'] by decide)]
    simp [Codes.second, Codes.after_escape]
  have hwide : ¬ AsciiSeconds "a\x1bé".toList := by
    rw [AsciiSeconds, hseconds]
    decide
  exact ⟨strip_ansi_eq_nil hwide, fun htext => hwide (asciiSeconds_of_text htext), rfl, by decide, by decide⟩

end spotflowd.sources
