import Spotflowd.Lib.Sequences
import Spotflowd.Sources.Stripping

open effect escapes lines str

namespace spotflowd.sources

theorem char_codes_apart : char_codes.Apart where
  esc_ne_hash := by decide
  bracket_ne_esc := by decide
  bracket_ne_hash := by decide
  esc_not_mem_octal := by decide
  hash_not_mem_octal := by decide
  esc_not_final := by decide
  hash_not_final := by decide
  bracket_not_final := by decide
  octal_not_final := by decide

theorem has_esc_eq_false_iff_plain {s : Str} : has_esc s = false ↔ char_codes.Plain s := has_esc_eq_false

/-- Stripping again changes something exactly when removing sequences has joined an escape. -/
theorem strip_ansi_eq_self_iff {s : Str} : strip_ansi s = .ok s ↔ has_esc s = false := by
  refine ⟨fun hsame => ?_, strip_ansi_of_plain⟩
  by_cases hseconds : AsciiSeconds s
  · rw [strip_ansi_eq hseconds, Except.ok.injEq] at hsame
    exact has_esc_eq_false_iff_plain.mpr (Codes.strip_eq_self_iff.mp hsame)
  · rw [strip_ansi_eq_nil hseconds, Except.ok.injEq] at hsame
    rw [← hsame]
    rfl

/-- What is left has no ESC, and neither spelling of one in any of the pieces kept between the
sequences; stripping it again changes nothing if and only if the pieces put together have none. -/
theorem no_escape_is_left (s : Str) :
    ∃ kept, strip_ansi s = .ok kept ∧
      kept = (if AsciiSeconds s then (char_codes.pieces s).flatten else []) ∧ '\x1b' ∉ kept ∧
      (∀ piece ∈ char_codes.pieces s, '\x1b' ∉ piece ∧ ¬ "#033".toList <:+: piece) ∧
      (strip_ansi kept = .ok kept ↔ ¬ "#033".toList <:+: kept) := by
  have hpieces : ∀ piece ∈ char_codes.pieces s, '\x1b' ∉ piece ∧ ¬ "#033".toList <:+: piece :=
    fun _ hpiece => Codes.plain_of_mem_pieces hpiece
  have hagain {kept : Str} (hesc : '\x1b' ∉ kept) :
      strip_ansi kept = .ok kept ↔ ¬ "#033".toList <:+: kept := by
    rw [strip_ansi_eq_self_iff, has_esc_eq_false, and_iff_right hesc]
  by_cases hseconds : AsciiSeconds s
  · have hesc := Codes.esc_not_mem_strip (k := char_codes) s
    rw [Codes.strip_eq_flatten] at hesc
    refine ⟨(char_codes.pieces s).flatten, ?_, by rw [if_pos hseconds], hesc, hpieces, hagain hesc⟩
    rw [strip_ansi_eq hseconds, Codes.strip_eq_flatten]
  · have hesc : '\x1b' ∉ ([] : Str) := List.not_mem_nil
    exact ⟨[], strip_ansi_eq_nil hseconds, by rw [if_neg hseconds], hesc, hpieces, hagain hesc⟩

/-- Removing the sequence joins the characters around it to an escape. -/
theorem sequence_joins_escape :
    strip_ansi "#0\x1b[m33".toList = .ok "#033".toList ∧ strip_ansi "#033".toList = .ok [] := by
  decide +kernel

/-- A text with an escape in neither spelling. -/
abbrev PlainText := { s : Str // '\x1b' ∉ s ∧ ¬ "#033".toList <:+: s }

/-- A control sequence as terminals read it: ESC in one of the two spellings, `[`, parameter bytes,
intermediate bytes and a final byte. -/
structure Csi where
  spelled_out : Bool
  params : Str
  intermediates : Str
  final_byte : Char
  params_range : ∀ c ∈ params, 0x30 ≤ c.toNat ∧ c.toNat ≤ 0x3F
  intermediates_range : ∀ c ∈ intermediates, 0x20 ≤ c.toNat ∧ c.toNat ≤ 0x2F
  final_byte_range : 0x40 ≤ final_byte.toNat ∧ final_byte.toNat ≤ 0x7E

def Csi.letters (csi : Csi) : Str :=
  (if csi.spelled_out then "#033".toList else "\x1b".toList) ++
    '[' :: (csi.params ++ csi.intermediates ++ [csi.final_byte])

/-- Text, and then sequences with text after each of them. -/
def alternation (first : PlainText) (segments : List (Csi × PlainText)) : Str :=
  first.val ++ segments.flatMap fun segment => segment.1.letters ++ segment.2.val

def text_pieces (first : PlainText) (segments : List (Csi × PlainText)) : Str :=
  first.val ++ segments.flatMap fun segment => segment.2.val

/-- No parameter and no intermediate byte is a letter. -/
theorem Csi.not_alpha (csi : Csi) : ∀ c ∈ csi.params ++ csi.intermediates, c.isAlpha = false := by
  intro c hc
  rw [← Bool.not_eq_true, isAlpha_iff]
  obtain hc | hc := List.mem_append.mp hc
  · have hrange := csi.params_range c hc
    omega
  · have hrange := csi.intermediates_range c hc
    omega

def segment_of (segment : Csi × PlainText) : char_codes.Segment where
  spelled_out := segment.1.spelled_out
  body := segment.1.params ++ segment.1.intermediates
  last := segment.1.final_byte
  body_not_final := segment.1.not_alpha
  text := segment.2.val
  text_plain := segment.2.property

theorem alternation_eq (first : PlainText) (segments : List (Csi × PlainText)) :
    alternation first segments =
      first.val ++ (segments.map segment_of).flatMap Codes.Segment.letters := by
  rw [alternation, List.flatMap_map]
  rfl

theorem text_pieces_eq (first : PlainText) (segments : List (Csi × PlainText)) :
    text_pieces first segments = first.val ++ (segments.map segment_of).flatMap Codes.Segment.text := by
  rw [text_pieces, List.flatMap_map]
  rfl

/-- The text before the first sequence is kept whole, and after each sequence what its final byte
leaves of the text. -/
theorem strip_ansi_alternation (first : PlainText) (segments : List (Csi × PlainText)) :
    strip_ansi (alternation first segments) =
      .ok (first.val ++ (segments.map segment_of).flatMap Codes.Segment.left) := by
  obtain ⟨hkept, hsame⟩ :=
    Codes.strip_plain_append (k := char_codes) first.property (segments.map segment_of) char_codes_apart
  obtain ⟨⟨hstrip, hnone⟩, -⟩ := Codes.strip_segments (segments.map segment_of) char_codes_apart
  have hseconds : AsciiSeconds (alternation first segments) := by
    intro c hc
    rw [alternation_eq, hsame, hnone] at hc
    cases hc
  rw [strip_ansi_eq hseconds, alternation_eq, hkept, hstrip]

/-- A text without escapes comes through the short circuit and through the loop as it is. -/
theorem plain_text_is_unchanged (first : PlainText) :
    has_esc first.val = false ∧
      ∃ t, strip_rounds (encode first.val) { i := 0, out := [] } = .ok () t ∧ t.out = encode first.val := by
  have hplain : has_esc first.val = false := has_esc_eq_false.mpr first.property
  obtain ⟨t, hrun, hout⟩ := strip_rounds_encode first.val
  refine ⟨hplain, t, hrun, ?_⟩
  rw [hout, strip_encode (asciiSeconds_of_plain hplain), strip_of_plain hplain]

/-- The text pieces are what is left, and without sequences the short circuit and the loop both return
the input, if and only if no text comes after a sequence that does not end in a letter. -/
theorem removes_exactly_the_sequences_iff (first : PlainText) (segments : List (Csi × PlainText)) :
    (strip_ansi (alternation first segments) = .ok (text_pieces first segments) ∧
      (segments = [] → has_esc (alternation first segments) = false ∧
        ∃ t, strip_rounds (encode (alternation first segments)) { i := 0, out := [] } = .ok () t ∧
          t.out = encode (alternation first segments))) ↔
    ∀ segment ∈ segments, segment.1.final_byte.isAlpha = true ∨ segment.2.val = [] := by
  have hempty (hnone : segments = []) : alternation first segments = first.val := by
    rw [alternation, hnone, List.flatMap_nil, List.append_nil]
  have hplain (hnone : segments = []) : has_esc (alternation first segments) = false ∧
      ∃ t, strip_rounds (encode (alternation first segments)) { i := 0, out := [] } = .ok () t ∧
        t.out = encode (alternation first segments) := by
    rw [hempty hnone]
    exact plain_text_is_unchanged first
  rw [and_iff_left hplain, strip_ansi_alternation, text_pieces_eq, Except.ok.injEq, List.append_right_inj,
    Codes.flatMap_left_eq_iff, List.forall_mem_map]
  exact forall₂_congr fun segment _ => Codes.Segment.left_eq_text_iff (segment_of segment)

/-- The sequence ends at the first letter of the text after it, which is lost. -/
theorem sequence_takes_text_along :
    alternation ⟨[], by decide⟩ [(⟨false, "200".toList, [], '~', by decide, by decide, by decide⟩,
        ⟨"hello".toList, by decide⟩)] = "\x1b[200~hello".toList ∧
      text_pieces ⟨[], by decide⟩ [(⟨false, "200".toList, [], '~', by decide, by decide, by decide⟩,
        ⟨"hello".toList, by decide⟩)] = "hello".toList ∧
      strip_ansi "\x1b[200~hello".toList = .ok "ello".toList := by
  decide +kernel

/-- A text as rsyslog writes it. -/
def octal_escaped (s : Str) : Str := s.flatMap fun c => if c = '\x1b' then "#033".toList else [c]

theorem octal_escaped_eq (s : Str) : octal_escaped s = char_codes.respell s := rfl

/-- Spelling out an ESC takes nothing along beyond ASCII. -/
theorem asciiSeconds_octal_escaped {s : Str} (hspelled : ¬ "#033".toList <:+: s)
    (hseconds : AsciiSeconds s) : AsciiSeconds (octal_escaped s) := by
  intro c hc
  obtain rfl | hc := Codes.mem_seconds_respell (k := char_codes) hspelled char_codes_apart hc
  · decide
  · exact hseconds c hc

/-- Both spellings are stripped alike if and only if no ESC is itself taken along by an ESC. -/
theorem spellings_are_stripped_alike_iff {s : Str} (hspelled : ¬ "#033".toList <:+: s)
    (htext : ∃ t text, strip_rounds (encode s) { i := 0, out := [] } = .ok () t ∧ t.out = encode text) :
    strip_ansi (octal_escaped s) = strip_ansi s ↔ '\x1b' ∉ char_codes.seconds s := by
  have hseconds := asciiSeconds_of_text htext
  rw [strip_ansi_eq hseconds, strip_ansi_eq (asciiSeconds_octal_escaped hspelled hseconds),
    Except.ok.injEq, octal_escaped_eq]
  exact Codes.strip_respell_eq_iff (by decide) hspelled char_codes_apart

theorem spellings_are_stripped_alike_iff_reset : strip_ansi (octal_escaped "\x1b[0mx".toList) =
    strip_ansi "\x1b[0mx".toList ↔ '\x1b' ∉ char_codes.seconds "\x1b[0mx".toList := by
  have hkept : ∃ t, strip_rounds (encode "\x1b[0mx".toList) { i := 0, out := [] } = .ok () t ∧
      t.out = encode "x".toList := ⟨{ i := 5, out := encode "x".toList }, rfl, rfl⟩
  obtain ⟨t, hrun, hout⟩ := hkept
  exact spellings_are_stripped_alike_iff (by decide) ⟨t, "x".toList, hrun, hout⟩

/-- Of an ESC spelled out only the first character is taken along by the one before it. -/
theorem esc_taken_along_is_left_over :
    (¬ "#033".toList <:+: "\x1b\x1bx".toList ∧
      ∃ t, strip_rounds (encode "\x1b\x1bx".toList) { i := 0, out := [] } = .ok () t ∧
        t.out = encode "x".toList) ∧
      strip_ansi "\x1b\x1bx".toList = .ok "x".toList ∧
      octal_escaped "\x1b\x1bx".toList = "#033#033x".toList ∧
      strip_ansi "#033#033x".toList = .ok "033x".toList := by
  refine ⟨⟨by decide, { i := 3, out := encode "x".toList }, rfl, rfl⟩, ?_⟩
  decide +kernel

end spotflowd.sources
