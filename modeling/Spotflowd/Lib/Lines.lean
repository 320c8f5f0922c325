import Spotflowd.Lib.Cbor
import Spotflowd.Lib.Str

namespace lines

open str

abbrev Bytes := List UInt8

def NEWLINE : UInt8 := 10

/-- A text in UTF-8. -/
def encode (s : Str) : Bytes := cbor.utf8 (String.ofList s)

theorem decode_encode (s : Str) : cbor.ofUtf8 (encode s) = some (String.ofList s) :=
  cbor.ofUtf8_utf8 (String.ofList s)

@[simp] theorem encode_nil : encode [] = [] := rfl

theorem encode_cons (c : Char) (s : Str) : encode (c :: s) = String.utf8EncodeChar c ++ encode s := by
  unfold encode cbor.utf8
  rw [String.toByteArray_ofList, String.toByteArray_ofList, List.utf8Encode_cons,
    List.utf8Encode_singleton, ByteArray.data_append, Array.toList_append]
  simp

theorem encode_append (s t : Str) : encode (s ++ t) = encode s ++ encode t := by
  induction s with
  | nil => rfl
  | cons c s ih => rw [List.cons_append, encode_cons, encode_cons, ih, List.append_assoc]

theorem newline_eq_ofNat {n : Nat} : NEWLINE = UInt8.ofNat n ↔ n % 256 = 10 := by
  rw [← UInt8.toNat_inj, UInt8.toNat_ofNat', eq_comm]
  rfl

/-- Only a newline has the byte of one. -/
theorem newline_not_mem_char {c : Char} (hc : c ≠ '\n') : NEWLINE ∉ String.utf8EncodeChar c := by
  have hval : c.val.toNat ≠ 10 := fun heq => hc (Char.ext (UInt32.toNat_inj.mp heq))
  fun_cases String.utf8EncodeChar c
  all_goals
    simp only [List.mem_cons, List.not_mem_nil, or_false, newline_eq_ofNat]
    omega

theorem newline_not_mem_encode {s : Str} (hs : '\n' ∉ s) : NEWLINE ∉ encode s := by
  induction s with
  | nil => simp
  | cons c s ih =>
    rw [encode_cons, List.mem_append]
    rintro (hmem | hmem)
    · exact newline_not_mem_char (List.ne_of_not_mem_cons hs).symm hmem
    · exact ih (List.not_mem_of_not_mem_cons hs) hmem

theorem encode_line (line : Str) : encode (line ++ ['\n']) = encode line ++ [NEWLINE] := by
  rw [encode_append]
  rfl

/-- `read_line`: the bytes up to and including the next newline, or all of them. -/
def next_line : Bytes → Bytes
  | [] => []
  | b :: rest => if b = NEWLINE then [b] else b :: next_line rest

theorem next_line_eq_nil {b : Bytes} : next_line b = [] ↔ b = [] := by
  cases b with
  | nil => simp [next_line]
  | cons byte rest =>
    rw [next_line]
    split <;> simp

theorem next_line_append {b : Bytes} (hb : NEWLINE ∉ b) (rest : Bytes) :
    next_line (b ++ NEWLINE :: rest) = b ++ [NEWLINE] := by
  induction b with
  | nil => rfl
  | cons byte b ih =>
    rw [List.cons_append, next_line, if_neg (List.ne_of_not_mem_cons hb).symm,
      ih (List.not_mem_of_not_mem_cons hb)]
    rfl

/-- Lines with their newlines. -/
def join (lines : List Str) : Str := lines.flatMap (· ++ ['\n'])

/-- Lines with their newlines, in UTF-8. -/
def render (lines : List Str) : Bytes := encode (join lines)

/-- Texts of one line each. -/
def Single (lines : List Str) : Prop := ∀ line ∈ lines, '\n' ∉ line

theorem single_of_line {line : Str} (hline : '\n' ∉ line) : Single [line] :=
  fun _ hmem => List.mem_singleton.mp hmem ▸ hline

@[simp] theorem render_nil : render [] = [] := rfl

theorem render_cons (line : Str) (lines : List Str) :
    render (line :: lines) = encode line ++ NEWLINE :: render lines := by
  unfold render join
  rw [List.flatMap_cons, encode_append, encode_line, List.append_assoc]
  rfl

theorem render_append (lines more : List Str) : render (lines ++ more) = render lines ++ render more := by
  unfold render join
  rw [List.flatMap_append, encode_append]

theorem render_singleton (line : Str) : render [line] = encode line ++ [NEWLINE] := by
  rw [render_cons, render_nil]

theorem encode_inj {s t : Str} (heq : encode s = encode t) : s = t := by
  have hdecode := decode_encode s
  rw [heq, decode_encode, Option.some.injEq] at hdecode
  exact (String.ofList_injective hdecode).symm

/-- Lines are told apart by their newlines. -/
theorem render_inj {lines more : List Str} (hlines : Single lines) (hmore : Single more)
    (heq : render lines = render more) : lines = more := by
  induction lines generalizing more with
  | nil =>
    cases more with
    | nil => rfl
    | cons line more => simp [render_cons] at heq
  | cons line lines ih =>
    cases more with
    | nil => simp [render_cons] at heq
    | cons other more =>
      rw [render_cons, render_cons] at heq
      have hfirst := congrArg next_line heq
      rw [next_line_append (newline_not_mem_encode (hlines line List.mem_cons_self)),
        next_line_append (newline_not_mem_encode (hmore other List.mem_cons_self))] at hfirst
      obtain rfl := encode_inj (List.append_cancel_right hfirst)
      have hrest := (List.cons.inj (List.append_cancel_left heq)).2
      rw [ih (fun l hl => hlines l (List.mem_cons_of_mem _ hl))
        (fun l hl => hmore l (List.mem_cons_of_mem _ hl)) hrest]

/-- Bytes that are the lines of a text, none of them unfinished. -/
def WholeLines (bytes : Bytes) : Prop := ∃ lines, Single lines ∧ bytes = render lines

theorem WholeLines.nil : WholeLines [] := ⟨[], (fun _ hline => by cases hline), rfl⟩

theorem WholeLines.append {bytes more : Bytes} (hbytes : WholeLines bytes) (hmore : WholeLines more) :
    WholeLines (bytes ++ more) := by
  obtain ⟨lines, hsingle, rfl⟩ := hbytes
  obtain ⟨others, hothers, rfl⟩ := hmore
  refine ⟨lines ++ others, fun line hline => ?_, (render_append lines others).symm⟩
  exact (List.mem_append.mp hline).elim (hsingle line) (hothers line)

/-- The first of some lines is followed by whole lines. -/
theorem WholeLines.line {bytes : Bytes} (hbytes : WholeLines bytes) (hne : bytes ≠ []) :
    ∃ line rest, '\n' ∉ line ∧ bytes = encode line ++ NEWLINE :: rest ∧ WholeLines rest := by
  obtain ⟨lines, hsingle, rfl⟩ := hbytes
  cases lines with
  | nil => exact absurd rfl hne
  | cons line lines =>
    exact ⟨line, render lines, hsingle line List.mem_cons_self, render_cons line lines, lines,
      fun other hother => hsingle other (List.mem_cons_of_mem _ hother), rfl⟩

/-- A text that starts with the bytes of another starts with it. -/
theorem prefix_of_encode_append {s t : Str} {rest : Bytes} (hstarts : encode s ++ rest <+: encode t) :
    ∃ tail, t = s ++ tail ∧ rest <+: encode tail := by
  obtain ⟨more, hmore⟩ := hstarts
  have hbytes (text : Str) : text.utf8Encode = ⟨(encode text).toArray⟩ := by
    unfold encode cbor.utf8
    rw [String.toByteArray_ofList]
  have happend : s.utf8Encode ++ ⟨(rest ++ more).toArray⟩ = t.utf8Encode := by
    apply ByteArray.ext
    apply Array.toList_inj.mp
    rw [hbytes, hbytes, ByteArray.data_append, Array.toList_append, ← hmore, List.append_assoc]
  obtain ⟨tail, rfl⟩ := List.isPrefix_of_utf8Encode_append_eq_utf8Encode _ happend
  refine ⟨tail, rfl, more, ?_⟩
  rw [encode_append, List.append_assoc] at hmore
  exact List.append_cancel_left hmore

/-- Within a text, bytes up to a newline are a line of it. -/
theorem line_of_newline {bytes : Bytes} {text : Str} (hstarts : bytes <+: encode text)
    (hnewline : NEWLINE ∈ bytes) :
    ∃ line rest, '\n' ∉ line ∧ bytes = encode line ++ NEWLINE :: rest := by
  have hmem : '\n' ∈ text := by
    by_contra hnot
    exact newline_not_mem_encode hnot (hstarts.subset hnewline)
  obtain ⟨line, tail, rfl, hline⟩ := List.eq_append_cons_of_mem hmem
  have hwhole : encode line ++ [NEWLINE] <+: encode (line ++ '\n' :: tail) := by
    have hsplit : line ++ '\n' :: tail = (line ++ ['\n']) ++ tail := by simp
    rw [hsplit, encode_append, encode_line]
    exact List.prefix_append _ _
  have hlong : (encode line ++ [NEWLINE]).length ≤ bytes.length := by
    by_contra hshort
    rw [List.length_append, List.length_singleton] at hshort
    have hinside : bytes <+: encode line :=
      List.prefix_of_prefix_length_le hstarts ((List.prefix_append _ _).trans hwhole) (by omega)
    exact newline_not_mem_encode hline (hinside.subset hnewline)
  obtain ⟨rest, hrest⟩ := List.prefix_of_prefix_length_le hwhole hstarts hlong
  exact ⟨line, rest, hline, by rw [← hrest, List.append_assoc]; rfl⟩

end lines
