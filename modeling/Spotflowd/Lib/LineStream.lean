import Spotflowd.Lib.Lines

namespace lines

/-- The lines of some bytes, each with its newline; the last one may lack it. -/
def split : Bytes → List Bytes
  | [] => []
  | b :: rest =>
    if b = NEWLINE then [b] :: split rest
    else
      match split rest with
      | [] => [[b]]
      | line :: more => (b :: line) :: more

/-- Bytes that end where a line ends. -/
def Complete (bytes : Bytes) : Prop := ∀ b ∈ bytes.getLast?, b = NEWLINE

theorem Complete.nil : Complete [] := fun _ hmem => by cases hmem

theorem Complete.tail {b : UInt8} {rest : Bytes} (hcomplete : Complete (b :: rest)) (hne : rest ≠ []) :
    Complete rest := by
  obtain ⟨c, rest, rfl⟩ := List.exists_cons_of_ne_nil hne
  unfold Complete at hcomplete ⊢
  rwa [List.getLast?_cons_cons] at hcomplete

theorem Complete.append {bytes more : Bytes} (hbytes : Complete bytes) (hmore : Complete more) :
    Complete (bytes ++ more) := by
  unfold Complete at hbytes hmore ⊢
  rw [List.getLast?_append]
  cases hlast : more.getLast? with
  | none => exact hbytes
  | some b =>
    rw [hlast] at hmore
    exact hmore

theorem split_cons {b : UInt8} {rest line : Bytes} {more : List Bytes} (hb : b ≠ NEWLINE)
    (hrest : split rest = line :: more) : split (b :: rest) = (b :: line) :: more := by
  rw [split, if_neg hb, hrest]

theorem split_eq_nil {bytes : Bytes} : split bytes = [] ↔ bytes = [] := by
  cases bytes with
  | nil => simp [split]
  | cons b rest =>
    rw [split]
    split
    · simp
    · split <;> simp

/-- What comes after the end of a line starts a line. -/
theorem split_append {bytes : Bytes} (hcomplete : Complete bytes) (more : Bytes) :
    split (bytes ++ more) = split bytes ++ split more := by
  induction bytes with
  | nil => rfl
  | cons b rest ih =>
    by_cases hb : b = NEWLINE
    · by_cases hrest : rest = []
      · simp [hrest, split, hb]
      · rw [List.cons_append, split, if_pos hb, ih (hcomplete.tail hrest), split, if_pos hb]
        rfl
    · have hrest : rest ≠ [] := by
        rintro rfl
        exact hb (hcomplete b rfl)
      obtain ⟨line, lines, hlines⟩ := List.exists_cons_of_ne_nil (mt split_eq_nil.mp hrest)
      have happend := ih (hcomplete.tail hrest)
      rw [hlines, List.cons_append] at happend
      rw [List.cons_append, split_cons hb happend, split_cons hb hlines, List.cons_append]

/-- With a newline among the bytes, reading a line reads all of it. -/
theorem next_line_complete {bytes : Bytes} (hnewline : NEWLINE ∈ bytes) : Complete (next_line bytes) := by
  induction bytes with
  | nil => cases hnewline
  | cons b rest ih =>
    rw [next_line]
    split
    · next hb => exact fun c hc => (Option.mem_some_iff.mp hc) ▸ hb
    · next hb =>
      have hrest : NEWLINE ∈ rest := (List.mem_cons.mp hnewline).resolve_left (Ne.symm hb)
      have hne : next_line rest ≠ [] := mt next_line_eq_nil.mp (List.ne_nil_of_mem hrest)
      obtain ⟨c, more, hmore⟩ := List.exists_cons_of_ne_nil hne
      have hcomplete := ih hrest
      unfold Complete at hcomplete ⊢
      rw [hmore] at hcomplete ⊢
      rwa [List.getLast?_cons_cons]

/-- Without a newline, the line is all there is. -/
theorem next_line_of_not_mem {bytes : Bytes} (hnewline : NEWLINE ∉ bytes) : next_line bytes = bytes := by
  induction bytes with
  | nil => rfl
  | cons b rest ih =>
    rw [next_line, if_neg (List.ne_of_not_mem_cons hnewline).symm,
      ih (List.not_mem_of_not_mem_cons hnewline)]

/-- A line that is read is a line of its own. -/
theorem split_line {bytes : Bytes} (hne : bytes ≠ []) : split (next_line bytes) = [next_line bytes] := by
  induction bytes with
  | nil => exact absurd rfl hne
  | cons b rest ih =>
    rw [next_line]
    split
    · next hb => simp [split, hb]
    · next hb =>
      by_cases hrest : rest = []
      · simp [hrest, next_line, split, hb]
      · exact split_cons hb (ih hrest)

end lines
