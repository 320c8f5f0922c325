import Spotflowd.Lib.Separator
import Mathlib.Data.List.DropRight
import Mathlib.Algebra.Ring.Int.Defs
import Mathlib.Algebra.Ring.Nat

namespace str

/-- A `str`: its characters. Offsets count the bytes of their UTF-8 encoding. -/
abbrev Str := List Char

/-- A fact about all characters of a text is decided by going through the text, not through
all characters there are. -/
instance (priority := 2000) {p : Char → Prop} [DecidablePred p] (s : Str) : Decidable (∀ c ∈ s, p c) :=
  List.decidableBAll p s

/-- What an expression does that is out of bounds. -/
inductive Panic where
  | slice
  | index
deriving DecidableEq

abbrev Checked := Except Panic

@[simp] theorem ok_bind {α β : Type} (a : α) (f : α → Checked β) :
    (Except.ok a : Checked α) >>= f = f a := rfl

/-- `Vec::index`. -/
def index {α : Type} (items : List α) (i : Nat) : Checked α :=
  match items[i]? with
  | some item => .ok item
  | none => .error .index

/-- Length in bytes. -/
def len (s : Str) : Nat := (s.map Char.utf8Size).sum

@[simp] theorem len_nil : len [] = 0 := rfl

@[simp] theorem len_cons (c : Char) (s : Str) : len (c :: s) = c.utf8Size + len s := rfl

@[simp] theorem len_append (s t : Str) : len (s ++ t) = len s + len t := by
  simp [len]

/-- `str::split_at_checked`: nothing when the offset is beyond the end or inside a character. -/
def split_at : Str → Nat → Option (Str × Str)
  | s, 0 => some ([], s)
  | [], _ + 1 => none
  | c :: s, n + 1 =>
    if c.utf8Size ≤ n + 1 then (split_at s (n + 1 - c.utf8Size)).map fun halves => (c :: halves.1, halves.2)
    else none

theorem split_at_append (s t : Str) : split_at (s ++ t) (len s) = some (s, t) := by
  induction s with
  | nil => cases t <;> rfl
  | cons c s ih =>
    have hpos := c.utf8Size_pos
    obtain ⟨n, hn⟩ : ∃ n, len (c :: s) = n + 1 := ⟨len (c :: s) - 1, by rw [len_cons]; omega⟩
    have hrest : n + 1 - c.utf8Size = len s := by rw [← hn, len_cons]; omega
    have hle : c.utf8Size ≤ n + 1 := by rw [← hn, len_cons]; omega
    rw [hn, List.cons_append, split_at, if_pos hle, hrest, ih, Option.map_some]

/-- `&s[start..]` -/
def slice_from (s : Str) (start : Nat) : Checked Str :=
  match split_at s start with
  | some (_, rest) => .ok rest
  | none => .error .slice

/-- `&s[..stop]` -/
def slice_to (s : Str) (stop : Nat) : Checked Str :=
  match split_at s stop with
  | some (front, _) => .ok front
  | none => .error .slice

/-- `&s[start..stop]` -/
def slice (s : Str) (start stop : Nat) : Checked Str :=
  if start ≤ stop then
    match split_at s stop with
    | some (front, _) => slice_from front start
    | none => .error .slice
  else .error .slice

theorem slice_from_append (s t : Str) : slice_from (s ++ t) (len s) = .ok t := by
  rw [slice_from, split_at_append]

theorem slice_to_append (s t : Str) : slice_to (s ++ t) (len s) = .ok s := by
  rw [slice_to, split_at_append]

theorem slice_append (s t u : Str) : slice (s ++ t ++ u) (len s) (len (s ++ t)) = .ok t := by
  rw [slice, if_pos (by simp), split_at_append]
  exact slice_from_append s t

/-- `str::find` of a character. -/
def find (c : Char) : Str → Option Nat
  | [] => none
  | d :: s => if d = c then some 0 else (find c s).map (· + d.utf8Size)

/-- `str::split_once` at a character. -/
def split_once (c : Char) : Str → Option (Str × Str)
  | [] => none
  | d :: s => if d = c then some ([], s) else (split_once c s).map fun halves => (d :: halves.1, halves.2)

/-- What `find` finds is where `split_once` splits. -/
theorem find_eq (c : Char) (s : Str) : find c s = (split_once c s).map fun halves => len halves.1 := by
  induction s with
  | nil => rfl
  | cons d s ih =>
    rw [find, split_once]
    split
    · rfl
    · rw [ih, Option.map_map, Option.map_map]
      congr 1
      funext halves
      simp [Nat.add_comm]

theorem split_once_append {c : Char} {before : Str} (hbefore : c ∉ before) (after : Str) :
    split_once c (before ++ c :: after) = some (before, after) := by
  induction before with
  | nil => simp [split_once]
  | cons d before ih =>
    rw [List.cons_append, split_once, if_neg (List.ne_of_not_mem_cons hbefore).symm,
      ih (List.not_mem_of_not_mem_cons hbefore)]
    rfl

theorem split_once_eq_some {c : Char} {s before after : Str} (hsplit : split_once c s = some (before, after)) :
    s = before ++ c :: after ∧ c ∉ before := by
  induction s generalizing before with
  | nil => cases hsplit
  | cons d s ih =>
    unfold split_once at hsplit
    split at hsplit
    · next heq =>
      cases hsplit
      exact ⟨by rw [heq]; rfl, List.not_mem_nil⟩
    · next hne =>
      obtain ⟨halves, hhalves, heq⟩ := Option.map_eq_some_iff.mp hsplit
      cases heq
      obtain ⟨rfl, hmem⟩ := ih hhalves
      exact ⟨rfl, List.not_mem_cons_of_ne_of_not_mem (Ne.symm hne) hmem⟩

theorem split_once_eq_none {c : Char} {s : Str} : split_once c s = none ↔ c ∉ s := by
  constructor
  · intro hnone hmem
    obtain ⟨before, after, rfl, hbefore⟩ := List.eq_append_cons_of_mem hmem
    rw [split_once_append hbefore] at hnone
    cases hnone
  · intro hmem
    cases hsplit : split_once c s with
    | none => rfl
    | some halves =>
      obtain ⟨rfl, -⟩ := split_once_eq_some hsplit
      exact absurd (List.mem_append_right _ List.mem_cons_self) hmem

/-- `str::find` of a text. -/
def find_str (pat : Str) : Str → Option Nat
  | [] => if pat = [] then some 0 else none
  | c :: s => if pat.isPrefixOf (c :: s) then some 0 else (find_str pat s).map (· + c.utf8Size)

/-- `str::split_once` at a text. -/
def split_once_str (pat : Str) : Str → Option (Str × Str)
  | [] => if pat = [] then some ([], []) else none
  | c :: s =>
    if pat.isPrefixOf (c :: s) then some ([], (c :: s).drop pat.length)
    else (split_once_str pat s).map fun halves => (c :: halves.1, halves.2)

theorem find_str_eq (pat s : Str) :
    find_str pat s = (split_once_str pat s).map fun halves => len halves.1 := by
  induction s with
  | nil =>
    rw [find_str, split_once_str]
    split <;> rfl
  | cons c s ih =>
    rw [find_str, split_once_str]
    split
    · rfl
    · rw [ih, Option.map_map, Option.map_map]
      congr 1
      funext halves
      simp [Nat.add_comm]

theorem split_once_str_eq_some {pat s before after : Str}
    (hsplit : split_once_str pat s = some (before, after)) : s = before ++ pat ++ after := by
  induction s generalizing before with
  | nil =>
    unfold split_once_str at hsplit
    split at hsplit
    · next hpat =>
      cases hsplit
      rw [hpat]
      rfl
    · cases hsplit
  | cons c s ih =>
    unfold split_once_str at hsplit
    split at hsplit
    · next hstarts =>
      cases hsplit
      obtain ⟨rest, hrest⟩ := List.isPrefixOf_iff_prefix.mp hstarts
      rw [← hrest, List.drop_left, List.nil_append]
    · obtain ⟨halves, hhalves, heq⟩ := Option.map_eq_some_iff.mp hsplit
      cases heq
      rw [ih hhalves]
      rfl

theorem split_once_str_isSome {pat s : Str} : (split_once_str pat s).isSome = true ↔ pat <:+: s := by
  induction s with
  | nil =>
    rw [split_once_str, List.infix_nil]
    split <;> simp [*]
  | cons c s ih =>
    rw [split_once_str, List.infix_cons_iff]
    split
    · next hstarts => simp [List.isPrefixOf_iff_prefix.mp hstarts]
    · next hstarts =>
      rw [Option.isSome_map, ih]
      rw [List.isPrefixOf_iff_prefix] at hstarts
      simp [hstarts]

/-- A text is found exactly where it occurs. -/
theorem find_str_isSome {pat s : Str} : (find_str pat s).isSome = true ↔ pat <:+: s := by
  rw [find_str_eq, Option.isSome_map, split_once_str_isSome]

theorem inside_of_prefix_append {pat before : Str} (hbefore : before ≠ []) (hstarts : pat <+: before ++ pat) :
    pat <:+: before ++ pat.dropLast := by
  have hlast : before ++ pat.dropLast <+: before ++ pat :=
    (List.prefix_append_right_inj before).mpr (List.dropLast_prefix pat)
  have hpos := List.length_pos_of_ne_nil hbefore
  have hlength : pat.length ≤ (before ++ pat.dropLast).length := by
    rw [List.length_append, List.length_dropLast]
    omega
  exact (List.prefix_of_prefix_length_le hstarts hlast hlength).isInfix

/-- Text in which no occurrence begins is passed over. -/
theorem split_once_str_skip {pat front s : Str}
    (hfront : ∀ start, start ≠ [] → start <:+ front → ¬ pat <+: start ++ s) :
    split_once_str pat (front ++ s) =
      (split_once_str pat s).map fun halves => (front ++ halves.1, halves.2) := by
  induction front with
  | nil => simp
  | cons c front ih =>
    have hstarts : ¬ pat.isPrefixOf (c :: (front ++ s)) = true := by
      rw [List.isPrefixOf_iff_prefix]
      exact hfront (c :: front) (List.cons_ne_nil c front) (List.suffix_refl _)
    have hrest := ih fun start hne hstart => hfront start hne (hstart.trans (List.suffix_cons c front))
    rw [List.cons_append, split_once_str, if_neg hstarts, hrest, Option.map_map]
    rfl

/-- A text is found where it is when it does not occur before. -/
theorem split_once_str_at {pat : Str} (hpat : pat ≠ []) {before : Str}
    (hfirst : ¬ pat <:+: before ++ pat.dropLast) (after : Str) :
    split_once_str pat (before ++ (pat ++ after)) = some (before, after) := by
  have hhere : split_once_str pat (pat ++ after) = some ([], after) := by
    obtain ⟨c, rest, rfl⟩ := List.exists_cons_of_ne_nil hpat
    have hstarts : (c :: rest).isPrefixOf (c :: (rest ++ after)) = true :=
      List.isPrefixOf_iff_prefix.mpr ⟨after, rfl⟩
    rw [List.cons_append, split_once_str, if_pos hstarts]
    simp
  rw [split_once_str_skip, hhere, Option.map_some, List.append_nil]
  intro start hne hstart hoccurs
  have hinside : pat <+: start ++ pat := by
    rw [← List.append_assoc] at hoccurs
    apply List.prefix_of_prefix_length_le hoccurs (List.prefix_append _ _)
    rw [List.length_append]
    omega
  obtain ⟨front, rfl⟩ := hstart
  apply hfirst
  rw [List.append_assoc]
  exact (inside_of_prefix_append hne hinside).trans (List.suffix_append _ _).isInfix

/-- And it is the first one that is found. -/
theorem split_once_str_first {pat s before after : Str} (hpat : pat ≠ [])
    (hsplit : split_once_str pat s = some (before, after)) : ¬ pat <:+: before ++ pat.dropLast := by
  intro hinside
  induction s generalizing before with
  | nil =>
    rw [split_once_str, if_neg hpat] at hsplit
    cases hsplit
  | cons c s ih =>
    rw [split_once_str] at hsplit
    split at hsplit
    · cases hsplit
      have hle := hinside.length_le
      have hpos := List.length_pos_of_ne_nil hpat
      rw [List.nil_append, List.length_dropLast] at hle
      omega
    · next hstarts =>
      obtain ⟨⟨front, rest⟩, hhalves, heq⟩ := Option.map_eq_some_iff.mp hsplit
      cases heq
      obtain hfront | htail := List.infix_cons_iff.mp hinside
      · apply hstarts
        rw [List.isPrefixOf_iff_prefix, split_once_str_eq_some hhalves, List.append_assoc]
        have hlast : pat.dropLast <+: pat ++ rest :=
          (List.dropLast_prefix pat).trans (List.prefix_append pat rest)
        exact hfront.trans (List.cons_prefix_cons.mpr ⟨rfl, (List.prefix_append_right_inj _).mpr hlast⟩)
      · exact ih hhalves htail

/-- A text is first found at the end when it occurs nowhere before. -/
theorem split_once_str_eq_end {pat : Str} (hpat : pat ≠ []) {s before : Str} :
    split_once_str pat s = some (before, []) ↔ s = before ++ pat ∧ ¬ pat <:+: before ++ pat.dropLast := by
  constructor
  · intro hsplit
    have hs := split_once_str_eq_some hsplit
    rw [List.append_nil] at hs
    exact ⟨hs, split_once_str_first hpat hsplit⟩
  · rintro ⟨rfl, hfirst⟩
    have hsplit := split_once_str_at hpat hfirst []
    rwa [List.append_nil] at hsplit

/-- A text whose first character does not occur before it is found there. -/
theorem split_once_str_append {c : Char} {pat before : Str} (hbefore : c ∉ before) (after : Str) :
    split_once_str (c :: pat) (before ++ (c :: pat ++ after)) = some (before, after) := by
  have hhere : (c :: pat).isPrefixOf (c :: (pat ++ after)) = true :=
    List.isPrefixOf_iff_prefix.mpr ⟨after, rfl⟩
  rw [split_once_str_skip]
  · rw [List.cons_append, split_once_str, if_pos hhere]
    simp
  · intro start hne hstart hoccurs
    obtain ⟨d, rest, rfl⟩ := List.exists_cons_of_ne_nil hne
    obtain rfl := (List.cons_prefix_cons.mp hoccurs).1
    exact hbefore (hstart.subset List.mem_cons_self)

end str
