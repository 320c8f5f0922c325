import Spotflowd.Lib.Cbor
import Spotflowd.Lib.Effect
import Spotflowd.Lib.Str

open effect str

namespace spotflowd.sources

def ESC : UInt8 := 0x1B
def HASH : UInt8 := 0x23
def BRACKET : UInt8 := 0x5B

/-- The octal number of `ESC`. -/
def OCTAL : List UInt8 := [0x30, 0x33, 0x33]

/-- Where the scan is, and the bytes it has kept. -/
structure Strip where
  i : Nat
  out : List UInt8
deriving DecidableEq

abbrev Scan := EStateM Panic Strip

def Scan.advance (n : Nat) : Scan Unit := modify fun s => { s with i := s.i + n }

def Scan.push (byte : UInt8) : Scan Unit := modify fun s => { s with out := s.out ++ [byte] }

/-- `b[i]` -/
def Scan.byte_at (b : List UInt8) (i : Nat) : Scan UInt8 :=
  match index b i with
  | .ok byte => pure byte
  | .error e => throw e

/-- `b.get(start..stop)` -/
def get_range (b : List UInt8) (start stop : Nat) : Option (List UInt8) :=
  if start ≤ stop ∧ stop ≤ b.length then some ((b.take stop).drop start) else none

def is_ascii_alphabetic (byte : UInt8) : Bool :=
  (0x41 ≤ byte && byte ≤ 0x5A) || (0x61 ≤ byte && byte ≤ 0x7A)

/-- A round of the loop over the parameters of a control sequence. -/
def skip_parameter (b : List UInt8) : Scan Bool := do
  let s ← get
  if s.i < b.length then
    let ch ← Scan.byte_at b s.i
    Scan.advance 1
    return !is_ascii_alphabetic ch
  else
    return false

def skip_parameters (b : List UInt8) : Scan Unit := loop (skip_parameter b) (b.length + 1)

/-- After consuming an ESC, in either spelling, skip the rest of the sequence. -/
def skip_after_esc (b : List UInt8) : Scan Unit := do
  let s ← get
  match b[s.i]? with
  | some byte =>
    if byte = BRACKET then
      Scan.advance 1
      skip_parameters b
    else
      Scan.advance 1
  | none => pure ()

/-- A round of the loop of `strip_ansi`. -/
def strip_round (b : List UInt8) : Scan Bool := do
  let s ← get
  if s.i < b.length then
    let byte ← Scan.byte_at b s.i
    if byte = ESC then
      Scan.advance 1
      skip_after_esc b
    else if byte = HASH ∧ get_range b (s.i + 1) (s.i + 4) = some OCTAL then
      Scan.advance 4
      skip_after_esc b
    else
      Scan.push byte
      Scan.advance 1
    return true
  else
    return false

def strip_rounds (b : List UInt8) : Scan Unit := loop (strip_round b) (b.length + 1)

def has_esc (s : Str) : Bool := s.contains '\x1b' || (find_str "#033".toList s).isSome

/-- Strip ANSI escape sequences. What is left is read as UTF-8 again, and is empty when
that fails. -/
def strip_ansi (s : Str) : Checked Str :=
  if has_esc s = false then .ok s
  else
    let b := cbor.utf8 (String.ofList s)
    match strip_rounds b { i := 0, out := [] } with
    | .ok _ t => .ok ((cbor.ofUtf8 t.out).getD "").toList
    | .error e _ => .error e

theorem strip_ansi_of_plain {s : Str} (hplain : has_esc s = false) : strip_ansi s = .ok s := by
  rw [strip_ansi, if_pos hplain]

theorem has_esc_eq_false {s : Str} : has_esc s = false ↔ '\x1b' ∉ s ∧ ¬ "#033".toList <:+: s := by
  rw [has_esc, Bool.or_eq_false_iff, ← Bool.not_eq_true, ← Bool.not_eq_true, find_str_isSome,
    List.contains_iff_mem]

/-- A piece of a text without escapes has none. -/
theorem has_esc_of_inside {piece s : Str} (hpiece : piece <:+: s) (hplain : has_esc s = false) :
    has_esc piece = false := by
  rw [has_esc_eq_false] at hplain ⊢
  exact ⟨fun hmem => hplain.1 (hpiece.subset hmem), fun hinside => hplain.2 (hinside.trans hpiece)⟩

theorem byte_at_of_lt {b : List UInt8} {s : Strip} (hlt : s.i < b.length) :
    Scan.byte_at b s.i = pure b[s.i] := by
  simp [Scan.byte_at, index, hlt]

/-- A scan that does not panic. -/
def Total {α : Type} (x : Scan α) : Prop := ∀ s, ∃ a t, x s = .ok a t

theorem Total.pure {α : Type} (a : α) : Total (Pure.pure a : Scan α) := fun s => ⟨a, s, rfl⟩

theorem Total.advance (n : Nat) : Total (Scan.advance n) := fun _ => ⟨_, _, rfl⟩

theorem Total.bind {α β : Type} {x : Scan α} {f : α → Scan β} (hx : Total x)
    (hf : ∀ a, Total (f a)) : Total (x >>= f) := by
  intro s
  obtain ⟨a, t, hrun⟩ := hx s
  obtain ⟨b, u, hrest⟩ := hf a t
  exact ⟨b, u, by rw [bind_of_ok hrun, hrest]⟩

theorem Total.loop {round : Scan Bool} (hround : Total round) (fuel : Nat) :
    Total (loop round fuel) := by
  induction fuel with
  | zero => exact Total.pure ()
  | succ fuel ih =>
    apply hround.bind
    intro again
    cases again with
    | true => exact ih
    | false => exact Total.pure ()

theorem skip_parameter_total (b : List UInt8) : Total (skip_parameter b) := by
  intro s
  unfold skip_parameter
  rw [bind_run, get_run]
  dsimp only
  split
  · next hlt =>
    rw [byte_at_of_lt hlt]
    exact ⟨_, _, rfl⟩
  · exact ⟨_, _, rfl⟩

theorem skip_after_esc_total (b : List UInt8) : Total (skip_after_esc b) := by
  intro s
  unfold skip_after_esc
  rw [bind_run, get_run]
  dsimp only
  cases b[s.i]? with
  | none => exact Total.pure () s
  | some byte =>
    dsimp only
    split
    · exact (Total.advance 1).bind (fun _ => (skip_parameter_total b).loop _) s
    · exact Total.advance 1 s

theorem strip_round_total (b : List UInt8) : Total (strip_round b) := by
  intro s
  have hskip (n : Nat) : Total (do Scan.advance n; skip_after_esc b; pure true) :=
    (Total.advance n).bind fun _ => (skip_after_esc_total b).bind fun _ => Total.pure true
  unfold strip_round
  rw [bind_run, get_run]
  dsimp only
  split
  · next hlt =>
    rw [byte_at_of_lt hlt, pure_bind]
    split
    · exact hskip 1 s
    · split
      · exact hskip 4 s
      · exact ⟨_, _, rfl⟩
  · exact Total.pure false s

theorem strip_ansi_total (s : Str) : ∃ kept, strip_ansi s = .ok kept := by
  unfold strip_ansi
  split
  · exact ⟨s, rfl⟩
  · obtain ⟨u, t, hrun⟩ := (strip_round_total (cbor.utf8 (String.ofList s))).loop
      ((cbor.utf8 (String.ofList s)).length + 1) { i := 0, out := [] }
    unfold strip_rounds
    simp only [hrun]
    exact ⟨_, rfl⟩

/-- The bytes still to be scanned. -/
def remaining (b : List UInt8) (s : Strip) : Nat := b.length - s.i

theorem skip_parameter_advances {b : List UInt8} {s t : Strip} {more : Bool}
    (hround : skip_parameter b s = .ok more t) :
    t = s ∧ more = false ∨ s.i < b.length ∧ t = { s with i := s.i + 1 } := by
  unfold skip_parameter at hround
  rw [bind_run, get_run] at hround
  dsimp only at hround
  split at hround
  · next hlt =>
    rw [byte_at_of_lt hlt] at hround
    cases hround
    exact Or.inr ⟨hlt, rfl⟩
  · cases hround
    exact Or.inl ⟨rfl, rfl⟩

def Forward (s t : Strip) : Prop := s.i ≤ t.i

theorem Forward.refl (s : Strip) : Forward s s := Nat.le_refl s.i

theorem Forward.trans (s t u : Strip) (hst : Forward s t) (htu : Forward t u) : Forward s u :=
  Nat.le_trans hst htu

theorem forward_advance (n : Nat) : Respects Forward (Scan.advance n) :=
  fun s => Nat.le_add_right s.i n

theorem forward_skip_parameter (b : List UInt8) : Respects Forward (skip_parameter b) := by
  intro s
  obtain ⟨more, t, hround⟩ := skip_parameter_total b s
  rw [hround, finalState_ok]
  obtain ⟨rfl, -⟩ | ⟨-, rfl⟩ := skip_parameter_advances hround
  · exact Forward.refl _
  · exact Nat.le_succ _

theorem forward_skip_after_esc (b : List UInt8) : Respects Forward (skip_after_esc b) := by
  intro s
  have hskip : Respects Forward (do Scan.advance 1; skip_parameters b) :=
    Respects.bind Forward.trans (forward_advance 1) fun _ =>
      Respects.loop Forward.refl Forward.trans (forward_skip_parameter b) _
  unfold skip_after_esc
  rw [bind_run, get_run]
  dsimp only
  cases b[s.i]? with
  | none => exact Forward.refl s
  | some byte =>
    dsimp only
    split
    · exact hskip s
    · exact forward_advance 1 s

theorem strip_round_advances {b : List UInt8} {s t : Strip} {more : Bool}
    (hround : strip_round b s = .ok more t) :
    t = s ∧ more = false ∨ s.i < b.length ∧ s.i < t.i := by
  have hskip {n : Nat} (hpos : 0 < n)
      (hrun : (do Scan.advance n; skip_after_esc b; pure true) s = .ok more t) : s.i < t.i := by
    have hle := forward_skip_after_esc b { s with i := s.i + n }
    obtain ⟨_, u, hadvance, hrest⟩ := bind_eq_ok_iff.mp hrun
    cases hadvance
    obtain ⟨_, v, hskip, hend⟩ := bind_eq_ok_iff.mp hrest
    cases hend
    rw [hskip, finalState_ok] at hle
    have hfrom : s.i + n ≤ t.i := hle
    omega
  unfold strip_round at hround
  rw [bind_run, get_run] at hround
  dsimp only at hround
  split at hround
  · next hlt =>
    rw [byte_at_of_lt hlt, pure_bind] at hround
    refine Or.inr ⟨hlt, ?_⟩
    split at hround
    · exact hskip Nat.one_pos hround
    · split at hround
      · exact hskip (Nat.succ_pos 3) hround
      · cases hround
        exact Nat.lt_succ_self _
  · cases hround
    exact Or.inl ⟨rfl, rfl⟩

section Loops

variable {b : List UInt8} {round : Scan Bool}
  (hadvances : ∀ s t, round s = .ok true t → s.i < b.length ∧ s.i < t.i)

include hadvances

theorem remaining_decreases (s t : Strip) (hround : round s = .ok true t) :
    remaining b t < remaining b s := by
  have hlt := hadvances s t hround
  unfold remaining
  omega

/-- Fuel for one round more than there are bytes is enough for a loop that moves on. -/
theorem scan_loop_eq (s : Strip) :
    loop round (b.length + 1) s = (do if ← round then loop round (b.length + 1)) s := by
  have hdecreases := remaining_decreases hadvances
  have hfuel (t : Strip) : loop round (b.length + 1) t = loop round (remaining b t + 1) t := by
    apply loop_stable (remaining b) hdecreases
    · unfold remaining
      omega
    · exact Nat.lt_succ_self _
  rw [hfuel, loop_eq (remaining b) hdecreases, bind_run, bind_run]
  cases round s with
  | error e t => rfl
  | ok more t =>
    cases more with
    | false => rfl
    | true => exact (hfuel t).symm

theorem scan_loop_ends (htotal : Total round) (s : Strip) :
    ∃ u t, loop round (b.length + 1) s = .ok () t ∧ round u = .ok false t := by
  obtain ⟨_, t, hrun⟩ := htotal.loop (b.length + 1) s
  have hfuel : remaining b s < b.length + 1 := by
    unfold remaining
    omega
  obtain ⟨u, hlast⟩ := loop_ends (remaining b) (remaining_decreases hadvances) hfuel hrun
  exact ⟨u, t, hrun, hlast⟩

end Loops

theorem skip_parameter_moves {b : List UInt8} (s t : Strip)
    (hround : skip_parameter b s = .ok true t) : s.i < b.length ∧ s.i < t.i := by
  obtain ⟨-, hfalse⟩ | ⟨hlt, rfl⟩ := skip_parameter_advances hround
  · cases hfalse
  · exact ⟨hlt, Nat.lt_succ_self _⟩

theorem strip_round_moves {b : List UInt8} (s t : Strip)
    (hround : strip_round b s = .ok true t) : s.i < b.length ∧ s.i < t.i := by
  obtain ⟨-, hfalse⟩ | hadvanced := strip_round_advances hround
  · cases hfalse
  · exact hadvanced

theorem skip_parameters_eq (b : List UInt8) (s : Strip) :
    skip_parameters b s = (do if ← skip_parameter b then skip_parameters b) s :=
  scan_loop_eq skip_parameter_moves s

/-- `strip_rounds` is the `while` loop of the source. -/
theorem strip_rounds_eq (b : List UInt8) (s : Strip) :
    strip_rounds b s = (do if ← strip_round b then strip_rounds b) s :=
  scan_loop_eq strip_round_moves s

theorem skip_parameters_end (b : List UInt8) (s : Strip) :
    ∃ u t, skip_parameters b s = .ok () t ∧ skip_parameter b u = .ok false t :=
  scan_loop_ends skip_parameter_moves (skip_parameter_total b) s

theorem strip_rounds_end (b : List UInt8) (s : Strip) :
    ∃ u t, strip_rounds b s = .ok () t ∧ strip_round b u = .ok false t :=
  scan_loop_ends strip_round_moves (strip_round_total b) s

end spotflowd.sources
