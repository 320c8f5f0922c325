import Mathlib.Tactic.Common

namespace effect

variable {ε σ α β : Type}

/-- The state a computation leaves behind, whether it succeeded or failed. -/
def finalState : EStateM.Result ε σ α → σ
  | .ok _ s => s
  | .error _ s => s

@[simp] theorem finalState_ok (a : α) (s : σ) : finalState (.ok a s : EStateM.Result ε σ α) = s := rfl

@[simp] theorem finalState_error (e : ε) (s : σ) :
    finalState (.error e s : EStateM.Result ε σ α) = s := rfl

@[simp] theorem pure_run (a : α) (s : σ) : (pure a : EStateM ε σ α) s = .ok a s := rfl

@[simp] theorem get_run (s : σ) : (get : EStateM ε σ σ) s = .ok s s := rfl

@[simp] theorem modify_run (f : σ → σ) (s : σ) : (modify f : EStateM ε σ PUnit) s = .ok ⟨⟩ (f s) := rfl

@[simp] theorem throw_run (e : ε) (s : σ) : (throw e : EStateM ε σ α) s = .error e s := rfl

/-- Sequencing, spelled out on the result of the first computation. -/
theorem bind_run (x : EStateM ε σ α) (f : α → EStateM ε σ β) (s : σ) :
    (x >>= f) s = match x s with
      | .ok a t => f a t
      | .error e t => .error e t := rfl

theorem bind_of_ok {x : EStateM ε σ α} {f : α → EStateM ε σ β} {s t : σ} {a : α}
    (h : x s = .ok a t) : (x >>= f) s = f a t := by
  rw [bind_run, h]

theorem bind_of_error {x : EStateM ε σ α} {f : α → EStateM ε σ β} {s t : σ} {e : ε}
    (h : x s = .error e t) : (x >>= f) s = .error e t := by
  rw [bind_run, h]

theorem bind_eq_ok_iff {x : EStateM ε σ α} {f : α → EStateM ε σ β} {s t : σ} {b : β} :
    (x >>= f) s = .ok b t ↔ ∃ a u, x s = .ok a u ∧ f a u = .ok b t := by
  rw [bind_run]
  cases hrun : x s with
  | ok a u =>
    constructor
    · exact fun h => ⟨a, u, rfl, h⟩
    · rintro ⟨a', u', heq, h⟩
      cases heq
      exact h
  | error e u => simp

theorem bind_eq_error_iff {x : EStateM ε σ α} {f : α → EStateM ε σ β} {s t : σ} {e : ε} :
    (x >>= f) s = .error e t ↔
      x s = .error e t ∨ ∃ a u, x s = .ok a u ∧ f a u = .error e t := by
  rw [bind_run]
  cases hrun : x s with
  | ok a u =>
    constructor
    · exact fun h => Or.inr ⟨a, u, rfl, h⟩
    · rintro (heq | ⟨a', u', heq, h⟩)
      · cases heq
      · cases heq
        exact h
  | error e u => simp

/-- Run `x` on a component of the state, its errors wrapped. -/
def zoom {τ ε' : Type} (view : σ → τ) (put : τ → σ → σ) (wrap : ε' → ε) (x : EStateM ε' τ α) :
    EStateM ε σ α := fun s =>
  match x (view s) with
  | .ok a t => .ok a (put t s)
  | .error e t => .error (wrap e) (put t s)

/-- Success or failure of `x` as a value, for callers that look at a `Result`
instead of passing it on. -/
def attempt (x : EStateM ε σ α) : EStateM ε σ (Except ε α) := fun s =>
  match x s with
  | .ok a t => .ok (.ok a) t
  | .error e t => .ok (.error e) t

/-- A computed result that passes a test is one. -/
theorem exists_ok_of_any {x : Except ε α} {test : α → Bool} (hany : x.toOption.any test = true) :
    ∃ a, x = .ok a ∧ test a = true := by
  cases x with
  | error e => cases hany
  | ok a => exact ⟨a, rfl, hany⟩

/-- The computation has succeeded, and its result and final state pass the test. -/
def passes (test : α → σ → Bool) : EStateM.Result ε σ α → Bool
  | .ok a s => test a s
  | .error _ _ => false

theorem exists_ok_of_passes {x : EStateM.Result ε σ α} {test : α → σ → Bool}
    (hpasses : passes test x = true) : ∃ a s, x = .ok a s ∧ test a s = true := by
  cases x with
  | ok a s => exact ⟨a, s, rfl, hpasses⟩
  | error e s => cases hpasses

/-- Run `body` as long as it answers `true`, at most `fuel` times. -/
def loop (body : EStateM ε σ Bool) : Nat → EStateM ε σ Unit
  | 0 => pure ()
  | fuel + 1 => do
    if ← body then
      loop body fuel

/-- However `x` ends, the state it leaves is related to the state it found. -/
def Respects (R : σ → σ → Prop) (x : EStateM ε σ α) : Prop :=
  ∀ s, R s (finalState (x s))

section Respects

variable {R : σ → σ → Prop} (hrefl : ∀ s, R s s) (htrans : ∀ s t u, R s t → R t u → R s u)

/-- Two computations in sequence, each with its own relation. -/
theorem Respects.seq {S T : σ → σ → Prop} {x : EStateM ε σ α} {f : α → EStateM ε σ β}
    (hx : Respects R x) (hf : ∀ a, Respects S (f a)) (hfirst : ∀ s t, R s t → T s t)
    (hboth : ∀ s t u, R s t → S t u → T s u) : Respects T (x >>= f) := by
  intro s
  have hstart := hx s
  rw [bind_run]
  cases hrun : x s with
  | ok a t =>
    rw [hrun] at hstart
    exact hboth _ _ _ hstart (hf a t)
  | error e t =>
    rw [hrun] at hstart
    exact hfirst _ _ hstart

include hrefl in
theorem Respects.pure (a : α) : Respects R (pure a : EStateM ε σ α) :=
  fun s => hrefl s

include hrefl in
theorem Respects.throw (e : ε) : Respects R (throw e : EStateM ε σ α) :=
  fun s => hrefl s

include htrans in
theorem Respects.bind {x : EStateM ε σ α} {f : α → EStateM ε σ β}
    (hx : Respects R x) (hf : ∀ a, Respects R (f a)) : Respects R (x >>= f) :=
  Respects.seq hx hf (fun _ _ h => h) htrans

theorem Respects.mono {S : σ → σ → Prop} (hsub : ∀ s t, R s t → S s t) {x : EStateM ε σ α}
    (hx : Respects R x) : Respects S x :=
  fun s => hsub _ _ (hx s)

theorem Respects.attempt {x : EStateM ε σ α} (hx : Respects R x) : Respects R (attempt x) := by
  intro s
  have h := hx s
  unfold effect.attempt
  cases hrun : x s <;> simpa [hrun] using h

theorem Respects.zoom {τ ε' : Type} {S : τ → τ → Prop} {view : σ → τ} {put : τ → σ → σ}
    {wrap : ε' → ε} {x : EStateM ε' τ α} (hx : Respects S x)
    (hput : ∀ s t, S (view s) t → R s (put t s)) : Respects R (zoom view put wrap x) := by
  intro s
  have hview := hx (view s)
  rw [effect.zoom]
  cases hrun : x (view s) with
  | ok a t =>
    rw [hrun] at hview
    exact hput s t hview
  | error e t =>
    rw [hrun] at hview
    exact hput s t hview

include hrefl htrans in
theorem Respects.loop {body : EStateM ε σ Bool} (hbody : Respects R body) (fuel : Nat) :
    Respects R (loop body fuel) := by
  induction fuel with
  | zero => exact Respects.pure hrefl ()
  | succ fuel ih =>
    apply Respects.bind htrans hbody
    intro again
    cases again with
    | true => exact ih
    | false => exact Respects.pure hrefl ()

end Respects

section Loop

variable {body : EStateM ε σ Bool} (measure : σ → Nat)
  (hdecreases : ∀ s t, body s = .ok true t → measure t < measure s)

include hdecreases

/-- When every round that asks for another one lowers a measure, fuel above the
measure makes no difference. -/
theorem loop_stable {fuel more : Nat} {s : σ} (hfuel : measure s < fuel) (hmore : measure s < more) :
    loop body fuel s = loop body more s := by
  induction fuel generalizing more s with
  | zero => omega
  | succ fuel ih =>
    cases more with
    | zero => omega
    | succ more =>
      simp only [loop, bind_run]
      cases hround : body s with
      | error e t => rfl
      | ok again t =>
        cases again with
        | false => rfl
        | true =>
          have hlt := hdecreases s t hround
          exact ih (by omega) (by omega)

/-- The equation of a `while` loop: with fuel above the measure, a loop is a round
followed by the loop. -/
theorem loop_eq (s : σ) :
    loop body (measure s + 1) s =
      (do if ← body then fun t => loop body (measure t + 1) t) s := by
  rw [loop, bind_run, bind_run]
  cases hround : body s with
  | error e t => rfl
  | ok again t =>
    cases again with
    | false => rfl
    | true => exact loop_stable measure hdecreases (hdecreases s t hround) (Nat.lt_succ_self _)

/-- With fuel above the measure, a loop ends because a round asks for no other. -/
theorem loop_ends {fuel : Nat} {s t : σ} (hfuel : measure s < fuel)
    (hrun : loop body fuel s = .ok () t) : ∃ u, body u = .ok false t := by
  induction fuel generalizing s with
  | zero => omega
  | succ fuel ih =>
    rw [loop] at hrun
    obtain ⟨again, v, hround, hrest⟩ := bind_eq_ok_iff.mp hrun
    cases again with
    | false =>
      cases hrest
      exact ⟨s, hround⟩
    | true =>
      have hlt := hdecreases s v hround
      exact @ih v (by omega) hrest

end Loop

end effect
