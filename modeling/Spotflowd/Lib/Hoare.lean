import Spotflowd.Lib.Effect

namespace effect

variable {ε σ α β : Type}

/-- Started where `P` holds, `x` succeeds where `Q` holds or fails where `E` holds. -/
def Triple (P : σ → Prop) (x : EStateM ε σ α) (Q : α → σ → Prop) (E : ε → σ → Prop) : Prop :=
  ∀ s, P s → match x s with
    | .ok a t => Q a t
    | .error e t => E e t

section Rules

variable {P P' : σ → Prop} {Q Q' : α → σ → Prop} {E E' : ε → σ → Prop}

theorem Triple.pure {a : α} (h : ∀ s, P s → Q a s) : Triple P (pure a) Q E := h

theorem Triple.throw {e : ε} (h : ∀ s, P s → E e s) : Triple P (throw e) Q E := h

theorem Triple.modify {f : σ → σ} {Q : PUnit → σ → Prop} (h : ∀ s, P s → Q ⟨⟩ (f s)) :
    Triple P (modify f) Q E := h

theorem Triple.set {t : σ} {Q : PUnit → σ → Prop} (h : ∀ s, P s → Q ⟨⟩ t) :
    Triple P (set t) Q E := h

theorem Triple.get : Triple P (get : EStateM ε σ σ) (fun a s => P s ∧ a = s) E :=
  fun _ h => ⟨h, rfl⟩

theorem Triple.bind {x : EStateM ε σ α} {f : α → EStateM ε σ β} {R : β → σ → Prop}
    (hx : Triple P x Q E) (hf : ∀ a, Triple (Q a) (f a) R E) : Triple P (x >>= f) R E := by
  intro s hs
  have hstart := hx s hs
  rw [bind_run]
  cases hrun : x s with
  | ok a t =>
    rw [hrun] at hstart
    exact hf a t hstart
  | error e t =>
    rw [hrun] at hstart
    exact hstart

theorem Triple.mono {x : EStateM ε σ α} (hx : Triple P x Q E) (hpre : ∀ s, P' s → P s)
    (hpost : ∀ a s, Q a s → Q' a s) (hfail : ∀ e s, E e s → E' e s) : Triple P' x Q' E' := by
  intro s hs
  have hstart := hx s (hpre s hs)
  cases hrun : x s with
  | ok a t =>
    rw [hrun] at hstart
    exact hpost a t hstart
  | error e t =>
    rw [hrun] at hstart
    exact hfail e t hstart

theorem Triple.pre {x : EStateM ε σ α} (hx : Triple P x Q E) (hpre : ∀ s, P' s → P s) :
    Triple P' x Q E :=
  hx.mono hpre (fun _ _ h => h) fun _ _ h => h

theorem Triple.post {x : EStateM ε σ α} (hx : Triple P x Q E) (hpost : ∀ a s, Q a s → Q' a s) :
    Triple P x Q' E :=
  hx.mono (fun _ h => h) hpost fun _ _ h => h

/-- A fact that does not depend on the state can be assumed. -/
theorem Triple.assume {p : Prop} {x : EStateM ε σ α} (hx : p → Triple P x Q E) :
    Triple (fun s => P s ∧ p) x Q E :=
  fun s h => hx h.2 s h.1

/-- What survives every change that `x` can make is still there after `x`. -/
theorem Triple.of_respects {R : σ → σ → Prop} {x : EStateM ε σ α} (hx : Respects R x)
    (hstable : ∀ s t, R s t → P s → P t) : Triple P x (fun _ => P) (fun _ => P) := by
  intro s hs
  have hstart := hx s
  cases hrun : x s with
  | ok a t =>
    rw [hrun] at hstart
    exact hstable s t hstart hs
  | error e t =>
    rw [hrun] at hstart
    exact hstable s t hstart hs

/-- Sequencing, when a failure of the first computation means more than asked for. -/
theorem Triple.bind_weaken {x : EStateM ε σ α} {f : α → EStateM ε σ β} {R : β → σ → Prop}
    (hx : Triple P x Q E') (hfail : ∀ e s, E' e s → E e s) (hf : ∀ a, Triple (Q a) (f a) R E) :
    Triple P (x >>= f) R E :=
  (hx.mono (fun _ h => h) (fun _ _ h => h) hfail).bind hf

/-- The state a computation leaves, however it ends. -/
theorem Triple.finalState {x : EStateM ε σ α} (hx : Triple P x (fun _ => P') (fun _ => P')) {s : σ}
    (hs : P s) : P' (finalState (x s)) := by
  have hstart := hx s hs
  cases hrun : x s with
  | ok a t =>
    rw [hrun] at hstart
    exact hstart
  | error e t =>
    rw [hrun] at hstart
    exact hstart

end Rules

end effect
