import Spotflowd.Lib.Effect

namespace effect

variable {ε σ α β : Type}

/-- A computation together with the states that an interruption may leave: `x.cut s t` when `x`,
begun at `s`, may be cut off at `t`. -/
structure Interruptible (ε σ α : Type) where
  run : EStateM ε σ α
  cut : σ → σ → Prop

namespace Interruptible

/-- A computation that is carried out or not. -/
def whole (x : EStateM ε σ α) : Interruptible ε σ α where
  run := x
  cut s t := t = s ∨ t = finalState (x s)

/-- A sequence is cut off in the first part, or the first part succeeds and the rest is cut off. -/
instance : Monad (Interruptible ε σ) where
  pure a := ⟨pure a, fun s t => t = s⟩
  bind x f := ⟨x.run >>= fun a => (f a).run,
    fun s t => x.cut s t ∨ ∃ a u, x.run s = .ok a u ∧ (f a).cut u t⟩

/-- Run `x` on a component of the state, its errors wrapped. -/
def zoom {τ ε' : Type} (view : σ → τ) (put : τ → σ → σ) (wrap : ε' → ε)
    (x : Interruptible ε' τ α) : Interruptible ε σ α where
  run := effect.zoom view put wrap x.run
  cut s t := ∃ u, x.cut (view s) u ∧ t = put u s

/-- Run `body` as long as it answers `true`, at most `fuel` times. -/
def loop (body : Interruptible ε σ Bool) : Nat → Interruptible ε σ Unit
  | 0 => pure ()
  | fuel + 1 => do
    if ← body then
      loop body fuel

@[simp] theorem run_pure (a : α) : (pure a : Interruptible ε σ α).run = pure a := rfl

@[simp] theorem run_whole (x : EStateM ε σ α) : (whole x).run = x := rfl

@[simp] theorem run_bind (x : Interruptible ε σ α) (f : α → Interruptible ε σ β) :
    (x >>= f).run = x.run >>= fun a => (f a).run := rfl

theorem run_loop (body : Interruptible ε σ Bool) (fuel : Nat) :
    (loop body fuel).run = effect.loop body.run fuel := by
  induction fuel with
  | zero => rfl
  | succ fuel ih =>
    rw [loop, effect.loop, run_bind]
    congr 1
    funext again
    cases again with
    | true => exact ih
    | false => rfl

theorem run_forM (items : List α) (f : α → Interruptible ε σ Unit) :
    (forM items f).run = forM items fun a => (f a).run := by
  induction items with
  | nil => rfl
  | cons item items ih =>
    rw [List.forM_cons, List.forM_cons, run_bind, ih]

/-- Begun where `P` holds, `x` succeeds only where `Q` holds and is cut off only where `C` holds. -/
def Guards (P : σ → Prop) (x : Interruptible ε σ α) (Q : α → σ → Prop) (C : σ → Prop) : Prop :=
  ∀ s, P s → (∀ t, x.cut s t → C t) ∧ ∀ a t, x.run s = .ok a t → Q a t

section Rules

variable {P : σ → Prop} {Q : α → σ → Prop} {C : σ → Prop}

theorem Guards.pure {a : α} (hpost : ∀ s, P s → Q a s) (hcut : ∀ s, P s → C s) :
    Guards P (pure a : Interruptible ε σ α) Q C := by
  intro s hs
  refine ⟨fun t ht => ht ▸ hcut s hs, fun b t hrun => ?_⟩
  cases hrun
  exact hpost s hs

theorem Guards.whole {x : EStateM ε σ α} (hcut : ∀ s, P s → C s ∧ C (finalState (x s)))
    (hpost : ∀ s a t, P s → x s = .ok a t → Q a t) : Guards P (whole x) Q C := by
  refine fun s hs => ⟨?_, fun a t => hpost s a t hs⟩
  rintro t (rfl | rfl)
  · exact (hcut t hs).1
  · exact (hcut s hs).2

theorem Guards.bind {x : Interruptible ε σ α} {f : α → Interruptible ε σ β} {R : β → σ → Prop}
    (hx : Guards P x Q C) (hf : ∀ a, Guards (Q a) (f a) R C) : Guards P (x >>= f) R C := by
  intro s hs
  obtain ⟨hcut, hpost⟩ := hx s hs
  constructor
  · rintro t (hfirst | ⟨a, u, hrun, hrest⟩)
    · exact hcut t hfirst
    · exact (hf a u (hpost a u hrun)).1 t hrest
  · intro b t hrun
    obtain ⟨a, u, hfirst, hrest⟩ := bind_eq_ok_iff.mp hrun
    exact (hf a u (hpost a u hfirst)).2 b t hrest

/-- A step that always succeeds is cut off before it or after it. -/
theorem Guards.whole_of_ok {x : EStateM ε σ α} (hrun : ∀ s, P s → ∃ a t, x s = .ok a t ∧ Q a t)
    (hcut : ∀ s, P s → C s) (hend : ∀ a s, Q a s → C s) : Guards P (Interruptible.whole x) Q C := by
  refine .whole (fun s hs => ⟨hcut s hs, ?_⟩) fun s a t hs hok => ?_
  · obtain ⟨a, t, hok, ht⟩ := hrun s hs
    rw [hok]
    exact hend a t ht
  · obtain ⟨b, u, hdone, hu⟩ := hrun s hs
    rw [hdone] at hok
    cases hok
    exact hu

theorem Guards.zoom {τ ε' : Type} {view : σ → τ} {put : τ → σ → σ} {wrap : ε' → ε}
    (hview : ∀ u s, view (put u s) = u) {P : τ → Prop} {Q : α → τ → Prop} {C : τ → Prop}
    {x : Interruptible ε' τ α} (hx : Guards P x Q C) :
    Guards (fun s => P (view s)) (zoom view put wrap x) (fun a s => Q a (view s))
      fun s => C (view s) := by
  intro s hs
  obtain ⟨hcut, hpost⟩ := hx (view s) hs
  constructor
  · rintro t ⟨u, hu, rfl⟩
    rw [hview]
    exact hcut u hu
  · intro a t hrun
    simp only [Interruptible.zoom, effect.zoom] at hrun
    cases hinner : x.run (view s) with
    | ok b u =>
      rw [hinner] at hrun
      cases hrun
      rw [hview]
      exact hpost a u hinner
    | error e u =>
      rw [hinner] at hrun
      cases hrun

/-- What every round keeps, the loop keeps. -/
theorem Guards.loop {body : Interruptible ε σ Bool} (hbody : Guards P body (fun _ => P) P)
    (fuel : Nat) : Guards P (loop body fuel) (fun _ => P) P := by
  induction fuel with
  | zero => exact .pure (fun _ hs => hs) fun _ hs => hs
  | succ fuel ih =>
    refine .bind hbody fun again => ?_
    cases again with
    | true => exact ih
    | false => exact .pure (fun _ hs => hs) fun _ hs => hs

/-- One thing after another: `I` counts the items that are done. -/
theorem Guards.forM {I : List α → σ → Prop} {f : α → Interruptible ε σ Unit} {items : List α}
    (hitem : ∀ done item rest, items = done ++ item :: rest →
      Guards (I done) (f item) (fun _ => I (done ++ [item])) C)
    (hend : ∀ s, I items s → C s) : Guards (I []) (forM items f) (fun _ => I items) C := by
  have hrest : ∀ rest done, items = done ++ rest →
      Guards (I done) (ForM.forM rest f) (fun _ => I items) C := by
    intro rest
    induction rest with
    | nil =>
      intro done heq
      rw [List.append_nil] at heq
      subst heq
      exact .pure (fun _ hs => hs) hend
    | cons item rest ih =>
      intro done heq
      rw [List.forM_cons]
      exact .bind (hitem done item rest heq) fun _ => ih (done ++ [item]) (by simpa using heq)
  exact hrest items [] rfl

end Rules

end Interruptible

end effect
