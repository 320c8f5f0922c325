import Mathlib.Order.WellFounded
import Mathlib.Tactic.Common

/-- A machine takes an event in a state, or refuses it. -/
structure Machine (State Event : Type) where
  step : State → Event → Option State

namespace Machine

variable {State Event : Type}

/-- `m.Run allowed s events t`: taking the events in order leads from `s` to `t`,
every one of them at a state where it is allowed. -/
inductive Run (m : Machine State Event) (allowed : State → Event → Prop) :
    State → List Event → State → Prop where
  | nil (s : State) : Run m allowed s [] s
  | snoc {s t u : State} {events : List Event} {event : Event}
      (hrun : Run m allowed s events t) (hallowed : allowed t event)
      (hstep : m.step t event = some u) : Run m allowed s (events ++ [event]) u

variable {m : Machine State Event} {allowed : State → Event → Prop}

/-- What one step preserves, a whole run preserves. -/
theorem Run.invariant {P : State → Prop} {s t : State} {events : List Event}
    (hrun : m.Run allowed s events t) (hstart : P s)
    (hpreserved : ∀ t event u, P t → allowed t event → m.step t event = some u → P u) : P t := by
  induction hrun with
  | nil => exact hstart
  | snoc _ hallowed hstep ih => exact hpreserved _ _ _ ih hallowed hstep

/-- An invariant that may also speak about the events taken so far. -/
theorem Run.history {P : List Event → State → Prop} {s t : State} {events : List Event}
    (hrun : m.Run allowed s events t) (hstart : P [] s)
    (hpreserved : ∀ past t event u, P past t → allowed t event → m.step t event = some u →
      P (past ++ [event]) u) : P events t := by
  induction hrun with
  | nil => exact hstart
  | snoc _ hallowed hstep ih => exact hpreserved _ _ _ _ ih hallowed hstep

theorem Run.mono {allowed' : State → Event → Prop} {s t : State} {events : List Event}
    (hrun : m.Run allowed s events t) (hsub : ∀ t event, allowed t event → allowed' t event) :
    m.Run allowed' s events t := by
  induction hrun with
  | nil => exact .nil _
  | snoc _ hallowed hstep ih => exact .snoc ih (hsub _ _ hallowed) hstep

theorem Run.trans {s t u : State} {before after : List Event}
    (hbefore : m.Run allowed s before t) (hafter : m.Run allowed t after u) :
    m.Run allowed s (before ++ after) u := by
  induction hafter with
  | nil => simpa using hbefore
  | snoc _ hallowed hstep ih =>
    rw [← List.append_assoc]
    exact .snoc ih hallowed hstep

theorem Run.single {s t : State} {event : Event} (hallowed : allowed s event)
    (hstep : m.step s event = some t) : m.Run allowed s [event] t :=
  .snoc (.nil s) hallowed hstep

/-- A run is over or begins with a step. -/
theorem Run.head {s t : State} {events : List Event} (hrun : m.Run allowed s events t) :
    (events = [] ∧ s = t) ∨ ∃ event rest u, events = event :: rest ∧ allowed s event ∧
      m.step s event = some u ∧ m.Run allowed u rest t := by
  induction hrun with
  | nil => exact Or.inl ⟨rfl, rfl⟩
  | @snoc t u past event hrun hallowed hstep ih =>
    obtain ⟨rfl, rfl⟩ | ⟨first, rest, v, rfl, hfirst, hv, hrest⟩ := ih
    · exact Or.inr ⟨event, [], u, rfl, hallowed, hstep, .nil u⟩
    · exact Or.inr ⟨first, rest ++ [event], v, rfl, hfirst, hv, .snoc hrest hallowed hstep⟩

/-- Take the events in order, refusing one that is not allowed. -/
def exec (m : Machine State Event) (allowed : State → Event → Prop)
    [∀ s event, Decidable (allowed s event)] : State → List Event → Option State
  | s, [] => some s
  | s, event :: events =>
    if allowed s event then (m.step s event).bind fun t => exec m allowed t events else none

/-- A run that can be computed is a run. -/
theorem Run.of_exec [∀ s event, Decidable (allowed s event)] {s t : State} {events : List Event}
    (hexec : m.exec allowed s events = some t) : m.Run allowed s events t := by
  induction events generalizing s with
  | nil =>
    cases hexec
    exact .nil _
  | cons event events ih =>
    unfold exec at hexec
    split at hexec
    · next hallowed =>
      obtain ⟨u, hstep, hrest⟩ := Option.bind_eq_some_iff.mp hexec
      exact (Run.single hallowed hstep).trans (ih hrest)
    · cases hexec

/-- A computed run that passes a test ends in a state that does. -/
theorem exists_run_of_exec [∀ s event, Decidable (allowed s event)] {s : State}
    {events : List Event} (test : State → Bool)
    (hexec : (m.exec allowed s events).any test = true) :
    ∃ t, m.Run allowed s events t ∧ test t = true := by
  cases hsome : m.exec allowed s events with
  | none =>
    rw [hsome] at hexec
    cases hexec
  | some t =>
    rw [hsome] at hexec
    exact ⟨t, .of_exec hsome, hexec⟩

/-- Repeating one event ends in a `done` state when every step from a state that
is not done is possible, keeps `P` and lowers the measure. -/
theorem exists_run_to_done {M : Type} [LT M] [WellFoundedLT M] (P done : State → Prop)
    (measure : State → M) (event : Event)
    (hprogress : ∀ s, P s → ¬ done s →
      allowed s event ∧ ∃ t, m.step s event = some t ∧ P t ∧ measure t < measure s)
    (s : State) (hstart : P s) :
    ∃ n t, m.Run allowed s (List.replicate n event) t ∧ P t ∧ done t := by
  induction hsize : measure s using WellFoundedLT.induction generalizing s with
  | ind size ih =>
    by_cases hdone : done s
    · exact ⟨0, s, .nil s, hstart, hdone⟩
    · obtain ⟨hallowed, t, hstep, ht, hlt⟩ := hprogress s hstart hdone
      obtain ⟨n, u, hrun, hu, hend⟩ := ih (measure t) (hsize ▸ hlt) t ht rfl
      refine ⟨n + 1, u, ?_, hu, hend⟩
      rw [List.replicate_succ]
      exact (Run.single hallowed hstep).trans hrun

end Machine

section Since

variable {α : Type}

/-- Something of the first kind has happened, and nothing of the second kind since then. -/
def Since (p q : α → Prop) : List α → Prop
  | [] => False
  | a :: rest => (p a ∧ ∀ b ∈ rest, ¬ q b) ∨ Since p q rest

instance Since.decide (p q : α → Prop) [DecidablePred p] [DecidablePred q] :
    (history : List α) → Decidable (Since p q history)
  | [] => inferInstanceAs (Decidable False)
  | _ :: rest =>
    have := Since.decide p q rest
    inferInstanceAs (Decidable ((_ ∧ ∀ b ∈ rest, ¬ q b) ∨ _))

variable {p q : α → Prop}

/-- What the last event does to it. -/
theorem since_snoc {history : List α} {a : α} :
    Since p q (history ++ [a]) ↔ p a ∨ (¬ q a ∧ Since p q history) := by
  induction history with
  | nil => simp [Since]
  | cons b rest ih =>
    rw [List.cons_append, Since, ih, Since, List.forall_mem_append, List.forall_mem_singleton]
    tauto

end Since
