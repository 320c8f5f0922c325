import Mathlib.Data.List.Basic
import Mathlib.Order.Basic
import Mathlib.Algebra.Ring.Int.Defs
import Mathlib.Algebra.Ring.Nat

namespace counters

variable {α β : Type}

/-- Each reading with the one before it, the first of them with a baseline if there is one. -/
def steps : Option α → List α → List (α × α)
  | _, [] => []
  | none, reading :: readings => steps (some reading) readings
  | some last, reading :: readings => (last, reading) :: steps (some reading) readings

@[simp] theorem steps_nil (baseline : Option α) : steps baseline [] = [] := by
  cases baseline <;> rfl

@[simp] theorem steps_none_cons (reading : α) (readings : List α) :
    steps none (reading :: readings) = steps (some reading) readings := rfl

@[simp] theorem steps_some_cons (last reading : α) (readings : List α) :
    steps (some last) (reading :: readings) = (last, reading) :: steps (some reading) readings := rfl

theorem steps_map (f : α → β) (baseline : Option α) (readings : List α) :
    steps (baseline.map f) (readings.map f) = (steps baseline readings).map (Prod.map f f) := by
  induction readings generalizing baseline with
  | nil => simp
  | cons reading readings ih =>
    have hrest := ih (some reading)
    cases baseline with
    | none => exact hrest
    | some last => exact congrArg ((f last, f reading) :: ·) hrest

theorem mem_of_mem_steps {baseline : Option α} {readings : List α} {step : α × α}
    (hstep : step ∈ steps baseline readings) :
    step.1 ∈ baseline.toList ++ readings ∧ step.2 ∈ baseline.toList ++ readings := by
  induction readings generalizing baseline with
  | nil =>
    rw [steps_nil] at hstep
    cases hstep
  | cons reading readings ih =>
    cases baseline with
    | none => exact ih hstep
    | some last =>
      obtain rfl | hstep := List.mem_cons.mp hstep
      · exact ⟨List.mem_cons_self, List.mem_cons_of_mem _ List.mem_cons_self⟩
      · obtain ⟨hfirst, hsecond⟩ := ih hstep
        exact ⟨List.mem_cons_of_mem _ hfirst, List.mem_cons_of_mem _ hsecond⟩

/-- By how much a counter rises from step to step; one that goes back does not rise. -/
def rises (baseline : Option Nat) (readings : List Nat) : List Nat :=
  (steps baseline readings).map fun step => step.2 - step.1

theorem sum_rises_some {first : Nat} {readings : List Nat} (hsorted : (first :: readings).Pairwise (· ≤ ·)) :
    first + (rises (some first) readings).sum = (first :: readings).getLast (List.cons_ne_nil _ _) := by
  induction readings generalizing first with
  | nil => rfl
  | cons reading readings ih =>
    obtain ⟨hfirst, hrest⟩ := List.pairwise_cons.mp hsorted
    have hle := hfirst reading List.mem_cons_self
    have hrises : rises (some first) (reading :: readings) =
        (reading - first) :: rises (some reading) readings := rfl
    rw [hrises, List.sum_cons, List.getLast_cons (List.cons_ne_nil _ _), ← ih hrest]
    omega

/-- The rises of a counter that never goes back add up to all of its rise. -/
theorem sum_rises {baseline : Option Nat} {readings : List Nat}
    (hsorted : (baseline.toList ++ readings).Pairwise (· ≤ ·)) :
    (baseline.toList ++ readings).head?.getD 0 + (rises baseline readings).sum =
      (baseline.toList ++ readings).getLast?.getD 0 := by
  cases baseline with
  | some first =>
    have hsum := sum_rises_some hsorted
    rw [Option.toList_some, List.singleton_append, List.getLast?_eq_some_getLast (List.cons_ne_nil _ _)]
    exact hsum
  | none =>
    cases readings with
    | nil => rfl
    | cons first readings =>
      have hsum := sum_rises_some hsorted
      rw [Option.toList_none, List.nil_append, List.getLast?_eq_some_getLast (List.cons_ne_nil _ _)]
      exact hsum

end counters
