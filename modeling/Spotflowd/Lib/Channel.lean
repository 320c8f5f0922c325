import Mathlib.Data.List.Basic

/-- A bounded channel: what waits to be received, oldest first. -/
structure Channel (capacity : Nat) (α : Type) where
  queue : List α
  bounded : queue.length ≤ capacity

namespace Channel

variable {capacity : Nat} {α : Type}

def empty : Channel capacity α := ⟨[], Nat.zero_le _⟩

theorem length_snoc_le {queue : List α} (hroom : queue.length < capacity) (a : α) :
    (queue ++ [a]).length ≤ capacity := by
  rw [List.length_append, List.length_singleton]
  exact hroom

/-- A value goes in at the end. A full channel takes none. -/
def send (a : α) (self : Channel capacity α) : Option (Channel capacity α) :=
  if hroom : self.queue.length < capacity then some ⟨self.queue ++ [a], length_snoc_le hroom a⟩
  else none

theorem length_tail_le {first : α} {rest : List α} (hbounded : (first :: rest).length ≤ capacity) :
    rest.length ≤ capacity :=
  Nat.le_of_succ_le hbounded

/-- The oldest value comes out. -/
def recv (self : Channel capacity α) : Option (α × Channel capacity α) :=
  match self with
  | ⟨[], _⟩ => none
  | ⟨first :: rest, hbounded⟩ => some (first, ⟨rest, length_tail_le hbounded⟩)

@[simp] theorem queue_empty : (empty : Channel capacity α).queue = [] := rfl

theorem send_eq_some {a : α} {self after : Channel capacity α} (hsend : self.send a = some after) :
    self.queue.length < capacity ∧ after.queue = self.queue ++ [a] := by
  unfold send at hsend
  split at hsend
  · next hroom =>
    cases hsend
    exact ⟨hroom, rfl⟩
  · cases hsend

theorem send_eq_none {a : α} {self : Channel capacity α} :
    self.send a = none ↔ self.queue.length = capacity := by
  have hbounded := self.bounded
  unfold send
  split
  · next hroom => simp [Nat.ne_of_lt hroom]
  · next hfull =>
    simp only [true_iff]
    omega

theorem recv_eq_some {first : α} {self after : Channel capacity α}
    (hrecv : self.recv = some (first, after)) : self.queue = first :: after.queue := by
  obtain ⟨queue, hbounded⟩ := self
  cases queue with
  | nil => cases hrecv
  | cons _ rest =>
    cases hrecv
    rfl

theorem exists_recv {self : Channel capacity α} (hwaiting : self.queue ≠ []) :
    ∃ first after, self.recv = some (first, after) := by
  obtain ⟨queue, hbounded⟩ := self
  cases queue with
  | nil => exact absurd rfl hwaiting
  | cons first rest => exact ⟨first, ⟨rest, length_tail_le hbounded⟩, rfl⟩

end Channel
