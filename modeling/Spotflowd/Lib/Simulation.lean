import Spotflowd.Lib.Machine

namespace Machine

variable {State Event State' Event' : Type} {m : Machine State Event} {n : Machine State' Event'}
  {allowed : State → Event → Prop} {allowed' : State' → Event' → Prop}

/-- A run of one machine is a run of another when every step shows as one step of the other
or as none at all. `related` ties the events of the other machine to the state. -/
theorem Run.simulates (view : State → State') (related : List Event' → State → Prop)
    {s t : State} {events : List Event} (hrun : m.Run allowed s events t) (hstart : related [] s)
    (hstep : ∀ past t event u, related past t → allowed t event → m.step t event = some u →
      (view u = view t ∧ related past u) ∨ ∃ event', allowed' (view t) event' ∧
        n.step (view t) event' = some (view u) ∧ related (past ++ [event']) u) :
    ∃ events', n.Run allowed' (view s) events' (view t) ∧ related events' t := by
  induction hrun with
  | nil => exact ⟨[], .nil _, hstart⟩
  | @snoc t u events event hrun hallowed hnext ih =>
    obtain ⟨past, hpast, hrelated⟩ := ih
    obtain ⟨hsame, hrelated'⟩ | ⟨event', hallowed', hnext', hrelated'⟩ :=
      hstep past t event u hrelated hallowed hnext
    · exact ⟨past, hsame ▸ hpast, hrelated'⟩
    · exact ⟨past ++ [event'], .snoc hpast hallowed' hnext', hrelated'⟩

end Machine
