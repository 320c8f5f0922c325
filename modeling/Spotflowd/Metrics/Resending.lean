import Spotflowd.Metrics.Restart

open fs
open spotflowd.config spotflowd.mqtt
open spotflowd.metrics.aggregator spotflowd.metrics.publisher

namespace spotflowd.metrics

/-- A connected client takes all pending readings of the tick, or not even the first. -/
def AllOrNothing (c : Ciborium) (cfg : MetricsConfig) (s : Runner) : Event → Prop
  | .tick tick => tick.connected = true →
      first_failure c tick.outcomes (s.collect cfg tick).pending = none ∨
        first_failure c tick.outcomes (s.collect cfg tick).pending = some 0
  | .shutdown _ _ => True

instance (c : Ciborium) (cfg : MetricsConfig) (s : Runner) : (event : Event) →
    Decidable (AllOrNothing c cfg s event)
  | .tick _ => inferInstanceAs (Decidable (_ → _ ∨ _))
  | .shutdown _ _ => inferInstanceAs (Decidable True)

variable {c : Ciborium} {cfg : MetricsConfig}

/-- What the client accepts in a tick does not stay pending if and only if the first failure, if
there is one, is at the first reading. -/
theorem tick_keeps_unsent_iff (c : Ciborium) (cfg : MetricsConfig) (s : Runner) (tick : Tick) :
    ∃ sent, (s.tick c cfg tick).outbox.accepted = s.outbox.accepted ++ sent ∧
      ((∀ m ∈ sent, m ∉ (s.tick c cfg tick).pending) ↔ AllOrNothing c cfg s (.tick tick)) := by
  rw [Runner.tick]
  cases hconnected : tick.connected with
  | false =>
    rw [Runner.publish_offline c hconnected]
    exact ⟨[], (List.append_nil _).symm, by simp [AllOrNothing, hconnected]⟩
  | true =>
    obtain ⟨hnone, haccepted, hpending⟩ | ⟨k, hsome, hk, haccepted, hpending⟩ :=
      (s.collect cfg tick).publish_online c hconnected
    · refine ⟨(s.collect cfg tick).pending, haccepted, ?_⟩
      rw [hpending, AllOrNothing, hnone]
      simp
    · refine ⟨(s.collect cfg tick).pending.take k, haccepted, ?_⟩
      rw [hpending, AllOrNothing, hsome]
      constructor
      · intro hunsent _
        rcases Nat.eq_zero_or_pos k with rfl | hpos
        · exact Or.inr rfl
        · have hfirst : (s.collect cfg tick).pending[0] ∈ (s.collect cfg tick).pending.take k :=
            List.mem_take_iff_getElem.mpr ⟨0, by omega, rfl⟩
          exact absurd (List.getElem_mem _) (hunsent _ hfirst)
      · intro hfirst
        obtain hnone | hzero := hfirst hconnected
        · cases hnone
        · cases hzero
          simp

/-- The readings accepted so far, followed by those that are pending, are among those emitted, in
order and each at most once. -/
def SentOnce (s : Runner) : Prop := (s.outbox.accepted ++ s.pending).Sublist s.emitted

theorem SentOnce.step {s t : Runner} {event : Event} (hsent : SentOnce s)
    (hwhole : AllOrNothing c cfg s event) (hstep : (run c cfg).step s event = some t) :
    SentOnce t := by
  unfold SentOnce at hsent ⊢
  cases event with
  | tick tick =>
    obtain ⟨-, rfl⟩ := run_tick hstep
    have hcollected : (s.outbox.accepted ++ (s.collect cfg tick).pending).Sublist
        (s.collect cfg tick).emitted := by
      have hall := hsent.append_right (readings cfg s.agg (tick.feed cfg)).2
      rw [List.append_assoc] at hall
      exact ((List.Sublist.refl _).append (capped_sublist _)).trans hall
    rw [Runner.tick, ((s.collect cfg tick).publish_keeps c tick).2.1]
    cases hconnected : tick.connected with
    | false =>
      rw [Runner.publish_offline c hconnected]
      exact hcollected
    | true =>
      obtain ⟨-, haccepted, hpending⟩ | ⟨k, hsome, -, haccepted, hpending⟩ :=
        (s.collect cfg tick).publish_online c hconnected
      · rw [haccepted, hpending, List.append_nil]
        exact hcollected
      · have hzero : k = 0 := by
          obtain hnone | hzero := hwhole hconnected
          · rw [hsome] at hnone
            cases hnone
          · rw [hsome] at hzero
            exact Option.some.inj hzero
        rw [haccepted, hpending, hzero, List.take_zero, List.append_nil]
        exact hcollected
  | shutdown iteration verdicts =>
    obtain ⟨-, rfl⟩ := run_shutdown hstep
    obtain ⟨-, hemitted, houtbox, hpending⟩ := s.shutdown_keeps c iteration verdicts
    rw [hemitted, houtbox, hpending]
    exact hsent

/-- Readings are sent once: in every run in which the client takes all pending readings of a tick
or not even the first, those it has accepted are among the emitted ones, in order and each at
most once, and none of them is still pending. In one tick, an accepted reading is not kept under
just this condition. -/
theorem readings_are_sent_once {publisher : MqttPublisher} {dir : Fs} {now : Instant}
    {s₀ s : Runner} {events : List Event} (hnew : Runner.new c cfg publisher dir now = .ok s₀)
    (hrun : (run c cfg).Run (AllOrNothing c cfg) s₀ events s) :
    (s.outbox.accepted ++ s.pending).Sublist s.emitted ∧
    ∀ (t : Runner) (tick : Tick),
      ∃ sent, (t.tick c cfg tick).outbox.accepted = t.outbox.accepted ++ sent ∧
        ((∀ m ∈ sent, m ∉ (t.tick c cfg tick).pending) ↔ AllOrNothing c cfg t (.tick tick)) := by
  obtain ⟨-, -, hpending, hemitted, haccepted, -⟩ := Runner.new_eq hnew
  have hstart : SentOnce s₀ := by
    rw [SentOnce, haccepted, hpending, hemitted]
    exact List.Sublist.refl _
  have hsent := hrun.invariant hstart fun s event t hs hwhole hstep => hs.step hwhole hstep
  exact ⟨hsent, tick_keeps_unsent_iff c cfg⟩

theorem readings_are_sent_once_late : ∃ s₀ s,
    Runner.new .wire custom_only fresh_client fresh_dir 0 = .ok s₀ ∧
    (run .wire custom_only).Run (AllOrNothing .wire custom_only) s₀
      [gauges ["a", "b"] [false], gauges ["c"] [true]] s ∧
    s.outbox.accepted.length = 3 ∧ (s.outbox.accepted ++ s.pending).Sublist s.emitted := by
  have htest : (Runner.new .wire custom_only fresh_client fresh_dir 0).toOption.any (fun s₀ =>
      ((run .wire custom_only).exec (AllOrNothing .wire custom_only) s₀
        [gauges ["a", "b"] [false], gauges ["c"] [true]]).any fun s =>
          s.outbox.accepted.length = 3) = true := by
    rfl
  obtain ⟨s₀, hnew, htest⟩ := effect.exists_ok_of_any htest
  obtain ⟨s, hrun, htest⟩ := Machine.exists_run_of_exec _ htest
  exact ⟨s₀, s, hnew, hrun, of_decide_eq_true htest, (readings_are_sent_once hnew hrun).1⟩

/-- The client accepts the first of two readings and refuses the second; both stay pending, and
the next tick hands both to it. -/
theorem accepted_reading_is_sent_again : ∃ s₀ s t,
    Runner.new .wire custom_only fresh_client fresh_dir 0 = .ok s₀ ∧
    (run .wire custom_only).Run (fun _ _ => True) s₀ [gauges ["a", "b"] [true, false]] s ∧
    (∃ m ∈ s.outbox.accepted, m ∈ s.pending) ∧
    (run .wire custom_only).Run (fun _ _ => True) s [gauges [] []] t ∧
    t.emitted.length < t.outbox.accepted.length := by
  have htest : (Runner.new .wire custom_only fresh_client fresh_dir 0).toOption.any (fun s₀ =>
      ((run .wire custom_only).exec (fun _ _ => True) s₀ [gauges ["a", "b"] [true, false]]).any
        fun s => (∃ m ∈ s.outbox.accepted, m ∈ s.pending) ∧
          ((run .wire custom_only).exec (fun _ _ => True) s [gauges [] []]).any
            fun t => t.emitted.length < t.outbox.accepted.length) = true := by
    rfl
  obtain ⟨s₀, hnew, htest⟩ := effect.exists_ok_of_any htest
  obtain ⟨s, hfirst, htest⟩ := Machine.exists_run_of_exec _ htest
  obtain ⟨hkept, htest⟩ := of_decide_eq_true htest
  obtain ⟨t, hsecond, htest⟩ := Machine.exists_run_of_exec _ htest
  exact ⟨s₀, s, t, hnew, hfirst, hkept, hsecond, of_decide_eq_true htest⟩

end spotflowd.metrics
