import Spotflowd.Metrics.Delivery
import Spotflowd.Metrics.Gapless
import Mathlib.Data.List.Chain
import Mathlib.Data.List.DropRight

open fs
open spotflowd.config spotflowd.log_entry spotflowd.mqtt
open spotflowd.metrics.aggregator spotflowd.metrics.publisher

namespace spotflowd.metrics

/-- A successful publish: something is pending once the readings of the tick have joined, and a
connected client takes all of it. -/
def Publishes (c : Ciborium) (cfg : MetricsConfig) (s : Runner) : Event → Prop
  | .tick tick => tick.connected = true ∧ (s.collect cfg tick).pending ≠ [] ∧
      first_failure c tick.outcomes (s.collect cfg tick).pending = none
  | .shutdown _ _ => False

/-- `since` is what a run from `s₀` to `s` has emitted after its last successful publish, or from
the start when there was none. -/
def EmittedSince (c : Ciborium) (cfg : MetricsConfig) (s₀ : Runner) (events : List Event) (s : Runner)
    (since : List ReadyMetric) : Prop :=
  ∃ before after mid, events = before ++ after ∧
    (run c cfg).Run (fun _ _ => True) s₀ before mid ∧
    (before = [] ∨ ∃ earlier event u, before = earlier ++ [event] ∧
      (run c cfg).Run (fun _ _ => True) s₀ earlier u ∧ Publishes c cfg u event ∧
      (run c cfg).step u event = some mid) ∧
    (run c cfg).Run (fun t event => ¬ Publishes c cfg t event) mid after s ∧
    s.emitted = mid.emitted ++ since

/-- The number after another one, as a `u64`. -/
def Consecutive (n next : UInt64) : Prop := next.toNat = (n.toNat + 1) % 2 ^ 64

variable {c : Ciborium} {cfg : MetricsConfig}

theorem isChain_following (last : UInt64) (n : Nat) : (following last n).IsChain Consecutive := by
  rw [List.isChain_iff_getElem]
  intro i hi
  simp only [following, List.getElem_map, List.getElem_range, Consecutive, UInt64.toNat_add,
    UInt64.toNat_ofNat']
  omega

theorem numbers_suffix {readings more : List ReadyMetric} (hsuffix : readings <:+ more) (key : String) :
    numbers key readings <:+ numbers key more :=
  (hsuffix.filter _).map _

/-- Capping twice is capping once. -/
theorem capped_append (since ready : List ReadyMetric) :
    capped (since.rtake MAX_PENDING ++ ready) = (since ++ ready).rtake MAX_PENDING := by
  rw [capped_eq]
  generalize MAX_PENDING = cap
  rw [List.rtake, List.rtake, List.length_append, List.length_append, List.length_drop,
    List.drop_append, List.drop_append, List.drop_drop, List.length_drop]
  congr 2 <;> omega

/-- What an event that is no successful publish does to the pending readings. -/
theorem pending_step {s t : Runner} {event : Event} (hkept : ¬ Publishes c cfg s event)
    (hstep : (run c cfg).step s event = some t) :
    ∃ ready, t.emitted = s.emitted ++ ready ∧
      (t.pending = capped (s.pending ++ ready) ∨ ready = [] ∧ t.pending = s.pending) := by
  cases event with
  | tick tick =>
    obtain ⟨-, rfl⟩ := run_tick hstep
    have hemitted := ((s.collect cfg tick).publish_keeps c tick).2.1
    refine ⟨(readings cfg s.agg (tick.feed cfg)).2, hemitted, Or.inl ?_⟩
    change _ = (s.collect cfg tick).pending
    rw [Runner.tick]
    cases hconnected : tick.connected with
    | false => rw [Runner.publish_offline c hconnected]
    | true =>
      obtain ⟨hnone, -, hpending⟩ | ⟨k, -, -, -, hpending⟩ :=
        (s.collect cfg tick).publish_online c hconnected
      · rw [hpending]
        by_contra hsome
        exact hkept ⟨hconnected, Ne.symm hsome, hnone⟩
      · exact hpending
  | shutdown iteration verdicts =>
    obtain ⟨-, rfl⟩ := run_shutdown hstep
    obtain ⟨-, hemitted, -, hpending⟩ := s.shutdown_keeps c iteration verdicts
    exact ⟨[], by rw [hemitted, List.append_nil], Or.inr ⟨rfl, hpending⟩⟩

/-- Right after a successful publish nothing is pending. -/
theorem pending_published {s t : Runner} {event : Event} (hpublishes : Publishes c cfg s event)
    (hstep : (run c cfg).step s event = some t) : t.pending = [] := by
  cases event with
  | tick tick =>
    obtain ⟨-, rfl⟩ := run_tick hstep
    obtain ⟨hconnected, -, hnone⟩ := hpublishes
    obtain ⟨-, -, hpending⟩ | ⟨k, hsome, -⟩ := (s.collect cfg tick).publish_online c hconnected
    · exact hpending
    · rw [hnone] at hsome
      cases hsome
  | shutdown iteration verdicts => exact hpublishes.elim

/-- Without a successful publish, the newest readings stay pending. -/
theorem pending_run {s t : Runner} {events : List Event} (hempty : s.pending = [])
    (hrun : (run c cfg).Run (fun t event => ¬ Publishes c cfg t event) s events t) :
    ∃ since, t.emitted = s.emitted ++ since ∧ t.pending = since.rtake MAX_PENDING := by
  refine hrun.invariant (P := fun t => ∃ since, t.emitted = s.emitted ++ since ∧
    t.pending = since.rtake MAX_PENDING) ⟨[], (List.append_nil _).symm, hempty⟩ ?_
  rintro t event u ⟨since, hemitted, hpending⟩ hkept hstep
  obtain ⟨ready, hmore, hjoined | ⟨rfl, hsame⟩⟩ := pending_step hkept hstep
  · refine ⟨since ++ ready, by rw [hmore, hemitted, List.append_assoc], ?_⟩
    rw [hjoined, hpending, capped_append]
  · exact ⟨since, by rw [hmore, List.append_nil, hemitted], hsame.trans hpending⟩

/-- Every run has a last successful publish, or none. -/
theorem exists_emittedSince {s₀ s : Runner} {events : List Event}
    (hrun : (run c cfg).Run (fun _ _ => True) s₀ events s) :
    ∃ since, EmittedSince c cfg s₀ events s since := by
  induction hrun with
  | nil => exact ⟨[], [], [], s₀, rfl, .nil _, Or.inl rfl, .nil _, (List.append_nil _).symm⟩
  | @snoc t u past event hrun _ hstep ih =>
    by_cases hpublishes : Publishes c cfg t event
    · exact ⟨[], past ++ [event], [], u, (List.append_nil _).symm, .snoc hrun trivial hstep,
        Or.inr ⟨past, event, t, rfl, hrun, hpublishes, hstep⟩, .nil _, (List.append_nil _).symm⟩
    · obtain ⟨since, before, after, mid, rfl, hbefore, hlast, hafter, hemitted⟩ := ih
      obtain ⟨ready, hmore, -⟩ := pending_step hpublishes hstep
      refine ⟨since ++ ready, before, after ++ [event], mid, List.append_assoc .., hbefore, hlast,
        .snoc hafter hpublishes hstep, ?_⟩
      rw [hmore, hemitted, List.append_assoc]

/-- What is pending are the newest of the readings emitted since the last successful publish. -/
theorem EmittedSince.pending {s₀ s : Runner} {events : List Event} {since : List ReadyMetric}
    (hsince : EmittedSince c cfg s₀ events s since) (hempty : s₀.pending = []) :
    s.pending = since.rtake MAX_PENDING := by
  obtain ⟨before, after, mid, -, hbefore, hlast, hafter, hemitted⟩ := hsince
  have hmid : mid.pending = [] := by
    obtain rfl | ⟨earlier, event, u, -, -, hpublishes, hstep⟩ := hlast
    · obtain ⟨-, rfl⟩ | ⟨event, rest, t, hnil, -⟩ := hbefore.head
      · exact hempty
      · cases hnil
    · exact pending_published hpublishes hstep
  obtain ⟨since', hemitted', hpending⟩ := pending_run hmid hafter
  rw [hemitted, List.append_cancel_left_eq] at hemitted'
  rw [hpending, hemitted']

theorem EmittedSince.suffix {s₀ s : Runner} {events : List Event} {since : List ReadyMetric}
    (hsince : EmittedSince c cfg s₀ events s since) : since <:+ s.emitted := by
  obtain ⟨-, -, mid, -, -, -, -, hemitted⟩ := hsince
  exact ⟨mid.emitted, hemitted.symm⟩

/-- The pending list is the newest suffix: in every run, at most `MAX_PENDING` readings are pending,
the last of those emitted since the last successful publish; right after one, none is. The
numbers of a stream among them follow one another as `u64`s. -/
theorem pending_is_the_newest_suffix {publisher : MqttPublisher} {dir : Fs} {now : Instant}
    {s₀ s : Runner} {events : List Event} (hnew : Runner.new c cfg publisher dir now = .ok s₀)
    (hrun : (run c cfg).Run (fun _ _ => True) s₀ events s) :
    s.pending.length ≤ MAX_PENDING ∧
    (∃ since, EmittedSince c cfg s₀ events s since) ∧
    (∀ since, EmittedSince c cfg s₀ events s since → s.pending = since.rtake MAX_PENDING) ∧
    (∀ t event, Publishes c cfg s event → (run c cfg).step s event = some t → t.pending = []) ∧
    ∀ key, (numbers key s.pending).IsChain Consecutive := by
  obtain ⟨-, -, hpending, -, -, -⟩ := Runner.new_eq hnew
  obtain ⟨since, hsince⟩ := exists_emittedSince hrun
  have hlast := hsince.pending hpending
  have hgapless := Gapless.of_run hnew hrun
  refine ⟨?_, ⟨since, hsince⟩, fun _ hsince => hsince.pending hpending,
    fun t event => pending_published, ?_⟩
  · rw [hlast, List.rtake, List.length_drop]
    omega
  · intro key
    have hsuffix : s.pending <:+ s.emitted := by
      rw [hlast]
      exact (List.drop_suffix _ _).trans hsince.suffix
    apply List.IsChain.suffix _ (numbers_suffix hsuffix key)
    rw [hgapless.issues.numbers key]
    exact isChain_following _ _

theorem pending_is_the_newest_suffix_offline : ∃ s₀ s,
    Runner.new .wire custom_only fresh_client fresh_dir 0 = .ok s₀ ∧
    (run .wire custom_only).Run (fun _ _ => True) s₀
      [gauges ["a"] [], gauges ["a", "b"] [true, false], gauges ["a"] [false]] s ∧
    numbers "a" s.pending = [2, 3] ∧ (numbers "a" s.pending).IsChain Consecutive := by
  have htest : (Runner.new .wire custom_only fresh_client fresh_dir 0).toOption.any (fun s₀ =>
      ((run .wire custom_only).exec (fun _ _ => True) s₀
        [gauges ["a"] [], gauges ["a", "b"] [true, false], gauges ["a"] [false]]).any fun s =>
          numbers "a" s.pending = [2, 3]) = true := by
    rfl
  obtain ⟨s₀, hnew, htest⟩ := effect.exists_ok_of_any htest
  obtain ⟨s, hrun, htest⟩ := Machine.exists_run_of_exec _ htest
  exact ⟨s₀, s, hnew, hrun, of_decide_eq_true htest,
    (pending_is_the_newest_suffix hnew hrun).2.2.2.2 "a"⟩

/-- A sequence file that says that 2^64 - 2 has been used for one stream. -/
def worn_dir : Fs where
  dir := some (AList.singleton SEQ_FILE_NAME
    (cbor.encode (.Map [(.Text "a", u64_to_value (UInt64.ofNat (2 ^ 64 - 2)))])))
  verdicts := []
  renamed := []
  removed := []

/-- After 2^64 - 1 the next number is 0, and both are pending. -/
theorem pending_numbers_wrap : ∃ s₀ s,
    Runner.new .wire custom_only fresh_client worn_dir 0 = .ok s₀ ∧
    (run .wire custom_only).Run (fun _ _ => True) s₀ [gauges ["a"] [false], gauges ["a"] [false]] s ∧
    ¬ ((numbers "a" s.pending).map UInt64.toNat).Pairwise (· < ·) := by
  have htest : (Runner.new .wire custom_only fresh_client worn_dir 0).toOption.any (fun s₀ =>
      ((run .wire custom_only).exec (fun _ _ => True) s₀
        [gauges ["a"] [false], gauges ["a"] [false]]).any fun s =>
          ¬ ((numbers "a" s.pending).map UInt64.toNat).Pairwise (· < ·)) = true := by
    rfl
  obtain ⟨s₀, hnew, htest⟩ := effect.exists_ok_of_any htest
  obtain ⟨s, hrun, htest⟩ := Machine.exists_run_of_exec _ htest
  exact ⟨s₀, s, hnew, hrun, of_decide_eq_true htest⟩

end spotflowd.metrics
