import Spotflowd.Metrics.Admission
import Spotflowd.Metrics.Restart

open fs
open spotflowd.config spotflowd.mqtt
open spotflowd.metrics.aggregator spotflowd.metrics.publisher

namespace spotflowd.metrics

/-- The number of readings of a tick, from the samples and the open windows. -/
def due (cfg : MetricsConfig) (agg : Aggregator) (feed : Feed) : Nat :=
  (agg.direct feed.samples).length + (agg.elapsed feed).length +
    if cfg.enabled && cfg.groups.system then 1 else 0

/-- The tick finds the client connected, and it takes everything that is pending. -/
def Online (c : Ciborium) (cfg : MetricsConfig) (s : Runner) : Event → Prop
  | .tick tick => tick.connected = true ∧
      first_failure c tick.outcomes (s.collect cfg tick).pending = none
  | .shutdown _ _ => True

/-- The readings of the tick alone do not exceed the cap. -/
def Bounded (cfg : MetricsConfig) (s : Runner) : Event → Prop
  | .tick tick => due cfg s.agg (tick.feed cfg) ≤ MAX_PENDING
  | .shutdown _ _ => True

instance (c : Ciborium) (cfg : MetricsConfig) (s : Runner) : (event : Event) →
    Decidable (Online c cfg s event)
  | .tick _ => inferInstanceAs (Decidable (_ ∧ _))
  | .shutdown _ _ => inferInstanceAs (Decidable True)

instance (cfg : MetricsConfig) (s : Runner) : (event : Event) → Decidable (Bounded cfg s event)
  | .tick _ => inferInstanceAs (Decidable (_ ≤ _))
  | .shutdown _ _ => inferInstanceAs (Decidable True)

variable {c : Ciborium} {cfg : MetricsConfig}

theorem length_readings (cfg : MetricsConfig) (agg : Aggregator) (feed : Feed) :
    (readings cfg agg feed).2.length = due cfg agg feed := by
  have hlength := (agg.ingest_admitted feed).1
  unfold readings due
  dsimp only
  split
  · rw [List.length_append, hlength, List.length_singleton]
  · exact hlength

theorem capped_eq (pending : List ReadyMetric) :
    capped pending = pending.drop (pending.length - MAX_PENDING) := by
  unfold capped
  split
  · rfl
  · next hfew => rw [Nat.sub_eq_zero_of_le (not_lt.mp hfew), List.drop_zero]

/-- The cap takes from the older readings alone if and only if the newer ones fit. -/
theorem capped_append_iff (older newer : List ReadyMetric) :
    (∃ n, capped (older ++ newer) = older.drop n ++ newer) ↔ newer.length ≤ MAX_PENDING := by
  rw [capped_eq, List.length_append]
  constructor
  · rintro ⟨n, heq⟩
    have hlength := congrArg List.length heq
    rw [List.length_drop, List.length_append, List.length_append, List.length_drop] at hlength
    omega
  · intro hfits
    refine ⟨older.length + newer.length - MAX_PENDING, ?_⟩
    rw [List.drop_append_of_le_length (by omega)]

theorem collect_pending_iff (cfg : MetricsConfig) (s : Runner) (tick : Tick) :
    (∃ n, (s.collect cfg tick).pending =
      s.pending.drop n ++ (readings cfg s.agg (tick.feed cfg)).2) ↔ Bounded cfg s (.tick tick) := by
  rw [Bounded, ← length_readings]
  exact capped_append_iff _ _

/-- What an online event does to the readings: those of a tick are handed over, as far as the cap
lets them, and nothing stays pending. -/
theorem online_step {s t : Runner} {event : Event} (honline : Online c cfg s event)
    (hempty : s.pending = []) (hstep : (run c cfg).step s event = some t) :
    t.pending = [] ∧ ∃ ready, t.emitted = s.emitted ++ ready ∧
      t.outbox.accepted = s.outbox.accepted ++ capped ready ∧
      (Bounded cfg s event ↔ ready.length ≤ MAX_PENDING) := by
  cases event with
  | tick tick =>
    obtain ⟨-, rfl⟩ := run_tick hstep
    obtain ⟨hconnected, htaken⟩ := honline
    obtain ⟨-, haccepted, hpending⟩ | ⟨k, hsome, -⟩ := (s.collect cfg tick).publish_online c hconnected
    · refine ⟨hpending, (readings cfg s.agg (tick.feed cfg)).2, ?_, ?_, ?_⟩
      · exact ((s.collect cfg tick).publish_keeps c tick).2.1
      · rw [Runner.tick, haccepted]
        change _ ++ capped (s.pending ++ _) = _
        rw [hempty, List.nil_append]
        rfl
      · rw [Bounded, length_readings]
    · rw [htaken] at hsome
      cases hsome
  | shutdown iteration verdicts =>
    obtain ⟨-, rfl⟩ := run_shutdown hstep
    obtain ⟨-, hemitted, houtbox, hpending⟩ := s.shutdown_keeps c iteration verdicts
    refine ⟨hpending.trans hempty, [], ?_, ?_, ?_⟩
    · rw [hemitted, List.append_nil]
    · rw [houtbox]
      exact (List.append_nil _).symm
    · exact ⟨fun _ => Nat.zero_le _, fun _ => trivial⟩

/-- An online run hands over all it emits, or, once a tick has had too many readings, fewer. -/
theorem online_run {s₀ s : Runner} {events : List Event} (hpending : s₀.pending = [])
    (haccepted : s₀.outbox.accepted = s₀.emitted)
    (hrun : (run c cfg).Run (Online c cfg) s₀ events s) :
    s.pending = [] ∧
    (((run c cfg).Run (fun s event => Online c cfg s event ∧ Bounded cfg s event) s₀ events s ∧
        s.outbox.accepted = s.emitted) ∨
      s.outbox.accepted.length < s.emitted.length) := by
  induction hrun with
  | nil => exact ⟨hpending, Or.inl ⟨.nil _, haccepted⟩⟩
  | @snoc s t past event _ honline hstep ih =>
    obtain ⟨hempty, hsofar⟩ := ih
    obtain ⟨hpending, ready, hemitted, hhanded, hbounded⟩ := online_step honline hempty hstep
    refine ⟨hpending, ?_⟩
    have hcapped := (capped_sublist ready).length_le
    rw [hemitted, hhanded, List.length_append, List.length_append]
    obtain ⟨hbefore, hall⟩ | hfewer := hsofar
    · by_cases hfits : ready.length ≤ MAX_PENDING
      · refine Or.inl ⟨.snoc hbefore ⟨honline, hbounded.mpr hfits⟩ hstep, ?_⟩
        rw [hall, capped, if_neg (not_lt.mpr hfits)]
      · refine Or.inr ?_
        rw [hall, capped_eq, List.length_drop]
        omega
    · exact Or.inr (by omega)

/-- Online metrics are delivered: in a run whose ticks all find the client connected and taking
what is pending, everything emitted is handed to it, once and in order, if and only if no tick has
more readings than the cap. And the readings that the cap discards in a tick are all older than
the tick under the same condition. -/
theorem online_metrics_are_delivered {publisher : MqttPublisher} {dir : Fs} {now : Instant}
    {s₀ s : Runner} {events : List Event} (hnew : Runner.new c cfg publisher dir now = .ok s₀)
    (hrun : (run c cfg).Run (Online c cfg) s₀ events s) :
    (s.outbox.accepted = s.emitted ↔
      (run c cfg).Run (fun s event => Online c cfg s event ∧ Bounded cfg s event) s₀ events s) ∧
    ∀ (t : Runner) (tick : Tick),
      (∃ n, (t.collect cfg tick).pending = t.pending.drop n ++ (readings cfg t.agg (tick.feed cfg)).2) ↔
        Bounded cfg t (.tick tick) := by
  obtain ⟨-, -, hpending, hemitted, haccepted, -⟩ := Runner.new_eq hnew
  have hstart : s₀.outbox.accepted = s₀.emitted := by rw [haccepted, hemitted]
  refine ⟨⟨?_, ?_⟩, fun t tick => collect_pending_iff cfg t tick⟩
  · intro hall
    obtain ⟨-, ⟨hbounded, -⟩ | hfewer⟩ := online_run hpending hstart hrun
    · exact hbounded
    · rw [hall] at hfewer
      exact absurd hfewer (lt_irrefl _)
  · intro hbounded
    refine (hbounded.invariant (P := fun s => s.pending = [] ∧ s.outbox.accepted = s.emitted)
      ⟨hpending, hstart⟩ ?_).2
    intro s event t ⟨hempty, hall⟩ ⟨honline, hfits⟩ hstep
    obtain ⟨hpending, ready, hemitted, hhanded, hiff⟩ := online_step honline hempty hstep
    refine ⟨hpending, ?_⟩
    rw [hhanded, hemitted, hall, capped, if_neg (not_lt.mpr (hiff.mp hfits))]

theorem online_metrics_are_delivered_twice : ∃ s₀ s,
    Runner.new .wire custom_only fresh_client fresh_dir 0 = .ok s₀ ∧
    (run .wire custom_only).Run (Online .wire custom_only) s₀
      [gauges ["a", "b"] [true, true], gauges ["a"] []] s ∧ s.emitted ≠ [] ∧
    (s.outbox.accepted = s.emitted ↔ (run .wire custom_only).Run (fun s event =>
      Online .wire custom_only s event ∧ Bounded custom_only s event) s₀
      [gauges ["a", "b"] [true, true], gauges ["a"] []] s) := by
  have htest : (Runner.new .wire custom_only fresh_client fresh_dir 0).toOption.any (fun s₀ =>
      ((run .wire custom_only).exec (Online .wire custom_only) s₀
        [gauges ["a", "b"] [true, true], gauges ["a"] []]).any fun s => s.emitted ≠ []) = true := by
    rfl
  obtain ⟨s₀, hnew, htest⟩ := effect.exists_ok_of_any htest
  obtain ⟨s, hrun, htest⟩ := Machine.exists_run_of_exec _ htest
  exact ⟨s₀, s, hnew, hrun, of_decide_eq_true htest, (online_metrics_are_delivered hnew hrun).1⟩

/-- Without aggregation every reading is a sample. -/
theorem ingest_raw {self : Aggregator} (hnone : self.agg_duration = none) (feed : Feed) :
    ∀ m ∈ (self.ingest feed).2, ∃ s ∈ feed.samples, ∃ seq, m = s.1.ready feed.uptime_ms seq := by
  have hsamples : ∀ samples : List (MetricSample × Instant),
      (samples.foldl (Aggregator.ingest_sample feed.uptime_ms) (self, [])).1.agg_duration = none ∧
      ∀ m ∈ (samples.foldl (Aggregator.ingest_sample feed.uptime_ms) (self, [])).2,
        ∃ s ∈ samples, ∃ seq, m = s.1.ready feed.uptime_ms seq := by
    intro samples
    induction samples using List.reverseRecOn with
    | nil => exact ⟨hnone, by simp⟩
    | append_singleton samples s ih =>
      rw [List.foldl_concat]
      revert ih
      generalize samples.foldl (Aggregator.ingest_sample feed.uptime_ms) (self, []) = after
      obtain ⟨after, ready⟩ := after
      obtain ⟨s, now⟩ := s
      rintro ⟨hduration, hready⟩
      have himmediate : after.immediate s = true := by
        unfold Aggregator.immediate
        rw [hduration]
        rfl
      obtain ⟨-, h⟩ | ⟨hkind, -⟩ | ⟨hkind, -⟩ | ⟨hkind, -⟩ :=
        Aggregator.ingest_sample_cases feed.uptime_ms after ready s now
      · rw [h]
        refine ⟨hduration, ?_⟩
        intro m hmem
        rcases List.mem_append.mp hmem with hold | hnew
        · obtain ⟨s', hs', seq, rfl⟩ := hready m hold
          exact ⟨s', List.mem_append_left _ hs', seq, rfl⟩
        · rw [List.mem_singleton] at hnew
          exact ⟨(s, now), by simp, _, hnew⟩
      all_goals
        rw [himmediate] at hkind
        cases hkind
  obtain ⟨hduration, hready⟩ := hsamples feed.samples
  unfold Aggregator.ingest
  dsimp only
  rw [hduration]
  exact hready

theorem first_failure_none {c : Ciborium} {metrics : List ReadyMetric}
    (hencode : ∀ m ∈ metrics, ∃ payload, encode_metric c m = .ok payload) :
    first_failure c [] metrics = none := by
  induction metrics with
  | nil => rfl
  | cons m metrics ih =>
    obtain ⟨payload, hpayload⟩ := hencode m List.mem_cons_self
    simp only [first_failure, hpayload, List.tail_nil]
    rw [ih fun m hmem => hencode m (List.mem_cons_of_mem _ hmem)]
    rfl

theorem fits_gauge (uptime_ms seq : UInt64) :
    cbor.fits (.Map (metric_map ((gauge "a").ready uptime_ms seq))) = true := by
  have huptime := uptime_ms.toNat_lt
  have hseq := seq.toNat_lt
  have hname : (cbor.utf8 "a").length < 2 ^ 64 := by decide
  have hsum : cbor_number (gauge "a").value.as_f64 = .Integer 1 := rfl
  unfold metric_map MetricSample.ready
  simp only [hsum]
  simp [gauge, cbor.fits, cbor.fitsPairs, MESSAGE_TYPE_METRIC, AGG_NONE]
  omega

theorem encode_metric_of_fits {m : ReadyMetric} (hfits : cbor.fits (.Map (metric_map m)) = true) :
    ∃ payload, encode_metric .wire m = .ok payload := by
  unfold encode_metric
  rw [Ciborium.wire_value_into_writer hfits]
  exact ⟨_, rfl⟩

/-- A connected client takes any number of gauges. -/
theorem online_gauges {s : Runner} (hnone : s.agg.agg_duration = none) (hpending : s.pending = [])
    {names : List String} (hnames : ∀ name ∈ names, name = "a") :
    Online .wire custom_only s (gauges names []) := by
  refine ⟨rfl, first_failure_none ?_⟩
  intro m hmem
  have hm := (capped_sublist _).subset hmem
  rw [hpending, List.nil_append] at hm
  obtain ⟨sample, hsample, seq, rfl⟩ := ingest_raw hnone _ m hm
  obtain ⟨name, hname, rfl⟩ := List.mem_map.mp hsample
  rw [hnames name hname]
  exact encode_metric_of_fits (fits_gauge _ _)

/-- The cap is applied before the connection is looked at: of 1001 readings in one tick the first
is dropped although the client is connected and takes all it is given. -/
theorem online_reading_is_dropped : ∃ s₀ s,
    Runner.new .wire custom_only fresh_client fresh_dir 0 = .ok s₀ ∧
    (run .wire custom_only).Run (Online .wire custom_only) s₀
      [gauges (List.replicate (MAX_PENDING + 1) "a") []] s ∧ s.outbox.accepted ≠ s.emitted := by
  have htest : (Runner.new .wire custom_only fresh_client fresh_dir 0).toOption.any (fun s₀ =>
      s₀.agg.agg_duration = none ∧
        ¬ Bounded custom_only s₀ (gauges (List.replicate (MAX_PENDING + 1) "a") [])) = true := by
    decide +kernel
  obtain ⟨s₀, hnew, htest⟩ := effect.exists_ok_of_any htest
  obtain ⟨hnone, hover⟩ := of_decide_eq_true htest
  obtain ⟨-, -, hpending, hemitted, haccepted, hrunning⟩ := Runner.new_eq hnew
  generalize hnames : List.replicate (MAX_PENDING + 1) "a" = names at hover
  have honline : Online .wire custom_only s₀ (gauges names []) := by
    apply online_gauges hnone hpending
    intro name hname
    rw [← hnames] at hname
    exact List.eq_of_mem_replicate hname
  have hrun := Machine.Run.single honline (show (run .wire custom_only).step s₀ (gauges names []) = _
    from if_neg (by simp [hrunning]))
  refine ⟨s₀, _, hnew, hrun, ?_⟩
  intro hall
  obtain ⟨-, ⟨hbounded, -⟩ | hfewer⟩ := online_run hpending (by rw [haccepted, hemitted]) hrun
  · obtain ⟨hnil, -⟩ | ⟨event, rest, t, heq, hfits, -⟩ := hbounded.head
    · cases hnil
    · cases heq
      exact hover hfits.2
  · rw [hall] at hfewer
    exact lt_irrefl _ hfewer

end spotflowd.metrics
