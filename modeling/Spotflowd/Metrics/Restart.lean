import Spotflowd.Metrics.Saving
import Spotflowd.Metrics.Ticks

open fs
open spotflowd.config spotflowd.mqtt
open spotflowd.metrics.aggregator spotflowd.metrics.publisher

namespace spotflowd.metrics

/-- No stream is within `count` numbers of the end of `u64`. -/
def has_numbers (agg : Aggregator) (count : Nat) : Prop :=
  count < 2 ^ 64 ∧ ∀ key ∈ agg.seq.keys, (agg.last_seq key).toNat + count < 2 ^ 64

instance (agg : Aggregator) (count : Nat) : Decidable (has_numbers agg count) :=
  inferInstanceAs (Decidable (_ ∧ _))

theorem has_numbers_room {agg : Aggregator} {count : Nat} (hnumbers : has_numbers agg count)
    (key : String) : (agg.last_seq key).toNat + count < 2 ^ 64 := by
  by_cases hmem : key ∈ agg.seq.keys
  · exact hnumbers.2 key hmem
  · have hnone : agg.seq.lookup key = none := AList.lookup_eq_none.mpr fun h => hmem (AList.mem_keys.mp h)
    rw [Aggregator.last_seq, hnone]
    simpa using hnumbers.1

/-- Every stream has numbers left for the readings of the tick. -/
def Numbering (cfg : MetricsConfig) (s : Runner) : Event → Prop
  | .tick tick =>
    has_numbers s.agg (s.agg.open_streams + (tick.feed cfg).samples.length + 1)
  | .shutdown _ _ => True

/-- `save_seq` succeeds. -/
def Runner.saves (c : Ciborium) (iteration : Iteration String) (verdicts : List Verdict)
    (self : Runner) : Bool :=
  match self.agg.save_seq c iteration { self.fs with verdicts := verdicts } with
  | .ok _ _ => true
  | .error _ _ => false

/-- A save that is attempted at shutdown succeeds. -/
def Saving (c : Ciborium) (s : Runner) : Event → Prop
  | .tick _ => True
  | .shutdown iteration verdicts => s.seq_dirty = true → s.saves c iteration verdicts = true

/-- The client has accepted a reading since the numbers were loaded or last saved. -/
def Runner.Unsaved (self : Runner) : Prop :=
  Since (fun attempt => attempt.takes = true) (fun attempt => attempt = .save true) self.attempts

/-- The client has accepted all that was pending since the numbers were loaded or last to be
saved. -/
def Runner.Due (self : Runner) : Prop :=
  Since (fun attempt => attempt.takes_all = true) (fun attempt => attempt.is_save = true) self.attempts

/-- At shutdown the numbers are due if they are unsaved. -/
def Flagged (s : Runner) : Event → Prop
  | .tick _ => True
  | .shutdown _ _ => s.Unsaved → s.Due

instance (cfg : MetricsConfig) (s : Runner) : (event : Event) → Decidable (Numbering cfg s event)
  | .tick _ => inferInstanceAs (Decidable (has_numbers _ _))
  | .shutdown _ _ => inferInstanceAs (Decidable True)

instance (c : Ciborium) (s : Runner) : (event : Event) → Decidable (Saving c s event)
  | .tick _ => inferInstanceAs (Decidable True)
  | .shutdown _ _ => inferInstanceAs (Decidable (_ → _))

instance (s : Runner) : (event : Event) → Decidable (Flagged s event)
  | .tick _ => inferInstanceAs (Decidable True)
  | .shutdown _ _ => inferInstanceAs (Decidable (Since _ _ _ → Since _ _ _))

/-- All readings so far are numbered above `base` and not above the last number of their stream. -/
structure Numbered (base : String → Nat) (s : Runner) : Prop where
  keyed : s.agg.Keyed
  grown : ∀ key, base key ≤ (s.agg.last_seq key).toNat
  emitted : ∀ m ∈ s.emitted, base m.key < m.seq.toNat ∧ m.seq.toNat ≤ (s.agg.last_seq m.key).toNat

variable {c : Ciborium} {cfg : MetricsConfig} {base : String → Nat}

theorem Numbered.collect {s : Runner} (hnumbered : Numbered base s) {tick : Tick}
    (hroom : Numbering cfg s (.tick tick)) : Numbered base (s.collect cfg tick) := by
  obtain ⟨hissues, hkeyed, hsize⟩ := readings_issued cfg hnumbered.keyed (tick.feed cfg)
  have hbounds := fun key => hissues.bounds key
    (lt_of_le_of_lt (Nat.add_le_add_left hsize _) (has_numbers_room hroom key))
  refine ⟨hkeyed, fun key => (hnumbered.grown key).trans (hbounds key).1, ?_⟩
  intro m hmem
  have hgrown := hnumbered.grown m.key
  have hkey := hbounds m.key
  change _ ∧ m.seq.toNat ≤ ((readings cfg s.agg (tick.feed cfg)).1.last_seq m.key).toNat
  rcases List.mem_append.mp hmem with hold | hnew
  · have := hnumbered.emitted m hold
    omega
  · have := hkey.2 m hnew rfl
    omega

/-- Publishing and saving issue no numbers. -/
theorem Numbered.of_eq {s t : Runner} (hnumbered : Numbered base s) (hagg : t.agg = s.agg)
    (hemitted : t.emitted = s.emitted) : Numbered base t :=
  ⟨hagg ▸ hnumbered.keyed, hagg ▸ hnumbered.grown, by rw [hagg, hemitted]; exact hnumbered.emitted⟩

theorem Numbered.step {s t : Runner} {event : Event} (hnumbered : Numbered base s)
    (hroom : Numbering cfg s event) (hstep : (run c cfg).step s event = some t) :
    Numbered base t := by
  cases event with
  | tick tick =>
    obtain ⟨-, rfl⟩ := run_tick hstep
    obtain ⟨hagg, hemitted, -⟩ := (s.collect cfg tick).publish_keeps c tick
    exact (hnumbered.collect hroom).of_eq hagg hemitted
  | shutdown iteration verdicts =>
    obtain ⟨-, rfl⟩ := run_shutdown hstep
    obtain ⟨hagg, hemitted, -⟩ := s.shutdown_keeps c iteration verdicts
    exact hnumbered.of_eq hagg hemitted

/-- `seq_dirty` says whether the numbers are due. -/
def Runner.Honest (self : Runner) : Prop := self.seq_dirty = true ↔ self.Due

theorem Runner.Honest.collect {s : Runner} (hhonest : s.Honest) (tick : Tick) :
    (s.collect cfg tick).Honest := hhonest

/-- A list that is accepted as a whole raises the flag, and a save that is attempted then takes it
back, whatever comes of it. -/
theorem Runner.published_honest {s : Runner} {past : List Attempt} {accepted : Nat}
    (hattempts : s.attempts = past ++ [.publish accepted true]) (tick : Tick) :
    (s.published c tick).Honest := by
  obtain h | ⟨fs, -, h⟩ | ⟨fs, h⟩ := s.published_cases c tick
  all_goals rw [h, Runner.Honest, Runner.Due]
  · simp [hattempts, since_snoc, Attempt.takes_all]
  · simp [since_snoc, Attempt.takes_all, Attempt.is_save]
  · simp [since_snoc, Attempt.takes_all, Attempt.is_save]

/-- A list that is not accepted as a whole leaves the flag as it was, whatever was accepted. -/
theorem Runner.Honest.publish {s : Runner} (hhonest : s.Honest) (tick : Tick) :
    (s.publish c tick).Honest := by
  obtain h | ⟨sent, client, -, h⟩ | ⟨client, -, h⟩ := s.publish_cases c tick
  all_goals rw [h]
  · exact hhonest
  · rw [Runner.Honest, Runner.Due, since_snoc]
    refine hhonest.trans ⟨fun hdue => Or.inr ⟨Bool.false_ne_true, hdue⟩, fun hdue => ?_⟩
    exact (hdue.resolve_left Bool.false_ne_true).2
  · exact Runner.published_honest rfl tick

/-- Readings reach the client by way of the pending list; unless one has been accepted since,
the numbers on disk cover all that were accepted. -/
structure Covered (c : Ciborium) (s : Runner) : Prop where
  pending : s.pending ⊆ s.emitted
  accepted : s.outbox.accepted ⊆ s.emitted
  saved : ¬ s.Unsaved → ∀ m ∈ s.outbox.accepted,
    m.seq.toNat ≤ (((stored c s.fs).lookup m.key).getD 0).toNat

theorem Covered.collect {s : Runner} (hcovered : Covered c s) (tick : Tick) :
    Covered c (s.collect cfg tick) := by
  refine ⟨?_, ?_, hcovered.saved⟩
  · intro m hmem
    rcases List.mem_append.mp ((capped_sublist _).subset hmem) with hold | hnew
    · exact List.mem_append_left _ (hcovered.pending hold)
    · exact List.mem_append_right _ hnew
  · exact fun m hmem => List.mem_append_left _ (hcovered.accepted hmem)

/-- A successful save writes numbers that cover everything emitted. -/
theorem Numbered.save {s : Runner} (hnumbered : Numbered base s) (hc : c.ValueRoundTrips)
    {iteration : Iteration String} {before after : Fs}
    (hsave : s.agg.save_seq c iteration before = .ok () after) {m : ReadyMetric}
    (hmem : m ∈ s.emitted) : m.seq.toNat ≤ (((stored c after).lookup m.key).getD 0).toNat := by
  rw [save_seq_stored hc hsave]
  exact (hnumbered.emitted m hmem).2

/-- Readings that are pending may be accepted; if any is, the numbers are unsaved. -/
theorem Covered.accept {s : Runner} (hcovered : Covered c s) {sent : List ReadyMetric}
    (hsent : sent ⊆ s.pending) (client : MqttPublisher) (whole : Bool) :
    Covered c { s with
      outbox := { client := client, accepted := s.outbox.accepted ++ sent }
      attempts := s.attempts ++ [.publish sent.length whole] } := by
  refine ⟨hcovered.pending, ?_, ?_⟩
  · exact List.append_subset.mpr ⟨hcovered.accepted, fun m hmem => hcovered.pending (hsent hmem)⟩
  · intro hsaved
    simp only [Runner.Unsaved, since_snoc, Attempt.takes, decide_eq_true_eq, not_or, not_lt,
      Nat.le_zero, List.length_eq_zero_iff] at hsaved
    obtain ⟨rfl, hsaved⟩ := hsaved
    simpa using hcovered.saved fun h => hsaved ⟨by simp, h⟩

theorem Covered.published {s : Runner} (hcovered : Covered c s) (hnumbered : Numbered base s)
    (hc : c.ValueRoundTrips) (hunsaved : s.Unsaved) (tick : Tick) : Covered c (s.published c tick) := by
  have hnone : ([] : List ReadyMetric) ⊆ s.emitted := List.nil_subset _
  obtain h | ⟨fs, hsave, h⟩ | ⟨fs, h⟩ := s.published_cases c tick
  all_goals rw [h]
  · exact ⟨hnone, hcovered.accepted, hcovered.saved⟩
  · exact ⟨hnone, hcovered.accepted,
      fun _ m hmem => hnumbered.save hc hsave (hcovered.accepted hmem)⟩
  · refine ⟨hnone, hcovered.accepted, fun hsaved => absurd ?_ hsaved⟩
    exact since_snoc.mpr (Or.inr ⟨by simp, hunsaved⟩)

theorem Covered.publish {s : Runner} (hcovered : Covered c s) (hnumbered : Numbered base s)
    (hc : c.ValueRoundTrips) (tick : Tick) : Covered c (s.publish c tick) := by
  obtain h | ⟨sent, client, hsent, h⟩ | ⟨client, hpending, h⟩ := s.publish_cases c tick
  all_goals rw [h]
  · exact hcovered
  · exact hcovered.accept hsent.subset client false
  · refine (hcovered.accept (List.Subset.refl _) client true).published (hnumbered.of_eq rfl rfl) hc ?_ tick
    refine since_snoc.mpr (Or.inl ?_)
    simpa [Attempt.takes, List.length_pos_iff] using hpending

/-- What the condition makes of a run: the flag is right as long as it goes on, and once it has
stopped, nothing is unsaved. -/
structure Restartable (c : Ciborium) (base : String → Nat) (s : Runner) : Prop where
  numbered : Numbered base s
  covered : Covered c s
  honest : ¬ s.stopped = true → s.Honest
  stopped : s.stopped = true → ¬ s.Unsaved

theorem Restartable.shutdown {s : Runner} (hrestartable : Restartable c base s)
    (hc : c.ValueRoundTrips) (hrunning : ¬ s.stopped = true) {iteration : Iteration String}
    {verdicts : List Verdict} (hsaving : Saving c s (.shutdown iteration verdicts))
    (hflagged : Flagged s (.shutdown iteration verdicts)) :
    Restartable c base (s.shutdown c iteration verdicts) := by
  obtain ⟨hnumbered, hcovered, hhonest, -⟩ := hrestartable
  unfold Runner.shutdown
  cases hdirty : s.seq_dirty with
  | false =>
    rw [if_neg Bool.false_ne_true]
    refine ⟨hnumbered.of_eq rfl rfl, ⟨hcovered.pending, hcovered.accepted, hcovered.saved⟩,
      fun h => absurd rfl h, fun _ hunsaved => ?_⟩
    have hflag := (hhonest hrunning).mpr (hflagged hunsaved)
    rw [hdirty] at hflag
    cases hflag
  | true =>
    rw [if_pos rfl]
    have hsaves := hsaving hdirty
    unfold Runner.saves at hsaves
    unfold Runner.save_seq
    cases hsave : s.agg.save_seq c iteration { s.fs with verdicts := verdicts } with
    | error e fs => simp [hsave] at hsaves
    | ok _ fs =>
      refine ⟨hnumbered.of_eq rfl rfl, ⟨hcovered.pending, hcovered.accepted, ?_⟩,
        fun h => absurd rfl h, fun _ hunsaved => ?_⟩
      · exact fun _ m hmem => hnumbered.save hc hsave (hcovered.accepted hmem)
      · simp [Runner.Unsaved, since_snoc, Attempt.takes] at hunsaved

theorem Restartable.step {s t : Runner} {event : Event} (hrestartable : Restartable c base s)
    (hc : c.ValueRoundTrips) (hroom : Numbering cfg s event) (hsaving : Saving c s event)
    (hflagged : Flagged s event) (hstep : (run c cfg).step s event = some t) :
    Restartable c base t := by
  have hnumbered := hrestartable.numbered.step hroom hstep
  cases event with
  | tick tick =>
    obtain ⟨hrunning, rfl⟩ := run_tick hstep
    refine ⟨hnumbered, ?_, ?_, ?_⟩
    · exact (hrestartable.covered.collect tick).publish (hrestartable.numbered.collect hroom) hc tick
    · exact fun _ => ((hrestartable.honest hrunning).collect tick).publish tick
    · intro hstopped
      rw [Runner.tick, (Runner.publish_keeps c tick _).2.2] at hstopped
      exact absurd hstopped hrunning
  | shutdown iteration verdicts =>
    obtain ⟨hrunning, rfl⟩ := run_shutdown hstep
    exact hrestartable.shutdown hc hrunning hsaving hflagged

/-- A new run has emitted nothing, and goes on from the numbers it has loaded. -/
theorem Numbered.new {publisher : MqttPublisher} {fs : Fs} {now : Instant} {s : Runner}
    (hnew : Runner.new c cfg publisher fs now = .ok s) :
    Numbered (fun key => (((load_seq c fs).1.lookup key).getD 0).toNat) s := by
  obtain ⟨hstates, hseq, -, hemitted, -, -⟩ := Runner.new_eq hnew
  refine ⟨.of_empty hstates, ?_, by simp [hemitted]⟩
  intro key
  rw [Aggregator.last_seq, hseq]

/-- Numbers survive a clean restart: what the client has accepted in one run is not emitted again
in the next. -/
theorem numbers_survive_restart (hc : c.ValueRoundTrips) {cfg cfg' : MetricsConfig}
    {publisher publisher' : MqttPublisher} {fs : Fs} {now now' : Instant}
    {verdicts : List Verdict} {first second : List Event} {s₀ s t₀ t : Runner}
    (hstart : Runner.new c cfg publisher fs now = .ok s₀)
    (hfirst : (run c cfg).Run
      (fun s event => Numbering cfg s event ∧ Saving c s event ∧ Flagged s event) s₀ first s)
    (hstopped : s.stopped = true)
    (hread : { s.fs with verdicts := verdicts }.next.1.fails .read = false)
    (hrestart : Runner.new c cfg' publisher' { s.fs with verdicts := verdicts } now' = .ok t₀)
    (hsecond : (run c cfg').Run (Numbering cfg') t₀ second t) :
    ∀ m ∈ s.outbox.accepted, ∀ m' ∈ t.emitted, ¬ (m'.key = m.key ∧ m'.seq = m.seq) := by
  have hrestartable : Restartable c
      (fun key => (((load_seq c fs).1.lookup key).getD 0).toNat) s := by
    apply hfirst.invariant
    · obtain ⟨-, -, hpending, hemitted, haccepted, hrunning⟩ := Runner.new_eq hstart
      obtain ⟨hdirty, hattempts⟩ := Runner.new_attempts hstart
      refine ⟨Numbered.new hstart, ⟨?_, ?_, ?_⟩, ?_, ?_⟩
      · simp [hpending]
      · simp [haccepted]
      · simp [haccepted]
      · simp [Runner.Honest, Runner.Due, hdirty, hattempts, Since]
      · simp [hrunning]
    · rintro s event t hs ⟨hroom, hsaving, hflagged⟩ hstep
      exact hs.step hc hroom hsaving hflagged hstep
  have hnumbered := hsecond.invariant (Numbered.new hrestart)
    fun s event t hs hroom hstep => hs.step hroom hstep
  rintro m hm m' hm' ⟨hkey, hseq⟩
  have hsaved := hrestartable.covered.saved (hrestartable.stopped hstopped) m hm
  have hemitted := (hnumbered.emitted m' hm').1
  rw [load_seq_eq_stored c hread, hkey, hseq] at hemitted
  exact absurd hemitted (not_lt.mpr hsaved)

/-- Custom metrics only, each published at once. -/
def custom_only : MetricsConfig :=
  { aggregation_interval := "none", custom := { enabled := true } }

def gauge (name : String) : MetricSample where
  name := name
  value := .Int 1
  labels := []
  counter := false
  raw := false

/-- A tick a minute after the start, with gauges of the given names. -/
def gauges (names : List String) (outcomes : List Bool) : Event := .tick {
  collected := []
  custom := names.map fun name => (gauge name, 0)
  uptime_ms := 60000
  now := 0
  iteration := ⟨id, fun keys => .refl keys⟩
  connected := true
  outcomes := outcomes
  checked_at := from_secs 60
  saved_at := from_secs 60
  saving := ⟨id, fun keys => .refl keys⟩
  verdicts := [] }

def fresh_client : MqttPublisher := ⟨false, [], [], []⟩

def fresh_dir : Fs := ⟨none, [], [], []⟩

def stop : Event := .shutdown ⟨id, fun keys => .refl keys⟩ []

theorem numbers_survive_restart_twice : ∃ first second s₀ s t₀ t,
    Runner.new .wire custom_only fresh_client fresh_dir 0 = .ok s₀ ∧
    (run .wire custom_only).Run (fun s event =>
      Numbering custom_only s event ∧ Saving .wire s event ∧ Flagged s event) s₀ first s ∧
    Runner.new .wire custom_only fresh_client { s.fs with verdicts := [] } 0 = .ok t₀ ∧
    (run .wire custom_only).Run (Numbering custom_only) t₀ second t ∧
    s.outbox.accepted ≠ [] ∧ t.emitted ≠ [] ∧
    ∀ m ∈ s.outbox.accepted, ∀ m' ∈ t.emitted, ¬ (m'.key = m.key ∧ m'.seq = m.seq) := by
  have htest : (Runner.new .wire custom_only fresh_client fresh_dir 0).toOption.any (fun s₀ =>
      ((run .wire custom_only).exec (fun s event =>
          Numbering custom_only s event ∧ Saving .wire s event ∧ Flagged s event) s₀
        [gauges ["a", "b"] [true, true], gauges ["a"] [], stop]).any (fun s =>
          (s.stopped ∧ s.outbox.accepted ≠ []) ∧
          (Runner.new .wire custom_only fresh_client { s.fs with verdicts := [] } 0).toOption.any (fun t₀ =>
            ((run .wire custom_only).exec (Numbering custom_only) t₀ [gauges ["b", "a"] []]).any
              (fun t => t.emitted ≠ [])))) = true := by
    decide +kernel
  obtain ⟨s₀, hstart, htest⟩ := effect.exists_ok_of_any htest
  obtain ⟨s, hfirst, htest⟩ := Machine.exists_run_of_exec _ htest
  obtain ⟨⟨hstopped, haccepted⟩, htest⟩ := of_decide_eq_true htest
  obtain ⟨t₀, hrestart, htest⟩ := effect.exists_ok_of_any htest
  obtain ⟨t, hsecond, htest⟩ := Machine.exists_run_of_exec _ htest
  exact ⟨_, _, s₀, s, t₀, t, hstart, hfirst, hrestart, hsecond, haccepted, of_decide_eq_true htest,
    numbers_survive_restart Ciborium.wire_valueRoundTrips hstart hfirst hstopped rfl hrestart
      hsecond⟩

/-- The client accepts the first of two readings and refuses the second; at shutdown nothing is
saved, and the next run emits the accepted number again. -/
theorem accepted_number_is_reused : ∃ first second s₀ s t₀ t,
    Runner.new .wire custom_only fresh_client fresh_dir 0 = .ok s₀ ∧
    (run .wire custom_only).Run (Saving .wire) s₀ first s ∧ s.stopped = true ∧
    Runner.new .wire custom_only fresh_client s.fs 0 = .ok t₀ ∧
    (run .wire custom_only).Run (fun _ _ => True) t₀ second t ∧
    ∃ m ∈ s.outbox.accepted, ∃ m' ∈ t.emitted, m'.key = m.key ∧ m'.seq = m.seq := by
  have htest : (Runner.new .wire custom_only fresh_client fresh_dir 0).toOption.any (fun s₀ =>
      ((run .wire custom_only).exec (Saving .wire) s₀
        [gauges ["a", "b"] [true, false], stop]).any (fun s => s.stopped ∧
          (Runner.new .wire custom_only fresh_client s.fs 0).toOption.any (fun t₀ =>
            ((run .wire custom_only).exec (fun _ _ => True) t₀ [gauges ["a"] []]).any (fun t =>
              ∃ m ∈ s.outbox.accepted, ∃ m' ∈ t.emitted, m'.key = m.key ∧ m'.seq = m.seq)))) =
        true := by
    rfl
  obtain ⟨s₀, hstart, htest⟩ := effect.exists_ok_of_any htest
  obtain ⟨s, hfirst, htest⟩ := Machine.exists_run_of_exec _ htest
  obtain ⟨hstopped, htest⟩ := of_decide_eq_true htest
  obtain ⟨t₀, hrestart, htest⟩ := effect.exists_ok_of_any htest
  obtain ⟨t, hsecond, htest⟩ := Machine.exists_run_of_exec _ htest
  exact ⟨_, _, s₀, s, t₀, t, hstart, hfirst, hstopped, hrestart, hsecond, of_decide_eq_true htest⟩

end spotflowd.metrics
