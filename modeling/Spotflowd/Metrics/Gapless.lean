import Spotflowd.Metrics.Ticks

open fs
open spotflowd.config spotflowd.mqtt
open spotflowd.metrics.aggregator

namespace spotflowd.metrics

variable {c : Ciborium} {cfg : MetricsConfig}

/-- Everything emitted since `start` carries the numbers that follow the ones of `start`. -/
structure Gapless (start : Aggregator) (s : Runner) : Prop where
  issues : Issues start s.emitted s.agg
  keyed : s.agg.Keyed

theorem Gapless.collect {start : Aggregator} {s : Runner} (hgapless : Gapless start s) (tick : Tick) :
    Gapless start (s.collect cfg tick) := by
  obtain ⟨hissues, hkeyed, -⟩ := readings_issued cfg hgapless.keyed (tick.feed cfg)
  exact ⟨hgapless.issues.trans hissues, hkeyed⟩

/-- Only the aggregator and the readings emitted count. -/
theorem Gapless.of_eq {start : Aggregator} {s t : Runner} (hgapless : Gapless start s)
    (hagg : t.agg = s.agg) (hemitted : t.emitted = s.emitted) : Gapless start t :=
  ⟨by rw [hagg, hemitted]; exact hgapless.issues, hagg ▸ hgapless.keyed⟩

theorem Gapless.step {start : Aggregator} {s t : Runner} {event : Event}
    (hgapless : Gapless start s) (hstep : (run c cfg).step s event = some t) : Gapless start t := by
  cases event with
  | tick tick =>
    obtain ⟨-, rfl⟩ := run_tick hstep
    obtain ⟨hagg, hemitted, -⟩ := (s.collect cfg tick).publish_keeps c tick
    exact (hgapless.collect tick).of_eq hagg hemitted
  | shutdown iteration verdicts =>
    obtain ⟨-, rfl⟩ := run_shutdown hstep
    obtain ⟨hagg, hemitted, -⟩ := s.shutdown_keeps c iteration verdicts
    exact hgapless.of_eq hagg hemitted

/-- Numbers start without gaps, and stay so in every run. -/
theorem Gapless.of_run {publisher : MqttPublisher} {dir : Fs} {now : Instant} {s₀ s : Runner}
    {events : List Event} (hnew : Runner.new c cfg publisher dir now = .ok s₀)
    (hrun : (run c cfg).Run (fun _ _ => True) s₀ events s) : Gapless s₀.agg s := by
  obtain ⟨hstates, -, -, hemitted, -, -⟩ := Runner.new_eq hnew
  have hstart : Gapless s₀.agg s₀ := by
    refine ⟨?_, .of_empty hstates⟩
    rw [hemitted]
    exact Issues.refl _
  exact hrun.invariant hstart fun s event t hs _ hstep => hs.step hstep

/-- A number that does not wrap around. -/
theorem getElem_following {last : UInt64} {n i : Nat} (hi : i < (following last n).length)
    (hroom : last.toNat + i + 1 < 2 ^ 64) : (following last n)[i].toNat = last.toNat + i + 1 := by
  simp only [following, List.getElem_map, List.getElem_range, UInt64.toNat_add, UInt64.toNat_ofNat']
  omega

/-- Numbers are gap-free: in every run, the readings emitted for a stream carry the numbers after
the loaded one, none skipped, repeated or out of order, as long as they stay below 2^64. -/
theorem numbers_have_no_gaps {publisher : MqttPublisher} {dir : Fs} {now : Instant} {s₀ s : Runner}
    {events : List Event} (hnew : Runner.new c cfg publisher dir now = .ok s₀)
    (hrun : (run c cfg).Run (fun _ _ => True) s₀ events s) (key : String) (i : Nat)
    (hi : i < (numbers key s.emitted).length)
    (hroom : (((load_seq c dir).1.lookup key).getD 0).toNat + i + 1 < 2 ^ 64) :
    (numbers key s.emitted)[i].toNat = (((load_seq c dir).1.lookup key).getD 0).toNat + i + 1 := by
  obtain ⟨-, hseq, -, -, -, -⟩ := Runner.new_eq hnew
  have hnumbers := (Gapless.of_run hnew hrun).issues.numbers key
  have hloaded : s₀.agg.last_seq key = ((load_seq c dir).1.lookup key).getD 0 := by
    rw [Aggregator.last_seq, hseq]
  rw [hloaded] at hnumbers
  rw [List.getElem_of_eq hnumbers hi]
  exact getElem_following _ hroom

/-- The uptime and custom metrics, in windows of a minute. -/
def uptime_and_custom : MetricsConfig :=
  { enabled := true, aggregation_interval := "1m", custom := { enabled := true } }

/-- A tick at some second with a gauge, a counter of the same stream and a counter that is named
like the uptime. -/
def mixed_tick (secs : Nat) : Event := .tick {
  collected := []
  custom := [(⟨"a", .Int 1, [], false, false⟩, from_secs secs),
    (⟨"a", .Int 2, [], true, false⟩, from_secs secs),
    (⟨"uptime_ms", .Int 3, [], true, false⟩, from_secs secs)]
  uptime_ms := UInt64.ofNat (secs * 1000)
  now := from_secs secs
  iteration := ⟨id, fun keys => .refl keys⟩
  connected := false
  outcomes := []
  checked_at := from_secs secs
  saved_at := from_secs secs
  saving := ⟨id, fun keys => .refl keys⟩
  verdicts := [] }

theorem numbers_have_no_gaps_mixed : ∃ s₀ s,
    Runner.new .wire uptime_and_custom ⟨false, [], [], []⟩ ⟨none, [], [], []⟩ 0 = .ok s₀ ∧
    (run .wire uptime_and_custom).Run (fun _ _ => True) s₀ [mixed_tick 0, mixed_tick 60] s ∧
    ∃ hi : 2 < (numbers "a" s.emitted).length, (numbers "a" s.emitted)[2].toNat =
      (((load_seq .wire ⟨none, [], [], []⟩).1.lookup "a").getD 0).toNat + 2 + 1 := by
  have htest : (Runner.new .wire uptime_and_custom ⟨false, [], [], []⟩ ⟨none, [], [], []⟩ 0).toOption.any
      (fun s₀ => ((run .wire uptime_and_custom).exec (fun _ _ => True) s₀
        [mixed_tick 0, mixed_tick 60]).any fun s => 2 < (numbers "a" s.emitted).length) = true := by
    rfl
  obtain ⟨s₀, hnew, htest⟩ := effect.exists_ok_of_any htest
  obtain ⟨s, hrun, htest⟩ := Machine.exists_run_of_exec _ htest
  have hi : 2 < (numbers "a" s.emitted).length := of_decide_eq_true htest
  exact ⟨s₀, s, hnew, hrun, hi, numbers_have_no_gaps hnew hrun "a" 2 hi (by decide)⟩

end spotflowd.metrics
