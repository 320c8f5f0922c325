import Spotflowd.Lib.Machine
import Spotflowd.Metrics.Numbers
import Mathlib.Algebra.BigOperators.Group.List.Basic
import Mathlib.Data.List.Infix
import Mathlib.Order.Bounds.Basic

open spotflowd.config
open spotflowd.metrics.aggregator

namespace spotflowd.metrics.aggregator

/-- What a window says about a group of values, each with the uptime of its call. The count is
taken as a `u64`. -/
structure Summary (group : List (ℚ × UInt64)) (count : UInt64) (sum least greatest : ℚ)
    (uptime_ms : UInt64) : Prop where
  count : count = UInt64.ofNat group.length
  sum : sum = (group.map Prod.fst).sum
  least : IsLeast {v | v ∈ group.map Prod.fst} least
  greatest : IsGreatest {v | v ∈ group.map Prod.fst} greatest
  uptime : (group.map Prod.snd).getLast? = some uptime_ms

theorem Summary.single (v : ℚ) (uptime_ms : UInt64) :
    Summary [(v, uptime_ms)] 1 v v v uptime_ms :=
  ⟨rfl, by simp, by simp, by simp, rfl⟩

theorem Summary.snoc {group : List (ℚ × UInt64)} {count : UInt64} {sum least greatest : ℚ}
    {before : UInt64} (hsummary : Summary group count sum least greatest before) (v : ℚ)
    (uptime_ms : UInt64) :
    Summary (group ++ [(v, uptime_ms)]) (count + 1) (sum + v) (if v < least then v else least)
      (if v > greatest then v else greatest) uptime_ms := by
  have hvalues : {w | w ∈ (group ++ [(v, uptime_ms)]).map Prod.fst} =
      insert v {w | w ∈ group.map Prod.fst} := by
    ext w
    simp [or_comm]
  refine ⟨?_, ?_, ?_, ?_, by simp⟩
  · rw [hsummary.count, List.length_append, List.length_singleton, UInt64.ofNat_add]
    rfl
  · rw [hsummary.sum]
    simp
  · have hmin : (if v < least then v else least) = min v least := by
      split
      · next hlt => exact (min_eq_left hlt.le).symm
      · next hnot => exact (min_eq_right (not_lt.mp hnot)).symm
    rw [hvalues, hmin]
    exact hsummary.least.insert v
  · have hmax : (if v > greatest then v else greatest) = max v greatest := by
      split
      · next hlt => exact (max_eq_left hlt.le).symm
      · next hnot => exact (max_eq_right (not_lt.mp hnot)).symm
    rw [hvalues, hmax]
    exact hsummary.greatest.insert v

/-- An emitted metric and the group it stands for. -/
def Emitted (group : List (ℚ × UInt64)) (m : ReadyMetric) : Prop :=
  ∃ count least greatest, m.count = some count ∧ m.min = some least ∧ m.max = some greatest ∧
    Summary group count m.sum least greatest m.uptime_ms

/-- An open window and its group so far; no window, no group. -/
def Open : Option StreamState → List (ℚ × UInt64) → Prop
  | none, group => group = []
  | some st, group => Summary group st.count st.sum st.min st.max st.uptime_ms

/-- The values fed to a stream fall into groups, one for each emitted metric and the one that
is open. -/
def Accounted (fed : List (ℚ × UInt64)) (emitted : List ReadyMetric) (state : Option StreamState) :
    Prop :=
  ∃ groups last, fed = groups.flatten ++ last ∧ List.Forall₂ Emitted groups emitted ∧ Open state last

section Accounted

variable {fed : List (ℚ × UInt64)} {emitted : List ReadyMetric}

theorem Accounted.start (haccounted : Accounted fed emitted none) (name : String) (labels : Labels)
    (v : ℚ) (uptime_ms : UInt64) (now : Instant) :
    Accounted (fed ++ [(v, uptime_ms)]) emitted (some (.new name labels v uptime_ms now)) := by
  obtain ⟨groups, last, rfl, hgroups, rfl⟩ := haccounted
  exact ⟨groups, [(v, uptime_ms)], by simp, hgroups, Summary.single v uptime_ms⟩

theorem Accounted.update {st : StreamState} (haccounted : Accounted fed emitted (some st)) (v : ℚ)
    (uptime_ms : UInt64) :
    Accounted (fed ++ [(v, uptime_ms)]) emitted (some (st.update v uptime_ms)) := by
  obtain ⟨groups, last, rfl, hgroups, hlast⟩ := haccounted
  exact ⟨groups, last ++ [(v, uptime_ms)], by simp, hgroups, hlast.snoc v uptime_ms⟩

theorem Accounted.flush {st : StreamState} (haccounted : Accounted fed emitted (some st))
    (agg_cbor : UInt8) (seq : UInt64) :
    Accounted fed (emitted ++ [st.ready agg_cbor seq]) none := by
  obtain ⟨groups, last, rfl, hgroups, hlast⟩ := haccounted
  refine ⟨groups ++ [last], [], by simp, ?_, rfl⟩
  exact List.rel_append hgroups (.cons ⟨_, _, _, rfl, rfl, rfl, hlast⟩ .nil)

end Accounted

/-- A sample that is neither a counter nor raw. -/
def windowed (s : MetricSample) : Bool := !(s.counter || s.raw)

/-- The values among some samples that go through the window of one stream. -/
def fed_of (key : String) (uptime_ms : UInt64) (samples : List (MetricSample × Instant)) :
    List (ℚ × UInt64) :=
  (samples.filter fun s => windowed s.1 && Aggregator.sample_key s.1 = key).map fun s =>
    (s.1.value.as_f64, uptime_ms)

/-- The aggregated metrics of one stream. -/
def aggregated (key : String) (ready : List ReadyMetric) : List ReadyMetric :=
  ready.filter fun m => m.agg_cbor ≠ AGG_NONE && m.key = key

/-- `v` is the value as an `f64`, which has 53 binary digits. -/
def Converts : MetricValue → ℚ → Prop
  | .Int i, v => rounding.Rounds 53 i.toInt v
  | .Float f, v => v = f

theorem as_f64_converts (value : MetricValue) : Converts value value.as_f64 := by
  cases value with
  | Int i => exact rounding.rounds_round (by decide) i.toInt
  | Float f => rfl

/-- An integer of up to 53 digits keeps its value. -/
theorem as_f64_eq_number {i : Int64} (hshort : i.toInt.natAbs < 2 ^ 53) :
    (MetricValue.Int i).as_f64 = (MetricValue.Int i).number :=
  congrArg Int.cast (rounding.round_eq_self (by decide) hshort)

/-- A counter or raw sample as it is emitted. -/
structure Passed (uptime_ms : UInt64) (s : MetricSample) (m : ReadyMetric) : Prop where
  name : m.name = s.name
  labels : m.labels = s.labels
  agg_cbor : m.agg_cbor = AGG_NONE
  sum : Converts s.value m.sum
  count : m.count = none
  min : m.min = none
  max : m.max = none
  uptime_ms : m.uptime_ms = uptime_ms

/-- The counter and raw samples among some samples, in order. -/
def bypassing (samples : List (MetricSample × Instant)) : List MetricSample :=
  (samples.map Prod.fst).filter fun s => !windowed s

/-- The readings that are not aggregated. -/
def unaggregated (ready : List ReadyMetric) : List ReadyMetric :=
  ready.filter fun m => m.agg_cbor = AGG_NONE

theorem fed_of_snoc (key : String) (uptime_ms : UInt64) (samples : List (MetricSample × Instant))
    (s : MetricSample × Instant) :
    fed_of key uptime_ms (samples ++ [s]) = fed_of key uptime_ms samples ++
      if windowed s.1 ∧ Aggregator.sample_key s.1 = key then [(s.1.value.as_f64, uptime_ms)]
      else [] := by
  rw [fed_of, List.filter_append, List.map_append]
  congr 1
  by_cases hown : windowed s.1 ∧ Aggregator.sample_key s.1 = key <;> simp [hown]

theorem aggregated_snoc (key : String) (ready : List ReadyMetric) (m : ReadyMetric) :
    aggregated key (ready ++ [m]) = aggregated key ready ++
      if m.agg_cbor ≠ AGG_NONE ∧ m.key = key then [m] else [] := by
  rw [aggregated, List.filter_append]
  congr 1
  by_cases hown : m.agg_cbor ≠ AGG_NONE ∧ m.key = key <;> simp [hown]

theorem unaggregated_snoc (ready : List ReadyMetric) (m : ReadyMetric) :
    unaggregated (ready ++ [m]) = unaggregated ready ++ if m.agg_cbor = AGG_NONE then [m] else [] := by
  rw [unaggregated, List.filter_append]
  congr 1
  by_cases hnone : m.agg_cbor = AGG_NONE <;> simp [List.filter, hnone]

theorem bypassing_snoc (samples : List (MetricSample × Instant)) (s : MetricSample × Instant) :
    bypassing (samples ++ [s]) = bypassing samples ++ if windowed s.1 then [] else [s.1] := by
  rw [bypassing, List.map_append, List.filter_append]
  congr 1
  cases hwindowed : windowed s.1 <;> simp [List.filter, hwindowed]

/-- Where a call of `ingest` stands after some of its samples and flushes: `fed` and `emitted` are
what the streams had been fed and had emitted before it. -/
structure Standing (before : Aggregator) (fed : String → List (ℚ × UInt64))
    (emitted : String → List ReadyMetric) (uptime_ms : UInt64)
    (samples : List (MetricSample × Instant)) (after : Aggregator × List ReadyMetric) : Prop where
  window : after.1.agg_duration = before.agg_duration ∧ after.1.agg_cbor = before.agg_cbor
  keyed : after.1.Keyed
  accounted : ∀ key, Accounted (fed key ++ fed_of key uptime_ms samples)
    (emitted key ++ aggregated key after.2) (after.1.states.lookup key)
  passed : List.Forall₂ (Passed uptime_ms) (bypassing samples) (unaggregated after.2)

section Standing

variable {before : Aggregator} {fed : String → List (ℚ × UInt64)}
  {emitted : String → List ReadyMetric} {uptime_ms : UInt64}
  {samples : List (MetricSample × Instant)} {after : Aggregator × List ReadyMetric}

/-- A counter or raw sample is passed on. -/
theorem Standing.pass (hstanding : Standing before fed emitted uptime_ms samples after)
    {s : MetricSample} (hbypasses : windowed s = false) (now : Instant) (key : String) :
    Standing before fed emitted uptime_ms (samples ++ [(s, now)])
      ((after.1.next_seq key).2, after.2 ++ [s.ready uptime_ms (after.1.next_seq key).1]) := by
  refine ⟨hstanding.window, hstanding.keyed, ?_, ?_⟩
  · intro key'
    rw [fed_of_snoc, aggregated_snoc, hbypasses, if_neg (by simp), List.append_nil,
      if_neg (fun h => h.1 rfl), List.append_nil]
    exact hstanding.accounted key'
  · rw [bypassing_snoc, unaggregated_snoc, hbypasses, if_neg (by simp), MetricSample.ready_agg_cbor,
      if_pos rfl]
    exact List.rel_append hstanding.passed
      (.cons ⟨rfl, rfl, rfl, as_f64_converts s.value, rfl, rfl, rfl, rfl⟩ .nil)

/-- Another sample goes into the window of its stream, which is now `st`. -/
theorem Standing.accumulate (hstanding : Standing before fed emitted uptime_ms samples after)
    {s : MetricSample} (hwindowed : windowed s = true) (now : Instant) {st : StreamState}
    (hkey : stream_key st.name st.labels = Aggregator.sample_key s)
    (haccounted : Accounted (fed (Aggregator.sample_key s) ++
        fed_of (Aggregator.sample_key s) uptime_ms samples ++ [(s.value.as_f64, uptime_ms)])
      (emitted (Aggregator.sample_key s) ++ aggregated (Aggregator.sample_key s) after.2) (some st)) :
    Standing before fed emitted uptime_ms (samples ++ [(s, now)])
      ({ after.1 with states := after.1.states.insert (Aggregator.sample_key s) st }, after.2) := by
  refine ⟨hstanding.window, hstanding.keyed.insert hkey, ?_, ?_⟩
  · intro key
    rw [fed_of_snoc]
    by_cases hown : key = Aggregator.sample_key s
    · subst hown
      rw [if_pos ⟨hwindowed, rfl⟩, AList.lookup_insert, ← List.append_assoc]
      exact haccounted
    · rw [if_neg (fun h => hown h.2.symm), List.append_nil, AList.lookup_insert_ne hown]
      exact hstanding.accounted key
  · rw [bypassing_snoc, hwindowed, if_pos rfl, List.append_nil]
    exact hstanding.passed

theorem Standing.sample (hstanding : Standing before fed emitted uptime_ms samples after)
    {duration : Duration} (hduration : before.agg_duration = some duration)
    (s : MetricSample × Instant)
    (hroom : (Aggregator.ingest_sample uptime_ms after s).1.open_streams < MAX_STREAMS) :
    Standing before fed emitted uptime_ms (samples ++ [s])
      (Aggregator.ingest_sample uptime_ms after s) := by
  obtain ⟨self, ready⟩ := after
  obtain ⟨s, now⟩ := s
  have himmediate : self.immediate s = !windowed s := by
    have hwindow := hstanding.window.1.trans hduration
    dsimp only at hwindow
    simp [Aggregator.immediate, windowed, hwindow]
  have haccounted := hstanding.accounted (Aggregator.sample_key s)
  obtain ⟨hkind, h⟩ | ⟨hkind, st, hlookup, h⟩ | ⟨hkind, hlookup, -, h⟩ | ⟨-, -, hfull, h⟩ :=
    Aggregator.ingest_sample_cases uptime_ms self ready s now
  all_goals rw [h]
  · exact hstanding.pass (by simpa [himmediate] using hkind) now (Aggregator.sample_key s)
  · rw [hlookup] at haccounted
    exact hstanding.accumulate (by simpa [himmediate] using hkind) now
      (hstanding.keyed _ st hlookup) (haccounted.update _ _)
  · rw [hlookup] at haccounted
    exact hstanding.accumulate (by simpa [himmediate] using hkind) now rfl
      (haccounted.start s.name s.labels s.value.as_f64 uptime_ms now)
  · rw [h] at hroom
    exact absurd hroom (not_lt.mpr hfull)

theorem Standing.flush (hstanding : Standing before fed emitted uptime_ms samples after)
    (hcbor : before.agg_cbor ≠ AGG_NONE) (key : String) :
    Standing before fed emitted uptime_ms samples (Aggregator.flush_stream after key) := by
  obtain ⟨self, ready⟩ := after
  obtain ⟨-, h⟩ | ⟨st, hlookup, h⟩ := Aggregator.flush_stream_cases self ready key
  all_goals rw [h]
  · exact hstanding
  · have hself : self.agg_cbor ≠ AGG_NONE := hstanding.window.2 ▸ hcbor
    have hkey : (st.ready self.agg_cbor (self.next_seq key).1).key = key :=
      hstanding.keyed key st hlookup
    refine ⟨hstanding.window, hstanding.keyed.erase rfl, ?_, ?_⟩
    · intro key'
      have haccounted := hstanding.accounted key'
      rw [aggregated_snoc, hkey]
      by_cases hown : key' = key
      · subst hown
        rw [hlookup] at haccounted
        rw [if_pos ⟨hself, rfl⟩, ← List.append_assoc, AList.lookup_erase]
        exact haccounted.flush _ _
      · rw [if_neg (fun h => hown h.2.symm), List.append_nil, AList.lookup_erase_ne hown]
        exact haccounted
    · rw [unaggregated_snoc, StreamState.ready_agg_cbor, if_neg hself, List.append_nil]
      exact hstanding.passed

end Standing

/-- Fewer than `MAX_STREAMS` streams are open after every sample of the call. -/
def Roomy (self : Aggregator) (feed : Feed) : Prop :=
  ∀ done ∈ feed.samples.inits,
    (done.foldl (Aggregator.ingest_sample feed.uptime_ms) (self, [])).1.open_streams < MAX_STREAMS

instance (self : Aggregator) (feed : Feed) : Decidable (Roomy self feed) :=
  inferInstanceAs (Decidable (∀ done ∈ _, _))

/-- A call accounts for every sample it is fed. -/
theorem Standing.ingest {self : Aggregator} {fed : String → List (ℚ × UInt64)}
    {emitted : String → List ReadyMetric} (hkeyed : self.Keyed)
    (haccounted : ∀ key, Accounted (fed key) (emitted key) (self.states.lookup key))
    {duration : Duration} (hduration : self.agg_duration = some duration)
    (hcbor : self.agg_cbor ≠ AGG_NONE) {feed : Feed} (hroomy : Roomy self feed) :
    Standing self fed emitted feed.uptime_ms feed.samples (self.ingest feed) := by
  have hsamples : ∀ done, done <+: feed.samples →
      Standing self fed emitted feed.uptime_ms done
        (done.foldl (Aggregator.ingest_sample feed.uptime_ms) (self, [])) := by
    intro done hdone
    induction done using List.reverseRecOn with
    | nil =>
      refine ⟨⟨rfl, rfl⟩, hkeyed, ?_, .nil⟩
      intro key
      simpa [fed_of, aggregated] using haccounted key
    | append_singleton done s ih =>
      have hroom := hroomy _ ((List.mem_inits _ _).mpr hdone)
      rw [List.foldl_concat] at hroom ⊢
      exact (ih ((List.prefix_append _ _).trans hdone)).sample hduration s hroom
  have hstart := hsamples feed.samples (List.prefix_refl _)
  unfold Aggregator.ingest
  dsimp only
  split
  · exact List.foldlRecOn _ _ hstart fun after hafter key _ => hafter.flush hcbor key
  · exact hstart

/-- A call of `ingest` and what it returned. -/
structure Call where
  feed : Feed
  ready : List ReadyMetric

/-- An aggregator and the calls so far. -/
structure History where
  agg : Aggregator
  calls : List Call

def ingesting : Machine History Feed where
  step s feed := some {
    agg := (s.agg.ingest feed).1
    calls := s.calls ++ [⟨feed, (s.agg.ingest feed).2⟩] }

/-- What a stream has been fed in some calls, counters and raw samples apart. -/
def fed (key : String) (calls : List Call) : List (ℚ × UInt64) :=
  calls.flatMap fun call => fed_of key call.feed.uptime_ms call.feed.samples

/-- The aggregated metrics a stream has emitted in some calls. -/
def emitted (key : String) (calls : List Call) : List ReadyMetric :=
  calls.flatMap fun call => aggregated key call.ready

/-- The account of a run so far. -/
structure Account (s : History) : Prop where
  timed : s.agg.agg_duration ≠ none ∧ s.agg.agg_cbor ≠ AGG_NONE
  keyed : s.agg.Keyed
  windows : ∀ key, Accounted (fed key s.calls) (emitted key s.calls) (s.agg.states.lookup key)
  passed : ∀ call ∈ s.calls, List.Forall₂ (Passed call.feed.uptime_ms) (bypassing call.feed.samples)
    (unaggregated call.ready)

theorem Account.step {s t : History} {feed : Feed} (haccount : Account s)
    (hroomy : Roomy s.agg feed) (hstep : ingesting.step s feed = some t) : Account t := by
  cases hstep
  obtain ⟨duration, hduration⟩ := Option.ne_none_iff_exists'.mp haccount.timed.1
  have hstanding := Standing.ingest haccount.keyed haccount.windows hduration haccount.timed.2 hroomy
  refine ⟨?_, hstanding.keyed, ?_, ?_⟩
  · dsimp only
    rw [hstanding.window.1, hstanding.window.2]
    exact haccount.timed
  · intro key
    have haccounted := hstanding.accounted key
    simpa [fed, emitted] using haccounted
  · intro call hcall
    rcases List.mem_append.mp hcall with hold | hnew
    · exact haccount.passed call hold
    · rw [List.mem_singleton] at hnew
      subst hnew
      exact hstanding.passed

/-- A timed interval has a code of its own. -/
theorem interval_timed {name : String} (htimed : name ≠ "none") {agg_cbor : UInt8}
    {agg_duration : Option Duration} (hinterval : interval name = .ok (agg_cbor, agg_duration)) :
    agg_duration ≠ none ∧ agg_cbor ≠ AGG_NONE := by
  unfold interval at hinterval
  split at hinterval
  · exact absurd rfl htimed
  all_goals cases hinterval
  all_goals exact ⟨Option.some_ne_none _, by decide⟩

/-- No sample is lost or counted twice: with a timed interval and fewer than `MAX_STREAMS` open
streams throughout, the samples of each stream fall into consecutive groups, one for each
aggregated metric and the one that is open; counters and raw samples are passed on in the same
call. A value is taken as its `f64`. -/
theorem samples_are_accounted {c : Ciborium} {cfg : MetricsConfig}
    (htimed : cfg.aggregation_interval ≠ "none") {dir dir' : fs.Fs} {agg : Aggregator}
    (hnew : Aggregator.new c cfg dir = .ok (agg, dir')) {feeds : List Feed} {t : History}
    (hrun : ingesting.Run (fun s feed => Roomy s.agg feed) ⟨agg, []⟩ feeds t) :
    (∀ key, ∃ groups last, fed key t.calls = groups.flatten ++ last ∧
      List.Forall₂ Emitted groups (emitted key t.calls) ∧ Open (t.agg.states.lookup key) last) ∧
    (∀ call ∈ t.calls, List.Forall₂ (Passed call.feed.uptime_ms) (bypassing call.feed.samples)
      (unaggregated call.ready)) ∧
    (∀ value : MetricValue, Converts value value.as_f64) ∧
    ∀ i : Int64, i.toInt.natAbs < 2 ^ 53 →
      (MetricValue.Int i).as_f64 = (MetricValue.Int i).number := by
  obtain ⟨hinterval, hstates, -⟩ := Aggregator.new_eq hnew
  have hstart : Account ⟨agg, []⟩ := by
    refine ⟨interval_timed htimed hinterval, .of_empty hstates, fun key => ?_, by simp⟩
    refine ⟨[], [], rfl, .nil, ?_⟩
    rw [hstates, AList.lookup_empty]
    rfl
  have haccount := hrun.invariant hstart fun s feed u hs hroomy hstep => hs.step hroomy hstep
  exact ⟨haccount.windows, haccount.passed, as_f64_converts, fun _ => as_f64_eq_number⟩

/-- Two gauges, one of them an integer, and the highest number of open files, at some second. -/
def feed_at (secs : Nat) (first : Int64) (second : ℚ) : Feed where
  samples := [(⟨"a", .Int first, [], false, false⟩, from_secs secs),
    (⟨"fd_max", .Int Int64.maxValue, [], false, true⟩, from_secs secs),
    (⟨"a", .Float second, [], false, false⟩, from_secs secs)]
  uptime_ms := UInt64.ofNat (secs * 1000)
  now := from_secs secs
  iteration := ⟨id, fun keys => .refl keys⟩

theorem samples_are_accounted_window : ∃ feeds agg dir t,
    Aggregator.new .wire {} ⟨none, [], [], []⟩ = .ok (agg, dir) ∧
    ingesting.Run (fun s feed => Roomy s.agg feed) ⟨agg, []⟩ feeds t ∧
    (emitted "a" t.calls ≠ [] ∧ (t.agg.states.lookup "a").isSome) ∧
    (∀ key, ∃ groups last, fed key t.calls = groups.flatten ++ last ∧
      List.Forall₂ Emitted groups (emitted key t.calls) ∧ Open (t.agg.states.lookup key) last) ∧
    (∀ call ∈ t.calls, List.Forall₂ (Passed call.feed.uptime_ms) (bypassing call.feed.samples)
      (unaggregated call.ready)) ∧
    (∀ value : MetricValue, Converts value value.as_f64) ∧
    ∀ i : Int64, i.toInt.natAbs < 2 ^ 53 →
      (MetricValue.Int i).as_f64 = (MetricValue.Int i).number := by
  have htest : (Aggregator.new .wire {} ⟨none, [], [], []⟩).toOption.any (fun new =>
      (ingesting.exec (fun s feed => Roomy s.agg feed) ⟨new.1, []⟩
        [feed_at 0 40 20, feed_at 60 30 (1 / 2), feed_at 70 10 11]).any (fun t =>
          emitted "a" t.calls ≠ [] ∧ (t.agg.states.lookup "a").isSome)) = true := by
    rfl
  obtain ⟨⟨agg, dir⟩, hnew, htest⟩ := effect.exists_ok_of_any htest
  obtain ⟨t, hrun, htest⟩ := Machine.exists_run_of_exec _ htest
  exact ⟨_, agg, dir, t, hnew, hrun, of_decide_eq_true htest,
    samples_are_accounted (by decide) hnew hrun⟩

/-- The highest number of open files, 2^63 - 1, is not emitted unchanged: its `f64` is 2^63. -/
theorem fd_max_is_rounded : ∃ feeds agg dir t,
    Aggregator.new .wire {} ⟨none, [], [], []⟩ = .ok (agg, dir) ∧
    ingesting.Run (fun s feed => Roomy s.agg feed) ⟨agg, []⟩ feeds t ∧
    (t.calls.map fun call => (bypassing call.feed.samples).map fun s => s.value.number) =
      [[9223372036854775807]] ∧
    (t.calls.map fun call => (unaggregated call.ready).map ReadyMetric.sum) = [[9223372036854775808]] ∧
    ¬ ∀ call ∈ t.calls, (unaggregated call.ready).map ReadyMetric.sum =
      (bypassing call.feed.samples).map fun s => s.value.number := by
  have htest : (Aggregator.new .wire {} ⟨none, [], [], []⟩).toOption.any (fun new =>
      (ingesting.exec (fun s feed => Roomy s.agg feed) ⟨new.1, []⟩ [feed_at 0 40 20]).any (fun t =>
        (t.calls.map fun call => (bypassing call.feed.samples).map fun s => s.value.number) =
            [[9223372036854775807]] ∧
          (t.calls.map fun call => (unaggregated call.ready).map ReadyMetric.sum) = [[9223372036854775808]] ∧
          ¬ ∀ call ∈ t.calls, (unaggregated call.ready).map ReadyMetric.sum =
            (bypassing call.feed.samples).map fun s => s.value.number)) = true := by
    decide +kernel
  obtain ⟨⟨agg, dir⟩, hnew, htest⟩ := effect.exists_ok_of_any htest
  obtain ⟨t, hrun, htest⟩ := Machine.exists_run_of_exec _ htest
  exact ⟨_, agg, dir, t, hnew, hrun, of_decide_eq_true htest⟩

end spotflowd.metrics.aggregator
