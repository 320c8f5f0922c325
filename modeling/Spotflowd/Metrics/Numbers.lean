import Spotflowd.Metrics.Aggregator
import Mathlib.Data.List.Induction

namespace spotflowd.metrics

/-- The key of the stream a reading belongs to. -/
def ReadyMetric.key (m : ReadyMetric) : String := aggregator.stream_key m.name m.labels

/-- The sequence numbers among some readings that belong to one stream. -/
def numbers (key : String) (readings : List ReadyMetric) : List UInt64 :=
  (readings.filter fun m => m.key = key).map ReadyMetric.seq

theorem numbers_append (key : String) (readings more : List ReadyMetric) :
    numbers key (readings ++ more) = numbers key readings ++ numbers key more := by
  simp [numbers]

theorem mem_numbers {m : ReadyMetric} {readings : List ReadyMetric} (hmem : m ∈ readings) :
    m.seq ∈ numbers m.key readings :=
  List.mem_map_of_mem (List.mem_filter.mpr ⟨hmem, decide_eq_true rfl⟩)

theorem length_numbers_le (key : String) (readings : List ReadyMetric) :
    (numbers key readings).length ≤ readings.length := by
  rw [numbers, List.length_map]
  exact List.length_filter_le _ _

namespace aggregator

/-- The `n` numbers that follow `last`. -/
def following (last : UInt64) (n : Nat) : List UInt64 :=
  (List.range n).map fun i => last + UInt64.ofNat (i + 1)

theorem following_add (last : UInt64) (n k : Nat) :
    following last (n + k) = following last n ++ following (last + UInt64.ofNat n) k := by
  unfold following
  rw [List.range_add, List.map_append, List.map_map]
  congr 1
  apply List.map_congr_left
  intro i _
  rw [Function.comp_apply, UInt64.add_assoc, ← UInt64.ofNat_add, Nat.add_assoc]

/-- From `before` to `after`, every stream has got the numbers that follow its last one, in
the order of the readings. -/
structure Issues (before : Aggregator) (issued : List ReadyMetric) (after : Aggregator) : Prop where
  numbers : ∀ key, numbers key issued =
    following (before.last_seq key) (numbers key issued).length
  last : ∀ key, after.last_seq key =
    before.last_seq key + UInt64.ofNat (metrics.numbers key issued).length

/-- Issuing nothing. -/
theorem Issues.refl (self : Aggregator) : Issues self [] self := by
  constructor
  · intro key
    rfl
  · intro key
    simp [metrics.numbers]

/-- Only the numbers count. -/
theorem Issues.of_seq_eq {before after after' : Aggregator} {issued : List ReadyMetric}
    (hissues : Issues before issued after) (hseq : after'.seq = after.seq) :
    Issues before issued after' := by
  refine ⟨hissues.numbers, ?_⟩
  intro key
  rw [← hissues.last, Aggregator.last_seq, hseq]
  rfl

theorem Issues.trans {first second third : Aggregator} {issued more : List ReadyMetric}
    (hfirst : Issues first issued second) (hsecond : Issues second more third) :
    Issues first (issued ++ more) third := by
  constructor
  · intro key
    rw [numbers_append, List.length_append, following_add, ← hfirst.numbers, ← hfirst.last,
      ← hsecond.numbers]
  · intro key
    rw [hsecond.last, hfirst.last, numbers_append, List.length_append, UInt64.ofNat_add,
      UInt64.add_assoc]

theorem Aggregator.next_seq_last_seq (self : Aggregator) (key key' : String) :
    (self.next_seq key).2.last_seq key' =
      if key' = key then self.last_seq key + 1 else self.last_seq key' := by
  unfold Aggregator.next_seq
  split
  · next heq =>
    subst heq
    simp [Aggregator.last_seq]
  · next hne => simp [Aggregator.last_seq, AList.lookup_insert_ne hne]

/-- A reading that carries the next number of its stream. -/
theorem Issues.next (before : Aggregator) {m : ReadyMetric}
    (hseq : m.seq = (before.next_seq m.key).1) : Issues before [m] (before.next_seq m.key).2 := by
  have hother : ∀ key, key ≠ m.key → metrics.numbers key [m] = [] := by
    intro key hne
    simp [metrics.numbers, Ne.symm hne]
  have hown : metrics.numbers m.key [m] = [before.last_seq m.key + 1] := by
    simp [metrics.numbers, hseq, Aggregator.next_seq]
  constructor
  · intro key
    by_cases hkey : key = m.key
    · subst hkey
      rw [hown]
      simp [following]
    · rw [hother key hkey]
      rfl
  · intro key
    rw [Aggregator.next_seq_last_seq]
    by_cases hkey : key = m.key
    · subst hkey
      rw [hown, if_pos rfl]
      simp
    · rw [hother key hkey, if_neg hkey]
      simp

/-- As long as the numbers of a stream stay below 2^64, a reading is numbered above its last
one and not above the new last one. -/
theorem Issues.bounds {before after : Aggregator} {issued : List ReadyMetric}
    (hissues : Issues before issued after) (key : String)
    (hroom : (before.last_seq key).toNat + issued.length < 2 ^ 64) :
    (before.last_seq key).toNat ≤ (after.last_seq key).toNat ∧
      ∀ m ∈ issued, m.key = key →
        (before.last_seq key).toNat < m.seq.toNat ∧ m.seq.toNat ≤ (after.last_seq key).toNat := by
  have hcount := length_numbers_le key issued
  have hadd : ∀ n, n ≤ (metrics.numbers key issued).length →
      (before.last_seq key + UInt64.ofNat n).toNat = (before.last_seq key).toNat + n := by
    intro n hn
    rw [UInt64.toNat_add, UInt64.toNat_ofNat']
    omega
  have hlast := hadd _ le_rfl
  rw [← hissues.last] at hlast
  refine ⟨by omega, ?_⟩
  rintro m hmem rfl
  have hnumber := mem_numbers hmem
  rw [hissues.numbers, following, List.mem_map] at hnumber
  obtain ⟨i, hi, hseq⟩ := hnumber
  rw [List.mem_range] at hi
  have hvalue := hadd (i + 1) hi
  rw [hseq] at hvalue
  omega

namespace Aggregator

/-- The number of streams with an open window. -/
def open_streams (self : Aggregator) : Nat := self.states.keys.length

/-- The key of a sample's stream. -/
abbrev sample_key (s : MetricSample) : String := stream_key s.name s.labels

/-- Whether a sample is published without aggregation. -/
def immediate (self : Aggregator) (s : MetricSample) : Bool :=
  self.agg_duration.isNone || s.counter || s.raw

/-- What becomes of one sample. -/
theorem ingest_sample_cases (uptime_ms : UInt64) (self : Aggregator) (ready : List ReadyMetric)
    (s : MetricSample) (now : Instant) :
    (self.immediate s = true ∧ ingest_sample uptime_ms (self, ready) (s, now) =
      ((self.next_seq (sample_key s)).2,
        ready ++ [s.ready uptime_ms (self.next_seq (sample_key s)).1])) ∨
    (self.immediate s = false ∧ ∃ st, self.states.lookup (sample_key s) = some st ∧
      ingest_sample uptime_ms (self, ready) (s, now) =
        ({ self with
          states := self.states.insert (sample_key s) (st.update s.value.as_f64 uptime_ms) }, ready)) ∨
    (self.immediate s = false ∧ self.states.lookup (sample_key s) = none ∧
      self.open_streams < MAX_STREAMS ∧ ingest_sample uptime_ms (self, ready) (s, now) =
        ({ self with
          states := self.states.insert (sample_key s)
            (.new s.name s.labels s.value.as_f64 uptime_ms now) }, ready)) ∨
    (self.immediate s = false ∧ self.states.lookup (sample_key s) = none ∧
      MAX_STREAMS ≤ self.open_streams ∧
        ingest_sample uptime_ms (self, ready) (s, now) = (self, ready)) := by
  cases himmediate : self.immediate s with
  | true =>
    unfold immediate at himmediate
    exact Or.inl ⟨rfl, by simp only [ingest_sample, himmediate, if_true]⟩
  | false =>
    unfold immediate at himmediate
    cases hlookup : self.states.lookup (sample_key s) with
    | some st =>
      refine Or.inr (Or.inl ⟨rfl, st, rfl, ?_⟩)
      simp [ingest_sample, himmediate, hlookup]
    | none =>
      by_cases hroom : self.states.keys.length < MAX_STREAMS
      · refine Or.inr (Or.inr (Or.inl ⟨rfl, rfl, hroom, ?_⟩))
        simp [ingest_sample, himmediate, hlookup, hroom]
      · refine Or.inr (Or.inr (Or.inr ⟨rfl, rfl, not_lt.mp hroom, ?_⟩))
        simp [ingest_sample, himmediate, hlookup, hroom]

/-- What becomes of one expired stream. -/
theorem flush_stream_cases (self : Aggregator) (ready : List ReadyMetric) (key : String) :
    (self.states.lookup key = none ∧ flush_stream (self, ready) key = (self, ready)) ∨
    ∃ st, self.states.lookup key = some st ∧ flush_stream (self, ready) key =
      ({ (self.next_seq key).2 with states := self.states.erase key },
        ready ++ [st.ready self.agg_cbor (self.next_seq key).1]) := by
  cases hlookup : self.states.lookup key with
  | none => exact Or.inl ⟨rfl, by simp only [flush_stream, hlookup]⟩
  | some st => exact Or.inr ⟨st, rfl, by simp only [flush_stream, hlookup]; rfl⟩

/-- Every open window is filed under the key of its stream. -/
def Keyed (self : Aggregator) : Prop :=
  ∀ key st, self.states.lookup key = some st → stream_key st.name st.labels = key

/-- An aggregator at its start. -/
theorem new_eq {c : Ciborium} {cfg : config.MetricsConfig} {dir dir' : fs.Fs} {self : Aggregator}
    (hnew : new c cfg dir = .ok (self, dir')) :
    interval cfg.aggregation_interval = .ok (self.agg_cbor, self.agg_duration) ∧ self.states = ∅ ∧
      self.seq = (load_seq c dir).1 := by
  unfold new at hnew
  cases hinterval : interval cfg.aggregation_interval with
  | error e => simp [hinterval, bind, Except.bind] at hnew
  | ok window =>
    simp only [hinterval, bind, Except.bind, pure, Except.pure] at hnew
    cases hnew
    exact ⟨rfl, rfl, rfl⟩

theorem Keyed.of_empty {self : Aggregator} (hstates : self.states = ∅) : self.Keyed := by
  intro key st hlookup
  rw [hstates, AList.lookup_empty] at hlookup
  cases hlookup

theorem Keyed.insert {self : Aggregator} (hkeyed : self.Keyed) {key : String} {st : StreamState}
    (hkey : stream_key st.name st.labels = key) :
    { self with states := self.states.insert key st }.Keyed := by
  intro key' st' hlookup
  by_cases heq : key' = key
  · subst heq
    rw [AList.lookup_insert] at hlookup
    cases hlookup
    exact hkey
  · rw [AList.lookup_insert_ne heq] at hlookup
    exact hkeyed key' st' hlookup

theorem Keyed.erase {self after : Aggregator} (hkeyed : self.Keyed) {key : String}
    (hstates : after.states = self.states.erase key) : after.Keyed := by
  intro key' st' hlookup
  rw [hstates] at hlookup
  by_cases heq : key' = key
  · subst heq
    rw [AList.lookup_erase] at hlookup
    cases hlookup
  · rw [AList.lookup_erase_ne heq] at hlookup
    exact hkeyed key' st' hlookup

end Aggregator

/-- What a part of a call of `ingest` has done: readings are issued, and each sample so far
accounts for at most one reading or open window. -/
structure Progress (before : Aggregator) (samples : Nat) (after : Aggregator × List ReadyMetric) :
    Prop where
  issues : Issues before after.2 after.1
  keyed : after.1.Keyed
  size : after.2.length + after.1.open_streams ≤ before.open_streams + samples

theorem Progress.sample {before : Aggregator} {samples : Nat} {after : Aggregator × List ReadyMetric}
    (hprogress : Progress before samples after) (uptime_ms : UInt64) (s : MetricSample × Instant) :
    Progress before (samples + 1) (Aggregator.ingest_sample uptime_ms after s) := by
  obtain ⟨self, ready⟩ := after
  obtain ⟨s, now⟩ := s
  obtain ⟨hissues, hkeyed, hsize⟩ := hprogress
  dsimp only at hissues hkeyed hsize
  obtain ⟨-, h⟩ | ⟨-, st, hlookup, h⟩ | ⟨-, hlookup, -, h⟩ | ⟨-, -, -, h⟩ :=
    Aggregator.ingest_sample_cases uptime_ms self ready s now
  all_goals rw [h]
  · refine ⟨hissues.trans (Issues.next self rfl), hkeyed, ?_⟩
    rw [List.length_append, List.length_singleton]
    change ready.length + 1 + self.open_streams ≤ _
    omega
  · have hmem := AList.mem_keys.mp (AList.lookup_isSome.mp (by rw [hlookup]; rfl))
    refine ⟨hissues.of_seq_eq rfl, hkeyed.insert (hkeyed _ st hlookup), ?_⟩
    · have hlength : (self.states.insert (Aggregator.sample_key s)
          (st.update s.value.as_f64 uptime_ms)).keys.length = self.open_streams := by
        rw [AList.keys_insert, List.length_cons, List.length_erase_of_mem hmem,
          Nat.sub_add_cancel (List.length_pos_of_mem hmem)]
        rfl
      change ready.length + (self.states.insert _ _).keys.length ≤ _
      omega
  · refine ⟨hissues.of_seq_eq rfl, hkeyed.insert rfl, ?_⟩
    · have hlength : (self.states.insert (Aggregator.sample_key s)
          (.new s.name s.labels s.value.as_f64 uptime_ms now)).keys.length ≤
            self.open_streams + 1 := by
        rw [AList.keys_insert, List.length_cons]
        exact Nat.succ_le_succ List.length_erase_le
      change ready.length + (self.states.insert _ _).keys.length ≤ _
      omega
  · exact ⟨hissues, hkeyed, by dsimp only; omega⟩

theorem Progress.flush {before : Aggregator} {samples : Nat} {after : Aggregator × List ReadyMetric}
    (hprogress : Progress before samples after) (key : String) :
    Progress before samples (Aggregator.flush_stream after key) := by
  obtain ⟨self, ready⟩ := after
  obtain ⟨hissues, hkeyed, hsize⟩ := hprogress
  dsimp only at hissues hkeyed hsize
  obtain ⟨-, h⟩ | ⟨st, hlookup, h⟩ := Aggregator.flush_stream_cases self ready key
  all_goals rw [h]
  · exact ⟨hissues, hkeyed, hsize⟩
  · have hmem := AList.mem_keys.mp (AList.lookup_isSome.mp (by rw [hlookup]; rfl))
    refine ⟨?_, hkeyed.erase rfl, ?_⟩
    · apply hissues.trans
      have hkey : (st.ready self.agg_cbor (self.next_seq key).1).key = key := hkeyed key st hlookup
      have hnext := Issues.next self (m := st.ready self.agg_cbor (self.next_seq key).1)
        (by rw [hkey]; rfl)
      rw [hkey] at hnext
      exact hnext.of_seq_eq rfl
    · have hlength : (self.states.erase key).keys.length + 1 = self.open_streams := by
        rw [AList.keys_erase, List.length_erase_of_mem hmem,
          Nat.sub_add_cancel (List.length_pos_of_mem hmem)]
        rfl
      rw [List.length_append, List.length_singleton]
      change ready.length + 1 + (self.states.erase key).keys.length ≤ _
      omega

/-- A call of `ingest` gives every stream the numbers that follow its last one. -/
theorem Aggregator.ingest_progress {self : Aggregator} (hkeyed : self.Keyed) (feed : Feed) :
    Progress self feed.samples.length (self.ingest feed) := by
  have hsamples : ∀ samples : List (MetricSample × Instant),
      Progress self samples.length (samples.foldl (ingest_sample feed.uptime_ms) (self, [])) := by
    intro samples
    induction samples using List.reverseRecOn with
    | nil => exact ⟨Issues.refl self, hkeyed, by simp⟩
    | append_singleton samples s ih =>
      rw [List.foldl_concat, List.length_append, List.length_singleton]
      exact ih.sample feed.uptime_ms s
  have hstart := hsamples feed.samples
  unfold ingest
  dsimp only
  split
  · exact List.foldlRecOn _ _ hstart fun after hafter key _ => hafter.flush key
  · exact hstart

end aggregator

end spotflowd.metrics
