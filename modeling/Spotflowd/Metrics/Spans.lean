import Spotflowd.Lib.Machine
import Spotflowd.Metrics.Admission

open spotflowd.config

namespace spotflowd.metrics.aggregator

/-- An aggregator with history variables: when the samples in each open window were handled, what
the last call returned, and the aggregated metrics so far with the instants of the samples they
cover. -/
structure Ledger where
  agg : Aggregator
  held : String → List Instant
  ready : List ReadyMetric
  covered : List (ReadyMetric × List Instant)

namespace Ledger

def new (agg : Aggregator) : Ledger where
  agg := agg
  held := fun _ => []
  ready := []
  covered := []

/-- One sample. A window that is open afterwards has taken it, unless it was published at once. -/
def ingest_sample (uptime_ms : UInt64) (self : Ledger) (s : MetricSample × Instant) : Ledger :=
  let key := Aggregator.sample_key s.1
  let (agg, ready) := Aggregator.ingest_sample uptime_ms (self.agg, self.ready) s
  { self with
    agg := agg
    ready := ready
    held :=
      if !self.agg.immediate s.1 && (agg.states.lookup key).isSome then
        Function.update self.held key (self.held key ++ [s.2])
      else self.held }

/-- One expired stream. The metric covers what its window has taken. -/
def flush_stream (self : Ledger) (key : String) : Ledger :=
  let (agg, ready) := Aggregator.flush_stream (self.agg, self.ready) key
  { agg := agg
    ready := ready
    held := Function.update self.held key []
    covered := self.covered ++ (ready.drop self.ready.length).map fun m => (m, self.held key) }

def ingest (self : Ledger) (feed : Feed) : Ledger :=
  let self := feed.samples.foldl (ingest_sample feed.uptime_ms) { self with ready := [] }
  match self.agg.agg_duration with
  | some duration => (self.agg.expired duration feed.now feed.iteration).foldl flush_stream self
  | none => self

/-- The history variables only watch. -/
theorem ingest_agg (self : Ledger) (feed : Feed) :
    ((self.ingest feed).agg, (self.ingest feed).ready) = self.agg.ingest feed := by
  have hsamples : ∀ self : Ledger,
      ((feed.samples.foldl (ingest_sample feed.uptime_ms) self).agg,
        (feed.samples.foldl (ingest_sample feed.uptime_ms) self).ready) =
      feed.samples.foldl (Aggregator.ingest_sample feed.uptime_ms) (self.agg, self.ready) :=
    fun self => (List.foldl_hom (fun self : Ledger => (self.agg, self.ready)) fun _ _ => rfl).symm
  have hflush : ∀ (keys : List String) (self : Ledger),
      ((keys.foldl flush_stream self).agg, (keys.foldl flush_stream self).ready) =
      keys.foldl Aggregator.flush_stream (self.agg, self.ready) :=
    fun keys self => (List.foldl_hom (fun self : Ledger => (self.agg, self.ready)) fun _ _ => rfl).symm
  unfold ingest Aggregator.ingest
  dsimp only
  rw [← hsamples { self with ready := [] }]
  generalize feed.samples.foldl (ingest_sample feed.uptime_ms) { self with ready := [] } = after
  dsimp only
  cases after.agg.agg_duration with
  | none => rfl
  | some duration => exact hflush _ _

end Ledger

def keeping : Machine Ledger Feed where
  step self feed := some (self.ingest feed)

/-- The instants at which the samples of some calls are handled. -/
def instants (feeds : List Feed) : List Instant :=
  feeds.flatMap fun feed => feed.samples.map Prod.snd

/-- Every sample comes less than `duration` after the first. -/
def Within (duration : Duration) (times : List Instant) : Prop :=
  ∀ first ∈ times.head?, ∀ time ∈ times, time - first < duration

/-- No window has taken a sample `duration` or more after its first one, neither among those that
are open nor among those that have been emitted. -/
structure InTime (duration : Duration) (ledger : Ledger) : Prop where
  held : ∀ key, Within duration (ledger.held key)
  covered : ∀ entry ∈ ledger.covered, Within duration entry.2

/-- Each sample of a call that goes through a window is handled less than `duration` after the start
of its stream's window, if the stream has one before the call, or after its stream's first
sample in the call, if that one is let in. -/
def Timely (duration : Duration) (self : Aggregator) (samples : List (MetricSample × Instant)) : Prop :=
  ∀ s ∈ samples, self.immediate s.1 = false →
    ∀ w ∈ self.windows ++ self.let_in samples, w.1 = Aggregator.sample_key s.1 → s.2 - w.2 < duration

instance (duration : Duration) (self : Aggregator) (samples : List (MetricSample × Instant)) :
    Decidable (Timely duration self samples) :=
  inferInstanceAs (Decidable (∀ s ∈ _, _))

theorem timely_iff {duration : Duration} {self : Aggregator} {samples : List (MetricSample × Instant)} :
    Timely duration self samples ↔ ∀ s ∈ samples, self.immediate s.1 = false →
      ∀ w ∈ self.opened samples, w.1 = Aggregator.sample_key s.1 → s.2 - w.2 < duration := by
  rw [Timely, self.opened_eq]

theorem within_nil (duration : Duration) : Within duration [] :=
  fun _ hfirst => by cases hfirst

theorem within_cons_snoc {duration : Duration} {first time : Instant} {times : List Instant} :
    Within duration (first :: times ++ [time]) ↔
      Within duration (first :: times) ∧ time - first < duration := by
  simp only [Within, List.cons_append, List.head?_cons, Option.mem_some_iff, forall_eq',
    List.mem_cons, List.mem_append, List.not_mem_nil, or_false]
  constructor
  · exact fun h => ⟨fun other hother => h other (by tauto), h time (by tauto)⟩
  · rintro ⟨hbefore, htime⟩ other (hfirst | hold | rfl)
    · exact hbefore other (Or.inl hfirst)
    · exact hbefore other (Or.inr hold)
    · exact htime

theorem within_single {duration : Duration} (hpos : 0 < duration) (time : Instant) :
    Within duration [time] := by
  intro first hfirst time' htime
  cases hfirst
  rw [List.mem_singleton] at htime
  rw [htime, Nat.sub_self]
  exact hpos

theorem Aggregator.mem_windows {self : Aggregator} {key : String} {start : Instant} :
    (key, start) ∈ self.windows ↔ ∃ st, self.states.lookup key = some st ∧ st.window_start = start := by
  unfold windows
  rw [List.mem_map]
  constructor
  · rintro ⟨⟨key', st⟩, hmem, heq⟩
    cases heq
    exact ⟨st, AList.mem_lookup_iff.mpr hmem, rfl⟩
  · rintro ⟨st, hlookup, rfl⟩
    exact ⟨⟨key, st⟩, AList.mem_lookup_iff.mp hlookup, rfl⟩

/-- What becomes of one sample. -/
theorem Ledger.ingest_sample_cases (uptime_ms : UInt64) (self : Ledger) (s : MetricSample)
    (now : Instant) :
    (self.agg.immediate s = true ∧ self.ingest_sample uptime_ms (s, now) = { self with
        agg := (self.agg.next_seq (Aggregator.sample_key s)).2
        ready := self.ready ++
          [s.ready uptime_ms (self.agg.next_seq (Aggregator.sample_key s)).1] }) ∨
    (self.agg.immediate s = false ∧ ∃ st,
      ((∃ before, self.agg.states.lookup (Aggregator.sample_key s) = some before ∧
          st.window_start = before.window_start ∧ st.count = before.count + 1) ∨
        (self.agg.states.lookup (Aggregator.sample_key s) = none ∧
          self.agg.open_streams < MAX_STREAMS ∧ st.window_start = now ∧ st.count = 1)) ∧
      self.ingest_sample uptime_ms (s, now) = { self with
        agg := { self.agg with states := self.agg.states.insert (Aggregator.sample_key s) st }
        held := Function.update self.held (Aggregator.sample_key s)
          (self.held (Aggregator.sample_key s) ++ [now]) }) ∨
    (self.agg.immediate s = false ∧ self.agg.states.lookup (Aggregator.sample_key s) = none ∧
      MAX_STREAMS ≤ self.agg.open_streams ∧ self.ingest_sample uptime_ms (s, now) = self) := by
  unfold Ledger.ingest_sample
  obtain ⟨hkind, h⟩ | ⟨hkind, st, hlookup, h⟩ | ⟨hkind, hlookup, hroom, h⟩ | ⟨hkind, hlookup, hfull, h⟩ :=
    self.agg.ingest_sample_cases uptime_ms self.ready s now
  all_goals simp only [h, hkind, Bool.not_true, Bool.not_false, Bool.true_and, Bool.false_and,
    AList.lookup_insert, Option.isSome_some, if_true, Bool.false_eq_true, if_false]
  · exact Or.inl ⟨trivial, trivial⟩
  · exact Or.inr (Or.inl ⟨trivial, st.update s.value.as_f64 uptime_ms, Or.inl ⟨st, hlookup, rfl, rfl⟩, rfl⟩)
  · exact Or.inr (Or.inl ⟨trivial, .new s.name s.labels s.value.as_f64 uptime_ms now,
      Or.inr ⟨hlookup, hroom, rfl, rfl⟩, rfl⟩)
  · refine Or.inr (Or.inr ⟨trivial, hlookup, hfull, ?_⟩)
    rw [hlookup]
    rfl

/-- The history variables agree with the aggregator; the samples of `past` have been handled. -/
structure Tidy (past : List Instant) (ledger : Ledger) : Prop where
  opened : ∀ key st, ledger.agg.states.lookup key = some st →
    (ledger.held key).head? = some st.window_start ∧ st.count = UInt64.ofNat (ledger.held key).length
  closed : ∀ key, ledger.agg.states.lookup key = none → ledger.held key = []
  held : ∀ key, (ledger.held key).Sublist past
  covered : ∀ entry ∈ ledger.covered, entry.2.Sublist past ∧
    entry.1.count = some (UInt64.ofNat entry.2.length)
  emitted : ∀ m ∈ ledger.ready, m.agg_cbor ≠ AGG_NONE → m ∈ ledger.covered.map Prod.fst

/-- What is held after a sample has gone to the window of its stream. -/
theorem Tidy.take {past : List Instant} {ledger : Ledger} (htidy : Tidy past ledger) {key : String}
    {st : StreamState} {time : Instant}
    (hstart : (ledger.held key ++ [time]).head? = some st.window_start)
    (hcount : st.count = UInt64.ofNat ((ledger.held key).length + 1)) :
    Tidy (past ++ [time]) { ledger with
      agg := { ledger.agg with states := ledger.agg.states.insert key st }
      held := Function.update ledger.held key (ledger.held key ++ [time]) } := by
  refine ⟨?_, ?_, ?_, ?_, htidy.emitted⟩
  · intro key' st' hlookup
    dsimp only at hlookup ⊢
    by_cases hkey : key' = key
    · subst hkey
      rw [AList.lookup_insert, Option.some.injEq] at hlookup
      subst hlookup
      rw [Function.update_self]
      exact ⟨hstart, by simpa using hcount⟩
    · rw [AList.lookup_insert_ne hkey] at hlookup
      rw [Function.update_of_ne hkey]
      exact htidy.opened key' st' hlookup
  · intro key' hlookup
    dsimp only at hlookup ⊢
    by_cases hkey : key' = key
    · subst hkey
      rw [AList.lookup_insert] at hlookup
      cases hlookup
    · rw [AList.lookup_insert_ne hkey] at hlookup
      rw [Function.update_of_ne hkey]
      exact htidy.closed key' hlookup
  · intro key'
    dsimp only
    by_cases hkey : key' = key
    · subst hkey
      rw [Function.update_self]
      exact (htidy.held key').append (List.Sublist.refl _)
    · rw [Function.update_of_ne hkey]
      exact (htidy.held key').trans (List.sublist_append_left _ _)
  · intro entry hentry
    obtain ⟨hsub, hentries⟩ := htidy.covered entry hentry
    exact ⟨hsub.trans (List.sublist_append_left _ _), hentries⟩

/-- Nothing has happened to the windows. -/
theorem Tidy.pass {past : List Instant} {ledger : Ledger} (htidy : Tidy past ledger)
    {after : Ledger} (hstates : after.agg.states = ledger.agg.states) (hheld : after.held = ledger.held)
    (hcovered : after.covered = ledger.covered)
    (hready : ∀ m ∈ after.ready, m.agg_cbor ≠ AGG_NONE → m ∈ ledger.ready) (time : Instant) :
    Tidy (past ++ [time]) after := by
  refine ⟨?_, ?_, ?_, ?_, ?_⟩
  · rw [hstates, hheld]
    exact htidy.opened
  · rw [hstates, hheld]
    exact htidy.closed
  · rw [hheld]
    exact fun key => (htidy.held key).trans (List.sublist_append_left _ _)
  · rw [hcovered]
    exact fun entry hentry => ⟨(htidy.covered entry hentry).1.trans (List.sublist_append_left _ _),
      (htidy.covered entry hentry).2⟩
  · rw [hcovered]
    exact fun m hm hcbor => htidy.emitted m (hready m hm hcbor) hcbor

theorem Tidy.sample {past : List Instant} {ledger : Ledger} (htidy : Tidy past ledger)
    (uptime_ms : UInt64) (s : MetricSample × Instant) :
    Tidy (past ++ [s.2]) (ledger.ingest_sample uptime_ms s) := by
  obtain ⟨s, now⟩ := s
  obtain ⟨-, h⟩ | ⟨-, st, hst, h⟩ | ⟨-, -, -, h⟩ := ledger.ingest_sample_cases uptime_ms s now
  all_goals rw [h]
  · refine htidy.pass (by rfl) (by rfl) (by rfl) ?_ now
    intro m hm hcbor
    obtain hold | hnew := List.mem_append.mp hm
    · exact hold
    · rw [List.mem_singleton] at hnew
      exact absurd (by rw [hnew]; rfl) hcbor
  · apply htidy.take
    · obtain ⟨before, hlookup, hstart, -⟩ | ⟨hlookup, -, hstart, -⟩ := hst
      · rw [List.head?_append, (htidy.opened _ _ hlookup).1, hstart]
        rfl
      · rw [htidy.closed _ hlookup, hstart]
        rfl
    · obtain ⟨before, hlookup, -, hcount⟩ | ⟨hlookup, -, -, hcount⟩ := hst
      · rw [hcount, (htidy.opened _ _ hlookup).2, UInt64.ofNat_add]
        rfl
      · rw [htidy.closed _ hlookup, hcount]
        rfl
  · exact htidy.pass rfl rfl rfl (fun m hm _ => hm) now

/-- Flushing a stream without a window changes nothing. -/
theorem Tidy.flush_closed {past : List Instant} {ledger : Ledger} (htidy : Tidy past ledger) {key : String}
    (hlookup : ledger.agg.states.lookup key = none) : ledger.flush_stream key = ledger := by
  unfold Ledger.flush_stream
  obtain ⟨-, h⟩ | ⟨st, hsome, -⟩ := ledger.agg.flush_stream_cases ledger.ready key
  · have hheld : Function.update ledger.held key [] = ledger.held := by
      rw [← htidy.closed key hlookup, Function.update_eq_self]
    rw [h]
    simp only [hheld, List.drop_length, List.map_nil, List.append_nil]
  · rw [hlookup] at hsome
    cases hsome

theorem Tidy.flush {past : List Instant} {ledger : Ledger} (htidy : Tidy past ledger) (key : String) :
    Tidy past (ledger.flush_stream key) := by
  obtain ⟨hlookup, -⟩ | ⟨st, hlookup, h⟩ := ledger.agg.flush_stream_cases ledger.ready key
  · rw [htidy.flush_closed hlookup]
    exact htidy
  · unfold Ledger.flush_stream
    rw [h]
    simp only [List.drop_left, List.map_singleton]
    refine ⟨?_, ?_, ?_, ?_, ?_⟩
    · intro key' st' hlookup'
      by_cases hkey : key' = key
      · subst hkey
        rw [AList.lookup_erase] at hlookup'
        cases hlookup'
      · rw [AList.lookup_erase_ne hkey] at hlookup'
        dsimp only
        rw [Function.update_of_ne hkey]
        exact htidy.opened key' st' hlookup'
    · intro key' hlookup'
      dsimp only
      by_cases hkey : key' = key
      · subst hkey
        exact Function.update_self ..
      · rw [AList.lookup_erase_ne hkey] at hlookup'
        rw [Function.update_of_ne hkey]
        exact htidy.closed key' hlookup'
    · intro key'
      dsimp only
      by_cases hkey : key' = key
      · subst hkey
        rw [Function.update_self]
        exact List.nil_sublist _
      · rw [Function.update_of_ne hkey]
        exact htidy.held key'
    · intro entry hentry
      obtain hold | hnew := List.mem_append.mp hentry
      · exact htidy.covered entry hold
      · rw [List.mem_singleton] at hnew
        subst hnew
        exact ⟨htidy.held key, congrArg some (htidy.opened key st hlookup).2⟩
    · intro m hm hcbor
      rw [List.map_append]
      obtain hold | hnew := List.mem_append.mp hm
      · exact List.mem_append_left _ (htidy.emitted m hold hcbor)
      · exact List.mem_append_right _ hnew

/-- Where a call stands after the samples `done`. -/
structure Stage (duration : Duration) (before : Ledger) (done : List (MetricSample × Instant))
    (after : Ledger) : Prop where
  admitted : before.agg.Admitted done (after.agg, after.ready)
  covered : after.covered = before.covered
  placed : ∀ s ∈ done, before.agg.immediate s.1 = false →
    (after.agg.states.lookup (Aggregator.sample_key s.1)).isSome ∨
      MAX_STREAMS ≤ (before.agg.opened done).length
  in_time : (∀ key, Within duration (after.held key)) ↔
    (∀ key, Within duration (before.held key)) ∧ Timely duration before.agg done

section Timely

variable {duration : Duration} {self : Aggregator} {samples : List (MetricSample × Instant)}

/-- A sample that opens no window. -/
theorem timely_snoc_same {s : MetricSample × Instant}
    (hopened : self.opened (samples ++ [s]) = self.opened samples) :
    Timely duration self (samples ++ [s]) ↔ Timely duration self samples ∧
      (self.immediate s.1 = false →
        ∀ w ∈ self.opened samples, w.1 = Aggregator.sample_key s.1 → s.2 - w.2 < duration) := by
  rw [timely_iff, timely_iff, hopened]
  simp only [List.mem_append, List.mem_singleton, or_imp, forall_and, forall_eq]

/-- A sample that opens the window of a stream no other sample so far belongs to. -/
theorem timely_snoc_new (hpos : 0 < duration) {s : MetricSample × Instant}
    (hopened : self.opened (samples ++ [s]) =
      self.opened samples ++ [(Aggregator.sample_key s.1, s.2)])
    (hfirst : ∀ s' ∈ samples, self.immediate s'.1 = false →
      Aggregator.sample_key s.1 ≠ Aggregator.sample_key s'.1)
    (hnone : ∀ w ∈ self.opened samples, w.1 ≠ Aggregator.sample_key s.1) :
    Timely duration self (samples ++ [s]) ↔ Timely duration self samples := by
  rw [timely_iff, timely_iff, hopened]
  constructor
  · intro h s' hs' hkind w hw
    exact h s' (List.mem_append_left _ hs') hkind w (List.mem_append_left _ hw)
  · intro h s' hs' hkind w hw hkey
    rcases List.mem_append.mp hs' with hold | hnew
    · rcases List.mem_append.mp hw with hw | hw
      · exact h s' hold hkind w hw hkey
      · rw [List.mem_singleton] at hw
        subst hw
        exact absurd hkey (hfirst s' hold hkind)
    · rw [List.mem_singleton] at hnew
      subst hnew
      rcases List.mem_append.mp hw with hw | hw
      · exact absurd hkey (hnone w hw)
      · rw [List.mem_singleton] at hw
        subst hw
        rw [Nat.sub_self]
        exact hpos

end Timely

/-- One window has taken a sample. -/
theorem forall_within_update {duration : Duration} {held : String → List Instant} {key : String}
    {times : List Instant} {late : Prop}
    (hkey : Within duration times ↔ Within duration (held key) ∧ late) :
    (∀ key', Within duration (Function.update held key times key')) ↔
      (∀ key', Within duration (held key')) ∧ late := by
  constructor
  · intro h
    have hown := h key
    rw [Function.update_self, hkey] at hown
    refine ⟨fun key' => ?_, hown.2⟩
    by_cases heq : key' = key
    · subst heq
      exact hown.1
    · have hother := h key'
      rwa [Function.update_of_ne heq] at hother
  · rintro ⟨h, hlate⟩ key'
    by_cases heq : key' = key
    · subst heq
      rw [Function.update_self, hkey]
      exact ⟨h key', hlate⟩
    · rw [Function.update_of_ne heq]
      exact h key'

/-- A sample that leaves the windows as they are. -/
theorem Stage.pass {duration : Duration} {before ledger after : Ledger}
    {done : List (MetricSample × Instant)} (hstage : Stage duration before done ledger)
    {s : MetricSample × Instant} (hadmitted : before.agg.Admitted (done ++ [s]) (after.agg, after.ready))
    (hstates : after.agg.states = ledger.agg.states) (hheld : after.held = ledger.held)
    (hcovered : after.covered = ledger.covered)
    (hopened : before.agg.opened (done ++ [s]) = before.agg.opened done)
    (haway : before.agg.immediate s.1 = false →
      ledger.agg.states.lookup (Aggregator.sample_key s.1) = none ∧
        MAX_STREAMS ≤ (before.agg.opened done).length) :
    Stage duration before (done ++ [s]) after := by
  refine ⟨hadmitted, hcovered.trans hstage.covered, ?_, ?_⟩
  · rw [hstates, hopened]
    intro s' hs' hkind
    rcases List.mem_append.mp hs' with hold | hnew
    · exact hstage.placed s' hold hkind
    · rw [List.mem_singleton] at hnew
      subst hnew
      exact Or.inr (haway hkind).2
  · rw [hheld, hstage.in_time, timely_snoc_same hopened, ← and_assoc, iff_self_and]
    rintro - hkind w hw hkey
    rw [← hstage.admitted.opened.mem_iff, Aggregator.mem_windows] at hw
    obtain ⟨st, hlookup, -⟩ := hw
    rw [hkey, (haway hkind).1] at hlookup
    cases hlookup

section Stage

variable {duration : Duration} {before ledger after : Ledger} {done : List (MetricSample × Instant)}

theorem Stage.mem_opened (hstage : Stage duration before done ledger) {w : String × Instant} :
    w ∈ before.agg.opened done ↔
      ∃ st, ledger.agg.states.lookup w.1 = some st ∧ st.window_start = w.2 := by
  rw [← hstage.admitted.opened.mem_iff]
  exact Aggregator.mem_windows

/-- The streams that have been placed stay so when another one is written. -/
theorem Stage.placed_insert (hstage : Stage duration before done ledger)
    (s : MetricSample × Instant) (st : StreamState) :
    ∀ s' ∈ done ++ [s], before.agg.immediate s'.1 = false →
      ((ledger.agg.states.insert (Aggregator.sample_key s.1) st).lookup
        (Aggregator.sample_key s'.1)).isSome ∨ MAX_STREAMS ≤ (before.agg.opened done).length := by
  intro s' hs' hkind
  rcases List.mem_append.mp hs' with hold | hnew
  · refine (hstage.placed s' hold hkind).imp_left ?_
    rw [AList.lookup_isSome, AList.lookup_isSome, AList.mem_insert]
    exact Or.inr
  · rw [List.mem_singleton] at hnew
    rw [hnew, AList.lookup_insert]
    exact Or.inl rfl

/-- A sample goes to a window that is open. -/
theorem Stage.merge {past : List Instant} (hstage : Stage duration before done ledger)
    (htidy : Tidy past ledger) {s : MetricSample × Instant} {old st : StreamState}
    (hadmitted : before.agg.Admitted (done ++ [s]) (after.agg, after.ready))
    (hstates : after.agg.states = ledger.agg.states.insert (Aggregator.sample_key s.1) st)
    (hheld : after.held = Function.update ledger.held (Aggregator.sample_key s.1)
      (ledger.held (Aggregator.sample_key s.1) ++ [s.2]))
    (hcovered : after.covered = ledger.covered)
    (hopened : before.agg.opened (done ++ [s]) = before.agg.opened done)
    (hkind : before.agg.immediate s.1 = false)
    (hlookup : ledger.agg.states.lookup (Aggregator.sample_key s.1) = some old) :
    Stage duration before (done ++ [s]) after := by
  refine ⟨hadmitted, hcovered.trans hstage.covered, ?_, ?_⟩
  · rw [hopened, hstates]
    exact hstage.placed_insert s st
  · obtain ⟨times, htimes⟩ := List.head?_eq_some_iff.mp (htidy.opened _ _ hlookup).1
    rw [hheld, forall_within_update (by rw [htimes]; exact within_cons_snoc), hstage.in_time,
      timely_snoc_same hopened, and_assoc]
    apply and_congr_right'
    apply and_congr_right'
    constructor
    · intro htime _ w hw hkey
      obtain ⟨st', hlookup', hstart⟩ := hstage.mem_opened.mp hw
      rw [hkey, hlookup] at hlookup'
      cases hlookup'
      rw [← hstart]
      exact htime
    · intro hall
      exact hall hkind (_, old.window_start) (hstage.mem_opened.mpr ⟨old, hlookup, rfl⟩) rfl

/-- A sample opens the window of its stream. -/
theorem Stage.opens {past : List Instant} (hpos : 0 < duration)
    (hstage : Stage duration before done ledger) (htidy : Tidy past ledger)
    {s : MetricSample × Instant} {st : StreamState}
    (hadmitted : before.agg.Admitted (done ++ [s]) (after.agg, after.ready))
    (hstates : after.agg.states = ledger.agg.states.insert (Aggregator.sample_key s.1) st)
    (hheld : after.held = Function.update ledger.held (Aggregator.sample_key s.1)
      (ledger.held (Aggregator.sample_key s.1) ++ [s.2]))
    (hcovered : after.covered = ledger.covered)
    (hopened : before.agg.opened (done ++ [s]) =
      before.agg.opened done ++ [(Aggregator.sample_key s.1, s.2)])
    (hroom : ¬ MAX_STREAMS ≤ (before.agg.opened done).length)
    (hlookup : ledger.agg.states.lookup (Aggregator.sample_key s.1) = none) :
    Stage duration before (done ++ [s]) after := by
  refine ⟨hadmitted, hcovered.trans hstage.covered, ?_, ?_⟩
  · rw [hstates]
    intro s' hs' hkind
    exact Or.inl ((hstage.placed_insert s st s' hs' hkind).resolve_right hroom)
  · have hsingle : Within duration (ledger.held (Aggregator.sample_key s.1) ++ [s.2]) ↔
        Within duration (ledger.held (Aggregator.sample_key s.1)) ∧ True := by
      rw [htidy.closed _ hlookup, and_true]
      exact iff_of_true (within_single hpos s.2) (within_nil duration)
    rw [hheld, forall_within_update hsingle, and_true, hstage.in_time, timely_snoc_new hpos hopened]
    · intro s' hs' hkind hkey
      have hopen := (hstage.placed s' hs' hkind).resolve_right hroom
      rw [← hkey, hlookup] at hopen
      cases hopen
    · intro w hw hkey
      obtain ⟨st', hlookup', -⟩ := hstage.mem_opened.mp hw
      rw [hkey, hlookup] at hlookup'
      cases hlookup'

theorem Stage.sample {past : List Instant} (hpos : 0 < duration)
    (hstage : Stage duration before done ledger) (htidy : Tidy past ledger) (uptime_ms : UInt64)
    (s : MetricSample × Instant) :
    Stage duration before (done ++ [s]) (ledger.ingest_sample uptime_ms s) := by
  have hadmitted := hstage.admitted.sample uptime_ms s
  change before.agg.Admitted _ ((ledger.ingest_sample uptime_ms s).agg,
    (ledger.ingest_sample uptime_ms s).ready) at hadmitted
  obtain ⟨s, now⟩ := s
  have hopened := hstage.admitted.opened_snoc s now
  have hkind' := hstage.admitted.immediate s
  have hfew := hstage.admitted.length_opened
  dsimp only at hopened hkind' hfew
  obtain ⟨hkind, h⟩ | ⟨hkind, st, hst, h⟩ | ⟨hkind, hlookup, hfull, h⟩ :=
    ledger.ingest_sample_cases uptime_ms s now
  · rw [hkind, Bool.true_or, Bool.true_or, if_pos rfl] at hopened
    refine hstage.pass hadmitted (by rw [h]; rfl) (by rw [h]) (by rw [h]) hopened ?_
    rw [hkind', hkind]
    intro hno
    cases hno
  · obtain ⟨old, hlookup, -, -⟩ | ⟨hlookup, hroom, -, -⟩ := hst
    · rw [hlookup, Option.isSome_some, Bool.or_true, Bool.true_or, if_pos rfl] at hopened
      exact hstage.merge htidy hadmitted (by rw [h]) (by rw [h]) (by rw [h]) hopened
        (hkind'.trans hkind) hlookup
    · rw [hkind, hlookup, if_neg (by simp [hroom])] at hopened
      rw [← hfew, ← not_le] at hroom
      exact hstage.opens hpos htidy hadmitted (by rw [h]) (by rw [h]) (by rw [h]) hopened hroom hlookup
  · rw [if_pos (by simp [hfull])] at hopened
    refine hstage.pass hadmitted (by rw [h]) (by rw [h]) (by rw [h]) hopened ?_
    exact fun _ => ⟨hlookup, by rw [hfew]; exact hfull⟩

end Stage

/-- The samples of a call, from the first on. -/
theorem Stage.samples {duration : Duration} (hpos : 0 < duration) {before : Ledger}
    (hready : before.ready = []) {past : List Instant} (htidy : Tidy past before) (uptime_ms : UInt64)
    (done : List (MetricSample × Instant)) :
    Stage duration before done (done.foldl (Ledger.ingest_sample uptime_ms) before) ∧
      Tidy (past ++ done.map Prod.snd) (done.foldl (Ledger.ingest_sample uptime_ms) before) := by
  induction done using List.reverseRecOn with
  | nil =>
    refine ⟨⟨?_, rfl, by simp, by simp [Timely]⟩, by simpa using htidy⟩
    have hadmitted := before.agg.admitted uptime_ms []
    rw [← hready] at hadmitted
    exact hadmitted
  | append_singleton done s ih =>
    rw [List.foldl_concat, List.map_append, List.map_singleton, ← List.append_assoc]
    exact ⟨ih.1.sample hpos ih.2 uptime_ms s, ih.2.sample uptime_ms s⟩

/-- A window that is flushed is counted among those emitted. -/
theorem inTime_flush {duration : Duration} {past : List Instant} {ledger : Ledger}
    (htidy : Tidy past ledger) (key : String) :
    InTime duration (ledger.flush_stream key) ↔ InTime duration ledger := by
  obtain ⟨hlookup, -⟩ | ⟨st, hlookup, h⟩ := ledger.agg.flush_stream_cases ledger.ready key
  · rw [htidy.flush_closed hlookup]
  · unfold Ledger.flush_stream
    rw [h]
    simp only [List.drop_left, List.map_singleton]
    constructor
    · rintro ⟨hheld, hcovered⟩
      refine ⟨fun key' => ?_, fun entry hentry => hcovered entry (List.mem_append_left _ hentry)⟩
      by_cases hkey : key' = key
      · subst hkey
        exact hcovered (_, ledger.held key') (List.mem_append_right _ (List.mem_singleton_self _))
      · have hother := hheld key'
        dsimp only at hother
        rwa [Function.update_of_ne hkey] at hother
    · rintro ⟨hheld, hcovered⟩
      refine ⟨fun key' => ?_, fun entry hentry => ?_⟩
      · dsimp only
        by_cases hkey : key' = key
        · subst hkey
          rw [Function.update_self]
          exact within_nil duration
        · rw [Function.update_of_ne hkey]
          exact hheld key'
      · rcases List.mem_append.mp hentry with hold | hnew
        · exact hcovered entry hold
        · rw [List.mem_singleton] at hnew
          subst hnew
          exact hheld key

theorem flush_stream_duration (ledger : Ledger) (key : String) :
    (ledger.flush_stream key).agg.agg_duration = ledger.agg.agg_duration := by
  unfold Ledger.flush_stream
  obtain ⟨-, h⟩ | ⟨st, -, h⟩ := ledger.agg.flush_stream_cases ledger.ready key
  · rw [h]
  · rw [h]
    rfl

/-- A call keeps the windows in time if and only if its samples come in time. -/
theorem Tidy.ingest {duration : Duration} (hpos : 0 < duration) {past : List Instant}
    {ledger : Ledger} (htidy : Tidy past ledger) (hduration : ledger.agg.agg_duration = some duration)
    (feed : Feed) :
    Tidy (past ++ feed.samples.map Prod.snd) (ledger.ingest feed) ∧
      (ledger.ingest feed).agg.agg_duration = some duration ∧
      (InTime duration (ledger.ingest feed) ↔
        InTime duration ledger ∧ Timely duration ledger.agg feed.samples) := by
  have hfresh : Tidy past { ledger with ready := [] } :=
    ⟨htidy.opened, htidy.closed, htidy.held, htidy.covered, by simp⟩
  obtain ⟨hstage, hlast⟩ := Stage.samples hpos rfl hfresh feed.uptime_ms feed.samples
  have hsamples : InTime duration (feed.samples.foldl (Ledger.ingest_sample feed.uptime_ms)
      { ledger with ready := [] }) ↔ InTime duration ledger ∧ Timely duration ledger.agg feed.samples := by
    have hin := hstage.in_time
    have hcovered := hstage.covered
    dsimp only at hin hcovered
    constructor
    · rintro ⟨hheld, hentries⟩
      rw [hcovered] at hentries
      exact ⟨⟨(hin.mp hheld).1, hentries⟩, (hin.mp hheld).2⟩
    · rintro ⟨⟨hheld, hentries⟩, htimely⟩
      exact ⟨hin.mpr ⟨hheld, htimely⟩, by rw [hcovered]; exact hentries⟩
  have hwindow := hstage.admitted.window
  dsimp only at hwindow
  rw [hduration] at hwindow
  unfold Ledger.ingest
  dsimp only
  rw [hwindow]
  refine List.foldlRecOn (motive := fun after => Tidy (past ++ feed.samples.map Prod.snd) after ∧
    after.agg.agg_duration = some duration ∧ (InTime duration after ↔
      InTime duration ledger ∧ Timely duration ledger.agg feed.samples)) _ _ ⟨hlast, hwindow, hsamples⟩ ?_
  rintro after ⟨htidy, hduration, hin⟩ key -
  exact ⟨htidy.flush key, (flush_stream_duration after key).trans hduration,
    (inTime_flush htidy key).trans hin⟩

theorem interval_pos {name : String} {agg_cbor : UInt8} {duration : Duration}
    (hinterval : interval name = .ok (agg_cbor, some duration)) : 0 < duration := by
  unfold interval at hinterval
  split at hinterval
  all_goals cases hinterval
  all_goals decide

/-- A new aggregator has no window. -/
theorem tidy_new {agg : Aggregator} (hstates : agg.states = ∅) : Tidy [] (Ledger.new agg) := by
  refine ⟨?_, fun _ _ => rfl, fun _ => List.Sublist.refl _, by simp [Ledger.new], by simp [Ledger.new]⟩
  intro key st hlookup
  change agg.states.lookup key = some st at hlookup
  rw [hstates, AList.lookup_empty] at hlookup
  cases hlookup

theorem inTime_new (duration : Duration) (agg : Aggregator) : InTime duration (Ledger.new agg) :=
  ⟨fun _ => within_nil duration, by simp [Ledger.new]⟩

theorem instants_snoc (feeds : List Feed) (feed : Feed) :
    instants (feeds ++ [feed]) = instants feeds ++ feed.samples.map Prod.snd := by
  simp [instants]

theorem tidy_run {agg : Aggregator} (hstates : agg.states = ∅) {duration : Duration}
    (hpos : 0 < duration) (hduration : agg.agg_duration = some duration) {feeds : List Feed} {t : Ledger}
    (hrun : keeping.Run (fun _ _ => True) (Ledger.new agg) feeds t) :
    Tidy (instants feeds) t ∧ t.agg.agg_duration = some duration := by
  refine hrun.history (P := fun feeds t => Tidy (instants feeds) t ∧ t.agg.agg_duration = some duration)
    ⟨tidy_new hstates, hduration⟩ ?_
  rintro past s feed t ⟨htidy, hduration⟩ - hstep
  cases hstep
  obtain ⟨htidy, hduration, -⟩ := htidy.ingest hpos hduration feed
  rw [instants_snoc]
  exact ⟨htidy, hduration⟩

/-- On a clock that does not go back, what is within an interval of the first instant is within an
interval. -/
theorem Within.span {duration : Duration} {times : List Instant} (hwithin : Within duration times)
    (hsorted : times.Pairwise (· ≤ ·)) : ∀ a ∈ times, ∀ b ∈ times, b - a < duration := by
  intro a ha b hb
  cases times with
  | nil => cases ha
  | cons first times =>
    have hlate := hwithin first rfl b hb
    have hfirst : first ≤ a := by
      rcases List.mem_cons.mp ha with rfl | ha
      · exact le_rfl
      · exact (List.pairwise_cons.mp hsorted).1 a ha
    exact (Nat.sub_le_sub_left hfirst b).trans_lt hlate

/-- A window does not outlive its interval, in any state of a run, if and only if no sample comes
for a window that is open for an interval or more. The instants held and covered are those of
the samples merged: a window starts with the first, each aggregated metric covers some, and on a
clock that does not go back they span less than the interval. -/
theorem windows_end_in_time_iff {c : Ciborium} {cfg : MetricsConfig} {dir dir' : fs.Fs}
    {agg : Aggregator} (hnew : Aggregator.new c cfg dir = .ok (agg, dir')) {duration : Duration}
    (hduration : agg.agg_duration = some duration) {feeds : List Feed} {t : Ledger}
    (hrun : keeping.Run (fun _ _ => True) (Ledger.new agg) feeds t) :
    (InTime duration t ↔ keeping.Run (fun s feed => Timely duration s.agg feed.samples)
      (Ledger.new agg) feeds t) ∧
    (∀ key st, t.agg.states.lookup key = some st → (t.held key).head? = some st.window_start ∧
      st.count = UInt64.ofNat (t.held key).length) ∧
    (∀ m ∈ t.ready, m.agg_cbor ≠ AGG_NONE → ∃ times, (m, times) ∈ t.covered) ∧
    ((instants feeds).Pairwise (· ≤ ·) → InTime duration t →
      ∀ entry ∈ t.covered, ∀ a ∈ entry.2, ∀ b ∈ entry.2, b - a < duration) ∧
    ∀ feed u, keeping.step t feed = some u → (u.agg, u.ready) = t.agg.ingest feed := by
  obtain ⟨hinterval, hstates, -⟩ := Aggregator.new_eq hnew
  rw [hduration] at hinterval
  have hpos := interval_pos hinterval
  obtain ⟨htidy, -⟩ := tidy_run hstates hpos hduration hrun
  refine ⟨⟨?_, ?_⟩, htidy.opened, ?_, ?_, ?_⟩
  · intro hin
    clear htidy
    induction hrun with
    | nil => exact .nil _
    | snoc hpast _ hstep ih =>
      obtain ⟨htidy, hbefore⟩ := tidy_run hstates hpos hduration hpast
      cases hstep
      rw [(htidy.ingest hpos hbefore _).2.2] at hin
      exact .snoc (ih hin.1) hin.2 rfl
  · intro htimely
    have hall := htimely.history (P := fun feeds t =>
      Tidy (instants feeds) t ∧ t.agg.agg_duration = some duration ∧ InTime duration t)
      ⟨tidy_new hstates, hduration, inTime_new duration agg⟩ ?_
    · exact hall.2.2
    · rintro past s feed t ⟨htidy, hduration, hin⟩ hfeed hstep
      cases hstep
      obtain ⟨htidy, hduration, hiff⟩ := htidy.ingest hpos hduration feed
      rw [instants_snoc]
      exact ⟨htidy, hduration, hiff.mpr ⟨hin, hfeed⟩⟩
  · intro m hm hcbor
    obtain ⟨⟨m', times⟩, hentry, rfl⟩ := List.mem_map.mp (htidy.emitted m hm hcbor)
    exact ⟨times, hentry⟩
  · intro hclock hin entry hentry
    exact (hin.covered entry hentry).span (hclock.sublist (htidy.covered entry hentry).1)
  · intro feed u hstep
    cases hstep
    exact t.ingest_agg feed

/-- A gauge at some second. -/
def gauge_at (secs : Nat) : Feed where
  samples := [(⟨"a", .Int 1, [], false, false⟩, from_secs secs)]
  uptime_ms := UInt64.ofNat (secs * 1000)
  now := from_secs secs
  iteration := ⟨id, fun keys => .refl keys⟩

/-- A call without samples at some second. -/
def flush_at (secs : Nat) : Feed := { gauge_at secs with samples := [] }

theorem windows_end_in_time_flushed : ∃ agg dir' t,
    Aggregator.new .wire {} ⟨none, [], [], []⟩ = .ok (agg, dir') ∧
    agg.agg_duration = some (from_secs 60) ∧
    keeping.Run (fun _ _ => True) (Ledger.new agg) [gauge_at 0, gauge_at 59, flush_at 60, gauge_at 61] t ∧
    t.covered ≠ [] ∧ InTime (from_secs 60) t := by
  have htest : (Aggregator.new .wire {} ⟨none, [], [], []⟩).toOption.any (fun new =>
      new.1.agg_duration = some (from_secs 60) ∧
      (keeping.exec (fun s feed => Timely (from_secs 60) s.agg feed.samples) (Ledger.new new.1)
        [gauge_at 0, gauge_at 59, flush_at 60, gauge_at 61]).any (fun t => t.covered ≠ [])) = true := by
    rfl
  obtain ⟨⟨agg, dir'⟩, hnew, htest⟩ := effect.exists_ok_of_any htest
  obtain ⟨hduration, htest⟩ := of_decide_eq_true htest
  obtain ⟨t, htimely, htest⟩ := Machine.exists_run_of_exec _ htest
  have hrun := htimely.mono (fun _ _ _ => trivial)
  exact ⟨agg, dir', t, hnew, hduration, hrun, of_decide_eq_true htest,
    (windows_end_in_time_iff hnew hduration hrun).1.mpr htimely⟩

/-- The tick that flushes a window of a minute brings one more sample, at its very end, and the
sample is merged first. -/
theorem late_sample_is_merged : ∃ agg dir' t,
    Aggregator.new .wire {} ⟨none, [], [], []⟩ = .ok (agg, dir') ∧
    agg.agg_duration = some (from_secs 60) ∧
    keeping.Run (fun _ _ => True) (Ledger.new agg) [gauge_at 0, gauge_at 60] t ∧
    ∃ entry ∈ t.covered, entry.2 = [from_secs 0, from_secs 60] ∧ ¬ Within (from_secs 60) entry.2 := by
  have htest : (Aggregator.new .wire {} ⟨none, [], [], []⟩).toOption.any (fun new =>
      new.1.agg_duration = some (from_secs 60) ∧
      (keeping.exec (fun _ _ => True) (Ledger.new new.1) [gauge_at 0, gauge_at 60]).any
        (fun t => ∃ entry ∈ t.covered, entry.2 = [from_secs 0, from_secs 60])) = true := by
    rfl
  obtain ⟨⟨agg, dir'⟩, hnew, htest⟩ := effect.exists_ok_of_any htest
  obtain ⟨hduration, htest⟩ := of_decide_eq_true htest
  obtain ⟨t, hrun, htest⟩ := Machine.exists_run_of_exec _ htest
  obtain ⟨entry, hentry, htimes⟩ := of_decide_eq_true htest
  refine ⟨agg, dir', t, hnew, hduration, hrun, entry, hentry, htimes, ?_⟩
  intro hwithin
  rw [htimes] at hwithin
  exact absurd (hwithin _ rfl (from_secs 60) (by simp)) (by decide)

end spotflowd.metrics.aggregator
