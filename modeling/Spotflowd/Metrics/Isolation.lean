import Spotflowd.Metrics.Windows

open spotflowd.config
open spotflowd.metrics.aggregator

namespace spotflowd.metrics.aggregator

/-- What an aggregator keeps for one stream: the open window, if there is one, and the last
number. -/
structure Stream where
  window : Option StreamState
  last : UInt64
deriving DecidableEq

namespace Stream

/-- The stream takes one of its samples. -/
def sample (agg_duration : Option Duration) (uptime_ms : UInt64) :
    Stream × List ReadyMetric → MetricSample × Instant → Stream × List ReadyMetric
  | (self, ready), (s, now) =>
    if agg_duration.isNone || s.counter || s.raw then
      ({ self with last := self.last + 1 }, ready ++ [s.ready uptime_ms (self.last + 1)])
    else
      match self.window with
      | some st => ({ self with window := some (st.update s.value.as_f64 uptime_ms) }, ready)
      | none =>
        ({ self with window := some (.new s.name s.labels s.value.as_f64 uptime_ms now) }, ready)

/-- The window closes if it has elapsed at `now`. -/
def flush (agg_cbor : UInt8) (agg_duration : Option Duration) (now : Instant) :
    Stream × List ReadyMetric → Stream × List ReadyMetric
  | (self, ready) =>
    match agg_duration, self.window with
    | some duration, some st =>
      if duration ≤ now - st.window_start then
        (⟨none, self.last + 1⟩, ready ++ [st.ready agg_cbor (self.last + 1)])
      else (self, ready)
    | _, _ => (self, ready)

end Stream

/-- The samples of one stream, in order. -/
def own_samples (key : String) (samples : List (MetricSample × Instant)) : List (MetricSample × Instant) :=
  samples.filter fun s => Aggregator.sample_key s.1 = key

/-- The readings of one stream, in order. -/
def own_readings (key : String) (ready : List ReadyMetric) : List ReadyMetric :=
  ready.filter fun m => m.key = key

/-- One call, as one stream sees it. -/
def Stream.ingest (agg_cbor : UInt8) (agg_duration : Option Duration) (key : String) (self : Stream)
    (feed : Feed) : Stream × List ReadyMetric :=
  Stream.flush agg_cbor agg_duration feed.now
    ((own_samples key feed.samples).foldl (Stream.sample agg_duration feed.uptime_ms) (self, []))

def Aggregator.stream (key : String) (self : Aggregator) : Stream :=
  ⟨self.states.lookup key, self.last_seq key⟩

/-- An aggregator and what it has emitted, as one stream sees them. -/
def Aggregator.view (key : String) (after : Aggregator × List ReadyMetric) : Stream × List ReadyMetric :=
  (after.1.stream key, own_readings key after.2)

theorem own_readings_snoc (key : String) (ready : List ReadyMetric) (m : ReadyMetric) :
    own_readings key (ready ++ [m]) = own_readings key ready ++ if m.key = key then [m] else [] := by
  rw [own_readings, List.filter_append]
  congr 1
  by_cases hown : m.key = key <;> simp [hown]

/-- Issuing a number concerns the stream that gets it. -/
theorem Aggregator.view_issue {self after : Aggregator} {m : ReadyMetric} {other : String}
    (hkey : m.key = other) (hseq : after.seq = (self.next_seq other).2.seq) (key : String)
    (ready : List ReadyMetric) : Aggregator.view key (after, ready ++ [m]) =
      if other = key then
        (⟨after.states.lookup key, self.last_seq key + 1⟩, own_readings key ready ++ [m])
      else (⟨after.states.lookup key, self.last_seq key⟩, own_readings key ready) := by
  have hlast : after.last_seq key = (self.next_seq other).2.last_seq key := by
    rw [Aggregator.last_seq, Aggregator.last_seq, hseq]
  rw [Aggregator.view, Aggregator.stream, own_readings_snoc, hlast, Aggregator.next_seq_last_seq, hkey]
  by_cases hown : other = key
  · subst hown
    simp
  · simp [hown, Ne.symm hown]

/-- The sample would open one window too many. -/
def Aggregator.Drops (self : Aggregator) (s : MetricSample) : Prop :=
  self.immediate s = false ∧ self.states.lookup (sample_key s) = none ∧ MAX_STREAMS ≤ self.open_streams

instance (self : Aggregator) (s : MetricSample) : Decidable (self.Drops s) :=
  inferInstanceAs (Decidable (_ ∧ _ ∧ _))

/-- A sample is taken by its own stream, unless it is dropped, and goes unnoticed by the others. -/
theorem Aggregator.view_sample (key : String) (uptime_ms : UInt64) (after : Aggregator × List ReadyMetric)
    (s : MetricSample × Instant) : view key (ingest_sample uptime_ms after s) =
      if sample_key s.1 = key ∧ ¬ after.1.Drops s.1 then
        Stream.sample after.1.agg_duration uptime_ms (view key after) s
      else view key after := by
  obtain ⟨self, ready⟩ := after
  obtain ⟨s, now⟩ := s
  obtain ⟨hkind, h⟩ | ⟨hkind, st, hlookup, h⟩ | ⟨hkind, hlookup, hroom, h⟩ | ⟨hkind, hlookup, hfull, h⟩ :=
    ingest_sample_cases uptime_ms self ready s now
  · have hkept : ¬ self.Drops s := fun hdrops => by simp [hdrops.1] at hkind
    unfold immediate at hkind
    rw [h]
    refine (@view_issue self _ _ (sample_key s) rfl rfl key ready).trans ?_
    by_cases hown : sample_key s = key
    · subst hown
      simp only [true_and, hkept, not_false_eq_true, if_true, Stream.sample, view, hkind]
      rfl
    · simp only [hown, false_and, if_false]
      rfl
  · have hkept : ¬ self.Drops s := fun hdrops => by simp [hdrops.2.1] at hlookup
    unfold immediate at hkind
    rw [h]
    by_cases hown : sample_key s = key
    · subst hown
      simp [hkept, Stream.sample, view, stream, hkind, hlookup, last_seq]
    · simp [hown, view, stream, AList.lookup_insert_ne (Ne.symm hown), last_seq]
  · have hkept : ¬ self.Drops s := fun hdrops => absurd hroom (not_lt.mpr hdrops.2.2)
    unfold immediate at hkind
    rw [h]
    by_cases hown : sample_key s = key
    · subst hown
      simp [hkept, Stream.sample, view, stream, hkind, hlookup, last_seq]
    · simp [hown, view, stream, AList.lookup_insert_ne (Ne.symm hown), last_seq]
  · have hdropped : self.Drops s := ⟨hkind, hlookup, hfull⟩
    rw [h, if_neg fun hown => hown.2 hdropped]

/-- With room after it, a sample was not dropped. -/
theorem Aggregator.not_drops {uptime_ms : UInt64} {after : Aggregator × List ReadyMetric}
    {s : MetricSample × Instant}
    (hroom : (ingest_sample uptime_ms after s).1.open_streams < MAX_STREAMS) : ¬ after.1.Drops s.1 := by
  rintro ⟨hkind, hlookup, hfull⟩
  obtain ⟨self, ready⟩ := after
  obtain ⟨s, now⟩ := s
  obtain ⟨hkind', -⟩ | ⟨-, st, hlookup', -⟩ | ⟨-, -, hroom', -⟩ | ⟨-, -, -, h⟩ :=
    ingest_sample_cases uptime_ms self ready s now
  · rw [hkind] at hkind'
    cases hkind'
  · rw [hlookup] at hlookup'
    cases hlookup'
  · exact absurd hroom' (not_lt.mpr hfull)
  · rw [h] at hroom
    exact absurd hroom (not_lt.mpr hfull)

/-- Flushing a stream that is not this one goes unnoticed. -/
theorem Aggregator.view_flush_other {key other : String} (hother : other ≠ key)
    {after : Aggregator × List ReadyMetric} (hkeyed : after.1.Keyed) :
    view key (flush_stream after other) = view key after := by
  obtain ⟨self, ready⟩ := after
  obtain ⟨-, h⟩ | ⟨st, hlookup, h⟩ := flush_stream_cases self ready other
  · rw [h]
  · have hkey : (st.ready self.agg_cbor (self.next_seq other).1).key = other := hkeyed other st hlookup
    rw [h]
    refine (@view_issue self { (self.next_seq other).2 with states := self.states.erase other } _ other
      hkey rfl key ready).trans ?_
    rw [if_neg hother, AList.lookup_erase_ne hother.symm]
    rfl

theorem Aggregator.view_flush_own {key : String} {self : Aggregator} {ready : List ReadyMetric}
    (hkeyed : self.Keyed) {st : StreamState} (hlookup : self.states.lookup key = some st) :
    view key (flush_stream (self, ready) key) = (⟨none, self.last_seq key + 1⟩,
      own_readings key ready ++ [st.ready self.agg_cbor (self.last_seq key + 1)]) := by
  obtain ⟨hnone, -⟩ | ⟨st', hlookup', h⟩ := flush_stream_cases self ready key
  · rw [hlookup] at hnone
    cases hnone
  · rw [hlookup] at hlookup'
    cases hlookup'
    have hkey : (st.ready self.agg_cbor (self.next_seq key).1).key = key := hkeyed key st hlookup
    rw [h]
    refine (@view_issue self { (self.next_seq key).2 with states := self.states.erase key } _ key
      hkey rfl key ready).trans ?_
    rw [if_pos rfl, AList.lookup_erase]
    rfl

/-- Two aggregators with the same interval, the second one with its windows in order. -/
structure Kept (before after : Aggregator) : Prop where
  keyed : after.Keyed
  cbor : after.agg_cbor = before.agg_cbor
  duration : after.agg_duration = before.agg_duration

theorem Kept.flush {self : Aggregator} {after : Aggregator × List ReadyMetric} (hkept : Kept self after.1)
    (key : String) : Kept self (Aggregator.flush_stream after key).1 := by
  obtain ⟨other, ready⟩ := after
  obtain ⟨-, h⟩ | ⟨st, -, h⟩ := Aggregator.flush_stream_cases other ready key
  all_goals rw [h]
  · exact hkept
  · exact ⟨hkept.keyed.erase rfl, hkept.cbor, hkept.duration⟩

theorem Kept.sample {self : Aggregator} {after : Aggregator × List ReadyMetric} (hkept : Kept self after.1)
    (uptime_ms : UInt64) (s : MetricSample × Instant) :
    Kept self (Aggregator.ingest_sample uptime_ms after s).1 := by
  obtain ⟨other, ready⟩ := after
  obtain ⟨s, now⟩ := s
  obtain ⟨hkeyed, hcbor, hduration⟩ := hkept
  obtain ⟨-, h⟩ | ⟨-, st, hlookup, h⟩ | ⟨-, -, -, h⟩ | ⟨-, -, -, h⟩ :=
    Aggregator.ingest_sample_cases uptime_ms other ready s now
  all_goals rw [h]
  · exact ⟨hkeyed, hcbor, hduration⟩
  · exact ⟨hkeyed.insert (hkeyed _ st hlookup), hcbor, hduration⟩
  · exact ⟨hkeyed.insert rfl, hcbor, hduration⟩
  · exact ⟨hkeyed, hcbor, hduration⟩

theorem Kept.ingest {self after : Aggregator} (hkept : Kept self after) (feed : Feed) :
    Kept self (after.ingest feed).1 := by
  have hsamples : Kept self (feed.samples.foldl (Aggregator.ingest_sample feed.uptime_ms) (after, [])).1 :=
    List.foldlRecOn _ _ (motive := fun after : Aggregator × List ReadyMetric => Kept self after.1) hkept
      fun _ hafter s _ => hafter.sample feed.uptime_ms s
  unfold Aggregator.ingest
  dsimp only
  split
  · exact List.foldlRecOn _ _ (motive := fun after : Aggregator × List ReadyMetric => Kept self after.1) hsamples
      fun _ hafter key _ => hafter.flush key
  · exact hsamples

theorem Aggregator.view_flush_others {key : String} {after : Aggregator × List ReadyMetric}
    {keys : List String} (hkeyed : after.1.Keyed) (hkey : key ∉ keys) :
    view key (keys.foldl flush_stream after) = view key after := by
  induction keys generalizing after with
  | nil => rfl
  | cons other keys ih =>
    obtain ⟨hother, hrest⟩ := not_or.mp (mt List.mem_cons.mpr hkey)
    rw [List.foldl_cons, ih (Kept.flush ⟨hkeyed, rfl, rfl⟩ other).keyed hrest,
      view_flush_other (Ne.symm hother) hkeyed]

/-- Flushing some streams, each of them once, closes the window of each. -/
theorem Aggregator.view_flush_among {key : String} {after : Aggregator × List ReadyMetric}
    {keys : List String} (hkeyed : after.1.Keyed) (hnodup : keys.Nodup) (hkey : key ∈ keys)
    {st : StreamState} (hlookup : after.1.states.lookup key = some st) :
    view key (keys.foldl flush_stream after) = (⟨none, after.1.last_seq key + 1⟩,
      own_readings key after.2 ++ [st.ready after.1.agg_cbor (after.1.last_seq key + 1)]) := by
  induction keys generalizing after with
  | nil => cases hkey
  | cons other keys ih =>
    obtain ⟨hnew, hnodup⟩ := List.nodup_cons.mp hnodup
    obtain ⟨hkeyed', hcbor, -⟩ := Kept.flush ⟨hkeyed, rfl, rfl⟩ other
    rw [List.foldl_cons]
    by_cases hown : other = key
    · subst hown
      rw [view_flush_others hkeyed' hnew]
      exact view_flush_own hkeyed hlookup
    · have hsame := view_flush_other hown hkeyed
      obtain ⟨hstream, hready⟩ := Prod.mk.inj hsame
      obtain ⟨hwindow, hlast⟩ := Stream.mk.inj hstream
      rw [ih hkeyed' hnodup ((List.mem_cons.mp hkey).resolve_left (Ne.symm hown))
        (hwindow.trans hlookup), hlast, hready, hcbor]

/-- After some samples, each stream has taken its own. -/
theorem Aggregator.view_samples (key : String) {self : Aggregator} (hkeyed : self.Keyed) {feed : Feed}
    (hroomy : Roomy self feed) {done : List (MetricSample × Instant)} (hdone : done <+: feed.samples) :
    let after := done.foldl (ingest_sample feed.uptime_ms) (self, [])
    Kept self after.1 ∧ view key after = (own_samples key done).foldl
      (Stream.sample self.agg_duration feed.uptime_ms) (self.stream key, []) := by
  induction done using List.reverseRecOn with
  | nil => exact ⟨⟨hkeyed, rfl, rfl⟩, rfl⟩
  | append_singleton done s ih =>
    have hroom := hroomy _ ((List.mem_inits _ _).mpr hdone)
    rw [List.foldl_concat] at hroom
    obtain ⟨hkept, hview⟩ := ih ((List.prefix_append _ _).trans hdone)
    rw [List.foldl_concat]
    refine ⟨hkept.sample feed.uptime_ms s, ?_⟩
    rw [view_sample, hview, hkept.duration, own_samples, own_samples, List.filter_append]
    by_cases hown : sample_key s.1 = key <;> simp [hown, not_drops hroom]

theorem Aggregator.mem_expired {self : Aggregator} {duration : Duration} {now : Instant}
    {iteration : Iteration String} {key : String} : key ∈ self.expired duration now iteration ↔
      ∃ st, self.states.lookup key = some st ∧ duration ≤ now - st.window_start := by
  simp [expired, Iteration.mem_iter]

theorem Aggregator.nodup_expired (self : Aggregator) (duration : Duration) (now : Instant)
    (iteration : Iteration String) : (self.expired duration now iteration).Nodup :=
  (iteration.nodup_iter self.states).sublist ((List.filter_sublist).map Prod.fst)

/-- The flush at the end of a call closes a window when its own time has come. -/
theorem Aggregator.view_expired (key : String) {after : Aggregator × List ReadyMetric}
    (hkeyed : after.1.Keyed) (duration : Duration) (now : Instant) (iteration : Iteration String) :
    view key ((after.1.expired duration now iteration).foldl flush_stream after) =
      Stream.flush after.1.agg_cbor (some duration) now (view key after) := by
  have hnodup := after.1.nodup_expired duration now iteration
  cases hlookup : after.1.states.lookup key with
  | none =>
    have hkey : key ∉ after.1.expired duration now iteration := by
      rw [mem_expired, hlookup]
      rintro ⟨st, hst, -⟩
      cases hst
    rw [view_flush_others hkeyed hkey]
    simp only [Stream.flush, view, stream, hlookup]
  | some st =>
    by_cases helapsed : duration ≤ now - st.window_start
    · have hkey : key ∈ after.1.expired duration now iteration :=
        mem_expired.mpr ⟨st, hlookup, helapsed⟩
      rw [view_flush_among hkeyed hnodup hkey hlookup]
      simp only [Stream.flush, view, stream, hlookup, helapsed, if_true]
    · have hkey : key ∉ after.1.expired duration now iteration := by
        rw [mem_expired, hlookup]
        rintro ⟨st', hst, helapsed'⟩
        cases hst
        exact helapsed helapsed'
      rw [view_flush_others hkeyed hkey]
      simp only [Stream.flush, view, stream, hlookup, helapsed, if_false]

/-- A call is what each stream does by itself. -/
theorem Aggregator.view_ingest (key : String) {self : Aggregator} (hkeyed : self.Keyed) {feed : Feed}
    (hroomy : Roomy self feed) : view key (self.ingest feed) =
      (self.stream key).ingest self.agg_cbor self.agg_duration key feed := by
  obtain ⟨hkept, hview⟩ := view_samples key hkeyed hroomy (List.prefix_refl _)
  unfold ingest Stream.ingest
  rw [← hview]
  revert hkept
  generalize feed.samples.foldl (ingest_sample feed.uptime_ms) (self, []) = after
  intro hkept
  dsimp only
  rw [hkept.duration]
  cases self.agg_duration with
  | none => rfl
  | some duration =>
    rw [← hkept.cbor]
    exact view_expired key hkept.keyed duration feed.now feed.iteration

/-- Another call, as one stream sees it. -/
def Stream.call (agg_cbor : UInt8) (agg_duration : Option Duration) (key : String) :
    Stream × List ReadyMetric → Feed → Stream × List ReadyMetric
  | (self, ready), feed =>
    let (self, more) := self.ingest agg_cbor agg_duration key feed
    (self, ready ++ more)

/-- All that some calls have returned. -/
def returned (calls : List Call) : List ReadyMetric := calls.flatMap Call.ready

/-- Streams are independent: an aggregator with room for all of them is one accumulator for
each stream, which is fed the samples of its own and nothing else. Window, last number and
readings of a stream are those of its accumulator, whatever else is fed and in whichever order
the streams are met. -/
theorem streams_are_independent {c : Ciborium} {cfg : MetricsConfig} {dir dir' : fs.Fs}
    {agg : Aggregator} (hnew : Aggregator.new c cfg dir = .ok (agg, dir')) {feeds : List Feed}
    {t : History} (hrun : ingesting.Run (fun s feed => Roomy s.agg feed) ⟨agg, []⟩ feeds t) (key : String) :
    (t.agg.stream key, own_readings key (returned t.calls)) =
      feeds.foldl (Stream.call agg.agg_cbor agg.agg_duration key) (agg.stream key, []) := by
  have hstart : Kept agg agg := ⟨.of_empty (Aggregator.new_eq hnew).2.1, rfl, rfl⟩
  refine (hrun.history (P := fun past s => Kept agg s.agg ∧
    (s.agg.stream key, own_readings key (returned s.calls)) =
      past.foldl (Stream.call agg.agg_cbor agg.agg_duration key) (agg.stream key, []))
    ⟨hstart, rfl⟩ ?_).2
  rintro past s feed u ⟨hkept, hpast⟩ hroomy hstep
  cases hstep
  have hview := Aggregator.view_ingest key hkept.keyed hroomy
  rw [hkept.cbor, hkept.duration] at hview
  refine ⟨hkept.ingest feed, ?_⟩
  rw [List.foldl_concat, ← hpast, Stream.call, ← hview, returned, List.flatMap_append, own_readings,
    List.filter_append]
  simp [Aggregator.view, own_readings, returned]

theorem streams_are_independent_window : ∃ (feeds : List Feed) (agg : Aggregator) (dir : fs.Fs) (t : History),
    Aggregator.new .wire {} ⟨none, [], [], []⟩ = .ok (agg, dir) ∧
    own_readings "a" (returned t.calls) ≠ [] ∧
    (t.agg.stream "a", own_readings "a" (returned t.calls)) =
      feeds.foldl (Stream.call agg.agg_cbor agg.agg_duration "a") (agg.stream "a", []) := by
  have htest : (Aggregator.new .wire {} ⟨none, [], [], []⟩).toOption.any (fun new =>
      (ingesting.exec (fun s feed => Roomy s.agg feed) ⟨new.1, []⟩
        [feed_at 0 40 20, feed_at 60 30 (1 / 2), feed_at 70 10 11]).any (fun t =>
          own_readings "a" (returned t.calls) ≠ [])) = true := by
    rfl
  obtain ⟨⟨agg, dir⟩, hnew, htest⟩ := effect.exists_ok_of_any htest
  obtain ⟨t, hrun, htest⟩ := Machine.exists_run_of_exec _ htest
  exact ⟨_, agg, dir, t, hnew, of_decide_eq_true htest, streams_are_independent hnew hrun "a"⟩

/-- No stream can tell two aggregators, and what they have emitted, apart. -/
structure Alike (first second : Aggregator × List ReadyMetric) : Prop where
  keyed : first.1.Keyed
  kept : Kept first.1 second.1
  view : ∀ key, Aggregator.view key first = Aggregator.view key second

theorem Alike.open_streams {first second : Aggregator × List ReadyMetric} (halike : Alike first second) :
    first.1.open_streams = second.1.open_streams := by
  refine ((List.perm_ext_iff_of_nodup first.1.states.keys_nodup second.1.states.keys_nodup).mpr ?_).length_eq
  intro key
  have hlookup := (Stream.mk.inj (Prod.mk.inj (halike.view key)).1).1
  rw [← AList.mem_keys, ← AList.mem_keys, ← AList.lookup_isSome, ← AList.lookup_isSome, hlookup]

theorem Alike.sample {first second : Aggregator × List ReadyMetric} (halike : Alike first second)
    (uptime_ms : UInt64) (s : MetricSample × Instant) :
    Alike (Aggregator.ingest_sample uptime_ms first s) (Aggregator.ingest_sample uptime_ms second s) := by
  have hfirst := Kept.sample ⟨halike.keyed, rfl, rfl⟩ uptime_ms s
  have hsecond := halike.kept.sample uptime_ms s
  refine ⟨hfirst.keyed, ⟨hsecond.keyed, ?_, ?_⟩, ?_⟩
  · rw [hsecond.cbor, hfirst.cbor]
  · rw [hsecond.duration, hfirst.duration]
  · intro key
    have hlookup := (Stream.mk.inj (Prod.mk.inj (halike.view (Aggregator.sample_key s.1))).1).1
    have hdrops : first.1.Drops s.1 ↔ second.1.Drops s.1 := by
      unfold Aggregator.Drops Aggregator.immediate
      rw [hlookup, halike.open_streams, halike.kept.duration]
    rw [Aggregator.view_sample, Aggregator.view_sample, halike.view key, halike.kept.duration]
    simp only [hdrops]

theorem Alike.flush {first second : Aggregator × List ReadyMetric} (halike : Alike first second)
    (duration : Duration) (now : Instant) (iteration other : Iteration String) :
    Alike ((first.1.expired duration now iteration).foldl Aggregator.flush_stream first)
      ((second.1.expired duration now other).foldl Aggregator.flush_stream second) := by
  have hkept : ∀ (keys : List String) (before : Aggregator) (after : Aggregator × List ReadyMetric),
      Kept before after.1 → Kept before (keys.foldl Aggregator.flush_stream after).1 :=
    fun keys before after hafter => List.foldlRecOn _ _
      (motive := fun after : Aggregator × List ReadyMetric => Kept before after.1) hafter
      fun _ hafter key _ => hafter.flush key
  have hfirst := hkept (first.1.expired duration now iteration) first.1 first ⟨halike.keyed, rfl, rfl⟩
  have hsecond := hkept (second.1.expired duration now other) first.1 second halike.kept
  refine ⟨hfirst.keyed, ⟨hsecond.keyed, ?_, ?_⟩, ?_⟩
  · rw [hsecond.cbor, hfirst.cbor]
  · rw [hsecond.duration, hfirst.duration]
  · intro key
    rw [Aggregator.view_expired key halike.keyed, Aggregator.view_expired key halike.kept.keyed,
      halike.view key, halike.kept.cbor]

theorem Alike.ingest {first second : Aggregator} (halike : Alike (first, []) (second, [])) {feed other : Feed}
    (hsamples : other.samples = feed.samples) (huptime : other.uptime_ms = feed.uptime_ms)
    (hnow : other.now = feed.now) : Alike (first.ingest feed) (second.ingest other) := by
  have hfed : ∀ samples : List (MetricSample × Instant),
      Alike (samples.foldl (Aggregator.ingest_sample feed.uptime_ms) (first, []))
        (samples.foldl (Aggregator.ingest_sample feed.uptime_ms) (second, [])) := by
    intro samples
    induction samples using List.reverseRecOn with
    | nil => exact halike
    | append_singleton samples s ih =>
      rw [List.foldl_concat, List.foldl_concat]
      exact ih.sample feed.uptime_ms s
  have hfed := hfed feed.samples
  unfold Aggregator.ingest
  rw [hsamples, huptime, hnow]
  dsimp only
  rw [hfed.kept.duration]
  split
  · exact hfed.flush _ feed.now feed.iteration other.iteration
  · exact hfed

/-- The same readings of every stream are the same readings. -/
theorem perm_of_own_readings {ready other : List ReadyMetric}
    (hown : ∀ key, own_readings key ready = own_readings key other) : ready.Perm other := by
  rw [List.perm_iff_count]
  intro m
  have hcount : ∀ readings : List ReadyMetric,
      (own_readings m.key readings).count m = readings.count m := by
    intro readings
    exact List.count_filter (decide_eq_true rfl)
  rw [← hcount ready, ← hcount other, hown]

/-- A further call. -/
def History.call (self : History) (feed : Feed) : History where
  agg := (self.agg.ingest feed).1
  calls := self.calls ++ [⟨feed, (self.agg.ingest feed).2⟩]

theorem ingesting_run {allowed : History → Feed → Prop} {s t : History} {feeds : List Feed}
    (hrun : ingesting.Run allowed s feeds t) : t = feeds.foldl History.call s := by
  induction hrun with
  | nil => rfl
  | snoc _ _ hstep ih =>
    cases hstep
    rw [List.foldl_concat, ← ih]
    rfl

/-- Two calls with the same samples at the same time. -/
structure SameFeed (feed other : Feed) : Prop where
  samples : other.samples = feed.samples
  uptime_ms : other.uptime_ms = feed.uptime_ms
  now : other.now = feed.now

/-- Two calls that have returned the same readings, those of each stream in the same order. -/
structure SameReady (call other : Call) : Prop where
  perm : call.ready.Perm other.ready
  own : ∀ key, own_readings key call.ready = own_readings key other.ready

/-- The iteration order of the hash map is invisible: whatever has been fed, however many streams
there are, and in whichever order each call meets them, the calls return the same readings, the
readings of one stream in the same order and with the same numbers; and each stream is left
with the same window. -/
theorem iteration_order_is_invisible {c : Ciborium} {cfg : MetricsConfig} {dir dir' : fs.Fs}
    {agg : Aggregator} (hnew : Aggregator.new c cfg dir = .ok (agg, dir')) {feeds others : List Feed}
    (hsame : List.Forall₂ SameFeed feeds others) {t u : History}
    (ht : ingesting.Run (fun _ _ => True) ⟨agg, []⟩ feeds t)
    (hu : ingesting.Run (fun _ _ => True) ⟨agg, []⟩ others u) :
    List.Forall₂ SameReady t.calls u.calls ∧ ∀ key, t.agg.stream key = u.agg.stream key := by
  have hfolds : ∀ s v : History, Alike (s.agg, []) (v.agg, []) → List.Forall₂ SameReady s.calls v.calls →
      Alike ((feeds.foldl History.call s).agg, []) ((others.foldl History.call v).agg, []) ∧
        List.Forall₂ SameReady (feeds.foldl History.call s).calls (others.foldl History.call v).calls := by
    clear ht hu
    induction hsame with
    | nil => exact fun s v halike hcalls => ⟨halike, hcalls⟩
    | cons hfeed _ ih =>
      intro s v halike hcalls
      have hnext := halike.ingest hfeed.samples hfeed.uptime_ms hfeed.now
      have hown := fun key => (Prod.mk.inj (hnext.view key)).2
      refine ih _ _ ⟨hnext.keyed, hnext.kept, fun key => ?_⟩ ?_
      · exact Prod.ext (Prod.mk.inj (hnext.view key)).1 rfl
      · exact List.rel_append hcalls (.cons ⟨perm_of_own_readings hown, hown⟩ .nil)
  have hkeyed : agg.Keyed := .of_empty (Aggregator.new_eq hnew).2.1
  obtain ⟨halike, hcalls⟩ := hfolds ⟨agg, []⟩ ⟨agg, []⟩ ⟨hkeyed, ⟨hkeyed, rfl, rfl⟩, fun _ => rfl⟩ .nil
  rw [ingesting_run ht, ingesting_run hu]
  exact ⟨hcalls, fun key => (Prod.mk.inj (halike.view key)).1⟩

/-- Two gauges, a minute apart, whose streams are met in a given order. -/
def met_in (order : Iteration String) : List Feed :=
  [0, 60].map fun secs => {
    samples := [(⟨"a", .Int 1, [], false, false⟩, from_secs secs),
      (⟨"b", .Int 2, [], false, false⟩, from_secs secs)]
    uptime_ms := 0
    now := from_secs secs
    iteration := order }

theorem met_in_same (order other : Iteration String) :
    List.Forall₂ SameFeed (met_in order) (met_in other) :=
  .cons ⟨rfl, rfl, rfl⟩ (.cons ⟨rfl, rfl, rfl⟩ .nil)

theorem iteration_order_is_invisible_reversed : ∃ (agg : Aggregator) (dir : fs.Fs) (t u : History),
    Aggregator.new .wire {} ⟨none, [], [], []⟩ = .ok (agg, dir) ∧ returned t.calls ≠ returned u.calls ∧
    List.Forall₂ SameReady t.calls u.calls ∧ ∀ key, t.agg.stream key = u.agg.stream key := by
  have htest : (Aggregator.new .wire {} ⟨none, [], [], []⟩).toOption.any (fun new =>
      (ingesting.exec (fun _ _ => True) ⟨new.1, []⟩ (met_in ⟨id, fun keys => .refl keys⟩)).any fun t =>
        (ingesting.exec (fun _ _ => True) ⟨new.1, []⟩ (met_in ⟨List.reverse, List.reverse_perm⟩)).any
          fun u => returned t.calls ≠ returned u.calls) = true := by
    rfl
  obtain ⟨⟨agg, dir⟩, hnew, htest⟩ := effect.exists_ok_of_any htest
  obtain ⟨t, ht, htest⟩ := Machine.exists_run_of_exec _ htest
  obtain ⟨u, hu, htest⟩ := Machine.exists_run_of_exec _ htest
  exact ⟨agg, dir, t, u, hnew, of_decide_eq_true htest,
    iteration_order_is_invisible hnew (met_in_same _ _) ht hu⟩

end spotflowd.metrics.aggregator
