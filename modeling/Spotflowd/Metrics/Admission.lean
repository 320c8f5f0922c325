import Spotflowd.Metrics.Numbers
import Mathlib.Data.Finset.Union

namespace spotflowd.metrics.aggregator

namespace Aggregator

/-- The open windows: each stream with the instant at which its window started. -/
def windows (self : Aggregator) : List (String × Instant) :=
  self.states.entries.map fun entry => (entry.1, entry.2.window_start)

/-- A sample opens a window unless it is published at once, its stream has one already, or
`MAX_STREAMS` are open. -/
def open_window (self : Aggregator) (windows : List (String × Instant)) (s : MetricSample × Instant) :
    List (String × Instant) :=
  if self.immediate s.1 || windows.any (fun w => w.1 = sample_key s.1) ||
      MAX_STREAMS ≤ windows.length then windows
  else windows ++ [(sample_key s.1, s.2)]

/-- The windows that are open once the samples have been handled. -/
def opened (self : Aggregator) (samples : List (MetricSample × Instant)) : List (String × Instant) :=
  samples.foldl self.open_window self.windows

/-- The first entry of each stream. -/
def firsts : List (String × Instant) → List (String × Instant)
  | [] => []
  | w :: rest => w :: (firsts rest).filter fun v => v.1 ≠ w.1

/-- The streams that go through a window and have none yet, each with its first sample's instant. -/
def newcomers (self : Aggregator) (samples : List (MetricSample × Instant)) :
    List (String × Instant) :=
  firsts ((samples.filter fun s =>
    !self.immediate s.1 && (self.states.lookup (sample_key s.1)).isNone).map fun s =>
      (sample_key s.1, s.2))

/-- As many of them as there is room for. -/
def let_in (self : Aggregator) (samples : List (MetricSample × Instant)) : List (String × Instant) :=
  (self.newcomers samples).take (MAX_STREAMS - self.open_streams)

/-- The streams of the samples that are published at once. -/
def direct (self : Aggregator) (samples : List (MetricSample × Instant)) : List String :=
  (samples.filter fun s => self.immediate s.1).map fun s => sample_key s.1

/-- The windows that have elapsed at the end of a call. -/
def elapsed (self : Aggregator) (feed : Feed) : List (String × Instant) :=
  self.agg_duration.elim [] fun duration =>
    (self.opened feed.samples).filter fun w => duration ≤ feed.now - w.2

theorem windows_keys (self : Aggregator) : self.windows.map Prod.fst = self.states.keys := by
  rw [windows, List.map_map]
  rfl

theorem length_windows (self : Aggregator) : self.windows.length = self.open_streams := by
  rw [open_streams, ← windows_keys, List.length_map]

theorem any_windows (self : Aggregator) (key : String) :
    self.windows.any (fun w => w.1 = key) = (self.states.lookup key).isSome := by
  rw [Bool.eq_iff_iff, List.any_eq_true, AList.lookup_isSome, AList.mem_keys, ← windows_keys,
    List.mem_map]
  simp only [decide_eq_true_eq]

/-- A window that is updated stays where it is. -/
theorem windows_update {self after : Aggregator} {key : String} {st st' : StreamState}
    (hlookup : self.states.lookup key = some st) (hstart : st'.window_start = st.window_start)
    (hstates : after.states = self.states.insert key st') : after.windows.Perm self.windows := by
  have hperm := (HashMap.entries_perm_erase hlookup).map fun entry => (entry.1, entry.2.window_start)
  rw [List.map_cons, ← hstart] at hperm
  unfold windows
  rw [hstates, AList.entries_insert]
  exact hperm.symm

theorem windows_insert {self after : Aggregator} {key : String} {st : StreamState}
    (hlookup : self.states.lookup key = none) (hstates : after.states = self.states.insert key st) :
    after.windows.Perm (self.windows ++ [(key, st.window_start)]) := by
  unfold windows
  rw [hstates, AList.entries_insert_of_notMem (AList.lookup_eq_none.mp hlookup), List.map_cons]
  exact (List.perm_append_singleton _ _).symm

theorem mem_next_seq {self : Aggregator} {key key' : String} :
    key' ∈ (self.next_seq key).2.seq ↔ key' = key ∨ key' ∈ self.seq :=
  AList.mem_insert _

theorem direct_snoc (self : Aggregator) (samples : List (MetricSample × Instant))
    (s : MetricSample × Instant) : self.direct (samples ++ [s]) =
      self.direct samples ++ if self.immediate s.1 then [sample_key s.1] else [] := by
  rw [direct, List.filter_append, List.map_append]
  congr 1
  cases himmediate : self.immediate s.1 <;> simp [List.filter, himmediate]

/-- What the loop over the samples has done after some of them. -/
structure Admitted (before : Aggregator) (samples : List (MetricSample × Instant))
    (after : Aggregator × List ReadyMetric) : Prop where
  window : after.1.agg_duration = before.agg_duration
  opened : after.1.windows.Perm (before.opened samples)
  ready : after.2.length = (before.direct samples).length
  numbered : ∀ key, key ∈ after.1.seq ↔ key ∈ before.seq ∨ key ∈ before.direct samples

section Admitted

variable {before : Aggregator} {samples : List (MetricSample × Instant)}
  {after : Aggregator × List ReadyMetric} (hadmitted : Admitted before samples after)

include hadmitted

theorem Admitted.immediate (s : MetricSample) : before.immediate s = after.1.immediate s := by
  unfold Aggregator.immediate
  rw [hadmitted.window]

theorem Admitted.length_opened : (before.opened samples).length = after.1.open_streams := by
  rw [← after.1.length_windows, hadmitted.opened.length_eq]

/-- The streams with an open window are those that have opened one. -/
theorem Admitted.any_opened (key : String) :
    (before.opened samples).any (fun w => w.1 = key) = (after.1.states.lookup key).isSome := by
  rw [← hadmitted.opened.any_eq]
  exact after.1.any_windows key

/-- One more sample, in terms of the streams it finds open. -/
theorem Admitted.opened_snoc (s : MetricSample) (now : Instant) :
    before.opened (samples ++ [(s, now)]) =
      if after.1.immediate s || (after.1.states.lookup (sample_key s)).isSome ||
          MAX_STREAMS ≤ after.1.open_streams then before.opened samples
      else before.opened samples ++ [(sample_key s, now)] := by
  rw [Aggregator.opened, List.foldl_concat, open_window, hadmitted.immediate, ← hadmitted.any_opened,
    ← hadmitted.length_opened]
  rfl

end Admitted

theorem Admitted.sample {before : Aggregator} {samples : List (MetricSample × Instant)}
    {after : Aggregator × List ReadyMetric} (hadmitted : Admitted before samples after)
    (uptime_ms : UInt64) (s : MetricSample × Instant) :
    Admitted before (samples ++ [s]) (ingest_sample uptime_ms after s) := by
  obtain ⟨self, ready⟩ := after
  obtain ⟨s, now⟩ := s
  have himmediate : before.immediate s = self.immediate s := hadmitted.immediate s
  have hmore := hadmitted.opened_snoc s now
  obtain ⟨hwindow, hopened, hready, hnumbered⟩ := hadmitted
  dsimp only at hwindow hopened hready hnumbered hmore
  have hdirect := before.direct_snoc samples (s, now)
  rw [himmediate] at hdirect
  obtain ⟨hkind, h⟩ | ⟨hkind, st, hlookup, h⟩ | ⟨hkind, hlookup, hroom, h⟩ | ⟨hkind, hlookup, hfull, h⟩ :=
    ingest_sample_cases uptime_ms self ready s now
  all_goals simp only [hkind, if_true, Bool.false_eq_true, if_false, List.append_nil] at hdirect
  all_goals rw [h]
  · refine ⟨hwindow, ?_, ?_, ?_⟩
    · rw [hmore, hkind]
      exact hopened
    · rw [hdirect, List.length_append, List.length_append, hready, List.length_singleton,
        List.length_singleton]
    · intro key
      rw [mem_next_seq, hnumbered, hdirect, List.mem_append, List.mem_singleton]
      tauto
  · refine ⟨hwindow, ?_, hdirect ▸ hready, hdirect ▸ hnumbered⟩
    rw [hmore, hlookup, Option.isSome_some, Bool.or_true, Bool.true_or, if_pos rfl]
    exact (windows_update hlookup (by rfl) rfl).trans hopened
  · refine ⟨hwindow, ?_, hdirect ▸ hready, hdirect ▸ hnumbered⟩
    rw [hmore, hlookup, hkind, if_neg (by simp [hroom])]
    exact (windows_insert hlookup rfl).trans (hopened.append_right _)
  · refine ⟨hwindow, ?_, hdirect ▸ hready, hdirect ▸ hnumbered⟩
    rw [hmore, if_pos (by simp [hfull])]
    exact hopened

theorem admitted (self : Aggregator) (uptime_ms : UInt64) (samples : List (MetricSample × Instant)) :
    Admitted self samples (samples.foldl (ingest_sample uptime_ms) (self, [])) := by
  induction samples using List.reverseRecOn with
  | nil => exact ⟨rfl, List.Perm.refl _, rfl, fun key => by simp [direct]⟩
  | append_singleton samples s ih =>
    rw [List.foldl_concat]
    exact ih.sample uptime_ms s

/-- The streams that have an open window or a number. -/
def tracked (self : Aggregator) : Finset String := (self.states.keys ++ self.seq.keys).toFinset

theorem mem_tracked {self : Aggregator} {key : String} :
    key ∈ self.tracked ↔ key ∈ self.states ∨ key ∈ self.seq := by
  rw [tracked, List.mem_toFinset, List.mem_append, AList.mem_keys, AList.mem_keys]

/-- A stream that is flushed gives one reading, and keeps a number in place of its window. -/
theorem flush_all {keys : List String} (hdistinct : keys.Nodup) {self : Aggregator}
    (hopen : ∀ key ∈ keys, key ∈ self.states) (ready : List ReadyMetric) :
    (keys.foldl flush_stream (self, ready)).2.length = ready.length + keys.length ∧
      (keys.foldl flush_stream (self, ready)).1.tracked = self.tracked := by
  induction keys generalizing self ready with
  | nil => exact ⟨rfl, rfl⟩
  | cons key keys ih =>
    obtain ⟨hnew, hdistinct⟩ := List.nodup_cons.mp hdistinct
    obtain ⟨st, hlookup⟩ := Option.isSome_iff_exists.mp
      (AList.lookup_isSome.mpr (hopen key List.mem_cons_self))
    obtain ⟨hnone, -⟩ | ⟨st, -, h⟩ := flush_stream_cases self ready key
    · rw [hlookup] at hnone
      cases hnone
    rw [List.foldl_cons, h]
    have hrest : ∀ key' ∈ keys, key' ∈ self.states.erase key := by
      intro key' hmem
      refine AList.mem_erase.mpr ⟨?_, hopen key' (List.mem_cons_of_mem _ hmem)⟩
      rintro rfl
      exact hnew hmem
    obtain ⟨hlength, htracked⟩ := @ih hdistinct
      { (self.next_seq key).2 with states := self.states.erase key } hrest
      (ready ++ [st.ready self.agg_cbor (self.next_seq key).1])
    refine ⟨?_, ?_⟩
    · rw [hlength, List.length_append, List.length_singleton, List.length_cons]
      omega
    · rw [htracked]
      ext key'
      rw [mem_tracked, mem_tracked]
      have hkey : key ∈ self.states := hopen key List.mem_cons_self
      change key' ∈ self.states.erase key ∨ key' ∈ (self.next_seq key).2.seq ↔ _
      rw [AList.mem_erase, mem_next_seq]
      by_cases heq : key' = key
      · simp [heq, hkey]
      · simp [heq]

/-- The elapsed streams of an aggregator, each once, whatever the order of the iteration. -/
theorem expired_spec (self : Aggregator) (duration : Duration) (now : Instant)
    (iteration : Iteration String) :
    (self.expired duration now iteration).Nodup ∧
      (∀ key ∈ self.expired duration now iteration, key ∈ self.states) ∧
      (self.expired duration now iteration).length =
        (self.windows.filter fun w => duration ≤ now - w.2).length := by
  refine ⟨?_, ?_, ?_⟩
  · exact (iteration.nodup_iter self.states).sublist (List.filter_sublist.map _)
  · intro key hmem
    obtain ⟨⟨key, st⟩, hentry, rfl⟩ := List.mem_map.mp hmem
    have hlookup := Iteration.mem_iter.mp (List.mem_filter.mp hentry).1
    exact AList.lookup_isSome.mp (by rw [hlookup]; rfl)
  · have hperm := (iteration.iter_perm self.states).filter
      fun stream => decide (duration ≤ now - stream.2.window_start)
    rw [expired, List.length_map, hperm.length_eq, windows, List.filter_map, List.filter_map,
      List.length_map, List.length_map]
    rfl

/-- What a call of `ingest` returns and leaves, in terms of the windows it opens: one reading for
each sample that is published at once and for each elapsed window, and nothing but these
streams is added to those tracked. -/
theorem ingest_admitted (self : Aggregator) (feed : Feed) :
    (self.ingest feed).2.length = (self.direct feed.samples).length + (self.elapsed feed).length ∧
      (self.ingest feed).1.tracked = (self.seq.keys ++ self.direct feed.samples ++
        (self.opened feed.samples).map Prod.fst).toFinset := by
  obtain ⟨hwindow, hopened, hready, hnumbered⟩ := self.admitted feed.uptime_ms feed.samples
  have htracked : (feed.samples.foldl (ingest_sample feed.uptime_ms) (self, [])).1.tracked =
      (self.seq.keys ++ self.direct feed.samples ++
        (self.opened feed.samples).map Prod.fst).toFinset := by
    ext key
    rw [mem_tracked, hnumbered, AList.mem_keys, ← windows_keys, (hopened.map Prod.fst).mem_iff]
    simp only [List.mem_toFinset, List.mem_append, AList.mem_keys]
    tauto
  unfold ingest elapsed
  rw [← hwindow]
  revert hopened hready htracked
  generalize feed.samples.foldl (ingest_sample feed.uptime_ms) (self, []) = after
  obtain ⟨after, ready⟩ := after
  intro hopened hready htracked
  dsimp only at hopened hready htracked ⊢
  cases after.agg_duration with
  | none => exact ⟨hready, htracked⟩
  | some duration =>
    obtain ⟨hdistinct, hopen, hlength⟩ := after.expired_spec duration feed.now feed.iteration
    obtain ⟨hflushed, hkept⟩ := flush_all hdistinct hopen ready
    refine ⟨?_, hkept.trans htracked⟩
    rw [Option.elim_some, hflushed, hready, hlength, (hopened.filter _).length_eq]

theorem any_firsts (key : String) (ws : List (String × Instant)) :
    (firsts ws).any (fun w => w.1 = key) = ws.any fun w => w.1 = key := by
  induction ws with
  | nil => rfl
  | cons w ws ih =>
    rw [firsts, List.any_cons, List.any_cons, ← ih, List.any_filter]
    by_cases hkey : w.1 = key
    · simp [hkey]
    · have hother : ∀ v : String × Instant, (decide (v.1 ≠ w.1) && decide (v.1 = key)) = decide (v.1 = key) := by
        intro v
        by_cases hv : v.1 = key <;> simp [hv, Ne.symm hkey]
      simp only [hother]

theorem firsts_snoc (ws : List (String × Instant)) (w : String × Instant) :
    firsts (ws ++ [w]) = firsts ws ++ if ws.any (fun v => v.1 = w.1) then [] else [w] := by
  induction ws with
  | nil => rfl
  | cons v ws ih =>
    rw [List.cons_append, firsts, ih, List.filter_append, firsts, List.any_cons, List.cons_append]
    by_cases hkey : v.1 = w.1
    · have hdropped : (if ws.any (fun u => u.1 = w.1) then [] else [w]).filter
          (fun u => u.1 ≠ v.1) = [] := by
        split <;> simp [hkey]
      rw [hdropped, decide_eq_true hkey, Bool.true_or, if_pos rfl]
    · have hkept : (if ws.any (fun u => u.1 = w.1) then [] else [w]).filter
          (fun u => u.1 ≠ v.1) = if ws.any (fun u => u.1 = w.1) then [] else [w] := by
        split <;> simp [Ne.symm hkey]
      rw [hkept, decide_eq_false hkey, Bool.false_or]

/-- A sample adds its stream unless it is published at once, or its stream has a window or has come
up before. -/
theorem newcomers_snoc (self : Aggregator) (samples : List (MetricSample × Instant))
    (s : MetricSample × Instant) :
    self.newcomers (samples ++ [s]) = self.newcomers samples ++
      if self.immediate s.1 || (self.states.lookup (sample_key s.1)).isSome ||
          (self.newcomers samples).any (fun w => w.1 = sample_key s.1) then []
      else [(sample_key s.1, s.2)] := by
  unfold newcomers
  rw [List.filter_append, List.map_append, any_firsts]
  cases himmediate : self.immediate s.1 with
  | true => simp [himmediate]
  | false =>
    cases hopen : self.states.lookup (sample_key s.1) with
    | some st => simp [himmediate, hopen]
    | none =>
      rw [List.filter_singleton, himmediate, hopen]
      simp only [Bool.not_false, Option.isNone_none, Bool.and_self, Bool.false_or, Option.isSome_none]
      exact firsts_snoc _ _

/-- The streams that have a window after the samples are those that had one and those let in. -/
theorem opened_eq (self : Aggregator) (samples : List (MetricSample × Instant)) :
    self.opened samples = self.windows ++ self.let_in samples := by
  induction samples using List.reverseRecOn with
  | nil => simp [opened, let_in, newcomers, firsts]
  | append_singleton samples s ih =>
    rw [opened, List.foldl_concat]
    change self.open_window (self.opened samples) s = _
    rw [ih, open_window, List.any_append, any_windows, List.length_append, length_windows]
    unfold let_in
    rw [newcomers_snoc]
    generalize self.newcomers samples = found
    cases self.immediate s.1 with
    | true => simp
    | false =>
      cases (self.states.lookup (sample_key s.1)).isSome with
      | true => simp
      | false =>
        simp only [Bool.false_or]
        cases hfound : found.any (fun w => w.1 = sample_key s.1) with
        | true =>
          -- let in already, or as many have been as there is room for
          rw [if_pos rfl, List.append_nil]
          split
          · rfl
          · next hout =>
            rw [Bool.not_eq_true, Bool.or_eq_false_iff, decide_eq_false_iff_not, List.length_take]
              at hout
            have hall : found.take (MAX_STREAMS - self.open_streams) = found :=
              List.take_of_length_le (by omega)
            rw [hall, hfound] at hout
            cases hout.1
        | false =>
          have hnone : (found.take (MAX_STREAMS - self.open_streams)).any
              (fun w => w.1 = sample_key s.1) = false := by
            rw [List.any_eq_false] at hfound ⊢
            exact fun w hw => hfound w (List.mem_of_mem_take hw)
          rw [hnone, Bool.false_or, List.length_take]
          simp only [decide_eq_true_eq, Bool.false_eq_true, if_false]
          by_cases hroom : found.length < MAX_STREAMS - self.open_streams
          · rw [if_neg (by omega), List.take_of_length_le hroom.le, List.append_assoc,
              List.take_of_length_le (by rw [List.length_append, List.length_singleton]; exact hroom)]
          · rw [if_pos (by omega), List.take_append_of_le_length (not_lt.mp hroom)]

end Aggregator

end spotflowd.metrics.aggregator
