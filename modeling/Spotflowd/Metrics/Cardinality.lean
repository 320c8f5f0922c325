import Spotflowd.Lib.Machine
import Spotflowd.Metrics.Admission
import Mathlib.Data.Finset.Card

open spotflowd.config

namespace spotflowd.metrics.aggregator

/-- A call of the aggregator from outside. -/
inductive AggregatorCall where
  | ingest (feed : Feed)
  | next_seq (key : String)

def calls : Machine Aggregator AggregatorCall where
  step self
    | .ingest feed => some (self.ingest feed).1
    | .next_seq key => some (self.next_seq key).2

/-- The streams a call brings: those of the samples published at once, and of those that go through
a window and have none the first ones, as many as there is room for; or the one whose number
is drawn. -/
def brought (self : Aggregator) : AggregatorCall → List String
  | .ingest feed => self.direct feed.samples ++ (self.let_in feed.samples).map Prod.fst
  | .next_seq key => [key]

/-- The number of streams besides the uptime. -/
def cardinality (streams : Finset String) : Nat := (streams.erase "uptime_ms").card

/-- The call brings no more new streams than are missing to `MAX_STREAMS`. -/
def Limited (self : Aggregator) (call : AggregatorCall) : Prop :=
  cardinality ((brought self call).toFinset \ self.tracked) ≤ MAX_STREAMS - cardinality self.tracked

instance (self : Aggregator) (call : AggregatorCall) : Decidable (Limited self call) :=
  inferInstanceAs (Decidable (_ ≤ _))

/-- A call adds its streams to those tracked, and none ever leaves. -/
theorem tracked_step {self after : Aggregator} {call : AggregatorCall}
    (hstep : calls.step self call = some after) :
    after.tracked = self.tracked ∪ (brought self call).toFinset := by
  cases call with
  | ingest feed =>
    cases hstep
    rw [(self.ingest_admitted feed).2, self.opened_eq, List.map_append, Aggregator.windows_keys]
    ext key
    simp only [brought, Finset.mem_union, Aggregator.mem_tracked, List.mem_toFinset,
      List.mem_append, ← AList.mem_keys]
    tauto
  | next_seq key =>
    cases hstep
    ext key'
    simp only [brought, Finset.mem_union, Aggregator.mem_tracked, List.mem_toFinset,
      List.mem_singleton, Aggregator.mem_next_seq]
    change key' ∈ self.states ∨ _ ↔ _
    tauto

/-- New streams are counted on top. -/
theorem cardinality_union (streams more : Finset String) :
    cardinality (streams ∪ more) = cardinality streams + cardinality (more \ streams) := by
  have hdisjoint : Disjoint (streams.erase "uptime_ms") ((more \ streams).erase "uptime_ms") :=
    Finset.disjoint_sdiff.mono (Finset.erase_subset _ _) (Finset.erase_subset _ _)
  unfold cardinality
  rw [← Finset.union_sdiff_self_eq_union, Finset.erase_union_distrib,
    Finset.card_union_of_disjoint hdisjoint]

/-- The streams tracked after a call are few enough exactly when those before it were and the call is
limited. -/
theorem cardinality_step_iff {self after : Aggregator} {call : AggregatorCall}
    (hstep : calls.step self call = some after) :
    cardinality after.tracked ≤ MAX_STREAMS ↔
      cardinality self.tracked ≤ MAX_STREAMS ∧ Limited self call := by
  rw [tracked_step hstep, cardinality_union, Limited]
  omega

/-- A new aggregator tracks the streams of the loaded map. -/
theorem cardinality_new {c : Ciborium} {cfg : MetricsConfig} {dir dir' : fs.Fs} {agg : Aggregator}
    (hnew : Aggregator.new c cfg dir = .ok (agg, dir')) :
    cardinality agg.tracked ≤ agg.seq.keys.length := by
  obtain ⟨-, hstates, -⟩ := Aggregator.new_eq hnew
  refine Finset.card_erase_le.trans ?_
  rw [Aggregator.tracked, hstates]
  exact List.toFinset_card_le _

/-- The streams tracked after a run are at most `MAX_STREAMS`, the uptime apart, if and only if no
call brings more new streams than are missing to that. As none ever leaves, the bound at the end
is a bound throughout. -/
theorem tracked_streams_are_limited_iff {c : Ciborium} {cfg : MetricsConfig} {dir dir' : fs.Fs}
    {agg after : Aggregator} (hnew : Aggregator.new c cfg dir = .ok (agg, dir'))
    (hloaded : agg.seq.keys.length ≤ MAX_STREAMS) {events : List AggregatorCall}
    (hrun : calls.Run (fun _ _ => True) agg events after) :
    cardinality after.tracked ≤ MAX_STREAMS ↔ calls.Run Limited agg events after := by
  constructor
  · intro hbound
    induction hrun with
    | nil => exact .nil _
    | snoc _ _ hstep ih =>
      obtain ⟨hbefore, hlimited⟩ := (cardinality_step_iff hstep).mp hbound
      exact .snoc (ih hbefore) hlimited hstep
  · intro hlimited
    have hstart := (cardinality_new hnew).trans hloaded
    exact hlimited.invariant (P := fun self => cardinality self.tracked ≤ MAX_STREAMS) hstart
      fun _ _ _ hbefore hcall hstep => (cardinality_step_iff hstep).mpr ⟨hbefore, hcall⟩

/-- Gauges without labels, each with a name of its own. -/
def flood (n : Nat) : Feed where
  samples := (List.range n).map fun i =>
    (⟨String.ofList (List.replicate i 'a'), .Int 1, [], false, false⟩, 0)
  uptime_ms := 0
  now := 0
  iteration := ⟨id, fun keys => .refl keys⟩

theorem tracked_streams_are_limited_few : ∃ agg dir' after,
    Aggregator.new .wire {} ⟨none, [], [], []⟩ = .ok (agg, dir') ∧
    agg.seq.keys.length ≤ MAX_STREAMS ∧
    calls.Run (fun _ _ => True) agg [.ingest (flood 3), .next_seq "uptime_ms"] after ∧
    (cardinality after.tracked ≤ MAX_STREAMS ↔
      calls.Run Limited agg [.ingest (flood 3), .next_seq "uptime_ms"] after) := by
  have htest : (Aggregator.new .wire {} ⟨none, [], [], []⟩).toOption.any (fun new =>
      new.1.seq.keys.length ≤ MAX_STREAMS ∧ (calls.exec (fun _ _ => True) new.1
        [.ingest (flood 3), .next_seq "uptime_ms"]).any (fun _ => true)) = true := by
    rfl
  obtain ⟨⟨agg, dir'⟩, hnew, htest⟩ := effect.exists_ok_of_any htest
  obtain ⟨hloaded, htest⟩ := of_decide_eq_true htest
  obtain ⟨after, hrun, -⟩ := Machine.exists_run_of_exec _ htest
  exact ⟨agg, dir', after, hnew, hloaded, hrun, tracked_streams_are_limited_iff hnew hloaded hrun⟩

theorem flood_names_injective :
    Function.Injective fun i => String.ofList (List.replicate i 'a') := by
  intro i j heq
  have hlist := congrArg (fun name => name.toList.length) heq
  simpa using hlist

theorem mem_direct_flood {n i : Nat} (hi : i < n) {self : Aggregator}
    (hnone : self.agg_duration.isNone = true) :
    String.ofList (List.replicate i 'a') ∈ self.direct (flood n).samples := by
  unfold Aggregator.direct flood
  refine List.mem_map.mpr
    ⟨(⟨String.ofList (List.replicate i 'a'), .Int 1, [], false, false⟩, 0), ?_, rfl⟩
  refine List.mem_filter.mpr ⟨List.mem_map.mpr ⟨i, List.mem_range.mpr hi, rfl⟩, ?_⟩
  simp [Aggregator.immediate, hnone]

/-- A call with more than `MAX_STREAMS` gauges and no aggregation gives every one of them a
number. -/
theorem numbers_are_not_limited : ∃ agg dir' after,
    Aggregator.new .wire { aggregation_interval := "none" } ⟨none, [], [], []⟩ = .ok (agg, dir') ∧
    agg.seq.keys.length ≤ MAX_STREAMS ∧
    calls.Run (fun _ _ => True) agg [.ingest (flood (MAX_STREAMS + 1))] after ∧
    MAX_STREAMS < cardinality after.tracked := by
  refine ⟨⟨AGG_NONE, none, ∅, ∅⟩, ⟨none, [], [], []⟩, _, rfl, by decide,
    .single trivial rfl, ?_⟩
  have hsub : (Finset.range (MAX_STREAMS + 1)).image (fun i => String.ofList (List.replicate i 'a')) ⊆
      (Aggregator.ingest ⟨AGG_NONE, none, ∅, ∅⟩ (flood (MAX_STREAMS + 1))).1.tracked.erase "uptime_ms" := by
    intro name hname
    obtain ⟨i, hi, rfl⟩ := Finset.mem_image.mp hname
    rw [Finset.mem_erase, (Aggregator.ingest_admitted _ _).2, List.mem_toFinset]
    refine ⟨?_, ?_⟩
    · intro heq
      have hu : 'u' ∈ (String.ofList (List.replicate i 'a')).toList := by
        rw [heq]
        decide
      rw [String.toList_ofList] at hu
      exact absurd (List.eq_of_mem_replicate hu) (by decide)
    · refine List.mem_append_left _ (List.mem_append_right _ ?_)
      exact mem_direct_flood (Finset.mem_range.mp hi) rfl
  have hcard := Finset.card_le_card hsub
  rw [Finset.card_image_of_injective _ flood_names_injective, Finset.card_range] at hcard
  exact hcard

end spotflowd.metrics.aggregator
