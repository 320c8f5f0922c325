import Spotflowd.Metrics.Numbers

open spotflowd.metrics.aggregator

namespace spotflowd.metrics.aggregator

/-- A sample touches the window and the counter of its own key only. -/
theorem Aggregator.ingest_sample_other {key : String} {s : MetricSample}
    (hkey : key ≠ sample_key s) (uptime_ms : UInt64) (self : Aggregator) (ready : List ReadyMetric)
    (now : Instant) :
    (ingest_sample uptime_ms (self, ready) (s, now)).1.states.lookup key = self.states.lookup key ∧
      (ingest_sample uptime_ms (self, ready) (s, now)).1.last_seq key = self.last_seq key := by
  obtain ⟨-, h⟩ | ⟨-, st, -, h⟩ | ⟨-, -, -, h⟩ | ⟨-, -, -, h⟩ :=
    ingest_sample_cases uptime_ms self ready s now
  all_goals rw [h]
  · exact ⟨rfl, by rw [next_seq_last_seq, if_neg hkey]⟩
  · exact ⟨AList.lookup_insert_ne hkey, rfl⟩
  · exact ⟨AList.lookup_insert_ne hkey, rfl⟩
  · exact ⟨rfl, rfl⟩

/-- A stream without labels whose name is not divisible is the only one with its key, and there
is no other such stream. -/
theorem unique_key_iff {name : String} {labels : Labels} :
    (∀ other others, Distinct others →
      (stream_key name labels = stream_key other others ↔ name = other ∧ others.Perm labels)) ↔
      labels = [] ∧ ¬ Divisible name := by
  constructor
  · intro hunique
    have hlabels : labels = [] := by
      have hkey := (hunique (stream_key name labels) [] List.nodup_nil).mp rfl
      exact hkey.2.nil_eq.symm
    subst hlabels
    refine ⟨rfl, ?_⟩
    intro hdivisible
    obtain ⟨other, label, hkey⟩ := hdivisible.collides
    have hsame := (hunique other [label] (List.nodup_singleton _)).mp hkey.symm
    exact absurd hsame.2.eq_nil (List.cons_ne_nil _ _)
  · rintro ⟨rfl, hdivisible⟩ other others _
    rw [stream_key_nil]
    constructor
    · rintro rfl
      cases others with
      | nil => exact ⟨rfl, .refl _⟩
      | cons label others =>
        exact absurd (divisible_stream_key other (List.cons_ne_nil label others)) hdivisible
    · rintro ⟨rfl, hperm⟩
      rw [hperm.eq_nil, stream_key_nil]

/-- A stream shares its key with no other exactly when it has no labels and its name is not
divisible. Streams free of separators are told apart among themselves; a sample of one leaves
the window and the counter of another as they were. -/
theorem stream_identity {name : String} {labels : Labels} (hdistinct : Distinct labels) :
    ((∀ other others, Distinct others →
      (stream_key name labels = stream_key other others ↔ name = other ∧ others.Perm labels)) ↔
        labels = [] ∧ ¬ Divisible name) ∧
    (Clean name labels → ∀ other others, Clean other others →
      (stream_key name labels = stream_key other others ↔ name = other ∧ others.Perm labels)) ∧
    (Clean name labels → ∀ s : MetricSample, Clean s.name s.labels →
      ¬ (name = s.name ∧ s.labels.Perm labels) → ∀ uptime_ms self ready now,
        (Aggregator.ingest_sample uptime_ms (self, ready) (s, now)).1.states.lookup
            (stream_key name labels) = self.states.lookup (stream_key name labels) ∧
          (Aggregator.ingest_sample uptime_ms (self, ready) (s, now)).1.last_seq
            (stream_key name labels) = self.last_seq (stream_key name labels)) := by
  refine ⟨unique_key_iff, ?_, ?_⟩
  · intro hclean other others hclean'
    constructor
    · exact hclean.same_stream hclean'
    · rintro ⟨rfl, hperm⟩
      exact stream_key_perm hdistinct hperm
  · intro hclean s hclean' hother uptime_ms self ready now
    apply Aggregator.ingest_sample_other
    exact fun hkey => hother (hclean.same_stream hclean' hkey)

theorem stream_identity_labelled :
    stream_key "latency" [("worker", "a"), ("host", "b")] =
      stream_key "latency" [("host", "b"), ("worker", "a")] ∧
    stream_key "latency" [("worker", "a"), ("host", "b")] ≠
      stream_key "latency" [("host", "b=c"), ("worker", "a")] := by
  have hidentity := (@stream_identity "latency" [("worker", "a"), ("host", "b")] (by decide)).2.1
    (by decide)
  constructor
  · exact (hidentity _ _ (by decide)).mpr ⟨rfl, List.Perm.swap _ _ _⟩
  · intro hkey
    have hsame := (hidentity _ _ (by decide)).mp hkey
    exact absurd (hsame.2.mem_iff (a := ("host", "b=c"))) (by decide)

def gauge_of (labels : Labels) : MetricSample where
  name := "x"
  value := .Int 1
  labels := labels
  counter := false
  raw := false

/-- A label value with separators makes one stream look like another, and `ingest` adds their
samples up in one window. -/
theorem separators_merge_streams :
    Distinct [("a", "1|b=2")] ∧ Distinct [("a", "1"), ("b", "2")] ∧
    ¬ (stream_key "x" [("a", "1|b=2")] = stream_key "x" [("a", "1"), ("b", "2")] ↔
      "x" = "x" ∧ [("a", "1"), ("b", "2")].Perm [("a", "1|b=2")]) ∧
    (((⟨AGG_1MIN, some (from_secs 60), ∅, ∅⟩ : Aggregator).ingest {
      samples := [(gauge_of [("a", "1|b=2")], 0), (gauge_of [("a", "1"), ("b", "2")], 0)]
      uptime_ms := 0
      now := 0
      iteration := ⟨id, fun keys => .refl keys⟩ }).1.states.entries.map fun st => st.2.count) = [2] := by
  decide

end spotflowd.metrics.aggregator
