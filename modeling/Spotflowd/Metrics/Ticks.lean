import Spotflowd.Metrics.Numbers
import Spotflowd.Metrics.Run

open effect fs
open spotflowd.config spotflowd.mqtt
open spotflowd.metrics.aggregator spotflowd.metrics.publisher

namespace spotflowd.metrics

/-- The readings of a tick carry the numbers that follow the last ones of their streams. -/
theorem readings_issued (cfg : MetricsConfig) {agg : Aggregator} (hkeyed : agg.Keyed) (feed : Feed) :
    Issues agg (readings cfg agg feed).2 (readings cfg agg feed).1 ∧
      (readings cfg agg feed).1.Keyed ∧
      (readings cfg agg feed).2.length ≤ agg.open_streams + feed.samples.length + 1 := by
  obtain ⟨hissues, hkeyed, hsize⟩ := Aggregator.ingest_progress hkeyed feed
  unfold readings
  dsimp only
  split
  · refine ⟨hissues.trans (Issues.next _ (m := uptime_reading feed.uptime_ms _) rfl), hkeyed, ?_⟩
    rw [List.length_append, List.length_singleton]
    omega
  · exact ⟨hissues, hkeyed, by dsimp only; omega⟩

theorem capped_sublist (pending : List ReadyMetric) : (capped pending).Sublist pending := by
  unfold capped
  split
  · exact List.drop_sublist _ _
  · exact List.Sublist.refl _

namespace Runner

/-- What a tick does with the pending readings: nothing, or the client has taken a first part of
them, or all. -/
theorem publish_cases (c : Ciborium) (tick : Tick) (self : Runner) :
    self.publish c tick = self ∨
    (∃ sent client, sent <+: self.pending ∧ self.publish c tick = { self with
      outbox := { client := client, accepted := self.outbox.accepted ++ sent }
      attempts := self.attempts ++ [.publish sent.length false] }) ∨
    (∃ client, self.pending ≠ [] ∧ self.publish c tick = { self with
      outbox := { client := client, accepted := self.outbox.accepted ++ self.pending }
      attempts := self.attempts ++ [Attempt.publish self.pending.length true] }.published c tick) := by
  unfold publish
  dsimp only
  split
  · exact Or.inl rfl
  · next hoffered =>
    obtain ⟨sent, hsent, haccepted, hall⟩ := publish_metrics_accepted c self.pending
      ⟨{ self.outbox.client with connected := tick.connected, outcomes := tick.outcomes },
        self.outbox.accepted⟩
    split
    · next outbox hok =>
      rw [hok, finalState_ok, hall _ hok] at haccepted
      refine Or.inr (Or.inr ⟨outbox.client, ?_, by rw [← haccepted]⟩)
      rintro hpending
      simp [hpending] at hoffered
    · next outbox herror =>
      rw [herror, finalState_error] at haccepted
      refine Or.inr (Or.inl ⟨sent, outbox.client, hsent, ?_⟩)
      dsimp only at haccepted
      have hmore : outbox.accepted.length - self.outbox.accepted.length = sent.length := by
        rw [haccepted, List.length_append, Nat.add_sub_cancel_left]
      rw [hmore, ← haccepted]

/-- After the client has taken all pending readings, the numbers are saved if that is due. -/
theorem published_cases (c : Ciborium) (tick : Tick) (self : Runner) :
    self.published c tick = { self with pending := [], seq_dirty := true } ∨
    (∃ fs, self.agg.save_seq c tick.saving { self.fs with verdicts := tick.verdicts } = .ok () fs ∧
      self.published c tick = { self with
        pending := []
        seq_dirty := false
        last_seq_save := tick.saved_at
        fs := fs
        attempts := self.attempts ++ [.save true] }) ∨
    (∃ fs, self.published c tick = { self with
        pending := []
        seq_dirty := false
        last_seq_save := tick.saved_at
        fs := fs
        attempts := self.attempts ++ [.save false] }) := by
  unfold published save_seq
  dsimp only
  split
  · cases self.agg.save_seq c tick.saving { self.fs with verdicts := tick.verdicts } with
    | ok _ fs => exact Or.inr (Or.inl ⟨fs, rfl, rfl⟩)
    | error e fs => exact Or.inr (Or.inr ⟨fs, rfl⟩)
  · exact Or.inl rfl

theorem published_keeps (c : Ciborium) (tick : Tick) (self : Runner) :
    (self.published c tick).agg = self.agg ∧ (self.published c tick).emitted = self.emitted ∧
      (self.published c tick).stopped = self.stopped := by
  obtain h | ⟨fs, -, h⟩ | ⟨fs, h⟩ := self.published_cases c tick
  all_goals rw [h]; exact ⟨rfl, rfl, rfl⟩

theorem publish_keeps (c : Ciborium) (tick : Tick) (self : Runner) :
    (self.publish c tick).agg = self.agg ∧ (self.publish c tick).emitted = self.emitted ∧
      (self.publish c tick).stopped = self.stopped := by
  obtain h | ⟨sent, client, -, h⟩ | ⟨client, -, h⟩ := self.publish_cases c tick
  · rw [h]
    exact ⟨rfl, rfl, rfl⟩
  · rw [h]
    exact ⟨rfl, rfl, rfl⟩
  · rw [h]
    exact published_keeps c tick _

theorem publish_offline (c : Ciborium) {tick : Tick} (hoffline : tick.connected = false)
    (self : Runner) : self.publish c tick = self := by
  unfold publish MqttPublisher.is_connected
  rw [if_pos (by simp [hoffline])]

theorem published_hands (c : Ciborium) (tick : Tick) (self : Runner) :
    (self.published c tick).outbox = self.outbox ∧ (self.published c tick).pending = [] := by
  obtain h | ⟨fs, -, h⟩ | ⟨fs, h⟩ := self.published_cases c tick
  all_goals rw [h]; exact ⟨rfl, rfl⟩

/-- A connected client takes the pending readings up to the first failure; they stay pending
unless there is none. -/
theorem publish_online (c : Ciborium) {tick : Tick} (honline : tick.connected = true)
    (self : Runner) :
    (first_failure c tick.outcomes self.pending = none ∧
      (self.publish c tick).outbox.accepted = self.outbox.accepted ++ self.pending ∧
      (self.publish c tick).pending = []) ∨
    (∃ k, first_failure c tick.outcomes self.pending = some k ∧ k < self.pending.length ∧
      (self.publish c tick).outbox.accepted = self.outbox.accepted ++ self.pending.take k ∧
      (self.publish c tick).pending = self.pending) := by
  unfold publish MqttPublisher.is_connected
  cases hpending : self.pending with
  | nil =>
    refine Or.inl ⟨rfl, ?_⟩
    rw [if_pos (by simp)]
    exact ⟨(List.append_nil _).symm, hpending⟩
  | cons m rest =>
    rw [if_neg (by simp [honline]), ← hpending]
    obtain ⟨hnone, after, hok, haccepted⟩ | ⟨k, e, after, hsome, hk, herror, haccepted⟩ :=
      publish_metrics_outcome c self.pending
        ⟨{ self.outbox.client with connected := tick.connected, outcomes := tick.outcomes },
          self.outbox.accepted⟩
    · simp only [hok]
      obtain ⟨houtbox, hempty⟩ := published_hands c tick { self with
        outbox := after
        attempts := self.attempts ++ [.publish self.pending.length true] }
      exact Or.inl ⟨hnone, by rw [houtbox]; exact haccepted, hempty⟩
    · simp only [herror]
      exact Or.inr ⟨k, hsome, hk, haccepted, trivial⟩

theorem save_seq_keeps (c : Ciborium) (iteration : Iteration String) (verdicts : List Verdict)
    (self : Runner) :
    (self.save_seq c iteration verdicts).agg = self.agg ∧
      (self.save_seq c iteration verdicts).emitted = self.emitted ∧
      (self.save_seq c iteration verdicts).outbox = self.outbox ∧
      (self.save_seq c iteration verdicts).pending = self.pending := by
  unfold save_seq
  split <;> exact ⟨rfl, rfl, rfl, rfl⟩

/-- The shutdown saves the numbers or not, and nothing else. -/
theorem shutdown_keeps (c : Ciborium) (iteration : Iteration String) (verdicts : List Verdict)
    (self : Runner) :
    (self.shutdown c iteration verdicts).agg = self.agg ∧
      (self.shutdown c iteration verdicts).emitted = self.emitted ∧
      (self.shutdown c iteration verdicts).outbox = self.outbox ∧
      (self.shutdown c iteration verdicts).pending = self.pending := by
  unfold shutdown
  split
  · exact self.save_seq_keeps c iteration verdicts
  · exact ⟨rfl, rfl, rfl, rfl⟩

/-- A run starts from what the sequence file says. -/
theorem new_eq {c : Ciborium} {cfg : MetricsConfig} {publisher : MqttPublisher} {fs : Fs}
    {now : Instant} {s : Runner} (hnew : Runner.new c cfg publisher fs now = .ok s) :
    s.agg.states = ∅ ∧ s.agg.seq = (load_seq c fs).1 ∧ s.pending = [] ∧ s.emitted = [] ∧
      s.outbox.accepted = [] ∧ s.stopped = false := by
  unfold new at hnew
  cases hagg : Aggregator.new c cfg fs with
  | error e =>
    rw [hagg] at hnew
    cases hnew
  | ok found =>
    rw [hagg] at hnew
    cases hnew
    obtain ⟨-, hstates, hseq⟩ := Aggregator.new_eq hagg
    exact ⟨hstates, hseq, rfl, rfl, rfl, rfl⟩

/-- A run has attempted nothing yet. -/
theorem new_attempts {c : Ciborium} {cfg : MetricsConfig} {publisher : MqttPublisher} {fs : Fs}
    {now : Instant} {s : Runner} (hnew : Runner.new c cfg publisher fs now = .ok s) :
    s.seq_dirty = false ∧ s.attempts = [] := by
  unfold new at hnew
  cases hagg : Aggregator.new c cfg fs with
  | error e =>
    rw [hagg] at hnew
    cases hnew
  | ok found =>
    rw [hagg] at hnew
    cases hnew
    exact ⟨rfl, rfl⟩

end Runner

section run

variable {c : Ciborium} {cfg : MetricsConfig} {s t : Runner}

theorem run_tick {tick : Tick} (hstep : (run c cfg).step s (.tick tick) = some t) :
    ¬ s.stopped = true ∧ t = s.tick c cfg tick := by
  simp only [run, Option.ite_none_left_eq_some, Option.some.injEq] at hstep
  exact ⟨hstep.1, hstep.2.symm⟩

theorem run_shutdown {iteration : Iteration String} {verdicts : List Verdict}
    (hstep : (run c cfg).step s (.shutdown iteration verdicts) = some t) :
    ¬ s.stopped = true ∧ t = s.shutdown c iteration verdicts := by
  simp only [run, Option.ite_none_left_eq_some, Option.some.injEq] at hstep
  exact ⟨hstep.1, hstep.2.symm⟩

end run

end spotflowd.metrics
