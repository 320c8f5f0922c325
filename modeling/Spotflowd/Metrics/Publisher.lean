import Spotflowd.Metrics
import Spotflowd.Mqtt

open cbor effect
open spotflowd.mqtt

namespace spotflowd.metrics.publisher

def MESSAGE_TYPE_METRIC : Int := 5

/-- Rust's `f64 as i64`: truncated towards zero, then saturated. -/
def as_i64 (v : ℚ) : Int := max (-(2 ^ 63)) (min (2 ^ 63 - 1) (v.num.tdiv v.den))

/-- An integer when there is no fractional part. The bounds are `i64::MIN as f64` and
`i64::MAX as f64`. -/
def cbor_number (v : ℚ) : Value :=
  if v.den = 1 ∧ -(2 ^ 63) ≤ v ∧ v ≤ 2 ^ 63 then .Integer (as_i64 v) else .Float v

def label_to_cbor : String × String → Value × Value
  | (key, value) => (.Text key, .Text value)

/-- The numbered fields of a metric message. -/
def metric_map (m : ReadyMetric) : List (Value × Value) :=
  [(.Integer 0, .Integer MESSAGE_TYPE_METRIC), (.Integer 21, .Text m.name),
    (.Integer 22, .Integer m.agg_cbor.toNat)] ++
  (if m.labels.isEmpty then [] else [(.Integer 5, .Map (m.labels.map label_to_cbor))]) ++
  [(.Integer 6, .Integer m.uptime_ms.toNat), (.Integer 13, .Integer m.seq.toNat),
    (.Integer 24, cbor_number m.sum)] ++
  (match m.count with
    | some count => [(.Integer 26, .Integer count.toNat),
        (.Integer 27, cbor_number (m.min.getD m.sum)), (.Integer 28, cbor_number (m.max.getD m.sum))]
    | none => [])

def encode_metric (c : Ciborium) (m : ReadyMetric) : Except String fs.Bytes :=
  match c.value_into_writer (.Map (metric_map m)) with
  | some buf => .ok buf
  | none => .error "CBOR encode metric failed"

/-- The publisher handle, with the metrics its client has accepted as a history variable. -/
structure Outbox where
  client : MqttPublisher
  accepted : List ReadyMetric

abbrev OutboxM := EStateM String Outbox

/-- The body of the loop in `publish_metrics`. -/
def publish_metric (c : Ciborium) (m : ReadyMetric) : OutboxM Unit := fun self =>
  match encode_metric c m with
  | .error e => .error e self
  | .ok payload =>
    match MqttPublisher.publish_payload payload self.client with
    | .error e client => .error e { self with client := client }
    | .ok _ client => .ok () { client := client, accepted := self.accepted ++ [m] }

/-- One message per metric; the first failure ends the loop. -/
def publish_metrics (c : Ciborium) (metrics : List ReadyMetric) : OutboxM Unit :=
  forM metrics (publish_metric c)

theorem publish_metrics_cons (c : Ciborium) (m : ReadyMetric) (metrics : List ReadyMetric) :
    publish_metrics c (m :: metrics) = publish_metric c m >>= fun _ => publish_metrics c metrics :=
  rfl

theorem publish_metric_ok {c : Ciborium} {m : ReadyMetric} {self after : Outbox}
    (hok : publish_metric c m self = .ok () after) : after.accepted = self.accepted ++ [m] := by
  unfold publish_metric at hok
  cases hencode : encode_metric c m with
  | error e => simp [hencode] at hok
  | ok payload =>
    obtain ⟨outcomes, hsent⟩ | ⟨outcomes, hrefused⟩ :=
      MqttPublisher.publish_payload_cases payload self.client
    · simp only [hencode, hsent] at hok
      cases hok
      rfl
    · simp [hencode, hrefused] at hok

theorem publish_metric_error {c : Ciborium} {m : ReadyMetric} {self after : Outbox} {e : String}
    (herror : publish_metric c m self = .error e after) : after.accepted = self.accepted := by
  unfold publish_metric at herror
  cases hencode : encode_metric c m with
  | error e =>
    simp only [hencode] at herror
    cases herror
    rfl
  | ok payload =>
    obtain ⟨outcomes, hsent⟩ | ⟨outcomes, hrefused⟩ :=
      MqttPublisher.publish_payload_cases payload self.client
    · simp [hencode, hsent] at herror
    · simp only [hencode, hrefused] at herror
      cases herror
      rfl

/-- The client accepts a first part of the metrics, all of them when there is no failure. -/
theorem publish_metrics_accepted (c : Ciborium) (metrics : List ReadyMetric) (self : Outbox) :
    ∃ sent, sent <+: metrics ∧
      (finalState (publish_metrics c metrics self)).accepted = self.accepted ++ sent ∧
      ∀ after, publish_metrics c metrics self = .ok () after → sent = metrics := by
  induction metrics generalizing self with
  | nil => exact ⟨[], List.nil_prefix, (List.append_nil _).symm, fun _ _ => rfl⟩
  | cons m metrics ih =>
    rw [publish_metrics_cons]
    cases hfirst : publish_metric c m self with
    | error e after =>
      rw [bind_of_error hfirst]
      refine ⟨[], List.nil_prefix, ?_, fun after h => by cases h⟩
      rw [finalState_error, publish_metric_error hfirst, List.append_nil]
    | ok _ after =>
      obtain ⟨sent, hstarts, haccepted, hall⟩ := ih after
      rw [bind_of_ok hfirst]
      refine ⟨m :: sent, (List.cons_prefix_cons).mpr ⟨rfl, hstarts⟩, ?_, ?_⟩
      · rw [haccepted, publish_metric_ok hfirst, List.append_assoc, List.singleton_append]
      · intro last hok
        rw [hall last hok]

/-- Position of the first of these metrics that is refused: one that does not encode,
or one the client answers with an error. -/
def first_failure (c : Ciborium) (outcomes : List Bool) : List ReadyMetric → Option Nat
  | [] => none
  | m :: metrics =>
    match encode_metric c m, outcomes with
    | .error _, _ => some 0
    | .ok _, false :: _ => some 0
    | .ok _, outcomes => (first_failure c outcomes.tail metrics).map (· + 1)

theorem publish_metric_failure (c : Ciborium) (m : ReadyMetric) (metrics : List ReadyMetric)
    (self : Outbox) :
    (∃ after, publish_metric c m self = .ok () after ∧
      first_failure c self.client.outcomes (m :: metrics) =
        (first_failure c after.client.outcomes metrics).map (· + 1)) ∨
    (∃ e after, publish_metric c m self = .error e after ∧
      first_failure c self.client.outcomes (m :: metrics) = some 0) := by
  obtain ⟨⟨connected, outcomes, accepted, handed⟩, sent⟩ := self
  simp only [publish_metric, MqttPublisher.publish_payload, first_failure]
  cases encode_metric c m with
  | error e => exact Or.inr ⟨_, _, rfl, rfl⟩
  | ok payload =>
    rcases outcomes with _ | ⟨_ | _, outcomes⟩
    · exact Or.inl ⟨_, rfl, rfl⟩
    · exact Or.inr ⟨_, _, rfl, rfl⟩
    · exact Or.inl ⟨_, rfl, rfl⟩

/-- The client accepts just what precedes the first failure. -/
theorem publish_metrics_outcome (c : Ciborium) (metrics : List ReadyMetric) (self : Outbox) :
    (first_failure c self.client.outcomes metrics = none ∧ ∃ after,
      publish_metrics c metrics self = .ok () after ∧ after.accepted = self.accepted ++ metrics) ∨
    (∃ k e after, first_failure c self.client.outcomes metrics = some k ∧ k < metrics.length ∧
      publish_metrics c metrics self = .error e after ∧
        after.accepted = self.accepted ++ metrics.take k) := by
  induction metrics generalizing self with
  | nil => exact Or.inl ⟨rfl, self, rfl, (List.append_nil _).symm⟩
  | cons m metrics ih =>
    rw [publish_metrics_cons]
    obtain ⟨after, hok, hfailure⟩ | ⟨e, after, herror, hfailure⟩ :=
      publish_metric_failure c m metrics self
    · rw [bind_of_ok hok, hfailure]
      have haccepted := publish_metric_ok hok
      obtain ⟨hnone, last, hlast, hall⟩ | ⟨k, e, last, hsome, hk, hlast, hpart⟩ := ih after
      · refine Or.inl ⟨by rw [hnone]; rfl, last, hlast, ?_⟩
        rw [hall, haccepted, List.append_assoc, List.singleton_append]
      · refine Or.inr ⟨k + 1, e, last, by rw [hsome]; rfl, Nat.succ_lt_succ hk, hlast, ?_⟩
        rw [hpart, haccepted, List.append_assoc, List.singleton_append, List.take_succ_cons]
    · rw [bind_of_error herror, hfailure]
      refine Or.inr ⟨0, e, after, rfl, Nat.succ_pos _, rfl, ?_⟩
      rw [publish_metric_error herror, List.take_zero, List.append_nil]

end spotflowd.metrics.publisher
