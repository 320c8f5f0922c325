import Spotflowd.Ciborium
import Spotflowd.Lib.Effect

open cbor effect
open spotflowd.log_entry

namespace spotflowd.mqtt

def INGEST_TOPIC : String := "ingest-cbor"

inductive QoS where
  | AtMostOnce
  | AtLeastOnce
  | ExactlyOnce
deriving DecidableEq

/-- One call of the client: topic, quality of service, retain flag and payload. -/
structure Message where
  topic : String
  qos : QoS
  retain : Bool
  payload : fs.Bytes
deriving DecidableEq

def label_to_cbor : String × LabelValue → Value × Value
  | (key, .Str s) => (.Text key, .Text s)
  | (key, .Int i) => (.Text key, .Integer i.toInt)

/-- The numbered fields of an entry; absent ones take no room. -/
def entry_map (entry : LogEntry) : List (Value × Value) :=
  [(.Integer 1, .Text entry.body)] ++
  (match entry.severity with
    | some severity => [(.Integer 4, .Integer severity.code)]
    | none => []) ++
  (if entry.labels.entries.isEmpty then []
    else [(.Integer 5, .Map (entry.labels.entries.map label_to_cbor))]) ++
  (match entry.uptime_ms with
    | some uptime => [(.Integer 6, .Integer uptime.toNat)]
    | none => []) ++
  (match entry.timestamp_ms with
    | some ts => [(.Integer 7, .Integer ts.toNat)]
    | none => [])

def encode_entry (c : Ciborium) (entry : LogEntry) : Except String fs.Bytes :=
  match c.value_into_writer (.Map (entry_map entry)) with
  | some buf => .ok buf
  | none => .error "CBOR encode failed"

/-- The publisher handle. `outcomes` are the answers the client will give to the
coming publishes (`true`: accepted; accepted as well when they run out), `accepted`
what it has accepted, and `handed` a history variable: the log entries among it. -/
structure MqttPublisher where
  connected : Bool
  outcomes : List Bool
  accepted : List Message
  handed : List LogEntry
deriving DecidableEq

abbrev PublishM := EStateM String MqttPublisher

namespace MqttPublisher

def is_connected (self : MqttPublisher) : Bool := self.connected

/-- Publish a payload to the ingest topic. -/
def publish_payload (payload : fs.Bytes) : PublishM Unit := fun self =>
  match self.outcomes with
  | false :: outcomes => .error "MQTT publish failed" { self with outcomes := outcomes }
  | outcomes => .ok () { self with
      outcomes := outcomes.tail
      accepted := self.accepted ++ [⟨INGEST_TOPIC, .AtMostOnce, false, payload⟩] }

theorem publish_payload_cases (payload : fs.Bytes) (self : MqttPublisher) :
    (∃ outcomes, publish_payload payload self = .ok () { self with
      outcomes := outcomes
      accepted := self.accepted ++ [⟨INGEST_TOPIC, .AtMostOnce, false, payload⟩] }) ∨
    ∃ outcomes, publish_payload payload self =
      .error "MQTT publish failed" { self with outcomes := outcomes } := by
  rw [publish_payload]
  split
  · exact Or.inr ⟨_, rfl⟩
  · exact Or.inl ⟨_, rfl⟩

/-- The body of the loop in `publish_batch`. -/
def publish_entry (c : Ciborium) (entry : LogEntry) : PublishM Unit := fun self =>
  match encode_entry c entry with
  | .error e => .error e self
  | .ok payload =>
    match publish_payload payload self with
    | .error e self => .error e self
    | .ok _ self => .ok () { self with handed := self.handed ++ [entry] }

/-- One message per entry; the first failure ends the batch. -/
def publish_batch (c : Ciborium) (entries : List LogEntry) : PublishM Unit :=
  forM entries (publish_entry c)

@[simp] theorem publish_batch_nil (c : Ciborium) : publish_batch c [] = pure () := rfl

theorem publish_batch_cons (c : Ciborium) (entry : LogEntry) (entries : List LogEntry) :
    publish_batch c (entry :: entries) = publish_entry c entry >>= fun _ => publish_batch c entries :=
  rfl

/-- Position of the first of these entries that is refused: one that does not encode,
or one the client answers with an error. -/
def first_failure (c : Ciborium) (outcomes : List Bool) : List LogEntry → Option Nat
  | [] => none
  | entry :: entries =>
    match encode_entry c entry, outcomes with
    | .error _, _ => some 0
    | .ok _, false :: _ => some 0
    | .ok _, outcomes => (first_failure c outcomes.tail entries).map (· + 1)

/-- What handing over one entry does, accepted or not. -/
theorem publish_entry_ok {c : Ciborium} {entry : LogEntry} {self after : MqttPublisher}
    (hok : publish_entry c entry self = .ok () after) :
    after.handed = self.handed ++ [entry] ∧ ∀ entries,
      first_failure c self.outcomes (entry :: entries) =
        (first_failure c after.outcomes entries).map (· + 1) := by
  obtain ⟨connected, outcomes, accepted, handed⟩ := self
  unfold publish_entry publish_payload at hok
  cases hencode : encode_entry c entry with
  | error e => simp [hencode] at hok
  | ok payload =>
    rcases outcomes with _ | ⟨_ | _, outcomes⟩
    all_goals simp only [hencode] at hok
    all_goals cases hok
    all_goals exact ⟨rfl, fun entries => by simp [first_failure, hencode]⟩

theorem publish_entry_error {c : Ciborium} {entry : LogEntry} {self after : MqttPublisher}
    {e : String} (herror : publish_entry c entry self = .error e after) :
    after.handed = self.handed ∧ ∀ entries,
      first_failure c self.outcomes (entry :: entries) = some 0 := by
  obtain ⟨connected, outcomes, accepted, handed⟩ := self
  unfold publish_entry publish_payload at herror
  cases hencode : encode_entry c entry with
  | error e =>
    simp only [hencode] at herror
    cases herror
    exact ⟨rfl, fun entries => by simp [first_failure, hencode]⟩
  | ok payload =>
    rcases outcomes with _ | ⟨_ | _, outcomes⟩
    all_goals simp only [hencode] at herror
    all_goals cases herror
    exact ⟨rfl, fun entries => by simp [first_failure, hencode]⟩

theorem first_failure_lt {c : Ciborium} {outcomes : List Bool} {entries : List LogEntry} {k : Nat}
    (hfailure : first_failure c outcomes entries = some k) : k < entries.length := by
  induction entries generalizing outcomes k with
  | nil => cases hfailure
  | cons entry entries ih =>
    unfold first_failure at hfailure
    rw [List.length_cons]
    split at hfailure
    · cases hfailure
      omega
    · cases hfailure
      omega
    · obtain ⟨j, hj, rfl⟩ := Option.map_eq_some_iff.mp hfailure
      have := ih hj
      omega

/-- A batch hands over exactly what precedes its first failure. -/
theorem publish_batch_handed (c : Ciborium) (entries : List LogEntry) (self : MqttPublisher) :
    (finalState (publish_batch c entries self)).handed =
      self.handed ++ match first_failure c self.outcomes entries with
        | none => entries
        | some k => entries.take k := by
  induction entries generalizing self with
  | nil => simp [first_failure]
  | cons entry entries ih =>
    rw [publish_batch_cons]
    cases hentry : publish_entry c entry self with
    | error e after =>
      obtain ⟨hhanded, hfailure⟩ := publish_entry_error hentry
      rw [bind_of_error hentry, hfailure]
      simpa using hhanded
    | ok _ after =>
      obtain ⟨hhanded, hfailure⟩ := publish_entry_ok hentry
      rw [bind_of_ok hentry, ih, hhanded, hfailure]
      cases first_failure c after.outcomes entries <;> simp

/-- A batch succeeds exactly when none of its entries is refused. -/
theorem publish_batch_ok_iff (c : Ciborium) (entries : List LogEntry) (self : MqttPublisher) :
    (∃ after, publish_batch c entries self = .ok () after) ↔
      first_failure c self.outcomes entries = none := by
  induction entries generalizing self with
  | nil => simp [first_failure]
  | cons entry entries ih =>
    rw [publish_batch_cons]
    cases hentry : publish_entry c entry self with
    | error e after =>
      rw [bind_of_error hentry, (publish_entry_error hentry).2]
      simp
    | ok _ after =>
      rw [bind_of_ok hentry, ih, (publish_entry_ok hentry).2]
      simp

end MqttPublisher

end spotflowd.mqtt
