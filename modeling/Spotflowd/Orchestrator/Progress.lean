import Spotflowd.Orchestrator.Steps

open effect chunked
open spotflowd.buffer spotflowd.log_entry spotflowd.mqtt
open spotflowd.mqtt.MqttPublisher (first_failure)

namespace spotflowd.orchestrator

/-- The entries the client accepts: all of them, or those before the first failure. -/
def accepted (c : Ciborium) (outcomes : List Bool) (entries : List LogEntry) : List LogEntry :=
  match first_failure c outcomes entries with
  | none => entries
  | some k => entries.take k

/-- Where the batch of a position begins. -/
def batch_start (k : Nat) : Nat := k / PUBLISH_BATCH_SIZE * PUBLISH_BATCH_SIZE

theorem batch_start_le (k : Nat) : batch_start k ≤ k := Nat.div_mul_le_self _ _

theorem lt_batch_start_add (k : Nat) : k < batch_start k + PUBLISH_BATCH_SIZE := by
  unfold batch_start PUBLISH_BATCH_SIZE
  omega

/-- A position inside a batch belongs to that batch. -/
theorem batch_start_of_mem {entries : List LogEntry} {before later : List (List LogEntry)}
    {batch : List LogEntry} (hsplit : chunks PUBLISH_BATCH_SIZE entries = before ++ batch :: later)
    {k : Nat} (hlow : before.flatten.length ≤ k)
    (hhigh : k < before.flatten.length + batch.length) :
    batch_start k = before.flatten.length ∧
      batch = (entries.drop (batch_start k)).take PUBLISH_BATCH_SIZE := by
  obtain ⟨hflatten, hlength, hbatch, -⟩ := chunks_split (by decide) hsplit
  have hstart : before.flatten.length = PUBLISH_BATCH_SIZE * before.length := by
    rw [hflatten, List.length_take]
    omega
  have hsize : batch.length ≤ PUBLISH_BATCH_SIZE := by
    rw [hbatch, List.length_take]
    omega
  have heq : batch_start k = before.flatten.length := by
    unfold batch_start
    unfold PUBLISH_BATCH_SIZE at hstart hsize ⊢
    omega
  exact ⟨heq, by rw [heq, hstart]; exact hbatch⟩

/-- How far handing over `entries` has come: `done` has been accepted, `todo` is left. -/
structure Progress (c : Ciborium) (start : MqttPublisher) (entries done todo : List LogEntry)
    (now : MqttPublisher) : Prop where
  split : entries = done ++ todo
  handed : now.handed = start.handed ++ done
  failure : first_failure c start.outcomes entries =
    (first_failure c now.outcomes todo).map (· + done.length)

namespace Progress

variable {c : Ciborium} {start now after : MqttPublisher} {entries done todo : List LogEntry}
  {entry : LogEntry}

theorem refl (publisher : MqttPublisher) : Progress c publisher entries [] entries publisher :=
  ⟨rfl, by simp, by simp⟩

/-- At the start every batch is left. -/
theorem start_batches (publisher : MqttPublisher) (entries : List LogEntry) :
    Progress c publisher entries ([] : List (List LogEntry)).flatten
      (chunks PUBLISH_BATCH_SIZE entries).flatten publisher := by
  rw [flatten_chunks (by decide)]
  exact refl publisher

/-- The connection has no part in it. -/
theorem link (hprogress : Progress c start entries done todo now) (connected : Bool) :
    Progress c start entries done todo { now with connected := connected } :=
  ⟨hprogress.split, hprogress.handed, hprogress.failure⟩

theorem accept (hprogress : Progress c start entries done (entry :: todo) now)
    (hok : MqttPublisher.publish_entry c entry now = .ok () after) :
    Progress c start entries (done ++ [entry]) todo after := by
  obtain ⟨hhanded, hfailure⟩ := MqttPublisher.publish_entry_ok hok
  refine ⟨by simp [hprogress.split], by simp [hhanded, hprogress.handed], ?_⟩
  rw [hprogress.failure, hfailure, Option.map_map, List.length_append]
  congr 1
  funext n
  simp only [Function.comp_apply, List.length_singleton]
  omega

/-- At a refusal, what has been accepted is what precedes the first failure. -/
theorem refuse (hprogress : Progress c start entries done (entry :: todo) now) {e : String}
    (herror : MqttPublisher.publish_entry c entry now = .error e after) :
    first_failure c start.outcomes entries = some done.length ∧
      after.handed = start.handed ++ accepted c start.outcomes entries := by
  obtain ⟨hhanded, hfailure⟩ := MqttPublisher.publish_entry_error herror
  have hfirst : first_failure c start.outcomes entries = some done.length := by
    simp [hprogress.failure, hfailure]
  refine ⟨hfirst, ?_⟩
  rw [hhanded, hprogress.handed, accepted, hfirst, hprogress.split]
  simp

theorem finish (hprogress : Progress c start entries done [] now) :
    first_failure c start.outcomes entries = none ∧
      now.handed = start.handed ++ accepted c start.outcomes entries := by
  have hfirst : first_failure c start.outcomes entries = none := by
    simp [hprogress.failure, first_failure]
  refine ⟨hfirst, ?_⟩
  rw [hprogress.handed, accepted, hfirst, hprogress.split, List.append_nil]

end Progress

/-- What every push extends, several pushes extend. -/
theorem push_all_extends {c : Ciborium} {S : List LogEntry → Storage → Prop}
    (hpush : ∀ entry received s, S received s →
      S (received ++ [entry]) (finalState (Buffer.push c entry s)))
    {entries received : List LogEntry} {s : Storage} (hstart : S received s) :
    S (received ++ entries) (push_all c entries s) := by
  induction entries generalizing received s with
  | nil => simpa [push_all] using hstart
  | cons entry entries ih =>
    have hrest := ih (hpush entry received s hstart)
    rwa [List.append_assoc, List.singleton_append] at hrest

/-- A record of what the storage has received during a tick: `S received storage` for a
property that pushes of the ingestion task and of the recovery extend. -/
structure Follows (c : Ciborium) (allowed : System → Event → Prop)
    (S : List LogEntry → Storage → Prop) : Prop where
  push : ∀ {s : System} {entry : LogEntry} {received : List LogEntry},
    allowed s (.push entry) → S received s.storage →
      S (received ++ [entry]) (finalState (Buffer.push c entry s.storage))
  requeue : ∀ {s : System} {batch received : List LogEntry}, allowed s .tick →
    s.tick = .lock_requeue batch → S received s.storage →
      S (received ++ batch) (push_all c batch s.storage)

end spotflowd.orchestrator
