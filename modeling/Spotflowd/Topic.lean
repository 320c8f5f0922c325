import Spotflowd.Lib.Multiplex
import Spotflowd.Metrics.Exact
import Spotflowd.Metrics.Restart
import Spotflowd.Orchestrator.HandOver
import Spotflowd.Sources.Crashdump.Messages

open cbor effect multiplex
open spotflowd.log_entry spotflowd.mqtt
open spotflowd.metrics spotflowd.metrics.publisher
open spotflowd.sources.crashdump (Fragment Said Task chunk_map encode_chunk encode_chunk_ok
  read_fragment read_fragment_chunk_map MESSAGE_TYPE_CORE_DUMP)
open spotflowd.sources.crashdump.Task (dumps idle dump)

namespace spotflowd.topic

/-- A log message, as its receiver sees it. The source of an entry stays behind. -/
structure LogMessage where
  body : String
  severity : Option Severity
  labels : OrderedMap String LabelValue
  uptime_ms : Option UInt64
  timestamp_ms : Option UInt64
deriving DecidableEq

def log_message (entry : LogEntry) : LogMessage where
  body := entry.body
  severity := entry.severity
  labels := entry.labels
  uptime_ms := entry.uptime_ms
  timestamp_ms := entry.timestamp_ms

/-- A metric, with the numbers that arrive. The sum stands for a bound that is missing. -/
def metric_message (m : ReadyMetric) : ReadyMetric :=
  { m with
    sum := carried m.sum
    min := m.count.map fun _ => carried (m.min.getD m.sum)
    max := m.count.map fun _ => carried (m.max.getD m.sum) }

def severity_from_code : Value → Option Severity
  | .Integer code => [Severity.Debug, .Info, .Warning, .Error, .Critical].find? fun s => s.code = code
  | _ => none

def read_entry (pairs : List (Value × Value)) : Option LogMessage := do
  let body ← (numbered 1 pairs).bind text_from_value
  let severity ← option_from_value severity_from_code (numbered 4 pairs)
  let labels ← labels_from_value (numbered 5 pairs)
  let uptime_ms ← option_from_value u64_from_value (numbered 6 pairs)
  let timestamp_ms ← option_from_value u64_from_value (numbered 7 pairs)
  return { body, severity, labels, uptime_ms, timestamp_ms }

/-- The tasks that publish, all of them to one topic. -/
inductive Sender where
  | logs
  | metrics
  | core_dumps
deriving DecidableEq

inductive Arrival where
  | log (message : LogMessage)
  | metric (m : ReadyMetric)
  | core_dump (f : Fragment)

def Arrival.sender : Arrival → Sender
  | .log _ => .logs
  | .metric _ => .metrics
  | .core_dump _ => .core_dumps

/-- The message type decides how the rest is read; log messages have none. -/
def read_arrival (pairs : List (Value × Value)) : Option Arrival :=
  match numbered 0 pairs with
  | none => (read_entry pairs).map .log
  | some (.Integer message_type) =>
    if message_type = MESSAGE_TYPE_METRIC then (read_metric pairs).map .metric
    else if message_type = MESSAGE_TYPE_CORE_DUMP then (read_fragment pairs).map .core_dump
    else none
  | some _ => none

def arrival (c : Ciborium) (message : Message) : Option Arrival :=
  if message.topic = INGEST_TOPIC then
    match c.value_from_reader message.payload with
    | some (.Map pairs) => read_arrival pairs
    | _ => none
  else none

section Entries

variable (entry : LogEntry)

theorem severity_from_code_code (severity : Severity) :
    severity_from_code (.Integer severity.code) = some severity := by
  cases severity <;> rfl

theorem numbered_entry :
    numbered 0 (entry_map entry) = none ∧
    numbered 1 (entry_map entry) = some (.Text entry.body) ∧
    numbered 4 (entry_map entry) = entry.severity.map (fun severity => .Integer severity.code) ∧
    numbered 5 (entry_map entry) = (if entry.labels.entries.isEmpty then none
      else some (.Map (entry.labels.entries.map mqtt.label_to_cbor))) ∧
    numbered 6 (entry_map entry) = entry.uptime_ms.map u64_to_value ∧
    numbered 7 (entry_map entry) = entry.timestamp_ms.map u64_to_value := by
  unfold entry_map
  cases entry.severity <;> cases entry.labels.entries.isEmpty <;> cases entry.uptime_ms <;>
    cases entry.timestamp_ms <;> exact ⟨rfl, rfl, rfl, rfl, rfl, rfl⟩

theorem labels_from_entry_map : labels_from_value (numbered 5 (entry_map entry)) = some entry.labels := by
  obtain ⟨-, -, -, hlabels, -, -⟩ := numbered_entry entry
  rw [hlabels]
  cases hempty : entry.labels.entries.isEmpty with
  | true =>
    have hnone : entry.labels = ∅ := by
      cases hentry : entry.labels with
      | mk entries ascending =>
        rw [hentry, List.isEmpty_iff] at hempty
        subst hempty
        rfl
    rw [hnone]
    rfl
  | false =>
    have hread := labels_from_value_of_perm (List.Perm.refl entry.labels.entries)
    refine Eq.trans (congrArg (fun pairs => labels_from_value (some (.Map pairs))) ?_) hread
    apply List.map_congr_left
    rintro ⟨key, s | i⟩ - <;> rfl

theorem read_entry_map : read_entry (entry_map entry) = some (log_message entry) := by
  obtain ⟨-, hbody, hseverity, -, huptime, htimestamp⟩ := numbered_entry entry
  have hbody : (numbered 1 (entry_map entry)).bind text_from_value = some entry.body :=
    Option.bind_eq_some_iff.mpr ⟨_, hbody, rfl⟩
  have hseverity' := option_from_value_map (f := id) (fun _ h => by cases h) severity_from_code_code
    entry.severity
  have hnumber : ∀ n : Option UInt64,
      option_from_value u64_from_value (n.map u64_to_value) = some (n.map id) :=
    option_from_value_map (fun _ h => by cases h) u64_from_to_value
  rw [read_entry, hbody, hseverity, hseverity', labels_from_entry_map, huptime, hnumber, htimestamp,
    hnumber]
  simp [log_message]

end Entries

section Messages

variable {c : Ciborium}

def publish_of (payload : fs.Bytes) : Message := ⟨INGEST_TOPIC, .AtMostOnce, false, payload⟩

theorem arrival_of_value (hround : c.ValueRoundTrips) {pairs : List (Value × Value)}
    {payload : fs.Bytes} (hwrite : c.value_into_writer (.Map pairs) = some payload) :
    arrival c (publish_of payload) = read_arrival pairs := by
  rw [publish_of, arrival, if_pos rfl, hround _ _ hwrite]

theorem arrival_of_entry (hround : c.ValueRoundTrips) {entry : LogEntry} {payload : fs.Bytes}
    (hencode : encode_entry c entry = .ok payload) :
    arrival c (publish_of payload) = some (.log (log_message entry)) := by
  unfold encode_entry at hencode
  split at hencode
  · next buf hwrite =>
    cases hencode
    rw [arrival_of_value hround hwrite, read_arrival, (numbered_entry entry).1, read_entry_map]
    rfl
  · cases hencode

theorem arrival_of_metric (hround : c.ValueRoundTrips) {m : ReadyMetric} {payload : fs.Bytes}
    (hencode : encode_metric c m = .ok payload) :
    arrival c (publish_of payload) = some (.metric (metric_message m)) := by
  unfold encode_metric at hencode
  split at hencode
  · next buf hwrite =>
    cases hencode
    rw [arrival_of_value hround hwrite, read_arrival, (numbered_fixed m).1, read_metric_map]
    rfl
  · cases hencode

/-- The payload of a fragment. -/
def encode_fragment (c : Ciborium) (f : Fragment) : Except String fs.Bytes :=
  encode_chunk c f.id f.ordinal f.content f.is_last f.build_id

theorem arrival_of_fragment (hround : c.ValueRoundTrips) {f : Fragment} {payload : fs.Bytes}
    (hencode : encode_fragment c f = .ok payload) :
    arrival c (publish_of payload) = some (.core_dump f) := by
  have htype : numbered 0 (chunk_map f.id f.ordinal f.content f.is_last f.build_id) =
      some (.Integer MESSAGE_TYPE_CORE_DUMP) := rfl
  rw [arrival_of_value hround (encode_chunk_ok hencode), read_arrival, htype, read_fragment_chunk_map]
  rfl

/-- A client has accepted the messages of these things, in their order, and nothing else. -/
def Accepted {α : Type} (encode : α → Except String fs.Bytes) (things : List α)
    (accepted : List Message) : Prop :=
  accepted.map Except.ok = things.map fun a => (encode a).map publish_of

theorem Accepted.nil {α : Type} {encode : α → Except String fs.Bytes} : Accepted encode [] [] := rfl

theorem Accepted.snoc {α : Type} {encode : α → Except String fs.Bytes} {things : List α}
    {accepted : List Message} (haccepted : Accepted encode things accepted) {a : α} {payload : fs.Bytes}
    (hencode : encode a = .ok payload) :
    Accepted encode (things ++ [a]) (accepted ++ [publish_of payload]) := by
  unfold Accepted
  rw [List.map_append, haccepted, List.map_append, List.map_singleton, List.map_singleton, hencode]
  rfl

/-- What can be read of each message, can be read of them all. -/
theorem Accepted.arrive {α : Type} {encode : α → Except String fs.Bytes} {things : List α}
    {accepted : List Message} (haccepted : Accepted encode things accepted) {meaning : α → Arrival}
    (harrival : ∀ a payload, encode a = .ok payload →
      arrival c (publish_of payload) = some (meaning a)) :
    accepted.map (arrival c) = (things.map meaning).map some := by
  induction things generalizing accepted with
  | nil => rw [List.map_eq_nil_iff.mp haccepted, List.map_nil, List.map_nil, List.map_nil]
  | cons a things ih =>
    cases accepted with
    | nil => cases haccepted
    | cons message accepted =>
      obtain ⟨hfirst, hrest⟩ := List.cons.inj haccepted
      dsimp only at hfirst
      cases hencode : encode a with
      | error e =>
        rw [hencode] at hfirst
        cases hfirst
      | ok payload =>
        rw [hencode] at hfirst
        cases hfirst
        rw [List.map_cons, List.map_cons, List.map_cons, harrival a payload hencode, ih hrest]

/-- The log path has published the entries it counts as handed over, and nothing else. -/
def LogsSaid (c : Ciborium) (publisher : MqttPublisher) : Prop :=
  Accepted (encode_entry c) publisher.handed publisher.accepted

theorem LogsSaid.publish_entry {publisher : MqttPublisher} (hsaid : LogsSaid c publisher)
    (entry : LogEntry) : LogsSaid c (finalState (MqttPublisher.publish_entry c entry publisher)) := by
  unfold MqttPublisher.publish_entry
  cases hencode : encode_entry c entry with
  | error e => exact hsaid
  | ok payload =>
    obtain ⟨outcomes, hok⟩ | ⟨outcomes, herror⟩ := MqttPublisher.publish_payload_cases payload publisher
    · simp only [hok]
      exact hsaid.snoc hencode
    · simp only [herror]
      exact hsaid

/-- A tick publishes an entry, or nothing. -/
theorem publish_tick_publishes (s : orchestrator.System) :
    (orchestrator.publish_tick c s).publisher = s.publisher ∨
    ∃ entry, (orchestrator.publish_tick c s).publisher =
      finalState (MqttPublisher.publish_entry c entry s.publisher) := by
  unfold orchestrator.publish_tick
  split
  all_goals try exact Or.inl rfl
  · split <;> exact Or.inl rfl
  · next entry _ _ _ =>
    refine Or.inr ⟨entry, ?_⟩
    split
    · next hok => rw [hok, finalState_ok]
    · next herror => rw [herror, finalState_error]
  · split <;> exact Or.inl rfl
  · split <;> exact Or.inl rfl
  · next entry _ _ _ =>
    refine Or.inr ⟨entry, ?_⟩
    split
    · next hok => rw [hok, finalState_ok]
    · next herror => rw [herror, finalState_error]

theorem LogsSaid.step {s t : orchestrator.System} {event : orchestrator.Event}
    (hsaid : LogsSaid c s.publisher) (hstep : (orchestrator.run c).step s event = some t) :
    LogsSaid c t.publisher := by
  cases event with
  | push entry =>
    obtain ⟨-, -, -, hpublisher⟩ := orchestrator.ingest_effect hstep
    rw [hpublisher]
    exact hsaid
  | link connected =>
    cases hstep
    exact hsaid
  | tick =>
    obtain ⟨-, rfl⟩ := orchestrator.run_tick_eq_some hstep
    obtain hsame | ⟨entry, hentry⟩ := publish_tick_publishes (c := c) s
    · rw [hsame]
      exact hsaid
    · rw [hentry]
      exact hsaid.publish_entry entry
  | shutdown =>
    simp only [orchestrator.run, Option.ite_none_right_eq_some, Option.some.injEq] at hstep
    rw [← hstep.2]
    exact hsaid
  | flush =>
    simp only [orchestrator.run, Option.ite_none_right_eq_some, Option.some.injEq] at hstep
    rw [← hstep.2]
    exact hsaid

/-- The metrics path has published the metrics it counts as accepted, and nothing else. -/
def MetricsSaid (c : Ciborium) (outbox : Outbox) : Prop :=
  Accepted (encode_metric c) outbox.accepted outbox.client.accepted

theorem MetricsSaid.publish_metric {outbox : Outbox} (hsaid : MetricsSaid c outbox) (m : ReadyMetric) :
    MetricsSaid c (finalState (publisher.publish_metric c m outbox)) := by
  unfold publisher.publish_metric
  cases hencode : encode_metric c m with
  | error e => exact hsaid
  | ok payload =>
    obtain ⟨outcomes, hok⟩ | ⟨outcomes, herror⟩ := MqttPublisher.publish_payload_cases payload outbox.client
    · simp only [hok]
      exact hsaid.snoc hencode
    · simp only [herror]
      exact hsaid

theorem MetricsSaid.publish_metrics {outbox : Outbox} (hsaid : MetricsSaid c outbox)
    (ms : List ReadyMetric) : MetricsSaid c (finalState (publisher.publish_metrics c ms outbox)) := by
  induction ms generalizing outbox with
  | nil => exact hsaid
  | cons m ms ih =>
    have hfirst := hsaid.publish_metric m
    rw [publish_metrics_cons]
    cases hm : publisher.publish_metric c m outbox with
    | error e after =>
      rw [hm] at hfirst
      rw [bind_of_error hm]
      exact hfirst
    | ok _ after =>
      rw [hm] at hfirst
      rw [bind_of_ok hm]
      exact ih hfirst

theorem MetricsSaid.publish {s : Runner} (hsaid : MetricsSaid c s.outbox) (tick : Tick) :
    MetricsSaid c (s.publish c tick).outbox := by
  have hclient : MetricsSaid c ⟨{ s.outbox.client with
    connected := tick.connected, outcomes := tick.outcomes }, s.outbox.accepted⟩ := hsaid
  have hall := hclient.publish_metrics s.pending
  unfold Runner.publish
  dsimp only
  split
  · exact hsaid
  · split
    · next outbox hok =>
      rw [hok] at hall
      rw [(Runner.published_hands c tick _).1]
      exact hall
    · next outbox herror =>
      rw [herror] at hall
      exact hall

theorem MetricsSaid.step {cfg : config.MetricsConfig} {s t : Runner} {event : metrics.Event}
    (hsaid : MetricsSaid c s.outbox) (hstep : (metrics.run c cfg).step s event = some t) :
    MetricsSaid c t.outbox := by
  cases event with
  | tick tick =>
    obtain ⟨-, rfl⟩ := run_tick hstep
    exact MetricsSaid.publish (s := s.collect cfg tick) hsaid tick
  | shutdown iteration verdicts =>
    obtain ⟨-, rfl⟩ := run_shutdown hstep
    rw [(s.shutdown_keeps c iteration verdicts).2.2.1]
    exact hsaid

/-- The crash dump task has published fragments, and nothing else. -/
theorem said_accepted {s : sources.crashdump.World} (hsaid : Said c [] s) :
    ∃ fragments, Accepted (encode_fragment c) fragments s.publisher.accepted := by
  obtain ⟨sent, fragments, haccepted, hmessages⟩ := hsaid
  exact ⟨fragments, by rw [haccepted, List.nil_append]; exact hmessages⟩

end Messages

section Topic

variable {c : Ciborium} {cfg : config.MetricsConfig} {task : Task}

/-- The tasks that share the topic, each with its clone of the publisher handle. -/
structure Publishers where
  logs : orchestrator.System
  metrics : Runner
  core_dumps : sources.crashdump.System

/-- What the client has accepted from each task. -/
def Publishers.accepted (self : Publishers) : Sender → List Message
  | .logs => self.logs.publisher.accepted
  | .metrics => self.metrics.outbox.client.accepted
  | .core_dumps => self.core_dumps.world.publisher.accepted

/-- Nothing has been published yet. -/
structure Publishers.Fresh (p : Publishers) : Prop where
  accepted : ∀ sender, p.accepted sender = []
  handed : p.logs.publisher.handed = []
  counted : p.metrics.outbox.accepted = []

/-- Each task has run, whatever has happened to it. -/
structure Publishers.Runs (c : Ciborium) (cfg : config.MetricsConfig) (task : Task)
    (before after : Publishers) : Prop where
  logs : ∃ events, (orchestrator.run c).Run (fun _ _ => True) before.logs events after.logs
  metrics : ∃ events, (metrics.run c cfg).Run (fun _ _ => True) before.metrics events after.metrics
  core_dumps : ∃ events, (sources.crashdump.run task).Run (fun _ _ => True) before.core_dumps events
    after.core_dumps

/-- What is meant to arrive from each task. -/
def Publishers.meant (self : Publishers) (fragments : List Fragment) : Sender → List Arrival
  | .logs => self.logs.publisher.handed.map fun entry => .log (log_message entry)
  | .metrics => self.metrics.outbox.accepted.map fun m => .metric (metric_message m)
  | .core_dumps => fragments.map .core_dump

theorem Publishers.sender_of_mem_meant {self : Publishers} {fragments : List Fragment} {sender : Sender}
    {a : Arrival} (hmem : a ∈ self.meant fragments sender) : a.sender = sender := by
  cases sender with
  | logs =>
    obtain ⟨entry, -, rfl⟩ := List.mem_map.mp hmem
    rfl
  | metrics =>
    obtain ⟨m, -, rfl⟩ := List.mem_map.mp hmem
    rfl
  | core_dumps =>
    obtain ⟨f, -, rfl⟩ := List.mem_map.mp hmem
    rfl

/-- What a task's client has accepted reads as what the task has meant to publish. -/
theorem Publishers.Runs.arrive {before after : Publishers} (hruns : before.Runs c cfg task after)
    (hcrate : task.c = c) (hround : c.ValueRoundTrips) (hfresh : before.Fresh) :
    ∃ fragments, Accepted (encode_fragment c) fragments (after.accepted .core_dumps) ∧
      ∀ sender, (after.accepted sender).map (arrival c) = (after.meant fragments sender).map some := by
  obtain ⟨events, hlogs⟩ := hruns.logs
  have hlogs₀ : LogsSaid c before.logs.publisher := by
    have hnone : before.logs.publisher.accepted = [] := hfresh.accepted .logs
    rw [LogsSaid, hfresh.handed, hnone]
    exact .nil
  have hlogs : LogsSaid c after.logs.publisher := hlogs.invariant (P := fun s => LogsSaid c s.publisher)
    hlogs₀ fun _ _ _ hsaid _ hstep => hsaid.step hstep
  obtain ⟨events, hmetrics⟩ := hruns.metrics
  have hmetrics₀ : MetricsSaid c before.metrics.outbox := by
    have hnone : before.metrics.outbox.client.accepted = [] := hfresh.accepted .metrics
    rw [MetricsSaid, hfresh.counted, hnone]
    exact .nil
  have hmetrics : MetricsSaid c after.metrics.outbox :=
    hmetrics.invariant (P := fun s => MetricsSaid c s.outbox) hmetrics₀
      fun _ _ _ hsaid _ hstep => hsaid.step hstep
  obtain ⟨events, hdumps⟩ := hruns.core_dumps
  have hdumps₀ : Said task.c [] before.core_dumps.world := by
    have hnone : before.core_dumps.world.publisher.accepted = [] := hfresh.accepted .core_dumps
    have hsaid := Said.refl (c := task.c) before.core_dumps.world
    rwa [hnone] at hsaid
  have hdumps : Said task.c [] after.core_dumps.world :=
    hdumps.invariant (P := fun s => Said task.c [] s.world) hdumps₀
      fun _ _ _ hsaid _ hstep => hsaid.step hstep
  rw [hcrate] at hdumps
  obtain ⟨fragments, hfragments⟩ := said_accepted hdumps
  refine ⟨fragments, hfragments, fun sender => ?_⟩
  cases sender with
  | logs => exact hlogs.arrive fun _ _ => arrival_of_entry hround
  | metrics => exact hmetrics.arrive fun _ _ => arrival_of_metric hround
  | core_dumps => exact hfragments.arrive fun _ _ => arrival_of_fragment hround

/-- Logs, metrics and core dumps share a topic without being mistaken for one another. However the
tasks run, and in whichever order the client brings their messages onto the topic, every message
is read as one thing, and what is read of each kind is what the task has handed over, in its
order: the log entries, the metrics, and fragments of core dumps. -/
theorem topic_is_told_apart {before after : Publishers} (hcrate : task.c = c)
    (hround : c.ValueRoundTrips) (hfresh : before.Fresh) (hruns : before.Runs c cfg task after)
    {topic : List (Sender × Message)} (htopic : Interleaves topic after.accepted) :
    ∃ (fragments : List Fragment) (arrivals : List Arrival),
      Accepted (encode_fragment c) fragments (after.accepted .core_dumps) ∧
      topic.map (fun item => arrival c item.2) = arrivals.map some ∧
      ∀ sender, arrivals.filter (fun a => a.sender = sender) = after.meant fragments sender := by
  obtain ⟨fragments, hfragments, harrive⟩ := hruns.arrive hcrate hround hfresh
  have hsender : ∀ sender, ∀ a ∈ after.meant fragments sender, Arrival.sender a = sender :=
    fun _ _ hmem => Publishers.sender_of_mem_meant hmem
  obtain ⟨arrivals, harrivals, hkinds⟩ := htopic.demultiplex harrive hsender
  exact ⟨fragments, arrivals, hfragments, harrivals, hkinds⟩

/-- One message from each task, the crash dump first. -/
theorem topic_is_told_apart_mixed : ∃ (before after : Publishers) (topic : List (Sender × Message)),
    before.Fresh ∧ before.Runs .wire custom_only dumps after ∧ Interleaves topic after.accepted ∧
    topic.map Prod.fst = [.core_dumps, .logs, .metrics] ∧
    ∃ (fragments : List Fragment) (arrivals : List Arrival),
      Accepted (encode_fragment .wire) fragments (after.accepted .core_dumps) ∧
      topic.map (fun item => arrival .wire item.2) = arrivals.map some ∧
      ∀ sender, arrivals.filter (fun a => a.sender = sender) = after.meant fragments sender := by
  have hlogs : ((orchestrator.run .wire).exec (fun _ _ => True) orchestrator.fresh
      [.push (entry "up"), .tick, .tick, .tick]).any (fun s => s.publisher.accepted.length = 1) = true := by
    decide +kernel
  have hmetrics : (Runner.new .wire custom_only fresh_client fresh_dir 0).toOption.any (fun s₀ =>
      (s₀.outbox.client.accepted = [] ∧ s₀.outbox.accepted = []) ∧
      ((metrics.run .wire custom_only).exec (fun _ _ => True) s₀ [gauges ["a"] []]).any
        fun s => s.outbox.client.accepted.length = 1) = true := by
    decide +kernel
  have hdumps : ((sources.crashdump.run dumps).exec (fun _ _ => True) idle
      [.boot none {}, .link true, .appear (dump "0" 5 [1, 2]), .scan {}]).any
      (fun s => s.world.publisher.accepted.length = 1) = true := by
    decide +kernel
  obtain ⟨logs, hlogs, hlog⟩ := Machine.exists_run_of_exec _ hlogs
  obtain ⟨metrics₀, -, hmetrics⟩ := exists_ok_of_any hmetrics
  obtain ⟨⟨hclient, houtbox⟩, hmetrics⟩ := of_decide_eq_true hmetrics
  obtain ⟨metrics, hmetrics, hmetric⟩ := Machine.exists_run_of_exec _ hmetrics
  obtain ⟨core_dumps, hdumps, hdump⟩ := Machine.exists_run_of_exec _ hdumps
  obtain ⟨log, hlog⟩ := List.length_eq_one_iff.mp (of_decide_eq_true hlog)
  obtain ⟨metric, hmetric⟩ := List.length_eq_one_iff.mp (of_decide_eq_true hmetric)
  obtain ⟨chunk, hchunk⟩ := List.length_eq_one_iff.mp (of_decide_eq_true hdump)
  have hfresh : Publishers.Fresh ⟨orchestrator.fresh, metrics₀, idle⟩ := by
    refine ⟨fun sender => ?_, rfl, houtbox⟩
    cases sender with
    | logs => rfl
    | metrics => exact hclient
    | core_dumps => rfl
  have hruns : Publishers.Runs .wire custom_only dumps ⟨orchestrator.fresh, metrics₀, idle⟩
      ⟨logs, metrics, core_dumps⟩ := ⟨⟨_, hlogs⟩, ⟨_, hmetrics⟩, ⟨_, hdumps⟩⟩
  have htopic : Interleaves [(.core_dumps, chunk), (.logs, log), (.metrics, metric)]
      (Publishers.accepted ⟨logs, metrics, core_dumps⟩) := by
    intro sender
    cases sender with
    | logs => exact hlog.symm
    | metrics => exact hmetric.symm
    | core_dumps => exact hchunk.symm
  have hcrate : dumps.c = Ciborium.wire := rfl
  exact ⟨_, _, _, hfresh, hruns, htopic, rfl,
    topic_is_told_apart hcrate Ciborium.wire_valueRoundTrips hfresh hruns htopic⟩

end Topic

end spotflowd.topic
