import Spotflowd.Lib.Machine
import Spotflowd.Metrics.Aggregator
import Spotflowd.Metrics.Publisher

open effect fs
open spotflowd.config spotflowd.mqtt
open spotflowd.metrics.aggregator spotflowd.metrics.publisher

namespace spotflowd.metrics

/-- Maximum number of ready metrics held in the pending buffer while offline. -/
def MAX_PENDING : Nat := 1000

/-- How often sequence numbers are persisted to disk. -/
def SEQ_SAVE_INTERVAL : Duration := from_secs 60

/-- What `run` has done: the client has accepted so many readings, and all that were pending or
not, or the numbers were to be saved. -/
inductive Attempt where
  | publish (accepted : Nat) (whole : Bool)
  | save (ok : Bool)
deriving DecidableEq

namespace Attempt

/-- The client has accepted a reading. -/
def takes : Attempt → Bool
  | .publish accepted _ => 0 < accepted
  | .save _ => false

/-- It has accepted all that were pending. -/
def takes_all : Attempt → Bool
  | .publish _ whole => whole
  | .save _ => false

/-- The numbers were to be saved. -/
def is_save : Attempt → Bool
  | .publish _ _ => false
  | .save _ => true

end Attempt

/-- The local variables of `run`, the publisher handle and the directory of the sequence file.
History variables: `emitted`, the readings of all ticks, `outbox.accepted`, those the client has
accepted, and `attempts`. -/
structure Runner where
  agg : Aggregator
  pending : List ReadyMetric
  seq_dirty : Bool
  last_seq_save : Instant
  outbox : Outbox
  fs : Fs
  stopped : Bool
  emitted : List ReadyMetric
  attempts : List Attempt

/-- What one tick finds: the collected and the custom samples with the uptime, the instants and
orders of the aggregator, whether the client is connected and what it answers, the instants
at which the save timer is read and set, and what the file system answers. -/
structure Tick where
  collected : List (MetricSample × Instant)
  custom : List (MetricSample × Instant)
  uptime_ms : UInt64
  now : Instant
  iteration : Iteration String
  connected : Bool
  outcomes : List Bool
  checked_at : Instant
  saved_at : Instant
  saving : Iteration String
  verdicts : List Verdict

/-- What is fed to the aggregator: nothing is collected unless collection is enabled, and there
is no channel unless custom metrics are. -/
def Tick.feed (cfg : MetricsConfig) (tick : Tick) : Feed where
  samples := (if cfg.enabled then tick.collected else []) ++
    if cfg.custom.enabled then tick.custom else []
  uptime_ms := tick.uptime_ms
  now := tick.now
  iteration := tick.iteration

/-- The uptime, a gauge that is never aggregated. -/
def uptime_reading (uptime_ms seq : UInt64) : ReadyMetric where
  name := "uptime_ms"
  agg_cbor := AGG_NONE
  labels := []
  sum := uptime_ms.toNat
  count := none
  min := none
  max := none
  seq := seq
  uptime_ms := uptime_ms

/-- The readings of one tick, and the aggregator that has issued them. -/
def readings (cfg : MetricsConfig) (agg : Aggregator) (feed : Feed) :
    Aggregator × List ReadyMetric :=
  let (agg, ready) := agg.ingest feed
  if cfg.enabled && cfg.groups.system then
    let (seq, agg) := agg.next_seq "uptime_ms"
    (agg, ready ++ [uptime_reading feed.uptime_ms seq])
  else (agg, ready)

/-- Drop the oldest readings beyond the cap. -/
def capped (pending : List ReadyMetric) : List ReadyMetric :=
  if MAX_PENDING < pending.length then pending.drop (pending.length - MAX_PENDING) else pending

namespace Runner

/-- What `run` does before its loop. -/
def new (c : Ciborium) (cfg : MetricsConfig) (publisher : MqttPublisher) (fs : Fs) (now : Instant) :
    Except String Runner := do
  let (agg, fs) ← Aggregator.new c cfg fs
  return {
    agg := agg
    pending := []
    seq_dirty := false
    last_seq_save := now
    outbox := ⟨publisher, []⟩
    fs := fs
    stopped := false
    emitted := []
    attempts := [] }

/-- `save_seq`, its result looked at. -/
def save_seq (c : Ciborium) (iteration : Iteration String) (verdicts : List Verdict) (self : Runner) :
    Runner :=
  match self.agg.save_seq c iteration { self.fs with verdicts := verdicts } with
  | .ok _ fs => { self with fs := fs, attempts := self.attempts ++ [.save true] }
  | .error _ fs => { self with fs := fs, attempts := self.attempts ++ [.save false] }

/-- A pending list that was accepted as a whole. -/
def published (c : Ciborium) (tick : Tick) (self : Runner) : Runner :=
  let self := { self with pending := [], seq_dirty := true }
  if SEQ_SAVE_INTERVAL ≤ tick.checked_at - self.last_seq_save then
    { self.save_seq c tick.saving tick.verdicts with
      last_seq_save := tick.saved_at
      seq_dirty := false }
  else self

/-- The readings of a tick join the pending ones. -/
def collect (cfg : MetricsConfig) (tick : Tick) (self : Runner) : Runner :=
  let (agg, ready) := readings cfg self.agg (tick.feed cfg)
  { self with
    agg := agg
    pending := capped (self.pending ++ ready)
    emitted := self.emitted ++ ready }

/-- The client takes some of the pending readings, or all of them. -/
def publish (c : Ciborium) (tick : Tick) (self : Runner) : Runner :=
  let client := { self.outbox.client with connected := tick.connected, outcomes := tick.outcomes }
  if self.pending.isEmpty || !client.is_connected then self
  else
    match publish_metrics c self.pending ⟨client, self.outbox.accepted⟩ with
    | .ok _ outbox => { self with
        outbox := outbox
        attempts := self.attempts ++ [Attempt.publish self.pending.length true] }.published c tick
    | .error _ outbox => { self with
        outbox := outbox
        attempts := self.attempts ++
          [.publish (outbox.accepted.length - self.outbox.accepted.length) false] }

def tick (c : Ciborium) (cfg : MetricsConfig) (tick : Tick) (self : Runner) : Runner :=
  (self.collect cfg tick).publish c tick

/-- What `run` does after its loop. -/
def shutdown (c : Ciborium) (iteration : Iteration String) (verdicts : List Verdict) (self : Runner) :
    Runner :=
  { if self.seq_dirty then self.save_seq c iteration verdicts else self with stopped := true }

end Runner

/-- A tick, which runs to its end once `select!` has chosen it, or the shutdown signal. -/
inductive Event where
  | tick (tick : Tick)
  | shutdown (iteration : Iteration String) (verdicts : List Verdict)

/-- `run`: the loop and what comes after it. -/
def run (c : Ciborium) (cfg : MetricsConfig) : Machine Runner Event where
  step s
    | .tick tick => if s.stopped then none else some (s.tick c cfg tick)
    | .shutdown iteration verdicts =>
      if s.stopped then none else some (s.shutdown c iteration verdicts)

end spotflowd.metrics
