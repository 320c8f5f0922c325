import Spotflowd.Ciborium
import Spotflowd.Config
import Spotflowd.Lib.Fs
import Spotflowd.Lib.HashMap
import Spotflowd.Lib.Path
import Spotflowd.Metrics.StreamKey

open cbor effect fs path
open spotflowd.config spotflowd.log_entry

namespace spotflowd.metrics.aggregator

/-- A reading of the monotonic clock, in nanoseconds. -/
abbrev Instant := Nat

abbrev Duration := Nat

def from_secs (secs : Nat) : Duration := secs * 10 ^ 9

structure StreamState where
  name : String
  labels : Labels
  sum : ℚ
  count : UInt64
  min : ℚ
  max : ℚ
  window_start : Instant
  uptime_ms : UInt64
deriving DecidableEq

/-- A window that starts at `now` with its first value. -/
def StreamState.new (name : String) (labels : Labels) (v : ℚ) (uptime_ms : UInt64) (now : Instant) :
    StreamState where
  name := name
  labels := labels
  sum := v
  count := 1
  min := v
  max := v
  window_start := now
  uptime_ms := uptime_ms

def StreamState.update (self : StreamState) (v : ℚ) (uptime_ms : UInt64) : StreamState :=
  { self with
    sum := self.sum + v
    count := self.count + 1
    min := if v < self.min then v else self.min
    max := if v > self.max then v else self.max
    uptime_ms := uptime_ms }

/-- A window as it is emitted. -/
def StreamState.ready (self : StreamState) (agg_cbor : UInt8) (seq : UInt64) : ReadyMetric where
  name := self.name
  agg_cbor := agg_cbor
  labels := self.labels
  sum := self.sum
  count := some self.count
  min := some self.min
  max := some self.max
  seq := seq
  uptime_ms := self.uptime_ms

@[simp] theorem StreamState.ready_agg_cbor (self : StreamState) (agg_cbor : UInt8) (seq : UInt64) :
    (self.ready agg_cbor seq).agg_cbor = agg_cbor := rfl

/-- Maximum number of distinct metric streams tracked simultaneously. -/
def MAX_STREAMS : Nat := 10000

def SEQ_FILE_NAME : FileName := "metrics_seq.cbor"

structure Aggregator where
  agg_cbor : UInt8
  agg_duration : Option Duration
  states : HashMap String StreamState
  seq : HashMap String UInt64

/-- An entry of the saved map; anything but a text with a `u64` is skipped. -/
def load_entry (map : HashMap String UInt64) : Value × Value → HashMap String UInt64
  | (.Text key, seq) =>
    match u64_from_value seq with
    | some n => map.insert key n
    | none => map
  | _ => map

/-- What a sequence file says; a corrupt one is an empty map. -/
def parse_seq (c : Ciborium) (data : Bytes) : HashMap String UInt64 :=
  match c.value_from_reader data with
  | some (.Map entries) => entries.foldl load_entry ∅
  | _ => ∅

/-- A missing file is an empty map. -/
def load_seq (c : Ciborium) (fs : Fs) : HashMap String UInt64 × Fs :=
  match read SEQ_FILE_NAME fs with
  | .error _ fs => (∅, fs)
  | .ok data fs => (parse_seq c data, fs)

/-- Code and length of the configured window. -/
def interval : String → Except String (UInt8 × Option Duration)
  | "none" => .ok (AGG_NONE, none)
  | "1m" => .ok (AGG_1MIN, some (from_secs 60))
  | "1h" => .ok (AGG_1HOUR, some (from_secs 3600))
  | "1d" => .ok (AGG_1DAY, some (from_secs 86400))
  | other => .error ("unknown aggregation_interval: " ++ other)

inductive SaveError where
  | io (e : IoError)
  | cbor
deriving DecidableEq

namespace Aggregator

def new (c : Ciborium) (cfg : MetricsConfig) (fs : Fs) : Except String (Aggregator × Fs) := do
  let (agg_cbor, agg_duration) ← interval cfg.aggregation_interval
  let (seq, fs) := load_seq c fs
  return (⟨agg_cbor, agg_duration, ∅, seq⟩, fs)

/-- The last number issued for a key. -/
def last_seq (self : Aggregator) (key : String) : UInt64 := (self.seq.lookup key).getD 0

/-- The next number for a key, and the aggregator that has issued it. -/
def next_seq (self : Aggregator) (key : String) : UInt64 × Aggregator :=
  let seq := self.last_seq key + 1
  (seq, { self with seq := self.seq.insert key seq })

/-- The body of the loop over the samples; `now` is the instant at which a new window would
start. -/
def ingest_sample (uptime_ms : UInt64) :
    Aggregator × List ReadyMetric → MetricSample × Instant → Aggregator × List ReadyMetric
  | (self, ready), (s, now) =>
    let key := stream_key s.name s.labels
    let v := s.value.as_f64
    if self.agg_duration.isNone || s.counter || s.raw then
      let (seq, self) := self.next_seq key
      (self, ready ++ [s.ready uptime_ms seq])
    else
      match self.states.lookup key with
      | some st => ({ self with states := self.states.insert key (st.update v uptime_ms) }, ready)
      | none =>
        if self.states.keys.length < MAX_STREAMS then
          ({ self with
            states := self.states.insert key (.new s.name s.labels v uptime_ms now) }, ready)
        else (self, ready)

/-- The streams whose window has elapsed at `now`, in the order of an iteration. -/
def expired (self : Aggregator) (duration : Duration) (now : Instant) (iteration : Iteration String) :
    List String :=
  ((iteration.iter self.states).filter fun stream => duration ≤ now - stream.2.window_start).map
    Prod.fst

/-- The body of the loop over the expired streams. -/
def flush_stream : Aggregator × List ReadyMetric → String → Aggregator × List ReadyMetric
  | (self, ready), key =>
    match self.states.lookup key with
    -- the keys are those of the map, each of them once
    | none => (self, ready)
    | some st =>
      let (seq, self) := { self with states := self.states.erase key }.next_seq key
      (self, ready ++ [st.ready self.agg_cbor seq])

end Aggregator

/-- What one call of `ingest` is given and finds: the samples, each with the instant at which
the loop handles it, the instant of the flush and the order in which it meets the streams. -/
structure Feed where
  samples : List (MetricSample × Instant)
  uptime_ms : UInt64
  now : Instant
  iteration : Iteration String

namespace Aggregator

/-- Feed samples from one collection tick. Returns metrics ready to publish. -/
def ingest (self : Aggregator) (feed : Feed) : Aggregator × List ReadyMetric :=
  let (self, ready) := feed.samples.foldl (ingest_sample feed.uptime_ms) (self, [])
  match self.agg_duration with
  | some duration =>
    (self.expired duration feed.now feed.iteration).foldl flush_stream (self, ready)
  | none => (self, ready)

def on_seq_dir (x : FsM Unit) : EStateM SaveError Fs Unit :=
  zoom id (fun fs _ => fs) .io x

/-- Write a temporary file, then rename it. -/
def save_seq (c : Ciborium) (iteration : Iteration String) (self : Aggregator) :
    EStateM SaveError Fs Unit := do
  on_seq_dir create_dir_all
  let map := (iteration.iter self.seq).map fun entry => (Value.Text entry.1, u64_to_value entry.2)
  match c.value_into_writer (.Map map) with
  | none => throw .cbor
  | some buf =>
    let tmp := with_extension SEQ_FILE_NAME "cbor.tmp"
    on_seq_dir (write tmp buf)
    on_seq_dir (rename tmp SEQ_FILE_NAME)

end Aggregator

end spotflowd.metrics.aggregator
