import Spotflowd.Lib.Rounding

namespace spotflowd.metrics

def AGG_NONE : UInt8 := 0
def AGG_1MIN : UInt8 := 1
def AGG_1HOUR : UInt8 := 3
def AGG_1DAY : UInt8 := 4

/-- A raw value from the OS. A finite `f64` is the rational number it denotes; sums of them are
exact. -/
inductive MetricValue where
  | Int (i : Int64)
  | Float (f : ℚ)
deriving DecidableEq

def MetricValue.as_f64 : MetricValue → ℚ
  | .Int i => rounding.round 53 i.toInt
  | .Float f => f

/-- The number that a value stands for. -/
def MetricValue.number : MetricValue → ℚ
  | .Int i => i.toInt
  | .Float f => f

abbrev Labels := List (String × String)

/-- A single sample of the collector or of a custom application. -/
structure MetricSample where
  name : String
  value : MetricValue
  labels : Labels
  counter : Bool
  raw : Bool
deriving DecidableEq

/-- A metric ready to publish, raw or aggregated. -/
structure ReadyMetric where
  name : String
  agg_cbor : UInt8
  labels : Labels
  sum : ℚ
  count : Option UInt64
  min : Option ℚ
  max : Option ℚ
  seq : UInt64
  uptime_ms : UInt64
deriving DecidableEq

/-- A sample as it is emitted without aggregation. -/
def MetricSample.ready (self : MetricSample) (uptime_ms seq : UInt64) : ReadyMetric where
  name := self.name
  agg_cbor := AGG_NONE
  labels := self.labels
  sum := self.value.as_f64
  count := none
  min := none
  max := none
  seq := seq
  uptime_ms := uptime_ms

@[simp] theorem MetricSample.ready_agg_cbor (self : MetricSample) (uptime_ms seq : UInt64) :
    (self.ready uptime_ms seq).agg_cbor = AGG_NONE := rfl

end spotflowd.metrics
