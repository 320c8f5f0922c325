import Spotflowd.Lib.OrderedMap
import Mathlib.Data.String.Basic
import Mathlib.Algebra.Ring.Int.Defs
import Mathlib.Algebra.Ring.Nat

namespace spotflowd.log_entry

/-- Severity levels of the Spotflow MQTT encoding (key 4). -/
inductive Severity where
  | Debug
  | Info
  | Warning
  | Error
  | Critical
deriving DecidableEq, Repr

/-- The `repr(u8)` discriminant sent on the wire. -/
def Severity.code : Severity → Nat
  | .Debug => 30
  | .Info => 40
  | .Warning => 50
  | .Error => 60
  | .Critical => 70

def Severity.from_syslog_priority (priority : Nat) : Severity :=
  match priority &&& 0x07 with
  | 0 | 1 | 2 => .Critical
  | 3 => .Error
  | 4 => .Warning
  | 5 | 6 => .Info
  | _ => .Debug

inductive LabelValue where
  | Str (s : String)
  | Int (i : Int64)
deriving DecidableEq

/-- A log entry as it flows through the daemon. `labels` is a hash map in the
source; its iteration order is taken to be the order of the keys. -/
structure LogEntry where
  body : String
  severity : Option Severity
  timestamp_ms : Option UInt64
  uptime_ms : Option UInt64
  source : String
  labels : OrderedMap String LabelValue
deriving DecidableEq

/-- An entry that carries a message and nothing else. -/
def entry (body : String) : LogEntry where
  body := body
  severity := none
  timestamp_ms := none
  uptime_ms := none
  source := "test"
  labels := ∅

end spotflowd.log_entry
