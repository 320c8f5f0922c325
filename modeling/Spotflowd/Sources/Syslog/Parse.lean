import Spotflowd.Lib.Tokens
import Spotflowd.LogEntry
import Spotflowd.Sources

open str
open spotflowd.log_entry

namespace spotflowd.sources.syslog

/-- The time library: RFC 3339 text as milliseconds from the epoch. -/
structure Chrono where
  parse_from_rfc3339 : Str → Option Int64

def base_labels : OrderedMap String LabelValue :=
  (∅ : OrderedMap String LabelValue).insert "source" (.Str "syslog")

/-- Try to infer severity from a body that starts with a time and a level. -/
def infer_tracing_severity (body : Str) : Option Severity :=
  match split_ascii_whitespace body with
  | ts :: level :: _ =>
    if !ts.contains 'T' || !ts.contains ':' then none
    else if level = "ERROR".toList then some .Error
    else if level = "WARN".toList then some .Warning
    else if level = "INFO".toList then some .Info
    else if level = "DEBUG".toList then some .Debug
    else if level = "TRACE".toList then some .Debug
    else none
  | _ => none

def parse_priority (pri : Str) : Severity × Nat :=
  let n := (parse_u8 pri).getD 13
  let severity_code := n &&& 0x07
  (Severity.from_syslog_priority severity_code, n)

/-- RFC 3339 time in milliseconds; a time before the epoch is none. -/
def parse_iso8601_ms (chrono : Chrono) (s : Str) : Option UInt64 :=
  (chrono.parse_from_rfc3339 s).bind fun ms => if 0 ≤ ms then some ms.toUInt64 else none

def insert_pid (labels : OrderedMap String LabelValue) : Option Int64 → OrderedMap String LabelValue
  | some pid => labels.insert "pid" (.Int pid)
  | none => labels

/-- The labels of a header; nil fields have none. -/
def rfc5424_labels (hostname process pid : Str) : OrderedMap String LabelValue :=
  let labels := base_labels
  let labels := if hostname ≠ ['-'] then labels.insert "hostname" (.Str (String.ofList hostname)) else labels
  let labels := if process ≠ ['-'] then labels.insert "process" (.Str (String.ofList process)) else labels
  insert_pid labels (parse_i64 pid)

def rfc5424_entry (chrono : Chrono) (pri timestamp hostname process pid msg : Str) : LogEntry where
  body := String.ofList (trim_start_matches '\uFEFF' msg)
  severity := some (parse_priority pri).1
  timestamp_ms := parse_iso8601_ms chrono timestamp
  uptime_ms := none
  source := "syslog"
  labels := rfc5424_labels hostname process pid

/-- Format: `<PRI>VERSION TIMESTAMP HOSTNAME APP PROCID MSGID SD MSG`. -/
def try_rfc5424 (chrono : Chrono) (line : Str) : Checked (Option LogEntry) := do
  if line.head? ≠ some '<' then
    return none
  match find '>' line with
  | none => return none
  | some stop =>
    let pri_str ← slice line 1 stop
    let rest ← slice_from line (stop + 1)
    if rest.head? ≠ some '1' then
      return none
    let rest := trim_start (← slice_from rest 1)
    let parts := splitn ' ' 7 rest
    if parts.length < 7 then
      return none
    let timestamp ← index parts 0
    let hostname ← index parts 1
    let process ← index parts 2
    let pid ← index parts 3
    let msg ← index parts 6
    return some (rfc5424_entry chrono pri_str timestamp hostname process pid msg)

/-- Parse a tag like `myapp[1234]` into a process name and a pid. -/
def parse_tag (tag : Str) : Checked (Str × Option Int64) := do
  match find '[' tag with
  | some bracket =>
    let process ← slice_to tag bracket
    let pid ← slice_from tag (bracket + 1)
    return (process, parse_i64 (trim_end_matches ']' pid))
  | none => return (tag, none)

/-- The offset of the character at which the `n`-th space from here is reached. -/
def find_nth_space : Nat → Str → Option Nat
  | _, [] => none
  | n, c :: s =>
    let n := if c = ' ' then n - 1 else n
    if n = 0 then some 0 else (find_nth_space n s).map (· + c.utf8Size)

/-- The labels of a tag: its process and its pid, where present. -/
def tag_labels (labels : OrderedMap String LabelValue) : Str × Option Int64 → OrderedMap String LabelValue
  | (process, pid) =>
    let labels := if process ≠ [] then labels.insert "process" (.Str (String.ofList process)) else labels
    insert_pid labels pid

/-- The labels from the fourth token and the fifth. -/
def rfc3164_labels (tokens : List Str) : Checked (OrderedMap String LabelValue) := do
  let labels ← if 3 < tokens.length then do
      let hostname ← index tokens 3
      pure (base_labels.insert "hostname" (.Str (String.ofList hostname)))
    else pure base_labels
  if 4 < tokens.length then
    let tag ← index tokens 4
    return tag_labels labels (← parse_tag (trim_end_matches ':' tag))
  else
    return tag_labels labels ([], none)

def rfc3164_entry (pri body : Str) (labels : OrderedMap String LabelValue) : LogEntry where
  body := String.ofList body
  severity := some (parse_priority pri).1
  timestamp_ms := none
  uptime_ms := none
  source := "syslog"
  labels := labels

/-- Strip everything up to the first `": "`. -/
def strip_tag (tag_and_msg : Str) : Checked Str :=
  match find_str ": ".toList tag_and_msg with
  | some pos => slice_from tag_and_msg (pos + 2)
  | none => pure tag_and_msg

/-- Format: `<PRI>Mon DD HH:MM:SS hostname tag[pid]: message`. -/
def try_rfc3164 (line : Str) : Checked (Option LogEntry) := do
  if line.head? ≠ some '<' then
    return none
  match find '>' line with
  | none => return none
  | some stop =>
    let pri_str ← slice line 1 stop
    let rest ← slice_from line (stop + 1)
    let msg_start := ((find_nth_space 4 rest).map (· + 1)).getD 0
    let labels ← rfc3164_labels (split_ascii_whitespace rest)
    let tag_and_msg ← slice_from rest msg_start
    let body ← strip_tag tag_and_msg
    if body = [] then
      return none
    return some (rfc3164_entry pri_str body labels)

def rsyslog_entry (timestamp_ms : UInt64) (hostname : Str) (tag : Str × Option Int64)
    (message : Str) : LogEntry where
  body := String.ofList message
  severity := none
  timestamp_ms := some timestamp_ms
  uptime_ms := none
  source := "syslog"
  labels := tag_labels (base_labels.insert "hostname" (.Str (String.ofList hostname))) tag

/-- Format, without `<PRI>`: `RFC3339_TIMESTAMP HOSTNAME TAG[PID]: MESSAGE`. -/
def try_rsyslog_default (chrono : Chrono) (line : Str) : Checked (Option LogEntry) := do
  if line.head? = some '<' then
    return none
  match splitn ' ' 4 line with
  | timestamp_str :: hostname :: tag_part :: parts =>
    let message := trim_start (parts.head?.getD [])
    match parse_iso8601_ms chrono timestamp_str with
    | none => return none
    | some timestamp_ms =>
      if message = [] then
        return none
      let tag ← parse_tag (trim_end_matches ':' tag_part)
      return some (rsyslog_entry timestamp_ms hostname tag message)
  | _ => return none

/-- The whole line as the message. -/
def fallback (line : Str) : LogEntry where
  body := String.ofList line
  severity := none
  timestamp_ms := none
  uptime_ms := none
  source := "syslog"
  labels := base_labels

/-- What the three parsers make of a line, or the whole of it. -/
def recognise (chrono : Chrono) (line : Str) : Checked LogEntry := do
  match ← try_rfc5424 chrono line with
  | some entry => return entry
  | none =>
    match ← try_rfc3164 line with
    | some entry => return entry
    | none =>
      match ← try_rsyslog_default chrono line with
      | some entry => return entry
      | none => return fallback line

/-- The entry with its stripped body, and a severity inferred from it if there is none. -/
def finish (entry : LogEntry) (body : Str) : LogEntry :=
  { entry with
    body := String.ofList body
    severity := if entry.severity = none then infer_tracing_severity body else entry.severity }

def parse_line (chrono : Chrono) (line : Str) : Checked LogEntry := do
  let entry ← recognise chrono line
  let body ← strip_ansi entry.body.toList
  return finish entry body

end spotflowd.sources.syslog
