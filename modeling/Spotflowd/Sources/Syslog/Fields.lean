import Spotflowd.Sources.Syslog.Reading

open str
open spotflowd.log_entry

namespace spotflowd.sources.syslog

/-- What a line tells. -/
structure Fields where
  msg : Str
  severity : Option Severity
  timestamp_ms : Option UInt64
  hostname : Option Str
  process : Option Str
  pid : Option Int

/-- The labels besides the process id. -/
def Fields.label (fields : Fields) (key : String) : Option LabelValue :=
  if key = "source" then some (.Str "syslog")
  else if key = "hostname" then fields.hostname.map fun name => .Str (String.ofList name)
  else if key = "process" then fields.process.map fun name => .Str (String.ofList name)
  else none

/-- The labels are those of the fields, the process id as an `i64`. -/
structure Fields.Labelled (fields : Fields) (labels : OrderedMap String LabelValue) : Prop where
  pid : ∃ pid : Option Int64, labels.get? "pid" = pid.map .Int ∧ fields.pid = pid.map Int64.toInt
  others : ∀ key, key ≠ "pid" → labels.get? key = fields.label key

/-- An entry with these fields and no others. Where the line tells no severity, it is
inferred from the body. -/
structure Fields.Carried (fields : Fields) (entry : LogEntry) : Prop where
  body : strip_ansi fields.msg = .ok entry.body.toList
  severity : entry.severity = fields.severity.or (infer_tracing_severity entry.body.toList)
  timestamp_ms : entry.timestamp_ms = fields.timestamp_ms
  uptime_ms : entry.uptime_ms = none
  source : entry.source = "syslog"
  labels : fields.Labelled entry.labels

/-- An entry with these fields before its body is stripped. -/
structure Fields.Read (fields : Fields) (entry : LogEntry) : Prop where
  body : entry.body = String.ofList fields.msg
  severity : entry.severity = fields.severity
  timestamp_ms : entry.timestamp_ms = fields.timestamp_ms
  uptime_ms : entry.uptime_ms = none
  source : entry.source = "syslog"
  labels : fields.Labelled entry.labels

/-- What is read is carried. -/
theorem Fields.Read.parse_line {fields : Fields} {chrono : Chrono} {line : Str}
    (hread : fields.Read (read_line chrono line)) :
    ∃ entry, parse_line chrono line = .ok entry ∧ fields.Carried entry := by
  obtain ⟨body, hbody⟩ := strip_ansi_total fields.msg
  have hstrip : strip_ansi (read_line chrono line).body.toList = .ok body := by
    rw [hread.body, String.toList_ofList, hbody]
  refine ⟨_, parse_line_eq chrono hstrip, ?_, ?_, hread.timestamp_ms, hread.uptime_ms, hread.source,
    hread.labels⟩
  · rw [hbody, finish, String.toList_ofList]
  · rw [finish, hread.severity, String.toList_ofList]
    cases fields.severity <;> rfl

theorem base_labels_get? (key : String) :
    base_labels.get? key = if key = "source" then some (.Str "syslog") else none := by
  rw [base_labels, OrderedMap.get?_insert, OrderedMap.get?_empty]
  simp only [eq_comm]

theorem insert_pid_get? (labels : OrderedMap String LabelValue) (pid : Option Int64) (key : String) :
    (insert_pid labels pid).get? key =
      if key = "pid" then (pid.map .Int).or (labels.get? key) else labels.get? key := by
  cases pid with
  | none => simp [insert_pid]
  | some pid => simp [insert_pid, OrderedMap.get?_insert, eq_comm]

theorem tag_labels_get? (labels : OrderedMap String LabelValue) (process : Str) (pid : Option Int64)
    (key : String) :
    (tag_labels labels (process, pid)).get? key =
      if key = "pid" then (pid.map .Int).or (labels.get? key)
      else if key = "process" ∧ process ≠ [] then some (.Str (String.ofList process))
      else labels.get? key := by
  rw [tag_labels, insert_pid_get?]
  by_cases hpid : key = "pid"
  · subst hpid
    by_cases hprocess : process = [] <;> simp [hprocess, OrderedMap.get?_insert]
  · by_cases hprocess : process = [] <;> simp [hprocess, hpid, OrderedMap.get?_insert, eq_comm]

end spotflowd.sources.syslog
