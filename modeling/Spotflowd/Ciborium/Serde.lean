import Spotflowd.Lib.Cbor
import Spotflowd.LogEntry

open cbor

namespace spotflowd.log_entry

/-- Unit variants serialize as their names. -/
def Severity.to_value : Severity → Value
  | .Debug => .Text "Debug"
  | .Info => .Text "Info"
  | .Warning => .Text "Warning"
  | .Error => .Text "Error"
  | .Critical => .Text "Critical"

def Severity.from_value : Value → Option Severity
  | .Text name =>
    if name = "Debug" then some .Debug
    else if name = "Info" then some .Info
    else if name = "Warning" then some .Warning
    else if name = "Error" then some .Error
    else if name = "Critical" then some .Critical
    else none
  | _ => none

/-- An untagged enum serializes as its payload and is read back by trying the
variants in declaration order. -/
def LabelValue.to_value : LabelValue → Value
  | .Str s => .Text s
  | .Int i => .Integer i.toInt

def LabelValue.from_value : Value → Option LabelValue
  | .Text s => some (.Str s)
  | .Integer i => if -(2 ^ 63) ≤ i ∧ i < 2 ^ 63 then some (.Int (Int64.ofInt i)) else none
  | _ => none

def text_from_value : Value → Option String
  | .Text s => some s
  | _ => none

def u64_to_value (n : UInt64) : Value := .Integer n.toNat

def u64_from_value : Value → Option UInt64
  | .Integer i => if 0 ≤ i ∧ i < 2 ^ 64 then some (UInt64.ofNat i.toNat) else none
  | _ => none

def option_to_value {α : Type} (to_value : α → Value) : Option α → Value
  | none => .Null
  | some a => to_value a

/-- A missing optional field reads as `None`. -/
def option_from_value {α : Type} (from_value : Value → Option α) : Option Value → Option (Option α)
  | none => some none
  | some .Null => some none
  | some v => (from_value v).map some

def pair_from_value (pair : Value × Value) : Option (String × LabelValue) := do
  let key ← text_from_value pair.1
  let value ← LabelValue.from_value pair.2
  return (key, value)

def labels_to_value (labels : OrderedMap String LabelValue) : Value :=
  .Map (labels.entries.map fun (k, v) => (.Text k, v.to_value))

/-- `#[serde(default)]`: a missing map is the empty one. -/
def labels_from_value : Option Value → Option (OrderedMap String LabelValue)
  | none => some ∅
  | some (.Map pairs) => (pairs.mapM pair_from_value).map OrderedMap.ofPairs
  | some _ => none

/-- A struct serializes as a map from its field names, in declaration order. -/
def LogEntry.to_value (e : LogEntry) : Value :=
  .Map [(.Text "body", .Text e.body),
    (.Text "severity", option_to_value Severity.to_value e.severity),
    (.Text "timestamp_ms", option_to_value u64_to_value e.timestamp_ms),
    (.Text "uptime_ms", option_to_value u64_to_value e.uptime_ms),
    (.Text "source", .Text e.source),
    (.Text "labels", labels_to_value e.labels)]

def is_named (name : String) : Value → Bool
  | .Text key => key = name
  | _ => false

/-- The value of a field, if there is one; the derived visitor refuses a field that comes twice. -/
def field (name : String) (pairs : List (Value × Value)) : Option (Option Value) :=
  match pairs.filter fun pair => is_named name pair.1 with
  | [] => some none
  | [pair] => some (some pair.2)
  | _ => none

def LogEntry.from_value : Value → Option LogEntry
  | .Map pairs => do
    let body ← (← field "body" pairs).bind text_from_value
    let severity ← option_from_value Severity.from_value (← field "severity" pairs)
    let timestamp_ms ← option_from_value u64_from_value (← field "timestamp_ms" pairs)
    let uptime_ms ← option_from_value u64_from_value (← field "uptime_ms" pairs)
    let source ← (← field "source" pairs).bind text_from_value
    let labels ← labels_from_value (← field "labels" pairs)
    return { body, severity, timestamp_ms, uptime_ms, source, labels }
  | _ => none

theorem Severity.from_to_value (s : Severity) : Severity.from_value s.to_value = some s := by
  cases s <;> rfl

theorem LabelValue.from_to_value (v : LabelValue) : LabelValue.from_value v.to_value = some v := by
  cases v with
  | Str s => rfl
  | Int i =>
    have hlow := i.le_toInt
    have hhigh := i.toInt_lt
    simp only [LabelValue.to_value, LabelValue.from_value]
    rw [if_pos ⟨by simpa using hlow, by simpa using hhigh⟩, Int64.ofInt_toInt]

theorem u64_from_to_value (n : UInt64) : u64_from_value (u64_to_value n) = some n := by
  have hlt := n.toNat_lt
  simp only [u64_to_value, u64_from_value]
  rw [if_pos ⟨by omega, by omega⟩]
  simp

theorem option_from_to_value {α : Type} {to_value : α → Value} {from_value : Value → Option α}
    (hnull : ∀ a, to_value a ≠ .Null) (hround : ∀ a, from_value (to_value a) = some a)
    (value : Option α) :
    option_from_value from_value (some (option_to_value to_value value)) = some value := by
  cases value with
  | none => rfl
  | some a =>
    have := hround a
    cases hvalue : to_value a <;> simp_all [option_to_value, option_from_value]

/-- Items read back one by one are read back together. -/
theorem mapM_map_of_round {α β : Type} {to_value : α → β} {from_value : β → Option α}
    (hround : ∀ a, from_value (to_value a) = some a) (items : List α) :
    (items.map to_value).mapM from_value = some items := by
  induction items with
  | nil => rfl
  | cons item items ih =>
    rw [List.map_cons, List.mapM_cons, hround, ih]
    rfl

/-- The serialization that meets the labels in the given order, as an iteration over a hash map
meets them in some order. -/
def LogEntry.to_value_in (labels : List (String × LabelValue)) (e : LogEntry) : Value :=
  .Map [(.Text "body", .Text e.body),
    (.Text "severity", option_to_value Severity.to_value e.severity),
    (.Text "timestamp_ms", option_to_value u64_to_value e.timestamp_ms),
    (.Text "uptime_ms", option_to_value u64_to_value e.uptime_ms),
    (.Text "source", .Text e.source),
    (.Text "labels", .Map (labels.map fun (k, v) => (.Text k, v.to_value)))]

/-- What an entry may serialize as. -/
def LogEntry.Serializes (e : LogEntry) (value : Value) : Prop :=
  ∃ labels, labels.Perm e.labels.entries ∧ value = e.to_value_in labels

theorem LogEntry.serializes_to_value (e : LogEntry) : e.Serializes e.to_value :=
  ⟨e.labels.entries, List.Perm.refl _, rfl⟩

/-- Labels are read back in whichever order they were met. -/
theorem labels_from_value_of_perm {labels : OrderedMap String LabelValue}
    {pairs : List (String × LabelValue)} (hperm : pairs.Perm labels.entries) :
    labels_from_value (some (.Map (pairs.map fun (k, v) => (.Text k, v.to_value)))) = some labels := by
  have hpairs : (pairs.map fun pair => (Value.Text pair.1, pair.2.to_value)).mapM pair_from_value =
      some pairs := by
    refine mapM_map_of_round ?_ pairs
    intro pair
    simp [pair_from_value, text_from_value, LabelValue.from_to_value]
  simp only [labels_from_value, hpairs, Option.map_some, OrderedMap.ofPairs_of_perm hperm]

/-- Deserializing what an entry has serialized as gives the entry. -/
theorem LogEntry.Serializes.from_value {e : LogEntry} {value : Value} (hvalue : e.Serializes value) :
    LogEntry.from_value value = some e := by
  obtain ⟨labels, hperm, rfl⟩ := hvalue
  have hseverity_null : ∀ s, Severity.to_value s ≠ .Null := by
    intro s
    cases s <;> simp [Severity.to_value]
  have hnumber_null : ∀ n, u64_to_value n ≠ .Null := by
    intro n
    simp [u64_to_value]
  have hseverity := option_from_to_value hseverity_null Severity.from_to_value e.severity
  have htimestamp := option_from_to_value hnumber_null u64_from_to_value e.timestamp_ms
  have huptime := option_from_to_value hnumber_null u64_from_to_value e.uptime_ms
  have hlabels := labels_from_value_of_perm hperm
  simp [LogEntry.to_value_in, LogEntry.from_value, field, is_named, text_from_value, hseverity,
    htimestamp, huptime, hlabels]

theorem LogEntry.from_to_value (e : LogEntry) : LogEntry.from_value e.to_value = some e :=
  e.serializes_to_value.from_value

end spotflowd.log_entry
