import Spotflowd.Metrics.Publisher
import Mathlib.Tactic.NormNum
import Mathlib.Data.UInt

open cbor
open spotflowd.log_entry

namespace spotflowd.metrics.publisher

def u8_from_value : Value → Option UInt8
  | .Integer i => if 0 ≤ i ∧ i < 2 ^ 8 then some (UInt8.ofNat i.toNat) else none
  | _ => none

/-- A number of either wire type. -/
def number_from_value : Value → Option ℚ
  | .Integer n => some n
  | .Float v => some v
  | _ => none

def label_from_value (pair : Value × Value) : Option (String × String) := do
  let key ← text_from_value pair.1
  let value ← text_from_value pair.2
  return (key, value)

/-- A message without labels is one of a stream without labels. -/
def label_map_from_value : Option Value → Option Labels
  | none => some []
  | some (.Map pairs) => pairs.mapM label_from_value
  | some _ => none

/-- A metric message, by its numbered keys; count, min and max may be left out. -/
def read_metric (pairs : List (Value × Value)) : Option ReadyMetric := do
  let message_type ← (numbered 0 pairs).bind u64_from_value
  let name ← (numbered 21 pairs).bind text_from_value
  let agg_cbor ← (numbered 22 pairs).bind u8_from_value
  let labels ← label_map_from_value (numbered 5 pairs)
  let uptime_ms ← (numbered 6 pairs).bind u64_from_value
  let seq ← (numbered 13 pairs).bind u64_from_value
  let sum ← (numbered 24 pairs).bind number_from_value
  let count ← option_from_value u64_from_value (numbered 26 pairs)
  let min ← option_from_value number_from_value (numbered 27 pairs)
  let max ← option_from_value number_from_value (numbered 28 pairs)
  if message_type = 5 then
    return { name, agg_cbor, labels, sum, count, min, max, seq, uptime_ms }
  else none

theorem u8_from_value_toNat (n : UInt8) : u8_from_value (.Integer n.toNat) = some n := by
  have hlt := n.toNat_lt
  rw [u8_from_value, if_pos ⟨by omega, by omega⟩]
  simp

theorem u64_from_value_toNat (n : UInt64) : u64_from_value (.Integer n.toNat) = some n :=
  u64_from_to_value n

/-- The number that arrives for `v`: 2^63 is let through as an integer and then saturated. -/
def carried (v : ℚ) : ℚ := if v = 2 ^ 63 then 2 ^ 63 - 1 else v

theorem as_i64_intCast (n : Int) : as_i64 n = max (-(2 ^ 63)) (min (2 ^ 63 - 1) n) := by
  simp [as_i64]

theorem number_from_cbor_number (v : ℚ) : number_from_value (cbor_number v) = some (carried v) := by
  unfold cbor_number
  split
  · next hint =>
    obtain ⟨hden, hlow, hhigh⟩ := hint
    obtain ⟨n, rfl⟩ : ∃ n : Int, v = n := ⟨v.num, (Rat.coe_int_num_of_den_eq_one hden).symm⟩
    have hlow : -(2 ^ 63) ≤ n := by exact_mod_cast hlow
    have hhigh : n ≤ 2 ^ 63 := by exact_mod_cast hhigh
    rw [number_from_value, as_i64_intCast, carried]
    by_cases htop : n = 2 ^ 63
    · subst htop
      norm_num
    · have hne : (n : ℚ) ≠ 2 ^ 63 := by exact_mod_cast htop
      rw [if_neg hne, max_eq_right (by omega), min_eq_right (by omega)]
  · next hfloat =>
    have hne : v ≠ 2 ^ 63 := by
      rintro rfl
      exact hfloat ⟨by norm_num, by norm_num, le_rfl⟩
    rw [number_from_value, carried, if_neg hne]

theorem carried_eq_iff (v : ℚ) : carried v = v ↔ v ≠ 2 ^ 63 := by
  unfold carried
  split
  · next htop =>
    subst htop
    norm_num
  · next hne => simp [hne]

/-- The numbered keys a message has, in order. -/
def metric_keys (m : ReadyMetric) : List Int :=
  [0, 21, 22] ++ (if m.labels.isEmpty then [] else [(5 : Int)]) ++ [6, 13, 24] ++
    (match m.count with
      | some _ => [(26 : Int), 27, 28]
      | none => [])

theorem map_fst_metric_map (m : ReadyMetric) :
    (metric_map m).map Prod.fst = (metric_keys m).map Value.Integer := by
  unfold metric_map metric_keys
  cases m.labels.isEmpty <;> cases m.count <;> rfl

theorem nodup_metric_keys (m : ReadyMetric) : (metric_keys m).Nodup := by
  unfold metric_keys
  cases m.labels.isEmpty <;> cases m.count <;> simp

section Fields

variable (m : ReadyMetric)

theorem numbered_labels : numbered 5 (metric_map m) =
    if m.labels.isEmpty then none else some (.Map (m.labels.map label_to_cbor)) := by
  unfold metric_map
  cases m.labels.isEmpty <;> cases m.count <;> rfl

theorem numbered_fixed :
    numbered 0 (metric_map m) = some (.Integer MESSAGE_TYPE_METRIC) ∧
    numbered 21 (metric_map m) = some (.Text m.name) ∧
    numbered 22 (metric_map m) = some (.Integer m.agg_cbor.toNat) ∧
    numbered 6 (metric_map m) = some (.Integer m.uptime_ms.toNat) ∧
    numbered 13 (metric_map m) = some (.Integer m.seq.toNat) ∧
    numbered 24 (metric_map m) = some (cbor_number m.sum) := by
  unfold metric_map
  cases m.labels.isEmpty <;> cases m.count <;> exact ⟨rfl, rfl, rfl, rfl, rfl, rfl⟩

theorem numbered_aggregated :
    numbered 26 (metric_map m) = m.count.map (fun count => .Integer count.toNat) ∧
    numbered 27 (metric_map m) = m.count.map (fun _ => cbor_number (m.min.getD m.sum)) ∧
    numbered 28 (metric_map m) = m.count.map (fun _ => cbor_number (m.max.getD m.sum)) := by
  unfold metric_map
  cases m.labels.isEmpty <;> cases m.count <;> exact ⟨rfl, rfl, rfl⟩

theorem labels_from_metric_map : label_map_from_value (numbered 5 (metric_map m)) = some m.labels := by
  rw [numbered_labels]
  cases hlabels : m.labels.isEmpty with
  | true => rw [if_pos rfl, label_map_from_value, List.isEmpty_iff.mp hlabels]
  | false =>
    have hround : ∀ label, label_from_value (label_to_cbor label) = some label := fun _ => rfl
    exact mapM_map_of_round hround m.labels

end Fields

/-- An optional field that is there exactly when the count is. -/
theorem option_from_value_map {α β : Type} {to_value : α → Value} {from_value : Value → Option β}
    {f : α → β} (hnull : ∀ a, to_value a ≠ .Null) (hread : ∀ a, from_value (to_value a) = some (f a))
    (value : Option α) : option_from_value from_value (value.map to_value) = some (value.map f) := by
  cases value with
  | none => rfl
  | some a =>
    have hsome := hread a
    rw [Option.map_some, Option.map_some]
    cases hvalue : to_value a with
    | Null => exact absurd hvalue (hnull a)
    | _ =>
      rw [hvalue] at hsome
      simp only [option_from_value, hsome, Option.map_some]

theorem cbor_number_ne_null (v : ℚ) : cbor_number v ≠ .Null := by
  unfold cbor_number
  split <;> exact fun h => by cases h

/-- A message is read back as the metric, but for the numbers that do not arrive as they were
and with the sum in place of a bound that is missing. -/
theorem read_metric_map (m : ReadyMetric) : read_metric (metric_map m) = some { m with
    sum := carried m.sum
    min := m.count.map fun _ => carried (m.min.getD m.sum)
    max := m.count.map fun _ => carried (m.max.getD m.sum) } := by
  obtain ⟨htype, hname, hagg, huptime, hseq, hsum⟩ := numbered_fixed m
  obtain ⟨hcount, hmin, hmax⟩ := numbered_aggregated m
  have htype := Option.bind_eq_some_iff.mpr ⟨_, htype, u64_from_value_toNat 5⟩
  have hname : (numbered 21 (metric_map m)).bind text_from_value = some m.name :=
    Option.bind_eq_some_iff.mpr ⟨_, hname, rfl⟩
  have hagg := Option.bind_eq_some_iff.mpr ⟨_, hagg, u8_from_value_toNat m.agg_cbor⟩
  have huptime := Option.bind_eq_some_iff.mpr ⟨_, huptime, u64_from_value_toNat m.uptime_ms⟩
  have hseq := Option.bind_eq_some_iff.mpr ⟨_, hseq, u64_from_value_toNat m.seq⟩
  have hsum := Option.bind_eq_some_iff.mpr ⟨_, hsum, number_from_cbor_number m.sum⟩
  have hcount' := option_from_value_map (f := id) (fun _ h => by cases h) u64_from_value_toNat m.count
  have hbound : ∀ bound, option_from_value number_from_value (m.count.map fun _ => cbor_number bound) =
      some (m.count.map fun _ => carried bound) := fun bound =>
    option_from_value_map (fun _ => cbor_number_ne_null bound) (fun _ => number_from_cbor_number bound) _
  rw [read_metric, htype, hname, hagg, labels_from_metric_map, huptime, hseq, hsum, hcount, hcount',
    hmin, hbound, hmax, hbound]
  simp

/-- The message carries the metric exactly: no key twice, and reading gives back all fields,
with count, min and max present together. The sum stands for a bound that is missing. -/
structure Exact (m : ReadyMetric) (pairs : List (Value × Value)) : Prop where
  keys : (pairs.map Prod.fst).Nodup
  label_keys : ∀ labels, numbered 5 pairs = some (.Map labels) → (labels.map Prod.fst).Nodup
  read : read_metric pairs = some { m with
    min := m.count.map fun _ => m.min.getD m.sum
    max := m.count.map fun _ => m.max.getD m.sum }

/-- None of the numbers in the message is 2^63. -/
def BelowTop (m : ReadyMetric) : Prop :=
  m.sum ≠ 2 ^ 63 ∧ (m.count.isSome → m.min.getD m.sum ≠ 2 ^ 63 ∧ m.max.getD m.sum ≠ 2 ^ 63)

theorem nodup_label_keys {labels : Labels} (hlabels : (labels.map Prod.fst).Nodup) :
    ((labels.map label_to_cbor).map Prod.fst).Nodup := by
  have hkeys : (labels.map label_to_cbor).map Prod.fst = (labels.map Prod.fst).map Value.Text := by
    rw [List.map_map, List.map_map]
    rfl
  rw [hkeys]
  exact hlabels.map fun _ _ => Value.Text.inj

/-- The message of a metric with distinct label keys is exact if and only if none of its numbers
is 2^63. Decoding the payload gives the message. -/
theorem metric_message_is_exact_iff {c : Ciborium} (hround : c.ValueRoundTrips) {m : ReadyMetric}
    (hlabels : (m.labels.map Prod.fst).Nodup) :
    (Exact m (metric_map m) ↔ BelowTop m) ∧ ∀ payload, encode_metric c m = .ok payload →
      c.value_from_reader payload = some (.Map (metric_map m)) := by
  refine ⟨?_, ?_⟩
  · have hread : read_metric (metric_map m) = some { m with
        min := m.count.map fun _ => m.min.getD m.sum
        max := m.count.map fun _ => m.max.getD m.sum } ↔ BelowTop m := by
      rw [read_metric_map, Option.some.injEq, ReadyMetric.mk.injEq]
      cases hcount : m.count <;> simp [BelowTop, hcount, carried_eq_iff]
    constructor
    · exact fun hexact => hread.mp hexact.read
    · intro hbelow
      refine ⟨?_, ?_, hread.mpr hbelow⟩
      · rw [map_fst_metric_map]
        exact (nodup_metric_keys m).map fun _ _ => Value.Integer.inj
      · intro labels hfound
        rw [numbered_labels] at hfound
        split at hfound
        · cases hfound
        · cases hfound
          exact nodup_label_keys hlabels
  · intro payload hencode
    unfold encode_metric at hencode
    split at hencode
    · next buf hwrite =>
      cases hencode
      exact hround _ _ hwrite
    · cases hencode

/-- A one-minute aggregate with bounds at the ends of what an `i64` can hold. -/
def extremes : ReadyMetric where
  name := "fd_max"
  agg_cbor := AGG_1MIN
  labels := [("disk", "sda"), ("kind", "limit")]
  sum := 7 / 2
  count := some 2
  min := some (-(2 ^ 63))
  max := some (2 ^ 63 - 1024)
  seq := 2 ^ 64 - 1
  uptime_ms := 60000

theorem metric_message_is_exact_extremes : Exact extremes (metric_map extremes) := by
  apply (metric_message_is_exact_iff Ciborium.wire_valueRoundTrips (m := extremes) (by decide)).1.mpr
  unfold BelowTop extremes
  norm_num

/-- The greatest number of file descriptors a system can report, as an `f64`: it is sent as
2^63 - 1. -/
theorem greatest_sum_is_not_exact :
    ¬ Exact { extremes with sum := 2 ^ 63, count := none, min := none, max := none }
      (metric_map { extremes with sum := 2 ^ 63, count := none, min := none, max := none }) := by
  intro hexact
  have hread := hexact.read
  rw [read_metric_map, Option.some.injEq, ReadyMetric.mk.injEq] at hread
  exact (carried_eq_iff _).mp hread.2.2.2.1 rfl

end spotflowd.metrics.publisher
