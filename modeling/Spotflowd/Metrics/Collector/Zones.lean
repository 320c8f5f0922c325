import Spotflowd.Lib.Labels
import Spotflowd.Metrics.Collector

open labels
open spotflowd.metrics.aggregator (stream_key joined toList_stream_key)

namespace spotflowd.metrics.collector

theorem lookup_count_type (counts : HashMap String Nat) (zone_type other : String) :
    ((count_type counts zone_type).lookup other).getD 0 =
      (counts.lookup other).getD 0 + if other = zone_type then 1 else 0 := by
  rw [count_type]
  split
  · next heq => rw [heq, AList.lookup_insert, Option.getD_some]
  · next hne => rw [AList.lookup_insert_ne hne, Nat.add_zero]

/-- The first pass counts. -/
theorem lookup_count_types (types : List String) (counts : HashMap String Nat) (zone_type : String) :
    ((types.foldl count_type counts).lookup zone_type).getD 0 =
      (counts.lookup zone_type).getD 0 + types.count zone_type := by
  induction types generalizing counts with
  | nil => rfl
  | cons first types ih =>
    rw [List.foldl_cons, ih, lookup_count_type, List.count_cons]
    by_cases heq : zone_type = first
    · simp only [heq, if_true, beq_self_eq_true]
      omega
    · simp only [heq, Ne.symm heq, if_false, beq_iff_eq, Nat.add_zero]

/-- `format!("{zone_type}_{idx}")` -/
def indexed (zone_type : String) (idx : Nat) : String := zone_type ++ "_" ++ toString idx

/-- The second pass numbers the zones of a type that several have. What it has seen of such a type is
what was passed. -/
theorem foldl_label_zone {types : List String} {type_count : HashMap String Nat}
    (hcount : ∀ zone_type, (type_count.lookup zone_type).getD 0 = types.count zone_type)
    (raw : List (String × ℚ)) {type_seen : HashMap String Nat} {passed : List String}
    (hseen : ∀ zone_type, 1 < types.count zone_type →
      (type_seen.lookup zone_type).getD 0 = passed.count zone_type) (zones : List (String × ℚ)) :
    (raw.foldl (label_zone type_count) (type_seen, zones)).2 =
      zones ++ ((occurrences passed (raw.map Prod.fst)).map (label indexed types)).zip (raw.map Prod.snd) := by
  induction raw generalizing type_seen passed zones with
  | nil => simp [occurrences]
  | cons zone raw ih =>
    obtain ⟨zone_type, celsius⟩ := zone
    rw [List.foldl_cons, label_zone, hcount]
    by_cases hmore : 1 < types.count zone_type
    · have hnext : ∀ other, 1 < types.count other →
          ((count_type type_seen zone_type).lookup other).getD 0 = (zone_type :: passed).count other := by
        intro other hother
        rw [lookup_count_type, hseen other hother, List.count_cons]
        by_cases heq : other = zone_type
        · simp [heq]
        · simp [heq, Ne.symm heq]
      rw [if_pos hmore, ih hnext, hseen zone_type hmore]
      simp [occurrences, label, hmore, indexed]
    · have hnext : ∀ other, 1 < types.count other →
          (type_seen.lookup other).getD 0 = (zone_type :: passed).count other := by
        intro other hother
        have hne : zone_type ≠ other := fun heq => hmore (heq ▸ hother)
        rw [hseen other hother, List.count_cons_of_ne hne]
      rw [if_neg hmore, ih hnext]
      simp [occurrences, label, hmore]

/-- The zones keep their order and their temperatures. -/
theorem label_zones_eq (raw : List (String × ℚ)) :
    label_zones raw = (labelled indexed (raw.map Prod.fst)).zip (raw.map Prod.snd) := by
  have hcount : ∀ zone_type, ((((raw.map Prod.fst).foldl count_type ∅).lookup zone_type).getD 0) =
      (raw.map Prod.fst).count zone_type := by
    intro zone_type
    rw [lookup_count_types, AList.lookup_empty, Option.getD_none, Nat.zero_add]
  have hseen : ∀ zone_type, 1 < (raw.map Prod.fst).count zone_type →
      ((∅ : HashMap String Nat).lookup zone_type).getD 0 = ([] : List String).count zone_type := by
    intro zone_type _
    rw [AList.lookup_empty]
    rfl
  rw [label_zones, foldl_label_zone hcount raw hseen, List.nil_append]
  rfl

theorem length_labelled (types : List String) : (labelled indexed types).length = types.length := by
  rw [labelled, List.length_map, ← List.length_map (f := Prod.fst), map_fst_occurrences]

theorem map_fst_label_zones (raw : List (String × ℚ)) :
    (label_zones raw).map Prod.fst = labelled indexed (raw.map Prod.fst) := by
  rw [label_zones_eq, List.map_fst_zip]
  rw [length_labelled, List.length_map, List.length_map]

theorem map_snd_label_zones (raw : List (String × ℚ)) :
    (label_zones raw).map Prod.snd = raw.map Prod.snd := by
  rw [label_zones_eq, List.map_snd_zip]
  rw [length_labelled, List.length_map, List.length_map]

theorem toList_indexed (zone_type : String) (idx : Nat) :
    (indexed zone_type idx).toList = zone_type.toList ++ '_' :: Nat.toDigits 10 idx := by
  rw [indexed, String.toList_append, String.toList_append, List.append_assoc]
  have hdigits : (toString idx).toList = Nat.toDigits 10 idx := by
    simp [toString, Nat.repr]
  rw [hdigits]
  rfl

/-- The index is what comes after the last underscore. -/
theorem indexed_inj (a b : String) (n k : Nat) (heq : indexed a n = indexed b k) : a = b ∧ n = k := by
  have hlists := congrArg String.toList heq
  rw [toList_indexed, toList_indexed] at hlists
  obtain ⟨htype, hindex⟩ := separator.append_cons_inj_last (str.not_mem_toDigits (by decide))
    (str.not_mem_toDigits (by decide)) hlists
  refine ⟨String.toList_inj.mp htype, ?_⟩
  have hdigits := str.decimal_toDigits n
  rw [hindex, str.decimal_toDigits, Option.some.injEq] at hdigits
  exact hdigits.symm

theorem zone_key_inj {a b : String × ℚ}
    (heq : stream_key (zone_sample a).name (zone_sample a).labels =
      stream_key (zone_sample b).name (zone_sample b).labels) : a.1 = b.1 := by
  have hlists := congrArg String.toList heq
  rw [toList_stream_key, toList_stream_key] at hlists
  apply String.toList_inj.mp
  simpa [zone_sample, sample, flagged_sample, joined] using hlists

/-- The zones keep their order and their temperatures, and all of them have different labels and
different keys in the aggregator, if and only if no type that one zone has is already the label of one
of several zones. -/
theorem zone_labels_are_unique_iff (raw : List (String × ℚ)) :
    ((label_zones raw).map Prod.snd = raw.map Prod.snd ∧ ((label_zones raw).map Prod.fst).Nodup ∧
      ((label_zones raw).map fun zone =>
        stream_key (zone_sample zone).name (zone_sample zone).labels).Nodup) ↔
    ∀ a ∈ raw.map Prod.fst, (raw.map Prod.fst).count a = 1 →
      ∀ b ∈ raw.map Prod.fst, 1 < (raw.map Prod.fst).count b →
        ∀ n < (raw.map Prod.fst).count b, a ≠ b ++ "_" ++ toString n := by
  have hkeys : ((label_zones raw).map Prod.fst).Nodup → ((label_zones raw).map fun zone =>
      stream_key (zone_sample zone).name (zone_sample zone).labels).Nodup := by
    intro hnodup
    refine (List.nodup_map_iff_inj_on hnodup.of_map).mpr fun a ha b hb heq => ?_
    exact List.inj_on_of_nodup_map hnodup ha hb (zone_key_inj heq)
  rw [and_iff_right (map_snd_label_zones raw), and_iff_left_of_imp hkeys, map_fst_label_zones]
  exact nodup_labelled_iff indexed_inj (raw.map Prod.fst)

/-- Two zones of a type `a` and one of a type `a_0`. -/
def clashing_zones : Proc :=
  { Proc.silent with thermal := some [⟨"thermal_zone0", some "40000\n".toList, some "a\n".toList⟩,
      ⟨"thermal_zone1", some "50000\n".toList, some "a\n".toList⟩,
      ⟨"thermal_zone2", some "60000\n".toList, some "a_0\n".toList⟩] }

theorem zones_share_a_label :
    read_thermal_zones clashing_zones.thermal = [("a_0", 40), ("a_1", 50), ("a_0", 60)] ∧
    ((collect_cpu_temp clashing_zones).map fun s => stream_key s.name s.labels) =
      ["cpu_temperature|zone=a_0", "cpu_temperature|zone=a_1", "cpu_temperature|zone=a_0"] ∧
    ¬ ((read_thermal_zones clashing_zones.thermal).map Prod.fst).Nodup := by
  decide +kernel

end spotflowd.metrics.collector
