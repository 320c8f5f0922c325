import Spotflowd.Lib.Separator
import Spotflowd.Metrics
import Mathlib.Data.List.Sort
import Mathlib.Data.String.Basic

namespace spotflowd.metrics.aggregator

/-- `name`, or `name|key=val|key=val` with the labels sorted by key. -/
def stream_key (name : String) (labels : Labels) : String :=
  if labels.isEmpty then name
  else
    let sorted := labels.insertionSort fun a b => a.1 ≤ b.1
    sorted.foldl (fun key label => key ++ "|" ++ label.1 ++ "=" ++ label.2) name

/-- The labels as they stand behind the name. -/
def joined (labels : Labels) : List Char :=
  labels.flatMap fun label => '|' :: (label.1.toList ++ '=' :: label.2.toList)

theorem toList_foldl_labels (labels : Labels) (key : String) :
    (labels.foldl (fun key label => key ++ "|" ++ label.1 ++ "=" ++ label.2) key).toList =
      key.toList ++ joined labels := by
  induction labels generalizing key with
  | nil => simp [joined]
  | cons label labels ih =>
    rw [List.foldl_cons, ih]
    simp [joined]

theorem toList_stream_key (name : String) (labels : Labels) :
    (stream_key name labels).toList =
      name.toList ++ joined (labels.insertionSort fun a b => a.1 ≤ b.1) := by
  unfold stream_key
  cases labels with
  | nil => simp [joined]
  | cons label labels => exact toList_foldl_labels _ name

@[simp] theorem stream_key_nil (name : String) : stream_key name [] = name := rfl

/-- The label keys are different from each other. -/
def Distinct (labels : Labels) : Prop := (labels.map Prod.fst).Nodup

instance (labels : Labels) : Decidable (Distinct labels) :=
  inferInstanceAs (Decidable (List.Nodup _))

theorem Distinct.eq_of_key_eq {labels : Labels} (hdistinct : Distinct labels)
    {a b : String × String} (ha : a ∈ labels) (hb : b ∈ labels) (hkey : a.1 = b.1) : a = b :=
  List.inj_on_of_nodup_map hdistinct ha hb hkey

/-- Sorting forgets the order of the labels. -/
theorem sorted_perm {labels others : Labels} (hdistinct : Distinct labels) (hperm : others.Perm labels) :
    labels.insertionSort (fun a b => a.1 ≤ b.1) = others.insertionSort fun a b => a.1 ≤ b.1 := by
  refine List.Perm.eq_of_pairwise ?_ (List.pairwise_insertionSort _ _)
    (List.pairwise_insertionSort _ _) ?_
  · intro a b ha hb hab hba
    rw [List.mem_insertionSort] at ha hb
    exact hdistinct.eq_of_key_eq ha (hperm.mem_iff.mp hb) (le_antisymm hab hba)
  · exact (List.perm_insertionSort _ _).trans
      (hperm.symm.trans (List.perm_insertionSort _ _).symm)

/-- The order of the labels does not matter. -/
theorem stream_key_perm {name : String} {labels others : Labels} (hdistinct : Distinct labels)
    (hperm : others.Perm labels) : stream_key name labels = stream_key name others := by
  apply String.toList_inj.mp
  rw [toList_stream_key, toList_stream_key, sorted_perm hdistinct hperm]

/-- No text contains a character that separates it from the next one. -/
structure Clean (name : String) (labels : Labels) : Prop where
  name : '|' ∉ name.toList
  labels : ∀ label ∈ labels, '|' ∉ label.1.toList ∧ '=' ∉ label.1.toList ∧ '|' ∉ label.2.toList

instance (name : String) (labels : Labels) : Decidable (Clean name labels) :=
  decidable_of_iff ('|' ∉ name.toList ∧
    ∀ label ∈ labels, '|' ∉ label.1.toList ∧ '=' ∉ label.1.toList ∧ '|' ∉ label.2.toList)
    ⟨fun h => ⟨h.1, h.2⟩, fun h => ⟨h.1, h.2⟩⟩

/-- Joined labels can be taken apart again. -/
theorem joined_inj {labels others : Labels} {before before' : List Char}
    (hbefore : '|' ∉ before) (hbefore' : '|' ∉ before')
    (hlabels : ∀ label ∈ labels,
      '|' ∉ label.1.toList ∧ '=' ∉ label.1.toList ∧ '|' ∉ label.2.toList)
    (hothers : ∀ label ∈ others,
      '|' ∉ label.1.toList ∧ '=' ∉ label.1.toList ∧ '|' ∉ label.2.toList)
    (heq : before ++ joined labels = before' ++ joined others) :
    before = before' ∧ labels = others := by
  induction labels generalizing before before' others with
  | nil =>
    cases others with
    | nil => simpa [joined] using heq
    | cons label others =>
      rw [show joined [] = [] from rfl, List.append_nil] at heq
      exact absurd (by simp [heq, joined]) hbefore
  | cons label labels ih =>
    cases others with
    | nil =>
      rw [show joined [] = [] from rfl, List.append_nil] at heq
      exact absurd (by simp [← heq, joined]) hbefore'
    | cons other others =>
      obtain ⟨hlabel, hlabels⟩ := List.forall_mem_cons.mp hlabels
      obtain ⟨hother, hothers⟩ := List.forall_mem_cons.mp hothers
      simp only [joined, List.flatMap_cons, List.cons_append, List.append_assoc] at heq
      obtain ⟨hsame, heq⟩ := (separator.append_cons_inj hbefore hbefore').mp heq
      obtain ⟨hkey, heq⟩ := (separator.append_cons_inj hlabel.2.1 hother.2.1).mp heq
      obtain ⟨hvalue, hrest⟩ := ih hlabel.2.2 hother.2.2 hlabels hothers heq
      refine ⟨hsame, ?_⟩
      rw [hrest, Prod.ext (String.toList_inj.mp hkey) (String.toList_inj.mp hvalue)]

/-- Streams free of separators have the same key only if they are the same stream. -/
theorem Clean.same_stream {name other : String} {labels others : Labels} (hclean : Clean name labels)
    (hclean' : Clean other others) (hkey : stream_key name labels = stream_key other others) :
    name = other ∧ others.Perm labels := by
  have heq := congrArg String.toList hkey
  rw [toList_stream_key, toList_stream_key] at heq
  obtain ⟨hname, hsort⟩ := joined_inj hclean.name hclean'.name
    (fun label hmem => hclean.labels label ((List.mem_insertionSort _).mp hmem))
    (fun label hmem => hclean'.labels label ((List.mem_insertionSort _).mp hmem)) heq
  refine ⟨String.toList_inj.mp hname, ?_⟩
  exact (List.perm_insertionSort _ _).symm.trans (hsort ▸ List.perm_insertionSort _ _)

/-- A name that could also be a name with one label. -/
def Divisible (name : String) : Prop :=
  ∃ before key value, name.toList = before ++ '|' :: (key ++ '=' :: value)

/-- A key with labels is divisible. -/
theorem divisible_stream_key (name : String) {labels : Labels} (hne : labels ≠ []) :
    Divisible (stream_key name labels) := by
  cases hsort : labels.insertionSort (fun a b => a.1 ≤ b.1) with
  | nil =>
    have hlength := List.length_insertionSort (fun a b : String × String => a.1 ≤ b.1) labels
    rw [hsort] at hlength
    exact absurd (List.length_eq_zero_iff.mp hlength.symm) hne
  | cons label rest =>
    refine ⟨name.toList, label.1.toList, label.2.toList ++ joined rest, ?_⟩
    rw [toList_stream_key, hsort]
    simp [joined]

/-- A divisible name is the key of another stream. -/
theorem Divisible.collides {name : String} (hdivisible : Divisible name) :
    ∃ other label, stream_key other [label] = name := by
  obtain ⟨before, key, value, hname⟩ := hdivisible
  refine ⟨String.ofList before, (String.ofList key, String.ofList value), ?_⟩
  apply String.toList_inj.mp
  rw [toList_stream_key, hname]
  simp [joined]

end spotflowd.metrics.aggregator
