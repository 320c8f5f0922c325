import Spotflowd.Buffer.Reading
import Spotflowd.Buffer.Undisturbed
import Spotflowd.Mqtt
import Mathlib.Data.UInt

open cbor effect fs
open spotflowd.config spotflowd.log_entry spotflowd.mqtt

namespace spotflowd.mqtt

/-- The message map of an entry, its labels met in the given order. -/
def entry_map_in (labels : List (String × LabelValue)) (entry : LogEntry) : List (Value × Value) :=
  [(.Integer 1, .Text entry.body)] ++
  (match entry.severity with
    | some severity => [(.Integer 4, .Integer severity.code)]
    | none => []) ++
  (if labels.isEmpty then []
    else [(.Integer 5, .Map (labels.map label_to_cbor))]) ++
  (match entry.uptime_ms with
    | some uptime => [(.Integer 6, .Integer uptime.toNat)]
    | none => []) ++
  (match entry.timestamp_ms with
    | some ts => [(.Integer 7, .Integer ts.toNat)]
    | none => [])

theorem entry_map_eq (entry : LogEntry) : entry_map entry = entry_map_in entry.labels.entries entry :=
  rfl

/-- The same fields in the same order with the same values, but for the order of the labels. -/
def SameUpToLabelOrder (fields fields' : List (Value × Value)) : Prop :=
  List.Forall₂ (fun field field' => field = field' ∨
    ∃ labels labels', labels.Perm labels' ∧ field = (.Integer 5, .Map labels) ∧
      field' = (.Integer 5, .Map labels')) fields fields'

theorem SameUpToLabelOrder.refl (fields : List (Value × Value)) : SameUpToLabelOrder fields fields :=
  List.forall₂_same.mpr fun _ _ => Or.inl rfl

theorem SameUpToLabelOrder.append {first first' second second' : List (Value × Value)}
    (hfirst : SameUpToLabelOrder first first') (hsecond : SameUpToLabelOrder second second') :
    SameUpToLabelOrder (first ++ second) (first' ++ second') :=
  List.rel_append hfirst hsecond

/-- The order in which the labels are met shows in nothing else. -/
theorem entry_map_in_of_perm {labels labels' : List (String × LabelValue)}
    (hperm : labels.Perm labels') (entry : LogEntry) :
    SameUpToLabelOrder (entry_map_in labels entry) (entry_map_in labels' entry) := by
  have hempty : labels.isEmpty = labels'.isEmpty := by
    rw [Bool.eq_iff_iff, List.isEmpty_iff, List.isEmpty_iff]
    exact ⟨fun h => (h ▸ hperm).nil_eq.symm, fun h => (h ▸ hperm).eq_nil⟩
  unfold entry_map_in
  rw [hempty]
  refine ((SameUpToLabelOrder.append (.refl _) ?_).append (.refl _)).append (.refl _)
  split
  · exact .nil
  · exact .cons (Or.inr ⟨_, _, hperm.map label_to_cbor, rfl, rfl⟩) .nil

end spotflowd.mqtt

namespace spotflowd.buffer

/-- The spool is transparent. A chunk that has been written is read back, as long as its file is
there and the call does not fail, as the entries it was written from, in their order; so each has
the message it would have had from memory, whatever the orders in which the labels are met. -/
theorem spool_is_transparent {c : Ciborium} (hvalue : c.ValueRoundTrips) (hderived : c.Derived)
    {entries : List LogEntry} {s t : Storage} (hok : Buffer.write_chunk c entries s = .ok () t) :
    ∃ path bytes, is_chunk_file path = true ∧ t.fs.files.lookup path = some bytes ∧
      t.fs.renamed = s.fs.renamed ++ [(path, bytes)] ∧
      ∀ u : Storage, u.fs.files.lookup path = some bytes → u.fs.next.1.fails .read = false →
        ∃ entries' v, Buffer.read_chunk c path u = .ok entries' v ∧ entries' = entries ∧
          List.Forall₂ (fun entry entry' => encode_entry c entry' = encode_entry c entry ∧
            ∀ labels labels', labels.Perm entry.labels.entries →
              labels'.Perm entry'.labels.entries →
              SameUpToLabelOrder (entry_map_in labels entry) (entry_map_in labels' entry'))
            entries entries' := by
  obtain ⟨-, seq, bytes, hbytes, u, hpruned, hfiles, -, hrenamed⟩ := Buffer.write_chunk_ok hok
  refine ⟨chunk_name seq, bytes, is_chunk_file_chunk_name seq, ?_, ?_, ?_⟩
  · rw [hfiles, lookup_stored_self]
  · rw [hrenamed, hpruned.renamed]
  · intro u hlookup hfails
    have hdecode := hderived.roundTrips hvalue entries bytes hbytes
    obtain ⟨-, entries', hread, hok⟩ | ⟨hcause, -⟩ := Buffer.read_chunk_cases (c := c) hlookup
    · rw [hdecode, Option.some.injEq] at hread
      refine ⟨entries', _, hok, hread.symm, ?_⟩
      rw [← hread, List.forall₂_same]
      exact fun entry _ => ⟨rfl, fun labels labels' hperm hperm' =>
        entry_map_in_of_perm (hperm.trans hperm'.symm) entry⟩
    · rw [hfails, hdecode] at hcause
      simp at hcause

/-- One entry with a severity and labels of both kinds, stored in an empty spool. -/
def labelled : LogEntry :=
  { entry "a" with
    severity := some .Critical
    timestamp_ms := some (2 ^ 64 - 1)
    labels := OrderedMap.ofPairs [("n", .Int (-3)), ("s", .Str "-3")] }

theorem spool_is_transparent_labelled :
    ∃ (t : Storage) (path : FileName) (v : Storage),
      Buffer.write_chunk .wire [labelled]
        ⟨⟨.sized 1 1 (by decide) (by decide), [], false⟩, ⟨none, [], [], []⟩⟩ = .ok () t ∧
      Buffer.read_chunk .wire path t = .ok [labelled] v := by
  have hserializes : (Ciborium.wire.into_writer [labelled]).isSome := by decide +kernel
  obtain ⟨bytes, hbytes⟩ := Option.isSome_iff_exists.mp hserializes
  obtain ⟨gone, d, -, hwrite⟩ := Buffer.write_chunk_quiet
    (s := ⟨⟨.sized 1 1 (by decide) (by decide), [], false⟩, ⟨none, [], [], []⟩⟩) rfl hbytes
  obtain ⟨path, bytes', -, hlookup, -, hread⟩ :=
    spool_is_transparent Ciborium.wire_valueRoundTrips Ciborium.wire_derived hwrite
  obtain ⟨entries', v, hok, rfl, -⟩ := hread _ hlookup rfl
  exact ⟨_, path, v, hwrite, hok⟩

end spotflowd.buffer
