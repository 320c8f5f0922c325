import Spotflowd.Ciborium.Serde
import Spotflowd.Lib.Directory

open cbor
open spotflowd.log_entry

namespace spotflowd

/-- The CBOR crate, a parameter of the development: `ciborium::into_writer` and
`ciborium::from_reader`, on a dynamic value and on a slice of entries. `none` is the
crate's error. -/
structure Ciborium where
  value_into_writer : Value → Option fs.Bytes
  value_from_reader : fs.Bytes → Option Value
  into_writer : List LogEntry → Option fs.Bytes
  from_reader : fs.Bytes → Option (List LogEntry)

/-- What the crate promises: bytes it has produced are read back as what they
were produced from. -/
def Ciborium.RoundTrips (c : Ciborium) : Prop :=
  ∀ entries bytes, c.into_writer entries = some bytes → c.from_reader bytes = some entries

/-- The same promise for dynamic values. -/
def Ciborium.ValueRoundTrips (c : Ciborium) : Prop :=
  ∀ value bytes, c.value_into_writer value = some bytes → c.value_from_reader bytes = some value

/-- The derived serde representation: a slice is written as the array of what its entries
serialize as, and such an array is read item by item. -/
structure Ciborium.Derived (c : Ciborium) : Prop where
  into_writer : ∀ entries bytes, c.into_writer entries = some bytes →
    ∃ values, List.Forall₂ LogEntry.Serializes entries values ∧
      c.value_into_writer (.Array values) = some bytes
  from_reader : ∀ bytes entries values, List.Forall₂ LogEntry.Serializes entries values →
    c.value_from_reader bytes = some (.Array values) →
    c.from_reader bytes = values.mapM LogEntry.from_value

namespace Ciborium

theorem mapM_from_value {entries : List LogEntry} {values : List Value}
    (hvalues : List.Forall₂ LogEntry.Serializes entries values) :
    values.mapM LogEntry.from_value = some entries := by
  induction hvalues with
  | nil => rfl
  | cons hvalue _ ih =>
    rw [List.mapM_cons, hvalue.from_value, ih]
    rfl

/-- With the derived representation, entries round-trip because dynamic values do. -/
theorem Derived.roundTrips {c : Ciborium} (hderived : c.Derived) (hvalue : c.ValueRoundTrips) :
    c.RoundTrips := by
  intro entries bytes hwrite
  obtain ⟨values, hserializes, hbytes⟩ := hderived.into_writer entries bytes hwrite
  rw [hderived.from_reader bytes entries values hserializes (hvalue _ _ hbytes)]
  exact mapM_from_value hserializes

/-- The standard encoding, with the derived serde representation of entries. -/
def wire : Ciborium where
  value_into_writer value := if fits value then some (encode value) else none
  value_from_reader bytes := (decode bytes.length bytes).map Prod.fst
  into_writer entries :=
    let value := Value.Array (entries.map LogEntry.to_value)
    if fits value then some (encode value) else none
  from_reader bytes :=
    match decode bytes.length bytes with
    | some (.Array items, _) => items.mapM LogEntry.from_value
    | _ => none

theorem wire_value_into_writer {value : Value} (hfits : fits value = true) :
    wire.value_into_writer value = some (encode value) := by
  simp only [wire, hfits, if_true]

theorem wire_valueRoundTrips : wire.ValueRoundTrips := by
  intro value bytes hwrite
  simp only [wire] at hwrite ⊢
  split at hwrite
  · next hfits =>
    cases hwrite
    have hdecode := decode_encode hfits le_rfl []
    rw [List.append_nil] at hdecode
    rw [hdecode, Option.map_some]
  · cases hwrite

theorem wire_derived : wire.Derived where
  into_writer entries bytes hwrite := by
    refine ⟨entries.map LogEntry.to_value, ?_, hwrite⟩
    rw [List.forall₂_map_right_iff, List.forall₂_same]
    exact fun entry _ => entry.serializes_to_value
  from_reader bytes entries values _ hread := by
    simp only [wire, Option.map_eq_some_iff] at hread ⊢
    obtain ⟨⟨value, rest⟩, hdecode, rfl⟩ := hread
    rw [hdecode]

theorem wire_roundTrips : wire.RoundTrips := wire_derived.roundTrips wire_valueRoundTrips

theorem wire_reads_back {entries : List log_entry.LogEntry}
    (hfits : (wire.into_writer entries).isSome = true) :
    wire.from_reader ((wire.into_writer entries).getD []) = some entries := by
  obtain ⟨bytes, hbytes⟩ := Option.isSome_iff_exists.mp hfits
  rw [hbytes, Option.getD_some]
  exact wire_roundTrips _ _ hbytes

/-- Values are told apart by their encodings. -/
theorem wire_value_injective {value value' : Value} {bytes : fs.Bytes}
    (hwrite : wire.value_into_writer value = some bytes)
    (hwrite' : wire.value_into_writer value' = some bytes) : value = value' :=
  Option.some.inj ((wire_valueRoundTrips _ _ hwrite).symm.trans (wire_valueRoundTrips _ _ hwrite'))

end Ciborium

end spotflowd
