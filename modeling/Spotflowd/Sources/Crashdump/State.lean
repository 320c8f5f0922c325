import Spotflowd.Lib.Directory

open fs

namespace spotflowd.sources.crashdump

/-- Seconds after which a delivered id is dropped from the state file. -/
def STATE_RETENTION_SECS : UInt64 := 7 * 24 * 60 * 60

structure DeliveredRecord where
  id : UInt64
  /-- epoch seconds at which the dump was delivered -/
  ts : UInt64
deriving DecidableEq

structure State where
  delivered : List DeliveredRecord := []
deriving DecidableEq

/-- `u64::saturating_sub`. -/
def saturating_sub (a b : UInt64) : UInt64 := if b ≤ a then a - b else 0

namespace State

def contains (self : State) (id : UInt64) : Bool := self.delivered.any fun r => r.id = id

def insert (self : State) (id ts : UInt64) : State :=
  if self.contains id then self else ⟨self.delivered ++ [⟨id, ts⟩]⟩

def prune (self : State) (now : UInt64) : State :=
  ⟨self.delivered.filter fun r => saturating_sub now STATE_RETENTION_SECS ≤ r.ts⟩

theorem contains_iff {self : State} {id : UInt64} :
    self.contains id = true ↔ ∃ r ∈ self.delivered, r.id = id := by
  simp [contains]

theorem mem_insert {self : State} {id ts : UInt64} {r : DeliveredRecord}
    (hmem : r ∈ (self.insert id ts).delivered) : r ∈ self.delivered ∨ r = ⟨id, ts⟩ := by
  unfold insert at hmem
  split at hmem
  · exact Or.inl hmem
  · obtain hold | hnew := List.mem_append.mp hmem
    · exact Or.inl hold
    · exact Or.inr (List.mem_singleton.mp hnew)

theorem contains_insert {self : State} {id own ts : UInt64} (hcontains : self.contains id = true) :
    (self.insert own ts).contains id = true := by
  obtain ⟨r, hr, hid⟩ := contains_iff.mp hcontains
  unfold insert
  split
  · exact hcontains
  · exact contains_iff.mpr ⟨r, List.mem_append_left _ hr, hid⟩

theorem contains_insert_self (self : State) (id ts : UInt64) :
    (self.insert id ts).contains id = true := by
  rw [insert]
  split
  · assumption
  · exact contains_iff.mpr ⟨⟨id, ts⟩, List.mem_append_right _ List.mem_cons_self, rfl⟩

theorem mem_prune {self : State} {now : UInt64} {r : DeliveredRecord}
    (hmem : r ∈ (self.prune now).delivered) : r ∈ self.delivered :=
  (List.mem_filter.mp hmem).1

end State

/-- The JSON crate, a parameter of the development: `serde_json::to_vec` and
`serde_json::from_slice` on the state. `none` is the crate's error. -/
structure SerdeJson where
  to_vec : State → Option Bytes
  from_slice : Bytes → Option State

/-- What the crate promises: bytes it has produced are read back as what they were
produced from. -/
def SerdeJson.RoundTrips (json : SerdeJson) : Prop :=
  ∀ state bytes, json.to_vec state = some bytes → json.from_slice bytes = some state

end spotflowd.sources.crashdump
