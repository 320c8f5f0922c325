import Spotflowd.Buffer.Reading
import Spotflowd.Buffer.Room
import Spotflowd.Orchestrator.DiskPath
import Mathlib.Tactic.Abel

open effect chunked fs
open spotflowd.buffer spotflowd.log_entry

namespace spotflowd.orchestrator

/-- Pushes that do not overflow append their entries in the order they are made. -/
theorem push_all_of_room {c : Ciborium} {entries : List LogEntry} {s : Storage}
    (hroom : s.buf.memory.length + entries.length ≤ s.buf.cfg.memory_max_entries) :
    push_all c entries s = { s with buf := { s.buf with memory := s.buf.memory ++ entries } } := by
  induction entries generalizing s with
  | nil => simp [push_all]
  | cons entry entries ih =>
    rw [List.length_cons] at hroom
    have hpush := Buffer.push_of_room (c := c) (s := s) entry (by omega)
    rw [push_all, List.foldl_cons, hpush, finalState_ok]
    apply (ih _).trans
    · simp
    · simpa [Nat.add_assoc, Nat.add_comm 1] using hroom

/-- The pushes the tick makes next, if it is about to make any, are allowed. -/
def TickPushes (c : Ciborium) (allowed : Storage → Prop) (storage : Storage) : Tick → Prop
  | .lock_requeue batch => BeforeEach c allowed batch storage
  | .lock_tail _ entries published =>
    BeforeEach c allowed (entries.drop published).reverse storage
  | _ => True

instance (c : Ciborium) (allowed : Storage → Prop) [∀ s, Decidable (allowed s)]
    (storage : Storage) : (tick : Tick) → Decidable (TickPushes c allowed storage tick)
  | .lock_requeue batch => inferInstanceAs (Decidable (BeforeEach c allowed batch storage))
  | .lock_tail _ entries published =>
    inferInstanceAs (Decidable (BeforeEach c allowed (entries.drop published).reverse storage))
  | .idle | .sleeping _ | .lock_memory | .memory_batch _ _ _ | .lock_disk | .read_chunk _
  | .disk_batch _ _ _ _ _ _ | .delete_chunk _ _ _ => isTrue trivial

/-- The pushes the tick makes next find room. -/
abbrev TickFits (c : Ciborium) : Storage → Tick → Prop := TickPushes c (PushFits c)

/-- The steps of one tick in which every push, of the ingestion task or of the recovery,
succeeds and finds the spool under its limit. -/
def RoomyTick (c : Ciborium) (s : System) : Event → Prop
  | .push _ => PushFits c s.storage
  | .link _ => True
  | .tick => s.tick ≠ .idle ∧ TickFits c s.storage s.tick
  | .shutdown => False
  | .flush => False

instance (c : Ciborium) (s : System) : (event : Event) → Decidable (RoomyTick c s event)
  | .push _ => inferInstanceAs (Decidable (PushFits c s.storage))
  | .link _ => inferInstanceAs (Decidable True)
  | .tick => inferInstanceAs (Decidable (s.tick ≠ .idle ∧ TickFits c s.storage s.tick))
  | .shutdown => inferInstanceAs (Decidable False)
  | .flush => inferInstanceAs (Decidable False)

theorem RoomyTick.oneTick {c : Ciborium} {s : System} {event : Event} (hroomy : RoomyTick c s event) :
    OneTick s event := by
  cases event with
  | push entry => trivial
  | link connected => trivial
  | tick => exact hroomy.1
  | shutdown => exact hroomy
  | flush => exact hroomy

/-- Nothing has been lost and nothing has come out of nowhere. -/
def Adds (c : Ciborium) (base : Multiset LogEntry) (received : List LogEntry) (s : Storage) : Prop :=
  s.fs.verdicts = [] ∧ contents c s = base + ↑received

variable {c : Ciborium} {base : Multiset LogEntry}

theorem Adds.push (hround : c.RoundTrips) {received : List LogEntry} {s : Storage}
    (hadds : Adds c base received s) (entry : LogEntry) (hfits : PushFits c s) :
    Adds c base (received ++ [entry]) (finalState (Buffer.push c entry s)) := by
  obtain ⟨t, flushed, hpush, hgrows, hcontents⟩ := Buffer.push_fits hround entry hfits
  rw [hpush, finalState_ok]
  refine ⟨hgrows.quiet, ?_⟩
  rw [hcontents, hadds.2, ← Multiset.coe_add, Multiset.coe_singleton, add_assoc]

/-- What one allowed push extends, several do. -/
theorem push_all_each_extends {allowed : Storage → Prop} {S : List LogEntry → Storage → Prop}
    (hpush : ∀ entry received s, S received s → allowed s →
      S (received ++ [entry]) (finalState (Buffer.push c entry s)))
    {entries received : List LogEntry} {s : Storage} (hstart : S received s)
    (heach : BeforeEach c allowed entries s) : S (received ++ entries) (push_all c entries s) := by
  induction entries generalizing received s with
  | nil => simpa [push_all] using hstart
  | cons entry entries ih =>
    have hrest := ih (hpush entry received s hstart heach.1) heach.2
    rwa [List.append_assoc, List.singleton_append] at hrest

theorem follows_adds (hround : c.RoundTrips) (base : Multiset LogEntry) :
    Follows c (RoomyTick c) (Adds c base) where
  push := fun hallowed hadds => hadds.push hround _ hallowed
  requeue := fun hallowed htick hadds => by
    have hfits := hallowed.2
    rw [htick] at hfits
    exact push_all_each_extends (fun entry _ _ hadds hfits => hadds.push hround entry hfits) hadds hfits

/-- The same while the file at `path` stays what it is. -/
def AddsBeside (c : Ciborium) (base : Multiset LogEntry) (path : FileName) (bytes : Bytes)
    (received : List LogEntry) (s : Storage) : Prop :=
  Adds c base received s ∧ s.fs.files.lookup path = some bytes

section Beside

variable {path : FileName} {bytes : Bytes} (hchunk : is_chunk_file path = true)

include hchunk

theorem AddsBeside.push (hround : c.RoundTrips) {received : List LogEntry} {s : Storage}
    (hadds : AddsBeside c base path bytes received s) (entry : LogEntry) (hfits : PushFits c s) :
    AddsBeside c base path bytes (received ++ [entry]) (finalState (Buffer.push c entry s)) := by
  refine ⟨hadds.1.push hround entry hfits, ?_⟩
  obtain ⟨t, flushed, hpush, hgrows, -⟩ := Buffer.push_fits hround entry hfits
  rw [hpush, finalState_ok]
  exact hgrows.kept path bytes hchunk hadds.2

theorem follows_adds_chunk (hround : c.RoundTrips) (base : Multiset LogEntry)
    (tail : List LogEntry) : FollowsChunk c (RoomyTick c) path (decoded c bytes) tail
      (AddsBeside c (base + ↑(decoded c bytes)) path bytes) (Adds c base) where
  push := fun hallowed hadds => hadds.push hchunk hround _ hallowed
  push_after := fun hallowed hadds => hadds.push hround _ hallowed
  requeue := fun hallowed htick htail hadds => by
    have hfits := hallowed.2
    rw [htick, TickFits, TickPushes, htail] at hfits
    exact push_all_each_extends (fun entry _ _ hadds hfits => hadds.push hchunk hround entry hfits)
      hadds hfits
  delete := fun {s _ received} _ _ hadds => by
    obtain ⟨⟨hquiet, hcontents⟩, hlookup⟩ := hadds
    have hdelete := Buffer.contents_delete_chunk (c := c) hquiet hchunk hlookup
    refine ⟨?_, ?_⟩
    · rw [Buffer.delete_chunk_quiet hquiet hlookup, finalState_ok]
      exact hquiet
    · rw [hcontents, add_right_comm] at hdelete
      exact add_right_cancel hdelete

end Beside

/-- Nothing has come out of nowhere, as far as files count for `f`. -/
def AtMost (f : FileName → Bytes → Multiset LogEntry) (base : Multiset LogEntry)
    (received : List LogEntry) (s : Storage) : Prop :=
  holdings f s ≤ base + ↑received

section AtMost

variable {f : FileName → Bytes → Multiset LogEntry}

theorem AtMost.start (f : FileName → Bytes → Multiset LogEntry) (s : Storage) :
    AtMost f (holdings f s) [] s := by
  simp [AtMost]

theorem AtMost.push (hround : c.RoundTrips) (hcounts : Counts c f) {received : List LogEntry}
    {s : Storage} (hatmost : AtMost f base received s) (entry : LogEntry) :
    AtMost f base (received ++ [entry]) (finalState (Buffer.push c entry s)) := by
  apply (Buffer.push_holdings_le hround hcounts entry s).trans
  rw [← Multiset.coe_add, Multiset.coe_singleton, ← add_assoc]
  gcongr
  exact hatmost

theorem AtMost.push_all (hround : c.RoundTrips) (hcounts : Counts c f)
    {received : List LogEntry} {s : Storage} (entries : List LogEntry)
    (hatmost : AtMost f base received s) :
    AtMost f base (received ++ entries) (push_all c entries s) :=
  push_all_extends (fun entry _ _ hatmost => hatmost.push hround hcounts entry) hatmost

theorem follows_atMost (hround : c.RoundTrips) (hcounts : Counts c f) (base : Multiset LogEntry) :
    Follows c OneTick (AtMost f base) where
  push := fun _ hatmost => hatmost.push hround hcounts _
  requeue := fun _ _ hatmost => hatmost.push_all hround hcounts _

end AtMost

/-- If the next step of the tick is to delete a chunk, the file is gone afterwards. -/
def DeletionDone (c : Ciborium) (s : System) : Tick → Prop
  | .delete_chunk path _ _ => path ∉ (publish_tick c s).storage.fs.files
  | _ => True

instance (c : Ciborium) (s : System) : (tick : Tick) → Decidable (DeletionDone c s tick)
  | .delete_chunk path _ _ =>
    inferInstanceAs (Decidable (path ∉ (publish_tick c s).storage.fs.files))
  | .idle | .sleeping _ | .lock_memory | .memory_batch _ _ _ | .lock_requeue _ | .lock_disk
  | .read_chunk _ | .disk_batch _ _ _ _ _ _ | .lock_tail _ _ _ => isTrue trivial

/-- The steps of one tick in which the file it deletes is gone afterwards. -/
def DeletingTick (c : Ciborium) (s : System) (event : Event) : Prop :=
  OneTick s event ∧ (event = .tick → DeletionDone c s s.tick)

instance (c : Ciborium) (s : System) (event : Event) : Decidable (DeletingTick c s event) :=
  inferInstanceAs (Decidable (_ ∧ _))

/-- While a chunk is worked on, its entries may still be counted twice, on disk and among
what has been pushed back; without its file they are not. -/
def AtMostBeside (c : Ciborium) (base : Multiset LogEntry) (path : FileName)
    (entries received : List LogEntry) (s : Storage) : Prop :=
  AtMost (chunk_entries c) (base + ↑entries) received s ∧
    AtMost (chunk_entries_except c path) base received s

theorem follows_atMost_chunk (hround : c.RoundTrips) (base : Multiset LogEntry) (path : FileName)
    (entries tail : List LogEntry) :
    FollowsChunk c (DeletingTick c) path entries tail (AtMostBeside c base path entries)
      (AtMost (chunk_entries c) base) where
  push := fun _ hatmost => ⟨hatmost.1.push hround (counts_chunk_entries c) _,
    hatmost.2.push hround (counts_chunk_entries_except c path) _⟩
  push_after := fun _ hatmost => hatmost.push hround (counts_chunk_entries c) _
  requeue := fun _ _ _ hatmost => ⟨hatmost.1.push_all hround (counts_chunk_entries c) _,
    hatmost.2.push_all hround (counts_chunk_entries_except c path) _⟩
  delete := fun {s _ _} hallowed htick hatmost => by
    have hgone := hallowed.2 rfl
    rw [htick] at hgone
    simp only [DeletionDone, publish_tick, htick] at hgone
    have hsame : holdings (chunk_entries c) (finalState (Buffer.delete_chunk path s.storage)) =
        holdings (chunk_entries_except c path) (finalState (Buffer.delete_chunk path s.storage)) :=
      (holdings_except_of_notMem c hgone).symm
    rw [AtMost, hsame]
    exact (Buffer.delete_chunk_holdings_le _ path s.storage).trans hatmost.2

end spotflowd.orchestrator
