import Spotflowd.Buffer.Contents
import Spotflowd.Buffer.Undisturbed

open effect fs chunked
open spotflowd.config spotflowd.log_entry

namespace spotflowd.buffer

/-- There is room for the pieces: `used` bytes are within the limit whenever one is
written, every piece serializes, and the numbers from `seq` on do not run out. -/
def Room (c : Ciborium) (limit : Nat) : List (List LogEntry) → Nat → Nat → Prop
  | [], _, _ => True
  | piece :: pieces, used, seq =>
    used ≤ limit ∧ seq < 2 ^ 64 ∧ ∃ bytes, c.into_writer piece = some bytes ∧
      Room c limit pieces (used + bytes.length) (seq + 1)

theorem Room.of_le {c : Ciborium} {limit used used' seq : Nat} {pieces : List (List LogEntry)}
    (hroom : Room c limit pieces used' seq) (hle : used ≤ used') : Room c limit pieces used seq := by
  induction pieces generalizing used used' seq with
  | nil => trivial
  | cons piece pieces ih =>
    obtain ⟨hused, hseq, bytes, hbytes, hrest⟩ := hroom
    exact ⟨hle.trans hused, hseq, bytes, hbytes, ih hrest (Nat.add_le_add_right hle _)⟩

instance decidableRoom (c : Ciborium) (limit : Nat) : (pieces : List (List LogEntry)) →
    (used seq : Nat) → Decidable (Room c limit pieces used seq)
  | [], _, _ => isTrue trivial
  | piece :: pieces, used, seq =>
    match hbytes : c.into_writer piece with
    | none => isFalse fun hroom => by
        obtain ⟨-, -, bytes, hsome, -⟩ := hroom
        rw [hbytes] at hsome
        cases hsome
    | some bytes =>
      have := decidableRoom c limit pieces (used + bytes.length) (seq + 1)
      decidable_of_iff (used ≤ limit ∧ seq < 2 ^ 64 ∧
          Room c limit pieces (used + bytes.length) (seq + 1)) (by simp [Room, hbytes])

/-- No file operation fails and the spool can take the pieces. -/
structure Fits (c : Ciborium) (pieces : List (List LogEntry)) (s : Storage) : Prop where
  quiet : s.fs.verdicts = []
  room : Room c s.buf.max_bytes pieces (spool_bytes s.fs.files) (next_seq s.fs.files)

/-- No file operation fails and the spool can take what is in memory. -/
def FlushFits (c : Ciborium) (s : Storage) : Prop :=
  Fits c (chunks s.buf.cfg.disk_chunk_max_entries s.buf.memory) s

/-- No file operation fails, and when the memory is full the spool can take it. -/
structure PushFits (c : Ciborium) (s : Storage) : Prop where
  quiet : s.fs.verdicts = []
  flush : s.buf.cfg.memory_max_entries ≤ s.buf.memory.length → FlushFits c s

instance (c : Ciborium) (s : Storage) : Decidable (FlushFits c s) :=
  decidable_of_iff (s.fs.verdicts.isEmpty ∧ Room c s.buf.max_bytes
      (chunks s.buf.cfg.disk_chunk_max_entries s.buf.memory) (spool_bytes s.fs.files)
      (next_seq s.fs.files))
    ⟨fun h => ⟨List.isEmpty_iff.mp h.1, h.2⟩, fun h => ⟨List.isEmpty_iff.mpr h.1, h.2⟩⟩

instance (c : Ciborium) (s : Storage) : Decidable (PushFits c s) :=
  decidable_of_iff (s.fs.verdicts.isEmpty ∧
      (s.buf.cfg.memory_max_entries ≤ s.buf.memory.length → FlushFits c s))
    ⟨fun h => ⟨List.isEmpty_iff.mp h.1, h.2⟩, fun h => ⟨List.isEmpty_iff.mpr h.1, h.2⟩⟩

/-- What is allowed to be pushed one after another: `allowed` holds before every push. -/
def BeforeEach (c : Ciborium) (allowed : Storage → Prop) : List LogEntry → Storage → Prop
  | [], _ => True
  | entry :: entries, s =>
    allowed s ∧ BeforeEach c allowed entries (finalState (Buffer.push c entry s))

instance decidableBeforeEach (c : Ciborium) (allowed : Storage → Prop)
    [∀ s, Decidable (allowed s)] : (entries : List LogEntry) → (s : Storage) →
    Decidable (BeforeEach c allowed entries s)
  | [], _ => isTrue trivial
  | entry :: entries, s =>
    have := decidableBeforeEach c allowed entries (finalState (Buffer.push c entry s))
    inferInstanceAs (Decidable (_ ∧ _))

/-- What writing into sufficient room does to the disk: the chunks that were there
stay as they are, and the written entries come on top. -/
structure Grows (c : Ciborium) (added : List LogEntry) (s t : Storage) : Prop where
  quiet : t.fs.verdicts = []
  cfg : t.buf.cfg = s.buf.cfg
  removed : t.fs.removed = s.fs.removed
  kept : ∀ name content, is_chunk_file name = true → s.fs.files.lookup name = some content →
    t.fs.files.lookup name = some content
  entries : disk_entries c t.fs.files = ↑added + disk_entries c s.fs.files

theorem Grows.nil {c : Ciborium} {s : Storage} (hquiet : s.fs.verdicts = []) : Grows c [] s s :=
  ⟨hquiet, rfl, rfl, fun _ _ _ h => h, by simp⟩

theorem Grows.trans {c : Ciborium} {first second : List LogEntry} {s t u : Storage}
    (hfirst : Grows c first s t) (hsecond : Grows c second t u) : Grows c (first ++ second) s u where
  quiet := hsecond.quiet
  cfg := hsecond.cfg.trans hfirst.cfg
  removed := hsecond.removed.trans hfirst.removed
  kept := fun name content hchunk hlookup =>
    hsecond.kept name content hchunk (hfirst.kept name content hchunk hlookup)
  entries := by
    rw [hsecond.entries, hfirst.entries, ← Multiset.coe_add, add_comm (first : Multiset LogEntry) ↑second,
      add_assoc]

namespace Buffer

variable {c : Ciborium} (hround : c.RoundTrips)

/-- Under the limit nothing is evicted. -/
theorem write_chunk_room {entries : List LogEntry} {s : Storage} {bytes : Bytes}
    (hquiet : s.fs.verdicts = []) (hbytes : c.into_writer entries = some bytes)
    (hused : spool_bytes s.fs.files ≤ s.buf.max_bytes) (hseq : next_seq s.fs.files < 2 ^ 64) :
    write_chunk c entries s =
      .ok () (s.store s.fs.files [] (next_seq s.fs.files) bytes) := by
  obtain ⟨gone, d, hevicts, hwrite⟩ := write_chunk_quiet hquiet hbytes
  obtain rfl := hevicts.needed hused
  cases hevicts.removes
  rw [hwrite, Nat.mod_eq_of_lt hseq]

include hround

theorem grows_store {entries : List LogEntry} {s : Storage} {bytes : Bytes}
    (hquiet : s.fs.verdicts = []) (hbytes : c.into_writer entries = some bytes)
    (hseq : next_seq s.fs.files < 2 ^ 64) :
    Grows c entries s (s.store s.fs.files [] (next_seq s.fs.files) bytes) := by
  have hfresh := chunk_name_next_seq_fresh hseq
  refine ⟨hquiet, rfl, by simp [Storage.store], ?_, ?_⟩
  · intro name content hchunk hlookup
    have hne : name ≠ chunk_name (next_seq s.fs.files) := by
      rintro rfl
      exact hfresh (AList.lookup_isSome.mp (by rw [hlookup]; rfl))
    exact (lookup_stored_ne hchunk hne).trans hlookup
  · rw [← chunk_entries_of_written hround hbytes (next_seq s.fs.files)]
    exact total_stored (chunk_entries c) bytes hfresh (chunk_entries_tmp_name c _)

theorem write_chunks_fits {pieces : List (List LogEntry)} {s : Storage} (hfits : Fits c pieces s) :
    ∃ t, write_chunks c pieces s = .ok () t ∧ t.buf.memory = s.buf.memory ∧
      Grows c pieces.flatten s t := by
  induction pieces generalizing s with
  | nil => exact ⟨s, rfl, rfl, .nil hfits.quiet⟩
  | cons piece pieces ih =>
    obtain ⟨hused, hseq, bytes, hbytes, hrest⟩ := hfits.room
    have hwrite := write_chunk_room hfits.quiet hbytes hused hseq
    have hgrows := grows_store hround hfits.quiet hbytes hseq
    have hroom : Fits c pieces (s.store s.fs.files [] (next_seq s.fs.files) bytes) := by
      refine ⟨hfits.quiet, ?_⟩
      have hle := spool_bytes_stored_le s.fs.files (next_seq s.fs.files) bytes
      have hnext := next_seq_stored (d := s.fs.files) bytes le_rfl hseq
      refine Room.of_le ?_ hle
      rw [show next_seq (s.store s.fs.files [] (next_seq s.fs.files) bytes).fs.files =
        next_seq s.fs.files + 1 from hnext]
      exact hrest
    obtain ⟨t, hwrites, hmemory, hgrows'⟩ := ih hroom
    refine ⟨t, ?_, hmemory, hgrows.trans hgrows'⟩
    rw [write_chunks, List.forM_cons, bind_of_ok hwrite]
    exact hwrites

/-- A flush into sufficient room moves the memory to disk. -/
theorem flush_memory_to_disk_fits {s : Storage} (hfits : FlushFits c s) :
    ∃ t, flush_memory_to_disk c s = .ok () t ∧ t.buf.memory = [] ∧ Grows c s.buf.memory s t := by
  by_cases hmemory : s.buf.memory = []
  · exact ⟨s, flush_memory_to_disk_of_empty hmemory, hmemory, by rw [hmemory]; exact .nil hfits.quiet⟩
  · obtain ⟨t, hwrites, hbuf, hgrows⟩ := write_chunks_fits hround (s := s.drained) ⟨hfits.quiet, hfits.room⟩
    rw [flatten_chunks s.buf.cfg.chunk_pos] at hgrows
    refine ⟨t, by rw [flush_memory_to_disk_of_nonempty hmemory, hwrites], hbuf, ?_⟩
    exact ⟨hgrows.quiet, hgrows.cfg, hgrows.removed, hgrows.kept, hgrows.entries⟩

/-- A push into sufficient room adds its entry and disturbs no chunk. -/
theorem push_fits {s : Storage} (entry : LogEntry) (hfits : PushFits c s) :
    ∃ t flushed, push c entry s = .ok () t ∧ Grows c flushed s t ∧
      contents c t = contents c s + {entry} := by
  by_cases hfull : s.buf.cfg.memory_max_entries ≤ s.buf.memory.length
  · obtain ⟨t, hflush, hmemory, hgrows⟩ := flush_memory_to_disk_fits hround (hfits.flush hfull)
    refine ⟨_, s.buf.memory, by rw [push_of_full hfull, bind_of_ok hflush]; rfl, ?_, ?_⟩
    · exact ⟨hgrows.quiet, hgrows.cfg, hgrows.removed, hgrows.kept, hgrows.entries⟩
    · simp only [contents, hmemory, hgrows.entries, List.nil_append, Multiset.coe_singleton]
      exact add_comm _ _
  · refine ⟨_, [], push_of_room _ (not_le.mp hfull), ⟨hfits.quiet, rfl, rfl, fun _ _ _ h => h, ?_⟩, ?_⟩
    · simp
    · simp only [contents, ← Multiset.coe_add, Multiset.coe_singleton]
      exact add_right_comm _ _ _

end Buffer

end spotflowd.buffer
