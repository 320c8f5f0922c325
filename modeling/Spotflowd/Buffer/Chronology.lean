import Spotflowd.Buffer.Ascending
import Spotflowd.Buffer.Reading
import Spotflowd.Lib.Machine
import Mathlib.Tactic.Abel

open effect fs chunked
open spotflowd.config spotflowd.log_entry

namespace spotflowd.buffer

/-- A spool that only this buffer has written to, without disturbance. -/
structure Tidy (c : Ciborium) (s : Storage) : Prop where
  quiet : s.fs.verdicts = []
  bound : s.fs.renamed.length < 2 ^ 64
  numbered : Numbered s.fs.renamed.length s.fs.files
  sized : ∀ name content, s.fs.files.lookup name = some content →
    1 ≤ (decoded c content).length ∧ (decoded c content).length ≤ s.buf.cfg.disk_chunk_max_entries

/-- The entries added come after those that were on disk, some of which may have gone; what
has gone is accounted for. -/
structure Extends (c : Ciborium) (added : List LogEntry) (s t : Storage) : Prop where
  tidy : Tidy c t
  cfg : t.buf.cfg = s.buf.cfg
  order : (spooled c t.fs.files).Sublist (spooled c s.fs.files ++ added)
  account : disk_entries c t.fs.files + ↑(removed_entries c t.fs.removed) =
    disk_entries c s.fs.files + ↑(removed_entries c s.fs.removed) + ↑added

theorem Extends.refl {c : Ciborium} {s : Storage} (htidy : Tidy c s) : Extends c [] s s :=
  ⟨htidy, rfl, by simp, by simp⟩

theorem Extends.trans {c : Ciborium} {first second : List LogEntry} {s t u : Storage}
    (hfirst : Extends c first s t) (hsecond : Extends c second t u) :
    Extends c (first ++ second) s u where
  tidy := hsecond.tidy
  cfg := hsecond.cfg.trans hfirst.cfg
  order := by
    rw [← List.append_assoc]
    exact hsecond.order.trans (hfirst.order.append_right _)
  account := by rw [hsecond.account, hfirst.account, ← Multiset.coe_add, add_assoc]

theorem removed_entries_of_removes {c : Ciborium} {d d' : Dir} {gone : List (FileName × Bytes)}
    (hremoves : d.Removes gone d') (hchunks : ∀ file ∈ gone, is_chunk_file file.1 = true) :
    disk_entries c d' + ↑(removed_entries c gone) = disk_entries c d := by
  have htotal := hremoves.total (chunk_entries c)
  have hgone : (↑(removed_entries c gone) : Multiset LogEntry) =
      (gone.map fun file => chunk_entries c file.1 file.2).sum := by
    rw [removed_entries, coe_flatMap]
    congr 1
    apply List.map_congr_left
    intro file hfile
    rw [chunk_entries, if_pos (hchunks file hfile)]
  rw [hgone, disk_entries, add_comm]
  exact htotal

theorem removed_entries_append (c : Ciborium) (first second : List (FileName × Bytes)) :
    removed_entries c (first ++ second) = removed_entries c first ++ removed_entries c second :=
  List.flatMap_append

/-- The pieces serialize and there are numbers left for them. -/
def CanWrite (c : Ciborium) (pieces : List (List LogEntry)) (s : Storage) : Prop :=
  (∀ piece ∈ pieces, (c.into_writer piece).isSome) ∧
    s.fs.renamed.length + pieces.length < 2 ^ 64

instance (c : Ciborium) (pieces : List (List LogEntry)) (s : Storage) :
    Decidable (CanWrite c pieces s) :=
  inferInstanceAs (Decidable (_ ∧ _))

namespace Buffer

variable {c : Ciborium} (hround : c.RoundTrips)

include hround

theorem write_chunk_extends {entries : List LogEntry} {s : Storage} (htidy : Tidy c s)
    (hwrites : (c.into_writer entries).isSome) (hbound : s.fs.renamed.length + 1 < 2 ^ 64)
    (hpos : 1 ≤ entries.length) (hsize : entries.length ≤ s.buf.cfg.disk_chunk_max_entries) :
    ∃ t, write_chunk c entries s = .ok () t ∧ t.buf.memory = s.buf.memory ∧
      t.fs.renamed.length = s.fs.renamed.length + 1 ∧ Extends c entries s t := by
  obtain ⟨bytes, hbytes⟩ := Option.isSome_iff_exists.mp hwrites
  obtain ⟨gone, d, hevicts, hwrite⟩ := write_chunk_quiet htidy.quiet hbytes
  have hdecoded : decoded c bytes = entries := by rw [decoded, hround _ _ hbytes, Option.getD_some]
  obtain ⟨hnumbered, hkept⟩ := spooled_removes (c := c) htidy.numbered (by omega) hevicts.removes
  obtain ⟨hnumbered', hspooled⟩ := spooled_stored (c := c) hnumbered hbound bytes
  have hnext := hnumbered.next_seq_le (by omega)
  rw [Nat.mod_eq_of_lt (show next_seq d < 2 ^ 64 by omega)] at hwrite
  have hfresh := chunk_name_next_seq_fresh (d := d) (by omega)
  refine ⟨_, hwrite, rfl, by simp [Storage.store], ⟨htidy.quiet, ?_, ?_, ?_⟩, rfl, ?_, ?_⟩
  · simpa [Storage.store] using hbound
  · simpa [Storage.store, Fs.files] using hnumbered'
  · intro name content hlookup
    change (stored d (next_seq d) bytes).lookup name = some content at hlookup
    by_cases heq : name = chunk_name (next_seq d)
    · rw [heq, lookup_stored_self, Option.some.injEq] at hlookup
      rw [← hlookup, hdecoded]
      exact ⟨hpos, hsize⟩
    · have hmem : name ∈ stored d (next_seq d) bytes := AList.lookup_isSome.mp (by rw [hlookup]; rfl)
      rw [lookup_stored_ne (hnumbered'.is_chunk_file hmem) heq] at hlookup
      exact htidy.sized name content (hevicts.removes.lookup hlookup)
  · change (spooled c (stored d (next_seq d) bytes)).Sublist _
    rw [hspooled, hdecoded]
    exact hkept.append_right _
  · change disk_entries c (stored d (next_seq d) bytes) +
      ↑(removed_entries c (s.fs.removed ++ gone)) = _
    have hgone := removed_entries_of_removes (c := c) hevicts.removes hevicts.chunks
    rw [disk_entries, total_stored (chunk_entries c) bytes hfresh (chunk_entries_tmp_name c _),
      chunk_entries_of_written hround hbytes, removed_entries_append, ← Multiset.coe_add,
      ← disk_entries, ← hgone]
    abel

theorem write_chunks_extends {pieces : List (List LogEntry)} {s : Storage} (htidy : Tidy c s)
    (hwrites : CanWrite c pieces s)
    (hsizes : ∀ piece ∈ pieces, 1 ≤ piece.length ∧ piece.length ≤ s.buf.cfg.disk_chunk_max_entries) :
    ∃ t, write_chunks c pieces s = .ok () t ∧ t.buf.memory = s.buf.memory ∧
      Extends c pieces.flatten s t := by
  induction pieces generalizing s with
  | nil => exact ⟨s, rfl, rfl, .refl htidy⟩
  | cons piece pieces ih =>
    obtain ⟨hserialize, hbound⟩ := hwrites
    rw [List.length_cons] at hbound
    obtain ⟨hpos, hsize⟩ := hsizes piece List.mem_cons_self
    obtain ⟨t, hwrite, hmemory, hcount, hextends⟩ := write_chunk_extends hround htidy
      (hserialize piece List.mem_cons_self) (by omega) hpos hsize
    obtain ⟨u, hrest, hmemory', hextends'⟩ := ih hextends.tidy
      ⟨fun other hother => hserialize other (List.mem_cons_of_mem _ hother), by omega⟩
      (fun other hother => hextends.cfg ▸ hsizes other (List.mem_cons_of_mem _ hother))
    refine ⟨u, ?_, hmemory'.trans hmemory, hextends.trans hextends'⟩
    rw [write_chunks, List.forM_cons, bind_of_ok hwrite]
    exact hrest

/-- A flush moves the memory to the end of the spool. -/
theorem flush_memory_to_disk_extends {s : Storage} (htidy : Tidy c s)
    (hwrites : CanWrite c (chunks s.buf.cfg.disk_chunk_max_entries s.buf.memory) s) :
    ∃ t, flush_memory_to_disk c s = .ok () t ∧ t.buf.memory = [] ∧ Extends c s.buf.memory s t := by
  by_cases hmemory : s.buf.memory = []
  · exact ⟨s, flush_memory_to_disk_of_empty hmemory, hmemory, by rw [hmemory]; exact .refl htidy⟩
  · have hdrained : Tidy c s.drained := ⟨htidy.quiet, htidy.bound, htidy.numbered, htidy.sized⟩
    obtain ⟨t, hok, hbuf, hextends⟩ := write_chunks_extends hround hdrained hwrites
      fun piece hpiece => length_of_mem_chunks s.buf.cfg.chunk_pos hpiece
    rw [flatten_chunks s.buf.cfg.chunk_pos] at hextends
    refine ⟨t, by rw [flush_memory_to_disk_of_nonempty hmemory, hok], hbuf, ?_⟩
    exact ⟨hextends.tidy, hextends.cfg, hextends.order, hextends.account⟩

end Buffer

/-- The operations of a buffer. -/
inductive Operation where
  | push (entry : LogEntry)
  | flush_memory_to_disk
  | drain_memory
  | next_disk_chunk
  | delete_chunk (path : FileName)
deriving DecidableEq

/-- A buffer and, as a history variable, everything `drain_memory` has returned. -/
structure Drained where
  storage : Storage
  drained : List LogEntry

def operations (c : Ciborium) : Machine Drained Operation where
  step s
    | .push entry => some { s with storage := finalState (Buffer.push c entry s.storage) }
    | .flush_memory_to_disk =>
      some { s with storage := finalState (Buffer.flush_memory_to_disk c s.storage) }
    | .drain_memory =>
      let (entries, buf) := s.storage.buf.drain_memory
      some { storage := { s.storage with buf := buf }, drained := s.drained ++ entries }
    | .next_disk_chunk => some { s with storage := finalState (Buffer.next_disk_chunk s.storage) }
    | .delete_chunk path => some { s with storage := finalState (Buffer.delete_chunk path s.storage) }

/-- What is in memory can be written out. -/
def CanFlush (c : Ciborium) (s : Storage) : Prop :=
  CanWrite c (chunks s.buf.cfg.disk_chunk_max_entries s.buf.memory) s

instance (c : Ciborium) (s : Storage) : Decidable (CanFlush c s) :=
  inferInstanceAs (Decidable (CanWrite _ _ _))

/-- An operation that writes has serializable entries and numbers for them, and only files
that are there are deleted. -/
def Orderly (c : Ciborium) (s : Drained) : Operation → Prop
  | .push _ =>
    s.storage.buf.cfg.memory_max_entries ≤ s.storage.buf.memory.length → CanFlush c s.storage
  | .flush_memory_to_disk => CanFlush c s.storage
  | .drain_memory => True
  | .next_disk_chunk => True
  | .delete_chunk path => path ∈ s.storage.fs.files

instance (c : Ciborium) (s : Drained) : (operation : Operation) → Decidable (Orderly c s operation)
  | .push _ => inferInstanceAs (Decidable (_ → _))
  | .flush_memory_to_disk => inferInstanceAs (Decidable (CanFlush _ _))
  | .drain_memory => inferInstanceAs (Decidable True)
  | .next_disk_chunk => inferInstanceAs (Decidable True)
  | .delete_chunk path => inferInstanceAs (Decidable (path ∈ s.storage.fs.files))

/-- The entries pushed, in push order. -/
def pushed (operations : List Operation) : List LogEntry :=
  operations.filterMap fun
    | .push entry => some entry
    | _ => none

/-- What the buffer has kept of its history. -/
structure Chronological (c : Ciborium) (cfg : ValidBufferConfig) (history : List LogEntry)
    (s : Drained) : Prop where
  tidy : Tidy c s.storage
  same_cfg : s.storage.buf.cfg = cfg
  order : (spooled c s.storage.fs.files ++ s.storage.buf.memory).Sublist history
  account : disk_entries c s.storage.fs.files + ↑(removed_entries c s.storage.fs.removed) +
    ↑s.storage.buf.memory + ↑s.drained = (↑history : Multiset LogEntry)
  room : s.storage.buf.memory.length ≤ cfg.memory_max_entries

section Operations

variable {c : Ciborium} {cfg : ValidBufferConfig} {history : List LogEntry} {s : Drained}

theorem Chronological.flush (hround : c.RoundTrips) (hstate : Chronological c cfg history s)
    (hwrites : CanFlush c s.storage) :
    ∃ t, Buffer.flush_memory_to_disk c s.storage = .ok () t ∧ t.buf.memory = [] ∧
      Chronological c cfg history { s with storage := t } := by
  obtain ⟨t, hok, hmemory, hextends⟩ := Buffer.flush_memory_to_disk_extends hround hstate.tidy hwrites
  refine ⟨t, hok, hmemory, hextends.tidy, hextends.cfg.trans hstate.same_cfg, ?_, ?_, ?_⟩
  · rw [hmemory, List.append_nil]
    exact hextends.order.trans hstate.order
  · rw [← hstate.account, hmemory, hextends.account, Multiset.coe_nil, add_zero]
  · rw [hmemory]
    exact Nat.zero_le _

/-- An entry goes to the end of a memory with room for it. -/
theorem Chronological.append (hstate : Chronological c cfg history s) (entry : LogEntry)
    (hroom : s.storage.buf.memory.length < cfg.memory_max_entries) :
    Chronological c cfg (history ++ [entry]) { s with storage := { s.storage with
      buf := { s.storage.buf with memory := s.storage.buf.memory ++ [entry] } } } where
  tidy := ⟨hstate.tidy.quiet, hstate.tidy.bound, hstate.tidy.numbered, hstate.tidy.sized⟩
  same_cfg := hstate.same_cfg
  order := by
    rw [← List.append_assoc]
    exact hstate.order.append_right _
  account := by
    rw [← Multiset.coe_add, ← Multiset.coe_add, ← hstate.account]
    abel
  room := by
    rw [List.length_append, List.length_singleton]
    omega

theorem Chronological.push (hround : c.RoundTrips) (hstate : Chronological c cfg history s)
    (entry : LogEntry) (hwrites : s.storage.buf.cfg.memory_max_entries ≤ s.storage.buf.memory.length →
      CanFlush c s.storage) :
    Chronological c cfg (history ++ [entry])
      { s with storage := finalState (Buffer.push c entry s.storage) } := by
  by_cases hfull : s.storage.buf.cfg.memory_max_entries ≤ s.storage.buf.memory.length
  · obtain ⟨t, hflush, hmemory, hstate'⟩ := hstate.flush hround (hwrites hfull)
    rw [Buffer.push_of_full hfull, bind_of_ok hflush]
    apply hstate'.append entry
    rw [hmemory]
    exact cfg.memory_pos
  · rw [Buffer.push_of_room entry (not_le.mp hfull)]
    apply hstate.append entry
    rw [← hstate.same_cfg]
    exact not_le.mp hfull

theorem Chronological.drain (hstate : Chronological c cfg history s) :
    Chronological c cfg history { s with
      storage := { s.storage with buf := { s.storage.buf with memory := [] } }
      drained := s.drained ++ s.storage.buf.memory } where
  tidy := ⟨hstate.tidy.quiet, hstate.tidy.bound, hstate.tidy.numbered, hstate.tidy.sized⟩
  same_cfg := hstate.same_cfg
  order := by
    rw [List.append_nil]
    exact (List.sublist_append_left _ _).trans hstate.order
  account := by
    rw [← hstate.account, ← Multiset.coe_add, Multiset.coe_nil]
    abel
  room := Nat.zero_le _

theorem Chronological.next_disk_chunk (hstate : Chronological c cfg history s) :
    Chronological c cfg history
      { s with storage := finalState (Buffer.next_disk_chunk s.storage) } := by
  obtain ⟨next, t, hnext, hfs, hmemory, hcfg, -⟩ := Buffer.next_disk_chunk_quiet hstate.tidy.quiet
  rw [hnext, finalState_ok]
  refine ⟨⟨?_, ?_, ?_, ?_⟩, hcfg.trans hstate.same_cfg, ?_, ?_, ?_⟩
  · rw [hfs]
    exact hstate.tidy.quiet
  · rw [hfs]
    exact hstate.tidy.bound
  · rw [hfs]
    exact hstate.tidy.numbered
  · rw [hfs, hcfg]
    exact hstate.tidy.sized
  · rw [hfs, hmemory]
    exact hstate.order
  · rw [hfs, hmemory]
    exact hstate.account
  · rw [hmemory]
    exact hstate.room

theorem Chronological.delete_chunk (hstate : Chronological c cfg history s) {path : FileName}
    (hpath : path ∈ s.storage.fs.files) :
    Chronological c cfg history
      { s with storage := finalState (Buffer.delete_chunk path s.storage) } := by
  obtain ⟨content, hlookup⟩ := Option.isSome_iff_exists.mp (AList.lookup_isSome.mpr hpath)
  have hchunk := hstate.tidy.numbered.is_chunk_file hpath
  rw [Buffer.delete_chunk_quiet hstate.tidy.quiet hlookup, finalState_ok]
  refine ⟨⟨hstate.tidy.quiet, hstate.tidy.bound, hstate.tidy.numbered.erase path, ?_⟩,
    hstate.same_cfg, ?_, ?_, hstate.room⟩
  · intro name bytes hname
    exact hstate.tidy.sized name bytes ((Dir.Removes.single hlookup).lookup hname)
  · exact ((spooled_erase hstate.tidy.numbered hstate.tidy.bound path).append_right _).trans hstate.order
  · have hgone := removed_entries_of_removes (c := c) (Dir.Removes.single hlookup)
      (by simpa using hchunk)
    rw [← hstate.account, removed_entries_append, ← Multiset.coe_add, ← hgone]
    simp only [Fs.files, Option.getD_some]
    abel

end Operations

theorem Chronological.new (c : Ciborium) (cfg : ValidBufferConfig) {fs : Fs}
    (hquiet : fs.verdicts = []) (hempty : fs.files = ∅) (hrenamed : fs.renamed = [])
    (hremoved : fs.removed = []) : Chronological c cfg [] ⟨Buffer.new cfg fs, []⟩ := by
  have hnew : Buffer.new cfg fs = ⟨⟨cfg, [], false⟩, fs⟩ := by
    simp [Buffer.new, spool_files_newest_first_quiet hquiet, hempty]
  rw [hnew]
  refine ⟨⟨hquiet, by simp [hrenamed], ?_, ?_⟩, rfl, ?_, ?_, Nat.zero_le _⟩
  · intro name hname
    rw [hempty] at hname
    exact absurd hname (AList.notMem_empty name)
  · intro name content hlookup
    simp [hempty] at hlookup
  · simp [hempty, spooled, chunk_names, ordered.ascending]
  · simp [hempty, hremoved, disk_entries, removed_entries]

theorem Chronological.step {c : Ciborium} (hround : c.RoundTrips) {cfg : ValidBufferConfig}
    {past : List Operation} {s t : Drained} {operation : Operation}
    (hstate : Chronological c cfg (pushed past) s) (horderly : Orderly c s operation)
    (hstep : (operations c).step s operation = some t) :
    Chronological c cfg (pushed (past ++ [operation])) t := by
  have hsplit : pushed (past ++ [operation]) = pushed past ++ pushed [operation] :=
    List.filterMap_append
  rw [hsplit]
  cases operation with
  | push entry =>
    cases hstep
    exact hstate.push hround entry horderly
  | flush_memory_to_disk =>
    obtain ⟨u, hok, -, hstate'⟩ := hstate.flush hround horderly
    simp only [operations, hok, finalState_ok, Option.some.injEq] at hstep
    rw [← hstep]
    simpa [pushed] using hstate'
  | drain_memory =>
    cases hstep
    simpa [pushed] using hstate.drain
  | next_disk_chunk =>
    cases hstep
    simpa [pushed] using hstate.next_disk_chunk
  | delete_chunk path =>
    cases hstep
    simpa [pushed] using hstate.delete_chunk horderly

/-- Conservation and chronology. In every state reached from an empty spool, the chunks in
ascending order of their numbers and then the memory are what has been pushed, in push
order, with exactly the entries left out that have been drained, deleted or evicted;
memory and chunks keep within their sizes. -/
theorem buffer_is_chronological {c : Ciborium} (hround : c.RoundTrips) {cfg : ValidBufferConfig}
    {fs : Fs} (hquiet : fs.verdicts = []) (hempty : fs.files = ∅) (hrenamed : fs.renamed = [])
    (hremoved : fs.removed = []) {events : List Operation} {s : Drained}
    (hrun : (operations c).Run (Orderly c) ⟨Buffer.new cfg fs, []⟩ events s) :
    (spooled c s.storage.fs.files ++ s.storage.buf.memory).Sublist (pushed events) ∧
      (pushed events).Perm (spooled c s.storage.fs.files ++ s.storage.buf.memory ++
        (s.drained ++ removed_entries c s.storage.fs.removed)) ∧
      s.storage.buf.memory.length ≤ cfg.memory_max_entries ∧
      ∀ name content, s.storage.fs.files.lookup name = some content →
        1 ≤ (decoded c content).length ∧
          (decoded c content).length ≤ cfg.disk_chunk_max_entries := by
  have hstate : Chronological c cfg (pushed events) s :=
    hrun.history (P := fun past s => Chronological c cfg (pushed past) s)
      (.new c cfg hquiet hempty hrenamed hremoved)
      fun _ _ _ _ hstate horderly hstep => hstate.step hround horderly hstep
  refine ⟨hstate.order, ?_, hstate.room, ?_⟩
  · rw [← Multiset.coe_eq_coe, ← hstate.account]
    simp only [← Multiset.coe_add, coe_spooled]
    abel
  · intro name content hlookup
    rw [← hstate.same_cfg]
    exact hstate.tidy.sized name content hlookup

/-- Three entries, the first two of them in chunks of their own, the first deleted. -/
theorem buffer_is_chronological_deleted :
    ∃ s : Drained, spooled .wire s.storage.fs.files = [entry "b"] ∧
      s.storage.buf.memory = [entry "c"] ∧
      (spooled .wire s.storage.fs.files ++ s.storage.buf.memory).Sublist
        [entry "a", entry "b", entry "c"] ∧
      [entry "a", entry "b", entry "c"].Perm (spooled .wire s.storage.fs.files ++
        s.storage.buf.memory ++ (s.drained ++ removed_entries .wire s.storage.fs.removed)) := by
  have hexec : ((operations .wire).exec (Orderly .wire)
      ⟨Buffer.new (.sized 2 1 (by decide) (by decide)) ⟨none, [], [], []⟩, []⟩
      [.push (entry "a"), .push (entry "b"), .push (entry "c"), .delete_chunk (chunk_name 1)]).any
      (fun s => spooled .wire s.storage.fs.files = [entry "b"] ∧
        s.storage.buf.memory = [entry "c"]) = true := by
    decide +kernel
  obtain ⟨s, hrun, htest⟩ := Machine.exists_run_of_exec _ hexec
  obtain ⟨hspooled, hmemory⟩ := of_decide_eq_true htest
  obtain ⟨horder, haccount, -⟩ := buffer_is_chronological Ciborium.wire_roundTrips rfl rfl rfl rfl hrun
  exact ⟨s, hspooled, hmemory, horder, haccount⟩

end spotflowd.buffer
