import Spotflowd.Buffer.Chronology

open effect fs chunked
open spotflowd.config spotflowd.log_entry

namespace spotflowd.buffer

/-- Chunk files a full memory is split into. -/
def full_flush (cfg : ValidBufferConfig) : Nat :=
  (cfg.memory_max_entries + cfg.disk_chunk_max_entries - 1) / cfg.disk_chunk_max_entries

/-- The flushes asked for from outside, on top of those a push starts. -/
def flushes (operations : List Operation) : Nat :=
  operations.countP fun operation => operation = .flush_memory_to_disk

/-- The file holds the piece, and the piece has the size of a chunk. -/
structure ChunkOf (c : Ciborium) (cfg : ValidBufferConfig) (piece : List LogEntry)
    (file : FileName × Bytes) : Prop where
  named : is_chunk_file file.1 = true
  serialized : c.into_writer piece = some file.2
  nonempty : 1 ≤ piece.length
  limited : piece.length ≤ cfg.disk_chunk_max_entries

/-- From `s` to `t`, exactly these pieces have been put in place as chunk files. -/
structure Placed (c : Ciborium) (pieces : List (List LogEntry)) (s t : Storage) : Prop where
  cfg : t.buf.cfg = s.buf.cfg
  files : ∃ written, t.fs.renamed = s.fs.renamed ++ written ∧
    List.Forall₂ (ChunkOf c s.buf.cfg) pieces written

variable {c : Ciborium}

theorem Placed.none {s t : Storage} (hcfg : t.buf.cfg = s.buf.cfg)
    (hrenamed : t.fs.renamed = s.fs.renamed) : Placed c [] s t :=
  ⟨hcfg, [], by rw [hrenamed, List.append_nil], .nil⟩

theorem Placed.trans {first second : List (List LogEntry)} {s t u : Storage}
    (hfirst : Placed c first s t) (hsecond : Placed c second t u) : Placed c (first ++ second) s u := by
  obtain ⟨written, hrenamed, hfiles⟩ := hfirst.files
  obtain ⟨more, hrenamed', hfiles'⟩ := hsecond.files
  refine ⟨hsecond.cfg.trans hfirst.cfg, written ++ more, ?_, ?_⟩
  · rw [hrenamed', hrenamed, List.append_assoc]
  · rw [hfirst.cfg] at hfiles'
    exact List.rel_append hfiles hfiles'

namespace Buffer

/-- A chunk write puts its piece in place or nothing at all. -/
theorem write_chunk_writes {piece : List LogEntry} {s : Storage} (hnonempty : 1 ≤ piece.length)
    (hlimited : piece.length ≤ s.buf.cfg.disk_chunk_max_entries) :
    match write_chunk c piece s with
    | .ok _ t => Placed c [piece] s t
    | .error _ t => Placed c [] s t := by
  cases hwrite : write_chunk c piece s with
  | ok _ t =>
    obtain ⟨hbuf, seq, bytes, hserialized, u, hpruned, -, -, hrenamed⟩ := write_chunk_ok hwrite
    refine ⟨by rw [hbuf], [(chunk_name seq, bytes)], by rw [hrenamed, hpruned.renamed], ?_⟩
    exact .cons ⟨is_chunk_file_chunk_name seq, hserialized, hnonempty, hlimited⟩ .nil
  | error e t =>
    obtain ⟨hbuf, u, hpruned, -, hrenamed, -⟩ := write_chunk_error hwrite
    exact .none (by rw [hbuf]) (hrenamed.trans hpruned.renamed)

/-- Chunk writes put the first few of their pieces in place. -/
theorem write_chunks_writes (pieces : List (List LogEntry)) {s : Storage}
    (hpieces : ∀ piece ∈ pieces, 1 ≤ piece.length ∧ piece.length ≤ s.buf.cfg.disk_chunk_max_entries) :
    ∃ written, written <+: pieces ∧ Placed c written s (finalState (write_chunks c pieces s)) := by
  induction pieces generalizing s with
  | nil => exact ⟨[], List.nil_prefix, .none rfl rfl⟩
  | cons piece pieces ih =>
    obtain ⟨hnonempty, hlimited⟩ := hpieces piece List.mem_cons_self
    have hfirst := write_chunk_writes (c := c) hnonempty hlimited
    rw [write_chunks, List.forM_cons, bind_run]
    cases hwrite : write_chunk c piece s with
    | error e t =>
      rw [hwrite] at hfirst
      exact ⟨[], List.nil_prefix, hfirst⟩
    | ok _ t =>
      rw [hwrite] at hfirst
      obtain ⟨written, hprefix, hrest⟩ := ih (s := t) fun other hother => by
        rw [hfirst.cfg]
        exact hpieces other (List.mem_cons_of_mem _ hother)
      exact ⟨piece :: written, (List.prefix_cons_inj piece).mpr hprefix, hfirst.trans hrest⟩

theorem length_chunks (size : Nat) (values : List LogEntry) :
    (chunks size values).length = (values.length + size - 1) / size := by
  rw [chunks, List.length_map, List.length_range]

/-- A flush writes the memory from its beginning, or a part of it, in no more files than a
full memory takes. -/
theorem flush_writes {s : Storage} (hroom : s.buf.memory.length ≤ s.buf.cfg.memory_max_entries) :
    ∃ written, Placed c written s (finalState (flush_memory_to_disk c s)) ∧
      written.flatten <+: s.buf.memory ∧ written.length ≤ full_flush s.buf.cfg := by
  by_cases hmemory : s.buf.memory = []
  · rw [flush_memory_to_disk_of_empty hmemory]
    exact ⟨[], .none rfl rfl, List.nil_prefix, Nat.zero_le _⟩
  · rw [flush_memory_to_disk_of_nonempty hmemory]
    obtain ⟨written, ⟨rest, hsplit⟩, hplaced⟩ := write_chunks_writes (c := c) (s := s.drained)
      (chunks s.buf.cfg.disk_chunk_max_entries s.buf.memory)
      fun _ hpiece => length_of_mem_chunks s.buf.cfg.chunk_pos hpiece
    have hflatten := flatten_chunks s.buf.cfg.chunk_pos s.buf.memory
    have hlength := length_chunks s.buf.cfg.disk_chunk_max_entries s.buf.memory
    rw [← hsplit, List.flatten_append] at hflatten
    rw [← hsplit, List.length_append] at hlength
    refine ⟨written, ⟨hplaced.cfg, hplaced.files⟩, ⟨rest.flatten, hflatten⟩, ?_⟩
    have hmono : (s.buf.memory.length + s.buf.cfg.disk_chunk_max_entries - 1) /
        s.buf.cfg.disk_chunk_max_entries ≤ full_flush s.buf.cfg :=
      Nat.div_le_div_right (by omega)
    omega

end Buffer

/-- What the flash has taken, whatever has failed: pieces of the pushed entries, each entry
at most once and all in push order, with the memory behind them. -/
structure Worn (c : Ciborium) (cfg : ValidBufferConfig) (start : Storage) (past : List Operation)
    (s : Storage) (pieces : List (List LogEntry)) : Prop where
  same_cfg : start.buf.cfg = cfg
  placed : Placed c pieces start s
  order : (pieces.flatten ++ s.buf.memory).Sublist (pushed past)
  memory : s.buf.memory.length ≤ cfg.memory_max_entries
  count : pieces.length * cfg.memory_max_entries + s.buf.memory.length * full_flush cfg ≤
    ((pushed past).length + flushes past * cfg.memory_max_entries) * full_flush cfg

section Worn

variable {cfg : ValidBufferConfig} {start s : Storage} {past : List Operation}
  {pieces : List (List LogEntry)}

/-- What a flush, within a push or on its own, adds to what has been written. -/
theorem Worn.flush (hworn : Worn c cfg start past s pieces) :
    ∃ written t, finalState (Buffer.flush_memory_to_disk c s) = t ∧ t.buf.memory = [] ∧
      Placed c (pieces ++ written) start t ∧ (pieces ++ written).flatten.Sublist (pushed past) ∧
      written.length ≤ full_flush cfg := by
  have hcfg : s.buf.cfg = cfg := hworn.placed.cfg.trans hworn.same_cfg
  obtain ⟨written, hplaced, ⟨rest, hsplit⟩, hfew⟩ :=
    Buffer.flush_writes (c := c) (s := s) (by rw [hcfg]; exact hworn.memory)
  refine ⟨written, _, rfl, (Buffer.flush_memory_to_disk_buf c s).1, hworn.placed.trans hplaced, ?_,
    hcfg ▸ hfew⟩
  rw [List.flatten_append]
  refine List.Sublist.trans ?_ hworn.order
  rw [← hsplit, ← List.append_assoc]
  exact List.sublist_append_left _ _

/-- The size of the memory after an operation fits what the history pays for. -/
theorem Worn.count_flushed (hworn : Worn c cfg start past s pieces) {written : List (List LogEntry)}
    (hfew : written.length ≤ full_flush cfg) :
    (pieces ++ written).length * cfg.memory_max_entries ≤
      ((pushed past).length + flushes past * cfg.memory_max_entries) * full_flush cfg +
        cfg.memory_max_entries * full_flush cfg - s.buf.memory.length * full_flush cfg := by
  have hcount := hworn.count
  have hmore : written.length * cfg.memory_max_entries ≤ full_flush cfg * cfg.memory_max_entries :=
    Nat.mul_le_mul_right _ hfew
  rw [List.length_append, Nat.add_mul]
  rw [Nat.mul_comm (full_flush cfg)] at hmore
  omega

theorem Worn.push (hworn : Worn c cfg start past s pieces) (entry : LogEntry) :
    ∃ pieces, Worn c cfg start (past ++ [.push entry]) (finalState (Buffer.push c entry s)) pieces := by
  have hcfg : s.buf.cfg = cfg := hworn.placed.cfg.trans hworn.same_cfg
  have hpushed : pushed (past ++ [.push entry]) = pushed past ++ [entry] := List.filterMap_append
  have hflushes : flushes (past ++ [.push entry]) = flushes past := by simp [flushes]
  by_cases hfull : cfg.memory_max_entries ≤ s.buf.memory.length
  · obtain ⟨written, t, hflush, hmemory, hplaced, horder, hfew⟩ := hworn.flush
    have hcount := hworn.count_flushed hfew
    have hsame : s.buf.memory.length * full_flush cfg = cfg.memory_max_entries * full_flush cfg := by
      rw [Nat.le_antisymm hworn.memory hfull]
    refine ⟨pieces ++ written, ?_⟩
    rw [Buffer.push_of_full (by rw [hcfg]; exact hfull), bind_run]
    cases hrun : Buffer.flush_memory_to_disk c s with
    | ok _ u =>
      rw [hrun, finalState_ok] at hflush
      subst hflush
      simp only [Buffer.update, modify_run, finalState_ok]
      refine ⟨hworn.same_cfg, ⟨hplaced.cfg, hplaced.files⟩, ?_, ?_, ?_⟩
      · rw [hmemory, hpushed, List.nil_append]
        exact horder.append (List.Sublist.refl _)
      · rw [hmemory]
        exact cfg.memory_pos
      · rw [hpushed, hflushes, hmemory]
        simp only [List.length_append, List.length_singleton, List.length_nil] at hcount ⊢
        simp only [Nat.add_mul] at hcount ⊢
        omega
    | error e u =>
      rw [hrun, finalState_error] at hflush
      subst hflush
      refine ⟨hworn.same_cfg, hplaced, ?_, ?_, ?_⟩
      · rw [finalState_error, hmemory, hpushed, List.append_nil]
        exact horder.trans (List.sublist_append_left _ _)
      · simp [hmemory]
      · rw [finalState_error, hpushed, hflushes, hmemory]
        simp only [List.length_append, List.length_singleton, List.length_nil] at hcount ⊢
        simp only [Nat.add_mul] at hcount ⊢
        omega
  · rw [not_le] at hfull
    rw [Buffer.push_of_room entry (by rw [hcfg]; exact hfull)]
    refine ⟨pieces, hworn.same_cfg, ⟨hworn.placed.cfg, hworn.placed.files⟩, ?_, ?_, ?_⟩
    · rw [hpushed, finalState_ok, ← List.append_assoc]
      exact hworn.order.append (List.Sublist.refl _)
    · rw [finalState_ok, List.length_append]
      exact hfull
    · have hcount := hworn.count
      rw [hpushed, hflushes]
      simp only [finalState_ok, List.length_append, List.length_singleton, Nat.add_mul] at hcount ⊢
      omega

theorem Worn.flush_step (hworn : Worn c cfg start past s pieces) :
    ∃ pieces, Worn c cfg start (past ++ [.flush_memory_to_disk])
      (finalState (Buffer.flush_memory_to_disk c s)) pieces := by
  have hpushed : pushed (past ++ [.flush_memory_to_disk]) = pushed past := by simp [pushed]
  have hflushes : flushes (past ++ [.flush_memory_to_disk]) = flushes past + 1 := by simp [flushes]
  obtain ⟨written, t, hflush, hmemory, hplaced, horder, hfew⟩ := hworn.flush
  have hcount := hworn.count_flushed hfew
  rw [hflush]
  refine ⟨pieces ++ written, hworn.same_cfg, hplaced, ?_, ?_, ?_⟩
  · rwa [hmemory, hpushed, List.append_nil]
  · simp [hmemory]
  · rw [hpushed, hflushes, hmemory]
    simp only [List.length_append, List.length_nil, Nat.add_mul, Nat.one_mul] at hcount ⊢
    omega

/-- An operation that writes no chunk and keeps no more than what was in memory. -/
theorem Worn.still (hworn : Worn c cfg start past s pieces) {operation : Operation} {t : Storage}
    (hpushed : pushed (past ++ [operation]) = pushed past)
    (hflushes : flushes (past ++ [operation]) = flushes past) (hcfg : t.buf.cfg = s.buf.cfg)
    (hrenamed : t.fs.renamed = s.fs.renamed) (hmemory : t.buf.memory.Sublist s.buf.memory) :
    Worn c cfg start (past ++ [operation]) t pieces := by
  have hless : t.buf.memory.length * full_flush cfg ≤ s.buf.memory.length * full_flush cfg :=
    Nat.mul_le_mul_right _ hmemory.length_le
  have hcount := hworn.count
  refine ⟨hworn.same_cfg, ?_, ?_, hmemory.length_le.trans hworn.memory, ?_⟩
  · have hplaced := hworn.placed.trans (Placed.none (c := c) hcfg hrenamed)
    rwa [List.append_nil] at hplaced
  · rw [hpushed]
    exact (((List.Sublist.refl _).append hmemory)).trans hworn.order
  · rw [hpushed, hflushes]
    omega

end Worn

namespace Buffer

theorem next_disk_chunk_pruned (s : Storage) : Pruned s.fs (finalState (next_disk_chunk s)).fs := by
  have hpruned := pruned_spool_files_newest_first s.fs
  rw [next_disk_chunk, bind_of_ok (get_run s)]
  by_cases hflag : s.buf.may_have_chunks = true
  · simp only [hflag, if_true, bind_run, on_disk, zoom]
    cases hrun : spool_files_newest_first s.fs with
    | ok files t =>
      rw [hrun] at hpruned
      cases files with
      | nil => exact hpruned
      | cons newest files => exact hpruned
    | error e t =>
      rw [hrun] at hpruned
      exact hpruned
  · rw [if_neg hflag]
    exact .refl s.fs

theorem next_disk_chunk_frame :
    Respects (fun s t : Storage => t.buf.cfg = s.buf.cfg ∧ t.buf.memory = s.buf.memory)
      next_disk_chunk := by
  intro s
  rw [next_disk_chunk, bind_of_ok (get_run s)]
  by_cases hflag : s.buf.may_have_chunks = true
  · simp only [hflag, if_true, bind_run, on_disk, zoom]
    cases hrun : spool_files_newest_first s.fs with
    | ok files t => cases files <;> exact ⟨rfl, rfl⟩
    | error e t => exact ⟨rfl, rfl⟩
  · rw [if_neg hflag]
    exact ⟨rfl, rfl⟩

theorem delete_chunk_renamed (path : FileName) (s : Storage) :
    (finalState (delete_chunk path s)).fs.renamed = s.fs.renamed := by
  have hrenamed : (finalState (remove_file path s.fs)).renamed = s.fs.renamed := by
    unfold remove_file
    simp only
    split
    all_goals simp
  rw [delete_chunk, bind_of_ok (get_run s), on_disk, zoom]
  cases hremove : remove_file path s.fs with
  | ok _ t =>
    rw [hremove] at hrenamed
    exact hrenamed
  | error e t =>
    rw [hremove] at hrenamed
    exact hrenamed

end Buffer

theorem Worn.step {cfg : ValidBufferConfig} {start : Storage} {past : List Operation} {s t : Drained}
    {pieces : List (List LogEntry)} {operation : Operation}
    (hworn : Worn c cfg start past s.storage pieces)
    (hstep : (operations c).step s operation = some t) :
    ∃ pieces, Worn c cfg start (past ++ [operation]) t.storage pieces := by
  cases operation with
  | push entry =>
    cases hstep
    exact hworn.push entry
  | flush_memory_to_disk =>
    cases hstep
    exact hworn.flush_step
  | drain_memory =>
    cases hstep
    exact ⟨pieces, hworn.still (by simp [pushed]) (by simp [flushes]) rfl rfl (List.nil_sublist _)⟩
  | next_disk_chunk =>
    cases hstep
    obtain ⟨hcfg, hmemory⟩ := Buffer.next_disk_chunk_frame s.storage
    exact ⟨pieces, hworn.still (by simp [pushed]) (by simp [flushes]) hcfg
      (Buffer.next_disk_chunk_pruned s.storage).renamed (by rw [hmemory])⟩
  | delete_chunk path =>
    cases hstep
    obtain ⟨hbuf, -⟩ := Buffer.delete_chunk_files path s.storage
    exact ⟨pieces, hworn.still (by simp [pushed]) (by simp [flushes]) (by rw [hbuf])
      (Buffer.delete_chunk_renamed path s.storage) (by rw [hbuf])⟩

/-- Flash wear. In every run of the buffer, whatever fails: the memory keeps to its limit, and
what has been put in place as chunk files are pieces of the pushed entries, none greater than
a chunk, every entry at most once and all in push order. On average over `memory_max_entries`
pushes, or for a flush asked for from outside, these are no more files than a full memory
takes. -/
theorem writes_are_bounded {cfg : ValidBufferConfig} {fs : Fs} {history : List Operation}
    {s : Drained} (hrun : (operations c).Run (fun _ _ => True) ⟨Buffer.new cfg fs, []⟩ history s) :
    s.storage.buf.memory.length ≤ cfg.memory_max_entries ∧ ∃ pieces written,
      s.storage.fs.renamed = fs.renamed ++ written ∧ List.Forall₂ (ChunkOf c cfg) pieces written ∧
      (pieces.flatten ++ s.storage.buf.memory).Sublist (pushed history) ∧
      written.length * cfg.memory_max_entries ≤
        ((pushed history).length + flushes history * cfg.memory_max_entries) * full_flush cfg := by
  have hnew : (Buffer.new cfg fs).buf.cfg = cfg ∧ (Buffer.new cfg fs).buf.memory = [] ∧
      (Buffer.new cfg fs).fs.renamed = fs.renamed := by
    have hpruned := pruned_spool_files_newest_first fs
    rw [Buffer.new]
    cases hscan : spool_files_newest_first fs with
    | ok files t =>
      rw [hscan] at hpruned
      exact ⟨rfl, rfl, hpruned.renamed⟩
    | error e t =>
      rw [hscan] at hpruned
      exact ⟨rfl, rfl, hpruned.renamed⟩
  obtain ⟨hcfg, hmemory, hrenamed⟩ := hnew
  obtain ⟨pieces, hworn⟩ : ∃ pieces, Worn c cfg (Buffer.new cfg fs) history s.storage pieces := by
    refine hrun.history (P := fun past s =>
      ∃ pieces, Worn c cfg (Buffer.new cfg fs) past s.storage pieces) ?_ ?_
    · exact ⟨[], hcfg, .none rfl rfl, by simp [hmemory], by simp [hmemory], by simp [hmemory]⟩
    · rintro past t operation u ⟨pieces, hworn⟩ - hstep
      exact hworn.step hstep
  obtain ⟨written, hwritten, hfiles⟩ := hworn.placed.files
  rw [hrenamed] at hwritten
  rw [hcfg] at hfiles
  refine ⟨hworn.memory, pieces, written, hwritten, hfiles, hworn.order, ?_⟩
  rw [← hfiles.length_eq]
  have hcount := hworn.count
  omega

/-- Two pushes into a memory for one entry. -/
theorem writes_are_bounded_two : ∃ (s : Drained) (written : List (FileName × Bytes)),
    s.storage.fs.renamed = written ∧ written.length * 1 ≤ (2 + 0 * 1) * 1 := by
  have hrun : (operations .wire).Run (fun _ _ => True)
      ⟨Buffer.new (.sized 1 1 Nat.one_pos Nat.one_pos) ⟨none, [], [], []⟩, []⟩
      [.push (entry "a"), .push (entry "b")] _ := .snoc (.single trivial rfl) trivial rfl
  obtain ⟨-, pieces, written, hrenamed, -, -, hcount⟩ := writes_are_bounded hrun
  exact ⟨_, written, hrenamed, hcount⟩

end spotflowd.buffer
