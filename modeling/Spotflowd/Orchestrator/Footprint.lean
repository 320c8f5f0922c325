import Spotflowd.Buffer.Wear
import Spotflowd.Orchestrator.EndToEnd

open effect fs path chunked
open spotflowd.buffer spotflowd.config spotflowd.log_entry spotflowd.mqtt

namespace spotflowd.orchestrator

/-- What a tick still works on of what it has drained or read. -/
def Tick.loaded : Tick → List LogEntry
  | .memory_batch sent unsent later => sent ++ unsent ++ later.flatten
  | .lock_requeue batch => batch
  | .disk_batch _ entries _ _ _ _ => entries
  | .lock_tail _ entries _ => entries
  | .delete_chunk _ result _ => result.getD []
  | _ => []

/-- No chunk file holds more than `most` entries. -/
def Small (c : Ciborium) (most : Nat) (d : Dir) : Prop :=
  ∀ name bytes, is_chunk_file name = true → d.lookup name = some bytes →
    (decoded c bytes).length ≤ most

variable {c : Ciborium} {most : Nat}

theorem Small.of_pruned {s t : Fs} (hsmall : Small c most s.files) (hpruned : Pruned s t) :
    Small c most t.files := by
  obtain ⟨gone, hremoves, -⟩ := hpruned.files
  exact fun name bytes hchunk hlookup => hsmall name bytes hchunk (hremoves.lookup hlookup)

theorem Small.stored {d : Dir} (hsmall : Small c most d) {seq : Nat} {bytes : Bytes}
    (hbytes : (decoded c bytes).length ≤ most) : Small c most (stored d seq bytes) := by
  intro name content hchunk hlookup
  by_cases hname : name = chunk_name seq
  · rw [hname, lookup_stored_self, Option.some.injEq] at hlookup
    rwa [← hlookup]
  · rw [lookup_stored_ne hchunk hname] at hlookup
    exact hsmall name content hchunk hlookup

theorem Small.of_unwritten {s t : Fs} (hsmall : Small c most s.files) (hunwritten : Unwritten s t) :
    Small c most t.files := by
  obtain ⟨u, hpruned, -, -, hfiles | ⟨seq, content, hfiles⟩⟩ := hunwritten
  · rw [hfiles]
    exact hsmall.of_pruned hpruned
  · intro name bytes hchunk hlookup
    rw [hfiles, AList.lookup_insert_ne (tmp_name_ne_chunk hchunk)] at hlookup
    exact hsmall.of_pruned hpruned name bytes hchunk hlookup

/-- The buffer keeps to its limits. -/
structure Bounded (c : Ciborium) (cfg : ValidBufferConfig) (most : Nat) (s : Storage) : Prop where
  same_cfg : s.buf.cfg = cfg
  memory : s.buf.memory.length ≤ cfg.memory_max_entries
  disk : Small c most s.fs.files

section Storage

variable {cfg : ValidBufferConfig}

theorem write_chunk_small (hround : c.RoundTrips) {piece : List LogEntry} (hpiece : piece.length ≤ most) :
    Respects (fun s t : Storage => Small c most s.fs.files → Small c most t.fs.files)
      (Buffer.write_chunk c piece) := by
  intro s hsmall
  cases hwrite : Buffer.write_chunk c piece s with
  | ok _ t =>
    obtain ⟨-, seq, bytes, hserialized, u, hpruned, hfiles, -, -⟩ := Buffer.write_chunk_ok hwrite
    rw [finalState_ok, hfiles]
    apply (hsmall.of_pruned hpruned).stored
    rwa [decoded, hround piece bytes hserialized, Option.getD_some]
  | error e t =>
    obtain ⟨-, hunwritten⟩ := Buffer.write_chunk_error hwrite
    exact hsmall.of_unwritten hunwritten

theorem write_chunks_small (hround : c.RoundTrips) {pieces : List (List LogEntry)}
    (hpieces : ∀ piece ∈ pieces, piece.length ≤ most) :
    Respects (fun s t : Storage => Small c most s.fs.files → Small c most t.fs.files)
      (Buffer.write_chunks c pieces) := by
  induction pieces with
  | nil => exact fun _ => id
  | cons piece pieces ih =>
    exact Respects.seq (write_chunk_small hround (hpieces piece List.mem_cons_self))
      (fun _ => ih fun other hother => hpieces other (List.mem_cons_of_mem _ hother)) (fun _ _ h => h)
      fun _ _ _ hfirst hrest h => hrest (hfirst h)

variable (hround : c.RoundTrips) (hmost : cfg.disk_chunk_max_entries ≤ most)

include hround hmost

theorem Bounded.flush {s : Storage} (hbounded : Bounded c cfg most s) :
    Bounded c cfg most (finalState (Buffer.flush_memory_to_disk c s)) := by
  obtain ⟨hmemory, hcfg⟩ := Buffer.flush_memory_to_disk_buf c s
  refine ⟨hcfg.trans hbounded.same_cfg, by rw [hmemory]; exact Nat.zero_le _, ?_⟩
  by_cases hempty : s.buf.memory = []
  · rw [Buffer.flush_memory_to_disk_of_empty hempty]
    exact hbounded.disk
  · rw [Buffer.flush_memory_to_disk_of_nonempty hempty]
    refine write_chunks_small hround ?_ s.drained hbounded.disk
    intro piece hpiece
    have hlength := (length_of_mem_chunks s.buf.cfg.chunk_pos hpiece).2
    rw [hbounded.same_cfg] at hlength
    exact hlength.trans hmost

theorem Bounded.push {s : Storage} (hbounded : Bounded c cfg most s) (entry : LogEntry) :
    Bounded c cfg most (finalState (Buffer.push c entry s)) := by
  by_cases hfull : s.buf.cfg.memory_max_entries ≤ s.buf.memory.length
  · have hflushed := hbounded.flush hround hmost
    have hempty := (Buffer.flush_memory_to_disk_buf c s).1
    rw [Buffer.push_of_full hfull, bind_run]
    cases hrun : Buffer.flush_memory_to_disk c s with
    | ok _ t =>
      rw [hrun, finalState_ok] at hflushed hempty
      refine ⟨hflushed.same_cfg, ?_, hflushed.disk⟩
      simp only [Buffer.update, modify_run, finalState_ok, hempty]
      exact cfg.memory_pos
    | error e t =>
      rw [hrun] at hflushed
      exact hflushed
  · rw [not_le, hbounded.same_cfg] at hfull
    rw [Buffer.push_of_room entry (by rw [hbounded.same_cfg]; exact hfull)]
    refine ⟨hbounded.same_cfg, ?_, hbounded.disk⟩
    rw [finalState_ok, List.length_append]
    exact hfull

theorem Bounded.push_all {s : Storage} (hbounded : Bounded c cfg most s) (entries : List LogEntry) :
    Bounded c cfg most (push_all c entries s) := by
  induction entries generalizing s with
  | nil => exact hbounded
  | cons entry entries ih => exact ih (hbounded.push hround hmost entry)

omit hround hmost

theorem Bounded.next_disk_chunk {s : Storage} (hbounded : Bounded c cfg most s) :
    Bounded c cfg most (finalState (Buffer.next_disk_chunk s)) := by
  obtain ⟨hcfg, hmemory⟩ := Buffer.next_disk_chunk_frame s
  refine ⟨hcfg.trans hbounded.same_cfg, by rw [hmemory]; exact hbounded.memory, ?_⟩
  exact hbounded.disk.of_pruned (Buffer.next_disk_chunk_pruned s)

theorem Bounded.delete_chunk {s : Storage} (hbounded : Bounded c cfg most s) (path : FileName) :
    Bounded c cfg most (finalState (Buffer.delete_chunk path s)) := by
  obtain ⟨hbuf, hfiles⟩ := Buffer.delete_chunk_files path s
  refine ⟨by rw [hbuf]; exact hbounded.same_cfg, by rw [hbuf]; exact hbounded.memory, ?_⟩
  obtain hfiles | hfiles := hfiles
  · rw [hfiles]
    exact hbounded.disk
  · intro name bytes hchunk hlookup
    rw [hfiles] at hlookup
    have hne : name ≠ path := by
      rintro rfl
      rw [AList.lookup_erase] at hlookup
      cases hlookup
    rw [AList.lookup_erase_ne hne] at hlookup
    exact hbounded.disk name bytes hchunk hlookup

/-- A chunk that can be read is one of the files. -/
theorem Bounded.read_chunk {s : Storage} (hbounded : Bounded c cfg most s) {path : FileName}
    (hchunk : is_chunk_file path = true) :
    Bounded c cfg most (finalState (Buffer.read_chunk c path s)) ∧
      ∀ entries t, Buffer.read_chunk c path s = .ok entries t → entries.length ≤ most := by
  cases hlookup : s.fs.files.lookup path with
  | none =>
    have hmissing : fs.read path s.fs = .error ⟨.read⟩ s.fs.next.2 := by
      rw [fs.read]
      simp only [Fs.next_files, hlookup]
    have hfails : on_disk (some ("read chunk " ++ s.buf.display path)) (fs.read path) s =
        .error ⟨_, .io ⟨.read⟩⟩ { s with fs := s.fs.next.2 } :=
      on_disk_eq_error_iff.mpr ⟨_, hmissing, rfl, rfl⟩
    rw [Buffer.read_chunk, bind_of_ok (get_run s), bind_of_error hfails]
    refine ⟨⟨hbounded.same_cfg, hbounded.memory, ?_⟩, ?_⟩
    · simp only [finalState_error, Fs.next_files]
      exact hbounded.disk
    · intro entries t hok
      cases hok
  | some bytes =>
    obtain ⟨-, entries, hdecode, hread⟩ | ⟨-, e, hread⟩ := Buffer.read_chunk_cases (c := c) hlookup
    · rw [hread]
      refine ⟨⟨hbounded.same_cfg, hbounded.memory, ?_⟩, ?_⟩
      · simp only [finalState_ok, Fs.next_files]
        exact hbounded.disk
      · intro entries' t hok
        cases hok
        have hsmall := hbounded.disk path bytes hchunk hlookup
        rwa [decoded, hdecode, Option.getD_some] at hsmall
    · rw [hread]
      refine ⟨⟨hbounded.same_cfg, hbounded.memory, ?_⟩, ?_⟩
      · simp only [finalState_error, Fs.next_files]
        exact hbounded.disk
      · intro entries' t hok
        cases hok

end Storage

/-- The publish loop only looks at chunk files. -/
theorem next_disk_chunk_is_chunk {s t : Storage} {path : FileName}
    (hok : Buffer.next_disk_chunk s = .ok (some path) t) : is_chunk_file path = true := by
  rw [Buffer.next_disk_chunk, bind_of_ok (get_run s)] at hok
  split at hok
  · obtain ⟨files, u, hlisted, hok⟩ := bind_eq_ok_iff.mp hok
    obtain ⟨hlisted, -⟩ := on_disk_eq_ok_iff.mp hlisted
    cases files with
    | nil => cases hok
    | cons newest files =>
      cases hok
      rw [spool_files_newest_first] at hlisted
      obtain ⟨found, v, -, hlisted⟩ := bind_eq_ok_iff.mp hlisted
      split at hlisted
      · obtain ⟨entries, w, -, hlisted⟩ := bind_eq_ok_iff.mp hlisted
        have hsorted : (chunk_files entries).insertionSort (· ≥ ·) = path :: files :=
          (EStateM.Result.ok.inj hlisted).1
        have hmem : path ∈ chunk_files entries :=
          (List.mem_insertionSort (· ≥ ·)).mp (by rw [hsorted]; exact List.mem_cons_self)
        exact (List.mem_filter.mp hmem).2
      · cases hlisted
  · cases hok

/-- The tick reads chunk files only. -/
def Tick.ReadsChunk : Tick → Prop
  | .read_chunk path => is_chunk_file path = true
  | _ => True

/-- What the next step of a tick takes in: what it drains, or the chunk it reads. -/
def takes_in (c : Ciborium) (s : System) : Option (List LogEntry) :=
  match s.tick with
  | .lock_memory => some s.storage.buf.drain_memory.1
  | .read_chunk path =>
    match Buffer.read_chunk c path s.storage with
    | .ok entries _ => some entries
    | .error _ _ => none
  | _ => none

/-- A tick that has returned, or was dropped, holds nothing any more. -/
def Tick.keeps (self : Tick) (held : List LogEntry) : List LogEntry := if self = .idle then [] else held

/-- The log path keeps to its limits, and so does what the tick holds. -/
structure Frugal (c : Ciborium) (cfg : ValidBufferConfig) (most : Nat) (s : System)
    (held : List LogEntry) : Prop where
  storage : Bounded c cfg most s.storage
  loaded : s.tick.loaded.Sublist held
  held : held.length ≤ max cfg.memory_max_entries most
  reads : s.tick.ReadsChunk

section System

variable {cfg : ValidBufferConfig}

theorem loaded_next_memory_batch (batches : List (List LogEntry)) :
    (next_memory_batch batches).loaded = batches.flatten ∧ (next_memory_batch batches).ReadsChunk := by
  cases batches with
  | nil => exact ⟨rfl, trivial⟩
  | cons batch later => exact ⟨rfl, trivial⟩

theorem loaded_disk_done (path : FileName) (entries : List LogEntry) (published : Nat) :
    (disk_done path entries published).loaded.Sublist entries ∧
      (disk_done path entries published).ReadsChunk := by
  unfold disk_done
  split
  · exact ⟨List.Sublist.refl _, trivial⟩
  · split
    · exact ⟨List.Sublist.refl _, trivial⟩
    · exact ⟨List.nil_sublist _, trivial⟩

theorem loaded_next_disk_batch (path : FileName) (entries : List LogEntry) (published : Nat)
    (batches : List (List LogEntry)) :
    (next_disk_batch path entries published batches).loaded.Sublist entries ∧
      (next_disk_batch path entries published batches).ReadsChunk := by
  cases batches with
  | nil => exact loaded_disk_done path entries published
  | cons batch later => exact ⟨List.Sublist.refl _, trivial⟩

/-- A step of the tick works on what it takes in, or on what is left of what it worked on before. -/
theorem loaded_publish_tick (c : Ciborium) (s : System) :
    (publish_tick c s).tick.loaded.Sublist ((takes_in c s).getD s.tick.loaded) ∧
      (publish_tick c s).tick.ReadsChunk := by
  rw [publish_tick, takes_in]
  cases htick : s.tick with
  | idle =>
    dsimp only
    split <;> exact ⟨List.nil_sublist _, trivial⟩
  | sleeping held => exact ⟨List.nil_sublist _, trivial⟩
  | lock_memory =>
    dsimp only
    split
    · obtain ⟨hbatches, hreads⟩ := loaded_next_memory_batch
        (chunks PUBLISH_BATCH_SIZE s.storage.buf.drain_memory.1)
      rw [flatten_chunks (by decide)] at hbatches
      exact ⟨by rw [hbatches]; exact List.Sublist.refl _, hreads⟩
    · exact ⟨List.nil_sublist _, trivial⟩
  | memory_batch sent unsent later =>
    cases unsent with
    | nil =>
      obtain ⟨hbatches, hreads⟩ := loaded_next_memory_batch later
      exact ⟨by rw [hbatches]; exact List.sublist_append_right _ _, hreads⟩
    | cons entry unsent =>
      dsimp only
      split
      · refine ⟨?_, trivial⟩
        rw [Option.getD_none, Tick.loaded, Tick.loaded, List.append_assoc sent, List.singleton_append]
      · exact ⟨List.sublist_append_left _ _, trivial⟩
  | lock_requeue batch => exact ⟨List.nil_sublist _, trivial⟩
  | lock_disk =>
    dsimp only
    split
    · next hrun => exact ⟨List.nil_sublist _, next_disk_chunk_is_chunk hrun⟩
    · exact ⟨List.nil_sublist _, trivial⟩
    · exact ⟨List.nil_sublist _, trivial⟩
  | read_chunk path =>
    dsimp only
    cases Buffer.read_chunk c path s.storage with
    | ok entries storage => exact loaded_next_disk_batch path entries 0 (chunks PUBLISH_BATCH_SIZE entries)
    | error e storage => exact ⟨List.nil_sublist _, trivial⟩
  | disk_batch path entries published sent unsent later =>
    cases unsent with
    | nil => exact loaded_next_disk_batch path entries (published + sent.length) later
    | cons entry unsent =>
      dsimp only
      split
      · exact ⟨List.Sublist.refl _, trivial⟩
      · exact loaded_disk_done path entries published
  | lock_tail path entries published => exact ⟨List.Sublist.refl _, trivial⟩
  | delete_chunk path result held => exact ⟨List.nil_sublist _, trivial⟩

/-- What a tick takes in at a time is the memory or one chunk. -/
theorem takes_in_length {s : System} (hbounded : Bounded c cfg most s.storage)
    (hreads : s.tick.ReadsChunk) {entries : List LogEntry} (htakes : takes_in c s = some entries) :
    entries.length ≤ max cfg.memory_max_entries most := by
  unfold takes_in at htakes
  split at htakes
  · cases htakes
    exact hbounded.memory.trans (le_max_left _ _)
  · next path htick =>
    rw [htick] at hreads
    split at htakes
    · next read storage hrun =>
      cases htakes
      exact ((hbounded.read_chunk hreads).2 _ _ hrun).trans (le_max_right _ _)
    · cases htakes
  · cases htakes

theorem Bounded.publish_tick (hround : c.RoundTrips) (hmost : cfg.disk_chunk_max_entries ≤ most)
    {s : System} (hbounded : Bounded c cfg most s.storage) (hreads : s.tick.ReadsChunk) :
    Bounded c cfg most (orchestrator.publish_tick c s).storage := by
  have htouches := publish_tick_touches c s
  generalize (orchestrator.publish_tick c s).storage = after at htouches ⊢
  cases htouches with
  | nothing => exact hbounded
  | drain => exact ⟨hbounded.same_cfg, Nat.zero_le _, hbounded.disk⟩
  | push_back entries => exact hbounded.push_all hround hmost entries
  | next_disk_chunk => exact hbounded.next_disk_chunk
  | read_chunk path htick =>
    rw [htick] at hreads
    exact (hbounded.read_chunk hreads).1
  | delete_chunk path => exact hbounded.delete_chunk path

/-- A state reached, with what the tick keeps of what it has held. -/
theorem Frugal.kept {t : System} {held : List LogEntry} (hstorage : Bounded c cfg most t.storage)
    (hloaded : t.tick.loaded.Sublist held) (hheld : held.length ≤ max cfg.memory_max_entries most)
    (hreads : t.tick.ReadsChunk) : Frugal c cfg most t (t.tick.keeps held) := by
  unfold Tick.keeps
  split
  · next hidle =>
    refine ⟨hstorage, ?_, Nat.zero_le _, hreads⟩
    rw [hidle]
    exact List.Sublist.refl _
  · exact ⟨hstorage, hloaded, hheld, hreads⟩

theorem Frugal.tick (hround : c.RoundTrips) (hmost : cfg.disk_chunk_max_entries ≤ most) {s : System}
    {held : List LogEntry} (hfrugal : Frugal c cfg most s held) :
    Frugal c cfg most (publish_tick c s)
      ((publish_tick c s).tick.keeps ((takes_in c s).getD held)) := by
  obtain ⟨hloaded, hreads⟩ := loaded_publish_tick c s
  have hstorage := hfrugal.storage.publish_tick hround hmost hfrugal.reads
  cases htakes : takes_in c s with
  | none =>
    rw [htakes] at hloaded
    exact .kept hstorage (hloaded.trans hfrugal.loaded) hfrugal.held hreads
  | some entries =>
    rw [htakes] at hloaded
    exact .kept hstorage hloaded (takes_in_length hfrugal.storage hfrugal.reads htakes) hreads

/-- Any other step of the log path. -/
theorem Frugal.step (hround : c.RoundTrips) (hmost : cfg.disk_chunk_max_entries ≤ most)
    {s t : System} {held : List LogEntry} {event : Event} (hfrugal : Frugal c cfg most s held)
    (hother : event ≠ .tick) (hstep : (run c).step s event = some t) :
    Frugal c cfg most t (t.tick.keeps held) := by
  cases event with
  | push entry =>
    obtain ⟨-, hstorage, htick, -⟩ := ingest_effect hstep
    rw [htick]
    refine htick ▸ .kept ?_ (by rw [htick]; exact hfrugal.loaded) hfrugal.held
      (by rw [htick]; exact hfrugal.reads)
    rw [hstorage]
    exact hfrugal.storage.push hround hmost entry
  | link connected =>
    cases hstep
    exact .kept hfrugal.storage hfrugal.loaded hfrugal.held hfrugal.reads
  | tick => exact absurd rfl hother
  | shutdown =>
    simp only [run] at hstep
    split at hstep
    · cases hstep
      exact .kept hfrugal.storage (List.nil_sublist _) hfrugal.held trivial
    · cases hstep
  | flush =>
    simp only [run] at hstep
    split at hstep
    · cases hstep
      exact .kept (hfrugal.storage.flush hround hmost) hfrugal.loaded hfrugal.held hfrugal.reads
    · cases hstep

theorem Frugal.start {fs : Fs} {publisher : MqttPublisher} (hsmall : Small c most fs.files) :
    Frugal c cfg most (start cfg fs publisher) [] := by
  have hpruned := pruned_spool_files_newest_first fs
  refine ⟨?_, List.Sublist.refl _, Nat.zero_le _, trivial⟩
  rw [orchestrator.start, Buffer.new]
  cases hscan : spool_files_newest_first fs with
  | ok files t =>
    rw [hscan] at hpruned
    exact ⟨rfl, Nat.zero_le _, hsmall.of_pruned hpruned⟩
  | error e t =>
    rw [hscan] at hpruned
    exact ⟨rfl, Nat.zero_le _, hsmall.of_pruned hpruned⟩

end System

/-- The pipeline with a history variable: what the current tick has drained or read, which it holds
until it returns. -/
structure Watched where
  pipeline : Pipeline
  held : List LogEntry

def watch (c : Ciborium) : Machine Watched Pipeline.Event where
  step s event := ((Pipeline.run c).step s.pipeline event).map fun pipeline =>
    { pipeline := pipeline
      held := pipeline.system.tick.keeps
        (if event = .daemon .tick then (takes_in c s.pipeline.system).getD s.held else s.held) }

theorem Frugal.watch (hround : c.RoundTrips) {cfg : ValidBufferConfig}
    (hmost : cfg.disk_chunk_max_entries ≤ most) {s t : Watched} {event : Pipeline.Event}
    (hfrugal : Frugal c cfg most s.pipeline.system s.held)
    (hstep : (orchestrator.watch c).step s event = some t) :
    Frugal c cfg most t.pipeline.system t.held := by
  obtain ⟨pipeline, hpipeline, rfl⟩ := Option.map_eq_some_iff.mp hstep
  by_cases htick : event = .daemon .tick
  · subst htick
    have hdaemon : s.pipeline.daemon c .tick = some pipeline := hpipeline
    obtain ⟨-, hsystem⟩ := run_tick_eq_some (Pipeline.daemon_steps hdaemon).stepped
    rw [if_pos rfl]
    dsimp only
    rw [hsystem]
    exact hfrugal.tick hround hmost
  · rw [if_neg htick]
    obtain haside | ⟨-, entry, hpushes⟩ | ⟨inner, rfl, hdaemon⟩ := Pipeline.step_cases hpipeline
    · dsimp only
      rw [haside.system]
      exact .kept hfrugal.storage hfrugal.loaded hfrugal.held hfrugal.reads
    · have hpush : (orchestrator.run c).step s.pipeline.system (.push entry) = some pipeline.system :=
        hpushes.ingested
      exact hfrugal.step hround hmost (fun h => by cases h) hpush
    · exact hfrugal.step hround hmost (fun h => htick (congrArg _ h)) hdaemon.stepped

/-- All log entries the daemon has in memory: in the channel, with the ingestion task, in the
buffer and with the tick. -/
def Watched.footprint (self : Watched) : Nat :=
  self.pipeline.channel.queue.length + self.pipeline.ingester.holding.length +
    self.pipeline.system.storage.buf.memory.length + self.held.length

/-- The memory the log path takes is bounded. In every state of every run, whatever the
network, the disk and the sources do, and however many entries have come in: no chunk file
is greater than the chunks of this run and of the earlier ones, and the entries in memory
are no more than the channel, twice the memory buffer or a chunk beside it, and one. What the
tick works on is among what it is taken to hold. -/
theorem footprint_is_bounded (hround : c.RoundTrips) {sources : SourcesConfig}
    {cfg : ValidBufferConfig} {fs : Fs} {publisher : MqttPublisher}
    (hmost : cfg.disk_chunk_max_entries ≤ most) (hsmall : Small c most fs.files)
    {events : List Pipeline.Event} {s : Watched}
    (hrun : (watch c).Run (fun _ _ => True) ⟨.start sources cfg fs publisher, []⟩ events s) :
    Small c most s.pipeline.system.storage.fs.files ∧
      s.pipeline.system.tick.loaded.Sublist s.held ∧ s.footprint ≤
        CHANNEL_CAPACITY + 1 + cfg.memory_max_entries + max cfg.memory_max_entries most := by
  have hfrugal : Frugal c cfg most s.pipeline.system s.held :=
    hrun.invariant (P := fun s : Watched => Frugal c cfg most s.pipeline.system s.held) (.start hsmall)
      fun _ _ _ hfrugal _ hstep => hfrugal.watch hround hmost hstep
  have hchannel := s.pipeline.channel.bounded
  have hingester : s.pipeline.ingester.holding.length ≤ 1 := by
    cases s.pipeline.ingester <;> simp [Ingester.holding]
  have hmemory := hfrugal.storage.memory
  have hheld := hfrugal.held
  refine ⟨hfrugal.storage.disk, hfrugal.loaded, ?_⟩
  unfold Watched.footprint
  omega

/-- Two entries come in and the client refuses the first: the tick holds both and has pushed both
back. -/
def two_refused : List Pipeline.Event :=
  [.send .syslog (entry "a"), .receive, .push, .send .syslog (entry "b"), .receive, .push,
    .daemon .tick, .daemon .tick, .daemon .tick, .daemon .tick]

theorem footprint_is_bounded_two : ∃ s : Watched,
    (s.held = [entry "a", entry "b"] ∧ s.pipeline.system.storage.buf.memory = [entry "a", entry "b"]) ∧
    s.footprint ≤ CHANNEL_CAPACITY + 1 + 2 + max 2 1 := by
  have hexec : ((watch .wire).exec (fun _ _ => True) ⟨Pipeline.following ⟨true, [false], [], []⟩, []⟩
      two_refused).any (fun s =>
        s.held = [entry "a", entry "b"] ∧
        s.pipeline.system.storage.buf.memory = [entry "a", entry "b"]) = true := by
    rfl
  obtain ⟨s, hrun, htest⟩ := Machine.exists_run_of_exec _ hexec
  have hempty : Small .wire 1 (Fs.files ⟨none, [], [], []⟩) := fun _ _ _ hlookup => by cases hlookup
  exact ⟨s, of_decide_eq_true htest,
    (footprint_is_bounded Ciborium.wire_roundTrips (Nat.le_refl 1) hempty hrun).2.2⟩

end spotflowd.orchestrator
