import Spotflowd.Buffer.Crash
import Spotflowd.Buffer.Room

open effect fs path chunked
open spotflowd.config spotflowd.log_entry

namespace spotflowd.buffer

/-- `push`, step by step. -/
def Buffer.push_steps (c : Ciborium) (entry : LogEntry) : Interruptible Error Storage Unit := do
  let self := (← Interruptible.whole get).buf
  if self.cfg.memory_max_entries ≤ self.memory.length then
    flush_memory_to_disk_steps c
  .whole (update fun self => { self with memory := self.memory ++ [entry] })

/-- Uninterrupted, the steps are the push. -/
theorem Buffer.run_push_steps (c : Ciborium) (entry : LogEntry) :
    (push_steps c entry).run = push c entry := by
  unfold push_steps push
  rw [Interruptible.run_bind]
  congr 1
  funext s
  dsimp only
  split
  · rw [Interruptible.run_bind, run_flush_memory_to_disk_steps]
    rfl
  · rfl

/-- No call is going to fail, and no entry on disk has been lost since `s`. -/
structure Unlost (c : Ciborium) (s t : Storage) : Prop where
  quiet : t.fs.verdicts = []
  entries : disk_entries c s.fs.files ≤ disk_entries c t.fs.files

variable {c : Ciborium}

theorem Unlost.of_files {s t : Storage} (hquiet : t.fs.verdicts = []) (hfiles : t.fs.files = s.fs.files) :
    Unlost c s t :=
  ⟨hquiet, by rw [hfiles]⟩

theorem Unlost.refl {s : Storage} (hquiet : s.fs.verdicts = []) : Unlost c s s := .of_files hquiet rfl

theorem Unlost.trans {s t u : Storage} (hfirst : Unlost c s t) (hsecond : Unlost c t u) : Unlost c s u :=
  ⟨hsecond.quiet, hfirst.entries.trans hsecond.entries⟩

theorem Grows.unlost {added : List LogEntry} {s t : Storage} (hgrows : Grows c added s t) : Unlost c s t :=
  ⟨hgrows.quiet, by rw [hgrows.entries]; exact le_add_self⟩

theorem limit_round_under {max_bytes : Nat} {s : Fs} (hquiet : s.verdicts = [])
    (hused : spool_bytes s.files ≤ max_bytes) : limit_round max_bytes s = .ok false s := by
  obtain ⟨file, files, -, hover, -, -⟩ | ⟨-, hround⟩ := limit_round_spool hquiet max_bytes
  · exact absurd hover (not_lt.mpr hused)
  · exact hround

theorem enforce_limit_under {max_bytes : Nat} {s : Fs} (hquiet : s.verdicts = [])
    (hused : spool_bytes s.files ≤ max_bytes) : enforce_limit max_bytes s = .ok () s := by
  rw [enforce_limit_eq, bind_of_ok (limit_round_under hquiet hused)]
  rfl

/-- Under the limit the loop evicts nothing, wherever it is cut off. -/
theorem enforce_limit_cut {max_bytes : Nat} {s t : Fs} (hquiet : s.verdicts = [])
    (hused : spool_bytes s.files ≤ max_bytes) (hcut : (enforce_limit_steps max_bytes).cut s t) : t = s := by
  have hround := limit_round_under hquiet hused
  obtain (rfl | rfl) | ⟨again, u, hrun, hcut⟩ := hcut
  · rfl
  · rw [hround, finalState_ok]
  · rw [Interruptible.run_whole, hround] at hrun
    cases hrun
    exact hcut

/-- A call is cut off, or the steps after it are. -/
theorem on_disk_bind_cut {α β : Type} {context : Option String} {x : Interruptible IoError Fs α}
    {f : α → Interruptible Error Storage β} {s t : Storage} (hcut : (on_disk_steps context x >>= f).cut s t) :
    (∃ u, x.cut s.fs u ∧ t = { s with fs := u }) ∨
      ∃ a u, x.run s.fs = .ok a u ∧ (f a).cut { s with fs := u } t := by
  obtain hfirst | ⟨a, u, hrun, hrest⟩ := hcut
  · exact Or.inl hfirst
  · obtain ⟨hok, hbuf⟩ := on_disk_eq_ok_iff.mp hrun
    obtain ⟨u, u_fs⟩ := u
    obtain rfl : u = s.buf := hbuf
    exact Or.inr ⟨a, u_fs, hok, hrest⟩

/-- The spool directory has been created if it was missing. -/
def Storage.opened (s : Storage) : Storage := { s with fs := { s.fs with dir := some s.fs.files } }

/-- A chunk, or a part of it, has been written under its temporary name. -/
def Storage.writing (s : Storage) (seq : Nat) (content : Bytes) : Storage :=
  { s with fs := { s.fs with dir := some (s.fs.files.insert (tmp_name seq) content) } }

namespace Buffer

/-- What is left to write fits after the first piece has been written. -/
theorem fits_store {pieces : List (List LogEntry)} {s : Storage} {bytes : Bytes}
    (hquiet : s.fs.verdicts = []) (hseq : next_seq s.fs.files < 2 ^ 64)
    (hrest : Room c s.buf.max_bytes pieces (spool_bytes s.fs.files + bytes.length)
      (next_seq s.fs.files + 1)) :
    Fits c pieces (s.store s.fs.files [] (next_seq s.fs.files) bytes) := by
  refine ⟨hquiet, ?_⟩
  have hnext : next_seq (s.store s.fs.files [] (next_seq s.fs.files) bytes).fs.files =
      next_seq s.fs.files + 1 := next_seq_stored bytes le_rfl hseq
  rw [hnext]
  exact hrest.of_le (spool_bytes_stored_le s.fs.files (next_seq s.fs.files) bytes)

variable (hround : c.RoundTrips)

include hround

/-- Under the limit, a chunk write that is cut off leaves all chunks that were there. -/
theorem write_chunk_cut {entries : List LogEntry} {s t : Storage}
    (hquiet : s.fs.verdicts = []) (hused : spool_bytes s.fs.files ≤ s.buf.max_bytes)
    (hseq : next_seq s.fs.files < 2 ^ 64) (hcut : (write_chunk_steps c entries).cut s t) :
    Unlost c s t := by
  have hcreate : create_dir_all s.fs = .ok () s.opened.fs := create_dir_all_quiet hquiet
  have hlimit : enforce_limit s.buf.max_bytes s.opened.fs = .ok () s.opened.fs :=
    enforce_limit_under hquiet hused
  have hpath : next_chunk_path s.opened.fs = .ok (chunk_name (next_seq s.fs.files)) s.opened.fs := by
    have hnext := next_chunk_path_quiet (s := s.opened.fs) hquiet rfl
    rwa [Nat.mod_eq_of_lt hseq] at hnext
  have hopened : Unlost c s s.opened := .of_files hquiet rfl
  obtain (rfl | rfl) | ⟨_, _, hget, hcut⟩ := hcut
  · exact .refl hquiet
  · exact .refl hquiet
  cases hget
  obtain ⟨_, rfl | rfl, rfl⟩ | ⟨_, u, hrun, hcut⟩ := on_disk_bind_cut hcut
  · exact .refl hquiet
  · rw [hcreate]
    exact hopened
  obtain rfl : s.opened.fs = u := (EStateM.Result.ok.inj (hcreate.symm.trans hrun)).2
  obtain ⟨u, hlimited, rfl⟩ | ⟨_, u, hrun, hcut⟩ := on_disk_bind_cut hcut
  · obtain rfl := enforce_limit_cut (s := s.opened.fs) hquiet hused hlimited
    exact hopened
  obtain rfl : s.opened.fs = u := (EStateM.Result.ok.inj (hlimit.symm.trans hrun)).2
  obtain ⟨_, rfl | rfl, rfl⟩ | ⟨path, u, hrun, hcut⟩ := on_disk_bind_cut hcut
  · exact hopened
  · rw [hpath]
    exact hopened
  obtain ⟨rfl, rfl⟩ := EStateM.Result.ok.inj (hpath.symm.trans hrun)
  cases hbytes : c.into_writer entries with
  | none =>
    rw [hbytes] at hcut
    obtain rfl | rfl := hcut
    all_goals exact hopened
  | some bytes =>
    rw [hbytes] at hcut
    have hstored : Unlost c s (s.store s.fs.files [] (next_seq s.fs.files) bytes) :=
      (grows_store hround hquiet hbytes hseq).unlost
    have htmp : ∀ content, Unlost c s (s.writing (next_seq s.fs.files) content) := fun content =>
      ⟨hquiet, (Dir.total_insert_of_zero _ content (chunk_entries_tmp_name c _)).ge⟩
    have hwrite : write (tmp_name (next_seq s.fs.files)) bytes s.opened.fs =
        .ok () (s.writing (next_seq s.fs.files) bytes).fs := write_quiet (s := s.opened.fs) hquiet rfl _ bytes
    have hrename : rename (tmp_name (next_seq s.fs.files)) (chunk_name (next_seq s.fs.files))
        (s.writing (next_seq s.fs.files) bytes).fs =
          .ok () (s.store s.fs.files [] (next_seq s.fs.files) bytes).fs := by
      rw [rename_quiet (by exact hquiet) (show _ = some bytes from AList.lookup_insert _)]
      simp [Storage.store, Storage.writing, stored, Fs.files, Dir.erase_insert]
    obtain ⟨_, rfl | ⟨d, n, hdir, rfl⟩, rfl⟩ | ⟨_, u, hrun, hcut⟩ := on_disk_bind_cut hcut
    · exact hopened
    · cases hdir
      exact htmp _
    obtain rfl := (EStateM.Result.ok.inj (hwrite.symm.trans hrun)).2
    obtain ⟨_, rfl | rfl, rfl⟩ | ⟨_, u, hrun, hcut⟩ := on_disk_bind_cut hcut
    · exact htmp bytes
    · change Unlost c s ⟨s.buf, finalState (rename (tmp_name (next_seq s.fs.files))
        (chunk_name (next_seq s.fs.files)) (s.writing (next_seq s.fs.files) bytes).fs)⟩
      rw [hrename]
      exact ⟨hstored.quiet, hstored.entries⟩
    obtain rfl := (EStateM.Result.ok.inj (hrename.symm.trans hrun)).2
    obtain rfl | rfl := hcut
    all_goals exact ⟨hstored.quiet, hstored.entries⟩

theorem write_chunks_cut {pieces : List (List LogEntry)} {s t : Storage} (hfits : Fits c pieces s)
    (hcut : (forM pieces (write_chunk_steps c)).cut s t) : Unlost c s t := by
  induction pieces generalizing s with
  | nil =>
    obtain rfl := hcut
    exact .refl hfits.quiet
  | cons piece pieces ih =>
    obtain ⟨hused, hseq, bytes, hbytes, hrest⟩ := hfits.room
    rw [List.forM_cons] at hcut
    obtain hfirst | ⟨_, u, hrun, hlater⟩ := hcut
    · exact write_chunk_cut hround hfits.quiet hused hseq hfirst
    · rw [run_write_chunk_steps] at hrun
      have hwrite := write_chunk_room hfits.quiet hbytes hused hseq
      obtain rfl := (EStateM.Result.ok.inj (hwrite.symm.trans hrun)).2
      exact (grows_store hround hfits.quiet hbytes hseq).unlost.trans
        (ih (fits_store hfits.quiet hseq hrest) hlater)

theorem flush_memory_to_disk_unlost {s t : Storage} (hfits : FlushFits c s)
    (hcut : (flush_memory_to_disk_steps c).cut s t) : Unlost c s t := by
  have hdrained : Unlost c s s.drained := .of_files hfits.quiet rfl
  obtain (rfl | rfl) | ⟨_, _, hget, hcut⟩ := hcut
  · exact .refl hfits.quiet
  · exact .refl hfits.quiet
  cases hget
  dsimp only [drain_memory] at hcut
  split at hcut
  · rw [show t = s from hcut]
    exact .refl hfits.quiet
  · obtain (rfl | rfl) | ⟨_, _, hupdate, hcut⟩ := hcut
    · exact .refl hfits.quiet
    · exact hdrained
    · cases hupdate
      exact hdrained.trans (write_chunks_cut hround (s := s.drained) ⟨hfits.quiet, hfits.room⟩ hcut)

/-- With room in the spool, a push that is cut off leaves all chunks that were there. -/
theorem push_unlost {entry : LogEntry} {s t : Storage} (hfits : PushFits c s)
    (hcut : (push_steps c entry).cut s t) : Unlost c s t := by
  obtain (rfl | rfl) | ⟨_, _, hget, hcut⟩ := hcut
  · exact .refl hfits.quiet
  · exact .refl hfits.quiet
  cases hget
  dsimp only at hcut
  split at hcut
  · next hfull =>
    obtain hflush | ⟨_, u, hrun, hcut⟩ := hcut
    · exact flush_memory_to_disk_unlost hround (hfits.flush hfull) hflush
    · rw [run_flush_memory_to_disk_steps] at hrun
      obtain ⟨v, hflushed, -, hgrows⟩ := flush_memory_to_disk_fits hround (hfits.flush hfull)
      obtain rfl := (EStateM.Result.ok.inj (hflushed.symm.trans hrun)).2
      obtain rfl | rfl := hcut
      · exact hgrows.unlost
      · exact hgrows.unlost.trans (.of_files hgrows.quiet rfl)
  · obtain rfl | rfl := hcut
    · exact .refl hfits.quiet
    · exact .of_files hfits.quiet rfl

end Buffer

end spotflowd.buffer
