import Spotflowd.Buffer.Chronology
import Spotflowd.Buffer.Names

open effect fs chunked
open spotflowd.config spotflowd.log_entry

namespace spotflowd.buffer

/-- There is a chunk file in the spool directory. -/
def HasChunk (s : Fs) : Prop := ∃ p ∈ s.files.keys, is_chunk_file p = true

instance (s : Fs) : Decidable (HasChunk s) :=
  inferInstanceAs (Decidable (∃ p ∈ s.files.keys, is_chunk_file p = true))

theorem hasChunk_congr {s t : Fs} (hfiles : t.files = s.files) : HasChunk t ↔ HasChunk s := by
  rw [HasChunk, hfiles, HasChunk]

theorem HasChunk.of_pruned {s t : Fs} (hpruned : Pruned s t) (hchunk : HasChunk t) : HasChunk s := by
  obtain ⟨gone, hremoves, -⟩ := hpruned.files
  obtain ⟨p, hp, hchunkp⟩ := hchunk
  exact ⟨p, AList.mem_keys.mp (hremoves.mem (AList.mem_keys.mpr hp)), hchunkp⟩

/-- What a failed write may leave behind is no chunk. -/
theorem HasChunk.of_unwritten {s t : Fs} (hunwritten : Unwritten s t) (hchunk : HasChunk t) :
    HasChunk s := by
  obtain ⟨u, hpruned, -, -, hfiles | ⟨seq, content, hfiles⟩⟩ := hunwritten
  · exact ((hasChunk_congr hfiles).mp hchunk).of_pruned hpruned
  · obtain ⟨p, hp, hchunkp⟩ := hchunk
    rw [hfiles, AList.mem_keys.symm, AList.mem_insert] at hp
    have hmem := hp.resolve_left (tmp_name_ne_chunk hchunkp)
    exact HasChunk.of_pruned hpruned ⟨p, AList.mem_keys.mp hmem, hchunkp⟩

/-- The directory holds a chunk and a scan of it would come back empty: the check whether
the directory is there fails, which `Path::exists` reports as `false`, or all the chunks
are among the entries that the listing could not read and leaves out. -/
structure Overlooks (s : Fs) : Prop where
  chunk : HasChunk s
  unseen : s.next.1.fails .exists_ = true ∨ s.next.2.next.1.fails .read_dir = false ∧
    ∀ p ∈ s.files.keys, is_chunk_file p = true → s.next.2.next.1.hides p = true

instance (s : Fs) : Decidable (Overlooks s) :=
  decidable_of_iff (HasChunk s ∧ (s.next.1.fails .exists_ = true ∨
      s.next.2.next.1.fails .read_dir = false ∧
        ∀ p ∈ s.files.keys, is_chunk_file p = true → s.next.2.next.1.hides p = true))
    ⟨fun h => ⟨h.1, h.2⟩, fun h => ⟨h.1, h.2⟩⟩

/-- The listing of a directory with some entries left out is empty when the chunks are
among these. -/
theorem newest_first_visible_eq_nil_iff (d : Dir) (hides : FileName → Bool) :
    (chunk_files (d.visible hides)).insertionSort (· ≥ ·) = [] ↔
      ∀ p ∈ d.keys, is_chunk_file p = true → hides p = true := by
  have hnames : (d.visible hides).map DirEntry.name = d.keys.filter fun p => !hides p := by
    simp [Dir.visible, AList.keys, List.keys, List.filter_map, Function.comp_def]
  rw [← List.length_eq_zero_iff, List.length_insertionSort, List.length_eq_zero_iff, chunk_files,
    hnames, List.filter_eq_nil_iff]
  constructor
  · intro hnone p hp hchunk
    by_contra hvisible
    exact hnone p (List.mem_filter.mpr ⟨hp, by simpa using hvisible⟩) hchunk
  · intro hhides p hp hchunk
    obtain ⟨hin, hvisible⟩ := List.mem_filter.mp hp
    simp [hhides p hin hchunk] at hvisible

/-- A scan of a directory with a chunk overlooks all chunks, reports an error or finds one. -/
theorem spool_files_newest_first_cases {s : Fs} (hchunk : HasChunk s) : ∃ t, t.files = s.files ∧
    (Overlooks s ∧ spool_files_newest_first s = .ok [] t ∨
      ¬ Overlooks s ∧ ((∃ e, spool_files_newest_first s = .error e t) ∨
        ∃ newest files, spool_files_newest_first s = .ok (newest :: files) t)) := by
  obtain ⟨d, hdir⟩ : ∃ d, s.dir = some d := by
    obtain ⟨p, hp, -⟩ := hchunk
    rw [← Option.isSome_iff_exists, Option.isSome_iff_ne_none]
    intro hdir
    simp [Fs.files, hdir] at hp
  have hfiles : s.files = d := by simp [Fs.files, hdir]
  cases hexists : s.next.1.fails .exists_ with
  | true =>
    have hfound : path_exists s = .ok false s.next.2 := by simp [path_exists, hdir, hexists]
    refine ⟨s.next.2, s.next_files, Or.inl ⟨⟨hchunk, Or.inl hexists⟩, ?_⟩⟩
    rw [spool_files_newest_first, bind_of_ok hfound]
    rfl
  | false =>
    have hfound : path_exists s = .ok true s.next.2 := by simp [path_exists, hdir, hexists]
    refine ⟨s.next.2.next.2, by rw [Fs.next_files, Fs.next_files], ?_⟩
    rw [spool_files_newest_first, bind_of_ok hfound, if_pos rfl]
    cases hlisting : s.next.2.next.1.fails .read_dir with
    | true =>
      have herror : read_dir s.next.2 = .error ⟨.read_dir⟩ s.next.2.next.2 := by
        simp [read_dir, hdir, hlisting]
      refine Or.inr ⟨fun hoverlooks => ?_, Or.inl ⟨_, bind_of_error herror⟩⟩
      simpa [hexists, hlisting] using hoverlooks.unseen
    | false =>
      have hok : read_dir s.next.2 = .ok (d.visible s.next.2.next.1.hides) s.next.2.next.2 := by
        simp [read_dir, hdir, hlisting]
      have hnil := newest_first_visible_eq_nil_iff d s.next.2.next.1.hides
      rw [bind_of_ok hok]
      cases hsorted : (chunk_files (d.visible s.next.2.next.1.hides)).insertionSort (· ≥ ·) with
      | nil => exact Or.inl ⟨⟨hchunk, Or.inr ⟨hlisting, hfiles.symm ▸ hnil.mp hsorted⟩⟩, rfl⟩
      | cons newest files =>
        refine Or.inr ⟨fun hoverlooks => ?_, Or.inr ⟨newest, files, rfl⟩⟩
        have hhides := (hoverlooks.unseen.resolve_left (by simp [hexists])).2
        rw [hnil.mpr (hfiles ▸ hhides)] at hsorted
        cases hsorted

/-- The startup scan returns a listing that does not overlook what is there. -/
structure ScanSucceeds (s : Fs) : Prop where
  returns : ∀ e t, spool_files_newest_first s ≠ .error e t
  sees : ¬ Overlooks s

/-- Chunks on disk are expected to be there. -/
def Unstranded (s : Storage) : Prop := HasChunk s.fs → s.buf.may_have_chunks = true

theorem Unstranded.new (cfg : ValidBufferConfig) {fs : Fs} (hscan : ScanSucceeds fs) :
    Unstranded (Buffer.new cfg fs) := by
  intro hchunk
  have hfiles : HasChunk fs := by
    have hpruned := pruned_spool_files_newest_first fs
    rw [Buffer.new] at hchunk
    cases hrun : spool_files_newest_first fs with
    | ok files t =>
      rw [hrun] at hchunk hpruned
      exact hchunk.of_pruned hpruned
    | error e t => exact absurd hrun (hscan.returns e t)
  obtain ⟨t, -, ⟨hoverlooks, -⟩ | ⟨-, ⟨e, herror⟩ | ⟨newest, files, hok⟩⟩⟩ :=
    spool_files_newest_first_cases hfiles
  · exact absurd hoverlooks hscan.sees
  · exact absurd herror (hscan.returns e t)
  · rw [Buffer.new, hok]
    rfl

namespace Buffer

/-- An operation keeps chunks from being stranded. -/
def KeepsSight {α : Type} (x : BufferM α) : Prop :=
  Respects (fun s t => Unstranded s → Unstranded t) x

variable {c : Ciborium}

/-- A chunk write that succeeds sets the flag; one that fails adds no chunk. -/
theorem write_chunk_keepsSight (c : Ciborium) (entries : List LogEntry) :
    KeepsSight (write_chunk c entries) := by
  intro s hsight hchunk
  cases hwrite : write_chunk c entries s with
  | ok _ t =>
    obtain ⟨hbuf, -⟩ := write_chunk_ok hwrite
    rw [finalState_ok, hbuf]
  | error e t =>
    obtain ⟨hbuf, hunwritten⟩ := write_chunk_error hwrite
    rw [hwrite, finalState_error] at hchunk
    rw [finalState_error, hbuf]
    exact hsight (hchunk.of_unwritten hunwritten)

theorem write_chunks_keepsSight (c : Ciborium) (pieces : List (List LogEntry)) :
    KeepsSight (write_chunks c pieces) := by
  induction pieces with
  | nil => exact fun s => id
  | cons piece pieces ih =>
    exact Respects.seq (write_chunk_keepsSight c piece) (fun _ => ih) (fun _ _ h => h)
      fun _ _ _ hfirst hrest h => hrest (hfirst h)

theorem flush_memory_to_disk_keepsSight (c : Ciborium) : KeepsSight (flush_memory_to_disk c) := by
  intro s hsight
  by_cases hmemory : s.buf.memory = []
  · rwa [flush_memory_to_disk_of_empty hmemory]
  · rw [flush_memory_to_disk_of_nonempty hmemory]
    exact write_chunks_keepsSight c _ s.drained hsight

theorem push_keepsSight (c : Ciborium) (entry : LogEntry) : KeepsSight (push c entry) := by
  intro s hsight
  by_cases hfull : s.buf.cfg.memory_max_entries ≤ s.buf.memory.length
  · have hflush := flush_memory_to_disk_keepsSight c s hsight
    rw [push_of_full hfull, bind_run]
    cases hrun : flush_memory_to_disk c s with
    | ok _ t =>
      rw [hrun] at hflush
      exact hflush
    | error e t =>
      rw [hrun] at hflush
      exact hflush
  · rw [push_of_room entry (not_le.mp hfull)]
    exact hsight

theorem delete_chunk_keepsSight (path : FileName) : KeepsSight (delete_chunk path) := by
  intro s hsight hchunk
  obtain ⟨hbuf, hfiles⟩ := delete_chunk_files path s
  rw [hbuf]
  apply hsight
  obtain hfiles | hfiles := hfiles
  · exact (hasChunk_congr hfiles).mp hchunk
  · obtain ⟨p, hp, hchunkp⟩ := hchunk
    rw [hfiles, AList.keys_erase] at hp
    exact ⟨p, List.mem_of_mem_erase hp, hchunkp⟩

/-- Where a chunk is expected and there is one, the answer is none exactly when the scan
overlooks it, and then none is expected any more. -/
theorem next_disk_chunk_cases {s : Storage} (hflag : s.buf.may_have_chunks = true)
    (hchunk : HasChunk s.fs) : ∃ t : Storage, t.fs.files = s.fs.files ∧
    (Overlooks s.fs ∧ next_disk_chunk s = .ok none t ∧ t.buf.may_have_chunks = false ∨
      ¬ Overlooks s.fs ∧ t.buf.may_have_chunks = true ∧
        ((∃ e, next_disk_chunk s = .error e t) ∨
          ∃ newest, next_disk_chunk s = .ok (some newest) t)) := by
  rw [next_disk_chunk, bind_of_ok (get_run s)]
  simp only [hflag, if_true]
  obtain ⟨t, hfiles, ⟨hoverlooks, hok⟩ | ⟨hsees, ⟨e, herror⟩ | ⟨newest, files, hok⟩⟩⟩ :=
    spool_files_newest_first_cases hchunk
  · rw [bind_of_ok (on_disk_of_ok hok)]
    exact ⟨_, hfiles, Or.inl ⟨hoverlooks, rfl, rfl⟩⟩
  · have hfails : on_disk none spool_files_newest_first s = .error ⟨none, .io e⟩ { s with fs := t } :=
      on_disk_eq_error_iff.mpr ⟨e, herror, rfl, rfl⟩
    rw [bind_of_error hfails]
    exact ⟨{ s with fs := t }, hfiles, Or.inr ⟨hsees, hflag, Or.inl ⟨_, rfl⟩⟩⟩
  · rw [bind_of_ok (on_disk_of_ok hok)]
    exact ⟨{ s with fs := t }, hfiles, Or.inr ⟨hsees, hflag, Or.inr ⟨newest, rfl⟩⟩⟩

/-- Looking for a chunk creates none. -/
theorem next_disk_chunk_hasChunk (s : Storage) (hchunk : HasChunk (finalState (next_disk_chunk s)).fs) :
    HasChunk s.fs := by
  rw [next_disk_chunk, bind_of_ok (get_run s)] at hchunk
  by_cases hflag : s.buf.may_have_chunks = true
  · simp only [hflag, if_true, bind_run] at hchunk
    have hpruned := pruned_spool_files_newest_first s.fs
    rw [on_disk, zoom] at hchunk
    cases hrun : spool_files_newest_first s.fs with
    | ok files t =>
      rw [hrun] at hchunk hpruned
      apply HasChunk.of_pruned hpruned
      cases files with
      | nil => exact hchunk
      | cons newest files => exact hchunk
    | error e t =>
      rw [hrun] at hchunk hpruned
      exact hchunk.of_pruned hpruned
  · rwa [if_neg hflag] at hchunk

theorem next_disk_chunk_unstranded_iff {s : Storage} (hsight : Unstranded s) :
    Unstranded (finalState (next_disk_chunk s)) ↔ ¬ Overlooks s.fs := by
  by_cases hchunk : HasChunk s.fs
  · obtain ⟨t, hfiles, ⟨hoverlooks, hok, hflag⟩ | ⟨hsees, hflag, hanswer⟩⟩ :=
      next_disk_chunk_cases (hsight hchunk) hchunk
    · rw [hok, finalState_ok]
      refine iff_of_false (fun hafter => ?_) (not_not.mpr hoverlooks)
      have hset := hafter ((hasChunk_congr hfiles).mpr hchunk)
      rw [hflag] at hset
      cases hset
    · refine iff_of_true ?_ hsees
      obtain ⟨e, herror⟩ | ⟨newest, hok⟩ := hanswer
      · rw [herror]
        exact fun _ => hflag
      · rw [hok]
        exact fun _ => hflag
  · exact iff_of_true (fun hafter => absurd (next_disk_chunk_hasChunk s hafter) hchunk)
      fun hoverlooks => hchunk hoverlooks.chunk

theorem next_disk_chunk_none_iff {s : Storage} (hsight : Unstranded s) (hchunk : HasChunk s.fs) :
    (∃ t, next_disk_chunk s = .ok none t) ↔ Overlooks s.fs := by
  obtain ⟨t, -, ⟨hoverlooks, hok, -⟩ | ⟨hsees, -, ⟨e, herror⟩ | ⟨newest, hok⟩⟩⟩ :=
    next_disk_chunk_cases (hsight hchunk) hchunk
  · exact iff_of_true ⟨t, hok⟩ hoverlooks
  · rw [herror]
    simpa using hsees
  · rw [hok]
    simpa using hsees

end Buffer

/-- Asked for a chunk while there is one, the buffer does not answer that there is none. -/
def Served (s : Drained) : Operation → Prop
  | .next_disk_chunk => HasChunk s.storage.fs → ∀ t, Buffer.next_disk_chunk s.storage ≠ .ok none t
  | _ => True

/-- No scan for a chunk overlooks what is there; every other operation may fail as it likes. -/
def Noticed (s : Drained) : Operation → Prop
  | .next_disk_chunk => ¬ Overlooks s.storage.fs
  | _ => True

instance (s : Drained) : (operation : Operation) → Decidable (Noticed s operation)
  | .next_disk_chunk => inferInstanceAs (Decidable (¬ Overlooks s.storage.fs))
  | .push _ => inferInstanceAs (Decidable True)
  | .flush_memory_to_disk => inferInstanceAs (Decidable True)
  | .drain_memory => inferInstanceAs (Decidable True)
  | .delete_chunk _ => inferInstanceAs (Decidable True)

theorem served_iff {s : Drained} (hsight : Unstranded s.storage) (operation : Operation) :
    Served s operation ↔ Noticed s operation := by
  cases operation with
  | next_disk_chunk =>
    by_cases hchunk : HasChunk s.storage.fs
    · simp only [Served, Noticed, ← Buffer.next_disk_chunk_none_iff hsight hchunk, hchunk,
        forall_const, not_exists, ne_eq]
    · exact iff_of_true (fun h => absurd h hchunk) fun hoverlooks => hchunk hoverlooks.chunk
  | _ => exact Iff.rfl

theorem unstranded_step_iff {c : Ciborium} {s t : Drained} {operation : Operation}
    (hsight : Unstranded s.storage) (hstep : (operations c).step s operation = some t) :
    Unstranded t.storage ↔ Noticed s operation := by
  cases operation with
  | push entry =>
    cases hstep
    exact iff_of_true (Buffer.push_keepsSight c entry s.storage hsight) trivial
  | flush_memory_to_disk =>
    cases hstep
    exact iff_of_true (Buffer.flush_memory_to_disk_keepsSight c s.storage hsight) trivial
  | drain_memory =>
    cases hstep
    exact iff_of_true hsight trivial
  | next_disk_chunk =>
    cases hstep
    exact Buffer.next_disk_chunk_unstranded_iff hsight
  | delete_chunk path =>
    cases hstep
    exact iff_of_true (Buffer.delete_chunk_keepsSight path s.storage hsight) trivial

/-- Stranded chunks. As long as no scan for a chunk has overlooked the chunks in the directory,
a chunk in the directory is expected to be there, whichever operations have failed. The next
operation keeps it so, and does not answer that there is none, exactly when it does not
overlook them either. -/
theorem no_chunk_is_stranded_iff {c : Ciborium} {cfg : ValidBufferConfig} {fs : Fs}
    (hscan : ScanSucceeds fs) {events : List Operation} {s : Drained}
    (hrun : (operations c).Run Noticed ⟨Buffer.new cfg fs, []⟩ events s) :
    Unstranded s.storage ∧ ∀ operation, (Served s operation ↔ Noticed s operation) ∧
      ∀ t, (operations c).step s operation = some t →
        (Unstranded t.storage ↔ Noticed s operation) := by
  have hsight : Unstranded s.storage :=
    hrun.invariant (P := fun s => Unstranded s.storage) (.new cfg hscan)
      fun _ _ _ hsight hnoticed hstep => (unstranded_step_iff hsight hstep).mpr hnoticed
  exact ⟨hsight, fun operation =>
    ⟨served_iff hsight operation, fun _ hstep => unstranded_step_iff hsight hstep⟩⟩

/-- A spool with one chunk; the startup scan is undisturbed, then the given verdicts apply. -/
def disturbed (verdicts : List Verdict) : Fs :=
  { chunk_at 1 with verdicts := .clean :: .clean :: verdicts }

def refusing (call : Call) : Verdict := { Verdict.clean with fails := fun other => other = call }

theorem scanSucceeds_disturbed (verdicts : List Verdict) : ScanSucceeds (disturbed verdicts) := by
  have hsees : ¬ Overlooks (disturbed verdicts) := by
    rintro ⟨⟨p, hp, hchunk⟩, hfails | ⟨-, hhides⟩⟩
    · cases hfails
    · exact absurd (hhides p hp hchunk) Bool.false_ne_true
  refine ⟨fun e t herror => ?_, hsees⟩
  cases herror

/-- The listing fails, and so does a deletion: the chunk stays where it is and is expected. -/
theorem no_chunk_is_stranded_listing : ∃ s : Drained, HasChunk s.storage.fs ∧
    s.storage.buf.may_have_chunks = true ∧ Served s .next_disk_chunk := by
  have hexec : ((operations .wire).exec Noticed ⟨Buffer.new (.sized 1 1 (by decide) (by decide))
      (disturbed [.clean, refusing .read_dir, refusing .remove_file]), []⟩
      [.next_disk_chunk, .delete_chunk (chunk_name 1)]).any
      (fun s => HasChunk s.storage.fs ∧ ¬ Overlooks s.storage.fs) = true := by
    rfl
  obtain ⟨s, hrun, htest⟩ := Machine.exists_run_of_exec _ hexec
  obtain ⟨hchunk, hsees⟩ := of_decide_eq_true htest
  obtain ⟨hsight, hnext⟩ := no_chunk_is_stranded_iff (scanSucceeds_disturbed _) hrun
  exact ⟨s, hchunk, hsight hchunk, (hnext .next_disk_chunk).1.mpr hsees⟩

/-- The check of the directory fails once: the chunk is on disk, the answer is that there is
none, and it is not looked for again. -/
theorem failed_check_strands_the_chunk : ∃ fs cfg t, ScanSucceeds fs ∧
    (operations .wire).Run (fun _ _ => True) ⟨Buffer.new cfg fs, []⟩ [.next_disk_chunk] ⟨t, []⟩ ∧
      Buffer.next_disk_chunk (Buffer.new cfg fs) = .ok none t ∧
      HasChunk t.fs ∧ t.buf.may_have_chunks = false := by
  have hnext : Buffer.next_disk_chunk (Buffer.new (.sized 1 1 (by decide) (by decide))
      (disturbed [refusing .exists_])) = .ok none
        ⟨⟨.sized 1 1 (by decide) (by decide), [], false⟩, chunk_at 1⟩ := rfl
  refine ⟨disturbed [refusing .exists_], .sized 1 1 (by decide) (by decide), _,
    scanSucceeds_disturbed _, ?_, hnext, by decide, rfl⟩
  exact .single trivial rfl

end spotflowd.buffer
