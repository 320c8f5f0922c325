import Spotflowd.Buffer.Listing
import Spotflowd.Buffer.Reading
import Spotflowd.Lib.Crash

open effect fs path chunked
open spotflowd.config spotflowd.log_entry

namespace spotflowd.buffer

/-- A write that is cut off leaves the first bytes. -/
def write_steps (name : FileName) (content : Bytes) : Interruptible IoError Fs Unit where
  run := write name content
  cut s t := t = s ∨ ∃ d n, s.dir = some d ∧
    t = { s with dir := some (d.insert name (content.take n)) }

/-- Every round of the loop evicts at most one chunk. -/
def enforce_limit_steps (max_bytes : Nat) : Interruptible IoError Fs Unit where
  run := enforce_limit max_bytes
  cut s := (Interruptible.loop (.whole (limit_round max_bytes)) (rounds_left s + 1)).cut s

def on_disk_steps {α : Type} (context : Option String) (x : Interruptible IoError Fs α) :
    Interruptible Error Storage α :=
  .zoom Storage.fs (fun fs s => { s with fs := fs }) (fun e => ⟨context, .io e⟩) x

namespace Buffer

/-- `write_chunk`, step by step. -/
def write_chunk_steps (c : Ciborium) (entries : List LogEntry) : Interruptible Error Storage Unit := do
  let self := (← Interruptible.whole get).buf
  on_disk_steps (some ("create spool dir " ++ self.cfg.disk_path)) (.whole create_dir_all)
  on_disk_steps none (enforce_limit_steps self.max_bytes)
  let path ← on_disk_steps none (.whole next_chunk_path)
  match c.into_writer entries with
  | none => .whole (throw ⟨some "CBOR serialization of chunk failed", .cbor⟩)
  | some buf =>
    let tmp := with_extension path "cbor.tmp"
    on_disk_steps (some ("write chunk tmp " ++ self.display tmp)) (write_steps tmp buf)
    on_disk_steps (some ("rename chunk " ++ self.display tmp ++ " → " ++ self.display path))
      (.whole (rename tmp path))
    .whole (update fun self => { self with may_have_chunks := true })

/-- `flush_memory_to_disk`, step by step. -/
def flush_memory_to_disk_steps (c : Ciborium) : Interruptible Error Storage Unit := do
  let self := (← Interruptible.whole get).buf
  if self.memory.isEmpty then
    return ()
  else
    let (entries, drained) := self.drain_memory
    .whole (update fun _ => drained)
    forM (chunks self.cfg.disk_chunk_max_entries entries) (write_chunk_steps c)

/-- Uninterrupted, the steps are the write. -/
theorem run_write_chunk_steps (c : Ciborium) (entries : List LogEntry) :
    (write_chunk_steps c entries).run = write_chunk c entries := by
  unfold write_chunk_steps write_chunk
  cases c.into_writer entries <;> rfl

theorem run_flush_memory_to_disk_steps (c : Ciborium) :
    (flush_memory_to_disk_steps c).run = flush_memory_to_disk c := by
  unfold flush_memory_to_disk_steps flush_memory_to_disk
  rw [Interruptible.run_bind]
  congr 1
  funext s
  dsimp only [drain_memory]
  split
  · rfl
  · rw [Interruptible.run_bind, Interruptible.run_forM]
    simp only [run_write_chunk_steps]
    rfl

end Buffer

theorem next_seq_le {d d' : Dir}
    (hnames : ∀ name ∈ d', sequence_number name ≠ none → name ∈ d) : next_seq d' ≤ next_seq d := by
  apply Nat.succ_le_succ
  rw [max_seq_le_iff]
  intro name hname seq hseq
  have hmem := hnames name (AList.mem_keys.mpr hname) (by rw [hseq]; exact Option.some_ne_none _)
  exact le_max_seq (AList.mem_keys.mp hmem) hseq

/-- The chunk files have names of the width of the format. -/
def Named (d : Dir) : Prop := ∀ name ∈ chunk_names d, ∃ n, n < 10 ^ 10 ∧ name = chunk_name n

theorem Named.of_subset {d d' : Dir} (hnamed : Named d) (hsub : ∀ name ∈ d', name ∈ d) : Named d' := by
  intro name hname
  obtain ⟨hmem, hchunk⟩ := mem_chunk_names.mp hname
  exact hnamed name (mem_chunk_names.mpr ⟨hsub name hmem, hchunk⟩)

/-- A chunk put in place becomes the newest one. -/
theorem spool_stored {d : Dir} (hnamed : Named d) (hroom : next_seq d < 10 ^ 10) (bytes : Bytes) :
    spool (stored d (next_seq d) bytes) = spool d ++ [(chunk_name (next_seq d), bytes)] := by
  have hgreatest : ∀ p ∈ chunk_names (d.erase (tmp_name (next_seq d))), p < chunk_name (next_seq d) := by
    intro p hp
    obtain ⟨hmem, hchunk⟩ := mem_chunk_names.mp hp
    have hold := (AList.mem_erase.mp hmem).2
    obtain ⟨n, hn, rfl⟩ := hnamed p (mem_chunk_names.mpr ⟨hold, hchunk⟩)
    have hle := le_max_seq (AList.mem_keys.mp hold) (sequence_number_chunk_name (show n < 2 ^ 64 by omega))
    exact chunk_name_lt (Nat.lt_succ_of_le hle) hroom
  rw [stored, spool_insert_newest (is_chunk_file_chunk_name _) hgreatest,
    spool_erase_other (is_chunk_file_tmp_name _)]

/-- `done` has been written on top of `spool₀`, of which the oldest chunks may have gone, and
`room` more numbers are as wide as the format. -/
structure Spooling (c : Ciborium) (spool₀ : List (FileName × Bytes)) (done : List (List LogEntry))
    (room : Nat) (d : Dir) : Prop where
  clean : ∃ new, spool d <:+ spool₀ ++ new ∧ new.map (fun file => c.from_reader file.2) = done.map some
  named : Named d
  room : next_seq d + room ≤ 10 ^ 10

section Spooling

variable {c : Ciborium} {spool₀ : List (FileName × Bytes)} {done : List (List LogEntry)} {room : Nat}
  {d : Dir}

theorem Spooling.start (hnamed : Named d)
    (hroom : next_seq d + room ≤ 10 ^ 10) : Spooling c (spool d) [] room d where
  clean := ⟨[], by simp, rfl⟩
  named := hnamed
  room := hroom

theorem Spooling.of_le (hstate : Spooling c spool₀ done room d) {less : Nat} (hle : less ≤ room) :
    Spooling c spool₀ done less d where
  clean := hstate.clean
  named := hstate.named
  room := by
    have hroom := hstate.room
    omega

theorem Spooling.evict (hstate : Spooling c spool₀ done room d) {file : FileName × Bytes}
    {files : List (FileName × Bytes)} (hspool : spool d = file :: files) :
    Spooling c spool₀ done room (d.erase file.1) where
  clean := by
    obtain ⟨new, hsuffix, hnew⟩ := hstate.clean
    refine ⟨new, ?_, hnew⟩
    rw [@spool_erase d file.1 file.2 files hspool]
    exact (List.suffix_cons file files).trans (hspool ▸ hsuffix)
  named := hstate.named.of_subset fun _ hname => (AList.mem_erase.mp hname).2
  room := by
    have hroom := hstate.room
    have hle := @next_seq_le d (d.erase file.1)
      fun name hname _ => (AList.mem_erase.mp hname).2
    omega

/-- A temporary file does not count. -/
theorem Spooling.tmp (hstate : Spooling c spool₀ done room d) (seq : Nat) (content : Bytes) :
    Spooling c spool₀ done room (d.insert (tmp_name seq) content) where
  clean := by
    rw [spool_insert_other (is_chunk_file_tmp_name seq)]
    exact hstate.clean
  named name hname := by
    obtain ⟨hmem, hchunk⟩ := mem_chunk_names.mp hname
    have hold := ((AList.mem_insert _).mp hmem).resolve_left (tmp_name_ne_chunk hchunk)
    exact hstate.named name (mem_chunk_names.mpr ⟨hold, hchunk⟩)
  room := by
    have hroom := hstate.room
    have hle := @next_seq_le d (d.insert (tmp_name seq) content) (by
      intro name hname hnumber
      refine ((AList.mem_insert _).mp hname).resolve_left ?_
      rintro rfl
      exact hnumber (sequence_number_tmp_name seq))
    omega

/-- The chunk put in place is the newest one, and it is complete. -/
theorem Spooling.stored (hstate : Spooling c spool₀ done (room + 1) d) {piece : List LogEntry}
    {bytes : Bytes} (hbytes : c.from_reader bytes = some piece) :
    Spooling c spool₀ (done ++ [piece]) room (stored d (next_seq d) bytes) := by
  have hroom := hstate.room
  refine ⟨?_, ?_, ?_⟩
  · obtain ⟨new, hsuffix, hnew⟩ := hstate.clean
    refine ⟨new ++ [(chunk_name (next_seq d), bytes)], ?_, ?_⟩
    · rw [spool_stored hstate.named (by omega), ← List.append_assoc]
      exact List.suffix_append_self_iff.mpr hsuffix
    · rw [List.map_append, List.map_append, hnew, List.map_singleton, List.map_singleton, hbytes]
  · intro name hname
    obtain ⟨hmem, hchunk⟩ := mem_chunk_names.mp hname
    obtain rfl | hold := (AList.mem_insert _).mp hmem
    · exact ⟨next_seq d, by omega, rfl⟩
    · exact hstate.named name (mem_chunk_names.mpr ⟨(AList.mem_erase.mp hold).2, hchunk⟩)
  · rw [next_seq_stored bytes le_rfl (by omega)]
    omega

end Spooling

/-- A file system that does what it is told, with a directory as described. -/
structure Calm (described : Dir → Prop) (s : Fs) : Prop where
  quiet : s.verdicts = []
  files : described s.files

/-- Some of the pieces have been written, the first ones. -/
def CutOff (c : Ciborium) (spool₀ : List (FileName × Bytes)) (pieces : List (List LogEntry))
    (d : Dir) : Prop :=
  ∃ done, done <+: pieces ∧ Spooling c spool₀ done 0 d

section Guards

variable {c : Ciborium} {spool₀ : List (FileName × Bytes)} {done : List (List LogEntry)} {room : Nat}
  {C : Fs → Prop}

theorem create_dir_all_guards (hcut : ∀ s, Calm (Spooling c spool₀ done room) s → C s) :
    (Interruptible.whole create_dir_all).Guards (Calm (Spooling c spool₀ done room))
      (fun _ s => Calm (Spooling c spool₀ done room) s ∧ s.dir.isSome) C := by
  refine .whole_of_ok (fun s hs => ?_) hcut fun _ s hs => hcut s hs.1
  exact ⟨(), _, create_dir_all_quiet hs.quiet, ⟨hs.quiet, hs.files⟩, rfl⟩

theorem limit_round_keeps (max_bytes : Nat) {s : Fs} (hs : Calm (Spooling c spool₀ done room) s)
    (hdir : s.dir.isSome) :
    ∃ again t, limit_round max_bytes s = .ok again t ∧ Calm (Spooling c spool₀ done room) t ∧
      t.dir.isSome := by
  obtain ⟨file, files, hspool, -, hround, -⟩ | ⟨-, hround⟩ := limit_round_spool hs.quiet max_bytes
  · exact ⟨_, _, hround, ⟨hs.quiet, hs.files.evict hspool⟩, rfl⟩
  · exact ⟨_, _, hround, hs, hdir⟩

theorem enforce_limit_guards (max_bytes : Nat)
    (hcut : ∀ s, Calm (Spooling c spool₀ done room) s → C s) :
    (enforce_limit_steps max_bytes).Guards
      (fun s => Calm (Spooling c spool₀ done room) s ∧ s.dir.isSome)
      (fun _ s => Calm (Spooling c spool₀ done room) s ∧ s.dir.isSome) C := by
  have hround : (Interruptible.whole (limit_round max_bytes)).Guards
      (fun s => Calm (Spooling c spool₀ done room) s ∧ s.dir.isSome)
      (fun _ s => Calm (Spooling c spool₀ done room) s ∧ s.dir.isSome)
      (fun s => Calm (Spooling c spool₀ done room) s ∧ s.dir.isSome) :=
    .whole_of_ok (fun s hs => limit_round_keeps max_bytes hs.1 hs.2) (fun _ hs => hs) fun _ _ hs => hs
  intro s hs
  obtain ⟨hloop, hend⟩ := (Interruptible.Guards.loop hround (rounds_left s + 1)) s hs
  refine ⟨fun t ht => hcut t (hloop t ht).1, fun a t hrun => hend a t ?_⟩
  rw [Interruptible.run_loop]
  exact hrun

theorem next_chunk_path_guards (hcut : ∀ s, Calm (Spooling c spool₀ done (room + 1)) s → C s) :
    (Interruptible.whole next_chunk_path).Guards
      (fun s => Calm (Spooling c spool₀ done (room + 1)) s ∧ s.dir.isSome)
      (fun path s => (Calm (Spooling c spool₀ done (room + 1)) s ∧ s.dir.isSome) ∧
        path = chunk_name (next_seq s.files)) C := by
  refine .whole_of_ok ?_ (fun s hs => hcut s hs.1) fun _ s hs => hcut s hs.1.1
  rintro s ⟨hs, hdir⟩
  obtain ⟨d, hd⟩ := Option.isSome_iff_exists.mp hdir
  have hfiles : s.files = d := by rw [Fs.files, hd, Option.getD_some]
  have hroom := hs.files.room
  have hpath : next_chunk_path s = .ok (chunk_name (next_seq s.files)) s := by
    rw [hfiles] at hroom ⊢
    rw [next_chunk_path_quiet hs.quiet hd, Nat.mod_eq_of_lt (by omega)]
  exact ⟨_, s, hpath, ⟨hs, hdir⟩, rfl⟩

/-- The temporary file of the next chunk is there, next to what is described. -/
def TmpWritten (described : Dir → Prop) (path : FileName) (buf : Bytes) (d : Dir) : Prop :=
  ∃ d₀, described d₀ ∧ path = chunk_name (next_seq d₀) ∧ d = d₀.insert (tmp_name (next_seq d₀)) buf

theorem write_guards (path : FileName) (buf : Bytes)
    (hcut : ∀ s, Calm (Spooling c spool₀ done room) s → C s) :
    (write_steps (with_extension path "cbor.tmp") buf).Guards
      (fun s => (Calm (Spooling c spool₀ done room) s ∧ s.dir.isSome) ∧
        path = chunk_name (next_seq s.files))
      (fun _ => Calm (TmpWritten (Spooling c spool₀ done room) path buf)) C := by
  rintro s ⟨⟨hs, hdir⟩, rfl⟩
  obtain ⟨d, hd⟩ := Option.isSome_iff_exists.mp hdir
  have hfiles : s.files = d := by rw [Fs.files, hd, Option.getD_some]
  constructor
  · rintro t (rfl | ⟨d', n, hd', rfl⟩)
    · exact hcut _ hs
    · rw [hd] at hd'
      cases hd'
      exact hcut _ ⟨hs.quiet, (hfiles ▸ hs.files).tmp _ _⟩
  · intro a t hrun
    have hok := write_quiet hs.quiet hd (tmp_name (next_seq s.files)) buf
    change write (tmp_name (next_seq s.files)) buf s = _ at hrun
    rw [hok] at hrun
    cases hrun
    exact ⟨hs.quiet, d, hfiles ▸ hs.files, by rw [hfiles], by rw [← hfiles]; rfl⟩

theorem rename_guards {piece : List LogEntry} {buf : Bytes} (hbuf : c.from_reader buf = some piece)
    (path : FileName) (hcut : ∀ s, Calm (Spooling c spool₀ done (room + 1)) s → C s)
    (hend : ∀ s, Calm (Spooling c spool₀ (done ++ [piece]) room) s → C s) :
    (Interruptible.whole (rename (with_extension path "cbor.tmp") path)).Guards
      (Calm (TmpWritten (Spooling c spool₀ done (room + 1)) path buf))
      (fun _ => Calm (Spooling c spool₀ (done ++ [piece]) room)) C := by
  refine .whole_of_ok ?_ ?_ fun _ s hs => hend s hs
  · rintro s ⟨hquiet, d, hd, rfl, hfiles⟩
    have hlookup : s.files.lookup (tmp_name (next_seq d)) = some buf := by rw [hfiles, AList.lookup_insert]
    have hok := rename_quiet hquiet hlookup (chunk_name (next_seq d))
    refine ⟨(), _, hok, hquiet, ?_⟩
    rw [Fs.files, Option.getD_some, hfiles, Dir.erase_insert]
    exact hd.stored hbuf
  · rintro s ⟨hquiet, d, hd, -, hfiles⟩
    exact hcut s ⟨hquiet, hfiles ▸ hd.tmp _ _⟩

theorem on_disk_guards {α : Type} {context : Option String} {P : Fs → Prop} {Q : α → Fs → Prop}
    {x : Interruptible IoError Fs α} (hx : x.Guards P Q C) :
    (on_disk_steps context x).Guards (fun s => P s.fs) (fun a s => Q a s.fs) fun s => C s.fs :=
  hx.zoom fun _ _ => rfl

namespace Buffer

/-- A chunk is written completely or not at all, wherever its write is cut off. -/
theorem write_chunk_guards (hround : c.RoundTrips) (entries : List LogEntry)
    (hcut : ∀ s, Calm (Spooling c spool₀ done (room + 1)) s → C s)
    (hend : ∀ s, Calm (Spooling c spool₀ (done ++ [entries]) room) s → C s) :
    (write_chunk_steps c entries).Guards
      (fun s => Calm (Spooling c spool₀ done (room + 1)) s.fs)
      (fun _ s => Calm (Spooling c spool₀ (done ++ [entries]) room) s.fs) fun s => C s.fs := by
  have hget : (Interruptible.whole (get : BufferM Storage)).Guards
      (fun s => Calm (Spooling c spool₀ done (room + 1)) s.fs)
      (fun _ s => Calm (Spooling c spool₀ done (room + 1)) s.fs) fun s => C s.fs :=
    .whole_of_ok (fun s hs => ⟨s, s, rfl, hs⟩) (fun _ hs => hcut _ hs) fun _ _ hs => hcut _ hs
  refine hget.bind fun s => ?_
  refine (on_disk_guards (create_dir_all_guards hcut)).bind fun _ => ?_
  refine (on_disk_guards (enforce_limit_guards _ hcut)).bind fun _ => ?_
  refine (on_disk_guards (next_chunk_path_guards hcut)).bind fun path => ?_
  cases hbytes : c.into_writer entries with
  | none =>
    refine .whole (fun s hs => ⟨hcut _ hs.1.1, hcut _ hs.1.1⟩) fun s a t hs hok => ?_
    cases hok
  | some buf =>
    refine (on_disk_guards (write_guards path buf hcut)).bind fun _ => ?_
    refine (on_disk_guards (rename_guards (hround _ _ hbytes) path hcut hend)).bind fun _ => ?_
    exact .whole_of_ok (fun s hs => ⟨(), _, rfl, hs⟩) (fun _ hs => hend _ hs) fun _ _ hs => hend _ hs

theorem write_chunks_guards (hround : c.RoundTrips) (pieces : List (List LogEntry)) :
    (forM pieces (write_chunk_steps c)).Guards
      (fun s => Calm (Spooling c spool₀ [] pieces.length) s.fs)
      (fun _ s => Calm (Spooling c spool₀ pieces 0) s.fs)
      (fun s => Calm (CutOff c spool₀ pieces) s.fs) := by
  have hall := @Interruptible.Guards.forM _ _ _ (fun s => Calm (CutOff c spool₀ pieces) s.fs)
    (fun done s => Calm (Spooling c spool₀ done (pieces.length - done.length)) s.fs) (write_chunk_steps c)
    pieces ?_ ?_
  · simpa using hall
  · intro done entries rest heq
    have hroom : pieces.length - done.length = (pieces.length - (done ++ [entries]).length) + 1 := by
      rw [heq, List.length_append, List.length_append, List.length_cons, List.length_singleton]
      omega
    rw [hroom]
    apply write_chunk_guards hround entries
    · exact fun s hs => ⟨hs.quiet, done, ⟨entries :: rest, heq.symm⟩, hs.files.of_le (Nat.zero_le _)⟩
    · exact fun s hs => ⟨hs.quiet, done ++ [entries], ⟨rest, by simp [heq]⟩,
        hs.files.of_le (Nat.zero_le _)⟩
  · exact fun s hs => ⟨hs.quiet, pieces, List.prefix_rfl, hs.files.of_le (Nat.zero_le _)⟩

/-- Wherever a flush is cut off, the first pieces have been written. -/
theorem flush_memory_to_disk_cut (hround : c.RoundTrips) {s t : Storage}
    (hquiet : s.fs.verdicts = [])
    (hnamed : Named s.fs.files)
    (hroom : next_seq s.fs.files +
      (chunks s.buf.cfg.disk_chunk_max_entries s.buf.memory).length ≤ 10 ^ 10)
    (hcut : (flush_memory_to_disk_steps c).cut s t) :
    CutOff c (spool s.fs.files) (chunks s.buf.cfg.disk_chunk_max_entries s.buf.memory) t.fs.files := by
  have hstart := Spooling.start (c := c) hnamed hroom
  have hnothing : CutOff c (spool s.fs.files)
      (chunks s.buf.cfg.disk_chunk_max_entries s.buf.memory) s.fs.files :=
    ⟨[], List.nil_prefix, hstart.of_le (Nat.zero_le _)⟩
  obtain (rfl | rfl) | ⟨_, _, hget, hcut⟩ := hcut
  · exact hnothing
  · exact hnothing
  cases hget
  dsimp only [drain_memory] at hcut
  split at hcut
  · rw [show t = s from hcut]
    exact hnothing
  · obtain (rfl | rfl) | ⟨_, _, hupdate, hcut⟩ := hcut
    · exact hnothing
    · exact hnothing
    · cases hupdate
      exact ((write_chunks_guards hround _ s.drained ⟨hquiet, hstart⟩).1 t hcut).files

end Buffer

end Guards

/-- What a process that has died leaves to the next one. -/
def Storage.restarted (s : Storage) (cfg : ValidBufferConfig) : Storage :=
  Buffer.new cfg ⟨s.fs.dir, [], [], []⟩

theorem newest_first_eq (d : Dir) :
    (chunk_names d).insertionSort (· ≥ ·) = ((spool d).map Prod.fst).reverse := by
  have hperm : ((chunk_names d).insertionSort (· ≥ ·)).Perm ((spool d).map Prod.fst).reverse := by
    rw [map_fst_spool]
    exact (List.perm_insertionSort _ _).trans
      ((List.reverse_perm _).trans (List.perm_insertionSort _ _)).symm
  apply hperm.eq_of_pairwise _ (List.pairwise_insertionSort _ _)
  · rw [map_fst_spool, List.pairwise_reverse]
    exact List.pairwise_insertionSort (· ≤ ·) _
  · intro a b _ _ hab hba
    exact le_antisymm hba hab

theorem restarted_eq (s : Storage) (cfg : ValidBufferConfig) :
    s.restarted cfg = ⟨⟨cfg, [], !(spool s.fs.files).isEmpty⟩, ⟨s.fs.dir, [], [], []⟩⟩ := by
  have hlisting := spool_files_newest_first_quiet (s := ⟨s.fs.dir, [], [], []⟩) rfl
  change _ = EStateM.Result.ok ((chunk_names s.fs.files).insertionSort (· ≥ ·)) _ at hlisting
  rw [Storage.restarted, Buffer.new, hlisting, newest_first_eq]
  simp

/-- The restarted buffer sees the chunks, newest first, and nothing else. -/
theorem restarted_listing (s : Storage) (cfg : ValidBufferConfig) :
    spool_files_newest_first (s.restarted cfg).fs =
      .ok ((spool s.fs.files).map Prod.fst).reverse (s.restarted cfg).fs := by
  rw [restarted_eq, ← newest_first_eq]
  exact spool_files_newest_first_quiet rfl

/-- It hands out the newest chunk, if there is one. -/
theorem restarted_next_disk_chunk (s : Storage) (cfg : ValidBufferConfig) :
    ∃ t, Buffer.next_disk_chunk (s.restarted cfg) =
      .ok ((spool s.fs.files).map Prod.fst).getLast? t := by
  have hnewest : newest_chunk (s.restarted cfg).fs.files =
      ((spool s.fs.files).map Prod.fst).getLast? := by
    rw [restarted_eq, ← List.head?_reverse, ← newest_first_eq]
    rfl
  cases hlast : ((spool s.fs.files).map Prod.fst).getLast? with
  | none =>
    have hempty : spool s.fs.files = [] := by simpa using hlast
    refine ⟨s.restarted cfg, ?_⟩
    rw [restarted_eq, hempty]
    rfl
  | some path =>
    rw [hlast] at hnewest
    refine ⟨_, Buffer.next_disk_chunk_of_newest (by rw [restarted_eq]) ?_ hnewest⟩
    have hne : spool s.fs.files ≠ [] := by
      intro hempty
      rw [hempty] at hlast
      cases hlast
    rw [restarted_eq]
    simpa using hne

/-- The next write stores all of its entries, whatever temporary file is there. -/
theorem restarted_write_chunk {c : Ciborium} {entries : List LogEntry} {bytes : Bytes}
    (hbytes : c.into_writer entries = some bytes) (s : Storage) (cfg : ValidBufferConfig)
    (hnamed : Named s.fs.files) (hroom : next_seq s.fs.files < 10 ^ 10) :
    ∃ t name, Buffer.write_chunk c entries (s.restarted cfg) = .ok () t ∧
      spool t.fs.files <:+ spool s.fs.files ++ [(name, bytes)] ∧ (name, bytes) ∈ spool t.fs.files := by
  have hquiet : (s.restarted cfg).fs.verdicts = [] := by rw [restarted_eq]
  have hfiles : (s.restarted cfg).fs.files = s.fs.files := by
    rw [restarted_eq]
    rfl
  obtain ⟨gone, d, hevicts, hlimit, hwrite⟩ := Buffer.write_chunk_limited (c := c) entries hquiet
  rw [hbytes] at hwrite
  rw [hfiles] at hevicts
  have hkept := @enforce_limit_kept (s.restarted cfg).buf.max_bytes
    { (s.restarted cfg).fs with dir := some (s.restarted cfg).fs.files } _ hquiet hlimit
  have hsuffix : spool d <:+ spool s.fs.files := by
    change spool d = kept _ _ (spool (s.restarted cfg).fs.files) at hkept
    rw [hkept, hfiles]
    exact kept_suffix _ _ _
  have hsub : ∀ name ∈ d, name ∈ s.fs.files := fun _ hname => hevicts.removes.mem hname
  have hle := @next_seq_le s.fs.files d fun name hname _ => hsub name hname
  have hspool : spool (stored d (next_seq d % 2 ^ 64) bytes) =
      spool d ++ [(chunk_name (next_seq d), bytes)] := by
    rw [Nat.mod_eq_of_lt (by omega), spool_stored (hnamed.of_subset hsub) (by omega)]
  refine ⟨_, chunk_name (next_seq d), hwrite, ?_, ?_⟩
  · change spool (stored d (next_seq d % 2 ^ 64) bytes) <:+ _
    rw [hspool]
    exact List.suffix_append_self_iff.mpr hsuffix
  · change _ ∈ spool (stored d (next_seq d % 2 ^ 64) bytes)
    rw [hspool]
    exact List.mem_append_right _ List.mem_cons_self

theorem is_chunk_file_of_listed {s t : Fs} {files : List FileName}
    (hok : spool_files_newest_first s = .ok files t) {name : FileName} (hname : name ∈ files) :
    is_chunk_file name = true := by
  unfold spool_files_newest_first at hok
  obtain ⟨found, u, -, hok⟩ := bind_eq_ok_iff.mp hok
  split at hok
  · obtain ⟨entries, v, -, hok⟩ := bind_eq_ok_iff.mp hok
    cases hok
    exact is_chunk_file_of_mem ((List.mem_insertionSort _).mp hname)
  · cases hok
    cases hname

/-- Whatever the environment does, only chunk files are handed out. -/
theorem is_chunk_file_of_next_disk_chunk {s t : Storage} {path : FileName}
    (hok : Buffer.next_disk_chunk s = .ok (some path) t) : is_chunk_file path = true := by
  unfold Buffer.next_disk_chunk at hok
  rw [bind_of_ok (get_run s)] at hok
  split at hok
  · obtain ⟨files, u, hlisted, hok⟩ := bind_eq_ok_iff.mp hok
    obtain ⟨hlisted, -⟩ := on_disk_eq_ok_iff.mp hlisted
    cases hhead : files.head? with
    | none =>
      simp only [hhead] at hok
      cases hok
    | some next =>
      simp only [hhead] at hok
      cases hok
      exact is_chunk_file_of_listed hlisted (List.mem_of_head? hhead)
  · cases hok

/-- Wherever a flush is cut off by a crash, what the next start finds are the newest of the chunks
that were there and of the first slices of the flushed entries, the latter complete. The restarted
buffer knows whether there are any; no temporary file is ever taken for a chunk, nor does one keep
the next write from storing its entries. -/
theorem crash_leaves_a_clean_spool {c : Ciborium} (hround : c.RoundTrips) {s t : Storage}
    (hquiet : s.fs.verdicts = []) (hnamed : Named s.fs.files)
    (hroom : next_seq s.fs.files +
      (chunks s.buf.cfg.disk_chunk_max_entries s.buf.memory).length ≤ 10 ^ 10)
    (hcut : (Buffer.flush_memory_to_disk_steps c).cut s t) (cfg : ValidBufferConfig) :
    (∃ k new, spool t.fs.files <:+ spool s.fs.files ++ new ∧
      new.map (fun file => c.from_reader file.2) =
        ((chunks s.buf.cfg.disk_chunk_max_entries s.buf.memory).take k).map some) ∧
    ((t.restarted cfg).buf.may_have_chunks = true ↔ spool t.fs.files ≠ []) ∧
    spool_files_newest_first (t.restarted cfg).fs =
      .ok ((spool t.fs.files).map Prod.fst).reverse (t.restarted cfg).fs ∧
    (∃ u, Buffer.next_disk_chunk (t.restarted cfg) =
      .ok ((spool t.fs.files).map Prod.fst).getLast? u) ∧
    (∀ seq, tmp_name seq ∉ (spool t.fs.files).map Prod.fst) ∧
    (∀ u v path seq, Buffer.next_disk_chunk u = .ok (some path) v → path ≠ tmp_name seq) ∧
    ∀ entries bytes, c.into_writer entries = some bytes → next_seq t.fs.files < 10 ^ 10 →
      ∃ u name, Buffer.write_chunk c entries (t.restarted cfg) = .ok () u ∧
        spool u.fs.files <:+ spool t.fs.files ++ [(name, bytes)] ∧
        (name, bytes) ∈ spool u.fs.files ∧ c.from_reader bytes = some entries := by
  obtain ⟨done, hdone, hstate⟩ := Buffer.flush_memory_to_disk_cut hround hquiet hnamed hroom hcut
  refine ⟨?_, ?_, restarted_listing t cfg, restarted_next_disk_chunk t cfg, ?_, ?_, ?_⟩
  · obtain ⟨new, hsuffix, hnew⟩ := hstate.clean
    refine ⟨done.length, new, hsuffix, ?_⟩
    rw [hnew, ← List.prefix_iff_eq_take.mp hdone]
  · rw [restarted_eq]
    simp
  · intro seq hmem
    obtain ⟨file, hfile, hname⟩ := List.mem_map.mp hmem
    have hchunk := ((@mem_spool _ file.1 file.2).mp hfile).1
    rw [hname, is_chunk_file_tmp_name] at hchunk
    cases hchunk
  · exact fun u v path seq hok => tmp_name_ne_chunk (is_chunk_file_of_next_disk_chunk hok)
  · intro entries bytes hbytes hnext
    obtain ⟨u, name, hwrite, hspool, hmem⟩ :=
      restarted_write_chunk hbytes t cfg hstate.named hnext
    exact ⟨u, name, hwrite, hspool, hmem, hround _ _ hbytes⟩

/-- One entry in memory and nothing on disk. -/
def one_in_memory : Storage where
  buf := ⟨.sized 1 1 Nat.one_pos Nat.one_pos, [entry "a"], false⟩
  fs := ⟨none, [], [], []⟩

/-- Three bytes of the first chunk, under its temporary name. -/
def torn : Storage where
  buf := ⟨.sized 1 1 Nat.one_pos Nat.one_pos, [], false⟩
  fs := ⟨some (AList.singleton (tmp_name 1) [129, 166, 100]), [], [], []⟩

theorem torn_cut : (Buffer.flush_memory_to_disk_steps .wire).cut one_in_memory torn := by
  have hbytes : (Ciborium.wire.into_writer [entry "a"]).map (List.take 3) = some [129, 166, 100] := by
    rfl
  obtain ⟨bytes, hbytes, htake⟩ := Option.map_eq_some_iff.mp hbytes
  have hwrite : (Buffer.write_chunk_steps .wire [entry "a"]).cut one_in_memory.drained torn := by
    unfold Buffer.write_chunk_steps
    rw [hbytes]
    refine Or.inr ⟨_, _, rfl, Or.inr ⟨_, _, rfl, Or.inr ⟨_, _, rfl, Or.inr ⟨_, _, rfl, Or.inl ?_⟩⟩⟩⟩
    refine ⟨_, Or.inr ⟨∅, 3, rfl, rfl⟩, ?_⟩
    rw [htake]
    rfl
  exact Or.inr ⟨_, _, rfl, Or.inr ⟨_, _, rfl, Or.inl hwrite⟩⟩

/-- The torn file is not seen, and the next chunk is written in its place. -/
theorem crash_leaves_a_clean_spool_torn :
    (torn.restarted one_in_memory.buf.cfg).buf.may_have_chunks = false ∧
      ∃ bytes u name, Ciborium.wire.into_writer [entry "b"] = some bytes ∧
        Buffer.write_chunk .wire [entry "b"] (torn.restarted one_in_memory.buf.cfg) = .ok () u ∧
        spool u.fs.files <:+ [(name, bytes)] := by
  have hspool : spool torn.fs.files = [] := by rfl
  have hbytes : (Ciborium.wire.into_writer [entry "b"]).isSome := by rfl
  obtain ⟨bytes, hbytes⟩ := Option.isSome_iff_exists.mp hbytes
  obtain ⟨-, hflag, -, -, -, -, hnext⟩ := crash_leaves_a_clean_spool Ciborium.wire_roundTrips rfl
    (fun _ hname => absurd (mem_chunk_names.mp hname).1 (AList.notMem_empty _)) (by decide) torn_cut
    one_in_memory.buf.cfg
  rw [hspool] at hflag hnext
  obtain ⟨u, name, hwrite, hsuffix, -⟩ := hnext _ _ hbytes (by decide)
  exact ⟨by simpa using hflag, bytes, u, name, hbytes, hwrite, hsuffix⟩

end spotflowd.buffer
