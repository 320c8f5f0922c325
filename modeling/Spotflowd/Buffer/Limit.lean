import Spotflowd.Buffer.Chronology
import Spotflowd.Buffer.Listing
import Spotflowd.Buffer.Room

open cbor effect fs chunked
open spotflowd.config spotflowd.log_entry

namespace spotflowd.buffer

/-- `disk_max_size_mb` in bytes. -/
def disk_limit (cfg : ValidBufferConfig) : Nat := cfg.disk_max_size_mb * 1024 * 1024

/-- The operations that flush: a push that finds the memory full, and the flush itself. -/
def Flushes (s : Storage) : Operation → Prop
  | .push _ => s.buf.cfg.memory_max_entries ≤ s.buf.memory.length
  | .flush_memory_to_disk => True
  | _ => False

/-- The operation, begun at `s`, writes `piece` as a chunk, which succeeds and leads from `u`
to `t`. -/
structure Writes (c : Ciborium) (s : Storage) (operation : Operation) (piece : List LogEntry)
    (u t : Storage) : Prop where
  flushes : Flushes s operation
  before : ∃ before after,
    chunks s.buf.cfg.disk_chunk_max_entries s.buf.memory = before ++ piece :: after ∧
      Buffer.write_chunks c before s.drained = .ok () u
  writes : Buffer.write_chunk c piece u = .ok () t

theorem total_bytes_spool_le (d : Dir) : total_bytes (spool d) ≤ spool_bytes d := by
  rw [spool_bytes_eq]
  exact Nat.le_add_left _ _

theorem other_bytes_eq_zero {d : Dir} (honly : ∀ name ∈ d, is_chunk_file name = true) :
    other_bytes d = 0 := by
  rw [other_bytes, Dir.total_congr (g := fun _ _ => 0)]
  · simp [Dir.total]
  · intro name hname content
    rw [if_pos (honly name hname)]

theorem is_chunk_file_of_mem_stored {d : Dir} (honly : ∀ name ∈ d, is_chunk_file name = true)
    {seq : Nat} {bytes : Bytes} : ∀ name ∈ stored d seq bytes, is_chunk_file name = true := by
  intro name hname
  obtain rfl | hold := (AList.mem_insert _).mp hname
  · exact is_chunk_file_chunk_name seq
  · exact honly name (AList.mem_erase.mp hold).2

theorem lookup_stored_cases {d : Dir} {seq : Nat} {bytes content : Bytes} {name : FileName}
    (hchunk : is_chunk_file name = true) (hlookup : (stored d seq bytes).lookup name = some content) :
    content = bytes ∨ d.lookup name = some content := by
  by_cases heq : name = chunk_name seq
  · rw [heq, lookup_stored_self, Option.some.injEq] at hlookup
    exact Or.inl hlookup.symm
  · rw [lookup_stored_ne hchunk heq] at hlookup
    exact Or.inr hlookup

/-- In a directory of chunks a new chunk adds exactly its size. -/
theorem spool_bytes_stored {d : Dir} (honly : ∀ name ∈ d, is_chunk_file name = true) {seq : Nat}
    (bytes : Bytes) (hfresh : chunk_name seq ∉ d) :
    spool_bytes (stored d seq bytes) = bytes.length + spool_bytes d := by
  have htmp : tmp_name seq ∉ d := fun hmem => tmp_name_ne_chunk (honly _ hmem) rfl
  rw [spool_bytes, stored, Dir.erase_of_notMem htmp, Dir.total_insert_fresh _ bytes hfresh, spool_bytes]

namespace Buffer

variable {c : Ciborium} {piece : List LogEntry} {s t : Storage}

/-- Whatever the environment does, what was there and the new chunk bound what is there. -/
theorem write_chunk_total_le (hok : write_chunk c piece s = .ok () t) {bytes : Bytes}
    (hbytes : c.into_writer piece = some bytes) :
    total_bytes (spool t.fs.files) ≤ spool_bytes s.fs.files + bytes.length := by
  obtain ⟨-, seq, bytes', hserialized, u, hpruned, hfiles, -⟩ := write_chunk_ok hok
  rw [hbytes] at hserialized
  cases hserialized
  obtain ⟨gone, hremoves, -⟩ := hpruned.files
  have hgone := hremoves.total fun _ bytes => List.length bytes
  have hstored := spool_bytes_stored_le u.files seq bytes
  have hspool := total_bytes_spool_le t.fs.files
  rw [hfiles] at hspool ⊢
  unfold spool_bytes at hstored hspool ⊢
  omega

/-- Undisturbed, in a directory of chunks, a chunk write leaves what the limit keeps, and the new
chunk, which takes the place of another one only when the numbers have run out. -/
theorem write_chunk_total (hquiet : s.fs.verdicts = [])
    (honly : ∀ name ∈ s.fs.files, is_chunk_file name = true)
    (hok : write_chunk c piece s = .ok () t) {bytes : Bytes}
    (hbytes : c.into_writer piece = some bytes) :
    total_bytes (spool t.fs.files) ≤
        total_bytes (kept s.buf.max_bytes 0 (spool s.fs.files)) + bytes.length ∧
      (next_seq s.fs.files < 2 ^ 64 → total_bytes (spool t.fs.files) =
        total_bytes (kept s.buf.max_bytes 0 (spool s.fs.files)) + bytes.length) := by
  obtain ⟨gone, d, hevicts, hlimit, hwrite⟩ := write_chunk_limited (c := c) piece hquiet
  rw [hbytes, hok] at hwrite
  cases hwrite
  have hkept := @enforce_limit_kept s.buf.max_bytes { s.fs with dir := some s.fs.files } _ hquiet hlimit
  change spool d = kept s.buf.max_bytes (other_bytes s.fs.files) (spool s.fs.files) at hkept
  rw [other_bytes_eq_zero honly] at hkept
  have honly' : ∀ name ∈ d, is_chunk_file name = true :=
    fun name hname => honly name (hevicts.removes.mem hname)
  have htotal := spool_bytes_eq d
  rw [other_bytes_eq_zero honly', hkept] at htotal
  change total_bytes (spool (stored d (next_seq d % 2 ^ 64) bytes)) ≤ _ ∧
    (_ → total_bytes (spool (stored d (next_seq d % 2 ^ 64) bytes)) = _)
  constructor
  · have hspool := total_bytes_spool_le (stored d (next_seq d % 2 ^ 64) bytes)
    have hstored := spool_bytes_stored_le d (next_seq d % 2 ^ 64) bytes
    omega
  · intro hseq
    have hle : next_seq d ≤ next_seq s.fs.files := by
      apply Nat.succ_le_succ
      rw [max_seq_le_iff]
      intro name hname seq hseq
      exact le_max_seq (AList.mem_keys.mp (hevicts.removes.mem (AList.mem_keys.mpr hname))) hseq
    have hfresh := chunk_name_next_seq_fresh (d := d) (by omega)
    rw [Nat.mod_eq_of_lt (by omega)]
    have hsum := spool_bytes_eq (stored d (next_seq d) bytes)
    rw [other_bytes_eq_zero (is_chunk_file_of_mem_stored honly'),
      spool_bytes_stored honly' bytes hfresh] at hsum
    omega

theorem new_cfg (cfg : ValidBufferConfig) (fs : Fs) : (new cfg fs).buf.cfg = cfg := by
  unfold new
  split <;> rfl

theorem on_disk_cfg {α : Type} (context : Option String) (x : FsM α) :
    Respects (fun s t : Storage => t.buf.cfg = s.buf.cfg) (on_disk context x) :=
  Respects.zoom (S := fun _ _ => True) (fun _ => trivial) fun _ _ _ => rfl

theorem next_disk_chunk_cfg (s : Storage) : (finalState (next_disk_chunk s)).buf.cfg = s.buf.cfg := by
  have htrans : ∀ s t u : Storage, t.buf.cfg = s.buf.cfg → u.buf.cfg = t.buf.cfg →
      u.buf.cfg = s.buf.cfg := fun _ _ _ hfirst hsecond => hsecond.trans hfirst
  unfold next_disk_chunk
  rw [bind_of_ok (get_run s)]
  split
  · refine Respects.bind htrans (on_disk_cfg none spool_files_newest_first) ?_ s
    intro files t
    cases files.head? <;> rfl
  · rfl

theorem delete_chunk_cfg (path : FileName) (s : Storage) :
    (finalState (delete_chunk path s)).buf.cfg = s.buf.cfg := by
  unfold delete_chunk
  rw [bind_of_ok (get_run s)]
  exact on_disk_cfg _ (remove_file path) s

end Buffer

theorem operations_cfg {c : Ciborium} {allowed : Drained → Operation → Prop} {s t : Drained}
    {events : List Operation} (hrun : (operations c).Run allowed s events t) :
    t.storage.buf.cfg = s.storage.buf.cfg := by
  apply hrun.invariant (P := fun t => t.storage.buf.cfg = s.storage.buf.cfg) rfl
  intro t operation u hcfg _ hstep
  rw [← hcfg]
  cases operation with
  | push entry =>
    cases hstep
    exact (Buffer.push_buf c entry t.storage).2
  | flush_memory_to_disk =>
    cases hstep
    exact (Buffer.flush_memory_to_disk_buf c t.storage).2
  | drain_memory =>
    cases hstep
    rfl
  | next_disk_chunk =>
    cases hstep
    exact Buffer.next_disk_chunk_cfg t.storage
  | delete_chunk path =>
    cases hstep
    exact Buffer.delete_chunk_cfg path t.storage

/-- Whichever of the newest files are together within the limit leave room in it for `size` more
bytes. -/
def LeavesRoom (limit size : Nat) (files : List (FileName × Bytes)) : Prop :=
  ∀ newest, newest <:+ files → total_bytes newest ≤ limit → total_bytes newest + size ≤ limit

theorem leavesRoom_iff {limit size : Nat} {files : List (FileName × Bytes)} :
    LeavesRoom limit size files ↔ total_bytes (kept limit 0 files) + size ≤ limit := by
  constructor
  · have hfits : total_bytes (kept limit 0 files) ≤ limit := by
      obtain hnil | hfits := kept_fits limit 0 files
      · rw [hnil]
        exact Nat.zero_le _
      · rwa [Nat.zero_add] at hfits
    exact fun hroom => hroom _ (kept_suffix _ _ _) hfits
  · intro hkept newest hsuffix hfits
    have hle := total_bytes_suffix (@suffix_kept limit 0 _ _ hsuffix (by omega))
    omega

theorem Writes.max_bytes {c : Ciborium} {cfg : ValidBufferConfig} {fs : Fs} {events : List Operation}
    {s : Drained} {operation : Operation} {piece : List LogEntry} {u t : Storage}
    (hrun : (operations c).Run (fun _ _ => True) ⟨Buffer.new cfg fs, []⟩ events s)
    (hwrites : Writes c s.storage operation piece u t) (hlimit : disk_limit cfg < 2 ^ 64) :
    u.buf.max_bytes = disk_limit cfg := by
  obtain ⟨before, after, -, hbefore⟩ := hwrites.before
  have hpieces := (Buffer.write_chunks_buf c before s.storage.drained).2
  rw [hbefore, finalState_ok] at hpieces
  have hcfg : u.buf.cfg = cfg :=
    hpieces.trans ((operations_cfg hrun).trans (Buffer.new_cfg cfg fs))
  rw [Buffer.max_bytes, hcfg]
  exact Nat.mod_eq_of_lt hlimit

/-- A memory and chunks of one entry, and the smallest limit. -/
def one_mib : ValidBufferConfig where
  memory_max_entries := 1
  disk_chunk_max_entries := 1
  disk_max_size_mb := 1
  memory_pos := Nat.one_pos
  chunk_pos := Nat.one_pos
  size_pos := Nat.one_pos

section TwoEntries

variable {c : Ciborium} {e : LogEntry} {bytes : Bytes}

/-- One entry in memory, and its serialization on disk. -/
def half_full (e : LogEntry) (bytes : Bytes) : Storage where
  buf := ⟨one_mib, [e], true⟩
  fs := ⟨some (stored ∅ 1 bytes), [], [(chunk_name 1, bytes)], []⟩

theorem half_full_only : ∀ name ∈ (half_full e bytes).fs.files, is_chunk_file name = true :=
  is_chunk_file_of_mem_stored fun name hname => absurd hname (AList.notMem_empty name)

theorem spool_bytes_half_full : spool_bytes (half_full e bytes).fs.files = bytes.length := by
  change spool_bytes (stored ∅ 1 bytes) = _
  rw [spool_bytes_stored (fun name hname => absurd hname (AList.notMem_empty name)) bytes
    (AList.notMem_empty _)]
  rfl

theorem next_seq_half_full : next_seq (half_full e bytes).fs.files = 2 :=
  next_seq_stored bytes (by decide) (by decide)

theorem chunks_one_mib (e : LogEntry) : chunks one_mib.disk_chunk_max_entries [e] = [[e]] := by
  change chunks 1 [e] = [[e]]
  rw [chunks_eq_cons one_pos (List.cons_ne_nil e []), List.drop_one, List.tail_cons, chunks_nil]
  rfl

theorem run_half_full (hbytes : c.into_writer [e] = some bytes) :
    (operations c).Run (fun _ _ => True) ⟨Buffer.new one_mib ⟨none, [], [], []⟩, []⟩
      [.push e, .push e] ⟨half_full e bytes, []⟩ := by
  have hfirst : Buffer.push c e (Buffer.new one_mib ⟨none, [], [], []⟩) =
      .ok () ⟨⟨one_mib, [e], false⟩, ⟨none, [], [], []⟩⟩ := Buffer.push_of_room e (by decide)
  have hwrite : Buffer.write_chunk c [e] ⟨⟨one_mib, [], false⟩, ⟨none, [], [], []⟩⟩ =
      .ok () (half_full e bytes).drained :=
    Buffer.write_chunk_room rfl hbytes (by decide) (by decide)
  have hflush : Buffer.flush_memory_to_disk c ⟨⟨one_mib, [e], false⟩, ⟨none, [], [], []⟩⟩ =
      .ok () (half_full e bytes).drained := by
    rw [Buffer.flush_memory_to_disk_of_nonempty (List.cons_ne_nil e [])]
    change Buffer.write_chunks c (chunks one_mib.disk_chunk_max_entries [e]) _ = _
    rw [chunks_one_mib]
    exact bind_of_ok hwrite
  have hsecond : Buffer.push c e ⟨⟨one_mib, [e], false⟩, ⟨none, [], [], []⟩⟩ =
      .ok () (half_full e bytes) := by
    rw [Buffer.push_of_full le_rfl, bind_of_ok hflush]
    rfl
  have hrun : (operations c).Run (fun _ _ => True) ⟨Buffer.new one_mib ⟨none, [], [], []⟩, []⟩
      [.push e] ⟨⟨⟨one_mib, [e], false⟩, ⟨none, [], [], []⟩⟩, []⟩ := by
    refine .single trivial ?_
    simp only [operations, hfirst, finalState_ok]
  refine .snoc hrun trivial ?_
  simp only [operations, hsecond, finalState_ok]

/-- The first chunk alone is within the limit, so nothing is dropped for the second one. -/
theorem writes_half_full (hbytes : c.into_writer [e] = some bytes)
    (hsize : bytes.length ≤ disk_limit one_mib) :
    ∃ t, Writes c (half_full e bytes) (.push e) [e] (half_full e bytes).drained t ∧
      t.fs.files = stored (stored ∅ 1 bytes) 2 bytes := by
  have hused : spool_bytes (half_full e bytes).drained.fs.files ≤
      (half_full e bytes).drained.buf.max_bytes := by
    have hmax : (half_full e bytes).drained.buf.max_bytes = disk_limit one_mib :=
      Nat.mod_eq_of_lt (show disk_limit one_mib < 2 ^ 64 by decide)
    have hfull : spool_bytes (half_full e bytes).drained.fs.files = bytes.length :=
      spool_bytes_half_full (e := e)
    omega
  have hnext : next_seq (half_full e bytes).drained.fs.files = 2 := next_seq_half_full (e := e)
  have hwrite := Buffer.write_chunk_room rfl hbytes hused (by omega)
  refine ⟨_, ⟨le_rfl, ⟨[], [], chunks_one_mib e, rfl⟩, hwrite⟩, ?_⟩
  rw [hnext]
  rfl

end TwoEntries

theorem length_encode_entry (text : String) :
    (encode (.Array [(entry text).to_value])).length =
      (head 3 (utf8 text).length).length + (utf8 text).length + 62 := by
  have hbefore : (head 4 1 ++ (head 5 6 ++ encode (.Text "body"))).length = 7 := by decide
  have hafter : (encodePairs [(.Text "severity", .Null), (.Text "timestamp_ms", .Null),
      (.Text "uptime_ms", .Null), (.Text "source", .Text "test"),
      (.Text "labels", .Map [])]).length = 55 := by
    decide
  have hsplit : encode (.Array [(entry text).to_value]) = head 4 1 ++ (head 5 6 ++
      (encode (.Text "body") ++ (encode (.Text text) ++ encodePairs [(.Text "severity", .Null),
        (.Text "timestamp_ms", .Null), (.Text "uptime_ms", .Null), (.Text "source", .Text "test"),
        (.Text "labels", .Map [])])) ++ []) := rfl
  rw [hsplit]
  simp only [encode, List.length_append, List.length_nil] at hbefore hafter ⊢
  omega

theorem wire_into_writer_entry {text : String} (hsize : (utf8 text).length < 2 ^ 64) :
    Ciborium.wire.into_writer [entry text] = some (encode (.Array [(entry text).to_value])) := by
  have hbody : fits (.Text "body") = true := by decide
  have hafter : fitsPairs [(.Text "severity", .Null), (.Text "timestamp_ms", .Null),
      (.Text "uptime_ms", .Null), (.Text "source", .Text "test"), (.Text "labels", .Map [])] = true := by
    decide
  have hfits : fits (.Array [(entry text).to_value]) = true := by
    change (true && ((true && (fits (.Text "body") && (fits (.Text text) && fitsPairs _))) && true)) = true
    rw [hbody, show fits (.Text text) = true from decide_eq_true hsize]
    exact hafter
  simp only [Ciborium.wire, List.map_cons, List.map_nil, hfits, if_true]

/-- The limit is enforced before a chunk is written and not after it. In any run, a write into a
directory of chunks ends within the limit if and only if whichever of the newest chunks were within
the limit left room for the new one. Whatever the environment does, it ends within the limit if all
that was there left room. -/
theorem spool_limit_is_honoured_iff {c : Ciborium} {cfg : ValidBufferConfig} {fs : Fs}
    {events : List Operation} {s : Drained} {operation : Operation} {piece : List LogEntry}
    {u t : Storage} {bytes : Bytes}
    (hrun : (operations c).Run (fun _ _ => True) ⟨Buffer.new cfg fs, []⟩ events s)
    (hlimit : disk_limit cfg < 2 ^ 64) (hwrites : Writes c s.storage operation piece u t)
    (honly : ∀ name ∈ u.fs.files, is_chunk_file name = true)
    (hbytes : c.into_writer piece = some bytes) :
    (u.fs.verdicts = [] → LeavesRoom (disk_limit cfg) bytes.length (spool u.fs.files) →
      total_bytes (spool t.fs.files) ≤ disk_limit cfg) ∧
    (u.fs.verdicts = [] → next_seq u.fs.files < 2 ^ 64 →
      total_bytes (spool t.fs.files) ≤ disk_limit cfg →
      LeavesRoom (disk_limit cfg) bytes.length (spool u.fs.files)) ∧
    (total_bytes (spool u.fs.files) + bytes.length ≤ disk_limit cfg →
      total_bytes (spool t.fs.files) ≤ disk_limit cfg) := by
  have hmax := hwrites.max_bytes hrun hlimit
  refine ⟨fun hquiet hroom => ?_, fun hquiet hseq hwithin => ?_, fun hroom => ?_⟩
  · have hle := (Buffer.write_chunk_total hquiet honly hwrites.writes hbytes).1
    rw [hmax] at hle
    exact hle.trans (leavesRoom_iff.mp hroom)
  · have heq := (Buffer.write_chunk_total hquiet honly hwrites.writes hbytes).2 hseq
    rw [hmax] at heq
    exact leavesRoom_iff.mpr (heq ▸ hwithin)
  · have hle := Buffer.write_chunk_total_le hwrites.writes hbytes
    rw [spool_bytes_eq, other_bytes_eq_zero honly, zero_add] at hle
    exact hle.trans hroom

/-- Two small chunks under the smallest limit. -/
theorem spool_limit_is_honoured_iff_small :
    ∃ s t : Storage, Writes .wire s (.push (entry "a")) [entry "a"] s.drained t ∧
      total_bytes (spool t.fs.files) ≤ disk_limit one_mib := by
  have hbytes := @wire_into_writer_entry "a" (by decide)
  have hlength := length_encode_entry "a"
  have hhead := length_head_le 3 (utf8 "a").length
  generalize encode (.Array [(entry "a").to_value]) = bytes at hlength hbytes
  rw [show (utf8 "a").length = 1 by decide] at hlength hhead
  have hlimit : disk_limit one_mib = 1048576 := by decide
  obtain ⟨t, hwrites, hfiles⟩ := writes_half_full hbytes (by omega)
  have hspool := total_bytes_spool_le (half_full (entry "a") bytes).fs.files
  rw [spool_bytes_half_full] at hspool
  have hroom : LeavesRoom (disk_limit one_mib) bytes.length
      (spool (half_full (entry "a") bytes).fs.files) := by
    intro newest hsuffix _
    have hnewest := total_bytes_suffix hsuffix
    omega
  exact ⟨_, t, hwrites, (spool_limit_is_honoured_iff (run_half_full hbytes) (by decide) hwrites
    (half_full_only (e := entry "a")) hbytes).1 rfl hroom⟩

/-- A message of 600 000 bytes, of which a limit of one megabyte admits one. -/
def long_text : String := String.ofList (List.replicate 600000 'a')

theorem length_utf8_replicate (n : Nat) : (utf8 (String.ofList (List.replicate n 'a'))).length = n := by
  simp [utf8, List.utf8Encode, show 'a'.utf8Size = 1 by rfl]

theorem length_long_text : (utf8 long_text).length = 600000 := length_utf8_replicate _

/-- Two chunks, each within the limit, together exceed it after a successful write. -/
theorem spool_exceeds_its_limit :
    ∃ (s : Drained) (t : Storage),
      (operations .wire).Run (fun _ _ => True) ⟨Buffer.new one_mib ⟨none, [], [], []⟩, []⟩
        [.push (entry long_text), .push (entry long_text)] s ∧
      Writes .wire s.storage (.push (entry long_text)) [entry long_text] s.storage.drained t ∧
      disk_limit one_mib < 2 ^ 64 ∧ (∀ name ∈ s.storage.fs.files, is_chunk_file name = true) ∧
      (∀ file ∈ spool t.fs.files, file.2.length ≤ disk_limit one_mib) ∧
      disk_limit one_mib < total_bytes (spool t.fs.files) := by
  have hlength := length_encode_entry long_text
  have hhead := length_head_le 3 (utf8 long_text).length
  have hbytes := @wire_into_writer_entry long_text (by rw [length_long_text]; decide)
  generalize encode (.Array [(entry long_text).to_value]) = bytes at hlength hbytes
  rw [length_long_text] at hlength hhead
  have hlimit : disk_limit one_mib = 1048576 := by decide
  obtain ⟨t, hwrites, hfiles⟩ := writes_half_full hbytes (by omega)
  have honly : ∀ name ∈ stored ∅ 1 bytes, is_chunk_file name = true :=
    half_full_only (e := entry long_text)
  have hfresh := chunk_name_next_seq_fresh (d := stored ∅ 1 bytes)
    (by rw [next_seq_stored bytes (by decide) (by decide)]; decide)
  rw [next_seq_stored bytes (by decide) (by decide)] at hfresh
  have htotal := spool_bytes_eq t.fs.files
  rw [hfiles, other_bytes_eq_zero (is_chunk_file_of_mem_stored honly),
    spool_bytes_stored honly bytes hfresh] at htotal
  have hfirst := @spool_bytes_half_full (entry long_text) bytes
  change spool_bytes (stored ∅ 1 bytes) = _ at hfirst
  refine ⟨_, t, run_half_full hbytes, hwrites, by decide, half_full_only, ?_, ?_⟩
  · rintro ⟨name, content⟩ hfile
    obtain ⟨hchunk, hlookup⟩ := mem_spool.mp hfile
    rw [hfiles] at hlookup
    have hcontent : content = bytes := by
      obtain hnew | hlookup := lookup_stored_cases hchunk hlookup
      · exact hnew
      · obtain hnew | hnone := lookup_stored_cases hchunk hlookup
        · exact hnew
        · cases hnone
    rw [hcontent, hlimit]
    change bytes.length ≤ 1048576
    omega
  · rw [hfiles]
    omega

end spotflowd.buffer
