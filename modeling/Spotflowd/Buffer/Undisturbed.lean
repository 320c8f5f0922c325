import Spotflowd.Buffer.WriteChunk

open effect fs path chunked
open spotflowd.config spotflowd.log_entry

namespace spotflowd.buffer

/-- The number of the next chunk, short of an overflow. -/
def next_seq (d : Dir) : Nat := max_seq d.keys + 1

theorem next_seq_stored {d : Dir} {seq : Nat} (bytes : Bytes) (hseq : next_seq d ≤ seq)
    (hbound : seq < 2 ^ 64) : next_seq (stored d seq bytes) = seq + 1 := by
  have hmem : chunk_name seq ∈ (stored d seq bytes).keys :=
    AList.mem_keys.mp (AList.lookup_isSome.mp (by rw [lookup_stored_self]; rfl))
  have hge := le_max_seq hmem (sequence_number_chunk_name hbound)
  have hle : max_seq (stored d seq bytes).keys ≤ seq := by
    rw [max_seq_le_iff]
    intro name hname n hn
    rw [stored, AList.keys_insert, List.mem_cons] at hname
    rcases hname with rfl | hname
    · rw [sequence_number_chunk_name hbound, Option.some.injEq] at hn
      exact hn.ge
    · have hin : name ∈ d.keys := by
        have := List.mem_of_mem_erase hname
        rw [AList.keys_erase] at this
        exact List.mem_of_mem_erase this
      have := le_max_seq hin hn
      unfold next_seq at hseq
      omega
  unfold next_seq
  omega

theorem chunk_name_next_seq_fresh {d : Dir} (hbound : next_seq d < 2 ^ 64) :
    chunk_name (next_seq d) ∉ d :=
  fun hmem => chunk_name_fresh hbound (AList.mem_keys.mp hmem)

theorem next_chunk_path_quiet {s : Fs} {d : Dir} (hquiet : s.verdicts = []) (hdir : s.dir = some d) :
    next_chunk_path s = .ok (chunk_name (next_seq d % 2 ^ 64)) s := by
  unfold next_chunk_path
  rw [bind_of_ok (path_exists_quiet hquiet), hdir]
  simp only [Option.isSome_some, if_true]
  rw [bind_of_ok (read_dir_quiet hquiet hdir)]
  simp [next_seq, AList.keys, List.keys, Function.comp_def]

/-- The state after a chunk has been written, `gone` having been evicted. -/
def Storage.store (s : Storage) (d : Dir) (gone : List (FileName × Bytes)) (seq : Nat)
    (bytes : Bytes) : Storage where
  buf := { s.buf with may_have_chunks := true }
  fs := { s.fs with
    dir := some (stored d seq bytes)
    renamed := s.fs.renamed ++ [(chunk_name seq, bytes)]
    removed := s.fs.removed ++ gone }

namespace Buffer

/-- Undisturbed, a chunk write brings the spool under its limit, and then finds out whether the
entries serialize. -/
theorem write_chunk_limited {c : Ciborium} (entries : List LogEntry) {s : Storage}
    (hquiet : s.fs.verdicts = []) :
    ∃ gone d, Evicts s.buf.max_bytes s.fs.files gone d ∧
      enforce_limit s.buf.max_bytes { s.fs with dir := some s.fs.files } =
        .ok () { s.fs with dir := some d, removed := s.fs.removed ++ gone } ∧
      write_chunk c entries s = match c.into_writer entries with
        | some bytes => .ok () (s.store d gone (next_seq d % 2 ^ 64) bytes)
        | none => .error ⟨some "CBOR serialization of chunk failed", .cbor⟩
            { s with fs := { s.fs with dir := some d, removed := s.fs.removed ++ gone } } := by
  obtain ⟨gone, d, hlimit, hevicts⟩ := enforce_limit_quiet s.buf.max_bytes
    (s := { s.fs with dir := some s.fs.files }) (d := s.fs.files) hquiet rfl
  refine ⟨gone, d, hevicts, hlimit, ?_⟩
  unfold write_chunk
  rw [bind_of_ok (get_run s), bind_of_ok (on_disk_of_ok (create_dir_all_quiet hquiet)),
    bind_of_ok (on_disk_of_ok hlimit),
    bind_of_ok (on_disk_of_ok (next_chunk_path_quiet (d := d) (by exact hquiet) rfl))]
  cases c.into_writer entries with
  | none => rfl
  | some bytes =>
    simp only
    rw [bind_of_ok (on_disk_of_ok (write_quiet (d := d) (by exact hquiet) rfl _ bytes)),
      bind_of_ok (on_disk_of_ok (rename_quiet (by exact hquiet)
        (show _ = some bytes by simp [Fs.files]) _))]
    simp only [update, modify_run, Storage.store, stored, Fs.files, Option.getD_some]
    rw [Dir.erase_insert]
    rfl

/-- Undisturbed, a chunk write evicts what has to go, and then finds out whether the entries
serialize. -/
theorem write_chunk_undisturbed {c : Ciborium} (entries : List LogEntry) {s : Storage}
    (hquiet : s.fs.verdicts = []) :
    ∃ gone d, Evicts s.buf.max_bytes s.fs.files gone d ∧
      write_chunk c entries s = match c.into_writer entries with
        | some bytes => .ok () (s.store d gone (next_seq d % 2 ^ 64) bytes)
        | none => .error ⟨some "CBOR serialization of chunk failed", .cbor⟩
            { s with fs := { s.fs with dir := some d, removed := s.fs.removed ++ gone } } := by
  obtain ⟨gone, d, hevicts, -, hwrite⟩ := write_chunk_limited (c := c) entries hquiet
  exact ⟨gone, d, hevicts, hwrite⟩

/-- Undisturbed, a chunk write evicts what has to go and stores the chunk. -/
theorem write_chunk_quiet {c : Ciborium} {entries : List LogEntry} {s : Storage} {bytes : Bytes}
    (hquiet : s.fs.verdicts = []) (hbytes : c.into_writer entries = some bytes) :
    ∃ gone d, Evicts s.buf.max_bytes s.fs.files gone d ∧
      write_chunk c entries s = .ok () (s.store d gone (next_seq d % 2 ^ 64) bytes) := by
  obtain ⟨gone, d, hevicts, hwrite⟩ := write_chunk_undisturbed (c := c) entries hquiet
  rw [hbytes] at hwrite
  exact ⟨gone, d, hevicts, hwrite⟩

/-- Entries that do not serialize are found out after the eviction. -/
theorem write_chunk_quiet_none {c : Ciborium} {entries : List LogEntry} {s : Storage}
    (hquiet : s.fs.verdicts = []) (hbytes : c.into_writer entries = none) :
    ∃ gone d, Evicts s.buf.max_bytes s.fs.files gone d ∧
      write_chunk c entries s = .error ⟨some "CBOR serialization of chunk failed", .cbor⟩
        { s with fs := { s.fs with dir := some d, removed := s.fs.removed ++ gone } } := by
  obtain ⟨gone, d, hevicts, hwrite⟩ := write_chunk_undisturbed (c := c) entries hquiet
  rw [hbytes] at hwrite
  exact ⟨gone, d, hevicts, hwrite⟩

end Buffer

end spotflowd.buffer
