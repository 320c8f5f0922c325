import Spotflowd.Buffer.Spool
import Spotflowd.Ciborium
import Spotflowd.Config
import Spotflowd.Lib.Chunks

open effect fs path chunked
open spotflowd.config spotflowd.log_entry

namespace spotflowd.buffer

/-- The two-tier buffer. `may_have_chunks` saves idle ticks a directory scan. -/
structure Buffer where
  cfg : ValidBufferConfig
  memory : List LogEntry
  may_have_chunks : Bool
deriving DecidableEq

/-- The buffer together with the file system that holds its spool. -/
structure Storage where
  buf : Buffer
  fs : Fs

inductive Cause where
  | io (e : IoError)
  | cbor
deriving DecidableEq

/-- A failure and the context the buffer attaches to it, if it does. -/
structure Error where
  context : Option String
  cause : Cause
deriving DecidableEq

abbrev BufferM := EStateM Error Storage

/-- A file-system call with the context its failure is reported in. -/
def on_disk {α : Type} (context : Option String) (x : FsM α) : BufferM α :=
  zoom Storage.fs (fun fs s => { s with fs := fs }) (fun e => ⟨context, .io e⟩) x

namespace Buffer

def display (self : Buffer) (name : FileName) : String := self.cfg.disk_path ++ "/" ++ name

/-- The disk limit in bytes, as the `u64` product computes it. -/
def max_bytes (self : Buffer) : Nat := self.cfg.disk_max_size_mb * 1024 * 1024 % 2 ^ 64

def update (f : Buffer → Buffer) : BufferM Unit := modify fun s => { s with buf := f s.buf }

/-- Start on whatever an earlier run has left in the spool. -/
def new (cfg : ValidBufferConfig) (fs : Fs) : Storage :=
  match spool_files_newest_first fs with
  | .ok files fs => ⟨⟨cfg, [], !files.isEmpty⟩, fs⟩
  | .error _ fs => ⟨⟨cfg, [], false⟩, fs⟩

/-- Write a slice of entries as one chunk file: bring the spool under its limit, pick
the next number, write a temporary file and rename it. -/
def write_chunk (c : Ciborium) (entries : List LogEntry) : BufferM Unit := do
  let self := (← get).buf
  on_disk (some ("create spool dir " ++ self.cfg.disk_path)) create_dir_all
  on_disk none (enforce_limit self.max_bytes)
  let path ← on_disk none next_chunk_path
  match c.into_writer entries with
  | none => throw ⟨some "CBOR serialization of chunk failed", .cbor⟩
  | some buf =>
    let tmp := with_extension path "cbor.tmp"
    on_disk (some ("write chunk tmp " ++ self.display tmp)) (write tmp buf)
    on_disk (some ("rename chunk " ++ self.display tmp ++ " → " ++ self.display path))
      (rename tmp path)
    update fun self => { self with may_have_chunks := true }

/-- The loop of `flush_memory_to_disk`. -/
def write_chunks (c : Ciborium) (pieces : List (List LogEntry)) : BufferM Unit :=
  forM pieces (write_chunk c)

def memory_len (self : Buffer) : Nat := self.memory.length

/-- All entries in memory, and the buffer without them. -/
def drain_memory (self : Buffer) : List LogEntry × Buffer := (self.memory, { self with memory := [] })

/-- The memory is drained first and then written, chunk by chunk. -/
def flush_memory_to_disk (c : Ciborium) : BufferM Unit := do
  let self := (← get).buf
  if self.memory.isEmpty then
    return ()
  else
    let (entries, drained) := self.drain_memory
    update fun _ => drained
    write_chunks c (chunks self.cfg.disk_chunk_max_entries entries)

def push (c : Ciborium) (entry : LogEntry) : BufferM Unit := do
  let self := (← get).buf
  if self.cfg.memory_max_entries ≤ self.memory.length then
    flush_memory_to_disk c
  update fun self => { self with memory := self.memory ++ [entry] }

/-- The newest chunk on disk. No directory scan when no chunk is expected. -/
def next_disk_chunk : BufferM (Option FileName) := do
  let self := (← get).buf
  if self.may_have_chunks then
    let files ← on_disk none spool_files_newest_first
    match files.head? with
    | some next => return some next
    | none =>
      update fun self => { self with may_have_chunks := false }
      return none
  else
    return none

def read_chunk (c : Ciborium) (path : FileName) : BufferM (List LogEntry) := do
  let self := (← get).buf
  let data ← on_disk (some ("read chunk " ++ self.display path)) (read path)
  match c.from_reader data with
  | some entries => return entries
  | none => throw ⟨some ("CBOR decode of chunk " ++ self.display path), .cbor⟩

def delete_chunk (path : FileName) : BufferM Unit := do
  let self := (← get).buf
  on_disk (some ("delete chunk " ++ self.display path)) (remove_file path)

end Buffer

end spotflowd.buffer
