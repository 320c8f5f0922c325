import Spotflowd.Buffer
import Spotflowd.Lib.Machine
import Spotflowd.Mqtt

open effect fs chunked
open spotflowd.buffer spotflowd.log_entry spotflowd.mqtt

namespace spotflowd.orchestrator

abbrev PUBLISH_BATCH_SIZE : Nat := 200

/-- Where `publish_tick` stands. A batch is split into the entries already handed to
the client and those still to come; `later` are the batches after it. -/
inductive Tick where
  /-- between two ticks -/
  | idle
  | sleeping (holds_lock : Bool)
  | lock_memory
  | memory_batch (sent unsent : List LogEntry) (later : List (List LogEntry))
  /-- waiting for the lock to push a failed batch back -/
  | lock_requeue (batch : List LogEntry)
  | lock_disk
  | read_chunk (path : FileName)
  | disk_batch (path : FileName) (entries : List LogEntry) (published : Nat)
      (sent unsent : List LogEntry) (later : List (List LogEntry))
  /-- waiting for the lock to push the tail of a chunk back -/
  | lock_tail (path : FileName) (entries : List LogEntry) (published : Nat)
  /-- about to delete a chunk; `read` is what `read_chunk` returned for it -/
  | delete_chunk (path : FileName) (read : Option (List LogEntry)) (holds_lock : Bool)
deriving DecidableEq

def Tick.holds_lock : Tick → Bool
  | .sleeping held => held
  | .delete_chunk _ _ held => held
  | _ => false

/-- Where the tick can be suspended: at a lock, at a publish and while it sleeps. There
`select!` may drop it. Before it starts, it can be dropped as well. -/
def Tick.suspended : Tick → Bool
  | .memory_batch _ unsent _ => !unsent.isEmpty
  | .disk_batch _ _ _ _ unsent _ => !unsent.isEmpty
  | .read_chunk _ => false
  | .delete_chunk _ _ _ => false
  | _ => true

inductive Phase where
  | running
  /-- shutdown has been signalled, the final flush is still to come -/
  | stopping
  | stopped
deriving DecidableEq

/-- The daemon's log path. `pushed` is a history variable: the entries of the ingestion
task for which `Buffer::push` returned `Ok`. -/
structure System where
  storage : Storage
  publisher : MqttPublisher
  tick : Tick
  phase : Phase
  pushed : List LogEntry

/-- `let _ = buf.push(entry)` for one entry after another. -/
def push_all (c : Ciborium) (entries : List LogEntry) (s : Storage) : Storage :=
  entries.foldl (fun s entry => finalState (Buffer.push c entry s)) s

def next_memory_batch : List (List LogEntry) → Tick
  | [] => .idle
  | batch :: later => .memory_batch [] batch later

/-- The end of the disk path, `published` entries having been counted. -/
def disk_done (path : FileName) (entries : List LogEntry) (published : Nat) : Tick :=
  if published = entries.length then .delete_chunk path (some entries) false
  else if 0 < published then .lock_tail path entries published
  else .idle

def next_disk_batch (path : FileName) (entries : List LogEntry) (published : Nat) :
    List (List LogEntry) → Tick
  | [] => disk_done path entries published
  | batch :: later => .disk_batch path entries published [] batch later

/-- One step of `publish_tick`: everything up to the next point where another task can
get in between. -/
def publish_tick (c : Ciborium) (s : System) : System :=
  match s.tick with
  | .idle => { s with tick := if s.publisher.is_connected then .lock_memory else .sleeping false }
  | .sleeping _ => { s with tick := .idle }
  | .lock_memory =>
    if 0 < s.storage.buf.memory_len then
      let (entries, buf) := s.storage.buf.drain_memory
      { s with
        storage := { s.storage with buf := buf }
        tick := next_memory_batch (chunks PUBLISH_BATCH_SIZE entries) }
    else { s with tick := .lock_disk }
  | .memory_batch _ [] later => { s with tick := next_memory_batch later }
  | .memory_batch sent (entry :: unsent) later =>
    match MqttPublisher.publish_entry c entry s.publisher with
    | .ok _ publisher => { s with
        publisher := publisher
        tick := .memory_batch (sent ++ [entry]) unsent later }
    | .error _ publisher => { s with
        publisher := publisher
        tick := .lock_requeue (sent ++ entry :: unsent) }
  | .lock_requeue batch => { s with
      storage := push_all c batch s.storage
      tick := .sleeping true }
  | .lock_disk =>
    match Buffer.next_disk_chunk s.storage with
    | .ok (some path) storage => { s with storage := storage, tick := .read_chunk path }
    | .ok none storage => { s with storage := storage, tick := .sleeping false }
    | .error _ storage => { s with storage := storage, tick := .sleeping false }
  | .read_chunk path =>
    match Buffer.read_chunk c path s.storage with
    | .ok entries storage => { s with
        storage := storage
        tick := next_disk_batch path entries 0 (chunks PUBLISH_BATCH_SIZE entries) }
    | .error _ storage => { s with storage := storage, tick := .delete_chunk path none false }
  | .disk_batch path entries published sent [] later => { s with
      tick := next_disk_batch path entries (published + sent.length) later }
  | .disk_batch path entries published sent (entry :: unsent) later =>
    match MqttPublisher.publish_entry c entry s.publisher with
    | .ok _ publisher => { s with
        publisher := publisher
        tick := .disk_batch path entries published (sent ++ [entry]) unsent later }
    | .error _ publisher => { s with
        publisher := publisher
        tick := disk_done path entries published }
  | .lock_tail path entries published => { s with
      storage := push_all c (entries.drop published).reverse s.storage
      tick := .delete_chunk path (some entries) true }
  | .delete_chunk path _ _ => { s with
      storage := finalState (Buffer.delete_chunk path s.storage)
      tick := .idle }

/-- What can happen next: the ingestion task pushes an entry, the connection comes or
goes, the tick takes a step, shutdown is signalled, or the final flush runs. -/
inductive Event where
  | push (entry : LogEntry)
  | link (connected : Bool)
  | tick
  | shutdown
  | flush
deriving DecidableEq

/-- The ingestion task takes one entry; it waits while the tick holds the lock. -/
def ingest (c : Ciborium) (entry : LogEntry) (s : System) : Option System :=
  if s.tick.holds_lock then none
  else match Buffer.push c entry s.storage with
    | .ok _ storage => some { s with storage := storage, pushed := s.pushed ++ [entry] }
    | .error _ storage => some { s with storage := storage }

/-- `run`: the publish loop, the ingestion task and the shutdown branch of `select!`.
The ingestion task is not joined, so it may take entries in every phase. -/
def run (c : Ciborium) : Machine System Event where
  step s
    | .push entry => ingest c entry s
    | .link connected => some { s with publisher := { s.publisher with connected := connected } }
    | .tick => if s.phase = .running then some (publish_tick c s) else none
    | .shutdown =>
      if s.phase = .running ∧ s.tick.suspended then some { s with tick := .idle, phase := .stopping }
      else none
    | .flush =>
      if s.phase = .stopping then some { s with
        storage := finalState (Buffer.flush_memory_to_disk c s.storage)
        phase := .stopped }
      else none

end spotflowd.orchestrator
