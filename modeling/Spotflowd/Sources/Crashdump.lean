import Spotflowd.Config
import Spotflowd.Lib.Chunks
import Spotflowd.Lib.Fs
import Spotflowd.Lib.Machine
import Spotflowd.Lib.Path
import Spotflowd.Mqtt
import Spotflowd.Sources.Crashdump.State

open cbor chunked effect fs path
open spotflowd.config spotflowd.mqtt

namespace spotflowd.sources.crashdump

def MESSAGE_TYPE_CORE_DUMP : Int := 2

def OS_LINUX : String := "Linux"

def STATE_FILE_NAME : FileName := "crashdump_state.json"

/-- Whether something is waiting to be sent after a scan. -/
inductive ScanOutcome where
  | Idle
  | RetrySoon
deriving DecidableEq

/-- A file name, which need not be text. -/
inductive OsName where
  | utf8 (name : String)
  | other (bytes : Bytes)
deriving DecidableEq

/-- What `metadata` reports; `modified` in nanoseconds from the epoch, if it is known. -/
structure Metadata where
  is_file : Bool
  modified : Option Int
deriving DecidableEq

structure Record extends Metadata where
  content : Bytes
deriving DecidableEq

/-- One pstore directory. -/
abbrev Pstore := AList (fun _ : OsName => Record)

structure Arrival where
  dir : String
  name : OsName
  record : Record
deriving DecidableEq

/-- What the environment does around one call: records that appear before it, a crash of
the process, failure of the call, entries a listing does not yield, and a new time. -/
structure Moment where
  arrivals : List Arrival := []
  crash : Bool := false
  fails : Bool := false
  hides : OsName → Bool := fun _ => false
  clock : Option UInt64 := none

/-- A removed record, and what the client had accepted by then. -/
structure Removal where
  dir : String
  name : OsName
  record : Record
  accepted : List Message

/-- The directories that are mounted, the state directory, the client, the clock, the
coming moments and the delivered ids in memory. `removed` is a history variable. -/
structure World where
  mounts : AList (fun _ : String => Pstore)
  state_dir : Fs
  publisher : MqttPublisher
  clock : UInt64
  moments : List Moment
  state : State
  removed : List Removal

def World.find (s : World) (dir : String) (name : OsName) : Option Record :=
  (s.mounts.lookup dir).bind fun records => records.lookup name

/-- A record appears, and with the first one its directory. A file that is there is never
replaced. -/
def World.appear (s : World) (arrival : Arrival) : World :=
  if (s.find arrival.dir arrival.name).isSome then s
  else { s with
    mounts := s.mounts.insert arrival.dir
      (((s.mounts.lookup arrival.dir).getD ∅).insert arrival.name arrival.record) }

/-- The next moment, and the state in which the call is carried out. -/
def World.next (s : World) : Moment × World :=
  match s.moments with
  | [] => ({}, s)
  | moment :: moments => (moment, moment.arrivals.foldl World.appear
      { s with moments := moments, clock := moment.clock.getD s.clock })

inductive Stop where
  /-- the process dies -/
  | crash
  /-- an `Err` of the source, with its message -/
  | failed (message : String)
deriving DecidableEq

abbrev CrashM := EStateM Stop World

/-- Every call begins with what happens around it. -/
def call : CrashM Moment := fun s =>
  let (moment, s) := s.next
  if moment.crash then .error .crash s else .ok moment s

/-- A `Result` as a value; a crash is none. -/
def result {α : Type} (x : CrashM α) : CrashM (Except String α) := fun s =>
  match x s with
  | .ok a t => .ok (.ok a) t
  | .error (.failed message) t => .ok (.error message) t
  | .error .crash t => .error .crash t

def read_dir (dir : String) : CrashM (Option (List OsName)) := do
  let moment ← call
  let s ← get
  match s.mounts.lookup dir, moment.fails with
  | some records, false => return some (records.keys.filter fun name => !moment.hides name)
  | _, _ => return none

def metadata (dir : String) (name : OsName) : CrashM (Option Metadata) := do
  let moment ← call
  let s ← get
  match s.find dir name, moment.fails with
  | some record, false => return some record.toMetadata
  | _, _ => return none

def read (dir : String) (name : OsName) : CrashM (Option Bytes) := do
  let moment ← call
  let s ← get
  match s.find dir name, moment.fails with
  | some record, false => return some record.content
  | _, _ => return none

def World.remove (s : World) (dir : String) (name : OsName) (record : Record) : World :=
  { s with
    mounts := s.mounts.insert dir (((s.mounts.lookup dir).getD ∅).erase name)
    removed := s.removed ++ [⟨dir, name, record, s.publisher.accepted⟩] }

def remove_file (dir : String) (name : OsName) : CrashM Unit := do
  let moment ← call
  let s ← get
  match s.find dir name, moment.fails with
  | some record, false => set (s.remove dir name record)
  | _, _ => throw (.failed "remove_file")

/-- A call on the state directory, with the context its failure is reported in. -/
def on_state_dir {α : Type} (context : String) (x : FsM α) : CrashM α := do
  let _ ← call
  zoom World.state_dir (fun dir s => { s with state_dir := dir }) (fun _ => .failed context) x

def publish_payload (payload : Bytes) : CrashM Unit := do
  let _ ← call
  zoom World.publisher (fun publisher s => { s with publisher := publisher }) .failed
    (MqttPublisher.publish_payload payload)

def now_secs : CrashM UInt64 := do
  let _ ← call
  return (← get).clock

/-- True when the file name starts with one of the configured kinds. -/
def matches_kind (fname : String) (kinds : List String) : Bool :=
  kinds.any fun kind => kind.toList.isPrefixOf fname.toList

/-- Seconds since the epoch; zero when the time is unknown or before it. -/
def mtime_secs (modified : Option Int) : UInt64 :=
  match modified with
  | some nanos => if 0 ≤ nanos then UInt64.ofNat (nanos.toNat / 10 ^ 9) else 0
  | none => 0

/-- `u64::to_le_bytes`. -/
def to_le_bytes (n : UInt64) : Bytes :=
  (List.range 8).map fun i => UInt8.ofNat (n.toNat / 256 ^ i % 256)

/-- FNV-1a over some bytes. -/
def mix (h : UInt64) (bytes : Bytes) : UInt64 :=
  bytes.foldl (fun h byte => (h ^^^ byte.toUInt64) * 0x0000_0100_0000_01b3) h

/-- Id of a record, from its name and modification time. -/
def core_dump_id (fname : String) (mtime : UInt64) : UInt64 :=
  mix (mix 0xcbf2_9ce4_8422_2325 (utf8 fname)) (to_le_bytes mtime) &&& 0x7fff_ffff_ffff_ffff

def read_capped (dir fname : String) (max_bytes : Nat) : CrashM Bytes := do
  match ← read dir (.utf8 fname) with
  | some data => return data.take max_bytes
  | none => throw (.failed ("read " ++ dir ++ "/" ++ fname))

def chunk_map (id : UInt64) (ordinal : Nat) (content : Bytes) (is_last : Bool)
    (build_id : Option String) : List (Value × Value) :=
  [(.Integer 0, .Integer MESSAGE_TYPE_CORE_DUMP), (.Integer 9, .Integer id.toNat),
    (.Integer 10, .Integer ordinal), (.Integer 11, .Bytes content)] ++
  (if is_last then [(.Integer 12, .Bool true)] else []) ++
  (match build_id with
    | some b => [(.Integer 14, .Text b)]
    | none => []) ++
  [(.Integer 15, .Text OS_LINUX)]

def encode_chunk (c : Ciborium) (id : UInt64) (ordinal : Nat) (content : Bytes) (is_last : Bool)
    (build_id : Option String) : Except String Bytes :=
  match c.value_into_writer (.Map (chunk_map id ordinal content is_last build_id)) with
  | some buf => .ok buf
  | none => .error "CBOR encode core dump chunk failed"

theorem encode_chunk_ok {c : Ciborium} {id : UInt64} {ordinal : Nat} {content : Bytes} {is_last : Bool}
    {build_id : Option String} {payload : Bytes}
    (hencode : encode_chunk c id ordinal content is_last build_id = .ok payload) :
    c.value_into_writer (.Map (chunk_map id ordinal content is_last build_id)) = some payload := by
  unfold encode_chunk at hencode
  split at hencode
  · next buf hwrite =>
    cases hencode
    exact hwrite
  · cases hencode

/-- The loop of `publish_core_dump`: the chunks from the `i`-th of `n` on. -/
def publish_chunks (c : Ciborium) (id : UInt64) (n : Nat) (build_id : Option String) :
    Nat → List Bytes → CrashM Unit
  | _, [] => pure ()
  | i, chunk :: rest =>
    match encode_chunk c id i chunk (i = n - 1) build_id with
    | .error e => throw (.failed e)
    | .ok payload => do
      publish_payload payload
      publish_chunks c id n build_id (i + 1) rest

/-- Publish a dump as a sequence of messages. Returns their number. -/
def publish_core_dump (c : Ciborium) (id : UInt64) (content : Bytes) (chunk_bytes : Nat)
    (build_id : Option String) : CrashM Nat := do
  let pieces := chunks (max chunk_bytes 1) content
  publish_chunks c id pieces.length build_id 0 pieces
  return pieces.length

/-- A crash dump task: its configuration and the directory of its state file. -/
structure Task where
  c : Ciborium
  json : SerdeJson
  cfg : CrashdumpConfig
  state_dir : String

namespace Task

variable (self : Task)

def display (name : FileName) : String := self.state_dir ++ "/" ++ name

/-- Write a temporary file, then rename it. -/
def save : CrashM Unit := do
  on_state_dir ("create state dir " ++ self.state_dir) create_dir_all
  let tmp := with_extension STATE_FILE_NAME "json.tmp"
  match self.json.to_vec (← get).state with
  | none => throw (.failed "serialize crashdump state")
  | some bytes =>
    on_state_dir ("write " ++ self.display tmp) (write tmp bytes)
    on_state_dir ("rename into " ++ self.display STATE_FILE_NAME) (rename tmp STATE_FILE_NAME)

/-- A missing or corrupt state file is an empty state. -/
def load : CrashM State := do
  match ← result (on_state_dir ("read " ++ self.display STATE_FILE_NAME) (fs.read STATE_FILE_NAME)) with
  | .ok bytes => return (self.json.from_slice bytes).getD {}
  | .error _ => return {}

def maybe_delete (dir : String) (name : OsName) : CrashM Unit := do
  if self.cfg.delete_after_capture then
    let _ ← result (remove_file dir name)

/-- How the loop goes on after an entry. -/
inductive Visit where
  | done
  | deferred
  | failed

/-- A record that is not known to be delivered, the link being up. -/
def upload (build_id : Option String) (dir fname : String) (id : UInt64) : CrashM Visit := do
  match ← result (read_capped dir fname self.cfg.max_bytes) with
  | .error _ => return .done
  | .ok content =>
    if content.isEmpty then
      return .done
    else
      match ← result (publish_core_dump self.c id content self.cfg.chunk_bytes build_id) with
      | .ok _ =>
        let now ← now_secs
        modify fun s => { s with state := s.state.insert id now }
        let _ ← result self.save
        self.maybe_delete dir (.utf8 fname)
        return .done
      | .error _ => return .failed

/-- The body of the loop over the entries of a directory. -/
def visit (build_id : Option String) (connected : Bool) (dir : String) (name : OsName) :
    CrashM Visit :=
  match name with
  | .other _ => return .done
  | .utf8 fname =>
    if !matches_kind fname self.cfg.kinds then
      return .done
    else do
      match ← metadata dir (.utf8 fname) with
      | none => return .done
      | some stat =>
        if !stat.is_file then
          return .done
        else
          let id := core_dump_id fname (mtime_secs stat.modified)
          if (← get).state.contains id then
            self.maybe_delete dir (.utf8 fname)
            return .done
          else if !connected then
            return .deferred
          else
            self.upload build_id dir fname id

/-- The entries of one directory, `deferred` having been deferred so far. Answers how many
there are then, or nothing after a failed upload. -/
def scan_entries (build_id : Option String) (connected : Bool) (dir : String) :
    List OsName → Nat → CrashM (Option Nat)
  | [], deferred => return some deferred
  | name :: names, deferred => do
    match ← self.visit build_id connected dir name with
    | .done => scan_entries build_id connected dir names deferred
    | .deferred => scan_entries build_id connected dir names (deferred + 1)
    | .failed => return none

def scan_dirs (build_id : Option String) (connected : Bool) :
    List String → Nat → CrashM (Option Nat)
  | [], deferred => return some deferred
  | dir :: dirs, deferred => do
    match ← read_dir dir with
    | none => scan_dirs build_id connected dirs deferred
    | some names =>
      match ← self.scan_entries build_id connected dir names deferred with
      | none => return none
      | some deferred => scan_dirs build_id connected dirs deferred

def scan_and_publish (build_id : Option String) : CrashM ScanOutcome := do
  let connected := (← get).publisher.is_connected
  match ← self.scan_dirs build_id connected self.cfg.paths 0 with
  | none => return .RetrySoon
  | some deferred => return if 0 < deferred then .RetrySoon else .Idle

/-- What `run` does before its loop. -/
def boot : CrashM Unit := do
  let state ← self.load
  let now ← now_secs
  modify fun s => { s with state := state.prune now }

end Task

/-- The process, if it is alive, with the build id it has read at its start. -/
structure System where
  world : World
  alive : Bool
  build_id : Option String

/-- The answers of the environment during one event. -/
structure Weather where
  moments : List Moment := []
  verdicts : List Verdict := []
  outcomes : List Bool := []

def World.under (s : World) (weather : Weather) : World :=
  { s with
    moments := weather.moments
    state_dir := { s.state_dir with verdicts := weather.verdicts }
    publisher := { s.publisher with outcomes := weather.outcomes } }

/-- The process is started (again), it scans, a record appears, or the connection comes or
goes. -/
inductive Event where
  | boot (build_id : Option String) (weather : Weather)
  | scan (weather : Weather)
  | appear (arrival : Arrival)
  | link (connected : Bool)

def run (self : Task) : Machine System Event where
  step s
    | .boot build_id weather =>
      match self.boot (s.world.under weather) with
      | .ok _ world => some ⟨world, true, build_id⟩
      | .error _ world => some ⟨world, false, build_id⟩
    | .scan weather =>
      if s.alive then
        match self.scan_and_publish s.build_id (s.world.under weather) with
        | .ok _ world => some { s with world := world }
        | .error _ world => some { s with world := world, alive := false }
      else none
    | .appear arrival => some { s with world := s.world.appear arrival }
    | .link connected => some { s with world := { s.world with
        publisher := { s.world.publisher with connected := connected } } }

end spotflowd.sources.crashdump
