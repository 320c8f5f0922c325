import Mathlib.Tactic.Common

namespace spotflowd.config

/-- Sizes of the two buffer tiers. Defaults are those of a missing section. -/
structure BufferConfig where
  memory_max_entries : Nat := 1000
  disk_path : String := "/var/lib/spotflow/spool"
  disk_max_size_mb : Nat := 64
  disk_chunk_max_entries : Nat := 200
deriving DecidableEq

structure LogsConfig where
  buffer : BufferConfig := {}
deriving DecidableEq

structure DeviceConfig where
  id : String
  ingest_key : String
deriving DecidableEq

structure MetricsCustomConfig where
  enabled : Bool := false
deriving DecidableEq

structure MetricsGroupsConfig where
  cpu : Bool := true
  memory : Bool := true
  disk : Bool := true
  network : Bool := true
  system : Bool := true
deriving DecidableEq

structure MetricsDiskConfig where
  mount_points : List String := ["/"]
deriving DecidableEq

/-- An empty list admits every interface. -/
structure MetricsNetworkConfig where
  interfaces : List String := []
deriving DecidableEq

structure MetricsConfig where
  enabled : Bool := false
  collection_interval_secs : Nat := 10
  aggregation_interval : String := "1m"
  groups : MetricsGroupsConfig := {}
  custom : MetricsCustomConfig := {}
deriving DecidableEq

structure CrashdumpConfig where
  enabled : Bool := false
  paths : List String := ["/sys/fs/pstore"]
  kinds : List String := ["dmesg", "console"]
  delete_after_capture : Bool := true
  poll_interval_secs : Nat := 300
  max_bytes : Nat := 262144
  chunk_bytes : Nat := 8192
deriving DecidableEq

structure Config where
  device : DeviceConfig
  logs : LogsConfig := {}
  metrics : MetricsConfig := {}
  crashdump : CrashdumpConfig := {}
deriving DecidableEq

/-- `bail!` with `message` when the setting is unusable. -/
def bail_if (unusable : Bool) (message : String) : Except String Unit :=
  if unusable then .error message else .ok ()

def Config.validate (self : Config) : Except String Unit := do
  bail_if (self.device.id = "") "device.id must not be empty"
  bail_if (self.device.ingest_key = "") "device.ingest_key must not be empty"
  bail_if (self.logs.buffer.memory_max_entries = 0) "logs.buffer.memory_max_entries must be > 0"
  bail_if (self.logs.buffer.disk_chunk_max_entries = 0)
    "logs.buffer.disk_chunk_max_entries must be > 0"
  bail_if (self.logs.buffer.disk_max_size_mb = 0) "logs.buffer.disk_max_size_mb must be > 0"
  if self.metrics.enabled || self.metrics.custom.enabled then
    bail_if (self.metrics.collection_interval_secs = 0) "metrics.collection_interval_secs must be > 0"
    bail_if (self.metrics.aggregation_interval ∉ ["none", "1m", "1h", "1d"])
      "metrics.aggregation_interval must be one of: none, 1m, 1h, 1d"
  if self.crashdump.enabled then
    bail_if self.crashdump.paths.isEmpty "crashdump.paths must not be empty"
    bail_if self.crashdump.kinds.isEmpty "crashdump.kinds must not be empty"
    bail_if (self.crashdump.poll_interval_secs = 0) "crashdump.poll_interval_secs must be > 0"
    bail_if (self.crashdump.max_bytes = 0) "crashdump.max_bytes must be > 0"
    bail_if (self.crashdump.chunk_bytes = 0) "crashdump.chunk_bytes must be > 0"

/-- A buffer section that has passed validation. -/
structure ValidBufferConfig extends BufferConfig where
  memory_pos : 0 < memory_max_entries
  chunk_pos : 0 < disk_chunk_max_entries
  size_pos : 0 < disk_max_size_mb
deriving DecidableEq

/-- Default limits on disk, with the given numbers of entries. -/
def ValidBufferConfig.sized (memory_max chunk_max : Nat) (hmemory : 0 < memory_max)
    (hchunk : 0 < chunk_max) : ValidBufferConfig where
  memory_max_entries := memory_max
  disk_chunk_max_entries := chunk_max
  memory_pos := hmemory
  chunk_pos := hchunk
  size_pos := by decide

theorem default_memory_pos : 0 < ({} : BufferConfig).memory_max_entries := by decide

theorem default_chunk_pos : 0 < ({} : BufferConfig).disk_chunk_max_entries := by decide

theorem bail_if_bind_eq_ok_iff {unusable : Bool} {message : String} {α : Type}
    {rest : Except String α} {a : α} :
    (bail_if unusable message >>= fun _ => rest) = .ok a ↔ unusable = false ∧ rest = .ok a := by
  cases unusable with
  | false => simp [bail_if, bind, Except.bind]
  | true => simp [bail_if, bind, Except.bind]

/-- What a configuration that loads promises to the buffer. -/
theorem Config.validate_buffer {c : Config} (hvalid : c.validate = .ok ()) :
    0 < c.logs.buffer.memory_max_entries ∧ 0 < c.logs.buffer.disk_chunk_max_entries ∧
      0 < c.logs.buffer.disk_max_size_mb := by
  unfold Config.validate at hvalid
  simp only [bail_if_bind_eq_ok_iff, decide_eq_false_iff_not] at hvalid
  obtain ⟨_, _, hmemory, hchunk, hsize, _⟩ := hvalid
  omega

/-- The buffer section handed to `Buffer::new`. -/
def Config.buffer (c : Config) (hvalid : c.validate = .ok ()) : ValidBufferConfig :=
  { c.logs.buffer with
    memory_pos := (Config.validate_buffer hvalid).1
    chunk_pos := (Config.validate_buffer hvalid).2.1
    size_pos := (Config.validate_buffer hvalid).2.2 }

end spotflowd.config
