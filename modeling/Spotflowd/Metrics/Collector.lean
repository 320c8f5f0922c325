import Spotflowd.Lib.Tokens
import Spotflowd.Metrics.Aggregator
import Mathlib.Data.UInt

open spotflowd.config
open spotflowd.metrics.aggregator (Instant)
open str

namespace spotflowd.metrics.collector

/-- A directory of `/sys/class/thermal`: its name and the files in it that can be read. -/
structure ThermalEntry where
  name : String
  temp : Option Str
  zone_type : Option Str

/-- What `libc::statvfs` fills in. -/
structure Statvfs where
  f_bavail : UInt64
  f_frsize : UInt64
  f_blocks : UInt64
  f_favail : UInt64
  f_files : UInt64
deriving DecidableEq

/-- What one collection finds: the files that can be read as text, the directories under
`/sys/class/thermal` in the order of `read_dir`, the answers of `statvfs`, the clock and the orders
in which the maps of devices and of interfaces are met. The readings of `/proc/uptime` and of
`/proc/loadavg` that are parsed as `f64` stand for themselves. -/
structure Proc where
  stat : Option Str
  meminfo : Option Str
  diskstats : Option Str
  net_dev : Option Str
  loadavg : Option Str
  file_nr : Option Str
  thermal : Option (List ThermalEntry)
  statvfs : String → Option Statvfs
  uptime_ms : UInt64
  load_avg : Option (ℚ × ℚ × ℚ)
  now : Instant
  devices : Iteration String
  interfaces : Iteration String

/-- Nothing can be read. -/
def Proc.silent : Proc where
  stat := none
  meminfo := none
  diskstats := none
  net_dev := none
  loadavg := none
  file_nr := none
  thermal := none
  statvfs := fun _ => none
  uptime_ms := 0
  load_avg := none
  now := 0
  devices := ⟨id, fun keys => .refl keys⟩
  interfaces := ⟨id, fun keys => .refl keys⟩

structure CpuTicks where
  total : UInt64
  idle : UInt64
deriving DecidableEq

structure DiskCounters where
  read_sectors : UInt64
  write_sectors : UInt64
  read_ops : UInt64
  write_ops : UInt64
  io_ms : Option UInt64
deriving DecidableEq

structure NetCounters where
  rx_bytes : UInt64
  tx_bytes : UInt64
  rx_errors : UInt64
  tx_errors : UInt64
  rx_drops : UInt64
  tx_drops : UInt64
deriving DecidableEq

/-- The readings of the previous collection. -/
structure Collector where
  prev_cpu : Option CpuTicks
  prev_disk : HashMap String DiskCounters
  prev_disk_time : Option Instant
  prev_net : HashMap String NetCounters

/-- What the collector is configured with. -/
structure CollectorConfig extends MetricsConfig where
  disk : MetricsDiskConfig := {}
  network : MetricsNetworkConfig := {}
deriving DecidableEq

/-- `u64::saturating_sub` -/
def saturating_sub (a b : UInt64) : UInt64 := if b ≤ a then a - b else 0

theorem saturating_sub_toNat (a b : UInt64) : (saturating_sub a b).toNat = a.toNat - b.toNat := by
  rw [saturating_sub]
  split
  · next hle => exact UInt64.toNat_sub_of_le a b hle
  · next hgt =>
    rw [UInt64.le_iff_toNat_le] at hgt
    rw [show (0 : UInt64).toNat = 0 from rfl]
    omega

def flagged_sample (counter raw : Bool) (name : String) (value : MetricValue) (labels : Labels) :
    MetricSample where
  name := name
  value := value
  labels := labels
  counter := counter
  raw := raw

def sample : String → MetricValue → Labels → MetricSample := flagged_sample false false

/-- Counters bypass aggregation. -/
def counter_sample : String → MetricValue → Labels → MetricSample := flagged_sample true false

/-- Gauges are emitted at once. -/
def gauge_sample : String → MetricValue → Labels → MetricSample := flagged_sample false true

/-- `(whole - part) as f64 / whole as f64 * 100.0`; the subtraction wraps. -/
def used_percent (whole part : UInt64) : ℚ := ((whole - part).toNat : ℚ) / whole.toNat * 100

/-- `str::parse::<u64>` -/
def parse_u64 (s : Str) : Option UInt64 := (path.parse_u64 (String.ofList s)).map UInt64.ofNat

/-- `str::parse::<u32>` -/
def parse_u32 (s : Str) : Option Nat := (path.parse_u64 (String.ofList s)).filter (· < 2 ^ 32)

def starts_with (pat s : Str) : Bool := pat.isPrefixOf s

/-- Fields: user nice system idle [iowait ...] -/
def read_cpu_ticks (stat : Option Str) : Option CpuTicks := do
  let content ← stat
  let line ← (lines content).find? (starts_with "cpu ".toList)
  let fields := (split_ascii_whitespace line).tail.filterMap parse_u64
  match fields with
  | _ :: _ :: _ :: idle :: rest => some ⟨fields.sum, idle + rest.head?.getD 0⟩
  | _ => none

structure MemInfo where
  total : UInt64
  available : UInt64
  swap_total : UInt64
  swap_free : UInt64
deriving DecidableEq

/-- The body of the loop over the lines. -/
def meminfo_line (m : MemInfo) (line : Str) : MemInfo :=
  match split_ascii_whitespace line with
  | key :: val :: _ =>
    let kb := (parse_u64 val).getD 0
    if key = "MemTotal:".toList then { m with total := kb * 1024 }
    else if key = "MemAvailable:".toList then { m with available := kb * 1024 }
    else if key = "SwapTotal:".toList then { m with swap_total := kb * 1024 }
    else if key = "SwapFree:".toList then { m with swap_free := kb * 1024 }
    else m
  | _ => m

def read_meminfo (meminfo : Option Str) : Option MemInfo :=
  meminfo.map fun content => (lines content).foldl meminfo_line ⟨0, 0, 0, 0⟩

/-- The body of the loop over the lines. -/
def diskstats_line (map : HashMap String DiskCounters) (line : Str) : HashMap String DiskCounters :=
  match split_ascii_whitespace line with
  | _ :: _ :: dev :: reads :: _ :: sectors_read :: _ :: writes :: _ :: sectors_written :: rest =>
    -- virtual devices are skipped
    if starts_with "loop".toList dev || starts_with "ram".toList dev || starts_with "sr".toList dev then map
    else
      map.insert (String.ofList dev) {
        read_sectors := (parse_u64 sectors_read).getD 0
        write_sectors := (parse_u64 sectors_written).getD 0
        read_ops := (parse_u64 reads).getD 0
        write_ops := (parse_u64 writes).getD 0
        io_ms := rest[2]?.bind parse_u64 }
  | _ => map

def read_diskstats (diskstats : Option Str) : HashMap String DiskCounters :=
  match diskstats with
  | none => ∅
  | some content => (lines content).foldl diskstats_line ∅

/-- The body of the loop over the lines. -/
def net_dev_line (map : HashMap String NetCounters) (line : Str) : HashMap String NetCounters :=
  match split_once ':' line with
  | none => map
  | some (name, counters) =>
    let iface := trim name
    if iface = "lo".toList then map
    else
      match (split_ascii_whitespace counters).filterMap parse_u64 with
      | rx_bytes :: _ :: rx_errors :: rx_drops :: _ :: _ :: _ :: _ ::
          tx_bytes :: _ :: tx_errors :: tx_drops :: _ =>
        map.insert (String.ofList iface) ⟨rx_bytes, tx_bytes, rx_errors, tx_errors, rx_drops, tx_drops⟩
      | _ => map

/-- The first two lines are a heading. -/
def read_net_dev (net_dev : Option Str) : HashMap String NetCounters :=
  match net_dev with
  | none => ∅
  | some content => ((lines content).drop 2).foldl net_dev_line ∅

/-- Type and temperature of a zone; one without a type goes by its name. -/
def raw_zone (entry : ThermalEntry) : Option (String × ℚ) := do
  if !starts_with "thermal_zone".toList entry.name.toList then none
  let temp ← entry.temp
  let temp_raw := (parse_i64 (trim temp)).getD 0
  let zone_type := (entry.zone_type.map fun content => String.ofList (trim content)).getD entry.name
  return (zone_type, temp_raw.toInt / 1000)

/-- One more of this type. -/
def count_type (counts : HashMap String Nat) (zone_type : String) : HashMap String Nat :=
  counts.insert zone_type ((counts.lookup zone_type).getD 0 + 1)

/-- The body of the second pass: a type that several zones have gets an index. -/
def label_zone (type_count : HashMap String Nat) :
    HashMap String Nat × List (String × ℚ) → String × ℚ → HashMap String Nat × List (String × ℚ)
  | (type_seen, zones), (zone_type, celsius) =>
    if (type_count.lookup zone_type).getD 0 > 1 then
      let idx := (type_seen.lookup zone_type).getD 0
      (count_type type_seen zone_type, zones ++ [(zone_type ++ "_" ++ toString idx, celsius)])
    else (type_seen, zones ++ [(zone_type, celsius)])

/-- The two counting passes. -/
def label_zones (raw : List (String × ℚ)) : List (String × ℚ) :=
  let type_count := (raw.map Prod.fst).foldl count_type ∅
  (raw.foldl (label_zone type_count) (∅, [])).2

def read_thermal_zones (thermal : Option (List ThermalEntry)) : List (String × ℚ) :=
  match thermal with
  | none => []
  | some entries => label_zones (entries.filterMap raw_zone)

structure DiskSpace where
  free : UInt64
  total : UInt64
  inodes_free : UInt64
  inodes_total : UInt64
deriving DecidableEq

/-- A path with a NUL is no C string. -/
def disk_statvfs (statvfs : String → Option Statvfs) (path : String) : Option DiskSpace :=
  if '\x00' ∈ path.toList then none
  else (statvfs path).map fun stat => {
    free := stat.f_bavail * stat.f_frsize
    total := stat.f_blocks * stat.f_frsize
    inodes_free := stat.f_favail
    inodes_total := stat.f_files }

/-- The total of the field `running/total`. -/
def read_process_count (loadavg : Option Str) : Option Nat := do
  let content ← loadavg
  let field ← (split_ascii_whitespace content)[3]?
  let total ← (field.splitOnP (· = '/'))[1]?
  parse_u32 total

/-- Allocated file descriptors and their limit. -/
def read_fd_count (file_nr : Option Str) : Option (UInt64 × UInt64) := do
  let content ← file_nr
  let fields := split_ascii_whitespace content
  let used ← fields[0]?.bind parse_u64
  let _legacy_free ← fields[1]?.bind parse_u64
  let max ← fields[2]?.bind parse_u64
  return (used, max)

def collect_load_avg (proc : Proc) : List MetricSample :=
  match proc.load_avg with
  | none => []
  | some (l1, l5, l15) =>
    [sample "cpu_load_avg_1m" (.Float l1) [], sample "cpu_load_avg_5m" (.Float l5) [],
      sample "cpu_load_avg_15m" (.Float l15) []]

def zone_sample (zone : String × ℚ) : MetricSample :=
  sample "cpu_temperature" (.Float zone.2) [("zone", zone.1)]

def collect_cpu_temp (proc : Proc) : List MetricSample := (read_thermal_zones proc.thermal).map zone_sample

def collect_memory (proc : Proc) : List MetricSample :=
  match read_meminfo proc.meminfo with
  | none => []
  | some m =>
    [sample "mem_available_bytes" (.Int m.available.toInt64) []] ++
      (if m.total > 0 then [sample "mem_used_percent" (.Float (used_percent m.total m.available)) []]
        else []) ++
      if m.swap_total > 0 then
        [sample "swap_used_percent" (.Float (used_percent m.swap_total m.swap_free)) []]
      else []

/-- The body of the loop over the mount points. -/
def mount_samples (proc : Proc) (mount : String) : List MetricSample :=
  match disk_statvfs proc.statvfs mount with
  | none => []
  | some space =>
    [sample "disk_free_bytes" (.Int space.free.toInt64) [("mount", mount)]] ++
      (if space.total > 0 then
        [sample "disk_used_percent" (.Float (used_percent space.total space.free)) [("mount", mount)]]
      else []) ++
      if space.inodes_total > 0 then
        [sample "disk_inodes_used_percent" (.Float (used_percent space.inodes_total space.inodes_free))
          [("mount", mount)]]
      else []

def collect_disk_space (proc : Proc) (mounts : List String) : List MetricSample :=
  mounts.flatMap (mount_samples proc)

def collect_system (proc : Proc) : List MetricSample :=
  (match read_process_count proc.loadavg with
    | none => []
    | some n => [sample "process_count" (.Int (Int64.ofNat n)) []]) ++
  match read_fd_count proc.file_nr with
  | none => []
  | some (used, max) =>
    [gauge_sample "fd_used" (.Int used.toInt64) [], gauge_sample "fd_max" (.Int max.toInt64) []]

namespace Collector

def new : Collector where
  prev_cpu := none
  prev_disk := ∅
  prev_disk_time := none
  prev_net := ∅

/-- The samples that each collector pushes stand beside the collector it leaves. -/
def collect_cpu (proc : Proc) (self : Collector) : Collector × List MetricSample :=
  match read_cpu_ticks proc.stat with
  | none => (self, [])
  | some ticks =>
    ({ self with prev_cpu := some ticks },
      match self.prev_cpu with
      | none => []
      | some prev =>
        let total_d := saturating_sub ticks.total prev.total
        let idle_d := saturating_sub ticks.idle prev.idle
        if total_d > 0 then
          [sample "cpu_utilization_percent" (.Float (used_percent total_d idle_d)) []]
        else [])

/-- The share of the elapsed time that a device was busy, at most all of it. -/
def io_util (elapsed_ms : UInt64) (curr_io prev_io : UInt64) : ℚ :=
  min (((saturating_sub curr_io prev_io).toNat : ℚ) / elapsed_ms.toNat * 100) 100

/-- The body of the loop over the devices: deltas between consecutive readings. -/
def device_samples (elapsed_ms : UInt64) (prev_disk : HashMap String DiskCounters) :
    String × DiskCounters → List MetricSample
  | (dev, c) =>
    let lbl : Labels := [("device", dev)]
    match prev_disk.lookup dev with
    | none => []
    | some p =>
      let read_bytes_delta := saturating_sub c.read_sectors p.read_sectors * 512
      let write_bytes_delta := saturating_sub c.write_sectors p.write_sectors * 512
      let read_ops_delta := saturating_sub c.read_ops p.read_ops
      let write_ops_delta := saturating_sub c.write_ops p.write_ops
      [sample "disk_read_bytes" (.Int read_bytes_delta.toInt64) lbl,
        sample "disk_write_bytes" (.Int write_bytes_delta.toInt64) lbl,
        sample "disk_read_ops" (.Int read_ops_delta.toInt64) lbl,
        sample "disk_write_ops" (.Int write_ops_delta.toInt64) lbl] ++
      if elapsed_ms > 0 then
        match c.io_ms, p.io_ms with
        | some curr_io, some prev_io =>
          [sample "disk_io_util_percent" (.Float (io_util elapsed_ms curr_io prev_io)) lbl]
        | _, _ => []
      else []

def collect_disk_io (proc : Proc) (self : Collector) : Collector × List MetricSample :=
  let elapsed_ms := match self.prev_disk_time with
    | none => 0
    | some t => UInt64.ofNat ((proc.now - t) / 10 ^ 6)
  let curr := read_diskstats proc.diskstats
  ({ self with prev_disk := curr, prev_disk_time := some proc.now },
    (proc.devices.iter curr).flatMap (device_samples elapsed_ms self.prev_disk))

/-- The body of the loop over the interfaces. -/
def interface_samples (filter : Option (List String)) (prev_net : HashMap String NetCounters) :
    String × NetCounters → List MetricSample
  | (iface, c) =>
    if filter.all (·.contains iface) then
      let lbl : Labels := [("interface", iface)]
      (match prev_net.lookup iface with
        | none => []
        | some prev =>
          let rx_delta := saturating_sub c.rx_bytes prev.rx_bytes
          let tx_delta := saturating_sub c.tx_bytes prev.tx_bytes
          [sample "network_rx_bytes" (.Int rx_delta.toInt64) lbl,
            sample "network_tx_bytes" (.Int tx_delta.toInt64) lbl]) ++
      [counter_sample "net_rx_errors" (.Int c.rx_errors.toInt64) lbl,
        counter_sample "net_tx_errors" (.Int c.tx_errors.toInt64) lbl,
        counter_sample "net_rx_drops" (.Int c.rx_drops.toInt64) lbl,
        counter_sample "net_tx_drops" (.Int c.tx_drops.toInt64) lbl]
    else []

def collect_network (proc : Proc) (filter : Option (List String)) (self : Collector) :
    Collector × List MetricSample :=
  let curr := read_net_dev proc.net_dev
  ({ self with prev_net := curr },
    (proc.interfaces.iter curr).flatMap (interface_samples filter self.prev_net))

/-- A group of metrics that is not enabled is not collected. -/
def of_group (enabled : Bool) (collect : Collector → Collector × List MetricSample) (self : Collector) :
    Collector × List MetricSample :=
  if enabled then collect self else (self, [])

/-- Read all enabled metric groups. -/
def collect (cfg : CollectorConfig) (proc : Proc) (self : Collector) :
    Collector × List MetricSample × UInt64 :=
  let filter := if cfg.network.interfaces.isEmpty then none else some cfg.network.interfaces
  let (self, cpu) := self.of_group cfg.groups.cpu fun self =>
    let (self, out) := self.collect_cpu proc
    (self, out ++ collect_load_avg proc ++ collect_cpu_temp proc)
  let memory := if cfg.groups.memory then collect_memory proc else []
  let (self, disk) := self.of_group cfg.groups.disk fun self =>
    let (self, out) := self.collect_disk_io proc
    (self, out ++ collect_disk_space proc cfg.disk.mount_points)
  let (self, network) := self.of_group cfg.groups.network (collect_network proc filter)
  let system := if cfg.groups.system then collect_system proc else []
  (self, cpu ++ memory ++ disk ++ network ++ system, proc.uptime_ms)

theorem collect_cpu_fst (proc : Proc) (self : Collector) :
    (self.collect_cpu proc).1 = { self with prev_cpu := (read_cpu_ticks proc.stat).or self.prev_cpu } := by
  rw [collect_cpu]
  cases read_cpu_ticks proc.stat with
  | none => rfl
  | some ticks => rfl

/-- The filter of the configured interfaces. -/
def admitting (cfg : CollectorConfig) : Option (List String) :=
  if cfg.network.interfaces.isEmpty then none else some cfg.network.interfaces

/-- Each group is collected from the readings of its own. -/
theorem collect_eq (cfg : CollectorConfig) (proc : Proc) (self : Collector) :
    self.collect cfg proc = (
      { prev_cpu := if cfg.groups.cpu then (read_cpu_ticks proc.stat).or self.prev_cpu else self.prev_cpu
        prev_disk := if cfg.groups.disk then read_diskstats proc.diskstats else self.prev_disk
        prev_disk_time := if cfg.groups.disk then some proc.now else self.prev_disk_time
        prev_net := if cfg.groups.network then read_net_dev proc.net_dev else self.prev_net },
      (if cfg.groups.cpu then (self.collect_cpu proc).2 ++ collect_load_avg proc ++ collect_cpu_temp proc
        else []) ++
      (if cfg.groups.memory then collect_memory proc else []) ++
      (if cfg.groups.disk then
        (self.collect_disk_io proc).2 ++ collect_disk_space proc cfg.disk.mount_points else []) ++
      (if cfg.groups.network then (self.collect_network proc (admitting cfg)).2 else []) ++
      (if cfg.groups.system then collect_system proc else []),
      proc.uptime_ms) := by
  have hcpu : (self.collect_cpu proc) =
      ({ self with prev_cpu := (read_cpu_ticks proc.stat).or self.prev_cpu }, (self.collect_cpu proc).2) := by
    rw [← collect_cpu_fst]
  generalize (self.collect_cpu proc).2 = out at hcpu ⊢
  unfold collect of_group
  cases cfg.groups.cpu with
  | false => cases cfg.groups.disk <;> cases cfg.groups.network <;> rfl
  | true =>
    simp only [if_true, hcpu]
    cases cfg.groups.disk <;> cases cfg.groups.network <;> rfl

theorem collect_prev_disk {cfg : CollectorConfig} (hdisk : cfg.groups.disk = true) (proc : Proc)
    (self : Collector) : (self.collect cfg proc).1.prev_disk = read_diskstats proc.diskstats := by
  rw [collect_eq, hdisk]
  rfl

theorem collect_prev_net {cfg : CollectorConfig} (hnetwork : cfg.groups.network = true) (proc : Proc)
    (self : Collector) : (self.collect cfg proc).1.prev_net = read_net_dev proc.net_dev := by
  rw [collect_eq, hnetwork]
  rfl

end Collector

def Named (names : List String) (samples : List MetricSample) : Prop := ∀ s ∈ samples, s.name ∈ names

theorem Named.nil (names : List String) : Named names [] := fun _ hs => by cases hs

theorem Named.self (samples : List MetricSample) : Named (samples.map MetricSample.name) samples :=
  fun _ hs => List.mem_map_of_mem hs

theorem Named.mono {names more : List String} {samples : List MetricSample} (hnames : Named names samples)
    (hmore : names ⊆ more) : Named more samples :=
  fun s hs => hmore (hnames s hs)

theorem Named.append {names : List String} {samples more : List MetricSample}
    (hsamples : Named names samples) (hmore : Named names more) : Named names (samples ++ more) := by
  intro s hs
  obtain hs | hs := List.mem_append.mp hs
  · exact hsamples s hs
  · exact hmore s hs

theorem Named.ite {p : Prop} [Decidable p] {names : List String} {samples : List MetricSample}
    (hnames : Named names samples) : Named names (if p then samples else []) := by
  split
  · exact hnames
  · exact Named.nil names

theorem Named.flatMap {α : Type} {names : List String} {samples : α → List MetricSample}
    (hnames : ∀ a, Named names (samples a)) (items : List α) : Named names (items.flatMap samples) := by
  intro s hs
  obtain ⟨a, -, hs⟩ := List.mem_flatMap.mp hs
  exact hnames a s hs

theorem named_load_avg (proc : Proc) :
    Named ["cpu_load_avg_1m", "cpu_load_avg_5m", "cpu_load_avg_15m"] (collect_load_avg proc) := by
  rw [collect_load_avg]
  cases proc.load_avg with
  | none => exact Named.nil _
  | some load => exact Named.self _

theorem named_cpu_temp (proc : Proc) : Named ["cpu_temperature"] (collect_cpu_temp proc) := by
  intro s hs
  obtain ⟨zone, -, rfl⟩ := List.mem_map.mp hs
  exact List.mem_singleton_self _

theorem named_memory (proc : Proc) :
    Named ["mem_available_bytes", "mem_used_percent", "swap_used_percent"] (collect_memory proc) := by
  rw [collect_memory]
  cases read_meminfo proc.meminfo with
  | none => exact Named.nil _
  | some m =>
    refine Named.append (Named.append ?_ (Named.ite ?_)) (Named.ite ?_) <;>
      exact (Named.self _).mono (by simp [sample, flagged_sample])

theorem named_disk_space (proc : Proc) (mounts : List String) :
    Named ["disk_free_bytes", "disk_used_percent", "disk_inodes_used_percent"]
      (collect_disk_space proc mounts) := by
  refine Named.flatMap (fun mount => ?_) mounts
  rw [mount_samples]
  cases disk_statvfs proc.statvfs mount with
  | none => exact Named.nil _
  | some space =>
    refine Named.append (Named.append ?_ (Named.ite ?_)) (Named.ite ?_) <;>
      exact (Named.self _).mono (by simp [sample, flagged_sample])

theorem named_system (proc : Proc) : Named ["process_count", "fd_used", "fd_max"] (collect_system proc) := by
  rw [collect_system]
  refine Named.append ?_ ?_
  · split
    · exact Named.nil _
    · exact (Named.self _).mono (by simp [sample, flagged_sample])
  · split
    · exact Named.nil _
    · exact (Named.self _).mono (by simp [gauge_sample, flagged_sample])

theorem named_cpu (proc : Proc) (self : Collector) :
    Named ["cpu_utilization_percent"] (self.collect_cpu proc).2 := by
  rw [Collector.collect_cpu]
  split
  · exact Named.nil _
  · split
    · exact Named.nil _
    · exact Named.ite (Named.self _)

theorem named_disk_io (proc : Proc) (self : Collector) :
    Named ["disk_read_bytes", "disk_write_bytes", "disk_read_ops", "disk_write_ops", "disk_io_util_percent"]
      (self.collect_disk_io proc).2 := by
  refine Named.flatMap (fun entry => ?_) _
  rw [Collector.device_samples]
  dsimp only
  split
  · exact Named.nil _
  · refine Named.append ((Named.self _).mono (by simp [sample, flagged_sample])) (Named.ite ?_)
    split
    · exact (Named.self _).mono (by simp [sample, flagged_sample])
    · exact Named.nil _

theorem named_network (proc : Proc) (filter : Option (List String)) (self : Collector) :
    Named ["network_rx_bytes", "network_tx_bytes", "net_rx_errors", "net_tx_errors", "net_rx_drops",
      "net_tx_drops"] (self.collect_network proc filter).2 := by
  refine Named.flatMap (fun entry => ?_) _
  rw [Collector.interface_samples]
  refine Named.ite (Named.append ?_ ((Named.self _).mono (by simp [counter_sample, flagged_sample])))
  split
  · exact Named.nil _
  · exact (Named.self _).mono (by simp [sample, flagged_sample])

end spotflowd.metrics.collector
