import Mathlib.Algebra.BigOperators.Group.List.Basic
import Mathlib.Algebra.Order.Ring.Cast
import Mathlib.Tactic.Ring
import Spotflowd.Lib.Counters
import Spotflowd.Metrics.Collector

open counters
open spotflowd.config

namespace spotflowd.metrics.collector

/-- A metric that is emitted as the difference of two readings of a counter, `scale` times: its
label, whether the counter counts bytes, where it is collected, and what it reads in a snapshot and
in the one before. -/
structure DeltaMetric where
  name : String
  label : String
  scale : UInt64
  bytes : Bool
  enabled : CollectorConfig → String → Bool
  reading : Proc → String → Option UInt64
  baseline : Collector → String → Option UInt64

def disk_delta (name : String) (scale : UInt64) (bytes : Bool) (field : DiskCounters → UInt64) :
    DeltaMetric where
  name := name
  label := "device"
  scale := scale
  bytes := bytes
  enabled cfg _ := cfg.groups.disk
  reading proc dev := ((read_diskstats proc.diskstats).lookup dev).map field
  baseline self dev := (self.prev_disk.lookup dev).map field

def network_delta (name : String) (field : NetCounters → UInt64) : DeltaMetric where
  name := name
  label := "interface"
  scale := 1
  bytes := true
  enabled cfg iface := cfg.groups.network && (Collector.admitting cfg).all (·.contains iface)
  reading proc iface := ((read_net_dev proc.net_dev).lookup iface).map field
  baseline self iface := (self.prev_net.lookup iface).map field

def DISK_DELTAS : List DeltaMetric :=
  [disk_delta "disk_read_bytes" 512 true DiskCounters.read_sectors,
    disk_delta "disk_write_bytes" 512 true DiskCounters.write_sectors,
    disk_delta "disk_read_ops" 1 false DiskCounters.read_ops,
    disk_delta "disk_write_ops" 1 false DiskCounters.write_ops]

def NETWORK_DELTAS : List DeltaMetric :=
  [network_delta "network_rx_bytes" NetCounters.rx_bytes,
    network_delta "network_tx_bytes" NetCounters.tx_bytes]

def DELTAS : List DeltaMetric := DISK_DELTAS ++ NETWORK_DELTAS

namespace DeltaMetric

/-- The sample that two readings make. -/
def sample (m : DeltaMetric) (key : String) (last reading : UInt64) : MetricSample :=
  collector.sample m.name (.Int (saturating_sub reading last * m.scale).toInt64) [(m.label, key)]

/-- What is emitted for a device or an interface. -/
def emitted (m : DeltaMetric) (key : String) (samples : List MetricSample) : List MetricSample :=
  samples.filter fun s => s.name = m.name ∧ s.labels = [(m.label, key)]

/-- One sample when there are two readings, and else none. -/
def due (m : DeltaMetric) (key : String) : Option UInt64 → Option UInt64 → List MetricSample
  | some last, some reading => [m.sample key last reading]
  | _, _ => []

end DeltaMetric

/-- An iteration meets a key once: what only one entry gives, is given once. -/
theorem filter_flatMap_iter {V : Type} (i : Iteration String) (map : HashMap String V)
    (samples : String × V → List MetricSample) (p : MetricSample → Bool) (key : String)
    (hother : ∀ entry ∈ i.iter map, entry.1 ≠ key → (samples entry).filter p = []) :
    ((i.iter map).flatMap samples).filter p =
      ((map.lookup key).map fun value => (samples (key, value)).filter p).getD [] := by
  rw [List.filter_flatMap]
  cases hlookup : map.lookup key with
  | none =>
    rw [Option.map_none, Option.getD_none, List.flatMap_eq_nil_iff]
    intro entry hentry
    refine hother entry hentry fun hkey => ?_
    rw [show entry = (key, entry.2) from Prod.ext hkey rfl, Iteration.mem_iter, hlookup] at hentry
    cases hentry
  | some value =>
    have hentry : (key, value) ∈ i.iter map := Iteration.mem_iter.mpr hlookup
    obtain ⟨before, after, hsplit⟩ := List.append_of_mem hentry
    have hnodup := i.nodup_iter map
    rw [hsplit, List.map_append, List.map_cons, List.nodup_middle, List.nodup_cons, ← List.map_append] at hnodup
    have hnone : ∀ entry ∈ before ++ after, (samples entry).filter p = [] := by
      intro entry hmem
      refine hother entry ?_ fun hkey => hnodup.1 (List.mem_map.mpr ⟨entry, hmem, hkey⟩)
      rw [hsplit]
      exact List.perm_middle.mem_iff.mpr (List.mem_cons_of_mem _ hmem)
    have hbefore := List.flatMap_eq_nil_iff.mpr fun entry h => hnone entry (List.mem_append_left _ h)
    have hafter := List.flatMap_eq_nil_iff.mpr fun entry h => hnone entry (List.mem_append_right _ h)
    rw [hsplit, List.flatMap_append, List.flatMap_cons, hbefore, hafter, List.nil_append, List.append_nil]
    rfl

@[simp] theorem DeltaMetric.due_none (m : DeltaMetric) (key : String) (last : Option UInt64) :
    m.due key last none = [] := by
  cases last <;> rfl

theorem DeltaMetric.emitted_append (m : DeltaMetric) (key : String) (samples more : List MetricSample) :
    m.emitted key (samples ++ more) = m.emitted key samples ++ m.emitted key more :=
  List.filter_append samples more

theorem DeltaMetric.emitted_ite (m : DeltaMetric) (key : String) {p : Prop} [Decidable p]
    (samples : List MetricSample) :
    m.emitted key (if p then samples else []) = if p then m.emitted key samples else [] := by
  split <;> rfl

theorem DeltaMetric.emitted_named {deltas : List DeltaMetric} {names : List String}
    (hother : ∀ m ∈ deltas, m.name ∉ names) {m : DeltaMetric} (hm : m ∈ deltas)
    {samples : List MetricSample} (hnames : Named names samples) (key : String) :
    m.emitted key samples = [] := by
  rw [DeltaMetric.emitted, List.filter_eq_nil_iff]
  intro s hs hsame
  have hname : s.name = m.name := (of_decide_eq_true hsame).1
  exact hother m hm (hname ▸ hnames s hs)

theorem DeltaMetric.emitted_labelled {m : DeltaMetric} {label : String} {other key : String}
    {samples : List MetricSample} (hlabels : ∀ s ∈ samples, s.labels = [(label, other)])
    (hother : other ≠ key) : m.emitted key samples = [] := by
  rw [DeltaMetric.emitted, List.filter_eq_nil_iff]
  intro s hs hsame
  have hkey : s.labels = [(m.label, key)] := (of_decide_eq_true hsame).2
  rw [hlabels s hs] at hkey
  simp only [List.cons.injEq, Prod.mk.injEq, and_true] at hkey
  exact hother hkey.2

theorem eq_disk_delta {m : DeltaMetric} (hm : m ∈ DISK_DELTAS) :
    ∃ name scale bytes field, m = disk_delta name scale bytes field := by
  simp only [DISK_DELTAS, List.mem_cons, List.not_mem_nil, or_false] at hm
  obtain rfl | rfl | rfl | rfl := hm <;> exact ⟨_, _, _, _, rfl⟩

theorem eq_network_delta {m : DeltaMetric} (hm : m ∈ NETWORK_DELTAS) :
    ∃ name field, m = network_delta name field := by
  simp only [NETWORK_DELTAS, List.mem_cons, List.not_mem_nil, or_false] at hm
  obtain rfl | rfl := hm <;> exact ⟨_, _, rfl⟩

/-- Two readings of a device make four deltas, and at most its utilization beside them. -/
theorem device_samples_eq {prev_disk : HashMap String DiskCounters} {dev : String} {p : DiskCounters}
    (hlast : prev_disk.lookup dev = some p) (elapsed_ms : UInt64) (c : DiskCounters) :
    ∃ util, Named ["disk_io_util_percent"] util ∧ (∀ s ∈ util, s.labels = [("device", dev)]) ∧
      Collector.device_samples elapsed_ms prev_disk (dev, c) =
        [sample "disk_read_bytes" (.Int (saturating_sub c.read_sectors p.read_sectors * 512).toInt64)
            [("device", dev)],
          sample "disk_write_bytes" (.Int (saturating_sub c.write_sectors p.write_sectors * 512).toInt64)
            [("device", dev)],
          sample "disk_read_ops" (.Int (saturating_sub c.read_ops p.read_ops).toInt64) [("device", dev)],
          sample "disk_write_ops" (.Int (saturating_sub c.write_ops p.write_ops).toInt64)
            [("device", dev)]] ++ util := by
  rw [Collector.device_samples, hlast]
  refine ⟨_, ?_, ?_, rfl⟩
  · refine Named.ite ?_
    split
    · exact Named.self _
    · exact Named.nil _
  · intro s hs
    obtain ⟨-, hs⟩ := List.mem_ite_nil_right.mp hs
    split at hs
    · rw [List.mem_singleton.mp hs]
      rfl
    · cases hs

/-- Of a device, each metric is emitted once when there are two readings. -/
theorem emitted_device {m : DeltaMetric} (hm : m ∈ DISK_DELTAS) (elapsed_ms : UInt64) (proc : Proc)
    (self : Collector) {dev : String} {c : DiskCounters}
    (hlookup : (read_diskstats proc.diskstats).lookup dev = some c) :
    m.emitted dev (Collector.device_samples elapsed_ms self.prev_disk (dev, c)) =
      m.due dev (m.baseline self dev) (m.reading proc dev) := by
  cases hlast : self.prev_disk.lookup dev with
  | none =>
    obtain ⟨name, scale, bytes, field, rfl⟩ := eq_disk_delta hm
    have hnone : (disk_delta name scale bytes field).baseline self dev = none := by
      simp [disk_delta, hlast]
    rw [hnone, Collector.device_samples, hlast]
    rfl
  | some p =>
    obtain ⟨util, hutil, -, hsamples⟩ := device_samples_eq hlast elapsed_ms c
    rw [hsamples, DeltaMetric.emitted_append, DeltaMetric.emitted_named (by decide) hm hutil, List.append_nil]
    simp only [DISK_DELTAS, List.mem_cons, List.not_mem_nil, or_false] at hm
    obtain rfl | rfl | rfl | rfl := hm <;>
      simp [DeltaMetric.emitted, DeltaMetric.due, DeltaMetric.sample, disk_delta, hlast, hlookup, sample,
        flagged_sample]

theorem device_labels {elapsed_ms : UInt64} {prev_disk : HashMap String DiskCounters}
    (entry : String × DiskCounters) :
    ∀ s ∈ Collector.device_samples elapsed_ms prev_disk entry, s.labels = [("device", entry.1)] := by
  intro s hs
  cases hlast : prev_disk.lookup entry.1 with
  | none =>
    rw [Collector.device_samples, hlast] at hs
    cases hs
  | some p =>
    obtain ⟨util, -, hutil, hsamples⟩ := device_samples_eq hlast elapsed_ms entry.2
    rw [hsamples, List.mem_append] at hs
    obtain hs | hs := hs
    · simp only [List.mem_cons, List.not_mem_nil, or_false] at hs
      obtain rfl | rfl | rfl | rfl := hs <;> rfl
    · exact hutil s hs

theorem emitted_disk_io {m : DeltaMetric} (hm : m ∈ DISK_DELTAS) (proc : Proc) (self : Collector)
    (key : String) : m.emitted key (self.collect_disk_io proc).2 =
      m.due key (m.baseline self key) (m.reading proc key) := by
  rw [DeltaMetric.emitted, Collector.collect_disk_io]
  dsimp only
  rw [filter_flatMap_iter _ _ _ _ key
    fun entry _ hkey => DeltaMetric.emitted_labelled (device_labels entry) hkey]
  cases hlookup : (read_diskstats proc.diskstats).lookup key with
  | none =>
    obtain ⟨name, scale, bytes, field, rfl⟩ := eq_disk_delta hm
    have hnone : (disk_delta name scale bytes field).reading proc key = none := by
      simp [disk_delta, hlookup]
    rw [hnone, DeltaMetric.due_none]
    rfl
  | some c => exact emitted_device hm _ proc self hlookup

/-- Two readings of an admitted interface make two deltas beside its counters. -/
theorem interface_samples_eq (filter : Option (List String)) (prev_net : HashMap String NetCounters)
    (iface : String) (c : NetCounters) :
    ∃ counters, Named ["net_rx_errors", "net_tx_errors", "net_rx_drops", "net_tx_drops"] counters ∧
      (∀ s ∈ counters, s.labels = [("interface", iface)]) ∧
      Collector.interface_samples filter prev_net (iface, c) =
        if filter.all (·.contains iface) then
          (match prev_net.lookup iface with
            | none => []
            | some p =>
              [sample "network_rx_bytes" (.Int (saturating_sub c.rx_bytes p.rx_bytes).toInt64)
                  [("interface", iface)],
                sample "network_tx_bytes" (.Int (saturating_sub c.tx_bytes p.tx_bytes).toInt64)
                  [("interface", iface)]]) ++ counters
        else [] := by
  refine ⟨_, ?_, ?_, rfl⟩
  · exact Named.self _
  intro s hs
  simp only [List.mem_cons, List.not_mem_nil, or_false] at hs
  obtain rfl | rfl | rfl | rfl := hs <;> rfl

theorem interface_labels {filter : Option (List String)} {prev_net : HashMap String NetCounters}
    (entry : String × NetCounters) :
    ∀ s ∈ Collector.interface_samples filter prev_net entry, s.labels = [("interface", entry.1)] := by
  intro s hs
  obtain ⟨counters, -, hcounters, hsamples⟩ := interface_samples_eq filter prev_net entry.1 entry.2
  rw [hsamples] at hs
  obtain ⟨-, hs⟩ := List.mem_ite_nil_right.mp hs
  obtain hs | hs := List.mem_append.mp hs
  · split at hs
    · cases hs
    · simp only [List.mem_cons, List.not_mem_nil, or_false] at hs
      obtain rfl | rfl := hs <;> rfl
  · exact hcounters s hs

/-- Of an admitted interface, each metric is emitted once when there are two readings. -/
theorem emitted_interface {m : DeltaMetric} (hm : m ∈ NETWORK_DELTAS) (filter : Option (List String))
    (proc : Proc) (self : Collector) {iface : String} {c : NetCounters}
    (hlookup : (read_net_dev proc.net_dev).lookup iface = some c) :
    m.emitted iface (Collector.interface_samples filter self.prev_net (iface, c)) =
      if filter.all (·.contains iface) then m.due iface (m.baseline self iface) (m.reading proc iface)
      else [] := by
  obtain ⟨counters, hcounters, -, hsamples⟩ := interface_samples_eq filter self.prev_net iface c
  rw [hsamples]
  split
  · rw [DeltaMetric.emitted_append, DeltaMetric.emitted_named (by decide) hm hcounters, List.append_nil]
    simp only [NETWORK_DELTAS, List.mem_cons, List.not_mem_nil, or_false] at hm
    cases hlast : self.prev_net.lookup iface with
    | none =>
      obtain rfl | rfl := hm <;> simp [DeltaMetric.emitted, DeltaMetric.due, network_delta, hlast]
    | some p =>
      obtain rfl | rfl := hm <;>
        simp [DeltaMetric.emitted, DeltaMetric.due, DeltaMetric.sample, network_delta, hlast, hlookup, sample,
          flagged_sample]
  · rfl

theorem emitted_network {m : DeltaMetric} (hm : m ∈ NETWORK_DELTAS) (filter : Option (List String))
    (proc : Proc) (self : Collector) (key : String) :
    m.emitted key (self.collect_network proc filter).2 =
      if filter.all (·.contains key) then m.due key (m.baseline self key) (m.reading proc key)
      else [] := by
  rw [DeltaMetric.emitted, Collector.collect_network]
  dsimp only
  rw [filter_flatMap_iter _ _ _ _ key
    fun entry _ hkey => DeltaMetric.emitted_labelled (interface_labels entry) hkey]
  cases hlookup : (read_net_dev proc.net_dev).lookup key with
  | none =>
    obtain ⟨name, field, rfl⟩ := eq_network_delta hm
    have hnone : (network_delta name field).reading proc key = none := by
      simp [network_delta, hlookup]
    rw [hnone, DeltaMetric.due_none, ite_self]
    rfl
  | some c => exact emitted_interface hm filter proc self hlookup

/-- One collection emits a delta for each device and admitted interface that is in this snapshot and
in the one before, and no other. -/
theorem emitted_collect {m : DeltaMetric} (hm : m ∈ DELTAS) (cfg : CollectorConfig) (proc : Proc)
    (self : Collector) (key : String) : m.emitted key (self.collect cfg proc).2.1 =
      if m.enabled cfg key then m.due key (m.baseline self key) (m.reading proc key) else [] := by
  have hcpu := DeltaMetric.emitted_named (by decide) hm (named_cpu proc self) key
  have hload := DeltaMetric.emitted_named (by decide) hm (named_load_avg proc) key
  have htemp := DeltaMetric.emitted_named (by decide) hm (named_cpu_temp proc) key
  have hmemory := DeltaMetric.emitted_named (by decide) hm (named_memory proc) key
  have hspace := DeltaMetric.emitted_named (by decide) hm (named_disk_space proc cfg.disk.mount_points) key
  have hsystem := DeltaMetric.emitted_named (by decide) hm (named_system proc) key
  rw [Collector.collect_eq]
  simp only [DeltaMetric.emitted_append, DeltaMetric.emitted_ite, ite_self, List.append_nil, List.nil_append,
    hcpu, hload, htemp, hmemory, hspace, hsystem]
  obtain hm | hm := List.mem_append.mp hm
  · rw [DeltaMetric.emitted_named (by decide) hm (named_network proc _ self), ite_self, List.append_nil,
      emitted_disk_io hm]
    obtain ⟨name, scale, bytes, field, rfl⟩ := eq_disk_delta hm
    rfl
  · rw [DeltaMetric.emitted_named (by decide) hm (named_disk_io proc self), ite_self, List.nil_append,
      emitted_network hm]
    obtain ⟨name, field, rfl⟩ := eq_network_delta hm
    have henabled : (network_delta name field).enabled cfg key =
        (cfg.groups.network && (Collector.admitting cfg).all (·.contains key)) := rfl
    rw [henabled]
    cases cfg.groups.network <;> simp

/-- A delta is always that of some device or interface. -/
theorem exists_key {m : DeltaMetric} (hm : m ∈ DELTAS) {cfg : CollectorConfig} {proc : Proc}
    {self : Collector} {s : MetricSample} (hs : s ∈ (self.collect cfg proc).2.1) (hname : s.name = m.name) :
    ∃ key, s.labels = [(m.label, key)] := by
  have hother {names : List String} (hnames : ∀ m ∈ DELTAS, m.name ∉ names) {samples : List MetricSample}
      (hnamed : Named names samples) : s ∉ samples :=
    fun hmem => hnames m hm (hname ▸ hnamed s hmem)
  rw [Collector.collect_eq] at hs
  simp only [List.mem_append, List.mem_ite_nil_right,
    hother (by decide) (named_cpu proc self), hother (by decide) (named_load_avg proc),
    hother (by decide) (named_cpu_temp proc), hother (by decide) (named_memory proc),
    hother (by decide) (named_disk_space proc cfg.disk.mount_points), hother (by decide) (named_system proc),
    and_false, or_false, false_or] at hs
  obtain ⟨-, hs⟩ | ⟨-, hs⟩ := hs
  · have hlabel : ∀ m ∈ DELTAS, m.name ∈ ["disk_read_bytes", "disk_write_bytes", "disk_read_ops",
        "disk_write_ops", "disk_io_util_percent"] → m.label = "device" := by decide
    obtain ⟨entry, -, hentry⟩ := List.mem_flatMap.mp hs
    exact ⟨entry.1, by rw [device_labels entry s hentry, hlabel m hm (hname ▸ named_disk_io proc self s hs)]⟩
  · have hlabel : ∀ m ∈ DELTAS, m.name ∈ ["network_rx_bytes", "network_tx_bytes", "net_rx_errors",
        "net_tx_errors", "net_rx_drops", "net_tx_drops"] → m.label = "interface" := by decide
    obtain ⟨entry, -, hentry⟩ := List.mem_flatMap.mp hs
    exact ⟨entry.1, by
      rw [interface_labels entry s hentry, hlabel m hm (hname ▸ named_network proc _ self s hs)]⟩

/-- What is read is the next baseline. -/
theorem baseline_collect {m : DeltaMetric} (hm : m ∈ DELTAS) {cfg : CollectorConfig} {key : String}
    (henabled : m.enabled cfg key = true) (proc : Proc) (self : Collector) :
    m.baseline (self.collect cfg proc).1 key = m.reading proc key := by
  obtain hm | hm := List.mem_append.mp hm
  · obtain ⟨name, scale, bytes, field, rfl⟩ := eq_disk_delta hm
    simp only [disk_delta] at henabled ⊢
    rw [Collector.collect_prev_disk henabled]
  · obtain ⟨name, field, rfl⟩ := eq_network_delta hm
    simp only [network_delta, Bool.and_eq_true] at henabled ⊢
    rw [Collector.collect_prev_net henabled.1]

namespace Collector

/-- The collector after some collections. -/
def after (cfg : CollectorConfig) (self : Collector) (procs : List Proc) : Collector :=
  procs.foldl (fun self proc => (self.collect cfg proc).1) self

/-- The samples of some collections, one after another. -/
def collected (cfg : CollectorConfig) : Collector → List Proc → List MetricSample
  | _, [] => []
  | self, proc :: procs => (self.collect cfg proc).2.1 ++ collected cfg (self.collect cfg proc).1 procs

end Collector

/-- The reading in the snapshot before, after some collections. -/
def DeltaMetric.previous (m : DeltaMetric) (self : Collector) (past : List Proc) (key : String) :
    Option UInt64 :=
  match past.getLast? with
  | none => m.baseline self key
  | some proc => m.reading proc key

theorem baseline_after {m : DeltaMetric} (hm : m ∈ DELTAS) {cfg : CollectorConfig} {key : String}
    (henabled : m.enabled cfg key = true) (self : Collector) (past : List Proc) :
    m.baseline (self.after cfg past) key = m.previous self past key := by
  rw [Collector.after, DeltaMetric.previous]
  cases past using List.reverseRecOn with
  | nil => rfl
  | append_singleton past proc =>
    rw [List.foldl_append, List.getLast?_append]
    exact baseline_collect hm henabled proc _

/-- For a device or an interface that is in every snapshot, each collection emits the step from the
reading before to its own: none is left out and none is emitted twice. -/
theorem emitted_collected {m : DeltaMetric} (hm : m ∈ DELTAS) {cfg : CollectorConfig} {key : String}
    (henabled : m.enabled cfg key = true) {procs : List Proc} {readings : List UInt64}
    (hpresent : procs.map (m.reading · key) = readings.map some) (self : Collector) :
    m.emitted key (self.collected cfg procs) =
      (steps (m.baseline self key) readings).map fun step => m.sample key step.1 step.2 := by
  induction procs generalizing self readings with
  | nil =>
    obtain rfl : readings = [] := List.map_eq_nil_iff.mp hpresent.symm
    rw [steps_nil]
    rfl
  | cons proc procs ih =>
    cases readings with
    | nil => cases hpresent
    | cons reading readings =>
      obtain ⟨hfirst, hrest⟩ := List.cons.inj hpresent
      have hreading : m.reading proc key = some reading := hfirst
      have hnext := ih hrest (self.collect cfg proc).1
      rw [baseline_collect hm henabled, hreading] at hnext
      rw [Collector.collected, DeltaMetric.emitted_append, hnext, emitted_collect hm, if_pos henabled, hreading]
      cases m.baseline self key with
      | none => rfl
      | some last => rfl

theorem toInt_toInt64 (x : UInt64) :
    x.toInt64.toInt = if x.toNat < 2 ^ 63 then (x.toNat : Int) else x.toNat - 2 ^ 64 := by
  have hcond := BitVec.toInt_eq_toNat_cond x.toBitVec
  rw [UInt64.toNat_toBitVec] at hcond
  change x.toBitVec.toInt = _
  rw [hcond]
  split <;> split <;> first | rfl | omega

/-- By how much a reading is above the one before it, in the unit that is emitted and in 64 bits. -/
def DeltaMetric.rise (m : DeltaMetric) (last reading : UInt64) : Nat :=
  (reading.toNat - last.toNat) * m.scale.toNat % 2 ^ 64

theorem DeltaMetric.toNat_rise (m : DeltaMetric) (last reading : UInt64) :
    (saturating_sub reading last * m.scale).toNat = m.rise last reading := by
  rw [UInt64.toNat_mul, saturating_sub_toNat]
  rfl

/-- A delta is negative exactly when it does not fit. -/
theorem DeltaMetric.sample_nonneg_iff (m : DeltaMetric) (key : String) (last reading : UInt64) :
    0 ≤ (m.sample key last reading).value.number ↔ m.rise last reading < 2 ^ 63 := by
  have hlt := (saturating_sub reading last * m.scale).toNat_lt
  have hvalue : (m.sample key last reading).value.number =
      (((saturating_sub reading last * m.scale).toInt64.toInt : Int) : ℚ) := rfl
  rw [hvalue, Int.cast_nonneg_iff, toInt_toInt64, ← m.toNat_rise]
  split <;> omega

theorem DeltaMetric.sample_value {m : DeltaMetric} {last reading : UInt64}
    (hfits : m.rise last reading < 2 ^ 63) (key : String) :
    (m.sample key last reading).value.number = m.rise last reading := by
  rw [← m.toNat_rise] at hfits ⊢
  have hvalue : (m.sample key last reading).value.number =
      (((saturating_sub reading last * m.scale).toInt64.toInt : Int) : ℚ) := rfl
  rw [hvalue, toInt_toInt64, if_pos hfits, Int.cast_natCast]

/-- The sum of what is emitted for a device or an interface. -/
def DeltaMetric.total (m : DeltaMetric) (key : String) (samples : List MetricSample) : ℚ :=
  ((m.emitted key samples).map fun s => s.value.number).sum

/-- From one snapshot to the next no counter of a device or an admitted interface rises by more than
an `i64` holds. -/
def Bounded (cfg : CollectorConfig) (before : Collector) (procs : List Proc) : Prop :=
  ∀ past proc rest, procs = past ++ proc :: rest → ∀ m ∈ DELTAS, ∀ key, m.enabled cfg key = true →
    ∀ last ∈ m.previous before past key, ∀ reading ∈ m.reading proc key, m.rise last reading < 2 ^ 63

theorem previous_cons {m : DeltaMetric} (hm : m ∈ DELTAS) {cfg : CollectorConfig} {key : String}
    (henabled : m.enabled cfg key = true) (self : Collector) (proc : Proc) (past : List Proc) :
    m.previous (self.collect cfg proc).1 past key = m.previous self (proc :: past) key := by
  rw [← baseline_after hm henabled, ← baseline_after hm henabled]
  rfl

theorem Bounded.tail {cfg : CollectorConfig} {before : Collector} {proc : Proc} {procs : List Proc}
    (hbounded : Bounded cfg before (proc :: procs)) : Bounded cfg (before.collect cfg proc).1 procs := by
  rintro past next rest rfl m hm key henabled
  rw [previous_cons hm henabled]
  exact hbounded (proc :: past) next rest rfl m hm key henabled

/-- Every step of a device or an interface that is in every snapshot is bounded. -/
theorem Bounded.steps {cfg : CollectorConfig} {before : Collector} {procs : List Proc}
    (hbounded : Bounded cfg before procs) {m : DeltaMetric} (hm : m ∈ DELTAS) {key : String}
    (henabled : m.enabled cfg key = true) {readings : List UInt64}
    (hpresent : procs.map (m.reading · key) = readings.map some) :
    ∀ step ∈ steps (m.baseline before key) readings, m.rise step.1 step.2 < 2 ^ 63 := by
  induction procs generalizing before readings with
  | nil =>
    obtain rfl : readings = [] := List.map_eq_nil_iff.mp hpresent.symm
    rw [steps_nil]
    exact fun _ hstep => by cases hstep
  | cons proc procs ih =>
    cases readings with
    | nil => cases hpresent
    | cons reading readings =>
      obtain ⟨hfirst, hrest⟩ := List.cons.inj hpresent
      have hreading : m.reading proc key = some reading := hfirst
      have hnext := ih hbounded.tail hrest
      rw [baseline_collect hm henabled, hreading] at hnext
      cases hlast : m.baseline before key with
      | none => exact hnext
      | some last =>
        rw [steps_some_cons, List.forall_mem_cons]
        exact ⟨hbounded [] proc procs rfl m hm key henabled last hlast reading hreading, hnext⟩

/-- The sum of the deltas of a counter that never goes back, none of which wraps. -/
theorem sum_samples {m : DeltaMetric} (key : String) {baseline : Option UInt64} {readings : List UInt64}
    (hfits : ∀ step ∈ steps baseline readings, m.rise step.1 step.2 < 2 ^ 63)
    (hscaled : ∀ step ∈ steps baseline readings,
      m.rise step.1 step.2 = (step.2.toNat - step.1.toNat) * m.scale.toNat) :
    (((steps baseline readings).map fun step => m.sample key step.1 step.2).map
        fun s => s.value.number).sum =
      m.scale.toNat * ((rises (baseline.map UInt64.toNat) (readings.map UInt64.toNat)).sum : ℕ) := by
  rw [rises, steps_map, List.map_map, List.map_map]
  generalize steps baseline readings = all at hfits hscaled ⊢
  induction all with
  | nil => simp
  | cons step rest ih =>
    obtain ⟨hfirst, hrest⟩ := List.forall_mem_cons.mp hfits
    obtain ⟨hscale, hscales⟩ := List.forall_mem_cons.mp hscaled
    have hsum := ih hrest hscales
    rw [List.map_cons, List.sum_cons, hsum, List.map_cons, List.sum_cons]
    simp only [Function.comp_apply, Prod.map_fst, Prod.map_snd]
    rw [DeltaMetric.sample_value hfirst, hscale]
    push_cast
    ring

/-- What the deltas of some collections promise. -/
structure Telescopes (cfg : CollectorConfig) (before : Collector) (procs : List Proc) : Prop where
  /-- The sum of what is emitted for a device or an admitted interface that is in every snapshot, whose
  counter never goes back and counts less than 2^63 bytes, is the last reading less the first. -/
  sums : ∀ m ∈ DELTAS, ∀ key, m.enabled cfg key = true → ∀ readings : List UInt64,
    procs.map (m.reading · key) = readings.map some →
    ((m.baseline before key).toList ++ readings).Pairwise (· ≤ ·) →
    (m.bytes = true → ∀ reading ∈ (m.baseline before key).toList ++ readings,
      reading.toNat * m.scale.toNat < 2 ^ 63) →
    m.total key (before.collected cfg procs) = m.scale.toNat *
      (((((m.baseline before key).toList ++ readings).getLast?.getD 0).toNat : ℚ) -
        (((m.baseline before key).toList ++ readings).head?.getD 0).toNat)
  /-- A delta is emitted only for what was in the snapshot before. -/
  seen_before : ∀ past proc rest, procs = past ++ proc :: rest →
    ∀ s ∈ ((before.after cfg past).collect cfg proc).2.1, ∀ m ∈ DELTAS, s.name = m.name →
      ∃ key, s.labels = [(m.label, key)] ∧ (m.previous before past key).isSome
  not_negative : ∀ past proc rest, procs = past ++ proc :: rest →
    ∀ s ∈ ((before.after cfg past).collect cfg proc).2.1, ∀ m ∈ DELTAS, s.name = m.name →
      0 ≤ s.value.number

/-- A delta that one of the collections emits comes from two readings. -/
theorem eq_sample_of_mem {cfg : CollectorConfig} {before : Collector} {past : List Proc} {proc : Proc}
    {s : MetricSample} (hs : s ∈ ((before.after cfg past).collect cfg proc).2.1) {m : DeltaMetric}
    (hm : m ∈ DELTAS) (hname : s.name = m.name) :
    ∃ key last reading, m.enabled cfg key = true ∧ m.previous before past key = some last ∧
      m.reading proc key = some reading ∧ s = m.sample key last reading := by
  obtain ⟨key, hlabels⟩ := exists_key hm hs hname
  have hemitted : s ∈ m.emitted key ((before.after cfg past).collect cfg proc).2.1 :=
    List.mem_filter.mpr ⟨hs, decide_eq_true ⟨hname, hlabels⟩⟩
  rw [emitted_collect hm, List.mem_ite_nil_right] at hemitted
  obtain ⟨henabled, hdue⟩ := hemitted
  rw [baseline_after hm henabled] at hdue
  cases hlast : m.previous before past key with
  | none =>
    rw [hlast] at hdue
    cases hdue
  | some last =>
    cases hreading : m.reading proc key with
    | none =>
      rw [hlast, hreading] at hdue
      cases hdue
    | some reading =>
      rw [hlast, hreading] at hdue
      exact ⟨key, last, reading, henabled, hlast, hreading, List.mem_singleton.mp hdue⟩

/-- A step of a counter whose bytes fit is emitted to scale. -/
theorem rise_eq {m : DeltaMetric} (hm : m ∈ DELTAS) {last reading : UInt64}
    (hbytes : m.bytes = true → reading.toNat * m.scale.toNat < 2 ^ 63) :
    m.rise last reading = (reading.toNat - last.toNat) * m.scale.toNat := by
  have hscale : ∀ m ∈ DELTAS, m.bytes = true ∨ m.scale.toNat = 1 := by decide
  apply Nat.mod_eq_of_lt
  obtain hcounts | hone := hscale m hm
  · have hle := Nat.mul_le_mul_right m.scale.toNat (Nat.sub_le reading.toNat last.toNat)
    have hfits := hbytes hcounts
    omega
  · have hlt := reading.toNat_lt
    rw [hone]
    omega

theorem sum_eq {m : DeltaMetric} (hm : m ∈ DELTAS) {cfg : CollectorConfig} {before : Collector}
    {procs : List Proc} (hbounded : Bounded cfg before procs) {key : String}
    (henabled : m.enabled cfg key = true) {readings : List UInt64}
    (hpresent : procs.map (m.reading · key) = readings.map some)
    (hsorted : ((m.baseline before key).toList ++ readings).Pairwise (· ≤ ·))
    (hbytes : m.bytes = true → ∀ reading ∈ (m.baseline before key).toList ++ readings,
      reading.toNat * m.scale.toNat < 2 ^ 63) :
    m.total key (before.collected cfg procs) = m.scale.toNat *
      (((((m.baseline before key).toList ++ readings).getLast?.getD 0).toNat : ℚ) -
        (((m.baseline before key).toList ++ readings).head?.getD 0).toNat) := by
  have hscaled : ∀ step ∈ steps (m.baseline before key) readings,
      m.rise step.1 step.2 = (step.2.toNat - step.1.toNat) * m.scale.toNat :=
    fun step hstep => rise_eq hm fun hcounts => hbytes hcounts _ (mem_of_mem_steps hstep).2
  have hlists : ((m.baseline before key).map UInt64.toNat).toList ++ readings.map UInt64.toNat =
      ((m.baseline before key).toList ++ readings).map UInt64.toNat := by
    rw [List.map_append]
    cases m.baseline before key <;> rfl
  have hsorted' : (((m.baseline before key).map UInt64.toNat).toList ++
      readings.map UInt64.toNat).Pairwise (· ≤ ·) := by
    rw [hlists, List.pairwise_map]
    exact hsorted.imp UInt64.le_iff_toNat_le.mp
  have hgetD (reading : Option UInt64) : (reading.map UInt64.toNat).getD 0 = (reading.getD 0).toNat := by
    cases reading <;> rfl
  have hsum := sum_rises hsorted'
  rw [hlists, List.head?_map, List.getLast?_map, hgetD, hgetD] at hsum
  rw [DeltaMetric.total, emitted_collected hm henabled hpresent,
    sum_samples key (hbounded.steps hm henabled hpresent) hscaled, ← hsum]
  push_cast
  ring

/-- The deltas telescope, only what was seen before has one and none is negative, if and only if no
counter rises by more than an `i64` holds from one snapshot to the next. -/
theorem deltas_telescope_iff (cfg : CollectorConfig) (before : Collector) (procs : List Proc) :
    Telescopes cfg before procs ↔ Bounded cfg before procs := by
  constructor
  · intro htelescopes past proc rest hprocs m hm key henabled last hlast reading hreading
    have hemitted : m.sample key last reading ∈
        m.emitted key ((before.after cfg past).collect cfg proc).2.1 := by
      rw [emitted_collect hm, if_pos henabled, baseline_after hm henabled, hlast, hreading]
      exact List.mem_singleton_self _
    have hs := List.mem_of_mem_filter hemitted
    exact (m.sample_nonneg_iff key last reading).mp
      (htelescopes.not_negative past proc rest hprocs _ hs m hm rfl)
  · intro hbounded
    refine ⟨fun m hm key henabled readings hpresent hsorted hbytes =>
      sum_eq hm hbounded henabled hpresent hsorted hbytes, ?_, ?_⟩
    · intro past proc rest hprocs s hs m hm hname
      obtain ⟨key, last, reading, -, hlast, -, rfl⟩ := eq_sample_of_mem hs hm hname
      exact ⟨key, rfl, by rw [hlast]; rfl⟩
    · intro past proc rest hprocs s hs m hm hname
      obtain ⟨key, last, reading, henabled, hlast, hreading, rfl⟩ := eq_sample_of_mem hs hm hname
      exact (m.sample_nonneg_iff key last reading).mpr
        (hbounded past proc rest hprocs m hm key henabled last hlast reading hreading)

/-- Two snapshots of a device that has completed 2^63 reads in between. -/
def busy_disk : List Proc :=
  [{ Proc.silent with diskstats := some "8 0 sda 0 0 0 0 0 0 0\n".toList },
    { Proc.silent with diskstats := some "8 0 sda 9223372036854775808 0 0 0 0 0 0 0\n".toList }]

theorem reads_are_negative :
    ((Collector.new.collected {} busy_disk).filter fun s => s.name = "disk_read_ops") =
      [sample "disk_read_ops" (.Int (-9223372036854775808)) [("device", "sda")]] ∧
    (busy_disk.map fun proc => (DISK_DELTAS.filter fun m => m.name = "disk_read_ops").map
      fun m => m.reading proc "sda") = [[some 0], [some 9223372036854775808]] ∧
    ¬ Telescopes {} Collector.new busy_disk := by
  refine ⟨by decide, by decide, fun htelescopes => ?_⟩
  have hnonneg := htelescopes.not_negative (busy_disk.take 1) (busy_disk.getD 1 Proc.silent) [] rfl
    (sample "disk_read_ops" (.Int (-9223372036854775808)) [("device", "sda")]) (by decide)
    (disk_delta "disk_read_ops" 1 false DiskCounters.read_ops)
    (List.mem_append_left _ (by simp [DISK_DELTAS])) rfl
  have hnegative : ¬ (0 : ℚ) ≤ (sample "disk_read_ops" (.Int (-9223372036854775808))
      [("device", "sda")]).value.number := by
    decide
  exact hnegative hnonneg

end spotflowd.metrics.collector
