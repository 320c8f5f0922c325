import Mathlib.Algebra.Order.Field.Basic
import Mathlib.Tactic.Linarith
import Mathlib.Tactic.Positivity
import Spotflowd.Metrics.Collector

open spotflowd.config

namespace spotflowd.metrics.collector

/-- A subtraction that goes into a percentage, and the metric it is emitted as. -/
structure Share where
  name : String
  labels : Labels
  whole : UInt64
  part : UInt64

def Share.sample (d : Share) : MetricSample :=
  collector.sample d.name (.Float (used_percent d.whole d.part)) d.labels

def PERCENTAGES : List String :=
  ["cpu_utilization_percent", "mem_used_percent", "swap_used_percent", "disk_used_percent",
    "disk_inodes_used_percent"]

def Collector.cpu_shares (proc : Proc) (self : Collector) : List Share :=
  match self.prev_cpu, read_cpu_ticks proc.stat with
  | some prev, some ticks =>
    let total_d := saturating_sub ticks.total prev.total
    let idle_d := saturating_sub ticks.idle prev.idle
    if total_d > 0 then [⟨"cpu_utilization_percent", [], total_d, idle_d⟩] else []
  | _, _ => []

def memory_shares (proc : Proc) : List Share :=
  match read_meminfo proc.meminfo with
  | none => []
  | some m =>
    (if m.total > 0 then [⟨"mem_used_percent", [], m.total, m.available⟩] else []) ++
      if m.swap_total > 0 then [⟨"swap_used_percent", [], m.swap_total, m.swap_free⟩] else []

def mount_shares (proc : Proc) (mount : String) : List Share :=
  match disk_statvfs proc.statvfs mount with
  | none => []
  | some space =>
    (if space.total > 0 then [⟨"disk_used_percent", [("mount", mount)], space.total, space.free⟩]
      else []) ++
      if space.inodes_total > 0 then
        [⟨"disk_inodes_used_percent", [("mount", mount)], space.inodes_total, space.inodes_free⟩]
      else []

/-- The subtractions of `collect_cpu`, `collect_memory` and `collect_disk_space` in one collection. -/
def Collector.shares (cfg : CollectorConfig) (proc : Proc) (self : Collector) : List Share :=
  (if cfg.groups.cpu then self.cpu_shares proc else []) ++
    (if cfg.groups.memory then memory_shares proc else []) ++
    if cfg.groups.disk then cfg.disk.mount_points.flatMap (mount_shares proc) else []

/-- The percentages among some samples are those of some subtractions. -/
def Shows (samples : List MetricSample) (shares : List Share) : Prop :=
  ∀ s, s ∈ samples ∧ s.name ∈ PERCENTAGES ↔ ∃ d ∈ shares, d.sample = s

theorem Shows.none {samples : List MetricSample} (hother : ∀ s ∈ samples, s.name ∉ PERCENTAGES) :
    Shows samples [] := by
  intro s
  constructor
  · exact fun h => absurd h.2 (hother s h.1)
  · rintro ⟨d, hd, -⟩
    cases hd

theorem Shows.nil : Shows [] [] := Shows.none fun _ hs => by cases hs

/-- Samples of other metrics. -/
theorem Shows.others {names : List String} {samples : List MetricSample} (hnames : Named names samples)
    (hother : ∀ name ∈ names, name ∉ PERCENTAGES) : Shows samples [] :=
  Shows.none fun s hs => hother s.name (hnames s hs)

theorem Shows.share {name : String} (hname : name ∈ PERCENTAGES) (labels : Labels) (whole part : UInt64) :
    Shows [sample name (.Float (used_percent whole part)) labels] [⟨name, labels, whole, part⟩] := by
  intro s
  constructor
  · rintro ⟨hs, -⟩
    exact ⟨_, List.mem_singleton_self _, (List.mem_singleton.mp hs).symm⟩
  · rintro ⟨d, hd, rfl⟩
    rw [List.mem_singleton.mp hd]
    exact ⟨List.mem_singleton_self _, hname⟩

theorem Shows.append {samples more : List MetricSample} {shares others : List Share}
    (hshares : Shows samples shares) (hothers : Shows more others) :
    Shows (samples ++ more) (shares ++ others) := by
  intro s
  rw [List.mem_append, or_and_right, hshares s, hothers s]
  simp only [List.mem_append, or_and_right, exists_or]

theorem Shows.ite {p : Prop} [Decidable p] {samples : List MetricSample} {shares : List Share}
    (hshares : Shows samples shares) : Shows (if p then samples else []) (if p then shares else []) := by
  split
  · exact hshares
  · exact Shows.nil

theorem Shows.flatMap {α : Type} {samples : α → List MetricSample} {shares : α → List Share}
    (hshares : ∀ a, Shows (samples a) (shares a)) (items : List α) :
    Shows (items.flatMap samples) (items.flatMap shares) := by
  induction items with
  | nil => exact Shows.nil
  | cons a items ih =>
    rw [List.flatMap_cons, List.flatMap_cons]
    exact (hshares a).append ih

theorem shows_collect_cpu (proc : Proc) (self : Collector) :
    Shows (self.collect_cpu proc).2 (self.cpu_shares proc) := by
  have hname : "cpu_utilization_percent" ∈ PERCENTAGES := by decide
  rw [Collector.collect_cpu, Collector.cpu_shares]
  cases read_cpu_ticks proc.stat with
  | none => cases self.prev_cpu <;> exact Shows.nil
  | some ticks =>
    cases self.prev_cpu with
    | none => exact Shows.nil
    | some prev => exact Shows.ite (Shows.share hname _ _ _)

theorem shows_memory (proc : Proc) : Shows (collect_memory proc) (memory_shares proc) := by
  have hmem : "mem_used_percent" ∈ PERCENTAGES := by decide
  have hswap : "swap_used_percent" ∈ PERCENTAGES := by decide
  have havailable : "mem_available_bytes" ∉ PERCENTAGES := by decide
  rw [collect_memory, memory_shares]
  cases read_meminfo proc.meminfo with
  | none => exact Shows.nil
  | some m =>
    have hrest : Shows [sample "mem_available_bytes" (.Int m.available.toInt64) []] [] :=
      Shows.others (Named.self _) (List.forall_mem_singleton.mpr havailable)
    exact (hrest.append (Shows.ite (Shows.share hmem _ _ _))).append
      (Shows.ite (Shows.share hswap _ _ _))

theorem shows_mount (proc : Proc) (mount : String) :
    Shows (mount_samples proc mount) (mount_shares proc mount) := by
  have hdisk : "disk_used_percent" ∈ PERCENTAGES := by decide
  have hinodes : "disk_inodes_used_percent" ∈ PERCENTAGES := by decide
  have hfree : "disk_free_bytes" ∉ PERCENTAGES := by decide
  rw [mount_samples, mount_shares]
  cases disk_statvfs proc.statvfs mount with
  | none => exact Shows.nil
  | some space =>
    have hrest : Shows [sample "disk_free_bytes" (.Int space.free.toInt64) [("mount", mount)]] [] :=
      Shows.others (Named.self _) (List.forall_mem_singleton.mpr hfree)
    exact (hrest.append (Shows.ite (Shows.share hdisk _ _ _))).append
      (Shows.ite (Shows.share hinodes _ _ _))

theorem shows_collect (cfg : CollectorConfig) (proc : Proc) (self : Collector) :
    Shows (self.collect cfg proc).2.1 (self.shares cfg proc) := by
  have hload : Shows (collect_load_avg proc) [] := Shows.others (named_load_avg proc) (by decide)
  have htemp : Shows (collect_cpu_temp proc) [] := Shows.others (named_cpu_temp proc) (by decide)
  have hio : Shows (self.collect_disk_io proc).2 [] := Shows.others (named_disk_io proc self) (by decide)
  have hnetwork : Shows (self.collect_network proc (Collector.admitting cfg)).2 [] :=
    Shows.others (named_network proc _ self) (by decide)
  have hsystem : Shows (collect_system proc) [] := Shows.others (named_system proc) (by decide)
  have hspace := Shows.flatMap (shows_mount proc) cfg.disk.mount_points
  have hcpu := (((shows_collect_cpu proc self).append hload).append htemp).ite (p := cfg.groups.cpu = true)
  have hmemory := (shows_memory proc).ite (p := cfg.groups.memory = true)
  have hdisk := (hio.append hspace).ite (p := cfg.groups.disk = true)
  have hall := (((hcpu.append hmemory).append hdisk).append
    (hnetwork.ite (p := cfg.groups.network = true))).append (hsystem.ite (p := cfg.groups.system = true))
  simp only [List.append_nil, List.nil_append, ite_self] at hall
  rw [Collector.collect_eq]
  exact hall

theorem used_percent_nonneg (whole part : UInt64) : 0 ≤ used_percent whole part := by
  unfold used_percent
  positivity

/-- A difference that wraps is more than the whole. -/
theorem used_percent_le_iff {whole part : UInt64} (hpos : whole > 0) :
    used_percent whole part ≤ 100 ↔ part ≤ whole := by
  have hwhole : 0 < whole.toNat := by simpa [UInt64.lt_iff_toNat_lt] using hpos
  have hpart := part.toNat_lt
  have hscaled : used_percent whole part ≤ 100 ↔ (whole - part).toNat ≤ whole.toNat := by
    have hwhole' : (0 : ℚ) < whole.toNat := by exact_mod_cast hwhole
    rw [used_percent, ← @Nat.cast_le ℚ, ← div_le_one hwhole']
    constructor <;> intro h <;> linarith
  rw [hscaled, UInt64.toNat_sub, UInt64.le_iff_toNat_le]
  omega

theorem forall_mem_ite_nil {α : Type} {p : Prop} [Decidable p] {P : α → Prop} {items : List α} :
    (∀ a ∈ (if p then items else []), P a) ↔ (p → ∀ a ∈ items, P a) := by
  split
  · next h => simp [h]
  · next h => simp [h]

theorem cpu_whole_pos (proc : Proc) (self : Collector) : ∀ d ∈ self.cpu_shares proc, d.whole > 0 := by
  rw [Collector.cpu_shares]
  split
  · simp only [forall_mem_ite_nil, List.forall_mem_singleton]
    exact id
  · exact fun _ hd => by cases hd

theorem memory_whole_pos (proc : Proc) : ∀ d ∈ memory_shares proc, d.whole > 0 := by
  rw [memory_shares]
  split
  · exact fun _ hd => by cases hd
  · simp only [List.forall_mem_append, forall_mem_ite_nil, List.forall_mem_singleton]
    exact ⟨id, id⟩

theorem mount_whole_pos (proc : Proc) (mount : String) : ∀ d ∈ mount_shares proc mount, d.whole > 0 := by
  rw [mount_shares]
  split
  · exact fun _ hd => by cases hd
  · simp only [List.forall_mem_append, forall_mem_ite_nil, List.forall_mem_singleton]
    exact ⟨id, id⟩

/-- A subtraction is carried out only with a whole above zero. -/
theorem whole_pos_of_mem_shares {cfg : CollectorConfig} {proc : Proc} {self : Collector} :
    ∀ d ∈ self.shares cfg proc, d.whole > 0 := by
  rw [Collector.shares, List.forall_mem_append, List.forall_mem_append, forall_mem_ite_nil,
    forall_mem_ite_nil, forall_mem_ite_nil, List.forall_mem_flatMap]
  exact ⟨⟨fun _ => cpu_whole_pos proc self, fun _ => memory_whole_pos proc⟩,
    fun _ mount _ => mount_whole_pos proc mount⟩

/-- The percentages are in their range exactly when no subtraction wraps. -/
theorem percentages_in_range_iff (cfg : CollectorConfig) (proc : Proc) (self : Collector) :
    (∀ s ∈ (self.collect cfg proc).2.1, s.name ∈ PERCENTAGES →
      0 ≤ s.value.as_f64 ∧ s.value.as_f64 ≤ 100) ↔
    ∀ d ∈ self.shares cfg proc, d.part ≤ d.whole := by
  have hshows := shows_collect cfg proc self
  constructor
  · intro hrange d hd
    obtain ⟨hs, hname⟩ := (hshows d.sample).mpr ⟨d, hd, rfl⟩
    exact (used_percent_le_iff (whole_pos_of_mem_shares d hd)).mp (hrange d.sample hs hname).2
  · intro hle s hs hname
    obtain ⟨d, hd, rfl⟩ := (hshows s).mp ⟨hs, hname⟩
    exact ⟨used_percent_nonneg d.whole d.part,
      (used_percent_le_iff (whole_pos_of_mem_shares d hd)).mpr (hle d hd)⟩

/-- What the readings promise of one another: the idle time has not grown by more than all of it, and
no more is free than there is. -/
structure Ordered (cfg : CollectorConfig) (proc : Proc) (before : Collector) : Prop where
  cpu : cfg.groups.cpu = true → ∀ prev ∈ before.prev_cpu, ∀ ticks ∈ read_cpu_ticks proc.stat,
    prev.total < ticks.total →
      ticks.idle.toNat - prev.idle.toNat ≤ ticks.total.toNat - prev.total.toNat
  memory : cfg.groups.memory = true → ∀ m ∈ read_meminfo proc.meminfo,
    (m.total > 0 → m.available ≤ m.total) ∧ (m.swap_total > 0 → m.swap_free ≤ m.swap_total)
  disk : cfg.groups.disk = true → ∀ mount ∈ cfg.disk.mount_points,
    ∀ space ∈ disk_statvfs proc.statvfs mount,
      (space.total > 0 → space.free ≤ space.total) ∧
        (space.inodes_total > 0 → space.inodes_free ≤ space.inodes_total)

theorem saturating_sub_pos_iff {a b : UInt64} : saturating_sub a b > 0 ↔ b < a := by
  rw [gt_iff_lt, UInt64.lt_iff_toNat_lt, UInt64.lt_iff_toNat_lt, saturating_sub_toNat]
  exact Nat.sub_pos_iff_lt

theorem cpu_shares_le_iff (proc : Proc) (self : Collector) :
    (∀ d ∈ self.cpu_shares proc, d.part ≤ d.whole) ↔
    ∀ prev ∈ self.prev_cpu, ∀ ticks ∈ read_cpu_ticks proc.stat, prev.total < ticks.total →
      ticks.idle.toNat - prev.idle.toNat ≤ ticks.total.toNat - prev.total.toNat := by
  rw [Collector.cpu_shares]
  cases self.prev_cpu with
  | none => simp
  | some prev =>
    cases read_cpu_ticks proc.stat with
    | none => simp
    | some ticks =>
      simp only [forall_mem_ite_nil, List.forall_mem_singleton, UInt64.le_iff_toNat_le,
        saturating_sub_toNat, saturating_sub_pos_iff, Option.mem_def, Option.some.injEq, forall_eq']

theorem memory_shares_le_iff (proc : Proc) :
    (∀ d ∈ memory_shares proc, d.part ≤ d.whole) ↔ ∀ m ∈ read_meminfo proc.meminfo,
      (m.total > 0 → m.available ≤ m.total) ∧ (m.swap_total > 0 → m.swap_free ≤ m.swap_total) := by
  rw [memory_shares]
  cases read_meminfo proc.meminfo with
  | none => simp
  | some m =>
    simp only [List.forall_mem_append, forall_mem_ite_nil, List.forall_mem_singleton, Option.mem_def,
      Option.some.injEq, forall_eq']

theorem mount_shares_le_iff (proc : Proc) (mount : String) :
    (∀ d ∈ mount_shares proc mount, d.part ≤ d.whole) ↔ ∀ space ∈ disk_statvfs proc.statvfs mount,
      (space.total > 0 → space.free ≤ space.total) ∧
        (space.inodes_total > 0 → space.inodes_free ≤ space.inodes_total) := by
  rw [mount_shares]
  cases disk_statvfs proc.statvfs mount with
  | none => simp
  | some space =>
    simp only [List.forall_mem_append, forall_mem_ite_nil, List.forall_mem_singleton, Option.mem_def,
      Option.some.injEq, forall_eq']

theorem shares_le_iff (cfg : CollectorConfig) (proc : Proc) (self : Collector) :
    (∀ d ∈ self.shares cfg proc, d.part ≤ d.whole) ↔ Ordered cfg proc self := by
  have hmounts : (∀ d ∈ cfg.disk.mount_points.flatMap (mount_shares proc), d.part ≤ d.whole) ↔
      ∀ mount ∈ cfg.disk.mount_points, ∀ space ∈ disk_statvfs proc.statvfs mount,
        (space.total > 0 → space.free ≤ space.total) ∧
          (space.inodes_total > 0 → space.inodes_free ≤ space.inodes_total) := by
    rw [List.forall_mem_flatMap]
    exact forall₂_congr fun mount _ => mount_shares_le_iff proc mount
  rw [Collector.shares, List.forall_mem_append, List.forall_mem_append, forall_mem_ite_nil,
    forall_mem_ite_nil, forall_mem_ite_nil, cpu_shares_le_iff, memory_shares_le_iff, hmounts]
  constructor
  · rintro ⟨⟨hcpu, hmemory⟩, hdisk⟩
    exact ⟨hcpu, hmemory, hdisk⟩
  · rintro ⟨hcpu, hmemory, hdisk⟩
    exact ⟨⟨hcpu, hmemory⟩, hdisk⟩

/-- No subtraction wraps and every percentage is one, if and only if the readings are in order. -/
theorem percentages_are_percentages_iff (cfg : CollectorConfig) (proc : Proc) (self : Collector) :
    ((∀ d ∈ self.shares cfg proc, d.part ≤ d.whole) ∧
      ∀ s ∈ (self.collect cfg proc).2.1, s.name ∈ PERCENTAGES →
        0 ≤ s.value.as_f64 ∧ s.value.as_f64 ≤ 100) ↔ Ordered cfg proc self := by
  rw [percentages_in_range_iff, and_self, shares_le_iff]

/-- More memory is available than there is: the difference wraps. -/
theorem more_available_than_total :
    let proc := { Proc.silent with
      meminfo := some "MemTotal:       1024 kB\nMemAvailable:   2048 kB\n".toList }
    (¬ ∀ d ∈ Collector.new.shares {} proc, d.part ≤ d.whole) ∧
    ((Collector.new.collect {} proc).2.1.filter fun s => s.name ∈ PERCENTAGES) =
      [sample "mem_used_percent" (.Float ((2 ^ 64 - 2 ^ 20) / 2 ^ 20 * 100)) []] ∧
    ¬ (((2 ^ 64 - 2 ^ 20) / 2 ^ 20 * 100 : ℚ) ≤ 100) := by
  decide +kernel

end spotflowd.metrics.collector
