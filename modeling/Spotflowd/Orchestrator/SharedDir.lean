import Spotflowd.Buffer.OwnFiles
import Spotflowd.Metrics.Durable
import Spotflowd.Orchestrator.Footprint
import Spotflowd.Orchestrator.OwnChunk
import Spotflowd.Sources.Crashdump.Durable
import Spotflowd.Sources.Crashdump.StateJson

open effect fs path chunked
open spotflowd.buffer spotflowd.config spotflowd.log_entry spotflowd.metrics spotflowd.mqtt
open spotflowd.sources

namespace spotflowd.orchestrator

/-- The chunk the tick has picked is a chunk file. -/
def Tick.OfChunk (tick : Tick) : Prop := ∀ path, tick.chunk = some path → is_chunk_file path = true

theorem Tick.ofChunk_of_none {tick : Tick} (hnone : tick.chunk = none) : tick.OfChunk := by
  intro path hpath
  rw [hnone] at hpath
  cases hpath

theorem Tick.ofChunk_of_eq {tick : Tick} {path : FileName} (hchunk : is_chunk_file path = true)
    (hpath : tick.chunk = some path ∨ tick.chunk = none) : tick.OfChunk := by
  intro other hother
  obtain hsome | hnone := hpath
  · rw [hsome] at hother
    cases hother
    exact hchunk
  · rw [hnone] at hother
    cases hother

theorem chunk_next_memory_batch (batches : List (List LogEntry)) :
    (next_memory_batch batches).chunk = none := by
  cases batches <;> rfl

theorem chunk_disk_done (path : FileName) (entries : List LogEntry) (published : Nat) :
    (disk_done path entries published).chunk = some path ∨
      (disk_done path entries published).chunk = none := by
  unfold disk_done
  split
  · exact Or.inl rfl
  · split
    · exact Or.inl rfl
    · exact Or.inr rfl

theorem chunk_next_disk_batch (path : FileName) (entries : List LogEntry) (published : Nat)
    (batches : List (List LogEntry)) :
    (next_disk_batch path entries published batches).chunk = some path ∨
      (next_disk_batch path entries published batches).chunk = none := by
  cases batches with
  | nil => exact chunk_disk_done path entries published
  | cons batch later => exact Or.inl rfl

theorem push_all_minds (c : Ciborium) (entries : List LogEntry) (s : Storage) :
    Minds s (push_all c entries s) := by
  unfold push_all
  induction entries generalizing s with
  | nil => exact Minds.refl s
  | cons entry entries ih =>
    rw [List.foldl_cons]
    exact Minds.trans _ _ _ (Buffer.push_minds c entry s) (ih _)

theorem publish_tick_ofChunk (c : Ciborium) {s : System} (hchunk : s.tick.OfChunk) :
    (publish_tick c s).tick.OfChunk := by
  unfold publish_tick
  cases htick : s.tick with
  | idle =>
    simp only
    split <;> exact Tick.ofChunk_of_none rfl
  | sleeping held => exact Tick.ofChunk_of_none rfl
  | lock_memory =>
    simp only
    split
    · exact Tick.ofChunk_of_none (chunk_next_memory_batch _)
    · exact Tick.ofChunk_of_none rfl
  | memory_batch sent unsent later =>
    cases unsent with
    | nil => exact Tick.ofChunk_of_none (chunk_next_memory_batch _)
    | cons entry unsent =>
      simp only
      split <;> exact Tick.ofChunk_of_none rfl
  | lock_requeue batch => exact Tick.ofChunk_of_none rfl
  | lock_disk =>
    simp only
    split
    · next hnext => exact Tick.ofChunk_of_eq (next_disk_chunk_is_chunk hnext) (Or.inl rfl)
    · exact Tick.ofChunk_of_none rfl
    · exact Tick.ofChunk_of_none rfl
  | read_chunk path =>
    have hpath := hchunk path (by rw [htick]; rfl)
    simp only
    split
    · exact Tick.ofChunk_of_eq hpath (chunk_next_disk_batch path _ 0 _)
    · exact Tick.ofChunk_of_eq hpath (Or.inl rfl)
  | disk_batch path entries published sent unsent later =>
    have hpath := hchunk path (by rw [htick]; rfl)
    cases unsent with
    | nil => exact Tick.ofChunk_of_eq hpath (chunk_next_disk_batch path entries _ later)
    | cons entry unsent =>
      simp only
      split
      · exact Tick.ofChunk_of_eq hpath (Or.inl rfl)
      · exact Tick.ofChunk_of_eq hpath (chunk_disk_done path entries published)
  | lock_tail path entries published =>
    exact Tick.ofChunk_of_eq (hchunk path (by rw [htick]; rfl)) (Or.inl rfl)
  | delete_chunk path result held => exact Tick.ofChunk_of_none rfl

/-- A step of the tick leaves the files outside the spool alone. -/
theorem publish_tick_minds (c : Ciborium) {s : System} (hchunk : s.tick.OfChunk) :
    Minds s.storage (publish_tick c s).storage := by
  have htouches := publish_tick_touches c s
  generalize (publish_tick c s).storage = after at htouches ⊢
  cases htouches with
  | nothing => exact Minds.refl _
  | drain => exact Minds.refl _
  | push_back entries => exact push_all_minds c entries s.storage
  | next_disk_chunk => exact Buffer.next_disk_chunk_minds s.storage
  | read_chunk path => exact Buffer.read_chunk_minds c path s.storage
  | delete_chunk path result held htick =>
    exact Buffer.delete_chunk_minds (hchunk path (by rw [htick]; rfl)) s.storage

theorem run_minds {c : Ciborium} {s t : System} {event : Event} (hchunk : s.tick.OfChunk)
    (hstep : (run c).step s event = some t) : Minds s.storage t.storage ∧ t.tick.OfChunk := by
  cases event with
  | push entry =>
    obtain ⟨-, hstorage, htick, -⟩ := ingest_effect hstep
    rw [hstorage, htick]
    exact ⟨Buffer.push_minds c entry s.storage, hchunk⟩
  | link connected =>
    cases hstep
    exact ⟨Minds.refl _, hchunk⟩
  | tick =>
    obtain ⟨-, rfl⟩ := run_tick_eq_some hstep
    exact ⟨publish_tick_minds c hchunk, publish_tick_ofChunk c hchunk⟩
  | shutdown =>
    simp only [run, Option.ite_none_right_eq_some, Option.some.injEq] at hstep
    obtain ⟨-, rfl⟩ := hstep
    exact ⟨Minds.refl _, Tick.ofChunk_of_none rfl⟩
  | flush =>
    simp only [run, Option.ite_none_right_eq_some, Option.some.injEq] at hstep
    obtain ⟨-, rfl⟩ := hstep
    exact ⟨Buffer.flush_memory_to_disk_minds c s.storage, hchunk⟩

/-- Other files come and go; the chunks and the next number stay. -/
theorem spool_of_confined {own : FileName → Prop} {s t : Fs} (hconfined : Confined own s t)
    (hown : ∀ name, own name → is_chunk_file name = false ∧ sequence_number name = none) :
    spool t.files = spool s.files ∧ next_seq t.files = next_seq s.files := by
  have hlookup : ∀ name, is_chunk_file name = true ∨ sequence_number name ≠ none →
      t.files.lookup name = s.files.lookup name := by
    intro name hname
    apply hconfined
    intro hother
    obtain ⟨hchunk, hnumber⟩ := hown name hother
    obtain h | h := hname
    · rw [hchunk] at h
      cases h
    · exact h hnumber
  have hmem : ∀ name, is_chunk_file name = true ∨ sequence_number name ≠ none →
      (name ∈ t.files ↔ name ∈ s.files) := by
    intro name hname
    rw [← AList.lookup_isSome, ← AList.lookup_isSome, hlookup name hname]
  constructor
  · have hnames : (chunk_names t.files).Perm (chunk_names s.files) := by
      rw [List.perm_ext_iff_of_nodup (nodup_chunk_names _) (nodup_chunk_names _)]
      intro name
      rw [mem_chunk_names, mem_chunk_names]
      exact and_congr_left fun hchunk => hmem name (Or.inl hchunk)
    have hsorted : (chunk_names t.files).insertionSort (· ≤ ·) =
        (chunk_names s.files).insertionSort (· ≤ ·) :=
      insertionSort_eq ((List.perm_insertionSort _ _).trans hnames.symm)
        (List.pairwise_insertionSort _ _)
    rw [spool, spool, hsorted]
    apply List.map_congr_left
    intro name hname
    have hchunk := (mem_chunk_names.mp ((List.mem_insertionSort _).mp hname)).2
    rw [hlookup name (Or.inl hchunk)]
  · apply le_antisymm
    · exact next_seq_le fun name hname hnumber => (hmem name (Or.inr hnumber)).mp hname
    · exact next_seq_le fun name hname hnumber => (hmem name (Or.inr hnumber)).mpr hname

/-- The log path, whose storage holds the directory, the numbers of the metrics task and the state
of the crash dump task. -/
structure Daemon where
  logs : System
  numbers : Worker
  dumps : replace.State crashdump.State

/-- The file system answers the coming calls; the log path takes a step; the process has died,
perhaps in the middle of a flush, and the log path starts again; or another task takes a step. -/
inductive Act where
  | answers (verdicts : List Verdict)
  | logs (event : Event)
  | reopen (fs : Fs) (cfg : ValidBufferConfig) (publisher : MqttPublisher)
  | numbers (work : Work)
  | dumps (event : replace.Event crashdump.State)

/-- Not a step of the log path. -/
def Act.foreign : Act → Prop
  | .answers _ => True
  | .logs _ => False
  | .reopen _ _ _ => False
  | .numbers _ => True
  | .dumps _ => True

namespace Daemon

def dir (s : Daemon) : Fs := s.logs.storage.fs

/-- All tasks find the directory like this. -/
def find (fs : Fs) (s : Daemon) : Daemon where
  logs := { s.logs with storage := { s.logs.storage with fs := fs } }
  numbers := { s.numbers with fs := fs }
  dumps := { s.dumps with fs := fs }

/-- A new process, on what an earlier one has left. -/
def start (c : Ciborium) (json : crashdump.SerdeJson) (cfg : ValidBufferConfig)
    (metrics_cfg : MetricsConfig) (publisher : MqttPublisher) (fs : Fs) : Except String Daemon := do
  let storage := Buffer.new cfg fs
  let numbers ← Worker.new c metrics_cfg storage.fs
  let state := crashdump.parse_state json (storage.fs.files.lookup crashdump.STATE_FILE_NAME)
  return find numbers.fs {
    logs := ⟨storage, publisher, .idle, .running, []⟩
    numbers := numbers
    dumps := ⟨state, state, .idle, storage.fs⟩ }

end Daemon

section Daemon

variable (c : Ciborium) (json : crashdump.SerdeJson) (hjson : json.RoundTrips)

def daemon : Machine Daemon Act where
  step s
    | .answers verdicts => some (s.find { s.dir with verdicts := verdicts })
    | .logs event => ((run c).step s.logs event).map fun logs =>
      { s with logs := logs }.find logs.storage.fs
    | .reopen fs cfg publisher =>
      let storage := Buffer.new cfg fs
      some ({ s with logs := ⟨storage, publisher, .idle, .running, s.logs.pushed⟩ }.find storage.fs)
    | .numbers work => ((worker c).step s.numbers work).map fun numbers =>
      { s with numbers := numbers }.find numbers.fs
    | .dumps event => ((crashdump.state_keeper json hjson).machine.step s.dumps event).map fun dumps =>
      { s with dumps := dumps }.find dumps.fs

/-- The log path dies with this directory: some pushes have ended, the flush of another one is
cut off. -/
def Dies (s : Storage) (fs : Fs) : Prop :=
  ∃ entries t, (Buffer.flush_memory_to_disk_steps c).cut (push_all c entries s) t ∧ t.fs = fs

/-- What the tasks may do; the changes of the directory come from themselves. -/
def Allowed (s : Daemon) : Act → Prop
  | .answers _ => True
  | .logs _ => True
  | .reopen fs _ _ => Dies c s.logs.storage fs
  | .numbers work => work.own ∧ Unharmed s.numbers work
  | .dumps event => event.own ∧ (crashdump.state_keeper json hjson).Allowed s.dumps event

variable {c json hjson}

/-- One directory, and the tick handles chunks only. -/
structure Daemon.Shares (s : Daemon) : Prop where
  numbers : s.numbers.fs = s.dir
  dumps : s.dumps.fs = s.dir
  chunk : s.logs.tick.OfChunk

theorem Dies.confined {s : Storage} {fs : Fs} (hdies : Dies c s fs) : Confined spool_file s.fs fs := by
  obtain ⟨entries, t, hcut, rfl⟩ := hdies
  exact Minds.trans _ _ _ (push_all_minds c entries s)
    ((Buffer.flush_memory_to_disk_steps_minds c).cut _ t hcut)

theorem new_confined (cfg : ValidBufferConfig) (fs : Fs) :
    Confined spool_file fs (Buffer.new cfg fs).fs := by
  have hlisted := (pruned_spool_files_newest_first fs).confined
  unfold Buffer.new
  cases hrun : spool_files_newest_first fs with
  | ok files t =>
    rw [hrun] at hlisted
    exact hlisted
  | error e t =>
    rw [hrun] at hlisted
    exact hlisted

/-- Which files an act may touch. -/
def Act.own : Act → FileName → Prop
  | .answers _, _ => False
  | .logs _, name => spool_file name
  | .reopen _ _ _, name => spool_file name
  | .numbers _, name => seq_file.own name
  | .dumps _, name => crashdump.state_file.own name

theorem daemon_confined {s t : Daemon} {act : Act} (hshares : s.Shares)
    (hallowed : Allowed c json hjson s act) (hstep : (daemon c json hjson).step s act = some t) :
    Confined act.own s.dir t.dir ∧ t.Shares := by
  cases act with
  | answers verdicts =>
    obtain rfl := Option.some.inj hstep
    exact ⟨Confined.of_files rfl, rfl, rfl, hshares.chunk⟩
  | logs event =>
    obtain ⟨logs, hlogs, rfl⟩ := Option.map_eq_some_iff.mp hstep
    obtain ⟨hminds, hchunk⟩ := run_minds hshares.chunk hlogs
    exact ⟨hminds, rfl, rfl, hchunk⟩
  | reopen fs cfg publisher =>
    obtain rfl := Option.some.inj hstep
    refine ⟨?_, rfl, rfl, Tick.ofChunk_of_none rfl⟩
    exact Confined.trans _ _ _ hallowed.confined (new_confined cfg fs)
  | numbers work =>
    obtain ⟨numbers, hnumbers, rfl⟩ := Option.map_eq_some_iff.mp hstep
    have hconfined := Worker.step_confined hallowed.1 hnumbers
    rw [hshares.numbers] at hconfined
    exact ⟨hconfined, rfl, rfl, hshares.chunk⟩
  | dumps event =>
    obtain ⟨dumps, hdumps, rfl⟩ := Option.map_eq_some_iff.mp hstep
    have hconfined := replace.Keeper.step_confined hallowed.1 hdumps
    rw [hshares.dumps] at hconfined
    exact ⟨hconfined, rfl, rfl, hshares.chunk⟩

theorem tmp_name_digit (seq : Nat) : (tmp_name seq).toList.head?.any Char.isDigit = true := by
  obtain ⟨d, digits, hdigits⟩ := List.exists_cons_of_ne_nil (padded_ne_nil 10 seq)
  have hd : d.isDigit = true := isDigit_of_mem_padded (hdigits ▸ List.mem_cons_self)
  have hname : (tmp_name seq).toList = d :: (digits ++ ".cbor.tmp".toList) := by
    simp only [tmp_name, with_extension, chunk_name_file_stem, String.toList_append,
      String.toList_ofList, hdigits, List.cons_append, List.append_assoc]
    rfl
  rw [hname, List.head?_cons, Option.any_some]
  exact hd

/-- A name the other tasks use. -/
structure Foreign (name : FileName) : Prop where
  chunk : is_chunk_file name = false
  number : sequence_number name = none
  letter : name.toList.head?.any Char.isDigit = false

theorem Foreign.not_spool {name : FileName} (hforeign : Foreign name) : ¬ spool_file name := by
  rintro (hchunk | ⟨seq, rfl⟩)
  · rw [hforeign.chunk] at hchunk
    cases hchunk
  · have hdigit := tmp_name_digit seq
    rw [hforeign.letter] at hdigit
    cases hdigit

theorem seq_file_foreign {name : FileName} (hown : seq_file.own name) : Foreign name := by
  obtain rfl | rfl := hown
  · exact ⟨by rfl, by rfl, by rfl⟩
  · exact ⟨by rfl, by rfl, by rfl⟩

theorem state_file_foreign {name : FileName} (hown : crashdump.state_file.own name) :
    Foreign name := by
  obtain rfl | rfl := hown
  · exact ⟨by rfl, by rfl, by rfl⟩
  · exact ⟨by rfl, by rfl, by rfl⟩

theorem seq_file_ne_state_file {name : FileName} (hseq : seq_file.own name) :
    ¬ crashdump.state_file.own name := by
  rintro (h | h)
  · obtain rfl | rfl := hseq
    · exact absurd h (by decide)
    · exact absurd h (by decide)
  · obtain rfl | rfl := hseq
    · exact absurd h (by decide)
    · exact absurd h (by decide)

theorem Act.own_foreign {act : Act} (hforeign : act.foreign) {name : FileName} (hown : act.own name) :
    Foreign name := by
  cases act with
  | answers verdicts => exact hown.elim
  | logs event => exact hforeign.elim
  | reopen fs cfg publisher => exact hforeign.elim
  | numbers work => exact seq_file_foreign hown
  | dumps event => exact state_file_foreign hown

/-- Every act is a step of the metrics task, or one of those around it. -/
theorem daemon_numbers {s t : Daemon} {act : Act} (hshares : s.Shares)
    (hallowed : Allowed c json hjson s act) (hstep : (daemon c json hjson).step s act = some t) :
    ∃ works, (worker c).Run Unharmed s.numbers works t.numbers := by
  obtain ⟨hconfined, -⟩ := daemon_confined hshares hallowed hstep
  have hothers : (∀ name, act.own name → ¬ seq_file.own name) →
      t.numbers = { s.numbers with fs := t.dir } →
      ∃ works, (worker c).Run Unharmed s.numbers works t.numbers := by
    intro hapart hnumbers
    rw [hnumbers]
    refine ⟨[.others t.dir], Machine.Run.single ?_ rfl⟩
    rw [Unharmed, hshares.numbers]
    exact hconfined.mono hapart
  cases act with
  | answers verdicts =>
    obtain rfl := Option.some.inj hstep
    exact hothers (fun _ => False.elim) rfl
  | logs event =>
    obtain ⟨logs, -, rfl⟩ := Option.map_eq_some_iff.mp hstep
    exact hothers (fun name hspool hseq => (seq_file_foreign hseq).not_spool hspool) rfl
  | reopen fs cfg publisher =>
    obtain rfl := Option.some.inj hstep
    exact hothers (fun name hspool hseq => (seq_file_foreign hseq).not_spool hspool) rfl
  | numbers work =>
    obtain ⟨numbers, hnumbers, rfl⟩ := Option.map_eq_some_iff.mp hstep
    exact ⟨[work], Machine.Run.single hallowed.2 hnumbers⟩
  | dumps event =>
    obtain ⟨dumps, -, rfl⟩ := Option.map_eq_some_iff.mp hstep
    exact hothers (fun name hstate hseq => seq_file_ne_state_file hseq hstate) rfl

/-- Every act is a step of the crash dump task, or one of those around it. -/
theorem daemon_dumps {s t : Daemon} {act : Act} (hshares : s.Shares)
    (hallowed : Allowed c json hjson s act) (hstep : (daemon c json hjson).step s act = some t) :
    ∃ events, (crashdump.state_keeper json hjson).machine.Run
      (crashdump.state_keeper json hjson).Allowed s.dumps events t.dumps := by
  obtain ⟨hconfined, -⟩ := daemon_confined hshares hallowed hstep
  have hothers : (∀ name, act.own name → ¬ crashdump.state_file.own name) →
      t.dumps = { s.dumps with fs := t.dir } →
      ∃ events, (crashdump.state_keeper json hjson).machine.Run
        (crashdump.state_keeper json hjson).Allowed s.dumps events t.dumps := by
    intro hapart hdumps
    rw [hdumps]
    refine ⟨[.others t.dir], Machine.Run.single ?_ rfl⟩
    rw [replace.Keeper.Allowed, hshares.dumps]
    exact hconfined.mono hapart
  cases act with
  | answers verdicts =>
    obtain rfl := Option.some.inj hstep
    exact hothers (fun _ => False.elim) rfl
  | logs event =>
    obtain ⟨logs, -, rfl⟩ := Option.map_eq_some_iff.mp hstep
    exact hothers (fun name hspool hstate => (state_file_foreign hstate).not_spool hspool) rfl
  | reopen fs cfg publisher =>
    obtain rfl := Option.some.inj hstep
    exact hothers (fun name hspool hstate => (state_file_foreign hstate).not_spool hspool) rfl
  | numbers work =>
    obtain ⟨numbers, -, rfl⟩ := Option.map_eq_some_iff.mp hstep
    exact hothers (fun name hseq hstate => seq_file_ne_state_file hseq hstate) rfl
  | dumps event =>
    obtain ⟨dumps, hdumps, rfl⟩ := Option.map_eq_some_iff.mp hstep
    exact ⟨[event], Machine.Run.single hallowed.2 hdumps⟩

/-- What holds of the daemon as a whole. -/
structure Daemon.Intact (c : Ciborium) (hc : c.ValueRoundTrips) (json : crashdump.SerdeJson)
    (hjson : json.RoundTrips) (s : Daemon) : Prop where
  shares : s.Shares
  numbers : Worker.Ledger c hc s.numbers
  dumps : (crashdump.state_keeper json hjson).Sound s.dumps

theorem Daemon.Intact.step {hc : c.ValueRoundTrips} {s t : Daemon} {act : Act}
    (hintact : s.Intact c hc json hjson) (hallowed : Allowed c json hjson s act)
    (hstep : (daemon c json hjson).step s act = some t) :
    t.Intact c hc json hjson ∧ Worker.Extends s.numbers t.numbers := by
  obtain ⟨hshares, hnumbers, hdumps⟩ := hintact
  obtain ⟨-, hshares'⟩ := daemon_confined hshares hallowed hstep
  obtain ⟨works, hworks⟩ := daemon_numbers hshares hallowed hstep
  obtain ⟨events, hevents⟩ := daemon_dumps hshares hallowed hstep
  obtain ⟨hledger, hextends⟩ := hnumbers.run hworks
  exact ⟨⟨hshares', hledger, (hdumps.run hevents).1⟩, hextends⟩

theorem Daemon.Intact.run {hc : c.ValueRoundTrips} {s t : Daemon} {acts : List Act}
    (hintact : s.Intact c hc json hjson)
    (hrun : (daemon c json hjson).Run (Allowed c json hjson) s acts t) :
    t.Intact c hc json hjson ∧ Worker.Extends s.numbers t.numbers := by
  refine hrun.invariant
    (P := fun t => t.Intact c hc json hjson ∧ Worker.Extends s.numbers t.numbers)
    ⟨hintact, .refl _⟩ ?_
  rintro t act u ⟨ht, hextends⟩ hallowed hstep
  obtain ⟨hu, hmore⟩ := ht.step hallowed hstep
  exact ⟨hu, hextends.trans hmore⟩

theorem Daemon.start_intact (hc : c.ValueRoundTrips) {cfg : ValidBufferConfig}
    {metrics_cfg : MetricsConfig} {publisher : MqttPublisher} {fs : Fs} {s : Daemon}
    (hstart : Daemon.start c json cfg metrics_cfg publisher fs = .ok s)
    (hread : (Buffer.new cfg fs).fs.next.1.fails .read = false) : s.Intact c hc json hjson := by
  unfold Daemon.start at hstart
  cases hnew : Worker.new c metrics_cfg (Buffer.new cfg fs).fs with
  | error e => simp [hnew, bind, Except.bind] at hstart
  | ok numbers =>
    simp only [hnew, bind, Except.bind, pure, Except.pure] at hstart
    cases hstart
    obtain ⟨hreads, hfiles⟩ := Worker.new_reads hc hnew hread
    refine ⟨⟨rfl, rfl, Tick.ofChunk_of_none rfl⟩, Worker.Ledger.start hnew hread, ?_⟩
    refine replace.Keeper.Sound.start ?_
    change crashdump.parse_state json (numbers.fs.files.lookup crashdump.STATE_FILE_NAME) = _
    rw [hfiles]

/-- A stretch without a step of the log path. -/
theorem foreign_run {s t : Daemon} {acts : List Act} (hshares : s.Shares)
    (hrun : (daemon c json hjson).Run (Allowed c json hjson) s acts t)
    (hforeign : ∀ act ∈ acts, act.foreign) :
    spool t.dir.files = spool s.dir.files ∧ next_seq t.dir.files = next_seq s.dir.files := by
  have hconfined : (∀ act ∈ acts, act.foreign) → Confined Foreign s.dir t.dir ∧ t.Shares := by
    refine hrun.history (P := fun acts t => (∀ act ∈ acts, act.foreign) →
      Confined Foreign s.dir t.dir ∧ t.Shares) (fun _ => ⟨Confined.refl _, hshares⟩) ?_
    intro past t act u ih hallowed hstep hforeign
    obtain ⟨hsofar, ht⟩ := ih fun act hact => hforeign act (List.mem_append_left _ hact)
    have hact := hforeign act (List.mem_append_right _ List.mem_cons_self)
    obtain ⟨hmore, hu⟩ := daemon_confined ht hallowed hstep
    exact ⟨Confined.trans _ _ _ hsofar (hmore.mono fun name => Act.own_foreign hact), hu⟩
  exact spool_of_confined (hconfined hforeign).1 fun name hname => ⟨hname.chunk, hname.number⟩

/-- The log path, the metrics task and the crash dump task share one directory and never get in
each other's way. In whatever order they take their steps, with deaths of the process at any point
and with any answers of the file system but to a process that reads its files when it starts, the
saved numbers and the saved state are on disk as they were saved last, a number that has been saved
is never issued again, and as long as the log path takes no step, its chunks and the name of its next
one stay what they are. -/
theorem tasks_keep_apart (hc : c.ValueRoundTrips) {cfg : ValidBufferConfig}
    {metrics_cfg : MetricsConfig} {publisher : MqttPublisher} {fs : Fs} {s t u : Daemon}
    {before after : List Act} (hstart : Daemon.start c json cfg metrics_cfg publisher fs = .ok s)
    (hread : (Buffer.new cfg fs).fs.next.1.fails .read = false)
    (hbefore : (daemon c json hjson).Run (Allowed c json hjson) s before t)
    (hafter : (daemon c json hjson).Run (Allowed c json hjson) t after u) :
    (∀ key, (aggregator.stored c t.dir).lookup key = t.numbers.saved.lookup key) ∧
      crashdump.parse_state json (t.dir.files.lookup crashdump.STATE_FILE_NAME) = t.dumps.saved ∧
      (∃ new, u.numbers.emitted = t.numbers.emitted ++ new ∧
        ∀ m ∈ t.numbers.kept, ∀ m' ∈ new, ¬ (m'.key = m.key ∧ m'.seq = m.seq)) ∧
      ((∀ act ∈ after, act.foreign) →
        spool u.dir.files = spool t.dir.files ∧ next_seq u.dir.files = next_seq t.dir.files) := by
  have hs : s.Intact c hc json hjson := Daemon.start_intact hc hstart hread
  obtain ⟨ht, -⟩ := hs.run hbefore
  obtain ⟨-, hextends⟩ := ht.run hafter
  have hreads := ht.numbers.sound.reads
  refine ⟨?_, ?_, ht.numbers.fresh hextends, foreign_run ht.shares hafter⟩
  · rw [← ht.shares.numbers]
    exact hreads
  · rw [← ht.shares.dumps]
    exact ht.dumps.reads

/-- Acts whose conditions can be computed: no deaths, no restarts of the crash dump task. -/
def Ordinary (json : crashdump.SerdeJson) (s : Daemon) : Act → Prop
  | .answers _ => True
  | .logs _ => True
  | .reopen _ _ _ => False
  | .numbers (.others _) => False
  | .numbers work => Worker.Alone s.numbers work
  | .dumps (.save content) => content = json.to_vec s.dumps.value
  | .dumps (.change _) => True
  | .dumps .call => True
  | .dumps _ => False

instance (json : crashdump.SerdeJson) (s : Daemon) :
    (act : Act) → Decidable (Ordinary json s act)
  | .answers _ => inferInstanceAs (Decidable True)
  | .logs _ => inferInstanceAs (Decidable True)
  | .reopen _ _ _ => inferInstanceAs (Decidable False)
  | .numbers (.others _) => inferInstanceAs (Decidable False)
  | .numbers (.tick feed) => inferInstanceAs (Decidable (Worker.Alone s.numbers (.tick feed)))
  | .numbers (.save _) => inferInstanceAs (Decidable True)
  | .numbers .call => inferInstanceAs (Decidable True)
  | .numbers (.restart cfg verdicts) =>
    inferInstanceAs (Decidable (Worker.Alone s.numbers (.restart cfg verdicts)))
  | .dumps (.save _) => inferInstanceAs (Decidable (_ = _))
  | .dumps (.change _) => inferInstanceAs (Decidable True)
  | .dumps .call => inferInstanceAs (Decidable True)
  | .dumps (.others _) => inferInstanceAs (Decidable False)
  | .dumps (.restart _) => inferInstanceAs (Decidable False)

theorem Ordinary.allowed {s : Daemon} {act : Act} (hordinary : Ordinary json s act) :
    Allowed c json hjson s act := by
  cases act with
  | answers verdicts => trivial
  | logs event => trivial
  | reopen fs cfg publisher => exact hordinary.elim
  | numbers work =>
    cases work with
    | others fs => exact hordinary.elim
    | tick feed => exact ⟨trivial, Worker.Alone.unharmed hordinary⟩
    | save iteration => exact ⟨trivial, trivial⟩
    | call => exact ⟨trivial, trivial⟩
    | restart cfg verdicts => exact ⟨trivial, Worker.Alone.unharmed hordinary⟩
  | dumps event =>
    cases event with
    | others fs => exact hordinary.elim
    | restart value => exact hordinary.elim
    | change value => exact ⟨trivial, trivial⟩
    | call => exact ⟨trivial, trivial⟩
    | save content =>
      refine ⟨trivial, ?_⟩
      intro bytes hbytes
      exact hordinary.symm.trans hbytes

/-- Two tasks save at the same time, a chunk is written in between, and the metrics task dies in
the middle of its next save. -/
theorem tasks_keep_apart_interleaved : ∃ s before t after u,
    Daemon.start .wire .wire (.sized 1 1 one_pos one_pos) custom_only fresh_client fresh_dir = .ok s ∧
    (daemon .wire .wire crashdump.SerdeJson.wire_roundTrips).Run
      (Allowed .wire .wire crashdump.SerdeJson.wire_roundTrips) s before t ∧
    (daemon .wire .wire crashdump.SerdeJson.wire_roundTrips).Run
      (Allowed .wire .wire crashdump.SerdeJson.wire_roundTrips) t after u ∧
    t.numbers.kept ≠ [] ∧ t.dumps.saved.delivered ≠ [] ∧ u.numbers.emitted.length = 2 ∧
    (∀ key, (aggregator.stored .wire t.dir).lookup key = t.numbers.saved.lookup key) ∧
    crashdump.parse_state .wire (t.dir.files.lookup crashdump.STATE_FILE_NAME) = t.dumps.saved ∧
    (∃ new, u.numbers.emitted = t.numbers.emitted ++ new ∧
      ∀ m ∈ t.numbers.kept, ∀ m' ∈ new, ¬ (m'.key = m.key ∧ m'.seq = m.seq)) ∧
    ((∀ act ∈ after, act.foreign) →
      spool u.dir.files = spool t.dir.files ∧ next_seq u.dir.files = next_seq t.dir.files) := by
  have htest : (Daemon.start .wire .wire (.sized 1 1 one_pos one_pos) custom_only fresh_client
      fresh_dir).toOption.any (fun s =>
        ((daemon .wire .wire crashdump.SerdeJson.wire_roundTrips).exec (Ordinary .wire) s
          [.numbers (.tick Worker.one_gauge), .numbers (.save ⟨id, fun keys => .refl keys⟩),
            .dumps (.change ⟨[⟨1, 0⟩]⟩), .dumps (.save (crashdump.SerdeJson.wire.to_vec ⟨[⟨1, 0⟩]⟩)),
            .numbers .call, .dumps .call, .logs (.push (entry "a")), .dumps .call, .numbers .call,
            .logs (.push (entry "b")), .numbers .call, .dumps .call]).any (fun t =>
              (t.numbers.kept ≠ [] ∧ t.dumps.saved.delivered ≠ []) ∧
              ((daemon .wire .wire crashdump.SerdeJson.wire_roundTrips).exec (Ordinary .wire) t
                [.numbers (.save ⟨id, fun keys => .refl keys⟩), .numbers .call,
                  .answers [⟨fun _ => true, some 3, fun _ => false⟩], .numbers .call,
                  .numbers (.restart custom_only []), .numbers (.tick Worker.one_gauge)]).any
                    fun u => u.numbers.emitted.length = 2)) = true := by
    decide +kernel
  obtain ⟨s, hstart, htest⟩ := exists_ok_of_any htest
  obtain ⟨t, hbefore, htest⟩ := Machine.exists_run_of_exec _ htest
  obtain ⟨⟨hkept, hsaved⟩, htest⟩ := of_decide_eq_true htest
  obtain ⟨u, hafter, htest⟩ := Machine.exists_run_of_exec _ htest
  have hallowed : ∀ s act, Ordinary .wire s act →
      Allowed .wire .wire crashdump.SerdeJson.wire_roundTrips s act := fun _ _ => Ordinary.allowed
  have hbefore' := hbefore.mono hallowed
  have hafter' := hafter.mono hallowed
  exact ⟨s, _, t, _, u, hstart, hbefore', hafter', hkept, hsaved, of_decide_eq_true htest,
    tasks_keep_apart Ciborium.wire_valueRoundTrips hstart rfl hbefore' hafter'⟩

end Daemon

end spotflowd.orchestrator
