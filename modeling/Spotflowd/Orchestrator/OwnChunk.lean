import Spotflowd.Buffer.HeldChunk
import Spotflowd.Orchestrator.Accounting

open effect chunked fs
open spotflowd.buffer spotflowd.config spotflowd.log_entry spotflowd.mqtt

namespace spotflowd.orchestrator

/-- The chunk the tick has picked. -/
def Tick.chunk : Tick → Option FileName
  | .read_chunk path => some path
  | .disk_batch path _ _ _ _ _ => some path
  | .lock_tail path _ _ => some path
  | .delete_chunk path _ _ => some path
  | _ => none

/-- The bytes of a file are what the tick has read, if it has read anything yet. -/
def Tick.has_read (c : Ciborium) : Tick → Bytes → Prop
  | .disk_batch _ entries _ _ _ _, found => c.from_reader found = some entries
  | .lock_tail _ entries _, found => c.from_reader found = some entries
  | .delete_chunk _ result _, found => c.from_reader found = result
  | _, _ => True

/-- The tick is on the disk path, the chunk it has picked is held, or it is over. -/
structure Working (c : Ciborium) (before : List (FileName × Bytes)) (s : System) : Prop where
  holding : ∀ path, s.tick.chunk = some path →
    Holding path (s.tick.has_read c) before s.storage
  ended : s.tick.chunk = none → s.tick = .idle ∨ ∃ locked, s.tick = .sleeping locked

/-- The steps of one tick in which every overflow leaves a chunk in the spool. -/
def SparingTick (c : Ciborium) (s : System) : Event → Prop
  | .push _ => PushSpares c s.storage
  | .link _ => True
  | .tick => s.tick ≠ .idle ∧ TickPushes c (PushSpares c) s.storage s.tick
  | .shutdown => False
  | .flush => False

instance (c : Ciborium) (s : System) : (event : Event) → Decidable (SparingTick c s event)
  | .push _ => inferInstanceAs (Decidable (PushSpares c s.storage))
  | .link _ => inferInstanceAs (Decidable True)
  | .tick =>
    inferInstanceAs (Decidable (s.tick ≠ .idle ∧ TickPushes c (PushSpares c) s.storage s.tick))
  | .shutdown => inferInstanceAs (Decidable False)
  | .flush => inferInstanceAs (Decidable False)

variable {c : Ciborium} {before : List (FileName × Bytes)}

theorem Working.of_over {s : System} (htick : s.tick = .idle ∨ ∃ locked, s.tick = .sleeping locked) :
    Working c before s := by
  refine ⟨?_, fun _ => htick⟩
  intro path hpath
  obtain htick | ⟨locked, htick⟩ := htick
  · rw [htick] at hpath
    cases hpath
  · rw [htick] at hpath
    cases hpath

theorem Working.of_holding {s : System} {path : FileName} {content : Bytes → Prop}
    (hchunk : s.tick.chunk = some path) (hcontent : s.tick.has_read c = content)
    (hholding : Holding path content before s.storage) : Working c before s := by
  constructor
  · intro path' hpath'
    rw [hchunk, Option.some.injEq] at hpath'
    rwa [← hpath', hcontent]
  · intro hnone
    rw [hchunk] at hnone
    cases hnone

/-- What the tick picks is held from then on. -/
theorem working_pick {s : System} (hquiet : s.storage.fs.verdicts = []) (htick : s.tick = .lock_disk) :
    Working c s.storage.fs.renamed (publish_tick c s) := by
  obtain ⟨next, storage, hnext, hfs, -, -, hnewest⟩ := Buffer.next_disk_chunk_quiet hquiet
  rw [publish_tick, htick]
  simp only [hnext]
  cases next with
  | none => exact .of_over (Or.inr ⟨false, rfl⟩)
  | some path =>
    refine .of_holding rfl rfl ⟨?_, ?_, [], ?_, ?_⟩
    · rw [hfs]
      exact hquiet
    · simp only [hfs]
      exact held_newest (hnewest path rfl)
    · simp [hfs]
    · intro file hfile
      cases hfile

theorem Working.push {s t : System} {entry : LogEntry} (hworking : Working c before s)
    (hspares : PushSpares c s.storage) (hingest : ingest c entry s = some t) :
    Working c before t := by
  obtain ⟨hstorage, htick⟩ : t.storage = finalState (Buffer.push c entry s.storage) ∧
      t.tick = s.tick := by
    obtain ⟨-, ⟨storage, hpush, rfl⟩ | ⟨e, storage, hpush, rfl⟩⟩ := ingest_cases hingest
    · simp [hpush]
    · simp [hpush]
  constructor
  · intro path hpath
    rw [htick] at hpath ⊢
    rw [hstorage]
    exact Buffer.push_holding c entry (hworking.holding path hpath) hspares
  · rw [htick]
    exact hworking.ended

theorem push_all_holding {path : FileName} {content : Bytes → Prop} {entries : List LogEntry}
    {s : Storage} (hholding : Holding path content before s)
    (heach : BeforeEach c (PushSpares c) entries s) :
    Holding path content before (push_all c entries s) :=
  @push_all_each_extends c (PushSpares c) (fun _ s => Holding path content before s)
    (fun entry _ _ hholding hspares => Buffer.push_holding c entry hholding hspares) entries [] s
    hholding heach

theorem working_disk_done {s : System} {path : FileName} {entries : List LogEntry} {published : Nat}
    (hholding : Holding path (fun found => c.from_reader found = some entries) before s.storage)
    (htick : s.tick = disk_done path entries published) : Working c before s := by
  unfold disk_done at htick
  split at htick
  · exact .of_holding (by rw [htick]; rfl) (by rw [htick]; rfl) hholding
  · split at htick
    · exact .of_holding (by rw [htick]; rfl) (by rw [htick]; rfl) hholding
    · exact .of_over (Or.inl htick)

theorem working_next_disk_batch {s : System} {path : FileName} {entries : List LogEntry}
    {published : Nat} {batches : List (List LogEntry)}
    (hholding : Holding path (fun found => c.from_reader found = some entries) before s.storage)
    (htick : s.tick = next_disk_batch path entries published batches) : Working c before s := by
  cases batches with
  | nil => exact working_disk_done hholding htick
  | cons batch later => exact .of_holding (by rw [htick]; rfl) (by rw [htick]; rfl) hholding

theorem Working.tick {s : System} (hworking : Working c before s)
    (hallowed : SparingTick c s .tick) : Working c before (publish_tick c s) := by
  obtain ⟨hidle, hpushes⟩ := hallowed
  unfold publish_tick
  cases htick : s.tick with
  | idle => exact absurd htick hidle
  | sleeping locked => exact .of_over (Or.inl rfl)
  | read_chunk path =>
    obtain ⟨hquiet, hheld, hunwritten⟩ := hworking.holding path (by rw [htick]; rfl)
    cases hlookup : s.storage.fs.files.lookup path with
    | none =>
      obtain ⟨e, hread⟩ := Buffer.read_chunk_quiet_missing (c := c) hquiet hlookup
      simp only [hread]
      refine .of_holding rfl rfl ⟨hquiet, hheld.mono ?_, hunwritten⟩
      intro found hfound
      rw [hlookup] at hfound
      cases hfound
    | some bytes =>
      have hsame : ∀ result, c.from_reader bytes = result → ∀ found,
          s.storage.fs.files.lookup path = some found → c.from_reader found = result := by
        intro result hresult found hfound
        rw [hlookup] at hfound
        cases hfound
        exact hresult
      obtain ⟨entries, hdecode, hread⟩ | ⟨hdecode, e, hread⟩ :=
        Buffer.read_chunk_quiet (c := c) hquiet hlookup
      · simp only [hread]
        exact working_next_disk_batch ⟨hquiet, hheld.mono (hsame _ hdecode), hunwritten⟩ rfl
      · simp only [hread]
        exact .of_holding rfl rfl ⟨hquiet, hheld.mono (hsame _ hdecode), hunwritten⟩
  | disk_batch path entries published sent unsent later =>
    have hholding := hworking.holding path (by rw [htick]; rfl)
    rw [htick] at hholding
    cases unsent with
    | nil => exact working_next_disk_batch hholding rfl
    | cons entry unsent =>
      simp only
      split
      · exact .of_holding rfl rfl hholding
      · exact working_disk_done hholding rfl
  | lock_tail path entries published =>
    have hholding := hworking.holding path (by rw [htick]; rfl)
    rw [htick] at hholding hpushes
    exact .of_holding rfl rfl (push_all_holding hholding hpushes)
  | delete_chunk path result locked => exact .of_over (Or.inl rfl)
  | _ =>
    have hover := hworking.ended (by rw [htick]; rfl)
    rw [htick] at hover
    simp at hover

theorem Working.step {s t : System} {event : Event} (hworking : Working c before s)
    (hallowed : SparingTick c s event) (hstep : (run c).step s event = some t) :
    Working c before t := by
  cases event with
  | push entry => exact hworking.push hallowed hstep
  | link connected =>
    cases hstep
    exact ⟨hworking.holding, hworking.ended⟩
  | tick =>
    obtain ⟨-, rfl⟩ := run_tick_eq_some hstep
    exact hworking.tick hallowed
  | shutdown => exact hallowed.elim
  | flush => exact hallowed.elim

/-- A tick deletes the chunk it has read. As long as no overflow in between empties the
spool of chunks, the file a tick deletes, if it is still there, has the content the tick
has read, and it is no chunk that was written after the tick picked its path. -/
theorem deletes_chunk_it_read {s₀ s : System} {events : List Event} {path : FileName}
    {result : Option (List LogEntry)} {locked : Bool} (hquiet : s₀.storage.fs.verdicts = [])
    (hstart : s₀.tick = .lock_disk)
    (hrun : (run c).Run (SparingTick c) (publish_tick c s₀) events s)
    (hdelete : s.tick = .delete_chunk path result locked) :
    (publish_tick c s).storage.fs.removed = s.storage.fs.removed ∨
      ∃ bytes, (publish_tick c s).storage.fs.removed = s.storage.fs.removed ++ [(path, bytes)] ∧
        c.from_reader bytes = result ∧
        ∀ file ∈ s.storage.fs.renamed.drop s₀.storage.fs.renamed.length, file.1 ≠ path := by
  have hworking : Working c s₀.storage.fs.renamed s :=
    hrun.invariant (working_pick hquiet hstart) fun _ _ _ hworking hallowed hstep =>
      hworking.step hallowed hstep
  have hholding := hworking.holding path (by rw [hdelete]; rfl)
  rw [hdelete] at hholding
  obtain ⟨hquiet', hheld, written, hrenamed, hne⟩ := hholding
  rw [publish_tick, hdelete]
  simp only
  cases hlookup : s.storage.fs.files.lookup path with
  | none =>
    rw [Buffer.delete_chunk_quiet_missing hquiet' hlookup]
    exact Or.inl rfl
  | some bytes =>
    rw [Buffer.delete_chunk_quiet hquiet' hlookup, finalState_ok]
    refine Or.inr ⟨bytes, rfl, hheld.content bytes hlookup, ?_⟩
    rw [hrenamed, List.drop_left]
    exact hne

/-- A daemon about to pick the only chunk, next to another file of the given size. -/
def beside (size : Nat) : System where
  storage := ⟨⟨.sized 1 1 Nat.one_pos Nat.one_pos, [], true⟩,
    ⟨some (AList.insert (chunk_name 1) ((Ciborium.wire.into_writer [entry "a"]).getD [])
      (AList.singleton "core" (List.replicate size 0))), [], [], []⟩⟩
  publisher := ⟨true, [], [], []⟩
  tick := .lock_disk
  phase := .running
  pushed := []

/-- An overflow in between writes a second chunk. -/
theorem deletes_chunk_it_read_overflow :
    ∃ (s : System) (bytes : Bytes),
      (publish_tick .wire s).storage.fs.removed = s.storage.fs.removed ++ [(chunk_name 1, bytes)] ∧
      Ciborium.wire.from_reader bytes = some [entry "a"] ∧
      ∀ file ∈ s.storage.fs.renamed, file.1 ≠ chunk_name 1 := by
  have hexec : ((run .wire).exec (SparingTick .wire) (publish_tick .wire (beside 1))
      [.tick, .push (entry "b"), .push (entry "c"), .tick, .tick]).any (fun s =>
        s.tick = .delete_chunk (chunk_name 1) (some [entry "a"]) false ∧
          (publish_tick .wire s).storage.fs.removed ≠ s.storage.fs.removed) = true := by
    decide +kernel
  obtain ⟨s, hrun, htest⟩ := Machine.exists_run_of_exec _ hexec
  obtain ⟨hdelete, hremoves⟩ := of_decide_eq_true htest
  obtain hsame | ⟨bytes, hremoved, hdecode, hwritten⟩ :=
    deletes_chunk_it_read (by rfl) (by rfl) hrun hdelete
  · exact absurd hsame hremoves
  · exact ⟨s, bytes, hremoved, hdecode, hwritten⟩

theorem beside_files (size : Nat) : (beside size).storage.fs.files =
    AList.insert (chunk_name 1) ((Ciborium.wire.into_writer [entry "a"]).getD [])
      (AList.singleton "core" (List.replicate size 0)) := rfl

theorem beside_keys (size : Nat) : (beside size).storage.fs.files.keys = [chunk_name 1, "core"] := by
  have hne : chunk_name 1 ∉ ["core"] := by decide
  rw [beside_files, AList.keys_insert, AList.keys_singleton, List.erase_of_not_mem hne]

theorem beside_other_bytes (size : Nat) : other_bytes (beside size).storage.fs.files = size := by
  have hcore : is_chunk_file "core" = false := by rfl
  rw [beside_files, other_bytes, Dir.total_insert_of_zero _ _ (by simp), Dir.total_singleton]
  simp [hcore]

/-- Steps up to the publish: the chunk has been read. -/
theorem beside_read (size : Nat) :
    (run .wire).Run OneTick (publish_tick .wire (beside size)) [.tick]
      { beside size with tick := .disk_batch (chunk_name 1) [entry "a"] 0 [] [entry "a"] [] } := by
  have hpick : publish_tick .wire (beside size) =
      { beside size with tick := .read_chunk (chunk_name 1) } := by
    have hnewest : newest_chunk (beside size).storage.fs.files = some (chunk_name 1) := by
      rw [newest_chunk, beside_keys]
      rfl
    have hnext := Buffer.next_disk_chunk_of_newest (s := (beside size).storage) rfl rfl hnewest
    rw [publish_tick, show (beside size).tick = .lock_disk from rfl]
    simp only [hnext]
  have hlookup : (beside size).storage.fs.files.lookup (chunk_name 1) =
      some ((Ciborium.wire.into_writer [entry "a"]).getD []) := by
    rw [beside_files, AList.lookup_insert]
  have hdecode : Ciborium.wire.from_reader ((Ciborium.wire.into_writer [entry "a"]).getD []) =
      some [entry "a"] := by
    rfl
  have hread : Buffer.read_chunk .wire (chunk_name 1) (beside size).storage =
      .ok [entry "a"] (beside size).storage := by
    obtain ⟨entries, hsome, hread⟩ | ⟨hnone, -⟩ := Buffer.read_chunk_quiet (c := .wire) rfl hlookup
    · rw [hdecode, Option.some.injEq] at hsome
      rw [hread, hsome]
    · rw [hdecode] at hnone
      cases hnone
  rw [hpick]
  refine .single ?_ ?_
  · exact Tick.noConfusion
  · simp only [run, publish_tick, hread]
    rfl

/-- With another file over the limit, an overflow evicts the chunk and takes its name. -/
theorem beside_overflow {size : Nat} (hsize : 64 * 1024 * 1024 < size) :
    ∃ (s t : Storage) (bytes : Bytes), Buffer.push .wire (entry "b") (beside size).storage = .ok () s ∧
      Buffer.push .wire (entry "c") s = .ok () t ∧
      t.fs.verdicts = [] ∧ (chunk_name 1, bytes) ∈ t.fs.renamed ∧
      t.fs.files.lookup (chunk_name 1) = some bytes ∧
      Ciborium.wire.from_reader bytes = some [entry "b"] := by
  obtain ⟨bytes, hbytes⟩ : ∃ bytes, Ciborium.wire.into_writer [entry "b"] = some bytes :=
    Option.isSome_iff_exists.mp (by rfl)
  have hunnumbered : ∀ p ∈ (beside size).storage.fs.files,
      is_chunk_file p = false → sequence_number p = none := by
    intro p hp hchunk
    have hkeys : p ∈ [chunk_name 1, "core"] := beside_keys size ▸ AList.mem_keys.mp hp
    obtain rfl | hp := List.mem_cons.mp hkeys
    · rw [is_chunk_file_chunk_name] at hchunk
      cases hchunk
    · rw [List.mem_singleton.mp hp]
      rfl
  have hcrowded : (beside size).storage.buf.max_bytes < other_bytes (beside size).storage.fs.files := by
    have hlimit : (beside size).storage.buf.max_bytes = 64 * 1024 * 1024 := by
      rw [Buffer.max_bytes, show (beside size).storage.buf.cfg.disk_max_size_mb = 64 from rfl]
      omega
    rw [beside_other_bytes, hlimit]
    exact hsize
  have hroom : (beside size).storage.buf.memory.length <
      (beside size).storage.buf.cfg.memory_max_entries := Nat.one_pos
  have hfirst := Buffer.push_of_room (c := .wire) (entry "b") hroom
  obtain ⟨t, hpush, hquiet, hrenamed, hlookup⟩ := Buffer.push_restarts (c := .wire) (entry "c")
    (s := { (beside size).storage with buf := { (beside size).storage.buf with
      memory := (beside size).storage.buf.memory ++ [entry "b"] } })
    rfl le_rfl le_rfl hbytes hcrowded hunnumbered
  exact ⟨_, t, bytes, hfirst, hpush, hquiet, hrenamed, hlookup,
    Ciborium.wire_roundTrips _ _ hbytes⟩

/-- The tick deletes a chunk that was written after it had read the one it has published:
the entries of the new chunk are gone. -/
theorem newer_chunk_is_deleted :
    ∃ (s₀ s : System) (events : List Event) (bytes : Bytes),
      s₀.storage.fs.verdicts = [] ∧ s₀.tick = .lock_disk ∧
      (run .wire).Run OneTick (publish_tick .wire s₀) events s ∧ s.storage.fs.verdicts = [] ∧
      s.tick = .delete_chunk (chunk_name 1) (some [entry "a"]) false ∧
      (chunk_name 1, bytes) ∈ s.storage.fs.renamed.drop s₀.storage.fs.renamed.length ∧
      (publish_tick .wire s).storage.fs.removed =
        s.storage.fs.removed ++ [(chunk_name 1, bytes)] ∧
      Ciborium.wire.from_reader bytes = some [entry "b"] := by
  have hsize : 64 * 1024 * 1024 < 64 * 1024 * 1024 + 1 := Nat.lt_succ_self _
  generalize 64 * 1024 * 1024 + 1 = size at hsize
  obtain ⟨s, t, bytes, hfirst, hsecond, hquiet, hrenamed, hlookup, hdecode⟩ := beside_overflow hsize
  obtain ⟨publisher, hpublish⟩ : ∃ publisher, MqttPublisher.publish_entry .wire (entry "a")
      (beside size).publisher = .ok () publisher := by
    have hok : passes (fun _ _ => true)
        (MqttPublisher.publish_entry .wire (entry "a") (beside 0).publisher) = true := by
      rfl
    obtain ⟨_, publisher, hpublish, -⟩ := exists_ok_of_passes hok
    exact ⟨publisher, hpublish⟩
  have hrun : (run .wire).Run OneTick (publish_tick .wire (beside size))
      [.tick, .push (entry "b"), .push (entry "c"), .tick, .tick]
      { beside size with
        storage := t
        publisher := publisher
        tick := .delete_chunk (chunk_name 1) (some [entry "a"]) false
        pushed := [entry "b", entry "c"] } := by
    have hpushed := (beside_read size).snoc (show OneTick _ (.push (entry "b")) from trivial)
      (by simp only [run, ingest, hfirst]; rfl)
    have hflushed := hpushed.snoc (show OneTick _ (.push (entry "c")) from trivial)
      (by simp only [run, ingest, hsecond]; rfl)
    have hpublished := hflushed.snoc (show OneTick _ .tick from Tick.noConfusion)
      (by simp only [run, publish_tick, hpublish]; rfl)
    have hdone := hpublished.snoc (show OneTick _ .tick from Tick.noConfusion)
      (by simp only [run, publish_tick]; rfl)
    exact hdone
  refine ⟨beside size, _, _, bytes, rfl, rfl, hrun, hquiet, rfl, hrenamed, ?_, hdecode⟩
  simp only [publish_tick]
  rw [Buffer.delete_chunk_quiet hquiet hlookup, finalState_ok]

end spotflowd.orchestrator
