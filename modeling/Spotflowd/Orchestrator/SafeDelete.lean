import Spotflowd.Buffer.Verdicts
import Spotflowd.Orchestrator.MemoryRecovery

open effect chunked fs
open spotflowd.buffer spotflowd.config spotflowd.log_entry spotflowd.mqtt
open spotflowd.mqtt.MqttPublisher (first_failure)

namespace spotflowd.orchestrator

/-- If the chunk is gone, each of its entries has been accepted by the client or is in the
buffer. -/
def SafelyDeleted (c : Ciborium) (path : FileName) (entries : List LogEntry) (s₀ s : System) : Prop :=
  path ∉ s.storage.fs.files → ∀ taken, s.publisher.handed = s₀.publisher.handed ++ taken →
    (entries : Multiset LogEntry) ≤ ↑taken + contents c s.storage

/-- A tick has found the memory empty and picked the chunk at `path`. -/
structure AboutToRead (cfg : ValidBufferConfig) (publisher : MqttPublisher) (path : FileName)
    (bytes : Bytes) (s : System) : Prop where
  tick : s.tick = .read_chunk path
  phase : s.phase = .running
  publisher : s.publisher = publisher
  cfg : s.storage.buf.cfg = cfg
  memory : s.storage.buf.memory = []
  lookup : s.storage.fs.files.lookup path = some bytes

/-- Whatever the verdicts on the file operations are, given the one on the read. -/
def AlwaysSafe (c : Ciborium) (cfg : ValidBufferConfig) (publisher : MqttPublisher)
    (path : FileName) (bytes : Bytes) (read_fails : Bool) : Prop :=
  ∀ s₀ events s, AboutToRead cfg publisher path bytes s₀ →
    s₀.storage.fs.next.1.fails .read = read_fails → (run c).Run Solo s₀ events s →
    s.tick = .idle → SafelyDeleted c path (decoded c bytes) s₀ s

/-- What has to be pushed back, if anything, fits into the memory. -/
def TailFits (c : Ciborium) (cfg : ValidBufferConfig) (outcomes : List Bool)
    (entries : List LogEntry) : Prop :=
  ∀ k, first_failure c outcomes entries = some k →
    batch_start k = 0 ∨ entries.length - batch_start k ≤ cfg.memory_max_entries

theorem pushes_of_solo {c : Ciborium} {s₀ s : System} {events : List Event}
    (hrun : (run c).Run Solo s₀ events s) : pushes events = [] := by
  refine hrun.history (P := fun past _ => pushes past = []) rfl ?_
  rintro past t event u hpast ⟨rfl, -⟩ -
  rw [pushes_append_of_nil rfl, hpast]

variable {c : Ciborium} {cfg : ValidBufferConfig} {publisher : MqttPublisher} {path : FileName}
  {bytes : Bytes}

/-- The step that reads the chunk, with the entries it finds or with none. -/
theorem publish_tick_read {s : System} (hready : AboutToRead cfg publisher path bytes s) :
    (s.storage.fs.next.1.fails .read = false ∧ ∃ entries, c.from_reader bytes = some entries ∧
      publish_tick c s = { s with
        storage := { s.storage with fs := s.storage.fs.next.2 }
        tick := next_disk_batch path entries 0 (chunks PUBLISH_BATCH_SIZE entries) }) ∨
    ((s.storage.fs.next.1.fails .read = true ∨ c.from_reader bytes = none) ∧
      publish_tick c s = { s with
        storage := { s.storage with fs := s.storage.fs.next.2 }
        tick := .delete_chunk path none false }) := by
  obtain ⟨hok, entries, hdecode, hread⟩ | ⟨hcause, e, hread⟩ :=
    Buffer.read_chunk_cases (c := c) hready.lookup
  · exact Or.inl ⟨hok, entries, hdecode, by simp [publish_tick, hready.tick, hread]⟩
  · exact Or.inr ⟨hcause, by simp [publish_tick, hready.tick, hread]⟩

/-- As long as it fits, what is pushed back is in memory and the disk is left alone. -/
def InMemory (cfg : ValidBufferConfig) (d : Dir) (received : List LogEntry) (s : Storage) : Prop :=
  received.length ≤ cfg.memory_max_entries →
    s.buf.cfg = cfg ∧ s.buf.memory = received ∧ s.fs.files = d

theorem follows_inMemory (entries tail : List LogEntry) (d : Dir) :
    FollowsChunk c Solo path entries tail (InMemory cfg d)
      (fun received s => received.length ≤ cfg.memory_max_entries → s.buf.memory = received) where
  push := fun hallowed => nomatch hallowed.1
  push_after := fun hallowed => nomatch hallowed.1
  requeue := fun {s _ received} _ _ _ hinmemory hroom => by
    rw [List.length_append] at hroom
    obtain ⟨hcfg, hmemory, hfiles⟩ := hinmemory (by omega)
    rw [push_all_of_room (by rwa [hmemory, hcfg])]
    exact ⟨hcfg, congrArg (· ++ _) hmemory, hfiles⟩
  delete := fun {s _ _} _ _ hinmemory hroom => by
    rw [(Buffer.delete_chunk_files path s.storage).1]
    exact (hinmemory hroom).2.1

theorem safelyDeleted_of_tailFits {entries : List LogEntry} {s₁ s : System} {events : List Event}
    (hread : s₁.tick = next_disk_batch path entries 0 (chunks PUBLISH_BATCH_SIZE entries))
    (hcfg : s₁.storage.buf.cfg = cfg) (hmemory : s₁.storage.buf.memory = [])
    (hlookup : s₁.storage.fs.files.lookup path = some bytes)
    (hfits : TailFits c cfg s₁.publisher.outcomes entries)
    (hrun : (run c).Run Solo s₁ events s) (hreturned : s.tick = .idle) :
    SafelyDeleted c path entries s₁ s := by
  obtain ⟨hhanded, hdeleted, hkept⟩ :=
    (disk_path (follows_inMemory entries _ s₁.storage.fs.files) (fun _ _ h => h.oneTick) hread
      (fun _ => ⟨hcfg, hmemory, rfl⟩) hrun).returned hreturned
  rw [pushes_of_solo hrun] at hdeleted hkept
  intro hgone taken htaken
  rw [List.append_cancel_left (htaken.symm.trans hhanded)]
  by_cases hdeletes : Deletes c s₁.publisher.outcomes entries
  · obtain ⟨before, after, hsplit, hafter⟩ := hdeleted hdeletes
    obtain ⟨rfl, rfl⟩ := List.append_eq_nil_iff.mp hsplit.symm
    unfold accepted
    cases hfirst : first_failure c s₁.publisher.outcomes entries with
    | none => exact le_self_add
    | some k =>
      have hpos := hdeletes k hfirst
      have hroom := (hfits k hfirst).resolve_left (by omega)
      simp only [chunk_tail, hfirst, List.nil_append, List.append_nil, List.length_reverse,
        List.length_drop] at hafter
      have hsublist : (entries.take (batch_start k)).Sublist (entries.take k) :=
        (List.take_prefix_take_left (batch_start_le k)).sublist
      calc (entries : Multiset LogEntry)
          = ↑(entries.take (batch_start k)) + ↑(entries.drop (batch_start k)) := by
            rw [Multiset.coe_add, List.take_append_drop]
        _ ≤ ↑(entries.take k) + ↑(entries.drop (batch_start k)) := by
            gcongr
            exact hsublist.subperm
        _ ≤ ↑(entries.take k) + contents c s.storage := by
            gcongr
            rw [contents, hafter hroom, Multiset.coe_reverse]
            exact le_self_add
  · obtain ⟨-, -, hfiles⟩ := hkept hdeletes (Nat.zero_le _)
    rw [hfiles] at hgone
    exact absurd (AList.lookup_isSome.mp (by rw [hlookup]; rfl)) hgone

/-- Calls of one kind fail. -/
def failing (call : Call) : Verdict := ⟨fun other => other = call, none, fun _ => false⟩

/-- A tick about to read the only chunk there is. -/
def only_chunk (cfg : ValidBufferConfig) (publisher : MqttPublisher) (path : FileName)
    (bytes : Bytes) (verdicts : List Verdict) : System where
  storage := ⟨⟨cfg, [], true⟩, ⟨some (AList.singleton path bytes), verdicts, [], []⟩⟩
  publisher := publisher
  tick := .read_chunk path
  phase := .running
  pushed := []

theorem aboutToRead_only_chunk (cfg : ValidBufferConfig) (publisher : MqttPublisher)
    (path : FileName) (bytes : Bytes) (verdicts : List Verdict) :
    AboutToRead cfg publisher path bytes (only_chunk cfg publisher path bytes verdicts) :=
  ⟨rfl, rfl, rfl, rfl, rfl, Dir.lookup_singleton _ _⟩

theorem publish_tick_unreadable (verdicts : List Verdict) :
    publish_tick c (only_chunk cfg publisher path bytes (failing .read :: verdicts)) =
      { only_chunk cfg publisher path bytes verdicts with tick := .delete_chunk path none false } := by
  obtain ⟨hok, -⟩ | ⟨-, hread⟩ := publish_tick_read (c := c)
    (aboutToRead_only_chunk cfg publisher path bytes (failing .read :: verdicts))
  · simp [only_chunk, Fs.next, failing] at hok
  · exact hread

theorem publish_tick_readable {entries : List LogEntry} (hdecode : c.from_reader bytes = some entries)
    (verdicts : List Verdict) :
    publish_tick c (only_chunk cfg publisher path bytes (.clean :: verdicts)) =
      { only_chunk cfg publisher path bytes verdicts with
        tick := next_disk_batch path entries 0 (chunks PUBLISH_BATCH_SIZE entries) } := by
  obtain ⟨-, entries', hdecode', hread⟩ | ⟨hcause, -⟩ := publish_tick_read (c := c)
    (aboutToRead_only_chunk cfg publisher path bytes (.clean :: verdicts))
  · rw [hdecode, Option.some.injEq] at hdecode'
    exact hdecode' ▸ hread
  · simp [only_chunk, Fs.next, Verdict.clean, hdecode] at hcause

/-- A chunk that cannot be read is deleted. -/
theorem nil_of_alwaysSafe (hsafe : AlwaysSafe c cfg publisher path bytes true) :
    decoded c bytes = [] := by
  have hready := aboutToRead_only_chunk cfg publisher path bytes [failing .read]
  have hfirst := run_of_tick (c := c) hready.phase (by simp [hready.tick])
  rw [publish_tick_unreadable] at hfirst
  have hdelete : Buffer.delete_chunk path (only_chunk cfg publisher path bytes []).storage =
      .ok () ⟨⟨cfg, [], true⟩, ⟨some ∅, [], [], [(path, bytes)]⟩⟩ := by
    rw [Buffer.delete_chunk_quiet rfl (Dir.lookup_singleton _ _)]
    simp [only_chunk, Fs.files]
  have hsecond := run_of_tick (c := c)
    (s := { only_chunk cfg publisher path bytes [] with tick := .delete_chunk path none false }) rfl
    (by simp)
  simp only [publish_tick, hdelete, finalState_ok] at hsecond
  have hend := hsafe _ _ _ hready rfl (hfirst.trans hsecond) rfl (by simp [Fs.files]) []
    (List.append_nil _).symm
  simpa [contents, disk_entries, Fs.files] using hend

theorem push_all_quiet {entries : List LogEntry} {s : Storage} (hquiet : s.fs.verdicts = []) :
    (push_all c entries s).fs.verdicts = [] := by
  induction entries generalizing s with
  | nil => exact hquiet
  | cons entry entries ih =>
    apply ih
    have huses := Buffer.usesUp_push c entry s
    rw [UsesUp, hquiet, List.suffix_nil] at huses
    exact huses

/-- A directory that cannot be created when the memory overflows: what had been pushed
until then is lost. -/
theorem push_all_uncreatable (hround : c.RoundTrips) {s : Storage} {front rest : List LogEntry}
    {entry : LogEntry} (hfront : front.length = s.buf.cfg.memory_max_entries)
    (hmemory : s.buf.memory = []) (hverdicts : s.fs.verdicts = [failing .create_dir_all])
    (hothers : s.fs.files.total (chunk_entries_except c path) = 0) :
    (push_all c (front ++ entry :: rest) s).fs.verdicts = [] ∧
      AtMost (chunk_entries_except c path) 0 rest (push_all c (front ++ entry :: rest) s) := by
  have hfilled : push_all c front s = { s with buf := { s.buf with memory := front } } := by
    rw [push_all_of_room (by rw [hmemory, List.length_nil, Nat.zero_add, hfront]), hmemory,
      List.nil_append]
  have hsplit : push_all c (front ++ entry :: rest) s =
      push_all c rest (finalState (Buffer.push c entry (push_all c front s))) := by
    rw [push_all, List.foldl_append, List.foldl_cons]
    rfl
  have hfull : (push_all c front s).buf.cfg.memory_max_entries ≤ (push_all c front s).buf.memory.length := by
    rw [hfilled]
    exact hfront.ge
  have hlost := Buffer.push_uncreatable c entry hfull (by rw [hfilled]; simp [Fs.next, hverdicts, failing])
  rw [hsplit, hlost, hfilled]
  constructor
  · apply push_all_quiet
    simp [hverdicts]
  · have hnothing : AtMost (chunk_entries_except c path) 0 []
        { s with buf := { s.buf with memory := [] }, fs := s.fs.next.2 } := by
      simp [AtMost, holdings, hothers]
    exact hnothing.push_all hround (counts_chunk_entries_except c path) rest

theorem follows_lost (hround : c.RoundTrips) {s₁ : Storage} {entries tail front rest : List LogEntry}
    {entry : LogEntry} (hfront : front.length = s₁.buf.cfg.memory_max_entries)
    (hmemory : s₁.buf.memory = []) (hverdicts : s₁.fs.verdicts = [failing .create_dir_all])
    (hothers : s₁.fs.files.total (chunk_entries_except c path) = 0)
    (htail : tail.reverse = front ++ entry :: rest) :
    FollowsChunk c Solo path entries tail
      (fun received s => (received = [] → s = s₁) ∧ (received = tail.reverse →
        s.fs.verdicts = [] ∧ AtMost (chunk_entries_except c path) 0 rest s))
      (fun received s => received = tail.reverse →
        path ∉ s.fs.files ∧ AtMost (chunk_entries c) 0 rest s) where
  push := fun hallowed => nomatch hallowed.1
  push_after := fun hallowed => nomatch hallowed.1
  requeue := fun {s _ received} _ _ _ hrecord => by
    constructor
    · intro hnil
      simp [htail] at hnil
    · intro hreceived
      rw [hrecord.1 (List.append_left_eq_self.mp hreceived), htail]
      exact push_all_uncreatable hround hfront hmemory hverdicts hothers
  delete := fun {s _ received} _ _ hrecord hreceived => by
    obtain ⟨hquiet, hatmost⟩ := hrecord.2 hreceived
    have hgone := Buffer.delete_chunk_gone hquiet path
    refine ⟨hgone, ?_⟩
    have hsame := holdings_except_of_notMem c hgone
    rw [AtMost, show holdings (chunk_entries c) _ = _ from hsame.symm]
    exact (Buffer.delete_chunk_holdings_le _ path s.storage).trans hatmost

/-- The run in which that happens to the tail of a chunk. -/
theorem tail_lost (hround : c.RoundTrips) {s₁ s : System} {events : List Event}
    {entries front rest : List LogEntry} {entry : LogEntry}
    (hread : s₁.tick = next_disk_batch path entries 0 (chunks PUBLISH_BATCH_SIZE entries))
    (hfront : front.length = s₁.storage.buf.cfg.memory_max_entries)
    (hmemory : s₁.storage.buf.memory = [])
    (hverdicts : s₁.storage.fs.verdicts = [failing .create_dir_all])
    (hothers : s₁.storage.fs.files.total (chunk_entries_except c path) = 0)
    (htail : (chunk_tail c s₁.publisher.outcomes entries).reverse = front ++ entry :: rest)
    (hdeletes : Deletes c s₁.publisher.outcomes entries)
    (hrun : (run c).Run Solo s₁ events s) (hreturned : s.tick = .idle) :
    s.publisher.handed = s₁.publisher.handed ++ accepted c s₁.publisher.outcomes entries ∧
      path ∉ s.storage.fs.files ∧ contents c s.storage ≤ ↑rest := by
  obtain ⟨hhanded, hdeleted, -⟩ :=
    (disk_path (follows_lost hround hfront hmemory hverdicts hothers htail) (fun _ _ h => h.oneTick)
      hread ⟨fun _ => rfl, fun hnil => by simp [htail] at hnil⟩ hrun).returned hreturned
  rw [pushes_of_solo hrun] at hdeleted
  obtain ⟨before, after, hsplit, hlost⟩ := hdeleted hdeletes
  obtain ⟨rfl, rfl⟩ := List.append_eq_nil_iff.mp hsplit.symm
  obtain ⟨hgone, hatmost⟩ := hlost (by simp)
  rw [AtMost, zero_add] at hatmost
  exact ⟨hhanded, hgone, hatmost⟩

/-- The last entry of a chunk is the first to be pushed back, so it is lost with the first
memory it fills, and it is not among those accepted before a failure. -/
theorem last_entry_lost {entries : List LogEntry} {start size : Nat} (hnodup : entries.Nodup)
    (hsize : 0 < size) (hlong : size < entries.length - start) :
    ∃ last ∈ entries, ∃ front entry rest, (entries.drop start).reverse = front ++ entry :: rest ∧
      front.length = size ∧ last ∉ rest ∧ ∀ k < entries.length, last ∉ entries.take k := by
  obtain rfl | ⟨init, last, rfl⟩ := List.eq_nil_or_concat entries
  · simp at hlong
  rw [List.concat_eq_append] at hnodup hlong ⊢
  rw [List.length_append, List.length_singleton] at hlong
  have hfresh : last ∉ init := fun hmem =>
    List.disjoint_of_nodup_append hnodup hmem List.mem_cons_self
  have hreverse : ((init ++ [last]).drop start).reverse = last :: (init.drop start).reverse := by
    rw [List.drop_append_of_le_length (by omega), List.reverse_append, List.reverse_singleton,
      List.singleton_append]
  have hbound : size < ((init ++ [last]).drop start).reverse.length := by
    rw [List.length_reverse, List.length_drop, List.length_append, List.length_singleton]
    omega
  obtain ⟨entry, hsplit⟩ : ∃ entry, ((init ++ [last]).drop start).reverse =
      ((init ++ [last]).drop start).reverse.take size ++
        entry :: ((init ++ [last]).drop start).reverse.drop (size + 1) :=
    ⟨((init ++ [last]).drop start).reverse[size], by
      rw [← List.drop_eq_getElem_cons, List.take_append_drop]⟩
  refine ⟨last, by simp, _, entry, _, hsplit, List.length_take_of_le hbound.le, ?_, ?_⟩
  · rw [hreverse]
    intro hmem
    obtain ⟨n, rfl⟩ : ∃ n, size = n + 1 := ⟨size - 1, by omega⟩
    rw [List.drop_succ_cons] at hmem
    exact hfresh (List.mem_of_mem_drop (List.mem_reverse.mp (List.mem_of_mem_drop hmem)))
  · intro k hk hmem
    rw [List.length_append, List.length_singleton] at hk
    rw [List.take_append_of_le_length (by omega)] at hmem
    exact hfresh (List.mem_of_mem_take hmem)

theorem tailFits_of_alwaysSafe (hround : c.RoundTrips) (hnodup : (decoded c bytes).Nodup)
    (hsafe : AlwaysSafe c cfg publisher path bytes false) :
    TailFits c cfg publisher.outcomes (decoded c bytes) := by
  intro k hfirst
  by_contra hover
  rw [not_or, not_le] at hover
  obtain ⟨hpos, hlong⟩ := hover
  have hlt := MqttPublisher.first_failure_lt hfirst
  cases hdecode : c.from_reader bytes with
  | none => simp [decoded, hdecode] at hlt
  | some entries =>
    have hentries : decoded c bytes = entries := by rw [decoded, hdecode, Option.getD_some]
    rw [hentries] at hfirst hlong hlt hnodup
    obtain ⟨last, hlast, front, entry, rest, hsplit, hfront, hrest, htake⟩ :=
      last_entry_lost hnodup cfg.memory_pos hlong
    have hready := aboutToRead_only_chunk cfg publisher path bytes [.clean, failing .create_dir_all]
    have hstart := run_of_tick (c := c) hready.phase (by simp [hready.tick])
    rw [publish_tick_readable hdecode] at hstart
    obtain ⟨n, s, hrun, -, hreturned⟩ := publish_tick_returns c
      { only_chunk cfg publisher path bytes [failing .create_dir_all] with
        tick := next_disk_batch path entries 0 (chunks PUBLISH_BATCH_SIZE entries) } rfl
    have hdeletes : Deletes c publisher.outcomes entries := by
      intro k' hk'
      rw [hfirst, Option.some.injEq] at hk'
      exact hk' ▸ Nat.pos_of_ne_zero hpos
    obtain ⟨hhanded, hgone, hcontents⟩ := tail_lost hround rfl hfront rfl rfl
      (by simp [only_chunk, Fs.files, chunk_entries_except])
      (by simpa [chunk_tail, only_chunk, hfirst] using hsplit) hdeletes hrun hreturned
    have hle := hsafe _ _ _ hready rfl (hstart.trans hrun) hreturned hgone _ hhanded
    rw [hentries, accepted] at hle
    simp only [only_chunk, hfirst] at hle
    have hmem := Multiset.mem_of_le (hle.trans (add_le_add_right hcontents _)) hlast
    rw [Multiset.coe_add, Multiset.mem_coe, List.mem_append] at hmem
    exact hmem.elim (htake k hlt) hrest

/-- When a chunk is only deleted once its content is safe, whatever the verdicts on the file
operations: if it could be read, when the tail to be pushed back, if any, fits into the
memory; if it could not, when it had no entries. For a chunk of distinct entries this is
exactly when. -/
theorem safely_deleted_iff (hround : c.RoundTrips) (cfg : ValidBufferConfig)
    (publisher : MqttPublisher) (path : FileName) (bytes : Bytes) (read_fails : Bool) :
    ((if read_fails then decoded c bytes = []
      else TailFits c cfg publisher.outcomes (decoded c bytes)) →
        AlwaysSafe c cfg publisher path bytes read_fails) ∧
    ((decoded c bytes).Nodup → AlwaysSafe c cfg publisher path bytes read_fails →
      if read_fails then decoded c bytes = []
      else TailFits c cfg publisher.outcomes (decoded c bytes)) := by
  constructor
  · intro hcondition s₀ events s hready hverdict hrun hreturned
    by_cases hempty : decoded c bytes = []
    · intro _ taken _
      rw [hempty]
      exact zero_le
    obtain ⟨rfl, rfl⟩ | ⟨event, rest, s₁, rfl, ⟨rfl, -⟩, hstep, hrest⟩ := hrun.head
    · rw [hready.tick] at hreturned
      cases hreturned
    obtain ⟨-, rfl⟩ := run_tick_eq_some hstep
    obtain ⟨hok, entries, hdecode, hread⟩ | ⟨hcause, -⟩ := publish_tick_read (c := c) hready
    · rw [← hverdict, hok, if_neg Bool.false_ne_true, decoded, hdecode, Option.getD_some,
        ← hready.publisher] at hcondition
      rw [decoded, hdecode, Option.getD_some]
      have hlookup : s₀.storage.fs.next.2.files.lookup path = some bytes := by
        rw [Fs.next_files, hready.lookup]
      have hsafe : SafelyDeleted c path entries (publish_tick c s₀) s := by
        have hcfg : (publish_tick c s₀).storage.buf.cfg = cfg := by rw [hread]; exact hready.cfg
        have hthere : (publish_tick c s₀).storage.fs.files.lookup path = some bytes := by
          rw [hread]
          exact hlookup
        refine safelyDeleted_of_tailFits ?_ hcfg ?_ hthere ?_ hrest hreturned
        all_goals rw [hread]
        · exact hready.memory
        · exact hcondition
      rw [hread] at hsafe
      exact hsafe
    · obtain hfails | hnone := hcause
      · rw [← hverdict, hfails, if_pos rfl] at hcondition
        exact absurd hcondition hempty
      · simp [decoded, hnone] at hempty
  · intro hnodup hsafe
    cases read_fails with
    | true => exact nil_of_alwaysSafe hsafe
    | false => exact tailFits_of_alwaysSafe hround hnodup hsafe

/-- The file of a chunk with one entry. -/
def one_entry : Bytes := (Ciborium.wire.into_writer [entry "a"]).getD []

/-- A chunk whose second batch fails at its second entry, with room for the three entries of that
batch, is only deleted once its content is safe. One that cannot be read is not always safe. -/
theorem safely_deleted_iff_full :
    AlwaysSafe .wire (.sized 3 3 (by decide) (by decide))
        ⟨true, List.replicate 201 true ++ [false], [], []⟩ (chunk_name 1)
        ((Ciborium.wire.into_writer (full_batch ++ [entry "b", entry "c", entry "d"])).getD []) false ∧
      ¬ AlwaysSafe .wire (.sized 3 3 (by decide) (by decide)) ⟨true, [], [], []⟩ (chunk_name 1)
        ((Ciborium.wire.into_writer [entry "a", entry "b", entry "c"]).getD []) true := by
  constructor
  · have hfits : (Ciborium.wire.into_writer
        (full_batch ++ [entry "b", entry "c", entry "d"])).isSome = true := by
      decide +kernel
    have hfirst : first_failure .wire (List.replicate 201 true ++ [false])
        (full_batch ++ [entry "b", entry "c", entry "d"]) = some 201 := by
      decide +kernel
    apply (safely_deleted_iff Ciborium.wire_roundTrips _ _ _ _ false).1
    intro k hk
    rw [decoded, Ciborium.wire_reads_back hfits, Option.getD_some] at hk ⊢
    obtain rfl : 201 = k := Option.some.inj (hfirst.symm.trans hk)
    have hlength : (full_batch ++ [entry "b", entry "c", entry "d"]).length = 203 := by
      rw [List.length_append, full_batch, List.length_replicate]
      rfl
    have hstart : batch_start 201 = 200 := by decide
    rw [hlength, hstart]
    exact Or.inr le_rfl
  · have hdecoded : decoded .wire
        ((Ciborium.wire.into_writer [entry "a", entry "b", entry "c"]).getD []) =
          [entry "a", entry "b", entry "c"] := by
      rw [decoded, Ciborium.wire_reads_back (by decide +kernel), Option.getD_some]
    intro hsafe
    have hnil := (safely_deleted_iff Ciborium.wire_roundTrips _ _ _ _ true).2
      (by rw [hdecoded]; decide) hsafe
    rw [if_pos rfl, hdecoded] at hnil
    cases hnil

/-- A read error is enough: the chunk is deleted, and its entry is neither with the client nor
in the buffer. -/
theorem unread_chunk_is_deleted :
    ∃ s : System, (run .wire).Run Solo (only_chunk (.sized 1 1 (by decide) (by decide))
        ⟨true, [], [], []⟩ (chunk_name 1) one_entry [failing .read]) [.tick, .tick] s ∧
      s.tick = .idle ∧ chunk_name 1 ∉ s.storage.fs.files ∧ s.publisher.handed = [] ∧
      decoded .wire one_entry = [entry "a"] ∧ contents .wire s.storage = 0 := by
  have hexec : ((run .wire).exec Solo (only_chunk (.sized 1 1 (by decide) (by decide))
      ⟨true, [], [], []⟩ (chunk_name 1) one_entry [failing .read]) [.tick, .tick]).any (fun s =>
        s.tick = .idle ∧ chunk_name 1 ∉ s.storage.fs.files ∧ s.publisher.handed = [] ∧
        decoded .wire one_entry = [entry "a"] ∧ contents .wire s.storage = 0) = true := by
    rfl
  obtain ⟨s, hrun, htest⟩ := Machine.exists_run_of_exec _ hexec
  exact ⟨s, hrun, of_decide_eq_true htest⟩

end spotflowd.orchestrator
