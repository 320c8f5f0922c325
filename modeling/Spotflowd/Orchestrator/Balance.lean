import Spotflowd.Orchestrator.Accounting

open effect fs chunked
open spotflowd.buffer spotflowd.log_entry spotflowd.mqtt

namespace spotflowd.orchestrator

/-- Entries the tick has drained from memory and not yet handed over. -/
def Tick.in_flight : Tick → List LogEntry
  | .memory_batch _ unsent later => unsent ++ later.flatten
  | .lock_requeue batch => batch
  | _ => []

/-- Entries of the held chunk that are accounted for elsewhere while the chunk is still there. -/
def Tick.handed_from_chunk : Tick → List LogEntry
  | .disk_batch _ entries published sent _ _ => entries.take published ++ sent
  | .lock_tail _ entries published => entries.take published
  | .delete_chunk _ result _ => result.getD []
  | _ => []

/-- The batches that are dropped if the next entry is refused. -/
def Tick.at_stake : Tick → List LogEntry
  | .memory_batch _ _ later => later.flatten
  | _ => []

/-- What the running batch has already handed over. -/
def Tick.sent : Tick → List LogEntry
  | .memory_batch sent _ _ => sent
  | .disk_batch _ _ _ sent _ _ => sent
  | _ => []

/-- The tick is about to push entries back. -/
def Tick.recovering : Tick → Prop
  | .lock_requeue _ => True
  | .lock_tail _ _ _ => True
  | _ => False

theorem TickFits.of_not_recovering {c : Ciborium} {s : Storage} {tick : Tick}
    (hcalm : ¬ tick.recovering) : TickFits c s tick := by
  cases tick with
  | lock_requeue batch => exact absurd trivial hcalm
  | lock_tail path entries published => exact absurd trivial hcalm
  | _ => trivial

/-- Where entries can be: in the buffer, with the tick or with the client. -/
def held (c : Ciborium) (s : System) : Multiset LogEntry :=
  contents c s.storage + ↑s.tick.in_flight + ↑s.publisher.handed

/-- The chunk file at `path` decodes to `entries` (to nothing if it does not decode). -/
def Holds (c : Ciborium) (d : Dir) (path : FileName) (entries : List LogEntry) : Prop :=
  is_chunk_file path = true ∧ ∃ bytes, d.lookup path = some bytes ∧ decoded c bytes = entries

/-- The chunk a tick works on is there, with the entries the tick has read. -/
def Tick.Holding (c : Ciborium) (d : Dir) : Tick → Prop
  | .read_chunk path => ∃ entries, Holds c d path entries
  | .disk_batch path entries published sent unsent later =>
    Holds c d path entries ∧ published ≤ entries.length ∧
      entries.drop published = sent ++ unsent ++ later.flatten
  | .lock_tail path entries _ => Holds c d path entries
  | .delete_chunk path result _ => Holds c d path (result.getD [])
  | _ => True

theorem Tick.Holding.mono {c : Ciborium} {d d' : Dir} {tick : Tick} (hholding : tick.Holding c d)
    (hkept : ∀ name content, is_chunk_file name = true → d.lookup name = some content →
      d'.lookup name = some content) : tick.Holding c d' := by
  have hholds : ∀ path entries, Holds c d path entries → Holds c d' path entries :=
    fun path entries ⟨hchunk, bytes, hlookup, hdecoded⟩ =>
      ⟨hchunk, bytes, hkept path bytes hchunk hlookup, hdecoded⟩
  cases tick with
  | read_chunk path => exact hholding.imp fun _ => hholds _ _
  | disk_batch path entries published sent unsent later => exact ⟨hholds _ _ hholding.1, hholding.2⟩
  | lock_tail path entries published => exact hholds _ _ hholding
  | delete_chunk path result held => exact hholds _ _ hholding
  | _ => exact hholding

/-- No file operation fails, and the chunk the tick works on is as it was read. -/
structure Intact (c : Ciborium) (s : System) : Prop where
  quiet : s.storage.fs.verdicts = []
  holding : s.tick.Holding c s.storage.fs.files

variable {c : Ciborium}

/-- A push that succeeds adds its entry and disturbs nothing the tick works on. -/
theorem ingest_balance (hround : c.RoundTrips) {s t : System} {entry : LogEntry}
    (hintact : Intact c s) (hfits : PushFits c s.storage) (hingest : ingest c entry s = some t) :
    Intact c t ∧ held c t = held c s + {entry} ∧ t.pushed = s.pushed ++ [entry] ∧
      t.tick = s.tick ∧ t.phase = s.phase := by
  obtain ⟨storage, flushed, hpush, hgrows, hcontents⟩ := Buffer.push_fits hround entry hfits
  obtain ⟨-, ⟨storage', hpush', rfl⟩ | ⟨e, storage', hpush', -⟩⟩ := ingest_cases hingest
  · rw [hpush] at hpush'
    cases hpush'
    refine ⟨⟨hgrows.quiet, hintact.holding.mono hgrows.kept⟩, ?_, rfl, rfl, rfl⟩
    simp only [held, hcontents]
    abel
  · rw [hpush] at hpush'
    cases hpush'

/-- What a step of the tick moves around: nothing is lost but `lost`, and nothing counts
twice but `again`. -/
structure Moves (c : Ciborium) (s t : System) (lost again : List LogEntry) : Prop where
  intact : Intact c t
  balance : held c t + ↑s.tick.handed_from_chunk + ↑lost =
    held c s + ↑t.tick.handed_from_chunk + ↑again

/-- A step after which everything is where it was. -/
theorem Moves.still {s t : System} (hintact : Intact c t) (hheld : held c t = held c s)
    (hhanded : t.tick.handed_from_chunk = s.tick.handed_from_chunk) : Moves c s t [] [] :=
  ⟨hintact, by rw [hheld, hhanded]⟩

/-- A step of the tick that leaves the buffer and the client alone. -/
theorem Moves.tick {s : System} {tick : Tick} (hquiet : s.storage.fs.verdicts = [])
    (hholding : tick.Holding c s.storage.fs.files) (hflight : tick.in_flight = s.tick.in_flight)
    (hhanded : tick.handed_from_chunk = s.tick.handed_from_chunk) :
    Moves c s { s with tick := tick } [] [] :=
  .still ⟨hquiet, hholding⟩ (by simp only [held, hflight]) hhanded

/-- The step loses nothing, counts nothing twice and leads to no recovery. -/
def Calm (c : Ciborium) (s t : System) : Prop := Moves c s t [] [] ∧ ¬ t.tick.recovering

theorem next_memory_batch_spec (d : Dir) (batches : List (List LogEntry)) :
    (next_memory_batch batches).Holding c d ∧ ¬ (next_memory_batch batches).recovering ∧
      (next_memory_batch batches).in_flight = batches.flatten ∧
      (next_memory_batch batches).handed_from_chunk = [] := by
  cases batches with
  | nil => exact ⟨trivial, id, rfl, rfl⟩
  | cons batch later => exact ⟨trivial, id, rfl, rfl⟩

/-- The end of the disk path: the chunk is still there, and what has been published of it
is remembered. -/
theorem disk_done_spec {d : Dir} {path : FileName} {entries : List LogEntry} (published : Nat)
    (hholds : Holds c d path entries) :
    (disk_done path entries published).Holding c d ∧
      (disk_done path entries published).in_flight = [] ∧
      (disk_done path entries published).handed_from_chunk = entries.take published := by
  unfold disk_done
  split
  · next hall =>
    subst hall
    exact ⟨hholds, rfl, by simp [Tick.handed_from_chunk]⟩
  · split
    · exact ⟨hholds, rfl, rfl⟩
    · next hnone =>
      obtain rfl : published = 0 := by omega
      exact ⟨trivial, rfl, rfl⟩

/-- The end of a batch of the held chunk: on to the next one, or to the deletion. -/
theorem next_disk_batch_spec {d : Dir} {path : FileName} {entries : List LogEntry} {published : Nat}
    {batches : List (List LogEntry)} (hholds : Holds c d path entries)
    (hpublished : published ≤ entries.length) (hrest : entries.drop published = batches.flatten) :
    (next_disk_batch path entries published batches).Holding c d ∧
      ¬ (next_disk_batch path entries published batches).recovering ∧
      (next_disk_batch path entries published batches).in_flight = [] ∧
      (next_disk_batch path entries published batches).handed_from_chunk =
        entries.take published := by
  cases batches with
  | nil =>
    have hall : published = entries.length :=
      le_antisymm hpublished (List.drop_eq_nil_iff.mp hrest)
    obtain ⟨hholding, hflight, htaken⟩ := disk_done_spec published hholds
    refine ⟨hholding, ?_, hflight, htaken⟩
    rw [next_disk_batch, disk_done, if_pos hall]
    exact id
  | cons batch later =>
    refine ⟨⟨hholds, hpublished, by simpa using hrest⟩, id, rfl, ?_⟩
    simp [next_disk_batch, Tick.handed_from_chunk]

/-- A batch of the held chunk has been published: on to what comes after it. -/
theorem drop_published {entries sent rest : List LogEntry} {published : Nat}
    (hpublished : published ≤ entries.length) (hrest : entries.drop published = sent ++ rest) :
    published + sent.length ≤ entries.length ∧
      entries.drop (published + sent.length) = rest ∧
      entries.take (published + sent.length) = entries.take published ++ sent := by
  have hlength := congrArg List.length hrest
  rw [List.length_drop, List.length_append] at hlength
  refine ⟨by omega, ?_, ?_⟩
  · rw [← List.drop_drop, hrest, List.drop_left]
  · rw [List.take_add, hrest, List.take_left]

theorem lock_memory_calm {s : System} (hquiet : s.storage.fs.verdicts = []) (htick : s.tick = .lock_memory) :
    Calm c s (publish_tick c s) := by
  unfold publish_tick
  simp only [htick]
  split
  · obtain ⟨hnext, hcalm, hflight, hhanded⟩ := next_memory_batch_spec (c := c) s.storage.fs.files
      (chunks PUBLISH_BATCH_SIZE s.storage.buf.drain_memory.1)
    rw [flatten_chunks (by decide)] at hflight
    refine ⟨.still ⟨hquiet, hnext⟩ ?_ (by rw [htick, hhanded]; rfl), hcalm⟩
    simp only [held, htick, hflight]
    simp only [contents, Buffer.drain_memory, Tick.in_flight, Multiset.coe_nil]
    abel
  · exact ⟨.tick hquiet trivial (by rw [htick]; rfl) (by rw [htick]; rfl), id⟩

theorem memory_batch_calm {s : System} (hquiet : s.storage.fs.verdicts = []) (haccepts : Accepts c s)
    {sent unsent : List LogEntry} {later : List (List LogEntry)}
    (htick : s.tick = .memory_batch sent unsent later) : Calm c s (publish_tick c s) := by
  unfold publish_tick
  cases unsent with
  | nil =>
    obtain ⟨hnext, hcalm, hflight, hhanded⟩ :=
      next_memory_batch_spec (c := c) s.storage.fs.files later
    simp only [htick]
    exact ⟨.tick hquiet hnext (by rw [htick, hflight]; rfl) (by rw [htick, hhanded]; rfl), hcalm⟩
  | cons entry unsent =>
    obtain ⟨publisher, hpublish⟩ := haccepts entry (by rw [htick]; rfl)
    have hhanded := (MqttPublisher.publish_entry_ok hpublish).1
    simp only [htick, hpublish]
    refine ⟨.still ⟨hquiet, trivial⟩ ?_ (by rw [htick]; rfl), id⟩
    simp only [held, htick, Tick.in_flight, hhanded, List.cons_append, ← Multiset.cons_coe,
      ← Multiset.singleton_add, ← Multiset.coe_add, Multiset.coe_nil]
    abel

theorem lock_requeue_calm (hround : c.RoundTrips) {s : System} (hquiet : s.storage.fs.verdicts = [])
    (hfits : TickFits c s.storage s.tick) {batch : List LogEntry} (htick : s.tick = .lock_requeue batch) :
    Calm c s (publish_tick c s) := by
  unfold publish_tick
  rw [htick] at hfits
  have hstart : Adds c (contents c s.storage) [] s.storage := ⟨hquiet, by simp⟩
  have hadds := push_all_each_extends (fun entry _ _ hadds hfits => hadds.push hround entry hfits)
    hstart hfits
  simp only [htick]
  refine ⟨.still ⟨hadds.1, trivial⟩ ?_ (by rw [htick]; rfl), id⟩
  simp only [held, htick, hadds.2, Tick.in_flight, List.nil_append, Multiset.coe_nil, add_zero]

theorem lock_disk_calm {s : System} (hquiet : s.storage.fs.verdicts = []) (htick : s.tick = .lock_disk) :
    Calm c s (publish_tick c s) := by
  unfold publish_tick
  obtain ⟨next, storage, hnext, hfs, hmemory, hcfg, hnewest⟩ := Buffer.next_disk_chunk_quiet hquiet
  have hcontents : contents c storage = contents c s.storage := by
    simp only [contents, hmemory, hfs]
  cases next with
  | none =>
    simp only [htick, hnext]
    refine ⟨.still ⟨by rw [hfs]; exact hquiet, trivial⟩ ?_ (by rw [htick]; rfl), id⟩
    simp only [held, htick, hcontents]
    rfl
  | some path =>
    simp only [htick, hnext]
    obtain ⟨hmem, hchunk, -⟩ := newest_chunk_spec (hnewest path rfl)
    obtain ⟨bytes, hlookup⟩ := Option.isSome_iff_exists.mp (AList.lookup_isSome.mpr hmem)
    refine ⟨.still ⟨by rw [hfs]; exact hquiet, ?_⟩ ?_ (by rw [htick]; rfl), id⟩
    · rw [hfs]
      exact ⟨_, hchunk, bytes, hlookup, rfl⟩
    · simp only [held, htick, hcontents]
      rfl

theorem read_chunk_calm {s : System} (hquiet : s.storage.fs.verdicts = [])
    (hholding : s.tick.Holding c s.storage.fs.files) {path : FileName} (htick : s.tick = .read_chunk path) :
    Calm c s (publish_tick c s) := by
  unfold publish_tick
  rw [htick] at hholding
  obtain ⟨_, hchunk, bytes, hlookup, -⟩ := hholding
  obtain ⟨entries, hdecode, hread⟩ | ⟨hdecode, e, hread⟩ :=
    Buffer.read_chunk_quiet (c := c) hquiet hlookup
  · simp only [htick, hread]
    have hholds : Holds c s.storage.fs.files path entries :=
      ⟨hchunk, bytes, hlookup, by simp [decoded, hdecode]⟩
    have hall : entries.drop 0 = (chunks PUBLISH_BATCH_SIZE entries).flatten := by
      rw [flatten_chunks (by decide)]
      rfl
    obtain ⟨hnext, hcalm, hflight, hhanded⟩ := next_disk_batch_spec hholds (Nat.zero_le _) hall
    exact ⟨.tick hquiet hnext (by rw [htick, hflight]; rfl) (by rw [htick, hhanded]; rfl), hcalm⟩
  · simp only [htick, hread]
    exact ⟨.tick hquiet ⟨hchunk, bytes, hlookup, by simp [decoded, hdecode]⟩ (by rw [htick]; rfl)
      (by rw [htick]; rfl), id⟩

theorem disk_batch_calm {s : System} (hquiet : s.storage.fs.verdicts = [])
    (hholding : s.tick.Holding c s.storage.fs.files) (haccepts : Accepts c s) {path : FileName}
    {entries : List LogEntry} {published : Nat} {sent unsent : List LogEntry}
    {later : List (List LogEntry)} (htick : s.tick = .disk_batch path entries published sent unsent later) :
    Calm c s (publish_tick c s) := by
  unfold publish_tick
  rw [htick] at hholding
  obtain ⟨hholds, hpublished, hrest⟩ := hholding
  cases unsent with
  | nil =>
    rw [List.append_nil] at hrest
    obtain ⟨hlength, hlater, htaken⟩ := drop_published hpublished hrest
    obtain ⟨hnext, hcalm, hflight, hhanded⟩ := next_disk_batch_spec hholds hlength hlater
    simp only [htick]
    exact ⟨.tick hquiet hnext (by rw [htick, hflight]; rfl) (by rw [htick, hhanded, htaken]; rfl), hcalm⟩
  | cons entry unsent =>
    obtain ⟨publisher, hpublish⟩ := haccepts entry (by rw [htick]; rfl)
    have hhanded := (MqttPublisher.publish_entry_ok hpublish).1
    simp only [htick, hpublish]
    refine ⟨⟨⟨hquiet, hholds, hpublished, by simpa using hrest⟩, ?_⟩, id⟩
    simp only [held, htick, Tick.in_flight, Tick.handed_from_chunk, hhanded, ← Multiset.coe_add,
      Multiset.coe_nil]
    abel

theorem lock_tail_calm (hround : c.RoundTrips) {s : System} (hquiet : s.storage.fs.verdicts = [])
    (hholding : s.tick.Holding c s.storage.fs.files) (hfits : TickFits c s.storage s.tick)
    {path : FileName} {entries : List LogEntry} {published : Nat}
    (htick : s.tick = .lock_tail path entries published) : Calm c s (publish_tick c s) := by
  unfold publish_tick
  rw [htick] at hholding hfits
  obtain ⟨hchunk, bytes, hlookup, hdecoded⟩ := hholding
  have hstart : AddsBeside c (contents c s.storage) path bytes [] s.storage :=
    ⟨⟨hquiet, by simp⟩, hlookup⟩
  have hadds := push_all_each_extends
    (fun entry _ _ hadds hfits => hadds.push hchunk hround entry hfits) hstart hfits
  have hsplit : (↑entries : Multiset LogEntry) =
      ↑(entries.take published) + ↑(entries.drop published) := by
    rw [Multiset.coe_add, List.take_append_drop]
  simp only [htick]
  refine ⟨⟨⟨hadds.1.1, hchunk, bytes, hadds.2, hdecoded⟩, ?_⟩, id⟩
  simp only [held, htick, hadds.1.2, Tick.in_flight, Tick.handed_from_chunk, Option.getD_some,
    List.nil_append, Multiset.coe_reverse, Multiset.coe_nil, hsplit]
  abel

theorem delete_chunk_calm {s : System} (hquiet : s.storage.fs.verdicts = [])
    (hholding : s.tick.Holding c s.storage.fs.files) {path : FileName} {result : Option (List LogEntry)}
    {locked : Bool} (htick : s.tick = .delete_chunk path result locked) :
    Calm c s (publish_tick c s) := by
  unfold publish_tick
  rw [htick] at hholding
  obtain ⟨hchunk, bytes, hlookup, hdecoded⟩ := hholding
  have hdelete := Buffer.contents_delete_chunk (c := c) hquiet hchunk hlookup
  rw [hdecoded] at hdelete
  simp only [htick]
  refine ⟨⟨⟨?_, trivial⟩, ?_⟩, id⟩
  · simp only [Buffer.delete_chunk_quiet hquiet hlookup, finalState_ok]
    exact hquiet
  · simp only [held, htick, Tick.in_flight, Tick.handed_from_chunk, Multiset.coe_nil, ← hdelete]
    abel

/-- A step of a tick in which no entry is refused and every push finds room loses nothing,
and it leads to no recovery. -/
theorem publish_tick_balance (hround : c.RoundTrips) {s : System} (hintact : Intact c s)
    (haccepts : Accepts c s) (hfits : TickFits c s.storage s.tick) :
    Moves c s (publish_tick c s) [] [] ∧ ¬ (publish_tick c s).tick.recovering := by
  obtain ⟨hquiet, hholding⟩ := hintact
  cases htick : s.tick with
  | idle =>
    unfold publish_tick
    simp only [htick]
    split
    all_goals exact ⟨.tick hquiet trivial (by rw [htick]; rfl) (by rw [htick]; rfl), id⟩
  | sleeping locked =>
    unfold publish_tick
    simp only [htick]
    exact ⟨.tick hquiet trivial (by rw [htick]; rfl) (by rw [htick]; rfl), id⟩
  | lock_memory => exact lock_memory_calm hquiet htick
  | memory_batch sent unsent later => exact memory_batch_calm hquiet haccepts htick
  | lock_requeue batch => exact lock_requeue_calm hround hquiet hfits htick
  | lock_disk => exact lock_disk_calm hquiet htick
  | read_chunk path => exact read_chunk_calm hquiet hholding htick
  | disk_batch path entries published sent unsent later => exact disk_batch_calm hquiet hholding haccepts htick
  | lock_tail path entries published => exact lock_tail_calm hround hquiet hholding hfits htick
  | delete_chunk path result locked => exact delete_chunk_calm hquiet hholding htick

/-- A refusal drops the batches after the failed one, and what the failed batch has handed
over comes back with it (or is still in the chunk). -/
theorem publish_tick_refused {s : System} (hintact : Intact c s) (hrefused : ¬ Accepts c s) :
    Moves c s (publish_tick c s) s.tick.at_stake s.tick.sent := by
  obtain ⟨hquiet, hholding⟩ := hintact
  simp only [Accepts, not_forall] at hrefused
  obtain ⟨entry, hnext, hnone⟩ := hrefused
  cases hpublish : MqttPublisher.publish_entry c entry s.publisher with
  | ok _ publisher => exact absurd ⟨publisher, hpublish⟩ hnone
  | error e publisher =>
    have hhanded := (MqttPublisher.publish_entry_error hpublish).1
    unfold publish_tick
    match htick : s.tick, hnext with
    | .memory_batch sent (_ :: unsent) later, rfl =>
      simp only [hpublish]
      refine ⟨⟨hquiet, trivial⟩, ?_⟩
      simp only [held, htick, hhanded, Tick.in_flight, Tick.handed_from_chunk, Tick.at_stake,
        Tick.sent, ← Multiset.coe_add, Multiset.coe_nil]
      abel
    | .disk_batch path entries published sent (_ :: unsent) later, rfl =>
      rw [htick] at hholding
      obtain ⟨hdone, hflight, htaken⟩ := disk_done_spec published hholding.1
      simp only [hpublish]
      refine ⟨⟨hquiet, hdone⟩, ?_⟩
      simp only [held, htick, hhanded, hflight, htaken]
      simp only [Tick.in_flight, Tick.handed_from_chunk, Tick.at_stake, Tick.sent,
        ← Multiset.coe_add, Multiset.coe_nil]
      abel

end spotflowd.orchestrator
