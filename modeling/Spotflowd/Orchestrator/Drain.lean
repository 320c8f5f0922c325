import Spotflowd.Buffer.HeldChunk
import Spotflowd.Buffer.Stranded
import Spotflowd.Orchestrator.Shutdown

open effect fs chunked
open spotflowd.buffer spotflowd.config spotflowd.log_entry spotflowd.mqtt

namespace spotflowd.orchestrator

/-- Nothing happens but steps of the publish loop. -/
def Ticking (_ : System) (event : Event) : Prop := event = .tick

instance (s : System) (event : Event) : Decidable (Ticking s event) :=
  inferInstanceAs (Decidable (event = .tick))

/-- The publish loop alone leads from `s` to `t`. -/
def Leads (c : Ciborium) (s t : System) : Prop :=
  ∃ n, (run c).Run Ticking s (List.replicate n .tick) t

/-- The client accepts whatever it is given from now on. -/
def Willing (publisher : MqttPublisher) : Prop := ∀ answer ∈ publisher.outcomes, answer = true

/-- The entries fit on the wire. -/
def Encodable (c : Ciborium) (entries : List LogEntry) : Prop :=
  ∀ entry ∈ entries, ∃ payload, encode_entry c entry = .ok payload

/-- The connection stands, the client accepts and no file operation fails. -/
structure Online (s : System) : Prop where
  running : s.phase = .running
  connected : s.publisher.connected = true
  willing : Willing s.publisher
  quiet : s.storage.fs.verdicts = []

variable {c : Ciborium}

theorem Leads.refl (s : System) : Leads c s s := ⟨0, .nil s⟩

theorem Leads.trans {s t u : System} (hfirst : Leads c s t) (hrest : Leads c t u) : Leads c s u := by
  obtain ⟨m, hfirst⟩ := hfirst
  obtain ⟨n, hrest⟩ := hrest
  refine ⟨m + n, ?_⟩
  rw [List.replicate_add]
  exact hfirst.trans hrest

theorem Leads.step {s : System} (hphase : s.phase = .running) : Leads c s (publish_tick c s) :=
  ⟨1, .single rfl (by simp [run, hphase])⟩

theorem Leads.of_solo {s t : System} {n : Nat}
    (hrun : (run c).Run Solo s (List.replicate n .tick) t) : Leads c s t :=
  ⟨n, hrun.mono fun _ _ hsolo => hsolo.1⟩

theorem Encodable.append {first second : List LogEntry} :
    Encodable c (first ++ second) ↔ Encodable c first ∧ Encodable c second :=
  List.forall_mem_append

theorem publish_entry_willing {publisher : MqttPublisher} (hwilling : Willing publisher)
    {entry : LogEntry} {payload : Bytes} (hencode : encode_entry c entry = .ok payload) :
    ∃ after, MqttPublisher.publish_entry c entry publisher = .ok () after ∧ Willing after ∧
      after.connected = publisher.connected := by
  obtain ⟨connected, outcomes, accepted, handed⟩ := publisher
  have htail : ∀ answer ∈ outcomes.tail, answer = true := fun answer hmem =>
    hwilling answer (List.mem_of_mem_tail hmem)
  unfold MqttPublisher.publish_entry MqttPublisher.publish_payload
  simp only [hencode]
  rcases outcomes with _ | ⟨_ | _, outcomes⟩
  · exact ⟨_, rfl, htail, rfl⟩
  · exact absurd (hwilling false List.mem_cons_self) Bool.false_ne_true
  · exact ⟨_, rfl, htail, rfl⟩

theorem publish_batch_willing {publisher : MqttPublisher} (hwilling : Willing publisher)
    {entries : List LogEntry} (hencodable : Encodable c entries) :
    ∃ after, MqttPublisher.publish_batch c entries publisher = .ok () after ∧ Willing after ∧
      after.connected = publisher.connected ∧ after.handed = publisher.handed ++ entries := by
  induction entries generalizing publisher with
  | nil => exact ⟨publisher, rfl, hwilling, rfl, (List.append_nil _).symm⟩
  | cons entry entries ih =>
    obtain ⟨payload, hencode⟩ := hencodable entry List.mem_cons_self
    obtain ⟨middle, hentry, hmiddle, hconnected⟩ := publish_entry_willing hwilling hencode
    obtain ⟨after, hrest, hafter, hconnected', hhanded⟩ :=
      ih hmiddle fun other hother => hencodable other (List.mem_cons_of_mem _ hother)
    refine ⟨after, ?_, hafter, hconnected'.trans hconnected, ?_⟩
    · rw [MqttPublisher.publish_batch_cons, bind_of_ok hentry, hrest]
    · rw [hhanded, (MqttPublisher.publish_entry_ok hentry).1, List.append_assoc, List.singleton_append]

/-- From `s` to `t`, the entries have been handed over and the buffer is as it was. -/
structure Delivers (s t : System) (entries : List LogEntry) : Prop where
  online : Online t
  storage : t.storage = s.storage
  handed : t.publisher.handed = s.publisher.handed ++ entries

theorem Online.delivers {s : System} (honline : Online s) (tick : Tick) {after : MqttPublisher}
    {entries : List LogEntry} (hwilling : Willing after)
    (hconnected : after.connected = s.publisher.connected)
    (hhanded : after.handed = s.publisher.handed ++ entries) :
    Delivers s { s with publisher := after, tick := tick } entries :=
  ⟨⟨honline.running, hconnected.trans honline.connected, hwilling, honline.quiet⟩, rfl, hhanded⟩

theorem Online.tick {s : System} (honline : Online s) (tick : Tick) :
    Online { s with tick := tick } :=
  ⟨honline.running, honline.connected, honline.willing, honline.quiet⟩

/-- The batches drained from memory are handed over one after the other. -/
theorem memory_batches_delivered {batches : List (List LogEntry)} {s : System} (honline : Online s)
    (htick : s.tick = next_memory_batch batches) (hencodable : Encodable c batches.flatten) :
    ∃ t, Leads c s t ∧ t.tick = .idle ∧ Delivers s t batches.flatten := by
  induction batches generalizing s with
  | nil => exact ⟨s, .refl s, htick, honline, rfl, (List.append_nil _).symm⟩
  | cons batch later ih =>
    rw [List.flatten_cons, Encodable.append] at hencodable
    obtain ⟨n, hbatch⟩ := memory_batch_run (c := c) honline.running htick
    obtain ⟨after, hpublish, hwilling, hconnected, hhanded⟩ :=
      publish_batch_willing honline.willing hencodable.1
    rw [hpublish] at hbatch
    have hsent := honline.delivers (.memory_batch ([] ++ batch) [] later) hwilling hconnected hhanded
    have hnext : Leads c { s with publisher := after, tick := .memory_batch ([] ++ batch) [] later }
        { s with publisher := after, tick := next_memory_batch later } := .step honline.running
    obtain ⟨t, hrest, hidle, hdelivers⟩ :=
      ih (hsent.online.tick (next_memory_batch later)) rfl hencodable.2
    refine ⟨t, (Leads.of_solo hbatch).trans (hnext.trans hrest), hidle, hdelivers.online,
      hdelivers.storage, ?_⟩
    rw [hdelivers.handed, List.flatten_cons, ← List.append_assoc, ← hhanded]

/-- The batches of a chunk are handed over one after the other; then the chunk can go. -/
theorem disk_batches_delivered {path : FileName} {entries : List LogEntry} {published : Nat}
    {batches : List (List LogEntry)} {s : System} (honline : Online s)
    (htick : s.tick = next_disk_batch path entries published batches)
    (hlength : published + batches.flatten.length = entries.length)
    (hencodable : Encodable c batches.flatten) :
    ∃ t, Leads c s t ∧ t.tick = .delete_chunk path (some entries) false ∧
      Delivers s t batches.flatten := by
  induction batches generalizing s published with
  | nil =>
    refine ⟨s, .refl s, ?_, honline, rfl, (List.append_nil _).symm⟩
    rw [htick, next_disk_batch, disk_done, if_pos (by simpa using hlength)]
  | cons batch later ih =>
    rw [List.flatten_cons, Encodable.append] at hencodable
    rw [List.flatten_cons, List.length_append] at hlength
    obtain ⟨n, hbatch⟩ := disk_batch_run (c := c) honline.running htick
    obtain ⟨after, hpublish, hwilling, hconnected, hhanded⟩ :=
      publish_batch_willing honline.willing hencodable.1
    rw [hpublish] at hbatch
    have hsent := honline.delivers (.disk_batch path entries published ([] ++ batch) [] later)
      hwilling hconnected hhanded
    have hnext : Leads c { s with
          publisher := after, tick := .disk_batch path entries published ([] ++ batch) [] later }
        { s with
          publisher := after, tick := next_disk_batch path entries (published + batch.length) later } :=
      .step honline.running
    obtain ⟨t, hrest, hdone, hdelivers⟩ := ih
      (hsent.online.tick (next_disk_batch path entries (published + batch.length) later)) rfl
      (by omega) hencodable.2
    refine ⟨t, (Leads.of_solo hbatch).trans (hnext.trans hrest), hdone, hdelivers.online,
      hdelivers.storage, ?_⟩
    rw [hdelivers.handed, List.flatten_cons, ← List.append_assoc, ← hhanded]

/-- The entries in the chunk files, in the order in which the publish loop comes to them:
the greatest file name first. -/
def newest_first (c : Ciborium) (d : Dir) : List LogEntry :=
  ((chunk_names d).insertionSort (· ≥ ·)).flatMap fun name => decoded c ((d.lookup name).getD [])

/-- What is still to be handed over, in the order in which that happens. -/
def backlog (c : Ciborium) (s : Storage) : List LogEntry := s.buf.memory ++ newest_first c s.fs.files

/-- Without its first value, a listing is the listing of the other values. -/
theorem insertionSort_erase_head {names rest : List FileName} {name : FileName}
    (hsorted : names.insertionSort (· ≥ ·) = name :: rest) :
    (names.erase name).insertionSort (· ≥ ·) = rest := by
  have hperm : (name :: rest).Perm names := hsorted ▸ List.perm_insertionSort (· ≥ ·) names
  have herased := hperm.erase name
  rw [List.erase_cons_head] at herased
  have hpairwise := List.pairwise_insertionSort (· ≥ ·) names
  rw [hsorted] at hpairwise
  exact ((List.perm_insertionSort (· ≥ ·) _).trans herased.symm).eq_of_pairwise'
    (List.pairwise_insertionSort (· ≥ ·) _) hpairwise.of_cons

theorem newest_first_of_newest {d : Dir} {name : FileName} {bytes : Bytes}
    (hnewest : newest_chunk d = some name) (hlookup : d.lookup name = some bytes) :
    newest_first c d = decoded c bytes ++ newest_first c (d.erase name) := by
  obtain ⟨rest, hsorted⟩ := List.head?_eq_some_iff.mp hnewest
  obtain ⟨-, hchunk, -⟩ := newest_chunk_spec hnewest
  have hnodup : (name :: rest).Nodup :=
    hsorted ▸ (List.perm_insertionSort (· ≥ ·) _).nodup_iff.mpr (d.nodupKeys.filter _)
  have hkeys : d.keys.Nodup := d.nodupKeys
  have hnames : chunk_names (d.erase name) = (chunk_names d).erase name := by
    rw [chunk_names, AList.keys_erase, chunk_names, hkeys.erase_eq_filter, List.filter_comm,
      (hkeys.filter _).erase_eq_filter]
  rw [newest_first, newest_first, hnames, chunk_names, insertionSort_erase_head hsorted, hsorted,
    List.flatMap_cons, hlookup, Option.getD_some]
  congr 1
  apply List.flatMap_congr
  intro other hother
  have hne : other ≠ name := by
    rintro rfl
    exact (List.nodup_cons.mp hnodup).1 hother
  rw [AList.lookup_erase_ne hne]

theorem newest_first_of_none {s : Fs} (hnone : ¬ HasChunk s) : newest_first c s.files = [] := by
  have hnames : chunk_names s.files = [] :=
    List.filter_eq_nil_iff.mpr fun p hp hchunk => hnone ⟨p, hp, hchunk⟩
  rw [newest_first, hnames]
  rfl

/-- A tick that finds entries in memory hands them over. -/
theorem memory_is_delivered {s : System} (honline : Online s) (hidle : s.tick = .idle)
    (hmemory : s.storage.buf.memory ≠ []) (hencodable : Encodable c s.storage.buf.memory) :
    ∃ t, Leads c s t ∧ t.tick = .idle ∧ Online t ∧
      t.storage = { s.storage with buf := { s.storage.buf with memory := [] } } ∧
      t.publisher.handed = s.publisher.handed ++ s.storage.buf.memory := by
  have hstart : publish_tick c s = { s with tick := .lock_memory } := by
    simp [publish_tick, hidle, MqttPublisher.is_connected, honline.connected]
  have hdrain : publish_tick c { s with tick := .lock_memory } = { s with
      storage := { s.storage with buf := { s.storage.buf with memory := [] } }
      tick := next_memory_batch (chunks PUBLISH_BATCH_SIZE s.storage.buf.memory) } := by
    simp [publish_tick, Buffer.memory_len, Buffer.drain_memory, List.length_pos_iff, hmemory]
  have hfirst := Leads.step (c := c) honline.running
  rw [hstart] at hfirst
  have hsecond := Leads.step (c := c) (honline.tick .lock_memory).running
  rw [hdrain] at hsecond
  have hflatten := flatten_chunks (show 0 < PUBLISH_BATCH_SIZE by decide) s.storage.buf.memory
  obtain ⟨t, hrest, hdone, honline', hstorage, hhanded⟩ := memory_batches_delivered (c := c)
    (s := { s with
      storage := { s.storage with buf := { s.storage.buf with memory := [] } }
      tick := next_memory_batch (chunks PUBLISH_BATCH_SIZE s.storage.buf.memory) })
    ⟨honline.running, honline.connected, honline.willing, honline.quiet⟩ rfl
    (by rw [hflatten]; exact hencodable)
  rw [hflatten] at hhanded
  exact ⟨t, hfirst.trans (hsecond.trans hrest), hdone, honline', hstorage, hhanded⟩

/-- A tick that finds the memory empty hands over the newest chunk, if it decodes, and
deletes it either way. -/
theorem chunk_is_delivered {s : System} (honline : Online s) (hidle : s.tick = .idle)
    (hmemory : s.storage.buf.memory = []) (hflag : s.storage.buf.may_have_chunks = true)
    {path : FileName} {bytes : Bytes} (hnewest : newest_chunk s.storage.fs.files = some path)
    (hlookup : s.storage.fs.files.lookup path = some bytes)
    (hencodable : Encodable c (decoded c bytes)) :
    ∃ t, Leads c s t ∧ t.tick = .idle ∧ Online t ∧ t.storage.buf = s.storage.buf ∧
      t.storage.fs.files = s.storage.fs.files.erase path ∧
      t.publisher.handed = s.publisher.handed ++ decoded c bytes := by
  have hread : ∃ t result, Leads c s t ∧ t.tick = .delete_chunk path result false ∧
      Delivers s t (decoded c bytes) := by
    have hstart : publish_tick c s = { s with tick := .lock_memory } := by
      simp [publish_tick, hidle, MqttPublisher.is_connected, honline.connected]
    have hempty : publish_tick c { s with tick := .lock_memory } = { s with tick := .lock_disk } := by
      simp [publish_tick, Buffer.memory_len, hmemory]
    have hpick : publish_tick c { s with tick := .lock_disk } = { s with tick := .read_chunk path } := by
      simp [publish_tick, Buffer.next_disk_chunk_of_newest honline.quiet hflag hnewest]
    have hfirst := Leads.step (c := c) honline.running
    rw [hstart] at hfirst
    have hsecond := Leads.step (c := c) (honline.tick .lock_memory).running
    rw [hempty] at hsecond
    have hthird := Leads.step (c := c) (honline.tick .lock_disk).running
    rw [hpick] at hthird
    have hpicked : Leads c s { s with tick := .read_chunk path } := hfirst.trans (hsecond.trans hthird)
    have hfourth := Leads.step (c := c) (honline.tick (.read_chunk path)).running
    obtain ⟨entries, hdecode, hread⟩ | ⟨hdecode, e, hread⟩ :=
      Buffer.read_chunk_quiet (c := c) honline.quiet hlookup
    · have hbatches : publish_tick c { s with tick := .read_chunk path } = { s with
          tick := next_disk_batch path entries 0 (chunks PUBLISH_BATCH_SIZE entries) } := by
        simp [publish_tick, hread]
      rw [hbatches] at hfourth
      have hentries : decoded c bytes = entries := by rw [decoded, hdecode, Option.getD_some]
      have hflatten := flatten_chunks (show 0 < PUBLISH_BATCH_SIZE by decide) entries
      rw [hentries] at hencodable ⊢
      obtain ⟨t, hrest, hdone, hdelivers⟩ := disk_batches_delivered (c := c)
        (honline.tick (next_disk_batch path entries 0 (chunks PUBLISH_BATCH_SIZE entries))) rfl
        (by rw [hflatten, Nat.zero_add]) (by rw [hflatten]; exact hencodable)
      rw [hflatten] at hdelivers
      exact ⟨t, some entries, hpicked.trans (hfourth.trans hrest), hdone, hdelivers.online,
        hdelivers.storage, hdelivers.handed⟩
    · have hcorrupt : publish_tick c { s with tick := .read_chunk path } =
          { s with tick := .delete_chunk path none false } := by
        simp [publish_tick, hread]
      rw [hcorrupt] at hfourth
      refine ⟨_, none, hpicked.trans hfourth, rfl, honline.tick _, rfl, ?_⟩
      rw [decoded, hdecode]
      exact (List.append_nil _).symm
  obtain ⟨t, result, hleads, htick, honline', hstorage, hhanded⟩ := hread
  have hdelete := Buffer.delete_chunk_quiet (s := t.storage) honline'.quiet (by rw [hstorage]; exact hlookup)
  have hlast := Leads.step (c := c) honline'.running
  have hgone : publish_tick c t = { t with
      storage := finalState (Buffer.delete_chunk path t.storage), tick := .idle } := by
    simp only [publish_tick, htick]
  rw [hgone, hdelete] at hlast
  refine ⟨_, hleads.trans hlast, rfl, ⟨honline'.running, honline'.connected, honline'.willing,
    honline'.quiet⟩, by rw [finalState_ok, hstorage], ?_, hhanded⟩
  simp only [finalState_ok, Fs.files, Option.getD_some, hstorage]

/-- Nothing is left to be handed over. -/
structure Empty (s : Storage) : Prop where
  memory : s.buf.memory = []
  disk : ¬ HasChunk s.fs

/-- The chunks on disk go one after the other, the newest first. -/
theorem chunks_are_delivered {s : System} (honline : Online s) (hidle : s.tick = .idle)
    (hmemory : s.storage.buf.memory = []) (hsight : Unstranded s.storage)
    (hencodable : Encodable c (newest_first c s.storage.fs.files)) :
    ∃ t, Leads c s t ∧ Online t ∧ t.tick = .idle ∧ Empty t.storage ∧
      t.publisher.handed = s.publisher.handed ++ newest_first c s.storage.fs.files ∧
      ∀ name, is_chunk_file name = false →
        t.storage.fs.files.lookup name = s.storage.fs.files.lookup name := by
  induction hcount : s.storage.fs.files.keys.length generalizing s with
  | zero =>
    have hnone : ¬ HasChunk s.storage.fs := by
      rintro ⟨p, hp, -⟩
      exact List.ne_nil_of_mem hp (List.length_eq_zero_iff.mp hcount)
    refine ⟨s, .refl s, honline, hidle, ⟨hmemory, hnone⟩, ?_, fun _ _ => rfl⟩
    rw [newest_first_of_none hnone, List.append_nil]
  | succ n ih =>
    by_cases hchunk : HasChunk s.storage.fs
    · obtain ⟨p, hp, hchunkp⟩ := id hchunk
      obtain ⟨path, hnewest⟩ := exists_newest_chunk (AList.mem_keys.mpr hp) hchunkp
      obtain ⟨hmem, hchunkn, -⟩ := newest_chunk_spec hnewest
      obtain ⟨bytes, hlookup⟩ := Option.isSome_iff_exists.mp (AList.lookup_isSome.mpr hmem)
      rw [newest_first_of_newest hnewest hlookup, Encodable.append] at hencodable
      obtain ⟨t, hfirst, hidle', honline', hbuf, hfiles, hhanded⟩ := chunk_is_delivered honline hidle
        hmemory (hsight hchunk) hnewest hlookup hencodable.1
      have hsight' : Unstranded t.storage := fun _ => by rw [hbuf]; exact hsight hchunk
      have hkeys : t.storage.fs.files.keys.length = n := by
        rw [hfiles, AList.keys_erase, List.length_erase_of_mem (AList.mem_keys.mp hmem), hcount]
        omega
      obtain ⟨u, hrest, honline'', hdone, hempty, hhanded', hothers⟩ :=
        ih honline' hidle' (by rw [hbuf]; exact hmemory) hsight' (by rw [hfiles]; exact hencodable.2) hkeys
      refine ⟨u, hfirst.trans hrest, honline'', hdone, hempty, ?_, ?_⟩
      · rw [hhanded', hhanded, hfiles, newest_first_of_newest hnewest hlookup, List.append_assoc]
      · intro name hname
        have hne : name ≠ path := by
          rintro rfl
          rw [hchunkn] at hname
          cases hname
        rw [hothers name hname, hfiles, AList.lookup_erase_ne hne]
    · refine ⟨s, .refl s, honline, hidle, ⟨hmemory, hchunk⟩, ?_, fun _ _ => rfl⟩
      rw [newest_first_of_none hchunk, List.append_nil]

/-- The memory goes first, then the chunks. -/
theorem backlog_run {s : System} (honline : Online s) (hidle : s.tick = .idle)
    (hsight : Unstranded s.storage) (hencodable : Encodable c (backlog c s.storage)) :
    ∃ t, Leads c s t ∧ Online t ∧ t.tick = .idle ∧ Empty t.storage ∧
      t.publisher.handed = s.publisher.handed ++ backlog c s.storage ∧
      ∀ name, is_chunk_file name = false →
        t.storage.fs.files.lookup name = s.storage.fs.files.lookup name := by
  rw [backlog, Encodable.append] at hencodable
  by_cases hmemory : s.storage.buf.memory = []
  · rw [backlog, hmemory, List.nil_append]
    exact chunks_are_delivered honline hidle hmemory hsight hencodable.2
  · obtain ⟨t, hfirst, hidle', honline', hstorage, hhanded⟩ :=
      memory_is_delivered honline hidle hmemory hencodable.1
    obtain ⟨u, hrest, honline'', hdone, hempty, hhanded', hothers⟩ := chunks_are_delivered honline'
      hidle' (by rw [hstorage]) (by rw [hstorage]; exact hsight) (by rw [hstorage]; exact hencodable.2)
    refine ⟨u, hfirst.trans hrest, honline'', hdone, hempty, ?_,
      fun name hname => by rw [hothers name hname, hstorage]⟩
    rw [hhanded', hhanded, hstorage, backlog, List.append_assoc]

/-- The tick has nothing to do. -/
def Tick.resting : Tick → Bool
  | .idle | .sleeping _ | .lock_memory | .lock_disk => true
  | _ => false

/-- With nothing left, a tick finds nothing. -/
theorem publish_tick_rests {s : System} (hrests : s.tick.resting = true) (hempty : Empty s.storage)
    (hquiet : s.storage.fs.verdicts = []) :
    (publish_tick c s).tick.resting = true ∧ Empty (publish_tick c s).storage ∧
      (publish_tick c s).storage.fs = s.storage.fs ∧ (publish_tick c s).publisher = s.publisher := by
  unfold publish_tick
  cases htick : s.tick with
  | idle =>
    refine ⟨?_, hempty, rfl, rfl⟩
    simp only
    split <;> rfl
  | sleeping held => exact ⟨rfl, hempty, rfl, rfl⟩
  | lock_memory =>
    have hnone : ¬ 0 < s.storage.buf.memory_len := by simp [Buffer.memory_len, hempty.memory]
    simp only [if_neg hnone]
    exact ⟨rfl, hempty, trivial, trivial⟩
  | lock_disk =>
    obtain ⟨next, storage, hnext, hfs, hmemory, -, hnewest⟩ := Buffer.next_disk_chunk_quiet hquiet
    have hempty' : Empty storage := ⟨hmemory.trans hempty.memory, by rw [hfs]; exact hempty.disk⟩
    cases next with
    | none =>
      simp only [hnext]
      exact ⟨rfl, hempty', hfs, trivial⟩
    | some path =>
      obtain ⟨hmem, hchunk, -⟩ := newest_chunk_spec (hnewest path rfl)
      exact absurd ⟨path, AList.mem_keys.mp hmem, hchunk⟩ hempty.disk
  | _ =>
    rw [htick] at hrests
    cases hrests

/-- Once online, the publish loop empties the buffer: from any state between two ticks in which
chunks on disk are expected, whatever chunk files it finds (also ones that do not decode), some
number of steps hands over what is in memory and then every chunk, the newest first, and leaves
only the files that are no chunks. However long it goes on after that, it hands over nothing
more. -/
theorem backlog_is_delivered {s : System} (honline : Online s) (hidle : s.tick = .idle)
    (hsight : Unstranded s.storage) (hencodable : Encodable c (backlog c s.storage)) :
    ∃ n t, (run c).Run Ticking s (List.replicate n .tick) t ∧ Empty t.storage ∧
      t.publisher.handed = s.publisher.handed ++ backlog c s.storage ∧
      (∀ name, is_chunk_file name = false →
        t.storage.fs.files.lookup name = s.storage.fs.files.lookup name) ∧
      ∀ events u, (run c).Run Ticking t events u → Empty u.storage ∧ u.publisher = t.publisher := by
  obtain ⟨t, ⟨n, hrun⟩, honline', hdone, hempty, hhanded, hothers⟩ :=
    backlog_run honline hidle hsight hencodable
  refine ⟨n, t, hrun, hempty, hhanded, hothers, ?_⟩
  intro events u hmore
  have hrests : u.tick.resting = true ∧ Empty u.storage ∧ u.storage.fs.verdicts = [] ∧
      u.publisher = t.publisher := by
    refine hmore.invariant (P := fun u => u.tick.resting = true ∧ Empty u.storage ∧
      u.storage.fs.verdicts = [] ∧ u.publisher = t.publisher)
      ⟨by rw [hdone]; rfl, hempty, honline'.quiet, rfl⟩ ?_
    rintro v event w ⟨hrests, hempty, hquiet, hsame⟩ rfl hstep
    obtain ⟨-, rfl⟩ := run_tick_eq_some hstep
    obtain ⟨hrests', hempty', hfs, hpublisher⟩ := publish_tick_rests (c := c) hrests hempty hquiet
    exact ⟨hrests', hempty', by rw [hfs]; exact hquiet, hpublisher.trans hsame⟩
  exact ⟨hrests.2.1, hrests.2.2.2⟩

/-- One entry in memory, one in a chunk, and a newer chunk that does not decode. -/
def stocked : System :=
  { fresh with storage :=
    ⟨⟨.sized 1 1 Nat.one_pos Nat.one_pos, [entry "c"], true⟩,
      ⟨some ((AList.singleton (chunk_name 1) ((Ciborium.wire.into_writer [entry "a"]).getD [])).insert
        (chunk_name 2) [0xFF]), [], [], []⟩⟩ }

theorem encodable_letters : Encodable .wire [entry "a", entry "b", entry "c"] := by
  intro letter hmem
  simp only [List.mem_cons, List.not_mem_nil, or_false] at hmem
  obtain rfl | rfl | rfl := hmem
  all_goals exact ⟨_, rfl⟩

theorem backlog_is_delivered_stocked :
    ∃ t, Leads .wire stocked t ∧ Empty t.storage ∧ t.publisher.handed = [entry "c", entry "a"] := by
  have hbacklog : backlog .wire stocked.storage = [entry "c", entry "a"] := rfl
  have hencodable : Encodable .wire (backlog .wire stocked.storage) := by
    intro letter hmem
    rw [hbacklog] at hmem
    exact encodable_letters letter (by simp only [List.mem_cons] at hmem ⊢; tauto)
  have honline : Online stocked := ⟨rfl, rfl, fun _ hmem => (List.not_mem_nil hmem).elim, rfl⟩
  obtain ⟨n, t, hrun, hempty, hhanded, -⟩ :=
    backlog_is_delivered honline rfl (fun _ => rfl) hencodable
  exact ⟨t, ⟨n, hrun⟩, hempty, by rw [hhanded, hbacklog]; rfl⟩

theorem not_overlooks_of_quiet {s : Fs} (hquiet : s.verdicts = []) : ¬ Overlooks s := by
  rintro ⟨⟨p, hp, hchunk⟩, hunseen⟩
  simp only [next_quiet hquiet] at hunseen
  obtain hfails | ⟨-, hhides⟩ := hunseen
  · cases hfails
  · cases hhides p hp hchunk

theorem scanSucceeds_of_quiet {s : Fs} (hquiet : s.verdicts = []) : ScanSucceeds s where
  returns e t herror := by
    rw [spool_files_newest_first_quiet hquiet] at herror
    cases herror
  sees := not_overlooks_of_quiet hquiet

theorem push_all_keepsSight {entries : List LogEntry} {s : Storage} (hsight : Unstranded s) :
    Unstranded (push_all c entries s) := by
  induction entries generalizing s with
  | nil => exact hsight
  | cons entry entries ih => exact ih (Buffer.push_keepsSight c entry s hsight)

theorem publish_tick_keepsSight {s : System} (hquiet : s.storage.fs.verdicts = [])
    (hsight : Unstranded s.storage) : Unstranded (publish_tick c s).storage := by
  unfold publish_tick
  cases htick : s.tick with
  | idle => exact hsight
  | sleeping held => exact hsight
  | lock_memory =>
    simp only
    split
    · exact hsight
    · exact hsight
  | memory_batch sent unsent later =>
    cases unsent with
    | nil => exact hsight
    | cons entry unsent =>
      simp only
      split <;> exact hsight
  | lock_requeue batch => exact push_all_keepsSight hsight
  | lock_disk =>
    have hnext := (Buffer.next_disk_chunk_unstranded_iff hsight).mpr (not_overlooks_of_quiet hquiet)
    simp only
    split
    all_goals
      next hrun =>
        rw [hrun] at hnext
        exact hnext
  | read_chunk path =>
    cases hlookup : s.storage.fs.files.lookup path with
    | none =>
      obtain ⟨e, hread⟩ := Buffer.read_chunk_quiet_missing (c := c) hquiet hlookup
      simpa only [hread] using hsight
    | some bytes =>
      obtain ⟨entries, -, hread⟩ | ⟨-, e, hread⟩ := Buffer.read_chunk_quiet (c := c) hquiet hlookup
      · simpa only [hread] using hsight
      · simpa only [hread] using hsight
  | disk_batch path entries published sent unsent later =>
    cases unsent with
    | nil => exact hsight
    | cons entry unsent =>
      simp only
      split <;> exact hsight
  | lock_tail path entries published => exact push_all_keepsSight hsight
  | delete_chunk path read held => exact Buffer.delete_chunk_keepsSight path s.storage hsight

theorem ingest_keepsSight {s t : System} {entry : LogEntry} (hsight : Unstranded s.storage)
    (hingest : ingest c entry s = some t) : Unstranded t.storage := by
  rw [(ingest_effect hingest).2.1]
  exact Buffer.push_keepsSight c entry s.storage hsight

theorem run_keepsSight {s t : System} {event : Event} (hquiet : s.storage.fs.verdicts = [])
    (hsight : Unstranded s.storage) (hstep : (run c).step s event = some t) : Unstranded t.storage := by
  cases event with
  | push entry => exact ingest_keepsSight hsight hstep
  | link connected =>
    cases hstep
    exact hsight
  | tick =>
    obtain ⟨-, rfl⟩ := run_tick_eq_some hstep
    exact publish_tick_keepsSight hquiet hsight
  | shutdown =>
    simp only [run] at hstep
    split at hstep
    · cases hstep
      exact hsight
    · cases hstep
  | flush =>
    simp only [run] at hstep
    split at hstep
    · cases hstep
      exact Buffer.flush_memory_to_disk_keepsSight c s.storage hsight
    · cases hstep

theorem coe_newest_first (d : Dir) : (newest_first c d : Multiset LogEntry) = disk_entries c d := by
  rw [← coe_spooled, newest_first, spooled, coe_flatMap, coe_flatMap]
  apply List.Perm.sum_eq
  exact ((List.perm_insertionSort (· ≥ ·) _).trans (ordered.perm_ascending number _).symm).map _

/-- Outages end in delivery. The connection may come and go and publishes may be refused,
as long as nothing is given up on the way. From any state between two ticks in which the
client is online again, the publish loop alone hands over what is left: every entry pushed
so far and every entry of the initial chunks has then been handed over at least once, and
nothing is left in memory or in chunk files. -/
theorem outages_end_in_delivery (hround : c.RoundTrips) {cfg : ValidBufferConfig} {fs : Fs}
    {publisher : MqttPublisher} (hquiet : fs.verdicts = []) (hhanded : publisher.handed = [])
    {events : List Event} {s : System}
    (hrun : (run c).Run (fun s event => Healthy c s event ∧ Graceful c s event)
      (start cfg fs publisher) events s) (hrunning : s.phase = .running) (hidle : s.tick = .idle)
    (hconnected : s.publisher.connected = true) (hwilling : Willing s.publisher)
    (hencodable : Encodable c (backlog c s.storage)) :
    ∃ n t, (run c).Run Ticking s (List.replicate n .tick) t ∧ Empty t.storage ∧
      disk_entries c fs.files + ↑s.pushed ≤ (↑t.publisher.handed : Multiset LogEntry) := by
  have hstart : Kept c (disk_entries c fs.files) (start cfg fs publisher) ∧
      Unstranded (start cfg fs publisher).storage :=
    ⟨(Conserved.start cfg hquiet hhanded).kept rfl, .new cfg (scanSucceeds_of_quiet hquiet)⟩
  obtain ⟨hkept, hsight⟩ := hrun.invariant
    (P := fun s => Kept c (disk_entries c fs.files) s ∧ Unstranded s.storage) hstart
    fun _ _ _ hinv hallowed hstep => ⟨hinv.1.step hround hallowed hstep,
      run_keepsSight hinv.1.intact.quiet hinv.2 hstep⟩
  obtain ⟨t, ⟨n, hticks⟩, -, -, hempty, hdelivered, -⟩ := backlog_run
    ⟨hrunning, hconnected, hwilling, hkept.intact.quiet⟩ hidle hsight hencodable
  refine ⟨n, t, hticks, hempty, ?_⟩
  have hbound := hkept.bound
  simp only [held, hidle, contents, Tick.in_flight, Tick.handed_from_chunk, Multiset.coe_nil,
    add_zero] at hbound
  rw [hdelivered, backlog, ← Multiset.coe_add, ← Multiset.coe_add, coe_newest_first]
  exact hbound.trans_eq (add_comm _ _)

/-- The first publish is refused and the connection goes; both entries wait until the
client is online again. -/
theorem outages_end_in_delivery_refused : ∃ s t : System,
    s.pushed = [entry "a", entry "b"] ∧ s.publisher.handed = [] ∧ Leads .wire s t ∧
      Empty t.storage ∧
      disk_entries .wire ∅ + ↑s.pushed ≤ (↑t.publisher.handed : Multiset LogEntry) := by
  have hexec : ((run .wire).exec (fun s event => Healthy .wire s event ∧ Graceful .wire s event)
      (start (.sized 2 1 Nat.two_pos Nat.one_pos) ⟨none, [], [], []⟩ ⟨true, [false], [], []⟩)
      [.push (entry "a"), .tick, .tick, .tick, .tick, .tick, .link false, .push (entry "b"), .tick,
        .tick, .link true]).any (fun s => s.phase = .running ∧ s.tick = .idle ∧
          s.publisher = ⟨true, [], [], []⟩ ∧ s.pushed = [entry "a", entry "b"] ∧
          backlog .wire s.storage = [entry "a", entry "b"]) = true := by
    rfl
  obtain ⟨s, hrun, htest⟩ := Machine.exists_run_of_exec _ hexec
  obtain ⟨hrunning, hidle, hpublisher, hpushed, hbacklog⟩ := of_decide_eq_true htest
  have hencodable : Encodable .wire (backlog .wire s.storage) := by
    intro letter hmem
    rw [hbacklog] at hmem
    exact encodable_letters letter (by simp only [List.mem_cons] at hmem ⊢; tauto)
  have hwilling : Willing s.publisher := by
    rw [hpublisher]
    exact fun _ hmem => (List.not_mem_nil hmem).elim
  obtain ⟨n, t, hticks, hempty, hdelivered⟩ := outages_end_in_delivery Ciborium.wire_roundTrips rfl rfl
    hrun hrunning hidle (by rw [hpublisher]) hwilling hencodable
  exact ⟨s, t, hpushed, by rw [hpublisher], ⟨n, hticks⟩, hempty, hdelivered⟩

end spotflowd.orchestrator
