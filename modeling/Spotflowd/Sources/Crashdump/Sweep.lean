import Spotflowd.Sources.Crashdump.Reassembly

open chunked effect fs
open spotflowd.mqtt

namespace spotflowd.sources.crashdump

/-- No call fails and nothing appears meanwhile, the link is up, and the client takes what it is
given. -/
structure Calm (s : World) : Prop where
  quiet : s.moments = []
  linked : s.publisher.connected = true
  willing : ∀ answer ∈ s.publisher.outcomes, answer = true

section Calls

variable {s : World} (hquiet : s.moments = [])

include hquiet

theorem next_quiet : s.next = ({}, s) := by
  rw [World.next, hquiet]

theorem call_quiet : call s = .ok {} s := by
  rw [call_run, next_quiet hquiet]
  rfl

theorem read_dir_quiet (dir : String) :
    read_dir dir s = .ok ((s.mounts.lookup dir).map AList.keys) s := by
  rw [read_dir, bind_of_ok (call_quiet hquiet), bind_of_ok (get_run s)]
  cases s.mounts.lookup dir with
  | none => rfl
  | some records =>
    have hall : records.keys.filter (fun name => !({} : Moment).hides name) = records.keys :=
      List.filter_eq_self.mpr fun _ _ => rfl
    simp only [hall]
    rfl

theorem metadata_quiet (dir : String) (name : OsName) :
    metadata dir name s = .ok ((s.find dir name).map Record.toMetadata) s := by
  rw [metadata, bind_of_ok (call_quiet hquiet), bind_of_ok (get_run s)]
  cases s.find dir name <;> rfl

theorem read_quiet (dir : String) (name : OsName) :
    read dir name s = .ok ((s.find dir name).map Record.content) s := by
  rw [read, bind_of_ok (call_quiet hquiet), bind_of_ok (get_run s)]
  cases s.find dir name <;> rfl

theorem now_secs_quiet : now_secs s = .ok s.clock s := by
  rw [now_secs, bind_of_ok (call_quiet hquiet)]
  rfl

theorem on_state_dir_quiet {α : Type} (context : String) (x : FsM α) :
    ∃ dir, (∃ a, on_state_dir context x s = .ok a { s with state_dir := dir }) ∨
      on_state_dir context x s = .error (.failed context) { s with state_dir := dir } := by
  rw [on_state_dir_run, next_quiet hquiet, if_neg Bool.false_ne_true]
  cases x s.state_dir with
  | ok a dir => exact ⟨dir, Or.inl ⟨a, rfl⟩⟩
  | error e dir => exact ⟨dir, Or.inr rfl⟩

end Calls

/-- What a record that lies there becomes when it is cleared. -/
def Task.cleared (task : Task) (dir : String) (name : OsName) (record : Record) (s : World) : World :=
  if task.cfg.delete_after_capture then s.remove dir name record else s

theorem Calm.cleared {s : World} (hcalm : Calm s) (task : Task) (dir : String) (name : OsName)
    (record : Record) : Calm (task.cleared dir name record s) := by
  rw [Task.cleared]
  split
  · exact ⟨hcalm.quiet, hcalm.linked, hcalm.willing⟩
  · exact hcalm

theorem maybe_delete_quiet (task : Task) {s : World} (hquiet : s.moments = []) {dir : String}
    {name : OsName} {record : Record} (hfind : s.find dir name = some record) :
    task.maybe_delete dir name s = .ok () (task.cleared dir name record s) := by
  rw [Task.maybe_delete, Task.cleared]
  split
  · have hremove : remove_file dir name s = .ok () (s.remove dir name record) := by
      rw [remove_file, bind_of_ok (call_quiet hquiet), bind_of_ok (get_run s), hfind]
      rfl
    rw [bind_run, result, hremove]
    rfl
  · rfl

/-- Whatever becomes of it, saving the state touches nothing but the state directory. -/
theorem save_quiet (task : Task) {s : World} (hquiet : s.moments = []) :
    ∃ answer dir, result task.save s = .ok answer { s with state_dir := dir } := by
  have hsave : ∃ dir, task.save s = .ok () { s with state_dir := dir } ∨
      ∃ message, task.save s = .error (.failed message) { s with state_dir := dir } := by
    obtain ⟨first, ⟨_, hcreate⟩ | hcreate⟩ := on_state_dir_quiet hquiet
      ("create state dir " ++ task.state_dir) create_dir_all
    · rw [Task.save, bind_of_ok hcreate, bind_of_ok (get_run _)]
      cases hvec : task.json.to_vec s.state with
      | none => exact ⟨first, Or.inr ⟨_, by rfl⟩⟩
      | some bytes =>
        simp only
        obtain ⟨second, ⟨_, hwrite⟩ | hwrite⟩ := on_state_dir_quiet (s := { s with state_dir := first })
          hquiet ("write " ++ task.display (path.with_extension STATE_FILE_NAME "json.tmp"))
          (write (path.with_extension STATE_FILE_NAME "json.tmp") bytes)
        · rw [bind_of_ok hwrite]
          obtain ⟨third, ⟨_, hrename⟩ | hrename⟩ := on_state_dir_quiet
            (s := { s with state_dir := second }) hquiet ("rename into " ++ task.display STATE_FILE_NAME)
            (rename (path.with_extension STATE_FILE_NAME "json.tmp") STATE_FILE_NAME)
          · exact ⟨third, Or.inl hrename⟩
          · exact ⟨third, Or.inr ⟨_, hrename⟩⟩
        · exact ⟨second, Or.inr ⟨_, bind_of_error hwrite⟩⟩
    · exact ⟨first, Or.inr ⟨_, bind_of_error hcreate⟩⟩
  obtain ⟨dir, hok | ⟨message, herror⟩⟩ := hsave
  · exact ⟨.ok (), dir, by rw [result, hok]⟩
  · exact ⟨.error message, dir, by rw [result, herror]⟩

theorem publish_payload_calm (payload : Bytes) {s : World} (hcalm : Calm s) :
    ∃ publisher, publish_payload payload s = .ok () { s with publisher := publisher } ∧
      Calm { s with publisher := publisher } ∧
      publisher.accepted = s.publisher.accepted ++ [⟨INGEST_TOPIC, .AtMostOnce, false, payload⟩] := by
  rw [publish_payload, bind_of_ok (call_quiet hcalm.quiet)]
  simp only [zoom, MqttPublisher.publish_payload]
  rcases houtcomes : s.publisher.outcomes with _ | ⟨_ | _, outcomes⟩
  · exact ⟨_, rfl, ⟨hcalm.quiet, hcalm.linked, fun answer h => by cases h⟩, rfl⟩
  · have := hcalm.willing false (by rw [houtcomes]; exact List.mem_cons_self)
    cases this
  · refine ⟨_, rfl, ⟨hcalm.quiet, hcalm.linked, fun answer h => hcalm.willing answer ?_⟩, rfl⟩
    rw [houtcomes]
    exact List.mem_cons_of_mem _ h

/-- These fragments can be encoded. -/
def Encodes (c : Ciborium) (fragments : List Fragment) : Prop :=
  ∀ f ∈ fragments, ∃ message, fragment_message c f = .ok message

theorem publish_chunks_calm {c : Ciborium} {id : UInt64} {n : Nat} {build_id : Option String}
    {i : Nat} {pieces : List Bytes} (hencodes : Encodes c (fragments_from id n build_id i pieces))
    {s : World} (hcalm : Calm s) :
    ∃ publisher sent, publish_chunks c id n build_id i pieces s = .ok () { s with publisher := publisher } ∧
      Calm { s with publisher := publisher } ∧ publisher.accepted = s.publisher.accepted ++ sent ∧
      sent.map Except.ok = (fragments_from id n build_id i pieces).map (fragment_message c) := by
  induction pieces generalizing i s with
  | nil => exact ⟨s.publisher, [], rfl, hcalm, (List.append_nil _).symm, rfl⟩
  | cons piece pieces ih =>
    rw [fragments_from_cons] at hencodes ⊢
    obtain ⟨message, hmessage⟩ := hencodes _ List.mem_cons_self
    cases hencode : encode_chunk c id i piece (i = n - 1) build_id with
    | error e =>
      rw [fragment_message, hencode] at hmessage
      cases hmessage
    | ok payload =>
      obtain ⟨first, hfirst, hcalm, haccepted⟩ := publish_payload_calm payload hcalm
      obtain ⟨last, sent, hrest, hcalm, hsent, hmessages⟩ :=
        ih (fun f hf => hencodes f (List.mem_cons_of_mem _ hf)) hcalm
      have hown : fragment_message c ⟨id, i, piece, i = n - 1, build_id⟩ =
          .ok ⟨INGEST_TOPIC, .AtMostOnce, false, payload⟩ := by
        rw [fragment_message, hencode]
        rfl
      refine ⟨last, ⟨INGEST_TOPIC, .AtMostOnce, false, payload⟩ :: sent, ?_, hcalm, ?_, ?_⟩
      · rw [publish_chunks, hencode]
        exact (bind_of_ok hfirst).trans hrest
      · rw [hsent]
        simp only [haccepted, List.append_assoc, List.singleton_append]
      · rw [List.map_cons, List.map_cons, hmessages, hown]

theorem State.contains_insert_iff (self : State) (id own ts : UInt64) :
    (self.insert own ts).contains id = true ↔ self.contains id = true ∨ id = own := by
  constructor
  · intro hcontains
    obtain ⟨r, hr, rfl⟩ := State.contains_iff.mp hcontains
    obtain hold | rfl := State.mem_insert hr
    · exact Or.inl (State.contains_iff.mpr ⟨r, hold, rfl⟩)
    · exact Or.inr rfl
  · rintro (hold | rfl)
    · exact State.contains_insert hold
    · exact State.contains_insert_self _ _ _

namespace Task

variable (task : Task) (build_id : Option String)

/-- The fragments of a dump under the task's configuration. -/
abbrev fragments_of (dump : UInt64 × Bytes) : List Fragment :=
  fragments dump.1 dump.2 task.cfg.chunk_bytes build_id

theorem publish_core_dump_calm {id : UInt64} {content : Bytes}
    (hencodes : Encodes task.c (task.fragments_of build_id (id, content))) {s : World} (hcalm : Calm s) :
    ∃ n publisher sent,
      publish_core_dump task.c id content task.cfg.chunk_bytes build_id s =
        .ok n { s with publisher := publisher } ∧
      Calm { s with publisher := publisher } ∧ publisher.accepted = s.publisher.accepted ++ sent ∧
      sent.map Except.ok = (task.fragments_of build_id (id, content)).map (fragment_message task.c) := by
  obtain ⟨publisher, sent, hrun, hcalm, haccepted, hsent⟩ := publish_chunks_calm hencodes hcalm
  exact ⟨_, publisher, sent, bind_of_ok hrun, hcalm, haccepted, hsent⟩

section Sweep

/-- From `s` to `t` these dumps have been delivered, one after another: all their fragments have
been sent, and their ids are what has become known. Nothing has changed in the directories but
that records of known ids may have been cleared. -/
structure Sweeps (s t : World) (dumps : List (UInt64 × Bytes)) : Prop where
  calm : Calm t
  sent : ∃ sent, t.publisher.accepted = s.publisher.accepted ++ sent ∧
    sent.map Except.ok = (dumps.flatMap (task.fragments_of build_id)).map (fragment_message task.c)
  known : ∀ id, t.state.contains id = true ↔ s.state.contains id = true ∨ id ∈ dumps.map Prod.fst
  once : (dumps.map Prod.fst).Nodup
  news : ∀ dump ∈ dumps, s.state.contains dump.1 = false
  lay : ∀ dump ∈ dumps, dump.2 ≠ [] ∧ ∃ dir ∈ task.cfg.paths, ∃ name record,
    s.find dir name = some record ∧ collected_id task.cfg (name, record) = some dump.1 ∧
      capped task.cfg (name, record) = dump.2
  find : ∀ dir name, t.find dir name = s.find dir name ∨
    (t.find dir name = none ∧ task.cfg.delete_after_capture = true ∧ dir ∈ task.cfg.paths ∧
      ∃ record id, s.find dir name = some record ∧ collected_id task.cfg (name, record) = some id ∧
        t.state.contains id = true)

/-- There was nothing to be sent of the entry, or its id is known now, and it has been cleared if
that is wanted. -/
def Swept (s t : World) (dir : String) (name : OsName) : Prop :=
  ∀ record id, s.find dir name = some record → collected_id task.cfg (name, record) = some id →
    capped task.cfg (name, record) ≠ [] → t.state.contains id = true ∧
      (task.cfg.delete_after_capture = true → t.find dir name = none)

variable {task build_id} {s t u : World} {dumps : List (UInt64 × Bytes)}

theorem Sweeps.refl (hcalm : Calm s) : task.Sweeps build_id s s [] where
  calm := hcalm
  sent := ⟨[], (List.append_nil _).symm, rfl⟩
  known id := by simp
  once := List.nodup_nil
  news _ hmem := by cases hmem
  lay _ hmem := by cases hmem
  find _ _ := Or.inl rfl

/-- What is known stays known, and what is gone stays gone. -/
structure Follows (t u : World) : Prop where
  known : ∀ id, t.state.contains id = true → u.state.contains id = true
  gone : ∀ dir name, t.find dir name = none → u.find dir name = none

theorem Follows.refl (t : World) : Follows t t := ⟨fun _ h => h, fun _ _ h => h⟩

theorem Follows.trans {v : World} (hfirst : Follows t u) (hrest : Follows u v) : Follows t v :=
  ⟨fun id h => hrest.known id (hfirst.known id h), fun d n h => hrest.gone d n (hfirst.gone d n h)⟩

/-- A record that has been visited stays visited. -/
theorem Swept.mono {dir : String} {name : OsName} (hswept : task.Swept s t dir name)
    (hfollows : Follows t u) : task.Swept s u dir name := by
  intro record id hfind hid hnonempty
  obtain ⟨hcontains, hcleared⟩ := hswept record id hfind hid hnonempty
  exact ⟨hfollows.known id hcontains, fun hdelete => hfollows.gone dir name (hcleared hdelete)⟩

theorem find_cleared (task : Task) (dir : String) (name : OsName) (record : Record) (s : World)
    (d : String) (n : OsName) : (task.cleared dir name record s).find d n =
      if task.cfg.delete_after_capture = true ∧ d = dir ∧ n = name then none else s.find d n := by
  rw [cleared]
  by_cases hdelete : task.cfg.delete_after_capture = true
  · rw [if_pos hdelete, World.find_remove]
    simp only [hdelete, true_and]
  · rw [if_neg hdelete, if_neg fun h => hdelete h.1]

theorem state_cleared (task : Task) (dir : String) (name : OsName) (record : Record) (s : World) :
    (task.cleared dir name record s).state = s.state ∧
      (task.cleared dir name record s).publisher = s.publisher := by
  rw [cleared]
  split <;> exact ⟨rfl, rfl⟩

/-- A record of a known id is cleared. -/
theorem Sweeps.clear (hsweeps : task.Sweeps build_id s t dumps) {dir : String} {name : OsName}
    {record : Record} {id : UInt64} (hdir : dir ∈ task.cfg.paths) (hfind : t.find dir name = some record)
    (hid : collected_id task.cfg (name, record) = some id) (hknown : t.state.contains id = true) :
    task.Sweeps build_id s (task.cleared dir name record t) dumps := by
  obtain ⟨hstate, hpublisher⟩ := state_cleared task dir name record t
  refine ⟨hsweeps.calm.cleared task dir name record, ?_, ?_, hsweeps.once, hsweeps.news, hsweeps.lay, ?_⟩
  · rw [hpublisher]
    exact hsweeps.sent
  · rw [hstate]
    exact hsweeps.known
  · intro d n
    rw [find_cleared, hstate]
    split
    · next hcleared =>
      obtain ⟨hdelete, rfl, rfl⟩ := hcleared
      refine Or.inr ⟨rfl, hdelete, hdir, record, id, ?_, hid, hknown⟩
      obtain hsame | ⟨hnone, -⟩ := hsweeps.find d n
      · rw [← hsame, hfind]
      · rw [hnone] at hfind
        cases hfind
    · exact hsweeps.find d n

/-- One more dump is delivered. -/
theorem Sweeps.deliver (hsweeps : task.Sweeps build_id s t dumps) {dir : String} {name : OsName}
    {record : Record} {id : UInt64} (hdir : dir ∈ task.cfg.paths) (hfind : t.find dir name = some record)
    (hid : collected_id task.cfg (name, record) = some id) (hunknown : t.state.contains id = false)
    (hnonempty : capped task.cfg (name, record) ≠ []) {publisher : MqttPublisher} {sent : List Message}
    (hcalm : Calm { t with publisher := publisher })
    (haccepted : publisher.accepted = t.publisher.accepted ++ sent)
    (hsent : sent.map Except.ok = (task.fragments_of build_id (id, capped task.cfg (name, record))).map
      (fragment_message task.c)) (now : UInt64) (state_dir : Fs) :
    task.Sweeps build_id s { t with
      publisher := publisher
      state := t.state.insert id now
      state_dir := state_dir } (dumps ++ [(id, capped task.cfg (name, record))]) := by
  have hbefore : ¬ (s.state.contains id = true ∨ id ∈ dumps.map Prod.fst) := by
    rw [← hsweeps.known, hunknown]
    exact Bool.false_ne_true
  obtain ⟨hnew, hother⟩ := not_or.mp hbefore
  have hlay : s.find dir name = some record := by
    obtain hsame | ⟨hnone, -⟩ := hsweeps.find dir name
    · rw [← hsame, hfind]
    · rw [hnone] at hfind
      cases hfind
  have hknown : ∀ own, (t.state.insert id now).contains own = true ↔
      t.state.contains own = true ∨ own = id := fun own => State.contains_insert_iff _ own id now
  refine ⟨⟨hcalm.quiet, hcalm.linked, hcalm.willing⟩, ?_, ?_, ?_, ?_, ?_, ?_⟩
  · obtain ⟨earlier, hearlier, hmessages⟩ := hsweeps.sent
    refine ⟨earlier ++ sent, ?_, ?_⟩
    · rw [haccepted, hearlier, List.append_assoc]
    · rw [List.map_append, hmessages, hsent, List.flatMap_append, List.map_append, List.flatMap_singleton]
  · intro own
    rw [hknown, hsweeps.known, List.map_append, List.mem_append, List.map_singleton, List.mem_singleton,
      or_assoc]
  · rw [List.map_append, List.map_singleton, List.nodup_append]
    refine ⟨hsweeps.once, List.nodup_singleton _, fun own hown other hmem heq => ?_⟩
    rw [List.mem_singleton] at hmem
    rw [heq, hmem] at hown
    exact hother hown
  · intro dump hdump
    obtain hold | hlast := List.mem_append.mp hdump
    · exact hsweeps.news dump hold
    · rw [List.mem_singleton.mp hlast]
      exact Bool.eq_false_iff.mpr hnew
  · intro dump hdump
    obtain hold | hlast := List.mem_append.mp hdump
    · exact hsweeps.lay dump hold
    · rw [List.mem_singleton.mp hlast]
      exact ⟨hnonempty, dir, hdir, name, record, hlay, hid, rfl⟩
  · intro d n
    obtain hsame | ⟨hnone, hdelete, hd, r, own, hr, hown, hcontains⟩ := hsweeps.find d n
    · exact Or.inl hsame
    · exact Or.inr ⟨hnone, hdelete, hd, r, own, hr, hown, (hknown own).mpr (Or.inl hcontains)⟩

/-- What a visit leads to. -/
def Goes (task : Task) (build_id : Option String) (s t u : World) (dumps : List (UInt64 × Bytes))
    (dir : String) (name : OsName) : Prop :=
  ∃ more, task.Sweeps build_id s u (dumps ++ more) ∧ task.Swept s u dir name ∧ Follows t u

/-- The dumps that lie there can be encoded. -/
def AllEncode (task : Task) (build_id : Option String) (s : World) : Prop :=
  ∀ dir ∈ task.cfg.paths, ∀ name record id, s.find dir name = some record →
    collected_id task.cfg (name, record) = some id →
    Encodes task.c (task.fragments_of build_id (id, capped task.cfg (name, record)))

/-- Clearing a record of a known id. -/
theorem Sweeps.goes_clear (hsweeps : task.Sweeps build_id s t dumps) {dir : String} {name : OsName}
    {record : Record} {id : UInt64} (hdir : dir ∈ task.cfg.paths) (hfind : t.find dir name = some record)
    (hid : collected_id task.cfg (name, record) = some id) (hknown : t.state.contains id = true) :
    task.Goes build_id s t (task.cleared dir name record t) dumps dir name := by
  have hclear := hsweeps.clear hdir hfind hid hknown
  obtain ⟨hstate, -⟩ := state_cleared task dir name record t
  refine ⟨[], by rwa [List.append_nil], ?_, fun own h => by rwa [hstate], fun d n hnone => ?_⟩
  · intro r own hr hown hnonempty
    obtain hsame | ⟨hnone, -⟩ := hsweeps.find dir name
    · obtain rfl : record = r := Option.some.inj (hfind.symm.trans (hsame.trans hr))
      obtain rfl := Option.some.inj (hid.symm.trans hown)
      refine ⟨by rwa [hstate], fun hdelete => ?_⟩
      rw [find_cleared, if_pos ⟨hdelete, rfl, rfl⟩]
    · rw [hnone] at hfind
      cases hfind
  · rw [find_cleared]
    split
    · rfl
    · exact hnone

/-- After the last chunk the id is entered and the record cleared, whether or not the state can be
saved. -/
theorem delivered_quiet (task : Task) (hquiet : s.moments = []) {dir fname : String} {record : Record}
    (hfind : s.find dir (.utf8 fname) = some record) (id : UInt64) :
    ∃ state_dir, task.delivered dir fname id s = .ok .done (task.cleared dir (.utf8 fname) record
      { s with state := s.state.insert id s.clock, state_dir := state_dir }) := by
  obtain ⟨answer, state_dir, hsave⟩ :=
    save_quiet task (s := { s with state := s.state.insert id s.clock }) hquiet
  have hdelete := maybe_delete_quiet task
    (s := { s with state := s.state.insert id s.clock, state_dir := state_dir }) hquiet hfind
  refine ⟨state_dir, (bind_of_ok (now_secs_quiet hquiet)).trans ?_⟩
  exact (bind_of_ok hsave).trans (bind_of_ok hdelete)

theorem upload_calm (hsweeps : task.Sweeps build_id s t dumps) {dir fname : String} {record : Record}
    {id : UInt64} (hdir : dir ∈ task.cfg.paths) (hfind : t.find dir (.utf8 fname) = some record)
    (hid : collected_id task.cfg (.utf8 fname, record) = some id) (hunknown : t.state.contains id = false)
    (hencodes : Encodes task.c (task.fragments_of build_id (id, capped task.cfg (.utf8 fname, record)))) :
    ∃ u, task.upload build_id dir fname id t = .ok .done u ∧
      task.Goes build_id s t u dumps dir (.utf8 fname) := by
  have hread : result (read_capped dir fname task.cfg.max_bytes) t =
      .ok (.ok (capped task.cfg (.utf8 fname, record))) t := by
    rw [result, read_capped, bind_of_ok (read_quiet hsweeps.calm.quiet dir _), hfind]
    rfl
  rw [upload, bind_of_ok hread]
  by_cases hempty : capped task.cfg (.utf8 fname, record) = []
  · simp only [hempty, List.isEmpty_nil, if_true]
    refine ⟨t, rfl, [], by rwa [List.append_nil], fun r own hr hown hnonempty => ?_, .refl t⟩
    obtain hsame | ⟨hnone, -⟩ := hsweeps.find dir (.utf8 fname)
    · obtain rfl : record = r := Option.some.inj (hfind.symm.trans (hsame.trans hr))
      exact absurd hempty hnonempty
    · rw [hnone] at hfind
      cases hfind
  · have hsome : (capped task.cfg (.utf8 fname, record)).isEmpty = false := by
      rwa [Bool.eq_false_iff, ne_eq, List.isEmpty_iff]
    obtain ⟨n, publisher, sent, hpublish, hcalm, haccepted, hsent⟩ :=
      publish_core_dump_calm task build_id hencodes hsweeps.calm
    have hpublish : result (publish_core_dump task.c id (capped task.cfg (.utf8 fname, record))
        task.cfg.chunk_bytes build_id) t = .ok (.ok n) { t with publisher := publisher } := by
      rw [result, hpublish]
    obtain ⟨state_dir, hdelivered⟩ := delivered_quiet task (s := { t with publisher := publisher })
      hsweeps.calm.quiet hfind id
    have hdeliver := hsweeps.deliver hdir hfind hid hunknown hempty hcalm haccepted hsent t.clock state_dir
    have hknown : (t.state.insert id t.clock).contains id = true := State.contains_insert_self _ _ _
    obtain ⟨more, hgoes, hswept, hfollows⟩ := hdeliver.goes_clear hdir hfind hid hknown
    simp only [hsome, Bool.false_eq_true, if_false]
    have hstart : Follows t { t with
        publisher := publisher
        state := t.state.insert id t.clock
        state_dir := state_dir } := ⟨fun _ h => State.contains_insert h, fun _ _ h => h⟩
    refine ⟨_, ?_, _, by rw [← List.append_assoc]; exact hgoes, hswept, hstart.trans hfollows⟩
    exact (bind_of_ok hpublish).trans hdelivered

/-- An entry that the task does not collect, or that is not there any more. -/
theorem Sweeps.goes_on (hsweeps : task.Sweeps build_id s t dumps) {dir : String} {name : OsName}
    (hnone : ∀ record, t.find dir name = some record → collected_id task.cfg (name, record) = none) :
    task.Goes build_id s t t dumps dir name := by
  refine ⟨[], by rwa [List.append_nil], fun record id hfind hid _ => ?_, .refl t⟩
  obtain hsame | ⟨hgone, -, -, r, own, hr, hown, hknown⟩ := hsweeps.find dir name
  · have := hnone record (hsame.trans hfind)
    rw [hid] at this
    cases this
  · obtain rfl := Option.some.inj (hfind.symm.trans hr)
    obtain rfl := Option.some.inj (hid.symm.trans hown)
    exact ⟨hknown, fun _ => hgone⟩

theorem visit_calm (hsweeps : task.Sweeps build_id s t dumps) (hencodes : task.AllEncode build_id s)
    {dir : String} (hdir : dir ∈ task.cfg.paths) (name : OsName) :
    ∃ u, task.visit build_id true dir name t = .ok .done u ∧ task.Goes build_id s t u dumps dir name := by
  cases name with
  | other bytes => exact ⟨t, rfl, hsweeps.goes_on fun record _ => rfl⟩
  | utf8 fname =>
    rw [visit]
    by_cases hkind : matches_kind fname task.cfg.kinds = true
    · rw [hkind, Bool.not_true, if_neg Bool.false_ne_true,
        bind_of_ok (metadata_quiet hsweeps.calm.quiet dir (.utf8 fname))]
      cases hfind : t.find dir (.utf8 fname) with
      | none =>
        exact ⟨t, rfl, hsweeps.goes_on fun record h => by rw [hfind] at h; cases h⟩
      | some record =>
        simp only [Option.map_some]
        by_cases hfile : record.is_file = true
        · have hid : collected_id task.cfg (.utf8 fname, record) =
              some (core_dump_id fname (mtime_secs record.modified)) := by
            rw [collected_id, if_pos ⟨hkind, hfile⟩]
          simp only [hfile, Bool.not_true, Bool.false_eq_true, if_false]
          rw [bind_of_ok (get_run t)]
          by_cases hknown : t.state.contains (core_dump_id fname (mtime_secs record.modified)) = true
          · rw [if_pos hknown]
            exact ⟨_, bind_of_ok (maybe_delete_quiet task hsweeps.calm.quiet hfind),
              hsweeps.goes_clear hdir hfind hid hknown⟩
          · rw [if_neg hknown]
            have hlay : s.find dir (.utf8 fname) = some record := by
              obtain hsame | ⟨hnone, -⟩ := hsweeps.find dir (.utf8 fname)
              · rw [← hsame, hfind]
              · rw [hnone] at hfind
                cases hfind
            exact upload_calm hsweeps hdir hfind hid (Bool.eq_false_iff.mpr hknown)
              (hencodes dir hdir _ record _ hlay hid)
        · rw [Bool.not_eq_true] at hfile
          refine ⟨t, by simp only [hfile, Bool.not_false, if_true]; rfl, hsweeps.goes_on fun r hr => ?_⟩
          obtain rfl := Option.some.inj (hfind.symm.trans hr)
          rw [collected_id, if_neg (by simp [hfile])]
    · refine ⟨t, by rw [if_pos (by simp [hkind])]; rfl, hsweeps.goes_on fun record _ => ?_⟩
      rw [collected_id, if_neg fun h => hkind h.1]

theorem scan_entries_calm (hsweeps : task.Sweeps build_id s t dumps)
    (hencodes : task.AllEncode build_id s) {dir : String} (hdir : dir ∈ task.cfg.paths)
    (names : List OsName) (deferred : Nat) :
    ∃ u more, task.scan_entries build_id true dir names deferred t = .ok (some deferred) u ∧
      task.Sweeps build_id s u (dumps ++ more) ∧ (∀ name ∈ names, task.Swept s u dir name) ∧
      Follows t u := by
  induction names generalizing t dumps with
  | nil =>
    exact ⟨t, [], rfl, by rwa [List.append_nil], fun _ h => (List.not_mem_nil h).elim, .refl t⟩
  | cons name names ih =>
    obtain ⟨u, hvisit, more, hgoes, hswept, hfollows⟩ := visit_calm hsweeps hencodes hdir name
    obtain ⟨v, later, hrest, hsweeps, hall, hfollows'⟩ := ih hgoes
    refine ⟨v, more ++ later, ?_, by rwa [← List.append_assoc], ?_, hfollows.trans hfollows'⟩
    · rw [scan_entries, bind_of_ok hvisit]
      exact hrest
    · intro n hn
      obtain rfl | hn := List.mem_cons.mp hn
      · exact hswept.mono hfollows'
      · exact hall n hn

/-- A name that is not listed belongs to no record, or to one that has been swept. -/
theorem Sweeps.swept_of_not_mem (hsweeps : task.Sweeps build_id s t dumps) {dir : String} {name : OsName}
    (hgone : t.find dir name = none) : task.Swept s t dir name := by
  intro record id hfind hid hnonempty
  obtain hsame | ⟨-, -, -, r, own, hr, hown, hknown⟩ := hsweeps.find dir name
  · rw [← hsame, hgone] at hfind
    cases hfind
  · obtain rfl := Option.some.inj (hfind.symm.trans hr)
    obtain rfl := Option.some.inj (hid.symm.trans hown)
    exact ⟨hknown, fun _ => hgone⟩

theorem scan_dirs_calm (hsweeps : task.Sweeps build_id s t dumps) (hencodes : task.AllEncode build_id s)
    {dirs : List String} (hdirs : ∀ dir ∈ dirs, dir ∈ task.cfg.paths) (deferred : Nat) :
    ∃ u more, task.scan_dirs build_id true dirs deferred t = .ok (some deferred) u ∧
      task.Sweeps build_id s u (dumps ++ more) ∧ (∀ dir ∈ dirs, ∀ name, task.Swept s u dir name) ∧
      Follows t u := by
  induction dirs generalizing t dumps with
  | nil =>
    exact ⟨t, [], rfl, by rwa [List.append_nil], fun _ h => (List.not_mem_nil h).elim, .refl t⟩
  | cons dir dirs ih =>
    have hdir := hdirs dir List.mem_cons_self
    have hdirs := fun d hd => hdirs d (List.mem_cons_of_mem _ hd)
    rw [scan_dirs, bind_of_ok (read_dir_quiet hsweeps.calm.quiet dir)]
    cases hmount : t.mounts.lookup dir with
    | none =>
      have hunmounted : ∀ name, t.find dir name = none := by
        intro name
        rw [World.find, hmount]
        rfl
      obtain ⟨u, more, hrest, hsweeps', hall, hfollows⟩ := ih hsweeps hdirs
      refine ⟨u, more, hrest, hsweeps', fun d hd name => ?_, hfollows⟩
      obtain rfl | hd := List.mem_cons.mp hd
      · exact (hsweeps.swept_of_not_mem (hunmounted name)).mono hfollows
      · exact hall d hd name
    | some records =>
      obtain ⟨u, more, hentries, hsweeps', hnames, hfollows⟩ :=
        scan_entries_calm hsweeps hencodes hdir records.keys deferred
      obtain ⟨v, later, hrest, hsweeps'', hall, hfollows'⟩ := ih hsweeps' hdirs
      refine ⟨v, more ++ later, ?_, by rwa [← List.append_assoc], fun d hd name => ?_,
        hfollows.trans hfollows'⟩
      · simp only [Option.map_some]
        rw [bind_of_ok hentries]
        exact hrest
      · obtain rfl | hd := List.mem_cons.mp hd
        · by_cases hlisted : name ∈ records.keys
          · exact (hnames name hlisted).mono hfollows'
          · have hnone : t.find d name = none := by
              rw [World.find, hmount]
              exact AList.lookup_eq_none.mpr fun h => hlisted (AList.mem_keys.mp h)
            exact (hsweeps.swept_of_not_mem hnone).mono (hfollows.trans hfollows')
        · exact hall d hd name

theorem scan_calm (hcalm : Calm s) (hencodes : task.AllEncode build_id s) :
    ∃ t dumps, task.scan_and_publish build_id s = .ok .Idle t ∧ task.Sweeps build_id s t dumps ∧
      ∀ dir ∈ task.cfg.paths, ∀ name, task.Swept s t dir name := by
  obtain ⟨t, dumps, hdirs, hsweeps, hswept, -⟩ :=
    scan_dirs_calm (.refl hcalm) hencodes (fun dir hdir => hdir) 0
  refine ⟨t, dumps, ?_, hsweeps, hswept⟩
  have hlinked : s.publisher.is_connected = true := hcalm.linked
  rw [scan_and_publish, bind_of_ok (get_run s), hlinked, bind_of_ok hdirs]
  rfl

end Sweep

/-- Chunks of two bytes. -/
def choppy : Task := { dumps with cfg := { enabled := true, chunk_bytes := 2 } }

/-- A dump in two chunks, an empty one, and a file of another kind. -/
def crowded : World :=
  [dump "0" 5 [1, 2, 3], dump "1" 7 [], { dump "2" 9 [2] with name := .utf8 "pmsg-ramoops-0" }].foldl
    World.appear { idle.world with publisher := ⟨true, [true], [], []⟩ }

theorem allEncode_crowded : choppy.AllEncode none crowded := by
  have hall : (crowded.lying choppy.cfg).all (fun found => (collected_id choppy.cfg found).all fun id =>
      (choppy.fragments_of none (id, capped choppy.cfg found)).all fun f =>
        (fragment_message choppy.c f).toOption.isSome) = true := by
    decide +kernel
  intro dir hdir name record id hfind hid f hf
  have hlies : crowded.Lies choppy.cfg (name, record) := ⟨dir, hdir, hfind⟩
  have hfound := List.all_eq_true.mp hall _ hlies.mem
  rw [hid, Option.all_some, List.all_eq_true] at hfound
  obtain ⟨message, hmessage⟩ := Option.isSome_iff_exists.mp (hfound f hf)
  cases hrun : fragment_message choppy.c f with
  | error e =>
    rw [hrun] at hmessage
    cases hmessage
  | ok message => exact ⟨message, rfl⟩

end Task

end spotflowd.sources.crashdump
