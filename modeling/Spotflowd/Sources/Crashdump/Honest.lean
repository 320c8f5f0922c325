import Spotflowd.Sources.Crashdump.Save

open chunked effect fs path
open spotflowd.config spotflowd.mqtt

namespace spotflowd.sources.crashdump

/-- A record under its name. -/
abbrev Found := OsName × Record

/-- The id under which the task collects a record, if it does. -/
def collected_id (cfg : CrashdumpConfig) : Found → Option UInt64
  | (.utf8 fname, record) =>
    if matches_kind fname cfg.kinds ∧ record.is_file then
      some (core_dump_id fname (mtime_secs record.modified))
    else none
  | (.other _, _) => none

/-- What is uploaded of a record. -/
def capped (cfg : CrashdumpConfig) (found : Found) : Bytes := found.2.content.take cfg.max_bytes

def Removal.found (removal : Removal) : Found := (removal.name, removal.record)

/-- The record lies in a configured directory. -/
def World.Lies (cfg : CrashdumpConfig) (s : World) (found : Found) : Prop :=
  ∃ dir ∈ cfg.paths, s.find dir found.1 = some found.2

/-- The record that was removed last under an id, of those with something to upload. -/
def World.last_removed (cfg : CrashdumpConfig) (s : World) (id : UInt64) : Option Found :=
  ((s.removed.map Removal.found).filter fun found =>
    collected_id cfg found = some id ∧ capped cfg found ≠ []).getLast?

namespace Task

variable (task : Task)

/-- All messages that carry some content have been accepted. -/
def Uploaded (accepted : List Message) (id : UInt64) (content : Bytes) : Prop :=
  ∃ build_id, ∀ i chunk, (chunks (max task.cfg.chunk_bytes 1) content)[i]? = some chunk →
    ∃ payload,
      encode_chunk task.c id i chunk
        (i = (chunks (max task.cfg.chunk_bytes 1) content).length - 1) build_id = .ok payload ∧
      ⟨INGEST_TOPIC, .AtMostOnce, false, payload⟩ ∈ accepted

/-- A record was removed after its own content had been uploaded. -/
def RightlyRemoved (removal : Removal) : Prop :=
  ∃ id, collected_id task.cfg removal.found = some id ∧
    task.Uploaded removal.accepted id (capped task.cfg removal.found)

/-- A record that accounts for a delivered id, and is still within sight. -/
structure Accounts (s : World) (id : UInt64) (found : Found) : Prop where
  collected : collected_id task.cfg found = some id
  nonempty : capped task.cfg found ≠ []
  uploaded : task.Uploaded s.publisher.accepted id (capped task.cfg found)
  traced : s.Lies task.cfg found ∨ s.last_removed task.cfg id = some found

/-- Every delivered id is accounted for. Records that lie in the configured directories or will
appear there are in `A`, those that account for the ids in memory are in `B`. -/
structure Honest (A B : Found → Prop) (s : World) : Prop where
  lying : ∀ found, s.Lies task.cfg found → A found
  coming : ∀ moment ∈ s.moments, ∀ arrival ∈ moment.arrivals, arrival.dir ∈ task.cfg.paths →
    A (arrival.name, arrival.record)
  memory : ∀ r ∈ s.state.delivered, ∃ found, B found ∧ task.Accounts s r.id found
  file : ∀ bytes state, s.state_dir.files.lookup STATE_FILE_NAME = some bytes →
    task.json.from_slice bytes = some state →
    ∀ r ∈ state.delivered, ∃ found, task.Accounts s r.id found
  removed : ∀ removal ∈ s.removed, task.RightlyRemoved removal

/-- Two records with one id and different contents. -/
def Mistakable (a b : Found) : Prop :=
  (collected_id task.cfg a).isSome ∧ collected_id task.cfg a = collected_id task.cfg b ∧
    capped task.cfg a ≠ [] ∧ capped task.cfg b ≠ [] ∧ capped task.cfg a ≠ capped task.cfg b

variable {task}

theorem Uploaded.mono {accepted accepted' : List Message} {id : UInt64} {content : Bytes}
    (huploaded : task.Uploaded accepted id content) (hsub : accepted ⊆ accepted') :
    task.Uploaded accepted' id content := by
  obtain ⟨build_id, hchunks⟩ := huploaded
  refine ⟨build_id, ?_⟩
  intro i chunk hchunk
  obtain ⟨payload, hencode, hmem⟩ := hchunks i chunk hchunk
  exact ⟨payload, hencode, hsub hmem⟩

/-- Nothing has to be sent of an empty record. -/
theorem Uploaded.empty (accepted : List Message) (id : UInt64) : task.Uploaded accepted id [] := by
  refine ⟨none, ?_⟩
  intro i chunk hchunk
  simp at hchunk

theorem Accounts.evolves {s t : World} {id : UInt64} {found : Found} (hevolves : Evolves s t)
    (haccounts : task.Accounts s id found) : task.Accounts t id found where
  collected := haccounts.collected
  nonempty := haccounts.nonempty
  uploaded := haccounts.uploaded.mono hevolves.accepted.subset
  traced := by
    obtain ⟨dir, hdir, hfind⟩ | hlast := haccounts.traced
    · exact Or.inl ⟨dir, hdir, hevolves.stays dir _ _ hfind⟩
    · rw [World.last_removed, hevolves.removed]
      exact Or.inr hlast

section Honest

variable {A B : Found → Prop}

theorem Honest.evolves (s t : World) (hevolves : Evolves s t) (hhonest : task.Honest A B s) :
    task.Honest A B t where
  lying := by
    rintro ⟨name, record⟩ ⟨dir, hdir, hfind⟩
    obtain hthere | ⟨moment, hmoment, harrival⟩ := hevolves.appears dir name record hfind
    · exact hhonest.lying _ ⟨dir, hdir, hthere⟩
    · exact hhonest.coming moment hmoment _ harrival hdir
  coming moment hmoment := hhonest.coming moment (hevolves.coming.subset hmoment)
  memory := by
    intro r hr
    rw [hevolves.state] at hr
    obtain ⟨found, hB, haccounts⟩ := hhonest.memory r hr
    exact ⟨found, hB, haccounts.evolves hevolves⟩
  file := by
    intro bytes state hfile hstate r hr
    rw [hevolves.file] at hfile
    obtain ⟨found, haccounts⟩ := hhonest.file bytes state hfile hstate r hr
    exact ⟨found, haccounts.evolves hevolves⟩
  removed := by
    rw [hevolves.removed]
    exact hhonest.removed

theorem last_removed_remove (s : World) (dir : String) (name : OsName) (record : Record)
    (cfg : CrashdumpConfig) (id : UInt64) :
    (s.remove dir name record).last_removed cfg id =
      if collected_id cfg (name, record) = some id ∧ capped cfg (name, record) ≠ [] then
        some (name, record)
      else s.last_removed cfg id := by
  simp only [World.last_removed, World.remove, List.map_append, List.filter_append, List.map_cons,
    List.map_nil, Removal.found]
  split
  · next hid =>
    rw [List.filter_cons_of_pos (by simpa using hid)]
    simp
  · next hid =>
    rw [List.filter_cons_of_neg (by simpa using hid)]
    simp

/-- When a record is removed, a record of the same id takes its place. -/
theorem Accounts.remove {s : World} {dir : String} {name : OsName} {record : Record}
    {own id : UInt64} {found : Found} (hown : collected_id task.cfg (name, record) = some own)
    (huploaded : task.Uploaded s.publisher.accepted own (capped task.cfg (name, record)))
    (hfind : s.find dir name = some record) (haccounts : task.Accounts s id found) :
    task.Accounts (s.remove dir name record) id found ∨
      task.Accounts (s.remove dir name record) id (name, record) := by
  have hlast := last_removed_remove s dir name record task.cfg id
  by_cases hsame : collected_id task.cfg (name, record) = some id ∧ capped task.cfg (name, record) ≠ []
  · rw [if_pos hsame] at hlast
    obtain rfl := Option.some.inj (hown.symm.trans hsame.1)
    exact Or.inr ⟨hown, hsame.2, huploaded, Or.inr hlast⟩
  · rw [if_neg hsame] at hlast
    refine Or.inl ⟨haccounts.collected, haccounts.nonempty, haccounts.uploaded, ?_⟩
    obtain ⟨d, hd, hthere⟩ | hgone := haccounts.traced
    · refine Or.inl ⟨d, hd, ?_⟩
      rw [World.find_remove, if_neg]
      · exact hthere
      · rintro ⟨rfl, hname⟩
        rw [hname, hfind] at hthere
        have hfound : found = (name, record) := Prod.ext hname (Option.some.inj hthere).symm
        rw [← hfound] at hsame
        exact hsame ⟨haccounts.collected, haccounts.nonempty⟩
    · exact Or.inr (hlast.trans hgone)

theorem Honest.remove (hsub : ∀ found, A found → B found) {s : World} {dir : String}
    (hdir : dir ∈ task.cfg.paths) {name : OsName} {record : Record} {own : UInt64} (hown : collected_id task.cfg (name, record) = some own)
    (huploaded : task.Uploaded s.publisher.accepted own (capped task.cfg (name, record)))
    (hfind : s.find dir name = some record) (hhonest : task.Honest A B s) :
    task.Honest A B (s.remove dir name record) where
  lying := by
    rintro found ⟨d, hd, hthere⟩
    rw [World.find_remove] at hthere
    split at hthere
    · cases hthere
    · exact hhonest.lying found ⟨d, hd, hthere⟩
  coming := hhonest.coming
  memory := by
    intro r hr
    obtain ⟨found, hB, haccounts⟩ := hhonest.memory r hr
    obtain hkept | hreplaced := haccounts.remove hown huploaded hfind
    · exact ⟨found, hB, hkept⟩
    · exact ⟨(name, record), hsub _ (hhonest.lying _ ⟨dir, hdir, hfind⟩), hreplaced⟩
  file := by
    intro bytes state hfile hstate r hr
    obtain ⟨found, haccounts⟩ := hhonest.file bytes state hfile hstate r hr
    obtain hkept | hreplaced := haccounts.remove hown huploaded hfind
    · exact ⟨found, hkept⟩
    · exact ⟨(name, record), hreplaced⟩
  removed := by
    intro removal hremoval
    obtain hold | hnew := List.mem_append.mp hremoval
    · exact hhonest.removed removal hold
    · rw [List.mem_singleton.mp hnew]
      exact ⟨own, hown, huploaded⟩

/-- A property that no call disturbs. -/
def Steady (P : World → Prop) : Prop := ∀ s t, Evolves s t → P s → P t

theorem Steady.and {P Q : World → Prop} (hP : Steady P) (hQ : Steady Q) :
    Steady fun s => P s ∧ Q s :=
  fun s t hevolves h => ⟨hP s t hevolves h.1, hQ s t hevolves h.2⟩

theorem steady_find (dir : String) (name : OsName) (record : Record) :
    Steady fun s => s.find dir name = some record :=
  fun _ _ hevolves hfind => hevolves.stays dir name record hfind

theorem steady_uploaded (task : Task) (id : UInt64) (content : Bytes) :
    Steady fun s => task.Uploaded s.publisher.accepted id content :=
  fun _ _ hevolves huploaded => huploaded.mono hevolves.accepted.subset

/-- A metadata call answers what it finds. -/
theorem metadata_triple {P : World → Prop} (hnext : ∀ s, P s → P s.next.2) (dir : String) (name : OsName) :
    Triple P (metadata dir name)
      (fun stat s => P s ∧ ∀ m, stat = some m → ∃ record, s.find dir name = some record ∧
        record.toMetadata = m)
      fun _ => P := by
  apply Triple.bind (call_triple hnext)
  intro moment
  apply Triple.bind Triple.get
  intro s
  split
  · next record hfind _ =>
    apply Triple.pure
    rintro t ⟨ht, rfl⟩
    refine ⟨ht, ?_⟩
    rintro m ⟨⟩
    exact ⟨record, hfind, rfl⟩
  · apply Triple.pure
    rintro t ⟨ht, rfl⟩
    exact ⟨ht, fun m hm => by cases hm⟩

/-- A visit clears a record that is known to be delivered, uploads one that is not, or does
nothing. -/
theorem visit_rule {task : Task} {P : World → Prop} {build_id : Option String} {connected : Bool}
    {dir : String} {name : OsName} (hnext : ∀ s, P s → P s.next.2)
    (hdelete : ∀ record own, collected_id task.cfg (name, record) = some own →
      Triple (fun s => P s ∧ s.find dir name = some record ∧ s.state.contains own = true)
        (task.maybe_delete dir name) (fun _ => P) fun _ => P)
    (hupload : ∀ fname record own, name = .utf8 fname →
      collected_id task.cfg (name, record) = some own →
      Triple (fun s => P s ∧ s.find dir name = some record ∧ s.state.contains own = false)
        (task.upload build_id dir fname own) (fun _ => P) fun _ => P) :
    Triple P (task.visit build_id connected dir name) (fun _ => P) fun _ => P := by
  cases name with
  | other bytes => exact Triple.pure fun s hs => hs
  | utf8 fname =>
    rw [Task.visit]
    split
    · exact Triple.pure fun s hs => hs
    · next hkind =>
      apply Triple.bind (metadata_triple hnext dir (.utf8 fname))
      intro stat
      cases stat with
      | none => exact Triple.pure fun s hs => hs.1
      | some stat =>
        simp only
        split
        · exact Triple.pure fun s hs => hs.1
        · next hfile =>
          apply Triple.bind Triple.get
          intro s
          have hcollected : ∀ record : Record, record.toMetadata = stat →
              collected_id task.cfg (.utf8 fname, record) =
                some (core_dump_id fname (mtime_secs stat.modified)) := by
            rintro record rfl
            rw [collected_id, if_pos]
            simpa using And.intro hkind hfile
          split
          · next hcontains =>
            rintro t ⟨⟨ht, hstat⟩, rfl⟩
            obtain ⟨record, hfind, hmeta⟩ := hstat stat rfl
            have hclear := (hdelete record _ (hcollected record hmeta)).bind
              (R := fun _ : Task.Visit => P) (f := fun _ => pure Task.Visit.done)
              fun _ => Triple.pure fun u hu => hu
            exact hclear s ⟨ht, hfind, hcontains⟩
          · next hunknown =>
            split
            · exact Triple.pure fun t ht => ht.1.1
            · rintro t ⟨⟨ht, hstat⟩, rfl⟩
              obtain ⟨record, hfind, hmeta⟩ := hstat stat rfl
              exact hupload fname record _ rfl (hcollected record hmeta) s
                ⟨ht, hfind, Bool.eq_false_iff.mpr hunknown⟩

/-- The end of `upload`, when the last chunk has been published. -/
def delivered (task : Task) (dir fname : String) (own : UInt64) : CrashM Visit := do
  let now ← now_secs
  modify fun s => { s with state := s.state.insert own now }
  let _ ← result task.save
  task.maybe_delete dir (.utf8 fname)
  return .done

/-- A delivered id is entered, the state is saved or not, and the record is cleared. -/
theorem delivered_rule {task : Task} {P Q R E : World → Prop} {dir fname : String} {own : UInt64}
    (hnext : ∀ s, P s → P s.next.2) (hstop : ∀ s, P s → E s)
    (hinsert : ∀ s now, P s → Q { s with state := s.state.insert own now })
    (hsave : Triple Q task.save (fun _ => Q) fun _ => Q) (hcrash : ∀ s, Q s → E s)
    (hdelete : Triple Q (task.maybe_delete dir (.utf8 fname)) (fun _ => R) fun _ => E) :
    Triple P (task.delivered dir fname own) (fun _ => R) fun _ => E := by
  apply Triple.bind_weaken (now_secs_triple hnext) fun _ => hstop
  intro now
  have hmodify : Triple P (modify fun s => { s with state := s.state.insert own now } : CrashM PUnit)
      (fun _ => Q) fun _ => E :=
    Triple.modify fun s hs => hinsert s now hs
  apply Triple.bind hmodify
  intro _
  apply Triple.bind_weaken (result_triple hsave) fun _ => hcrash
  intro answer
  apply Triple.bind (hdelete.pre _)
  · intro _
    exact Triple.pure fun s hs => hs
  · intro s hs
    cases answer <;> exact hs

/-- An upload ends with the reading, when there is nothing to read, with the publishing or with
the delivery. -/
theorem upload_rule {task : Task} {P E : World → Prop} {C D : Bytes → World → Prop}
    {build_id : Option String} {dir fname : String} {own : UInt64}
    (hread : Triple P (read_capped dir fname task.cfg.max_bytes) C fun _ => E)
    (hempty : ∀ s, C [] s → E s)
    (hpublish : ∀ content, Triple (C content)
      (publish_core_dump task.c own content task.cfg.chunk_bytes build_id) (fun _ => D content)
      fun _ => E)
    (hdelivered : ∀ content, content ≠ [] →
      Triple (D content) (task.delivered dir fname own) (fun _ => E) fun _ => E) :
    Triple P (task.upload build_id dir fname own) (fun _ => E) fun _ => E := by
  apply Triple.bind (result_triple hread)
  intro answer
  cases answer with
  | error e => exact Triple.pure fun s hs => hs
  | ok content =>
    simp only
    split
    · next hnone =>
      obtain rfl := List.isEmpty_iff.mp hnone
      exact Triple.pure hempty
    · next hsome =>
      apply Triple.bind (result_triple (hpublish content))
      intro answer
      cases answer with
      | error e => exact Triple.pure fun s hs => hs
      | ok n => exact hdelivered content fun h => hsome (List.isEmpty_iff.mpr h)

/-- A record that lies there is read up to the limit. -/
theorem read_capped_triple {P : World → Prop} (hP : Steady P) {dir fname : String} {record : Record}
    (max_bytes : Nat) :
    Triple (fun s => P s ∧ s.find dir (.utf8 fname) = some record)
      (read_capped dir fname max_bytes)
      (fun content s => (P s ∧ s.find dir (.utf8 fname) = some record) ∧
        content = record.content.take max_bytes)
      fun _ => P := by
  have hsteady := hP.and (steady_find dir (.utf8 fname) record)
  have hread : Triple (fun s => P s ∧ s.find dir (.utf8 fname) = some record)
      (read dir (.utf8 fname))
      (fun data s => (P s ∧ s.find dir (.utf8 fname) = some record) ∧
        ∀ bytes, data = some bytes → bytes = record.content)
      fun _ => P := by
    apply Triple.bind_weaken (Triple.of_respects evolves_harmless.call hsteady) fun _ _ h => h.1
    intro moment
    apply Triple.bind Triple.get
    intro s
    split
    · next found hfind _ =>
      apply Triple.pure
      rintro t ⟨ht, rfl⟩
      refine ⟨ht, ?_⟩
      rintro bytes ⟨⟩
      rw [Option.some.inj (hfind.symm.trans ht.2)]
    · apply Triple.pure
      rintro t ⟨ht, rfl⟩
      exact ⟨ht, fun bytes hbytes => by cases hbytes⟩
  apply Triple.bind hread
  intro data
  cases data with
  | some bytes =>
    apply Triple.pure
    rintro s ⟨hs, hbytes⟩
    exact ⟨hs, by rw [hbytes bytes rfl]⟩
  | none =>
    apply Triple.throw
    exact fun s hs => hs.1.1

/-- When publishing a payload succeeds, it is among the accepted messages. -/
theorem publish_payload_triple {P : World → Prop} (hP : Steady P) (payload : Bytes) :
    Triple P (publish_payload payload)
      (fun _ s => P s ∧ ⟨INGEST_TOPIC, .AtMostOnce, false, payload⟩ ∈ s.publisher.accepted)
      fun _ => P := by
  intro s hs
  have hsteady := Triple.of_respects (publish_payload_evolves payload) hP s hs
  cases hrun : publish_payload payload s with
  | error e t =>
    rw [hrun] at hsteady
    exact hsteady
  | ok _ t =>
    rw [hrun] at hsteady
    refine ⟨hsteady, ?_⟩
    obtain ⟨moment, u, -, hzoom⟩ := bind_eq_ok_iff.mp hrun
    rw [zoom] at hzoom
    obtain ⟨outcomes, hpublish⟩ | ⟨outcomes, hpublish⟩ :=
      MqttPublisher.publish_payload_cases payload u.publisher
    · rw [hpublish] at hzoom
      cases hzoom
      exact List.mem_append_right _ List.mem_cons_self
    · rw [hpublish] at hzoom
      cases hzoom

theorem steady_accepted (message : Message) :
    Steady fun s => message ∈ s.publisher.accepted :=
  fun _ _ hevolves hmem => hevolves.accepted.subset hmem

/-- When the loop over the chunks succeeds, each of them has been accepted. -/
theorem publish_chunks_triple {P : World → Prop} (hP : Steady P) (c : Ciborium) (id : UInt64)
    (n : Nat) (build_id : Option String) (i : Nat) (pieces : List Bytes) :
    Triple P (publish_chunks c id n build_id i pieces)
      (fun _ s => P s ∧ ∀ j chunk, pieces[j]? = some chunk → ∃ payload,
        encode_chunk c id (i + j) chunk (i + j = n - 1) build_id = .ok payload ∧
        ⟨INGEST_TOPIC, .AtMostOnce, false, payload⟩ ∈ s.publisher.accepted)
      fun _ => P := by
  induction pieces generalizing i P with
  | nil =>
    apply Triple.pure
    exact fun s hs => ⟨hs, fun j chunk hchunk => by simp at hchunk⟩
  | cons piece pieces ih =>
    rw [publish_chunks]
    cases hencode : encode_chunk c id i piece (i = n - 1) build_id with
    | error e => exact Triple.throw fun s hs => hs
    | ok payload =>
      apply Triple.bind (publish_payload_triple hP payload)
      intro _
      have hrest := ih (hP.and (steady_accepted ⟨INGEST_TOPIC, .AtMostOnce, false, payload⟩)) (i + 1)
      apply hrest.mono (fun s hs => hs)
      · rintro _ s ⟨⟨hs, hmem⟩, hpieces⟩
        refine ⟨hs, ?_⟩
        intro j chunk hchunk
        cases j with
        | zero =>
          cases hchunk
          exact ⟨payload, hencode, hmem⟩
        | succ j =>
          rw [show i + (j + 1) = i + 1 + j by omega]
          exact hpieces j chunk hchunk
      · exact fun _ s hs => hs.1

theorem publish_core_dump_triple (task : Task) {P : World → Prop} (hP : Steady P) (id : UInt64)
    (content : Bytes) (build_id : Option String) :
    Triple P (publish_core_dump task.c id content task.cfg.chunk_bytes build_id)
      (fun _ s => P s ∧ task.Uploaded s.publisher.accepted id content) fun _ => P := by
  apply Triple.bind (publish_chunks_triple hP task.c id _ build_id 0 _)
  intro _
  apply Triple.pure
  rintro s ⟨hs, hchunks⟩
  refine ⟨hs, build_id, ?_⟩
  intro i chunk hchunk
  have hpublished := hchunks i chunk hchunk
  rw [Nat.zero_add] at hpublished
  exact hpublished

/-- Saving makes the file say what the memory says. -/
theorem Honest.saved (hjson : task.json.RoundTrips) {s : World} {dir : Fs} {bytes : Bytes}
    (hbytes : task.json.to_vec s.state = some bytes)
    (hfile : dir.files.lookup STATE_FILE_NAME = some bytes) (hhonest : task.Honest A B s) :
    task.Honest A B { s with state_dir := dir } where
  lying := hhonest.lying
  coming := hhonest.coming
  memory := by
    intro r hr
    obtain ⟨found, hB, haccounts⟩ := hhonest.memory r hr
    exact ⟨found, hB, { haccounts with }⟩
  file := by
    intro bytes' state hlookup hstate r hr
    obtain rfl := Option.some.inj (hfile.symm.trans hlookup)
    obtain rfl := Option.some.inj ((hjson s.state _ hbytes).symm.trans hstate)
    obtain ⟨found, -, haccounts⟩ := hhonest.memory r hr
    exact ⟨found, { haccounts with }⟩
  removed := hhonest.removed

theorem evolves_of_file {s : World} {dir : Fs}
    (hfile : dir.files.lookup STATE_FILE_NAME = s.state_dir.files.lookup STATE_FILE_NAME) :
    Evolves s { s with state_dir := dir } :=
  { Evolves.refl s with file := hfile }

/-- Whether or not the state reaches the file, what the file says is accounted for. -/
theorem save_honest (hjson : task.json.RoundTrips) {P : World → Prop} (hP : Steady P)
    (hfree : ∀ s dir, P s → P { s with state_dir := dir }) :
    Triple (fun s => task.Honest A B s ∧ P s) task.save (fun _ s => task.Honest A B s ∧ P s)
      fun _ s => task.Honest A B s ∧ P s := by
  have hsteady : Steady fun s => task.Honest A B s ∧ P s := Steady.and Honest.evolves hP
  apply Triple.post (save_triple _ _ _) fun _ s hs => hs.1
  · exact fun s hs => hsteady _ _ s.next_evolves hs
  · exact fun s dir hfile _ hs => hsteady _ _ (evolves_of_file hfile) hs
  · exact fun s dir bytes hbytes hfile _ hs =>
      ⟨hs.1.saved hjson hbytes hfile, hfree s dir hs.2⟩

section Scan

variable (hsub : ∀ found, A found → B found)

include hsub

/-- A record whose own content has been uploaded may go. -/
theorem maybe_delete_triple {dir : String} (hdir : dir ∈ task.cfg.paths) {name : OsName} {record : Record} {own : UInt64}
    (hown : collected_id task.cfg (name, record) = some own) :
    Triple
      (fun s => task.Honest A B s ∧ s.find dir name = some record ∧
        task.Uploaded s.publisher.accepted own (capped task.cfg (name, record)))
      (task.maybe_delete dir name) (fun _ => task.Honest A B) fun _ => task.Honest A B := by
  have hhonest : Steady (task.Honest A B) := Honest.evolves
  have hsteady := hhonest.and ((steady_find dir name record).and
    (steady_uploaded task own (capped task.cfg (name, record))))
  apply maybe_delete_rule
  · exact fun s hs => hsteady _ _ s.next_evolves hs
  · exact fun s hs => hs.1
  · rintro s there hthere ⟨hhonest, hfind, huploaded⟩
    obtain rfl := Option.some.inj (hfind.symm.trans hthere)
    exact hhonest.remove hsub hdir hown huploaded hfind

/-- A delivery is remembered once the whole record has been uploaded. -/
theorem Honest.insert {s : World} {dir fname : String} (hdir : dir ∈ task.cfg.paths)
    {record : Record} {own : UInt64} (hown : collected_id task.cfg (.utf8 fname, record) = some own) (ts : UInt64)
    (hnonempty : capped task.cfg (.utf8 fname, record) ≠ [])
    (hfind : s.find dir (.utf8 fname) = some record)
    (huploaded : task.Uploaded s.publisher.accepted own (capped task.cfg (.utf8 fname, record)))
    (hhonest : task.Honest A B s) :
    task.Honest A B { s with state := s.state.insert own ts } where
  lying := hhonest.lying
  coming := hhonest.coming
  memory := by
    intro r hr
    obtain hold | rfl := State.mem_insert hr
    · obtain ⟨found, hB, haccounts⟩ := hhonest.memory r hold
      exact ⟨found, hB, { haccounts with }⟩
    · exact ⟨_, hsub _ (hhonest.lying _ ⟨dir, hdir, hfind⟩), hown, hnonempty, huploaded,
        Or.inl ⟨dir, hdir, hfind⟩⟩
  file := by
    intro bytes state hfile hstate r hr
    obtain ⟨found, haccounts⟩ := hhonest.file bytes state hfile hstate r hr
    exact ⟨found, { haccounts with }⟩
  removed := hhonest.removed

variable (hjson : task.json.RoundTrips)

include hjson

theorem delivered_triple {dir fname : String} (hdir : dir ∈ task.cfg.paths) {record : Record}
    {own : UInt64} (hown : collected_id task.cfg (.utf8 fname, record) = some own)
    (hnonempty : capped task.cfg (.utf8 fname, record) ≠ []) :
    Triple
      (fun s => task.Honest A B s ∧ s.find dir (.utf8 fname) = some record ∧
        task.Uploaded s.publisher.accepted own (capped task.cfg (.utf8 fname, record)))
      (task.delivered dir fname own) (fun _ => task.Honest A B) fun _ => task.Honest A B := by
  have hkept := (steady_find dir (.utf8 fname) record).and
    (steady_uploaded task own (capped task.cfg (.utf8 fname, record)))
  have hhonest : Steady (task.Honest A B) := Honest.evolves
  have hsteady := hhonest.and hkept
  have hsave := save_honest (A := A) (B := B) hjson hkept fun s dir hs => hs
  refine delivered_rule ?_ ?_ ?_ hsave ?_ (maybe_delete_triple hsub hdir hown)
  · exact fun s hs => hsteady _ _ s.next_evolves hs
  · exact fun s hs => hs.1
  · exact fun s now hs => ⟨hs.1.insert hsub hdir hown now hnonempty hs.2.1 hs.2.2, hs.2⟩
  · exact fun s hs => hs.1

theorem upload_triple (build_id : Option String) {dir fname : String} (hdir : dir ∈ task.cfg.paths)
    {record : Record} {own : UInt64} (hown : collected_id task.cfg (.utf8 fname, record) = some own) :
    Triple (fun s => task.Honest A B s ∧ s.find dir (.utf8 fname) = some record)
      (task.upload build_id dir fname own) (fun _ => task.Honest A B)
      fun _ => task.Honest A B := by
  have hhonest : Steady (task.Honest A B) := Honest.evolves
  have hsteady := hhonest.and (steady_find dir (.utf8 fname) record)
  have hpublish : ∀ content, Triple
      (fun s => (task.Honest A B s ∧ s.find dir (.utf8 fname) = some record) ∧
        content = capped task.cfg (.utf8 fname, record))
      (publish_core_dump task.c own content task.cfg.chunk_bytes build_id)
      (fun _ s => ((task.Honest A B s ∧ s.find dir (.utf8 fname) = some record) ∧
        task.Uploaded s.publisher.accepted own content) ∧
        content = capped task.cfg (.utf8 fname, record))
      fun _ => task.Honest A B := by
    intro content
    apply Triple.assume
    intro hcontent
    apply (publish_core_dump_triple task hsteady own content build_id).mono (fun s hs => hs)
    · exact fun _ s hs => ⟨hs, hcontent⟩
    · exact fun _ s hs => hs.1
  apply upload_rule (read_capped_triple hhonest task.cfg.max_bytes) _ hpublish
  · intro content hnonempty
    apply Triple.assume
    rintro rfl
    exact (delivered_triple hsub hjson hdir hown hnonempty).pre fun s hs => ⟨hs.1.1, hs.1.2, hs.2⟩
  · exact fun s hs => hs.1.1

variable (hapart : ∀ a b, A a → B b → ¬ task.Mistakable a b)

include hapart

omit hsub hjson in
/-- A record whose id is known to be delivered is one that has been uploaded, or it is empty. -/
theorem Honest.own_uploaded {s : World} {dir : String} (hdir : dir ∈ task.cfg.paths) {name : OsName}
    {record : Record} {own : UInt64} (hhonest : task.Honest A B s)
    (hown : collected_id task.cfg (name, record) = some own)
    (hfind : s.find dir name = some record) (hcontains : s.state.contains own = true) :
    task.Uploaded s.publisher.accepted own (capped task.cfg (name, record)) := by
  obtain ⟨r, hr, rfl⟩ := State.contains_iff.mp hcontains
  obtain ⟨found, hB, haccounts⟩ := hhonest.memory r hr
  by_cases hempty : capped task.cfg (name, record) = []
  · rw [hempty]
    exact Uploaded.empty _ _
  · have hsame : capped task.cfg (name, record) = capped task.cfg found := by
      by_contra hdiffer
      apply hapart (name, record) found (hhonest.lying _ ⟨dir, hdir, hfind⟩) hB
      exact ⟨by rw [hown]; rfl, hown.trans haccounts.collected.symm, hempty, haccounts.nonempty,
        hdiffer⟩
    rw [hsame]
    exact haccounts.uploaded

theorem visit_triple (build_id : Option String) (connected : Bool) {dir : String}
    (hdir : dir ∈ task.cfg.paths) (name : OsName) : Triple (task.Honest A B) (task.visit build_id connected dir name) (fun _ => task.Honest A B)
      fun _ => task.Honest A B := by
  have hhonest : Steady (task.Honest A B) := Honest.evolves
  apply visit_rule
  · exact fun s hs => hhonest _ _ s.next_evolves hs
  · intro record own hown
    apply (maybe_delete_triple hsub hdir hown).pre
    rintro s ⟨hs, hfind, hcontains⟩
    exact ⟨hs, hfind, hs.own_uploaded hapart hdir hown hfind hcontains⟩
  · rintro fname record own rfl hown
    exact (upload_triple hsub hjson build_id hdir hown).pre fun s hs => ⟨hs.1, hs.2.1⟩

/-- A scan keeps every delivered id accounted for and removes only what it may. -/
theorem scan_honest (build_id : Option String) :
    Triple (task.Honest A B) (task.scan_and_publish build_id) (fun _ => task.Honest A B)
      fun _ => task.Honest A B := by
  apply scan_and_publish_triple
  · intro dir
    exact (evolves_harmless.read_dir dir).mono Honest.evolves
  · exact fun build_id connected dir hdir name => visit_triple hsub hjson hapart build_id connected hdir name

end Scan

/-- What is loaded is accounted for, and so is what is left of it after pruning. -/
theorem boot_triple :
    Triple (task.Honest (fun _ => True) fun _ => True) task.boot
      (fun _ => task.Honest (fun _ => True) fun _ => True)
      fun _ => task.Honest (fun _ => True) fun _ => True := by
  have hhonest : Steady (task.Honest (fun _ => True) fun _ => True) := Honest.evolves
  have hload : Triple (task.Honest (fun _ => True) fun _ => True) task.load
      (fun state s => task.Honest (fun _ => True) (fun _ => True) s ∧
        ∀ r ∈ state.delivered, ∃ found, task.Accounts s r.id found)
      fun _ => task.Honest (fun _ => True) fun _ => True := by
    have hread : Triple (task.Honest (fun _ => True) fun _ => True)
        (on_state_dir ("read " ++ task.display STATE_FILE_NAME) (fs.read STATE_FILE_NAME))
        (fun bytes s => task.Honest (fun _ => True) (fun _ => True) s ∧
          s.state_dir.files.lookup STATE_FILE_NAME = some bytes)
        fun _ => task.Honest (fun _ => True) fun _ => True := by
      apply on_state_dir_triple
      · exact fun s hs => hhonest _ _ s.next_evolves hs
      · exact fun s hs => hs
      · intro s bytes dir hs hok
        obtain ⟨hfiles, hlookup⟩ := read_ok hok
        exact ⟨hhonest _ _ (evolves_of_file (by rw [hfiles])) hs, by rw [hfiles, hlookup]⟩
      · intro s e dir hs herror
        exact hhonest _ _ (evolves_of_file (by rw [read_error herror])) hs
    apply Triple.bind (result_triple hread)
    intro answer
    cases answer with
    | error e => exact Triple.pure fun s hs => ⟨hs, fun r hr => by cases hr⟩
    | ok bytes =>
      apply Triple.pure
      rintro s ⟨hs, hlookup⟩
      refine ⟨hs, ?_⟩
      cases hstate : task.json.from_slice bytes with
      | none => exact fun r hr => by cases hr
      | some state => exact hs.file bytes state hlookup hstate
  apply Triple.bind hload
  intro state
  have haccounted : Steady fun s => ∀ r ∈ state.delivered, ∃ found, task.Accounts s r.id found := by
    intro s t hevolves hs r hr
    obtain ⟨found, haccounts⟩ := hs r hr
    exact ⟨found, haccounts.evolves hevolves⟩
  apply Triple.bind_weaken
    (Triple.of_respects evolves_harmless.now_secs (hhonest.and haccounted)) fun _ _ h => h.1
  intro now
  apply Triple.modify
  rintro s ⟨hs, hstate⟩
  refine ⟨hs.lying, hs.coming, ?_, ?_, hs.removed⟩
  · intro r hr
    obtain ⟨found, haccounts⟩ := hstate r (State.mem_prune hr)
    exact ⟨found, trivial, { haccounts with }⟩
  · intro bytes state hfile hloaded r hr
    obtain ⟨found, haccounts⟩ := hs.file bytes state hfile hloaded r hr
    exact ⟨found, { haccounts with }⟩

end Honest

end Task

end spotflowd.sources.crashdump
