import Spotflowd.Sources.Crashdump.Removal

open chunked effect fs path
open spotflowd.config spotflowd.mqtt

namespace spotflowd.sources.crashdump

/-- A call that touches neither the delivered ids nor the client. -/
structure Idles (s t : World) : Prop where
  state : t.state = s.state
  state_dir : t.state_dir = s.state_dir
  publisher : t.publisher = s.publisher

theorem idles_harmless : Harmless Idles where
  refl _ := ⟨rfl, rfl, rfl⟩
  trans _ _ _ hst htu :=
    ⟨htu.state.trans hst.state, htu.state_dir.trans hst.state_dir, htu.publisher.trans hst.publisher⟩
  next s := ⟨s.next_evolves.state, s.next_state_dir, s.next_publisher⟩

namespace Task

variable (task : Task) (id : UInt64)

/-- What a later start of the process would load. -/
def stored (s : World) : Option State :=
  (s.state_dir.files.lookup STATE_FILE_NAME).bind task.json.from_slice

/-- The state has been saved with this id in it. -/
def Saved (s : World) : Prop :=
  ∃ file ∈ s.state_dir.renamed, file.1 = STATE_FILE_NAME ∧
    (task.json.from_slice file.2).any (fun state => state.contains id) = true

instance (s : World) : Decidable (task.Saved id s) := by
  unfold Saved
  infer_instance

/-- The message is a chunk of a dump with another id. -/
def Foreign (message : Message) : Prop :=
  ∃ own i chunk is_last build_id, own ≠ id ∧
    encode_chunk task.c own i chunk is_last build_id = .ok message.payload

/-- A saved id stays in memory and in the file. When `tracked` holds, the id has been saved and
only chunks of other dumps have been accepted since `accepted`. -/
structure Remembering (tracked : Prop) (accepted : List Message) (s : World) : Prop where
  memory : task.Saved id s → s.state.contains id = true
  file : task.Saved id s → (task.stored s).any (fun state => state.contains id) = true
  saved : tracked → task.Saved id s
  sent : tracked → ∃ later, s.publisher.accepted = accepted ++ later ∧
    ∀ message ∈ later, task.Foreign id message

variable {task id} {tracked : Prop} {accepted : List Message}

theorem saved_congr {s t : World} (hrenamed : t.state_dir.renamed = s.state_dir.renamed) :
    task.Saved id t ↔ task.Saved id s := by
  rw [Saved, Saved, hrenamed]

/-- What does not touch the state, its file and the client. -/
theorem Remembering.congr {s t : World} (hremembering : task.Remembering id tracked accepted s)
    (hstate : t.state = s.state)
    (hfile : t.state_dir.files.lookup STATE_FILE_NAME = s.state_dir.files.lookup STATE_FILE_NAME)
    (hrenamed : t.state_dir.renamed = s.state_dir.renamed)
    (haccepted : t.publisher.accepted = s.publisher.accepted) :
    task.Remembering id tracked accepted t where
  memory hsaved := hstate ▸ hremembering.memory ((saved_congr hrenamed).mp hsaved)
  file hsaved := by
    rw [stored, hfile]
    exact hremembering.file ((saved_congr hrenamed).mp hsaved)
  saved htracked := (saved_congr hrenamed).mpr (hremembering.saved htracked)
  sent htracked := haccepted ▸ hremembering.sent htracked

theorem Remembering.idles (s t : World) (hidles : Idles s t)
    (hremembering : task.Remembering id tracked accepted s) :
    task.Remembering id tracked accepted t :=
  hremembering.congr hidles.state (by rw [hidles.state_dir]) (by rw [hidles.state_dir])
    (by rw [hidles.publisher])

/-- A chunk of another dump is accepted. -/
theorem Remembering.accept {s : World} {message : Message} {outcomes : List Bool}
    (hremembering : task.Remembering id tracked accepted s)
    (hforeign : tracked → task.Foreign id message) :
    task.Remembering id tracked accepted { s with publisher := { s.publisher with
      outcomes := outcomes
      accepted := s.publisher.accepted ++ [message] } } where
  memory := hremembering.memory
  file := hremembering.file
  saved := hremembering.saved
  sent htracked := by
    obtain ⟨later, haccepted, hlater⟩ := hremembering.sent htracked
    refine ⟨later ++ [message], by rw [haccepted, List.append_assoc], ?_⟩
    intro m hm
    obtain hm | hm := List.mem_append.mp hm
    · exact hlater m hm
    · rw [List.mem_singleton.mp hm]
      exact hforeign htracked

theorem publish_remembering {own : UInt64} {i : Nat} {chunk : Bytes} {is_last : Bool}
    {build_id : Option String} {payload : Bytes} (hforeign : tracked → own ≠ id)
    (hencode : encode_chunk task.c own i chunk is_last build_id = .ok payload) :
    Triple (task.Remembering id tracked accepted) (publish_payload payload)
      (fun _ => task.Remembering id tracked accepted)
      fun _ => task.Remembering id tracked accepted := by
  apply Triple.bind (Triple.of_respects idles_harmless.call Remembering.idles)
  intro moment s hs
  rw [zoom]
  obtain ⟨outcomes, hrun⟩ | ⟨outcomes, hrun⟩ :=
    MqttPublisher.publish_payload_cases payload s.publisher
  · rw [hrun]
    exact hs.accept fun htracked => ⟨own, i, chunk, is_last, build_id, hforeign htracked, hencode⟩
  · rw [hrun]
    exact hs.congr rfl rfl rfl rfl

theorem publish_chunks_remembering {own : UInt64} (hforeign : tracked → own ≠ id) (n : Nat)
    (build_id : Option String) (i : Nat) (pieces : List Bytes) :
    Triple (task.Remembering id tracked accepted) (publish_chunks task.c own n build_id i pieces)
      (fun _ => task.Remembering id tracked accepted)
      fun _ => task.Remembering id tracked accepted := by
  induction pieces generalizing i with
  | nil => exact Triple.pure fun s hs => hs
  | cons piece pieces ih =>
    rw [publish_chunks]
    cases hencode : encode_chunk task.c own i piece (i = n - 1) build_id with
    | error e => exact Triple.throw fun s hs => hs
    | ok payload => exact Triple.bind (publish_remembering hforeign hencode) fun _ => ih (i + 1)

/-- A new id does not displace another one. -/
theorem Remembering.insert {s : World} (hremembering : task.Remembering id tracked accepted s)
    (own now : UInt64) :
    task.Remembering id tracked accepted { s with state := s.state.insert own now } where
  memory hsaved := State.contains_insert (hremembering.memory hsaved)
  file := hremembering.file
  saved := hremembering.saved
  sent := hremembering.sent

/-- The saved state has every saved id in it. -/
theorem Remembering.commit (hjson : task.json.RoundTrips) {s : World} {dir : Fs} {bytes : Bytes}
    (hremembering : task.Remembering id tracked accepted s)
    (hbytes : task.json.to_vec s.state = some bytes)
    (hfile : dir.files.lookup STATE_FILE_NAME = some bytes)
    (hrenamed : dir.renamed = s.state_dir.renamed ++ [(STATE_FILE_NAME, bytes)]) :
    task.Remembering id tracked accepted { s with state_dir := dir } := by
  have hread := hjson s.state bytes hbytes
  have hmemory : task.Saved id { s with state_dir := dir } → s.state.contains id = true := by
    rintro ⟨file, hmem, hname, hstate⟩
    rw [hrenamed] at hmem
    obtain hold | hnew := List.mem_append.mp hmem
    · exact hremembering.memory ⟨file, hold, hname, hstate⟩
    · rw [List.mem_singleton.mp hnew, hread, Option.any_some] at hstate
      exact hstate
  refine ⟨hmemory, ?_, ?_, hremembering.sent⟩
  · intro hsaved
    rw [stored, hfile, Option.bind_some, hread, Option.any_some]
    exact hmemory hsaved
  · intro htracked
    obtain ⟨file, hmem, hname, hstate⟩ := hremembering.saved htracked
    refine ⟨file, ?_, hname, hstate⟩
    rw [hrenamed]
    exact List.mem_append_left _ hmem

section Scan

variable (hjson : task.json.RoundTrips)

theorem maybe_delete_remembering (dir : String) (name : OsName) :
    Triple (task.Remembering id tracked accepted) (task.maybe_delete dir name)
      (fun _ => task.Remembering id tracked accepted)
      fun _ => task.Remembering id tracked accepted := by
  apply maybe_delete_rule
  · exact fun s hs => hs.idles s s.next.2 (idles_harmless.next s)
  · exact fun s hs => hs
  · exact fun s record _ hs => hs.congr rfl rfl rfl rfl

include hjson

theorem save_remembering :
    Triple (task.Remembering id tracked accepted) task.save
      (fun _ => task.Remembering id tracked accepted)
      fun _ => task.Remembering id tracked accepted := by
  apply Triple.post (save_triple _ _ _) fun _ s hs => hs.1
  · exact fun s hs => hs.idles s s.next.2 (idles_harmless.next s)
  · exact fun s dir hfile hrenamed hs => hs.congr rfl hfile hrenamed rfl
  · exact fun s dir bytes hbytes hfile hrenamed hs => hs.commit hjson hbytes hfile hrenamed

theorem upload_remembering (build_id : Option String) (dir fname : String) {own : UInt64}
    (hforeign : tracked → own ≠ id) :
    Triple (task.Remembering id tracked accepted) (task.upload build_id dir fname own)
      (fun _ => task.Remembering id tracked accepted)
      fun _ => task.Remembering id tracked accepted := by
  have hread := Triple.of_respects (idles_harmless.read_capped dir fname task.cfg.max_bytes)
    (@Remembering.idles task id tracked accepted)
  apply upload_rule hread
  · exact fun s hs => hs
  · intro content
    exact Triple.bind (publish_chunks_remembering hforeign _ build_id 0 _)
      fun _ => Triple.pure fun s hs => hs
  · intro content _
    refine delivered_rule ?_ ?_ ?_ (save_remembering hjson) ?_
      (maybe_delete_remembering dir (.utf8 fname))
    · exact fun s hs => hs.idles s s.next.2 (idles_harmless.next s)
    · exact fun s hs => hs
    · exact fun s now hs => hs.insert own now
    · exact fun s hs => hs

theorem visit_remembering (build_id : Option String) (connected : Bool) (dir : String)
    (name : OsName) :
    Triple (task.Remembering id tracked accepted) (task.visit build_id connected dir name)
      (fun _ => task.Remembering id tracked accepted)
      fun _ => task.Remembering id tracked accepted := by
  apply visit_rule
  · exact fun s hs => hs.idles s s.next.2 (idles_harmless.next s)
  · intro record own _
    exact (maybe_delete_remembering dir name).pre fun s hs => hs.1
  · rintro fname record own - -
    rintro s ⟨hs, -, hunknown⟩
    apply upload_remembering hjson build_id dir fname _ s hs
    rintro htracked rfl
    rw [hs.memory (hs.saved htracked)] at hunknown
    cases hunknown

theorem scan_remembering (build_id : Option String) :
    Triple (task.Remembering id tracked accepted) (task.scan_and_publish build_id)
      (fun _ => task.Remembering id tracked accepted)
      fun _ => task.Remembering id tracked accepted := by
  apply scan_and_publish_triple
  · intro dir
    exact (idles_harmless.read_dir dir).mono Remembering.idles
  · exact fun build_id connected dir _ name => visit_remembering hjson build_id connected dir name

end Scan

end Task

/-- The clock after so many calls. -/
def Weather.clock_after (weather : Weather) (calls : Nat) (clock : UInt64) : UInt64 :=
  (weather.moments.take calls).foldl (fun clock moment => moment.clock.getD clock) clock

theorem World.next_clock (s : World) :
    s.next.2.clock = (s.moments.take 1).foldl (fun clock moment => moment.clock.getD clock) s.clock := by
  rw [World.next]
  split
  · next hmoments => simp [hmoments]
  · next moment moments hmoments =>
    rw [hmoments, (foldl_appear moment.arrivals _).1]
    rfl

/-- What a start of the process leaves alone. -/
structure Rests (s t : World) : Prop where
  file : t.state_dir.files.lookup STATE_FILE_NAME = s.state_dir.files.lookup STATE_FILE_NAME
  renamed : t.state_dir.renamed = s.state_dir.renamed
  accepted : t.publisher.accepted = s.publisher.accepted

theorem rests_harmless : Harmless Rests where
  refl _ := ⟨rfl, rfl, rfl⟩
  trans _ _ _ hst htu :=
    ⟨htu.file.trans hst.file, htu.renamed.trans hst.renamed, htu.accepted.trans hst.accepted⟩
  next s := ⟨by rw [s.next_state_dir], by rw [s.next_state_dir], by rw [s.next_publisher]⟩

namespace Task

/-- At a start of the process the state file can be read, and the delivery of the id lies no
further back than the retention. -/
def InTime (task : Task) (id : UInt64) (s : System) : Event → Prop
  | .boot _ weather => task.Saved id s.world →
      (weather.verdicts.headD .clean).fails .read = false ∧
      (task.stored s.world).any (fun state => state.delivered.any fun r => r.id = id ∧
        saturating_sub (weather.clock_after 2 s.world.clock) STATE_RETENTION_SECS ≤ r.ts) = true
  | _ => True

instance (task : Task) (id : UInt64) (s : System) : (event : Event) → Decidable (task.InTime id s event)
  | .boot _ weather => by
    unfold InTime
    infer_instance
  | .scan _ => isTrue trivial
  | .appear _ => isTrue trivial
  | .link _ => isTrue trivial

variable {task : Task} {id : UInt64} {tracked : Prop} {accepted : List Message}

theorem load_rests : Respects Rests task.load := by
  have hread : Respects Rests
      (on_state_dir ("read " ++ task.display STATE_FILE_NAME) (fs.read STATE_FILE_NAME)) := by
    have hkeeps : Respects (fun d d' : Fs => d'.files = d.files ∧ d'.renamed = d.renamed)
        (fs.read STATE_FILE_NAME) := read_keeps STATE_FILE_NAME
    exact rests_harmless.on_state_dir hkeeps fun s dir h => ⟨by rw [h.1], h.2, rfl⟩
  apply Respects.bind rests_harmless.trans (result_respects hread)
  intro answer
  cases answer <;> exact Respects.pure rests_harmless.refl _

theorem boot_rests : Respects Rests task.boot := by
  apply Respects.bind rests_harmless.trans load_rests
  intro state
  apply Respects.bind rests_harmless.trans rests_harmless.now_secs
  exact fun now s => ⟨rfl, rfl, rfl⟩

/-- What `load` answers when the file can be read. -/
theorem load_ok {s t : World} {state : State} (hok : task.load s = .ok state t)
    (hread : s.state_dir.next.1.fails .read = false) :
    state = (task.stored s).getD {} ∧ t.moments = s.next.2.moments ∧ t.clock = s.next.2.clock := by
  obtain ⟨answer, u, hanswer, hpure⟩ := bind_eq_ok_iff.mp hok
  rw [result, on_state_dir_run, read_unfailing hread] at hanswer
  by_cases hcrash : s.next.1.crash = true
  · rw [if_pos hcrash] at hanswer
    cases hanswer
  · rw [if_neg hcrash] at hanswer
    rw [stored]
    cases hlookup : s.state_dir.files.lookup STATE_FILE_NAME with
    | some bytes =>
      rw [hlookup] at hanswer
      cases hanswer
      cases hpure
      exact ⟨rfl, rfl, rfl⟩
    | none =>
      rw [hlookup] at hanswer
      cases hanswer
      cases hpure
      exact ⟨rfl, rfl, rfl⟩

theorem now_secs_ok {s t : World} {now : UInt64} (hok : now_secs s = .ok now t) :
    now = s.next.2.clock := by
  obtain ⟨moment, u, hcall, hpure⟩ := bind_eq_ok_iff.mp hok
  rw [call_run] at hcall
  split at hcall
  · cases hcall
  · cases hcall
    cases hpure
    rfl

/-- A completed start keeps what is no older than the retention. -/
theorem boot_ok {s t : World} (hok : task.boot s = .ok () t)
    (hread : s.state_dir.next.1.fails .read = false) :
    t.state = ((task.stored s).getD {}).prune
      ((s.moments.take 2).foldl (fun clock moment => moment.clock.getD clock) s.clock) := by
  obtain ⟨state, u, hload, hrest⟩ := bind_eq_ok_iff.mp hok
  obtain ⟨rfl, hmoments, hclock⟩ := load_ok hload hread
  obtain ⟨now, v, hnow, hmodify⟩ := bind_eq_ok_iff.mp hrest
  cases hmodify
  have htime : now =
      (s.moments.take 2).foldl (fun clock moment => moment.clock.getD clock) s.clock := by
    rw [now_secs_ok hnow, u.next_clock, hmoments, hclock, s.next_moments, s.next_clock]
    cases s.moments with
    | nil => rfl
    | cons first moments => cases moments <;> rfl
  rw [htime]

/-- What is known between two events. -/
structure Remembered (task : Task) (id : UInt64) (tracked : Prop) (accepted : List Message)
    (s : System) : Prop where
  memory : s.alive = true → task.Saved id s.world → s.world.state.contains id = true
  file : task.Saved id s.world → (task.stored s.world).any (fun state => state.contains id) = true
  saved : tracked → task.Saved id s.world
  sent : tracked → ∃ later, s.world.publisher.accepted = accepted ++ later ∧
    ∀ message ∈ later, task.Foreign id message

theorem Remembered.boot {s : System} {build_id : Option String} {weather : Weather} {t : World}
    {alive : Bool} (hremembered : Remembered task id tracked accepted s)
    (hintime : task.InTime id s (.boot build_id weather))
    (hrests : Rests (s.world.under weather) t)
    (halive : alive = true → task.boot (s.world.under weather) = .ok () t) :
    Remembered task id tracked accepted ⟨t, alive, build_id⟩ := by
  have hsaved : task.Saved id t ↔ task.Saved id s.world := saved_congr hrests.renamed
  refine ⟨?_, ?_, fun h => hsaved.mpr (hremembered.saved h), ?_⟩
  · intro hrunning hold
    obtain ⟨hread, hyoung⟩ := hintime (hsaved.mp hold)
    have hhead : (s.world.under weather).state_dir.next.1.fails .read = false := by
      rw [World.under, Fs.next]
      cases hverdicts : weather.verdicts with
      | nil => rfl
      | cons verdict verdicts =>
        rw [hverdicts] at hread
        exact hread
    have hstate := boot_ok (halive hrunning) hhead
    obtain ⟨state, hstored, r, hr, hmatches⟩ :
        ∃ state, task.stored s.world = some state ∧ ∃ r ∈ state.delivered, r.id = id ∧
          saturating_sub (weather.clock_after 2 s.world.clock) STATE_RETENTION_SECS ≤ r.ts := by
      cases hstored : task.stored s.world with
      | none =>
        rw [hstored] at hyoung
        cases hyoung
      | some state =>
        rw [hstored] at hyoung
        simpa using hyoung
    change t.state.contains id = true
    rw [hstate]
    apply State.contains_iff.mpr
    refine ⟨r, List.mem_filter.mpr ⟨?_, decide_eq_true hmatches.2⟩, hmatches.1⟩
    rw [show task.stored (s.world.under weather) = some state from hstored]
    exact hr
  · intro hold
    rw [stored, hrests.file]
    exact hremembered.file (hsaved.mp hold)
  · intro htracked
    rw [hrests.accepted]
    exact hremembered.sent htracked

theorem Remembered.step (hjson : task.json.RoundTrips) {s t : System} {event : Event}
    (hremembered : Remembered task id tracked accepted s) (hintime : task.InTime id s event)
    (hstep : (run task).step s event = some t) : Remembered task id tracked accepted t := by
  cases event with
  | boot build_id weather =>
    have hrests := @boot_rests task (s.world.under weather)
    simp only [run] at hstep
    cases hrun : task.boot (s.world.under weather) with
    | ok _ world =>
      rw [hrun] at hrests hstep
      cases hstep
      exact hremembered.boot hintime hrests fun _ => hrun
    | error _ world =>
      rw [hrun] at hrests hstep
      cases hstep
      exact hremembered.boot hintime hrests fun h => by cases h
  | scan weather =>
    simp only [run] at hstep
    split at hstep
    · next halive =>
      have hstart : task.Remembering id tracked accepted (s.world.under weather) :=
        ⟨hremembered.memory halive, hremembered.file, hremembered.saved, hremembered.sent⟩
      have hscan := scan_remembering hjson s.build_id _ hstart
      cases hrun : task.scan_and_publish s.build_id (s.world.under weather) with
      | ok _ world =>
        rw [hrun] at hscan hstep
        cases hstep
        exact ⟨fun _ => hscan.memory, hscan.file, hscan.saved, hscan.sent⟩
      | error _ world =>
        rw [hrun] at hscan hstep
        cases hstep
        exact ⟨fun _ => hscan.memory, hscan.file, hscan.saved, hscan.sent⟩
    · cases hstep
  | appear arrival =>
    cases hstep
    obtain ⟨hmemory, hfile, hsaved, hsent⟩ := hremembered
    refine ⟨?_, ?_, ?_, ?_⟩
    all_goals simp only
    all_goals rw [World.appear_eq]
    · exact hmemory
    · exact hfile
    · exact hsaved
    · exact hsent
  | link connected =>
    cases hstep
    exact ⟨hremembered.memory, hremembered.file, hremembered.saved, hremembered.sent⟩

/-- When the save that follows an upload succeeds, the id is saved. -/
theorem upload_saved (hjson : task.json.RoundTrips) {s t : World} {now : UInt64}
    (hsave : task.save { s with state := s.state.insert id now } = .ok () t) : task.Saved id t := by
  have htriple : Triple (fun u => u.state.contains id = true) task.save
      (fun _ u => u.state.contains id = true ∧ ∃ bytes, task.json.to_vec u.state = some bytes ∧
        (STATE_FILE_NAME, bytes) ∈ u.state_dir.renamed)
      fun _ u => u.state.contains id = true := by
    apply save_triple
    · exact fun u hu => u.next_evolves.state ▸ hu
    · exact fun u dir _ _ hu => hu
    · exact fun u dir bytes _ _ _ hu => hu
  have hend := htriple { s with state := s.state.insert id now }
    (State.contains_insert_self s.state id now)
  rw [hsave] at hend
  obtain ⟨hcontains, bytes, hbytes, hrenamed⟩ := hend
  refine ⟨_, hrenamed, rfl, ?_⟩
  rw [hjson _ _ hbytes, Option.any_some]
  exact hcontains

/-- Once a dump has been uploaded and the state saved, no chunk of it is accepted again, in this
process or in a later one, if the process is always restarted in time. -/
theorem delivered_is_never_resent (hjson : task.json.RoundTrips) {s₀ s t : System}
    {before after : List Event} (hstart : s₀.world.state_dir.renamed = [])
    (hbefore : (run task).Run (task.InTime id) s₀ before s) (hsaved : task.Saved id s.world)
    (hafter : (run task).Run (task.InTime id) s after t) :
    ∃ later, t.world.publisher.accepted = s.world.publisher.accepted ++ later ∧
      ∀ message ∈ later, task.Foreign id message := by
  have hnothing : ¬ task.Saved id s₀.world := by
    rintro ⟨file, hmem, -⟩
    rw [hstart] at hmem
    cases hmem
  have hstarted : Remembered task id False [] s₀ :=
    ⟨fun _ h => absurd h hnothing, fun h => absurd h hnothing, False.elim, False.elim⟩
  have hreached : Remembered task id False [] s := by
    apply hbefore.invariant hstarted
    intro u event v hu hintime hstep
    exact hu.step hjson hintime hstep
  have htracked : Remembered task id True s.world.publisher.accepted s :=
    ⟨hreached.memory, hreached.file, fun _ => hsaved, fun _ => ⟨[], by simp, by simp⟩⟩
  have hend : Remembered task id True s.world.publisher.accepted t := by
    apply hafter.invariant htracked
    intro u event v hu hintime hstep
    exact hu.step hjson hintime hstep
  exact hend.sent trivial

/-- Records are left in place. -/
def keeping : Task := { dumps with cfg := { enabled := true, delete_after_capture := false } }

theorem delivered_is_never_resent_week : ∃ before after s t,
    (run keeping).Run (keeping.InTime (core_dump_id "dmesg-ramoops-0" 5)) idle before s ∧
    keeping.Saved (core_dump_id "dmesg-ramoops-0" 5) s.world ∧
    (run keeping).Run (keeping.InTime (core_dump_id "dmesg-ramoops-0" 5)) s after t ∧
    t.world.publisher.accepted ≠ s.world.publisher.accepted ∧
    ∃ later, t.world.publisher.accepted = s.world.publisher.accepted ++ later ∧
      ∀ message ∈ later, keeping.Foreign (core_dump_id "dmesg-ramoops-0" 5) message := by
  have hexec : ((run keeping).exec (keeping.InTime (core_dump_id "dmesg-ramoops-0" 5)) idle
      [.boot none {}, .link true, .appear (dump "0" 5 [1]), .scan {}]).any (fun s =>
        keeping.Saved (core_dump_id "dmesg-ramoops-0" 5) s.world ∧
        ((run keeping).exec (keeping.InTime (core_dump_id "dmesg-ramoops-0" 5)) s
          [.boot none { moments := [{ clock := some 600000 }] }, .appear (dump "1" 7 [2]),
            .scan {}]).any (fun t =>
              t.world.publisher.accepted ≠ s.world.publisher.accepted)) = true := by
    decide +kernel
  obtain ⟨s, hbefore, htest⟩ := Machine.exists_run_of_exec _ hexec
  obtain ⟨hsaved, hrest⟩ := of_decide_eq_true htest
  obtain ⟨t, hafter, hsent⟩ := Machine.exists_run_of_exec _ hrest
  exact ⟨_, _, s, t, hbefore, hsaved, hafter, of_decide_eq_true hsent,
    delivered_is_never_resent SerdeJson.wire_roundTrips rfl hbefore hsaved hafter⟩

/-- A dump is delivered before the clock of the device is set; at the next start its id is too
old, and the dump is sent again. -/
theorem clock_jump_resends : ∃ before after s t,
    (run keeping).Run (fun _ _ => True) idle before s ∧
    keeping.Saved (core_dump_id "dmesg-ramoops-0" 5) s.world ∧
    (run keeping).Run (fun _ _ => True) s after t ∧
    ¬ ∃ later, t.world.publisher.accepted = s.world.publisher.accepted ++ later ∧
      ∀ message ∈ later, keeping.Foreign (core_dump_id "dmesg-ramoops-0" 5) message := by
  have hexec : ((run keeping).exec (fun _ _ => True) idle
      [.boot none {}, .link true, .appear (dump "0" 5 [1]), .scan {}]).any (fun s =>
        keeping.Saved (core_dump_id "dmesg-ramoops-0" 5) s.world ∧
        ((run keeping).exec (fun _ _ => True) s
          [.boot none { moments := [{ clock := some 1750000000 }] }, .scan {}]).any (fun t =>
            ∃ message ∈ t.world.publisher.accepted.drop s.world.publisher.accepted.length,
              encode_chunk .wire (core_dump_id "dmesg-ramoops-0" 5) 0 [1] true none =
                .ok message.payload)) = true := by
    decide +kernel
  obtain ⟨s, hbefore, htest⟩ := Machine.exists_run_of_exec _ hexec
  obtain ⟨hsaved, hrest⟩ := of_decide_eq_true htest
  obtain ⟨t, hafter, hsent⟩ := Machine.exists_run_of_exec _ hrest
  obtain ⟨message, hmem, hencode⟩ := of_decide_eq_true hsent
  refine ⟨_, _, s, t, hbefore, hsaved, hafter, ?_⟩
  rintro ⟨later, haccepted, hforeign⟩
  rw [haccepted, List.drop_left] at hmem
  obtain ⟨own, i, chunk, is_last, build_id, hown, hother⟩ := hforeign message hmem
  exact hown (encode_chunk_inj hother hencode).1

end Task

end spotflowd.sources.crashdump
