import Spotflowd.Sources.Crashdump.Sweep
import Spotflowd.Sources.Crashdump.Waiting

open effect fs
open spotflowd.mqtt

namespace spotflowd.sources.crashdump

/-- Seconds between scans when a crash dump is waiting but could not be sent yet. -/
def RETRY_BACKOFF_SECS : Nat := 5

namespace Task

variable (task : Task)

/-- Seconds to sleep after a scan. -/
def delay : ScanOutcome → Nat
  | .RetrySoon => min RETRY_BACKOFF_SECS task.cfg.poll_interval_secs
  | .Idle => task.cfg.poll_interval_secs

theorem delay_le (outcome : ScanOutcome) : task.delay outcome ≤ task.cfg.poll_interval_secs := by
  cases outcome with
  | Idle => exact le_rfl
  | RetrySoon => exact Nat.min_le_right _ _

end Task

/-- The task in the loop of `run`: the seconds that have passed, and when the sleep ends. -/
structure Loop where
  system : System
  now : Nat
  next_scan : Nat

namespace Loop

/-- The sleep ends and a scan runs, which takes no time of its own, time passes, a record appears,
or the connection comes or goes. -/
inductive Event where
  | scan (weather : Weather)
  | wait (seconds : Nat)
  | appear (arrival : Arrival)
  | link (connected : Bool)

/-- What the loop's event is to the machine that knows no time. -/
def Event.untimed : Event → List crashdump.Event
  | .scan weather => [.scan weather]
  | .wait _ => []
  | .appear arrival => [.appear arrival]
  | .link connected => [.link connected]

end Loop

namespace Task

variable (task : Task)

def loop : Machine Loop Loop.Event where
  step s
    | .scan weather =>
      if s.system.alive ∧ s.next_scan ≤ s.now then
        match task.scan_and_publish s.system.build_id (s.system.world.under weather) with
        | .ok outcome world => some { s with
            system := { s.system with world := world }
            next_scan := s.now + task.delay outcome }
        | .error _ world => some { s with system := { s.system with world := world, alive := false } }
      else none
    | .wait seconds => some { s with now := s.now + seconds }
    | .appear arrival => some { s with system := { s.system with
        world := s.system.world.appear arrival } }
    | .link connected => some { s with system := { s.system with
        world := { s.system.world with
          publisher := { s.system.world.publisher with connected := connected } } } }

variable {task} {s t : Loop} {event : Loop.Event}

theorem loop_scan {weather : Weather} (hstep : task.loop.step s (.scan weather) = some t) :
    s.system.alive = true ∧ s.next_scan ≤ s.now ∧
      ((∃ outcome world,
        task.scan_and_publish s.system.build_id (s.system.world.under weather) = .ok outcome world ∧
        t = { s with
          system := { s.system with world := world }
          next_scan := s.now + task.delay outcome }) ∨
      ∃ e world, task.scan_and_publish s.system.build_id (s.system.world.under weather) = .error e world ∧
        t = { s with system := { s.system with world := world, alive := false } }) := by
  simp only [loop, Option.ite_none_right_eq_some] at hstep
  obtain ⟨⟨halive, hdue⟩, hscan⟩ := hstep
  refine ⟨halive, hdue, ?_⟩
  cases hrun : task.scan_and_publish s.system.build_id (s.system.world.under weather) with
  | ok outcome world =>
    rw [hrun] at hscan
    exact Or.inl ⟨outcome, world, rfl, (Option.some.inj hscan).symm⟩
  | error e world =>
    rw [hrun] at hscan
    exact Or.inr ⟨e, world, rfl, (Option.some.inj hscan).symm⟩

/-- The loop does what the task can do, at times of its own choosing. -/
theorem loop_untimed (hstep : task.loop.step s event = some t) :
    (run task).Run (fun _ _ => True) s.system event.untimed t.system := by
  cases event with
  | scan weather =>
    obtain ⟨halive, -, ⟨outcome, world, hrun, rfl⟩ | ⟨e, world, hrun, rfl⟩⟩ := loop_scan hstep
    · exact .single trivial (by simp only [run, halive, if_true, hrun])
    · exact .single trivial (by simp only [run, halive, if_true, hrun])
  | wait seconds =>
    cases hstep
    exact .nil _
  | appear arrival =>
    cases hstep
    exact .single trivial rfl
  | link connected =>
    cases hstep
    exact .single trivial rfl

theorem loop_run_untimed {allowed : Loop → Loop.Event → Prop} {events : List Loop.Event}
    (hrun : task.loop.Run allowed s events t) :
    (run task).Run (fun _ _ => True) s.system (events.flatMap Loop.Event.untimed) t.system := by
  induction hrun with
  | nil => exact .nil _
  | snoc _ _ hstep ih =>
    rw [List.flatMap_append, List.flatMap_singleton]
    exact ih.trans (loop_untimed hstep)

section Justified

variable (task) (known : UInt64 → Prop)

/-- A dump of this id has been uploaded, chunk by chunk. -/
def Delivered (s : World) (id : UInt64) : Prop :=
  ∃ found, collected_id task.cfg found = some id ∧ capped task.cfg found ≠ [] ∧
    task.Uploaded s.publisher.accepted id (capped task.cfg found)

/-- Each id in memory was known before, or a dump of it has been uploaded. -/
def Justified (s : World) : Prop := ∀ id, s.state.contains id = true → known id ∨ task.Delivered s id

variable {task known}

theorem Justified.mono {s t : World} (hjustified : task.Justified known s) (hstate : t.state = s.state)
    (haccepted : s.publisher.accepted ⊆ t.publisher.accepted) : task.Justified known t := by
  intro id hid
  rw [hstate] at hid
  refine (hjustified id hid).imp_right ?_
  rintro ⟨found, hfound, hnonempty, huploaded⟩
  exact ⟨found, hfound, hnonempty, huploaded.mono haccepted⟩

theorem steady_justified : Steady (task.Justified known) :=
  fun _ _ hevolves hjustified => hjustified.mono hevolves.state hevolves.accepted.subset

theorem Justified.insert {s : World} (hjustified : task.Justified known s) {found : Found} {id : UInt64}
    (hfound : collected_id task.cfg found = some id) (hnonempty : capped task.cfg found ≠ [])
    (huploaded : task.Uploaded s.publisher.accepted id (capped task.cfg found)) (now : UInt64) :
    task.Justified known { s with state := s.state.insert id now } := by
  intro own hown
  obtain hold | rfl := (State.contains_insert_iff _ _ _ _).mp hown
  · exact hjustified own hold
  · exact Or.inr ⟨found, hfound, hnonempty, huploaded⟩

theorem maybe_delete_justified (dir : String) (name : OsName) :
    Triple (task.Justified known) (task.maybe_delete dir name) (fun _ => task.Justified known)
      fun _ => task.Justified known :=
  maybe_delete_rule (fun s hs => steady_justified s _ s.next_evolves hs) (fun _ hs => hs)
    fun _ _ _ hs => hs.mono rfl fun _ h => h

theorem save_justified : Triple (task.Justified known) task.save (fun _ => task.Justified known)
    fun _ => task.Justified known := by
  apply Triple.post (save_triple (fun s hs => steady_justified s _ s.next_evolves hs) ?_ ?_)
    fun _ s hs => hs.1
  · exact fun s dir _ _ hs => hs.mono rfl fun _ h => h
  · exact fun s dir bytes _ _ _ hs => hs.mono rfl fun _ h => h

theorem upload_justified {build_id : Option String} {dir fname : String} {record : Record} {id : UInt64}
    (hid : collected_id task.cfg (.utf8 fname, record) = some id) :
    Triple (fun s => task.Justified known s ∧ s.find dir (.utf8 fname) = some record)
      (task.upload build_id dir fname id) (fun _ => task.Justified known)
      fun _ => task.Justified known := by
  apply upload_rule (D := fun content s => (task.Justified known s ∧
      task.Uploaded s.publisher.accepted id content) ∧ content = capped task.cfg (.utf8 fname, record))
    (read_capped_triple steady_justified task.cfg.max_bytes)
  · exact fun s hs => hs.1.1
  · intro content
    apply Triple.pre (Triple.assume fun hcontent : content = capped task.cfg (.utf8 fname, record) => ?_)
      fun s hs => ⟨hs.1.1, hs.2⟩
    exact (publish_core_dump_triple task steady_justified id content build_id).post
      fun _ s hs => ⟨hs, hcontent⟩
  · intro content hnonempty
    apply delivered_rule (fun s hs => ?_) (fun s hs => hs.1.1) (fun s now hs => ?_) save_justified
      (fun s hs => hs) (maybe_delete_justified dir _)
    · exact ⟨⟨steady_justified s _ s.next_evolves hs.1.1,
        hs.1.2.mono s.next_evolves.accepted.subset⟩, hs.2⟩
    · obtain ⟨⟨hjustified, huploaded⟩, rfl⟩ := hs
      exact hjustified.insert hid hnonempty huploaded now

theorem scan_justified (build_id : Option String) : Triple (task.Justified known)
    (task.scan_and_publish build_id) (fun _ => task.Justified known) fun _ => task.Justified known := by
  apply scan_and_publish_triple
  · exact fun dir => (evolves_harmless.read_dir dir).mono steady_justified
  · intro build_id connected dir _ name
    apply visit_rule fun s hs => steady_justified s _ s.next_evolves hs
    · exact fun record own _ => (maybe_delete_justified dir name).pre fun s hs => hs.1
    · rintro fname record own rfl hown
      exact (upload_justified hown).pre fun s hs => ⟨hs.1, hs.2.1⟩

theorem loop_justified {known : UInt64 → Prop} (hstep : task.loop.step s event = some t)
    (hjustified : task.Justified known s.system.world) : task.Justified known t.system.world := by
  cases event with
  | scan weather =>
    have hstart : task.Justified known (s.system.world.under weather) :=
      hjustified.mono rfl fun _ h => h
    have hscan := (scan_justified s.system.build_id).finalState hstart
    obtain ⟨-, -, ⟨outcome, world, hrun, rfl⟩ | ⟨e, world, hrun, rfl⟩⟩ := loop_scan hstep <;>
      rwa [hrun] at hscan
  | wait seconds =>
    cases hstep
    exact hjustified
  | appear arrival =>
    cases hstep
    dsimp only
    rw [World.appear_eq]
    exact hjustified.mono rfl fun _ h => h
  | link connected =>
    cases hstep
    exact hjustified.mono rfl fun _ h => h

end Justified

section Waiting

variable (task) (dir : String) (name : OsName) (id : UInt64)

/-- A record of this id, with something to read, lies in a configured directory. -/
def Waiting (s : World) : Prop :=
  dir ∈ task.cfg.paths ∧ ∃ record, s.find dir name = some record ∧
    collected_id task.cfg (name, record) = some id ∧ capped task.cfg (name, record) ≠ []

/-- The sleep ends when it is over. -/
def Prompt (s : Loop) : Loop.Event → Prop
  | .wait seconds => s.now + seconds ≤ s.next_scan
  | _ => True

/-- The scans come back, and can get at the record. -/
def Noticed (s : Loop) : Loop.Event → Prop
  | .scan weather =>
    (∃ outcome world,
      task.scan_and_publish s.system.build_id (s.system.world.under weather) = .ok outcome world) ∧
    ¬ Unreadable s.system.world.publisher.connected
      (task.trace s.system.build_id (s.system.world.under weather)) dir name
  | _ => True

/-- When the task scans, the link is up and nothing fails. -/
def Online (s : Loop) : Loop.Event → Prop
  | .scan weather =>
    Calm (s.system.world.under weather) ∧
      task.AllEncode s.system.build_id (s.system.world.under weather)
  | _ => True

/-- The id is known, and unless it was from the start a dump of it has been uploaded. -/
def Sent (s t : Loop) : Prop :=
  t.system.world.state.contains id = true ∧
    (s.system.world.state.contains id = false → task.Delivered t.system.world id)

/-- The next scan is not overdue, and the id is known or the record is there and the scan not
after the limit. -/
def Awaited (limit : Nat → Nat) (s : Loop) : Prop :=
  s.now ≤ s.next_scan ∧ (s.system.world.state.contains id = true ∨
    (task.Waiting dir name id s.system.world ∧ s.next_scan ≤ limit s.now))

variable {task dir name id}

theorem scan_keeps {build_id : Option String} {s t : World} {outcome : ScanOutcome}
    (hscan : task.scan_and_publish build_id s = .ok outcome t) : task.Keeps s t := by
  obtain ⟨res, hdirs, -⟩ := scan_and_publish_ok hscan
  exact (scan_dirs_covers hdirs).1.keeps

theorem Waiting.keeps {s t : World} (hwaiting : task.Waiting dir name id s) (hkeeps : task.Keeps s t) :
    t.state.contains id = true ∨ task.Waiting dir name id t := by
  obtain ⟨hdir, record, hfind, hid, hnonempty⟩ := hwaiting
  obtain hthere | hknown := hkeeps.lying dir name record id hid hfind
  · exact Or.inr ⟨hdir, record, hthere, hid, hnonempty⟩
  · exact Or.inl hknown

/-- A scan that comes back and can get at the record delivers it, or is repeated soon. -/
theorem Waiting.noticed {build_id : Option String} {s t : World} {outcome : ScanOutcome}
    (hwaiting : task.Waiting dir name id s) (hscan : task.scan_and_publish build_id s = .ok outcome t)
    (hreadable : ¬ Unreadable s.publisher.connected (task.trace build_id s) dir name) :
    t.state.contains id = true ∨ outcome = .RetrySoon := by
  obtain ⟨hdir, record, hfind, hid, hnonempty⟩ := hwaiting
  obtain ⟨res, hdirs, hidle⟩ := scan_and_publish_ok hscan
  obtain ⟨hcovers, hall⟩ := scan_dirs_covers hdirs
  cases outcome with
  | RetrySoon => exact Or.inr rfl
  | Idle =>
    obtain rfl := hidle.mp rfl
    by_contra hneither
    obtain ⟨hunknown, -⟩ := not_or.mp hneither
    exact hreadable (hcovers.unreadable (hall rfl dir hdir) hfind hid hnonempty hunknown)

/-- Between two scans nothing becomes known, records stay, and so does the time of the next scan. -/
theorem between_scans (hstep : task.loop.step s event = some t) (hprompt : Prompt s event)
    (hbetween : ∀ weather, event ≠ .scan weather) (hdue : s.now ≤ s.next_scan) :
    t.system.world.state = s.system.world.state ∧
      (∀ dir name record, s.system.world.find dir name = some record →
        t.system.world.find dir name = some record) ∧
      t.next_scan = s.next_scan ∧ s.now ≤ t.now ∧ t.now ≤ t.next_scan := by
  cases event with
  | scan weather => exact absurd rfl (hbetween weather)
  | wait seconds =>
    cases hstep
    exact ⟨rfl, fun _ _ _ h => h, rfl, Nat.le_add_right _ _, hprompt⟩
  | appear arrival =>
    cases hstep
    refine ⟨?_, fun _ _ _ h => World.find_appear_of_find h arrival, rfl, le_rfl, hdue⟩
    dsimp only
    rw [World.appear_eq]
  | link connected =>
    cases hstep
    exact ⟨rfl, fun _ _ _ h => h, rfl, le_rfl, hdue⟩

/-- The next scan is never further away than the interval. -/
theorem prompt_step (hstep : task.loop.step s event = some t) (hprompt : Prompt s event)
    (hdue : s.now ≤ s.next_scan ∧ s.next_scan ≤ s.now + task.cfg.poll_interval_secs) :
    t.now ≤ t.next_scan ∧ t.next_scan ≤ t.now + task.cfg.poll_interval_secs := by
  by_cases hevent : ∃ weather, event = .scan weather
  · obtain ⟨weather, rfl⟩ := hevent
    obtain ⟨-, -, ⟨outcome, world, -, rfl⟩ | ⟨e, world, -, rfl⟩⟩ := loop_scan hstep
    · exact ⟨Nat.le_add_right _ _, Nat.add_le_add_left (task.delay_le outcome) _⟩
    · exact hdue
  · obtain ⟨-, -, hnext, hlater, hnow⟩ :=
      between_scans hstep hprompt (fun weather h => hevent ⟨weather, h⟩) hdue.1
    exact ⟨hnow, by omega⟩

variable {limit : Nat → Nat}

/-- What is awaited stays so if each scan comes back with the id known or the next scan within
the limit. -/
theorem awaited_step (hmono : Monotone limit) (hstep : task.loop.step s event = some t)
    (hprompt : Prompt s event)
    (hscan : ∀ weather, event = .scan weather → ∃ outcome world,
      task.scan_and_publish s.system.build_id (s.system.world.under weather) = .ok outcome world ∧
      (task.Waiting dir name id (s.system.world.under weather) →
        world.state.contains id = true ∨ s.now + task.delay outcome ≤ limit s.now))
    (hawaited : task.Awaited dir name id limit s) : task.Awaited dir name id limit t := by
  obtain ⟨hdue, hawaited⟩ := hawaited
  by_cases hevent : ∃ weather, event = .scan weather
  · obtain ⟨weather, rfl⟩ := hevent
    obtain ⟨outcome, world, hrun, hends⟩ := hscan weather rfl
    obtain ⟨-, -, ⟨outcome, world, hsame, rfl⟩ | ⟨e, world, hsame, -⟩⟩ := loop_scan hstep
    · cases hrun.symm.trans hsame
      have hkeeps := scan_keeps hrun
      refine ⟨Nat.le_add_right _ _, ?_⟩
      obtain hknown | ⟨hwaiting, -⟩ := hawaited
      · exact Or.inl (hkeeps.known id hknown)
      · have hunder : task.Waiting dir name id (s.system.world.under weather) := hwaiting
        obtain hknown | hsoon := hends hunder
        · exact Or.inl hknown
        · exact (hunder.keeps hkeeps).imp_right fun hthere => ⟨hthere, hsoon⟩
    · cases hrun.symm.trans hsame
  · obtain ⟨hstate, hstays, hnext, hlater, hnow⟩ :=
      between_scans hstep hprompt (fun weather h => hevent ⟨weather, h⟩) hdue
    refine ⟨hnow, ?_⟩
    obtain hknown | ⟨⟨hdir, record, hfind, hrecord⟩, hlimit⟩ := hawaited
    · exact Or.inl (by rwa [hstate])
    · exact Or.inr ⟨⟨hdir, record, hstays dir name record hfind, hrecord⟩,
        hnext ▸ hlimit.trans (hmono hlater)⟩

/-- While the scans can get at the record, the next one is never further away than the backoff. -/
theorem noticed_run {events : List Loop.Event} (hstart : s.next_scan = s.now)
    (hwaiting : task.Waiting dir name id s.system.world)
    (hrun : task.loop.Run (fun s event => Prompt s event ∧ task.Noticed dir name s event) s events t) :
    task.Awaited dir name id (fun now => now + min RETRY_BACKOFF_SECS task.cfg.poll_interval_secs) t := by
  apply hrun.invariant (P := task.Awaited dir name id _)
  · exact ⟨hstart.ge, Or.inr ⟨hwaiting, hstart.trans_le (Nat.le_add_right _ _)⟩⟩
  · rintro u event v hawaited ⟨hprompt, hnoticed⟩ hstep
    refine awaited_step (fun _ _ h => Nat.add_le_add_right h _) hstep hprompt ?_ hawaited
    rintro weather rfl
    obtain ⟨⟨outcome, world, hscan⟩, hreadable⟩ := hnoticed
    refine ⟨outcome, world, hscan, fun hwaiting => ?_⟩
    obtain hknown | rfl := hwaiting.noticed hscan hreadable
    · exact Or.inl hknown
    · exact Or.inr le_rfl

/-- Once the link is up for good, the next scan is the one that delivers. -/
theorem online_run {events : List Loop.Event} {deadline : Nat}
    (hawaited : task.Awaited dir name id (fun _ => deadline) s)
    (hrun : task.loop.Run (fun s event => Prompt s event ∧ task.Online s event) s events t)
    (hlate : deadline < t.now) : t.system.world.state.contains id = true := by
  have hend : task.Awaited dir name id (fun _ => deadline) t := by
    apply hrun.invariant (P := task.Awaited dir name id _) hawaited
    rintro u event v hawaited ⟨hprompt, hcalm⟩ hstep
    refine awaited_step (fun _ _ _ => le_rfl) hstep hprompt ?_ hawaited
    rintro weather rfl
    obtain ⟨world, dumps, hscan, -, hswept⟩ := scan_calm hcalm.1 hcalm.2
    refine ⟨.Idle, world, hscan, fun hwaiting => Or.inl ?_⟩
    obtain ⟨hdir, record, hfind, hid, hnonempty⟩ := hwaiting
    exact (hswept dir hdir name record id hfind hid hnonempty).1
  obtain ⟨hdue, hknown | ⟨-, hsoon⟩⟩ := hend
  · exact hknown
  · exact absurd (hdue.trans hsoon) hlate.not_ge

/-- A dump that lies in a configured directory is delivered soon after the link is up for good: with
the next scan, which is at most one interval away, and after the short backoff at the latest if the
scans so far could get at the record. -/
theorem waiting_dump_is_delivered {u : Loop} {before after : List Loop.Event}
    (hstart : s.next_scan = s.now) (hbefore : task.loop.Run Prompt s before t)
    (hafter : task.loop.Run (fun s event => Prompt s event ∧ task.Online s event) t after u) :
    (run task).Run (fun _ _ => True) s.system ((before ++ after).flatMap Loop.Event.untimed) u.system ∧
    ∀ dir name id,
      (task.Waiting dir name id t.system.world → t.now + task.cfg.poll_interval_secs < u.now →
        task.Sent id s u) ∧
      (task.Waiting dir name id s.system.world →
        task.loop.Run (fun s event => Prompt s event ∧ task.Noticed dir name s event) s before t →
        t.now + min RETRY_BACKOFF_SECS task.cfg.poll_interval_secs < u.now → task.Sent id s u) := by
  have hall : task.loop.Run (fun _ _ => True) s (before ++ after) u :=
    (hbefore.mono fun _ _ _ => trivial).trans (hafter.mono fun _ _ _ => trivial)
  have hjustified : task.Justified (fun id => s.system.world.state.contains id = true)
      u.system.world := by
    apply hall.invariant (P := fun v : Loop => task.Justified _ v.system.world)
    · exact fun id hid => Or.inl hid
    · exact fun v event w hv _ hstep => loop_justified hstep hv
  have hsent : ∀ id, u.system.world.state.contains id = true → task.Sent id s u := by
    refine fun id hknown => ⟨hknown, fun hunknown => (hjustified id hknown).resolve_left ?_⟩
    exact Bool.eq_false_iff.mp hunknown
  have hdue : t.now ≤ t.next_scan ∧ t.next_scan ≤ t.now + task.cfg.poll_interval_secs := by
    apply hbefore.invariant (P := fun v : Loop =>
      v.now ≤ v.next_scan ∧ v.next_scan ≤ v.now + task.cfg.poll_interval_secs)
    · exact ⟨hstart.ge, hstart.trans_le (Nat.le_add_right _ _)⟩
    · exact fun v event w hv hprompt hstep => prompt_step hstep hprompt hv
  refine ⟨loop_run_untimed hall, fun dir name id => ⟨fun hwaiting hlate => ?_, ?_⟩⟩
  · exact hsent id (online_run ⟨hdue.1, Or.inr ⟨hwaiting, hdue.2⟩⟩ hafter hlate)
  · intro hwaiting hnoticed hlate
    exact hsent id (online_run (noticed_run hstart hwaiting hnoticed) hafter hlate)

end Waiting

/-- The dumps lie there; the time, and that of the next scan. -/
def cut_off (connected : Bool) (now next_scan : Nat) : Loop where
  system := ⟨{ crowded with publisher := ⟨connected, [], [], []⟩ }, true, none⟩
  now := now
  next_scan := next_scan

theorem waiting_cut_off (now next_scan : Nat) :
    choppy.Waiting "/sys/fs/pstore" (.utf8 "dmesg-ramoops-0") (core_dump_id "dmesg-ramoops-0" 5)
      (cut_off false now next_scan).system.world :=
  ⟨List.mem_cons_self, (dump "0" 5 [1, 2, 3]).record, by rfl, by rfl, by decide⟩

/-- The first scan comes back and has seen the dump. -/
theorem noticed_cut_off :
    choppy.Noticed "/sys/fs/pstore" (.utf8 "dmesg-ramoops-0") (cut_off false 0 0) (.scan {}) := by
  have hclear : (choppy.trace none ((cut_off false 0 0).system.world.under {})).all (fun point =>
      point.2.next.1.fails = false ∧ point.2.next.1.hides (.utf8 "dmesg-ramoops-0") = false ∧
      point.2.next.2.next.1.fails = false) = true := by
    decide +kernel
  refine ⟨⟨.RetrySoon, (cut_off false 0 0).system.world, by rfl⟩, not_unreadable fun point hpoint => ?_⟩
  exact of_decide_eq_true (List.all_eq_true.mp hclear point hpoint)

/-- The link comes back three seconds after the first scan. -/
theorem waiting_dump_is_delivered_cut_off : ∃ u, u.now = 9 ∧
    choppy.Sent (core_dump_id "dmesg-ramoops-0" 5) (cut_off false 0 0) u := by
  have hscan : choppy.loop.step (cut_off false 0 0) (.scan {}) = some (cut_off false 0 5) := by
    rfl
  have hwait : choppy.loop.step (cut_off false 0 5) (.wait 3) = some (cut_off false 3 5) := by
    rfl
  have hlink : choppy.loop.step (cut_off false 3 5) (.link true) = some (cut_off true 3 5) := by
    rfl
  have hbefore : choppy.loop.Run (fun s event => Prompt s event ∧
      choppy.Noticed "/sys/fs/pstore" (.utf8 "dmesg-ramoops-0") s event) (cut_off false 0 0)
      ([.scan {}] ++ [.wait 3] ++ [.link true]) (cut_off true 3 5) :=
    .snoc (.snoc (.single ⟨trivial, noticed_cut_off⟩ hscan) ⟨(by decide : 0 + 3 ≤ 5), trivial⟩ hwait)
      ⟨trivial, trivial⟩ hlink
  have hcalm : Calm ((cut_off true 5 5).system.world.under {}) := ⟨rfl, rfl, by decide⟩
  have hencodes : choppy.AllEncode none ((cut_off true 5 5).system.world.under {}) :=
    allEncode_crowded
  obtain ⟨world, dumps, hsweep, -⟩ := scan_calm hcalm hencodes
  have hagain : choppy.loop.step (cut_off true 5 5) (.scan {}) =
      some ⟨⟨world, true, none⟩, 5, 5 + 300⟩ := by
    simp only [loop, cut_off] at hsweep ⊢
    rw [if_pos ⟨trivial, le_rfl⟩, hsweep]
    rfl
  have hdue : choppy.loop.step (cut_off true 3 5) (.wait 2) = some (cut_off true 5 5) := by
    rfl
  have hlater : choppy.loop.step ⟨⟨world, true, none⟩, 5, 5 + 300⟩ (.wait 4) =
      some ⟨⟨world, true, none⟩, 9, 5 + 300⟩ := by
    rfl
  have hafter : choppy.loop.Run (fun s event => Prompt s event ∧ choppy.Online s event) (cut_off true 3 5)
      ([.wait 2] ++ [.scan {}] ++ [.wait 4]) ⟨⟨world, true, none⟩, 9, 5 + 300⟩ :=
    .snoc (.snoc (.single ⟨(by decide : 3 + 2 ≤ 5), trivial⟩ hdue) ⟨trivial, hcalm, hencodes⟩ hagain)
      ⟨(by decide : 5 + 4 ≤ 5 + 300), trivial⟩ hlater
  have hsent := (waiting_dump_is_delivered rfl (hbefore.mono fun _ _ h => h.1) hafter).2
    "/sys/fs/pstore" (.utf8 "dmesg-ramoops-0") (core_dump_id "dmesg-ramoops-0" 5)
  have hlate : (cut_off true 3 5).now + min RETRY_BACKOFF_SECS choppy.cfg.poll_interval_secs < 9 := by
    decide
  exact ⟨_, rfl, hsent.2 (waiting_cut_off 0 0) hbefore hlate⟩

end Task

end spotflowd.sources.crashdump
