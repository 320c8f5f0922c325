import Spotflowd.Sources.Crashdump.Honest
import Spotflowd.Sources.Crashdump.StateJson

open effect fs
open spotflowd.config spotflowd.mqtt

namespace spotflowd.sources.crashdump

/-- The records that lie in the configured directories. -/
def World.lying (cfg : CrashdumpConfig) (s : World) : List Found :=
  (s.mounts.entries.filter fun mount => mount.1 ∈ cfg.paths).flatMap fun mount =>
    mount.2.entries.map fun entry => (entry.1, entry.2)

/-- The records that appear there in the course of an event. -/
def Weather.arriving (cfg : CrashdumpConfig) (weather : Weather) : List Found :=
  weather.moments.flatMap fun moment =>
    (moment.arrivals.filter fun arrival => arrival.dir ∈ cfg.paths).map fun arrival =>
      (arrival.name, arrival.record)

/-- For the delivered ids in memory, the records removed last under them. -/
def World.remembered (cfg : CrashdumpConfig) (s : World) : List Found :=
  s.state.delivered.filterMap fun r => s.last_removed cfg r.id

theorem World.Lies.mem {cfg : CrashdumpConfig} {s : World} {found : Found} (hlies : s.Lies cfg found) :
    found ∈ s.lying cfg := by
  obtain ⟨dir, hdir, hfind⟩ := hlies
  obtain ⟨records, hmount, hrecord⟩ := Option.bind_eq_some_iff.mp hfind
  apply List.mem_flatMap.mpr
  refine ⟨⟨dir, records⟩, ?_, ?_⟩
  · exact List.mem_filter.mpr ⟨AList.mem_lookup_iff.mp hmount, decide_eq_true hdir⟩
  · exact List.mem_map.mpr ⟨⟨found.1, found.2⟩, AList.mem_lookup_iff.mp hrecord, rfl⟩

namespace Task

variable (task : Task)

/-- At a scan, no record that lies in a configured directory or appears there meanwhile can be
mistaken for another such record, nor for the last one removed under an id that is still
remembered. -/
def TellsApart (s : System) : Event → Prop
  | .scan weather =>
    ∀ a ∈ s.world.lying task.cfg ++ weather.arriving task.cfg,
      ∀ b ∈ (s.world.lying task.cfg ++ weather.arriving task.cfg) ++ s.world.remembered task.cfg,
        ¬ task.Mistakable a b
  | _ => True

instance (s : System) : (event : Event) → Decidable (task.TellsApart s event)
  | .scan weather => by
    unfold TellsApart Mistakable
    infer_instance
  | .boot _ _ => isTrue trivial
  | .appear _ => isTrue trivial
  | .link _ => isTrue trivial

/-- Nothing has been delivered yet. -/
structure Fresh (s : System) : Prop where
  state : s.world.state = {}
  file : s.world.state_dir.files.lookup STATE_FILE_NAME = none
  removed : s.world.removed = []

variable {task}

/-- All that is known between two events. -/
abbrev Sound (task : Task) (s : System) : Prop :=
  task.Honest (fun _ => True) (fun _ => True) s.world

theorem Fresh.sound {s : System} (hfresh : Fresh s) : Sound task s where
  lying _ _ := trivial
  coming _ _ _ _ _ := trivial
  memory := by
    rw [hfresh.state]
    exact fun r hr => by cases hr
  file := by
    rw [hfresh.file]
    exact fun _ _ h => by cases h
  removed := by
    rw [hfresh.removed]
    exact fun removal hremoval => by cases hremoval

theorem Honest.sound {A B : Found → Prop} {s : World} (hhonest : task.Honest A B s) :
    task.Honest (fun _ => True) (fun _ => True) s where
  lying _ _ := trivial
  coming _ _ _ _ _ := trivial
  memory := by
    intro r hr
    obtain ⟨found, -, haccounts⟩ := hhonest.memory r hr
    exact ⟨found, trivial, haccounts⟩
  file := hhonest.file
  removed := hhonest.removed

/-- What a scan starts from. -/
theorem Sound.scan {s : System} (hsound : Sound task s) (weather : Weather) :
    task.Honest (· ∈ s.world.lying task.cfg ++ weather.arriving task.cfg)
      (· ∈ (s.world.lying task.cfg ++ weather.arriving task.cfg) ++ s.world.remembered task.cfg)
      (s.world.under weather) where
  lying := by
    intro found hlies
    exact List.mem_append_left _ (World.Lies.mem hlies)
  coming := by
    intro moment hmoment arrival harrival hdir
    apply List.mem_append_right
    apply List.mem_flatMap.mpr
    exact ⟨moment, hmoment, List.mem_map_of_mem (List.mem_filter.mpr ⟨harrival, decide_eq_true hdir⟩)⟩
  memory := by
    intro r hr
    obtain ⟨found, -, haccounts⟩ := hsound.memory r hr
    refine ⟨found, ?_, { haccounts with }⟩
    obtain hlies | hlast := haccounts.traced
    · exact List.mem_append_left _ (List.mem_append_left _ (World.Lies.mem hlies))
    · exact List.mem_append_right _ (List.mem_filterMap.mpr ⟨r, hr, hlast⟩)
  file := by
    intro bytes state hfile hstate r hr
    obtain ⟨found, haccounts⟩ := hsound.file bytes state hfile hstate r hr
    exact ⟨found, { haccounts with }⟩
  removed := hsound.removed

theorem Honest.carry {s t : World} (hhonest : task.Honest (fun _ => True) (fun _ => True) s)
    (hstays : ∀ found, s.Lies task.cfg found → t.Lies task.cfg found)
    (haccepted : t.publisher.accepted = s.publisher.accepted) (hstate : t.state = s.state)
    (hfile : t.state_dir.files.lookup STATE_FILE_NAME = s.state_dir.files.lookup STATE_FILE_NAME)
    (hremoved : t.removed = s.removed) : task.Honest (fun _ => True) (fun _ => True) t := by
  have haccounts : ∀ id found, task.Accounts s id found → task.Accounts t id found := by
    intro id found h
    refine ⟨h.collected, h.nonempty, haccepted ▸ h.uploaded, ?_⟩
    obtain hlies | hlast := h.traced
    · exact Or.inl (hstays found hlies)
    · rw [World.last_removed, hremoved]
      exact Or.inr hlast
  refine ⟨fun _ _ => trivial, fun _ _ _ _ _ => trivial, ?_, ?_, hremoved ▸ hhonest.removed⟩
  · intro r hr
    rw [hstate] at hr
    obtain ⟨found, hB, h⟩ := hhonest.memory r hr
    exact ⟨found, hB, haccounts _ _ h⟩
  · intro bytes state hlookup hloaded r hr
    rw [hfile] at hlookup
    obtain ⟨found, h⟩ := hhonest.file bytes state hlookup hloaded r hr
    exact ⟨found, haccounts _ _ h⟩

theorem Sound.step (hjson : task.json.RoundTrips) {s t : System} {event : Event}
    (hsound : Sound task s) (hapart : task.TellsApart s event)
    (hstep : (run task).step s event = some t) : Sound task t := by
  cases event with
  | boot build_id weather =>
    have hboot := boot_triple (s.world.under weather)
      (hsound.carry (fun _ h => h) rfl rfl rfl rfl)
    simp only [run] at hstep
    cases hrun : task.boot (s.world.under weather) with
    | ok _ world =>
      rw [hrun] at hboot hstep
      cases hstep
      exact hboot
    | error _ world =>
      rw [hrun] at hboot hstep
      cases hstep
      exact hboot
  | scan weather =>
    have hscan := scan_honest (fun _ h => List.mem_append_left _ h) hjson
      (fun a b ha hb => hapart a ha b hb) s.build_id (s.world.under weather) (hsound.scan weather)
    simp only [run] at hstep
    split at hstep
    · cases hrun : task.scan_and_publish s.build_id (s.world.under weather) with
      | ok _ world =>
        rw [hrun] at hscan hstep
        cases hstep
        exact hscan.sound
      | error _ world =>
        rw [hrun] at hscan hstep
        cases hstep
        exact hscan.sound
    · cases hstep
  | appear arrival =>
    cases hstep
    apply hsound.carry
    · rintro found ⟨dir, hdir, hfind⟩
      exact ⟨dir, hdir, World.find_appear_of_find hfind arrival⟩
    all_goals simp only
    all_goals rw [World.appear_eq]
  | link connected =>
    cases hstep
    exact hsound.carry (fun _ h => h) rfl rfl rfl rfl

/-- As long as the records that come together are told apart by their ids, a record is removed
only after its own content has been uploaded. -/
theorem removes_only_uploaded (hjson : task.json.RoundTrips) {s₀ s : System} {events : List Event}
    (hfresh : Fresh s₀) (hrun : (run task).Run task.TellsApart s₀ events s) :
    ∀ removal ∈ s.world.removed, task.RightlyRemoved removal := by
  have hsound : Sound task s := by
    apply hrun.invariant hfresh.sound
    intro t event u ht hapart hstep
    exact ht.step hjson hapart hstep
  exact hsound.removed

/-- The default configuration. -/
def dumps : Task := ⟨.wire, .wire, { enabled := true }, "/var/lib/spotflowd/spool"⟩

def idle : System where
  world := {
    mounts := ∅
    state_dir := ⟨none, [], [], []⟩
    publisher := ⟨false, [], [], []⟩
    clock := 0
    moments := []
    state := {}
    removed := [] }
  alive := false
  build_id := none

/-- A crash dump as it lies in `/sys/fs/pstore` after a crash at the given time. -/
def dump (slot : String) (seconds : Nat) (content : Bytes) : Arrival where
  dir := "/sys/fs/pstore"
  name := .utf8 ("dmesg-ramoops-" ++ slot)
  record := { is_file := true, modified := some (seconds * 10 ^ 9), content := content }

theorem removes_only_uploaded_twice : ∃ events s, (run dumps).Run dumps.TellsApart idle events s ∧
    s.world.removed.length = 2 ∧ ∀ removal ∈ s.world.removed, dumps.RightlyRemoved removal := by
  have hexec : ((run dumps).exec dumps.TellsApart idle
      [.boot none {}, .link true, .appear (dump "0" 5 [1, 2]),
        .appear { dump "0" 5 [9] with dir := "/mnt" }, .scan {}, .boot none {},
        .appear (dump "0" 9 [3]), .scan {}]).any
      (fun s => s.world.removed.length = 2) = true := by
    decide +kernel
  obtain ⟨s, hrun, htest⟩ := Machine.exists_run_of_exec _ hexec
  exact ⟨_, s, hrun, of_decide_eq_true htest,
    removes_only_uploaded SerdeJson.wire_roundTrips ⟨rfl, rfl, rfl⟩ hrun⟩

/-- The dump and the chunk can be told from their message. -/
theorem encode_chunk_inj {id id' : UInt64} {i i' : Nat} {chunk chunk' : Bytes}
    {is_last is_last' : Bool} {build_id build_id' : Option String} {payload : Bytes}
    (hencode : encode_chunk .wire id i chunk is_last build_id = .ok payload)
    (hencode' : encode_chunk .wire id' i' chunk' is_last' build_id' = .ok payload) :
    id = id' ∧ chunk = chunk' := by
  have hsame := Ciborium.wire_value_injective (encode_chunk_ok hencode) (encode_chunk_ok hencode')
  simp only [chunk_map, List.cons_append, cbor.Value.Map.injEq, List.cons.injEq, Prod.mk.injEq,
    cbor.Value.Integer.injEq, cbor.Value.Bytes.injEq, true_and] at hsame
  obtain ⟨hid, -, hchunk, -⟩ := hsame
  exact ⟨UInt64.toNat_inj.mp (Int.ofNat.inj hid), hchunk⟩

/-- A device whose clock starts over at each boot crashes twice, at the same time after the
boot: the second dump is deleted without having been sent. -/
theorem second_crash_is_deleted_unsent : ∃ events s, (run dumps).Run (fun _ _ => True) idle events s ∧
    ∃ removal ∈ s.world.removed, ¬ dumps.RightlyRemoved removal := by
  have hexec : ((run dumps).exec (fun _ _ => True) idle
      [.boot none {}, .link true, .appear (dump "0" 5 [1]), .scan {}, .boot none {},
        .appear (dump "0" 5 [2]), .scan {}]).any
      (fun s => ∃ removal ∈ s.world.removed, capped dumps.cfg removal.found = [2] ∧
        ∀ message ∈ removal.accepted, encode_chunk .wire
          (core_dump_id "dmesg-ramoops-0" 5) 0 [1] true none = .ok message.payload) = true := by
    decide +kernel
  obtain ⟨s, hrun, htest⟩ := Machine.exists_run_of_exec _ hexec
  obtain ⟨removal, hremoval, hcontent, hmessages⟩ := of_decide_eq_true htest
  refine ⟨_, s, hrun, removal, hremoval, ?_⟩
  rintro ⟨id, -, build_id, hchunks⟩
  rw [hcontent] at hchunks
  obtain ⟨payload, hencode, hmem⟩ := hchunks 0 [2] (by rfl)
  have hcontents := (encode_chunk_inj hencode (hmessages _ hmem)).2
  cases hcontents

end Task

end spotflowd.sources.crashdump
