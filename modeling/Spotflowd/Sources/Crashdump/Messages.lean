import Spotflowd.Sources.Crashdump.Honest
import Spotflowd.Sources.Crashdump.Reassembly

open effect fs
open spotflowd.mqtt

namespace spotflowd.sources.crashdump

/-- The client has accepted messages of fragments, after those it had accepted before. -/
def Said (c : Ciborium) (before : List Message) (s : World) : Prop :=
  ∃ (sent : List Message) (fragments : List Fragment), s.publisher.accepted = before ++ sent ∧
    sent.map Except.ok = fragments.map (fragment_message c)

variable {c : Ciborium} {before : List Message}

theorem Said.refl (s : World) : Said c s.publisher.accepted s := ⟨[], [], (List.append_nil _).symm, rfl⟩

theorem Said.congr {s t : World} (hsaid : Said c before s)
    (haccepted : t.publisher.accepted = s.publisher.accepted) : Said c before t := by
  obtain ⟨sent, fragments, hsent, hmessages⟩ := hsaid
  exact ⟨sent, fragments, haccepted.trans hsent, hmessages⟩

theorem Said.next (s : World) (hsaid : Said c before s) : Said c before s.next.2 :=
  hsaid.congr (by rw [s.next_publisher])

/-- Nothing is said. -/
def Mute (s t : World) : Prop := t.publisher.accepted = s.publisher.accepted

theorem mute_harmless : Harmless Mute where
  refl _ := rfl
  trans _ _ _ hfirst hrest := hrest.trans hfirst
  next s := by rw [Mute, s.next_publisher]

theorem said_of_mute {α : Type} {x : CrashM α} (hx : Respects Mute x) :
    Triple (Said c before) x (fun _ => Said c before) fun _ => Said c before :=
  Triple.of_respects hx fun _ _ hmute hsaid => hsaid.congr hmute

theorem publish_chunks_said (id : UInt64) (n : Nat) (build_id : Option String) (i : Nat)
    (pieces : List Bytes) : Triple (Said c before) (publish_chunks c id n build_id i pieces)
      (fun _ => Said c before) fun _ => Said c before := by
  induction pieces generalizing i with
  | nil => exact Triple.pure fun s hs => hs
  | cons piece pieces ih =>
    rw [publish_chunks]
    cases hencode : encode_chunk c id i piece (i = n - 1) build_id with
    | error e => exact Triple.throw fun s hs => hs
    | ok payload =>
      refine Triple.bind ?_ fun _ => ih (i + 1)
      have hmessage : fragment_message c ⟨id, i, piece, i = n - 1, build_id⟩ =
          .ok ⟨INGEST_TOPIC, .AtMostOnce, false, payload⟩ := by
        rw [fragment_message, hencode]
        rfl
      rintro s ⟨sent, fragments, hsent, hmessages⟩
      obtain ⟨-, t, hok, -, -, haccepted⟩ | ⟨-, e, t, herror, haccepted⟩ := publish_payload_cases payload s
      · rw [hok]
        refine ⟨sent ++ [_], fragments ++ [⟨id, i, piece, i = n - 1, build_id⟩],
          by rw [haccepted, hsent, List.append_assoc], ?_⟩
        rw [List.map_append, List.map_append, hmessages, List.map_singleton, List.map_singleton, hmessage]
      · rw [herror]
        exact ⟨sent, fragments, haccepted.trans hsent, hmessages⟩

namespace Task

variable (self : Task)

theorem maybe_delete_said (dir : String) (name : OsName) : Triple (Said c before)
    (self.maybe_delete dir name) (fun _ => Said c before) fun _ => Said c before :=
  maybe_delete_rule Said.next (fun _ hs => hs) fun _ _ _ hs => hs.congr rfl

theorem save_said : Triple (Said c before) self.save (fun _ => Said c before) fun _ => Said c before := by
  apply (Task.save_triple Said.next ?_ ?_).post
  · exact fun _ s hs => hs.1
  · exact fun s dir _ _ hs => hs.congr rfl
  · exact fun s dir bytes _ _ _ hs => hs.congr rfl

theorem upload_said (build_id : Option String) (dir fname : String) (id : UInt64) :
    Triple (Said self.c before) (self.upload build_id dir fname id) (fun _ => Said self.c before)
      fun _ => Said self.c before := by
  apply upload_rule (C := fun _ => Said self.c before) (D := fun _ => Said self.c before)
  · exact said_of_mute (mute_harmless.read_capped dir fname _)
  · exact fun s hs => hs
  · intro content
    exact Triple.bind (publish_chunks_said id _ build_id 0 _) fun _ => Triple.pure fun s hs => hs
  · intro content _
    exact delivered_rule Said.next (fun s hs => hs) (fun s now hs => hs.congr rfl) self.save_said
      (fun s hs => hs) (self.maybe_delete_said dir _)

theorem visit_said (build_id : Option String) (connected : Bool) (dir : String) (name : OsName) :
    Triple (Said self.c before) (self.visit build_id connected dir name) (fun _ => Said self.c before)
      fun _ => Said self.c before := by
  apply visit_rule Said.next
  · exact fun record own _ => (self.maybe_delete_said dir name).pre fun s hs => hs.1
  · exact fun fname record own _ _ => (self.upload_said build_id dir fname own).pre fun s hs => hs.1

theorem scan_and_publish_said (build_id : Option String) : Triple (Said self.c before)
    (self.scan_and_publish build_id) (fun _ => Said self.c before) fun _ => Said self.c before := by
  apply scan_and_publish_triple
  · exact fun dir => (mute_harmless.read_dir dir).mono fun s t hmute hs => hs.congr hmute
  · exact fun build_id connected dir _ name => self.visit_said build_id connected dir name

theorem boot_said : Triple (Said c before) self.boot (fun _ => Said c before) fun _ => Said c before := by
  have hload : Respects Mute self.load := by
    apply Respects.bind mute_harmless.trans (result_respects
      (mute_harmless.on_state_dir (T := fun _ _ => True) (fun _ => trivial) fun _ _ _ => rfl))
    intro answer
    cases answer <;> exact Respects.pure mute_harmless.refl _
  apply Triple.bind (said_of_mute hload)
  intro state
  apply Triple.bind (said_of_mute mute_harmless.now_secs)
  intro now
  exact Triple.modify fun s hs => hs.congr rfl

end Task

/-- Whatever happens, and however often the process starts again, the task publishes fragments of
dumps and nothing else. -/
theorem Said.step {task : Task} {s t : System} {event : Event} (hsaid : Said task.c before s.world)
    (hstep : (run task).step s event = some t) : Said task.c before t.world := by
  cases event with
  | boot build_id weather =>
    have hboot := task.boot_said.finalState (hsaid.congr (t := s.world.under weather) rfl)
    simp only [run] at hstep
    cases hrun : task.boot (s.world.under weather) with
    | ok _ world =>
      rw [hrun] at hstep hboot
      cases hstep
      exact hboot
    | error e world =>
      rw [hrun] at hstep hboot
      cases hstep
      exact hboot
  | scan weather =>
    have hscan := (task.scan_and_publish_said s.build_id).finalState
      (hsaid.congr (t := s.world.under weather) rfl)
    simp only [run] at hstep
    split at hstep
    · cases hrun : task.scan_and_publish s.build_id (s.world.under weather) with
      | ok _ world =>
        rw [hrun] at hstep hscan
        cases hstep
        exact hscan
      | error e world =>
        rw [hrun] at hstep hscan
        cases hstep
        exact hscan
    · cases hstep
  | appear arrival =>
    cases hstep
    exact hsaid.congr (by rw [World.appear_eq])
  | link connected =>
    cases hstep
    exact hsaid.congr rfl

end spotflowd.sources.crashdump
