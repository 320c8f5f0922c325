import Spotflowd.Lib.Hoare
import Spotflowd.Sources.Crashdump

open effect fs path
open spotflowd.mqtt

namespace spotflowd.sources.crashdump

theorem World.find_insert (s : World) (dir : String) (records : Pstore) (d : String) (n : OsName) :
    ((s.mounts.insert dir records).lookup d).bind (fun records => records.lookup n) =
      if d = dir then records.lookup n else s.find d n := by
  split
  · next heq =>
    subst heq
    rw [AList.lookup_insert]
    rfl
  · next hne =>
    rw [AList.lookup_insert_ne hne]
    rfl

theorem World.appear_eq (s : World) (arrival : Arrival) :
    s.appear arrival = { s with mounts := (s.appear arrival).mounts } := by
  rw [World.appear]
  split <;> rfl

theorem World.find_appear (s : World) (arrival : Arrival) (dir : String) (name : OsName) :
    (s.appear arrival).find dir name =
      if dir = arrival.dir ∧ name = arrival.name then some ((s.find dir name).getD arrival.record)
      else s.find dir name := by
  rw [World.appear]
  split
  · next hsome =>
    obtain ⟨record, hrecord⟩ := Option.isSome_iff_exists.mp hsome
    split
    · next heq =>
      obtain ⟨rfl, rfl⟩ := heq
      rw [hrecord, Option.getD_some]
    · rfl
  · next hnone =>
    rw [World.find, World.find_insert]
    by_cases hdir : dir = arrival.dir
    · subst hdir
      rw [if_pos rfl]
      by_cases hname : name = arrival.name
      · subst hname
        rw [AList.lookup_insert, if_pos ⟨rfl, rfl⟩, Option.not_isSome_iff_eq_none.mp hnone,
          Option.getD_none]
      · rw [AList.lookup_insert_ne hname, if_neg fun h => hname h.2, World.find]
        cases s.mounts.lookup arrival.dir <;> rfl
    · rw [if_neg hdir, if_neg fun h => hdir h.1]

theorem World.find_appear_of_find {s : World} {dir : String} {name : OsName} {record : Record}
    (hfind : s.find dir name = some record) (arrival : Arrival) :
    (s.appear arrival).find dir name = some record := by
  rw [World.find_appear, hfind]
  split <;> rfl

/-- A record that is there after an arrival was there before or has just arrived. -/
theorem World.find_of_find_appear {s : World} {arrival : Arrival} {dir : String} {name : OsName}
    {record : Record} (hfind : (s.appear arrival).find dir name = some record) :
    s.find dir name = some record ∨ arrival = ⟨dir, name, record⟩ := by
  rw [World.find_appear] at hfind
  split at hfind
  · next heq =>
    obtain ⟨rfl, rfl⟩ := heq
    cases hold : s.find arrival.dir arrival.name with
    | some old =>
      rw [hold] at hfind
      exact Or.inl hfind
    | none =>
      rw [hold] at hfind
      cases hfind
      exact Or.inr rfl
  · exact Or.inl hfind

/-- Only the record itself goes. -/
theorem World.find_remove (s : World) (dir : String) (name : OsName) (record : Record)
    (d : String) (n : OsName) :
    (s.remove dir name record).find d n = if d = dir ∧ n = name then none else s.find d n := by
  rw [World.remove, World.find, World.find_insert]
  by_cases hdir : d = dir
  · subst hdir
    rw [if_pos rfl]
    by_cases hname : n = name
    · subst hname
      rw [AList.lookup_erase, if_pos ⟨rfl, rfl⟩]
    · rw [AList.lookup_erase_ne hname, if_neg fun h => hname h.2, World.find]
      cases s.mounts.lookup d <;> rfl
  · rw [if_neg hdir, if_neg fun h => hdir h.1]

/-- Records appear, time passes, messages are accepted; the rest stays. -/
structure Evolves (s t : World) : Prop where
  stays : ∀ dir name record, s.find dir name = some record → t.find dir name = some record
  appears : ∀ dir name record, t.find dir name = some record →
    s.find dir name = some record ∨
      ∃ moment ∈ s.moments, ⟨dir, name, record⟩ ∈ moment.arrivals
  coming : t.moments <:+ s.moments
  accepted : s.publisher.accepted <+: t.publisher.accepted
  state : t.state = s.state
  file : t.state_dir.files.lookup STATE_FILE_NAME = s.state_dir.files.lookup STATE_FILE_NAME
  removed : t.removed = s.removed

theorem Evolves.refl (s : World) : Evolves s s where
  stays _ _ _ h := h
  appears _ _ _ h := Or.inl h
  coming := List.suffix_rfl
  accepted := List.prefix_rfl
  state := rfl
  file := rfl
  removed := rfl

theorem Evolves.trans (s t u : World) (hst : Evolves s t) (htu : Evolves t u) : Evolves s u where
  stays dir name record h := htu.stays dir name record (hst.stays dir name record h)
  appears dir name record h := by
    obtain hthere | ⟨moment, hmoment, harrival⟩ := htu.appears dir name record h
    · exact hst.appears dir name record hthere
    · exact Or.inr ⟨moment, hst.coming.subset hmoment, harrival⟩
  coming := htu.coming.trans hst.coming
  accepted := hst.accepted.trans htu.accepted
  state := htu.state.trans hst.state
  file := htu.file.trans hst.file
  removed := htu.removed.trans hst.removed

theorem foldl_appear (arrivals : List Arrival) (s : World) :
    arrivals.foldl World.appear s = { s with mounts := (arrivals.foldl World.appear s).mounts } ∧
    (∀ dir name record, s.find dir name = some record →
      (arrivals.foldl World.appear s).find dir name = some record) ∧
    ∀ dir name record, (arrivals.foldl World.appear s).find dir name = some record →
      s.find dir name = some record ∨ ⟨dir, name, record⟩ ∈ arrivals := by
  induction arrivals generalizing s with
  | nil => exact ⟨rfl, fun _ _ _ h => h, fun _ _ _ h => Or.inl h⟩
  | cons arrival arrivals ih =>
    obtain ⟨heq, hstays, happears⟩ := ih (s.appear arrival)
    rw [List.foldl_cons]
    refine ⟨?_, ?_, ?_⟩
    · rw [heq, World.appear_eq]
    · intro dir name record hfind
      exact hstays dir name record (World.find_appear_of_find hfind arrival)
    · intro dir name record hfind
      obtain hthere | hlater := happears dir name record hfind
      · obtain hbefore | rfl := World.find_of_find_appear hthere
        · exact Or.inl hbefore
        · exact Or.inr List.mem_cons_self
      · exact Or.inr (List.mem_cons_of_mem _ hlater)

theorem World.next_evolves (s : World) : Evolves s s.next.2 := by
  rw [World.next]
  split
  · exact Evolves.refl s
  · next moment moments hmoments =>
    obtain ⟨heq, hstays, happears⟩ := foldl_appear moment.arrivals
      { s with moments := moments, clock := moment.clock.getD s.clock }
    refine ⟨hstays, ?_, ?_, ?_, ?_, ?_, ?_⟩
    · intro dir name record hfind
      obtain hthere | harrival := happears dir name record hfind
      · exact Or.inl hthere
      · exact Or.inr ⟨moment, by rw [hmoments]; exact List.mem_cons_self, harrival⟩
    · exact ⟨[moment], by rw [heq, hmoments]; rfl⟩
    · exact ⟨[], by rw [heq, List.append_nil]⟩
    all_goals rw [heq]

@[simp] theorem World.next_state_dir (s : World) : s.next.2.state_dir = s.state_dir := by
  rw [World.next]
  split
  · rfl
  · next moment moments hmoments =>
    rw [(foldl_appear moment.arrivals _).1]

theorem World.next_publisher (s : World) : s.next.2.publisher = s.publisher := by
  rw [World.next]
  split
  · rfl
  · next moment moments hmoments =>
    rw [(foldl_appear moment.arrivals _).1]

theorem World.next_moments (s : World) : s.next.2.moments = s.moments.tail := by
  rw [World.next]
  split
  · next hmoments => rw [hmoments, List.tail_nil]
  · next moment moments hmoments =>
    rw [(foldl_appear moment.arrivals _).1, hmoments, List.tail_cons]

theorem World.next_crash (s : World) : s.next.1.crash = s.moments.head?.any Moment.crash := by
  rw [World.next]
  split
  · next hmoments => rw [hmoments, List.head?_nil, Option.any_none]
  · next moment moments hmoments => rw [hmoments, List.head?_cons, Option.any_some]

/-- A call can change the world in this way. -/
structure Harmless (R : World → World → Prop) : Prop where
  refl : ∀ s, R s s
  trans : ∀ s t u, R s t → R t u → R s u
  next : ∀ s, R s s.next.2

theorem evolves_harmless : Harmless Evolves := ⟨Evolves.refl, Evolves.trans, World.next_evolves⟩

theorem Harmless.and {R S : World → World → Prop} (hR : Harmless R) (hS : Harmless S) :
    Harmless fun s t => R s t ∧ S s t where
  refl s := ⟨hR.refl s, hS.refl s⟩
  trans s t u hst htu := ⟨hR.trans s t u hst.1 htu.1, hS.trans s t u hst.2 htu.2⟩
  next s := ⟨hR.next s, hS.next s⟩

theorem call_run (s : World) :
    call s = if s.next.1.crash then .error .crash s.next.2 else .ok s.next.1 s.next.2 := rfl

theorem on_state_dir_run {α : Type} (context : String) (x : FsM α) (s : World) :
    on_state_dir context x s =
      if s.next.1.crash then .error .crash s.next.2
      else match x s.state_dir with
        | .ok a dir => .ok a { s.next.2 with state_dir := dir }
        | .error _ dir => .error (.failed context) { s.next.2 with state_dir := dir } := by
  rw [on_state_dir, bind_run, call_run]
  by_cases hcrash : s.next.1.crash = true
  · rw [if_pos hcrash, if_pos hcrash]
  · rw [if_neg hcrash, if_neg hcrash, ← s.next_state_dir]
    simp only [zoom]
    cases x s.next.2.state_dir <;> rfl

theorem result_respects {α : Type} {R : World → World → Prop} {x : CrashM α} (hx : Respects R x) :
    Respects R (result x) := by
  intro s
  have hs := hx s
  rw [result]
  split <;> simpa [*] using hs

namespace Harmless

variable {α : Type} {R : World → World → Prop} (hR : Harmless R)

include hR

theorem call : Respects R call := by
  intro s
  rw [call_run]
  split <;> exact hR.next s

theorem after_call {f : Moment → World → CrashM α} (hf : ∀ moment s, Respects R (f moment s)) :
    Respects R (do f (← crashdump.call) (← get)) := by
  apply Respects.bind hR.trans hR.call
  intro moment
  exact Respects.bind hR.trans hR.refl (hf moment)

theorem read_dir (dir : String) : Respects R (read_dir dir) := by
  apply hR.after_call
  intro moment s
  split <;> exact Respects.pure hR.refl _

theorem metadata (dir : String) (name : OsName) : Respects R (metadata dir name) := by
  apply hR.after_call
  intro moment s
  split <;> exact Respects.pure hR.refl _

theorem read (dir : String) (name : OsName) : Respects R (read dir name) := by
  apply hR.after_call
  intro moment s
  split <;> exact Respects.pure hR.refl _

theorem read_capped (dir fname : String) (max_bytes : Nat) :
    Respects R (read_capped dir fname max_bytes) := by
  apply Respects.bind hR.trans (hR.read dir (.utf8 fname))
  intro data
  cases data with
  | some bytes => exact Respects.pure hR.refl _
  | none => exact Respects.throw hR.refl _

theorem now_secs : Respects R now_secs := by
  apply hR.after_call
  intro moment s
  exact Respects.pure hR.refl _

/-- A call on the state directory, from what it can do there. -/
theorem on_state_dir {T : Fs → Fs → Prop} {context : String} {x : FsM α} (hx : Respects T x)
    (hput : ∀ s dir, T s.state_dir dir → R s { s with state_dir := dir }) :
    Respects R (on_state_dir context x) := by
  apply Respects.bind hR.trans hR.call
  intro moment
  exact Respects.zoom hx hput

/-- A publish, from what it can do to the client. -/
theorem publish_payload {T : MqttPublisher → MqttPublisher → Prop} {payload : Bytes}
    (hx : Respects T (MqttPublisher.publish_payload payload))
    (hput : ∀ s publisher, T s.publisher publisher → R s { s with publisher := publisher }) :
    Respects R (publish_payload payload) := by
  apply Respects.bind hR.trans hR.call
  intro moment
  exact Respects.zoom hx hput

end Harmless

theorem publish_payload_evolves (payload : Bytes) : Respects Evolves (publish_payload payload) := by
  have haccepts : Respects (fun p p' : MqttPublisher => p.accepted <+: p'.accepted)
      (MqttPublisher.publish_payload payload) := by
    intro p
    obtain ⟨outcomes, hrun⟩ | ⟨outcomes, hrun⟩ := MqttPublisher.publish_payload_cases payload p
    · rw [hrun]
      exact List.prefix_append _ _
    · rw [hrun]
      exact List.prefix_rfl
  exact evolves_harmless.publish_payload haccepts fun s p haccepted =>
    { Evolves.refl s with accepted := haccepted }

section Triples

variable {α : Type} {P : World → Prop} {Q : α → World → Prop}

theorem result_triple {E : Stop → World → Prop} {x : CrashM α} (hx : Triple P x Q E) :
    Triple P (result x)
      (fun answer s => match answer with
        | .ok a => Q a s
        | .error message => E (.failed message) s)
      E := by
  intro s hs
  have hend := hx s hs
  rw [result]
  cases hrun : x s with
  | ok a t =>
    rw [hrun] at hend
    exact hend
  | error e t =>
    rw [hrun] at hend
    cases e <;> exact hend

theorem call_triple (hnext : ∀ s, P s → P s.next.2) : Triple P call (fun _ => P) fun _ => P := by
  intro s hs
  rw [call_run]
  by_cases hdies : s.next.1.crash = true
  · rw [if_pos hdies]
    exact hnext s hs
  · rw [if_neg hdies]
    exact hnext s hs

theorem now_secs_triple (hnext : ∀ s, P s → P s.next.2) :
    Triple P now_secs (fun _ => P) fun _ => P := by
  apply Triple.bind (call_triple hnext)
  intro moment
  apply Triple.bind Triple.get
  intro s
  exact Triple.pure fun t ht => ht.1

/-- A call on the state directory, from what its two answers mean there. -/
theorem on_state_dir_triple {E : World → Prop} {context : String} {x : FsM α}
    (hnext : ∀ s, P s → P s.next.2) (hcrash : ∀ s, P s → E s)
    (hok : ∀ s a dir, P s → x s.state_dir = .ok a dir → Q a { s with state_dir := dir })
    (herror : ∀ s e dir, P s → x s.state_dir = .error e dir → E { s with state_dir := dir }) :
    Triple P (on_state_dir context x) Q fun _ => E := by
  apply Triple.bind_weaken (call_triple hnext) fun _ s hs => hcrash s hs
  intro moment s hs
  rw [zoom]
  cases hrun : x s.state_dir with
  | ok a dir => exact hok s a dir hs hrun
  | error e dir => exact herror s e dir hs hrun

/-- A record is removed, or nothing happens to it. -/
theorem maybe_delete_rule {task : Task} {P' : World → Prop} {dir : String} {name : OsName}
    (hnext : ∀ s, P s → P s.next.2) (hkeep : ∀ s, P s → P' s)
    (hremove : ∀ s record, s.find dir name = some record → P s → P' (s.remove dir name record)) :
    Triple P (task.maybe_delete dir name) (fun _ => P') fun _ => P' := by
  have hcall : Triple P (remove_file dir name) (fun _ => P') fun _ => P' := by
    apply Triple.bind_weaken (call_triple hnext) fun _ s hs => hkeep s hs
    intro moment
    apply Triple.bind Triple.get
    intro s
    split
    · next record hfind _ =>
      apply Triple.set
      rintro t ⟨ht, rfl⟩
      exact hremove s record hfind ht
    · exact Triple.throw fun t ht => hkeep t ht.1
  rw [Task.maybe_delete]
  split
  · apply Triple.bind (result_triple hcall)
    intro answer
    apply Triple.pure
    intro s hs
    cases answer <;> exact hs
  · exact Triple.pure hkeep

end Triples

section Scan

variable {task : Task} {P : World → Prop} (hread : ∀ dir, Respects (fun s t => P s → P t) (read_dir dir))
  (hvisit : ∀ build_id connected, ∀ dir ∈ task.cfg.paths, ∀ name,
    Triple P (task.visit build_id connected dir name) (fun _ => P) fun _ => P)

include hvisit

theorem scan_entries_triple (build_id : Option String) (connected : Bool) {dir : String}
    (hdir : dir ∈ task.cfg.paths) (names : List OsName) (deferred : Nat) :
    Triple P (task.scan_entries build_id connected dir names deferred) (fun _ => P) fun _ => P := by
  induction names generalizing deferred with
  | nil => exact Triple.pure fun s hs => hs
  | cons name names ih =>
    apply Triple.bind (hvisit build_id connected dir hdir name)
    intro outcome
    cases outcome with
    | done => exact ih deferred
    | deferred => exact ih (deferred + 1)
    | failed => exact Triple.pure fun s hs => hs

include hread

theorem scan_dirs_triple (build_id : Option String) (connected : Bool) {dirs : List String}
    (hdirs : dirs ⊆ task.cfg.paths) (deferred : Nat) :
    Triple P (task.scan_dirs build_id connected dirs deferred) (fun _ => P) fun _ => P := by
  induction dirs generalizing deferred with
  | nil => exact Triple.pure fun s hs => hs
  | cons dir dirs ih =>
    obtain ⟨hdir, hdirs⟩ := List.cons_subset.mp hdirs
    apply Triple.bind (Triple.of_respects (hread dir) fun s t hst hs => hst hs)
    intro listing
    cases listing with
    | none => exact ih hdirs deferred
    | some names =>
      apply Triple.bind (scan_entries_triple hvisit build_id connected hdir names deferred)
      intro outcome
      cases outcome with
      | none => exact Triple.pure fun s hs => hs
      | some deferred => exact ih hdirs deferred

theorem scan_and_publish_triple (build_id : Option String) :
    Triple P (task.scan_and_publish build_id) (fun _ => P) fun _ => P := by
  apply Triple.bind Triple.get
  intro s
  apply Triple.bind
  · apply (scan_dirs_triple hread hvisit build_id _ (List.Subset.refl task.cfg.paths) 0).pre
    exact fun t ht => ht.1
  intro outcome
  cases outcome with
  | none => exact Triple.pure fun t ht => ht
  | some deferred => exact Triple.pure fun t ht => ht

end Scan

end spotflowd.sources.crashdump
