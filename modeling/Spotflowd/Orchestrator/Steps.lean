import Spotflowd.Orchestrator
import Mathlib.Data.Prod.Lex

open effect fs chunked
open spotflowd.buffer spotflowd.log_entry spotflowd.mqtt

namespace spotflowd.orchestrator

/-- What taking in an entry can do: the lock is free, and the entry counts as pushed
exactly when the push succeeds. -/
theorem ingest_cases {c : Ciborium} {entry : LogEntry} {s t : System}
    (hingest : ingest c entry s = some t) :
    s.tick.holds_lock = false ∧
      ((∃ storage, Buffer.push c entry s.storage = .ok () storage ∧
          t = { s with storage := storage, pushed := s.pushed ++ [entry] }) ∨
        ∃ e storage, Buffer.push c entry s.storage = .error e storage ∧
          t = { s with storage := storage }) := by
  unfold ingest at hingest
  split at hingest
  · cases hingest
  · next hlock =>
    refine ⟨by simpa using hlock, ?_⟩
    cases hpush : Buffer.push c entry s.storage with
    | ok _ storage =>
      rw [hpush] at hingest
      exact Or.inl ⟨storage, rfl, (Option.some.inj hingest).symm⟩
    | error e storage =>
      rw [hpush] at hingest
      exact Or.inr ⟨e, storage, rfl, (Option.some.inj hingest).symm⟩

/-- Whether the push succeeds or not, only the storage and the history change. -/
theorem ingest_effect {c : Ciborium} {entry : LogEntry} {s t : System}
    (hingest : ingest c entry s = some t) :
    s.tick.holds_lock = false ∧ t.storage = finalState (Buffer.push c entry s.storage) ∧
      t.tick = s.tick ∧ t.publisher = s.publisher := by
  obtain ⟨hlock, ⟨storage, hpush, rfl⟩ | ⟨e, storage, hpush, rfl⟩⟩ := ingest_cases hingest
  all_goals exact ⟨hlock, by rw [hpush]; rfl, rfl, rfl⟩

/-- The entries the ingestion task takes in. -/
def pushes (events : List Event) : List LogEntry :=
  events.filterMap fun
    | .push entry => some entry
    | _ => none

@[simp] theorem pushes_append (before after : List Event) :
    pushes (before ++ after) = pushes before ++ pushes after :=
  List.filterMap_append

@[simp] theorem pushes_push (entry : LogEntry) : pushes [.push entry] = [entry] := rfl

theorem pushes_append_of_nil {event : Event} (hother : pushes [event] = []) (past : List Event) :
    pushes (past ++ [event]) = pushes past := by
  rw [pushes_append, hother, List.append_nil]

theorem run_tick_eq_some {c : Ciborium} {s t : System} (hstep : (run c).step s .tick = some t) :
    s.phase = .running ∧ t = publish_tick c s := by
  simp only [run] at hstep
  split at hstep
  · next hphase => exact ⟨hphase, (Option.some.inj hstep).symm⟩
  · cases hstep

/-- What a step of the tick does to the storage: nothing, or one thing under the lock. -/
inductive Touches (c : Ciborium) (s : System) : Storage → Prop where
  | nothing : Touches c s s.storage
  | drain : Touches c s { s.storage with buf := s.storage.buf.drain_memory.2 }
  | push_back (entries : List LogEntry) : Touches c s (push_all c entries s.storage)
  | next_disk_chunk : Touches c s (finalState (Buffer.next_disk_chunk s.storage))
  | read_chunk (path : FileName) : s.tick = .read_chunk path →
    Touches c s (finalState (Buffer.read_chunk c path s.storage))
  | delete_chunk (path : FileName) (read : Option (List LogEntry)) (held : Bool) :
    s.tick = .delete_chunk path read held →
    Touches c s (finalState (Buffer.delete_chunk path s.storage))

theorem publish_tick_touches (c : Ciborium) (s : System) : Touches c s (publish_tick c s).storage := by
  unfold publish_tick
  cases htick : s.tick with
  | idle => exact .nothing
  | sleeping held => exact .nothing
  | lock_memory =>
    simp only
    split
    · exact .drain
    · exact .nothing
  | memory_batch sent unsent later =>
    cases unsent with
    | nil => exact .nothing
    | cons entry unsent =>
      simp only
      split <;> exact .nothing
  | lock_requeue batch => exact .push_back batch
  | lock_disk =>
    have hnext := Touches.next_disk_chunk (c := c) (s := s)
    simp only
    split
    all_goals
      next hrun =>
        rw [hrun] at hnext
        exact hnext
  | read_chunk path =>
    have hread := Touches.read_chunk (c := c) path htick
    simp only
    split
    all_goals
      next hrun =>
        rw [hrun] at hread
        exact hread
  | disk_batch path entries published sent unsent later =>
    cases unsent with
    | nil => exact .nothing
    | cons entry unsent =>
      simp only
      split <;> exact .nothing
  | lock_tail path entries published => exact .push_back (entries.drop published).reverse
  | delete_chunk path read held => exact .delete_chunk path read held htick

/-- The entry the tick hands to the client next, if that is its next step. -/
def Tick.next_entry : Tick → Option LogEntry
  | .memory_batch _ (entry :: _) _ => some entry
  | .disk_batch _ _ _ _ (entry :: _) _ => some entry
  | _ => none

/-- The client accepts the entry that comes next. -/
def Accepts (c : Ciborium) (s : System) : Prop :=
  ∀ entry, s.tick.next_entry = some entry →
    ∃ publisher, MqttPublisher.publish_entry c entry s.publisher = .ok () publisher

instance (c : Ciborium) (s : System) : Decidable (Accepts c s) :=
  match hnext : s.tick.next_entry with
  | none => isTrue fun entry hentry => by rw [hnext] at hentry; cases hentry
  | some entry =>
    match hpublish : MqttPublisher.publish_entry c entry s.publisher with
    | .ok _ publisher => isTrue fun entry' hentry => by
        rw [hnext] at hentry
        cases hentry
        exact ⟨publisher, hpublish⟩
    | .error _ _ => isFalse fun haccepts => by
        obtain ⟨publisher, hok⟩ := haccepts entry hnext
        rw [hpublish] at hok
        cases hok

/-- The steps of one tick up to its return, with whatever the ingestion task pushes and
whatever happens to the connection in between. -/
def OneTick (s : System) : Event → Prop
  | .push _ => True
  | .link _ => True
  | .tick => s.tick ≠ .idle
  | .shutdown => False
  | .flush => False

instance (s : System) : (event : Event) → Decidable (OneTick s event)
  | .push _ => inferInstanceAs (Decidable True)
  | .link _ => inferInstanceAs (Decidable True)
  | .tick => inferInstanceAs (Decidable (s.tick ≠ .idle))
  | .shutdown => inferInstanceAs (Decidable False)
  | .flush => inferInstanceAs (Decidable False)

/-- The steps of one tick up to its return, and nothing else. -/
def Solo (s : System) (event : Event) : Prop := event = .tick ∧ s.tick ≠ .idle

instance (s : System) (event : Event) : Decidable (Solo s event) :=
  inferInstanceAs (Decidable (_ ∧ _))

theorem Solo.oneTick {s : System} {event : Event} (hsolo : Solo s event) : OneTick s event := by
  obtain ⟨rfl, htick⟩ := hsolo
  exact htick

theorem run_of_tick {c : Ciborium} {s : System} (hphase : s.phase = .running)
    (htick : s.tick ≠ .idle) : (run c).Run Solo s [.tick] (publish_tick c s) :=
  .single ⟨rfl, htick⟩ (by simp [run, hphase])

/-- Handing over what is left of a batch entry by entry is one call of `publish_batch`. -/
theorem batch_run {c : Ciborium} (batch : List LogEntry → List LogEntry → Tick)
    (failed : List LogEntry → Tick) (hbusy : ∀ sent unsent, batch sent unsent ≠ .idle)
    (hstep : ∀ s sent entry unsent, s.tick = batch sent (entry :: unsent) →
      publish_tick c s = match MqttPublisher.publish_entry c entry s.publisher with
        | .ok _ publisher => { s with
            publisher := publisher
            tick := batch (sent ++ [entry]) unsent }
        | .error _ publisher => { s with
            publisher := publisher
            tick := failed (sent ++ entry :: unsent) })
    {s : System} {sent unsent : List LogEntry} (hphase : s.phase = .running)
    (htick : s.tick = batch sent unsent) :
    ∃ n, (run c).Run Solo s (List.replicate n .tick)
      (match MqttPublisher.publish_batch c unsent s.publisher with
        | .ok _ publisher => { s with publisher := publisher, tick := batch (sent ++ unsent) [] }
        | .error _ publisher => { s with
            publisher := publisher
            tick := failed (sent ++ unsent) }) := by
  induction unsent generalizing s sent with
  | nil =>
    refine ⟨0, ?_⟩
    simp only [MqttPublisher.publish_batch_nil, pure_run, List.append_nil, ← htick]
    exact .nil s
  | cons entry unsent ih =>
    have hfirst := run_of_tick (c := c) hphase (by rw [htick]; exact hbusy _ _)
    have hentry := hstep s sent entry unsent htick
    rw [MqttPublisher.publish_batch_cons]
    cases hpublish : MqttPublisher.publish_entry c entry s.publisher with
    | error e publisher =>
      refine ⟨1, ?_⟩
      simpa [hentry, hpublish, bind_of_error hpublish] using hfirst
    | ok _ publisher =>
      rw [hpublish] at hentry
      have hphase' : (publish_tick c s).phase = .running := by simp [hentry, hphase]
      have htick' : (publish_tick c s).tick = batch (sent ++ [entry]) unsent := by simp [hentry]
      obtain ⟨n, hrest⟩ := ih hphase' htick'
      refine ⟨n + 1, ?_⟩
      rw [List.replicate_succ, bind_of_ok hpublish]
      simpa [hentry] using hfirst.trans hrest

theorem memory_batch_run {c : Ciborium} {s : System} {sent unsent : List LogEntry}
    {later : List (List LogEntry)} (hphase : s.phase = .running)
    (htick : s.tick = .memory_batch sent unsent later) :
    ∃ n, (run c).Run Solo s (List.replicate n .tick)
      (match MqttPublisher.publish_batch c unsent s.publisher with
        | .ok _ publisher => { s with
            publisher := publisher
            tick := .memory_batch (sent ++ unsent) [] later }
        | .error _ publisher => { s with
            publisher := publisher
            tick := .lock_requeue (sent ++ unsent) }) := by
  refine batch_run (fun sent unsent => .memory_batch sent unsent later) .lock_requeue (by simp) ?_
    hphase htick
  rintro ⟨storage, publisher, tick, phase, pushed⟩ sent entry unsent rfl
  rfl

theorem disk_batch_run {c : Ciborium} {s : System} {path : FileName} {entries : List LogEntry}
    {published : Nat} {sent unsent : List LogEntry} {later : List (List LogEntry)}
    (hphase : s.phase = .running)
    (htick : s.tick = .disk_batch path entries published sent unsent later) :
    ∃ n, (run c).Run Solo s (List.replicate n .tick)
      (match MqttPublisher.publish_batch c unsent s.publisher with
        | .ok _ publisher => { s with
            publisher := publisher
            tick := .disk_batch path entries published (sent ++ unsent) [] later }
        | .error _ publisher => { s with
            publisher := publisher
            tick := disk_done path entries published }) := by
  refine batch_run (fun sent unsent => .disk_batch path entries published sent unsent later)
    (fun _ => disk_done path entries published) (by simp) ?_ hphase htick
  rintro ⟨storage, publisher, tick, phase, pushed⟩ sent entry unsent rfl
  rfl

/-- Steps a list of batches takes at most. -/
def batch_steps (batches : List (List LogEntry)) : Nat :=
  (batches.map fun batch => batch.length + 1).sum

/-- How far the tick is from returning: stages whose length depends on what they find
in memory or on disk come first, the steps within a stage second. -/
def Tick.remaining : Tick → Nat ×ₗ Nat
  | .idle => toLex (0, 0)
  | .sleeping _ => toLex (0, 1)
  | .delete_chunk _ _ _ => toLex (0, 1)
  | .lock_requeue _ => toLex (0, 2)
  | .lock_tail _ _ _ => toLex (0, 2)
  | .memory_batch _ unsent later => toLex (0, 3 + unsent.length + batch_steps later)
  | .disk_batch _ _ _ _ unsent later => toLex (0, 3 + unsent.length + batch_steps later)
  | .read_chunk _ => toLex (1, 0)
  | .lock_disk => toLex (2, 0)
  | .lock_memory => toLex (3, 0)

theorem remaining_next_memory_batch (batches : List (List LogEntry)) :
    ∃ n, (next_memory_batch batches).remaining = toLex (0, n) ∧ n ≤ 2 + batch_steps batches := by
  cases batches with
  | nil => exact ⟨0, rfl, by omega⟩
  | cons batch later =>
    refine ⟨_, rfl, ?_⟩
    simp only [batch_steps, List.map_cons, List.sum_cons]
    omega

theorem remaining_disk_done (path : FileName) (entries : List LogEntry) (published : Nat) :
    ∃ n, (disk_done path entries published).remaining = toLex (0, n) ∧ n ≤ 2 := by
  unfold disk_done
  split
  · exact ⟨1, rfl, by omega⟩
  · split
    · exact ⟨2, rfl, by omega⟩
    · exact ⟨0, rfl, by omega⟩

theorem remaining_next_disk_batch (path : FileName) (entries : List LogEntry) (published : Nat)
    (batches : List (List LogEntry)) :
    ∃ n, (next_disk_batch path entries published batches).remaining = toLex (0, n) ∧
      n ≤ 2 + batch_steps batches := by
  cases batches with
  | nil =>
    obtain ⟨n, hn, hle⟩ := remaining_disk_done path entries published
    exact ⟨n, hn, by omega⟩
  | cons batch later =>
    refine ⟨_, rfl, ?_⟩
    simp only [batch_steps, List.map_cons, List.sum_cons]
    omega

/-- Every step of a tick that has started brings it closer to its end. -/
theorem publish_tick_remaining {c : Ciborium} {s : System} (htick : s.tick ≠ .idle) :
    (publish_tick c s).tick.remaining < s.tick.remaining := by
  have hstage : ∀ {m n : Nat} {i j : Nat}, i < j ∨ i = j ∧ m < n →
      (toLex (i, m) : Nat ×ₗ Nat) < toLex (j, n) := fun h => Prod.Lex.toLex_lt_toLex.mpr h
  unfold publish_tick
  cases htick' : s.tick with
  | idle => exact absurd htick' htick
  | sleeping held => exact hstage (Or.inr ⟨rfl, by omega⟩)
  | lock_memory =>
    simp only
    split
    · obtain ⟨n, hn, -⟩ := remaining_next_memory_batch
        (chunks PUBLISH_BATCH_SIZE s.storage.buf.drain_memory.1)
      simp only [hn]
      exact hstage (Or.inl (by omega))
    · exact hstage (Or.inl (by omega))
  | memory_batch sent unsent later =>
    cases unsent with
    | nil =>
      obtain ⟨n, hn, hle⟩ := remaining_next_memory_batch later
      simp only [hn]
      exact hstage (Or.inr ⟨rfl, by simp; omega⟩)
    | cons entry unsent =>
      simp only
      split <;> exact hstage (Or.inr ⟨rfl, by simp; try omega⟩)
  | lock_requeue batch => exact hstage (Or.inr ⟨rfl, by omega⟩)
  | lock_disk =>
    simp only
    split <;> exact hstage (Or.inl (by omega))
  | read_chunk path =>
    simp only
    split
    · next entries _ _ =>
      obtain ⟨n, hn, -⟩ := remaining_next_disk_batch path entries 0 (chunks PUBLISH_BATCH_SIZE entries)
      simp only [hn]
      exact hstage (Or.inl (by omega))
    · exact hstage (Or.inl (by omega))
  | disk_batch path entries published sent unsent later =>
    cases unsent with
    | nil =>
      obtain ⟨n, hn, hle⟩ := remaining_next_disk_batch path entries (published + sent.length) later
      simp only [hn]
      exact hstage (Or.inr ⟨rfl, by simp; omega⟩)
    | cons entry unsent =>
      simp only
      split
      · exact hstage (Or.inr ⟨rfl, by simp⟩)
      · obtain ⟨n, hn, hle⟩ := remaining_disk_done path entries published
        simp only [hn]
        exact hstage (Or.inr ⟨rfl, by simp; omega⟩)
  | lock_tail path entries published => exact hstage (Or.inr ⟨rfl, by omega⟩)
  | delete_chunk path read held => exact hstage (Or.inr ⟨rfl, by omega⟩)

theorem publish_tick_phase (c : Ciborium) (s : System) : (publish_tick c s).phase = s.phase := by
  unfold publish_tick
  repeat' split
  all_goals rfl

/-- Whatever the client, the disk and the memory do, a tick returns. -/
theorem publish_tick_returns (c : Ciborium) (s : System) (hphase : s.phase = .running) :
    ∃ n t, (run c).Run Solo s (List.replicate n .tick) t ∧ t.phase = .running ∧
      t.tick = .idle := by
  apply Machine.exists_run_to_done (fun s : System => s.phase = .running)
    (fun s => s.tick = .idle) (fun s => s.tick.remaining) Event.tick _ s hphase
  intro s hphase htick
  exact ⟨⟨rfl, htick⟩, publish_tick c s, by simp [run, hphase], by rw [publish_tick_phase, hphase],
    publish_tick_remaining htick⟩

end spotflowd.orchestrator
