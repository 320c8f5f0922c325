import Spotflowd.Orchestrator.Progress

open effect chunked
open spotflowd.buffer spotflowd.log_entry spotflowd.mqtt
open spotflowd.mqtt.MqttPublisher (first_failure)

namespace spotflowd.orchestrator

/-- The batch in which the first failure occurs, the only one the recovery pushes back. -/
def failed_batch (c : Ciborium) (outcomes : List Bool) (entries : List LogEntry) : List LogEntry :=
  match first_failure c outcomes entries with
  | none => []
  | some k => (entries.drop (batch_start k)).take PUBLISH_BATCH_SIZE

/-- Where the memory path stands after the events `past`, `entries` having been drained. -/
def MemoryPath (c : Ciborium) (S : List LogEntry → Storage → Prop) (start : MqttPublisher)
    (entries : List LogEntry) (past : List Event) (s : System) : Prop :=
  match s.tick with
  | .memory_batch sent unsent later => S (pushes past) s.storage ∧
    ∃ before, chunks PUBLISH_BATCH_SIZE entries = before ++ (sent ++ unsent) :: later ∧
      Progress c start entries (before.flatten ++ sent) (unsent ++ later.flatten) s.publisher
  | .lock_requeue batch => S (pushes past) s.storage ∧
    batch = failed_batch c start.outcomes entries ∧
    s.publisher.handed = start.handed ++ accepted c start.outcomes entries
  | .sleeping held => held = true ∧
    S (pushes past ++ failed_batch c start.outcomes entries) s.storage ∧
    s.publisher.handed = start.handed ++ accepted c start.outcomes entries
  | .idle => (∃ before after, pushes past = before ++ after ∧
      S (before ++ failed_batch c start.outcomes entries ++ after) s.storage) ∧
    s.publisher.handed = start.handed ++ accepted c start.outcomes entries
  | _ => False

variable {c : Ciborium} {S : List LogEntry → Storage → Prop} {start : MqttPublisher}
  {entries : List LogEntry} {past : List Event}

/-- Where the memory path stands when the tick has returned. -/
theorem MemoryPath.returned {s : System} (hpath : MemoryPath c S start entries past s)
    (hreturned : s.tick = .idle) :
    (∃ before after, pushes past = before ++ after ∧
        S (before ++ failed_batch c start.outcomes entries ++ after) s.storage) ∧
      s.publisher.handed = start.handed ++ accepted c start.outcomes entries := by
  unfold MemoryPath at hpath
  rwa [hreturned] at hpath

/-- On to the next batch, or to the return when there is none. -/
theorem memoryPath_next {s : System} {done later : List (List LogEntry)}
    (hstorage : S (pushes past) s.storage)
    (hsplit : chunks PUBLISH_BATCH_SIZE entries = done ++ later)
    (hprogress : Progress c start entries done.flatten later.flatten s.publisher) :
    MemoryPath c S start entries past { s with tick := next_memory_batch later } := by
  cases later with
  | nil =>
    obtain ⟨hfirst, hhanded⟩ := Progress.finish hprogress
    refine ⟨⟨pushes past, [], by simp, ?_⟩, hhanded⟩
    simpa [failed_batch, hfirst] using hstorage
  | cons batch later => exact ⟨hstorage, done, hsplit, by simpa using hprogress⟩

theorem memoryPath_start {s : System} (hstorage : S [] s.storage)
    (htick : s.tick = next_memory_batch (chunks PUBLISH_BATCH_SIZE entries)) :
    MemoryPath c S s.publisher entries [] s := by
  have hprogress := Progress.start_batches (c := c) s.publisher entries
  have hnext : MemoryPath c S s.publisher entries []
      { s with tick := next_memory_batch (chunks PUBLISH_BATCH_SIZE entries) } :=
    memoryPath_next hstorage rfl hprogress
  rwa [← htick] at hnext

theorem memoryPath_push {allowed : System → Event → Prop} (hfollows : Follows c allowed S)
    {s t : System} {entry : LogEntry} (hpath : MemoryPath c S start entries past s)
    (hallowed : allowed s (.push entry)) (hingest : ingest c entry s = some t) :
    MemoryPath c S start entries (past ++ [.push entry]) t := by
  obtain ⟨hlock, hstorage, htick, hpublisher⟩ := ingest_effect hingest
  unfold MemoryPath at hpath ⊢
  rw [htick, hstorage, hpublisher, pushes_append, pushes_push]
  cases hs : s.tick with
  | memory_batch sent unsent later =>
    rw [hs] at hpath
    exact ⟨hfollows.push hallowed hpath.1, hpath.2⟩
  | lock_requeue batch =>
    rw [hs] at hpath
    exact ⟨hfollows.push hallowed hpath.1, hpath.2⟩
  | sleeping held =>
    rw [hs] at hpath
    rw [hs, hpath.1] at hlock
    cases hlock
  | idle =>
    rw [hs] at hpath
    obtain ⟨⟨before, after, hsplit, hrecord⟩, hhanded⟩ := hpath
    refine ⟨⟨before, after ++ [entry], by simp [hsplit], ?_⟩, hhanded⟩
    rw [← List.append_assoc]
    exact hfollows.push hallowed hrecord
  | _ =>
    rw [hs] at hpath
    exact hpath.elim

theorem memoryPath_tick {allowed : System → Event → Prop} (hfollows : Follows c allowed S)
    {s : System} (hpath : MemoryPath c S start entries past s) (hallowed : allowed s .tick)
    (htick : s.tick ≠ .idle) : MemoryPath c S start entries past (publish_tick c s) := by
  unfold MemoryPath at hpath
  unfold publish_tick
  cases hs : s.tick with
  | idle => exact absurd hs htick
  | memory_batch sent unsent later =>
    rw [hs] at hpath
    obtain ⟨hstorage, before, hsplit, hprogress⟩ := hpath
    cases unsent with
    | nil =>
      rw [List.append_nil, List.append_cons] at hsplit
      exact memoryPath_next hstorage hsplit (by simpa using hprogress)
    | cons entry unsent =>
      simp only
      cases hpublish : MqttPublisher.publish_entry c entry s.publisher with
      | ok _ publisher =>
        refine ⟨hstorage, before, by simpa using hsplit, ?_⟩
        simpa using hprogress.accept hpublish
      | error e publisher =>
        obtain ⟨hfirst, hhanded⟩ := hprogress.refuse hpublish
        refine ⟨hstorage, ?_, hhanded⟩
        rw [failed_batch, hfirst]
        refine (batch_start_of_mem hsplit ?_ ?_).2
        · simp
        · simp
  | lock_requeue batch =>
    rw [hs] at hpath
    obtain ⟨hstorage, rfl, hhanded⟩ := hpath
    exact ⟨rfl, hfollows.requeue hallowed hs hstorage, hhanded⟩
  | sleeping held =>
    rw [hs] at hpath
    obtain ⟨-, hstorage, hhanded⟩ := hpath
    exact ⟨⟨pushes past, [], by simp, by simpa using hstorage⟩, hhanded⟩
  | _ =>
    rw [hs] at hpath
    exact hpath.elim

theorem memoryPath_link {s : System} (connected : Bool) (hpath : MemoryPath c S start entries past s) :
    MemoryPath c S start entries (past ++ [.link connected])
      { s with publisher := { s.publisher with connected := connected } } := by
  unfold MemoryPath at hpath ⊢
  rw [pushes_append_of_nil rfl]
  cases hs : s.tick with
  | memory_batch sent unsent later =>
    rw [hs] at hpath
    obtain ⟨hstorage, before, hsplit, hprogress⟩ := hpath
    exact ⟨hstorage, before, hsplit, hprogress.link connected⟩
  | _ =>
    rw [hs] at hpath
    exact hpath

/-- A run through the memory path of one tick, from the drain on. The entries the client
accepts are those before the first failure, and the storage receives what the ingestion
task pushes and, in between, the batch that failed. -/
theorem memory_path {allowed : System → Event → Prop} (hfollows : Follows c allowed S)
    (hone : ∀ s event, allowed s event → OneTick s event) {s₀ s : System} {events : List Event}
    (htick : s₀.tick = next_memory_batch (chunks PUBLISH_BATCH_SIZE entries))
    (hstorage : S [] s₀.storage) (hrun : (run c).Run allowed s₀ events s) :
    MemoryPath c S s₀.publisher entries events s := by
  refine hrun.history (P := fun past s => MemoryPath c S s₀.publisher entries past s)
    (memoryPath_start hstorage htick) ?_
  intro past s event t hpath hallowed hstep
  have hevent := hone s event hallowed
  cases event with
  | push entry => exact memoryPath_push hfollows hpath hallowed hstep
  | link connected =>
    cases hstep
    exact memoryPath_link connected hpath
  | tick =>
    obtain ⟨-, rfl⟩ := run_tick_eq_some hstep
    have hnext := memoryPath_tick hfollows hpath hallowed hevent
    unfold MemoryPath at hnext ⊢
    rwa [pushes_append_of_nil rfl]
  | shutdown => exact hevent.elim
  | flush => exact hevent.elim

end spotflowd.orchestrator
