import Spotflowd.Orchestrator.Progress

open effect chunked fs
open spotflowd.buffer spotflowd.log_entry spotflowd.mqtt
open spotflowd.mqtt.MqttPublisher (first_failure)

namespace spotflowd.orchestrator

/-- The entries of a chunk that are pushed back before it is deleted: everything from the
failed batch on. -/
def chunk_tail (c : Ciborium) (outcomes : List Bool) (entries : List LogEntry) : List LogEntry :=
  match first_failure c outcomes entries with
  | none => []
  | some k => entries.drop (batch_start k)

/-- The tick deletes the chunk unless its first batch fails. -/
def Deletes (c : Ciborium) (outcomes : List Bool) (entries : List LogEntry) : Prop :=
  ∀ k, first_failure c outcomes entries = some k → 0 < batch_start k

/-- A record of what the storage has received while a tick works on the chunk at `path`:
`S` before the chunk is deleted, `T` after. -/
structure FollowsChunk (c : Ciborium) (allowed : System → Event → Prop) (path : FileName)
    (entries tail : List LogEntry) (S T : List LogEntry → Storage → Prop) : Prop where
  push : ∀ {s : System} {entry : LogEntry} {received : List LogEntry},
    allowed s (.push entry) → S received s.storage →
      S (received ++ [entry]) (finalState (Buffer.push c entry s.storage))
  push_after : ∀ {s : System} {entry : LogEntry} {received : List LogEntry},
    allowed s (.push entry) → T received s.storage →
      T (received ++ [entry]) (finalState (Buffer.push c entry s.storage))
  requeue : ∀ {s : System} {published : Nat} {received : List LogEntry}, allowed s .tick →
    s.tick = .lock_tail path entries published → entries.drop published = tail →
    S received s.storage → S (received ++ tail.reverse) (push_all c tail.reverse s.storage)
  delete : ∀ {s : System} {held : Bool} {received : List LogEntry}, allowed s .tick →
    s.tick = .delete_chunk path (some entries) held → S received s.storage →
      T received (finalState (Buffer.delete_chunk path s.storage))

/-- Where the disk path stands after the events `past`, the chunk at `path` having been
read as `entries`. -/
def DiskPath (c : Ciborium) (S T : List LogEntry → Storage → Prop) (start : MqttPublisher)
    (path : FileName) (entries : List LogEntry) (past : List Event) (s : System) : Prop :=
  match s.tick with
  | .disk_batch p es published sent unsent later => p = path ∧ es = entries ∧
    S (pushes past) s.storage ∧ ∃ before,
      chunks PUBLISH_BATCH_SIZE entries = before ++ (sent ++ unsent) :: later ∧
      published = before.flatten.length ∧
      Progress c start entries (before.flatten ++ sent) (unsent ++ later.flatten) s.publisher
  | .lock_tail p es published => p = path ∧ es = entries ∧ S (pushes past) s.storage ∧
    entries.drop published = chunk_tail c start.outcomes entries ∧
    Deletes c start.outcomes entries ∧
    s.publisher.handed = start.handed ++ accepted c start.outcomes entries
  | .delete_chunk p result held => p = path ∧ result = some entries ∧
    S (pushes past ++ (chunk_tail c start.outcomes entries).reverse) s.storage ∧
    (held = true ∨ chunk_tail c start.outcomes entries = []) ∧
    Deletes c start.outcomes entries ∧
    s.publisher.handed = start.handed ++ accepted c start.outcomes entries
  | .idle => s.publisher.handed = start.handed ++ accepted c start.outcomes entries ∧
    (Deletes c start.outcomes entries → ∃ before after, pushes past = before ++ after ∧
      T (before ++ (chunk_tail c start.outcomes entries).reverse ++ after) s.storage) ∧
    (¬ Deletes c start.outcomes entries → S (pushes past) s.storage)
  | _ => False

variable {c : Ciborium} {S T : List LogEntry → Storage → Prop} {start : MqttPublisher}
  {path : FileName} {entries : List LogEntry} {past : List Event}

/-- Where the disk path stands when the tick has returned. -/
theorem DiskPath.returned {s : System} (hpath : DiskPath c S T start path entries past s)
    (hreturned : s.tick = .idle) :
    s.publisher.handed = start.handed ++ accepted c start.outcomes entries ∧
      (Deletes c start.outcomes entries → ∃ before after, pushes past = before ++ after ∧
        T (before ++ (chunk_tail c start.outcomes entries).reverse ++ after) s.storage) ∧
      (¬ Deletes c start.outcomes entries → S (pushes past) s.storage) := by
  unfold DiskPath at hpath
  rwa [hreturned] at hpath

/-- On to the next batch, or to the deletion when there is none. -/
theorem diskPath_next {s : System} {done later : List (List LogEntry)}
    (hstorage : S (pushes past) s.storage)
    (hsplit : chunks PUBLISH_BATCH_SIZE entries = done ++ later)
    (hprogress : Progress c start entries done.flatten later.flatten s.publisher) :
    DiskPath c S T start path entries past
      { s with tick := next_disk_batch path entries done.flatten.length later } := by
  cases later with
  | nil =>
    obtain ⟨hfirst, hhanded⟩ := Progress.finish hprogress
    have hall : done.flatten.length = entries.length := by
      simp [hprogress.split]
    have htail : chunk_tail c start.outcomes entries = [] := by simp [chunk_tail, hfirst]
    have htick : next_disk_batch path entries done.flatten.length [] =
        .delete_chunk path (some entries) false := by
      simp [next_disk_batch, disk_done, hall]
    rw [htick]
    refine ⟨rfl, rfl, by simpa [htail] using hstorage, Or.inr htail, ?_, hhanded⟩
    intro k hk
    rw [hfirst] at hk
    cases hk
  | cons batch later => exact ⟨rfl, rfl, hstorage, done, hsplit, rfl, by simpa using hprogress⟩

theorem diskPath_start {s : System} (hstorage : S [] s.storage)
    (htick : s.tick = next_disk_batch path entries 0 (chunks PUBLISH_BATCH_SIZE entries)) :
    DiskPath c S T s.publisher path entries [] s := by
  have hprogress := Progress.start_batches (c := c) s.publisher entries
  have hnext : DiskPath c S T s.publisher path entries []
      { s with tick := next_disk_batch path entries 0 (chunks PUBLISH_BATCH_SIZE entries) } :=
    diskPath_next hstorage rfl hprogress
  rwa [← htick] at hnext

/-- A failure at position `k`: the batches before it count as published. -/
theorem diskPath_failed {s : System} {k : Nat} (hstorage : S (pushes past) s.storage)
    (hfirst : first_failure c start.outcomes entries = some k)
    (hhanded : s.publisher.handed = start.handed ++ accepted c start.outcomes entries) :
    DiskPath c S T start path entries past
      { s with tick := disk_done path entries (batch_start k) } := by
  have hlt := MqttPublisher.first_failure_lt hfirst
  have hle := batch_start_le k
  have hnotall : batch_start k ≠ entries.length := by omega
  unfold disk_done
  rw [if_neg hnotall]
  split
  · next hpos =>
    refine ⟨rfl, rfl, hstorage, by simp [chunk_tail, hfirst], ?_, hhanded⟩
    intro k' hk'
    rw [hfirst, Option.some.injEq] at hk'
    exact hk' ▸ hpos
  · next hzero =>
    refine ⟨hhanded, fun hdeletes => absurd (hdeletes k hfirst) hzero, fun _ => hstorage⟩

theorem diskPath_push {allowed : System → Event → Prop}
    (hfollows : FollowsChunk c allowed path entries (chunk_tail c start.outcomes entries) S T)
    {s t : System} {entry : LogEntry}
    (hpath : DiskPath c S T start path entries past s) (hallowed : allowed s (.push entry))
    (hingest : ingest c entry s = some t) :
    DiskPath c S T start path entries (past ++ [.push entry]) t := by
  obtain ⟨hlock, hstorage, htick, hpublisher⟩ := ingest_effect hingest
  unfold DiskPath at hpath ⊢
  rw [htick, hstorage, hpublisher, pushes_append, pushes_push]
  cases hs : s.tick with
  | disk_batch p es published sent unsent later =>
    rw [hs] at hpath
    obtain ⟨hp, hes, hrecord, hrest⟩ := hpath
    exact ⟨hp, hes, hfollows.push hallowed hrecord, hrest⟩
  | lock_tail p es published =>
    rw [hs] at hpath
    obtain ⟨hp, hes, hrecord, hrest⟩ := hpath
    exact ⟨hp, hes, hfollows.push hallowed hrecord, hrest⟩
  | delete_chunk p result held =>
    rw [hs] at hpath hlock
    obtain ⟨hp, hes, hrecord, hheld | htail, hrest⟩ := hpath
    · rw [hheld] at hlock
      cases hlock
    · simp only [htail, List.reverse_nil, List.append_nil] at hrecord ⊢
      exact ⟨hp, hes, hfollows.push hallowed hrecord, Or.inr trivial, hrest⟩
  | idle =>
    rw [hs] at hpath
    obtain ⟨hhanded, hdeleted, hkept⟩ := hpath
    refine ⟨hhanded, ?_, fun hnot => hfollows.push hallowed (hkept hnot)⟩
    intro hdeletes
    obtain ⟨before, after, hsplit, hrecord⟩ := hdeleted hdeletes
    refine ⟨before, after ++ [entry], by simp [hsplit], ?_⟩
    rw [← List.append_assoc]
    exact hfollows.push_after hallowed hrecord
  | _ =>
    rw [hs] at hpath
    exact hpath.elim

theorem diskPath_tick {allowed : System → Event → Prop}
    (hfollows : FollowsChunk c allowed path entries (chunk_tail c start.outcomes entries) S T)
    {s : System}
    (hpath : DiskPath c S T start path entries past s) (hallowed : allowed s .tick)
    (htick : s.tick ≠ .idle) : DiskPath c S T start path entries past (publish_tick c s) := by
  unfold DiskPath at hpath
  unfold publish_tick
  cases hs : s.tick with
  | idle => exact absurd hs htick
  | disk_batch p es published sent unsent later =>
    rw [hs] at hpath
    obtain ⟨rfl, rfl, hstorage, before, hsplit, hpublished, hprogress⟩ := hpath
    cases unsent with
    | nil =>
      rw [List.append_nil, List.append_cons] at hsplit
      have hnext : DiskPath c S T start p es past
          { s with tick := next_disk_batch p es (before ++ [sent]).flatten.length later } :=
        diskPath_next hstorage hsplit (by simpa using hprogress)
      simpa [hpublished] using hnext
    | cons entry unsent =>
      simp only
      cases hpublish : MqttPublisher.publish_entry c entry s.publisher with
      | ok _ publisher =>
        refine ⟨rfl, rfl, hstorage, before, by simpa using hsplit, hpublished, ?_⟩
        simpa using hprogress.accept hpublish
      | error e publisher =>
        obtain ⟨hfirst, hhanded⟩ := hprogress.refuse hpublish
        have hstart := (batch_start_of_mem hsplit (k := (before.flatten ++ sent).length)
          (by simp) (by simp)).1
        rw [hpublished, ← hstart]
        exact diskPath_failed (s := { s with publisher := publisher }) hstorage hfirst hhanded
  | lock_tail p es published =>
    rw [hs] at hpath
    obtain ⟨rfl, rfl, hstorage, htail, hdeletes, hhanded⟩ := hpath
    refine ⟨rfl, rfl, ?_, Or.inl rfl, hdeletes, hhanded⟩
    simp only [htail]
    exact hfollows.requeue hallowed hs htail hstorage
  | delete_chunk p result held =>
    rw [hs] at hpath
    obtain ⟨rfl, rfl, hstorage, -, hdeletes, hhanded⟩ := hpath
    refine ⟨hhanded, fun _ => ⟨pushes past, [], by simp, ?_⟩, fun hnot => absurd hdeletes hnot⟩
    rw [List.append_nil]
    exact hfollows.delete hallowed hs hstorage
  | _ =>
    rw [hs] at hpath
    exact hpath.elim

theorem diskPath_link {s : System} (connected : Bool)
    (hpath : DiskPath c S T start path entries past s) :
    DiskPath c S T start path entries (past ++ [.link connected])
      { s with publisher := { s.publisher with connected := connected } } := by
  unfold DiskPath at hpath ⊢
  rw [pushes_append_of_nil rfl]
  cases hs : s.tick with
  | disk_batch p es published sent unsent later =>
    rw [hs] at hpath
    obtain ⟨hp, hes, hstorage, before, hsplit, hpublished, hprogress⟩ := hpath
    exact ⟨hp, hes, hstorage, before, hsplit, hpublished, hprogress.link connected⟩
  | _ =>
    rw [hs] at hpath
    exact hpath

/-- A run through the disk path of one tick, from the read on. The entries the client
accepts are those before the first failure, the storage receives what the ingestion task
pushes and, before the chunk is deleted, the tail of the chunk in reverse. -/
theorem disk_path {allowed : System → Event → Prop} {s₀ s : System} {events : List Event}
    (hfollows : FollowsChunk c allowed path entries (chunk_tail c s₀.publisher.outcomes entries) S T)
    (hone : ∀ s event, allowed s event → OneTick s event)
    (htick : s₀.tick = next_disk_batch path entries 0 (chunks PUBLISH_BATCH_SIZE entries))
    (hstorage : S [] s₀.storage) (hrun : (run c).Run allowed s₀ events s) :
    DiskPath c S T s₀.publisher path entries events s := by
  refine hrun.history (P := fun past s => DiskPath c S T s₀.publisher path entries past s)
    (diskPath_start hstorage htick) ?_
  intro past s event t hpath hallowed hstep
  have hevent := hone s event hallowed
  cases event with
  | push entry => exact diskPath_push hfollows hpath hallowed hstep
  | link connected =>
    cases hstep
    exact diskPath_link connected hpath
  | tick =>
    obtain ⟨-, rfl⟩ := run_tick_eq_some hstep
    have hnext := diskPath_tick hfollows hpath hallowed hevent
    unfold DiskPath at hnext ⊢
    rwa [pushes_append_of_nil rfl]
  | shutdown => exact hevent.elim
  | flush => exact hevent.elim

end spotflowd.orchestrator
