import Spotflowd.Orchestrator.Accounting
import Spotflowd.Orchestrator.MemoryRecovery

open effect chunked fs
open spotflowd.buffer spotflowd.config spotflowd.log_entry spotflowd.mqtt
open spotflowd.mqtt.MqttPublisher (first_failure)

namespace spotflowd.orchestrator

/-- Of `before` and what has been pushed since `s₀`, nothing the client has accepted is
still in the buffer. -/
def SentIsGone (c : Ciborium) (before : Multiset LogEntry) (s₀ : System) (events : List Event)
    (s : System) : Prop :=
  ∀ taken, s.publisher.handed = s₀.publisher.handed ++ taken →
    contents c s.storage + ↑taken ≤ before + ↑(pushes events)

variable {c : Ciborium} {entries : List LogEntry} {s₀ s : System} {events : List Event}

theorem sentIsGone_iff {before : Multiset LogEntry} {taken : List LogEntry}
    (hhanded : s.publisher.handed = s₀.publisher.handed ++ taken) :
    SentIsGone c before s₀ events s ↔
      contents c s.storage + ↑taken ≤ before + ↑(pushes events) := by
  constructor
  · exact fun hgone => hgone taken hhanded
  · intro hle taken' htaken
    rwa [List.append_cancel_left (htaken.symm.trans hhanded)]

/-- The failed batch is pushed back as a whole: too much by what it had already got
through, too little by the batches after it. -/
theorem memory_resend_iff (outcomes : List Bool) (base : Multiset LogEntry)
    (before after : List LogEntry) :
    base + ↑(before ++ failed_batch c outcomes entries ++ after) +
        ↑(accepted c outcomes entries) ≤ base + ↑entries + ↑(before ++ after) ↔
      (accepted_of_failed c outcomes entries : Multiset LogEntry) ≤
        ↑(later_batches c outcomes entries) := by
  obtain ⟨rest, hentries, hfailed⟩ := failed_batch_split c outcomes entries
  have hsum : (entries : Multiset LogEntry) = ↑(accepted c outcomes entries) +
      (↑rest + ↑(later_batches c outcomes entries)) := by
    rw [Multiset.coe_add, Multiset.coe_add, ← hentries]
  rw [hsum, hfailed]
  simp only [← Multiset.coe_add]
  generalize (later_batches c outcomes entries : Multiset LogEntry) = later
  generalize (accepted_of_failed c outcomes entries : Multiset LogEntry) = again
  generalize (accepted c outcomes entries : Multiset LogEntry) = taken
  rw [show base + (↑before + (again + ↑rest) + ↑after) + taken =
      base + ↑before + ↑after + taken + ↑rest + again by abel,
    show base + (taken + (↑rest + later)) + (↑before + ↑after) =
      base + ↑before + ↑after + taken + ↑rest + later by abel]
  exact add_le_add_iff_left _

/-- The first failure, if there is one, is at the first entry of a batch. -/
def FailsAtStart (c : Ciborium) (outcomes : List Bool) (entries : List LogEntry) : Prop :=
  ∀ k, first_failure c outcomes entries = some k → batch_start k = k

/-- The tail that is pushed back begins with the failed batch, so it overlaps with what has
been accepted unless the batch failed at once. -/
theorem tail_le_iff (outcomes : List Bool) :
    (chunk_tail c outcomes entries : Multiset LogEntry) + ↑(accepted c outcomes entries) ≤ ↑entries ↔
      FailsAtStart c outcomes entries := by
  unfold chunk_tail accepted FailsAtStart
  cases hfirst : first_failure c outcomes entries with
  | none => simp
  | some k =>
    have hlt := MqttPublisher.first_failure_lt hfirst
    have hle := batch_start_le k
    simp only [Option.some.injEq, forall_eq']
    constructor
    · intro hsub
      have hcard := Multiset.card_le_card hsub
      rw [Multiset.card_add, Multiset.coe_card, Multiset.coe_card, Multiset.coe_card,
        List.length_drop, List.length_take] at hcard
      omega
    · intro heq
      rw [heq, add_comm, Multiset.coe_add, List.take_append_drop]

theorem disk_resend_iff (outcomes : List Bool) (base : Multiset LogEntry)
    (before after : List LogEntry) :
    base + ↑(before ++ (chunk_tail c outcomes entries).reverse ++ after) +
        ↑(accepted c outcomes entries) ≤ base + ↑entries + ↑(before ++ after) ↔
      FailsAtStart c outcomes entries := by
  rw [← tail_le_iff]
  simp only [← Multiset.coe_add, Multiset.coe_reverse]
  generalize (chunk_tail c outcomes entries : Multiset LogEntry) = tail
  generalize (accepted c outcomes entries : Multiset LogEntry) = taken
  rw [show base + (↑before + tail + ↑after) + taken = base + ↑before + ↑after + (tail + taken) by abel,
    show base + ↑entries + (↑before + ↑after) = base + ↑before + ↑after + ↑entries by abel]
  exact add_le_add_iff_left _

/-- A chunk whose first batch fails stays; nothing of it has been accepted exactly when the
batch failed at once. -/
theorem failsAtStart_iff_of_kept {outcomes : List Bool} (hkept : ¬ Deletes c outcomes entries) :
    accepted c outcomes entries = [] ↔ FailsAtStart c outcomes entries := by
  obtain ⟨k, hfirst, hzero⟩ : ∃ k, first_failure c outcomes entries = some k ∧ batch_start k = 0 := by
    simpa [Deletes] using hkept
  have hlt := MqttPublisher.first_failure_lt hfirst
  have hnil : entries ≠ [] := by
    rintro rfl
    simp at hlt
  simp only [accepted, FailsAtStart, hfirst, Option.some.injEq, forall_eq', hzero,
    List.take_eq_nil_iff, hnil, or_false]
  exact eq_comm

section Memory

variable (hround : c.RoundTrips)
  (hdrained : s₀.tick = next_memory_batch (chunks PUBLISH_BATCH_SIZE entries))
  (hreturned : s.tick = .idle)

include hround hdrained hreturned

theorem sentIsGone_of_memory (hrun : (run c).Run OneTick s₀ events s)
    (hcopies : (accepted_of_failed c s₀.publisher.outcomes entries : Multiset LogEntry) ≤
      ↑(later_batches c s₀.publisher.outcomes entries)) :
    SentIsGone c (contents c s₀.storage + ↑entries) s₀ events s := by
  obtain ⟨⟨before, after, hsplit, hatmost⟩, hhanded⟩ :=
    (memory_path (follows_atMost hround (counts_chunk_entries c) (contents c s₀.storage))
      (fun _ _ h => h) hdrained (AtMost.start _ _) hrun).returned hreturned
  rw [sentIsGone_iff hhanded, hsplit]
  apply (add_le_add_left hatmost _).trans
  exact (memory_resend_iff _ _ _ _).mpr hcopies

theorem memory_sentIsGone_iff (hquiet : s₀.storage.fs.verdicts = [])
    (hrun : (run c).Run (RoomyTick c) s₀ events s) :
    SentIsGone c (contents c s₀.storage + ↑entries) s₀ events s ↔
      (accepted_of_failed c s₀.publisher.outcomes entries : Multiset LogEntry) ≤
        ↑(later_batches c s₀.publisher.outcomes entries) := by
  obtain ⟨⟨before, after, hsplit, -, hcontents⟩, hhanded⟩ :=
    (memory_path (follows_adds hround (contents c s₀.storage)) (fun _ _ h => h.oneTick) hdrained
      ⟨hquiet, by simp⟩ hrun).returned hreturned
  rw [sentIsGone_iff hhanded, hcontents, hsplit]
  exact memory_resend_iff _ _ _ _

end Memory

section Disk

variable {path : FileName} {bytes : Bytes} (hround : c.RoundTrips)
  (hread : s₀.tick = next_disk_batch path entries 0 (chunks PUBLISH_BATCH_SIZE entries))
  (hchunk : is_chunk_file path = true) (hlookup : s₀.storage.fs.files.lookup path = some bytes)
  (hdecode : c.from_reader bytes = some entries) (hreturned : s.tick = .idle)

include hround hread hchunk hlookup hdecode hreturned

theorem sentIsGone_of_disk (hrun : (run c).Run (DeletingTick c) s₀ events s)
    (hstart : FailsAtStart c s₀.publisher.outcomes entries) :
    SentIsGone c (contents c s₀.storage) s₀ events s := by
  have hcontents := holdings_except_add (c := c) hchunk hlookup
  rw [decoded, hdecode, Option.getD_some] at hcontents
  have hbefore : AtMostBeside c (holdings (chunk_entries_except c path) s₀.storage) path entries []
      s₀.storage := by
    refine ⟨?_, AtMost.start _ _⟩
    rw [hcontents]
    exact AtMost.start _ _
  obtain ⟨hhanded, hdeleted, hkept⟩ :=
    (disk_path (follows_atMost_chunk hround _ path entries _) (fun _ _ h => h.1) hread hbefore
      hrun).returned hreturned
  rw [sentIsGone_iff hhanded, ← hcontents]
  by_cases hdeletes : Deletes c s₀.publisher.outcomes entries
  · obtain ⟨before, after, hsplit, hatmost⟩ := hdeleted hdeletes
    rw [hsplit]
    apply (add_le_add_left hatmost _).trans
    exact (disk_resend_iff _ _ _ _).mpr hstart
  · rw [(failsAtStart_iff_of_kept hdeletes).mpr hstart, Multiset.coe_nil, add_zero]
    exact (hkept hdeletes).1

theorem disk_sentIsGone_iff (hquiet : s₀.storage.fs.verdicts = [])
    (hrun : (run c).Run (RoomyTick c) s₀ events s) :
    SentIsGone c (contents c s₀.storage) s₀ events s ↔
      FailsAtStart c s₀.publisher.outcomes entries := by
  have hentries : decoded c bytes = entries := by rw [decoded, hdecode, Option.getD_some]
  have hcontents := holdings_except_add (c := c) hchunk hlookup
  have hfollows : FollowsChunk c (RoomyTick c) path (decoded c bytes)
      (chunk_tail c s₀.publisher.outcomes entries) _ _ :=
    follows_adds_chunk hchunk hround (holdings (chunk_entries_except c path) s₀.storage) _
  rw [hentries] at hcontents hfollows
  obtain ⟨hhanded, hdeleted, hkept⟩ :=
    (disk_path hfollows (fun _ _ h => h.oneTick) hread ⟨⟨hquiet, by simp [hcontents]⟩, hlookup⟩
      hrun).returned hreturned
  rw [sentIsGone_iff hhanded, ← hcontents]
  by_cases hdeletes : Deletes c s₀.publisher.outcomes entries
  · obtain ⟨before, after, hsplit, -, hafter⟩ := hdeleted hdeletes
    rw [hsplit, hafter]
    exact disk_resend_iff _ _ _ _
  · rw [(hkept hdeletes).1.2, ← failsAtStart_iff_of_kept hdeletes, add_le_iff_nonpos_right]
    simp

end Disk

/-- When what has been accepted is not sent again. On the memory path: when the failed batch
had not got through more than the batches after it, which are dropped, could make up for;
on the disk path: when the failing entry is the first of its batch. Elsewhere the
accepted part of the failed batch is pushed back with the rest of it, or stays in the
chunk. The second half of each part shows that the condition cannot be done without. -/
theorem sent_is_gone_iff (hround : c.RoundTrips) :
    (∀ entries s₀ events s, s₀.tick = next_memory_batch (chunks PUBLISH_BATCH_SIZE entries) →
      s.tick = .idle →
      ((run c).Run OneTick s₀ events s →
        (accepted_of_failed c s₀.publisher.outcomes entries : Multiset LogEntry) ≤
          ↑(later_batches c s₀.publisher.outcomes entries) →
        SentIsGone c (contents c s₀.storage + ↑entries) s₀ events s) ∧
      (s₀.storage.fs.verdicts = [] → (run c).Run (RoomyTick c) s₀ events s →
        SentIsGone c (contents c s₀.storage + ↑entries) s₀ events s →
        (accepted_of_failed c s₀.publisher.outcomes entries : Multiset LogEntry) ≤
          ↑(later_batches c s₀.publisher.outcomes entries))) ∧
    (∀ path bytes entries s₀ events s, is_chunk_file path = true →
      s₀.storage.fs.files.lookup path = some bytes → c.from_reader bytes = some entries →
      s₀.tick = next_disk_batch path entries 0 (chunks PUBLISH_BATCH_SIZE entries) →
      s.tick = .idle →
      ((run c).Run (DeletingTick c) s₀ events s → FailsAtStart c s₀.publisher.outcomes entries →
        SentIsGone c (contents c s₀.storage) s₀ events s) ∧
      (s₀.storage.fs.verdicts = [] → (run c).Run (RoomyTick c) s₀ events s →
        SentIsGone c (contents c s₀.storage) s₀ events s →
        FailsAtStart c s₀.publisher.outcomes entries)) := by
  constructor
  · intro entries s₀ events s hdrained hreturned
    exact ⟨sentIsGone_of_memory hround hdrained hreturned,
      fun hquiet hrun => (memory_sentIsGone_iff hround hdrained hreturned hquiet hrun).mp⟩
  · intro path bytes entries s₀ events s hchunk hlookup hdecode hread hreturned
    exact ⟨sentIsGone_of_disk hround hread hchunk hlookup hdecode hreturned,
      fun hquiet hrun => (disk_sentIsGone_iff hround hread hchunk hlookup hdecode hreturned hquiet
        hrun).mp⟩

/-- A daemon whose tick has just read the given entries from the only chunk. -/
def after_read (entries : List LogEntry) (outcomes : List Bool) : System where
  storage := ⟨⟨.sized 1000 200 default_memory_pos default_chunk_pos, [], true⟩,
    ⟨some (AList.insert (chunk_name 1) ((Ciborium.wire.into_writer entries).getD []) ∅), [], [], []⟩⟩
  publisher := ⟨true, outcomes, [], []⟩
  tick := next_disk_batch (chunk_name 1) entries 0 (chunks PUBLISH_BATCH_SIZE entries)
  phase := .running
  pushed := []

theorem after_read_tick (entries : List LogEntry) (outcomes : List Bool) :
    (after_read entries outcomes).tick =
      next_disk_batch (chunk_name 1) entries 0 (chunks PUBLISH_BATCH_SIZE entries) := rfl

/-- From memory, the second batch fails at its first entry; from a chunk, two batches go through. -/
theorem sent_is_gone_iff_full :
    let entries := full_batch ++ [entry "b", entry "c"]
    let outcomes := List.replicate 200 true ++ [false]
    (∃ s : System, (s.publisher.handed.length = 200 ∧ s.storage.buf.memory = [entry "b", entry "c"]) ∧
      SentIsGone .wire (contents .wire (after_drain entries outcomes).storage + ↑entries)
        (after_drain entries outcomes) (List.replicate 204 .tick) s) ∧
    ∃ s : System, s.publisher.handed.length = 202 ∧
      SentIsGone .wire (contents .wire (after_read entries []).storage)
        (after_read entries []) (List.replicate 205 .tick) s := by
  intro entries outcomes
  obtain ⟨hmemory, hdisk⟩ := sent_is_gone_iff Ciborium.wire_roundTrips
  constructor
  · have hexec : ((run .wire).exec OneTick (after_drain entries outcomes)
        (List.replicate 204 .tick)).any (fun s => s.tick = .idle ∧
          s.publisher.handed.length = 200 ∧ s.storage.buf.memory = [entry "b", entry "c"]) = true := by
      decide +kernel
    obtain ⟨s, hrun, htest⟩ := Machine.exists_run_of_exec _ hexec
    obtain ⟨hidle, hhanded⟩ := of_decide_eq_true htest
    exact ⟨s, hhanded, (hmemory entries _ _ s (after_drain_tick _ _) hidle).1 hrun (by decide +kernel)⟩
  · have hexec : ((run .wire).exec (DeletingTick .wire) (after_read entries [])
        (List.replicate 205 .tick)).any (fun s =>
          s.tick = .idle ∧ s.publisher.handed.length = 202) = true := by
      decide +kernel
    obtain ⟨s, hrun, htest⟩ := Machine.exists_run_of_exec _ hexec
    obtain ⟨hidle, hhanded⟩ := of_decide_eq_true htest
    have hfits : (Ciborium.wire.into_writer entries).isSome = true := by
      decide +kernel
    refine ⟨s, hhanded, (hdisk (chunk_name 1) _ entries _ _ s (is_chunk_file_chunk_name 1)
      (AList.lookup_insert _) (Ciborium.wire_reads_back hfits) (after_read_tick _ _) hidle).1 hrun ?_⟩
    have hnone : first_failure .wire (after_read entries []).publisher.outcomes entries = none := by
      decide +kernel
    intro k hfirst
    rw [hnone] at hfirst
    cases hfirst

/-- The second of two entries is refused. The first one, which the client has accepted, is
back in memory after the tick, or still in the chunk. -/
theorem sent_entry_is_kept :
    (∃ s : System, (run .wire).Run (RoomyTick .wire)
        (after_drain [entry "a", entry "b"] [true, false]) [.tick, .tick, .tick, .tick] s ∧
      s.tick = .idle ∧ s.publisher.handed = [entry "a"] ∧
      s.storage.buf.memory = [entry "a", entry "b"]) ∧
    ∃ s : System, (run .wire).Run (RoomyTick .wire)
        (after_read [entry "a", entry "b"] [true, false]) [.tick, .tick] s ∧
      s.tick = .idle ∧ s.publisher.handed = [entry "a"] ∧ entry "a" ∈ contents .wire s.storage := by
  constructor
  · have hexec : ((run .wire).exec (RoomyTick .wire)
        (after_drain [entry "a", entry "b"] [true, false]) [.tick, .tick, .tick, .tick]).any
        (fun s => s.tick = .idle ∧ s.publisher.handed = [entry "a"] ∧
          s.storage.buf.memory = [entry "a", entry "b"]) = true := by
      rfl
    obtain ⟨s, hrun, htest⟩ := Machine.exists_run_of_exec _ hexec
    exact ⟨s, hrun, of_decide_eq_true htest⟩
  · have hexec : ((run .wire).exec (RoomyTick .wire)
        (after_read [entry "a", entry "b"] [true, false]) [.tick, .tick]).any
        (fun s => s.tick = .idle ∧ s.publisher.handed = [entry "a"] ∧
          entry "a" ∈ contents .wire s.storage) = true := by
      decide +kernel
    obtain ⟨s, hrun, htest⟩ := Machine.exists_run_of_exec _ hexec
    exact ⟨s, hrun, of_decide_eq_true htest⟩

end spotflowd.orchestrator
