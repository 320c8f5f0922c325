import Spotflowd.Buffer.Contents

open effect fs chunked
open spotflowd.config spotflowd.log_entry

namespace spotflowd.buffer

/-- Everything the buffer held is still in it, as often as before. -/
def Retained (c : Ciborium) (s t : Storage) : Prop := contents c s ≤ contents c t

theorem not_retained_of_lost {c : Ciborium} {s t : Storage} {lost : List LogEntry}
    (hlost : lost ≠ []) (hcontents : contents c t + ↑lost ≤ contents c s) : ¬ Retained c s t := by
  intro hretained
  have hcard := Multiset.card_le_card (hcontents.trans hretained)
  rw [Multiset.card_add, Multiset.coe_card] at hcard
  have := List.length_pos_iff.mpr hlost
  omega

namespace Buffer

variable {c : Ciborium}

/-- A push fails only where its flush does. -/
theorem push_error {entry : LogEntry} {s t : Storage} {e : Error}
    (herror : push c entry s = .error e t) : flush_memory_to_disk c s = .error e t := by
  by_cases hfull : s.buf.cfg.memory_max_entries ≤ s.buf.memory.length
  · rw [push_of_full hfull] at herror
    rcases bind_eq_error_iff.mp herror with hflush | ⟨_, u, _, hupdate⟩
    · exact hflush
    · cases hupdate
  · rw [push_of_room _ (not_le.mp hfull)] at herror
    cases herror

variable (hround : c.RoundTrips)

include hround

/-- The memory is drained before the first chunk is written, so a flush that reports
an error has always lost entries: a nonempty tail of what was in memory, whichever
operation failed and on whichever chunk. The same goes for a push that overflows. -/
theorem failed_flush_loses_entries (s : Storage) (entry : LogEntry) :
    (∀ e t, flush_memory_to_disk c s = .error e t → ¬ Retained c s t ∧
      ∃ lost, lost ≠ [] ∧ lost <:+ s.buf.memory ∧ contents c t + ↑lost ≤ contents c s) ∧
    (∀ e t, push c entry s = .error e t → ¬ Retained c s t ∧
      ∃ lost, lost ≠ [] ∧ lost <:+ s.buf.memory ∧ contents c t + ↑lost ≤ contents c s) := by
  have hflush : ∀ e t, flush_memory_to_disk c s = .error e t → ¬ Retained c s t ∧
      ∃ lost, lost ≠ [] ∧ lost <:+ s.buf.memory ∧ contents c t + ↑lost ≤ contents c s := by
    intro e t herror
    obtain ⟨lost, hlost, hsuffix, hcontents⟩ := flush_memory_to_disk_lost hround
      (counts_chunk_entries c) herror
    exact ⟨not_retained_of_lost hlost hcontents, lost, hlost, hsuffix, hcontents⟩
  exact ⟨hflush, fun e t herror => hflush e t (push_error herror)⟩

end Buffer

/-- A spool directory that cannot be created, with a full memory. -/
def unwritable_spool : Storage where
  buf := ⟨.sized 3 3 (by decide) (by decide), [entry "a", entry "b", entry "c"], false⟩
  fs := ⟨none, [⟨fun call => call = .create_dir_all, none, fun _ => false⟩], [], []⟩

/-- The same spool after an attempt to flush. -/
def unwritable_spool_flushed : Storage where
  buf := { unwritable_spool.buf with memory := [] }
  fs := ⟨none, [], [], []⟩

theorem failed_flush_loses_entries_unwritable :
    (¬ Retained .wire unwritable_spool unwritable_spool_flushed ∧
      ∃ lost, lost ≠ [] ∧ lost <:+ [entry "a", entry "b", entry "c"] ∧
        contents .wire unwritable_spool_flushed + ↑lost ≤ contents .wire unwritable_spool) ∧
    (¬ Retained .wire unwritable_spool unwritable_spool_flushed ∧
      ∃ lost, lost ≠ [] ∧ lost <:+ [entry "a", entry "b", entry "c"] ∧
        contents .wire unwritable_spool_flushed + ↑lost ≤ contents .wire unwritable_spool) := by
  have hlost := Buffer.failed_flush_loses_entries Ciborium.wire_roundTrips unwritable_spool (entry "d")
  exact ⟨hlost.1 _ _ rfl, hlost.2 _ _ rfl⟩

/-- One failing call is enough: the flush reports an error and the entries are gone. -/
theorem failed_flush_not_retained :
    ∃ e t, Buffer.flush_memory_to_disk .wire unwritable_spool = .error e t ∧
      ¬ Retained .wire unwritable_spool t := by
  refine ⟨⟨some "create spool dir /var/lib/spotflow/spool", .io ⟨.create_dir_all⟩⟩,
    unwritable_spool_flushed, rfl, ?_⟩
  have hempty : contents .wire unwritable_spool_flushed = 0 := rfl
  have hfull : contents .wire unwritable_spool = ↑[entry "a", entry "b", entry "c"] := rfl
  rw [Retained, hempty, hfull]
  simp

end spotflowd.buffer
