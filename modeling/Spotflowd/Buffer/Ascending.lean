import Spotflowd.Buffer.Contents
import Spotflowd.Buffer.Undisturbed
import Spotflowd.Lib.Ascending
import Mathlib.Data.List.Flatten

open fs ordered
open spotflowd.log_entry

namespace spotflowd.buffer

/-- The number in a chunk's name. -/
def number (p : FileName) : Nat := (sequence_number p).getD 0

theorem number_chunk_name {seq : Nat} (hbound : seq < 2 ^ 64) : number (chunk_name seq) = seq := by
  rw [number, sequence_number_chunk_name hbound, Option.getD_some]

def chunk_names (d : Dir) : List FileName := d.keys.filter is_chunk_file

/-- The entries on disk, chunk after chunk in ascending order of the numbers. -/
def spooled (c : Ciborium) (d : Dir) : List LogEntry :=
  (ascending number (chunk_names d)).flatMap fun name => decoded c ((d.lookup name).getD [])

/-- The entries of files that have been removed. -/
def removed_entries (c : Ciborium) (removed : List (FileName × Bytes)) : List LogEntry :=
  removed.flatMap fun file => decoded c file.2

theorem coe_flatMap {α β : Type} (f : α → List β) (values : List α) :
    (↑(values.flatMap f) : Multiset β) = (values.map fun a => (↑(f a) : Multiset β)).sum := by
  induction values with
  | nil => rfl
  | cons a values ih => rw [List.flatMap_cons, ← Multiset.coe_add, ih, List.map_cons, List.sum_cons]

/-- In some order, the entries on disk are those of the chunk files. -/
theorem coe_spooled (c : Ciborium) (d : Dir) : (spooled c d : Multiset LogEntry) = disk_entries c d := by
  have hfiles : ∀ files : List (Sigma fun _ : FileName => Bytes), (∀ file ∈ files, file ∈ d.entries) →
      (((files.map Sigma.fst).filter is_chunk_file).map fun name =>
        (↑(decoded c ((d.lookup name).getD [])) : Multiset LogEntry)).sum =
      (files.map fun file => chunk_entries c file.1 file.2).sum := by
    intro files hmem
    induction files with
    | nil => rfl
    | cons file files ih =>
      have hlookup : d.lookup file.1 = some file.2 :=
        AList.mem_lookup_iff.mpr (hmem file List.mem_cons_self)
      have hrest := ih fun other hother => hmem other (List.mem_cons_of_mem _ hother)
      rw [List.map_cons, List.map_cons, List.sum_cons, ← hrest, chunk_entries]
      by_cases hchunk : is_chunk_file file.1 = true
      · rw [List.filter_cons_of_pos hchunk, List.map_cons, List.sum_cons, if_pos hchunk, hlookup,
          Option.getD_some]
      · rw [List.filter_cons_of_neg hchunk, if_neg hchunk, zero_add]
  rw [spooled, coe_flatMap, ((perm_ascending number (chunk_names d)).map _).sum_eq, disk_entries]
  exact hfiles d.entries fun _ h => h

/-- Every file is a chunk with one of the numbers handed out so far. -/
def Numbered (written : Nat) (d : Dir) : Prop := ∀ name ∈ d, ∃ n ≤ written, name = chunk_name n

section Numbered

variable {c : Ciborium} {written : Nat} {d : Dir} (hnumbered : Numbered written d)

include hnumbered

theorem Numbered.mono {more : Nat} (hle : written ≤ more) : Numbered more d := by
  intro name hname
  obtain ⟨n, hn, rfl⟩ := hnumbered name hname
  exact ⟨n, hn.trans hle, rfl⟩

theorem Numbered.erase (name : FileName) : Numbered written (d.erase name) :=
  fun other hother => hnumbered other (AList.mem_erase.mp hother).2

theorem Numbered.is_chunk_file {name : FileName} (hname : name ∈ d) : is_chunk_file name = true := by
  obtain ⟨n, -, rfl⟩ := hnumbered name hname
  exact is_chunk_file_chunk_name n

theorem Numbered.chunk_names : chunk_names d = d.keys :=
  List.filter_eq_self.mpr fun _ hname => hnumbered.is_chunk_file hname

theorem Numbered.tmp_fresh (seq : Nat) : tmp_name seq ∉ d := by
  intro hmem
  have hchunk := hnumbered.is_chunk_file hmem
  rw [is_chunk_file_tmp_name] at hchunk
  cases hchunk

variable (hbound : written < 2 ^ 64)

include hbound

theorem Numbered.distinct : Distinct number (buffer.chunk_names d) := by
  rw [hnumbered.chunk_names]
  intro name hname name' hname' heq
  obtain ⟨m, hm, rfl⟩ := hnumbered name hname
  obtain ⟨n, hn, rfl⟩ := hnumbered name' hname'
  rw [number_chunk_name (by omega), number_chunk_name (by omega)] at heq
  rw [heq]

theorem Numbered.next_seq_le : next_seq d ≤ written + 1 := by
  apply Nat.succ_le_succ
  rw [max_seq_le_iff]
  intro name hname seq hseq
  obtain ⟨n, hn, rfl⟩ := hnumbered name hname
  rw [sequence_number_chunk_name (by omega), Option.some.injEq] at hseq
  omega

theorem spooled_erase (name : FileName) : (spooled c (d.erase name)).Sublist (spooled c d) := by
  have hnames : buffer.chunk_names (d.erase name) = (buffer.chunk_names d).erase name := by
    rw [(hnumbered.erase name).chunk_names, hnumbered.chunk_names, AList.keys_erase]
  rw [spooled, spooled, hnames, ascending_erase (hnumbered.distinct hbound)]
  have hsame : ∀ other ∈ (ascending number (buffer.chunk_names d)).erase name,
      decoded c (((d.erase name).lookup other).getD []) = decoded c ((d.lookup other).getD []) := by
    intro other hother
    have hnodup : ((ascending number (buffer.chunk_names d))).Nodup :=
      (perm_ascending number _).nodup_iff.mpr (by rw [hnumbered.chunk_names]; exact d.nodupKeys)
    rw [AList.lookup_erase_ne (hnodup.mem_erase_iff.mp hother).1]
  rw [List.flatMap_congr hsame]
  exact List.erase_sublist.flatMap _

/-- Removing chunks, one after another, leaves the entries of the others in their order. -/
theorem spooled_removes {d' : Dir} {gone : List (FileName × Bytes)} (hremoves : d.Removes gone d') :
    Numbered written d' ∧ (spooled c d').Sublist (spooled c d) := by
  induction hremoves with
  | nil => exact ⟨hnumbered, List.Sublist.refl _⟩
  | cons hlookup _ ih =>
    obtain ⟨hnumbered', hsublist⟩ := ih (hnumbered.erase _)
    exact ⟨hnumbered', hsublist.trans (spooled_erase hnumbered hbound _)⟩

end Numbered

/-- A new chunk comes after all others. -/
theorem spooled_stored {c : Ciborium} {written : Nat} {d : Dir} (hnumbered : Numbered written d)
    (hbound : written + 1 < 2 ^ 64) (bytes : Bytes) :
    Numbered (written + 1) (stored d (next_seq d) bytes) ∧
      spooled c (stored d (next_seq d) bytes) = spooled c d ++ decoded c bytes := by
  have hnext := hnumbered.next_seq_le (by omega)
  have hfresh := chunk_name_next_seq_fresh (d := d) (by omega)
  have hstored : stored d (next_seq d) bytes = d.insert (chunk_name (next_seq d)) bytes := by
    rw [stored, Dir.erase_of_notMem (hnumbered.tmp_fresh _)]
  have hkeys : (stored d (next_seq d) bytes).keys = chunk_name (next_seq d) :: d.keys := by
    rw [hstored, AList.keys_insert, List.erase_of_not_mem hfresh]
  have hnumbered' : Numbered (written + 1) (stored d (next_seq d) bytes) := by
    intro name hname
    have hcases : name ∈ chunk_name (next_seq d) :: d.keys := hkeys ▸ hname
    obtain rfl | hold := List.mem_cons.mp hcases
    · exact ⟨_, hnext, rfl⟩
    · exact hnumbered.mono (Nat.le_succ _) name hold
  refine ⟨hnumbered', ?_⟩
  have hgreatest : ∀ name ∈ d.keys, number name < number (chunk_name (next_seq d)) := by
    intro name hname
    obtain ⟨n, hn, rfl⟩ := hnumbered name hname
    rw [number_chunk_name (by omega), number_chunk_name (by omega)]
    exact Nat.lt_succ_of_le (le_max_seq hname (sequence_number_chunk_name (by omega)))
  have hdistinct := hnumbered.distinct (by omega)
  rw [hnumbered.chunk_names] at hdistinct
  rw [spooled, hnumbered'.chunk_names, hkeys, ascending_cons hdistinct hgreatest, spooled,
    hnumbered.chunk_names, List.flatMap_append, List.flatMap_singleton, lookup_stored_self,
    Option.getD_some, List.append_left_inj]
  apply List.flatMap_congr
  intro name hname
  have hmem : name ∈ d := (mem_ascending number).mp hname
  rw [lookup_stored_ne (hnumbered.is_chunk_file hmem) (fun heq => hfresh (heq ▸ hmem))]

end spotflowd.buffer
