import Spotflowd.Metrics.Aggregator

open cbor effect fs path
open spotflowd.log_entry

namespace spotflowd.metrics.aggregator

/-- The numbers on disk. -/
def stored (c : Ciborium) (fs : Fs) : HashMap String UInt64 :=
  (fs.files.lookup SEQ_FILE_NAME).elim ∅ (parse_seq c)

/-- Where the file can be read, the numbers on disk are loaded. -/
theorem load_seq_eq_stored (c : Ciborium) {fs : Fs} (hread : fs.next.1.fails .read = false) :
    (load_seq c fs).1 = stored c fs := by
  unfold load_seq stored
  rw [read_unfailing hread]
  cases fs.files.lookup SEQ_FILE_NAME <;> rfl

theorem load_seq_files (c : Ciborium) (fs : Fs) : (load_seq c fs).2.files = fs.files := by
  unfold load_seq
  cases hread : read SEQ_FILE_NAME fs with
  | ok data t => exact (read_ok hread).1
  | error e t => exact read_error hread

theorem Aggregator.new_fs {c : Ciborium} {cfg : config.MetricsConfig} {fs after : Fs} {self : Aggregator}
    (hnew : new c cfg fs = .ok (self, after)) : after = (load_seq c fs).2 := by
  unfold new at hnew
  cases hinterval : interval cfg.aggregation_interval with
  | error e => simp [hinterval, bind, Except.bind] at hnew
  | ok window =>
    simp only [hinterval, bind, Except.bind, pure, Except.pure] at hnew
    cases hnew
    rfl

/-- A saved map is parsed as what it was. -/
theorem lookup_parse_seq {c : Ciborium} (hc : c.ValueRoundTrips) {iteration : Iteration String}
    {seq : HashMap String UInt64} {buf : Bytes}
    (hwrite : c.value_into_writer (.Map ((iteration.iter seq).map fun entry =>
      (Value.Text entry.1, u64_to_value entry.2))) = some buf) (key : String) :
    (parse_seq c buf).lookup key = seq.lookup key := by
  have hentry : ∀ (map : HashMap String UInt64) (entry : String × UInt64),
      load_entry map (.Text entry.1, u64_to_value entry.2) = map.insert entry.1 entry.2 := by
    intro map entry
    rw [load_entry, u64_from_to_value]
  rw [parse_seq, hc _ _ hwrite]
  simp only [List.foldl_map, hentry]
  exact HashMap.lookup_insert_iter iteration seq key

theorem on_seq_dir_eq_ok {x : FsM Unit} {s t : Fs} (hok : Aggregator.on_seq_dir x s = .ok () t) :
    x s = .ok () t := by
  unfold Aggregator.on_seq_dir zoom at hok
  rw [id] at hok
  split at hok
  · next hrun =>
    cases hok
    exact hrun
  · cases hok

/-- After a successful save the numbers on disk are those of the aggregator. -/
theorem save_seq_stored {c : Ciborium} (hc : c.ValueRoundTrips) {iteration : Iteration String}
    {self : Aggregator} {s t : Fs} (hok : self.save_seq c iteration s = .ok () t) (key : String) :
    (stored c t).lookup key = self.seq.lookup key := by
  unfold Aggregator.save_seq at hok
  obtain ⟨_, u, _, hok⟩ := bind_eq_ok_iff.mp hok
  cases hwrite : c.value_into_writer (.Map ((iteration.iter self.seq).map fun entry =>
      (Value.Text entry.1, u64_to_value entry.2))) with
  | none =>
    simp only [hwrite] at hok
    cases hok
  | some buf =>
    simp only [hwrite] at hok
    obtain ⟨_, v, htmp, hrename⟩ := bind_eq_ok_iff.mp hok
    obtain ⟨hfiles, -, -⟩ := write_ok (on_seq_dir_eq_ok htmp)
    obtain ⟨content, hcontent, hrenamed, -, -⟩ := rename_ok (on_seq_dir_eq_ok hrename)
    rw [hfiles, AList.lookup_insert] at hcontent
    cases hcontent
    rw [stored, hrenamed, AList.lookup_insert]
    exact lookup_parse_seq hc hwrite key

end spotflowd.metrics.aggregator
