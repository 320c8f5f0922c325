import Spotflowd.Buffer.Limit

open effect fs
open spotflowd.config spotflowd.log_entry

namespace spotflowd.buffer

/-- What `total_spool_bytes` adds up once the `n` oldest chunks are gone. -/
def bytes_left (d : Dir) (n : Nat) : Nat := other_bytes d + total_bytes ((spool d).drop n)

theorem bytes_left_zero (d : Dir) : bytes_left d 0 = spool_bytes d := by
  rw [bytes_left, List.drop_zero, spool_bytes_eq]

theorem spool_bytes_of_removes {d d' : Dir} {n : Nat} (hremoves : d.Removes ((spool d).take n) d') :
    spool_bytes d' = bytes_left d n := by
  have htotal := hremoves.total fun _ bytes => List.length bytes
  have hall := spool_bytes_eq d
  rw [← List.take_append_drop n (spool d), total_bytes, List.map_append, List.sum_append] at hall
  rw [bytes_left, total_bytes]
  unfold spool_bytes at hall ⊢
  omega

/-- Undisturbed, the loop gets through. -/
theorem enforce_limit_ends (max_bytes : Nat) {s : Fs} (hquiet : s.verdicts = []) :
    ∃ t, enforce_limit max_bytes s = .ok () t := by
  cases hdir : s.dir with
  | none =>
    have hround := limit_round_quiet hquiet max_bytes
    rw [spool_bytes_eq_zero hdir, if_neg (Nat.not_lt_zero _)] at hround
    exact ⟨s, by rw [enforce_limit_eq, bind_of_ok hround]; rfl⟩
  | some d =>
    obtain ⟨gone, d', hlimit, -⟩ := enforce_limit_quiet max_bytes hquiet hdir
    exact ⟨_, hlimit⟩

/-- Undisturbed, the loop takes the oldest chunks away and leaves the newest. -/
theorem enforce_limit_takes {max_bytes : Nat} {s t : Fs} (hquiet : s.verdicts = [])
    (hlimit : enforce_limit max_bytes s = .ok () t) :
    ∃ n ≤ (spool s.files).length, t.removed = s.removed ++ (spool s.files).take n ∧
      s.files.Removes ((spool s.files).take n) t.files ∧
      (spool s.files).drop n = kept max_bytes (other_bytes s.files) (spool s.files) := by
  obtain ⟨hkept, hall⟩ := enforce_limit_spool max_bytes hquiet hlimit
  obtain ⟨gone, hremoves, hremoved, -⟩ :=
    (pruned_of_ok (enforce_limit_pruned max_bytes) hlimit).files
  rw [hremoved, List.append_assoc, List.append_cancel_left_eq] at hall
  have htake : (spool s.files).take gone.length = gone := by
    rw [← hall, List.take_left]
  have hdrop : (spool s.files).drop gone.length = spool t.files := by
    rw [← hall, List.drop_left]
  refine ⟨gone.length, ?_, ?_, ?_, hdrop.trans hkept⟩
  · rw [← hall, List.length_append]
    exact Nat.le_add_right _ _
  · rw [htake, hremoved]
  · rw [htake]
    exact hremoves

/-- Eviction is minimal, oldest first, and stops: undisturbed, the loop ends and has removed the
fewest of the oldest chunks that bring all files within the limit, or all chunks when none do;
nothing when they are within it. Whatever happens, a file that is not a chunk stays as it is. -/
theorem eviction_is_minimal (max_bytes : Nat) (s : Fs) :
    (s.verdicts = [] → ∃ n t, enforce_limit max_bytes s = .ok () t ∧
      (∃ u, limit_round max_bytes u = .ok false t) ∧ n ≤ (spool s.files).length ∧
      t.removed = s.removed ++ (spool s.files).take n ∧
      s.files.Removes ((spool s.files).take n) t.files ∧
      spool_bytes t.files = bytes_left s.files n ∧
      (∀ j < n, max_bytes < bytes_left s.files j) ∧
      (bytes_left s.files n ≤ max_bytes ∨ n = (spool s.files).length) ∧
      (spool_bytes s.files ≤ max_bytes → n = 0)) ∧
    ∀ name, is_chunk_file name = false →
      (finalState (enforce_limit max_bytes s)).files.lookup name = s.files.lookup name := by
  constructor
  · intro hquiet
    obtain ⟨t, hlimit⟩ := enforce_limit_ends max_bytes hquiet
    obtain ⟨n, hn, hremoved, hremoves, hkept⟩ := enforce_limit_takes hquiet hlimit
    have hfew : ∀ j < n, max_bytes < bytes_left s.files j := by
      intro j hj
      by_contra hfits
      have hle := (suffix_kept (List.drop_suffix j (spool s.files)) (not_lt.mp hfits)).length_le
      rw [← hkept, List.length_drop, List.length_drop] at hle
      omega
    refine ⟨n, t, hlimit, ?_, hn, hremoved, hremoves, spool_bytes_of_removes hremoves, hfew, ?_, ?_⟩
    · exact loop_ends rounds_left (limit_round_decreases max_bytes) (Nat.lt_succ_self _) hlimit
    · obtain hnil | hfits := kept_fits max_bytes (other_bytes s.files) (spool s.files)
      · rw [← hkept, List.drop_eq_nil_iff] at hnil
        exact Or.inr (le_antisymm hn hnil)
      · rw [← hkept] at hfits
        exact Or.inl hfits
    · intro hunder
      by_contra hpos
      have hover := hfew 0 (Nat.pos_of_ne_zero hpos)
      rw [bytes_left_zero] at hover
      omega
  · intro name hother
    obtain ⟨gone, hremoves, -, hchunks⟩ := (enforce_limit_pruned max_bytes s).files
    exact hremoves.lookup_of_forall_ne fun file hfile heq => by
      rw [← heq, hchunks file hfile] at hother
      cases hother

/-- Two chunks beside the sequence file of the metrics. -/
def mixed_dir : Fs where
  dir := some (stored (stored (AList.singleton "metrics_seq.cbor" [0]) 1 [1]) 2 [2])
  verdicts := []
  renamed := []
  removed := []

theorem eviction_is_minimal_mixed : 2 < spool_bytes mixed_dir.files ∧
    ∃ n t, enforce_limit 2 mixed_dir = .ok () t ∧ t.removed = (spool mixed_dir.files).take n ∧
      (∀ j < n, 2 < bytes_left mixed_dir.files j) ∧ spool_bytes t.files = bytes_left mixed_dir.files n := by
  obtain ⟨n, t, hlimit, -, -, hremoved, -, hleft, hfew, -, -⟩ := (eviction_is_minimal 2 mixed_dir).1 rfl
  exact ⟨by decide, n, t, hlimit, hremoved, hfew, hleft⟩

example : (finalState (enforce_limit 2 mixed_dir)).removed = [(chunk_name 1, [1])] := by
  rfl

section Compared

variable {limit others limit' others' : Nat} {files : List (FileName × Bytes)}

/-- One limit leaves no more files than another if and only if whichever of the newest files it
admits the other admits, each beside its other files. -/
theorem kept_suffix_iff : kept limit others files <:+ kept limit' others' files ↔
    ∀ newest, newest <:+ files → newest ≠ [] → others + total_bytes newest ≤ limit →
      others' + total_bytes newest ≤ limit' := by
  constructor
  · intro hkept newest hsuffix hnonempty hfits
    have hnewest := (suffix_kept hsuffix hfits).trans hkept
    obtain hnil | hfits' := kept_fits limit' others' files
    · rw [hnil, List.suffix_nil] at hnewest
      exact absurd hnewest hnonempty
    · exact (Nat.add_le_add_left (total_bytes_suffix hnewest) others').trans hfits'
  · intro hadmits
    obtain hnil | hfits := kept_fits limit others files
    · rw [hnil]
      exact List.nil_suffix
    · by_cases hnonempty : kept limit others files = []
      · rw [hnonempty]
        exact List.nil_suffix
      · exact suffix_kept (kept_suffix _ _ _) (hadmits _ (kept_suffix _ _ _) hnonempty hfits)

theorem kept_subset_iff (hnodup : files.Nodup) :
    kept limit others files ⊆ kept limit' others' files ↔
      kept limit others files <:+ kept limit' others' files := by
  refine ⟨fun hsubset => ?_, fun hsuffix => hsuffix.subset⟩
  obtain hsuffix | hsuffix := List.suffix_or_suffix_of_suffix (kept_suffix limit others files)
    (kept_suffix limit' others' files)
  · exact hsuffix
  · have hle := List.subperm_of_subset (hnodup.sublist (kept_suffix _ _ _).sublist) hsubset
    exact hsuffix.eq_of_length_le hle.length_le ▸ List.suffix_rfl

theorem kept_eq_iff : kept limit others files = kept limit' others' files ↔
    ∀ newest, newest <:+ files → newest ≠ [] →
      (others + total_bytes newest ≤ limit ↔ others' + total_bytes newest ≤ limit') := by
  constructor
  · intro heq newest hsuffix hnonempty
    exact ⟨kept_suffix_iff.mp (heq ▸ List.suffix_rfl) newest hsuffix hnonempty,
      kept_suffix_iff.mp (heq ▸ List.suffix_rfl) newest hsuffix hnonempty⟩
  · intro hsame
    have hforth := kept_suffix_iff.mpr fun newest hsuffix hne => (hsame newest hsuffix hne).mp
    have hback := kept_suffix_iff.mpr fun newest hsuffix hne => (hsame newest hsuffix hne).mpr
    exact hforth.eq_of_length_le hback.length_le

end Compared

theorem nodup_spool (d : Dir) : (spool d).Nodup := by
  apply List.Nodup.of_map Prod.fst
  rw [map_fst_spool]
  exact (List.perm_insertionSort _ _).nodup_iff.mpr (nodup_chunk_names d)

/-- The chunk files that survive the eviction loop of `write_chunk`, oldest first. -/
def survivors (buf : Buffer) (s : Fs) : List (FileName × Bytes) :=
  spool (finalState (enforce_limit buf.max_bytes s)).files

theorem survivors_eq (buf : Buffer) {s : Fs} (hquiet : s.verdicts = []) :
    survivors buf s = kept buf.max_bytes (other_bytes s.files) (spool s.files) := by
  obtain ⟨t, hlimit⟩ := enforce_limit_ends buf.max_bytes hquiet
  rw [survivors, hlimit, finalState_ok, enforce_limit_kept buf.max_bytes hquiet hlimit]

/-- The limit in bytes only depends on the lowest 44 bits of the setting. -/
theorem max_bytes_le_iff {smaller bigger : Buffer} : smaller.max_bytes ≤ bigger.max_bytes ↔
    smaller.cfg.disk_max_size_mb % 2 ^ 44 ≤ bigger.cfg.disk_max_size_mb % 2 ^ 44 := by
  unfold Buffer.max_bytes
  omega

theorem survivors_subset_iff {smaller bigger : Buffer} {s : Fs} (hquiet : s.verdicts = []) :
    survivors smaller s ⊆ survivors bigger s ↔
      ∀ newest, newest <:+ spool s.files → newest ≠ [] →
        other_bytes s.files + total_bytes newest ≤ smaller.max_bytes →
        other_bytes s.files + total_bytes newest ≤ bigger.max_bytes := by
  rw [survivors_eq smaller hquiet, survivors_eq bigger hquiet, kept_subset_iff (nodup_spool _),
    kept_suffix_iff]

/-- A single chunk. -/
def one_chunk (content : Bytes) : Fs := ⟨some (AList.singleton (chunk_name 1) content), [], [], []⟩

theorem one_chunk_files (content : Bytes) :
    spool (one_chunk content).files = [(chunk_name 1, content)] ∧
      other_bytes (one_chunk content).files = 0 := by
  constructor
  · simp [one_chunk, Fs.files, spool, chunk_names]
  · simp [one_chunk, Fs.files, other_bytes]

/-- A bigger limit keeps no fewer chunks of a directory if and only if whichever of its newest chunks
fit the smaller limit fit the bigger one, as the code computes the limits; it does so in every
directory if and only if the bigger limit is not the smaller one once computed. -/
theorem bigger_limit_keeps_more_iff (smaller bigger : Buffer) :
    (∀ s : Fs, s.verdicts = [] → (survivors smaller s ⊆ survivors bigger s ↔
      ∀ newest, newest <:+ spool s.files → newest ≠ [] →
        other_bytes s.files + total_bytes newest ≤ smaller.cfg.disk_max_size_mb * 1024 * 1024 % 2 ^ 64 →
        other_bytes s.files + total_bytes newest ≤ bigger.cfg.disk_max_size_mb * 1024 * 1024 % 2 ^ 64)) ∧
    ((∀ s : Fs, s.verdicts = [] → survivors smaller s ⊆ survivors bigger s) ↔
      smaller.cfg.disk_max_size_mb % 2 ^ 44 ≤ bigger.cfg.disk_max_size_mb % 2 ^ 44) := by
  refine ⟨fun s hquiet => survivors_subset_iff hquiet, ?_⟩
  rw [← max_bytes_le_iff]
  constructor
  · intro hall
    by_contra hless
    have hsubset := hall (one_chunk (List.replicate smaller.max_bytes 0)) rfl
    rw [survivors_subset_iff rfl] at hsubset
    obtain ⟨hspool, hothers⟩ := one_chunk_files (List.replicate smaller.max_bytes 0)
    rw [hspool, hothers] at hsubset
    have hsize : total_bytes [(chunk_name 1, List.replicate smaller.max_bytes (0 : UInt8))] =
        smaller.max_bytes := by
      simp [total_bytes]
    have hfits := hsubset _ List.suffix_rfl (List.cons_ne_nil _ _)
    rw [hsize, Nat.zero_add] at hfits
    exact hless (hfits le_rfl)
  · intro hle s hquiet
    rw [survivors_subset_iff hquiet]
    exact fun newest _ _ hfits => hfits.trans hle

/-- An empty buffer under the given limit. -/
def limited_to (mb : Nat) (hpos : 0 < mb) : Buffer :=
  ⟨{ memory_pos := default_memory_pos, chunk_pos := default_chunk_pos, size_pos := hpos,
     disk_max_size_mb := mb }, [], false⟩

theorem bigger_limit_keeps_more_mixed :
    survivors (limited_to 1 (by decide)) mixed_dir ⊆ survivors (limited_to 64 (by decide)) mixed_dir := by
  refine ((bigger_limit_keeps_more_iff (limited_to 1 (by decide)) (limited_to 64 (by decide))).1
    mixed_dir rfl).mpr ?_
  intro newest _ _ hfits
  exact hfits.trans (by decide)

/-- A configuration with the given disk limit. -/
def with_disk_limit (mb : Nat) : Config where
  device := ⟨"device", "key"⟩
  logs := { buffer := { disk_max_size_mb := mb } }

/-- The greater of two settings that load is a limit of 0 bytes, and the chunk that stays under a
limit of one MiB goes. -/
theorem bigger_limit_keeps_nothing :
    ∃ (hvalid : (with_disk_limit 1).validate = .ok ()) (hvalid' : (with_disk_limit (2 ^ 44)).validate = .ok ()),
      1 ≤ 2 ^ 44 ∧ 2 ^ 44 < 2 ^ 64 ∧ (one_chunk [0]).verdicts = [] ∧
      ¬ survivors ⟨(with_disk_limit 1).buffer hvalid, [], false⟩ (one_chunk [0]) ⊆
        survivors ⟨(with_disk_limit (2 ^ 44)).buffer hvalid', [], false⟩ (one_chunk [0]) := by
  have hvalid : (with_disk_limit 1).validate = .ok () := by rfl
  have hvalid' : (with_disk_limit (2 ^ 44)).validate = .ok () := by rfl
  refine ⟨hvalid, hvalid', by decide, by decide, rfl, ?_⟩
  rw [survivors_subset_iff rfl]
  intro hall
  have hspool := (one_chunk_files [0]).1
  have hfits := hall [(chunk_name 1, [0])] (hspool ▸ List.suffix_rfl) (List.cons_ne_nil _ _)
  rw [(one_chunk_files [0]).2] at hfits
  have hsmall : 1 ≤ 1 * 1024 * 1024 % 2 ^ 64 := by decide
  have hbig : ¬ 1 ≤ 2 ^ 44 * 1024 * 1024 % 2 ^ 64 := by decide
  exact hbig (hfits hsmall)

namespace Buffer

/-- What a chunk write has taken away, undisturbed. -/
theorem write_chunk_removed (c : Ciborium) (entries : List LogEntry) {s : Storage}
    (hquiet : s.fs.verdicts = []) :
    ∃ n ≤ (spool s.fs.files).length,
      (finalState (write_chunk c entries s)).fs.removed = s.fs.removed ++ (spool s.fs.files).take n ∧
      (spool s.fs.files).drop n =
        kept s.buf.max_bytes (other_bytes s.fs.files) (spool s.fs.files) := by
  obtain ⟨gone, d, -, hlimit, hwrite⟩ := write_chunk_limited (c := c) entries hquiet
  obtain ⟨n, hn, hremoved, -, hkept⟩ :=
    @enforce_limit_takes _ { s.fs with dir := some s.fs.files } _ hquiet hlimit
  refine ⟨n, hn, ?_, hkept⟩
  rw [hwrite]
  cases c.into_writer entries with
  | none => exact hremoved
  | some bytes => exact hremoved

end Buffer

/-- Other files never cost chunks, undisturbed and between two directories with the same chunks, if
and only if whichever of the newest chunks fit the limit beside the other files of one directory
fit it beside those of the other. -/
theorem other_files_cost_no_chunks_iff (c : Ciborium) (entries : List LogEntry) {s t : Storage}
    (hquiet : s.fs.verdicts = []) (hquiet' : t.fs.verdicts = []) (hbuf : s.buf = t.buf)
    (hspool : spool s.fs.files = spool t.fs.files) :
    (∃ gone, (finalState (Buffer.write_chunk c entries s)).fs.removed = s.fs.removed ++ gone ∧
      (finalState (Buffer.write_chunk c entries t)).fs.removed = t.fs.removed ++ gone) ↔
    ∀ newest, newest <:+ spool s.fs.files → newest ≠ [] →
      (other_bytes s.fs.files + total_bytes newest ≤ s.buf.max_bytes ↔
        other_bytes t.fs.files + total_bytes newest ≤ s.buf.max_bytes) := by
  rw [← kept_eq_iff]
  obtain ⟨n, hn, hremoved, hkept⟩ := Buffer.write_chunk_removed c entries hquiet
  obtain ⟨m, hm, hremoved', hkept'⟩ := Buffer.write_chunk_removed c entries hquiet'
  rw [← hspool, ← hbuf] at hkept'
  rw [← hspool] at hm hremoved'
  rw [← hkept, ← hkept', hremoved, hremoved']
  constructor
  · rintro ⟨gone, hgone, hgone'⟩
    rw [List.append_cancel_left_eq] at hgone hgone'
    have hlength := congrArg List.length (hgone.trans hgone'.symm)
    rw [List.length_take, List.length_take] at hlength
    have heq : n = m := by omega
    rw [heq]
  · intro hdrop
    have hlength := congrArg List.length hdrop
    rw [List.length_drop, List.length_drop] at hlength
    have heq : n = m := by omega
    exact ⟨_, rfl, by rw [heq]⟩

theorem other_files_cost_no_chunks_small : ∃ gone,
    (finalState (Buffer.write_chunk .wire [] ⟨limited_to 1 (by decide), mixed_dir⟩)).fs.removed =
      mixed_dir.removed ++ gone ∧
    (finalState (Buffer.write_chunk .wire []
      ⟨limited_to 1 (by decide), { mixed_dir with dir := some (mixed_dir.files.insert "x.tmp" [0, 0]) }⟩)).fs.removed =
      mixed_dir.removed ++ gone := by
  have hother : is_chunk_file "x.tmp" = false := by rfl
  refine (@other_files_cost_no_chunks_iff .wire [] ⟨limited_to 1 (by decide), mixed_dir⟩
    ⟨limited_to 1 (by decide), { mixed_dir with dir := some (mixed_dir.files.insert "x.tmp" [0, 0]) }⟩
    rfl rfl rfl (spool_insert_other hother _).symm).mpr ?_
  intro newest hsuffix _
  have hsizes : other_bytes (mixed_dir.files.insert "x.tmp" [0, 0]) = 3 ∧ other_bytes mixed_dir.files = 1 ∧
      total_bytes (spool mixed_dir.files) = 2 := by
    decide
  have hle := total_bytes_suffix hsuffix
  have hlimit : (limited_to 1 (by decide)).max_bytes = 2 ^ 20 := by decide
  dsimp only at hle ⊢
  change other_bytes mixed_dir.files + _ ≤ _ ↔ other_bytes (mixed_dir.files.insert "x.tmp" [0, 0]) + _ ≤ _
  rw [hlimit]
  omega

/-- A chunk of one byte beside a sequence file of the given size, under a limit of one MiB. -/
def beside (others : Nat) : Storage where
  buf := limited_to 1 Nat.one_pos
  fs := ⟨some ((one_chunk [0]).files.insert "metrics_seq.cbor" (List.replicate others 0)), [], [], []⟩

theorem beside_files (others : Nat) :
    spool (beside others).fs.files = [(chunk_name 1, [0])] ∧
      other_bytes (beside others).fs.files = others := by
  have hother : is_chunk_file "metrics_seq.cbor" = false := by rfl
  have hfresh : "metrics_seq.cbor" ∉ (one_chunk [0]).files := by decide
  obtain ⟨hspool, hbytes⟩ := one_chunk_files [0]
  constructor
  · rw [← hspool]
    exact spool_insert_other hother _
  · have hsum := Dir.total_insert_fresh (fun name content =>
      if is_chunk_file name then 0 else List.length content) (List.replicate others (0 : UInt8)) hfresh
    change _ = _ + other_bytes _ at hsum
    rw [hbytes, hother, List.length_replicate, Nat.add_zero] at hsum
    exact hsum

/-- A sequence file that has grown to one MiB costs a chunk that fits the limit by itself. -/
theorem sequence_file_costs_a_chunk :
    (beside 0).fs.verdicts = [] ∧ (beside (2 ^ 20)).fs.verdicts = [] ∧
    (beside 0).buf = (beside (2 ^ 20)).buf ∧
    spool (beside 0).fs.files = spool (beside (2 ^ 20)).fs.files ∧
    ¬ ∃ gone, (finalState (Buffer.write_chunk .wire [] (beside 0))).fs.removed =
        (beside 0).fs.removed ++ gone ∧
      (finalState (Buffer.write_chunk .wire [] (beside (2 ^ 20)))).fs.removed =
        (beside (2 ^ 20)).fs.removed ++ gone := by
  have hlimit : (limited_to 1 (by decide)).max_bytes = 2 ^ 20 := by decide
  obtain ⟨hspool, hothers⟩ := beside_files 0
  obtain ⟨hspool', hothers'⟩ := beside_files (2 ^ 20)
  refine ⟨rfl, rfl, rfl, hspool.trans hspool'.symm, ?_⟩
  obtain ⟨n, hn, hremoved, hkept⟩ :=
    Buffer.write_chunk_removed .wire [] (show (beside 0).fs.verdicts = [] from rfl)
  obtain ⟨m, hm, hremoved', hkept'⟩ :=
    Buffer.write_chunk_removed .wire [] (show (beside (2 ^ 20)).fs.verdicts = [] from rfl)
  change _ = kept (limited_to 1 _).max_bytes _ _ at hkept hkept'
  rw [hspool, hothers, hlimit, kept, if_neg (by decide)] at hkept
  rw [hspool', hothers', hlimit, kept, if_pos (by decide)] at hkept'
  rw [hspool] at hremoved
  rw [hspool'] at hremoved'
  rintro ⟨gone, hgone, hgone'⟩
  rw [hremoved, List.append_cancel_left_eq] at hgone
  rw [hremoved', List.append_cancel_left_eq] at hgone'
  have hlengths := congrArg List.length (hgone.trans hgone'.symm)
  have hlength := congrArg List.length hkept
  have hlength' := congrArg List.length hkept'
  simp only [List.length_take, List.length_drop, List.length_singleton, kept, List.length_nil] at *
  omega

end spotflowd.buffer
