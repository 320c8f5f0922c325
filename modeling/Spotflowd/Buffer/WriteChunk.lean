import Spotflowd.Buffer
import Spotflowd.Buffer.Eviction

open effect fs path chunked
open spotflowd.config spotflowd.log_entry

namespace spotflowd.buffer

theorem on_disk_eq_ok_iff {α : Type} {context : Option String} {x : FsM α} {s t : Storage} {a : α} :
    on_disk context x s = .ok a t ↔ x s.fs = .ok a t.fs ∧ t.buf = s.buf := by
  obtain ⟨buf, fs⟩ := t
  unfold on_disk zoom
  cases hrun : x s.fs with
  | ok b u =>
    constructor
    · intro h
      cases h
      exact ⟨rfl, rfl⟩
    · rintro ⟨h, hbuf⟩
      cases h
      cases hbuf
      rfl
  | error e u => simp

theorem on_disk_eq_error_iff {α : Type} {context : Option String} {x : FsM α} {s t : Storage}
    {e : Error} :
    on_disk context x s = .error e t ↔
      ∃ cause, x s.fs = .error cause t.fs ∧ t.buf = s.buf ∧ e = ⟨context, .io cause⟩ := by
  obtain ⟨buf, fs⟩ := t
  unfold on_disk zoom
  cases hrun : x s.fs with
  | ok b u => simp
  | error cause u =>
    constructor
    · intro h
      cases h
      exact ⟨cause, rfl, rfl, rfl⟩
    · rintro ⟨cause', h, hbuf, rfl⟩
      cases h
      cases hbuf
      rfl

theorem on_disk_of_ok {α : Type} {context : Option String} {x : FsM α} {s : Storage} {t : Fs} {a : α}
    (hok : x s.fs = .ok a t) : on_disk context x s = .ok a { s with fs := t } :=
  on_disk_eq_ok_iff.mpr ⟨hok, rfl⟩

theorem pruned_of_ok {α : Type} {x : FsM α} (hx : Respects Pruned x) {s t : Fs} {a : α}
    (hok : x s = .ok a t) : Pruned s t := by
  have h := hx s
  rwa [hok] at h

theorem pruned_of_error {α : Type} {x : FsM α} (hx : Respects Pruned x) {s t : Fs} {e : IoError}
    (herror : x s = .error e t) : Pruned s t := by
  have h := hx s
  rwa [herror] at h

/-- A picked path is always a chunk name. -/
theorem next_chunk_path_ok {s t : Fs} {p : FileName} (hok : next_chunk_path s = .ok p t) :
    ∃ seq, p = chunk_name seq := by
  unfold next_chunk_path at hok
  obtain ⟨found, u, -, hok⟩ := bind_eq_ok_iff.mp hok
  split at hok
  · obtain ⟨entries, v, -, hok⟩ := bind_eq_ok_iff.mp hok
    cases hok
    exact ⟨_, rfl⟩
  · cases hok
    exact ⟨_, rfl⟩

/-- The directory after a chunk has been written under a temporary name and renamed. -/
def stored (d : Dir) (seq : Nat) (bytes : Bytes) : Dir :=
  (d.erase (tmp_name seq)).insert (chunk_name seq) bytes

theorem tmp_name_ne_chunk {name : FileName} {seq : Nat} (hchunk : is_chunk_file name = true) :
    name ≠ tmp_name seq := by
  rintro rfl
  rw [is_chunk_file_tmp_name] at hchunk
  cases hchunk

theorem lookup_stored_self (d : Dir) (seq : Nat) (bytes : Bytes) :
    (stored d seq bytes).lookup (chunk_name seq) = some bytes :=
  AList.lookup_insert _

theorem lookup_stored_ne {d : Dir} {seq : Nat} {bytes : Bytes} {name : FileName}
    (hchunk : is_chunk_file name = true) (hne : name ≠ chunk_name seq) :
    (stored d seq bytes).lookup name = d.lookup name := by
  rw [stored, AList.lookup_insert_ne hne, AList.lookup_erase_ne (tmp_name_ne_chunk hchunk)]

/-- Writing a chunk adds its share to a sum in which temporary files count nothing. -/
theorem total_stored {M : Type} [AddCommMonoid M] (f : FileName → Bytes → M) {d : Dir} {seq : Nat}
    (bytes : Bytes) (hfresh : chunk_name seq ∉ d) (hzero : ∀ content, f (tmp_name seq) content = 0) :
    (stored d seq bytes).total f = f (chunk_name seq) bytes + d.total f := by
  have hfresh' : chunk_name seq ∉ d.erase (tmp_name seq) := fun h => hfresh (AList.mem_erase.mp h).2
  rw [stored, Dir.total_insert_fresh f bytes hfresh', Dir.total_erase_of_zero f hzero]

/-- It adds at most its size to what was there. -/
theorem spool_bytes_stored_le (d : Dir) (seq : Nat) (bytes : Bytes) :
    spool_bytes (stored d seq bytes) ≤ spool_bytes d + bytes.length := by
  have htmp := Dir.total_erase_le (fun _ bytes => List.length bytes) d (tmp_name seq)
  have hold := Dir.total_erase_le (fun _ bytes => List.length bytes) (d.erase (tmp_name seq))
    (chunk_name seq)
  rw [spool_bytes, stored, Dir.total_insert, spool_bytes]
  omega

/-- What a chunk write that succeeds has done: chunks have been evicted and one file
has been put in place, under a chunk name and with the serialized entries. -/
structure Written (c : Ciborium) (entries : List LogEntry) (s t : Fs) (seq : Nat)
    (bytes : Bytes) : Prop where
  serialized : c.into_writer entries = some bytes
  state : ∃ u, Pruned s u ∧
    t.files = stored u.files seq bytes ∧ t.removed = u.removed ∧
      t.renamed = u.renamed ++ [(chunk_name seq, bytes)]

/-- What a chunk write that fails may have done: chunks have been evicted and a
temporary file may lie around. -/
def Unwritten (s t : Fs) : Prop :=
  ∃ u, Pruned s u ∧ t.removed = u.removed ∧ t.renamed = u.renamed ∧
    (t.files = u.files ∨ ∃ seq content, t.files = u.files.insert (tmp_name seq) content)

theorem Unwritten.of_pruned {s t : Fs} (hpruned : Pruned s t) : Unwritten s t :=
  ⟨t, hpruned, rfl, rfl, Or.inl rfl⟩

namespace Buffer

theorem write_chunk_ok {c : Ciborium} {entries : List LogEntry} {s t : Storage}
    (hok : write_chunk c entries s = .ok () t) :
    t.buf = { s.buf with may_have_chunks := true } ∧
      ∃ seq bytes, Written c entries s.fs t.fs seq bytes := by
  unfold write_chunk at hok
  rw [bind_of_ok (get_run s)] at hok
  obtain ⟨_, s₁, hcreate, hok⟩ := bind_eq_ok_iff.mp hok
  obtain ⟨_, s₂, hlimit, hok⟩ := bind_eq_ok_iff.mp hok
  obtain ⟨p, s₃, hpath, hok⟩ := bind_eq_ok_iff.mp hok
  obtain ⟨hcreate, hbuf₁⟩ := on_disk_eq_ok_iff.mp hcreate
  obtain ⟨hlimit, hbuf₂⟩ := on_disk_eq_ok_iff.mp hlimit
  obtain ⟨hpath, hbuf₃⟩ := on_disk_eq_ok_iff.mp hpath
  have hpruned : Pruned s.fs s₃.fs :=
    .trans _ _ _ (pruned_of_ok pruned_create_dir_all hcreate)
      (.trans _ _ _ (pruned_of_ok (enforce_limit_pruned _) hlimit)
        (pruned_of_ok pruned_next_chunk_path hpath))
  obtain ⟨seq, rfl⟩ := next_chunk_path_ok hpath
  cases hbytes : c.into_writer entries with
  | none =>
    rw [hbytes] at hok
    cases hok
  | some bytes =>
    rw [hbytes] at hok
    obtain ⟨_, s₄, hwrite, hok⟩ := bind_eq_ok_iff.mp hok
    obtain ⟨_, s₅, hrename, hok⟩ := bind_eq_ok_iff.mp hok
    obtain ⟨hwrite, hbuf₄⟩ := on_disk_eq_ok_iff.mp hwrite
    obtain ⟨hrename, hbuf₅⟩ := on_disk_eq_ok_iff.mp hrename
    obtain ⟨hfiles, hremoved, hrenamed⟩ := write_ok hwrite
    obtain ⟨content, hlookup, hfiles', hremoved', hrenamed'⟩ := rename_ok hrename
    cases hok
    refine ⟨by simp [hbuf₁, hbuf₂, hbuf₃, hbuf₄, hbuf₅], seq, bytes, hbytes, s₃.fs, hpruned, ?_⟩
    rw [hfiles, AList.lookup_insert, Option.some.injEq] at hlookup
    subst hlookup
    refine ⟨?_, by rw [hremoved', hremoved], by rw [hrenamed', hrenamed]⟩
    rw [hfiles', hfiles]
    exact congrArg _ (Dir.erase_insert _ _ _)

theorem write_chunk_error {c : Ciborium} {entries : List LogEntry} {s t : Storage} {e : Error}
    (herror : write_chunk c entries s = .error e t) :
    t.buf = s.buf ∧ Unwritten s.fs t.fs := by
  unfold write_chunk at herror
  rw [bind_of_ok (get_run s)] at herror
  rcases bind_eq_error_iff.mp herror with herror | ⟨_, s₁, hcreate, herror⟩
  · obtain ⟨_, hcreate, hbuf, -⟩ := on_disk_eq_error_iff.mp herror
    exact ⟨hbuf, .of_pruned (pruned_of_error pruned_create_dir_all hcreate)⟩
  obtain ⟨hcreate, hbuf₁⟩ := on_disk_eq_ok_iff.mp hcreate
  have hpruned₁ := pruned_of_ok pruned_create_dir_all hcreate
  rcases bind_eq_error_iff.mp herror with herror | ⟨_, s₂, hlimit, herror⟩
  · obtain ⟨_, hlimit, hbuf, -⟩ := on_disk_eq_error_iff.mp herror
    exact ⟨hbuf.trans hbuf₁, .of_pruned
      (.trans _ _ _ hpruned₁ (pruned_of_error (enforce_limit_pruned _) hlimit))⟩
  obtain ⟨hlimit, hbuf₂⟩ := on_disk_eq_ok_iff.mp hlimit
  have hpruned₂ := Pruned.trans _ _ _ hpruned₁ (pruned_of_ok (enforce_limit_pruned _) hlimit)
  rcases bind_eq_error_iff.mp herror with herror | ⟨p, s₃, hpath, herror⟩
  · obtain ⟨_, hpath, hbuf, -⟩ := on_disk_eq_error_iff.mp herror
    exact ⟨hbuf.trans (hbuf₂.trans hbuf₁), .of_pruned
      (.trans _ _ _ hpruned₂ (pruned_of_error pruned_next_chunk_path hpath))⟩
  obtain ⟨hpath, hbuf₃⟩ := on_disk_eq_ok_iff.mp hpath
  have hpruned₃ := Pruned.trans _ _ _ hpruned₂ (pruned_of_ok pruned_next_chunk_path hpath)
  have hbuf : s₃.buf = s.buf := hbuf₃.trans (hbuf₂.trans hbuf₁)
  obtain ⟨seq, rfl⟩ := next_chunk_path_ok hpath
  cases hbytes : c.into_writer entries with
  | none =>
    rw [hbytes] at herror
    cases herror
    exact ⟨hbuf, .of_pruned hpruned₃⟩
  | some bytes =>
    rw [hbytes] at herror
    rcases bind_eq_error_iff.mp herror with herror | ⟨_, s₄, hwrite, herror⟩
    · obtain ⟨_, hwrite, hbuf₄, -⟩ := on_disk_eq_error_iff.mp herror
      obtain ⟨hremoved, hrenamed, hfiles⟩ := write_error hwrite
      refine ⟨hbuf₄.trans hbuf, s₃.fs, hpruned₃, hremoved, hrenamed, ?_⟩
      rcases hfiles with hfiles | ⟨content, hfiles⟩
      · exact Or.inl hfiles
      · exact Or.inr ⟨seq, content, hfiles⟩
    obtain ⟨hwrite, hbuf₄⟩ := on_disk_eq_ok_iff.mp hwrite
    obtain ⟨hfiles, hremoved, hrenamed⟩ := write_ok hwrite
    rcases bind_eq_error_iff.mp herror with herror | ⟨_, s₅, hrename, herror⟩
    · obtain ⟨_, hrename, hbuf₅, -⟩ := on_disk_eq_error_iff.mp herror
      obtain ⟨hfiles', hremoved', hrenamed'⟩ := rename_error hrename
      exact ⟨hbuf₅.trans (hbuf₄.trans hbuf), s₃.fs, hpruned₃, hremoved'.trans hremoved,
        hrenamed'.trans hrenamed, Or.inr ⟨seq, bytes, hfiles'.trans hfiles⟩⟩
    · cases herror

end Buffer

end spotflowd.buffer
