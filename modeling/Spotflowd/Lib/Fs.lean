import Spotflowd.Lib.Effect
import Spotflowd.Lib.Directory

namespace fs

/-- The file-system calls a program makes on one directory and its files. -/
inductive Call where
  | exists_
  | create_dir_all
  | read_dir
  | read
  | write
  | rename
  | remove_file
deriving DecidableEq, Repr

/-- What the environment decides about one call: whether a call of that kind fails,
how much of its data a failing write leaves in the file (`none`: the file could not
even be opened), and which entries of a listing come back as errors. -/
structure Verdict where
  fails : Call → Bool
  written : Option Nat
  hides : FileName → Bool

def Verdict.clean : Verdict := ⟨fun _ => false, none, fun _ => false⟩

/-- A failed call, by its kind. -/
structure IoError where
  call : Call
deriving DecidableEq, Repr

/-- What `read_dir` and `metadata` report about a file. -/
structure DirEntry where
  name : FileName
  len : Nat
deriving DecidableEq, Repr

/-- A directory (`none`: it does not exist) and the verdicts on the coming calls;
when they run out every call succeeds. `renamed` and `removed` are history
variables: the files put in place by `rename` and taken away by `remove_file`. -/
structure Fs where
  dir : Option Dir
  verdicts : List Verdict
  renamed : List (FileName × Bytes)
  removed : List (FileName × Bytes)

abbrev FsM := EStateM IoError Fs

def Fs.files (s : Fs) : Dir := s.dir.getD ∅

/-- The verdict on the next call, and the state in which the call is carried out. -/
def Fs.next (s : Fs) : Verdict × Fs :=
  match s.verdicts with
  | [] => (.clean, s)
  | verdict :: rest => (verdict, { s with verdicts := rest })

/-- `Path::exists`, which answers `false` when the directory cannot be examined. -/
def path_exists : FsM Bool := fun s =>
  let (verdict, s) := s.next
  .ok (s.dir.isSome && !verdict.fails .exists_) s

def create_dir_all : FsM Unit := fun s =>
  let (verdict, s) := s.next
  if verdict.fails .create_dir_all then .error ⟨.create_dir_all⟩ s
  else .ok () { s with dir := some s.files }

/-- The entries a listing yields without error. -/
def Dir.visible (d : Dir) (hides : FileName → Bool) : List DirEntry :=
  (d.entries.filter fun file => !hides file.1).map fun file => ⟨file.1, file.2.length⟩

def read_dir : FsM (List DirEntry) := fun s =>
  let (verdict, s) := s.next
  match s.dir, verdict.fails .read_dir with
  | some d, false => .ok (d.visible verdict.hides) s
  | _, _ => .error ⟨.read_dir⟩ s

def read (name : FileName) : FsM Bytes := fun s =>
  let (verdict, s) := s.next
  match s.files.lookup name, verdict.fails .read with
  | some content, false => .ok content s
  | _, _ => .error ⟨.read⟩ s

/-- `fs::write`: create or truncate, then write everything. A failing write may
leave the file with the first bytes only. -/
def write (name : FileName) (content : Bytes) : FsM Unit := fun s =>
  let (verdict, s) := s.next
  match s.dir, verdict.fails .write with
  | none, _ => .error ⟨.write⟩ s
  | some d, false => .ok () { s with dir := some (d.insert name content) }
  | some d, true =>
    match verdict.written with
    | none => .error ⟨.write⟩ s
    | some n => .error ⟨.write⟩ { s with dir := some (d.insert name (content.take n)) }

/-- `fs::rename`, atomic: an existing target is replaced. -/
def rename (source target : FileName) : FsM Unit := fun s =>
  let (verdict, s) := s.next
  match s.files.lookup source, verdict.fails .rename with
  | some content, false =>
    .ok () { s with
      dir := some ((s.files.erase source).insert target content)
      renamed := s.renamed ++ [(target, content)] }
  | _, _ => .error ⟨.rename⟩ s

def remove_file (name : FileName) : FsM Unit := fun s =>
  let (verdict, s) := s.next
  match s.files.lookup name, verdict.fails .remove_file with
  | some content, false =>
    .ok () { s with
      dir := some (s.files.erase name)
      removed := s.removed ++ [(name, content)] }
  | _, _ => .error ⟨.remove_file⟩ s

@[simp] theorem Fs.next_dir (s : Fs) : s.next.2.dir = s.dir := by
  unfold Fs.next
  split <;> rfl

@[simp] theorem Fs.next_renamed (s : Fs) : s.next.2.renamed = s.renamed := by
  unfold Fs.next
  split <;> rfl

@[simp] theorem Fs.next_removed (s : Fs) : s.next.2.removed = s.removed := by
  unfold Fs.next
  split <;> rfl

@[simp] theorem Fs.next_files (s : Fs) : s.next.2.files = s.files := by
  simp [Fs.files]

/-- A call uses up one verdict, if there is one. -/
@[simp] theorem Fs.next_verdicts (s : Fs) : s.next.2.verdicts = s.verdicts.tail := by
  unfold Fs.next
  split <;> simp_all

theorem create_dir_all_files (s : Fs) : (effect.finalState (create_dir_all s)).files = s.files := by
  rw [create_dir_all, ← s.next_files]
  cases s.next with
  | mk verdict t =>
    simp only
    split <;> rfl

theorem create_dir_all_renamed (s : Fs) :
    (effect.finalState (create_dir_all s)).renamed = s.renamed := by
  rw [create_dir_all, ← s.next_renamed]
  cases s.next with
  | mk verdict t =>
    simp only
    split <;> rfl

theorem read_ok {name : FileName} {content : Bytes} {s t : Fs} (hok : read name s = .ok content t) :
    t.files = s.files ∧ s.files.lookup name = some content := by
  unfold read at hok
  simp only [Fs.next_files] at hok
  split at hok
  · next hlookup _ =>
    cases hok
    exact ⟨s.next_files, hlookup⟩
  · cases hok

theorem read_error {name : FileName} {s t : Fs} {e : IoError} (herror : read name s = .error e t) :
    t.files = s.files := by
  unfold read at herror
  simp only [Fs.next_files] at herror
  split at herror
  · cases herror
  · cases herror
    exact s.next_files

theorem read_unfailing {name : FileName} {s : Fs} (hfails : s.next.1.fails .read = false) :
    read name s = match s.files.lookup name with
      | some content => .ok content s.next.2
      | none => .error ⟨.read⟩ s.next.2 := by
  simp only [read, Fs.next_files, hfails]
  cases s.files.lookup name <;> rfl

theorem read_keeps (name : FileName) (s : Fs) :
    (effect.finalState (read name s)).files = s.files ∧
      (effect.finalState (read name s)).renamed = s.renamed := by
  rw [read]
  simp only
  split
  · exact ⟨s.next_files, s.next_renamed⟩
  · exact ⟨s.next_files, s.next_renamed⟩

theorem write_ok {name : FileName} {content : Bytes} {s t : Fs} (hok : write name content s = .ok () t) :
    t.files = s.files.insert name content ∧ t.removed = s.removed ∧ t.renamed = s.renamed := by
  unfold write at hok
  simp only at hok
  split at hok
  · cases hok
  · next d hdir _ =>
    cases hok
    rw [Fs.next_dir] at hdir
    simp [Fs.files, hdir]
  · split at hok <;> cases hok

theorem write_error {name : FileName} {content : Bytes} {s t : Fs} {e : IoError}
    (herror : write name content s = .error e t) :
    t.removed = s.removed ∧ t.renamed = s.renamed ∧
      (t.files = s.files ∨ ∃ cut, t.files = s.files.insert name cut) := by
  unfold write at herror
  simp only at herror
  split at herror
  · cases herror
    simp
  · cases herror
  · next d hdir _ =>
    rw [Fs.next_dir] at hdir
    split at herror
    · cases herror
      simp
    · next n _ =>
      cases herror
      refine ⟨by simp, by simp, Or.inr ⟨content.take n, ?_⟩⟩
      simp [Fs.files, hdir]

theorem rename_ok {source target : FileName} {s t : Fs} (hok : rename source target s = .ok () t) :
    ∃ content, s.files.lookup source = some content ∧
      t.files = (s.files.erase source).insert target content ∧ t.removed = s.removed ∧
      t.renamed = s.renamed ++ [(target, content)] := by
  unfold rename at hok
  simp only [Fs.next_files] at hok
  split at hok
  · next content hlookup _ =>
    cases hok
    exact ⟨content, hlookup, rfl, by simp, by simp⟩
  · cases hok

theorem rename_error {source target : FileName} {s t : Fs} {e : IoError}
    (herror : rename source target s = .error e t) :
    t.files = s.files ∧ t.removed = s.removed ∧ t.renamed = s.renamed := by
  unfold rename at herror
  simp only [Fs.next_files] at herror
  split at herror
  · cases herror
  · cases herror
    simp

section Quiet

variable {s : Fs} (hquiet : s.verdicts = [])

include hquiet

theorem next_quiet : s.next = (.clean, s) := by
  simp [Fs.next, hquiet]

theorem path_exists_quiet : path_exists s = .ok s.dir.isSome s := by
  simp [path_exists, next_quiet hquiet, Verdict.clean]

theorem create_dir_all_quiet : create_dir_all s = .ok () { s with dir := some s.files } := by
  simp [create_dir_all, next_quiet hquiet, Verdict.clean]

theorem read_dir_quiet {d : Dir} (hdir : s.dir = some d) :
    read_dir s = .ok (d.entries.map fun file => ⟨file.1, file.2.length⟩) s := by
  simp [read_dir, next_quiet hquiet, hdir, Verdict.clean, Dir.visible]

theorem read_quiet_missing {name : FileName} (hlookup : s.files.lookup name = none) :
    read name s = .error ⟨.read⟩ s := by
  simp [read, next_quiet hquiet, hlookup]

theorem write_quiet {d : Dir} (hdir : s.dir = some d) (name : FileName) (content : Bytes) :
    write name content s = .ok () { s with dir := some (d.insert name content) } := by
  simp [write, next_quiet hquiet, hdir, Verdict.clean]

theorem rename_quiet {source : FileName} {content : Bytes}
    (hlookup : s.files.lookup source = some content) (target : FileName) :
    rename source target s = .ok () { s with
      dir := some ((s.files.erase source).insert target content)
      renamed := s.renamed ++ [(target, content)] } := by
  simp [rename, next_quiet hquiet, hlookup, Verdict.clean]

theorem remove_file_quiet {name : FileName} {content : Bytes}
    (hlookup : s.files.lookup name = some content) :
    remove_file name s = .ok () { s with
      dir := some (s.files.erase name)
      removed := s.removed ++ [(name, content)] } := by
  simp [remove_file, next_quiet hquiet, hlookup, Verdict.clean]

theorem remove_file_quiet_missing {name : FileName} (hlookup : s.files.lookup name = none) :
    remove_file name s = .error ⟨.remove_file⟩ s := by
  simp [remove_file, next_quiet hquiet, hlookup]

end Quiet

end fs
