import Spotflowd.Lib.Lines
import Spotflowd.Lib.Machine
import Spotflowd.Sources.Syslog.Reading

open lines str
open spotflowd.log_entry

namespace spotflowd.sources.syslog

/-- What `run_blocking` does next. -/
inductive Pc where
  | opening
  | seeking
  | identifying
  | reading
  | checking
  | reopening (new_inode : Option Nat)
  | stopped
deriving DecidableEq

/-- The files that have been at the path, the task that tails them and the channel. The
number of a file among all that were ever at the path is its inode. `appended` is what was
appended since the first seek. -/
structure Tail where
  retired : List Bytes
  path : Option Bytes
  shutdown : Bool
  closed : Bool
  pc : Pc
  file : Nat
  position : Nat
  current_inode : Option Nat
  sent : List LogEntry
  tailing : Bool
  appended : Bytes
deriving DecidableEq

namespace Tail

/-- Before `run_blocking` starts. -/
def start (retired : List Bytes) (path : Option Bytes) : Tail where
  retired := retired
  path := path
  shutdown := false
  closed := false
  pc := .opening
  file := 0
  position := 0
  current_inode := none
  sent := []
  tailing := false
  appended := []

def files (self : Tail) : List Bytes := self.retired ++ self.path.toList

def inode_of (self : Tail) : Option Nat := self.path.map fun _ => self.retired.length

/-- The file that the reader has open. -/
def content (self : Tail) : Bytes := self.files[self.file]?.getD []

def unread (self : Tail) : Bytes := self.content.drop self.position

/-- A line without its newline and its carriage returns; nothing is sent when it is empty,
and sending fails when the receiver is gone. -/
def send_line (chrono : Chrono) (line : Str) (self : Tail) : Tail :=
  let trimmed := trim_end_matches '\r' (trim_end_matches '\n' line)
  if trimmed = [] then self
  else
    match parse_line chrono trimmed with
    | .ok entry => if self.closed then { self with pc := .stopped } else { self with sent := self.sent ++ [entry] }
    | .error _ => { self with pc := .stopped }

/-- `read_line` and what is done with it. Bytes that are not UTF-8 are skipped. -/
def read_line (chrono : Chrono) (self : Tail) : Tail :=
  let bytes := next_line self.unread
  if bytes = [] then { self with pc := .checking }
  else
    let next := { self with position := self.position + bytes.length }
    match cbor.ofUtf8 bytes with
    | some line => next.send_line chrono line.toList
    | none => next

/-- The next step of `run_blocking`. -/
def advance (chrono : Chrono) (self : Tail) : Option Tail :=
  match self.pc with
  | .opening =>
    match self.inode_of with
    | some inode => some { self with file := inode, position := 0, pc := .seeking }
    | none => some { self with pc := .stopped }
  | .seeking => some { self with position := self.content.length, pc := .identifying, tailing := true }
  | .identifying => some { self with current_inode := self.inode_of, pc := .reading }
  | .reading => some (if self.shutdown then { self with pc := .stopped } else self.read_line chrono)
  | .checking =>
    let new_inode := self.inode_of
    some { self with pc := if new_inode ≠ self.current_inode then .reopening new_inode else .reading }
  | .reopening new_inode =>
    match self.inode_of with
    | some inode =>
      some { self with file := inode, position := 0, current_inode := new_inode, pc := .reading }
    | none => some { self with pc := .reading }
  | .stopped => none

/-- A write to the file at the path, a rename of it, a new file in its place, the end of the
channel, a shutdown, or a step of the loop. -/
inductive Event where
  | write (bytes : Bytes)
  | rename
  | create
  | hang_up
  | shut_down
  | advance
deriving DecidableEq

def step (chrono : Chrono) (self : Tail) : Event → Option Tail
  | .write bytes => self.path.map fun content =>
      { self with
        path := some (content ++ bytes)
        appended := if self.tailing then self.appended ++ bytes else self.appended }
  | .rename => self.path.map fun content =>
      { self with retired := self.retired ++ [content], path := none }
  | .create => if self.path.isSome then none else some { self with path := some [] }
  | .hang_up => some { self with closed := true }
  | .shut_down => some { self with shutdown := true }
  | .advance => self.advance chrono

end Tail

/-- The tail loop with a writer, rotations and a receiver, in any order of their steps. -/
def tail (chrono : Chrono) : Machine Tail Tail.Event where
  step := Tail.step chrono

/-- The entry of a line; one that is empty but for carriage returns has none. -/
def entry_of (chrono : Chrono) (line : Str) : Option LogEntry :=
  let trimmed := trim_end_matches '\r' line
  if trimmed = [] then none else (parse_line chrono trimmed).toOption

def entries (chrono : Chrono) (lines : List Str) : List LogEntry := lines.filterMap (entry_of chrono)

theorem entries_append (chrono : Chrono) (lines more : List Str) :
    entries chrono (lines ++ more) = entries chrono lines ++ entries chrono more :=
  List.filterMap_append

theorem entries_singleton (chrono : Chrono) (line : Str) :
    entries chrono [line] = (entry_of chrono line).toList := by
  rw [entries, List.filterMap_cons]
  cases entry_of chrono line <;> rfl

namespace Tail

theorem send_line_eq {chrono : Chrono} {line : Str} (hline : '\n' ∉ line) {s : Tail}
    (hclosed : s.closed = false) :
    s.send_line chrono (line ++ ['\n']) = { s with sent := s.sent ++ (entry_of chrono line).toList } := by
  unfold send_line entry_of
  rw [trim_end_matches_append hline]
  dsimp only
  split
  · simp
  · obtain ⟨body, hbody⟩ := strip_ansi_total (syslog.read_line chrono (trim_end_matches '\r' line)).body.toList
    rw [parse_line_eq chrono hbody]
    simp [hclosed, Except.toOption]

/-- A whole line is read and sent. -/
theorem read_line_eq {chrono : Chrono} {s : Tail} {line : Str} {rest : Bytes} (hline : '\n' ∉ line)
    (hunread : s.unread = encode line ++ NEWLINE :: rest) (hclosed : s.closed = false) :
    s.read_line chrono =
      { s with
        position := s.position + (encode line ++ [NEWLINE]).length
        sent := s.sent ++ (entry_of chrono line).toList } := by
  have hbytes : next_line s.unread = encode line ++ [NEWLINE] := by
    rw [hunread, next_line_append (newline_not_mem_encode hline)]
  have hdecode : cbor.ofUtf8 (encode line ++ [NEWLINE]) = some (String.ofList (line ++ ['\n'])) := by
    rw [← encode_line, decode_encode]
  have hne : encode line ++ [NEWLINE] ≠ [] := by simp
  unfold read_line
  rw [hbytes, if_neg hne, hdecode]
  dsimp only
  rw [String.toList_ofList]
  exact send_line_eq hline hclosed

/-- At the end of the file there is nothing to read. -/
theorem read_line_of_unread_nil {chrono : Chrono} {s : Tail} (hunread : s.unread = []) :
    s.read_line chrono = { s with pc := .checking } := by
  unfold read_line
  rw [if_pos (next_line_eq_nil.mpr hunread)]

/-- The files after the one that is open. -/
def later (self : Tail) : List Bytes := self.files.drop (self.file + 1)

/-- Everything that is still to be read: the rest of the open file, and the later files. -/
def pending (self : Tail) : Bytes := self.unread ++ self.later.flatten

/-- The reader is in a file. -/
structure Open (s : Tail) : Prop where
  file : s.file < s.files.length
  position : s.position ≤ s.content.length

/-- The first lines of what was appended were sent, in order and once each, and the rest is
still unread. -/
def Accounted (chrono : Chrono) (s : Tail) : Prop :=
  ∃ lines, Single lines ∧ s.appended = render lines ++ s.pending ∧ s.sent = entries chrono lines

theorem pending_congr {s t : Tail} (hfiles : t.files = s.files) (hfile : t.file = s.file)
    (hposition : t.position = s.position) : t.pending = s.pending := by
  unfold pending unread content later
  rw [hfiles, hfile, hposition]

theorem files_of_path {s : Tail} {content : Bytes} (hpath : s.path = some content) :
    s.files = s.retired ++ [content] := by
  rw [files, hpath]
  rfl

theorem files_of_no_path {s : Tail} (hpath : s.path = none) : s.files = s.retired := by
  rw [files, hpath, Option.toList_none, List.append_nil]

theorem content_of_newest {s : Tail} {content : Bytes} (hpath : s.path = some content)
    (hnewest : s.file = s.retired.length) : s.content = content := by
  rw [Tail.content, files_of_path hpath, hnewest, List.getElem?_concat_length, Option.getD_some]

/-- The newest file is the last one that can be read. -/
theorem later_of_newest {s : Tail} {content : Bytes} (hpath : s.path = some content)
    (hnewest : s.file = s.retired.length) : s.later = [] := by
  rw [later, files_of_path hpath, hnewest]
  simp

/-- Behind the file at the path, the files between are later ones. -/
theorem later_of_behind {s : Tail} {content : Bytes} (hpath : s.path = some content)
    (hbehind : s.file < s.retired.length) : s.later = s.retired.drop (s.file + 1) ++ [content] := by
  rw [later, files_of_path hpath, List.drop_append_of_le_length hbehind]

/-- No file is newer than the one at the path. -/
theorem Open.file_le {s : Tail} (hinside : s.Open) {content : Bytes} (hpath : s.path = some content) :
    s.file ≤ s.retired.length := by
  have hlt := hinside.file
  rw [files_of_path hpath, List.length_append, List.length_singleton] at hlt
  omega

/-- A write goes to the open file or to the last of the later ones. -/
theorem unread_write {chrono : Chrono} {s t : Tail} {bytes : Bytes} (hinside : s.Open)
    (hstep : s.step chrono (.write bytes) = some t) :
    t.Open ∧ (t.unread = s.unread ++ bytes ∧ s.later = [] ∧ t.later = [] ∨
      t.unread = s.unread ∧ ∃ front content, s.later = front ++ [content] ∧
        t.later = front ++ [content ++ bytes]) := by
  obtain ⟨content, hpath, ht⟩ := Option.map_eq_some_iff.mp hstep
  have hretired : t.retired = s.retired := by rw [← ht]
  have hwritten : t.path = some (content ++ bytes) := by rw [← ht]
  have hfile : t.file = s.file := by rw [← ht]
  have hposition : t.position = s.position := by rw [← ht]
  have hnewest := hinside.file_le hpath
  have hle := hinside.position
  have hbefore := files_of_path hpath
  have hafter := files_of_path hwritten
  rw [hretired] at hafter
  have hlength : t.files.length = s.files.length := by simp [hbefore, hafter]
  have hkept : t.file < t.files.length := by
    rw [hlength, hfile]
    exact hinside.file
  by_cases hlast : s.file = s.retired.length
  · have hlast' : t.file = t.retired.length := by rw [hfile, hlast, hretired]
    have hcontent := content_of_newest hpath hlast
    have hgrown := content_of_newest hwritten hlast'
    rw [hcontent] at hle
    refine ⟨⟨hkept, ?_⟩, Or.inl ⟨?_, later_of_newest hpath hlast, later_of_newest hwritten hlast'⟩⟩
    · rw [hgrown, hposition, List.length_append]
      omega
    · rw [unread, unread, hcontent, hgrown, hposition, List.drop_append_of_le_length hle]
  · have hsame : t.content = s.content := by
      rw [Tail.content, Tail.content, hafter, hbefore, hfile, List.getElem?_append_left (by omega),
        List.getElem?_append_left (by omega)]
    have hbehind : s.file < s.retired.length := by omega
    refine ⟨⟨hkept, ?_⟩, Or.inr ⟨?_, _, content, later_of_behind hpath hbehind, ?_⟩⟩
    · rw [hsame, hposition]
      exact hle
    · rw [unread, unread, hsame, hposition]
    · rw [later, hafter, hfile, List.drop_append_of_le_length hbehind]

/-- What is written is still to be read, after everything else. -/
theorem pending_write {chrono : Chrono} {s t : Tail} {bytes : Bytes} (hinside : s.Open)
    (hstep : s.step chrono (.write bytes) = some t) : t.pending = s.pending ++ bytes := by
  obtain ⟨-, ⟨hunread, hbefore, hafter⟩ | ⟨hunread, front, content, hbefore, hafter⟩⟩ :=
    unread_write hinside hstep
  · rw [pending, pending, hunread, hbefore, hafter]
    simp
  · rw [pending, pending, hunread, hbefore, hafter]
    simp

/-- The files keep their contents and their inodes when the last one is renamed. -/
theorem files_rename {chrono : Chrono} {s t : Tail} (hstep : s.step chrono .rename = some t) :
    t.files = s.files := by
  obtain ⟨content, hpath, ht⟩ := Option.map_eq_some_iff.mp hstep
  rw [files_of_path hpath, ← ht]
  exact files_of_no_path rfl

/-- A file is created only where none is. -/
theorem create_eq_some {chrono : Chrono} {s t : Tail} (hstep : s.step chrono .create = some t) :
    s.path = none ∧ t = { s with path := some [] } := by
  cases hpath : s.path with
  | some content => simp [step, hpath] at hstep
  | none =>
    simp only [step, hpath, Option.isSome_none, Bool.false_eq_true, if_false, Option.some.injEq] at hstep
    exact ⟨rfl, hstep.symm⟩

/-- A new file adds nothing to read. -/
theorem unread_create {chrono : Chrono} {s t : Tail} (hinside : s.Open)
    (hstep : s.step chrono .create = some t) :
    t.Open ∧ t.unread = s.unread ∧ t.later = s.later ++ [[]] := by
  obtain ⟨hpath, ht⟩ := create_eq_some hstep
  have hfile : t.file = s.file := by rw [ht]
  have hposition : t.position = s.position := by rw [ht]
  have hbefore := files_of_no_path hpath
  have hafter : t.files = s.retired ++ [[]] := by
    rw [ht]
    exact files_of_path rfl
  have hlt := hinside.file
  rw [hbefore] at hlt
  have hsame : t.content = s.content := by
    rw [Tail.content, Tail.content, hafter, hbefore, hfile, List.getElem?_append_left hlt]
  refine ⟨⟨?_, ?_⟩, ?_, ?_⟩
  · rw [hafter, hfile, List.length_append]
    omega
  · rw [hsame, hposition]
    exact hinside.position
  · rw [unread, unread, hsame, hposition]
  · rw [later, later, hafter, hbefore, hfile, List.drop_append_of_le_length hlt]

/-- The reader is in a file, and nothing was lost, repeated or sent out of order. -/
structure Sound (chrono : Chrono) (s : Tail) : Prop where
  inside : s.Open
  accounted : s.Accounted chrono

theorem Sound.of_same {chrono : Chrono} {s t : Tail} (hsound : s.Sound chrono) (hfiles : t.files = s.files)
    (hfile : t.file = s.file) (hposition : t.position = s.position) (hsent : t.sent = s.sent)
    (happended : t.appended = s.appended) : t.Sound chrono := by
  obtain ⟨lines, hsingle, heq, hentries⟩ := hsound.accounted
  refine ⟨⟨?_, ?_⟩, lines, hsingle, ?_, ?_⟩
  · rw [hfiles, hfile]
    exact hsound.inside.file
  · rw [content, hfiles, hfile, hposition]
    exact hsound.inside.position
  · rw [happended, heq, pending_congr hfiles hfile hposition]
  · rw [hsent, hentries]

theorem Sound.write {chrono : Chrono} {s t : Tail} {bytes : Bytes} (hsound : s.Sound chrono)
    (htailing : s.tailing = true) (hstep : s.step chrono (.write bytes) = some t) : t.Sound chrono := by
  have hinside := (unread_write hsound.inside hstep).1
  have hpending := pending_write hsound.inside hstep
  obtain ⟨lines, hsingle, heq, hentries⟩ := hsound.accounted
  obtain ⟨content, -, ht⟩ := Option.map_eq_some_iff.mp hstep
  refine ⟨hinside, lines, hsingle, ?_, ?_⟩
  · have happended : t.appended = s.appended ++ bytes := by simp [← ht, htailing]
    rw [happended, heq, hpending, List.append_assoc]
  · rw [← ht, hentries]

theorem Sound.rename {chrono : Chrono} {s t : Tail} (hsound : s.Sound chrono)
    (hstep : s.step chrono .rename = some t) : t.Sound chrono := by
  have hfiles := files_rename hstep
  obtain ⟨content, -, rfl⟩ := Option.map_eq_some_iff.mp hstep
  exact hsound.of_same hfiles rfl rfl rfl rfl

theorem Sound.create {chrono : Chrono} {s t : Tail} (hsound : s.Sound chrono)
    (hstep : s.step chrono .create = some t) : t.Sound chrono := by
  obtain ⟨hinside, hunread, hlater⟩ := unread_create hsound.inside hstep
  obtain ⟨lines, hsingle, heq, hentries⟩ := hsound.accounted
  obtain ⟨-, ht⟩ := create_eq_some hstep
  refine ⟨hinside, lines, hsingle, ?_, ?_⟩
  · have hpending : t.pending = s.pending := by
      rw [pending, hunread, hlater, List.flatten_append]
      simp [pending]
    rw [hpending, ← heq, ht]
  · rw [ht, hentries]

/-- Reading a whole line moves it from what is unread to what was sent. -/
theorem Sound.read_line {chrono : Chrono} {s : Tail} {line : Str} {rest : Bytes} (hsound : s.Sound chrono)
    (hclosed : s.closed = false) (hline : '\n' ∉ line)
    (hunread : s.unread = encode line ++ NEWLINE :: rest) :
    (s.read_line chrono).Sound chrono ∧ (s.read_line chrono).unread = rest := by
  obtain ⟨lines, hsingle, heq, hentries⟩ := hsound.accounted
  have hbytes : s.unread = (encode line ++ [NEWLINE]) ++ rest := by rw [hunread, List.append_assoc]; rfl
  have hlength := congrArg List.length hbytes
  rw [unread, List.length_drop, List.length_append] at hlength
  have hrest : s.content.drop (s.position + (encode line ++ [NEWLINE]).length) = rest := by
    rw [← List.drop_drop]
    change s.unread.drop _ = rest
    rw [hbytes, List.drop_left]
  rw [read_line_eq hline hunread hclosed]
  refine ⟨⟨⟨hsound.inside.file, ?_⟩, lines ++ [line], ?_, ?_, ?_⟩, hrest⟩
  · have hinside := hsound.inside.position
    change s.position + (encode line ++ [NEWLINE]).length ≤ s.content.length
    omega
  · intro other hother
    obtain hother | hother := List.mem_append.mp hother
    · exact hsingle other hother
    · rwa [List.mem_singleton.mp hother]
  · have hpending : s.pending = (encode line ++ [NEWLINE]) ++ (rest ++ s.later.flatten) := by
      rw [pending, hbytes, List.append_assoc]
    change s.appended = render (lines ++ [line]) ++ (s.content.drop _ ++ s.later.flatten)
    rw [hrest, heq, hpending, render_append, render_singleton]
    simp only [List.append_assoc]
  · rw [entries_append, entries_singleton, hentries]

end Tail

theorem length_le_count_render (lines : List Str) : lines.length ≤ (render lines).count NEWLINE := by
  induction lines with
  | nil => exact Nat.zero_le _
  | cons line lines ih =>
    rw [render_cons, List.count_append, List.count_cons_self, List.length_cons]
    omega

/-- There are no more entries than newlines. -/
theorem Tail.Accounted.length_sent {chrono : Chrono} {s : Tail} (haccounted : s.Accounted chrono) :
    s.sent.length ≤ s.appended.count NEWLINE := by
  obtain ⟨lines, -, heq, hentries⟩ := haccounted
  have hsent : s.sent.length ≤ lines.length := by
    rw [hentries]
    exact List.length_filterMap_le _ _
  have hlines := length_le_count_render lines
  rw [heq, List.count_append]
  omega

/-- A time library that reads no time. -/
def no_times : Chrono where
  parse_from_rfc3339 _ := none

end spotflowd.sources.syslog
