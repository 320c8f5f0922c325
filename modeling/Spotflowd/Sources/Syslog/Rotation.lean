import Spotflowd.Sources.Syslog.Tail

open lines str
open spotflowd.log_entry

namespace spotflowd.sources.syslog

namespace Tail

/-- A writer of whole lines, and rotations by rename and create. -/
def Rotating (_ : Tail) : Event → Prop
  | .write bytes => WholeLines bytes
  | .rename => True
  | .create => True
  | .shut_down => True
  | .advance => True
  | .hang_up => False

/-- Nothing was written to the files between the open one and the one at the path. -/
def InReach (s : Tail) : Prop := ∀ content ∈ s.retired.drop (s.file + 1), content = []

/-- Where the loop meets a new file, it is at the end of the old one and knows the new one's
inode. -/
def InOrder (s : Tail) : Prop :=
  match s.pc with
  | .seeking => s.files.length = s.file + 1
  | .identifying => s.files.length = s.file + 1
  | .reopening new_inode =>
    s.path.isSome = true → new_inode = s.inode_of ∧ s.unread = [] ∧ s.InReach
  | _ => True

/-- Rotations that every step of the loop meets in order. -/
def SwitchesInOrder (s : Tail) (event : Event) : Prop :=
  s.Rotating event ∧ (event = .advance → s.InOrder)

instance (s : Tail) : Decidable s.InReach := by
  unfold InReach
  infer_instance

instance (s : Tail) : Decidable s.InOrder := by
  unfold InOrder
  cases s.pc <;> infer_instance

/-- The file is not open yet, or the end of it has not been looked for. -/
structure Starting (s : Tail) : Prop where
  tailing : s.tailing = false
  closed : s.closed = false
  appended : s.appended = []
  sent : s.sent = []
  loop : s.pc = .opening ∨ s.pc = .seeking ∨ s.pc = .stopped

/-- Once tailing, the unread files are whole lines, and the inode that the loop remembers
tells a newer file at the path from the open one. -/
structure Tracking (chrono : Chrono) (s : Tail) : Prop where
  tailing : s.tailing = true
  closed : s.closed = false
  sound : s.Sound chrono
  whole_unread : WholeLines s.unread
  whole_later : ∀ content ∈ s.later, WholeLines content
  loop : s.pc ≠ .opening ∧ s.pc ≠ .seeking
  inode : s.pc ≠ .identifying →
    (s.current_inode = none ∨ s.current_inode = some s.file) ∧
      (s.inode_of = some s.file → s.current_inode = some s.file)
  changed : ∀ new_inode, s.pc = .reopening new_inode → new_inode ≠ s.current_inode

theorem starting_start (retired : List Bytes) (path : Option Bytes) : (start retired path).Starting :=
  ⟨rfl, rfl, rfl, rfl, Or.inl rfl⟩

/-- The writer and the rotations leave the loop where it is. -/
structure Beside (s t : Tail) : Prop where
  pc : t.pc = s.pc
  file : t.file = s.file
  current_inode : t.current_inode = s.current_inode
  sent : t.sent = s.sent
  tailing : t.tailing = s.tailing
  closed : t.closed = s.closed
  appended : s.tailing = false → t.appended = s.appended

theorem Starting.beside {s t : Tail} (hs : s.Starting) (hbeside : s.Beside t) : t.Starting := by
  refine ⟨?_, ?_, ?_, ?_, ?_⟩
  · rw [hbeside.tailing, hs.tailing]
  · rw [hbeside.closed, hs.closed]
  · rw [hbeside.appended hs.tailing, hs.appended]
  · rw [hbeside.sent, hs.sent]
  · rw [hbeside.pc]
    exact hs.loop

theorem Tracking.beside {chrono : Chrono} {s t : Tail} (hs : s.Tracking chrono) (hbeside : s.Beside t)
    (hsound : t.Sound chrono) (hunread : WholeLines t.unread)
    (hlater : ∀ content ∈ t.later, WholeLines content)
    (hinode : t.inode_of = some s.file → s.inode_of = some s.file) : t.Tracking chrono := by
  refine ⟨?_, ?_, hsound, hunread, hlater, ?_, ?_, ?_⟩
  · rw [hbeside.tailing, hs.tailing]
  · rw [hbeside.closed, hs.closed]
  · rw [hbeside.pc]
    exact hs.loop
  · rw [hbeside.pc, hbeside.current_inode, hbeside.file]
    intro hpc
    obtain ⟨hcurrent, hopen⟩ := hs.inode hpc
    exact ⟨hcurrent, fun h => hopen (hinode h)⟩
  · rw [hbeside.pc, hbeside.current_inode]
    exact hs.changed

theorem beside_write {chrono : Chrono} {s t : Tail} {bytes : Bytes}
    (hstep : s.step chrono (.write bytes) = some t) : s.Beside t := by
  obtain ⟨content, hpath, rfl⟩ := Option.map_eq_some_iff.mp hstep
  refine ⟨rfl, rfl, rfl, rfl, rfl, rfl, fun htailing => ?_⟩
  simp [htailing]

theorem beside_rename {chrono : Chrono} {s t : Tail} (hstep : s.step chrono .rename = some t) :
    s.Beside t := by
  obtain ⟨content, hpath, rfl⟩ := Option.map_eq_some_iff.mp hstep
  exact ⟨rfl, rfl, rfl, rfl, rfl, rfl, fun _ => rfl⟩

theorem beside_create {chrono : Chrono} {s t : Tail} (hstep : s.step chrono .create = some t) :
    s.Beside t := by
  obtain ⟨hpath, rfl⟩ := create_eq_some hstep
  exact ⟨rfl, rfl, rfl, rfl, rfl, rfl, fun _ => rfl⟩

theorem Tracking.write {chrono : Chrono} {s t : Tail} {bytes : Bytes} (hs : s.Tracking chrono)
    (hbytes : WholeLines bytes) (hstep : s.step chrono (.write bytes) = some t) : t.Tracking chrono := by
  have hsound := hs.sound.write hs.tailing hstep
  have hinode : t.inode_of = s.inode_of := by
    obtain ⟨content, hpath, rfl⟩ := Option.map_eq_some_iff.mp hstep
    rw [inode_of, inode_of, hpath]
    rfl
  have hkept := hs.whole_later
  obtain ⟨-, ⟨hunread, -, hlater⟩ | ⟨hunread, front, content, hbefore, hlater⟩⟩ :=
    unread_write hs.sound.inside hstep
  · refine hs.beside (beside_write hstep) hsound ?_ ?_ fun h => hinode ▸ h
    · rw [hunread]
      exact hs.whole_unread.append hbytes
    · rw [hlater]
      intro other hother
      cases hother
  · refine hs.beside (beside_write hstep) hsound ?_ ?_ fun h => hinode ▸ h
    · rw [hunread]
      exact hs.whole_unread
    · rw [hbefore] at hkept
      rw [hlater]
      intro other hother
      obtain hother | hother := List.mem_append.mp hother
      · exact hkept other (List.mem_append_left _ hother)
      · rw [List.mem_singleton.mp hother]
        exact (hkept content (List.mem_append_right _ List.mem_cons_self)).append hbytes

theorem Tracking.rename {chrono : Chrono} {s t : Tail} (hs : s.Tracking chrono)
    (hstep : s.step chrono .rename = some t) : t.Tracking chrono := by
  have hbeside := beside_rename hstep
  have hfiles := files_rename hstep
  obtain ⟨content, -, ht⟩ := Option.map_eq_some_iff.mp hstep
  have hposition : t.position = s.position := by rw [← ht]
  have hunread : t.unread = s.unread := by
    rw [unread, unread, Tail.content, Tail.content, hfiles, hbeside.file, hposition]
  have hlater : t.later = s.later := by rw [later, later, hfiles, hbeside.file]
  refine hs.beside hbeside (hs.sound.rename hstep) (hunread ▸ hs.whole_unread) (hlater ▸ hs.whole_later)
    fun h => ?_
  rw [← ht] at h
  cases h

theorem Tracking.create {chrono : Chrono} {s t : Tail} (hs : s.Tracking chrono)
    (hstep : s.step chrono .create = some t) : t.Tracking chrono := by
  obtain ⟨-, hunread, hlater⟩ := unread_create hs.sound.inside hstep
  obtain ⟨hpath, ht⟩ := create_eq_some hstep
  refine hs.beside (beside_create hstep) (hs.sound.create hstep) (hunread ▸ hs.whole_unread) ?_ fun h => ?_
  · rw [hlater]
    intro content hcontent
    obtain hcontent | hcontent := List.mem_append.mp hcontent
    · exact hs.whole_later content hcontent
    · rw [List.mem_singleton.mp hcontent]
      exact .nil
  · -- the new file comes after every other, and the open one is among those
    have hlt := hs.sound.inside.file
    rw [files_of_no_path hpath] at hlt
    rw [ht] at h
    have heq : s.retired.length = s.file := Option.some.inj h
    omega

theorem inode_of_path {s : Tail} {content : Bytes} (hpath : s.path = some content) :
    s.inode_of = some s.retired.length := by
  rw [inode_of, hpath]
  rfl

theorem Starting.advance {chrono : Chrono} {s t : Tail} (hs : s.Starting) (horder : s.InOrder)
    (hstep : s.advance chrono = some t) : t.Starting ∨ t.Tracking chrono := by
  obtain hpc | hpc | hpc := hs.loop
  · left
    cases hinode : s.inode_of with
    | none =>
      simp only [Tail.advance, hpc, hinode, Option.some.injEq] at hstep
      subst hstep
      exact ⟨hs.tailing, hs.closed, hs.appended, hs.sent, Or.inr (Or.inr rfl)⟩
    | some inode =>
      simp only [Tail.advance, hpc, hinode, Option.some.injEq] at hstep
      subst hstep
      exact ⟨hs.tailing, hs.closed, hs.appended, hs.sent, Or.inr (Or.inl rfl)⟩
  · right
    simp only [InOrder, hpc] at horder
    simp only [Tail.advance, hpc, Option.some.injEq] at hstep
    subst hstep
    have hlater : s.files.drop (s.file + 1) = [] := List.drop_eq_nil_of_le horder.le
    have hunread : s.content.drop s.content.length = [] := List.drop_length
    refine ⟨rfl, hs.closed, ⟨⟨?_, Nat.le_refl _⟩, [], ?_, ?_, hs.sent⟩, ?_, ?_, ?_, ?_, ?_⟩
    · change s.file < s.files.length
      omega
    · intro line hline
      cases hline
    · change s.appended = render [] ++ (s.content.drop s.content.length ++ (s.files.drop (s.file + 1)).flatten)
      rw [hs.appended, hunread, hlater]
      rfl
    · change WholeLines (s.content.drop s.content.length)
      rw [hunread]
      exact .nil
    · change ∀ content ∈ s.files.drop (s.file + 1), WholeLines content
      rw [hlater]
      intro content hcontent
      cases hcontent
    · simp
    · intro h
      exact absurd rfl h
    · intro new_inode h
      cases h
  · simp only [Tail.advance, hpc, reduceCtorEq] at hstep

/-- A step that stays in the file and sends nothing. -/
theorem Tracking.moved {chrono : Chrono} {s : Tail} (hs : s.Tracking chrono) {pc : Pc}
    {current_inode : Option Nat} (hpc : pc ≠ .opening ∧ pc ≠ .seeking)
    (hinode : (current_inode = none ∨ current_inode = some s.file) ∧
      (s.inode_of = some s.file → current_inode = some s.file))
    (hchanged : ∀ new_inode, pc = .reopening new_inode → new_inode ≠ current_inode) :
    Tracking chrono { s with pc := pc, current_inode := current_inode } where
  tailing := hs.tailing
  closed := hs.closed
  sound := hs.sound.of_same rfl rfl rfl rfl rfl
  whole_unread := hs.whole_unread
  whole_later := hs.whole_later
  loop := hpc
  inode _ := hinode
  changed := hchanged

/-- Nothing is behind the open file when it is the newest. -/
theorem inode_of_newest {s : Tail} (hnewest : s.files.length = s.file + 1) :
    s.inode_of = none ∨ s.inode_of = some s.file := by
  cases hpath : s.path with
  | none => exact Or.inl (by rw [inode_of, hpath]; rfl)
  | some content =>
    rw [files_of_path hpath, List.length_append, List.length_singleton] at hnewest
    have hfile : s.retired.length = s.file := by omega
    exact Or.inr (by rw [inode_of_path hpath, hfile])

/-- A line is read: there is less to read, and the loop stays where it is. -/
theorem Tracking.read_line {chrono : Chrono} {s : Tail} (hs : s.Tracking chrono) (hunread : s.unread ≠ []) :
    (s.read_line chrono).Tracking chrono ∧
      (s.read_line chrono).pending.length < s.pending.length ∧
      ∃ position sent, s.read_line chrono = { s with position := position, sent := sent } := by
  obtain ⟨line, rest, hline, hbytes, hrest⟩ := hs.whole_unread.line hunread
  obtain ⟨hsound, hafter⟩ := hs.sound.read_line hs.closed hline hbytes
  rw [read_line_eq hline hbytes hs.closed] at hsound hafter ⊢
  refine ⟨⟨hs.tailing, hs.closed, hsound, ?_, hs.whole_later, hs.loop, hs.inode, hs.changed⟩, ?_, _, _, rfl⟩
  · rw [hafter]
    exact hrest
  · rw [pending, pending, hafter, hbytes]
    change (rest ++ s.later.flatten).length < _
    simp only [List.length_append, List.length_cons]
    omega

/-- A file that is opened at its start is unread. -/
theorem opened_at_start {s : Tail} {content : Bytes} (hpath : s.path = some content)
    (hfile : s.file = s.retired.length) (hposition : s.position = 0) :
    s.Open ∧ s.unread = content ∧ s.later = [] := by
  refine ⟨⟨?_, ?_⟩, ?_, later_of_newest hpath hfile⟩
  · rw [files_of_path hpath, hfile, List.length_append]
    exact Nat.lt_succ_self _
  · rw [hposition]
    exact Nat.zero_le _
  · rw [unread, content_of_newest hpath hfile, hposition, List.drop_zero]

/-- When the open file is read and those between are empty, what is left is in the file at the
path. -/
theorem pending_of_behind {s : Tail} {content : Bytes} (hpath : s.path = some content)
    (hbehind : s.file < s.retired.length) (hunread : s.unread = []) (hreach : s.InReach) :
    s.pending = content := by
  have hbetween : (s.retired.drop (s.file + 1)).flatten = [] := List.flatten_eq_nil_iff.mpr hreach
  rw [pending, hunread, later_of_behind hpath hbehind, List.flatten_append, hbetween]
  simp

/-- A different inode at the path is that of a newer file. -/
theorem Tracking.behind {chrono : Chrono} {s : Tail} (hs : s.Tracking chrono) {content : Bytes}
    (hpath : s.path = some content) (hpc : s.pc ≠ .identifying) (hchanged : s.inode_of ≠ s.current_inode) :
    s.file < s.retired.length := by
  apply lt_of_le_of_ne (hs.sound.inside.file_le hpath)
  intro heq
  have hinode : s.inode_of = some s.file := by rw [inode_of_path hpath, heq]
  exact hchanged (hinode.trans ((hs.inode hpc).2 hinode).symm)

/-- Switching to the new file in order loses and repeats nothing. -/
theorem Tracking.reopen {chrono : Chrono} {s : Tail} (hs : s.Tracking chrono) {content : Bytes}
    (hpath : s.path = some content) (hpc : s.pc = .reopening s.inode_of) (hunread : s.unread = [])
    (hreach : s.InReach) {t : Tail}
    (ht : t = { s with
      file := s.retired.length, position := 0, current_inode := s.inode_of, pc := .reading }) :
    t.Tracking chrono ∧ t.pending = s.pending := by
  have hbehind := hs.behind hpath (by rw [hpc]; simp) (hs.changed _ hpc)
  have hbefore := pending_of_behind hpath hbehind hunread hreach
  have hpath' : t.path = some content := by rw [ht, hpath]
  have hfile : t.file = t.retired.length := by rw [ht]
  obtain ⟨hinside, hunread', hlater'⟩ := opened_at_start hpath' hfile (by rw [ht])
  have hafter : t.pending = content := by
    rw [pending, hunread', hlater']
    exact List.append_nil _
  have hcurrent : t.current_inode = some t.file := by
    rw [ht]
    exact inode_of_path hpath
  obtain ⟨lines, hsingle, heq, hentries⟩ := hs.sound.accounted
  refine ⟨⟨?_, ?_, ⟨hinside, lines, hsingle, ?_, ?_⟩, ?_, ?_, ?_, ?_, ?_⟩, hafter.trans hbefore.symm⟩
  · rw [ht, hs.tailing]
  · rw [ht, hs.closed]
  · rw [hafter, ← hbefore, ← heq, ht]
  · rw [ht, ← hentries]
  · rw [hunread']
    apply hs.whole_later
    rw [later_of_behind hpath hbehind]
    exact List.mem_append_right _ List.mem_cons_self
  · rw [hlater']
    intro other hother
    cases hother
  · rw [ht]
    simp
  · intro _
    exact ⟨Or.inr hcurrent, fun _ => hcurrent⟩
  · rw [ht]
    intro new_inode h
    cases h

theorem Tracking.advance {chrono : Chrono} {s t : Tail} (hs : s.Tracking chrono) (horder : s.InOrder)
    (hstep : s.advance chrono = some t) : t.Tracking chrono := by
  cases hpc : s.pc with
  | opening => exact absurd hpc hs.loop.1
  | seeking => exact absurd hpc hs.loop.2
  | identifying =>
    simp only [InOrder, hpc] at horder
    simp only [Tail.advance, hpc, Option.some.injEq] at hstep
    subst hstep
    exact hs.moved (by simp) ⟨inode_of_newest horder, id⟩ (fun _ h => by cases h)
  | reading =>
    have hinode := hs.inode (by rw [hpc]; simp)
    simp only [Tail.advance, hpc, Option.some.injEq] at hstep
    by_cases hshutdown : s.shutdown = true
    · rw [if_pos hshutdown] at hstep
      subst hstep
      exact hs.moved (by simp) hinode (fun _ h => by cases h)
    · rw [if_neg hshutdown] at hstep
      subst hstep
      by_cases hunread : s.unread = []
      · rw [read_line_of_unread_nil hunread]
        exact hs.moved (by simp) hinode (fun _ h => by cases h)
      · exact (hs.read_line hunread).1
  | checking =>
    have hinode := hs.inode (by rw [hpc]; simp)
    simp only [Tail.advance, hpc, Option.some.injEq] at hstep
    subst hstep
    by_cases hchanged : s.inode_of ≠ s.current_inode
    · rw [if_pos hchanged]
      refine hs.moved (by simp) hinode fun new_inode h => ?_
      cases h
      exact hchanged
    · rw [if_neg hchanged]
      exact hs.moved (by simp) hinode (fun _ h => by cases h)
  | reopening new_inode =>
    have hinode := hs.inode (by rw [hpc]; simp)
    cases hpath : s.path with
    | none =>
      have hnone : s.inode_of = none := by rw [inode_of, hpath, Option.map_none]
      simp only [Tail.advance, hpc, hnone, Option.some.injEq] at hstep
      subst hstep
      exact hs.moved (by simp) hinode (fun _ h => by cases h)
    | some content =>
      simp only [InOrder, hpc] at horder
      obtain ⟨rfl, hunread, hreach⟩ := horder (by rw [hpath]; rfl)
      simp only [Tail.advance, hpc, inode_of_path hpath, Option.some.injEq] at hstep
      refine (hs.reopen hpath hpc hunread hreach ?_).1
      rw [← hstep, inode_of_path hpath]
  | stopped => simp only [Tail.advance, hpc, reduceCtorEq] at hstep

/-- What holds in every state of the runs in order. -/
def InStep (chrono : Chrono) (s : Tail) : Prop := s.Starting ∨ s.Tracking chrono

theorem InStep.step {chrono : Chrono} {s t : Tail} {event : Event} (hs : s.InStep chrono)
    (hallowed : s.SwitchesInOrder event) (hstep : s.step chrono event = some t) : t.InStep chrono := by
  cases event with
  | write bytes => exact hs.imp (·.beside (beside_write hstep)) (·.write hallowed.1 hstep)
  | rename => exact hs.imp (·.beside (beside_rename hstep)) (·.rename hstep)
  | create => exact hs.imp (·.beside (beside_create hstep)) (·.create hstep)
  | hang_up => exact hallowed.1.elim
  | shut_down =>
    cases hstep
    refine hs.imp (fun h => ⟨h.tailing, h.closed, h.appended, h.sent, h.loop⟩) fun h => ?_
    exact ⟨h.tailing, h.closed, h.sound.of_same rfl rfl rfl rfl rfl, h.whole_unread, h.whole_later, h.loop,
      h.inode, h.changed⟩
  | advance =>
    obtain hs | hs := hs
    · exact hs.advance (hallowed.2 rfl) hstep
    · exact Or.inr (hs.advance (hallowed.2 rfl) hstep)

/-- The loop runs, and it is at its top or on its way to the new file. -/
structure Reaching (chrono : Chrono) (s : Tail) : Prop where
  tracking : s.Tracking chrono
  shutdown : s.shutdown = false
  reach : s.InReach
  loop : s.pc = .reading ∨ s.unread = [] ∧ (s.pc = .checking ∨ s.pc = .reopening s.inode_of)

/-- What is left to read, and how far the loop is from reading it. -/
def distance (s : Tail) : Nat :=
  4 * s.pending.length +
    match s.pc with
    | .reading => if s.unread = [] then 3 else 0
    | .checking => 2
    | .reopening _ => 1
    | _ => 0

/-- The loop goes on in order to a state that is closer to the last line. -/
def Closer (chrono : Chrono) (s t : Tail) : Prop :=
  s.InOrder ∧ s.advance chrono = some t ∧ t.Reaching chrono ∧ t.appended = s.appended ∧
    t.distance < s.distance

theorem Reaching.read {chrono : Chrono} {s : Tail} (hs : s.Reaching chrono) (hpc : s.pc = .reading)
    (hunread : s.unread ≠ []) : s.Closer chrono (s.read_line chrono) := by
  obtain ⟨htracking, hless, position, sent, hread⟩ := hs.tracking.read_line hunread
  have hstays : (s.read_line chrono).pc = .reading := by
    rw [hread]
    exact hpc
  refine ⟨?_, ?_, ⟨htracking, ?_, ?_, Or.inl hstays⟩, ?_, ?_⟩
  · simp only [InOrder, hpc]
  · simp [Tail.advance, hpc, hs.shutdown]
  · rw [hread]
    exact hs.shutdown
  · rw [hread]
    exact hs.reach
  · rw [hread]
  · simp only [distance, hstays, hpc, hunread, if_false]
    split <;> omega

theorem Reaching.end_of_file {chrono : Chrono} {s : Tail} (hs : s.Reaching chrono)
    (hpc : s.pc = .reading) (hunread : s.unread = []) :
    s.Closer chrono { s with pc := .checking } := by
  have horder : s.InOrder := by simp only [InOrder, hpc]
  have hadvance : s.advance chrono = some { s with pc := .checking } := by
    simp [Tail.advance, hpc, hs.shutdown, read_line_of_unread_nil hunread]
  refine ⟨horder, hadvance, ⟨hs.tracking.advance horder hadvance, hs.shutdown, hs.reach,
    Or.inr ⟨hunread, Or.inl rfl⟩⟩, rfl, ?_⟩
  simp only [distance, hpc, hunread, if_true]
  exact Nat.lt_succ_self _

/-- With the open file read, what is left is in a newer one. -/
theorem Reaching.behind {chrono : Chrono} {s : Tail} (hs : s.Reaching chrono) (hunread : s.unread = [])
    (hpending : s.pending ≠ []) : ∃ content, s.path = some content ∧ s.file < s.retired.length := by
  have hbetween : (s.retired.drop (s.file + 1)).flatten = [] := List.flatten_eq_nil_iff.mpr hs.reach
  rw [pending, hunread, List.nil_append] at hpending
  cases hpath : s.path with
  | none =>
    rw [later, files_of_no_path hpath, hbetween] at hpending
    exact absurd rfl hpending
  | some content =>
    refine ⟨content, rfl, lt_of_le_of_ne (hs.tracking.sound.inside.file_le hpath) ?_⟩
    intro heq
    rw [later_of_newest hpath heq] at hpending
    exact hpending rfl

theorem Reaching.check {chrono : Chrono} {s : Tail} (hs : s.Reaching chrono) (hpc : s.pc = .checking)
    (hunread : s.unread = []) (hpending : s.pending ≠ []) :
    s.Closer chrono { s with pc := .reopening s.inode_of } := by
  obtain ⟨content, hpath, hbehind⟩ := hs.behind hunread hpending
  have hchanged : s.inode_of ≠ s.current_inode := by
    rw [inode_of_path hpath]
    obtain hcurrent | hcurrent := (hs.tracking.inode (by rw [hpc]; simp)).1
    · rw [hcurrent]
      simp
    · rw [hcurrent]
      simp only [ne_eq, Option.some.injEq]
      omega
  have horder : s.InOrder := by simp only [InOrder, hpc]
  have hadvance : s.advance chrono = some { s with pc := .reopening s.inode_of } := by
    simp only [Tail.advance, hpc, if_pos hchanged]
  refine ⟨horder, hadvance, ⟨hs.tracking.advance horder hadvance, hs.shutdown, hs.reach,
    Or.inr ⟨hunread, Or.inr rfl⟩⟩, rfl, ?_⟩
  simp only [distance, hpc]
  exact Nat.lt_succ_self _

theorem Reaching.reopen {chrono : Chrono} {s : Tail} (hs : s.Reaching chrono)
    (hpc : s.pc = .reopening s.inode_of) (hunread : s.unread = []) (hpending : s.pending ≠ []) :
    s.Closer chrono { s with
      file := s.retired.length, position := 0, current_inode := s.inode_of, pc := .reading } := by
  obtain ⟨content, hpath, hbehind⟩ := hs.behind hunread hpending
  obtain ⟨htracking, hsame⟩ := hs.tracking.reopen hpath hpc hunread hs.reach rfl
  have hbefore := pending_of_behind hpath hbehind hunread hs.reach
  have hopened := (opened_at_start (s := { s with
    file := s.retired.length, position := 0, current_inode := s.inode_of, pc := .reading })
    hpath rfl rfl).2.1
  refine ⟨?_, ?_, ⟨htracking, hs.shutdown, ?_, Or.inl rfl⟩, rfl, ?_⟩
  · rw [InOrder, hpc]
    exact fun _ => ⟨rfl, hunread, hs.reach⟩
  · simp only [Tail.advance, hpc, inode_of_path hpath]
  · intro other hother
    change other ∈ s.retired.drop (s.retired.length + 1) at hother
    rw [List.drop_eq_nil_of_le (Nat.le_succ _)] at hother
    cases hother
  · rw [hbefore] at hpending
    rw [distance, distance, hsame, hpc, hopened]
    simp only [if_neg hpending]
    omega

/-- Every step of the loop brings it closer to the last line. -/
theorem Reaching.advance {chrono : Chrono} {s : Tail} (hs : s.Reaching chrono) (hpending : s.pending ≠ []) :
    ∃ t, s.Closer chrono t := by
  obtain hpc | ⟨hunread, hpc | hpc⟩ := hs.loop
  · by_cases hunread : s.unread = []
    · exact ⟨_, hs.end_of_file hpc hunread⟩
    · exact ⟨_, hs.read hpc hunread⟩
  · exact ⟨_, hs.check hpc hunread hpending⟩
  · exact ⟨_, hs.reopen hpc hunread hpending⟩

/-- The loop alone reads every line of the old file and of the new one. -/
theorem Reaching.catch_up {chrono : Chrono} {s : Tail} (hs : s.Reaching chrono) :
    ∃ n t, (tail chrono).Run SwitchesInOrder s (List.replicate n .advance) t ∧
      t.Reaching chrono ∧ t.appended = s.appended ∧ t.pending = [] := by
  obtain ⟨n, t, hrun, ⟨hreaching, happended⟩, hdone⟩ := @Machine.exists_run_to_done _ _ (tail chrono)
    SwitchesInOrder Nat _ _ (fun t => t.Reaching chrono ∧ t.appended = s.appended)
    (fun t => t.pending = []) distance .advance (by
      rintro u ⟨hu, happended⟩ hpending
      obtain ⟨t, horder, hadvance, ht, hsame, hlt⟩ := hu.advance hpending
      exact ⟨⟨trivial, fun _ => horder⟩, t, hadvance, ⟨ht, hsame.trans happended⟩, hlt⟩)
    s ⟨hs, rfl⟩
  exact ⟨n, t, hrun, hreaching, happended, hdone⟩

end Tail

/-- While every new file is met in order, what is sent are the entries of the first of the
lines written to the files, in order and once each, and the others are unread. Left to
itself at the top of its loop, with nothing written to a file that is gone from the path, the
loop goes on to send them all. -/
theorem rotated_lines_are_sent (chrono : Chrono) (retired : List Bytes) (path : Option Bytes)
    {events : List Tail.Event} {s : Tail}
    (hrun : (tail chrono).Run Tail.SwitchesInOrder (Tail.start retired path) events s) :
    (s.tailing = true → s.Accounted chrono) ∧
      (s.tailing = true → s.pc = .reading → s.shutdown = false → s.InReach →
        ∃ n t, (tail chrono).Run Tail.SwitchesInOrder s (List.replicate n .advance) t ∧
          t.appended = s.appended ∧ t.Accounted chrono ∧ t.pending = []) := by
  have hinstep : s.InStep chrono :=
    hrun.invariant (Or.inl (Tail.starting_start retired path))
      fun t event u ht hallowed hstep => ht.step hallowed hstep
  have htracking (htailing : s.tailing = true) : s.Tracking chrono := by
    obtain hs | hs := hinstep
    · rw [hs.tailing] at htailing
      cases htailing
    · exact hs
  refine ⟨fun htailing => (htracking htailing).sound.accounted, ?_⟩
  intro htailing hpc hshutdown hreach
  obtain ⟨n, t, hsteps, ht, happended, hdone⟩ :=
    (Tail.Reaching.mk (htracking htailing) hshutdown hreach (Or.inl hpc)).catch_up
  exact ⟨n, t, hsteps, happended, ht.tracking.sound.accounted, hdone⟩

/-- A line is written to the old file after its end was read, and the rotation comes before
the inode is looked at. -/
def late_line : List Tail.Event :=
  [.advance, .advance, .advance, .advance, .write (render ["late".toList]), .rename, .create, .advance,
    .advance]

/-- The path is empty when the inode is looked at, and the new file is there when it is
opened. -/
def late_file : List Tail.Event :=
  [.advance, .advance, .advance, .advance, .rename, .advance, .create, .advance,
    .write (render ["twice".toList]), .advance, .advance, .advance, .advance, .advance]

/-- A step of the loop, one of a rotation, or one of the lines. -/
def Tail.Writing (lines : List Str) (event : Tail.Event) : Prop :=
  event = .advance ∨ event = .rename ∨ event = .create ∨ ∃ line ∈ lines, event = .write (render [line])

instance (lines : List Str) (event : Tail.Event) : Decidable (Tail.Writing lines event) := by
  unfold Tail.Writing
  infer_instance

theorem Tail.Writing.rotating {lines : List Str} (hsingle : Single lines) {event : Tail.Event}
    (hevent : Tail.Writing lines event) (s : Tail) : s.Rotating event := by
  obtain rfl | rfl | rfl | ⟨line, hline, rfl⟩ := hevent
  · trivial
  · trivial
  · trivial
  · exact ⟨[line], single_of_line (hsingle line hline), rfl⟩

/-- A rotation can lose a line, and one can repeat a line. -/
theorem rotated_lines_lost_and_repeated :
    (∃ s, (tail no_times).Run Tail.Rotating (Tail.start [] (some [])) late_line s ∧
      s.tailing = true ∧ ¬ s.Accounted no_times) ∧
    (∃ s, (tail no_times).Run Tail.Rotating (Tail.start [] (some [])) late_file s ∧
      s.tailing = true ∧ ¬ s.Accounted no_times) := by
  constructor
  · have hsingle : Single ["late".toList] := single_of_line (by decide)
    have hexec : ((tail no_times).exec (fun _ => Tail.Writing ["late".toList]) (Tail.start [] (some []))
        late_line).any (fun s => s.tailing &&
          decide (s.appended = render ["late".toList] ∧ s.pending = [] ∧ s.sent = [])) = true := by
      rfl
    obtain ⟨s, hrun, htest⟩ := Machine.exists_run_of_exec _ hexec
    obtain ⟨htailing, hlost⟩ := (Bool.and_eq_true _ _).mp htest
    obtain ⟨happended, hpending, hsent⟩ := of_decide_eq_true hlost
    refine ⟨s, hrun.mono fun s _ hevent => hevent.rotating hsingle s, htailing, ?_⟩
    rintro ⟨lines, hlines, heq, hentries⟩
    rw [happended, hpending, List.append_nil] at heq
    have hlines : lines = ["late".toList] := render_inj hlines hsingle heq.symm
    rw [hsent, hlines] at hentries
    have hsome : entries no_times ["late".toList] ≠ [] := by decide
    exact hsome hentries.symm
  · have hexec : ((tail no_times).exec (fun _ => Tail.Writing ["twice".toList]) (Tail.start [] (some []))
        late_file).any (fun s => s.tailing &&
          decide (s.appended.count NEWLINE < s.sent.length)) = true := by
      rfl
    obtain ⟨s, hrun, htest⟩ := Machine.exists_run_of_exec _ hexec
    obtain ⟨htailing, hmore⟩ := (Bool.and_eq_true _ _).mp htest
    refine ⟨s, hrun.mono fun s _ hevent => hevent.rotating (single_of_line (by decide)) s, htailing,
      fun haccounted => ?_⟩
    have hle := haccounted.length_sent
    have hlt := of_decide_eq_true hmore
    omega

/-- A rotation after the old file was read to its end. -/
def new_file : List Tail.Event :=
  [.advance, .advance, .advance, .write (render ["old".toList]), .advance, .rename, .create,
    .write (render ["new".toList]), .advance, .advance, .advance, .advance]

theorem new_file_is_read :
    ∃ s, (tail no_times).Run Tail.SwitchesInOrder (Tail.start [] (some [])) new_file s ∧
      s.sent.length = 2 ∧ s.Accounted no_times := by
  have hsingle : Single ["old".toList, "new".toList] := by
    unfold Single
    decide
  have hexec : ((tail no_times).exec
      (fun s event => Tail.Writing ["old".toList, "new".toList] event ∧ (event = .advance → s.InOrder))
      (Tail.start [] (some [])) new_file).any (fun s => s.tailing && decide (s.sent.length = 2)) = true := by
    rfl
  obtain ⟨s, hexecuted, htest⟩ := Machine.exists_run_of_exec _ hexec
  obtain ⟨htailing, htwo⟩ := (Bool.and_eq_true _ _).mp htest
  have hrun : (tail no_times).Run Tail.SwitchesInOrder (Tail.start [] (some [])) new_file s :=
    hexecuted.mono fun s event hevent => ⟨hevent.1.rotating hsingle s, hevent.2⟩
  exact ⟨s, hrun, of_decide_eq_true htwo, (rotated_lines_are_sent no_times [] _ hrun).1 htailing⟩

end spotflowd.sources.syslog
