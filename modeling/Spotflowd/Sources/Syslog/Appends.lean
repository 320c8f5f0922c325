import Spotflowd.Sources.Syslog.Tail

open lines str
open spotflowd.log_entry

namespace spotflowd.sources.syslog

/-- One file, and a text that is appended to it piece by piece after the first seek. -/
def Tail.Appending (text : Str) (s : Tail) : Tail.Event → Prop
  | .write bytes => s.tailing = true → s.appended ++ bytes <+: encode text
  | .advance => True
  | .shut_down => True
  | .rename => False
  | .create => False
  | .hang_up => False

/-- No call of `read_line` finds an unfinished line alone. -/
def Tail.ReadsWholeLines (text : Str) (s : Tail) (event : Tail.Event) : Prop :=
  s.Appending text event ∧
    (event = .advance → s.pc = .reading → s.shutdown = false → s.unread = [] ∨ NEWLINE ∈ s.unread)

namespace Tail

instance (text : Str) (s : Tail) (event : Event) : Decidable (s.Appending text event) := by
  cases event <;> unfold Appending <;> infer_instance

instance (text : Str) (s : Tail) (event : Event) : Decidable (s.ReadsWholeLines text event) := by
  unfold ReadsWholeLines
  infer_instance

/-- What holds while one file is tailed. -/
structure Following (chrono : Chrono) (text : Str) (s : Tail) : Prop where
  closed : s.closed = false
  path : s.path.isSome = true
  fresh : s.tailing = false → s.appended = [] ∧ s.sent = [] ∧
    (s.pc = .opening ∨ s.pc = .seeking ∧ s.file = s.retired.length)
  sound : s.tailing = true → s.Sound chrono
  appended : s.tailing = true → s.appended <+: encode text
  newest : s.tailing = true → s.file = s.retired.length
  loop : s.tailing = true → s.pc = .identifying ∨ s.pc = .reading ∨ s.pc = .checking ∨ s.pc = .stopped
  inode : s.pc = .reading ∨ s.pc = .checking → s.current_inode = s.inode_of

theorem following_start (chrono : Chrono) (text : Str) (retired : List Bytes) (content : Bytes) :
    (start retired (some content)).Following chrono text where
  closed := rfl
  path := rfl
  fresh _ := ⟨rfl, rfl, Or.inl rfl⟩
  sound h := by cases h
  appended h := by cases h
  newest h := by cases h
  loop h := by cases h
  inode h := by
    obtain h | h := h <;> cases h

theorem Following.pending {chrono : Chrono} {text : Str} {s : Tail} (hs : s.Following chrono text)
    (htailing : s.tailing = true) : s.pending = s.unread := by
  obtain ⟨content, hpath⟩ := Option.isSome_iff_exists.mp hs.path
  rw [Tail.pending, later_of_newest hpath (hs.newest htailing)]
  simp

/-- Unread bytes with a newline begin with a line of the text. -/
theorem Following.line {chrono : Chrono} {text : Str} {s : Tail} (hs : s.Following chrono text)
    (htailing : s.tailing = true) (hnewline : NEWLINE ∈ s.unread) :
    ∃ line rest, '\n' ∉ line ∧ s.unread = encode line ++ NEWLINE :: rest := by
  obtain ⟨lines, hsingle, heq, -⟩ := (hs.sound htailing).accounted
  have hstarts := hs.appended htailing
  rw [heq, hs.pending htailing] at hstarts
  obtain ⟨rest, -, hunread⟩ := prefix_of_encode_append hstarts
  exact line_of_newline hunread hnewline

theorem Following.write {chrono : Chrono} {text : Str} {s t : Tail} {bytes : Bytes}
    (hs : s.Following chrono text) (hallowed : s.Appending text (.write bytes))
    (hstep : s.step chrono (.write bytes) = some t) : t.Following chrono text := by
  have hsound := fun htailing => (hs.sound htailing).write htailing hstep
  obtain ⟨content, hpath, rfl⟩ := Option.map_eq_some_iff.mp hstep
  refine ⟨hs.closed, rfl, fun htailing => ?_, hsound, fun htailing => ?_, hs.newest, hs.loop, fun hpc => ?_⟩
  · obtain ⟨happended, hsent, hpc⟩ := hs.fresh htailing
    refine ⟨?_, hsent, hpc⟩
    have hnot : s.tailing = false := htailing
    simp [hnot, happended]
  · have hyes : s.tailing = true := htailing
    simp only [hyes, if_true]
    exact hallowed hyes
  · rw [hs.inode hpc, inode_of, inode_of, hpath]
    rfl

/-- A step that stays in the file and sends nothing. -/
theorem Following.moved {chrono : Chrono} {text : Str} {s : Tail} (hs : s.Following chrono text)
    (htailing : s.tailing = true) {pc : Pc} {current_inode : Option Nat}
    (hpc : pc = .reading ∨ pc = .checking ∨ pc = .stopped)
    (hinode : pc = .reading ∨ pc = .checking → current_inode = s.inode_of) :
    Following chrono text { s with pc := pc, current_inode := current_inode } where
  closed := hs.closed
  path := hs.path
  fresh h := by
    rw [show s.tailing = false from h] at htailing
    cases htailing
  sound h := (hs.sound h).of_same rfl rfl rfl rfl rfl
  appended := hs.appended
  newest := hs.newest
  loop _ := Or.inr hpc
  inode := hinode

theorem Following.open_file {chrono : Chrono} {text : Str} {s t : Tail} (hs : s.Following chrono text)
    (htailing : s.tailing = false) (hstep : s.advance chrono = some t) : t.Following chrono text := by
  obtain ⟨content, hpath⟩ := Option.isSome_iff_exists.mp hs.path
  have hnot {P : Prop} (h : s.tailing = true) : P := by
    rw [h] at htailing
    cases htailing
  obtain ⟨happended, hsent, hpc | ⟨hpc, hfile⟩⟩ := hs.fresh htailing
  · have hinode : s.inode_of = some s.retired.length := by
      rw [inode_of, hpath]
      rfl
    simp only [Tail.advance, hpc, hinode, Option.some.injEq] at hstep
    subst hstep
    refine ⟨hs.closed, hs.path, fun _ => ⟨happended, hsent, Or.inr ⟨rfl, rfl⟩⟩, hnot, hnot, hnot, hnot, ?_⟩
    rintro (h | h) <;> cases h
  · simp only [Tail.advance, hpc, Option.some.injEq] at hstep
    subst hstep
    refine ⟨hs.closed, hs.path, (fun h => by cases h), fun _ => ⟨⟨?_, ?_⟩, [], ?_, ?_, hsent⟩, fun _ => ?_,
      fun _ => hfile, fun _ => Or.inl rfl, ?_⟩
    · change s.file < s.files.length
      rw [files_of_path hpath, hfile, List.length_append]
      exact Nat.lt_succ_self _
    · exact Nat.le_refl _
    · intro line hline
      cases hline
    · have hlater : s.later = [] := later_of_newest hpath hfile
      change s.appended = render [] ++ (s.content.drop s.content.length ++ s.later.flatten)
      rw [happended, hlater, List.drop_length]
      rfl
    · change s.appended <+: encode text
      rw [happended]
      exact List.nil_prefix
    · rintro (h | h) <;> cases h

theorem Following.read_line {chrono : Chrono} {text : Str} {s : Tail} (hs : s.Following chrono text)
    (htailing : s.tailing = true) {line : Str} {rest : Bytes} (hline : '\n' ∉ line)
    (hunread : s.unread = encode line ++ NEWLINE :: rest) : (s.read_line chrono).Following chrono text := by
  have hsound := ((hs.sound htailing).read_line hs.closed hline hunread).1
  rw [read_line_eq hline hunread hs.closed] at hsound ⊢
  refine ⟨hs.closed, hs.path, fun h => ?_, fun _ => hsound, hs.appended, hs.newest, hs.loop, hs.inode⟩
  rw [show s.tailing = false from h] at htailing
  cases htailing

theorem Following.advance {chrono : Chrono} {text : Str} {s t : Tail} (hs : s.Following chrono text)
    (hreads : s.pc = .reading → s.shutdown = false → s.unread = [] ∨ NEWLINE ∈ s.unread)
    (hstep : s.advance chrono = some t) : t.Following chrono text := by
  cases htailing : s.tailing with
  | false => exact hs.open_file htailing hstep
  | true =>
    obtain hpc | hpc | hpc | hpc := hs.loop htailing
    · simp only [Tail.advance, hpc, Option.some.injEq] at hstep
      subst hstep
      exact hs.moved htailing (Or.inl rfl) fun _ => rfl
    · simp only [Tail.advance, hpc, Option.some.injEq] at hstep
      by_cases hshutdown : s.shutdown = true
      · rw [if_pos hshutdown] at hstep
        subst hstep
        exact hs.moved htailing (Or.inr (Or.inr rfl)) fun h => by obtain h | h := h <;> cases h
      · rw [if_neg hshutdown] at hstep
        subst hstep
        obtain hunread | hnewline := hreads hpc (by simpa using hshutdown)
        · rw [read_line_of_unread_nil hunread]
          exact hs.moved htailing (Or.inr (Or.inl rfl)) fun _ => hs.inode (Or.inl hpc)
        · obtain ⟨line, rest, hline, hunread⟩ := hs.line htailing hnewline
          exact hs.read_line htailing hline hunread
    · have hinode := hs.inode (Or.inr hpc)
      simp only [Tail.advance, hpc, Option.some.injEq, hinode, ne_eq, not_true_eq_false, if_false] at hstep
      subst hstep
      exact hs.moved htailing (Or.inl rfl) fun _ => rfl
    · simp only [Tail.advance, hpc, reduceCtorEq] at hstep

theorem Following.step {chrono : Chrono} {text : Str} {s t : Tail} {event : Event}
    (hs : s.Following chrono text) (hallowed : s.ReadsWholeLines text event)
    (hstep : s.step chrono event = some t) : t.Following chrono text := by
  cases event with
  | write bytes => exact hs.write hallowed.1 hstep
  | rename => exact hallowed.1.elim
  | create => exact hallowed.1.elim
  | hang_up => exact hallowed.1.elim
  | shut_down =>
    cases hstep
    exact ⟨hs.closed, hs.path, hs.fresh, fun h => (hs.sound h).of_same rfl rfl rfl rfl rfl, hs.appended,
      hs.newest, hs.loop, hs.inode⟩
  | advance => exact hs.advance (hallowed.2 rfl) hstep

/-- The loop runs and is not told to stop. -/
structure Running (chrono : Chrono) (text : Str) (s : Tail) : Prop where
  following : s.Following chrono text
  tailing : s.tailing = true
  pc : s.pc ≠ .stopped
  shutdown : s.shutdown = false

/-- What is left to read, and whether the loop is at its top. -/
def backlog (s : Tail) : Nat := 2 * s.unread.length + if s.pc = .reading then 0 else 1

theorem Running.advance {chrono : Chrono} {text : Str} {s : Tail} (hs : s.Running chrono text)
    (hnewline : NEWLINE ∈ s.unread) :
    ∃ t, s.advance chrono = some t ∧ t.Running chrono text ∧ t.appended = s.appended ∧
      t.backlog < s.backlog := by
  have hfollowing := hs.following
  have hstep {t : Tail} (h : s.advance chrono = some t) : t.Following chrono text :=
    hfollowing.advance (fun _ _ => Or.inr hnewline) h
  obtain hpc | hpc | hpc | hpc := hfollowing.loop hs.tailing
  · have hadvance : s.advance chrono = some { s with current_inode := s.inode_of, pc := .reading } := by
      simp only [Tail.advance, hpc]
    refine ⟨_, hadvance, ⟨hstep hadvance, hs.tailing, by simp, hs.shutdown⟩, rfl, ?_⟩
    simp [backlog, hpc, unread, content, files]
  · obtain ⟨line, rest, hline, hunread⟩ := hfollowing.line hs.tailing hnewline
    have hadvance : s.advance chrono = some (s.read_line chrono) := by
      simp [Tail.advance, hpc, hs.shutdown]
    have hrest := ((hfollowing.sound hs.tailing).read_line hfollowing.closed hline hunread).2
    have hread := @read_line_eq chrono s line rest hline hunread hfollowing.closed
    have hpc' : (s.read_line chrono).pc = .reading := by rw [hread]; exact hpc
    refine ⟨_, hadvance, ⟨hstep hadvance, ?_, ?_, ?_⟩, ?_, ?_⟩
    · rw [hread]
      exact hs.tailing
    · rw [hpc']
      simp
    · rw [hread]
      exact hs.shutdown
    · rw [hread]
    · rw [backlog, backlog, hrest, hunread, if_pos hpc', if_pos hpc, List.length_append, List.length_cons]
      omega
  · have hadvance : s.advance chrono = some { s with pc := .reading } := by
      simp [Tail.advance, hpc, hfollowing.inode (Or.inr hpc)]
    refine ⟨_, hadvance, ⟨hstep hadvance, hs.tailing, by simp, hs.shutdown⟩, rfl, ?_⟩
    simp [backlog, hpc, unread, content, files]
  · exact absurd hpc hs.pc

/-- The loop alone reads every line that is complete. -/
theorem Running.catch_up {chrono : Chrono} {text : Str} {s : Tail} (hs : s.Running chrono text) :
    ∃ n t, (tail chrono).Run (ReadsWholeLines text) s (List.replicate n .advance) t ∧
      t.Running chrono text ∧ t.appended = s.appended ∧ NEWLINE ∉ t.unread := by
  obtain ⟨n, t, hrun, ⟨hrunning, happended⟩, hdone⟩ := @Machine.exists_run_to_done _ _ (tail chrono)
    (ReadsWholeLines text) Nat _ _ (fun t => t.Running chrono text ∧ t.appended = s.appended)
    (fun t => NEWLINE ∉ t.unread) backlog .advance (by
      rintro u ⟨hu, happended⟩ hnot
      have hnewline : NEWLINE ∈ u.unread := not_not.mp hnot
      obtain ⟨t, hadvance, ht, hsame, hlt⟩ := hu.advance hnewline
      exact ⟨⟨trivial, fun _ _ _ => Or.inr hnewline⟩, t, hadvance, ⟨ht, hsame.trans happended⟩, hlt⟩)
    s ⟨hs, rfl⟩
  exact ⟨n, t, hrun, hrunning, happended, hdone⟩

end Tail

/-- While no read finds an unfinished line alone, what is sent are the entries of the lines
read, which are the first of those appended, in order and once each; the rest is unread. Left
to itself, a loop that is not told to stop goes on to read every complete line. -/
theorem appended_lines_are_sent (chrono : Chrono) (text : Str) (retired : List Bytes) (content : Bytes)
    {events : List Tail.Event} {s : Tail}
    (hrun : (tail chrono).Run (Tail.ReadsWholeLines text) (Tail.start retired (some content)) events s) :
    (s.tailing = true → s.Accounted chrono ∧ s.pending = s.unread) ∧
      (s.tailing = true → s.pc ≠ .stopped → s.shutdown = false →
        ∃ n t, (tail chrono).Run (Tail.ReadsWholeLines text) s (List.replicate n .advance) t ∧
          t.appended = s.appended ∧ t.Accounted chrono ∧ NEWLINE ∉ t.pending) := by
  have hfollowing : s.Following chrono text :=
    hrun.invariant (Tail.following_start chrono text retired content)
      fun t event u ht hallowed hstep => ht.step hallowed hstep
  refine ⟨fun htailing => ⟨(hfollowing.sound htailing).accounted, hfollowing.pending htailing⟩, ?_⟩
  intro htailing hpc hshutdown
  obtain ⟨n, t, hsteps, ht, happended, hdone⟩ :=
    (Tail.Running.mk hfollowing htailing hpc hshutdown).catch_up
  refine ⟨n, t, hsteps, happended, (ht.following.sound ht.tailing).accounted, ?_⟩
  rwa [ht.following.pending ht.tailing]

/-- `hello` is appended in two pieces, and the file is read after each of them. -/
def hello_in_two : List Tail.Event :=
  [.advance, .advance, .advance, .write (encode "hel".toList), .advance,
    .write (encode "lo\n".toList), .advance]

/-- A line that is read before it is finished is sent in two parts. -/
theorem unfinished_line_is_sent :
    ∃ s, (tail no_times).Run (Tail.Appending "hello\n".toList) (Tail.start [] (some [])) hello_in_two s ∧
      s.tailing = true ∧ ¬ s.Accounted no_times := by
  have hexec : ((tail no_times).exec (Tail.Appending "hello\n".toList) (Tail.start [] (some []))
      hello_in_two).any (fun s => s.tailing && decide (s.appended.count NEWLINE < s.sent.length)) = true := by
    rfl
  obtain ⟨s, hrun, htest⟩ := Machine.exists_run_of_exec _ hexec
  obtain ⟨htailing, hmore⟩ := (Bool.and_eq_true _ _).mp htest
  refine ⟨s, hrun, htailing, fun haccounted => ?_⟩
  have hle := haccounted.length_sent
  have hlt := of_decide_eq_true hmore
  omega

/-- Two lines are appended in three pieces, and the file is read after the last of them. -/
def hello_world_in_three : List Tail.Event :=
  [.advance, .advance, .advance, .write (encode "hel".toList), .write (encode "lo\nwor".toList),
    .write (encode "ld\n".toList), .advance, .advance]

theorem finished_lines_are_sent :
    ∃ s, (tail no_times).Run (Tail.ReadsWholeLines "hello\nworld\n".toList) (Tail.start [] (some []))
        hello_world_in_three s ∧
      s.sent.length = 2 ∧ s.Accounted no_times := by
  have hexec : ((tail no_times).exec (Tail.ReadsWholeLines "hello\nworld\n".toList)
      (Tail.start [] (some [])) hello_world_in_three).any
        (fun s => s.tailing && decide (s.sent.length = 2)) = true := by
    rfl
  obtain ⟨s, hrun, htest⟩ := Machine.exists_run_of_exec _ hexec
  obtain ⟨htailing, htwo⟩ := (Bool.and_eq_true _ _).mp htest
  exact ⟨s, hrun, of_decide_eq_true htwo, ((appended_lines_are_sent no_times _ [] [] hrun).1 htailing).1⟩

end spotflowd.sources.syslog
