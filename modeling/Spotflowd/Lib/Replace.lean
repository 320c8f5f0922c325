import Spotflowd.Lib.Confined
import Spotflowd.Lib.Machine

open effect fs

namespace replace

/-- A file, and the name under which its new content is written before it is renamed. -/
structure Target where
  name : FileName
  tmp : FileName
  apart : name ≠ tmp

/-- Where a task stands that replaces the file: the call that comes next. There may be no content,
which shows after the first call. -/
inductive Pc where
  | idle
  | creating (content : Option Bytes)
  | writing (content : Bytes)
  | placing (content : Bytes)
deriving DecidableEq

namespace Target

variable (target : Target)

def own (name : FileName) : Prop := name = target.name ∨ name = target.tmp

/-- The next call, and where the task stands after it. -/
def call : Pc → FsM Pc
  | .idle => pure .idle
  | .creating content => do
    create_dir_all
    return content.elim .idle .writing
  | .writing content => do
    write target.tmp content
    return .placing content
  | .placing _ => do
    rename target.tmp target.name
    return .idle

/-- All calls, one after another. -/
def put (content : Option Bytes) : FsM Unit := do
  create_dir_all
  match content with
  | none => return ()
  | some bytes =>
    write target.tmp bytes
    rename target.tmp target.name

/-- The next call; a failure ends the attempt. -/
def proceed (state : Pc × Fs) : Pc × Fs :=
  match target.call state.1 state.2 with
  | .ok pc s => (pc, s)
  | .error _ s => (.idle, s)

/-- Three calls in a row replace the file, or fail as replacing it does. -/
theorem proceed_put (content : Option Bytes) (s : Fs) :
    target.proceed (target.proceed (target.proceed (.creating content, s))) =
      (.idle, finalState (target.put content s)) := by
  unfold put
  rw [bind_run]
  simp only [proceed, call, bind_run]
  cases create_dir_all s with
  | error e t => rfl
  | ok _ t =>
    cases content with
    | none => rfl
    | some bytes =>
      simp only [pure_run, Option.elim_some, bind_run]
      cases write target.tmp bytes t with
      | error e u => rfl
      | ok _ u =>
        simp only [pure_run, bind_run]
        cases rename target.tmp target.name u <;> rfl

theorem call_confined (pc : Pc) : effect.Respects (Confined target.own) (target.call pc) := by
  cases pc with
  | idle => exact effect.Respects.pure Confined.refl _
  | creating content =>
    exact effect.Respects.bind Confined.trans create_dir_all_confined
      fun _ => effect.Respects.pure Confined.refl _
  | writing content =>
    exact effect.Respects.bind Confined.trans (write_confined (Or.inr rfl) content)
      fun _ => effect.Respects.pure Confined.refl _
  | placing content =>
    exact effect.Respects.bind Confined.trans (rename_confined (Or.inr rfl) (Or.inl rfl))
      fun _ => effect.Respects.pure Confined.refl _

theorem proceed_confined (state : Pc × Fs) : Confined target.own state.2 (target.proceed state).2 := by
  have hcall := target.call_confined state.1 state.2
  unfold proceed
  cases hrun : target.call state.1 state.2 with
  | ok pc t =>
    rw [hrun] at hcall
    exact hcall
  | error e t =>
    rw [hrun] at hcall
    exact hcall

/-- Before the rename, only the temporary name is written. -/
theorem lookup_call {pc : Pc} (hpc : ∀ content, pc ≠ .placing content) (s : Fs) :
    (finalState (target.call pc s)).files.lookup target.name = s.files.lookup target.name := by
  have hwrite : ∀ content,
      effect.Respects (Confined fun name => name = target.tmp) (write target.tmp content) :=
    @write_confined (fun name => name = target.tmp) target.tmp rfl
  have hconfined : effect.Respects (Confined fun name => name = target.tmp) (target.call pc) := by
    cases pc with
    | idle => exact effect.Respects.pure Confined.refl _
    | creating content =>
      exact effect.Respects.bind Confined.trans create_dir_all_confined
        fun _ => effect.Respects.pure Confined.refl _
    | writing content =>
      exact effect.Respects.bind Confined.trans (hwrite content)
        fun _ => effect.Respects.pure Confined.refl _
    | placing content => exact absurd rfl (hpc content)
  exact hconfined s target.name target.apart

end Target

/-- How a value is kept in a file: what its encodings are, what a file, or none, is read as, and
how the value may go on. -/
structure Keeper (V : Type) where
  target : Target
  encodes : V → Bytes → Prop
  reads : Option Bytes → V → Prop
  progress : V → V → Prop
  reads_encoding : ∀ {v bytes}, encodes v bytes → reads (some bytes) v
  progress_refl : ∀ v, progress v v
  progress_trans : ∀ {u v w}, progress u v → progress v w → progress u w
  progress_reads : ∀ {content u v}, reads content u → reads content v → progress u v

/-- A task with its value, the directory it shares with others, and, as a history variable, the
value that was saved last. -/
structure State (V : Type) where
  value : V
  saved : V
  pc : Pc
  fs : Fs

/-- The value goes on; the task begins to save it or makes its next call; other tasks change the
directory; or the process has died and starts again with what it reads. -/
inductive Event (V : Type) where
  | change (value : V)
  | save (content : Option Bytes)
  | call
  | others (fs : Fs)
  | restart (value : V)

/-- A step of the task itself. -/
def Event.own {V : Type} : Event V → Prop
  | .others _ => False
  | _ => True

/-- The next call puts the file in place. -/
def Pc.commits : Pc → Bool
  | .placing _ => true
  | _ => false

namespace Keeper

variable {V : Type} (k : Keeper V)

/-- The next call. -/
def call (s : State V) : State V :=
  match k.target.call s.pc s.fs with
  | .ok pc fs => { s with pc := pc, fs := fs, saved := if s.pc.commits then s.value else s.saved }
  | .error _ fs => { s with pc := .idle, fs := fs }

def machine : Machine (State V) (Event V) where
  step s
    | .change value => if s.pc = .idle then some { s with value := value } else none
    | .save content => if s.pc = .idle then some { s with pc := .creating content } else none
    | .call => some (k.call s)
    | .others fs => some { s with fs := fs }
    | .restart value => some { s with value := value, saved := value, pc := .idle }

/-- The value goes on as it may, what is saved encodes it, other tasks leave the two files alone,
and the process starts again with what the file is read as. -/
def Allowed (s : State V) : Event V → Prop
  | .change value => k.progress s.value value
  | .save content => ∀ bytes ∈ content, k.encodes s.value bytes
  | .call => True
  | .others fs => Confined (fun name => ¬ k.target.own name) s.fs fs
  | .restart value => k.reads (s.fs.files.lookup k.target.name) value

/-- What is being written encodes the value, and once it is written it is there. -/
def Underway (value : V) (fs : Fs) : Pc → Prop
  | .idle => True
  | .creating content => ∀ bytes ∈ content, k.encodes value bytes
  | .writing content => k.encodes value content
  | .placing content => k.encodes value content ∧ fs.files.lookup k.target.tmp = some content

/-- The file is read as the value that was saved last, and the value has gone on from it. -/
structure Sound (s : State V) : Prop where
  reads : k.reads (s.fs.files.lookup k.target.name) s.saved
  progress : k.progress s.saved s.value
  underway : k.Underway s.value s.fs s.pc

variable {k}

theorem Sound.start {value : V} {fs : Fs} (hreads : k.reads (fs.files.lookup k.target.name) value) :
    k.Sound ⟨value, value, .idle, fs⟩ :=
  ⟨hreads, k.progress_refl value, trivial⟩

/-- What the calls before the rename lead to. -/
theorem call_underway {value : V} {s t : Fs} {pc next : Pc} (hunderway : k.Underway value s pc)
    (hpc : ∀ content, pc ≠ .placing content) (hok : k.target.call pc s = .ok next t) :
    k.Underway value t next := by
  cases pc with
  | idle =>
    cases hok
    trivial
  | creating content =>
    obtain ⟨_, _, _, hok⟩ := bind_eq_ok_iff.mp hok
    cases hok
    cases content with
    | none => trivial
    | some bytes => exact hunderway bytes rfl
  | writing content =>
    obtain ⟨_, _, hwrite, hok⟩ := bind_eq_ok_iff.mp hok
    cases hok
    refine ⟨hunderway, ?_⟩
    rw [(write_ok hwrite).1, AList.lookup_insert]
  | placing content => exact absurd rfl (hpc content)

theorem Sound.placed {s : State V} (hsound : k.Sound s) {content : Bytes}
    (hpc : s.pc = .placing content) {t : Fs} {next : Pc}
    (hok : k.target.call (.placing content) s.fs = .ok next t) :
    k.Sound { s with pc := next, fs := t, saved := s.value } := by
  have hunderway := hsound.underway
  rw [hpc] at hunderway
  obtain ⟨hencodes, htmp⟩ := hunderway
  obtain ⟨_, _, hrename, hok⟩ := bind_eq_ok_iff.mp hok
  cases hok
  obtain ⟨placed, hplaced, hrenamed, -, -⟩ := rename_ok hrename
  obtain rfl : placed = content := by
    rw [htmp] at hplaced
    exact (Option.some.inj hplaced).symm
  refine ⟨?_, k.progress_refl s.value, trivial⟩
  dsimp only
  rw [hrenamed, AList.lookup_insert]
  exact k.reads_encoding hencodes

/-- A call leaves the file as it was, or puts the value in place, whole. -/
theorem Sound.call {s : State V} (hsound : k.Sound s) : k.Sound (k.call s) := by
  unfold Keeper.call
  by_cases hplacing : ∃ content, s.pc = .placing content
  · obtain ⟨content, hpc⟩ := hplacing
    cases hcall : k.target.call s.pc s.fs with
    | ok next t =>
      rw [hpc] at hcall
      dsimp only
      rw [hpc]
      exact hsound.placed hpc hcall
    | error e t =>
      rw [hpc] at hcall
      obtain hrename | ⟨_, _, _, hrest⟩ := bind_eq_error_iff.mp hcall
      · refine ⟨?_, hsound.progress, trivial⟩
        dsimp only
        rw [(rename_error hrename).1]
        exact hsound.reads
      · cases hrest
  · have hpc : ∀ content, s.pc ≠ .placing content := fun content h => hplacing ⟨content, h⟩
    have hlookup := k.target.lookup_call hpc s.fs
    cases hcall : k.target.call s.pc s.fs with
    | ok next t =>
      rw [hcall] at hlookup
      have hcommits : s.pc.commits = false := by
        cases hs : s.pc with
        | placing content => exact absurd hs (hpc content)
        | _ => rfl
      dsimp only
      rw [hcommits]
      refine ⟨?_, hsound.progress, call_underway hsound.underway hpc hcall⟩
      exact hlookup ▸ hsound.reads
    | error e t =>
      rw [hcall] at hlookup
      refine ⟨?_, hsound.progress, trivial⟩
      exact hlookup ▸ hsound.reads

/-- A call saves nothing or the value. -/
theorem saved_call (s : State V) : (k.call s).saved = s.saved ∨ (k.call s).saved = s.value := by
  unfold Keeper.call
  split
  · dsimp only
    split
    · exact Or.inr rfl
    · exact Or.inl rfl
  · exact Or.inl rfl

theorem Underway.others {value : V} {s t : Fs} {pc : Pc} (hunderway : k.Underway value s pc)
    (htmp : t.files.lookup k.target.tmp = s.files.lookup k.target.tmp) : k.Underway value t pc := by
  cases pc with
  | placing content => exact ⟨hunderway.1, htmp.trans hunderway.2⟩
  | _ => exact hunderway

theorem Sound.step {s t : State V} {event : Event V} (hsound : k.Sound s)
    (hallowed : k.Allowed s event) (hstep : k.machine.step s event = some t) :
    k.Sound t ∧ k.progress s.saved t.saved := by
  cases event with
  | change value =>
    simp only [machine, Option.ite_none_right_eq_some, Option.some.injEq] at hstep
    obtain ⟨hidle, rfl⟩ := hstep
    refine ⟨⟨hsound.reads, k.progress_trans hsound.progress hallowed, ?_⟩, k.progress_refl _⟩
    dsimp only
    rw [hidle]
    trivial
  | save content =>
    simp only [machine, Option.ite_none_right_eq_some, Option.some.injEq] at hstep
    obtain ⟨hidle, rfl⟩ := hstep
    exact ⟨⟨hsound.reads, hsound.progress, hallowed⟩, k.progress_refl _⟩
  | call =>
    obtain rfl := Option.some.inj hstep
    refine ⟨hsound.call, ?_⟩
    obtain hsame | hnew := @saved_call V k s
    · rw [hsame]
      exact k.progress_refl _
    · rw [hnew]
      exact hsound.progress
  | others fs =>
    obtain rfl := Option.some.inj hstep
    have hown : ∀ name, k.target.own name → fs.files.lookup name = s.fs.files.lookup name :=
      fun name hname => hallowed name fun hnot => hnot hname
    refine ⟨⟨?_, hsound.progress, hsound.underway.others (hown _ (Or.inr rfl))⟩, k.progress_refl _⟩
    dsimp only
    rw [hown _ (Or.inl rfl)]
    exact hsound.reads
  | restart value =>
    obtain rfl := Option.some.inj hstep
    exact ⟨.start hallowed, k.progress_reads hsound.reads hallowed⟩

/-- The task itself touches its two files only. -/
theorem step_confined {s t : State V} {event : Event V} (hown : event.own)
    (hstep : k.machine.step s event = some t) : Confined k.target.own s.fs t.fs := by
  cases event with
  | change value =>
    simp only [machine, Option.ite_none_right_eq_some, Option.some.injEq] at hstep
    obtain ⟨-, rfl⟩ := hstep
    exact Confined.refl _
  | save content =>
    simp only [machine, Option.ite_none_right_eq_some, Option.some.injEq] at hstep
    obtain ⟨-, rfl⟩ := hstep
    exact Confined.refl _
  | call =>
    obtain rfl := Option.some.inj hstep
    have hproceed := k.target.proceed_confined (s.pc, s.fs)
    unfold Target.proceed at hproceed
    unfold Keeper.call
    cases hrun : k.target.call s.pc s.fs with
    | ok pc u =>
      rw [hrun] at hproceed
      exact hproceed
    | error e u =>
      rw [hrun] at hproceed
      exact hproceed
  | others fs => exact hown.elim
  | restart value =>
    obtain rfl := Option.some.inj hstep
    exact Confined.refl _

/-- However the calls, the other tasks and the restarts interleave, the file is read as the value
that was saved last, and what is saved only goes on. -/
theorem Sound.run {s t : State V} {events : List (Event V)} (hsound : k.Sound s)
    (hrun : k.machine.Run k.Allowed s events t) : k.Sound t ∧ k.progress s.saved t.saved := by
  refine hrun.invariant (P := fun t => k.Sound t ∧ k.progress s.saved t.saved) ?_ ?_
  · exact ⟨hsound, k.progress_refl _⟩
  · rintro t event u ⟨ht, hprogress⟩ hallowed hstep
    obtain ⟨hu, hon⟩ := ht.step hallowed hstep
    exact ⟨hu, k.progress_trans hprogress hon⟩

end Keeper

end replace
