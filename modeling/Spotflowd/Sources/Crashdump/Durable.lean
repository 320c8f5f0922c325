import Spotflowd.Lib.Replace
import Spotflowd.Sources.Crashdump.Save

open effect fs path replace

namespace spotflowd.sources.crashdump

def state_file : Target where
  name := STATE_FILE_NAME
  tmp := tmp
  apart := state_file_ne_tmp

/-- What a state file, or none, is read as. -/
def parse_state (json : SerdeJson) (content : Option Bytes) : State :=
  content.elim {} fun bytes => (json.from_slice bytes).getD {}

def state_keeper (json : SerdeJson) (hjson : json.RoundTrips) : Keeper State where
  target := state_file
  encodes state bytes := json.to_vec state = some bytes
  reads content state := parse_state json content = state
  progress _ _ := True
  reads_encoding := by
    intro state bytes hbytes
    rw [parse_state, Option.elim_some, hjson state bytes hbytes, Option.getD_some]
  progress_refl _ := trivial
  progress_trans _ _ := trivial
  progress_reads _ _ := trivial

/-- A call on the state directory: the process dies, or the call fails or succeeds there. -/
theorem on_state_dir_cases {α : Type} (context : String) (x : FsM α) (s : World) :
    (∃ t, on_state_dir context x s = .error .crash t ∧ t.state_dir = s.state_dir) ∨
    (∃ e t, x s.state_dir = .error e t.state_dir ∧
      on_state_dir context x s = .error (.failed context) t) ∨
    ∃ a t, x s.state_dir = .ok a t.state_dir ∧ on_state_dir context x s = .ok a t ∧
      t.state = s.state := by
  rw [on_state_dir_run]
  by_cases hcrash : s.next.1.crash = true
  · rw [if_pos hcrash]
    exact Or.inl ⟨_, rfl, s.next_state_dir⟩
  · rw [if_neg hcrash]
    cases x s.state_dir with
    | ok a dir => exact Or.inr (Or.inr ⟨a, _, rfl, rfl, s.next_evolves.state⟩)
    | error e dir => exact Or.inr (Or.inl ⟨e, _, rfl, rfl⟩)

namespace Task

/-- However a save ends, it has made the first calls that replace the file: all of them, or those
up to a failure or the death of the process. -/
theorem save_calls (task : Task) (s : World) : ∃ k ≤ 3,
    (finalState (task.save s)).state_dir =
      (state_file.proceed^[k] (.creating (task.json.to_vec s.state), s.state_dir)).2 := by
  unfold save
  obtain ⟨t, hrun, hdir⟩ | ⟨e, t, hcreate, hrun⟩ | ⟨_, t, hcreate, hrun, hstate⟩ :=
    on_state_dir_cases ("create state dir " ++ task.state_dir) create_dir_all s
  · refine ⟨0, by omega, ?_⟩
    rw [bind_of_error hrun]
    exact hdir
  · refine ⟨1, by omega, ?_⟩
    rw [bind_of_error hrun, Function.iterate_one]
    simp [Target.proceed, Target.call, bind_run, hcreate]
  rw [bind_of_ok hrun, bind_of_ok (get_run t), hstate]
  have hfirst : state_file.proceed (.creating (task.json.to_vec s.state), s.state_dir) =
      ((task.json.to_vec s.state).elim .idle .writing, t.state_dir) := by
    simp [Target.proceed, Target.call, bind_run, hcreate]
  cases hbytes : task.json.to_vec s.state with
  | none =>
    refine ⟨1, by omega, ?_⟩
    rw [hbytes] at hfirst
    rw [Function.iterate_one, hfirst]
    rfl
  | some bytes =>
    rw [hbytes] at hfirst
    change ∃ k ≤ 3, (finalState ((on_state_dir ("write " ++ task.display tmp) (write tmp bytes) >>=
      fun _ => on_state_dir ("rename into " ++ task.display STATE_FILE_NAME)
        (rename tmp STATE_FILE_NAME)) t)).state_dir = _
    obtain ⟨u, hrun, hdir⟩ | ⟨e, u, hwrite, hrun⟩ | ⟨_, u, hwrite, hrun, -⟩ :=
      on_state_dir_cases ("write " ++ task.display tmp) (write tmp bytes) t
    · refine ⟨1, by omega, ?_⟩
      rw [bind_of_error hrun, Function.iterate_one, hfirst]
      exact hdir
    · refine ⟨2, by omega, ?_⟩
      rw [bind_of_error hrun, Function.iterate_succ_apply, Function.iterate_one, hfirst]
      simp [Target.proceed, Target.call, bind_run, state_file, hwrite]
    have hsecond : state_file.proceed (.writing bytes, t.state_dir) = (.placing bytes, u.state_dir) := by
      simp [Target.proceed, Target.call, bind_run, state_file, hwrite]
    rw [bind_of_ok hrun]
    obtain ⟨v, hrun, hdir⟩ | ⟨e, v, hrename, hrun⟩ | ⟨_, v, hrename, hrun, -⟩ :=
      on_state_dir_cases ("rename into " ++ task.display STATE_FILE_NAME)
        (rename tmp STATE_FILE_NAME) u
    · refine ⟨2, by omega, ?_⟩
      rw [hrun, Function.iterate_succ_apply, Function.iterate_one, hfirst]
      exact hdir.trans (congrArg Prod.snd hsecond.symm)
    · refine ⟨3, by omega, ?_⟩
      rw [hrun, Function.iterate_succ_apply, Function.iterate_succ_apply, Function.iterate_one,
        hfirst, Option.elim_some, hsecond]
      simp [Target.proceed, Target.call, bind_run, state_file, hrename]
    · refine ⟨3, by omega, ?_⟩
      rw [hrun, Function.iterate_succ_apply, Function.iterate_succ_apply, Function.iterate_one,
        hfirst, Option.elim_some, hsecond]
      simp [Target.proceed, Target.call, bind_run, state_file, hrename]

/-- A load that can read the file answers what the file says. -/
theorem load_parse {task : Task} {s t : World} {state : State} (hload : task.load s = .ok state t)
    (hread : s.state_dir.next.1.fails .read = false) :
    state = parse_state task.json (s.state_dir.files.lookup STATE_FILE_NAME) := by
  unfold load at hload
  rw [bind_run, result] at hload
  have hfile := @read_unfailing STATE_FILE_NAME s.state_dir hread
  obtain ⟨u, hrun, -⟩ | ⟨e, u, hfails, hrun⟩ | ⟨bytes, u, hread, hrun, -⟩ := on_state_dir_cases
    ("read " ++ task.display STATE_FILE_NAME) (fs.read STATE_FILE_NAME) s
  · rw [hrun] at hload
    cases hload
  · rw [hrun] at hload
    cases hload
    rw [hfile] at hfails
    cases hlookup : s.state_dir.files.lookup STATE_FILE_NAME with
    | none => rfl
    | some content =>
      rw [hlookup] at hfails
      cases hfails
  · rw [hrun] at hload
    cases hload
    rw [(read_ok hread).2]
    rfl

end Task

end spotflowd.sources.crashdump
