import Spotflowd.Lib.Crash
import Spotflowd.Lib.Fs

namespace effect

namespace Interruptible

variable {ε σ α β : Type} {R : σ → σ → Prop}

/-- However `x` ends, carried out or cut off, the state it leaves is related to the state it
found. -/
structure Respects (R : σ → σ → Prop) (x : Interruptible ε σ α) : Prop where
  run : effect.Respects R x.run
  cut : ∀ s t, x.cut s t → R s t

section

variable (hrefl : ∀ s, R s s) (htrans : ∀ s t u, R s t → R t u → R s u)

include hrefl in
theorem Respects.pure (a : α) : Respects R (pure a : Interruptible ε σ α) :=
  ⟨fun s => hrefl s, fun s _ hcut => hcut ▸ hrefl s⟩

include hrefl in
theorem Respects.whole {x : EStateM ε σ α} (hx : effect.Respects R x) :
    Respects R (Interruptible.whole x) := by
  refine ⟨hx, ?_⟩
  rintro s t (rfl | rfl)
  · exact hrefl t
  · exact hx s

include htrans in
theorem Respects.bind {x : Interruptible ε σ α} {f : α → Interruptible ε σ β} (hx : Respects R x)
    (hf : ∀ a, Respects R (f a)) : Respects R (x >>= f) := by
  refine ⟨effect.Respects.bind htrans hx.run fun a => (hf a).run, ?_⟩
  rintro s t (hfirst | ⟨a, u, hrun, hrest⟩)
  · exact hx.cut s t hfirst
  · have hreached := hx.run s
    rw [hrun] at hreached
    exact htrans _ _ _ hreached ((hf a).cut u t hrest)

include htrans in
/-- The second part may rely on what the first part answers. -/
theorem Respects.bind_of {x : Interruptible ε σ α} {f : α → Interruptible ε σ β} {P : α → Prop}
    (hx : Respects R x) (hanswer : ∀ s a t, x.run s = .ok a t → P a) (hf : ∀ a, P a → Respects R (f a)) :
    Respects R (x >>= f) := by
  constructor
  · intro s
    have hfirst := hx.run s
    rw [run_bind, bind_run]
    cases hrun : x.run s with
    | ok a t =>
      rw [hrun] at hfirst
      exact htrans _ _ _ hfirst ((hf a (hanswer s a t hrun)).run t)
    | error e t =>
      rw [hrun] at hfirst
      exact hfirst
  · rintro s t (hcut | ⟨a, u, hrun, hrest⟩)
    · exact hx.cut s t hcut
    · have hreached := hx.run s
      rw [hrun] at hreached
      exact htrans _ _ _ hreached ((hf a (hanswer s a u hrun)).cut u t hrest)

theorem Respects.zoom {τ ε' : Type} {S : τ → τ → Prop} {view : σ → τ} {put : τ → σ → σ}
    {wrap : ε' → ε} {x : Interruptible ε' τ α} (hx : Respects S x)
    (hput : ∀ s t, S (view s) t → R s (put t s)) : Respects R (zoom view put wrap x) := by
  refine ⟨effect.Respects.zoom hx.run hput, ?_⟩
  rintro s t ⟨u, hcut, rfl⟩
  exact hput s u (hx.cut _ u hcut)

include hrefl htrans in
theorem Respects.loop {body : Interruptible ε σ Bool} (hbody : Respects R body) (fuel : Nat) :
    Respects R (loop body fuel) := by
  induction fuel with
  | zero => exact .pure hrefl ()
  | succ fuel ih =>
    refine .bind htrans hbody fun again => ?_
    cases again with
    | true => exact ih
    | false => exact .pure hrefl ()

include hrefl htrans in
theorem Respects.forM {f : α → Interruptible ε σ Unit} {items : List α} (hf : ∀ item, Respects R (f item)) :
    Respects R (forM items f) := by
  induction items with
  | nil => exact .pure hrefl ()
  | cons item items ih =>
    rw [List.forM_cons]
    exact .bind htrans (hf item) fun _ => ih

end

end Interruptible

end effect

namespace fs

open effect

/-- No file outside `own` has changed. -/
def Confined (own : FileName → Prop) (s t : Fs) : Prop :=
  ∀ name, ¬ own name → t.files.lookup name = s.files.lookup name

section Confined

variable {own : FileName → Prop}

theorem Confined.of_files {s t : Fs} (hfiles : t.files = s.files) : Confined own s t :=
  fun _ _ => by rw [hfiles]

theorem Confined.refl (s : Fs) : Confined own s s := .of_files rfl

theorem Confined.trans (s t u : Fs) (hfirst : Confined own s t) (hsecond : Confined own t u) :
    Confined own s u :=
  fun name hname => (hsecond name hname).trans (hfirst name hname)

theorem Confined.mono {more : FileName → Prop} (hsub : ∀ name, own name → more name) {s t : Fs}
    (hconfined : Confined own s t) : Confined more s t :=
  fun name hname => hconfined name fun hown => hname (hsub name hown)

theorem Confined.insert {s t : Fs} {name : FileName} {content : Bytes} (hname : own name)
    (hfiles : t.files = s.files.insert name content) : Confined own s t := by
  intro other hother
  rw [hfiles, AList.lookup_insert_ne]
  rintro rfl
  exact hother hname

theorem Confined.erase {s t : Fs} {name : FileName} (hname : own name)
    (hfiles : t.files = s.files.erase name) : Confined own s t := by
  intro other hother
  rw [hfiles, AList.lookup_erase_ne]
  rintro rfl
  exact hother hname

theorem create_dir_all_confined : effect.Respects (Confined own) create_dir_all :=
  fun s => .of_files (create_dir_all_files s)

theorem read_confined (name : FileName) : effect.Respects (Confined own) (read name) :=
  fun s => .of_files (read_keeps name s).1

theorem write_confined {name : FileName} (hname : own name) (content : Bytes) :
    effect.Respects (Confined own) (write name content) := by
  intro s
  cases hwrite : write name content s with
  | ok _ t => exact .insert hname (write_ok hwrite).1
  | error e t =>
    obtain ⟨-, -, hsame | ⟨cut, hcut⟩⟩ := write_error hwrite
    · exact .of_files hsame
    · exact .insert hname hcut

theorem rename_confined {source target : FileName} (hsource : own source) (htarget : own target) :
    effect.Respects (Confined own) (rename source target) := by
  intro s
  cases hrename : rename source target s with
  | ok _ t =>
    obtain ⟨content, -, hfiles, -⟩ := rename_ok hrename
    intro name hname
    rw [finalState_ok, hfiles, AList.lookup_insert_ne, AList.lookup_erase_ne]
    · rintro rfl
      exact hname hsource
    · rintro rfl
      exact hname htarget
  | error e t => exact .of_files (rename_error hrename).1

theorem remove_file_confined {name : FileName} (hname : own name) :
    effect.Respects (Confined own) (remove_file name) := by
  intro s
  unfold remove_file
  simp only
  split
  · exact .erase hname (by simp [Fs.files])
  · exact .of_files s.next_files

end Confined

end fs
