import Spotflowd.Lib.Replace
import Spotflowd.Lib.Simulation
import Spotflowd.Metrics.Restart

open cbor effect fs path replace
open spotflowd.config spotflowd.log_entry
open spotflowd.metrics.aggregator

namespace spotflowd.metrics

def seq_file : Target where
  name := SEQ_FILE_NAME
  tmp := with_extension SEQ_FILE_NAME "cbor.tmp"
  apart := by decide

/-- What is written for some numbers, if they can be encoded. -/
def seq_content (c : Ciborium) (iteration : Iteration String) (seq : HashMap String UInt64) :
    Option Bytes :=
  c.value_into_writer (.Map ((iteration.iter seq).map fun entry =>
    (Value.Text entry.1, u64_to_value entry.2)))

theorem on_seq_dir_run (x : FsM Unit) (s : Fs) :
    Aggregator.on_seq_dir x s = match x s with
      | .ok a t => .ok a t
      | .error e t => .error (.io e) t := by
  unfold Aggregator.on_seq_dir zoom
  rw [id]
  cases x s <;> rfl

/-- On the directory, `save_seq` does what replacing the file does. -/
theorem save_seq_put (c : Ciborium) (iteration : Iteration String) (self : Aggregator) (s : Fs) :
    finalState (self.save_seq c iteration s) =
      finalState (seq_file.put (seq_content c iteration self.seq) s) := by
  unfold Aggregator.save_seq Target.put seq_content
  dsimp only
  generalize c.value_into_writer _ = content
  rw [bind_run, bind_run, on_seq_dir_run]
  cases create_dir_all s with
  | error e t => rfl
  | ok _ t =>
    cases content with
    | none => rfl
    | some buf =>
      dsimp only
      rw [bind_run, bind_run, on_seq_dir_run, seq_file]
      cases write (with_extension SEQ_FILE_NAME "cbor.tmp") buf t with
      | error e u => rfl
      | ok _ u =>
        dsimp only
        rw [on_seq_dir_run]
        cases rename (with_extension SEQ_FILE_NAME "cbor.tmp") SEQ_FILE_NAME u <;> rfl

/-- The last number of a stream. -/
def last_of (seq : HashMap String UInt64) (key : String) : Nat := ((seq.lookup key).getD 0).toNat

def seq_keeper (c : Ciborium) (hc : c.ValueRoundTrips) : Keeper (HashMap String UInt64) where
  target := seq_file
  encodes seq bytes := ∃ iteration, seq_content c iteration seq = some bytes
  reads content seq := ∀ key, (content.elim ∅ (parse_seq c)).lookup key = seq.lookup key
  progress before after := ∀ key, last_of before key ≤ last_of after key
  reads_encoding := by
    rintro seq bytes ⟨iteration, hwrite⟩ key
    exact lookup_parse_seq hc hwrite key
  progress_refl seq key := le_rfl
  progress_trans hfirst hsecond key := (hfirst key).trans (hsecond key)
  progress_reads := by
    intro content before after hbefore hafter key
    rw [last_of, last_of, ← hbefore key, ← hafter key]

/-- The metrics task as far as its numbers go. History variables: the numbers that were saved
last, all readings that were numbered, those among them whose numbers have been saved, and those
of the running process that have not. -/
structure Worker where
  cfg : MetricsConfig
  agg : Aggregator
  pc : Pc
  fs : Fs
  saved : HashMap String UInt64
  emitted : List ReadyMetric
  kept : List ReadyMetric
  unsaved : List ReadyMetric

/-- A tick numbers its readings; the task begins to save or makes its next call; the other users
of the directory change it; or the process has died, wherever it was, and starts again. -/
inductive Work where
  | tick (feed : Feed)
  | save (iteration : Iteration String)
  | call
  | others (fs : Fs)
  | restart (cfg : MetricsConfig) (verdicts : List Verdict)

/-- A step of the task itself. -/
def Work.own : Work → Prop
  | .others _ => False
  | _ => True

namespace Worker

/-- The task of a new process. -/
def new (c : Ciborium) (cfg : MetricsConfig) (fs : Fs) : Except String Worker := do
  let (agg, fs) ← Aggregator.new c cfg fs
  return {
    cfg := cfg
    agg := agg
    pc := .idle
    fs := fs
    saved := agg.seq
    emitted := []
    kept := []
    unsaved := [] }

def tick (feed : Feed) (self : Worker) : Worker :=
  let (agg, ready) := readings self.cfg self.agg feed
  { self with
    agg := agg
    emitted := self.emitted ++ ready
    unsaved := self.unsaved ++ ready }

def call (self : Worker) : Worker :=
  match seq_file.call self.pc self.fs with
  | .ok pc fs =>
    if self.pc.commits then
      { self with
        pc := pc
        fs := fs
        saved := self.agg.seq
        kept := self.kept ++ self.unsaved
        unsaved := [] }
    else { self with pc := pc, fs := fs }
  | .error _ fs => { self with pc := .idle, fs := fs }

/-- A new process. What the old one had not saved is forgotten. -/
def restart (c : Ciborium) (cfg : MetricsConfig) (verdicts : List Verdict) (self : Worker) :
    Option Worker :=
  match new c cfg { self.fs with verdicts := verdicts } with
  | .ok fresh => some { fresh with emitted := self.emitted, kept := self.kept }
  | .error _ => none

end Worker

def worker (c : Ciborium) : Machine Worker Work where
  step s
    | .tick feed => if s.pc = .idle then some (s.tick feed) else none
    | .save iteration =>
      if s.pc = .idle then some { s with pc := .creating (seq_content c iteration s.agg.seq) } else none
    | .call => some s.call
    | .others fs => some { s with fs := fs }
    | .restart cfg verdicts => s.restart c cfg verdicts

/-- Every stream has numbers left, the other users leave the two files alone, and a process that
starts can read what is there. -/
def Unharmed (s : Worker) : Work → Prop
  | .tick feed => has_numbers s.agg (s.agg.open_streams + feed.samples.length + 1)
  | .save _ => True
  | .call => True
  | .others fs => Confined (fun name => ¬ seq_file.own name) s.fs fs
  | .restart _ verdicts => { s.fs with verdicts := verdicts }.next.1.fails .read = false

namespace Worker

variable {c : Ciborium}

/-- What the task keeps in its file. -/
def view (self : Worker) : replace.State (HashMap String UInt64) :=
  ⟨self.agg.seq, self.saved, self.pc, self.fs⟩

theorem view_call (hc : c.ValueRoundTrips) (self : Worker) :
    self.call.view = (seq_keeper c hc).call self.view := by
  unfold call Keeper.call
  change view (match seq_file.call self.pc self.fs with
    | .ok _ _ => _
    | .error _ _ => _) = (match seq_file.call self.pc self.fs with
    | .ok _ _ => _
    | .error _ _ => _)
  cases seq_file.call self.pc self.fs with
  | error e fs => rfl
  | ok pc fs =>
    dsimp only
    cases hcommits : self.pc.commits with
    | true =>
      change _ = replace.State.mk _ (if self.pc.commits = true then _ else _) _ _
      rw [hcommits]
      rfl
    | false =>
      change _ = replace.State.mk _ (if self.pc.commits = true then _ else _) _ _
      rw [hcommits]
      rfl

theorem new_eq {cfg : MetricsConfig} {fs : Fs} {self : Worker} (hnew : new c cfg fs = .ok self) :
    self.agg.states = ∅ ∧ self.agg.seq = (load_seq c fs).1 ∧ self.saved = self.agg.seq ∧
      self.fs = (load_seq c fs).2 ∧ self.pc = .idle ∧ self.emitted = [] ∧ self.kept = [] ∧
      self.unsaved = [] := by
  unfold new at hnew
  cases hagg : Aggregator.new c cfg fs with
  | error e => simp [hagg, bind, Except.bind] at hnew
  | ok start =>
    simp only [hagg, bind, Except.bind, pure, Except.pure] at hnew
    cases hnew
    obtain ⟨agg, after⟩ := start
    obtain ⟨-, hstates, hseq⟩ := Aggregator.new_eq hagg
    exact ⟨hstates, hseq, rfl, Aggregator.new_fs hagg, rfl, rfl, rfl, rfl⟩

/-- A process that can read the file goes on from what is there. -/
theorem new_reads (hc : c.ValueRoundTrips) {cfg : MetricsConfig} {fs : Fs} {self : Worker}
    (hnew : new c cfg fs = .ok self) (hread : fs.next.1.fails .read = false) :
    (seq_keeper c hc).reads (fs.files.lookup SEQ_FILE_NAME) self.agg.seq ∧
      self.fs.files = fs.files := by
  obtain ⟨-, hseq, -, hfs, -⟩ := new_eq hnew
  rw [load_seq_eq_stored c hread] at hseq
  refine ⟨?_, ?_⟩
  · rw [hseq]
    exact fun key => rfl
  · rw [hfs]
    exact load_seq_files c fs

/-- What a tick numbers, it numbers above all earlier readings of the stream. -/
theorem tick_bounds {s : Worker} (hkeyed : s.agg.Keyed) {feed : Feed}
    (hnumbers : Unharmed s (.tick feed)) :
    let after := readings s.cfg s.agg feed
    after.1.Keyed ∧ (∀ key, last_of s.agg.seq key ≤ last_of after.1.seq key) ∧
      ∀ m ∈ after.2, last_of s.agg.seq m.key < m.seq.toNat ∧
        m.seq.toNat ≤ last_of after.1.seq m.key := by
  obtain ⟨hissues, hkeyed', hsize⟩ := readings_issued s.cfg hkeyed feed
  have hbounds := fun key => hissues.bounds key
    (lt_of_le_of_lt (Nat.add_le_add_left hsize _) (has_numbers_room hnumbers key))
  exact ⟨hkeyed', fun key => (hbounds key).1, fun m hm => (hbounds m.key).2 m hm rfl⟩

/-- Every step is one of the keeper's, a new start two. -/
theorem step_view (hc : c.ValueRoundTrips) {s t : Worker} {work : Work} (hkeyed : s.agg.Keyed)
    (hunharmed : Unharmed s work) (hstep : (worker c).step s work = some t) :
    ∃ events, (seq_keeper c hc).machine.Run (seq_keeper c hc).Allowed s.view events t.view := by
  cases work with
  | tick feed =>
    simp only [worker, Option.ite_none_right_eq_some, Option.some.injEq] at hstep
    obtain ⟨hidle, rfl⟩ := hstep
    refine ⟨[.change (s.tick feed).agg.seq], Machine.Run.single ?_ ?_⟩
    · exact (tick_bounds hkeyed hunharmed).2.1
    · exact if_pos hidle
  | save iteration =>
    simp only [worker, Option.ite_none_right_eq_some, Option.some.injEq] at hstep
    obtain ⟨hidle, rfl⟩ := hstep
    refine ⟨[.save (seq_content c iteration s.agg.seq)], Machine.Run.single ?_ ?_⟩
    · exact fun bytes hbytes => ⟨iteration, hbytes⟩
    · exact if_pos hidle
  | call =>
    obtain rfl := Option.some.inj hstep
    rw [view_call hc]
    exact ⟨[.call], Machine.Run.single trivial rfl⟩
  | others fs =>
    obtain rfl := Option.some.inj hstep
    exact ⟨[.others fs], Machine.Run.single hunharmed rfl⟩
  | restart cfg verdicts =>
    simp only [worker, restart] at hstep
    cases hnew : new c cfg { s.fs with verdicts := verdicts } with
    | error e =>
      rw [hnew] at hstep
      cases hstep
    | ok fresh =>
      rw [hnew] at hstep
      cases hstep
      obtain ⟨hreads, hfiles⟩ := new_reads hc hnew hunharmed
      obtain ⟨-, -, hsaved, -, hpc, -⟩ := new_eq hnew
      have hothers : (seq_keeper c hc).machine.Run (seq_keeper c hc).Allowed s.view
          [.others fresh.fs] { s.view with fs := fresh.fs } :=
        Machine.Run.single (Confined.of_files hfiles) rfl
      refine ⟨[.others fresh.fs] ++ [.restart fresh.agg.seq], hothers.snoc ?_ ?_⟩
      · change (seq_keeper c hc).reads (fresh.fs.files.lookup SEQ_FILE_NAME) fresh.agg.seq
        rw [hfiles]
        exact hreads
      · change some (replace.State.mk fresh.agg.seq fresh.agg.seq .idle fresh.fs) =
          some (replace.State.mk fresh.agg.seq fresh.saved fresh.pc fresh.fs)
        rw [hsaved, hpc]

theorem call_proceed (s : Worker) : (s.call.pc, s.call.fs) = seq_file.proceed (s.pc, s.fs) := by
  unfold call Target.proceed
  dsimp only
  cases seq_file.call s.pc s.fs with
  | error e fs => rfl
  | ok pc fs =>
    dsimp only
    split <;> rfl

/-- The task itself touches its two files only. -/
theorem step_confined {s t : Worker} {work : Work} (hown : work.own)
    (hstep : (worker c).step s work = some t) : Confined seq_file.own s.fs t.fs := by
  cases work with
  | tick feed =>
    simp only [worker, Option.ite_none_right_eq_some, Option.some.injEq] at hstep
    obtain ⟨-, rfl⟩ := hstep
    exact Confined.refl _
  | save iteration =>
    simp only [worker, Option.ite_none_right_eq_some, Option.some.injEq] at hstep
    obtain ⟨-, rfl⟩ := hstep
    exact Confined.refl _
  | call =>
    obtain rfl := Option.some.inj hstep
    have hproceed := seq_file.proceed_confined (s.pc, s.fs)
    rwa [← call_proceed] at hproceed
  | others fs => exact hown.elim
  | restart cfg verdicts =>
    simp only [worker, restart] at hstep
    cases hnew : new c cfg { s.fs with verdicts := verdicts } with
    | error e =>
      rw [hnew] at hstep
      cases hstep
    | ok fresh =>
      rw [hnew] at hstep
      cases hstep
      obtain ⟨-, -, -, hfs, -⟩ := new_eq hnew
      refine Confined.of_files ?_
      dsimp only
      rw [hfs]
      exact load_seq_files c _

/-- What the readings of a process are numbered up to, what those are that are kept. -/
structure Ledger (c : Ciborium) (hc : c.ValueRoundTrips) (s : Worker) : Prop where
  sound : (seq_keeper c hc).Sound s.view
  keyed : s.agg.Keyed
  unsaved : ∀ m ∈ s.unsaved, m.seq.toNat ≤ last_of s.agg.seq m.key
  kept : ∀ m ∈ s.kept, m.seq.toNat ≤ last_of s.saved m.key

theorem Ledger.start {hc : c.ValueRoundTrips} {cfg : MetricsConfig} {fs : Fs} {s : Worker}
    (hnew : new c cfg fs = .ok s) (hread : fs.next.1.fails .read = false) : Ledger c hc s := by
  obtain ⟨hreads, hfiles⟩ := new_reads hc hnew hread
  obtain ⟨hstates, -, hsaved, -, hpc, -, hkept, hunsaved⟩ := new_eq hnew
  refine ⟨?_, .of_empty hstates, by simp [hunsaved], by simp [hkept]⟩
  have hview : s.view = ⟨s.agg.seq, s.agg.seq, .idle, s.fs⟩ := by rw [view, hsaved, hpc]
  rw [hview]
  exact .start (hfiles ▸ hreads)

/-- What a call does besides what shows in the file. -/
theorem call_keeps (s : Worker) :
    s.call.agg = s.agg ∧ s.call.emitted = s.emitted ∧
      ((s.call.saved = s.saved ∧ s.call.kept = s.kept ∧
          s.call.unsaved = s.unsaved) ∨
        (s.call.saved = s.agg.seq ∧ s.call.kept = s.kept ++ s.unsaved ∧
          s.call.unsaved = [])) := by
  unfold call
  split
  · split
    · exact ⟨rfl, rfl, Or.inr ⟨rfl, rfl, rfl⟩⟩
    · exact ⟨rfl, rfl, Or.inl ⟨rfl, rfl, rfl⟩⟩
  · exact ⟨rfl, rfl, Or.inl ⟨rfl, rfl, rfl⟩⟩

/-- What a step numbers is numbered above what is saved, and nothing that is kept is dropped. -/
structure Extends (s : Worker) (t : Worker) : Prop where
  saved : ∀ key, last_of s.saved key ≤ last_of t.saved key
  emitted : ∃ new, t.emitted = s.emitted ++ new ∧ ∀ m ∈ new, last_of s.saved m.key < m.seq.toNat

theorem Extends.refl (s : Worker) : Extends s s :=
  ⟨fun _ => le_rfl, [], by simp, by simp⟩

theorem Extends.trans {s t u : Worker} (hfirst : Extends s t) (hsecond : Extends t u) :
    Extends s u := by
  obtain ⟨new, hnew, habove⟩ := hfirst.emitted
  obtain ⟨more, hmore, hlater⟩ := hsecond.emitted
  refine ⟨fun key => (hfirst.saved key).trans (hsecond.saved key), new ++ more, ?_, ?_⟩
  · rw [hmore, hnew, List.append_assoc]
  · intro m hm
    obtain hold | hlast := List.mem_append.mp hm
    · exact habove m hold
    · exact (hfirst.saved m.key).trans_lt (hlater m hlast)

theorem Extends.of_emitted {s t : Worker} (hsaved : ∀ key, last_of s.saved key ≤ last_of t.saved key)
    (hemitted : t.emitted = s.emitted) : Extends s t :=
  ⟨hsaved, [], by rw [hemitted, List.append_nil], by simp⟩

theorem Ledger.step {hc : c.ValueRoundTrips} {s t : Worker} {work : Work} (hledger : Ledger c hc s)
    (hunharmed : Unharmed s work) (hstep : (worker c).step s work = some t) :
    Ledger c hc t ∧ Extends s t := by
  obtain ⟨events, hview⟩ := step_view hc hledger.keyed hunharmed hstep
  obtain ⟨hsound, hon⟩ := hledger.sound.run hview
  cases work with
  | tick feed =>
    simp only [worker, Option.ite_none_right_eq_some, Option.some.injEq] at hstep
    obtain ⟨-, rfl⟩ := hstep
    obtain ⟨hkeyed, hgrown, hbounds⟩ := tick_bounds hledger.keyed hunharmed
    refine ⟨⟨hsound, hkeyed, ?_, hledger.kept⟩, hon, _, rfl, ?_⟩
    · intro m hm
      obtain hold | hnew := List.mem_append.mp hm
      · exact (hledger.unsaved m hold).trans (hgrown m.key)
      · exact (hbounds m hnew).2
    · intro m hm
      exact (hledger.sound.progress m.key).trans_lt (hbounds m hm).1
  | save iteration =>
    simp only [worker, Option.ite_none_right_eq_some, Option.some.injEq] at hstep
    obtain ⟨-, rfl⟩ := hstep
    exact ⟨⟨hsound, hledger.keyed, hledger.unsaved, hledger.kept⟩, .of_emitted hon rfl⟩
  | call =>
    obtain rfl := Option.some.inj hstep
    obtain ⟨hagg, hemitted, ⟨hsaved, hkept, hunsaved⟩ | ⟨hsaved, hkept, hunsaved⟩⟩ :=
      s.call_keeps
    · refine ⟨⟨hsound, ?_, ?_, ?_⟩, .of_emitted hon hemitted⟩
      · rw [hagg]
        exact hledger.keyed
      · rw [hunsaved, hagg]
        exact hledger.unsaved
      · rw [hkept, hsaved]
        exact hledger.kept
    · refine ⟨⟨hsound, ?_, ?_, ?_⟩, .of_emitted hon hemitted⟩
      · rw [hagg]
        exact hledger.keyed
      · rw [hunsaved]
        exact fun m hm => absurd hm List.not_mem_nil
      · intro m hm
        rw [hkept] at hm
        rw [hsaved]
        obtain hold | hnew := List.mem_append.mp hm
        · exact (hledger.kept m hold).trans (hledger.sound.progress m.key)
        · exact hledger.unsaved m hnew
  | others fs =>
    obtain rfl := Option.some.inj hstep
    exact ⟨⟨hsound, hledger.keyed, hledger.unsaved, hledger.kept⟩, .of_emitted hon rfl⟩
  | restart cfg verdicts =>
    simp only [worker, restart] at hstep
    cases hnew : new c cfg { s.fs with verdicts := verdicts } with
    | error e =>
      rw [hnew] at hstep
      cases hstep
    | ok fresh =>
      rw [hnew] at hstep
      cases hstep
      obtain ⟨hstates, -, -, -, -, -, -, hunsaved⟩ := new_eq hnew
      refine ⟨⟨hsound, .of_empty hstates, ?_, ?_⟩, .of_emitted hon rfl⟩
      · dsimp only
        rw [hunsaved]
        exact fun m hm => absurd hm List.not_mem_nil
      · exact fun m hm => (hledger.kept m hm).trans (hon m.key)

/-- What comes after a kept reading has another number. -/
theorem Ledger.fresh {hc : c.ValueRoundTrips} {s t : Worker} (hledger : Ledger c hc s)
    (hextends : Extends s t) : ∃ new, t.emitted = s.emitted ++ new ∧
      ∀ m ∈ s.kept, ∀ m' ∈ new, ¬ (m'.key = m.key ∧ m'.seq = m.seq) := by
  obtain ⟨new, hemitted, habove⟩ := hextends.emitted
  refine ⟨new, hemitted, ?_⟩
  rintro m hm m' hm' ⟨hkey, hseq⟩
  have hlt := habove m' hm'
  rw [hkey, hseq] at hlt
  exact absurd hlt (not_lt.mpr (hledger.kept m hm))

theorem Ledger.run {hc : c.ValueRoundTrips} {s t : Worker} {works : List Work}
    (hledger : Ledger c hc s) (hrun : (worker c).Run Unharmed s works t) :
    Ledger c hc t ∧ Extends s t := by
  refine hrun.invariant (P := fun t => Ledger c hc t ∧ Extends s t) ⟨hledger, .refl s⟩ ?_
  rintro t work u ⟨ht, hextends⟩ hunharmed hstep
  obtain ⟨hu, hmore⟩ := ht.step hunharmed hstep
  exact ⟨hu, hextends.trans hmore⟩

/-- Numbers that have reached the disk are safe. Let the calls of a save and those of the other
users of the directory come in any order, let any of them fail or stop half-way, and let the
process die and start again at any point, as long as it can read the file when it starts: the
numbers on disk are those of the last save that got as far as its rename, whole, and no reading is
ever given a number again that a kept one has. -/
theorem kept_numbers_are_final (hc : c.ValueRoundTrips) {cfg : MetricsConfig} {fs : Fs}
    {s t u : Worker} {before after : List Work} (hnew : new c cfg fs = .ok s)
    (hread : fs.next.1.fails .read = false) (hbefore : (worker c).Run Unharmed s before t)
    (hafter : (worker c).Run Unharmed t after u) :
    (∀ key, (stored c t.fs).lookup key = t.saved.lookup key) ∧
      (∀ m ∈ t.kept, m.seq.toNat ≤ last_of (stored c t.fs) m.key) ∧
      ∃ new, u.emitted = t.emitted ++ new ∧
        ∀ m ∈ t.kept, ∀ m' ∈ new, ¬ (m'.key = m.key ∧ m'.seq = m.seq) := by
  have hledger := ((Ledger.start hnew hread : Ledger c hc s).run hbefore).1
  have hstored : ∀ key, (stored c t.fs).lookup key = t.saved.lookup key := hledger.sound.reads
  refine ⟨hstored, ?_, hledger.fresh (hledger.run hafter).2⟩
  intro m hm
  rw [last_of, hstored]
  exact hledger.kept m hm

/-- Nobody else touches the directory but for the answers of its calls. -/
def Alone (s : Worker) : Work → Prop
  | .others fs => fs.files.entries = s.fs.files.entries
  | work => Unharmed s work

instance (s : Worker) : (work : Work) → Decidable (Alone s work)
  | .tick _ => inferInstanceAs (Decidable (has_numbers _ _))
  | .save _ => inferInstanceAs (Decidable True)
  | .call => inferInstanceAs (Decidable True)
  | .others _ => inferInstanceAs (Decidable (_ = _))
  | .restart _ _ => inferInstanceAs (Decidable (_ = _))

theorem Alone.unharmed {s : Worker} {work : Work} (halone : Alone s work) : Unharmed s work := by
  cases work with
  | others fs => exact Confined.of_files (AList.ext halone)
  | _ => exact halone

def one_gauge : Feed where
  samples := [(gauge "a", 0)]
  uptime_ms := 60000
  now := 0
  iteration := ⟨id, fun keys => .refl keys⟩

/-- One reading, whose number is saved; another one, and the process dies in the middle of the
write; a third one in the next process. -/
theorem kept_numbers_are_final_cut_off : ∃ s before t after u,
    new .wire custom_only fresh_dir = .ok s ∧ (worker .wire).Run Unharmed s before t ∧
    (worker .wire).Run Unharmed t after u ∧ t.kept ≠ [] ∧ u.emitted.length = 3 ∧
    (∀ key, (stored .wire t.fs).lookup key = t.saved.lookup key) ∧
    (∀ m ∈ t.kept, m.seq.toNat ≤ last_of (stored .wire t.fs) m.key) ∧
    ∃ new, u.emitted = t.emitted ++ new ∧
      ∀ m ∈ t.kept, ∀ m' ∈ new, ¬ (m'.key = m.key ∧ m'.seq = m.seq) := by
  have htest : (new .wire custom_only fresh_dir).toOption.any (fun s =>
      ((worker .wire).exec Alone s
        [.tick one_gauge, .save ⟨id, fun keys => .refl keys⟩, .call, .call, .call]).any (fun t =>
          t.kept ≠ [] ∧ ((worker .wire).exec Alone t
            [.tick one_gauge, .save ⟨id, fun keys => .refl keys⟩, .call,
              .others { t.fs with verdicts := [⟨fun _ => true, some 3, fun _ => false⟩] }, .call,
              .restart custom_only [], .tick one_gauge]).any
                fun u => u.emitted.length = 3)) = true := by
    rfl
  obtain ⟨s, hnew, htest⟩ := effect.exists_ok_of_any htest
  obtain ⟨t, hbefore, htest⟩ := Machine.exists_run_of_exec _ htest
  obtain ⟨hkept, htest⟩ := of_decide_eq_true htest
  obtain ⟨u, hafter, htest⟩ := Machine.exists_run_of_exec _ htest
  have hbefore' := hbefore.mono fun _ _ => Alone.unharmed
  have hafter' := hafter.mono fun _ _ => Alone.unharmed
  exact ⟨s, _, t, _, u, hnew, hbefore', hafter', hkept, of_decide_eq_true htest,
    kept_numbers_are_final Ciborium.wire_valueRoundTrips hnew rfl hbefore' hafter'⟩

theorem call_cfg (s : Worker) : s.call.cfg = s.cfg := by
  unfold call
  split
  · split <;> rfl
  · rfl

/-- The worker is where the task is, between two ticks. -/
structure Matches (cfg : MetricsConfig) (s : Runner) (w : Worker) : Prop where
  cfg : w.cfg = cfg
  agg : w.agg = s.agg
  fs : w.fs = s.fs
  pc : w.pc = .idle
  emitted : w.emitted = s.emitted

theorem Matches.of_eq {cfg : MetricsConfig} {s t : Runner} {w : Worker} (hmatches : Matches cfg s w)
    (hagg : t.agg = s.agg) (hfs : t.fs = s.fs) (hemitted : t.emitted = s.emitted) : Matches cfg t w :=
  ⟨hmatches.cfg, hmatches.agg.trans hagg.symm, hmatches.fs.trans hfs.symm, hmatches.pc,
    hmatches.emitted.trans hemitted.symm⟩

/-- A save of the task is one of the worker, call by call. -/
theorem Matches.save {cfg : MetricsConfig} {s t : Runner} {w : Worker} (hmatches : Matches cfg s w)
    (iteration : Iteration String) (verdicts : List Verdict) (hagg : t.agg = s.agg)
    (hemitted : t.emitted = s.emitted)
    (hfs : t.fs = finalState (s.agg.save_seq c iteration { s.fs with verdicts := verdicts })) :
    ∃ works w', (worker c).Run Unharmed w works w' ∧ Matches cfg t w' := by
  have hothers : (worker c).Run Unharmed w [.others { s.fs with verdicts := verdicts }]
      { w with fs := { s.fs with verdicts := verdicts } } :=
    Machine.Run.single (Confined.of_files (by rw [hmatches.fs]; rfl)) rfl
  let begun : Worker := { w with
    fs := { s.fs with verdicts := verdicts }
    pc := .creating (seq_content c iteration w.agg.seq) }
  have hbegun : (worker c).Run Unharmed w
      [.others { s.fs with verdicts := verdicts }, .save iteration] begun :=
    hothers.snoc trivial (if_pos hmatches.pc)
  have hcall : ∀ x : Worker, (worker c).Run Unharmed x [.call] x.call :=
    fun x => Machine.Run.single trivial rfl
  have hrun := hbegun.trans ((hcall _).trans ((hcall _).trans (hcall _)))
  have hcalls : (begun.call.call.call.pc, begun.call.call.call.fs) = (.idle, t.fs) := by
    rw [call_proceed, call_proceed, call_proceed, seq_file.proceed_put, hfs, save_seq_put]
    rw [← hmatches.agg]
  obtain ⟨hpc, hdir⟩ := Prod.mk.injEq .. ▸ hcalls
  refine ⟨_, _, hrun, ?_, ?_, hdir, hpc, ?_⟩
  · rw [call_cfg, call_cfg, call_cfg]
    exact hmatches.cfg
  · rw [(call_keeps _).1, (call_keeps _).1, (call_keeps _).1, hagg]
    exact hmatches.agg
  · rw [(call_keeps _).2.1, (call_keeps _).2.1, (call_keeps _).2.1, hemitted]
    exact hmatches.emitted

theorem published_fs (c : Ciborium) (tick : metrics.Tick) (self : Runner) :
    (self.published c tick).fs = self.fs ∨ (self.published c tick).fs =
      finalState (self.agg.save_seq c tick.saving { self.fs with verdicts := tick.verdicts }) := by
  unfold Runner.published Runner.save_seq
  dsimp only
  split
  · right
    cases self.agg.save_seq c tick.saving { self.fs with verdicts := tick.verdicts } <;> rfl
  · exact Or.inl rfl

theorem publish_fs (c : Ciborium) (tick : metrics.Tick) (self : Runner) :
    (self.publish c tick).fs = self.fs ∨ (self.publish c tick).fs =
      finalState (self.agg.save_seq c tick.saving { self.fs with verdicts := tick.verdicts }) := by
  obtain h | ⟨sent, client, -, h⟩ | ⟨client, -, h⟩ := self.publish_cases c tick
  · rw [h]
    exact Or.inl rfl
  · rw [h]
    exact Or.inl rfl
  · rw [h]
    exact published_fs c tick _

theorem shutdown_fs (c : Ciborium) (iteration : Iteration String) (verdicts : List Verdict)
    (self : Runner) :
    (self.shutdown c iteration verdicts).fs = self.fs ∨ (self.shutdown c iteration verdicts).fs =
      finalState (self.agg.save_seq c iteration { self.fs with verdicts := verdicts }) := by
  unfold Runner.shutdown Runner.save_seq
  dsimp only
  split
  · right
    cases self.agg.save_seq c iteration { self.fs with verdicts := verdicts } <;> rfl
  · exact Or.inl rfl

theorem Matches.step {cfg : MetricsConfig} {s t : Runner} {event : metrics.Event} {w : Worker}
    (hmatches : Matches cfg s w) (hroom : Numbering cfg s event)
    (hstep : (metrics.run c cfg).step s event = some t) :
    ∃ works w', (worker c).Run Unharmed w works w' ∧ Matches cfg t w' := by
  cases event with
  | tick tick =>
    obtain ⟨-, rfl⟩ := run_tick hstep
    have hcollect : (worker c).Run Unharmed w [.tick (tick.feed cfg)] (w.tick (tick.feed cfg)) := by
      refine Machine.Run.single ?_ (if_pos hmatches.pc)
      rw [Unharmed, hmatches.agg]
      exact hroom
    have hcollected : Matches cfg (s.collect cfg tick) (w.tick (tick.feed cfg)) := by
      obtain ⟨hcfg, hagg, hfs, hpc, hemitted⟩ := hmatches
      refine ⟨hcfg, ?_, hfs, hpc, ?_⟩
      · change (readings w.cfg w.agg _).1 = (readings cfg s.agg _).1
        rw [hcfg, hagg]
      · change w.emitted ++ (readings w.cfg w.agg _).2 = s.emitted ++ (readings cfg s.agg _).2
        rw [hcfg, hagg, hemitted]
    obtain ⟨hagg, hemitted, -⟩ := (s.collect cfg tick).publish_keeps c tick
    obtain hfs | hfs := publish_fs c tick (s.collect cfg tick)
    · exact ⟨_, _, hcollect, hcollected.of_eq hagg hfs hemitted⟩
    · obtain ⟨works, w', hrun, hw'⟩ := hcollected.save tick.saving tick.verdicts hagg hemitted hfs
      exact ⟨_, w', hcollect.trans hrun, hw'⟩
  | shutdown iteration verdicts =>
    obtain ⟨-, rfl⟩ := run_shutdown hstep
    obtain ⟨hagg, hemitted, -⟩ := s.shutdown_keeps c iteration verdicts
    obtain hfs | hfs := shutdown_fs c iteration verdicts s
    · exact ⟨[], w, .nil w, hmatches.of_eq hagg hfs hemitted⟩
    · exact hmatches.save iteration verdicts hagg hemitted hfs

/-- What the task does undisturbed, the worker can do: a run of the one is a run of the other. -/
theorem Matches.run {cfg : MetricsConfig} {s t : Runner} {events : List metrics.Event} {w : Worker}
    (hmatches : Matches cfg s w) (hrun : (metrics.run c cfg).Run (Numbering cfg) s events t) :
    ∃ works w', (worker c).Run Unharmed w works w' ∧ Matches cfg t w' := by
  refine hrun.invariant (P := fun t => ∃ works w', (worker c).Run Unharmed w works w' ∧
    Matches cfg t w') ⟨[], w, .nil w, hmatches⟩ ?_
  rintro t event u ⟨works, w', hworks, ht⟩ hroom hstep
  obtain ⟨more, w'', hmore, hu⟩ := ht.step hroom hstep
  exact ⟨_, w'', hworks.trans hmore, hu⟩

end Worker

end spotflowd.metrics
