import Spotflowd.Sources.Crashdump.Removal

open effect fs
open spotflowd.mqtt

namespace spotflowd.sources.crashdump

namespace Task

variable (task : Task)

/-- Delivered ids stay known, and a record that the task collects stays where it is until its
id is one of them. -/
structure Keeps (s t : World) : Prop where
  known : ∀ id, s.state.contains id = true → t.state.contains id = true
  lying : ∀ dir name record id, collected_id task.cfg (name, record) = some id →
    s.find dir name = some record → t.find dir name = some record ∨ t.state.contains id = true

variable {task} {s t u : World}

theorem Keeps.refl (s : World) : task.Keeps s s :=
  ⟨fun _ h => h, fun _ _ _ _ _ h => Or.inl h⟩

theorem Keeps.trans (hst : task.Keeps s t) (htu : task.Keeps t u) : task.Keeps s u where
  known id h := htu.known id (hst.known id h)
  lying dir name record id hid hfind := by
    obtain hthere | hknown := hst.lying dir name record id hid hfind
    · exact htu.lying dir name record id hid hthere
    · exact Or.inr (htu.known id hknown)

theorem Keeps.of_evolves (hevolves : Evolves s t) : task.Keeps s t where
  known id h := by rwa [hevolves.state]
  lying dir name record _ _ hfind := Or.inl (hevolves.stays dir name record hfind)

theorem Keeps.steady (task : Task) (s : World) : Steady (task.Keeps s) :=
  fun _ _ hevolves hkeeps => hkeeps.trans (.of_evolves hevolves)

theorem Keeps.insert (hkeeps : task.Keeps s t) (id now : UInt64) :
    task.Keeps s { t with state := t.state.insert id now } where
  known own h := State.contains_insert (hkeeps.known own h)
  lying dir name record own hown hfind :=
    (hkeeps.lying dir name record own hown hfind).imp_right State.contains_insert

/-- A record may go when its id is known. -/
theorem Keeps.remove {dir : String} {name : OsName} {record : Record} {own : UInt64}
    (hkeeps : task.Keeps s t) (hown : collected_id task.cfg (name, record) = some own)
    (hfind : t.find dir name = some record) (hknown : t.state.contains own = true) :
    task.Keeps s (t.remove dir name record) where
  known := hkeeps.known
  lying d n r id hid hfound := by
    obtain hthere | hcontains := hkeeps.lying d n r id hid hfound
    · rw [World.find_remove]
      split
      · next heq =>
        obtain ⟨rfl, rfl⟩ := heq
        obtain rfl := Option.some.inj (hfind.symm.trans hthere)
        obtain rfl := Option.some.inj (hown.symm.trans hid)
        exact Or.inr hknown
      · exact Or.inl hthere
    · exact Or.inr hcontains

theorem steady_known (id : UInt64) : Steady fun s => s.state.contains id = true := by
  intro s t hevolves hknown
  rwa [hevolves.state]

section Visit

variable {build_id : Option String} {dir fname : String} {record : Record} {own : UInt64}

theorem maybe_delete_keeps (s : World) {name : OsName}
    (hown : collected_id task.cfg (name, record) = some own) :
    Triple (fun t => task.Keeps s t ∧ t.find dir name = some record ∧ t.state.contains own = true)
      (task.maybe_delete dir name)
      (fun _ t => task.Keeps s t ∧ t.state.contains own = true)
      fun _ t => task.Keeps s t ∧ t.state.contains own = true := by
  have hsteady := (Keeps.steady task s).and ((steady_find dir name record).and
    (steady_known own))
  apply maybe_delete_rule
  · exact fun t ht => hsteady _ _ t.next_evolves ht
  · exact fun t ht => ⟨ht.1, ht.2.2⟩
  · rintro t there hthere ⟨hkeeps, hfind, hcontains⟩
    obtain rfl := Option.some.inj (hfind.symm.trans hthere)
    exact ⟨hkeeps.remove hown hfind hcontains, hcontains⟩

theorem save_keeps (s : World) (dir fname : String) (record : Record) (own : UInt64) :
    Triple (fun t => task.Keeps s t ∧ t.find dir (.utf8 fname) = some record ∧
        t.state.contains own = true) task.save
      (fun _ t => task.Keeps s t ∧ t.find dir (.utf8 fname) = some record ∧
        t.state.contains own = true)
      fun _ t => task.Keeps s t ∧ t.find dir (.utf8 fname) = some record ∧
        t.state.contains own = true := by
  have hsteady := (Keeps.steady task s).and ((steady_find dir (.utf8 fname) record).and
    (steady_known own))
  apply Triple.post (save_triple _ _ _) fun _ t ht => ht.1
  · exact fun t ht => hsteady _ _ t.next_evolves ht
  · exact fun t dir _ _ ht => ⟨⟨ht.1.known, ht.1.lying⟩, ht.2⟩
  · exact fun t dir _ _ _ _ ht => ⟨⟨ht.1.known, ht.1.lying⟩, ht.2⟩

/-- After a successful upload the id is known, whether or not the state can be saved and the
record deleted. -/
theorem delivered_keeps (s : World) (hown : collected_id task.cfg (.utf8 fname, record) = some own) :
    Triple (fun t => task.Keeps s t ∧ t.find dir (.utf8 fname) = some record)
      (task.delivered dir fname own)
      (fun _ t => task.Keeps s t ∧ t.state.contains own = true) fun _ => task.Keeps s := by
  have hsteady := (Keeps.steady task s).and (steady_find dir (.utf8 fname) record)
  refine delivered_rule ?_ ?_ ?_ (save_keeps s dir fname record own) ?_ ?_
  · exact fun t ht => hsteady _ _ t.next_evolves ht
  · exact fun t ht => ht.1
  · exact fun t now ht => ⟨ht.1.insert own now, ht.2, State.contains_insert_self _ _ _⟩
  · exact fun t ht => ht.1
  · exact (maybe_delete_keeps s hown).mono (fun t ht => ht) (fun _ t ht => ht) fun _ t ht => ht.1

theorem upload_keeps (s : World) (hown : collected_id task.cfg (.utf8 fname, record) = some own) :
    Triple (fun t => task.Keeps s t ∧ t.find dir (.utf8 fname) = some record)
      (task.upload build_id dir fname own) (fun _ => task.Keeps s) fun _ => task.Keeps s := by
  have hsteady := (Keeps.steady task s).and (steady_find dir (.utf8 fname) record)
  apply upload_rule (read_capped_triple (Keeps.steady task s) task.cfg.max_bytes)
  · exact fun t ht => ht.1.1
  · intro content
    exact (publish_core_dump_triple task hsteady own content build_id).mono (fun t ht => ht.1)
      (fun _ t ht => ht.1) fun _ t ht => ht.1
  · intro content _
    exact (delivered_keeps s hown).mono (fun t ht => ht) (fun _ t ht => ht.1) fun _ t ht => ht

theorem visit_keeps (task : Task) (build_id : Option String) (connected : Bool) (dir : String)
    (name : OsName) : Respects task.Keeps (task.visit build_id connected dir name) := by
  intro s
  have hvisit : Triple (task.Keeps s) (task.visit build_id connected dir name)
      (fun _ => task.Keeps s) fun _ => task.Keeps s := by
    apply visit_rule
    · exact fun t ht => Keeps.steady task s _ _ t.next_evolves ht
    · intro record own hown
      exact (maybe_delete_keeps s hown).mono (fun t ht => ht) (fun _ t ht => ht.1) fun _ t ht => ht.1
    · rintro fname record own rfl hown
      exact (upload_keeps s hown).pre fun t ht => ⟨ht.1, ht.2.1⟩
  exact hvisit.finalState (Keeps.refl s)

/-- Reading a record that lies there does not fail of itself. -/
theorem read_capped_met {v : World} (hfind : v.find dir (.utf8 fname) = some record)
    (hreads : v.next.1.fails = false) :
    Triple (fun s => s = v) (result (read_capped dir fname task.cfg.max_bytes))
      (fun answer s => (task.Keeps v s ∧ s.find dir (.utf8 fname) = some record) ∧
        answer = .ok (capped task.cfg (.utf8 fname, record))) fun _ _ => True := by
  rintro s rfl
  have hthere := s.next_evolves.stays dir (.utf8 fname) record hfind
  rw [result, read_capped, bind_run, read, bind_run, call_run]
  by_cases hcrash : s.next.1.crash = true
  · simp [hcrash]
  · simp only [hcrash, Bool.false_eq_true, if_false, bind_run, get_run, hthere, hreads]
    exact ⟨⟨.of_evolves s.next_evolves, hthere⟩, rfl⟩

/-- When a record is read and something is there, its upload is done only with its id known. -/
theorem upload_done {v u : World} (hown : collected_id task.cfg (.utf8 fname, record) = some own)
    (hfind : v.find dir (.utf8 fname) = some record)
    (hnonempty : capped task.cfg (.utf8 fname, record) ≠ []) (hreads : v.next.1.fails = false)
    (hrun : task.upload build_id dir fname own v = .ok .done u) : u.state.contains own = true := by
  have hsteady := (Keeps.steady task v).and (steady_find dir (.utf8 fname) record)
  have hupload : Triple (fun s => s = v) (task.upload build_id dir fname own)
      (fun outcome s => outcome = .done → s.state.contains own = true) fun _ _ => True := by
    apply Triple.bind (read_capped_met hfind hreads)
    intro answer
    apply Triple.assume
    rintro rfl
    have hsome : (capped task.cfg (.utf8 fname, record)).isEmpty = false := by
      rwa [Bool.eq_false_iff, ne_eq, List.isEmpty_iff]
    simp only [hsome, Bool.false_eq_true, if_false]
    have hpublish := publish_core_dump_triple task hsteady own
      (capped task.cfg (.utf8 fname, record)) build_id
    apply Triple.bind_weaken (result_triple hpublish) fun _ _ _ => trivial
    intro answer
    cases answer with
    | error e => exact Triple.pure fun s _ h => by cases h
    | ok n =>
      apply (delivered_keeps v hown).mono
      · exact fun s hs => hs.1
      · exact fun _ s hs _ => hs.2
      · exact fun _ _ _ => trivial
  have hlast := hupload v rfl
  rw [hrun] at hlast
  exact hlast rfl

/-- The metadata of a record that lies there does not fail of itself. -/
theorem metadata_met {v w : World} {name : OsName} {stat : Option Metadata}
    (hfind : v.find dir name = some record) (hmeta : v.next.1.fails = false)
    (hrun : metadata dir name v = .ok stat w) : stat = some record.toMetadata ∧ w = v.next.2 := by
  have hthere := v.next_evolves.stays dir name record hfind
  rw [crashdump.metadata, bind_run, call_run] at hrun
  by_cases hcrash : v.next.1.crash = true
  · simp [hcrash] at hrun
  · simp only [hcrash, Bool.false_eq_true, if_false, bind_run, get_run, hthere, hmeta] at hrun
    cases hrun
    exact ⟨rfl, rfl⟩

/-- The record at `dir` is met with its metadata, and read if the link is up. -/
structure Met (connected : Bool) (v : World) : Prop where
  metadata : v.next.1.fails = false
  read : connected = true → v.next.2.next.1.fails = false

/-- A visit that meets the record is done only with its id known. -/
theorem visit_done {connected : Bool} {v u : World}
    (hown : collected_id task.cfg (.utf8 fname, record) = some own)
    (hfind : v.find dir (.utf8 fname) = some record)
    (hnonempty : capped task.cfg (.utf8 fname, record) ≠ []) (hmet : Met connected v)
    (hrun : task.visit build_id connected dir (.utf8 fname) v = .ok .done u) :
    u.state.contains own = true := by
  have hthere := v.next_evolves.stays dir (.utf8 fname) record hfind
  obtain ⟨hid, hkind, hfile⟩ : core_dump_id fname (mtime_secs record.modified) = own ∧
      matches_kind fname task.cfg.kinds = true ∧ record.is_file = true := by
    rw [collected_id] at hown
    split at hown
    · next hcollects => exact ⟨Option.some.inj hown, hcollects⟩
    · cases hown
  rw [visit, hkind, Bool.not_true, if_neg Bool.false_ne_true] at hrun
  obtain ⟨stat, w, hstat, hrest⟩ := bind_eq_ok_iff.mp hrun
  obtain ⟨rfl, rfl⟩ := metadata_met hfind hmet.metadata hstat
  simp only [hfile, Bool.not_true, Bool.false_eq_true, if_false, hid] at hrest
  rw [bind_of_ok (get_run _)] at hrest
  split at hrest
  · next hcontains =>
    obtain ⟨_, x, hdelete, hpure⟩ := bind_eq_ok_iff.mp hrest
    cases hpure
    have hkeeps := maybe_delete_keeps v hown v.next.2 ⟨.of_evolves v.next_evolves, hthere, hcontains⟩
    rw [hdelete] at hkeeps
    exact hkeeps.2
  · split at hrest
    · cases hrest
    · next hlink =>
      have hreads := hmet.read (by simpa using hlink)
      exact upload_done hown hthere hnonempty hreads hrest

end Visit

end Task

/-- A point of the scan: a directory is about to be listed, or an entry to be visited. -/
inductive Point where
  | listing (dir : String)
  | entry (dir : String) (name : OsName)

abbrev Trace := List (Point × World)

namespace Task

variable (task : Task) (build_id : Option String) (connected : Bool)

/-- The points of the loop over the entries of a directory, each with the world it finds. -/
def trace_entries (dir : String) : List OsName → World → Trace
  | [], _ => []
  | name :: names, s => (.entry dir name, s) ::
    match task.visit build_id connected dir name s with
    | .ok .failed _ => []
    | .ok _ t => trace_entries dir names t
    | .error _ _ => []

/-- The points of the loop over the directories. -/
def trace_dirs : List String → Nat → World → Trace
  | [], _, _ => []
  | dir :: dirs, deferred, s => (.listing dir, s) ::
    match read_dir dir s with
    | .error _ _ => []
    | .ok none t => trace_dirs dirs deferred t
    | .ok (some names) t => task.trace_entries build_id connected dir names t ++
      match task.scan_entries build_id connected dir names deferred t with
      | .ok (some deferred) u => trace_dirs dirs deferred u
      | _ => []

def trace (s : World) : Trace :=
  task.trace_dirs build_id s.publisher.is_connected task.cfg.paths 0 s

/-- On the way from `s`, with `deferred` records deferred, to `t` with the outcome `res`, the
entry has been visited at `v`; a failed upload ends the scan, a deferred record is counted. -/
structure Passes (s t : World) (deferred : Nat) (res : Option Nat) (dir : String) (name : OsName)
    (v : World) : Prop where
  before : task.Keeps s v
  visited : ∃ outcome u, task.visit build_id connected dir name v = .ok outcome u ∧ task.Keeps u t ∧
    (outcome = .failed → res = none) ∧ (outcome = .deferred → ∀ d ∈ res, deferred < d)

/-- What the points between `s` and `t` tell. When the scan goes on at `t`, the listings that
succeeded have had all their entries visited. -/
structure Covers (s t : World) (deferred : Nat) (res : Option Nat) (trace : Trace) : Prop where
  keeps : task.Keeps s t
  counts : ∀ d ∈ res, deferred ≤ d
  entries : ∀ dir name v, (.entry dir name, v) ∈ trace →
    task.Passes build_id connected s t deferred res dir name v
  listings : ∀ dir w, (.listing dir, w) ∈ trace → task.Keeps s w ∧ task.Keeps w t ∧
    ∃ listing u, read_dir dir w = .ok listing u ∧ (res.isSome → ∀ names ∈ listing,
      ∀ name ∈ names, ∃ v, (.entry dir name, v) ∈ trace)

variable {task build_id connected}

theorem Passes.after {s t v : World} {deferred : Nat} {res : Option Nat} {dir : String}
    {name : OsName} (hpasses : task.Passes build_id connected s t deferred res dir name v) :
    task.Keeps v t := by
  obtain ⟨-, visited, u, hvisit, hafter, -⟩ := hpasses
  have hkeeps := visit_keeps task build_id connected dir name v
  rw [hvisit] at hkeeps
  exact hkeeps.trans hafter

theorem Covers.nil (s : World) (deferred : Nat) :
    task.Covers build_id connected s s deferred (some deferred) [] where
  keeps := .refl s
  counts d hd := (Option.mem_some.mp hd).le
  entries _ _ _ hmem := by cases hmem
  listings _ _ hmem := by cases hmem

/-- One stretch of the scan after another. -/
theorem Covers.append {s t u : World} {deferred deferred' : Nat} {res : Option Nat}
    {first second : Trace} (hfirst : task.Covers build_id connected s t deferred (some deferred') first)
    (hsecond : task.Covers build_id connected t u deferred' res second) :
    task.Covers build_id connected s u deferred res (first ++ second) where
  keeps := hfirst.keeps.trans hsecond.keeps
  counts d hd := (hfirst.counts deferred' rfl).trans (hsecond.counts d hd)
  entries := by
    intro dir name v hmem
    obtain hmem | hmem := List.mem_append.mp hmem
    · obtain ⟨hbefore, outcome, w, hvisit, hafter, hfailed, hdeferred⟩ := hfirst.entries dir name v hmem
      refine ⟨hbefore, outcome, w, hvisit, hafter.trans hsecond.keeps, ?_, ?_⟩
      · exact fun h => by cases hfailed h
      · exact fun h d hd => (hdeferred h deferred' rfl).trans_le (hsecond.counts d hd)
    · obtain ⟨hbefore, outcome, w, hvisit, hafter, hfailed, hdeferred⟩ := hsecond.entries dir name v hmem
      refine ⟨hfirst.keeps.trans hbefore, outcome, w, hvisit, hafter, hfailed, ?_⟩
      exact fun h d hd => (hfirst.counts deferred' rfl).trans_lt (hdeferred h d hd)
  listings := by
    intro dir w hmem
    obtain hmem | hmem := List.mem_append.mp hmem
    · obtain ⟨hbefore, hafter, listing, v, hread, hvisited⟩ := hfirst.listings dir w hmem
      refine ⟨hbefore, hafter.trans hsecond.keeps, listing, v, hread, ?_⟩
      intro _ names hnames name hname
      obtain ⟨x, hx⟩ := hvisited rfl names hnames name hname
      exact ⟨x, List.mem_append_left _ hx⟩
    · obtain ⟨hbefore, hafter, listing, v, hread, hvisited⟩ := hsecond.listings dir w hmem
      refine ⟨hfirst.keeps.trans hbefore, hafter, listing, v, hread, ?_⟩
      intro hsome names hnames name hname
      obtain ⟨x, hx⟩ := hvisited hsome names hnames name hname
      exact ⟨x, List.mem_append_right _ hx⟩

/-- A single visit. -/
theorem Covers.visit {s t : World} {deferred : Nat} {res : Option Nat} {dir : String}
    {name : OsName} {outcome : Visit} (hvisit : task.visit build_id connected dir name s = .ok outcome t)
    (hfailed : outcome = .failed → res = none) (hcounts : ∀ d ∈ res, deferred ≤ d)
    (hdeferred : outcome = .deferred → ∀ d ∈ res, deferred < d) :
    task.Covers build_id connected s t deferred res [(.entry dir name, s)] where
  keeps := by
    have hkeeps := visit_keeps task build_id connected dir name s
    rwa [hvisit] at hkeeps
  counts := hcounts
  entries := by
    intro d n v hmem
    obtain ⟨heq, rfl⟩ := Prod.mk.inj (List.mem_singleton.mp hmem)
    cases heq
    exact ⟨.refl v, outcome, t, hvisit, .refl t, hfailed, hdeferred⟩
  listings := by
    intro d w hmem
    cases (Prod.mk.inj (List.mem_singleton.mp hmem)).1

/-- The loop over the entries, and all of them are visited when it comes to its end. -/
theorem scan_entries_covers {dir : String} {names : List OsName} {deferred : Nat} {s t : World}
    {res : Option Nat} (hrun : task.scan_entries build_id connected dir names deferred s = .ok res t) :
    task.Covers build_id connected s t deferred res
      (task.trace_entries build_id connected dir names s) ∧
    (res.isSome → ∀ name ∈ names, ∃ v,
      (.entry dir name, v) ∈ task.trace_entries build_id connected dir names s) := by
  induction names generalizing deferred s with
  | nil =>
    cases hrun
    exact ⟨.nil t deferred, fun _ name hname => by cases hname⟩
  | cons name names ih =>
    rw [scan_entries] at hrun
    obtain ⟨outcome, u, hvisit, hrest⟩ := bind_eq_ok_iff.mp hrun
    have hgoes : ∀ deferred' (hrest : task.scan_entries build_id connected dir names deferred' u =
        .ok res t) (hcovers : task.Covers build_id connected s u deferred (some deferred')
        [(.entry dir name, s)]),
        task.Covers build_id connected s t deferred res
          ((.entry dir name, s) :: task.trace_entries build_id connected dir names u) ∧
        (res.isSome → ∀ n ∈ name :: names, ∃ v, (.entry dir n, v) ∈
          (Point.entry dir name, s) :: task.trace_entries build_id connected dir names u) := by
      intro deferred' hrest hcovers
      obtain ⟨hafter, hall⟩ := ih hrest
      refine ⟨hcovers.append hafter, fun hsome n hn => ?_⟩
      obtain rfl | hn := List.mem_cons.mp hn
      · exact ⟨s, List.mem_cons_self⟩
      · obtain ⟨v, hv⟩ := hall hsome n hn
        exact ⟨v, List.mem_cons_of_mem _ hv⟩
    rw [trace_entries, hvisit]
    cases outcome with
    | done =>
      exact hgoes deferred hrest (.visit hvisit (fun h => by cases h)
        (fun d hd => (Option.mem_some.mp hd).le) fun h => by cases h)
    | deferred =>
      exact hgoes (deferred + 1) hrest (.visit hvisit (fun h => by cases h)
        (fun d hd => (Nat.le_succ _).trans (Option.mem_some.mp hd).le)
        fun _ d hd => (Nat.lt_succ_self _).trans_le (Option.mem_some.mp hd).le)
    | failed =>
      cases hrest
      exact ⟨.visit hvisit (fun _ => rfl) (fun d hd => by cases hd) (fun h => by cases h),
        fun h => by cases h⟩

/-- A directory whose listing fails. -/
theorem Covers.unlisted {s t : World} {deferred : Nat} {dir : String}
    (hread : read_dir dir s = .ok none t) :
    task.Covers build_id connected s t deferred (some deferred) [(.listing dir, s)] where
  keeps := by
    have hevolves := evolves_harmless.read_dir dir s
    rw [hread] at hevolves
    exact .of_evolves hevolves
  counts d hd := (Option.mem_some.mp hd).le
  entries := by
    intro d n v hmem
    cases (Prod.mk.inj (List.mem_singleton.mp hmem)).1
  listings := by
    intro d w hmem
    obtain ⟨heq, rfl⟩ := Prod.mk.inj (List.mem_singleton.mp hmem)
    cases heq
    have hevolves := evolves_harmless.read_dir dir w
    rw [hread] at hevolves
    exact ⟨.refl w, .of_evolves hevolves, none, t, hread, fun _ names hnames => by cases hnames⟩

/-- A directory that is listed, with the visits of its entries. -/
theorem Covers.listed {s t u : World} {deferred : Nat} {res : Option Nat} {dir : String}
    {names : List OsName} {trace : Trace} (hread : read_dir dir s = .ok (some names) t)
    (hentries : task.Covers build_id connected t u deferred res trace)
    (hall : res.isSome → ∀ name ∈ names, ∃ v, (.entry dir name, v) ∈ trace) :
    task.Covers build_id connected s u deferred res ((.listing dir, s) :: trace) := by
  have hevolves := evolves_harmless.read_dir dir s
  rw [hread] at hevolves
  have hkeeps : task.Keeps s t := .of_evolves hevolves
  refine ⟨hkeeps.trans hentries.keeps, hentries.counts, ?_, ?_⟩
  · intro d n v hmem
    obtain heq | hmem := List.mem_cons.mp hmem
    · cases (Prod.mk.inj heq).1
    · obtain ⟨hbefore, hvisited⟩ := hentries.entries d n v hmem
      exact ⟨hkeeps.trans hbefore, hvisited⟩
  · intro d w hmem
    obtain heq | hmem := List.mem_cons.mp hmem
    · obtain ⟨heq, rfl⟩ := Prod.mk.inj heq
      cases heq
      refine ⟨.refl w, hkeeps.trans hentries.keeps, some names, t, hread, ?_⟩
      rintro hsome names' ⟨⟩ name hname
      obtain ⟨x, hx⟩ := hall hsome name hname
      exact ⟨x, List.mem_cons_of_mem _ hx⟩
    · obtain ⟨hbefore, hafter, listing, v, hlisting, hvisited⟩ := hentries.listings d w hmem
      refine ⟨hkeeps.trans hbefore, hafter, listing, v, hlisting, ?_⟩
      intro hsome names' hnames name hname
      obtain ⟨x, hx⟩ := hvisited hsome names' hnames name hname
      exact ⟨x, List.mem_cons_of_mem _ hx⟩

/-- The loop over the directories, and all of them are listed when it comes to its end. -/
theorem scan_dirs_covers {dirs : List String} {deferred : Nat} {s t : World} {res : Option Nat}
    (hrun : task.scan_dirs build_id connected dirs deferred s = .ok res t) :
    task.Covers build_id connected s t deferred res
      (task.trace_dirs build_id connected dirs deferred s) ∧
    (res.isSome → ∀ dir ∈ dirs, ∃ w,
      (.listing dir, w) ∈ task.trace_dirs build_id connected dirs deferred s) := by
  induction dirs generalizing deferred s with
  | nil =>
    cases hrun
    exact ⟨.nil t deferred, fun _ dir hdir => by cases hdir⟩
  | cons dir dirs ih =>
    rw [scan_dirs] at hrun
    obtain ⟨listing, u, hread, hrest⟩ := bind_eq_ok_iff.mp hrun
    rw [trace_dirs, hread]
    cases listing with
    | none =>
      obtain ⟨hcovers, hall⟩ := ih hrest
      refine ⟨(Covers.unlisted hread).append hcovers, fun hsome d hd => ?_⟩
      obtain rfl | hd := List.mem_cons.mp hd
      · exact ⟨s, List.mem_cons_self⟩
      · obtain ⟨w, hw⟩ := hall hsome d hd
        exact ⟨w, List.mem_cons_of_mem _ hw⟩
    | some names =>
      obtain ⟨outcome, v, hentries, hrest⟩ := bind_eq_ok_iff.mp hrest
      obtain ⟨hcovers, hvisited⟩ := scan_entries_covers hentries
      simp only [hentries]
      cases outcome with
      | none =>
        cases hrest
        rw [List.append_nil]
        exact ⟨.listed hread hcovers hvisited, fun h => by cases h⟩
      | some deferred' =>
        obtain ⟨hafter, hall⟩ := ih hrest
        refine ⟨(Covers.listed hread hcovers hvisited).append hafter, fun hsome d hd => ?_⟩
        obtain rfl | hd := List.mem_cons.mp hd
        · exact ⟨s, List.mem_cons_self⟩
        · obtain ⟨w, hw⟩ := hall hsome d hd
          exact ⟨w, List.mem_cons_of_mem _ (List.mem_append_right _ hw)⟩

/-- The scan could not get at the entry: each time its directory was listed, the listing failed
or left it out or the entry was visited, and at each visit its metadata or, with the link up,
its content could not be read. -/
structure Unreadable (connected : Bool) (trace : Trace) (dir : String) (name : OsName) : Prop where
  listed : ∃ w, (.listing dir, w) ∈ trace
  shown : ∀ w, (.listing dir, w) ∈ trace → w.next.1.fails = true ∨ w.next.1.hides name = true ∨
    ∃ v, (.entry dir name, v) ∈ trace
  unmet : ∀ v, (.entry dir name, v) ∈ trace → ¬ Met connected v

/-- When nothing fails and nothing is left out, the scan gets at it. -/
theorem not_unreadable {connected : Bool} {trace : Trace} {dir : String} {name : OsName}
    (hclear : ∀ point ∈ trace, point.2.next.1.fails = false ∧ point.2.next.1.hides name = false ∧
      point.2.next.2.next.1.fails = false) : ¬ Unreadable connected trace dir name := by
  rintro ⟨⟨w, hw⟩, hshown, hunmet⟩
  obtain ⟨hworks, hlists, -⟩ := hclear _ hw
  obtain hfails | hhides | ⟨v, hv⟩ := hshown w hw
  · exact absurd (hworks.symm.trans hfails) Bool.false_ne_true
  · exact absurd (hlists.symm.trans hhides) Bool.false_ne_true
  · obtain ⟨hworks, -, hreads⟩ := hclear _ hv
    exact hunmet v hv ⟨hworks, fun _ => hreads⟩

/-- A listing that succeeds and leaves out no entry of this name has it. -/
theorem mem_of_read_dir {dir : String} {name : OsName} {record : Record} {s t : World}
    {listing : Option (List OsName)} (hfind : s.find dir name = some record)
    (hfails : s.next.1.fails = false) (hhides : s.next.1.hides name = false)
    (hread : read_dir dir s = .ok listing t) : ∃ names ∈ listing, name ∈ names := by
  have hthere := s.next_evolves.stays dir name record hfind
  obtain ⟨records, hrecords, hlookup⟩ := Option.bind_eq_some_iff.mp hthere
  rw [read_dir, bind_run, call_run] at hread
  by_cases hcrash : s.next.1.crash = true
  · simp [hcrash] at hread
  · simp only [hcrash, Bool.false_eq_true, if_false, bind_run, get_run, hrecords, hfails] at hread
    cases hread
    refine ⟨_, rfl, List.mem_filter.mpr ⟨?_, by simp [hhides]⟩⟩
    exact AList.mem_keys.mp (AList.lookup_isSome.mp (by rw [hlookup]; rfl))

/-- How a scan that returns has ended. -/
theorem scan_and_publish_ok {s t : World} {outcome : ScanOutcome}
    (hrun : task.scan_and_publish build_id s = .ok outcome t) : ∃ res,
    task.scan_dirs build_id s.publisher.is_connected task.cfg.paths 0 s = .ok res t ∧
      (outcome = .Idle ↔ res = some 0) := by
  rw [scan_and_publish, bind_of_ok (get_run s)] at hrun
  obtain ⟨res, u, hdirs, hend⟩ := bind_eq_ok_iff.mp hrun
  cases res with
  | none =>
    cases hend
    exact ⟨none, hdirs, by simp⟩
  | some deferred =>
    cases hend
    refine ⟨some deferred, hdirs, ?_⟩
    split <;> simp <;> omega

/-- The id is delivered when the task idles, and as long as it is not the task retries soon. -/
def Heeds (outcome : ScanOutcome) (t : World) (id : UInt64) : Prop :=
  (outcome = .Idle → t.state.contains id = true) ∧
    (t.state.contains id = false → outcome = .RetrySoon)

theorem Heeds.of_known {t : World} {outcome : ScanOutcome} {id : UInt64}
    (hknown : outcome = .Idle → t.state.contains id = true) : Heeds outcome t id := by
  refine ⟨hknown, fun hunknown => ?_⟩
  cases outcome with
  | RetrySoon => rfl
  | Idle =>
    rw [hknown rfl] at hunknown
    cases hunknown

/-- What a visit has met is known in the end, unless it has been deferred or its upload has
failed. -/
theorem Passes.known {s t v : World} {dir : String} {name : OsName} {record : Record} {id : UInt64}
    (hpasses : task.Passes build_id connected s t 0 (some 0) dir name v)
    (hfind : v.find dir name = some record) (hid : collected_id task.cfg (name, record) = some id)
    (hnonempty : capped task.cfg (name, record) ≠ []) (hmet : Met connected v) :
    t.state.contains id = true := by
  obtain ⟨-, visited, u, hvisit, hafter, hfailed, hdeferred⟩ := hpasses
  cases visited with
  | failed => cases hfailed rfl
  | deferred => exact absurd (hdeferred rfl 0 rfl) (Nat.lt_irrefl 0)
  | done =>
    cases name with
    | other bytes => cases hid
    | utf8 fname => exact hafter.known id (visit_done hid hfind hnonempty hmet hvisit)

/-- After a visit that deferred its record or failed to upload it, some record is waiting. -/
theorem Passes.waits {s t u v : World} {res : Option Nat} {dir : String} {name : OsName}
    {outcome : Visit} (hpasses : task.Passes build_id connected s t 0 res dir name v)
    (hvisit : task.visit build_id connected dir name v = .ok outcome u)
    (hwaits : outcome = .deferred ∨ outcome = .failed) : res ≠ some 0 := by
  obtain ⟨-, outcome', u', hvisit', -, hfailed, hdeferred⟩ := hpasses
  rw [hvisit] at hvisit'
  cases hvisit'
  rintro rfl
  obtain hwaits | hwaits := hwaits
  · exact absurd (hdeferred hwaits 0 rfl) (Nat.lt_irrefl 0)
  · cases hfailed hwaits

/-- When nothing is waiting and the id of a record is not known, the scan could not get at it. -/
theorem Covers.unreadable {s t : World} {trace : Trace} {dir : String} {name : OsName}
    {record : Record} {id : UInt64}
    (hcovers : task.Covers build_id connected s t 0 (some 0) trace)
    (hlisted : ∃ w, (.listing dir, w) ∈ trace) (hfind : s.find dir name = some record)
    (hid : collected_id task.cfg (name, record) = some id)
    (hnonempty : capped task.cfg (name, record) ≠ []) (hunknown : ¬ t.state.contains id = true) :
    Unreadable connected trace dir name := by
  -- up to the end of the scan the record lies where it was
  have hlies : ∀ w, task.Keeps s w → task.Keeps w t → w.find dir name = some record := by
    intro w hbefore hafter
    have hthere := hbefore.lying dir name record id hid hfind
    exact hthere.resolve_right fun h => hunknown (hafter.known id h)
  refine ⟨hlisted, ?_, ?_⟩
  · intro w hw
    obtain ⟨hbefore, hafter, listing, u, hread, hvisited⟩ := hcovers.listings dir w hw
    by_contra hshown
    obtain ⟨hfails, hrest⟩ := not_or.mp hshown
    obtain ⟨hhides, hnone⟩ := not_or.mp hrest
    obtain ⟨names, hnames, hname⟩ := mem_of_read_dir (hlies w hbefore hafter)
      (Bool.eq_false_iff.mpr hfails) (Bool.eq_false_iff.mpr hhides) hread
    exact hnone (hvisited rfl names hnames name hname)
  · intro v hv hmet
    have hpasses := hcovers.entries dir name v hv
    have hfound := hlies v hpasses.before hpasses.after
    exact hunknown (hpasses.known hfound hid hnonempty hmet)

/-- The scanner idles only when nothing is waiting. A record that lies in one of its directories,
that it collects and of which there is something to read, has its id delivered when the outcome
is idle, unless the scan could not get at it; and so has one that appeared meanwhile and was met
by a visit. A scan that deferred a record or failed to upload it is to be repeated soon. -/
theorem idle_when_nothing_waits {s t : World} {outcome : ScanOutcome}
    (hrun : task.scan_and_publish build_id s = .ok outcome t) :
    (∀ dir ∈ task.cfg.paths, ∀ name record id, s.find dir name = some record →
      collected_id task.cfg (name, record) = some id → capped task.cfg (name, record) ≠ [] →
      ¬ Unreadable s.publisher.is_connected (task.trace build_id s) dir name →
      Heeds outcome t id) ∧
    (∀ dir name v record id, (.entry dir name, v) ∈ task.trace build_id s →
      v.find dir name = some record → collected_id task.cfg (name, record) = some id →
      capped task.cfg (name, record) ≠ [] → Met s.publisher.is_connected v →
      Heeds outcome t id) ∧
    ∀ dir name v visited u, (.entry dir name, v) ∈ task.trace build_id s →
      task.visit build_id s.publisher.is_connected dir name v = .ok visited u →
      visited = .deferred ∨ visited = .failed → outcome = .RetrySoon := by
  obtain ⟨res, hdirs, hidle⟩ := scan_and_publish_ok hrun
  obtain ⟨hcovers, hall⟩ := scan_dirs_covers hdirs
  refine ⟨?_, ?_, ?_⟩
  · intro dir hdir name record id hfind hid hnonempty hreadable
    refine .of_known fun hout => ?_
    obtain rfl := hidle.mp hout
    by_contra hunknown
    exact hreadable (hcovers.unreadable (hall rfl dir hdir) hfind hid hnonempty hunknown)
  · intro dir name v record id hv hfind hid hnonempty hmet
    refine .of_known fun hout => ?_
    obtain rfl := hidle.mp hout
    exact (hcovers.entries dir name v hv).known hfind hid hnonempty hmet
  · intro dir name v visited u hv hvisit hwaits
    have hnonzero := (hcovers.entries dir name v hv).waits hvisit hwaits
    cases outcome with
    | RetrySoon => rfl
    | Idle => exact absurd (hidle.mp rfl) hnonzero

/-- A boot after a crash. -/
def crashed (connected : Bool) : World :=
  { idle.world.appear (dump "0" 5 [1, 2]) with publisher := ⟨connected, [], [], []⟩ }

/-- With the link up the dump is uploaded and its id known; with the link down it is retried
soon. -/
theorem idle_when_nothing_waits_crashed :
    (∃ t, dumps.scan_and_publish none (crashed true) = .ok .Idle t ∧
      t.state.contains (core_dump_id "dmesg-ramoops-0" 5) = true) ∧
    ∃ t, dumps.scan_and_publish none (crashed false) = .ok .RetrySoon t ∧
      t.state.contains (core_dump_id "dmesg-ramoops-0" 5) = false := by
  have hwaits : ∀ connected outcome t,
      dumps.scan_and_publish none (crashed connected) = .ok outcome t →
      Heeds outcome t (core_dump_id "dmesg-ramoops-0" 5) := by
    intro connected outcome t hrun
    have hlies : (crashed connected).find "/sys/fs/pstore" (.utf8 "dmesg-ramoops-0") =
        some (dump "0" 5 [1, 2]).record := by
      cases connected <;> rfl
    have hclear : (dumps.trace none (crashed connected)).all (fun point =>
        point.2.next.1.fails = false ∧ point.2.next.1.hides (.utf8 "dmesg-ramoops-0") = false ∧
        point.2.next.2.next.1.fails = false) = true := by
      cases connected <;> decide +kernel
    have hpoints := fun point hpoint => of_decide_eq_true (List.all_eq_true.mp hclear point hpoint)
    exact (idle_when_nothing_waits hrun).1 "/sys/fs/pstore" (by decide) (.utf8 "dmesg-ramoops-0") _ _
      hlies (by rfl) (by decide) (not_unreadable hpoints)
  constructor
  · have hidle : passes (fun outcome _ => outcome = .Idle)
        (dumps.scan_and_publish none (crashed true)) = true := by
      decide +kernel
    obtain ⟨outcome, t, hrun, htest⟩ := exists_ok_of_passes hidle
    obtain rfl : outcome = .Idle := of_decide_eq_true htest
    exact ⟨t, hrun, (hwaits _ _ _ hrun).1 rfl⟩
  · have hunknown : passes (fun _ t => !t.state.contains (core_dump_id "dmesg-ramoops-0" 5))
        (dumps.scan_and_publish none (crashed false)) = true := by
      rfl
    obtain ⟨outcome, t, hrun, htest⟩ := exists_ok_of_passes hunknown
    rw [Bool.not_eq_true'] at htest
    obtain rfl := (hwaits _ _ _ hrun).2 htest
    exact ⟨t, hrun, htest⟩

end Task

end spotflowd.sources.crashdump
