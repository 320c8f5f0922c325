import Spotflowd.Sources.Crashdump.Calls

open effect fs path

namespace spotflowd.sources.crashdump

/-- The name under which the state is written before it is renamed. -/
abbrev tmp : FileName := with_extension STATE_FILE_NAME "json.tmp"

theorem state_file_ne_tmp : STATE_FILE_NAME ≠ tmp := by decide

namespace Task

variable {task : Task} {P : World → Prop}
  (hnext : ∀ s, P s → P s.next.2)
  (hsame : ∀ s dir, dir.files.lookup STATE_FILE_NAME = s.state_dir.files.lookup STATE_FILE_NAME →
    dir.renamed = s.state_dir.renamed → P s → P { s with state_dir := dir })

include hnext hsame

theorem create_triple (context : String) :
    Triple P (on_state_dir context create_dir_all) (fun _ => P) fun _ => P := by
  have hcreate : ∀ s dir, finalState (create_dir_all s.state_dir) = dir → P s →
      P { s with state_dir := dir } := by
    rintro s dir rfl hs
    exact hsame s _ (by rw [create_dir_all_files]) (create_dir_all_renamed _) hs
  apply on_state_dir_triple
  · exact hnext
  · exact fun s hs => hs
  · exact fun s _ dir hs hok => hcreate s dir (by rw [hok, finalState_ok]) hs
  · exact fun s e dir hs herror => hcreate s dir (by rw [herror, finalState_error]) hs

theorem write_tmp_triple (context : String) (bytes : Bytes) :
    Triple P (on_state_dir context (write tmp bytes))
      (fun _ s => P s ∧ s.state_dir.files.lookup tmp = some bytes) fun _ => P := by
  apply on_state_dir_triple
  · exact hnext
  · exact fun s hs => hs
  · intro s _ dir hs hok
    obtain ⟨hfiles, -, hrenamed⟩ := write_ok hok
    constructor
    · apply hsame s dir _ hrenamed hs
      rw [hfiles, AList.lookup_insert_ne state_file_ne_tmp]
    · rw [hfiles, AList.lookup_insert]
  · intro s e dir hs herror
    obtain ⟨-, hrenamed, hfiles | ⟨cut, hfiles⟩⟩ := write_error herror
    · exact hsame s dir (by rw [hfiles]) hrenamed hs
    · apply hsame s dir _ hrenamed hs
      rw [hfiles, AList.lookup_insert_ne state_file_ne_tmp]

variable (hcommit : ∀ s dir bytes, task.json.to_vec s.state = some bytes →
    dir.files.lookup STATE_FILE_NAME = some bytes →
    dir.renamed = s.state_dir.renamed ++ [(STATE_FILE_NAME, bytes)] → P s →
    P { s with state_dir := dir })

include hcommit

theorem rename_tmp_triple (context : String) {saved : State} {bytes : Bytes}
    (hbytes : task.json.to_vec saved = some bytes) :
    Triple (fun s => (P s ∧ s.state = saved) ∧ s.state_dir.files.lookup tmp = some bytes)
      (on_state_dir context (rename tmp STATE_FILE_NAME))
      (fun _ s => P s ∧ s.state = saved ∧ (STATE_FILE_NAME, bytes) ∈ s.state_dir.renamed)
      fun _ => P := by
  apply on_state_dir_triple
  · rintro s ⟨⟨hs, hstate⟩, htmp⟩
    rw [World.next_state_dir]
    exact ⟨⟨hnext s hs, s.next_evolves.state.trans hstate⟩, htmp⟩
  · exact fun s hs => hs.1.1
  · rintro s _ dir ⟨⟨hs, rfl⟩, htmp⟩ hok
    obtain ⟨content, hcontent, hfiles, -, hrenamed⟩ := rename_ok hok
    obtain rfl := Option.some.inj (hcontent.symm.trans htmp)
    refine ⟨hcommit s dir content hbytes ?_ hrenamed hs, rfl, ?_⟩
    · rw [hfiles, AList.lookup_insert]
    · rw [hrenamed]
      exact List.mem_append_right _ List.mem_cons_self
  · rintro s e dir ⟨⟨hs, -⟩, -⟩ herror
    obtain ⟨hfiles, -, hrenamed⟩ := rename_error herror
    exact hsame s dir (by rw [hfiles]) hrenamed hs

/-- Saving keeps what survives calls, changes beside the state file and the renaming of the
new state into place. A success means the renaming has happened. -/
theorem save_triple :
    Triple P task.save
      (fun _ s => P s ∧ ∃ bytes, task.json.to_vec s.state = some bytes ∧
        (STATE_FILE_NAME, bytes) ∈ s.state_dir.renamed)
      fun _ => P := by
  apply Triple.bind (create_triple hnext hsame _)
  intro _
  apply Triple.bind Triple.get
  intro found
  cases hbytes : task.json.to_vec found.state with
  | none => exact Triple.throw fun s hs => hs.1
  | some bytes =>
    have hwrite : Triple (fun s => P s ∧ found = s)
        (on_state_dir ("write " ++ task.display tmp) (write tmp bytes))
        (fun _ s => (P s ∧ s.state = found.state) ∧ s.state_dir.files.lookup tmp = some bytes)
        fun _ => P := by
      apply (write_tmp_triple (P := fun s => P s ∧ s.state = found.state) _ _ _ bytes).mono
      · exact fun s hs => ⟨hs.1, by rw [hs.2]⟩
      · exact fun _ s hs => hs
      · exact fun _ s hs => hs.1
      · exact fun s hs => ⟨hnext s hs.1, s.next_evolves.state.trans hs.2⟩
      · exact fun s dir hfile hrenamed hs => ⟨hsame s dir hfile hrenamed hs.1, hs.2⟩
    apply Triple.bind hwrite
    intro _
    apply (rename_tmp_triple hnext hsame hcommit _ hbytes).post
    rintro _ s ⟨hs, hstate, hmem⟩
    exact ⟨hs, bytes, hstate ▸ hbytes, hmem⟩

end Task

end spotflowd.sources.crashdump
