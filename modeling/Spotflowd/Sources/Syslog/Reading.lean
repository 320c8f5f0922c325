import Spotflowd.Sources.Syslog.Parse

open str
open spotflowd.log_entry

namespace spotflowd.sources.syslog

/-- The text between `<` and the first `>`, and the text after it. -/
def pri_and_rest (line : Str) : Option (Str × Str) :=
  match line with
  | '<' :: tail => split_once '>' tail
  | _ => none

theorem pri_and_rest_eq_some {line pri rest : Str} (hline : pri_and_rest line = some (pri, rest)) :
    line = '<' :: (pri ++ '>' :: rest) ∧ '>' ∉ pri := by
  unfold pri_and_rest at hline
  split at hline
  · obtain ⟨rfl, hpri⟩ := split_once_eq_some hline
    exact ⟨rfl, hpri⟩
  · cases hline

theorem pri_and_rest_append {pri : Str} (hpri : '>' ∉ pri) (rest : Str) :
    pri_and_rest ('<' :: (pri ++ '>' :: rest)) = some (pri, rest) :=
  split_once_append hpri rest

/-- A line in angle brackets has a PRI or is left alone by the RFC parsers. -/
theorem pri_and_rest_eq_none {line : Str} (hline : pri_and_rest line = none) :
    line.head? ≠ some '<' ∨ find '>' line = none := by
  cases line with
  | nil => exact Or.inl (by simp)
  | cons c tail =>
    by_cases hc : c = '<'
    · subst hc
      have htail : split_once '>' tail = none := hline
      refine Or.inr ?_
      rw [find_eq, Option.map_eq_none_iff, split_once_eq_none]
      exact List.not_mem_cons_of_ne_of_not_mem (by decide) (split_once_eq_none.mp htail)
    · exact Or.inl (by simpa using hc)

section Brackets

variable {pri : Str} (hpri : '>' ∉ pri) (rest : Str)

include hpri

theorem find_pri_end : find '>' ('<' :: (pri ++ '>' :: rest)) = some (len ('<' :: pri)) := by
  have hbefore : '>' ∉ '<' :: pri := List.not_mem_cons_of_ne_of_not_mem (by decide) hpri
  rw [find_eq, ← List.cons_append, split_once_append hbefore, Option.map_some]

omit hpri in
theorem slice_pri : slice ('<' :: (pri ++ '>' :: rest)) 1 (len ('<' :: pri)) = .ok pri :=
  slice_append ['<'] pri ('>' :: rest)

omit hpri in
theorem slice_rest : slice_from ('<' :: (pri ++ '>' :: rest)) (len ('<' :: pri) + 1) = .ok rest := by
  have hslice := slice_from_append ('<' :: pri ++ ['>']) rest
  rwa [List.append_assoc, len_append] at hslice

end Brackets

/-- What follows a PRI, read as RFC 5424. -/
def read_rfc5424 (chrono : Chrono) (pri rest : Str) : Option LogEntry :=
  match rest with
  | '1' :: rest =>
    match splitn ' ' 7 (trim_start rest) with
    | [timestamp, hostname, process, pid, _, _, msg] =>
      some (rfc5424_entry chrono pri timestamp hostname process pid msg)
    | _ => none
  | _ => none

theorem read_rfc5424_of_head (chrono : Chrono) (pri : Str) {rest : Str} (hhead : rest.head? ≠ some '1') :
    read_rfc5424 chrono pri rest = none := by
  unfold read_rfc5424
  split
  · exact absurd rfl hhead
  · rfl

theorem try_rfc5424_of_unbracketed (chrono : Chrono) {line : Str} (hline : pri_and_rest line = none) :
    try_rfc5424 chrono line = .ok none := by
  unfold try_rfc5424
  obtain hhead | hfind := pri_and_rest_eq_none hline
  · rw [if_pos hhead]
    rfl
  · split
    · rfl
    · rw [hfind]
      rfl

theorem length_splitn_le (n : Nat) (s : Str) : (splitn ' ' n s).length ≤ n := by
  cases n with
  | zero => exact Nat.le_refl 0
  | succ n =>
    rw [length_splitn]
    omega

/-- The fields of a header that has all of them. -/
theorem seven_parts {parts : List Str} (hparts : parts.length = 7) :
    ∃ timestamp hostname process pid msgid sd msg,
      parts = [timestamp, hostname, process, pid, msgid, sd, msg] := by
  match parts, hparts with
  | [timestamp, hostname, process, pid, msgid, sd, msg], _ =>
    exact ⟨timestamp, hostname, process, pid, msgid, sd, msg, rfl⟩

theorem try_rfc5424_eq (chrono : Chrono) {pri : Str} (hpri : '>' ∉ pri) (rest : Str) :
    try_rfc5424 chrono ('<' :: (pri ++ '>' :: rest)) = .ok (read_rfc5424 chrono pri rest) := by
  unfold try_rfc5424
  rw [if_neg (by simp), find_pri_end hpri]
  dsimp only
  rw [slice_pri, slice_rest, ok_bind, ok_bind]
  cases rest with
  | nil => rfl
  | cons c rest =>
    by_cases hversion : c = '1'
    · subst hversion
      have hslice : slice_from ('1' :: rest) 1 = .ok rest := slice_from_append ['1'] rest
      have hle := length_splitn_le 7 (trim_start rest)
      rw [if_neg (by simp), hslice, ok_bind, read_rfc5424]
      generalize splitn ' ' 7 (trim_start rest) = parts at hle ⊢
      by_cases hshort : parts.length < 7
      · rw [if_pos hshort]
        split
        · simp at hshort
        · rfl
      · obtain ⟨timestamp, hostname, process, pid, msgid, sd, msg, rfl⟩ :=
          @seven_parts parts (by omega)
        rfl
    · have hhead : (c :: rest).head? ≠ some '1' := by simpa using hversion
      rw [if_pos hhead, read_rfc5424_of_head chrono pri hhead]
      rfl

/-- A tag: the process, and the pid in brackets after it. -/
def read_tag (tag : Str) : Str × Option Int64 :=
  match split_once '[' tag with
  | some (process, pid) => (process, parse_i64 (trim_end_matches ']' pid))
  | none => (tag, none)

theorem parse_tag_eq (tag : Str) : parse_tag tag = .ok (read_tag tag) := by
  unfold parse_tag read_tag
  rw [find_eq]
  cases hsplit : split_once '[' tag with
  | none => rfl
  | some halves =>
    obtain ⟨process, pid⟩ := halves
    obtain ⟨rfl, -⟩ := split_once_eq_some hsplit
    have hpid : slice_from (process ++ '[' :: pid) (len process + 1) = .ok pid := by
      have hslice := slice_from_append (process ++ ['[']) pid
      rwa [List.append_assoc, len_append] at hslice
    simp only [Option.map_some, slice_to_append, hpid, ok_bind]
    rfl

/-- Split at the space that has `n` spaces before it. -/
def split_nth_space : Nat → Str → Option (Str × Str)
  | _, [] => none
  | n, c :: s =>
    if c = ' ' then
      match n with
      | 0 => some ([], s)
      | n + 1 => (split_nth_space n s).map fun halves => (c :: halves.1, halves.2)
    else (split_nth_space n s).map fun halves => (c :: halves.1, halves.2)

theorem split_nth_space_succ (n : Nat) (s : Str) :
    split_nth_space (n + 1) (' ' :: s) =
      (split_nth_space n s).map fun halves => (' ' :: halves.1, halves.2) := rfl

theorem split_nth_space_other {c : Char} (hc : c ≠ ' ') (n : Nat) (s : Str) :
    split_nth_space n (c :: s) = (split_nth_space n s).map fun halves => (c :: halves.1, halves.2) := by
  cases n <;> simp only [split_nth_space, if_neg hc]

theorem find_nth_space_eq (n : Nat) (s : Str) :
    find_nth_space (n + 1) s = (split_nth_space n s).map fun halves => len halves.1 := by
  have hcons (c : Char) (found : Option (Str × Str)) :
      (found.map fun halves => len halves.1).map (· + c.utf8Size) =
        (found.map fun halves => (c :: halves.1, halves.2)).map fun halves => len halves.1 := by
    rw [Option.map_map, Option.map_map]
    congr 1
    funext halves
    simp [Nat.add_comm]
  induction s generalizing n with
  | nil => rfl
  | cons c s ih =>
    rw [find_nth_space]
    by_cases hspace : c = ' '
    · subst hspace
      cases n with
      | zero => rfl
      | succ n =>
        rw [split_nth_space_succ, ← hcons, ← ih]
        rfl
    · rw [split_nth_space_other hspace, ← hcons, ← ih]
      simp only [if_neg hspace, Nat.succ_ne_zero, if_false]

theorem split_nth_space_append {n : Nat} {before : Str} (hbefore : before.count ' ' = n) (after : Str) :
    split_nth_space n (before ++ ' ' :: after) = some (before, after) := by
  induction before generalizing n with
  | nil =>
    subst hbefore
    rfl
  | cons c before ih =>
    rw [List.cons_append]
    by_cases hspace : c = ' '
    · subst hspace
      rw [List.count_cons_self] at hbefore
      subst hbefore
      rw [split_nth_space_succ, ih rfl]
      rfl
    · rw [List.count_cons_of_ne hspace] at hbefore
      rw [split_nth_space_other hspace, ih hbefore]
      rfl

theorem split_nth_space_eq_some {n : Nat} {s before after : Str}
    (hsplit : split_nth_space n s = some (before, after)) :
    s = before ++ ' ' :: after ∧ before.count ' ' = n := by
  induction s generalizing n before with
  | nil => cases hsplit
  | cons c s ih =>
    have hcons {m : Nat} (hrest : ((split_nth_space m s).map fun halves => (c :: halves.1, halves.2)) =
        some (before, after)) :
        ∃ front, before = c :: front ∧ s = front ++ ' ' :: after ∧ front.count ' ' = m := by
      obtain ⟨halves, hhalves, heq⟩ := Option.map_eq_some_iff.mp hrest
      cases heq
      exact ⟨halves.1, rfl, ih hhalves⟩
    by_cases hspace : c = ' '
    · subst hspace
      cases n with
      | zero =>
        cases hsplit
        exact ⟨rfl, rfl⟩
      | succ n =>
        rw [split_nth_space_succ] at hsplit
        obtain ⟨front, rfl, rfl, hcount⟩ := hcons hsplit
        exact ⟨rfl, by rw [List.count_cons_self, hcount]⟩
    · rw [split_nth_space_other hspace] at hsplit
      obtain ⟨front, rfl, rfl, hcount⟩ := hcons hsplit
      exact ⟨rfl, by rw [List.count_cons_of_ne hspace, hcount]⟩

/-- The text from the fifth column on, or all of it. -/
def tag_and_msg (rest : Str) : Str :=
  match split_nth_space 3 rest with
  | some (_, after) => after
  | none => rest

theorem tag_and_msg_append {before : Str} (hbefore : before.count ' ' = 3) (after : Str) :
    tag_and_msg (before ++ ' ' :: after) = after := by
  rw [tag_and_msg, split_nth_space_append hbefore]

/-- The text after the first `": "`, or all of it. -/
def after_tag (text : Str) : Str :=
  match split_once_str ": ".toList text with
  | some (_, after) => after
  | none => text

theorem after_tag_append {tag : Str} (htag : ':' ∉ tag) (msg : Str) :
    after_tag (tag ++ ':' :: ' ' :: msg) = msg := by
  have hsplit := @split_once_str_append _ [' '] _ htag msg
  rw [after_tag]
  change (match split_once_str [':', ' '] (tag ++ ([':', ' '] ++ msg)) with
    | some (_, after) => after
    | none => _) = msg
  rw [hsplit]

def read_rfc3164_labels (tokens : List Str) : OrderedMap String LabelValue :=
  let labels := match tokens[3]? with
    | some hostname => base_labels.insert "hostname" (.Str (String.ofList hostname))
    | none => base_labels
  match tokens[4]? with
  | some tag => tag_labels labels (read_tag (trim_end_matches ':' tag))
  | none => labels

/-- What follows a PRI, read as RFC 3164. -/
def read_rfc3164 (pri rest : Str) : Option LogEntry :=
  let body := after_tag (tag_and_msg rest)
  if body = [] then none
  else some (rfc3164_entry pri body (read_rfc3164_labels (split_ascii_whitespace rest)))

theorem try_rfc3164_of_unbracketed {line : Str} (hline : pri_and_rest line = none) :
    try_rfc3164 line = .ok none := by
  unfold try_rfc3164
  obtain hhead | hfind := pri_and_rest_eq_none hline
  · rw [if_pos hhead]
    rfl
  · split
    · rfl
    · rw [hfind]
      rfl

theorem slice_tag_and_msg (rest : Str) :
    slice_from rest (((find_nth_space 4 rest).map (· + 1)).getD 0) = .ok (tag_and_msg rest) := by
  rw [find_nth_space_eq, tag_and_msg]
  cases hsplit : split_nth_space 3 rest with
  | none => exact slice_from_append [] rest
  | some halves =>
    obtain ⟨before, after⟩ := halves
    obtain ⟨rfl, -⟩ := split_nth_space_eq_some hsplit
    have hslice := slice_from_append (before ++ [' ']) after
    rwa [List.append_assoc, len_append] at hslice

theorem strip_tag_eq (text : Str) : strip_tag text = .ok (after_tag text) := by
  rw [strip_tag, find_str_eq, after_tag]
  cases hsplit : split_once_str ": ".toList text with
  | none => rfl
  | some halves =>
    obtain ⟨before, after⟩ := halves
    have htext := split_once_str_eq_some hsplit
    have hslice := slice_from_append (before ++ ": ".toList) after
    rw [len_append, ← htext] at hslice
    exact hslice

theorem index_eq_ok {α : Type} {items : List α} {i : Nat} (hlt : i < items.length) :
    index items i = .ok items[i] := by
  rw [index, List.getElem?_eq_getElem hlt]

theorem rfc3164_labels_eq (tokens : List Str) :
    rfc3164_labels tokens = .ok (read_rfc3164_labels tokens) := by
  unfold rfc3164_labels read_rfc3164_labels
  by_cases hhost : 3 < tokens.length
  · by_cases htag : 4 < tokens.length
    · simp only [hhost, htag, if_true, index_eq_ok, ok_bind, parse_tag_eq, List.getElem?_eq_getElem]
      rfl
    · have hnone : tokens[4]? = none := List.getElem?_eq_none (by omega)
      simp only [hhost, htag, if_true, if_false, index_eq_ok, ok_bind, List.getElem?_eq_getElem, hnone]
      rfl
  · have hnone : tokens[3]? = none := List.getElem?_eq_none (by omega)
    have hshort : ¬ 4 < tokens.length := by omega
    have hnotag : tokens[4]? = none := List.getElem?_eq_none (by omega)
    simp only [hhost, hshort, if_false, hnone, hnotag]
    rfl

theorem try_rfc3164_eq {pri : Str} (hpri : '>' ∉ pri) (rest : Str) :
    try_rfc3164 ('<' :: (pri ++ '>' :: rest)) = .ok (read_rfc3164 pri rest) := by
  unfold try_rfc3164
  rw [if_neg (by simp), find_pri_end hpri]
  dsimp only
  rw [slice_pri, slice_rest, ok_bind, ok_bind, rfc3164_labels_eq, ok_bind, slice_tag_and_msg, ok_bind,
    strip_tag_eq, ok_bind, read_rfc3164]
  split <;> rfl

def read_rsyslog_default (chrono : Chrono) (line : Str) : Option LogEntry :=
  if line.head? = some '<' then none
  else
    match splitn ' ' 4 line with
    | timestamp_str :: hostname :: tag_part :: parts =>
      let message := trim_start (parts.head?.getD [])
      match parse_iso8601_ms chrono timestamp_str with
      | none => none
      | some timestamp_ms =>
        if message = [] then none
        else some (rsyslog_entry timestamp_ms hostname (read_tag (trim_end_matches ':' tag_part)) message)
    | _ => none

theorem try_rsyslog_default_eq (chrono : Chrono) (line : Str) :
    try_rsyslog_default chrono line = .ok (read_rsyslog_default chrono line) := by
  unfold try_rsyslog_default read_rsyslog_default
  split
  · rfl
  · generalize splitn ' ' 4 line = columns
    match columns with
    | [] => rfl
    | [_] => rfl
    | [_, _] => rfl
    | timestamp_str :: hostname :: tag_part :: parts =>
      dsimp only
      cases parse_iso8601_ms chrono timestamp_str with
      | none => rfl
      | some timestamp_ms =>
        dsimp only
        rw [parse_tag_eq]
        split <;> rfl

/-- The entry of a line before its body is stripped. -/
def read_line (chrono : Chrono) (line : Str) : LogEntry :=
  match pri_and_rest line with
  | some (pri, rest) =>
    ((read_rfc5424 chrono pri rest).or (read_rfc3164 pri rest)).getD (fallback line)
  | none => (read_rsyslog_default chrono line).getD (fallback line)

theorem recognise_eq (chrono : Chrono) (line : Str) :
    recognise chrono line = .ok (read_line chrono line) := by
  unfold recognise read_line
  cases hline : pri_and_rest line with
  | none =>
    rw [try_rfc5424_of_unbracketed chrono hline, try_rfc3164_of_unbracketed hline,
      try_rsyslog_default_eq]
    cases read_rsyslog_default chrono line <;> rfl
  | some halves =>
    obtain ⟨pri, rest⟩ := halves
    obtain ⟨rfl, hpri⟩ := pri_and_rest_eq_some hline
    have hrsyslog : read_rsyslog_default chrono ('<' :: (pri ++ '>' :: rest)) = none := if_pos rfl
    rw [try_rfc5424_eq chrono hpri, try_rfc3164_eq hpri, try_rsyslog_default_eq, hrsyslog]
    dsimp only
    cases read_rfc5424 chrono pri rest with
    | some entry => rfl
    | none =>
      cases read_rfc3164 pri rest <;> rfl

/-- What `parse_line` returns, given what is left of the body without its escapes. -/
theorem parse_line_eq (chrono : Chrono) {line body : Str}
    (hbody : strip_ansi (read_line chrono line).body.toList = .ok body) :
    parse_line chrono line = .ok (finish (read_line chrono line) body) := by
  rw [parse_line, recognise_eq, ok_bind, hbody]
  rfl

/-- No slice or index is out of bounds, whatever the line, and the loops that strip the
body end because their condition says so. -/
theorem parsing_never_panics (chrono : Chrono) (line : Str) :
    (∃ entry, parse_line chrono line = .ok entry) ∧
      (∃ found, try_rfc5424 chrono line = .ok found) ∧
      (∃ found, try_rfc3164 line = .ok found) ∧
      (∃ found, try_rsyslog_default chrono line = .ok found) ∧
      (∀ tag, ∃ found, parse_tag tag = .ok found) ∧
      (∀ text, ∃ kept, strip_ansi text = .ok kept) ∧
      (∀ b s, ∃ u t, strip_rounds b s = .ok () t ∧ strip_round b u = .ok false t) ∧
      ∀ b s, ∃ u t, skip_parameters b s = .ok () t ∧ skip_parameter b u = .ok false t := by
  refine ⟨?_, ?_, ?_, ⟨_, try_rsyslog_default_eq chrono line⟩, fun tag => ⟨_, parse_tag_eq tag⟩,
    strip_ansi_total, strip_rounds_end, skip_parameters_end⟩
  · obtain ⟨body, hbody⟩ := strip_ansi_total (read_line chrono line).body.toList
    exact ⟨_, parse_line_eq chrono hbody⟩
  · cases hline : pri_and_rest line with
    | none => exact ⟨_, try_rfc5424_of_unbracketed chrono hline⟩
    | some halves =>
      obtain ⟨rfl, hpri⟩ := pri_and_rest_eq_some hline
      exact ⟨_, try_rfc5424_eq chrono hpri _⟩
  · cases hline : pri_and_rest line with
    | none => exact ⟨_, try_rfc3164_of_unbracketed hline⟩
    | some halves =>
      obtain ⟨rfl, hpri⟩ := pri_and_rest_eq_some hline
      exact ⟨_, try_rfc3164_eq hpri _⟩

end spotflowd.sources.syslog
