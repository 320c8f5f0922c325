import Spotflowd.Sources.Syslog.Reading

open str
open spotflowd.log_entry

namespace spotflowd.sources.syslog

theorem trim_start_matches_suffix (c : Char) (s : Str) : trim_start_matches c s <:+ s :=
  List.dropWhile_suffix _

theorem trim_start_suffix (s : Str) : trim_start s <:+ s := List.dropWhile_suffix _

theorem tag_and_msg_suffix (rest : Str) : tag_and_msg rest <:+ rest := by
  unfold tag_and_msg
  cases hsplit : split_nth_space 3 rest with
  | none => exact List.suffix_refl _
  | some halves =>
    obtain ⟨rfl, -⟩ := split_nth_space_eq_some hsplit
    exact (List.suffix_cons _ _).trans (List.suffix_append _ _)

theorem after_tag_suffix (text : Str) : after_tag text <:+ text := by
  unfold after_tag
  cases hsplit : split_once_str ": ".toList text with
  | none => exact List.suffix_refl _
  | some halves =>
    have htext := split_once_str_eq_some hsplit
    exact ⟨_, htext.symm⟩

theorem read_rfc5424_body {chrono : Chrono} {pri rest : Str} {entry : LogEntry}
    (hread : read_rfc5424 chrono pri rest = some entry) : entry.body.toList <:+: rest := by
  unfold read_rfc5424 at hread
  split at hread
  · next rest =>
    split at hread
    · next timestamp hostname process pid msgid sd msg hparts =>
      cases hread
      have hmsg : msg ∈ splitn ' ' 7 (trim_start rest) := by simp [hparts]
      rw [rfc5424_entry, String.toList_ofList]
      exact (trim_start_matches_suffix _ _).isInfix.trans ((inside_of_mem_splitn hmsg).trans
        ((trim_start_suffix rest).trans (List.suffix_cons _ _)).isInfix)
    · cases hread
  · cases hread

theorem read_rfc3164_body {pri rest : Str} {entry : LogEntry}
    (hread : read_rfc3164 pri rest = some entry) :
    entry.body.toList = after_tag (tag_and_msg rest) ∧ entry.body.toList ≠ [] := by
  unfold read_rfc3164 at hread
  dsimp only at hread
  split at hread
  · cases hread
  · next hbody =>
    cases hread
    rw [rfc3164_entry, String.toList_ofList]
    exact ⟨rfl, hbody⟩

theorem read_rfc3164_eq_none {pri rest : Str} :
    read_rfc3164 pri rest = none ↔ after_tag (tag_and_msg rest) = [] := by
  unfold read_rfc3164
  dsimp only
  split <;> simp [*]

/-- The body of a line that an RFC parser takes is a piece of what follows its PRI. -/
theorem bracketed_body_inside {chrono : Chrono} {pri rest : Str} {entry : LogEntry}
    (hread : (read_rfc5424 chrono pri rest).or (read_rfc3164 pri rest) = some entry) :
    entry.body.toList <:+: rest := by
  obtain hread | ⟨-, hread⟩ := Option.or_eq_some_iff.mp hread
  · exact read_rfc5424_body hread
  · rw [(read_rfc3164_body hread).1]
    exact ((after_tag_suffix _).trans (tag_and_msg_suffix rest)).isInfix

/-- What a line has that is taken as the rsyslog default format: a time, three columns and
a message. -/
theorem read_rsyslog_default_eq_some {chrono : Chrono} {line : Str} {entry : LogEntry}
    (hread : read_rsyslog_default chrono line = some entry) :
    ∃ timestamp hostname tag msg ms,
      splitn ' ' 4 line = [timestamp, hostname, tag, msg] ∧
        parse_iso8601_ms chrono timestamp = some ms ∧ trim_start msg ≠ [] ∧
        entry = rsyslog_entry ms hostname (read_tag (trim_end_matches ':' tag)) (trim_start msg) := by
  have hle := length_splitn_le 4 line
  unfold read_rsyslog_default at hread
  generalize splitn ' ' 4 line = columns at hle hread ⊢
  split at hread
  · cases hread
  · match columns, hle with
    | timestamp :: hostname :: tag :: parts, hle =>
      dsimp only at hread
      cases hms : parse_iso8601_ms chrono timestamp with
      | none =>
        rw [hms] at hread
        cases hread
      | some ms =>
        rw [hms] at hread
        dsimp only at hread
        split at hread
        · cases hread
        · next hmessage =>
          cases hread
          match parts, hle with
          | [], _ => exact absurd rfl hmessage
          | [msg], _ => exact ⟨timestamp, hostname, tag, msg, ms, rfl, hms, hmessage, rfl⟩

theorem read_rsyslog_default_body {chrono : Chrono} {line : Str} {entry : LogEntry}
    (hread : read_rsyslog_default chrono line = some entry) : entry.body.toList <:+: line := by
  obtain ⟨timestamp, hostname, tag, msg, ms, hcolumns, -, -, rfl⟩ := read_rsyslog_default_eq_some hread
  have hmsg : msg ∈ splitn ' ' 4 line := by simp [hcolumns]
  rw [rsyslog_entry, String.toList_ofList]
  exact (trim_start_suffix msg).isInfix.trans (inside_of_mem_splitn hmsg)

theorem read_line_body_inside (chrono : Chrono) (line : Str) :
    (read_line chrono line).body.toList <:+: line := by
  have hfallback : (fallback line).body.toList = line := String.toList_ofList
  unfold read_line
  cases hline : pri_and_rest line with
  | none =>
    dsimp only
    cases hread : read_rsyslog_default chrono line with
    | none =>
      exact ⟨[], [], by rw [List.nil_append, List.append_nil, Option.getD_none, hfallback]⟩
    | some entry => exact read_rsyslog_default_body hread
  | some halves =>
    obtain ⟨pri, rest⟩ := halves
    dsimp only
    cases hread : (read_rfc5424 chrono pri rest).or (read_rfc3164 pri rest) with
    | none =>
      exact ⟨[], [], by rw [List.nil_append, List.append_nil, Option.getD_none, hfallback]⟩
    | some entry =>
      obtain ⟨rfl, -⟩ := pri_and_rest_eq_some hline
      have hrest : rest <:+ '<' :: (pri ++ '>' :: rest) :=
        (List.suffix_cons _ _).trans ((List.suffix_append _ _).trans (List.suffix_cons _ _))
      exact (bracketed_body_inside hread).trans hrest.isInfix

/-- Without escapes in the line its body is what was read. -/
theorem parse_line_of_plain (chrono : Chrono) {line : Str} (hplain : has_esc line = false) :
    parse_line chrono line =
      .ok (finish (read_line chrono line) (read_line chrono line).body.toList) :=
  parse_line_eq chrono (strip_ansi_of_plain (has_esc_of_inside (read_line_body_inside chrono line) hplain))

end spotflowd.sources.syslog
