import Spotflowd.Sources.Syslog.Rfc5424

open str
open spotflowd.log_entry

namespace spotflowd.sources.syslog

/-- A decimal number from 0 to 191. -/
def IsPri (pri : Str) : Prop := ∃ n, decimal pri = some n ∧ n ≤ 191

def IsColumn (column : Str) : Prop := column ≠ [] ∧ ' ' ∉ column

/-- Nil, or an RFC 3339 time. -/
def IsTime (chrono : Chrono) (column : Str) : Prop :=
  IsColumn column ∧ (column = ['-'] ∨ (chrono.parse_from_rfc3339 column).isSome)

def HasRfc5424Header (chrono : Chrono) (rest : Str) : Prop :=
  ∃ (timestamp hostname app_name procid msgid : Str) (elements : List SdElement) (msg : Option Str),
    IsTime chrono timestamp ∧ IsColumn hostname ∧ IsColumn app_name ∧ IsColumn procid ∧ IsColumn msgid ∧
      rest = '1' :: ' ' :: (timestamp ++ ' ' :: (hostname ++ ' ' :: (app_name ++ ' ' ::
        (procid ++ ' ' :: (msgid ++ ' ' :: (sd_text elements ++ msg_text msg))))))

/-- `Mon DD HH:MM:SS HOST ` -/
def HasRfc3164Header (rest : Str) : Prop :=
  ∃ (month : Month) (day : Day) (clock : Clock) (host tail : Str), IsWord host ∧
    rest = month.text ++ ' ' :: (day.text ++ ' ' :: (clock.text ++ ' ' :: (host ++ ' ' :: tail)))

/-- `RFC3339-timestamp HOST TAG: MESSAGE` -/
def IsRsyslogDefault (chrono : Chrono) (line : Str) : Prop :=
  line.head? ≠ some '<' ∧ ∃ timestamp host tag msg : Str,
    ' ' ∉ timestamp ∧ (chrono.parse_from_rfc3339 timestamp).isSome ∧ ' ' ∉ host ∧ ' ' ∉ tag ∧
      line = timestamp ++ ' ' :: (host ++ ' ' :: (tag ++ ':' :: ' ' :: msg))

def Recognised (chrono : Chrono) (line : Str) : Prop :=
  (∃ pri rest, '>' ∉ pri ∧ line = '<' :: (pri ++ '>' :: rest) ∧ IsPri pri ∧
    (HasRfc5424Header chrono rest ∨ HasRfc3164Header rest)) ∨ IsRsyslogDefault chrono line

def Unrecognised (chrono : Chrono) (line : Str) : Prop := line ≠ [] ∧ ¬ Recognised chrono line

/-- The entry of a whole line, in which nothing is told apart. -/
structure Whole (line : Str) (entry : LogEntry) : Prop where
  body : strip_ansi line = .ok entry.body.toList
  source : entry.source = "syslog"
  label : entry.labels.get? "source" = some (.Str "syslog")
  labels : ∀ key ∈ ["hostname", "process", "pid"], entry.labels.get? key = none

/-- Empty, or with its first `": "` at the end. -/
def Ends (text : Str) : Prop :=
  text = [] ∨ ∃ front, text = front ++ ": ".toList ∧ ¬ ": ".toList <:+: front ++ ":".toList

/-- Nothing is left for a body after the fourth space, or anywhere when there are fewer. -/
def NothingLeft (rest : Str) : Prop :=
  (rest.count ' ' < 4 ∧ Ends rest) ∨
    ∃ before after, rest = before ++ ' ' :: after ∧ before.count ' ' = 3 ∧ Ends after

/-- A `1`, and six spaces after whatever white space follows it. -/
def LooksRfc5424 (rest : Str) : Prop := ∃ tail, rest = '1' :: tail ∧ 6 ≤ (trim_start tail).count ' '

/-- A time that is not before the epoch, two more columns, and something that is not white
space. -/
def LooksRsyslogDefault (chrono : Chrono) (line : Str) : Prop :=
  ∃ timestamp hostname tag msg : Str,
    line = timestamp ++ ' ' :: (hostname ++ ' ' :: (tag ++ ' ' :: msg)) ∧
      ' ' ∉ timestamp ∧ ' ' ∉ hostname ∧ ' ' ∉ tag ∧
      (parse_iso8601_ms chrono timestamp).isSome ∧ ∃ c ∈ msg, is_whitespace c = false

structure LeftAlone (chrono : Chrono) (line : Str) : Prop where
  bracketed : ∀ pri rest, '>' ∉ pri → line = '<' :: (pri ++ '>' :: rest) →
    ¬ LooksRfc5424 rest ∧ NothingLeft rest
  unbracketed : line.head? ≠ some '<' → ¬ LooksRsyslogDefault chrono line

theorem after_tag_eq_nil {text : Str} : after_tag text = [] ↔ Ends text := by
  have hend (front : Str) := @split_once_str_eq_end ": ".toList (by decide) text front
  unfold after_tag Ends
  cases hsplit : split_once_str ": ".toList text with
  | none =>
    rw [hsplit] at hend
    constructor
    · exact Or.inl
    · rintro (hnil | ⟨front, hfront⟩)
      · exact hnil
      · cases (hend front).mpr hfront
  | some halves =>
    obtain ⟨before, after⟩ := halves
    rw [hsplit] at hend
    constructor
    · rintro rfl
      exact Or.inr ⟨before, (hend before).mp rfl⟩
    · rintro (rfl | ⟨front, hfront⟩)
      · exact absurd (split_once_str_eq_some hsplit) (by simp)
      · cases (hend front).mpr hfront
        rfl

theorem split_nth_space_eq_none {n : Nat} {s : Str} : split_nth_space n s = none ↔ s.count ' ' ≤ n := by
  induction s generalizing n with
  | nil => simp [split_nth_space]
  | cons c s ih =>
    by_cases hspace : c = ' '
    · subst hspace
      cases n with
      | zero => simp [split_nth_space]
      | succ n => rw [split_nth_space_succ, Option.map_eq_none_iff, ih, List.count_cons_self, Nat.succ_le_succ_iff]
    · rw [split_nth_space_other hspace, Option.map_eq_none_iff, ih, List.count_cons_of_ne hspace]

theorem read_rfc3164_none_iff {pri rest : Str} : read_rfc3164 pri rest = none ↔ NothingLeft rest := by
  rw [read_rfc3164_eq_none, after_tag_eq_nil, tag_and_msg]
  unfold NothingLeft
  cases hsplit : split_nth_space 3 rest with
  | none =>
    have hcount := split_nth_space_eq_none.mp hsplit
    constructor
    · exact fun hends => Or.inl ⟨by omega, hends⟩
    · rintro (⟨-, hends⟩ | ⟨before, after, rfl, hbefore, -⟩)
      · exact hends
      · rw [List.count_append, List.count_cons_self] at hcount
        omega
  | some halves =>
    obtain ⟨front, tail⟩ := halves
    obtain ⟨rfl, hfront⟩ := split_nth_space_eq_some hsplit
    constructor
    · exact fun hends => Or.inr ⟨front, tail, rfl, hfront, hends⟩
    · rintro (⟨hcount, -⟩ | ⟨before, after, heq, hbefore, hends⟩)
      · rw [List.count_append, List.count_cons_self] at hcount
        omega
      · rw [heq, split_nth_space_append hbefore] at hsplit
        cases hsplit
        exact hends

theorem read_rfc5424_none_iff {chrono : Chrono} {pri rest : Str} :
    read_rfc5424 chrono pri rest = none ↔ ¬ LooksRfc5424 rest := by
  cases rest with
  | nil => simp [read_rfc5424, LooksRfc5424]
  | cons c rest =>
    by_cases hversion : c = '1'
    · subst hversion
      have hlength := length_splitn ' ' 6 (trim_start rest)
      have hlooks : LooksRfc5424 ('1' :: rest) ↔ 6 ≤ (trim_start rest).count ' ' := by
        simp [LooksRfc5424]
      rw [hlooks, read_rfc5424]
      generalize splitn ' ' 7 (trim_start rest) = parts at hlength ⊢
      by_cases hfull : 6 ≤ (trim_start rest).count ' '
      · obtain ⟨timestamp, hostname, process, pid, msgid, sd, msg, rfl⟩ := @seven_parts parts (by omega)
        simp [hfull]
      · simp only [hfull, not_false_eq_true, iff_true]
        split
        · simp only [List.length_cons, List.length_nil] at hlength
          omega
        · rfl
    · rw [read_rfc5424_of_head chrono pri (by simpa using hversion)]
      simp [LooksRfc5424, hversion]

theorem trim_start_eq_nil {s : Str} : trim_start s = [] ↔ ¬ ∃ c ∈ s, is_whitespace c = false := by
  simp [trim_start, List.dropWhile_eq_nil_iff]

theorem splitn_four {line timestamp hostname tag msg : Str} :
    splitn ' ' 4 line = [timestamp, hostname, tag, msg] ↔
      line = timestamp ++ ' ' :: (hostname ++ ' ' :: (tag ++ ' ' :: msg)) ∧
        ' ' ∉ timestamp ∧ ' ' ∉ hostname ∧ ' ' ∉ tag := by
  constructor
  · intro hcolumns
    obtain ⟨afterTimestamp, rfl, htimestamp, hcolumns⟩ := splitn_eq_cons_cons hcolumns
    obtain ⟨afterHostname, rfl, hhostname, hcolumns⟩ := splitn_eq_cons_cons hcolumns
    obtain ⟨afterTag, rfl, htag, hcolumns⟩ := splitn_eq_cons_cons hcolumns
    rw [splitn_one] at hcolumns
    cases hcolumns
    exact ⟨rfl, htimestamp, hhostname, htag⟩
  · rintro ⟨rfl, htimestamp, hhostname, htag⟩
    rw [splitn_append htimestamp, splitn_append hhostname, splitn_append htag, splitn_one]

theorem read_rsyslog_default_none_iff {chrono : Chrono} {line : Str} (hline : line.head? ≠ some '<') :
    read_rsyslog_default chrono line = none ↔ ¬ LooksRsyslogDefault chrono line := by
  constructor
  · rintro hnone ⟨timestamp, hostname, tag, msg, heq, htimestamp, hhostname, htag, hms, hmsg⟩
    have hcolumns := splitn_four.mpr ⟨heq, htimestamp, hhostname, htag⟩
    obtain ⟨ms, hms⟩ := Option.isSome_iff_exists.mp hms
    have hmessage : trim_start msg ≠ [] := fun hnil => trim_start_eq_nil.mp hnil hmsg
    rw [read_rsyslog_default, if_neg hline, hcolumns] at hnone
    dsimp only at hnone
    rw [hms, List.head?_cons, Option.getD_some] at hnone
    dsimp only at hnone
    rw [if_neg hmessage] at hnone
    cases hnone
  · intro hlooks
    cases hread : read_rsyslog_default chrono line with
    | none => rfl
    | some entry =>
      obtain ⟨timestamp, hostname, tag, msg, ms, hcolumns, hms, hmessage, -⟩ :=
        read_rsyslog_default_eq_some hread
      obtain ⟨heq, htimestamp, hhostname, htag⟩ := splitn_four.mp hcolumns
      have hmsg : ∃ c ∈ msg, is_whitespace c = false := by
        by_contra hblank
        exact hmessage (trim_start_eq_nil.mpr hblank)
      exact absurd ⟨timestamp, hostname, tag, msg, heq, htimestamp, hhostname, htag, by rw [hms]; rfl, hmsg⟩ hlooks

theorem Whole.of_fallback {chrono : Chrono} {line : Str} (hread : read_line chrono line = fallback line) :
    ∃ entry, parse_line chrono line = .ok entry ∧ Whole line entry := by
  obtain ⟨body, hbody⟩ := strip_ansi_total line
  have hstrip : strip_ansi (read_line chrono line).body.toList = .ok body := by
    rw [hread, fallback, String.toList_ofList, hbody]
  refine ⟨_, parse_line_eq chrono hstrip, ?_, ?_, ?_, ?_⟩
  · rw [hbody, finish, String.toList_ofList]
  · rw [hread]
    rfl
  · rw [hread, finish, fallback, base_labels_get?]
    rfl
  · intro key hkey
    rw [hread, finish, fallback, base_labels_get?]
    refine if_neg ?_
    rintro rfl
    exact absurd hkey (by decide)

theorem LeftAlone.read_line {chrono : Chrono} {line : Str} (hline : LeftAlone chrono line) :
    read_line chrono line = fallback line := by
  rw [syslog.read_line]
  cases hpri : pri_and_rest line with
  | some halves =>
    obtain ⟨pri, rest⟩ := halves
    obtain ⟨heq, hmem⟩ := pri_and_rest_eq_some hpri
    obtain ⟨hrfc5424, hrfc3164⟩ := hline.bracketed pri rest hmem heq
    dsimp only
    rw [read_rfc5424_none_iff.mpr hrfc5424, read_rfc3164_none_iff.mpr hrfc3164]
    rfl
  | none =>
    dsimp only
    by_cases hhead : line.head? = some '<'
    · rw [read_rsyslog_default, if_pos hhead, Option.getD_none]
    · rw [(read_rsyslog_default_none_iff hhead).mpr (hline.unbracketed hhead), Option.getD_none]

/-- A line that the RFC parsers take loses its PRI. -/
theorem not_whole_of_bracketed {chrono : Chrono} {line pri rest : Str} {taken : LogEntry}
    (hplain : has_esc line = false) (hline : pri_and_rest line = some (pri, rest))
    (htaken : (read_rfc5424 chrono pri rest).or (read_rfc3164 pri rest) = some taken) :
    ¬ ∃ entry, parse_line chrono line = .ok entry ∧ Whole line entry := by
  rintro ⟨entry, hparse, hwhole⟩
  have hbody := hwhole.body
  have hread : read_line chrono line = taken := by
    rw [read_line, hline]
    dsimp only
    rw [htaken, Option.getD_some]
  rw [parse_line_of_plain chrono hplain, hread] at hparse
  cases hparse
  rw [strip_ansi_of_plain hplain, finish, String.toList_ofList] at hbody
  have hlength := (bracketed_body_inside htaken).length_le
  rw [← Except.ok.inj hbody] at hlength
  obtain ⟨rfl, -⟩ := pri_and_rest_eq_some hline
  simp only [List.length_cons, List.length_append] at hlength
  omega

/-- A line that is taken as the rsyslog default format has a host name. -/
theorem not_whole_of_rsyslog {chrono : Chrono} {line : Str} {taken : LogEntry}
    (hline : pri_and_rest line = none) (htaken : read_rsyslog_default chrono line = some taken) :
    ¬ ∃ entry, parse_line chrono line = .ok entry ∧ Whole line entry := by
  rintro ⟨entry, hparse, hwhole⟩
  have hread : read_line chrono line = taken := by
    rw [read_line, hline]
    dsimp only
    rw [htaken, Option.getD_some]
  obtain ⟨body, hbody⟩ := strip_ansi_total (read_line chrono line).body.toList
  rw [parse_line_eq chrono hbody, hread] at hparse
  cases hparse
  obtain ⟨timestamp, hostname, tag, msg, ms, -, -, -, rfl⟩ := read_rsyslog_default_eq_some htaken
  have hlabel := hwhole.labels "hostname" (by simp)
  rw [finish, rsyslog_entry, tag_labels_get?, OrderedMap.get?_insert] at hlabel
  simp at hlabel

/-- A line that no parser takes is kept whole, whatever it contains. One that is taken is
not, except that an RFC parser may take a line with escapes whose loss hides the other. -/
theorem unrecognised_line_is_kept (chrono : Chrono) (line : Str) :
    (LeftAlone chrono line → ∃ entry, parse_line chrono line = .ok entry ∧ Whole line entry) ∧
      (line.head? ≠ some '<' ∨ has_esc line = false →
        ((∃ entry, parse_line chrono line = .ok entry ∧ Whole line entry) ↔ LeftAlone chrono line)) := by
  have hforward (hline : LeftAlone chrono line) :
      ∃ entry, parse_line chrono line = .ok entry ∧ Whole line entry :=
    Whole.of_fallback hline.read_line
  refine ⟨hforward, fun hlimits => ⟨fun hwhole => ⟨fun pri rest hpri heq => ?_, fun hhead => ?_⟩, hforward⟩⟩
  · subst heq
    have hline := pri_and_rest_append hpri rest
    have hplain := hlimits.resolve_left (by simp)
    cases hread : (read_rfc5424 chrono pri rest).or (read_rfc3164 pri rest) with
    | some taken => exact absurd hwhole (not_whole_of_bracketed hplain hline hread)
    | none =>
      obtain ⟨hrfc5424, hrfc3164⟩ := Option.or_eq_none_iff.mp hread
      exact ⟨read_rfc5424_none_iff.mp hrfc5424, read_rfc3164_none_iff.mp hrfc3164⟩
  · rw [← read_rsyslog_default_none_iff hhead]
    cases hread : read_rsyslog_default chrono line with
    | none => rfl
    | some taken =>
      refine absurd hwhole (not_whole_of_rsyslog ?_ hread)
      cases hline : pri_and_rest line with
      | none => rfl
      | some halves =>
        obtain ⟨heq, -⟩ := pri_and_rest_eq_some hline
        exact absurd (by rw [heq]; rfl) hhead

theorem plain_lines_are_kept :
    ∀ line ∈ ["kernel panic - not syncing".toList, "<13>tag: ".toList],
      ∃ entry, parse_line (one_time half_past_three) line = .ok entry ∧ Whole line entry := by
  simp only [List.forall_mem_cons, List.not_mem_nil, false_implies, implies_true, and_true]
  constructor
  · refine (unrecognised_line_is_kept (one_time half_past_three) _).1 ⟨?_, fun hhead => ?_⟩
    · intro pri rest _ hline
      exact absurd (List.cons.inj hline).1 (by decide)
    · exact (read_rsyslog_default_none_iff hhead).mp (by decide)
  · refine (unrecognised_line_is_kept (one_time half_past_three) _).1 ⟨fun pri rest hpri hline => ?_, ?_⟩
    · have hhalves : pri_and_rest "<13>tag: ".toList = some ("13".toList, "tag: ".toList) := by decide
      rw [hline, pri_and_rest_append hpri] at hhalves
      cases hhalves
      have hrfc5424 : read_rfc5424 (one_time half_past_three) [] "tag: ".toList = none := by decide
      have hrfc3164 : read_rfc3164 [] "tag: ".toList = none := by decide
      exact ⟨read_rfc5424_none_iff.mp hrfc5424, read_rfc3164_none_iff.mp hrfc3164⟩
    · exact fun hhead => absurd rfl hhead

theorem not_recognised_bracketed {chrono : Chrono} {line pri rest : Str}
    (hline : pri_and_rest line = some (pri, rest)) (hpri : decimal pri = none) :
    ¬ Recognised chrono line := by
  obtain ⟨rfl, -⟩ := pri_and_rest_eq_some hline
  rintro (⟨pri', rest', hmem, heq, ⟨n, hn, -⟩, -⟩ | ⟨hhead, -⟩)
  · rw [heq, pri_and_rest_append hmem] at hline
    cases hline
    rw [hpri] at hn
    cases hn
  · exact hhead rfl

theorem not_recognised_unbracketed {chrono : Chrono} {line timestamp hostname tag msg : Str}
    (hline : line.head? ≠ some '<') (hcolumns : splitn ' ' 4 line = [timestamp, hostname, tag, msg])
    (htag : tag.getLast? ≠ some ':') : ¬ Recognised chrono line := by
  rintro (⟨pri, rest, -, rfl, -, -⟩ | ⟨-, timestamp', hostname', tag', msg', htimestamp, -, hhostname, htag', heq⟩)
  · exact hline rfl
  · have hspace : ' ' ∉ tag' ++ [':'] := by simp [htag']
    have hlast : tag' ++ ':' :: ' ' :: msg' = (tag' ++ [':']) ++ ' ' :: msg' := by simp
    rw [hlast] at heq
    rw [splitn_four.mpr ⟨heq, htimestamp, hhostname, hspace⟩] at hcolumns
    cases hcolumns
    exact htag (by simp)

/-- Text in angle brackets that is no number, and a third column that is no tag. -/
theorem unrecognised_lines_cut :
    (Unrecognised (one_time half_past_three) "<abc>hello".toList ∧
      ¬ ∃ entry, parse_line (one_time half_past_three) "<abc>hello".toList = .ok entry ∧
        Whole "<abc>hello".toList entry) ∧
    (Unrecognised (one_time half_past_three) "2026-06-12T15:30:00Z host tag message".toList ∧
      ¬ ∃ entry, parse_line (one_time half_past_three) "2026-06-12T15:30:00Z host tag message".toList =
        .ok entry ∧ Whole "2026-06-12T15:30:00Z host tag message".toList entry) := by
  refine ⟨⟨⟨by decide, ?_⟩, ?_⟩, ⟨by decide, ?_⟩, ?_⟩
  · exact @not_recognised_bracketed _ _ "abc".toList "hello".toList (by decide) (by decide)
  · have htaken : ((read_rfc5424 (one_time half_past_three) "abc".toList "hello".toList).or
        (read_rfc3164 "abc".toList "hello".toList)).isSome = true := by decide
    obtain ⟨taken, htaken⟩ := Option.isSome_iff_exists.mp htaken
    exact not_whole_of_bracketed (by decide) (by decide) htaken
  · exact @not_recognised_unbracketed _ _ "2026-06-12T15:30:00Z".toList "host".toList "tag".toList
      "message".toList (by decide) (by decide) (by decide)
  · have htaken : (read_rsyslog_default (one_time half_past_three)
        "2026-06-12T15:30:00Z host tag message".toList).isSome = true := by decide
    obtain ⟨taken, htaken⟩ := Option.isSome_iff_exists.mp htaken
    exact not_whole_of_rsyslog (by decide) htaken

end spotflowd.sources.syslog
