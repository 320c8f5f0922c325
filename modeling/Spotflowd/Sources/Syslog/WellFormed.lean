import Spotflowd.Sources.Syslog.Fields

open str
open spotflowd.log_entry

namespace spotflowd.sources.syslog

/-- A host name, or the name in a tag. -/
structure Name where
  text : Str
  nonempty : text ≠ []
  plain : ∀ c ∈ text, is_ascii_whitespace c = false ∧ c ≠ ':' ∧ c ≠ '['

inductive Month where
  | Jan | Feb | Mar | Apr | May | Jun | Jul | Aug | Sep | Oct | Nov | Dec

def Month.text : Month → Str
  | .Jan => "Jan".toList
  | .Feb => "Feb".toList
  | .Mar => "Mar".toList
  | .Apr => "Apr".toList
  | .May => "May".toList
  | .Jun => "Jun".toList
  | .Jul => "Jul".toList
  | .Aug => "Aug".toList
  | .Sep => "Sep".toList
  | .Oct => "Oct".toList
  | .Nov => "Nov".toList
  | .Dec => "Dec".toList

def digit (d : Fin 10) : Char := Nat.digitChar d

/-- A day of two digits, or of one and a space before it. -/
inductive Day where
  | padded (units : Fin 10)
  | full (tens units : Fin 10)

def Day.text : Day → Str
  | .padded units => [' ', digit units]
  | .full tens units => [digit tens, digit units]

/-- `HH:MM:SS` -/
structure Clock where
  hour : Fin 10 × Fin 10
  minute : Fin 10 × Fin 10
  second : Fin 10 × Fin 10

def Clock.text (self : Clock) : Str :=
  [digit self.hour.1, digit self.hour.2, ':', digit self.minute.1, digit self.minute.2, ':',
    digit self.second.1, digit self.second.2]

/-- `TAG[PID]`, or `TAG` -/
structure Tag where
  name : Name
  pid : Option (Fin (2 ^ 63))

def Tag.text (self : Tag) : Str :=
  match self.pid with
  | some pid => self.name.text ++ '[' :: (Nat.toDigits 10 pid ++ [']'])
  | none => self.name.text

def Tag.process_id (self : Tag) : Option Int64 := self.pid.map fun pid => Int64.ofNat pid

/-- `<PRI>Mon DD HH:MM:SS HOST TAG[PID]: MSG` -/
structure Rfc3164 where
  pri : Fin 192
  month : Month
  day : Day
  clock : Clock
  host : Name
  tag : Tag
  msg : Str
  nonempty : msg ≠ []

def Rfc3164.rest (self : Rfc3164) : Str :=
  self.month.text ++ ' ' :: (self.day.text ++ ' ' :: (self.clock.text ++ ' ' ::
    (self.host.text ++ ' ' :: (self.tag.text ++ ':' :: ' ' :: self.msg))))

def Rfc3164.line (self : Rfc3164) : Str := '<' :: (Nat.toDigits 10 self.pri ++ '>' :: self.rest)

def Rfc3164.fields (self : Rfc3164) : Fields where
  msg := self.msg
  severity := some (Severity.from_syslog_priority (self.pri % 8))
  timestamp_ms := none
  hostname := some self.host.text
  process := some self.tag.name.text
  pid := self.tag.pid.map fun pid => (pid : Int)

/-- An RFC 3339 time that is not before the epoch, with `T` between date and time, and the
milliseconds it stands for. -/
structure Timestamp where
  text : Str
  nonempty : text ≠ []
  plain : ∀ c ∈ text, c.isDigit ∨ c ∈ "-:.+TZtz".toList
  ms : Int64
  epoch : 0 ≤ ms

/-- The time library reads a time as what it stands for, and nil not at all. -/
def Chrono.Reads (chrono : Chrono) : Option Timestamp → Prop
  | some timestamp => chrono.parse_from_rfc3339 timestamp.text = some timestamp.ms
  | none => chrono.parse_from_rfc3339 ['-'] = none

/-- `TS HOST TAG[PID]: MSG` -/
structure RsyslogDefault where
  timestamp : Timestamp
  host : Name
  tag : Tag
  msg : Str
  nonempty : msg ≠ []
  trimmed : ∀ c ∈ msg.head?, is_whitespace c = false

def RsyslogDefault.line (self : RsyslogDefault) : Str :=
  self.timestamp.text ++ ' ' :: (self.host.text ++ ' ' :: (self.tag.text ++ ':' :: ' ' :: self.msg))

def RsyslogDefault.fields (self : RsyslogDefault) : Fields where
  msg := self.msg
  severity := none
  timestamp_ms := some self.timestamp.ms.toUInt64
  hostname := some self.host.text
  process := some self.tag.name.text
  pid := self.tag.pid.map fun pid => (pid : Int)

theorem Name.isWord (self : Name) : IsWord self.text :=
  ⟨self.nonempty, fun c hc => (self.plain c hc).1⟩

theorem Name.not_mem (self : Name) {c : Char} (hc : c = ':' ∨ c = '[') : c ∉ self.text := by
  intro hmem
  obtain ⟨-, hcolon, hbracket⟩ := self.plain c hmem
  obtain rfl | rfl := hc
  · exact hcolon rfl
  · exact hbracket rfl

theorem not_whitespace_of_isDigit {c : Char} (hdigit : c.isDigit = true) :
    is_ascii_whitespace c = false := by
  cases hspace : is_ascii_whitespace c with
  | false => rfl
  | true =>
    rw [isDigit_of_is_ascii_whitespace hspace] at hdigit
    cases hdigit

theorem Tag.isWord (self : Tag) : IsWord self.text := by
  unfold Tag.text
  cases self.pid with
  | none => exact self.name.isWord
  | some pid =>
    apply self.name.isWord.append
    intro c hc
    obtain rfl | hc := List.mem_cons.mp hc
    · rfl
    · obtain hc | hc := List.mem_append.mp hc
      · exact not_whitespace_of_isDigit (isDigit_of_mem_toDigits hc)
      · obtain rfl := List.mem_singleton.mp hc
        rfl

theorem Tag.colon_not_mem (self : Tag) : ':' ∉ self.text := by
  have hname : ':' ∉ self.name.text := self.name.not_mem (Or.inl rfl)
  unfold Tag.text
  cases self.pid with
  | none => exact hname
  | some pid =>
    have hdigits : ':' ∉ Nat.toDigits 10 pid := not_mem_toDigits (by decide)
    simp [hname, hdigits]

/-- A tag is read back, with its colon. -/
theorem Tag.read (self : Tag) :
    read_tag (trim_end_matches ':' (self.text ++ [':'])) = (self.name.text, self.process_id) := by
  have hname : '[' ∉ self.name.text := self.name.not_mem (Or.inr rfl)
  rw [trim_end_matches_append self.colon_not_mem, read_tag]
  unfold Tag.text Tag.process_id
  cases self.pid with
  | none =>
    dsimp only
    rw [split_once_eq_none.mpr hname]
    rfl
  | some pid =>
    have hclose : ']' ∉ Nat.toDigits 10 pid := not_mem_toDigits (by decide)
    dsimp only
    rw [split_once_append hname]
    dsimp only
    rw [trim_end_matches_append hclose, parse_i64_toDigits pid.isLt]
    rfl

theorem Tag.toInt_process_id (self : Tag) :
    (self.pid.map fun pid => (pid : Int)) = self.process_id.map Int64.toInt := by
  unfold Tag.process_id
  cases self.pid with
  | none => rfl
  | some pid => exact congrArg some (Int64.toInt_ofNat_of_lt pid.isLt).symm

/-- The labels of a host and a tag. -/
theorem Tag.labels (self : Tag) (host : Name) {fields : Fields} (hhost : fields.hostname = some host.text)
    (hprocess : fields.process = some self.name.text)
    (hpid : fields.pid = self.pid.map fun pid => (pid : Int)) :
    fields.Labelled (tag_labels (base_labels.insert "hostname" (.Str (String.ofList host.text)))
      (self.name.text, self.process_id)) := by
  refine ⟨⟨self.process_id, ?_, hpid.trans self.toInt_process_id⟩, fun key hkey => ?_⟩
  · rw [tag_labels_get?, OrderedMap.get?_insert, base_labels_get?]
    simp
  · rw [tag_labels_get?, OrderedMap.get?_insert, base_labels_get?]
    unfold Fields.label
    rw [hhost, hprocess]
    have hname := self.name.nonempty
    by_cases hprocess : key = "process"
    · subst hprocess
      simp [hname]
    · by_cases hhost : key = "hostname"
      · subst hhost
        simp
      · simp [hkey, hprocess, hhost, @eq_comm _ "hostname"]

theorem isDigit_digit (d : Fin 10) : (digit d).isDigit = true := by
  unfold digit
  decide +revert

theorem Month.isWord (self : Month) : IsWord self.text := by
  cases self <;> exact ⟨by decide, by decide⟩

theorem Clock.isWord (self : Clock) : IsWord self.text := by
  refine ⟨List.cons_ne_nil _ _, ?_⟩
  have hdigit (d : Fin 10) : is_ascii_whitespace (digit d) = false :=
    not_whitespace_of_isDigit (isDigit_digit d)
  intro c hc
  simp only [Clock.text, List.mem_cons, List.not_mem_nil, or_false] at hc
  obtain rfl | rfl | rfl | rfl | rfl | rfl | rfl | rfl := hc <;> first | exact hdigit _ | rfl

/-- The word of a day. -/
def Day.word : Day → Str
  | .padded units => [digit units]
  | .full tens units => [digit tens, digit units]

theorem Day.isWord (self : Day) : IsWord self.word := by
  have hdigit (d : Fin 10) : is_ascii_whitespace (digit d) = false :=
    not_whitespace_of_isDigit (isDigit_digit d)
  cases self with
  | padded units => exact ⟨List.cons_ne_nil _ _, by simp [word, hdigit]⟩
  | full tens units => exact ⟨List.cons_ne_nil _ _, by simp [word, hdigit]⟩

theorem split_word {word : Str} (hword : IsWord word) (rest : Str) :
    split_ascii_whitespace (word ++ ' ' :: rest) = word :: split_ascii_whitespace rest :=
  split_ascii_whitespace_word hword rfl rest

theorem Day.split (self : Day) (rest : Str) :
    split_ascii_whitespace (self.text ++ ' ' :: rest) = self.word :: split_ascii_whitespace rest := by
  cases self with
  | padded units =>
    have hskip := @split_ascii_whitespace_skip ' ' rfl ([digit units] ++ ' ' :: rest)
    exact hskip.trans (split_word (Day.padded units).isWord rest)
  | full tens units => exact split_word (Day.full tens units).isWord rest

section Columns

variable {month clock : Str} (hmonth : ' ' ∉ month) (hclock : ' ' ∉ clock)

include hmonth hclock

/-- Under a padded day the fourth space is the one before the host. -/
theorem tag_and_msg_padded (units : Fin 10) (tail : Str) :
    tag_and_msg (month ++ ' ' :: ((Day.padded units).text ++ ' ' :: (clock ++ ' ' :: tail))) = tail := by
  have hday : ' ' ∉ (Day.padded units).word := (Day.padded units).isWord.not_mem rfl
  have hrest : month ++ ' ' :: ((Day.padded units).text ++ ' ' :: (clock ++ ' ' :: tail)) =
      (month ++ ' ' :: (' ' :: (Day.padded units).word ++ ' ' :: clock)) ++ ' ' :: tail := by
    simp [Day.text, Day.word]
  rw [hrest, tag_and_msg_append]
  simp only [List.count_append, List.count_cons_self, List.cons_append, List.count_eq_zero_of_not_mem hmonth,
    List.count_eq_zero_of_not_mem hclock, List.count_eq_zero_of_not_mem hday]

/-- Under a day of two digits it is the one after the host. -/
theorem tag_and_msg_full (tens units : Fin 10) {host : Str} (hhost : ' ' ∉ host) (text : Str) :
    tag_and_msg (month ++ ' ' :: ((Day.full tens units).text ++ ' ' :: (clock ++ ' ' :: (host ++ ' ' :: text)))) =
      text := by
  have hday : ' ' ∉ (Day.full tens units).word := (Day.full tens units).isWord.not_mem rfl
  have hrest : month ++ ' ' :: ((Day.full tens units).text ++ ' ' :: (clock ++ ' ' :: (host ++ ' ' :: text))) =
      (month ++ ' ' :: ((Day.full tens units).word ++ ' ' :: (clock ++ ' ' :: host))) ++ ' ' :: text := by
    simp [Day.text, Day.word]
  rw [hrest, tag_and_msg_append]
  simp only [List.count_append, List.count_cons_self, List.count_eq_zero_of_not_mem hmonth,
    List.count_eq_zero_of_not_mem hclock, List.count_eq_zero_of_not_mem hhost,
    List.count_eq_zero_of_not_mem hday]

end Columns

/-- No colon stands between the fourth space and the end of the tag. -/
theorem Rfc3164.after_columns (self : Rfc3164) : after_tag (tag_and_msg self.rest) = self.msg := by
  have hmonth : ' ' ∉ self.month.text := self.month.isWord.not_mem rfl
  have hclock : ' ' ∉ self.clock.text := self.clock.isWord.not_mem rfl
  have hhost : ' ' ∉ self.host.text := self.host.isWord.not_mem rfl
  have hcolon : ':' ∉ self.host.text := self.host.not_mem (Or.inl rfl)
  rw [Rfc3164.rest]
  cases self.day with
  | padded units =>
    have hcolumns : self.host.text ++ ' ' :: (self.tag.text ++ ':' :: ' ' :: self.msg) =
        (self.host.text ++ ' ' :: self.tag.text) ++ ':' :: ' ' :: self.msg := by simp
    rw [tag_and_msg_padded hmonth hclock, hcolumns, after_tag_append]
    simp [hcolon, self.tag.colon_not_mem]
  | full tens units =>
    rw [tag_and_msg_full hmonth hclock tens units hhost, after_tag_append self.tag.colon_not_mem]

theorem Rfc3164.words (self : Rfc3164) :
    split_ascii_whitespace self.rest = self.month.text :: self.day.word :: self.clock.text ::
      self.host.text :: (self.tag.text ++ [':']) :: split_ascii_whitespace self.msg := by
  have htag : IsWord (self.tag.text ++ [':']) := self.tag.isWord.append (by simp; rfl)
  have hlast : self.tag.text ++ ':' :: ' ' :: self.msg = (self.tag.text ++ [':']) ++ ' ' :: self.msg := by
    simp
  rw [Rfc3164.rest, split_word self.month.isWord, Day.split, split_word self.clock.isWord,
    split_word self.host.isWord, hlast, split_word htag]

theorem parse_priority_toDigits (pri : Fin 192) :
    (parse_priority (Nat.toDigits 10 pri)).1 = Severity.from_syslog_priority (pri % 8) := by
  have hpri : parse_u8 (Nat.toDigits 10 pri) = some pri.val := parse_u8_toDigits (by omega)
  have hcode : (pri : Nat) &&& 7 = pri % 8 := Nat.and_two_pow_sub_one_eq_mod _ 3
  rw [parse_priority, hpri, Option.getD_some, hcode]

theorem Rfc3164.read_fields (self : Rfc3164) :
    ∃ entry, read_rfc3164 (Nat.toDigits 10 self.pri) self.rest = some entry ∧ self.fields.Read entry := by
  rw [read_rfc3164, self.after_columns, if_neg self.nonempty, self.words]
  refine ⟨_, rfl, rfl, ?_, rfl, rfl, rfl, ?_⟩
  · rw [rfc3164_entry, parse_priority_toDigits]
    rfl
  · simp only [rfc3164_entry, read_rfc3164_labels, List.getElem?_cons_succ, List.getElem?_cons_zero,
      Tag.read]
    exact self.tag.labels self.host rfl rfl rfl

theorem Rfc3164.pri_and_rest_line (self : Rfc3164) :
    pri_and_rest self.line = some (Nat.toDigits 10 self.pri, self.rest) :=
  pri_and_rest_append (not_mem_toDigits (by decide)) _

theorem Month.head_text (self : Month) : ∃ c, self.text.head? = some c ∧ c ≠ '1' := by
  cases self <;> exact ⟨_, rfl, by decide⟩

theorem Rfc3164.not_rfc5424 (self : Rfc3164) (chrono : Chrono) (pri : Str) :
    read_rfc5424 chrono pri self.rest = none := by
  obtain ⟨c, hhead, hc⟩ := self.month.head_text
  apply read_rfc5424_of_head
  rw [Rfc3164.rest, List.head?_append, hhead]
  exact fun h => hc (Option.some.inj h)

theorem Rfc3164.read_line (self : Rfc3164) (chrono : Chrono) :
    self.fields.Read (read_line chrono self.line) := by
  obtain ⟨entry, hread, hfields⟩ := self.read_fields
  rw [syslog.read_line, self.pri_and_rest_line]
  dsimp only
  rw [self.not_rfc5424, hread]
  exact hfields

theorem Timestamp.not_mem (self : Timestamp) {c : Char} (hdigit : c.isDigit = false)
    (hc : c ∉ "-:.+TZtz".toList) : c ∉ self.text := by
  intro hmem
  obtain hplain | hplain := self.plain c hmem
  · rw [hdigit] at hplain
    cases hplain
  · exact hc hplain

theorem parse_iso8601_ms_of_reads {chrono : Chrono} {timestamp : Timestamp}
    (htime : chrono.Reads (some timestamp)) :
    parse_iso8601_ms chrono timestamp.text = some timestamp.ms.toUInt64 := by
  have hms : chrono.parse_from_rfc3339 timestamp.text = some timestamp.ms := htime
  rw [parse_iso8601_ms, hms, Option.bind_some, if_pos timestamp.epoch]

theorem RsyslogDefault.unbracketed (self : RsyslogDefault) : self.line.head? ≠ some '<' := by
  have hbracket : '<' ∉ self.timestamp.text := self.timestamp.not_mem (by decide) (by decide)
  unfold RsyslogDefault.line
  cases htimestamp : self.timestamp.text with
  | nil => simp
  | cons c timestamp =>
    rw [htimestamp] at hbracket
    simpa using (List.ne_of_not_mem_cons hbracket).symm

theorem RsyslogDefault.pri_and_rest_line (self : RsyslogDefault) : pri_and_rest self.line = none := by
  cases hline : pri_and_rest self.line with
  | none => rfl
  | some halves =>
    obtain ⟨heq, -⟩ := pri_and_rest_eq_some hline
    exact absurd (by rw [heq]; rfl) self.unbracketed

theorem RsyslogDefault.columns (self : RsyslogDefault) :
    splitn ' ' 4 self.line =
      [self.timestamp.text, self.host.text, self.tag.text ++ [':'], self.msg] := by
  have htimestamp : ' ' ∉ self.timestamp.text := self.timestamp.not_mem (by decide) (by decide)
  have hhost : ' ' ∉ self.host.text := self.host.isWord.not_mem rfl
  have hspace : ' ' ∉ self.tag.text := self.tag.isWord.not_mem rfl
  have htag : ' ' ∉ self.tag.text ++ [':'] := by simp [hspace]
  have hlast : self.tag.text ++ ':' :: ' ' :: self.msg = (self.tag.text ++ [':']) ++ ' ' :: self.msg := by
    simp
  rw [RsyslogDefault.line, splitn_append htimestamp, splitn_append hhost, hlast, splitn_append htag,
    splitn_one]

theorem RsyslogDefault.read_line (self : RsyslogDefault) {chrono : Chrono}
    (htime : chrono.Reads (some self.timestamp)) : self.fields.Read (read_line chrono self.line) := by
  rw [syslog.read_line, self.pri_and_rest_line]
  dsimp only
  rw [read_rsyslog_default, if_neg self.unbracketed, self.columns]
  dsimp only
  rw [parse_iso8601_ms_of_reads htime, List.head?_cons, Option.getD_some, trim_start_of_head self.trimmed]
  dsimp only
  rw [if_neg self.nonempty, self.tag.read]
  exact ⟨rfl, rfl, rfl, rfl, rfl, self.tag.labels self.host rfl rfl rfl⟩

/-- A well-formed line of one of the two older formats gives the entry of its fields, and
no parser before its own takes it. -/
theorem well_formed_lines_are_read (chrono : Chrono) :
    (∀ record : Rfc3164,
      try_rfc5424 chrono record.line = .ok none ∧
        ∃ entry, parse_line chrono record.line = .ok entry ∧ record.fields.Carried entry) ∧
    ∀ record : RsyslogDefault, chrono.Reads (some record.timestamp) →
      try_rfc5424 chrono record.line = .ok none ∧ try_rfc3164 record.line = .ok none ∧
        ∃ entry, parse_line chrono record.line = .ok entry ∧ record.fields.Carried entry := by
  refine ⟨fun record => ⟨?_, (record.read_line chrono).parse_line⟩, fun record htime =>
    ⟨?_, ?_, (record.read_line htime).parse_line⟩⟩
  · rw [Rfc3164.line, try_rfc5424_eq chrono (not_mem_toDigits (by decide)), record.not_rfc5424]
  · exact try_rfc5424_of_unbracketed chrono record.pri_and_rest_line
  · exact try_rfc3164_of_unbracketed record.pri_and_rest_line

/-- A time library that knows one time. -/
def one_time (timestamp : Timestamp) : Chrono where
  parse_from_rfc3339 s := if s = timestamp.text then some timestamp.ms else none

theorem one_time_reads (timestamp : Timestamp) : (one_time timestamp).Reads (some timestamp) :=
  if_pos rfl

theorem myapp_ne_nil : "myapp".toList ≠ [] := by decide

/-- `2026-06-12T15:26:45+02:00 debian myapp[999]: hello world` -/
def hello_world : RsyslogDefault where
  timestamp := ⟨"2026-06-12T15:26:45+02:00".toList, by decide, by decide, 1781270805000, by decide⟩
  host := ⟨"debian".toList, by decide, by decide⟩
  tag := ⟨⟨"myapp".toList, myapp_ne_nil, by decide⟩, some 999⟩
  msg := "hello world".toList
  nonempty := by decide
  trimmed c hc := by
    obtain rfl : 'h' = c := Option.some.inj hc
    decide

/-- `<34>Oct 11 22:14:15 mymachine su[230]: failed for root` -/
def su_failed : Rfc3164 where
  pri := 34
  month := .Oct
  day := .full 1 1
  clock := ⟨(2, 2), (1, 4), (1, 5)⟩
  host := ⟨"mymachine".toList, by decide, by decide⟩
  tag := ⟨⟨"su".toList, by decide, by decide⟩, some 230⟩
  msg := "failed for root".toList
  nonempty := by decide

theorem hello_world_is_read :
    let chrono := one_time hello_world.timestamp
    (su_failed.line = "<34>Oct 11 22:14:15 mymachine su[230]: failed for root".toList ∧
      try_rfc5424 chrono su_failed.line = .ok none ∧
      ∃ entry, parse_line chrono su_failed.line = .ok entry ∧ su_failed.fields.Carried entry) ∧
    try_rfc5424 chrono hello_world.line = .ok none ∧ try_rfc3164 hello_world.line = .ok none ∧
      ∃ entry, parse_line chrono hello_world.line = .ok entry ∧ hello_world.fields.Carried entry :=
  ⟨⟨by decide, (well_formed_lines_are_read (one_time hello_world.timestamp)).1 su_failed⟩,
    (well_formed_lines_are_read (one_time hello_world.timestamp)).2 hello_world (one_time_reads _)⟩

end spotflowd.sources.syslog
