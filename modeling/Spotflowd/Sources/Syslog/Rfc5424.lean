import Spotflowd.Sources.Syslog.Body
import Spotflowd.Sources.Syslog.WellFormed

open str
open spotflowd.log_entry

namespace spotflowd.sources.syslog

/-- A header field that is not nil. -/
structure Token where
  text : Str
  nonempty : text ≠ []
  no_space : ' ' ∉ text
  not_nil : text ≠ ['-']

/-- The name of an element or of a parameter. -/
structure SdName where
  text : Str
  nonempty : text ≠ []
  plain : ∀ c ∈ text, c ≠ ' ' ∧ c ≠ '=' ∧ c ≠ ']' ∧ c ≠ '"'

structure SdParam where
  name : SdName
  value : Str

structure SdElement where
  id : SdName
  params : List SdParam

/-- Quotes, backslashes and closing brackets are escaped in a value. -/
def escape (value : Str) : Str :=
  value.flatMap fun c => if c = '"' ∨ c = '\\' ∨ c = ']' then ['\\', c] else [c]

def SdParam.text (self : SdParam) : Str :=
  ' ' :: (self.name.text ++ '=' :: '"' :: (escape self.value ++ ['"']))

def SdElement.text (self : SdElement) : Str :=
  '[' :: (self.id.text ++ (self.params.flatMap SdParam.text ++ [']']))

/-- `<PRI>1 TIMESTAMP HOSTNAME APP-NAME PROCID MSGID STRUCTURED-DATA MSG`, the message
optional. Structured data without elements is nil. -/
structure Rfc5424 where
  pri : Fin 192
  timestamp : Option Timestamp
  hostname : Option Token
  app_name : Option Token
  procid : Option Token
  msgid : Option Token
  structured_data : List SdElement
  msg : Option Str

def field_text (field : Option Token) : Str := field.elim ['-'] Token.text

def timestamp_text (field : Option Timestamp) : Str := field.elim ['-'] Timestamp.text

def sd_text (elements : List SdElement) : Str :=
  if elements = [] then ['-'] else elements.flatMap SdElement.text

def msg_text (msg : Option Str) : Str := msg.elim [] (' ' :: ·)

def Rfc5424.header (self : Rfc5424) : Str :=
  timestamp_text self.timestamp ++ ' ' :: (field_text self.hostname ++ ' ' ::
    (field_text self.app_name ++ ' ' :: (field_text self.procid ++ ' ' ::
      (field_text self.msgid ++ ' ' :: (sd_text self.structured_data ++ msg_text self.msg)))))

def Rfc5424.line (self : Rfc5424) : Str :=
  '<' :: (Nat.toDigits 10 self.pri ++ '>' :: '1' :: ' ' :: self.header)

/-- A message without its byte order mark. -/
def without_bom : Str → Str
  | '\uFEFF' :: text => text
  | text => text

def Rfc5424.fields (self : Rfc5424) : Fields where
  msg := without_bom (self.msg.getD [])
  severity := some (Severity.from_syslog_priority (self.pri % 8))
  timestamp_ms := self.timestamp.map fun timestamp => timestamp.ms.toUInt64
  hostname := self.hostname.map Token.text
  process := self.app_name.map Token.text
  pid := self.procid.bind fun procid => integer procid.text

/-- There is a message, no element of the structured data has parameters, and the message
does not begin with two byte order marks. -/
structure Rfc5424.Cuttable (record : Rfc5424) : Prop where
  msg : record.msg.isSome
  structured_data : ∀ element ∈ record.structured_data, element.params = []
  bom : ∀ text, record.msg ≠ some ('\uFEFF' :: '\uFEFF' :: text)

/-- The record is cut as it should be, and an integer for the process id is an `i64`. -/
structure Rfc5424.Simple (record : Rfc5424) : Prop extends record.Cuttable where
  procid : ∀ token ∈ record.procid, ∀ i ∈ integer token.text, -2 ^ 63 ≤ i ∧ i < 2 ^ 63

theorem SdName.not_mem (self : SdName) {c : Char} (hc : c = ' ' ∨ c = '=') : c ∉ self.text := by
  intro hmem
  obtain ⟨hspace, hequals, -, -⟩ := self.plain c hmem
  obtain rfl | rfl := hc
  · exact hspace rfl
  · exact hequals rfl

theorem space_not_mem_field (field : Option Token) : ' ' ∉ field_text field := by
  cases field with
  | none => decide
  | some token => exact token.no_space

theorem space_not_mem_timestamp (field : Option Timestamp) : ' ' ∉ timestamp_text field := by
  cases field with
  | none => decide
  | some timestamp => exact timestamp.not_mem (by decide) (by decide)

theorem space_not_mem_sd {elements : List SdElement} (hparams : ∀ element ∈ elements, element.params = []) :
    ' ' ∉ sd_text elements := by
  unfold sd_text
  split
  · decide
  · intro hmem
    obtain ⟨element, helement, hspace⟩ := List.mem_flatMap.mp hmem
    rw [SdElement.text, hparams element helement] at hspace
    have hid : ' ' ∉ element.id.text := element.id.not_mem (Or.inl rfl)
    simp [hid] at hspace

/-- The first space of structured data with parameters stands before the name of one. -/
theorem sd_text_of_params {elements : List SdElement} (hparams : ¬ ∀ element ∈ elements, element.params = []) :
    ∃ before name rest, sd_text elements = before ++ ' ' :: (name ++ '=' :: rest) ∧ ' ' ∉ before := by
  have hne : elements ≠ [] := by
    rintro rfl
    exact hparams (by simp)
  rw [sd_text, if_neg hne]
  clear hne
  induction elements with
  | nil => exact absurd (by simp) hparams
  | cons element elements ih =>
    have hid : ' ' ∉ element.id.text := element.id.not_mem (Or.inl rfl)
    cases hform : element.params with
    | nil =>
      have hrest : ¬ ∀ e ∈ elements, e.params = [] := fun hall =>
        hparams (List.forall_mem_cons.mpr ⟨hform, hall⟩)
      obtain ⟨before, name, rest, heq, hbefore⟩ := ih hrest
      refine ⟨element.text ++ before, name, rest, by simp [heq], ?_⟩
      simp [SdElement.text, hform, hid, hbefore]
    | cons param params =>
      refine ⟨'[' :: element.id.text, param.name.text, '"' :: (escape param.value ++ ['"'] ++
        (params.flatMap SdParam.text ++ [']']) ++ elements.flatMap SdElement.text), ?_, by simp [hid]⟩
      simp only [List.flatMap_cons, SdElement.text, hform, SdParam.text, List.cons_append, List.append_assoc]

theorem timestamp_head (field : Option Timestamp) :
    ∃ c rest, timestamp_text field = c :: rest ∧ is_whitespace c = false := by
  cases field with
  | none => exact ⟨'-', [], rfl, by decide⟩
  | some timestamp =>
    obtain ⟨c, rest, htext⟩ := List.exists_cons_of_ne_nil timestamp.nonempty
    refine ⟨c, rest, htext, ?_⟩
    obtain hdigit | hplain := timestamp.plain c (htext ▸ List.mem_cons_self)
    · exact not_is_whitespace_of_isDigit hdigit
    · have hmarks : ∀ c ∈ "-:.+TZtz".toList, is_whitespace c = false := by decide
      exact hmarks c hplain

theorem Rfc5424.trim_start_header (self : Rfc5424) : trim_start (' ' :: self.header) = self.header := by
  obtain ⟨c, rest, htext, hspace⟩ := timestamp_head self.timestamp
  rw [trim_start_cons (by decide), trim_start_of_head]
  rw [Rfc5424.header, htext]
  simp [hspace]

/-- The header up to the structured data is split into its fields. -/
theorem Rfc5424.header_parts (self : Rfc5424) :
    splitn ' ' 7 self.header = timestamp_text self.timestamp :: field_text self.hostname ::
      field_text self.app_name :: field_text self.procid :: field_text self.msgid ::
      splitn ' ' 2 (sd_text self.structured_data ++ msg_text self.msg) := by
  rw [Rfc5424.header, splitn_append (space_not_mem_timestamp _), splitn_append (space_not_mem_field _),
    splitn_append (space_not_mem_field _), splitn_append (space_not_mem_field _),
    splitn_append (space_not_mem_field _)]

theorem Rfc5424.pri_and_rest_line (self : Rfc5424) :
    pri_and_rest self.line = some (Nat.toDigits 10 self.pri, '1' :: ' ' :: self.header) :=
  pri_and_rest_append (not_mem_toDigits (by decide)) _

/-- What is read depends on where the structured data ends, seen from its first space. -/
theorem Rfc5424.read_rfc5424 (self : Rfc5424) (chrono : Chrono) (pri : Str) :
    read_rfc5424 chrono pri ('1' :: ' ' :: self.header) =
      (split_once ' ' (sd_text self.structured_data ++ msg_text self.msg)).map fun halves =>
        rfc5424_entry chrono pri (timestamp_text self.timestamp) (field_text self.hostname)
          (field_text self.app_name) (field_text self.procid) halves.2 := by
  rw [syslog.read_rfc5424, self.trim_start_header, self.header_parts, splitn]
  cases split_once ' ' (sd_text self.structured_data ++ msg_text self.msg) <;> rfl

theorem insert_field_get? (labels : OrderedMap String LabelValue) (name : String) (field : Option Token)
    (key : String) :
    (if field_text field ≠ ['-'] then labels.insert name (.Str (String.ofList (field_text field)))
      else labels).get? key =
      if key = name then (field.map fun token => .Str (String.ofList token.text)).or (labels.get? key)
      else labels.get? key := by
  cases field with
  | none => simp [field_text]
  | some token =>
    have hname : field_text (some token) ≠ ['-'] := token.not_nil
    rw [if_pos hname, OrderedMap.get?_insert]
    simp only [eq_comm, Option.map_some, Option.some_or]
    rfl

theorem parse_i64_field (field : Option Token) :
    parse_i64 (field_text field) = field.bind fun token => parse_i64 token.text := by
  cases field with
  | none => rfl
  | some token => rfl

/-- The label of the process id, if it is one that the code can parse. -/
theorem Rfc5424.pid_label (self : Rfc5424) :
    (rfc5424_labels (field_text self.hostname) (field_text self.app_name)
      (field_text self.procid)).get? "pid" =
      (self.procid.bind fun token => parse_i64 token.text).map .Int := by
  rw [rfc5424_labels, insert_pid_get?, insert_field_get?, insert_field_get?, base_labels_get?, parse_i64_field]
  simp

/-- The process id of the fields is the one parsed, if that is what the integer fits. -/
theorem Rfc5424.pid_eq_iff (self : Rfc5424) :
    self.fields.pid = (self.procid.bind fun token => parse_i64 token.text).map Int64.toInt ↔
      ∀ token ∈ self.procid, ∀ i ∈ integer token.text, -2 ^ 63 ≤ i ∧ i < 2 ^ 63 := by
  unfold Rfc5424.fields
  cases self.procid with
  | none => simp
  | some token =>
    simp only [Option.bind_some, parse_i64_eq, Option.mem_def, Option.some.injEq, forall_eq']
    cases integer token.text with
    | none => simp
    | some i =>
      simp only [Option.filter_some, Option.some.injEq, forall_eq']
      by_cases hfits : -2 ^ 63 ≤ i ∧ i < 2 ^ 63
      · rw [if_pos (decide_eq_true hfits)]
        exact iff_of_true rfl hfits
      · rw [if_neg (by simpa only [decide_eq_true_eq] using hfits)]
        exact iff_of_false (Option.some_ne_none i) hfits

theorem Rfc5424.label (self : Rfc5424) {key : String} (hkey : key ≠ "pid") :
    (rfc5424_labels (field_text self.hostname) (field_text self.app_name)
      (field_text self.procid)).get? key = self.fields.label key := by
  rw [rfc5424_labels, insert_pid_get?, insert_field_get?, insert_field_get?, base_labels_get?]
  unfold Fields.label Rfc5424.fields
  by_cases hprocess : key = "process"
  · subst hprocess
    simp [Option.map_map, Function.comp_def]
  · by_cases hhostname : key = "hostname"
    · subst hhostname
      simp [Option.map_map, Function.comp_def]
    · simp [hkey, hprocess, hhostname]

theorem parse_iso8601_ms_timestamp {chrono : Chrono} {field : Option Timestamp}
    (htime : chrono.Reads field) :
    parse_iso8601_ms chrono (timestamp_text field) =
      field.map fun timestamp => timestamp.ms.toUInt64 := by
  cases field with
  | none =>
    have hnil : chrono.parse_from_rfc3339 ['-'] = none := htime
    rw [timestamp_text, Option.elim_none, parse_iso8601_ms, hnil]
    rfl
  | some timestamp => exact parse_iso8601_ms_of_reads htime

theorem without_bom_of_ne {c : Char} (hc : c ≠ '\uFEFF') (text : Str) : without_bom (c :: text) = c :: text := by
  unfold without_bom
  split
  · next heq =>
    cases heq
    exact absurd rfl hc
  · rfl

theorem trim_bom {msg : Str} (hbom : ∀ text, msg ≠ '\uFEFF' :: '\uFEFF' :: text) :
    trim_start_matches '\uFEFF' msg = without_bom msg := by
  have hkept {c : Char} (hc : c ≠ '\uFEFF') (text : Str) :
      trim_start_matches '\uFEFF' (c :: text) = c :: text :=
    List.dropWhile_cons_of_neg (by simpa using hc)
  have hdropped (text : Str) :
      trim_start_matches '\uFEFF' ('\uFEFF' :: text) = trim_start_matches '\uFEFF' text :=
    List.dropWhile_cons_of_pos (by simp)
  cases msg with
  | nil => rfl
  | cons c text =>
    by_cases hc : c = '\uFEFF'
    · subst hc
      rw [hdropped]
      cases text with
      | nil => rfl
      | cons d text =>
        have hd : d ≠ '\uFEFF' := by
          rintro rfl
          exact hbom text rfl
        rw [hkept hd]
        rfl
    · rw [hkept hc, without_bom_of_ne hc]

/-- A record that is cut as it should be is taken as what it is. -/
theorem Rfc5424.Cuttable.read_line {self : Rfc5424} (hcuttable : self.Cuttable) (chrono : Chrono) :
    syslog.read_line chrono self.line = rfc5424_entry chrono (Nat.toDigits 10 self.pri)
      (timestamp_text self.timestamp) (field_text self.hostname) (field_text self.app_name)
      (field_text self.procid) (self.msg.getD []) := by
  obtain ⟨msg, hmsg⟩ := Option.isSome_iff_exists.mp hcuttable.msg
  have hsplit : split_once ' ' (sd_text self.structured_data ++ msg_text self.msg) =
      some (sd_text self.structured_data, msg) := by
    rw [hmsg]
    exact split_once_append (space_not_mem_sd hcuttable.structured_data) msg
  rw [syslog.read_line, self.pri_and_rest_line]
  dsimp only
  rw [self.read_rfc5424, hsplit, Option.map_some, Option.some_or, Option.getD_some, hmsg,
    Option.getD_some]

theorem Rfc5424.Simple.read_line {self : Rfc5424} (hsimple : self.Simple) {chrono : Chrono}
    (htime : chrono.Reads self.timestamp) : self.fields.Read (syslog.read_line chrono self.line) := by
  have hbom : ∀ text, self.msg.getD [] ≠ '\uFEFF' :: '\uFEFF' :: text := by
    obtain ⟨msg, hmsg⟩ := Option.isSome_iff_exists.mp hsimple.msg
    rw [hmsg, Option.getD_some]
    rintro text rfl
    exact hsimple.bom text hmsg
  rw [hsimple.toCuttable.read_line]
  refine ⟨?_, ?_, parse_iso8601_ms_timestamp htime, rfl, rfl, ?_⟩
  · rw [rfc5424_entry, trim_bom hbom]
    rfl
  · rw [rfc5424_entry, parse_priority_toDigits]
    rfl
  · exact ⟨⟨_, self.pid_label, self.pid_eq_iff.mpr hsimple.procid⟩, fun key => self.label⟩

/-- Trimming stops at another character. -/
theorem suffix_trim_start_matches {c d : Char} (hd : d ≠ c) (front rest : Str) :
    d :: rest <:+ trim_start_matches c (front ++ d :: rest) := by
  induction front with
  | nil =>
    have hkept : trim_start_matches c (d :: rest) = d :: rest :=
      List.dropWhile_cons_of_neg (by simpa using hd)
    exact ⟨[], hkept.symm⟩
  | cons e front ih =>
    by_cases he : e = c
    · rw [List.cons_append, trim_start_matches, List.dropWhile_cons_of_pos (by simpa using he)]
      exact ih
    · rw [List.cons_append, trim_start_matches, List.dropWhile_cons_of_neg (by simpa using he)]
      exact (List.suffix_append front (d :: rest)).trans (List.suffix_cons _ _)

theorem without_bom_suffix (msg : Str) : without_bom msg <:+ msg := by
  unfold without_bom
  split
  · exact List.suffix_cons _ _
  · exact List.suffix_refl _

theorem msg_text_suffix (msg : Option Str) : msg.getD [] <:+ msg_text msg := by
  cases msg with
  | none => exact List.suffix_refl _
  | some msg => exact List.suffix_cons _ _

theorem read_line_body_ne_nil {chrono : Chrono} {line pri rest : Str}
    (hline : pri_and_rest line = some (pri, rest)) (hread : read_rfc5424 chrono pri rest = none) :
    (read_line chrono line).body.toList ≠ [] := by
  rw [read_line, hline]
  dsimp only
  rw [hread, Option.none_or]
  cases hold : read_rfc3164 pri rest with
  | some entry => exact (read_rfc3164_body hold).2
  | none =>
    obtain ⟨rfl, -⟩ := pri_and_rest_eq_some hline
    rw [Option.getD_none, fallback, String.toList_ofList]
    exact List.cons_ne_nil _ _

theorem Rfc5424.fields_msg_inside (self : Rfc5424) : self.fields.msg <:+: self.line := by
  have hmsg : self.fields.msg <:+ msg_text self.msg :=
    (without_bom_suffix _).trans (msg_text_suffix self.msg)
  have hheader : msg_text self.msg <:+ self.header := by
    unfold Rfc5424.header
    exact (List.suffix_append _ _).trans ((List.suffix_cons _ _).trans ((List.suffix_append _ _).trans
      ((List.suffix_cons _ _).trans ((List.suffix_append _ _).trans ((List.suffix_cons _ _).trans
      ((List.suffix_append _ _).trans ((List.suffix_cons _ _).trans ((List.suffix_append _ _).trans
      ((List.suffix_cons _ _).trans (List.suffix_append _ _))))))))))
  have hline : self.header <:+ self.line :=
    ((List.suffix_cons _ _).trans (List.suffix_cons _ _)).trans ((List.suffix_cons _ _).trans
      ((List.suffix_append _ _).trans (List.suffix_cons _ _)))
  exact (hmsg.trans (hheader.trans hline)).isInfix

/-- Without escapes, a body that is right was read right. -/
theorem Rfc5424.body_of_carried (self : Rfc5424) {chrono : Chrono} {entry : LogEntry}
    (hplain : has_esc self.line = false) (hparse : parse_line chrono self.line = .ok entry)
    (hcarried : self.fields.Carried entry) :
    (syslog.read_line chrono self.line).body.toList = self.fields.msg := by
  have hmsg := hcarried.body
  rw [strip_ansi_of_plain (has_esc_of_inside self.fields_msg_inside hplain)] at hmsg
  rw [parse_line_of_plain chrono hplain] at hparse
  cases hparse
  rw [finish, String.toList_ofList] at hmsg
  exact (Except.ok.inj hmsg).symm

/-- The body of a record that is taken as RFC 5424. -/
theorem Rfc5424.body_of_split (self : Rfc5424) {chrono : Chrono} {before text : Str}
    (hsplit : split_once ' ' (sd_text self.structured_data ++ msg_text self.msg) = some (before, text)) :
    (syslog.read_line chrono self.line).body.toList = trim_start_matches '\uFEFF' text := by
  rw [syslog.read_line, self.pri_and_rest_line]
  dsimp only
  rw [self.read_rfc5424, hsplit, Option.map_some, Option.some_or, Option.getD_some, rfc5424_entry,
    String.toList_ofList]

theorem Rfc5424.body_of_absent (self : Rfc5424) (chrono : Chrono) (hmsg : self.msg = none)
    (hparams : ∀ element ∈ self.structured_data, element.params = []) :
    (syslog.read_line chrono self.line).body.toList ≠ [] := by
  have hsplit : split_once ' ' (sd_text self.structured_data ++ msg_text self.msg) = none := by
    rw [hmsg, msg_text, Option.elim_none, List.append_nil]
    exact split_once_eq_none.mpr (space_not_mem_sd hparams)
  apply read_line_body_ne_nil self.pri_and_rest_line
  rw [self.read_rfc5424, hsplit, Option.map_none]

/-- Parameters end up in the body, which is then longer than the message. -/
theorem Rfc5424.body_of_params (self : Rfc5424) (chrono : Chrono)
    (hparams : ¬ ∀ element ∈ self.structured_data, element.params = []) :
    (msg_text self.msg).length < (syslog.read_line chrono self.line).body.toList.length := by
  obtain ⟨before, name, rest, hsd, hbefore⟩ := sd_text_of_params hparams
  have hsplit : split_once ' ' (sd_text self.structured_data ++ msg_text self.msg) =
      some (before, name ++ '=' :: (rest ++ msg_text self.msg)) := by
    rw [hsd, List.append_assoc, List.cons_append, split_once_append hbefore, List.append_assoc,
      List.cons_append]
  have hkept : '=' :: (rest ++ msg_text self.msg) <:+
      trim_start_matches '\uFEFF' (name ++ '=' :: (rest ++ msg_text self.msg)) :=
    suffix_trim_start_matches (by decide) _ _
  have hlength := hkept.length_le
  rw [List.length_cons, List.length_append] at hlength
  rw [self.body_of_split hsplit]
  omega

theorem Rfc5424.body_of_two_boms (self : Rfc5424) (chrono : Chrono) {text : Str}
    (hmsg : self.msg = some ('\uFEFF' :: '\uFEFF' :: text))
    (hparams : ∀ element ∈ self.structured_data, element.params = []) :
    (syslog.read_line chrono self.line).body.toList.length ≤ text.length := by
  have hsplit : split_once ' ' (sd_text self.structured_data ++ msg_text self.msg) =
      some (sd_text self.structured_data, '\uFEFF' :: '\uFEFF' :: text) := by
    rw [hmsg]
    exact split_once_append (space_not_mem_sd hparams) _
  have htrim : trim_start_matches '\uFEFF' ('\uFEFF' :: '\uFEFF' :: text) =
      trim_start_matches '\uFEFF' text := by
    simp [trim_start_matches]
  rw [self.body_of_split hsplit, htrim]
  exact (trim_start_matches_suffix _ text).length_le

theorem Rfc5424.cuttable_of_body (self : Rfc5424) {chrono : Chrono}
    (hbody : (syslog.read_line chrono self.line).body.toList = self.fields.msg) : self.Cuttable := by
  have hshort : self.fields.msg.length ≤ (msg_text self.msg).length :=
    ((without_bom_suffix _).trans (msg_text_suffix self.msg)).length_le
  have hparams : ∀ element ∈ self.structured_data, element.params = [] := by
    by_contra hparams
    have hlong := self.body_of_params chrono hparams
    rw [hbody] at hlong
    omega
  refine ⟨?_, hparams, fun text hmsg => ?_⟩
  · cases hmsg : self.msg with
    | some msg => rfl
    | none =>
      refine absurd ?_ (self.body_of_absent chrono hmsg hparams)
      rw [hbody, Rfc5424.fields, hmsg]
      rfl
  · have hlength := self.body_of_two_boms chrono hmsg hparams
    have hfields : self.fields.msg = '\uFEFF' :: text := by
      rw [Rfc5424.fields, hmsg]
      rfl
    rw [hbody, hfields, List.length_cons] at hlength
    omega

/-- A process id that is carried is one that the code can parse. -/
theorem Rfc5424.Cuttable.procid_of_carried {self : Rfc5424} (hcuttable : self.Cuttable) {chrono : Chrono}
    (hplain : has_esc self.line = false) {entry : LogEntry}
    (hparse : parse_line chrono self.line = .ok entry) (hcarried : self.fields.Carried entry) :
    ∀ token ∈ self.procid, ∀ i ∈ integer token.text, -2 ^ 63 ≤ i ∧ i < 2 ^ 63 := by
  rw [parse_line_of_plain chrono hplain, hcuttable.read_line] at hparse
  cases hparse
  obtain ⟨pid, hlabel, hpid⟩ := hcarried.labels.pid
  have hsame : self.procid.bind (fun token => parse_i64 token.text) = pid :=
    Option.map_injective (fun _ _ => LabelValue.Int.inj) (self.pid_label.symm.trans hlabel)
  exact self.pid_eq_iff.mp (hsame ▸ hpid)

/-- Without escapes, a record that is not simple is misread. -/
theorem Rfc5424.misread (self : Rfc5424) {chrono : Chrono} (hplain : has_esc self.line = false)
    (hsimple : ¬ self.Simple) :
    ¬ ∃ entry, parse_line chrono self.line = .ok entry ∧ self.fields.Carried entry := by
  rintro ⟨entry, hparse, hcarried⟩
  have hcuttable := self.cuttable_of_body (self.body_of_carried hplain hparse hcarried)
  exact hsimple ⟨hcuttable, hcuttable.procid_of_carried hplain hparse hcarried⟩

/-- A record is read right when it has a message, its structured data has no parameters, its
message does not begin with two byte order marks and its process id, if it is an integer, is an
`i64`. Without escapes in the line it is read right in no other case. -/
theorem rfc5424_record_is_read (chrono : Chrono) (record : Rfc5424)
    (htime : chrono.Reads record.timestamp) :
    (record.Simple → ∃ entry, parse_line chrono record.line = .ok entry ∧ record.fields.Carried entry) ∧
      (has_esc record.line = false →
        ((∃ entry, parse_line chrono record.line = .ok entry ∧ record.fields.Carried entry) ↔
          record.Simple)) := by
  have hforward (hsimple : record.Simple) :
      ∃ entry, parse_line chrono record.line = .ok entry ∧ record.fields.Carried entry :=
    (hsimple.read_line htime).parse_line
  refine ⟨hforward, fun hplain => ⟨fun hcarried => ?_, hforward⟩⟩
  by_contra hsimple
  exact record.misread hplain hsimple hcarried

def half_past_three : Timestamp :=
  ⟨"2026-06-12T15:30:00Z".toList, by decide, by decide, 1781278200000, by decide⟩

/-- `<34>1 2026-06-12T15:30:00Z myhost myapp 1234 - -`, with structured data and a message. -/
def from_myhost (structured_data : List SdElement) (msg : Option Str) : Rfc5424 where
  pri := ⟨34, by decide⟩
  timestamp := some half_past_three
  hostname := some ⟨"myhost".toList, by decide, by decide, by decide⟩
  app_name := some ⟨"myapp".toList, myapp_ne_nil, by decide, by decide⟩
  procid := some ⟨"1234".toList, by decide, by decide, by decide⟩
  msgid := none
  structured_data := structured_data
  msg := msg

/-- `[id iut="3"]` -/
def with_parameter : SdElement where
  id := ⟨"id".toList, by decide, by decide⟩
  params := [⟨⟨"iut".toList, by decide, by decide⟩, "3".toList⟩]

theorem test_message_is_read :
    ∃ entry, parse_line (one_time half_past_three) (from_myhost [] (some "test message".toList)).line =
        .ok entry ∧ (from_myhost [] (some "test message".toList)).fields.Carried entry :=
  (rfc5424_record_is_read (one_time half_past_three) (from_myhost [] (some "test message".toList))
    (one_time_reads _)).1 {
      msg := rfl
      structured_data := by simp [from_myhost]
      bom := by simp [from_myhost]
      procid := by
        rintro token ⟨⟩ i hi
        obtain rfl : (1234 : Int) = i := Option.some.inj hi
        decide }

/-- A process id that is no `i64`. -/
def too_large : Token := ⟨"9223372036854775808".toList, by decide, by decide, by decide⟩

/-- A record without a message is misread, and so is one with a parameter, with a second byte order
mark or with an integer for the process id that is no `i64`. -/
theorem rfc5424_records_misread :
    (one_time half_past_three).Reads (some half_past_three) ∧
      ∀ record ∈ [from_myhost [] none, from_myhost [with_parameter] (some "hello".toList),
          from_myhost [] (some "\uFEFF\uFEFFhello".toList),
          { from_myhost [] (some "hello".toList) with procid := some too_large }],
        ¬ ∃ entry, parse_line (one_time half_past_three) record.line = .ok entry ∧
          record.fields.Carried entry := by
  refine ⟨one_time_reads _, ?_⟩
  simp only [List.forall_mem_cons, List.not_mem_nil, false_implies, implies_true, and_true]
  refine ⟨Rfc5424.misread _ (by decide) ?_, Rfc5424.misread _ (by decide) ?_,
    Rfc5424.misread _ (by decide) ?_, Rfc5424.misread _ (by decide) ?_⟩
  · intro hsimple
    exact absurd hsimple.msg (by simp [from_myhost])
  · intro hsimple
    exact absurd (hsimple.structured_data with_parameter (by simp [from_myhost])) (by simp [with_parameter])
  · intro hsimple
    exact hsimple.bom _ rfl
  · intro hsimple
    exact absurd (hsimple.procid too_large rfl 9223372036854775808 (by decide)).2 (by decide)

end spotflowd.sources.syslog
