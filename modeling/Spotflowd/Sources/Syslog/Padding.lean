import Spotflowd.Sources.Syslog.WellFormed

open str
open spotflowd.log_entry

namespace spotflowd.sources.syslog

/-- An RFC 3164 header without its day. -/
structure Columns where
  pri : Str
  month : Str
  time : Str
  host : Str
  bracket : '>' ∉ pri
  month_unspaced : ∀ c ∈ month, is_ascii_whitespace c = false
  time_unspaced : ∀ c ∈ time, is_ascii_whitespace c = false
  host_unspaced : ∀ c ∈ host, is_ascii_whitespace c = false

/-- What follows the PRI: `Mon DD HH:MM:SS HOST TEXT`. -/
def Columns.rest (self : Columns) (day : Day) (text : Str) : Str :=
  self.month ++ ' ' :: (day.text ++ ' ' :: (self.time ++ ' ' :: (self.host ++ ' ' :: text)))

def Columns.line (self : Columns) (day : Day) (text : Str) : Str :=
  '<' :: (self.pri ++ '>' :: self.rest day text)

def body_and_labels (entry : LogEntry) : String × OrderedMap String LabelValue := (entry.body, entry.labels)

/-- The day is one token wherever it stands. -/
theorem Columns.tokens (self : Columns) (day : Day) (text : Str) :
    split_ascii_whitespace (self.rest day text) = split_ascii_whitespace self.month ++
      day.word :: split_ascii_whitespace (self.time ++ ' ' :: (self.host ++ ' ' :: text)) := by
  rw [Columns.rest, split_ascii_whitespace_append _ rfl, day.split]

/-- The labels are read from later tokens than the day. -/
theorem Columns.labels (self : Columns) (day other : Day) (text : Str) :
    read_rfc3164_labels (split_ascii_whitespace (self.rest day text)) =
      read_rfc3164_labels (split_ascii_whitespace (self.rest other text)) := by
  have hmonth : (split_ascii_whitespace self.month).length ≤ 1 := by
    rw [split_ascii_whitespace_unspaced self.month_unspaced]
    exact List.length_filter_le _ _
  have htoken (i : Nat) (hi : 2 ≤ i) :
      (split_ascii_whitespace (self.rest day text))[i]? =
        (split_ascii_whitespace (self.rest other text))[i]? := by
    rw [self.tokens, self.tokens]
    generalize split_ascii_whitespace self.month = front at hmonth
    obtain ⟨k, rfl⟩ : ∃ k, i = front.length + (k + 1) := ⟨i - front.length - 1, by omega⟩
    rw [List.getElem?_append_right (Nat.le_add_right _ _), List.getElem?_append_right (Nat.le_add_right _ _),
      Nat.add_sub_cancel_left, List.getElem?_cons_succ, List.getElem?_cons_succ]
  unfold read_rfc3164_labels
  rw [htoken 3 (by omega), htoken 4 (by omega)]

theorem Columns.body_full (self : Columns) (tens units : Fin 10) (text : Str) :
    tag_and_msg (self.rest (.full tens units) text) = text :=
  tag_and_msg_full (not_mem_of_unspaced self.month_unspaced rfl)
    (not_mem_of_unspaced self.time_unspaced rfl) tens units
    (not_mem_of_unspaced self.host_unspaced rfl) text

theorem Columns.body_padded (self : Columns) (units : Fin 10) (text : Str) :
    tag_and_msg (self.rest (.padded units) text) = self.host ++ ' ' :: text :=
  tag_and_msg_padded (not_mem_of_unspaced self.month_unspaced rfl)
    (not_mem_of_unspaced self.time_unspaced rfl) units (self.host ++ ' ' :: text)

/-- In text without a space `": "` can begin at the last character only. -/
theorem colon_begins {start host next : Str} (hne : start ≠ []) (hstart : start <:+ host)
    (hspace : ' ' ∉ host) (hoccurs : [':', ' '] <+: start ++ next) : start = [':'] := by
  match start, hne with
  | [c], _ =>
    obtain ⟨rfl, -⟩ := List.cons_prefix_cons.mp hoccurs
    rfl
  | c :: d :: rest, _ =>
    obtain ⟨-, hoccurs⟩ := List.cons_prefix_cons.mp hoccurs
    obtain ⟨rfl, -⟩ := List.cons_prefix_cons.mp hoccurs
    exact absurd (hstart.subset (by simp)) hspace

/-- A colon at the end of the host takes the host for a tag. -/
theorem after_tag_of_colon {host : Str} (hspace : ' ' ∉ host) (hcolon : [':'] <:+ host) (text : Str) :
    after_tag (host ++ ' ' :: text) = text := by
  obtain ⟨name, rfl⟩ := hcolon
  have hfirst : ¬ ": ".toList <:+: name ++ ": ".toList.dropLast :=
    fun hinside => hspace (hinside.subset (by decide))
  have htext : name ++ [':'] ++ ' ' :: text = name ++ (": ".toList ++ text) := by simp
  rw [after_tag, htext, split_once_str_at (by decide) hfirst]

/-- Otherwise the host is passed over. -/
theorem split_after_host {host : Str} (hspace : ' ' ∉ host) (hcolon : ¬ [':'] <:+ host) (text : Str) :
    split_once_str ": ".toList (host ++ ' ' :: text) =
      (split_once_str ": ".toList text).map fun halves => (host ++ ' ' :: halves.1, halves.2) := by
  have hskip := @split_once_str_skip [':', ' '] host (' ' :: text) fun start hne hstart hoccurs =>
    hcolon (colon_begins hne hstart hspace hoccurs ▸ hstart)
  have hblank : split_once_str [':', ' '] (' ' :: text) =
      (split_once_str [':', ' '] text).map fun halves => (' ' :: halves.1, halves.2) := rfl
  refine hskip.trans ?_
  rw [hblank, Option.map_map]
  rfl

theorem after_tag_eq_self {text : Str} : after_tag text = text ↔ ¬ ": ".toList <:+: text := by
  rw [← split_once_str_isSome, after_tag]
  cases hsplit : split_once_str ": ".toList text with
  | none => simp
  | some halves =>
    obtain ⟨before, after⟩ := halves
    have htext := split_once_str_eq_some hsplit
    have hne : after ≠ text := fun heq => by
      have hlength := congrArg List.length htext
      rw [heq, List.length_append, List.length_append] at hlength
      have hpat : ": ".toList.length = 2 := rfl
      omega
    simp [hne]

/-- With the host before it, a text has the same body exactly when the text has a `": "` or the
host ends with a colon, and not both. -/
theorem after_tag_host_iff {host : Str} (hspace : ' ' ∉ host) (text : Str) :
    after_tag (host ++ ' ' :: text) = after_tag text ↔ (": ".toList <:+: text ↔ ¬ [':'] <:+ host) := by
  by_cases hcolon : [':'] <:+ host
  · rw [after_tag_of_colon hspace hcolon, eq_comm, after_tag_eq_self]
    simp [hcolon]
  · simp only [hcolon, not_false_eq_true, iff_true]
    rw [after_tag, after_tag, split_after_host hspace hcolon, ← split_once_str_isSome]
    cases split_once_str ": ".toList text with
    | none =>
      have hne : host ++ ' ' :: text ≠ text := fun heq => by
        have hlength := congrArg List.length heq
        rw [List.length_append, List.length_cons] at hlength
        omega
      simp [hne]
    | some halves => simp

/-- What a body and the labels are read as. An empty body is none. -/
def found (labels : OrderedMap String LabelValue) (body : Str) :
    Option (String × OrderedMap String LabelValue) :=
  if body = [] then none else some (String.ofList body, labels)

theorem found_injective (labels : OrderedMap String LabelValue) : Function.Injective (found labels) := by
  intro body other heq
  unfold found at heq
  by_cases hbody : body = []
  · by_cases hother : other = []
    · rw [hbody, hother]
    · rw [if_pos hbody, if_neg hother] at heq
      cases heq
  · by_cases hother : other = []
    · rw [if_neg hbody, if_pos hother] at heq
      cases heq
    · rw [if_neg hbody, if_neg hother] at heq
      exact String.ofList_injective (congrArg Prod.fst (Option.some.inj heq))

theorem read_rfc3164_found (pri rest : Str) :
    (read_rfc3164 pri rest).map body_and_labels =
      found (read_rfc3164_labels (split_ascii_whitespace rest)) (after_tag (tag_and_msg rest)) := by
  unfold read_rfc3164 found
  dsimp only
  split <;> rfl

/-- A padded day leaves the host in the body, unless a `": "` cuts it off. -/
theorem padding_changes_nothing_iff (columns : Columns) (day tens units : Fin 10) (text : Str) :
    ∃ padded full, try_rfc3164 (columns.line (.padded day) text) = .ok padded ∧
      try_rfc3164 (columns.line (.full tens units) text) = .ok full ∧
      (padded.map body_and_labels = full.map body_and_labels ↔
        (": ".toList <:+: text ↔ ¬ ":".toList <:+ columns.host)) := by
  refine ⟨_, _, try_rfc3164_eq columns.bracket _, try_rfc3164_eq columns.bracket _, ?_⟩
  rw [read_rfc3164_found, read_rfc3164_found, columns.labels (.padded day) (.full tens units),
    (found_injective _).eq_iff, columns.body_padded, columns.body_full]
  exact after_tag_host_iff (not_mem_of_unspaced columns.host_unspaced rfl) text

/-- `<34>Jun DD 12:00:00 host ` -/
def june_noon : Columns where
  pri := "34".toList
  month := "Jun".toList
  time := "12:00:00".toList
  host := "host".toList
  bracket := by decide
  month_unspaced := by decide
  time_unspaced := by decide
  host_unspaced := by decide

theorem padded_tag_is_read_alike : ∃ padded full,
    try_rfc3164 "<34>Jun  1 12:00:00 host app[7]: hello".toList = .ok padded ∧
    try_rfc3164 "<34>Jun 11 12:00:00 host app[7]: hello".toList = .ok full ∧
    padded.map body_and_labels = full.map body_and_labels := by
  obtain ⟨padded, full, hpadded, hfull, hiff⟩ :=
    padding_changes_nothing_iff june_noon 1 1 1 "app[7]: hello".toList
  have hpadded_line : june_noon.line (.padded 1) "app[7]: hello".toList =
      "<34>Jun  1 12:00:00 host app[7]: hello".toList := by decide
  have hfull_line : june_noon.line (.full 1 1) "app[7]: hello".toList =
      "<34>Jun 11 12:00:00 host app[7]: hello".toList := by decide
  have hinside : ": ".toList <:+: "app[7]: hello".toList := ⟨"app[7]".toList, "hello".toList, by decide⟩
  have hhost : ¬ ":".toList <:+ june_noon.host := by decide
  rw [hpadded_line] at hpadded
  rw [hfull_line] at hfull
  exact ⟨padded, full, hpadded, hfull, hiff.mpr (iff_of_true hinside hhost)⟩

theorem padded_day_keeps_the_host :
    (try_rfc3164 "<34>Jun  1 12:00:00 host hello".toList).map (Option.map LogEntry.body) =
        .ok (some "host hello") ∧
      (try_rfc3164 "<34>Jun 11 12:00:00 host hello".toList).map (Option.map LogEntry.body) =
        .ok (some "hello") := by
  decide

end spotflowd.sources.syslog
