import Spotflowd.Sources.Syslog.Tail
import Spotflowd.Sources.Syslog.Unrecognised

open str
open spotflowd.log_entry

namespace spotflowd.sources.syslog

/-- A version that is `1`, and six fields with a space after each. -/
def HasVersionOne (rest : Str) : Prop :=
  ∃ fields msg, fields.length = 6 ∧ (∀ field ∈ fields, ' ' ∉ field) ∧
    rest = '1' :: ' ' :: columns ' ' fields msg

theorem hasVersionOne_iff {rest : Str} :
    HasVersionOne rest ↔ ∃ tail, rest = '1' :: ' ' :: tail ∧ 6 ≤ tail.count ' ' := by
  constructor
  · rintro ⟨fields, msg, hlength, hfields, rfl⟩
    exact ⟨_, rfl, le_count_iff.mpr ⟨fields, msg, hlength, hfields, rfl⟩⟩
  · rintro ⟨tail, rfl, hcount⟩
    obtain ⟨fields, msg, hlength, hfields, rfl⟩ := le_count_iff.mp hcount
    exact ⟨fields, msg, hlength, hfields, rfl⟩

theorem HasVersionOne.starts {rest : Str} (hversion : HasVersionOne rest) : "1 ".toList <+: rest := by
  obtain ⟨tail, rfl, -⟩ := hasVersionOne_iff.mp hversion
  exact ⟨tail, rfl⟩

theorem try_rfc5424_some_iff (chrono : Chrono) {pri : Str} (hpri : '>' ∉ pri) (rest : Str) :
    (∃ entry, try_rfc5424 chrono ('<' :: (pri ++ '>' :: rest)) = .ok (some entry)) ↔ LooksRfc5424 rest := by
  have hread := not_iff_not.mpr (@read_rfc5424_none_iff chrono pri rest)
  rw [not_not, ← ne_eq, Option.ne_none_iff_exists'] at hread
  simp only [← hread, try_rfc5424_eq chrono hpri, Except.ok.injEq]

/-- Of the lines that begin with a `1` and have the spaces, only those with a space after
that `1` have the version. -/
theorem only_version_one_iff (chrono : Chrono) {pri : Str} (hpri : '>' ∉ pri) (rest : Str) :
    ((∃ entry, try_rfc5424 chrono ('<' :: (pri ++ '>' :: rest)) = .ok (some entry)) → HasVersionOne rest) ↔
      ∀ tail, rest = '1' :: tail → tail.head? = some ' ' ∨ (trim_start tail).count ' ' < 6 := by
  rw [try_rfc5424_some_iff chrono hpri, hasVersionOne_iff]
  constructor
  · rintro hversion tail rfl
    obtain hfew | henough := Nat.lt_or_ge ((trim_start tail).count ' ') 6
    · exact Or.inr hfew
    · obtain ⟨rest, heq, -⟩ := hversion ⟨tail, rfl, henough⟩
      obtain rfl := (List.cons.inj heq).2
      exact Or.inl rfl
  · rintro hspace ⟨tail, rfl, henough⟩
    obtain hhead | hfew := hspace tail rfl
    · obtain ⟨rest, rfl⟩ := List.head?_eq_some_iff.mp hhead
      rw [trim_start_cons (by decide)] at henough
      exact ⟨rest, rfl, henough.trans ((trim_start_suffix rest).sublist.count_le ' ')⟩
    · omega

theorem only_version_one_nil_fields :
    '>' ∉ "34".toList ∧
      ((∃ entry, try_rfc5424 no_times "<34>1 - - - - - - hello".toList = .ok (some entry)) →
        HasVersionOne "1 - - - - - - hello".toList) := by
  have hpri : '>' ∉ "34".toList := by decide
  refine ⟨hpri, (only_version_one_iff no_times hpri "1 - - - - - - hello".toList).mpr ?_⟩
  rintro tail htail
  obtain rfl : " - - - - - - hello".toList = tail := (List.cons.inj htail).2
  exact Or.inl rfl

/-- A sequence number before the message passes for the version, and the message loses its
first words. -/
theorem sequence_number_passes_for_version :
    (try_rfc5424 no_times "<189>1234: Jun 12 10:00:00 router link up on port".toList).map
        (Option.map LogEntry.body) = .ok (some "up on port") ∧
      ¬ HasVersionOne "1234: Jun 12 10:00:00 router link up on port".toList := by
  refine ⟨by rfl, fun hversion => ?_⟩
  have hstarts := List.isPrefixOf_iff_prefix.mpr hversion.starts
  revert hstarts
  decide

end spotflowd.sources.syslog
