import OracleMarkets.Proofs.Timestamp

/-!
# Written instants are canonical

An instant has many spellings, and one text that is written of it.  This text is a spelling of the
instant and of no other, so it can stand for the instant.

Dates of any year can be written: one that has no RFC 3339 text, since its year is negative or has
more than four digits, is written as its seconds since the beginning of 1970.  No instant that is
read is written so.
-/

namespace OracleMarkets

/-! ## Dates of any year -/

theorem isLeapYear_mod (year : Nat) : isLeapYear (year % 400) = isLeapYear year := by
  have h₄ : year % 400 % 4 = year % 4 := Nat.mod_mod_of_dvd year (by decide)
  have h₁₀₀ : year % 400 % 100 = year % 100 := Nat.mod_mod_of_dvd year (by decide)
  rw [isLeapYear, isLeapYear, h₄, h₁₀₀, Nat.mod_mod]

/-- The months of a year are as long as those of the year 400 years before. -/
theorem daysInMonth_mod (year month : Nat) :
    daysInMonth (year % 400) month = daysInMonth year month := by
  rw [daysInMonth, daysInMonth, isLeapYear_mod]

/-- A date and a time in UTC, of any year. -/
structure DateTime where
  /-- The year, which is zero or less before the year 1. -/
  year : Int
  month : Nat
  day : Nat
  hour : Nat
  minute : Nat
  second : Nat
  nanosecond : Nat
  /-- The date is a date of the calendar, which repeats after 400 years. -/
  date_valid : 1 ≤ month ∧ month ≤ 12 ∧ 1 ≤ day ∧ day ≤ daysInMonth (year % 400).toNat month
  time_valid : hour < 24 ∧ minute < 60 ∧ second < 60 ∧ nanosecond < 1000000000

namespace DateTime

/-- The instant, if the year has at most four digits. -/
def timestamp? (d : DateTime) : Option Timestamp :=
  if h : 0 ≤ d.year ∧ d.year ≤ 9999 then
    some {
      year := d.year.toNat
      month := d.month
      day := d.day
      hour := d.hour
      minute := d.minute
      second := d.second
      nanosecond := d.nanosecond
      date_valid := by
        have hmod : (d.year % 400).toNat = d.year.toNat % 400 := by omega
        have hdate := d.date_valid
        rw [hmod, daysInMonth_mod] at hdate
        exact ⟨by omega, hdate⟩
      time_valid := d.time_valid }
  else none

/-- The RFC 3339 text, which only a year of at most four digits has. -/
def rfc3339? (d : DateTime) : Option String := d.timestamp?.map Timestamp.text

/-- The day of the year, from 1 on. -/
def dayOfYear (d : DateTime) : Nat :=
  ((List.range (d.month - 1)).map fun m ↦ daysInMonth (d.year % 400).toNat (m + 1)).sum + d.day

/-- The number of whole days since the beginning of 1970. -/
def unixDay (d : DateTime) : Int :=
  365 * (d.year - 1) + (d.year - 1) / 4 - (d.year - 1) / 100 + (d.year - 1) / 400 +
    d.dayOfYear - 719163

/-- The number of whole seconds since the beginning of 1970. -/
def unixSeconds (d : DateTime) : Int :=
  86400 * d.unixDay + 3600 * d.hour + 60 * d.minute + d.second

/-- The RFC 3339 text, or else the seconds since the beginning of 1970. -/
def format (d : DateTime) : String := d.rfc3339?.getD (toString d.unixSeconds)

/-- A year of five digits is written as seconds. -/
example : format ⟨10000, 1, 1, 0, 0, 0, 0, by decide, by decide⟩ = "253402300800" := by
  decide +kernel

end DateTime

namespace Timestamp

/-- The instant as a date and a time. -/
def dateTime (t : Timestamp) : DateTime where
  year := t.year
  month := t.month
  day := t.day
  hour := t.hour
  minute := t.minute
  second := t.second
  nanosecond := t.nanosecond
  date_valid := by
    have hmod : ((t.year : Int) % 400).toNat = t.year % 400 := by omega
    rw [hmod, daysInMonth_mod]
    exact t.date_valid.2
  time_valid := t.time_valid

/-- An instant is the date and time that it is told as. -/
theorem timestamp?_dateTime (t : Timestamp) : t.dateTime.timestamp? = some t := by
  have hyear : 0 ≤ (t.year : Int) ∧ (t.year : Int) ≤ 9999 := by
    have := t.date_valid
    omega
  exact dif_pos hyear

/-- An instant has an RFC 3339 text. -/
theorem rfc3339?_dateTime (t : Timestamp) : t.dateTime.rfc3339? = some t.text := by
  rw [DateTime.rfc3339?, timestamp?_dateTime, Option.map_some]

@[simp] theorem format_dateTime (t : Timestamp) : t.dateTime.format = t.text := by
  rw [DateTime.format, rfc3339?_dateTime, Option.getD_some]

/-! ## Canonical texts -/

/-- A timestamp is parsed exactly if its text is one of an instant in UTC. -/
theorem parse_eq_ok_iff {s : String} {t : Timestamp} : parse s = .ok t ↔ ofText? s = some t := by
  rw [parse]
  cases ofText? s <;> simp

theorem getLast?_text (t : Timestamp) : t.text.toList.getLast? = some 'Z' := by
  rw [text, String.toList_ofList]
  exact List.getLast?_concat

/-- Only one instant has a text. -/
theorem text_injective : Function.Injective text := by
  intro t u h
  have hread := ofText?_text t
  rw [h, ofText?_text u] at hread
  exact (Option.some.inj hread).symm

/-- A text is accepted exactly if it spells an instant.  The instant is then written as an RFC 3339
text, never as a number of seconds; this text ends in `Z`, it is accepted as a text of the same
instant, and it is what is written of it again.  Two accepted texts are of the same instant exactly
if the same text is written of both. -/
theorem format_parse_canonical :
    (∀ s t, parse s = .ok t ↔ Spells s t) ∧
    (∀ s t, parse s = .ok t →
      t.dateTime.rfc3339? = some t.dateTime.format ∧ t.dateTime.format = t.text ∧
      t.dateTime.format.toList.getLast? = some 'Z' ∧ parse t.dateTime.format = .ok t ∧
      ∀ u, parse t.dateTime.format = .ok u → u.dateTime.format = t.dateTime.format) ∧
    ∀ s s' t t', parse s = .ok t → parse s' = .ok t' →
      (compare t t' = .eq ↔ t.dateTime.format = t'.dateTime.format) := by
  refine ⟨?_, ?_, ?_⟩
  · intro s t
    rw [parse_eq_ok_iff, ofText?_eq_some_iff]
  · intro s t _
    rw [format_dateTime]
    have hread : parse t.text = .ok t := parse_eq_ok_iff.2 (ofText?_text t)
    refine ⟨t.rfc3339?_dateTime, rfl, t.getLast?_text, hread, ?_⟩
    intro u hu
    rw [hread] at hu
    cases hu
    exact t.format_dateTime
  · intro s s' t t' _ _
    rw [format_dateTime, format_dateTime, text_injective.eq_iff]
    exact Std.LawfulEqCmp.compare_eq_iff_eq

def endOf2016 : Timestamp := ⟨2016, 12, 31, 23, 59, 59, 999999999, by decide, by decide⟩

/-- Two spellings of the last nanosecond of 2016, of which one tells a leap second, are parsed as
one instant. -/
theorem format_parse_canonical_endOf2016 :
    parse "2016-12-31t23:59:60.5-00:00" = .ok endOf2016 ∧
    parse "2016-12-31 23:59:59.9999999999z" = .ok endOf2016 ∧
    endOf2016.dateTime.rfc3339? = some "2016-12-31T23:59:59.999999999Z" ∧
    parse "2016-12-31T23:59:59.999999999Z" = .ok endOf2016 ∧
    (compare endOf2016 endOf2016 = .eq ↔
      endOf2016.dateTime.format = endOf2016.dateTime.format) := by
  obtain ⟨-, hformat, hcompare⟩ := format_parse_canonical
  have hleap : parse "2016-12-31t23:59:60.5-00:00" = .ok endOf2016 :=
    parse_eq_ok_iff.2 (by decide +kernel)
  have hlong : parse "2016-12-31 23:59:59.9999999999z" = .ok endOf2016 :=
    parse_eq_ok_iff.2 (by decide +kernel)
  have htext : endOf2016.dateTime.format = "2016-12-31T23:59:59.999999999Z" := by
    rw [format_dateTime]
    decide +kernel
  obtain ⟨hrfc, -, -, hread, -⟩ := hformat _ _ hleap
  rw [htext] at hrfc hread
  exact ⟨hleap, hlong, hrfc, hread, hcompare _ _ _ _ hleap hlong⟩

end Timestamp

end OracleMarkets
