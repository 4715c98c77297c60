import Kuma.Lib.Text
import Kuma.Lockfile.Timestamp

/-! A timestamp read back, to the minute: the two calendars are inverse. -/
namespace Kuma.Inspect
open Kuma.Lib Kuma.Lib.Calendar Kuma.Lib.FixedWidth Kuma.Lib.Text Kuma.Lockfile

/-- The digits a field starts with. -/
def leadingNumber (field : List Char) : Option ℤ :=
  (parseUnsigned (2 ^ 63) (field.takeWhile Char.isDigit)).map Int.ofNat

/-- The days since 1970-01-01, over years that begin in March. Beside the year, which may be one
before zero here, nothing divided is negative. -/
def daysFromCivil (year month day : ℤ) : ℤ :=
  let shifted := if month ≤ 2 then year - 1 else year
  let era := shifted / 400
  let yoe := shifted - era * 400
  let mp := if month > 2 then month - 3 else month + 9
  let doy := (153 * mp + 2) / 5 + day - 1
  let doe := yoe * 365 + yoe / 4 - yoe / 100 + doy
  era * 146097 + doe - 719468

/-- Epoch seconds from a timestamp, all after the minutes ignored. -/
def epochFromRfc3339 (stamp : List Char) : Option ℤ := do
  let (date, time) ← splitOnce 'T' stamp
  let fields := split '-' date
  let year ← leadingNumber (← fields[0]?)
  let month ← leadingNumber (← fields[1]?)
  let day ← leadingNumber (← fields[2]?)
  let clock := split ':' time
  let hour ← leadingNumber (← clock[0]?)
  let minute ← leadingNumber (← clock[1]?)
  if ¬(1 ≤ month ∧ month ≤ 12) ∨ ¬(1 ≤ day ∧ day ≤ 31) ∨ hour > 23 ∨ minute > 59 then none
  else some (daysFromCivil year month day * 86400 + hour * 3600 + minute * 60)

variable {s w n : ℕ} {t : Moment} {c : Char}

theorem isDigit_of_mem (h : c ∈ padded w n) : c.isDigit = true := by
  obtain ⟨hlo, hhi⟩ := isDigit_of_mem_padded h
  exact Bool.and_eq_true_iff.mpr ⟨decide_eq_true hlo, decide_eq_true hhi⟩

theorem leadingNumber_padded (hw : 0 < w) (hn : n < 10 ^ w) (hbound : n < 2 ^ 63) :
    leadingNumber (padded w n) = some (n : ℤ) := by
  have hne : padded w n ≠ [] := by
    apply List.ne_nil_of_length_pos
    rwa [length_padded]
  have hvalue := ofDigitChars_padded hn
  have hread := parseUnsigned_of_isDigit hne (fun c => isDigit_of_mem) (hvalue.symm ▸ hbound)
  rw [leadingNumber, List.takeWhile_eq_self_iff.mpr fun c => isDigit_of_mem, hread, hvalue]
  rfl

/-- The day of a date. -/
theorem daysFromCivil_eq (d : Date) : daysFromCivil d.year d.month d.day = d.number := by
  have hrange := d.month_mem
  unfold daysFromCivil Date.number Date.marchDays Date.marchDay Date.marchYear Date.marchMonth
  dsimp only
  split_ifs <;> omega

/-- A timestamp is read back to the minute. -/
theorem epochFromRfc3339_spell (hyear : t.date.year ≤ 9999) :
    epochFromRfc3339 (spell STAMP (Lockfile.fields t)) =
      some (86400 * t.date.number + 3600 * t.hour + 60 * t.minute) := by
  obtain ⟨hfityear, hfitmonth, hfitday, hfithour, hfitminute, -⟩ := fits_fields hyear
  have hnot : ∀ {w n : ℕ} {c : Char}, c.isDigit = false → c ∉ padded w n := by
    intro w n c hc hmem
    rw [isDigit_of_mem hmem] at hc
    cases hc
  have htext : spell STAMP (Lockfile.fields t) =
      (padded 4 t.date.year ++ '-' :: (padded 2 t.date.month ++ '-' :: padded 2 t.date.day)) ++
        'T' :: (padded 2 t.hour ++ ':' :: (padded 2 t.minute ++ ':' ::
          (padded 2 t.second ++ ['Z']))) := by
    simp [STAMP, Lockfile.fields, Date.fields, spell]
  have hT : 'T' ∉ padded 4 t.date.year ++
      '-' :: (padded 2 t.date.month ++ '-' :: padded 2 t.date.day) := by
    simp [hnot (c := 'T') rfl]
  have hdate : split '-' (padded 4 t.date.year ++
      '-' :: (padded 2 t.date.month ++ '-' :: padded 2 t.date.day)) =
        [padded 4 t.date.year, padded 2 t.date.month, padded 2 t.date.day] := by
    rw [split_append (hnot rfl), split_append (hnot rfl), split_of_notMem (hnot rfl)]
  have hclock : split ':' (padded 2 t.hour ++ ':' :: (padded 2 t.minute ++ ':' ::
      (padded 2 t.second ++ ['Z']))) =
        [padded 2 t.hour, padded 2 t.minute, padded 2 t.second ++ ['Z']] := by
    have hlast : ':' ∉ padded 2 t.second ++ ['Z'] := by simp [hnot (c := ':') rfl]
    rw [split_append (hnot rfl), split_append (hnot rfl), split_of_notMem hlast]
  have hmonth := t.date.month_mem
  have hday := t.date.day_mem
  have hlength := daysIn_le t.date.year t.date.month
  have hhour := t.hour_lt
  have hminute := t.minute_lt
  have hvalid : ¬(¬(1 ≤ (t.date.month : ℤ) ∧ (t.date.month : ℤ) ≤ 12) ∨
      ¬(1 ≤ (t.date.day : ℤ) ∧ (t.date.day : ℤ) ≤ 31) ∨ (t.hour : ℤ) > 23 ∨
        (t.minute : ℤ) > 59) := by
    omega
  have hread : ∀ {w n : ℕ}, 0 < w → n < 10 ^ w → n ≤ 9999 →
      leadingNumber (padded w n) = some (n : ℤ) := fun hw hn hle =>
    leadingNumber_padded hw hn (by omega)
  simp only [epochFromRfc3339, htext, splitOnce_append hT, hdate, hclock,
    hread (by decide) hfityear hyear, hread (by decide) hfitmonth (by omega),
    hread (by decide) hfitday (by omega), hread (by decide) hfithour (by omega),
    hread (by decide) hfitminute (by omega), daysFromCivil_eq, if_neg hvalid,
    List.getElem?_cons_zero, List.getElem?_cons_succ, Option.bind_eq_bind, Option.bind_some]
  exact congrArg some (by omega)

/-- Up to the end of the year 9999 a timestamp is the calendar's, is read back to the minute, and
comes before every later one. -/
theorem rfc3339_spec (hs : s ≤ LAST) :
    (∃ t : Moment, t.IsAt s ∧ t.date.year ≤ 9999 ∧
      rfc3339 s = spell STAMP (Lockfile.fields t)) ∧
    epochFromRfc3339 (rfc3339 s) = some ((s - s % 60 : ℕ) : ℤ) ∧
    ∀ later, s < later → later ≤ LAST → rfc3339 s < rfc3339 later := by
  obtain ⟨t, ht⟩ := exists_isAt s
  have hyear := year_le_of_isAt ht hs
  have htext := rfc3339_eq ht hs
  refine ⟨⟨t, ht, hyear, htext⟩, ?_, fun later hlater hlast => ?_⟩
  · obtain ⟨days, hdate, hseconds⟩ := ht
    have hsecond := t.second_lt
    have hnumber := Date.number_ofDays days
    rw [htext, epochFromRfc3339_spell hyear, hdate, hnumber]
    exact congrArg some (by omega)
  · obtain ⟨u, hu⟩ := exists_isAt later
    rw [htext, rfc3339_eq hu hlast]
    exact spell_lt (fits_fields hyear) (fits_fields (year_le_of_isAt hu hlast))
      (fields_lt ht hu hlater)

/-- Sixty-seven seconds into a leap day. -/
theorem rfc3339_leap : epochFromRfc3339 (rfc3339 1709164867) = some 1709164860 ∧
    rfc3339 1709164867 < rfc3339 LAST :=
  ⟨(rfc3339_spec (s := 1709164867) (by decide)).2.1,
    (rfc3339_spec (s := 1709164867) (by decide)).2.2 LAST (by decide) le_rfl⟩

end Kuma.Inspect
