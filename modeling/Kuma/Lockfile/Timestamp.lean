import Kuma.Lib.Calendar
import Kuma.Lib.FixedWidth

/-! The timestamp of a lock, against the calendar. -/
namespace Kuma.Lockfile
open Kuma.Lib Kuma.Lib.Calendar Kuma.Lib.FixedWidth

/-- The year, the month and the day of a count of days since 1970-01-01, over eras of four hundred
years. What is divided is never negative, the count of days apart, which no caller has below
zero either. -/
def civilFromDays (days : ℤ) : ℤ × ℤ × ℤ :=
  let z := days + 719468
  let era := z / 146097
  let doe := z % 146097
  let yoe := (doe - doe / 1460 + doe / 36524 - doe / 146096) / 365
  let y := yoe + era * 400
  let doy := doe - (365 * yoe + yoe / 4 - yoe / 100)
  let mp := (5 * doy + 2) / 153
  let d := doy - (153 * mp + 2) / 5 + 1
  let m := if mp < 10 then mp + 3 else mp - 9
  let y := if m ≤ 2 then y + 1 else y
  (y, m, d)

/-- `{n:0w}` -/
def zeroPadded (w n : ℕ) : List Char := (Nat.toDigits 10 n).leftpad w '0'

/-- Seconds since the epoch as `YYYY-MM-DDTHH:MM:SSZ`. -/
def rfc3339 (secs : ℕ) : List Char :=
  let days := secs / 86400
  let rem := secs % 86400
  let (y, m, d) := civilFromDays days
  zeroPadded 4 y.toNat ++ ['-'] ++ (zeroPadded 2 m.toNat ++ ['-'] ++ (zeroPadded 2 d.toNat ++ ['T']
    ++ (zeroPadded 2 (rem / 3600) ++ [':'] ++ (zeroPadded 2 (rem % 3600 / 60) ++ [':'] ++
      (zeroPadded 2 (rem % 60) ++ ['Z'])))))

example : rfc3339 1709164800 = "2024-02-29T00:00:00Z".toList := by decide +kernel

/-! ### The calendar -/

/-- Four hundred years have as many days, whichever of them the first of March begins. -/
theorem century_of_era {c low : ℤ} (hc : 0 ≤ c ∧ c ≤ 3) (hlow : 0 ≤ low ∧ low ≤ 36524)
    (hlast : low = 36524 → c = 3) :
    (36524 * c + low) / 36524 - (36524 * c + low) / 146096 = c := by
  by_cases h : low = 36524
  · rw [h, hlast h]
    rfl
  · omega

/-- The year of a day of an era. -/
theorem year_of_era {yoe doy : ℤ} (hyoe : 0 ≤ yoe ∧ yoe < 400) (hdoy : 0 ≤ doy ∧ doy ≤ 365)
    (hleap : doy = 365 → (yoe + 1) % 4 = 0 ∧ ((yoe + 1) % 100 ≠ 0 ∨ (yoe + 1) % 400 = 0))
    {doe : ℤ} (hdoe : doe = 365 * yoe + yoe / 4 - yoe / 100 + doy) :
    (doe - doe / 1460 + doe / 36524 - doe / 146096) / 365 = yoe := by
  -- the century, the leap years before in it, and the years since
  obtain ⟨c, hc⟩ : ∃ c, c = yoe / 100 := ⟨_, rfl⟩
  obtain ⟨a, ha⟩ : ∃ a, a = yoe % 100 / 4 := ⟨_, rfl⟩
  obtain ⟨r, hr⟩ : ∃ r, r = yoe % 4 := ⟨_, rfl⟩
  have hyear : yoe = 100 * c + 4 * a + r := by omega
  have hlast : doy = 365 → r = 3 ∧ (a = 24 → c = 3) := by omega
  have hcenturies : doe = 36524 * c + (1461 * a + 365 * r + doy) := by omega
  have hcentury : doe / 36524 - doe / 146096 = c := by
    rw [hcenturies]
    exact century_of_era (by omega) (by omega) (by omega)
  obtain ⟨e, he⟩ : ∃ e, e = (24 * c + a + 365 * r + doy) / 1460 := ⟨_, rfl⟩
  have hfour : doe / 1460 = 25 * c + a + e := by omega
  have hdays : doe - doe / 1460 + doe / 36524 - doe / 146096 = 365 * yoe + (doy - e) := by omega
  have hday : 0 ≤ doy - e ∧ doy - e < 365 := by
    clear hcentury hfour hdays hcenturies hdoe
    omega
  rw [hdays]
  clear hdays hfour hcentury hcenturies hdoe he hyear hc ha hr
  omega

/-- The month and its day, from the days since the first of March. -/
theorem month_of_doy {mp day : ℤ} (hday : 1 ≤ day)
    (hlast : (153 * mp + 2) / 5 + day ≤ (153 * (mp + 1) + 2) / 5) :
    (5 * ((153 * mp + 2) / 5 + day - 1) + 2) / 153 = mp := by
  omega

/-- A date is read off its number. -/
theorem civilFromDays_number (d : Date) :
    civilFromDays d.number = ((d.year : ℤ), (d.month : ℤ), (d.day : ℤ)) := by
  obtain ⟨era, hera⟩ : ∃ era, era = d.marchYear / 400 := ⟨_, rfl⟩
  obtain ⟨yoe, hyoe⟩ : ∃ yoe, yoe = d.marchYear % 400 := ⟨_, rfl⟩
  obtain ⟨doe, hdoe⟩ : ∃ doe, doe = 365 * yoe + yoe / 4 - yoe / 100 + d.marchDay := ⟨_, rfl⟩
  have hdoy : 0 ≤ d.marchDay ∧ d.marchDay ≤ 365 := by
    refine ⟨d.marchDay_nonneg, ?_⟩
    rcases d.marchDay_le with hle | ⟨heq, -⟩ <;> omega
  have hleap : d.marchDay = 365 →
      (yoe + 1) % 4 = 0 ∧ ((yoe + 1) % 100 ≠ 0 ∨ (yoe + 1) % 400 = 0) := by
    intro hlast
    rcases d.marchDay_le with hle | ⟨-, hleap, hyear⟩
    · omega
    · unfold IsLeap at hleap
      omega
  have hnumber : d.number + 719468 = 146097 * era + doe := by
    unfold Date.number Date.marchDays
    omega
  have hbounds : 0 ≤ doe ∧ doe < 146097 := by omega
  have heraOf : (d.number + 719468) / 146097 = era := by omega
  have hdoeOf : (d.number + 719468) % 146097 = doe := by omega
  have hyoeOf := year_of_era (by omega) hdoy hleap hdoe
  have hdoyOf : doe - (365 * yoe + yoe / 4 - yoe / 100) = d.marchDay := by omega
  have hmpOf : (5 * d.marchDay + 2) / 153 = d.marchMonth :=
    month_of_doy (by exact_mod_cast d.day_mem.1) d.day_le
  have hday : d.marchDay - (153 * d.marchMonth + 2) / 5 + 1 = d.day := by
    unfold Date.marchDay
    omega
  have hmonth : (if d.marchMonth < 10 then d.marchMonth + 3 else d.marchMonth - 9) = d.month := by
    have hrange := d.month_mem
    unfold Date.marchMonth
    split_ifs <;> omega
  have hyear : (if (d.month : ℤ) ≤ 2 then yoe + era * 400 + 1 else yoe + era * 400) = d.year := by
    have hmarch : yoe + era * 400 = d.marchYear := by omega
    rw [hmarch]
    unfold Date.marchYear
    split_ifs <;> omega
  simp only [civilFromDays, heraOf, hdoeOf, hyoeOf, hdoyOf, hmpOf, hday, hmonth, hyear]

/-- The date of a count of days, as it is counted in the calendar. -/
theorem civilFromDays_ofDays (n : ℕ) : civilFromDays n =
    (((Date.ofDays n).year : ℤ), ((Date.ofDays n).month : ℤ), ((Date.ofDays n).day : ℤ)) := by
  rw [← civilFromDays_number, Date.number_ofDays]

/-! ### The timestamp -/

/-- A timestamp's fields. -/
def STAMP : Format := [(4, ['-']), (2, ['-']), (2, ['T']), (2, [':']), (2, [':']), (2, ['Z'])]

/-- The end of the year 9999. -/
def LAST : ℕ := 253402300799

def fields (t : Moment) : List ℕ := t.date.fields ++ [t.hour, t.minute, t.second]

variable {t u : Moment} {s : ℕ}

/-- Every second is one of a day. -/
theorem exists_isAt (s : ℕ) : ∃ t : Moment, t.IsAt s := by
  refine ⟨⟨.ofDays (s / 86400), s % 86400 / 3600, s % 3600 / 60, s % 60, ?_, ?_, ?_⟩,
    s / 86400, rfl, ?_⟩
  · omega
  · omega
  · omega
  · dsimp only
    omega

theorem year_le_of_isAt (h : t.IsAt s) (hs : s ≤ LAST) : t.date.year ≤ 9999 := by
  obtain ⟨days, hdate, hseconds⟩ := h
  rw [hdate]
  apply Date.year_le
  rw [Date.number_ofDays]
  unfold LAST at hs
  omega

theorem fits_fields (hyear : t.date.year ≤ 9999) : Fits STAMP (fields t) := by
  have hmonth := t.date.month_mem
  have hday := t.date.day_mem
  have hlength : daysIn t.date.year t.date.month ≤ 31 := daysIn_le _ _
  have hhour := t.hour_lt
  have hminute := t.minute_lt
  have hsecond := t.second_lt
  refine ⟨?_, ?_, ?_, ?_, ?_, ?_, trivial⟩ <;> omega

/-- A later second has greater fields. -/
theorem fields_lt {s' : ℕ} (ht : t.IsAt s) (hu : u.IsAt s') (h : s < s') : fields t < fields u := by
  obtain ⟨days, hdate, hseconds⟩ := ht
  obtain ⟨days', hdate', hseconds'⟩ := hu
  have hhour := t.hour_lt
  have hminute := t.minute_lt
  have hsecond := t.second_lt
  have hhour' := u.hour_lt
  have hminute' := u.minute_lt
  have hsecond' := u.second_lt
  unfold fields
  by_cases hdays : days = days'
  · rw [hdate, hdate', hdays]
    apply append_lt_append_right
    by_cases heqhour : t.hour = u.hour
    · refine List.cons_lt_cons_iff.mpr (.inr ⟨heqhour, ?_⟩)
      by_cases heqminute : t.minute = u.minute
      · refine List.cons_lt_cons_iff.mpr (.inr ⟨heqminute, ?_⟩)
        exact List.cons_lt_cons_iff.mpr (.inl (by omega))
      · exact List.cons_lt_cons_iff.mpr (.inl (by omega))
    · exact List.cons_lt_cons_iff.mpr (.inl (by omega))
  · have hearlier : t.date.fields < u.date.fields := by
      rw [hdate, hdate']
      exact Date.fields_ofDays_strictMono (by omega)
    exact append_lt_append rfl hearlier

/-- What the timestamp of a second writes. -/
theorem rfc3339_eq (ht : t.IsAt s) (hs : s ≤ LAST) : rfc3339 s = spell STAMP (fields t) := by
  have hyear := year_le_of_isAt ht hs
  obtain ⟨hfityear, hfitmonth, hfitday, hfithour, hfitminute, hfitsecond, -⟩ := fits_fields hyear
  obtain ⟨days, hdate, hseconds⟩ := ht
  have hhour := t.hour_lt
  have hminute := t.minute_lt
  have hsecond := t.second_lt
  have hdays : s / 86400 = days := by omega
  have hhourOf : s % 86400 / 3600 = t.hour := by omega
  have hminuteOf : s % 86400 % 3600 / 60 = t.minute := by omega
  have hsecondOf : s % 86400 % 60 = t.second := by omega
  simp only [rfc3339, zeroPadded, hdays, hhourOf, hminuteOf, hsecondOf, civilFromDays_ofDays,
    ← hdate, Int.toNat_natCast]
  rw [← padded_eq_leftpad (by decide) hfityear, ← padded_eq_leftpad (by decide) hfitmonth,
    ← padded_eq_leftpad (by decide) hfitday, ← padded_eq_leftpad (by decide) hfithour,
    ← padded_eq_leftpad (by decide) hfitminute, ← padded_eq_leftpad (by decide) hfitsecond]
  rfl

end Kuma.Lockfile
