import Mathlib.Data.List.Lex
import Mathlib.Data.Int.Order.Basic
import Mathlib.Order.Monotone.Basic
import Mathlib.Tactic.IntervalCases

/-! The proleptic Gregorian calendar, by what the day after a date is, and the number of a day. -/
namespace Kuma.Lib.Calendar

/-- Every fourth year, but of the centuries every fourth only. -/
def IsLeap (year : ℕ) : Prop := year % 4 = 0 ∧ (year % 100 ≠ 0 ∨ year % 400 = 0)

instance : DecidablePred IsLeap := fun year =>
  inferInstanceAs (Decidable (year % 4 = 0 ∧ (year % 100 ≠ 0 ∨ year % 400 = 0)))

def daysIn (year : ℕ) : ℕ → ℕ
  | 2 => if IsLeap year then 29 else 28
  | 4 | 6 | 9 | 11 => 30
  | _ => 31

theorem daysIn_pos (year month : ℕ) : 1 ≤ daysIn year month := by
  unfold daysIn
  split
  · split_ifs <;> decide
  all_goals decide

theorem daysIn_le (year month : ℕ) : daysIn year month ≤ 31 := by
  unfold daysIn
  split
  · split_ifs <;> decide
  all_goals decide

structure Date where
  year : ℕ
  month : ℕ
  day : ℕ
  month_mem : 1 ≤ month ∧ month ≤ 12
  day_mem : 1 ≤ day ∧ day ≤ daysIn year month

namespace Date

def epoch : Date := ⟨1970, 1, 1, by decide, by decide⟩

/-- The day after. -/
def next (d : Date) : Date :=
  if h : d.day < daysIn d.year d.month then ⟨d.year, d.month, d.day + 1, d.month_mem, by omega⟩
  else if h : d.month < 12 then
    ⟨d.year, d.month + 1, 1, by omega, le_rfl, daysIn_pos d.year (d.month + 1)⟩
  else ⟨d.year + 1, 1, 1, by omega, le_rfl, daysIn_pos (d.year + 1) 1⟩

/-- The date so many days after the epoch. -/
def ofDays : ℕ → Date
  | 0 => epoch
  | n + 1 => (ofDays n).next

def fields (d : Date) : List ℕ := [d.year, d.month, d.day]

/-- The year that begins in March, with the leap day at its end. -/
def marchYear (d : Date) : ℤ := if d.month ≤ 2 then d.year - 1 else d.year

/-- The months since March. -/
def marchMonth (d : Date) : ℤ := if d.month ≤ 2 then d.month + 9 else d.month - 3

/-- The days since the first of March. -/
def marchDay (d : Date) : ℤ := (153 * d.marchMonth + 2) / 5 + d.day - 1

/-- The days before a year that begins in March. -/
def marchDays (year : ℤ) : ℤ := 365 * year + year / 4 - year / 100 + year / 400

/-- The days since the epoch. -/
def number (d : Date) : ℤ := marchDays d.marchYear + d.marchDay - 719468

variable {d : Date}

/-- What a date is followed by. -/
theorem next_cases (d : Date) :
    (d.next.year = d.year ∧ d.next.month = d.month ∧ d.next.day = d.day + 1) ∨
    (d.day = daysIn d.year d.month ∧ d.month < 12 ∧
      d.next.year = d.year ∧ d.next.month = d.month + 1 ∧ d.next.day = 1) ∨
    (d.day = 31 ∧ d.month = 12 ∧ d.next.year = d.year + 1 ∧ d.next.month = 1 ∧ d.next.day = 1) := by
  have hday := d.day_mem
  have hmonth := d.month_mem
  unfold next
  split_ifs with hlast hdecember
  · exact .inl ⟨rfl, rfl, rfl⟩
  · exact .inr (.inl ⟨by omega, hdecember, rfl, rfl, rfl⟩)
  · have htwelve : d.month = 12 := by omega
    rw [htwelve] at hday hlast
    have hthirtyone : daysIn d.year 12 = 31 := rfl
    exact .inr (.inr ⟨by omega, htwelve, rfl, rfl, rfl⟩)

theorem fields_lt_next (d : Date) : d.fields < d.next.fields := by
  unfold fields
  rcases next_cases d with ⟨hyear, hmonth, hday⟩ | ⟨-, -, hyear, hmonth, -⟩ | ⟨-, -, hyear, -⟩
  · rw [hyear, hmonth, hday]
    refine List.cons_lt_cons_iff.mpr (.inr ⟨rfl, List.cons_lt_cons_iff.mpr (.inr ⟨rfl, ?_⟩)⟩)
    exact List.cons_lt_cons_iff.mpr (.inl (Nat.lt_succ_self _))
  · rw [hyear, hmonth]
    refine List.cons_lt_cons_iff.mpr (.inr ⟨rfl, ?_⟩)
    exact List.cons_lt_cons_iff.mpr (.inl (Nat.lt_succ_self _))
  · rw [hyear]
    exact List.cons_lt_cons_iff.mpr (.inl (Nat.lt_succ_self _))

/-- Later dates have greater fields. -/
theorem fields_ofDays_strictMono : StrictMono fun n => (ofDays n).fields :=
  strictMono_nat_of_lt_succ fun n => fields_lt_next (ofDays n)

theorem marchDays_succ (year : ℕ) : marchDays year =
    marchDays (year - 1) + if IsLeap year then 366 else 365 := by
  unfold marchDays IsLeap
  split_ifs <;> omega

/-- The months from March to January follow one rule. -/
theorem daysIn_eq (hfebruary : d.month ≠ 2) : (daysIn d.year d.month : ℤ) =
    (153 * (d.marchMonth + 1) + 2) / 5 - (153 * d.marchMonth + 2) / 5 := by
  obtain ⟨hlo, hhi⟩ := d.month_mem
  unfold marchMonth
  generalize d.month = month at *
  interval_cases month
  · rfl
  · exact absurd rfl hfebruary
  all_goals rfl

theorem number_next (d : Date) : d.next.number = d.number + 1 := by
  rcases next_cases d with ⟨hyear, hmonth, hday⟩ | ⟨hlast, hlt, hyear, hmonth, hday⟩ |
    ⟨hlast, hdecember, hyear, hmonth, hday⟩
  · unfold number marchDay marchYear marchMonth
    rw [hyear, hmonth, hday]
    omega
  · by_cases hfebruary : d.month = 2
    · have hyears := marchDays_succ d.year
      have hlength : daysIn d.year 2 = if IsLeap d.year then 29 else 28 := rfl
      have hmarch : d.marchYear = d.year - 1 ∧ d.marchMonth = 11 := by
        unfold marchYear marchMonth
        rw [hfebruary]
        exact ⟨rfl, rfl⟩
      have hmarch' : d.next.marchYear = d.year ∧ d.next.marchMonth = 0 := by
        unfold marchYear marchMonth
        rw [hyear, hmonth, hfebruary]
        exact ⟨rfl, rfl⟩
      rw [hfebruary, hlength] at hlast
      unfold number marchDay
      rw [hmarch.1, hmarch.2, hmarch'.1, hmarch'.2, hday, hyears, hlast]
      split_ifs <;> omega
    · have hlength := daysIn_eq hfebruary
      have hmarch : d.next.marchYear = d.marchYear ∧ d.next.marchMonth = d.marchMonth + 1 := by
        have hrange := d.month_mem
        unfold marchYear marchMonth
        rw [hyear, hmonth]
        split_ifs <;> omega
      unfold number marchDay
      rw [hmarch.1, hmarch.2, hday, hlast]
      omega
  · unfold number marchDay marchYear marchMonth
    rw [hyear, hmonth, hday, hlast, hdecember]
    simp
    omega

theorem number_ofDays (n : ℕ) : (ofDays n).number = n := by
  induction n with
  | zero => rfl
  | succ n ih =>
    rw [ofDays, number_next, ih]
    rfl

theorem marchDay_nonneg (d : Date) : 0 ≤ d.marchDay := by
  have hrange := d.month_mem
  have hday := d.day_mem
  unfold marchDay marchMonth
  split_ifs <;> omega

/-- A year that begins in March has its leap day last. -/
theorem marchDay_le (d : Date) :
    d.marchDay ≤ 364 ∨ d.marchDay = 365 ∧ IsLeap d.year ∧ d.marchYear = d.year - 1 := by
  have hday := d.day_mem
  by_cases hfebruary : d.month = 2
  · have hlength : daysIn d.year 2 = if IsLeap d.year then 29 else 28 := rfl
    rw [hfebruary, hlength] at hday
    unfold marchDay marchMonth marchYear
    rw [hfebruary]
    split_ifs at hday with hleap
    · simp [hleap]
      omega
    · left
      simp
      omega
  · have hlength := daysIn_eq hfebruary
    have hrange := d.month_mem
    left
    unfold marchDay
    have hmarch : d.marchMonth ≤ 10 := by
      unfold marchMonth
      split_ifs <;> omega
    omega

/-- No month is longer than the rule gives. -/
theorem day_le (d : Date) :
    (153 * d.marchMonth + 2) / 5 + d.day ≤ (153 * (d.marchMonth + 1) + 2) / 5 := by
  have hday := d.day_mem
  by_cases hfebruary : d.month = 2
  · have hlength : daysIn d.year 2 = if IsLeap d.year then 29 else 28 := rfl
    rw [hfebruary, hlength] at hday
    have hmarch : d.marchMonth = 11 := by
      unfold marchMonth
      rw [hfebruary]
      rfl
    rw [hmarch]
    split_ifs at hday <;> omega
  · have hlength := daysIn_eq hfebruary
    omega

/-- The days that are written with four digits of the year. -/
theorem year_le (h : d.number < 2932897) : d.year ≤ 9999 := by
  have hrange := d.month_mem
  have hday := d.day_mem
  unfold number marchDays marchDay marchYear marchMonth at h
  by_contra hyear
  split_ifs at h <;> omega

end Date

/-- A second of a day. -/
structure Moment where
  date : Date
  hour : ℕ
  minute : ℕ
  second : ℕ
  hour_lt : hour < 24
  minute_lt : minute < 60
  second_lt : second < 60

/-- The seconds since the epoch. -/
def Moment.IsAt (t : Moment) (seconds : ℕ) : Prop :=
  ∃ days, t.date = Date.ofDays days ∧
    seconds = 86400 * days + (3600 * t.hour + 60 * t.minute + t.second)

end Kuma.Lib.Calendar
