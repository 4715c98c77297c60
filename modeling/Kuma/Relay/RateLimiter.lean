import Kuma.Lib.SlidingWindow
import Kuma.Relay.Filter

/-! The relay's budget for one sender: so many events in a sliding minute. -/
namespace Kuma.Relay

open Lib

/-- The times of the events that the last minute let in, oldest first. -/
structure RateLimiter where
  budget : List UInt64
  capacity : ℕ

/-- `RateLimiter::admit`. -/
def RateLimiter.admits (limiter : RateLimiter) (now : UInt64) : Bool × RateLimiter :=
  let budget := limiter.budget.dropWhile (· < saturatingSub now 60)
  if limiter.capacity ≤ budget.length then (false, { limiter with budget })
  else (true, { limiter with budget := budget ++ [now] })

namespace RateLimiter

def withCapacity (capacity : ℕ) : RateLimiter := ⟨[], capacity⟩

def admitStep (limiter : RateLimiter) (now : UInt64) : RateLimiter := (limiter.admits now).2

/-- The calls of a run that the limiter answered with yes. -/
def admittedTimes (limiter : RateLimiter) (times : List UInt64) : List UInt64 :=
  ((visits admitStep limiter times).filter fun x => (x.1.admits x.2).1).map Prod.snd

/-- Where the minute up to a second begins, as numbers have it. -/
def windowStart (now : ℕ) : ℕ := now - 60

theorem monotone_windowStart : Monotone windowStart := fun _ _ h => Nat.sub_le_sub_right h 60

/-- A call of the limiter is a call of the window over numbers. -/
theorem admits_eq (limiter : RateLimiter) (now : UInt64) :
    (limiter.admits now).1 = (SlidingWindow.call windowStart limiter.capacity
      (limiter.budget.map UInt64.toNat) now.toNat).2 ∧
    (limiter.admits now).2.budget.map UInt64.toNat = SlidingWindow.step windowStart limiter.capacity
      (limiter.budget.map UInt64.toNat) now.toNat ∧
    (limiter.admits now).2.capacity = limiter.capacity := by
  have hlive : (limiter.budget.map UInt64.toNat).dropWhile (· < windowStart now.toNat) =
      (limiter.budget.dropWhile (· < saturatingSub now 60)).map UInt64.toNat := by
    have hstart : (saturatingSub now 60).toNat = windowStart now.toNat := toNat_saturatingSub now 60
    rw [List.dropWhile_map]
    congr 2
    funext t
    rw [Function.comp_apply, ← hstart, Bool.eq_iff_iff, decide_eq_true_iff, decide_eq_true_iff]
    exact UInt64.lt_iff_toNat_lt.symm
  unfold admits SlidingWindow.step SlidingWindow.call
  simp only
  rw [hlive, List.length_map]
  split_ifs
  · exact ⟨rfl, rfl, rfl⟩
  · exact ⟨rfl, List.map_append, rfl⟩

theorem run_eq (limiter : RateLimiter) (times : List UInt64) :
    (run admitStep limiter times).budget.map UInt64.toNat =
      run (SlidingWindow.step windowStart limiter.capacity) (limiter.budget.map UInt64.toNat)
        (times.map UInt64.toNat) ∧
    (run admitStep limiter times).capacity = limiter.capacity := by
  induction times generalizing limiter with
  | nil => exact ⟨rfl, rfl⟩
  | cons now times ih =>
    obtain ⟨-, hbudget, hcapacity⟩ := admits_eq limiter now
    have hrest := ih (admitStep limiter now)
    rw [admitStep, hbudget, hcapacity] at hrest
    exact hrest

theorem admittedTimes_eq (limiter : RateLimiter) (times : List UInt64) :
    (limiter.admittedTimes times).map UInt64.toNat = SlidingWindow.admitted windowStart
      limiter.capacity (limiter.budget.map UInt64.toNat) (times.map UInt64.toNat) := by
  induction times generalizing limiter with
  | nil => rfl
  | cons now times ih =>
    obtain ⟨hanswer, hbudget, hcapacity⟩ := admits_eq limiter now
    have hrest := ih (admitStep limiter now)
    rw [admitStep, hbudget, hcapacity] at hrest
    have hfirst : limiter.admittedTimes (now :: times) =
        (if (limiter.admits now).1 then [now] else []) ++
          (limiter.admits now).2.admittedTimes times := by
      cases h : (limiter.admits now).1 <;> simp [admittedTimes, visits, h, admitStep]
    rw [hfirst, List.map_append, hrest, List.map_cons, SlidingWindow.admitted_cons, ← hanswer]
    cases (limiter.admits now).1 <;> rfl

theorem admittedTimes_sublist (limiter : RateLimiter) (times : List UInt64) :
    (limiter.admittedTimes times).Sublist times := by
  have hall : (limiter.admittedTimes times).Sublist
      ((visits admitStep limiter times).map Prod.snd) := List.filter_sublist.map Prod.snd
  rwa [visits_map_snd] at hall

section
variable {capacity : ℕ} {times pre post : List UInt64} {now : UInt64}

theorem admittedTimes_fresh (capacity : ℕ) (times : List UInt64) :
    ((withCapacity capacity).admittedTimes times).map UInt64.toNat =
      SlidingWindow.admitted windowStart capacity [] (times.map UInt64.toNat) :=
  admittedTimes_eq (withCapacity capacity) times

theorem admits_fresh (capacity : ℕ) (pre : List UInt64) (now : UInt64) :
    ((run admitStep (withCapacity capacity) pre).admits now).1 =
      (SlidingWindow.call windowStart capacity (run (SlidingWindow.step windowStart capacity) []
        (pre.map UInt64.toNat)) now.toNat).2 := by
  obtain ⟨hbudget, hcapacity⟩ := run_eq (withCapacity capacity) pre
  rw [(admits_eq _ _).1, hbudget, hcapacity]
  rfl

theorem pairwise_toNat (hclock : times.Pairwise (· ≤ ·)) :
    (times.map UInt64.toNat).Pairwise (· ≤ ·) :=
  List.pairwise_map.mpr (hclock.imp UInt64.le_iff_toNat_le.mp)

theorem admits_iff_room (hclock : (pre ++ now :: post).Pairwise (· ≤ ·)) :
    ((run admitStep (withCapacity capacity) pre).admits now).1 = true ↔
      ((withCapacity capacity).admittedTimes pre).countP
        (fun t => now.toNat ≤ t.toNat + 60 ∧ t ≤ now) < capacity := by
  have hshort : (pre.map UInt64.toNat ++ [now.toNat]).Pairwise (· ≤ ·) := by
    have hsorted := pairwise_toNat hclock
    rw [List.append_cons, List.map_append, List.map_append] at hsorted
    exact (List.pairwise_append.mp hsorted).1
  have hspan : ∀ t ∈ (withCapacity capacity).admittedTimes pre,
      windowStart now.toNat ≤ t.toNat ↔ now.toNat ≤ t.toNat + 60 ∧ t ≤ now := by
    intro t ht
    have hmem : t ∈ pre := (admittedTimes_sublist _ pre).subset ht
    have hle : t ≤ now := (List.pairwise_append.mp hclock).2.2 t hmem now List.mem_cons_self
    unfold windowStart
    constructor
    · intro h
      exact ⟨by omega, hle⟩
    · intro h
      omega
  rw [admits_fresh, SlidingWindow.call_iff monotone_windowStart hshort, ← admittedTimes_fresh,
    List.countP_map]
  have hcount : ((withCapacity capacity).admittedTimes pre).countP
      ((windowStart now.toNat ≤ ·) ∘ UInt64.toNat) =
        ((withCapacity capacity).admittedTimes pre).countP
          (fun t => now.toNat ≤ t.toNat + 60 ∧ t ≤ now) :=
    List.countP_congr fun t ht => by simpa using hspan t ht
  exact iff_of_eq (congrArg (· < capacity) hcount)

theorem countP_admittedTimes_le (hclock : times.Pairwise (· ≤ ·)) (a : ℕ) :
    ((withCapacity capacity).admittedTimes times).countP
      (fun t => a ≤ t.toNat ∧ t.toNat ≤ a + 60) ≤ capacity := by
  have hspan : (SlidingWindow.admitted windowStart capacity [] (times.map UInt64.toNat)).countP
      (fun t => a ≤ t ∧ windowStart t ≤ a) ≤ capacity :=
    SlidingWindow.countP_admitted_le monotone_windowStart (pairwise_toNat hclock) a
  rw [← admittedTimes_fresh, List.countP_map] at hspan
  refine le_trans (List.countP_mono_left fun t _ ht => ?_) hspan
  obtain ⟨hle, hge⟩ := of_decide_eq_true ht
  have hstart : windowStart t.toNat ≤ a := by
    unfold windowStart
    omega
  exact decide_eq_true ⟨hle, hstart⟩

theorem admittedTimes_of_refused (hclock : (pre ++ now :: post).Pairwise (· ≤ ·))
    (hrefused : ((run admitStep (withCapacity capacity) pre).admits now).1 = false) :
    (withCapacity capacity).admittedTimes (pre ++ now :: post) =
      (withCapacity capacity).admittedTimes (pre ++ post) := by
  rw [admits_fresh] at hrefused
  have hsorted := pairwise_toNat hclock
  rw [List.map_append, List.map_cons] at hsorted
  have hsame := SlidingWindow.admitted_of_refused monotone_windowStart hsorted hrefused
  apply List.map_injective_iff.mpr fun _ _ => UInt64.toNat_inj.mp
  rw [admittedTimes_fresh, admittedTimes_fresh, List.map_append, List.map_append, List.map_cons,
    hsame]

theorem budget_ordered (hclock : pre.Pairwise (· ≤ ·)) :
    (run admitStep (withCapacity capacity) pre).budget.Pairwise (· ≤ ·) := by
  have hqueue : ((run admitStep (withCapacity capacity) pre).budget.map UInt64.toNat).Sublist
      (pre.map UInt64.toNat) := by
    rw [(run_eq (withCapacity capacity) pre).1]
    exact SlidingWindow.run_sublist
  have hpairs := (pairwise_toNat hclock).sublist hqueue
  exact (List.pairwise_map.mp hpairs).imp UInt64.le_iff_toNat_le.mpr

theorem length_budget_le (capacity : ℕ) (pre : List UInt64) :
    (run admitStep (withCapacity capacity) pre).budget.length ≤ capacity := by
  have hbudget := congrArg List.length (run_eq (withCapacity capacity) pre).1
  rw [List.length_map] at hbudget
  rw [hbudget]
  exact SlidingWindow.length_run_le (Nat.zero_le capacity)

end

/-- Over calls in the order of their times the limiter lets one in exactly when it let in fewer
than its capacity in the minute up to it. No minute holds more, a refused call consumes nothing,
and the budget stays ordered and within the capacity. -/
theorem admits_exact (capacity : ℕ) {times : List UInt64} (hclock : times.Pairwise (· ≤ ·)) :
    (∀ pre now post, times = pre ++ now :: post →
      (((run admitStep (withCapacity capacity) pre).admits now).1 = true ↔
        ((withCapacity capacity).admittedTimes pre).countP
          (fun t => now.toNat ≤ t.toNat + 60 ∧ t ≤ now) < capacity)) ∧
    (∀ a : ℕ, ((withCapacity capacity).admittedTimes times).countP
      (fun t => a ≤ t.toNat ∧ t.toNat ≤ a + 60) ≤ capacity) ∧
    (∀ pre now post, times = pre ++ now :: post →
      ((run admitStep (withCapacity capacity) pre).admits now).1 = false →
        (withCapacity capacity).admittedTimes times =
          (withCapacity capacity).admittedTimes (pre ++ post)) ∧
    ∀ pre, pre <+: times → (run admitStep (withCapacity capacity) pre).budget.Pairwise (· ≤ ·) ∧
      (run admitStep (withCapacity capacity) pre).budget.length ≤ capacity := by
  refine ⟨?_, countP_admittedTimes_le hclock, ?_, ?_⟩
  · rintro pre now post rfl
    exact admits_iff_room hclock
  · rintro pre now post rfl hrefused
    exact admittedTimes_of_refused hclock hrefused
  · intro pre hpre
    exact ⟨budget_ordered (hclock.sublist hpre.sublist), length_budget_le capacity pre⟩

theorem admits_exact_burst :
    ((withCapacity 2).admittedTimes [100, 100, 130, 160, 161]).countP
      (fun t => 101 ≤ t.toNat ∧ t.toNat ≤ 101 + 60) ≤ 2 := by
  have hclock : ([100, 100, 130, 160, 161] : List UInt64).Pairwise (· ≤ ·) := by decide
  exact (admits_exact 2 hclock).2.1 101

end RateLimiter
end Kuma.Relay
