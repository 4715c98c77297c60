import Mathlib.Order.Lattice
import Mathlib.Order.Monotone.Defs
import Kuma.Lib.Run

/-! A limit on how many calls a sliding window lets in: a queue of the calls that it let in, whose
old end is dropped on the way. Over calls in the order of their times the queue answers as the whole
history would. -/
namespace Kuma.Lib.SlidingWindow

variable {T : Type*} [LinearOrder T]

/-- One call: what lies before the window is dropped, and the call enters if there is room. -/
def call (start : T → T) (capacity : ℕ) (queue : List T) (now : T) : List T × Bool :=
  let live := queue.dropWhile (· < start now)
  if capacity ≤ live.length then (live, false) else (live ++ [now], true)

def step (start : T → T) (capacity : ℕ) (queue : List T) (now : T) : List T :=
  (call start capacity queue now).1

/-- The calls of a run that are let in. -/
def admitted (start : T → T) (capacity : ℕ) (queue : List T) (times : List T) : List T :=
  ((visits (step start capacity) queue times).filter fun x =>
    (call start capacity x.1 x.2).2).map Prod.snd

section
variable {start : T → T} {capacity : ℕ} {queue times pre post : List T} {now a : T}

theorem call_snd : (call start capacity queue now).2 = true ↔
    (queue.dropWhile (· < start now)).length < capacity := by
  unfold call
  simp only
  split_ifs with hfull
  · simpa using hfull
  · simpa using hfull

theorem step_of_admitted (h : (call start capacity queue now).2 = true) :
    step start capacity queue now = queue.dropWhile (· < start now) ++ [now] := by
  unfold step call
  simp only
  rw [if_neg (Nat.not_le.mpr (call_snd.mp h))]

theorem step_of_refused (h : (call start capacity queue now).2 = false) :
    step start capacity queue now = queue.dropWhile (· < start now) := by
  have hfull : capacity ≤ (queue.dropWhile (· < start now)).length := by
    by_contra hlt
    rw [call_snd.mpr (by omega)] at h
    cases h
  unfold step call
  simp only
  rw [if_pos hfull]

theorem step_sublist : (step start capacity queue now).Sublist (queue ++ [now]) := by
  have hlive : (queue.dropWhile (· < start now)).Sublist queue := List.dropWhile_sublist _
  cases hanswer : (call start capacity queue now).2 with
  | true =>
    rw [step_of_admitted hanswer]
    exact hlive.append (List.Sublist.refl _)
  | false =>
    rw [step_of_refused hanswer]
    exact hlive.trans (List.sublist_append_left _ _)

theorem run_sublist : (run (step start capacity) queue times).Sublist (queue ++ times) := by
  induction times generalizing queue with
  | nil => rw [run_nil, List.append_nil]
  | cons now times ih =>
    have hstep : (step start capacity queue now ++ times).Sublist (queue ++ [now] ++ times) :=
      step_sublist.append (List.Sublist.refl _)
    rw [List.append_assoc] at hstep
    exact ih.trans hstep

theorem length_run_le (h : queue.length ≤ capacity) :
    (run (step start capacity) queue times).length ≤ capacity := by
  have hstep : ∀ (queue : List T) (now : T), queue.length ≤ capacity →
      (step start capacity queue now).length ≤ capacity := by
    intro queue now h
    have hlive := (List.dropWhile_sublist (· < start now) (l := queue)).length_le
    cases hanswer : (call start capacity queue now).2 with
    | true =>
      have hroom := call_snd.mp hanswer
      rw [step_of_admitted hanswer, List.length_append, List.length_singleton]
      omega
    | false =>
      rw [step_of_refused hanswer]
      omega
  exact run_invariant (P := fun _ _ => True) (fun queue now h _ => hstep queue now h) h
    (fun _ _ => trivial)

theorem admitted_append (pre post : List T) : admitted start capacity queue (pre ++ post) =
    admitted start capacity queue pre ++
      admitted start capacity (run (step start capacity) queue pre) post := by
  simp only [admitted, visits_append, List.filter_append, List.map_append]

theorem admitted_cons (times : List T) : admitted start capacity queue (now :: times) =
    (if (call start capacity queue now).2 then [now] else []) ++
      admitted start capacity (step start capacity queue now) times := by
  cases hanswer : (call start capacity queue now).2 <;> simp [admitted, visits, hanswer]

theorem admitted_singleton : admitted start capacity queue [now] =
    if (call start capacity queue now).2 then [now] else [] := by
  rw [admitted_cons]
  exact List.append_nil _

/-- Dropping the early ones from the front of an ordered list leaves the late ones. -/
theorem dropWhile_lt_eq_filter {l : List T} (h : l.Pairwise (· ≤ ·)) :
    l.dropWhile (· < a) = l.filter (a ≤ ·) := by
  induction l with
  | nil => rfl
  | cons t l ih =>
    obtain ⟨hfirst, hl⟩ := List.pairwise_cons.mp h
    by_cases ht : t < a
    · rw [List.dropWhile_cons_of_pos (by simpa using ht), ih hl,
        List.filter_cons_of_neg (by simpa using ht)]
    · have hall : ∀ u ∈ t :: l, a ≤ u := by
        intro u hu
        rcases List.mem_cons.mp hu with rfl | hu
        · exact not_lt.mp ht
        · exact (not_lt.mp ht).trans (hfirst u hu)
      rw [List.dropWhile_cons_of_neg (by simpa using ht)]
      exact (List.filter_eq_self.mpr fun u hu => by simpa using hall u hu).symm

variable (hstart : Monotone start)
include hstart

/-- What is left of the queue at a call is what the whole history has in the window. -/
theorem live_eq (h : (times ++ [now]).Pairwise (· ≤ ·)) :
    (run (step start capacity) [] times).dropWhile (· < start now) =
      (admitted start capacity [] times).filter (start now ≤ ·) := by
  induction times using List.reverseRecOn generalizing now with
  | nil => rfl
  | append_singleton times t ih =>
    obtain ⟨hsorted, -, hnow⟩ := List.pairwise_append.mp h
    have ht : t ≤ now :=
      hnow t (List.mem_append_right _ (List.mem_singleton_self t)) now (List.mem_singleton_self now)
    have hqueue : (run (step start capacity) [] (times ++ [t])).Pairwise (· ≤ ·) :=
      hsorted.sublist run_sublist
    have hagain : ((admitted start capacity [] times).filter (start t ≤ ·)).filter
        (start now ≤ ·) = (admitted start capacity [] times).filter (start now ≤ ·) := by
      rw [List.filter_filter]
      refine List.filter_congr fun u _ => ?_
      have hle : start now ≤ u → start t ≤ u := (hstart ht).trans
      simpa using hle
    rw [dropWhile_lt_eq_filter hqueue, run_append, run_cons, run_nil, admitted_append,
      admitted_singleton, List.filter_append]
    cases hanswer : (call start capacity (run (step start capacity) [] times) t).2 with
    | true => rw [step_of_admitted hanswer, ih hsorted, List.filter_append, hagain, if_pos rfl]
    | false => rw [step_of_refused hanswer, ih hsorted, hagain, if_neg Bool.false_ne_true,
        List.filter_nil, List.append_nil]

/-- A call is let in exactly when the window holds fewer than the limit. -/
theorem call_iff (h : (times ++ [now]).Pairwise (· ≤ ·)) :
    (call start capacity (run (step start capacity) [] times) now).2 = true ↔
      (admitted start capacity [] times).countP (start now ≤ ·) < capacity := by
  rw [call_snd, live_eq hstart h, List.countP_eq_length_filter]

/-- No span that one window covers holds more than the limit. -/
theorem countP_admitted_le (h : times.Pairwise (· ≤ ·)) (a : T) :
    (admitted start capacity [] times).countP (fun t => a ≤ t ∧ start t ≤ a) ≤ capacity := by
  induction times using List.reverseRecOn with
  | nil => exact Nat.zero_le _
  | append_singleton times t ih =>
    have hbefore := ih (List.pairwise_append.mp h).1
    rw [admitted_append, admitted_singleton, List.countP_append]
    cases hanswer : (call start capacity (run (step start capacity) [] times) t).2 with
    | false => simpa using hbefore
    | true =>
      rw [if_pos rfl, List.countP_singleton]
      split_ifs with hspan
      · have hroom := (call_iff hstart h).mp hanswer
        have hwindow : (admitted start capacity [] times).countP (fun u => a ≤ u ∧ start u ≤ a) ≤
            (admitted start capacity [] times).countP (start t ≤ ·) := by
          refine List.countP_mono_left fun u _ hu => ?_
          simp only [decide_eq_true_eq] at hu hspan ⊢
          exact hspan.2.trans hu.1
        omega
      · omega

/-- A refused call leaves no trace in what is let in after it. -/
theorem admitted_of_refused (h : (pre ++ now :: post).Pairwise (· ≤ ·))
    (hrefused : (call start capacity (run (step start capacity) [] pre) now).2 = false) :
    admitted start capacity [] (pre ++ now :: post) = admitted start capacity [] (pre ++ post) := by
  induction post using List.reverseRecOn with
  | nil => rw [admitted_append, admitted_singleton, hrefused, if_neg Bool.false_ne_true,
      List.append_nil, List.append_nil]
  | append_singleton post t ih =>
    have hsplit : pre ++ now :: (post ++ [t]) = (pre ++ now :: post) ++ [t] := by simp
    have hsplit' : pre ++ (post ++ [t]) = (pre ++ post) ++ [t] := by simp
    rw [hsplit] at h ⊢
    have hshort : ((pre ++ post) ++ [t]).Pairwise (· ≤ ·) := by
      refine h.sublist (List.Sublist.append ?_ (List.Sublist.refl _))
      exact (List.Sublist.refl _).append (List.sublist_cons_self _ _)
    have hsame := ih (List.pairwise_append.mp h).1
    rw [hsplit', admitted_append, admitted_append (pre ++ post), hsame, admitted_singleton,
      admitted_singleton]
    have hanswer : (call start capacity
        (run (step start capacity) [] (pre ++ now :: post)) t).2 =
        (call start capacity (run (step start capacity) [] (pre ++ post)) t).2 := by
      rw [Bool.eq_iff_iff, call_iff hstart h, call_iff hstart hshort, hsame]
    rw [hanswer]

end

end Kuma.Lib.SlidingWindow
