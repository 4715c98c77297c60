import Mathlib.Data.List.Infix
import Mathlib.Data.List.Basic

/-! Runs of a deterministic step function over a list of inputs: the states they visit,
the invariants they keep, and events that a run meets at most once. -/
namespace Kuma.Lib

variable {σ α : Type*} (step : σ → α → σ)

/-- The state in which a run over `as` ends. -/
def run (s : σ) (as : List α) : σ := as.foldl step s

/-- Every input of the run, beside the state that met it. -/
def visits : σ → List α → List (σ × α)
  | _, [] => []
  | s, a :: as => (s, a) :: visits (step s a) as

/-- `P` holds of every input of the run in the state that met it. -/
def Along (P : σ → α → Prop) (s : σ) (as : List α) : Prop :=
  ∀ x ∈ visits step s as, P x.1 x.2

instance (P : σ → α → Prop) [∀ s a, Decidable (P s a)] (s : σ) (as : List α) :
    Decidable (Along step P s as) :=
  inferInstanceAs (Decidable (∀ x ∈ visits step s as, P x.1 x.2))

@[simp] theorem run_nil (s : σ) : run step s [] = s := rfl

@[simp] theorem run_cons (s : σ) (a : α) (as : List α) :
    run step s (a :: as) = run step (step s a) as := rfl

theorem run_append (s : σ) (as bs : List α) :
    run step s (as ++ bs) = run step (run step s as) bs := List.foldl_append

theorem visits_append (s : σ) (as bs : List α) :
    visits step s (as ++ bs) = visits step s as ++ visits step (run step s as) bs := by
  induction as generalizing s with
  | nil => rfl
  | cons a as ih => simp [visits, ih]

variable {step} {P : σ → α → Prop}

@[simp] theorem along_nil (s : σ) : Along step P s [] := by simp [Along, visits]

@[simp] theorem along_cons {s : σ} {a : α} {as : List α} :
    Along step P s (a :: as) ↔ P s a ∧ Along step P (step s a) as := by
  simp [Along, visits]

theorem along_append {s : σ} {as bs : List α} :
    Along step P s (as ++ bs) ↔ Along step P s as ∧ Along step P (run step s as) bs := by
  simp only [Along, visits_append, List.mem_append, or_imp, forall_and]

theorem Along.initial {s : σ} {as pre : List α} (h : Along step P s as) (hp : pre <+: as) :
    Along step P s pre := by
  obtain ⟨t, rfl⟩ := hp
  exact (along_append.mp h).1

theorem Along.mono {Q : σ → α → Prop} {s : σ} {as : List α} (h : Along step P s as)
    (hPQ : ∀ s a, P s a → Q s a) : Along step Q s as :=
  fun x hx => hPQ x.1 x.2 (h x hx)

theorem Along.and {Q : σ → α → Prop} {s : σ} {as : List α} (h : Along step P s as)
    (h' : Along step Q s as) : Along step (fun s a => P s a ∧ Q s a) s as :=
  fun x hx => ⟨h x hx, h' x hx⟩

/-- The invariant rule: what every guarded step keeps, every guarded run keeps. -/
theorem run_invariant {I : σ → Prop} (hstep : ∀ s a, I s → P s a → I (step s a))
    {s : σ} {as : List α} (h0 : I s) (hP : Along step P s as) : I (run step s as) := by
  induction as generalizing s with
  | nil => exact h0
  | cons a as ih =>
    obtain ⟨ha, has⟩ := along_cons.mp hP
    exact ih (hstep s a h0 ha) has

/-- The same rule, read at every state on the way. -/
theorem along_invariant {I : σ → Prop} (hstep : ∀ s a, I s → P s a → I (step s a))
    {s : σ} {as : List α} (h0 : I s) (hP : Along step P s as) :
    Along step (fun s _ => I s) s as := by
  induction as generalizing s with
  | nil => simp
  | cons a as ih =>
    obtain ⟨ha, has⟩ := along_cons.mp hP
    exact along_cons.mpr ⟨h0, ih (hstep s a h0 ha) has⟩

/-- The invariant rule for an exact guard: the invariant holds all along the run exactly when
every step meets the guard. -/
theorem along_iff_invariant {I : σ → Prop} {Q : σ → α → Prop}
    (hstep : ∀ s a, I s → Q s a → (I (step s a) ↔ P s a)) {s : σ} {as : List α} (h0 : I s)
    (hQ : Along step Q s as) :
    Along step P s as ↔ ∀ pre, pre <+: as → I (run step s pre) := by
  constructor
  · intro hP pre hpre
    have hboth := (hP.and hQ).initial hpre
    exact run_invariant (fun s a hs h => (hstep s a hs h.2).mpr h.1) h0 hboth
  · intro hI
    induction as generalizing s with
    | nil => exact along_nil s
    | cons a as ih =>
      obtain ⟨ha, has⟩ := along_cons.mp hQ
      have hnext : I (step s a) := hI [a] (List.prefix_append [a] as)
      refine along_cons.mpr ⟨(hstep s a h0 ha).mp hnext, ih hnext has fun pre hpre => ?_⟩
      exact hI (a :: pre) (List.cons_prefix_cons.mpr ⟨rfl, hpre⟩)

/-- The rule for a part that every step either sets or keeps: after a run it is what the last
step to set it made of it. -/
theorem run_latest {β : Type*} {get : σ → β} {sets : σ → α → Option β}
    (hstep : ∀ s a, get (step s a) = (sets s a).getD (get s)) (s : σ) (as : List α) :
    get (run step s as) =
      ((visits step s as).filterMap fun x => sets x.1 x.2).getLast?.getD (get s) := by
  induction as generalizing s with
  | nil => rfl
  | cons a as ih =>
    rw [run_cons, ih, hstep, visits]
    cases hset : sets s a with
    | none => simp [hset]
    | some b => simp [hset, List.getLast?_cons]

/-- The rule for two machines in step: a translation of states and inputs that commutes with
every guarded step commutes with every guarded run. -/
theorem run_map {τ β : Type*} {step' : τ → β → τ} {f : σ → τ} {g : α → β} {I : σ → Prop}
    (hkeep : ∀ s a, I s → P s a → I (step s a))
    (hstep : ∀ s a, I s → P s a → step' (f s) (g a) = f (step s a))
    {s : σ} {as : List α} (h0 : I s) (hP : Along step P s as) :
    run step' (f s) (as.map g) = f (run step s as) := by
  induction as generalizing s with
  | nil => rfl
  | cons a as ih =>
    obtain ⟨ha, has⟩ := along_cons.mp hP
    rw [List.map_cons, run_cons, run_cons, hstep s a h0 ha]
    exact ih (hkeep s a h0 ha) has

/-- Inputs that leave the state as it is can be deleted from a run unnoticed. -/
theorem visits_filter {keep : α → Bool} {s : σ} {as : List α}
    (h : Along step (fun s a => keep a = false → step s a = s) s as) :
    visits step s (as.filter keep) = (visits step s as).filter fun x => keep x.2 := by
  induction as generalizing s with
  | nil => rfl
  | cons a as ih =>
    obtain ⟨ha, has⟩ := along_cons.mp h
    cases hk : keep a with
    | true => simp [visits, hk, ih has]
    | false =>
      have hidle := ha hk
      rw [hidle] at has
      simp [visits, hk, hidle, ih has]

@[simp] theorem visits_map_snd (s : σ) (as : List α) : (visits step s as).map Prod.snd = as := by
  induction as generalizing s with
  | nil => rfl
  | cons a as ih => simp [visits, ih]

/-- A visit splits the run at its input. -/
theorem mem_visits {s : σ} {as : List α} {x : σ × α} (h : x ∈ visits step s as) :
    ∃ pre post, as = pre ++ x.2 :: post ∧ x.1 = run step s pre := by
  induction as generalizing s with
  | nil => cases h
  | cons a as ih =>
    rcases List.mem_cons.mp h with rfl | h
    · exact ⟨[], as, rfl, rfl⟩
    · obtain ⟨pre, post, has, hx⟩ := ih h
      exact ⟨a :: pre, post, by rw [has]; rfl, hx⟩

/-- What holds of every input holds of it in whatever state meets it. -/
theorem along_of_forall {Q : α → Prop} {s : σ} {as : List α} (h : ∀ a ∈ as, Q a) :
    Along step (fun _ a => Q a) s as := by
  intro x hx
  have hmem := List.mem_map_of_mem (f := Prod.snd) hx
  rw [visits_map_snd] at hmem
  exact h _ hmem

/-- Something happens at most once when it happens beside no other time. -/
theorem countP_le_one_iff {β : Type*} {hit : β → Bool} {l : List β} :
    l.countP hit ≤ 1 ↔ l.Pairwise fun x y => hit x = true → hit y = true → False := by
  rw [List.countP_eq_length_filter, ← List.pairwise_filter]
  match l.filter hit with
  | [] => simp
  | [x] => simp
  | x :: y :: t =>
    constructor
    · intro h
      simp at h
    · intro h
      exact absurd List.mem_cons_self ((List.pairwise_cons.mp h).1 y)

/-- What each step hands on to the inputs still to come, a run hands on to those after it. -/
theorem run_remaining {I : σ → List α → Prop}
    (hstep : ∀ s a as, I s (a :: as) → I (step s a) as) {s : σ} {as bs : List α}
    (h : I s (as ++ bs)) : I (run step s as) bs := by
  induction as generalizing s with
  | nil => exact h
  | cons a as ih => exact ih (hstep s a _ h)

/-- Once an event has closed its own door it never happens again. The predicates see the
inputs still to come, so that they can speak of values not drawn yet. -/
theorem countP_visits_eq_zero {hit : σ × α → Bool} {After : σ → List α → Prop}
    (hA : ∀ s a as, After s (a :: as) → hit (s, a) = false ∧ After (step s a) as)
    {s : σ} {as : List α} (h : After s as) : (visits step s as).countP hit = 0 := by
  induction as generalizing s with
  | nil => rfl
  | cons a as ih =>
    obtain ⟨hn, hs⟩ := hA s a as h
    simp [visits, hn, ih hs]

theorem countP_visits_le_one {hit : σ × α → Bool} {Before After : σ → List α → Prop}
    (hB : ∀ s a as, Before s (a :: as) → hit (s, a) = false → Before (step s a) as)
    (hhit : ∀ s a as, Before s (a :: as) → hit (s, a) = true → After (step s a) as)
    (hA : ∀ s a as, After s (a :: as) → hit (s, a) = false ∧ After (step s a) as)
    {s : σ} {as : List α} (h : Before s as) : (visits step s as).countP hit ≤ 1 := by
  induction as generalizing s with
  | nil => simp [visits]
  | cons a as ih =>
    cases hh : hit (s, a) with
    | false =>
      have hrest := ih (hB s a as h hh)
      simpa [visits, hh] using hrest
    | true =>
      have hrest := countP_visits_eq_zero hA (hhit s a as h hh)
      simp [visits, hh, hrest]

variable (step) in
/-- Two runs side by side, the second of the kept inputs alone: `Q` holds of every input in
the two states that stand when its turn comes. -/
def Beside (keep : α → Bool) (Q : σ → σ → α → Prop) : σ → σ → List α → Prop
  | _, _, [] => True
  | s, t, a :: as =>
    Q s t a ∧ Beside keep Q (step s a) (if keep a then step t a else t) as

instance (keep : α → Bool) (Q : σ → σ → α → Prop) [∀ s t a, Decidable (Q s t a)] :
    ∀ (s t : σ) (as : List α), Decidable (Beside step keep Q s t as)
  | _, _, [] => isTrue trivial
  | s, t, a :: as =>
    have := instDecidableBeside keep Q (step s a) (if keep a then step t a else t) as
    inferInstanceAs (Decidable (Q s t a ∧ _))

/-- A relation that both kinds of input keep may be used to weaken what holds beside a run. -/
theorem Beside.weaken {keep : α → Bool} {Q Q' : σ → σ → α → Prop} {R : σ → σ → Prop}
    (hkept : ∀ s t a, R s t → Q s t a → keep a = true → Q' s t a ∧ R (step s a) (step t a))
    (hdeleted : ∀ s t a, R s t → Q s t a → keep a = false → Q' s t a ∧ R (step s a) t)
    {s t : σ} {as : List α} (h0 : R s t) (h : Beside step keep Q s t as) :
    Beside step keep Q' s t as := by
  induction as generalizing s t with
  | nil => trivial
  | cons a as ih =>
    obtain ⟨ha, has⟩ := h
    cases hk : keep a with
    | true =>
      obtain ⟨hQ, hR⟩ := hkept s t a h0 ha hk
      refine ⟨hQ, ?_⟩
      rw [hk, if_pos rfl] at has ⊢
      exact ih hR has
    | false =>
      obtain ⟨hQ, hR⟩ := hdeleted s t a h0 ha hk
      refine ⟨hQ, ?_⟩
      rw [hk, if_neg Bool.false_ne_true] at has ⊢
      exact ih hR has

/-- The rule for deleting inputs: a relation that the kept inputs keep, with equal outputs, and
that the deleted ones keep on the side that meets them, makes the deletion unnoticeable. -/
theorem outputs_of_beside {β : Type*} {keep : α → Bool} {Q : σ → σ → α → Prop}
    {R : σ → σ → Prop} {out : σ → α → β}
    (hkept : ∀ s t a, R s t → Q s t a → keep a = true →
      out s a = out t a ∧ R (step s a) (step t a))
    (hdeleted : ∀ s t a, R s t → keep a = false → R (step s a) t)
    {s t : σ} {as : List α} (h0 : R s t) (h : Beside step keep Q s t as) :
    ((visits step s as).filter fun x => keep x.2).map (fun x => out x.1 x.2) =
      (visits step t (as.filter keep)).map fun x => out x.1 x.2 := by
  induction as generalizing s t with
  | nil => rfl
  | cons a as ih =>
    obtain ⟨ha, has⟩ := h
    cases hk : keep a with
    | true =>
      obtain ⟨hout, hstep⟩ := hkept s t a h0 ha hk
      rw [hk, if_pos rfl] at has
      simp [visits, hk, hout, ih hstep has]
    | false =>
      rw [hk, if_neg Bool.false_ne_true] at has
      simp [visits, hk, ih (hdeleted s t a h0 hk) has]

end Kuma.Lib
