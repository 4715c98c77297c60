import Mathlib.Data.List.Basic

/-! Registers: lists of names with a mark each, where a name's first entry is the one that
counts. The three edits a register knows, and what each does to a lookup. -/
namespace Kuma.Lib

abbrev Register (K M : Type) := List (K × M)

namespace Register

variable {K M : Type} [DecidableEq K] {k k' : K} {m : M} {r : Register K M}

/-- A new mark on a name's entry. -/
def assign (k : K) (m : M) : Register K M → Register K M
  | [] => []
  | e :: r => if e.1 = k then (e.1, m) :: r else e :: assign k m r

/-- A first entry for a name that has none. -/
def enrol (k : K) (m : M) (r : Register K M) : Register K M :=
  if (r.lookup k).isSome then r else r ++ [(k, m)]

/-- Every entry of a name gone. -/
def strike (k : K) (r : Register K M) : Register K M := r.filter fun e => e.1 != k

theorem lookup_cons (e : K × M) :
    List.lookup k (e :: r) = if e.1 = k then some e.2 else r.lookup k := by
  obtain ⟨k', m⟩ := e
  by_cases h : k' = k
  · simp [h]
  · have hne : (k == k') = false := by simpa using fun h' => h h'.symm
    simp [List.lookup_cons, h, hne]

theorem mem_of_lookup (h : r.lookup k = some m) : (k, m) ∈ r := by
  induction r with
  | nil => cases h
  | cons e r ih =>
    rw [lookup_cons] at h
    split_ifs at h with he
    · cases h
      exact he ▸ List.mem_cons_self
    · exact List.mem_cons_of_mem _ (ih h)

theorem lookup_append_of_none (h : r.lookup k = none) (e : K × M) :
    List.lookup k (r ++ [e]) = if e.1 = k then some e.2 else none := by
  induction r with
  | nil => exact lookup_cons e
  | cons e' r ih =>
    rw [lookup_cons] at h
    split_ifs at h with he
    rw [List.cons_append, lookup_cons, if_neg he, ih h]

theorem lookup_append_of_some (h : r.lookup k = some m) (e : K × M) :
    List.lookup k (r ++ [e]) = some m := by
  induction r with
  | nil => cases h
  | cons e' r ih =>
    rw [lookup_cons] at h
    rw [List.cons_append, lookup_cons]
    split_ifs at h ⊢
    · exact h
    · exact ih h

@[simp] theorem lookup_assign_self : (assign k m r).lookup k = (r.lookup k).map fun _ => m := by
  induction r with
  | nil => rfl
  | cons e r ih =>
    by_cases he : e.1 = k
    · simp only [assign, he, if_true, lookup_cons, Option.map_some]
    · simp only [assign, he, if_false, lookup_cons, ih]

theorem lookup_assign_of_ne (h : k' ≠ k) : (assign k m r).lookup k' = r.lookup k' := by
  induction r with
  | nil => rfl
  | cons e r ih =>
    by_cases he : e.1 = k
    · have hne : ¬ e.1 = k' := fun h' => h (h'.symm.trans he)
      simp only [assign, he, if_true, lookup_cons]
      simp [he ▸ hne]
    · simp only [assign, he, if_false, lookup_cons, ih]

theorem keys_assign : (assign k m r).map Prod.fst = r.map Prod.fst := by
  induction r with
  | nil => rfl
  | cons e r ih =>
    by_cases he : e.1 = k
    · simp [assign, he]
    · simp [assign, he, ih]

theorem assign_of_none (h : r.lookup k = none) : assign k m r = r := by
  induction r with
  | nil => rfl
  | cons e r ih =>
    rw [lookup_cons] at h
    split_ifs at h with he
    simp [assign, he, ih h]

theorem assign_of_some (h : r.lookup k = some m) : assign k m r = r := by
  induction r with
  | nil => rfl
  | cons e r ih =>
    rw [lookup_cons] at h
    split_ifs at h with he
    · cases h
      rw [assign, if_pos he]
    · simp [assign, he, ih h]

@[simp] theorem lookup_enrol_self : (enrol k m r).lookup k = some ((r.lookup k).getD m) := by
  unfold enrol
  cases h : r.lookup k with
  | none => simp [lookup_append_of_none h]
  | some m' => simp [h]

theorem lookup_enrol_of_ne (h : k' ≠ k) : (enrol k m r).lookup k' = r.lookup k' := by
  unfold enrol
  split_ifs
  · rfl
  · cases hk : r.lookup k' with
    | none => simp [lookup_append_of_none hk, h.symm]
    | some m' => exact lookup_append_of_some hk _

/-- An entry that is there survives every enrolment. -/
theorem lookup_enrol_of_some {m' : M} (h : r.lookup k' = some m') :
    (enrol k m r).lookup k' = some m' := by
  by_cases hk : k' = k
  · subst hk
    simp [h]
  · rwa [lookup_enrol_of_ne hk]

@[simp] theorem lookup_strike_self : (strike k r).lookup k = none := by
  induction r with
  | nil => rfl
  | cons e r ih =>
    by_cases he : e.1 = k
    · simpa [strike, he] using ih
    · have hcons : strike k (e :: r) = e :: strike k r := by simp [strike, he]
      rw [hcons, lookup_cons, if_neg he, ih]

theorem strike_of_none (h : r.lookup k = none) : strike k r = r := by
  induction r with
  | nil => rfl
  | cons e r ih =>
    rw [lookup_cons] at h
    split_ifs at h with he
    have hcons : strike k (e :: r) = e :: strike k r := by simp [strike, he]
    rw [hcons, ih h]

theorem lookup_strike_of_ne (h : k' ≠ k) : (strike k r).lookup k' = r.lookup k' := by
  induction r with
  | nil => rfl
  | cons e r ih =>
    by_cases he : e.1 = k
    · have hcons : strike k (e :: r) = strike k r := by simp [strike, he]
      have hne : ¬ e.1 = k' := fun h' => h (h'.symm.trans he)
      rw [hcons, lookup_cons, if_neg hne, ih]
    · have hcons : strike k (e :: r) = e :: strike k r := by simp [strike, he]
      rw [hcons, lookup_cons, lookup_cons, ih]

theorem any_eq_isSome_lookup : (r.any fun e => e.1 == k) = (r.lookup k).isSome := by
  induction r with
  | nil => rfl
  | cons e r ih =>
    rw [List.any_cons, lookup_cons, ih]
    by_cases he : e.1 = k
    · simp [he]
    · simp [he]

theorem find?_eq_lookup : (r.find? fun e => e.1 == k) = (r.lookup k).map fun m => (k, m) := by
  induction r with
  | nil => rfl
  | cons e r ih =>
    rw [List.find?_cons, lookup_cons]
    by_cases he : e.1 = k
    · simp [← he]
    · rw [beq_eq_false_iff_ne.mpr he, if_neg he]
      exact ih

theorem lookup_eq_none_of_notMem (h : k ∉ r.map Prod.fst) : r.lookup k = none := by
  cases hk : r.lookup k with
  | none => rfl
  | some m => exact absurd (List.mem_map_of_mem (f := Prod.fst) (mem_of_lookup hk)) h

theorem mem_keys_iff : k ∈ r.map Prod.fst ↔ (r.lookup k).isSome := by
  constructor
  · intro h
    by_contra hnone
    obtain ⟨e, he, rfl⟩ := List.mem_map.mp h
    have hany : (r.any fun e' => e'.1 == e.1) = true :=
      List.any_eq_true.mpr ⟨e, he, beq_self_eq_true e.1⟩
    rw [any_eq_isSome_lookup] at hany
    exact hnone hany
  · intro h
    obtain ⟨m, hm⟩ := Option.isSome_iff_exists.mp h
    exact List.mem_map_of_mem (f := Prod.fst) (mem_of_lookup hm)

/-- Where each name has one entry, that entry is the one that counts. -/
theorem lookup_of_mem (h : (r.map Prod.fst).Nodup) (hm : (k, m) ∈ r) : r.lookup k = some m := by
  induction r with
  | nil => cases hm
  | cons e r ih =>
    rw [List.map_cons, List.nodup_cons] at h
    rw [lookup_cons]
    rcases List.mem_cons.mp hm with rfl | hm
    · rw [if_pos rfl]
    · have hmem : k ∈ r.map Prod.fst := List.mem_map_of_mem (f := Prod.fst) hm
      have hne : e.1 ≠ k := fun he => h.1 (he ▸ hmem)
      rw [if_neg hne, ih h.2 hm]

/-- Where each name has one entry, taking the first out takes all. -/
theorem eraseP_eq_strike (h : (r.map Prod.fst).Nodup) :
    (r.eraseP fun e => e.1 == k) = strike k r := by
  induction r with
  | nil => rfl
  | cons e r ih =>
    rw [List.map_cons, List.nodup_cons] at h
    by_cases he : e.1 = k
    · have hnone : r.lookup k = none := lookup_eq_none_of_notMem (he ▸ h.1)
      have hstrike : strike k (e :: r) = strike k r := by simp [strike, he]
      rw [hstrike, strike_of_none hnone, List.eraseP_cons_of_pos (by simpa using he)]
    · have hcons : strike k (e :: r) = e :: strike k r := by simp [strike, he]
      rw [hcons, List.eraseP_cons_of_neg (by simpa using he), ih h.2]

/-- A new mark for the entry at a place. -/
theorem lookup_modify {f : M → M} {i : ℕ} (h : (r.map Prod.fst).Nodup)
    (hi : r[i]? = some (k, m)) :
    (r.modify i fun e => (e.1, f e.2)).lookup k = some (f m) ∧
      ∀ k', k' ≠ k → (r.modify i fun e => (e.1, f e.2)).lookup k' = r.lookup k' := by
  induction r generalizing i with
  | nil => cases hi
  | cons e r ih =>
    rw [List.map_cons, List.nodup_cons] at h
    cases i with
    | zero =>
      obtain rfl : e = (k, m) := by simpa using hi
      refine ⟨by rw [List.modify_zero_cons, lookup_cons, if_pos rfl], fun k' hk' => ?_⟩
      rw [List.modify_zero_cons, lookup_cons, lookup_cons, if_neg hk'.symm, if_neg hk'.symm]
    | succ i =>
      have hi' : r[i]? = some (k, m) := by simpa using hi
      have hmem : k ∈ r.map Prod.fst :=
        List.mem_map_of_mem (f := Prod.fst) (List.mem_of_getElem? hi')
      have hne : e.1 ≠ k := fun he => h.1 (he ▸ hmem)
      obtain ⟨hself, hother⟩ := ih h.2 hi'
      refine ⟨by rw [List.modify_succ_cons, lookup_cons, if_neg hne, hself], fun k' hk' => ?_⟩
      rw [List.modify_succ_cons, lookup_cons, lookup_cons, hother k' hk']

omit [DecidableEq K] in
theorem keys_modify {f : M → M} {i : ℕ} :
    (r.modify i fun e => (e.1, f e.2)).map Prod.fst = r.map Prod.fst := by
  induction r generalizing i with
  | nil => cases i <;> rfl
  | cons e r ih =>
    cases i with
    | zero => rfl
    | succ i => rw [List.modify_succ_cons, List.map_cons, List.map_cons, ih]

/-- What every name of a register satisfies, the names of an edited one do. -/
theorem forall_keys_assign {P : K → Prop} (h : ∀ e ∈ r, P e.1) : ∀ e ∈ assign k m r, P e.1 := by
  intro e he
  have hmem : e.1 ∈ (assign k m r).map Prod.fst := List.mem_map_of_mem he
  rw [keys_assign] at hmem
  obtain ⟨e', he', heq⟩ := List.mem_map.mp hmem
  exact heq ▸ h e' he'

theorem forall_keys_enrol {P : K → Prop} (h : ∀ e ∈ r, P e.1) (hk : P k) :
    ∀ e ∈ enrol k m r, P e.1 := by
  intro e he
  unfold enrol at he
  split_ifs at he
  · exact h e he
  · rcases List.mem_append.mp he with hr | hnew
    · exact h e hr
    · rw [List.mem_singleton.mp hnew]
      exact hk

theorem forall_keys_strike {P : K → Prop} (h : ∀ e ∈ r, P e.1) : ∀ e ∈ strike k r, P e.1 :=
  fun e he => h e (List.mem_filter.mp he).1

end Register
end Kuma.Lib
