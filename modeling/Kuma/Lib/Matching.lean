import Mathlib.Algebra.Order.BigOperators.Group.List
import Mathlib.Algebra.Order.Group.Nat

/-! Matchings: lists of pairs that identify on the left what they identify on the right. -/
namespace Kuma.Lib

variable {α : Type*}

/-- Two entries agree on the left exactly when they agree on the right. -/
def Matching (pairs : List (α × α)) : Prop :=
  ∀ x ∈ pairs, ∀ y ∈ pairs, x.1 = y.1 ↔ x.2 = y.2

instance [DecidableEq α] (pairs : List (α × α)) : Decidable (Matching pairs) := by
  unfold Matching
  infer_instance

/-- A matching of lists comes from one injection of all lists: a list that no pair mentions is
sent to one that is longer than all of theirs. -/
theorem Matching.exists_injective [DecidableEq α] [Inhabited α]
    {pairs : List (List α × List α)} (h : Matching pairs) :
    ∃ φ : List α → List α, Function.Injective φ ∧ ∀ x ∈ pairs, φ x.1 = x.2 := by
  let bound := (pairs.map fun x => x.2.length).sum
  let far (p : List α) : List α := List.replicate (bound + 1) default ++ p
  let φ (p : List α) : List α := ((pairs.find? fun x => x.1 == p).map Prod.snd).getD (far p)
  have hbound : ∀ x ∈ pairs, x.2.length ≤ bound := by
    intro x hx
    exact List.le_sum_of_mem (List.mem_map_of_mem hx)
  have hcases : ∀ p, (∃ x ∈ pairs, x.1 = p ∧ φ p = x.2) ∨ φ p = far p := by
    intro p
    cases hf : pairs.find? fun x => x.1 == p with
    | none => exact .inr (by simp [φ, hf])
    | some x =>
      have hx : x.1 = p := by simpa using List.find?_some hf
      exact .inl ⟨x, List.mem_of_find?_eq_some hf, hx, by simp [φ, hf]⟩
  have hfar : ∀ x ∈ pairs, ∀ p, x.2 ≠ far p := by
    intro x hx p heq
    have hlen := hbound x hx
    rw [heq] at hlen
    simp only [far, List.length_append, List.length_replicate] at hlen
    omega
  refine ⟨φ, ?_, ?_⟩
  · intro p q hpq
    rcases hcases p with ⟨x, hx, rfl, hp⟩ | hp
    · rcases hcases q with ⟨y, hy, rfl, hq⟩ | hq
      · exact (h x hx y hy).mpr (hp.symm.trans (hpq.trans hq))
      · exact absurd (hp.symm.trans (hpq.trans hq)) (hfar x hx q)
    · rcases hcases q with ⟨y, hy, rfl, hq⟩ | hq
      · exact absurd (hq.symm.trans (hpq.symm.trans hp)) (hfar y hy p)
      · exact List.append_cancel_left (hp.symm.trans (hpq.trans hq))
  · intro x hx
    rcases hcases x.1 with ⟨y, hy, hyx, hφ⟩ | hφ
    · rw [hφ]
      exact (h y hy x hx).mp hyx
    · have hfound : (pairs.find? fun y => y.1 == x.1).isSome := by
        rw [List.find?_isSome]
        exact ⟨x, hx, by simp⟩
      obtain ⟨y, hy⟩ := Option.isSome_iff_exists.mp hfound
      have hφy : φ x.1 = y.2 := by simp [φ, hy]
      exact absurd (hφy.symm.trans hφ) (hfar y (List.mem_of_find?_eq_some hy) x.1)

end Kuma.Lib
