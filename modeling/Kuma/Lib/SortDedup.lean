import Mathlib.Data.List.Sort
import Mathlib.Data.List.Destutter
import Mathlib.Order.Lattice

/-! Sorting and then dropping repeated neighbours: the one list that names a set. -/
namespace Kuma.Lib

variable {α : Type*} [LinearOrder α]

/-- `sort_unstable` and `dedup`. -/
def sortDedup (l : List α) : List α := (l.insertionSort (· ≤ ·)).destutter (· ≠ ·)

variable {x : α} {l l' : List α}

theorem mem_destutter' (y : α) : x ∈ l.destutter' (· ≠ ·) y ↔ x ∈ y :: l := by
  induction l generalizing y with
  | nil => rfl
  | cons z zs ih =>
    by_cases h : y = z
    · subst h
      rw [List.destutter'_cons_neg _ (by simp), ih]
      simp
    · rw [List.destutter'_cons_pos _ h, List.mem_cons, ih, ← List.mem_cons]

theorem mem_sortDedup : x ∈ sortDedup l ↔ x ∈ l := by
  rw [sortDedup, ← List.mem_insertionSort (· ≤ ·) (l := l)]
  cases l.insertionSort (· ≤ ·) with
  | nil => rfl
  | cons y ys => exact mem_destutter' y

/-- Sorted, and with no neighbours alike: strictly sorted. -/
theorem pairwise_lt_of_isChain (hle : l.Pairwise (· ≤ ·)) (hne : l.IsChain (· ≠ ·)) :
    l.Pairwise (· < ·) := by
  refine List.isChain_iff_pairwise.mp ?_
  induction l with
  | nil => exact .nil
  | cons x xs ih =>
    cases xs with
    | nil => exact .singleton x
    | cons y ys =>
      obtain ⟨hxy, hys⟩ := List.isChain_cons_cons.mp hne
      have hfirst : x ≤ y := (List.pairwise_cons.mp hle).1 y List.mem_cons_self
      exact .cons_cons (lt_of_le_of_ne hfirst hxy) (ih hle.of_cons hys)

theorem pairwise_sortDedup (l : List α) : (sortDedup l).Pairwise (· < ·) := by
  have hle : (sortDedup l).Pairwise (· ≤ ·) :=
    (List.pairwise_insertionSort (· ≤ ·) l).sublist (List.destutter_sublist _ _)
  exact pairwise_lt_of_isChain hle (List.isChain_destutter _ _)

/-- Two lists come to the same exactly when they name the same set. -/
theorem sortDedup_eq_iff : sortDedup l = sortDedup l' ↔ ∀ x, x ∈ l ↔ x ∈ l' := by
  constructor
  · intro h x
    rw [← mem_sortDedup, h, mem_sortDedup]
  · intro h
    have hlt : ∀ a b, a ∈ sortDedup l → b ∈ sortDedup l' → a < b → b < a → a = b :=
      fun a b _ _ hab hba => absurd hba hab.asymm
    refine List.Perm.eq_of_pairwise hlt (pairwise_sortDedup l) (pairwise_sortDedup l') ?_
    · refine (List.perm_ext_iff_of_nodup (pairwise_sortDedup l).nodup
        (pairwise_sortDedup l').nodup).mpr fun x => ?_
      rw [mem_sortDedup, mem_sortDedup, h]

end Kuma.Lib
