import Mathlib.Data.List.Sort

/-! The entry at a place of a sorted list, by how many entries are at or below a bound. -/
namespace Kuma.Lib.Rank

variable {α : Type} [LinearOrder α] {l : List α} {i : ℕ} {t : α}

theorem lt_countP_iff_of_sorted (h : l.Pairwise (· ≤ ·)) (hi : i < l.length) :
    i < l.countP (· ≤ t) ↔ l[i] ≤ t := by
  have hsorted := List.pairwise_iff_getElem.mp h
  constructor
  · intro hcount
    by_contra hlt
    -- from this place on, all is above the bound
    have hdrop : (l.drop i).countP (· ≤ t) = 0 := by
      refine List.countP_eq_zero.mpr fun a ha hle => ?_
      obtain ⟨j, hj, rfl⟩ := List.getElem_of_mem ha
      rw [List.getElem_drop, decide_eq_true_eq] at hle
      rw [List.length_drop] at hj
      have hij : l[i] ≤ l[i + j] := by
        rcases Nat.eq_zero_or_pos j with rfl | hpos
        · exact le_refl _
        · exact hsorted i (i + j) hi (by omega) (by omega)
      exact hlt (hij.trans hle)
    have htake : (l.take i).countP (· ≤ t) ≤ i :=
      List.countP_le_length.trans (List.length_take_le i l)
    rw [← List.take_append_drop i l, List.countP_append] at hcount
    omega
  · intro hle
    have htake : (l.take (i + 1)).countP (· ≤ t) = (l.take (i + 1)).length := by
      refine List.countP_eq_length.mpr fun a ha => decide_eq_true ?_
      obtain ⟨j, hj, rfl⟩ := List.getElem_of_mem ha
      rw [List.length_take] at hj
      rw [List.getElem_take]
      have hji : l[j] ≤ l[i] := by
        rcases Nat.lt_or_ge j i with hlt | hge
        · exact hsorted j i (by omega) hi hlt
        · have hsame : j = i := by omega
          subst hsame
          exact le_refl _
      exact hji.trans hle
    have hsub : (l.take (i + 1)).countP (· ≤ t) ≤ l.countP (· ≤ t) :=
      (List.take_sublist (i + 1) l).countP_le
    rw [List.length_take] at htake
    omega

/-- The entry at a place of the sorted list is at or below a bound if enough entries are. -/
theorem getD_mergeSort_le_iff (hi : i < l.length) (d : α) :
    (l.mergeSort).getD i d ≤ t ↔ i < l.countP (· ≤ t) := by
  have hsorted : (l.mergeSort).Pairwise (· ≤ ·) := List.pairwise_mergeSort' (· ≤ ·) l
  have hlength : i < (l.mergeSort).length := by rwa [List.length_mergeSort]
  rw [List.getD_eq_getElem?_getD, List.getElem?_eq_getElem hlength, Option.getD_some,
    ← lt_countP_iff_of_sorted hsorted hlength,
    (List.mergeSort_perm l _).countP_eq]

end Kuma.Lib.Rank
