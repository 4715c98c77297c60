import Mathlib.Algebra.Order.Ring.Nat
import Mathlib.Tactic.SplitIfs

/-! The arithmetic of `u64` that stops at the ends of the type, and where the plain sum wraps. -/
namespace Kuma.Lib

variable {a b : UInt64}

/-- `u64::saturating_sub`. -/
def saturatingSub (a b : UInt64) : UInt64 := if b ≤ a then a - b else 0

/-- `u64::saturating_mul`. -/
def saturatingMul (a b : UInt64) : UInt64 :=
  if a.toNat * b.toNat < 2 ^ 64 then a * b else UInt64.ofNat (2 ^ 64 - 1)

theorem toNat_saturatingSub (a b : UInt64) : (saturatingSub a b).toNat = a.toNat - b.toNat := by
  unfold saturatingSub
  split_ifs with hle
  · exact UInt64.toNat_sub_of_le _ _ hle
  · have hlt : a.toNat < b.toNat := UInt64.lt_iff_toNat_lt.mp (UInt64.not_le.mp hle)
    have hzero : (0 : UInt64).toNat = 0 := rfl
    omega

/-- The sum of the two is within the type. -/
def SumFits (a b : UInt64) : Prop := a.toNat + b.toNat < 2 ^ 64

instance decidableSumFits (a b : UInt64) : Decidable (SumFits a b) :=
  inferInstanceAs (Decidable (a.toNat + b.toNat < 2 ^ 64))

theorem SumFits.toNat_add (h : SumFits a b) : (a + b).toNat = a.toNat + b.toNat := by
  rw [UInt64.toNat_add, Nat.mod_eq_of_lt h]

end Kuma.Lib
