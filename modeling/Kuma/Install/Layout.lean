import Kuma.Install.Sizes

/-! The layout of an installed disk: three partitions, the floor that the disk has to clear
for them, and what a swapfile may take from what is left. The sums are the plain ones of
`u64`, which wrap in a release build. -/
namespace Kuma.Install
open Kuma.Lib

def MIN_DISK_GIB : UInt64 := 16

/-- The smallest root that still holds a system. -/
def MIN_ROOT_MIB : UInt64 := MIN_DISK_GIB * 1024 - ESP_MIB - BOOT_MIB

structure Partition where
  label : String
  /-- `none` is the rest of the disk. -/
  sizeMib : Option UInt64
  typeCode : String
  purpose : String
  deriving DecidableEq

/-- The refusal names the sizes that it was computed from. -/
structure TooSmall where
  diskBytes : UInt64
  espMib : UInt64
  bootMib : UInt64
  minimumMib : UInt64
  deriving DecidableEq

def diskMib (diskBytes : UInt64) : UInt64 := diskBytes / (1024 * 1024)

/-- What the disk has to clear, as `plan` and `spare_mib` both add it up. -/
def minimumMib (sizes : Sizes) : UInt64 := MIN_ROOT_MIB + sizes.espMib + sizes.bootMib

def plan (diskBytes : UInt64) (encrypt : Bool) (sizes : Sizes) :
    Except TooSmall (List Partition) :=
  if diskMib diskBytes < minimumMib sizes then
    .error ⟨diskBytes, sizes.espMib, sizes.bootMib, minimumMib sizes⟩
  else .ok [
    ⟨"EFI-SYSTEM", some sizes.espMib, "uefi", "bootloader, read by the firmware"⟩,
    ⟨"boot", some sizes.bootMib, "linux", "kernels and initramfs, outside any encryption"⟩,
    ⟨"root", none, "linux", if encrypt then "LUKS, holding a btrfs root" else "btrfs root"⟩]

def spareMib (diskMib : UInt64) (sizes : Sizes) : UInt64 :=
  saturatingSub diskMib (minimumMib sizes)

/-- Why a swapfile of a size is not written. -/
structure DoesNotFit where
  sizeMib : UInt64
  spareMib : UInt64
  spareIs : String
  deriving DecidableEq

def SPARE_AT_INSTALL : String := "once the ESP, /boot and a minimum system are accounted for"

def objections (sizeMib spareMib : UInt64) (spareIs : String) : List DoesNotFit :=
  if sizeMib > spareMib then [⟨sizeMib, spareMib, spareIs⟩] else []

variable {diskBytes : UInt64} {encrypt : Bool} {sizes : Sizes}

/-- The least disk that the two sizes leave room on, as an unbounded sum. -/
def leastDisk (sizes : Sizes) : ℕ :=
  MIN_ROOT_MIB.toNat + sizes.espMib.toNat + sizes.bootMib.toNat

/-- Neither addition of the minimum leaves the type. -/
def NoSumWraps (sizes : Sizes) : Prop :=
  SumFits MIN_ROOT_MIB sizes.espMib ∧ SumFits (MIN_ROOT_MIB + sizes.espMib) sizes.bootMib

instance decidableNoSumWraps (sizes : Sizes) : Decidable (NoSumWraps sizes) :=
  inferInstanceAs (Decidable (_ ∧ _))

theorem noSumWraps_iff : NoSumWraps sizes ↔ leastDisk sizes < 2 ^ 64 := by
  unfold NoSumWraps leastDisk
  constructor
  · rintro ⟨hfirst, hsecond⟩
    have hsum := hfirst.toNat_add
    unfold SumFits at hsecond
    omega
  · intro h
    have hfirst : SumFits MIN_ROOT_MIB sizes.espMib := by
      unfold SumFits
      omega
    have hsum := hfirst.toNat_add
    refine ⟨hfirst, ?_⟩
    unfold SumFits
    omega

theorem toNat_minimumMib : (minimumMib sizes).toNat = leastDisk sizes % 2 ^ 64 := by
  unfold minimumMib leastDisk
  rw [UInt64.toNat_add, UInt64.toNat_add, Nat.mod_add_mod]

/-- A disk passes when it clears the wrapped sum. -/
theorem plan_ok_iff :
    (∃ layout, plan diskBytes encrypt sizes = .ok layout) ↔
      leastDisk sizes % 2 ^ 64 ≤ (diskMib diskBytes).toNat := by
  rw [← toNat_minimumMib, ← UInt64.le_iff_toNat_le, ← UInt64.not_lt]
  unfold plan
  split_ifs with hsmall <;> simp [hsmall]

theorem objections_eq_nil_iff {sizeMib spare : UInt64} {why : String} :
    objections sizeMib spare why = [] ↔ sizeMib.toNat ≤ spare.toNat := by
  rw [← UInt64.le_iff_toNat_le, ← UInt64.not_lt]
  unfold objections
  split_ifs with hbig <;> simp_all

theorem toNat_diskMib : (diskMib diskBytes).toNat = diskBytes.toNat / (1024 * 1024) := by
  unfold diskMib
  rw [UInt64.toNat_div]
  rfl

/-- The arithmetic of one install is exact: no sum wraps, the plan succeeds when the disk
clears the unbounded sum, and what is planned and swapped onto it fits. -/
structure LayoutExact (diskBytes : UInt64) (encrypt : Bool) (sizes : Sizes) : Prop where
  noSumWraps : NoSumWraps sizes
  plan_ok : (∃ layout, plan diskBytes encrypt sizes = .ok layout) ↔
    leastDisk sizes ≤ diskBytes.toNat / (1024 * 1024)
  swap_fits : ∀ swap mib layout, parseSize swap = .ok (some mib) →
    plan diskBytes encrypt sizes = .ok layout →
    objections mib (spareMib (diskMib diskBytes) sizes) SPARE_AT_INSTALL = [] →
    leastDisk sizes + mib.toNat ≤ diskBytes.toNat / (1024 * 1024)

theorem layoutExact_of_fits (h : leastDisk sizes < 2 ^ 64) :
    LayoutExact diskBytes encrypt sizes := by
  have hplan : (∃ layout, plan diskBytes encrypt sizes = .ok layout) ↔
      leastDisk sizes ≤ diskBytes.toNat / (1024 * 1024) := by
    rw [plan_ok_iff, Nat.mod_eq_of_lt h, toNat_diskMib]
  constructor
  · exact noSumWraps_iff.mpr h
  · exact hplan
  · intro swap mib layout _ hlayout hno
    have hroom := hplan.mp ⟨layout, hlayout⟩
    have hspare := objections_eq_nil_iff.mp hno
    unfold spareMib at hspare
    rw [toNat_saturatingSub, toNat_minimumMib, Nat.mod_eq_of_lt h, toNat_diskMib] at hspare
    omega

/-- For every disk and every pair of typed sizes: the arithmetic is exact when the floor of
the root and the two sizes add up within `u64`. -/
theorem layout_exact_iff (diskBytes : UInt64) (encrypt : Bool) (esp boot : Option String) :
    (∀ sizes, resolveSizes esp boot = .ok sizes → LayoutExact diskBytes encrypt sizes) ↔
      ∀ sizes, resolveSizes esp boot = .ok sizes → leastDisk sizes < 2 ^ 64 := by
  constructor
  · intro h sizes hsizes
    exact noSumWraps_iff.mp (h sizes hsizes).noSumWraps
  · intro h sizes hsizes
    exact layoutExact_of_fits (h sizes hsizes)

/-- An ESP size whose multiplication saturates is accepted, and a 16 GiB disk passes for it. -/
theorem plan_passes_saturated_esp :
    ∃ sizes, resolveSizes (some "18014398509481984G") none = .ok sizes ∧
      (∃ layout, plan (16 * 1024 * 1024 * 1024) false sizes = .ok layout) ∧
      ¬ LayoutExact (16 * 1024 * 1024 * 1024) false sizes := by
  refine ⟨⟨UInt64.ofNat (2 ^ 64 - 1), BOOT_MIB⟩, by decide, plan_ok_iff.mpr (by decide), ?_⟩
  intro h
  have hwraps : ¬ NoSumWraps ⟨UInt64.ofNat (2 ^ 64 - 1), BOOT_MIB⟩ := by decide
  exact hwraps h.noSumWraps

end Kuma.Install
