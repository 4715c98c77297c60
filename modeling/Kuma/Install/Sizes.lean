import Kuma.Lib.Fallible
import Kuma.Lib.Saturating
import Kuma.Lib.Text

/-! Sizes as somebody types them, in mebibytes: the two that an install can name, and the
swapfile's. Every size is read by one function, which stops at the end of `u64`. -/
namespace Kuma.Install
open Kuma.Lib Kuma.Lib.Text

/-- Why a typed size is refused. -/
inductive SizeFault
  | noUnit (what text : String)
  | notANumber (what text : String)
  | declined (what : String)
  | belowFloor (what : String) (floorMib : UInt64) (why : String)
  | noHibernate (text : String) (mib : UInt64)
  deriving DecidableEq

/-- The unit a lowercase size ends in, in mebibytes, and what stands before it. -/
def splitUnit (lower : List Char) : Option (List Char × UInt64) :=
  match (stripSuffix "gib".toList lower).or (stripSuffix ['g'] lower) with
  | some rest => some (rest, 1024)
  | none =>
    match (stripSuffix "mib".toList lower).or (stripSuffix ['m'] lower) with
    | some rest => some (rest, 1)
    | none => none

/-- `parse_mib`: `none` for the words that decline. -/
def parseMib (text what : String) : Except SizeFault (Option UInt64) :=
  let trimmed := trim text.toList
  let lower := trimmed.map Char.toLower
  if lower ∈ ["none", "no", "off", "0"].map String.toList then .ok none
  else match splitUnit lower with
    | none => .error (.noUnit what (String.ofList trimmed))
    | some (digits, perUnit) =>
      match parseUnsigned (2 ^ 64) (trim digits) with
      | some count => .ok (some (saturatingMul (UInt64.ofNat count) perUnit))
      | none => .error (.notANumber what (String.ofList trimmed))

/-- Below this a swapfile holds no image. -/
def MIN_MIB : UInt64 := 1024

/-- `parse_size`. -/
def parseSize (text : String) : Except SizeFault (Option UInt64) := do
  match ← parseMib text "swap" with
  | none => return none
  | some mib => if mib < MIN_MIB then .error (.noHibernate text mib) else return some mib

def ESP_MIB : UInt64 := 600
def BOOT_MIB : UInt64 := 2048
def MIN_ESP_MIB : UInt64 := 256
def MIN_BOOT_MIB : UInt64 := 1024

def ESP_FLOOR_WHY : String :=
  "shim, grub and their fonts are tens of megabytes before a single kernel's loader lands in " ++
    "it, and the machine that runs out is the one that cannot boot an update"

def BOOT_FLOOR_WHY : String :=
  "an ostree machine keeps a kernel per deployment, and a full /boot is how an update fails at " ++
    "the last moment"

/-- The two sizes that an install can name. -/
structure Sizes where
  espMib : UInt64
  bootMib : UInt64
  deriving DecidableEq

def Sizes.default : Sizes := ⟨ESP_MIB, BOOT_MIB⟩

def resolveOne (text what : String) (floorMib : UInt64) (why : String) :
    Except SizeFault UInt64 := do
  match ← parseMib text what with
  | none => .error (.declined what)
  | some mib => if mib < floorMib then .error (.belowFloor what floorMib why) else return mib

inductive Which
  | esp
  | boot

def resolveSize (text : String) : Which → Except SizeFault UInt64
  | .esp => resolveOne text "ESP" MIN_ESP_MIB ESP_FLOOR_WHY
  | .boot => resolveOne text "/boot" MIN_BOOT_MIB BOOT_FLOOR_WHY

/-- `resolve_sizes`: what is not named takes its default. -/
def resolveSizes (esp boot : Option String) : Except SizeFault Sizes := do
  let espMib ← esp.elim (.ok ESP_MIB) (resolveSize · .esp)
  let bootMib ← boot.elim (.ok BOOT_MIB) (resolveSize · .boot)
  return ⟨espMib, bootMib⟩

theorem resolveOne_floor {text what why : String} {floorMib mib : UInt64}
    (h : resolveOne text what floorMib why = .ok mib) : floorMib ≤ mib := by
  obtain ⟨read, -, h⟩ := bind_eq_ok.mp h
  cases read with
  | none => cases h
  | some count =>
    simp only at h
    split_ifs at h with hbelow
    cases h
    exact UInt64.not_lt.mp hbelow

/-- What is resolved clears both floors, and the defaults do. -/
theorem resolveSizes_floor {esp boot : Option String} {sizes : Sizes}
    (h : resolveSizes esp boot = .ok sizes) :
    MIN_ESP_MIB ≤ sizes.espMib ∧ MIN_BOOT_MIB ≤ sizes.bootMib := by
  obtain ⟨espMib, hesp, h⟩ := bind_eq_ok.mp h
  obtain ⟨bootMib, hboot, h⟩ := bind_eq_ok.mp h
  cases h
  constructor
  · cases esp with
    | none =>
      cases hesp
      have hdefault : MIN_ESP_MIB ≤ ESP_MIB := by decide
      exact hdefault
    | some text => exact resolveOne_floor hesp
  · cases boot with
    | none =>
      cases hboot
      have hdefault : MIN_BOOT_MIB ≤ BOOT_MIB := by decide
      exact hdefault
    | some text => exact resolveOne_floor hboot

end Kuma.Install
