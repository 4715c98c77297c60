import Kuma.Lib.Text
import Kuma.Sync.Commands
import Mathlib.Data.Finset.Card

/-! What this machine has installed, and what of it convergence owns, as the verbs that report
it read it. Where the source keeps ordered sets, order is only shown and plays no part. -/
namespace Kuma.Sync.Inventory
open Kuma.Lib

/-- The lines of a text, trimmed, without the empty ones. What else `lines` cuts off a line,
`trim` cuts off too. -/
def toSet (text : String) : Finset String :=
  (((text.toList.splitOn '\n').map fun line => String.ofList (Text.trim line)).filter
    fun line => line ≠ "").toFinset

def shortSet (text : String) : Finset String := (toSet text).image short

/-- An observation of the machine; what could not be asked is `none`. -/
structure Machine where
  flatpakSystem : Option (Finset String)
  flatpakUser : Finset String
  flatpakState : Finset String
  brewInstalled : Option (Finset String)
  brewLeaves : Finset String
  brewState : Finset String

/-- What convergence would take back, by its record and a declaration. -/
def Machine.convergenceRemoves (machine : Machine) (list : Manager) (item : String)
    (declared : Finset String) : Bool :=
  let ours := match list with
    | .flatpak => machine.flatpakState
    | .brew => machine.brewState
  decide (item ∈ ours) && decide (item ∉ declared)

/-- An undeclared item, which `capture` offers to keep. -/
structure Candidate where
  list : Manager
  item : String
  doomed : Bool
  promotes : Bool
  deriving DecidableEq

def candidates (flatpak brew : Finset String) (machine : Machine) : Finset Candidate :=
  let system := (machine.flatpakSystem.getD ∅).filter fun app => app ∉ flatpak
  let formulae := ((machine.brewInstalled.getD ∅).filter fun f => f ∉ brew).filter fun f =>
    machine.convergenceRemoves .brew f brew || decide (f ∈ machine.brewLeaves)
  let users := machine.flatpakUser.filter fun app =>
    app ∉ flatpak ∧ ¬ (machine.flatpakSystem.any fun s => decide (app ∈ s)) = true
  system.image (fun app =>
      ⟨.flatpak, app, machine.convergenceRemoves .flatpak app flatpak, false⟩) ∪
    formulae.image (fun f => ⟨.brew, f, machine.convergenceRemoves .brew f brew, false⟩) ∪
    users.image fun app => ⟨.flatpak, app, false, true⟩

structure DiffEntry where
  change : String
  item : String
  note : String
  deriving DecidableEq

/-- One list's section of `kuma diff`; `none` is skipped. -/
def diffSection (list : Manager) (removal : String) (declared : Finset String)
    (observed : Option (Finset String)) (found : Finset Candidate) : Option (Finset DiffEntry) :=
  observed.map fun installed =>
    (declared.filter fun item => item ∉ installed).image
        (fun item => ⟨"add", item, "declared, not installed (convergence installs it)"⟩) ∪
      (found.filter fun c => c.list = list ∧ c.doomed = true).image
        fun c => ⟨"remove", c.item, removal⟩

def diffFlatpak (flatpak brew : Finset String) (machine : Machine) : Option (Finset DiffEntry) :=
  diffSection .flatpak "installed, not declared (convergence removes it)" flatpak
    machine.flatpakSystem (candidates flatpak brew machine)

/-- The brew section is empty, not skipped, where nothing is declared and brew is missing. -/
def diffBrew (there : Bool) (flatpak brew : Finset String) (machine : Machine) :
    Option (Finset DiffEntry) :=
  if brew ≠ ∅ ∨ there = true then
    diffSection .brew "no longer declared (convergence removes it)" brew machine.brewInstalled
      (candidates flatpak brew machine)
  else some ∅

def diff (there : Bool) (flatpak brew : Finset String) (machine : Machine) :
    Manager → Option (Finset DiffEntry)
  | .flatpak => diffFlatpak flatpak brew machine
  | .brew => diffBrew there flatpak brew machine

def count (n : ℕ) (what : String) (drift : List String) : List String :=
  if 0 < n then drift ++ [toString n ++ " " ++ what] else drift

/-- One list's share of the probe: what is to install and to remove. -/
def toInstall (declared installed : Finset String) : ℕ :=
  (declared.filter fun item => item ∉ installed).card

def toRemove (machine : Machine) (list : Manager) (declared installed : Finset String) : ℕ :=
  (installed.filter fun item => machine.convergenceRemoves list item declared = true).card

/-- The drift that the probe reports against the lists baked in the image. -/
def observeMachine (bakedFlatpaks bakedBrews : Option String) (machine : Machine) :
    List String :=
  let drift := match bakedFlatpaks, machine.flatpakSystem with
    | some baked, some installed =>
      let declared := toSet baked
      count (toRemove machine .flatpak declared installed) "flatpak(s) to remove"
        (count (toInstall declared installed) "flatpak(s) to install" [])
    | _, _ => []
  match bakedBrews, machine.brewInstalled with
  | some baked, some installed =>
    let declared := shortSet baked
    count (toRemove machine .brew declared installed) "brew formula(e) to remove"
      (count (toInstall declared installed) "brew formula(e) to install" drift)
  | _, _ => drift

section
variable {list : Manager} {removal : String} {declared installed : Finset String}
  {found : Finset Candidate}

/-- What a section says to add. -/
theorem diffSection_adds :
    (((diffSection list removal declared (some installed) found).getD ∅).filter
      fun e => e.change = "add").image (fun e => e.item) = declared.filter fun item =>
        item ∉ installed := by
  ext item
  simp only [diffSection, Option.map_some, Option.getD_some, Finset.mem_image, Finset.mem_filter,
    Finset.mem_union]
  constructor
  · rintro ⟨e, ⟨⟨other, hother, rfl⟩ | ⟨c, -, rfl⟩, hchange⟩, rfl⟩
    · exact hother
    · simp at hchange
  · intro hitem
    exact ⟨⟨"add", item, _⟩, ⟨.inl ⟨item, hitem, rfl⟩, rfl⟩, rfl⟩

/-- What a section says to remove: the doomed. -/
theorem diffSection_removes :
    (((diffSection list removal declared (some installed) found).getD ∅).filter
      fun e => e.change = "remove").image (fun e => e.item) =
        (found.filter fun c => c.list = list ∧ c.doomed = true).image fun c => c.item := by
  ext item
  simp only [diffSection, Option.map_some, Option.getD_some, Finset.mem_image, Finset.mem_filter,
    Finset.mem_union]
  constructor
  · rintro ⟨e, ⟨⟨other, -, rfl⟩ | ⟨c, hc, rfl⟩, hchange⟩, rfl⟩
    · simp at hchange
    · exact ⟨c, hc, rfl⟩
  · rintro ⟨c, hc, rfl⟩
    exact ⟨⟨"remove", c.item, removal⟩, ⟨.inr ⟨c, hc, rfl⟩, rfl⟩, rfl⟩

end

/-- The probe is silent when there is nothing to count. -/
theorem count_eq_nil {n : ℕ} {what : String} {drift : List String} :
    count n what drift = [] ↔ n = 0 ∧ drift = [] := by
  unfold count
  split_ifs with hn
  · have hne : n ≠ 0 := by omega
    simp [hne]
  · have hzero : n = 0 := by omega
    simp [hzero]

end Kuma.Sync.Inventory
