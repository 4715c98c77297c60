import Kuma.Lib.Lines
import Kuma.Lib.Text
import Mathlib.Data.Finset.Basic
import Mathlib.Data.Finset.Image

/-! The application lists of a declaration, and what its image bakes of them. -/
namespace Kuma.Sync
open Kuma.Lib

/-- What is wrong with a name, with the field it stands in. -/
inductive NameFault
  | empty (field : String)
  | option (field value : String)
  | nameless (field value : String)
  | unsupported (field value : String) (ch : Char)
  deriving DecidableEq

/-- A leading dash would make an option of the name, and punctuation alone is none. -/
def validateName (value field : String) (extra : List Char) : Except NameFault Unit :=
  if value = "" then .error (.empty field)
  else if value.toList.head? = some '-' then .error (.option field value)
  else if !value.toList.any Char.isAlphanum then .error (.nameless field value)
  else match value.toList.find? fun ch => !ch.isAlphanum && !extra.contains ch with
    | some ch => .error (.unsupported field value ch)
    | none => .ok ()

/-- What a name that passed the check is made of. -/
theorem chars_of_validateName {value field : String} {extra : List Char}
    (h : validateName value field extra = .ok ()) :
    value ≠ "" ∧ ∀ ch ∈ value.toList, ch.isAlphanum = true ∨ ch ∈ extra := by
  unfold validateName at h
  split_ifs at h with hempty hdash hnameless
  refine ⟨hempty, fun ch hch => ?_⟩
  split at h
  · cases h
  · next hnone =>
    have hch := List.find?_eq_none.mp hnone ch hch
    by_cases halnum : ch.isAlphanum = true
    · exact .inl halnum
    · exact .inr (by simpa [halnum] using hch)

inductive Desktop
  | none
  | niri
  | cosmic
  deriving DecidableEq

/-- The package managers whose lists a sync script converges. -/
inductive Manager
  | flatpak
  | brew
  deriving DecidableEq

namespace Manager

/-- The list's field and the punctuation its names may hold. -/
def field : Manager → String
  | .flatpak => "packages.flatpak"
  | .brew => "packages.brew"

def extra : Manager → List Char
  | .flatpak => ['.', '-', '_']
  | .brew => ['.', '-', '_', '+', '@', '/']

def ValidName (m : Manager) (name : String) : Prop :=
  validateName name m.field m.extra = .ok ()

instance (m : Manager) (name : String) : Decidable (m.ValidName name) := by
  unfold ValidName
  infer_instance

theorem validName_nil (m : Manager) : ∀ name ∈ [], m.ValidName name := List.forall_mem_nil _

end Manager

/-- The keys of a declaration that the two blocks read. The lists have passed the check. -/
structure Declaration where
  desktop : Desktop
  systemBrew : Bool
  flatpak : List String
  brew : List String
  flatpak_valid : ∀ app ∈ flatpak, Manager.flatpak.ValidName app
  brew_valid : ∀ formula ∈ brew, Manager.brew.ValidName formula

namespace Declaration

def list (d : Declaration) : Manager → List String
  | .flatpak => d.flatpak
  | .brew => d.brew

def wantsFlatpak (d : Declaration) : Bool := d.desktop != .none || !d.flatpak.isEmpty

def wantsBrew (d : Declaration) : Bool := d.systemBrew || !d.brew.isEmpty

/-- Whether the image ships the block of a manager. -/
def ships (d : Declaration) : Manager → Bool
  | .flatpak => d.wantsFlatpak
  | .brew => d.wantsBrew

theorem list_valid (d : Declaration) (m : Manager) : ∀ name ∈ d.list m, m.ValidName name := by
  cases m with
  | flatpak => exact d.flatpak_valid
  | brew => exact d.brew_valid

/-- A list that names anything is shipped. -/
theorem list_of_not_ships {d : Declaration} {m : Manager} (h : d.ships m = false) :
    d.list m = [] := by
  cases m with
  | flatpak =>
    simp only [ships, wantsFlatpak, Bool.or_eq_false_iff, Bool.not_eq_false'] at h
    exact List.isEmpty_iff.mp h.2
  | brew =>
    simp only [ships, wantsBrew, Bool.or_eq_false_iff, Bool.not_eq_false'] at h
    exact List.isEmpty_iff.mp h.2

end Declaration

/-- A list as it is baked: names that have passed the check. -/
structure Baked (m : Manager) where
  names : List String
  valid : ∀ name ∈ names, m.ValidName name

/-- The list the image holds, when it ships the block. -/
def Declaration.bakes (d : Declaration) (m : Manager) : Option (Baked m) :=
  if d.ships m then some ⟨d.list m, d.list_valid m⟩ else none

theorem Declaration.names_bakes (d : Declaration) (m : Manager) :
    ((d.bakes m).map Baked.names).getD [] = d.list m := by
  unfold bakes
  cases hships : d.ships m with
  | true => rfl
  | false => exact (list_of_not_ships hships).symm

/-- `/usr/lib/kuma/flatpaks` and `/usr/lib/kuma/brews`. -/
def Baked.text {m : Manager} (list : Baked m) : String := Lines.unlines list.names

/-- The last segment of a name, which is what a tapped formula installs under. -/
def short (name : String) : String := String.ofList ((name.toList.splitOn '/').getLast?.getD [])

theorem slash_notMem_short (name : String) : '/' ∉ (short name).toList := by
  rw [short, String.toList_ofList]
  cases hlast : (name.toList.splitOn '/').getLast? with
  | none => simp
  | some piece => exact Lines.notMem_of_mem_splitOn (List.mem_of_getLast? hlast)

theorem short_of_slash_notMem {name : String} (h : '/' ∉ name.toList) : short name = name := by
  rw [short, List.splitOn_eq_singleton h]
  simp

/-- What the manager calls the application that a name installs. -/
def Manager.rack : Manager → String → String
  | .flatpak, name => name
  | .brew, name => short name

/-- The applications a list of names is about. -/
def Manager.racks (m : Manager) (names : List String) : Finset String :=
  (names.map m.rack).toFinset

/-- What an application is called is a name of it. -/
@[simp] theorem Manager.rack_rack (m : Manager) (name : String) :
    m.rack (m.rack name) = m.rack name := by
  cases m with
  | flatpak => rfl
  | brew => exact short_of_slash_notMem (slash_notMem_short name)

section
variable {m : Manager} {name app : String} {names : List String}

theorem Manager.mem_racks : app ∈ m.racks names ↔ ∃ name ∈ names, m.rack name = app := by
  simp [racks]

theorem Manager.mem_racks_of_mem (h : name ∈ names) : m.rack name ∈ m.racks names :=
  mem_racks.mpr ⟨name, h, rfl⟩

/-- A valid name stands on a line of its own, without blanks. -/
theorem Manager.ValidName.chars (h : m.ValidName name) :
    name ≠ "" ∧ ∀ ch ∈ name.toList, ch.isAlphanum = true ∨ ch ∈ m.extra :=
  chars_of_validateName h

theorem Manager.ValidName.isLine (h : m.ValidName name) : Lines.IsLine name := by
  refine ⟨h.chars.1, fun hmem => ?_⟩
  rcases h.chars.2 _ hmem with hch | hch
  · revert hch
    decide
  · revert hch
    cases m <;> decide

theorem Baked.completeLines_text (list : Baked m) : Lines.completeLines list.text = list.names :=
  Lines.completeLines_unlines fun name hname => (list.valid name hname).isLine

theorem Manager.ValidName.not_blank {name : String} (h : m.ValidName name) :
    ∀ c ∈ name.toList, Lines.isBlank c = false := by
  intro c hc
  by_contra hblank
  have hwhich : c = ' ' ∨ c = '\t' := by
    simpa [Lines.isBlank, or_iff_not_imp_left] using hblank
  have hchar := h.chars.2 c hc
  rcases hwhich with rfl | rfl
  · revert hchar
    cases m <;> decide
  · revert hchar
    cases m <;> decide

theorem Manager.ValidName.not_whiteSpace {name : String} (h : m.ValidName name) :
    ∀ c ∈ name.toList, Text.isWhiteSpace c = false := by
  intro c hc
  rcases h.chars.2 c hc with halnum | hextra
  · exact Text.isWhiteSpace_of_isAlphanum halnum
  · have hall : ∀ m : Manager, (m.extra.all fun ch => !Text.isWhiteSpace ch) = true := by
      intro m
      cases m with
      | flatpak => decide
      | brew => decide
    have hextra := List.all_eq_true.mp (hall m) c hextra
    simpa using hextra

/-- What a run copied is what the next one reads. -/
theorem Baked.readLines_text (list : Baked m) : Lines.readLines list.text = list.names := by
  have htrim : ∀ name ∈ list.names, Lines.trimBlanks name = name := fun name hname =>
    Lines.trimBlanks_of_not_blank (list.valid name hname).not_blank
  rw [Lines.readLines, list.completeLines_text, List.map_congr_left htrim, List.map_id']

end
end Kuma.Sync
