import Kuma.Lib.Text
import Mathlib.Logic.Function.Basic

/-! A shell's variables: what they hold, which of them its commands are given, and what an
assignment and an `export` make of them. -/
namespace Kuma.Lib
open Text

/-- A variable's name: letters, digits and underscores, and no digit first. -/
def isName (name : List Char) : Bool :=
  name.head?.any (fun c => c.isAlpha || c == '_') && name.all fun c => c.isAlphanum || c == '_'

theorem chars_of_isName {name : List Char} (h : isName name = true) :
    ∀ c ∈ name, c.isAlphanum = true ∨ c = '_' := by
  unfold isName at h
  rw [Bool.and_eq_true, List.all_eq_true] at h
  intro c hc
  simpa using h.2 c hc

/-- A text as a shell reads it: without its NULs. -/
def withoutNul (text : List Char) : List Char := text.filter (· ≠ '\x00')

theorem withoutNul_append (a b : List Char) :
    withoutNul (a ++ b) = withoutNul a ++ withoutNul b := List.filter_append ..

theorem withoutNul_cons {c : Char} (h : c ≠ '\x00') (text : List Char) :
    withoutNul (c :: text) = c :: withoutNul text :=
  List.filter_cons_of_pos (by simpa using h)

theorem withoutNul_eq_self_iff {text : List Char} : withoutNul text = text ↔ '\x00' ∉ text := by
  unfold withoutNul
  rw [List.filter_eq_self]
  constructor
  · intro h hmem
    simpa using h _ hmem
  · intro h c hc
    simpa using ne_of_mem_of_not_mem hc h

theorem withoutNul_of_isName {name : List Char} (h : isName name = true) :
    withoutNul name = name := by
  rw [withoutNul_eq_self_iff]
  intro hmem
  exact absurd (chars_of_isName h _ hmem) (by decide)

/-- Variables by name: no other word has a value. -/
structure Variables where
  value : List Char → Option (List Char)
  exported : List Char → Bool
  named : ∀ name, (value name).isSome → isName name = true

/-- A shell: the variables that it lets nobody set, and the words its `export` takes for
options, with which it sets nothing. -/
structure Shell where
  readonly : List Char → Bool
  options : List Char → Bool

namespace Variables

/-- What a command is given. -/
def environment (vars : Variables) (name : List Char) : Option (List Char) :=
  if vars.exported name then vars.value name else none

def assign (vars : Variables) (name value : List Char) (h : isName name = true) : Variables where
  value := Function.update vars.value name (some value)
  exported := vars.exported
  named := by
    intro other hother
    by_cases hname : other = name
    · rw [hname]
      exact h
    · rw [Function.update_of_ne hname] at hother
      exact vars.named other hother

def mark (vars : Variables) (name : List Char) : Variables :=
  { vars with exported := Function.update vars.exported name true }

variable {vars : Variables} {name value other : List Char} {h : isName name = true}

@[simp] theorem value_assign :
    (vars.assign name value h).value = Function.update vars.value name (some value) := rfl

@[simp] theorem exported_assign : (vars.assign name value h).exported = vars.exported := rfl

@[simp] theorem value_mark : (vars.mark name).value = vars.value := rfl

@[simp] theorem exported_mark :
    (vars.mark name).exported = Function.update vars.exported name true := rfl

theorem value_of_not_isName (h : isName name = false) : vars.value name = none := by
  by_contra hsome
  rw [vars.named name (Option.isSome_iff_ne_none.mpr hsome)] at h
  cases h

theorem environment_of_not_isName (h : isName name = false) : vars.environment name = none := by
  unfold environment
  rw [value_of_not_isName h, ite_self]

end Variables

namespace Shell

/-- `name=value`. -/
def assign (sh : Shell) (name value : List Char) (vars : Variables) : Option Variables :=
  if h : isName name = true ∧ sh.readonly name = false then some (vars.assign name value h.1)
  else none

/-- `export` with one word. -/
def exportWord (sh : Shell) (word : List Char) (vars : Variables) : Option Variables :=
  if word.head? = some '-' ∧ sh.options word then some vars
  else match splitOnce '=' word with
    | some (name, value) => (sh.assign name value vars).map fun vars => vars.mark name
    | none => if isName word then some (vars.mark word) else none

/-- The names that bash holds readonly. -/
def BASH_READONLY : List String :=
  ["BASHOPTS", "BASH_VERSINFO", "EUID", "PPID", "SHELLOPTS", "UID"]

/-- bash, also where it is the `sh`. -/
def bash : Shell where
  readonly name := (BASH_READONLY.map String.toList).contains name
  options word := word.length ≥ 2 && (word == ['-', '-'] || word.tail.all ['f', 'n', 'p'].contains)

variable {sh : Shell} {vars after : Variables} {name value word other : List Char}

theorem assign_eq_some : sh.assign name value vars = some after ↔
    ∃ h : isName name = true, sh.readonly name = false ∧ vars.assign name value h = after := by
  unfold assign
  constructor
  · intro hsome
    split_ifs at hsome with h
    exact ⟨h.1, h.2, Option.some.inj hsome⟩
  · rintro ⟨h, hreadonly, rfl⟩
    rw [dif_pos ⟨h, hreadonly⟩]

/-- A word of an `export` names the part before its first `=`. -/
def nameOf (word : List Char) : List Char := ((splitOnce '=' word).map Prod.fst).getD word

/-- The value that a word gives a variable. -/
def valueFor (name word : List Char) : Option (List Char) :=
  (splitOnce '=' word).bind fun p => if p.1 = name then some p.2 else none

/-- The words that `export` takes. -/
def Exports (sh : Shell) (word : List Char) : Prop :=
  (word.head? = some '-' ∧ sh.options word = true) ∨
    (isName (nameOf word) = true ∧ ('=' ∈ word → sh.readonly (nameOf word) = false))

theorem nameOf_of_split {p : List Char × List Char} (h : splitOnce '=' word = some p) :
    nameOf word = p.1 := by
  unfold nameOf
  rw [h]
  rfl

theorem nameOf_of_notMem (h : '=' ∉ word) : nameOf word = word := by
  unfold nameOf
  rw [splitOnce_eq_none.mpr h]
  rfl

theorem valueFor_of_notMem (h : '=' ∉ word) : valueFor name word = none := by
  unfold valueFor
  rw [splitOnce_eq_none.mpr h]
  rfl

theorem valueFor_eq_some :
    valueFor name word = some value ↔ splitOnce '=' word = some (name, value) := by
  unfold valueFor
  rw [Option.bind_eq_some_iff]
  constructor
  · rintro ⟨⟨k, v⟩, hsplit, hv⟩
    split_ifs at hv with hk
    simp only [Option.some.injEq] at hv hk
    rw [hsplit, hk, hv]
  · intro hsplit
    exact ⟨_, hsplit, if_pos rfl⟩

theorem nameOf_of_valueFor (h : valueFor name word = some value) : nameOf word = name :=
  nameOf_of_split (valueFor_eq_some.mp h)

/-- An option names no variable. -/
theorem isName_nameOf_of_dash (h : word.head? = some '-') : isName (nameOf word) = false := by
  obtain ⟨rest, rfl⟩ := List.head?_eq_some_iff.mp h
  have hname : (nameOf ('-' :: rest)).head? = some '-' := by
    unfold nameOf splitOnce
    rw [if_neg (by decide)]
    cases splitOnce '=' rest <;> rfl
  unfold isName
  rw [hname]
  rfl

theorem exportWord_isSome_iff : (sh.exportWord word vars).isSome ↔ sh.Exports word := by
  unfold exportWord Exports
  by_cases hoption : word.head? = some '-' ∧ sh.options word = true
  · rw [if_pos hoption]
    simp [hoption]
  · rw [if_neg hoption, or_iff_right hoption]
    cases hsplit : splitOnce '=' word with
    | some p =>
      have hmem : '=' ∈ word := by
        by_contra hnot
        rw [splitOnce_eq_none.mpr hnot] at hsplit
        cases hsplit
      rw [nameOf_of_split hsplit]
      simp only [Option.isSome_map, hmem, true_imp_iff]
      unfold assign
      split_ifs with h
      · simp [h]
      · simpa using h
    | none =>
      have hmem := splitOnce_eq_none.mp hsplit
      rw [nameOf_of_notMem hmem]
      simp only
      split_ifs with h
      · simp [h, hmem]
      · simp [h]

/-- What an `export` leaves in a variable, and which it has marked. -/
theorem exportWord_spec (h : sh.exportWord word vars = some after) (hname : isName name = true) :
    after.value name = (valueFor name word).or (vars.value name) ∧
      after.exported name = (vars.exported name || decide (nameOf word = name)) := by
  unfold exportWord at h
  by_cases hoption : word.head? = some '-' ∧ sh.options word = true
  · rw [if_pos hoption] at h
    obtain rfl := Option.some.inj h
    have hne : nameOf word ≠ name := by
      intro hsame
      have hnot := isName_nameOf_of_dash hoption.1
      rw [hsame, hname] at hnot
      cases hnot
    have hnone : valueFor name word = none := by
      rw [Option.eq_none_iff_forall_ne_some]
      intro value hvalue
      exact hne (nameOf_of_valueFor hvalue)
    simp [hne, hnone]
  · rw [if_neg hoption] at h
    cases hsplit : splitOnce '=' word with
    | some p =>
      rw [hsplit] at h
      obtain ⟨vars', hassign, rfl⟩ := Option.map_eq_some_iff.mp h
      obtain ⟨hvalid, -, rfl⟩ := assign_eq_some.mp hassign
      unfold valueFor
      rw [hsplit, nameOf_of_split hsplit]
      by_cases hp : p.1 = name
      · simp [hp]
      · simp [hp, Function.update_of_ne (Ne.symm hp)]
    | none =>
      rw [hsplit] at h
      simp only at h
      split_ifs at h
      obtain rfl := Option.some.inj h
      have hmem := splitOnce_eq_none.mp hsplit
      rw [valueFor_of_notMem hmem, nameOf_of_notMem hmem]
      by_cases hp : word = name
      · simp [hp]
      · simp [hp, Function.update_of_ne (Ne.symm hp)]

end Shell
end Kuma.Lib
