import Kuma.Edit.Lists
import Kuma.Edit.Offers
import Kuma.Sync.Inventory
import Mathlib.Data.Finset.Sort
import Mathlib.Data.Prod.Lex
import Mathlib.Order.Lattice

/-! `kuma capture --yes`: what the machine proposes is written in two edits, the packages and then
the overrides. -/
namespace Kuma.Sync.Inventory

/-- What candidates are sorted by: urgent first, opt-in last. -/
def Candidate.rank (c : Candidate) : Bool ×ₗ Bool ×ₗ String ×ₗ String :=
  toLex (!c.doomed, toLex (c.promotes, toLex ((match c.list with
    | .flatpak => "flatpak"
    | .brew => "brew"), c.item)))

theorem Candidate.rank_injective : Function.Injective Candidate.rank := by
  rintro ⟨list, item, doomed, promotes⟩ ⟨list', item', doomed', promotes'⟩ h
  simp only [rank, toLex_inj, Prod.mk.injEq] at h
  obtain ⟨hdoomed, rfl, hlist, rfl⟩ := h
  cases list <;> cases list' <;> simp_all

instance : LinearOrder Candidate := LinearOrder.lift' Candidate.rank Candidate.rank_injective

end Kuma.Sync.Inventory

namespace Kuma.Edit
open Kuma.Lib Kuma.Inspect Kuma.Overrides Kuma.Sync

/-- Several items, each pushed onto the list that it belongs in. -/
def declare (items : List (Chars × String)) (doc : Entries) : Except EditFault Entries :=
  items.foldlM (fun doc item => editList doc item.1 (pushNew item.2)) doc

/-- What capture sees of a machine. -/
structure Observed where
  machine : Inventory.Machine
  stores : Overrides.Machine

inductive CaptureFault
  | config (fault : Config.Fault)
  | name (fault : NameFault)
  | unknown (name : String)
  | edit (fault : EditFault)
  deriving DecidableEq

def CAPTURE_NAME_CHARS : List Char := ['.', '-', '_', '+', '@', '/']

/-- `Config::load`. -/
def loadConfig (t : Toml) (file : Option Bytes) : Except CaptureFault Config :=
  match file.bind Bytes.readToString with
  | none => .error (.edit .unreadable)
  | some text =>
    match (t.parse text).bind t.read with
    | none => .error (.edit .invalid)
    | some config => (config.validate.mapError .config).map fun _ => config

def found (config : Config) (m : Observed) : List Inventory.Candidate :=
  (Inventory.candidates config.packages.flatpak.toFinset config.packages.brew.toFinset
    m.machine).sort

def listOf : Manager → Chars
  | .flatpak => "flatpak".toList
  | .brew => "brew".toList

/-- The items and the proposals that the names pick out, or all that is offered unasked. -/
def selected (config : Config) (m : Observed) (names : List String) :
    Except CaptureFault (List (Chars × String) × List Proposal) := do
  names.forM fun name => (validateName name "capture" CAPTURE_NAME_CHARS).mapError .name
  let found := found config m
  let offered := (capturable config.packages.flatpak config.overrides m.stores).1
  let proposals := if names = [] then offered else offered.filter fun p => names.contains p.app
  let candidates ← if names = [] then .ok (found.filter fun c => !c.promotes)
    else (names.filter fun name => !proposals.any (·.app = name)).mapM fun name =>
      match found.find? (·.item = name) with
      | some c => .ok c
      | none => .error (.unknown name)
  .ok (candidates.map fun c => (listOf c.list, c.item), proposals)

/-- What is to be captured into a file. -/
def selects (t : Toml) (m : Observed) (names : List String) (file : Option Bytes) :
    Except CaptureFault (List (Chars × String) × List Proposal) := do
  let config ← loadConfig t file
  selected config m names

/-- `kuma capture --yes`: the packages are written, and then the overrides into what is there by
then. The writes happen or do not. -/
def capture (t : Toml) (m : Observed) (names : List String) (file : Option Bytes)
    (first second : Bool) : Option Bytes × Except CaptureFault Unit :=
  match selects t m names file with
  | .error fault => (file, .error fault)
  | .ok (items, proposals) =>
    if items = [] ∧ proposals = [] then (file, .ok ())
    else
      match rewriteFile t (declare items) file first with
      | (left, .error fault) => (left, .error (.edit fault))
      | (left, .ok ()) =>
        if proposals = [] then (left, .ok ())
        else
          let (last, result) := rewriteFile t (declareOverrides proposals) left second
          (last, result.mapError .edit)

/-- Whether an edit would be written, as far as the declaration goes. -/
def passes (t : Toml) (edit : Entries → Except EditFault Entries) (text : Chars)
    (doc : Entries) : Bool :=
  match edit doc with
  | .ok edited => t.accepts (t.print text edited)
  | .error _ => false

def isDeclared (doc : Entries) (item : Chars × String) : Bool :=
  (listArray doc item.1).any (contains · item.2)

/-- A command that failed left the file as it was. -/
def Unchanged {ε : Type} (file : Option Bytes) (result : Option Bytes × Except ε Unit) : Prop :=
  ∀ fault, result.2 = .error fault → result.1 = file

/-- What the edits of a capture are printed as is read again. -/
structure Prints (t : Toml) (text : Chars) (doc : Entries) (items : List (Chars × String))
    (ps : List Proposal) : Prop where
  packages : ∀ edited, declare items doc = .ok edited →
    t.parse (t.print text edited) = some edited
  overrides : ∀ edited, declareOverrides ps doc = .ok edited →
    (t.parse (t.print text edited)).bind t.read = t.read edited
  both : ∀ first edited, declare items doc = .ok first → declareOverrides ps first = .ok edited →
    (t.parse (t.print (t.print text first) edited)).bind t.read = t.read edited

/-- The proposals do not come to grief behind packages that are written already: the packages
change nothing, or the proposals would be taken by the file as it was. -/
def Together (t : Toml) (m : Observed) (names : List String) (file : Option Bytes)
    (first second : Bool) : Prop :=
  ∀ text doc items ps, load t file = .ok (text, doc) → selects t m names file = .ok (items, ps) →
    ps ≠ [] → passes t (declare items) text doc = true → first = true →
      ((∀ item ∈ items, isDeclared doc item = true) ∧ t.print text doc = text) ∨
        passes t (declareOverrides ps) text doc = true ∧ second = true

section
variable {t : Toml} {text : Chars} {doc edited : Entries} {items : List (Chars × String)}
  {ps : List Proposal} {file : Option Bytes} {writes : Bool}
  {edit : Entries → Except EditFault Entries}

theorem passes_iff : passes t edit text doc = true ↔
    ∃ edited, edit doc = .ok edited ∧ t.accepts (t.print text edited) = true := by
  unfold passes
  cases hedit : edit doc with
  | error fault => simp
  | ok edited => simp

/-- An edit goes through exactly when the declaration takes it and the write happens. -/
theorem rewriteFile_ok_iff (hload : load t file = .ok (text, doc)) :
    (rewriteFile t edit file writes).2 = .ok () ↔ passes t edit text doc = true ∧ writes = true := by
  rw [passes_iff]
  constructor
  · intro h
    obtain ⟨text', doc', edited, hload', hedit, haccepts, hwrites, -⟩ := rewriteFile_ok h
    rw [hload] at hload'
    obtain ⟨rfl, rfl⟩ := Prod.mk.inj (Except.ok.inj hload')
    exact ⟨⟨edited, hedit, haccepts⟩, hwrites⟩
  · rintro ⟨⟨edited, hedit, haccepts⟩, rfl⟩
    rw [rewriteFile_of_accepts hload hedit haccepts]

theorem contains_pushNew {name other : String} {nodes : List Node} :
    contains (pushNew name nodes) other = true ↔ name = other ∨ contains nodes other = true := by
  have hnew : isNamed other (.string name.toList) = true ↔ name = other := by
    simp [isNamed, Node.str?]
  unfold pushNew
  split_ifs with hname
  · constructor
    · exact .inr
    · rintro (rfl | h)
      · exact hname
      · exact h
  · unfold contains
    rw [List.any_append, Bool.or_eq_true, List.any_cons, List.any_nil, Bool.or_false, hnew, or_comm]

/-- An item that is pushed is declared, and so is what was. -/
theorem isDeclared_push {item other : Chars × String}
    (h : editList doc item.1 (pushNew item.2) = .ok edited) :
    isDeclared edited other = true ↔ item = other ∨ isDeclared doc other = true := by
  have hedited := editedList h
  unfold isDeclared
  by_cases hlist : item.1 = other.1
  · have hsame : item = other ↔ item.2 = other.2 := by simp [Prod.ext_iff, hlist]
    rw [← hlist, hedited.here, Option.any_some, contains_pushNew, hsame]
    cases listArray doc item.1 <;> simp [contains]
  · have hne : item ≠ other := fun heq => hlist (congrArg Prod.fst heq)
    rw [hedited.lists other.1 (Ne.symm hlist), or_iff_right hne]

/-- Every item is declared by then, and the rest of the document is as it was. -/
theorem declare_spec (h : declare items doc = .ok edited) :
    (∀ item, isDeclared edited item = true ↔ item ∈ items ∨ isDeclared doc item = true) ∧
      edited.without PACKAGES = doc.without PACKAGES := by
  induction items generalizing doc with
  | nil =>
    obtain rfl : doc = edited := Except.ok.inj h
    simp
  | cons item items ih =>
    obtain ⟨next, hitem, hrest⟩ := bind_eq_ok.mp h
    obtain ⟨hdeclared, houtside⟩ := ih hrest
    refine ⟨fun other => ?_, houtside.trans (editedList hitem).outside⟩
    rw [hdeclared, isDeclared_push hitem, List.mem_cons, eq_comm (a := item), or_left_comm,
      or_assoc]

/-- Items that are all declared change nothing. -/
theorem declare_same (h : declare items doc = .ok edited)
    (hdeclared : ∀ item ∈ items, isDeclared doc item = true) : edited = doc := by
  induction items generalizing doc with
  | nil => exact (Except.ok.inj h).symm
  | cons item items ih =>
    obtain ⟨next, hitem, hrest⟩ := bind_eq_ok.mp h
    obtain ⟨nodes, hnodes, hcontains⟩ :=
      (Option.any_eq_true _ _).mp (hdeclared item List.mem_cons_self)
    have hsame : pushNew item.2 nodes = nodes := if_pos hcontains
    obtain rfl : next = doc := editList_same hnodes hsame hitem
    exact ih hrest fun other hother => hdeclared other (List.mem_cons_of_mem _ hother)

theorem get_overrides_declare (h : declare items doc = .ok edited) :
    edited.get OVERRIDES = doc.get OVERRIDES := by
  have hne : PACKAGES ≠ OVERRIDES := by decide
  rw [← Entries.get_without hne, (declare_spec h).2, Entries.get_without hne]

theorem accepts_iff : t.accepts text = true ↔
    ∃ config, (t.parse text).bind t.read = some config ∧ config.validate = .ok () := by
  unfold Toml.accepts
  rw [Option.any_eq_true]
  simp only [decide_eq_true_eq]

/-- Whether proposals are taken is a matter of the overrides alone, in a valid declaration. -/
theorem passes_overrides_iff {config : Config} (hread : t.read doc = some config)
    (hvalid : config.validate = .ok ())
    (hprint : ∀ edited, declareOverrides ps doc = .ok edited →
      (t.parse (t.print text edited)).bind t.read = t.read edited) :
    passes t (declareOverrides ps) text doc = true ↔ ∃ table table' : Entries, ∃ overrides,
      (doc.get OVERRIDES).getD (.table .nil) = .table table ∧
      ps.foldlM declareApp table = .ok table' ∧
      readOverrides (some (.table table')) = some overrides ∧
      ∀ entry ∈ overrides, validateOverride entry.1 entry.2 = .ok () := by
  rw [passes_iff]
  constructor
  · rintro ⟨edited, hedit, haccepts⟩
    obtain ⟨config', hconfig', hvalid'⟩ := accepts_iff.mp haccepts
    rw [hprint edited hedit] at hconfig'
    obtain ⟨table, table', htable, hfold, rfl⟩ := declareOverrides_eq_ok.mp hedit
    obtain ⟨rest, overrides, -, hoverrides, rfl⟩ := read_eq_some.mp hconfig'
    rw [Entries.get_insert_self] at hoverrides
    exact ⟨table, table', overrides, htable, hfold, hoverrides,
      (Config.validated hvalid').overrides⟩
  · rintro ⟨table, table', overrides, htable, hfold, hoverrides, hall⟩
    have hedit : declareOverrides ps doc = .ok (doc.insert OVERRIDES (.table table')) :=
      declareOverrides_eq_ok.mpr ⟨table, table', htable, hfold, rfl⟩
    refine ⟨_, hedit, accepts_iff.mpr ⟨{ config with overrides := overrides }, ?_, ?_⟩⟩
    · rw [hprint _ hedit]
      obtain ⟨rest, old, hrest, -, rfl⟩ := read_eq_some.mp hread
      refine read_eq_some.mpr ⟨rest, overrides, ?_, ?_, rfl⟩
      · rw [Entries.without_insert, hrest]
      · rw [Entries.get_insert_self, hoverrides]
    · exact validate_overrides hvalid hall

theorem of_loadConfig {config : Config} (h : loadConfig t file = .ok config) : ∃ text doc,
    load t file = .ok (text, doc) ∧ t.read doc = some config ∧ config.validate = .ok () := by
  unfold loadConfig at h
  split at h
  · cases h
  · next text htext =>
    split at h
    · cases h
    · next config' hconfig =>
      obtain ⟨⟨⟩, hvalid, rfl⟩ := map_eq_ok.mp h
      obtain ⟨bytes, rfl, hbytes⟩ := Option.bind_eq_some_iff.mp htext
      obtain ⟨doc, hparse, hread⟩ := Option.bind_eq_some_iff.mp hconfig
      rw [Bytes.readToString_eq_some.mp hbytes]
      exact ⟨text, doc, load_ofText hparse, hread, mapError_eq_ok.mp hvalid⟩

/-- What is selected is selected for a declaration that is read and valid. -/
theorem selects_spec {m : Observed} {names : List String}
    (h : selects t m names file = .ok (items, ps)) : ∃ text doc config,
      load t file = .ok (text, doc) ∧ t.read doc = some config ∧ config.validate = .ok () := by
  obtain ⟨config, hconfig, -⟩ := bind_eq_ok.mp h
  obtain ⟨text, doc, hload, hread, hvalid⟩ := of_loadConfig hconfig
  exact ⟨text, doc, config, hload, hread, hvalid⟩

variable {m : Observed} {names : List String} {first second : Bool}

/-- The packages are written back as they were exactly where each of them is declared already. -/
theorem print_declare_iff (hload : load t file = .ok (text, doc))
    (hedit : declare items doc = .ok edited)
    (hprint : t.parse (t.print text edited) = some edited) :
    t.print text edited = text ↔
      (∀ item ∈ items, isDeclared doc item = true) ∧ t.print text doc = text := by
  have hparse := (load_eq_ok.mp hload).2
  constructor
  · intro hsame
    rw [hsame, hparse] at hprint
    obtain rfl := Option.some.inj hprint
    exact ⟨fun item hitem => ((declare_spec hedit).1 item).mpr (.inl hitem), hsame⟩
  · rintro ⟨hdeclared, hsame⟩
    rw [declare_same hedit hdeclared]
    exact hsame

/-- The proposals are taken behind the packages exactly where they would be taken before. -/
theorem passes_overrides_declare {config : Config} (hprints : Prints t text doc items ps)
    (hread : t.read doc = some config) (hvalid : config.validate = .ok ())
    (hedit : declare items doc = .ok edited) (haccepts : t.accepts (t.print text edited) = true) :
    passes t (declareOverrides ps) (t.print text edited) edited = true ↔
      passes t (declareOverrides ps) text doc = true := by
  obtain ⟨config', hread', hvalid'⟩ := accepts_iff.mp haccepts
  rw [hprints.packages edited hedit] at hread'
  rw [passes_overrides_iff hread' hvalid' fun both hboth => hprints.both edited both hedit hboth,
    passes_overrides_iff hread hvalid hprints.overrides, get_overrides_declare hedit]

/-- The second edit, behind packages that were written. -/
theorem unchanged_overrides_iff {config : Config} (hload : load t file = .ok (text, doc))
    (hprints : Prints t text doc items ps) (hread : t.read doc = some config)
    (hvalid : config.validate = .ok ()) (hedit : declare items doc = .ok edited)
    (haccepts : t.accepts (t.print text edited) = true) :
    Unchanged file (rewriteFile t (declareOverrides ps)
      (some (Bytes.ofText (t.print text edited))) second) ↔
    ((∀ item ∈ items, isDeclared doc item = true) ∧ t.print text doc = text) ∨
      passes t (declareOverrides ps) text doc = true ∧ second = true := by
  have hparse := hprints.packages edited hedit
  rw [← print_declare_iff hload hedit hparse,
    ← passes_overrides_declare hprints hread hvalid hedit haccepts,
    ← rewriteFile_ok_iff (load_ofText hparse)]
  have hfile : some (Bytes.ofText (t.print text edited)) = file ↔ t.print text edited = text := by
    rw [(load_eq_ok.mp hload).1, Option.some.injEq]
    exact ⟨Bytes.ofText_inj, congrArg Bytes.ofText⟩
  rw [← hfile]
  unfold Unchanged
  constructor
  · intro h
    cases hresult : (rewriteFile t (declareOverrides ps)
        (some (Bytes.ofText (t.print text edited))) second).2 with
    | ok => exact .inr rfl
    | error fault => exact .inl ((rewriteFile_error hresult).symm.trans (h fault hresult))
  · rintro (hsame | hok) fault hfault
    · exact (rewriteFile_error hfault).trans hsame
    · rw [hok] at hfault
      cases hfault

theorem unchanged_same {ε : Type} {result : Except ε Unit} : Unchanged file (file, result) :=
  fun _ _ => rfl

theorem unchanged_ok {ε : Type} {left : Option Bytes} :
    Unchanged file (left, (.ok () : Except ε Unit)) := by
  intro fault hfault
  cases hfault

theorem unchanged_mapError {ε ε' : Type} {f : ε → ε'} {result : Option Bytes × Except ε Unit} :
    Unchanged file (result.1, result.2.mapError f) ↔ Unchanged file result := by
  unfold Unchanged
  simp only [mapError_eq_error]
  constructor
  · exact fun h fault hfault => h (f fault) ⟨fault, hfault, rfl⟩
  · rintro h _ ⟨fault, hfault, -⟩
    exact h fault hfault

/-- A capture that fails leaves the file as it was exactly where its two edits go together. -/
theorem unchanged_capture_iff
    (hprints : ∀ text doc items ps, load t file = .ok (text, doc) →
      selects t m names file = .ok (items, ps) → Prints t text doc items ps) :
    Unchanged file (capture t m names file first second) ↔ Together t m names file first second := by
  unfold capture Together
  cases hselects : selects t m names file with
  | error fault =>
    constructor
    · intro _ text doc items ps _ h
      cases h
    · exact fun _ => unchanged_same
  | ok selection =>
    obtain ⟨items, ps⟩ := selection
    obtain ⟨text, doc, config, hload, hread, hvalid⟩ := selects_spec hselects
    have hprints := hprints text doc items ps hload hselects
    have htogether : (∀ text' doc' items' ps', load t file = .ok (text', doc') →
        (.ok (items, ps) : Except CaptureFault _) = .ok (items', ps') → ps' ≠ [] →
        passes t (declare items') text' doc' = true → first = true →
          ((∀ item ∈ items', isDeclared doc' item = true) ∧ t.print text' doc' = text') ∨
            passes t (declareOverrides ps') text' doc' = true ∧ second = true) ↔
        (ps ≠ [] → passes t (declare items) text doc = true → first = true →
          ((∀ item ∈ items, isDeclared doc item = true) ∧ t.print text doc = text) ∨
            passes t (declareOverrides ps) text doc = true ∧ second = true) := by
      constructor
      · exact fun h => h text doc items ps hload rfl
      · rintro h text' doc' items' ps' hload' heq
        obtain ⟨rfl, rfl⟩ := Prod.mk.inj (Except.ok.inj heq)
        rw [hload] at hload'
        obtain ⟨rfl, rfl⟩ := Prod.mk.inj (Except.ok.inj hload')
        exact h
    rw [htogether]
    dsimp only
    by_cases hnothing : items = [] ∧ ps = []
    · rw [if_pos hnothing]
      exact ⟨fun _ hps => absurd hnothing.2 hps, fun _ => unchanged_same⟩
    rw [if_neg hnothing]
    cases hfirst : rewriteFile t (declare items) file first with
    | mk left result =>
      cases result with
      | error fault =>
        have hleft : left = file := by
          have herror := rewriteFile_error (congrArg Prod.snd hfirst)
          rwa [hfirst] at herror
        have hrefused : ¬ (passes t (declare items) text doc = true ∧ first = true) := by
          rw [← rewriteFile_ok_iff hload, hfirst]
          simp
        rw [hleft]
        exact ⟨fun _ _ hpasses hwrites => absurd ⟨hpasses, hwrites⟩ hrefused,
          fun _ => unchanged_same⟩
      | ok =>
        have hok := congrArg Prod.snd hfirst
        obtain ⟨hpasses, rfl⟩ := (rewriteFile_ok_iff hload).mp hok
        obtain ⟨edited, hedit, haccepts⟩ := passes_iff.mp hpasses
        rw [rewriteFile_of_accepts hload hedit haccepts] at hfirst
        obtain rfl := congrArg Prod.fst hfirst
        by_cases hps : ps = []
        · dsimp only
          rw [if_pos hps]
          exact ⟨fun _ hne => absurd hps hne, fun _ => unchanged_ok⟩
        · dsimp only
          rw [if_neg hps, unchanged_mapError,
            unchanged_overrides_iff hload hprints hread hvalid hedit haccepts]
          exact ⟨fun h _ _ _ => h, fun h => h hps hpasses rfl⟩

end

/-- A declaration of one app, before and after `jq` and a path of the app are captured. -/
private def jqText (brew : Bool) (path : Option String) : Chars :=
  "schema_version = 1\n\n[packages]\nflatpak = [\"org.example.Maps\"]\n".toList ++
    (if brew then "brew = [\"jq\"]\n".toList else []) ++
      (path.map fun path => "\n[overrides.\"org.example.Maps\"]\nfilesystems = [\"".toList ++
        path.toList ++ "\"]\n".toList).getD []

private def jqDoc (brew : Bool) (path : Option String) : Entries :=
  let strings (value : String) : Node := .array (.cons (.string value.toList) .nil)
  .cons "schema_version".toList (.literal "1".toList)
    (.cons PACKAGES (.table (.cons "flatpak".toList (strings "org.example.Maps")
      (if brew then .cons "brew".toList (strings "jq") .nil else .nil)))
      ((path.map fun path => Entries.cons OVERRIDES (.table (.cons "org.example.Maps".toList
        (.table (.cons "filesystems".toList (strings path) .nil)) .nil)) .nil).getD .nil))

private def jqToml (path : String) : Toml where
  parse text :=
    ([(false, none), (true, none), (false, some path), (true, some path)].find? fun form =>
      text = jqText form.1 form.2).map fun form => jqDoc form.1 form.2
  print _ doc := jqText (isDeclared doc ("brew".toList, "jq"))
    (if (doc.get OVERRIDES).isSome then some path else none)
  rest doc := some { Config.default with
    packages := ⟨[], (readList (below (doc.get PACKAGES) "flatpak".toList)).getD [],
      (readList (below (doc.get PACKAGES) "brew".toList)).getD []⟩ }

/-- A machine with `jq`, and a path that the app may read. -/
private def jqMachine (path : String) : Observed where
  machine := ⟨none, ∅, ∅, some {"jq"}, {"jq"}, ∅⟩
  stores := fun scope => .start fun app =>
    if scope = .system ∧ app = "org.example.Maps" then
      some (Bytes.ofText ("[Context]\nfilesystems=".toList ++ path.toList ++ ";\n".toList))
    else none

private def jqItems : List (Chars × String) := [("brew".toList, "jq")]

private def jqProposal (path : String) : Proposal :=
  ⟨"org.example.Maps", .system, [((CONTEXT, "filesystems".toList), path.toList ++ [';'])]⟩

private theorem parse_jq {path : String} (hpath : path ∈ ["home", "/data/a,b"]) (brew : Bool)
    {captured : Option String} (hcaptured : captured ∈ [none, some path]) :
    (jqToml path).parse (jqText brew captured) = some (jqDoc brew captured) := by
  have hfind : ∀ path ∈ ["home", "/data/a,b"], ∀ brew ∈ [true, false],
      ∀ captured ∈ [none, some path],
        ([(false, none), (true, none), (false, some path), (true, some path)].find?
          fun form => jqText brew captured = jqText form.1 form.2) = some (brew, captured) := by
    decide +kernel
  have hbrew : brew ∈ [true, false] := by cases brew <;> decide
  unfold jqToml
  dsimp only
  rw [hfind path hpath brew hbrew captured hcaptured]
  rfl

private theorem selects_jq {path : String} (hpath : path ∈ ["home", "/data/a,b"]) :
    selects (jqToml path) (jqMachine path) [] (some (Bytes.ofText (jqText false none))) =
      .ok (jqItems, [jqProposal path]) := by
  have hall : ∀ path ∈ ["home", "/data/a,b"], selects (jqToml path) (jqMachine path) []
      (some (Bytes.ofText (jqText false none))) = .ok (jqItems, [jqProposal path]) := by
    decide +kernel
  exact hall path hpath

private theorem prints_jq {path : String} (hpath : path ∈ ["home", "/data/a,b"]) :
    Prints (jqToml path) (jqText false none) (jqDoc false none) jqItems [jqProposal path] := by
  have hpackages : declare jqItems (jqDoc false none) = .ok (jqDoc true none) := rfl
  have hoverrides : ∀ brew, declareOverrides [jqProposal path] (jqDoc brew none) =
      .ok (jqDoc brew (some path)) := by
    intro brew
    rw [List.mem_pair] at hpath
    rcases hpath with rfl | rfl <;> cases brew <;> rfl
  have hcaptured : some path ∈ [none, some path] := List.mem_cons_of_mem _ List.mem_cons_self
  constructor
  case packages =>
    intro edited h
    obtain rfl := Except.ok.inj (hpackages.symm.trans h)
    exact parse_jq hpath true List.mem_cons_self
  case overrides =>
    intro edited h
    obtain rfl := Except.ok.inj ((hoverrides false).symm.trans h)
    exact congrArg (·.bind (jqToml path).read) (parse_jq hpath false hcaptured)
  case both =>
    intro first edited hfirst h
    obtain rfl := Except.ok.inj (hpackages.symm.trans hfirst)
    obtain rfl := Except.ok.inj ((hoverrides true).symm.trans h)
    exact congrArg (·.bind (jqToml path).read) (parse_jq hpath true hcaptured)

private theorem prints_selected {path : String} (hpath : path ∈ ["home", "/data/a,b"]) :
    ∀ text doc items ps,
      load (jqToml path) (some (Bytes.ofText (jqText false none))) = .ok (text, doc) →
      selects (jqToml path) (jqMachine path) [] (some (Bytes.ofText (jqText false none))) =
        .ok (items, ps) → Prints (jqToml path) text doc items ps := by
  intro text doc items ps hload hselects
  have hparse : (jqToml path).parse (jqText false none) = some (jqDoc false none) :=
    parse_jq hpath false List.mem_cons_self
  rw [load_ofText hparse] at hload
  obtain ⟨rfl, rfl⟩ := Prod.mk.inj (Except.ok.inj hload)
  rw [selects_jq hpath] at hselects
  obtain ⟨rfl, rfl⟩ := Prod.mk.inj (Except.ok.inj hselects)
  exact prints_jq hpath

end Kuma.Edit
