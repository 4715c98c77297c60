import Kuma.Lib.Run
import Kuma.Lib.Script
import Kuma.Overrides.State
import Mathlib.Logic.Function.Basic

/-! The two override stores over a machine's whole history: images booted one after another,
files edited by anyone, and runs of the converger any write of which may fail. -/
namespace Kuma.Overrides
open Kuma.Lib Kuma.Lib.Text KeyFile

/-- A piece of a file: a character, or a byte that is part of none. -/
inductive Piece
  | char (c : Char)
  | stray (b : UInt8)
  deriving DecidableEq

abbrev Bytes := List Piece

namespace Bytes

def ofText (text : Chars) : Bytes := text.map .char

/-- `read_to_string`, which has no text for a file that is not UTF-8. -/
def readToString : Bytes → Option Chars
  | [] => some []
  | .char c :: rest => (readToString rest).map (c :: ·)
  | .stray _ :: _ => none

/-- A text of the whole file, for a reader that minds no stray byte. -/
def lossy (bytes : Bytes) : Chars :=
  bytes.map fun
    | .char c => c
    | .stray _ => Char.ofNat 0xFFFD

section
variable {text : Chars}

@[simp] theorem readToString_ofText : readToString (ofText text) = some text := by
  induction text with
  | nil => rfl
  | cons c text ih =>
    change (readToString (ofText text)).map (c :: ·) = some (c :: text)
    rw [ih]
    rfl

@[simp] theorem lossy_ofText : lossy (ofText text) = text := by
  simp [lossy, ofText, Function.comp_def]

theorem readToString_eq_some {bytes : Bytes} : bytes.readToString = some text ↔
    bytes = ofText text := by
  constructor
  · intro h
    induction bytes generalizing text with
    | nil =>
      obtain rfl := Option.some.inj h
      rfl
    | cons piece bytes ih =>
      cases piece with
      | char c =>
        obtain ⟨rest, hrest, rfl⟩ := Option.map_eq_some_iff.mp h
        rw [ih hrest]
        rfl
      | stray b => cases h
  · rintro rfl
    exact readToString_ofText

theorem ofText_inj {text' : Chars} (h : ofText text = ofText text') : text = text' := by
  rw [← Option.some.injEq, ← readToString_ofText, h, readToString_ofText]

end
end Bytes

/-- The tables of one scope that an image was built from, and whether it ships the block that
bakes them. -/
structure Image where
  tables : List (String × AppOverride)
  valid : ∀ table ∈ tables, validateOverride table.1 table.2 = .ok ()
  ships : Bool

namespace Image

/-- Every key the tables name. -/
def keys (image : Image) : List (String × Key) :=
  image.tables.flatMap fun table => (declaredKeys table.2).map fun entry => (table.1, entry.1)

/-- The directory of baked files. -/
def baked (image : Image) : List (String × Chars) :=
  if image.ships then image.tables.map fun table => (table.1, renderDeclared table.2) else []

/-- The keys of one app that the machine reads. -/
def wanted (image : Image) (app : String) : List (Key × Chars) :=
  (((image.baked.find? (·.1 = app)).map Prod.snd).map parseDeclared).getD []

end Image

def Declared.image (d : Declared) (scope : Scope) (ships : Bool) : Image where
  tables := d.tables.filter (·.2.scope = scope)
  valid := fun table htable => d.valid table (List.mem_of_mem_filter htable)
  ships := ships

/-- What a write comes to: a failed one may leave a part of the text behind. -/
inductive Write
  | whole
  | refused
  | torn (chars : ℕ) (bytes : List UInt8)
  deriving DecidableEq

/-- How the writes and removals of a run turn out. -/
structure Attempt where
  write : String → Write
  remove : String → Bool
  state : Write

/-- One scope's files. The history remembers every key a declaration has named, the values that
runs have written and nobody has changed since, and whether the last run died. -/
structure Store where
  image : Image
  files : String → Option Bytes
  state : Option Bytes
  named : List (String × Key)
  wrote : String → Key → Option Chars
  died : Bool

namespace Store

/-- The pairs that stand in a file. -/
def pairsOf (content : Option Bytes) : List (Key × Chars) :=
  found ((content.map Bytes.lossy).getD [])

def pairs (s : Store) (app : String) : List (Key × Chars) := pairsOf (s.files app)

/-- The value a key has in an app's file. -/
def live (s : Store) (app : String) (key : Key) : Option Chars := (values key (s.pairs app)).head?

/-- An app's file, replaced; `set` are the keys that kuma has just given their value. -/
def put (s : Store) (app : String) (content : Option Bytes) (set : List Key) : Store :=
  { s with
    files := Function.update s.files app content
    wrote := Function.update s.wrote app fun key =>
      let live := (values key (pairsOf content)).head?
      if key ∈ set ∨ live = s.wrote app key then live else none }

def readState (s : Store) : Owned := ((s.state.bind Bytes.readToString).map Owned.read).getD []

/-- Every app the image declares or kuma owns keys of. -/
def apps (s : Store) : List String :=
  ((s.readState.map Prod.fst ++ s.image.baked.map Prod.fst).dedup).insertionSort (· ≤ ·)

/-- What the run makes of one app. -/
def converged (s : Store) (previous : Owned) (app : String) : Chars × Changed × List Chars :=
  converge (((s.files app).bind Bytes.readToString).getD []) (s.image.wanted app) (previous.ids app)

/-- What kuma owns once the run is through. -/
def owned (s : Store) : Owned :=
  s.apps.filterMap fun app =>
    let now := (s.image.wanted app).map fun entry => ownedId entry.1
    if now = [] then none else some (app, now)

/-- What a run that goes through says it did. -/
def report (s : Store) : List (String × Changed) :=
  s.apps.filterMap fun app =>
    let changed := (s.converged s.readState app).2.1
    if changed.set = [] ∧ changed.removed = [] then none else some (app, changed)

end Store

def convergeApp (r : Attempt) (previous : Owned) (app : String) : Script Store :=
  .look fun s =>
    let out := s.converged previous app
    let live := ((s.files app).bind Bytes.readToString).getD []
    if out.1 = [] then
      if (s.files app).isSome then
        .command fun s => if r.remove app then (s.put app none [], true) else (s, false)
      else .done
    else if out.1 ≠ live then
      .command fun s =>
        match r.write app with
        | .whole =>
          let set := (s.image.wanted app).filter fun entry => out.2.1.set.contains (ownedId entry.1)
          (s.put app (some (Bytes.ofText out.1)) (set.map Prod.fst), true)
        | .refused => (s, false)
        | .torn n bytes =>
          (s.put app (some (Bytes.ofText (out.1.take n) ++ bytes.map .stray)) [], false)
    else .done

def writeState (r : Attempt) (owned : Owned) : Script Store :=
  .command fun s =>
    match r.state with
    | .whole => ({ s with state := some (Bytes.ofText owned.write) }, true)
    | .refused => (s, false)
    | .torn n bytes =>
      ({ s with state := some (Bytes.ofText (owned.write.take n) ++ bytes.map .stray) }, false)

/-- One run over a scope's store. The state file is written last, and only when it moved. -/
def convergeStore (r : Attempt) : Script Store :=
  .look fun s =>
    (Script.each (convergeApp r s.readState) s.apps).seq
      (if s.owned ≠ s.readState then writeState r s.owned else .done)

inductive Action
  | boot (d : Declared) (ships : Bool)
  | edit (scope : Scope) (app : String) (content : Option Bytes)
  | run (scope : Scope) (r : Attempt)

namespace Store

def ran (s : Store) (r : Attempt) : Store :=
  { (convergeStore r).final s with died := !((convergeStore r).exec s).2 }

def step (scope : Scope) (s : Store) : Action → Store
  | .boot d ships =>
    { s with image := d.image scope ships, named := s.named ++ (d.image scope ships).keys }
  | .edit scope' app content => if scope' = scope then s.put app content [] else s
  | .run scope' r => if scope' = scope then s.ran r else s

/-- A store that kuma has never seen, with what its owner keeps there. -/
def start (files : String → Option Bytes) : Store :=
  ⟨⟨[], fun _ h => absurd h List.not_mem_nil, false⟩, files, none, [], fun _ _ => none, false⟩

end Store

/-- Both stores. -/
abbrev Machine := Scope → Store

namespace Machine

def step (s : Machine) (a : Action) : Machine := fun scope => (s scope).step scope a

def start (files : Scope → String → Option Bytes) : Machine := fun scope => .start (files scope)

end Machine
end Kuma.Overrides
