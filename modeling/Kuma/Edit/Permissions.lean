import Kuma.Edit.Document
import Kuma.Overrides.Drift

/-! What `kuma capture` offers of the permissions a machine carries, and how they are written into
the declaration. -/
namespace Kuma.Overrides

def Scope.asStr : Scope → String
  | .system => "system"
  | .user => "user"

/-- An app's table that says nothing. -/
def AppOverride.default : AppOverride := ⟨.system, [], [], [], [], [], [], [], [], []⟩

end Kuma.Overrides

namespace Kuma.Edit
open Kuma.Lib Kuma.Inspect Kuma.Overrides Kuma.Sync

/-- The keys of one app that the declaration does not name. -/
structure Proposal where
  app : String
  scope : Scope
  keys : List (Key × Chars)
  deriving DecidableEq

/-- The punctuation of each kind of name and value. -/
def VALUE_CHARS : List Char := ['!', '/', '.', '-', '_', ':', '~', ' ']

def BUS_CHARS : List Char := ['.', '-', '_', '*']

def APP_CHARS : List Char := ['.', '-', '_']

def CONTEXT_KEYS : List Chars :=
  ["filesystems", "sockets", "devices", "shared", "features", "persistent"].map String.toList

/-- Whether a key can be written back into a declaration at all. -/
def representable (key : Key) : Bool :=
  let spelledWith (extra : List Char) :=
    key.2.any Char.isAlphanum && key.2.all fun c => c.isAlphanum || extra.contains c
  if key.1 = CONTEXT then CONTEXT_KEYS.contains key.2
  else if key.1 = ENVIRONMENT then spelledWith ['_']
  else if key.1 = SESSION_BUS ∨ key.1 = SYSTEM_BUS then spelledWith BUS_CHARS
  else false

/-- `live_keys`, entry by entry and in the order of the keys. -/
def liveEntries (text : Chars) : List (Key × Chars) :=
  let entries := ((parseDeclared text).map Prod.fst).dedup.filterMap fun key =>
    (liveKeys text key).map fun value => (key, value)
  entries.insertionSort fun a b => String.ofList a.1.1 < String.ofList b.1.1 ∨
    a.1.1 = b.1.1 ∧ String.ofList a.1.2 ≤ String.ofList b.1.2

def tableOf (overrides : List (String × AppOverride)) (app : String) : Option AppOverride :=
  (overrides.find? (·.1 = app)).map Prod.snd

/-- What one of the two stores has of an app that the declaration neither names nor gave it. -/
def proposalIn (declared : List (String × AppOverride)) (m : Machine) (app : String)
    (scope : Scope) : Option Proposal :=
  let table := tableOf declared app
  if table.any fun table => table.scope ≠ scope then none
  else
    let owned := (m scope).readState.ids app
    let already := (table.map fun table =>
      (declaredKeys table).map fun entry => ownedId entry.1).getD []
    let keys := (liveEntries ((m scope).text app)).filter fun entry =>
      representable entry.1 && !owned.contains (ownedId entry.1) &&
        !already.contains (ownedId entry.1)
    if keys = [] then none else some ⟨app, scope, keys⟩

/-- An app declares into one store. One whose two stores both hold undeclared keys is ambiguous. -/
def capturable (installed : List String) (declared : List (String × AppOverride)) (m : Machine) :
    List Proposal × List String :=
  let found := (installed.dedup.insertionSort (· ≤ ·)).map fun app =>
    (app, [Scope.system, Scope.user].filterMap (proposalIn declared m app))
  (found.filterMap fun f =>
      match f.2 with
      | [proposal] => some proposal
      | _ => none,
    (found.filter fun f => 1 < f.2.length).map Prod.fst)

/-- A value as the declaration spells it: a list of the context is an array there. -/
def asDeclaration (entry : Key × Chars) : List Chars :=
  if entry.1.1 = CONTEXT then (Text.split ';' entry.2).filter (· ≠ []) else [entry.2]

/-- What `validate_name` takes. -/
def nameable (extra : List Char) (value : Chars) : Bool :=
  value.head? ≠ some '-' && value.any Char.isAlphanum &&
    value.all fun c => c.isAlphanum || extra.contains c

def oneLine (value : Chars) : Bool := !value.contains '\n' && !value.contains '\r'

/-- The policies that the schema has a name for. -/
def POLICIES : List Chars := ["none", "see", "talk", "own"].map String.toList

/-- Whether the schema takes a value that the machine has, and gives it back as it was. -/
def spelled (entry : Key × Chars) : Bool :=
  if entry.1.1 = CONTEXT then
    let values := asDeclaration entry
    values ≠ [] && values.all (nameable VALUE_CHARS) && values.flatMap (· ++ [';']) = entry.2
  else if entry.1.1 = ENVIRONMENT then oneLine entry.2
  else entry.1.2.head? ≠ some '-' && POLICIES.contains entry.2

def sectionOf (group : Chars) : Chars :=
  if group = ENVIRONMENT then "environment".toList
  else if group = SESSION_BUS then "session-bus".toList
  else "system-bus".toList

/-- A table that is written as one, or a new one. -/
def asTable (node : Option Node) (fault : EditFault) : Except EditFault Entries :=
  match node.getD (.table .nil) with
  | .table entries => .ok entries
  | _ => .error fault

def declareKey (name : String) (app : Entries) (entry : Key × Chars) :
    Except EditFault Entries :=
  let values := asDeclaration entry
  if entry.1.1 = CONTEXT then
    .ok (app.insert entry.1.2 (.array (Nodes.ofList (values.map .string))))
  else do
    let group := sectionOf entry.1.1
    let sub ← asTable (app.get group) (.sectionNotTable name group)
    .ok (app.insert group (.table (sub.insert entry.1.2 (.string (values.head?.getD [])))))

def declareApp (table : Entries) (proposal : Proposal) : Except EditFault Entries := do
  let app ← asTable (table.get proposal.app.toList) (.appNotTable proposal.app)
  let placed := if proposal.scope = .system then app
    else app.insert "scope".toList (.string proposal.scope.asStr.toList)
  let keyed ← proposal.keys.foldlM (declareKey proposal.app) placed
  .ok (table.insert proposal.app.toList (.table keyed))

/-- Write captured permissions into `[overrides]`. -/
def declareOverrides (proposals : List Proposal) (doc : Entries) : Except EditFault Entries := do
  let table ← asTable (doc.get OVERRIDES) .overridesNotTable
  let declared ← proposals.foldlM declareApp table
  .ok (doc.insert OVERRIDES (.table declared))

end Kuma.Edit
