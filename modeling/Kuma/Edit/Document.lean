import Kuma.Config.Validate
import Kuma.Inspect.Redact
import Kuma.Overrides.Store

/-! The document of a declaration: its tables as the edits look at them and change them, and what
the schema reads of them. The reader and the printer of TOML are parameters. -/
namespace Kuma.Inspect
open Kuma.Overrides (Chars)

namespace Nodes

def toList : Nodes → List Node
  | .nil => []
  | .cons head tail => head :: tail.toList

def ofList : List Node → Nodes
  | [] => .nil
  | head :: tail => .cons head (ofList tail)

@[simp] theorem toList_ofList (nodes : List Node) : (ofList nodes).toList = nodes := by
  induction nodes with
  | nil => rfl
  | cons head tail ih => rw [ofList, toList, ih]

theorem ofList_toList : ∀ nodes : Nodes, ofList nodes.toList = nodes
  | .nil => rfl
  | .cons head tail => by rw [toList, ofList, ofList_toList tail]

end Nodes

namespace Entries

def toList : Entries → List (Chars × Node)
  | .nil => []
  | .cons key node tail => (key, node) :: tail.toList

def keys (entries : Entries) : List Chars := entries.toList.map Prod.fst

def get (key : Chars) : Entries → Option Node
  | .nil => none
  | .cons k node tail => if k = key then some node else tail.get key

/-- A key is given another value where it stands, or at the end. -/
def insert (key : Chars) (node : Node) : Entries → Entries
  | .nil => .cons key node .nil
  | .cons k old tail => if k = key then .cons k node tail else .cons k old (tail.insert key node)

def without (key : Chars) : Entries → Entries
  | .nil => .nil
  | .cons k node tail => if k = key then tail.without key else .cons k node (tail.without key)

section
variable {key other : Chars} {node : Node}

theorem get_insert : ∀ entries : Entries,
    (entries.insert key node).get other = if key = other then some node else entries.get other
  | .nil => rfl
  | .cons k old tail => by
    rw [insert]
    split_ifs with hk hother hother
    · rw [get, if_pos (hk.trans hother)]
    · rw [get, get, if_neg (hk ▸ hother), if_neg (hk ▸ hother)]
    · rw [get, get_insert tail, if_pos hother, if_neg fun h => hk (h.trans hother.symm)]
    · rw [get, get, get_insert tail, if_neg hother]

theorem get_insert_self (entries : Entries) : (entries.insert key node).get key = some node := by
  rw [get_insert, if_pos rfl]

theorem get_insert_of_ne (h : key ≠ other) (entries : Entries) :
    (entries.insert key node).get other = entries.get other := by
  rw [get_insert, if_neg h]

theorem insert_of_get : ∀ {entries : Entries}, entries.get key = some node →
    entries.insert key node = entries
  | .nil, h => nomatch h
  | .cons k old tail, h => by
    rw [get] at h
    rw [insert]
    split_ifs at h ⊢ with hk
    · rw [Option.some.inj h]
    · rw [insert_of_get h]

theorem get_without (h : key ≠ other) : ∀ entries : Entries,
    (entries.without key).get other = entries.get other
  | .nil => rfl
  | .cons k old tail => by
    rw [without]
    split_ifs with hk
    · rw [get_without h tail, get, if_neg fun heq => h (hk.symm.trans heq)]
    · rw [get, get, get_without h tail]

theorem without_insert : ∀ entries : Entries,
    (entries.insert key node).without key = entries.without key
  | .nil => by simp [insert, without]
  | .cons k old tail => by
    rw [insert]
    split_ifs with hk
    · rw [without, without, if_pos hk, if_pos hk]
    · rw [without, without, if_neg hk, if_neg hk, without_insert tail]

theorem get_eq_none : ∀ {entries : Entries}, entries.get key = none ↔ key ∉ entries.keys
  | .nil => by simp [get, keys, toList]
  | .cons k old tail => by
    have htail : tail.get key = none ↔ key ∉ tail.keys := get_eq_none
    have hkeys : (Entries.cons k old tail).keys = k :: tail.keys := rfl
    rw [get, hkeys, List.mem_cons, not_or]
    split_ifs with hk
    · simp [hk]
    · rw [htail, and_iff_right (Ne.symm hk)]

theorem mem_of_get : ∀ {entries : Entries}, entries.get key = some node →
    (key, node) ∈ entries.toList
  | .nil, h => nomatch h
  | .cons k old tail, h => by
    rw [get] at h
    rw [toList]
    split_ifs at h with hk
    · rw [hk, Option.some.inj h]
      exact List.mem_cons_self
    · exact List.mem_cons_of_mem _ (mem_of_get h)

theorem toList_insert_of_not_mem : ∀ {entries : Entries}, key ∉ entries.keys →
    (entries.insert key node).toList = entries.toList ++ [(key, node)]
  | .nil, _ => rfl
  | .cons k old tail, h => by
    have hkeys : (Entries.cons k old tail).keys = k :: tail.keys := rfl
    rw [hkeys, List.mem_cons, not_or] at h
    rw [insert, if_neg (Ne.symm h.1), toList, toList_insert_of_not_mem h.2]
    rfl

theorem mem_toList : ∀ {entries : Entries}, entries.keys.Nodup →
    ((key, node) ∈ entries.toList ↔ entries.get key = some node)
  | .nil, _ => by simp [toList, get]
  | .cons k old tail, h => by
    have hkeys : (Entries.cons k old tail).keys = k :: tail.keys := rfl
    rw [hkeys, List.nodup_cons] at h
    rw [toList, List.mem_cons, get, Prod.mk.injEq]
    split_ifs with hk
    · have htail : (key, node) ∉ tail.toList := by
        intro hmem
        have hkey : key ∈ tail.keys := List.mem_map_of_mem (f := Prod.fst) hmem
        exact h.1 (hk ▸ hkey)
      simp [hk, htail, eq_comm]
    · rw [mem_toList h.2, or_iff_right fun heq => hk heq.1.symm]

theorem keys_insert : ∀ entries : Entries, (entries.insert key node).keys =
    if key ∈ entries.keys then entries.keys else entries.keys ++ [key]
  | .nil => rfl
  | .cons k old tail => by
    have hkeys : ∀ tail : Entries, ∀ node, (Entries.cons k node tail).keys = k :: tail.keys :=
      fun _ _ => rfl
    rw [insert]
    split_ifs with hk hmem hmem
    · rw [hkeys, hkeys]
    · exact absurd (by rw [hkeys, hk]; exact List.mem_cons_self) hmem
    · rw [hkeys, List.mem_cons, or_iff_right (Ne.symm hk)] at hmem
      rw [hkeys, hkeys, keys_insert tail, if_pos hmem]
    · rw [hkeys, List.mem_cons, or_iff_right (Ne.symm hk)] at hmem
      rw [hkeys, hkeys, keys_insert tail, if_neg hmem, List.cons_append]

theorem nodup_keys_insert {entries : Entries} (h : entries.keys.Nodup) :
    (entries.insert key node).keys.Nodup := by
  rw [keys_insert]
  split_ifs with hkey
  · exact h
  · rw [← List.concat_eq_append]
    exact h.concat hkey

theorem mem_keys_insert {entries : Entries} :
    other ∈ (entries.insert key node).keys ↔ other = key ∨ other ∈ entries.keys := by
  rw [← not_iff_not, not_or, ← get_eq_none, ← get_eq_none, get_insert]
  split_ifs with h
  · simp [h]
  · rw [and_iff_right (Ne.symm h)]

end
end Entries

/-- A table in either of its forms. -/
def Node.entries? : Node → Option Entries
  | .table entries => some entries
  | .inlineTable entries => some entries
  | _ => none

def Node.str? : Node → Option String
  | .string value => some (String.ofList value)
  | _ => none

end Kuma.Inspect

namespace Kuma.Edit
open Kuma.Lib Kuma.Inspect Kuma.Overrides

def PACKAGES : Chars := "packages".toList

def OVERRIDES : Chars := "overrides".toList

/-- The keys of one app's table. Any other key is refused. -/
def FIELDS : List Chars :=
  ["scope", "filesystems", "sockets", "devices", "shared", "features", "persistent",
    "environment", "session-bus", "system-bus"].map String.toList

def readPolicy (node : Node) : Option BusPolicy :=
  node.str?.bind fun
    | "none" => some .none
    | "see" => some .see
    | "talk" => some .talk
    | "own" => some .own
    | _ => none

def readScope : Option Node → Option Scope
  | none => some .system
  | some node => node.str?.bind fun
    | "system" => some .system
    | "user" => some .user
    | _ => none

def readList : Option Node → Option (List String)
  | none => some []
  | some (.array items) => items.toList.mapM Node.str?
  | some _ => none

/-- A map, in the order of its keys. -/
def readMap {α : Type} (read : Node → Option α) : Option Node → Option (List (String × α))
  | none => some []
  | some node => do
    let entries ← node.entries?
    let pairs ← entries.toList.mapM fun entry =>
      (read entry.2).map fun value => (String.ofList entry.1, value)
    some (pairs.insertionSort fun a b => a.1 ≤ b.1)

/-- One app's table, as the schema reads it. -/
def readFields (entries : Entries) : Option AppOverride := do
  guard (∀ key ∈ entries.keys, key ∈ FIELDS)
  let scope ← readScope (entries.get "scope".toList)
  let filesystems ← readList (entries.get "filesystems".toList)
  let sockets ← readList (entries.get "sockets".toList)
  let devices ← readList (entries.get "devices".toList)
  let shared ← readList (entries.get "shared".toList)
  let features ← readList (entries.get "features".toList)
  let persistent ← readList (entries.get "persistent".toList)
  let environment ← readMap Node.str? (entries.get "environment".toList)
  let sessionBus ← readMap readPolicy (entries.get "session-bus".toList)
  let systemBus ← readMap readPolicy (entries.get "system-bus".toList)
  some ⟨scope, filesystems, sockets, devices, shared, features, persistent, environment,
    sessionBus, systemBus⟩

def readApp (node : Node) : Option AppOverride := node.entries?.bind readFields

def readOverrides : Option Node → Option (List (String × AppOverride)) := readMap readApp

/-- TOML, and what the schema reads of a document beside its overrides. -/
structure Toml where
  parse : Chars → Option Entries
  print : Chars → Entries → Chars
  rest : Entries → Option Config

namespace Toml

variable (t : Toml)

/-- The declaration that a document stands for. -/
def read (doc : Entries) : Option Config := do
  let config ← t.rest (doc.without OVERRIDES)
  let overrides ← readOverrides (doc.get OVERRIDES)
  some { config with overrides := overrides }

/-- A text that is a declaration, and a valid one. -/
def accepts (text : Chars) : Bool :=
  ((t.parse text).bind t.read).any fun config => config.validate = .ok ()

end Toml

inductive EditFault
  | unreadable
  | invalid
  | packagesNotTable
  | notArray (list : Chars)
  | undeclared (name : String)
  | unknownFlatpak (name : String)
  | overridesNotTable
  | appNotTable (app : String)
  | sectionNotTable (app : String) (table : Chars)
  | breaks
  | unwritable
  deriving DecidableEq

/-- What an edit is refused with. -/
def EditFault.message (path : String) : EditFault → String
  | .unreadable => "cannot read " ++ path ++
      "; run `kuma init` to start one here, or point --config at yours"
  | .invalid => "invalid config in " ++ path
  | .packagesNotTable => "[packages] is not a table"
  | .notArray list => "packages." ++ String.ofList list ++ " is not an array"
  | .undeclared name => name ++ " is not declared in any [packages] list"
  | .unknownFlatpak name => name ++ " is not an app Flathub lists.\n" ++
      "A name Flathub does not know fails the converger on every boot, and takes " ++
      "the apps beside it down with it, so it is refused here rather than at 3am.\n" ++
      "If it is new, this machine's cached list may be behind: " ++
      "`flatpak update --appstream` refreshes it."
  | .overridesNotTable => "[overrides] is not a table"
  | .appNotTable app => "overrides." ++ app ++ " is not a table"
  | .sectionNotTable app table =>
    "overrides." ++ app ++ "." ++ String.ofList table ++ " is not a table"
  | .breaks => "refusing to write: the edit breaks the config"
  | .unwritable => "cannot write " ++ path

section
variable (t : Toml)

def load (file : Option Bytes) : Except EditFault (Chars × Entries) :=
  match file.bind Bytes.readToString with
  | none => .error .unreadable
  | some text =>
    match t.parse text with
    | none => .error .invalid
    | some doc => .ok (text, doc)

/-- The edited document must still be a valid declaration before it replaces the file. The write
happens, or it does not: `writes` says which. -/
def store (text : Chars) (doc : Entries) (writes : Bool) : Except EditFault Bytes :=
  if t.accepts (t.print text doc) then
    if writes then .ok (Bytes.ofText (t.print text doc)) else .error .unwritable
  else .error .breaks

/-- Load, edit, store: the file that is left, and the result. -/
def rewriteFile (edit : Entries → Except EditFault Entries) (file : Option Bytes) (writes : Bool) :
    Option Bytes × Except EditFault Unit :=
  match (do
    let (text, doc) ← load t file
    let edited ← edit doc
    store t text edited writes) with
  | .ok bytes => (some bytes, .ok ())
  | .error fault => (file, .error fault)

variable {t} {text after : Chars} {doc : Entries} {file : Option Bytes} {writes : Bool}
  {edit : Entries → Except EditFault Entries}

theorem load_eq_ok : load t file = .ok (text, doc) ↔
    file = some (Bytes.ofText text) ∧ t.parse text = some doc := by
  have hread : file = some (Bytes.ofText text) ↔ file.bind Bytes.readToString = some text := by
    simp only [Option.bind_eq_some_iff, Bytes.readToString_eq_some, exists_eq_right]
  unfold load
  rw [hread]
  cases file.bind Bytes.readToString with
  | none => simp
  | some text' =>
    dsimp only
    constructor
    · intro h
      split at h
      · cases h
      · next hparse =>
        obtain ⟨rfl, rfl⟩ := Prod.mk.inj (Except.ok.inj h)
        exact ⟨rfl, hparse⟩
    · rintro ⟨htext, hparse⟩
      obtain rfl := Option.some.inj htext
      rw [hparse]

theorem load_ofText (h : t.parse text = some doc) :
    load t (some (Bytes.ofText text)) = .ok (text, doc) := load_eq_ok.mpr ⟨rfl, h⟩

/-- An edit that is refused leaves the file as it was. -/
theorem rewriteFile_error {fault : EditFault}
    (h : (rewriteFile t edit file writes).2 = .error fault) :
    (rewriteFile t edit file writes).1 = file := by
  unfold rewriteFile at h ⊢
  split at h
  · cases h
  · rfl

/-- What an edit that goes through comes to. -/
theorem rewriteFile_ok (h : (rewriteFile t edit file writes).2 = .ok ()) :
    ∃ text doc edited, load t file = .ok (text, doc) ∧ edit doc = .ok edited ∧
      t.accepts (t.print text edited) = true ∧ writes = true ∧
        (rewriteFile t edit file writes).1 = some (Bytes.ofText (t.print text edited)) := by
  unfold rewriteFile at h ⊢
  split at h
  · next bytes hresult =>
    obtain ⟨⟨text, doc⟩, hload, hresult'⟩ := bind_eq_ok.mp hresult
    obtain ⟨edited, hedit, hstore⟩ := bind_eq_ok.mp hresult'
    unfold store at hstore
    split_ifs at hstore with haccepts hwrites
    obtain rfl := Except.ok.inj hstore
    exact ⟨text, doc, edited, hload, hedit, haccepts, hwrites, rfl⟩
  · cases h

/-- An edit of a declaration that leaves a valid one goes through. -/
theorem rewriteFile_of_accepts {edited : Entries} (hload : load t file = .ok (text, doc))
    (hedit : edit doc = .ok edited) (haccepts : t.accepts (t.print text edited) = true) :
    rewriteFile t edit file true = (some (Bytes.ofText (t.print text edited)), .ok ()) := by
  have hstore : store t text edited true = .ok (Bytes.ofText (t.print text edited)) := by
    rw [store, if_pos haccepts, if_pos rfl]
  have hresult : (do
      let (text, doc) ← load t file
      let edited ← edit doc
      store t text edited true) = .ok (Bytes.ofText (t.print text edited)) :=
    bind_eq_ok.mpr ⟨(text, doc), hload, bind_eq_ok.mpr ⟨edited, hedit, hstore⟩⟩
  unfold rewriteFile
  rw [hresult]

end
end Kuma.Edit
