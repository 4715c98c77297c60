import Kuma.Lib.Text
import Mathlib.Data.List.Infix

/-! A declaration made fit to paste: a walk replaces the value of every secret key that it
reaches, and a scan of the printed lines withholds the whole where one is left. The reader and
the printer of TOML are parameters. -/
namespace Kuma.Inspect
open Kuma.Lib.Text

mutual

/-- What a key of a document stands for: a string, another scalar as it is spelled, an array,
a table in one of its two forms, or an array of tables. -/
inductive Node
  | string (value : List Char)
  | literal (spelling : List Char)
  | array (items : Nodes)
  | inlineTable (entries : Entries)
  | table (entries : Entries)
  | arrayOfTables (tables : Nodes)

/-- The elements of an array. -/
inductive Nodes
  | nil
  | cons (head : Node) (tail : Nodes)

/-- A table, in document order. Dotted keys and headers that skip a level stand for the tables
that they imply. -/
inductive Entries
  | nil
  | cons (key : List Char) (node : Node) (tail : Entries)

end

def REDACTED : List Char := "<redacted by kuma doctor --report>".toList

def SECRET_KEYS : List (List Char) :=
  ["password_hash", "password", "nsec", "private_key", "secret"].map String.toList

mutual

/-- `redact_table` on what a key stands for: both forms of a table are walked, arrays are
not. -/
def Node.redact : Node → Node
  | .inlineTable entries => .inlineTable entries.redact
  | .table entries => .table entries.redact
  | .string value => .string value
  | .literal spelling => .literal spelling
  | .array items => .array items
  | .arrayOfTables tables => .arrayOfTables tables

/-- `redact_table`. -/
def Entries.redact : Entries → Entries
  | .nil => .nil
  | .cons key node tail =>
    .cons key (if key ∈ SECRET_KEYS then .string REDACTED else node.redact) tail.redact

end

/-- A line of the printed document gives a secret key another value. -/
def leaks (line : List Char) : Bool :=
  match splitOnce '=' line with
  | none => false
  | some (key, _) =>
    let key := ((trim key).dropWhile (· == '"')).rdropWhile (· == '"')
    SECRET_KEYS.contains key && !decide (REDACTED <:+: line)

/-- The guard: a secret survived the walk. -/
def survived (out : List Char) : Bool := (lines out).any leaks

section
variable (parse : List Char → Option Entries) (print : List Char → Entries → List Char)

/-- `redact_declaration`: `print` writes an edited document in the spelling of its text. -/
def redactDeclaration (text : List Char) : Option (List Char) :=
  match parse text with
  | none => none
  | some doc =>
    let out := print text doc.redact
    if survived out then none else some out

/-- The printer writes an edited document as a text with its content. -/
def Faithful : Prop :=
  ∀ text doc, parse text = some doc → parse (print text doc.redact) = some doc.redact

end

/-! ### Secrets, at any depth -/

/-- The value that the walk leaves at a secret key. -/
def Node.isRedacted : Node → Bool
  | .string value => value == REDACTED
  | _ => false

mutual

/-- Every secret key has the redacted value, at any depth. -/
def Node.AllRedacted : Node → Prop
  | .string _ => True
  | .literal _ => True
  | .array items => items.AllRedacted
  | .inlineTable entries => entries.AllRedacted
  | .table entries => entries.AllRedacted
  | .arrayOfTables tables => tables.AllRedacted

def Nodes.AllRedacted : Nodes → Prop
  | .nil => True
  | .cons head tail => head.AllRedacted ∧ tail.AllRedacted

def Entries.AllRedacted : Entries → Prop
  | .nil => True
  | .cons key node tail =>
    (if key ∈ SECRET_KEYS then node.isRedacted = true else node.AllRedacted) ∧ tail.AllRedacted

end

mutual

/-- No array holds a secret key with another value, save under a secret key. -/
def Node.NoneHidden : Node → Prop
  | .string _ => True
  | .literal _ => True
  | .array items => items.AllRedacted
  | .inlineTable entries => entries.NoneHidden
  | .table entries => entries.NoneHidden
  | .arrayOfTables tables => tables.AllRedacted

def Entries.NoneHidden : Entries → Prop
  | .nil => True
  | .cons key node tail => (key ∉ SECRET_KEYS → node.NoneHidden) ∧ tail.NoneHidden

end

mutual

theorem Node.allRedacted_redact_iff (node : Node) :
    node.redact.AllRedacted ↔ node.NoneHidden := by
  cases node with
  | string value => exact Iff.rfl
  | literal spelling => exact Iff.rfl
  | array items => exact Iff.rfl
  | inlineTable entries => exact Entries.allRedacted_redact_iff entries
  | table entries => exact Entries.allRedacted_redact_iff entries
  | arrayOfTables tables => exact Iff.rfl

/-- The walk redacts every secret key that no array hides from it. -/
theorem Entries.allRedacted_redact_iff (entries : Entries) :
    entries.redact.AllRedacted ↔ entries.NoneHidden := by
  cases entries with
  | nil => exact Iff.rfl
  | cons key node tail =>
    have htail := Entries.allRedacted_redact_iff tail
    have hnode := Node.allRedacted_redact_iff node
    rw [Entries.redact, Entries.AllRedacted, Entries.NoneHidden, htail]
    by_cases hkey : key ∈ SECRET_KEYS
    · have hvalue : (Node.string REDACTED).isRedacted = true := beq_self_eq_true REDACTED
      rw [if_pos hkey, if_pos hkey]
      simp [hkey, hvalue]
    · rw [if_neg hkey, if_neg hkey, hnode]
      simp [hkey]

end

/-- What comes out parses, and every secret key in it is redacted. -/
def RedactionSound (parse : List Char → Option Entries) (print : List Char → Entries → List Char)
    (text : List Char) : Prop :=
  ∀ out, redactDeclaration parse print text = some out →
    ∃ doc, parse out = some doc ∧ doc.AllRedacted

variable {parse : List Char → Option Entries} {print : List Char → Entries → List Char}

/-- The redaction of a text is sound when no array hides a secret key from the walk, or the
guard sees one. -/
theorem redaction_sound_iff (hfaithful : Faithful parse print) (text : List Char) :
    RedactionSound parse print text ↔ ∀ doc, parse text = some doc →
      doc.NoneHidden ∨ survived (print text doc.redact) = true := by
  unfold RedactionSound redactDeclaration
  constructor
  · intro h doc hdoc
    by_cases hguard : survived (print text doc.redact) = true
    · exact .inr hguard
    · left
      simp only [hdoc, if_neg hguard] at h
      obtain ⟨read, hread, hredacted⟩ := h _ rfl
      have hsame : read = doc.redact := by
        rw [hfaithful text doc hdoc] at hread
        exact (Option.some.inj hread).symm
      rw [hsame] at hredacted
      exact doc.allRedacted_redact_iff.mp hredacted
  · intro h out hout
    cases hdoc : parse text with
    | none =>
      rw [hdoc] at hout
      cases hout
    | some doc =>
      simp only [hdoc] at hout
      split_ifs at hout with hguard
      cases hout
      refine ⟨doc.redact, hfaithful text doc hdoc, ?_⟩
      exact doc.allRedacted_redact_iff.mpr ((h doc hdoc).resolve_right hguard)

/-- A reader of one text and of what it is redacted to. -/
def readsOne (text out : List Char) (doc : Entries) (t : List Char) : Option Entries :=
  if t = out then some doc.redact else if t = text then some doc else none

theorem faithful_readsOne {text out : List Char} {doc : Entries}
    (hagain : doc.redact.redact = doc.redact) :
    Faithful (readsOne text out doc) fun _ _ => out := by
  have hread : readsOne text out doc out = some doc.redact := by
    unfold readsOne
    rw [if_pos rfl]
  intro t d hd
  rw [hread]
  unfold readsOne at hd
  split_ifs at hd
  · cases hd
    rw [hagain]
  · cases hd
    rfl

/-- A password at the top of a declaration, and its redaction. -/
def plainText : List Char := "password = \"hunter2\"\n".toList
def plainOut : List Char := "password = \"<redacted by kuma doctor --report>\"\n".toList
def plainDoc : Entries := .cons "password".toList (.string "hunter2".toList) .nil

/-- A password in an inline table of an array. -/
def arrayText : List Char := "machines = [\x7b password = \"hunter2\" \x7d]\n".toList
def arrayDoc : Entries :=
  .cons "machines".toList
    (.array (.cons (.inlineTable (.cons "password".toList (.string "hunter2".toList) .nil)) .nil))
    .nil

theorem redaction_sound_plain :
    RedactionSound (readsOne plainText plainOut plainDoc) (fun _ _ => plainOut) plainText := by
  have hkey : "password".toList ∈ SECRET_KEYS := by decide
  have hredact : plainDoc.redact = .cons "password".toList (.string REDACTED) .nil := by
    unfold plainDoc
    rw [Entries.redact, if_pos hkey, Entries.redact]
  have hagain : plainDoc.redact.redact = plainDoc.redact := by
    rw [hredact, Entries.redact, if_pos hkey, Entries.redact]
  refine (redaction_sound_iff (faithful_readsOne hagain) plainText).mpr ?_
  intro doc hdoc
  have hread : readsOne plainText plainOut plainDoc plainText = some plainDoc := by
    unfold readsOne
    rw [if_neg (by decide), if_pos rfl]
  rw [hread] at hdoc
  cases hdoc
  left
  unfold plainDoc
  rw [Entries.NoneHidden]
  exact ⟨fun h => absurd hkey h, trivial⟩

/-- The walk passes the array by, and the guard reads another key on its line. -/
theorem redactDeclaration_array :
    Faithful (readsOne arrayText arrayText arrayDoc) (fun _ _ => arrayText) ∧
      redactDeclaration (readsOne arrayText arrayText arrayDoc) (fun _ _ => arrayText) arrayText =
        some arrayText ∧
      ¬ RedactionSound (readsOne arrayText arrayText arrayDoc) (fun _ _ => arrayText)
        arrayText := by
  have hmachines : "machines".toList ∉ SECRET_KEYS := by decide
  have hkey : "password".toList ∈ SECRET_KEYS := by decide
  have hguard : ¬ survived arrayText = true := by decide
  have hredact : arrayDoc.redact = arrayDoc := by
    unfold arrayDoc
    rw [Entries.redact, if_neg hmachines, Node.redact, Entries.redact]
  have hread : readsOne arrayText arrayText arrayDoc arrayText = some arrayDoc := by
    unfold readsOne
    rw [if_pos rfl, hredact]
  have hout : redactDeclaration (readsOne arrayText arrayText arrayDoc) (fun _ _ => arrayText)
      arrayText = some arrayText := by
    unfold redactDeclaration
    simp only [hread, if_neg hguard]
  refine ⟨faithful_readsOne (by rw [hredact, hredact]), hout, ?_⟩
  intro h
  obtain ⟨doc, hdoc, hall⟩ := h _ hout
  rw [hread] at hdoc
  cases hdoc
  unfold arrayDoc at hall
  simp only [Entries.AllRedacted, Nodes.AllRedacted, Node.AllRedacted, if_neg hmachines,
    if_pos hkey] at hall
  have hvalue := hall.1.1.1
  revert hvalue
  decide

end Kuma.Inspect
