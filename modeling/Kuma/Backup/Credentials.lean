import Kuma.Lib.Shell

/-! A credential file, the check that refuses what its readers would read differently, and the
shell loop in which the verb reads it. -/
namespace Kuma.Backup
open Kuma.Lib Kuma.Lib.Text

def LINE : List Char := "line".toList
def RESTIC_REPOSITORY : List Char := "RESTIC_REPOSITORY".toList
def RESTIC_PASSWORD : List Char := "RESTIC_PASSWORD".toList

/-- What no value may have in it. -/
def METACHARACTERS : List Char := ['$', '`', '"', '\'', '\\']

/-- A line to skip: blank, or a comment. -/
def isSkipped (line : List Char) : Bool := line.isEmpty || line.head? == some '#'

/-- The key of a line whose value the readers would not agree about. -/
def ambiguousValue (line : List Char) : Option (List Char) :=
  let trimmed := trim line
  if isSkipped trimmed then none
  else (splitOnce '=' trimmed).bind fun p =>
    if trimmed ≠ line ∨ p.1 ≠ trim p.1 ∨ p.2 ≠ trim p.2 ∨ p.2.any METACHARACTERS.contains then
      some (trim p.1)
    else none

def ambiguousValues (text : List Char) : List (List Char) :=
  (split '\n' text).filterMap ambiguousValue

def restoreFileIsUsable (text : List Char) : Except (List Char) Unit :=
  let names := (((lines text).map trim).filter (!isSkipped ·)).filterMap fun line =>
    (splitOnce '=' line).map fun p => trim p.1
  let ambiguous := ambiguousValues text
  if !names.contains RESTIC_REPOSITORY then
    .error ("the restore file must set RESTIC_REPOSITORY: the machine being restored has " ++
      "no declaration yet, so the address has to come from the file").toList
  else if !names.any fun name => (stripPrefix RESTIC_PASSWORD name).isSome then
    .error ("the restore file sets no RESTIC_PASSWORD (or RESTIC_PASSWORD_FILE), so " ++
      "nothing could open the repository").toList
  else if !ambiguous.isEmpty then
    .error ("the restore file sets ".toList ++ [',', ' '].intercalate ambiguous ++
      (" with a value carrying a quote, a backslash, `$` or a " ++
        "backtick. The first-boot restore reads this file through systemd and `kuma " ++
        "backup` reads it with a shell loop, and they do not agree about such a value, " ++
        "so write it as plain text. A repository made before kuma 0.17 was encrypted " ++
        "with the expanded value and needs `restic passwd` first.").toList)
  else .ok ()

/-- `case "$line" in ""|\#*) continue ;; esac; export "$line"` -/
def exportLine (sh : Shell) (line : List Char) (vars : Variables) : Option Variables :=
  if isSkipped line then some vars else sh.exportWord line vars

/-- `while IFS= read -r line || [ -n "$line" ]`: `read` fails on the last piece, which no
newline ends, and the loop still runs for it when there is something in it. -/
def readLoop (sh : Shell) : List (List Char) → Variables → Option Variables
  | [], vars => some vars
  | [last], vars => (sh.assign LINE last vars).bind fun vars =>
      if last = [] then some vars
      else (exportLine sh last vars).bind (sh.assign LINE [])
  | line :: rest, vars => (sh.assign LINE line vars).bind fun vars =>
      (exportLine sh line vars).bind (readLoop sh rest)

/-- The loop of `restic_argv` over a file. An error ends it. -/
def readCredentials (sh : Shell) (text : List Char) (vars : Variables) : Option Variables :=
  readLoop sh ((split '\n' text).map withoutNul) vars

variable {sh : Shell} {vars after : Variables} {text line name value : List Char}
  {ls : List (List Char)}

/-! ### The loop -/

/-- The value that a line has for a variable. -/
def assignmentFor (name line : List Char) : Option (List Char) :=
  if isSkipped line then none else Shell.valueFor name line

/-- The value that the last line with one has. -/
def lastValue (name : List Char) (ls : List (List Char)) : Option (List Char) :=
  ls.reverse.findSome? (assignmentFor name)

/-- A line that names a variable, with a value or without one. -/
def names (name line : List Char) : Bool := !isSkipped line && decide (Shell.nameOf line = name)

theorem lastValue_cons (name line : List Char) (ls : List (List Char)) :
    lastValue name (line :: ls) = (lastValue name ls).or (assignmentFor name line) := by
  unfold lastValue
  rw [List.reverse_cons, List.findSome?_append]
  simp

theorem isName_LINE : isName LINE = true := by decide

theorem exportLine_isSome_iff (vars : Variables) :
    (exportLine sh line vars).isSome ↔ isSkipped line = true ∨ sh.Exports line := by
  unfold exportLine
  cases hskip : isSkipped line with
  | true => simp
  | false => simpa using Shell.exportWord_isSome_iff

theorem exportLine_spec (h : exportLine sh line vars = some after) (hname : isName name = true) :
    after.value name = (assignmentFor name line).or (vars.value name) ∧
      after.exported name = (vars.exported name || names name line) := by
  unfold exportLine at h
  unfold assignmentFor names
  cases hskip : isSkipped line with
  | true =>
    rw [hskip, if_pos rfl] at h
    obtain rfl := Option.some.inj h
    simp
  | false =>
    rw [hskip, if_neg Bool.false_ne_true] at h
    simpa using Shell.exportWord_spec h hname

/-- The loop over all pieces alike: it ends with an empty `line`. -/
def readAll (sh : Shell) : List (List Char) → Variables → Option Variables
  | [], vars => sh.assign LINE [] vars
  | line :: rest, vars => (sh.assign LINE line vars).bind fun vars =>
      (exportLine sh line vars).bind (readAll sh rest)

/-- The last piece is a line like the others: an empty one is skipped. -/
theorem readLoop_last (sh : Shell) (last : List Char) (vars : Variables) :
    readLoop sh [last] vars = readAll sh [last] vars := by
  have hend : readAll sh [] = sh.assign LINE [] := rfl
  unfold readLoop readAll
  rw [hend]
  by_cases hlast : last = []
  · have hskip : exportLine sh [] = some := rfl
    rw [hlast]
    unfold Shell.assign
    by_cases h : isName LINE = true ∧ sh.readonly LINE = false
    · have hsame : (vars.assign LINE [] h.1).assign LINE [] h.1 = vars.assign LINE [] h.1 := by
        unfold Variables.assign
        simp
      simp only [h, and_self, dite_true, Option.bind_some, if_true, hskip]
      rw [hsame]
    · simp only [h, dite_false, Option.bind_none]
  · simp only [hlast, if_false]

theorem readLoop_eq (h : ls ≠ []) : readLoop sh ls vars = readAll sh ls vars := by
  induction ls generalizing vars with
  | nil => exact absurd rfl h
  | cons line rest ih =>
    cases rest with
    | nil => exact readLoop_last sh line vars
    | cons next rest =>
      have hrest : readLoop sh (next :: rest) = readAll sh (next :: rest) :=
        funext fun vars => ih (List.cons_ne_nil next rest)
      unfold readLoop readAll
      rw [hrest]

theorem assign_LINE_isSome_iff (value : List Char) (vars : Variables) :
    (sh.assign LINE value vars).isSome ↔ sh.readonly LINE = false := by
  unfold Shell.assign
  split_ifs with h
  · simpa using h.2
  · simpa [isName_LINE] using h

theorem readAll_isSome_iff :
    (readAll sh ls vars).isSome ↔ sh.readonly LINE = false ∧
      ∀ line ∈ ls, isSkipped line = true ∨ sh.Exports line := by
  induction ls generalizing vars with
  | nil =>
    unfold readAll
    simpa using assign_LINE_isSome_iff [] vars
  | cons line rest ih =>
    unfold readAll
    rw [List.forall_mem_cons]
    cases hread : sh.assign LINE line vars with
    | none =>
      have hreadonly : ¬ sh.readonly LINE = false := by
        rw [← assign_LINE_isSome_iff line vars, hread]
        exact Bool.false_ne_true
      simp [hreadonly]
    | some vars' =>
      have hreadonly : sh.readonly LINE = false := by
        rw [← assign_LINE_isSome_iff line vars, hread]
        rfl
      rw [Option.bind_some, ← exportLine_isSome_iff vars']
      cases hexport : exportLine sh line vars' with
      | none => simp
      | some vars'' => simpa [hreadonly] using ih

/-- What the loop leaves in a variable, and which it has marked. -/
theorem readAll_spec (h : readAll sh ls vars = some after) (hname : isName name = true) :
    after.value name =
        (if name = LINE then some [] else (lastValue name ls).or (vars.value name)) ∧
      after.exported name = (vars.exported name || ls.any (names name)) := by
  induction ls generalizing vars with
  | nil =>
    obtain ⟨-, -, rfl⟩ := Shell.assign_eq_some.mp h
    by_cases hline : name = LINE
    · simp [hline]
    · simp [hline, lastValue]
  | cons line rest ih =>
    unfold readAll at h
    obtain ⟨vars', hread, h⟩ := Option.bind_eq_some_iff.mp h
    obtain ⟨vars'', hexport, h⟩ := Option.bind_eq_some_iff.mp h
    obtain ⟨hvalue, hexported⟩ := ih h
    obtain ⟨hvalue'', hexported''⟩ := exportLine_spec hexport hname
    obtain ⟨_, _, rfl⟩ := Shell.assign_eq_some.mp hread
    constructor
    · rw [hvalue, hvalue'', lastValue_cons]
      by_cases hline : name = LINE
      · simp [hline]
      · rw [if_neg hline, if_neg hline, Variables.value_assign, Function.update_of_ne hline,
          Option.or_assoc]
    · rw [hexported, hexported'', List.any_cons, Variables.exported_assign, Bool.or_assoc]

end Kuma.Backup
