import Kuma.Lib.Shell

/-! What a shell makes of a script it sources, as far as the script is made of assignments:
quoting is read as the shell reads it, and whatever is no plain assignment is refused. -/
namespace Kuma.Lib
open Text

namespace Variables

def unset (vars : Variables) (name : List Char) : Variables where
  value := Function.update vars.value name none
  exported := Function.update vars.exported name false
  named := by
    intro other hother
    by_cases hname : other = name
    · rw [hname, Function.update_self] at hother
      cases hother
    · rw [Function.update_of_ne hname] at hother
      exact vars.named other hother

@[simp] theorem value_unset (vars : Variables) (name : List Char) :
    (vars.unset name).value = Function.update vars.value name none := rfl

@[simp] theorem exported_unset (vars : Variables) (name : List Char) :
    (vars.unset name).exported = Function.update vars.exported name false := rfl

/-- `unset` with several words. -/
def unsetAll (vars : Variables) (names : List (List Char)) : Variables := names.foldl unset vars

theorem value_unsetAll (vars : Variables) (names : List (List Char)) (name : List Char) :
    (vars.unsetAll names).value name = if name ∈ names then none else vars.value name := by
  unfold unsetAll
  induction names generalizing vars with
  | nil => simp
  | cons first names ih =>
    rw [List.foldl_cons, ih, value_unset]
    by_cases hname : name = first
    · simp [hname]
    · simp [hname]

theorem exported_unsetAll {vars vars' : Variables} (h : vars.exported = vars'.exported)
    (names : List (List Char)) :
    (vars.unsetAll names).exported = (vars'.unsetAll names).exported := by
  unfold unsetAll
  induction names generalizing vars vars' with
  | nil => exact h
  | cons first names ih =>
    rw [List.foldl_cons, List.foldl_cons]
    apply ih
    rw [exported_unset, exported_unset, h]

theorem ext_of_eq {vars vars' : Variables} (hvalue : vars.value = vars'.value)
    (hexported : vars.exported = vars'.exported) : vars = vars' := by
  cases vars
  cases vars'
  cases hvalue
  cases hexported
  rfl

end Variables

namespace Shell

/-- Where a shell is in an assignment: before it, in its name, or in one of the ways in which
its value may be written. -/
inductive Scan
  | start
  | comment
  | name (name : List Char)
  | value (name value : List Char)
  | quoted (name value : List Char)
  | escaped (name value : List Char)

/-- What is more than itself in a value without quotes. -/
def SPECIAL : List Char := ['$', '`', '"', ';', '&', '|', '<', '>', '(', ')', '~']

/-- The next character. Nothing comes of one that makes a command, an expansion or a
redirection of what would be an assignment. -/
def scan (sh : Shell) (c : Char) : Scan → Variables → Option (Scan × Variables)
  | .start, vars =>
    if [' ', '\t', '\n'].contains c then some (.start, vars)
    else if c = '#' then some (.comment, vars)
    else some (.name [c], vars)
  | .comment, vars => some (if c = '\n' then .start else .comment, vars)
  | .name name, vars =>
    if c = '=' then if isName name then some (.value name [], vars) else none
    else if c.isAlphanum || c == '_' then some (.name (name ++ [c]), vars)
    else none
  | .value name value, vars =>
    if [' ', '\t', '\n'].contains c then
      (sh.assign name value vars).map fun vars => (.start, vars)
    else if c = '\'' then some (.quoted name value, vars)
    else if c = '\\' then some (.escaped name value, vars)
    else if SPECIAL.contains c then none
    else some (.value name (value ++ [c]), vars)
  | .quoted name value, vars =>
    if c = '\'' then some (.value name value, vars)
    else some (.quoted name (value ++ [c]), vars)
  | .escaped name value, vars =>
    if c = '\n' then some (.value name value, vars)
    else some (.value name (value ++ [c]), vars)

/-- The end of the script. -/
def finish (sh : Shell) : Scan → Variables → Option Variables
  | .start, vars => some vars
  | .comment, vars => some vars
  | .value name value, vars => sh.assign name value vars
  | _, _ => none

def sourceFrom (sh : Shell) : Scan → List Char → Variables → Option Variables
  | scanned, [], vars => sh.finish scanned vars
  | scanned, c :: cs, vars => (sh.scan c scanned vars).bind fun p => sourceFrom sh p.1 cs p.2

/-- `. script`, where nothing but assignments is in the script. -/
def source (sh : Shell) (script : List Char) (vars : Variables) : Option Variables :=
  sh.sourceFrom .start (withoutNul script) vars

/-- A value between single quotes, where `'\''` stands for a quote. -/
def quoteEscape (value : List Char) : List Char :=
  value.flatMap fun c => if c = '\'' then ['\'', '\\', '\'', '\''] else [c]

/-- `name='value'` on a line. -/
def assignmentLine (name value : List Char) : List Char :=
  name ++ ['=', '\''] ++ value ++ ['\'', '\n']

variable {sh : Shell} {vars : Variables} {name value start text rest : List Char} {c : Char}

theorem sourceFrom_cons_of_scan {scanned scanned' : Scan} {vars' : Variables}
    (h : sh.scan c scanned vars = some (scanned', vars')) (rest : List Char) :
    sh.sourceFrom scanned (c :: rest) vars = sh.sourceFrom scanned' rest vars' := by
  rw [sourceFrom, h, Option.bind_some]

/-- A name is read to its end. -/
theorem sourceFrom_name (h : ∀ c ∈ text, c.isAlphanum = true ∨ c = '_')
    (hname : isName (start ++ text) = true) (rest : List Char) :
    sh.sourceFrom (.name start) (text ++ '=' :: rest) vars =
      sh.sourceFrom (.value (start ++ text) []) rest vars := by
  induction text generalizing start with
  | nil =>
    rw [List.append_nil] at hname ⊢
    apply sourceFrom_cons_of_scan
    simp only [scan, if_true, hname]
  | cons c text ih =>
    have hchar : (c.isAlphanum || c == '_') = true := by simpa using h c List.mem_cons_self
    have hequals : c ≠ '=' := by
      rintro rfl
      revert hchar
      decide
    have hscan : sh.scan c (.name start) vars = some (.name (start ++ [c]), vars) := by
      simp only [scan, if_neg hequals, if_pos hchar]
    have hwhole : start ++ c :: text = (start ++ [c]) ++ text := by simp
    rw [hwhole] at hname ⊢
    rw [List.cons_append, sourceFrom_cons_of_scan hscan]
    exact ih (fun d hd => h d (List.mem_cons_of_mem c hd)) hname

theorem quoteEscape_cons (c : Char) (value : List Char) :
    quoteEscape (c :: value) =
      (if c = '\'' then ['\'', '\\', '\'', '\''] else [c]) ++ quoteEscape value := rfl

/-- A quoted value is read back. -/
theorem sourceFrom_quoted (name start value rest : List Char) (vars : Variables) :
    sh.sourceFrom (.quoted name start) (quoteEscape value ++ rest) vars =
      sh.sourceFrom (.quoted name (start ++ value)) rest vars := by
  induction value generalizing start with
  | nil =>
    rw [List.append_nil]
    rfl
  | cons c value ih =>
    have hwhole : start ++ c :: value = (start ++ [c]) ++ value := by simp
    rw [hwhole, ← ih, quoteEscape_cons]
    by_cases hquote : c = '\''
    · -- the value is left, a quote is escaped, and the value is entered again
      rw [if_pos hquote, hquote]
      rfl
    · have hscan : sh.scan c (.quoted name start) vars =
          some (.quoted name (start ++ [c]), vars) := by
        simp only [scan, if_neg hquote]
      rw [if_neg hquote, List.append_assoc, List.singleton_append, sourceFrom_cons_of_scan hscan]

/-- One assignment is read and made. -/
theorem sourceFrom_assignmentLine (hname : isName name = true) (value rest : List Char)
    (vars : Variables) :
    sh.sourceFrom .start (assignmentLine name (quoteEscape value) ++ rest) vars =
      (sh.assign name value vars).bind (sh.sourceFrom .start rest) := by
  obtain ⟨first, others, rfl⟩ : ∃ first others, name = first :: others := by
    cases name with
    | nil => cases hname
    | cons first others => exact ⟨first, others, rfl⟩
  have hchars := chars_of_isName hname
  have hfirst : sh.scan first .start vars = some (.name [first], vars) := by
    have hother : ∀ c ∈ [' ', '\t', '\n', '#'], ¬ (c.isAlphanum = true ∨ c = '_') :=
      List.forall_iff_forall_mem.mp (by decide)
    have hplain : first ∉ [' ', '\t', '\n', '#'] :=
      fun hmem => hother first hmem (hchars first List.mem_cons_self)
    have hblank : [' ', '\t', '\n'].contains first = false := by
      rw [← Bool.not_eq_true, List.contains_iff_mem]
      intro hmem
      exact hplain (List.mem_append_left ['#'] hmem)
    have hcomment : first ≠ '#' := by
      rintro rfl
      exact hplain (by decide)
    simp only [scan, hblank, Bool.false_eq_true, if_false, if_neg hcomment]
  have hline : assignmentLine (first :: others) (quoteEscape value) ++ rest =
      first :: (others ++ '=' :: '\'' :: (quoteEscape value ++ '\'' :: '\n' :: rest)) := by
    simp [assignmentLine]
  have hopen : sh.scan '\'' (.value (first :: others) []) vars =
      some (.quoted (first :: others) [], vars) := rfl
  have hclose : sh.scan '\'' (.quoted (first :: others) value) vars =
      some (.value (first :: others) value, vars) := rfl
  have hend : sh.scan '\n' (.value (first :: others) value) vars =
      (sh.assign (first :: others) value vars).map fun vars => (.start, vars) := rfl
  rw [hline, sourceFrom_cons_of_scan hfirst,
    sourceFrom_name (fun c hc => hchars c (List.mem_cons_of_mem first hc)) hname,
    List.singleton_append, sourceFrom_cons_of_scan hopen, sourceFrom_quoted, List.nil_append,
    sourceFrom_cons_of_scan hclose, sourceFrom, hend]
  cases sh.assign (first :: others) value vars <;> rfl

/-! ### Scripts of assignments -/

/-- The lines for the fields that have a value. -/
def assignments (fields : List (List Char × Option (List Char))) : List Char :=
  fields.flatMap fun field =>
    field.2.elim [] fun value => assignmentLine field.1 (quoteEscape value)

/-- The value that a field has. -/
def fieldValue (fields : List (List Char × Option (List Char))) (name : List Char) :
    Option (List Char) :=
  (fields.find? fun field => field.1 = name).bind Prod.snd

theorem withoutNul_quoteEscape (value : List Char) :
    withoutNul (quoteEscape value) = quoteEscape (withoutNul value) := by
  induction value with
  | nil => rfl
  | cons c value ih =>
    rw [quoteEscape_cons, withoutNul_append, ih]
    by_cases hnul : c = '\x00'
    · rw [hnul]
      rfl
    · rw [withoutNul_cons hnul, quoteEscape_cons]
      congr 1
      split_ifs
      · rfl
      · exact withoutNul_cons hnul []

theorem withoutNul_assignmentLine (hname : isName name = true) (value : List Char) :
    withoutNul (assignmentLine name (quoteEscape value)) =
      assignmentLine name (quoteEscape (withoutNul value)) := by
  unfold assignmentLine
  rw [withoutNul_append, withoutNul_append, withoutNul_append, withoutNul_of_isName hname,
    withoutNul_quoteEscape]
  rfl

/-- A text without quotes is between quotes as it is. -/
theorem quoteEscape_of_notMem (h : '\'' ∉ value) : quoteEscape value = value := by
  induction value with
  | nil => rfl
  | cons c value ih =>
    rw [List.mem_cons, not_or] at h
    rw [quoteEscape_cons, if_neg (Ne.symm h.1), ih h.2, List.singleton_append]

theorem fieldValue_cons (key : List Char) (setting : Option (List Char))
    (fields : List (List Char × Option (List Char))) (name : List Char) :
    fieldValue ((key, setting) :: fields) name =
      if key = name then setting else fieldValue fields name := by
  unfold fieldValue
  rw [List.find?_cons]
  by_cases hkey : key = name
  · simp [hkey]
  · simp [hkey]

theorem fieldValue_of_notMem {fields : List (List Char × Option (List Char))}
    (h : name ∉ fields.map Prod.fst) : fieldValue fields name = none := by
  have hfind : (fields.find? fun field => field.1 = name) = none := by
    rw [List.find?_eq_none]
    intro field hfield hsame
    exact h (List.mem_map.mpr ⟨field, hfield, of_decide_eq_true hsame⟩)
  unfold fieldValue
  rw [hfind, Option.bind_none]

/-- A script of assignments gives each field its value, without NULs, and runs nothing else. -/
theorem source_assignments {fields : List (List Char × Option (List Char))}
    (hnames : ∀ field ∈ fields, isName field.1 = true ∧ sh.readonly field.1 = false)
    (hdistinct : (fields.map Prod.fst).Nodup) (vars : Variables) :
    ∃ after, sh.source (assignments fields) vars = some after ∧
      after.exported = vars.exported ∧
      ∀ name, after.value name =
        ((fieldValue fields name).map withoutNul).or (vars.value name) := by
  unfold source
  induction fields generalizing vars with
  | nil => exact ⟨vars, rfl, rfl, fun _ => rfl⟩
  | cons field fields ih =>
    obtain ⟨key, setting⟩ := field
    rw [List.map_cons, List.nodup_cons] at hdistinct
    obtain ⟨hname, hreadonly⟩ := hnames _ List.mem_cons_self
    have hrest := ih (fun other hother => hnames other (List.mem_cons_of_mem _ hother)) hdistinct.2
    have hnone : fieldValue fields key = none := fieldValue_of_notMem hdistinct.1
    cases setting with
    | none =>
      obtain ⟨after, hsource, hexported, hvalue⟩ := hrest vars
      refine ⟨after, hsource, hexported, ?_⟩
      intro name
      rw [hvalue, fieldValue_cons]
      by_cases hkey : key = name
      · rw [if_pos hkey, ← hkey, hnone]
      · rw [if_neg hkey]
    | some value =>
      obtain ⟨after, hsource, hexported, hvalue⟩ :=
        hrest (vars.assign key (withoutNul value) hname)
      refine ⟨after, ?_, hexported, ?_⟩
      · have hscript : assignments ((key, some value) :: fields) =
            assignmentLine key (quoteEscape value) ++ assignments fields := rfl
        have hassign : sh.assign key (withoutNul value) vars =
            some (vars.assign key (withoutNul value) hname) :=
          assign_eq_some.mpr ⟨hname, hreadonly, rfl⟩
        rw [hscript, withoutNul_append, withoutNul_assignmentLine hname,
          sourceFrom_assignmentLine hname, hassign, Option.bind_some]
        exact hsource
      · intro name
        rw [hvalue, fieldValue_cons, Variables.value_assign]
        by_cases hkey : key = name
        · rw [if_pos hkey, ← hkey, hnone, Function.update_self]
          rfl
        · rw [if_neg hkey, Function.update_of_ne (Ne.symm hkey)]

end Shell
end Kuma.Lib
