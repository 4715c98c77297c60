import Kuma.Backup.Credentials

/-! The `EnvironmentFile=` through which the units read a credential file, and the files that
the verb's loop reads like them. -/
namespace Kuma.Backup
open Kuma.Lib Kuma.Lib.Text

/-- What systemd takes for whitespace. -/
def isSystemdSpace (c : Char) : Bool := [' ', '\t', '\n', '\r'].contains c

/-- One line of an `EnvironmentFile=`. -/
def environmentLine (line : List Char) : Option (List Char × List Char) :=
  let start := line.dropWhile isSystemdSpace
  if isSkipped start || start.head? == some ';' then none
  else (splitOnce '=' start).map fun p =>
    let value := (p.2.dropWhile isSystemdSpace).rdropWhile isSystemdSpace
    (p.1.rdropWhile isSystemdSpace, ((unquote '"' value).or (unquote '\'' value)).getD value)

/-- The value a variable has from an `EnvironmentFile=`: the last line that sets it counts. -/
def environmentFile (text name : List Char) : Option (List Char) :=
  (split '\n' text).reverse.findSome? fun line =>
    (environmentLine line).bind fun p => if p.1 = name then some p.2 else none

/-- The loop runs to its end, and what it sets is what the units are given. -/
def OneMeaning (sh : Shell) (vars : Variables) (text : List Char) : Prop :=
  ∃ after, readCredentials sh text vars = some after ∧
    ∀ name, after.environment name = (environmentFile text name).or (vars.environment name)

variable {sh : Shell} {vars after : Variables} {text line name value : List Char}
  {ls : List (List Char)}

/-! ### The units' reader -/

/-- A line that the loop takes and the units read alike: one that both skip, one without a
value, or one that gives a name its value. -/
def Plain (sh : Shell) (line : List Char) : Prop :=
  isSkipped line = true ∨
    ('=' ∉ line ∧ (isSkipped (withoutNul line) = true ∨ sh.Exports (withoutNul line))) ∨
    ('=' ∈ line ∧ isName (Shell.nameOf line) = true ∧ sh.readonly (Shell.nameOf line) = false)

theorem isWhiteSpace_of_isSystemdSpace {c : Char} (h : isSystemdSpace c = true) :
    isWhiteSpace c = true := by
  have hmem : c ∈ [' ', '\t', '\n', '\r'] := List.contains_iff_mem.mp h
  have hall : ∀ c ∈ [' ', '\t', '\n', '\r'], isWhiteSpace c = true :=
    List.forall_iff_forall_mem.mp (by decide)
  exact hall c hmem

theorem isSystemdSpace_of_not {c : Char} (h : isWhiteSpace c = false) :
    isSystemdSpace c = false := by
  by_contra hspace
  rw [isWhiteSpace_of_isSystemdSpace (by simpa using hspace)] at h
  cases h

/-- No character of a name is whitespace, starts a comment or ends a key. -/
theorem isName_spec {c : Char} (h : isName name = true) (hc : c ∈ name) :
    isWhiteSpace c = false ∧ c ∉ ['#', ';', '='] := by
  rcases chars_of_isName h c hc with halnum | rfl
  · refine ⟨isWhiteSpace_of_isAlphanum halnum, ?_⟩
    intro hspecial
    have hnone : ∀ c ∈ ['#', ';', '='], c.isAlphanum = false :=
      List.forall_iff_forall_mem.mp (by decide)
    rw [hnone c hspecial] at halnum
    cases halnum
  · decide

/-- A line that starts with a name is none to skip. -/
theorem isSkipped_of_isName (h : isName name = true) (rest : List Char) :
    isSkipped (name ++ rest) = false := by
  cases name with
  | nil => cases h
  | cons first others =>
    have hspecial := (isName_spec h List.mem_cons_self).2
    have hcomment : first ≠ '#' := ne_of_mem_of_not_mem (by decide) hspecial |>.symm
    simpa [isSkipped] using hcomment

theorem isSkipped_withoutNul (h : isSkipped line = true) : isSkipped (withoutNul line) = true := by
  cases line with
  | nil => rfl
  | cons c rest =>
    obtain rfl : c = '#' := by simpa [isSkipped] using h
    rw [withoutNul_cons (by decide)]
    rfl

theorem dropWhile_systemd_cons {c : Char} (h : isWhiteSpace c = false) (rest : List Char) :
    (c :: rest).dropWhile isSystemdSpace = c :: rest :=
  List.dropWhile_cons_of_neg (by simp [isSystemdSpace_of_not h])

theorem rdropWhile_systemd {text : List Char} (h : trimEnd text = text) :
    text.rdropWhile isSystemdSpace = text := by
  rw [List.rdropWhile_eq_self_iff]
  intro hne hspace
  exact List.rdropWhile_eq_self_iff.mp h hne (isWhiteSpace_of_isSystemdSpace hspace)

/-- A name at the end of a text is there to the end. -/
theorem trimEnd_of_isName (h : isName name = true) : trimEnd name = name := by
  unfold trimEnd
  rw [List.rdropWhile_eq_self_iff]
  intro hne hspace
  rw [(isName_spec h (List.getLast_mem hne)).1] at hspace
  cases hspace

theorem environmentLine_of_notMem (h : '=' ∉ line) : environmentLine line = none := by
  have hdrop : '=' ∉ line.dropWhile isSystemdSpace := by
    intro hmem
    exact h ((List.dropWhile_suffix isSystemdSpace).subset hmem)
  unfold environmentLine
  simp [splitOnce_eq_none.mpr hdrop]

theorem environmentLine_of_skipped (h : isSkipped line = true) : environmentLine line = none := by
  cases line with
  | nil => rfl
  | cons c rest =>
    have hc : c = '#' := by simpa [isSkipped] using h
    unfold environmentLine
    rw [hc, dropWhile_systemd_cons (by decide)]
    rfl

theorem exists_cons_of_isName (h : isName name = true) :
    ∃ first others, name = first :: others ∧ isWhiteSpace first = false ∧ first ≠ ';' := by
  cases name with
  | nil => cases h
  | cons first others =>
    obtain ⟨hfirst, hspecial⟩ := isName_spec h List.mem_cons_self
    exact ⟨first, others, rfl, hfirst, ne_of_mem_of_not_mem (by decide) hspecial |>.symm⟩

/-- The value of a name that the check lets through is trimmed and has no metacharacter. -/
theorem value_of_accepted (haccepted : ambiguousValue line = none) (hname : isName name = true)
    (hline : splitOnce '=' line = some (name, value)) :
    trim value = value ∧ trimEnd value = value ∧ value.any METACHARACTERS.contains = false := by
  obtain ⟨rfl, hfree⟩ := splitOnce_eq_some hline
  obtain ⟨first, others, rfl, hfirst, -⟩ := exists_cons_of_isName hname
  have htrim : trim (first :: others ++ '=' :: value) =
      first :: others ++ '=' :: trimEnd value := by
    rw [List.cons_append, trim_cons hfirst, ← List.cons_append]
    exact trimEnd_append (by decide)
  have hkept := isSkipped_of_isName hname ('=' :: trimEnd value)
  unfold ambiguousValue at haccepted
  simp only [htrim, hkept, splitOnce_append hfree, Bool.false_eq_true, if_false, Option.bind_some]
    at haccepted
  split_ifs at haccepted with hambiguous
  simp only [not_or, not_not] at hambiguous
  obtain ⟨hsame, -, hvalue, hplain⟩ := hambiguous
  have hend : trimEnd value = value := (List.cons.inj (List.append_cancel_left hsame)).2
  rw [hend] at hvalue hplain
  exact ⟨hvalue.symm, hend, by simpa using hplain⟩

/-- A value without metacharacters is in no quotes. -/
theorem unquote_of_plain {quote : Char} (h : value.any METACHARACTERS.contains = false)
    (hquote : quote ∈ METACHARACTERS) : unquote quote value = none := by
  by_contra hsome
  obtain ⟨inner, hinner⟩ := Option.ne_none_iff_exists'.mp hsome
  obtain ⟨rest, hrest, -⟩ := Option.bind_eq_some_iff.mp hinner
  have hany : value.any METACHARACTERS.contains = true := by
    rw [List.any_eq_true]
    refine ⟨quote, ?_, List.contains_iff_mem.mpr hquote⟩
    rw [stripPrefix_eq_some.mp hrest]
    exact List.mem_cons_self
  rw [h] at hany
  cases hany

/-- A value that the check lets through is what the units read. -/
theorem environmentLine_of_name (haccepted : ambiguousValue line = none)
    (hname : isName name = true) (hline : splitOnce '=' line = some (name, value)) :
    environmentLine line = some (name, value) := by
  obtain ⟨hvalue, hend, hplain⟩ := value_of_accepted haccepted hname hline
  obtain ⟨rfl, hfree⟩ := splitOnce_eq_some hline
  obtain ⟨first, others, rfl, hfirst, hsemicolon⟩ := exists_cons_of_isName hname
  have hstart : value.dropWhile isSystemdSpace = value := by
    cases hcase : value with
    | nil => rfl
    | cons c rest =>
      rw [hcase] at hvalue
      exact dropWhile_systemd_cons (isWhiteSpace_head_trim hvalue) rest
  have hdouble : unquote '"' value = none := unquote_of_plain hplain (by decide)
  have hsingle : unquote '\'' value = none := unquote_of_plain hplain (by decide)
  have hbare := isSkipped_of_isName hname ('=' :: value)
  have hhead : ((first :: others ++ '=' :: value).head? == some ';') = false := by
    simpa using hsemicolon
  unfold environmentLine
  rw [List.cons_append, dropWhile_systemd_cons hfirst, ← List.cons_append]
  simp only [hbare, hhead, Bool.or_self, Bool.false_eq_true, if_false, splitOnce_append hfree,
    Option.map_some, hstart, rdropWhile_systemd hend, hdouble, hsingle, Option.or_none,
    Option.getD_none, rdropWhile_systemd (trimEnd_of_isName hname)]

theorem environmentLine_of_plain (haccepted : ambiguousValue line = none) (h : Plain sh line) :
    environmentLine line = if isSkipped line then none else splitOnce '=' line := by
  cases hskip : isSkipped line with
  | true => exact environmentLine_of_skipped hskip
  | false =>
    rw [if_neg Bool.false_ne_true]
    rcases h with h | ⟨hnot, -⟩ | ⟨hmem, hname, -⟩
    · rw [hskip] at h
      cases h
    · rw [splitOnce_eq_none.mpr hnot]
      exact environmentLine_of_notMem hnot
    · cases hsplit : splitOnce '=' line with
      | none => exact absurd hmem (splitOnce_eq_none.mp hsplit)
      | some p =>
        rw [Shell.nameOf_of_split hsplit] at hname
        exact environmentLine_of_name haccepted hname hsplit

theorem mem_rdropWhile {c : Char} (h : isSystemdSpace c = false) (hc : c ∈ text) :
    c ∈ text.rdropWhile isSystemdSpace := by
  unfold List.rdropWhile
  rw [List.mem_reverse]
  rw [← List.mem_reverse, ← List.takeWhile_append_dropWhile (p := isSystemdSpace)
    (l := text.reverse), List.mem_append] at hc
  rcases hc with hc | hc
  · rw [List.mem_takeWhile_imp hc] at h
    cases h
  · exact hc

/-- The key that the units have from a line that is no comment for them. -/
theorem environmentLine_of_head {c : Char} (hspace : isSystemdSpace c = false)
    (hc : c ∉ ['#', ';']) (hmem : '=' ∈ c :: line) :
    ∃ value, environmentLine (c :: line) =
      some ((Shell.nameOf (c :: line)).rdropWhile isSystemdSpace, value) := by
  have hcomment : c ≠ '#' := ne_of_mem_of_not_mem (by decide) hc |>.symm
  have hsemicolon : c ≠ ';' := ne_of_mem_of_not_mem (by decide) hc |>.symm
  have hskip : isSkipped (c :: line) = false := by simpa [isSkipped] using hcomment
  have hhead : ((c :: line).head? == some ';') = false := by simpa using hsemicolon
  obtain ⟨p, hsplit⟩ : ∃ p, splitOnce '=' (c :: line) = some p := by
    by_contra hnone
    apply splitOnce_eq_none.mp _ hmem
    rw [Option.eq_none_iff_forall_ne_some]
    intro p hp
    exact hnone ⟨p, hp⟩
  unfold environmentLine
  rw [List.dropWhile_cons_of_neg (by simp [hspace]), Shell.nameOf_of_split hsplit]
  simp only [hskip, hhead, Bool.or_self, Bool.false_eq_true, if_false, hsplit, Option.map_some]
  exact ⟨_, rfl⟩

/-- The name of a line, read without NULs. -/
theorem nameOf_withoutNul (line : List Char) :
    Shell.nameOf (withoutNul line) = withoutNul (Shell.nameOf line) := by
  by_cases hmem : '=' ∈ line
  · obtain ⟨start, rest, hline, hstart⟩ := List.eq_append_cons_of_mem hmem
    have hstart' : '=' ∉ withoutNul start := fun h => hstart (List.mem_of_mem_filter h)
    have hread : withoutNul line = withoutNul start ++ '=' :: withoutNul rest := by
      rw [hline, withoutNul_append, withoutNul_cons (by decide)]
    rw [hread, Shell.nameOf_of_split (splitOnce_append hstart'), hline,
      Shell.nameOf_of_split (splitOnce_append hstart)]
  · have hread : '=' ∉ withoutNul line := fun h => hmem (List.mem_of_mem_filter h)
    rw [Shell.nameOf_of_notMem hread, Shell.nameOf_of_notMem hmem]

/-- What stands in a line's name stands in the units' key. -/
theorem char_of_keys {c d : Char} (hkeys : ∀ p, environmentLine (c :: line) = some p →
    isName p.1 = true) (hmem : '=' ∈ c :: line) (hspace : isSystemdSpace c = false)
    (hc : c ∉ ['#', ';']) (hd : isSystemdSpace d = false)
    (hmemd : d ∈ Shell.nameOf (c :: line)) : d.isAlphanum = true ∨ d = '_' := by
  obtain ⟨value, hline⟩ := environmentLine_of_head hspace hc hmem
  exact chars_of_isName (hkeys _ hline) d (mem_rdropWhile hd hmemd)

theorem head_mem_nameOf {c : Char} (h : c ≠ '=') (line : List Char) :
    c ∈ Shell.nameOf (c :: line) := by
  unfold Shell.nameOf splitOnce
  rw [if_neg h]
  cases splitOnce '=' line <;> simp

/-- A line that the loop takes is plain when the units have only names from it. -/
theorem plain_of_taken
    (htaken : isSkipped (withoutNul line) = true ∨ sh.Exports (withoutNul line))
    (hkeys : ∀ p, environmentLine line = some p → isName p.1 = true) : Plain sh line := by
  by_cases hmem : '=' ∈ line
  swap
  · exact Or.inr (Or.inl ⟨hmem, htaken⟩)
  cases hskip : isSkipped line with
  | true => exact Or.inl hskip
  | false =>
    obtain ⟨c, rest, rfl⟩ := List.exists_cons_of_ne_nil (List.ne_nil_of_mem hmem)
    by_cases hnul : c = '\x00'
    · subst hnul
      have hbad := char_of_keys hkeys hmem (by decide) (by decide) (by decide)
        (head_mem_nameOf (by decide) rest)
      exact absurd hbad (by decide)
    rw [withoutNul_cons hnul] at htaken
    rcases htaken with htaken | ⟨hdash, -⟩ | ⟨hname, hreadonly⟩
    · have hboth : isSkipped (c :: rest) = isSkipped (c :: withoutNul rest) := rfl
      rw [hboth, htaken] at hskip
      cases hskip
    · obtain rfl : c = '-' := by simpa using hdash
      have hbad := char_of_keys hkeys hmem (by decide) (by decide) (by decide)
        (head_mem_nameOf (by decide) rest)
      exact absurd hbad (by decide)
    · rw [← withoutNul_cons hnul, nameOf_withoutNul] at hname hreadonly
      have hequals : c ≠ '=' := by
        rintro rfl
        cases hname
      have hcname : c ∈ withoutNul (Shell.nameOf (c :: rest)) :=
        List.mem_filter.mpr ⟨head_mem_nameOf hequals rest, by simpa using hnul⟩
      obtain ⟨hwhite, hspecial⟩ := isName_spec hname hcname
      have hc : c ∉ ['#', ';'] := fun h => hspecial (List.mem_append_left ['='] h)
      have hclean : '\x00' ∉ Shell.nameOf (c :: rest) := by
        intro h
        have hbad := char_of_keys hkeys hmem (isSystemdSpace_of_not hwhite) hc (by decide) h
        exact absurd hbad (by decide)
      rw [withoutNul_eq_self_iff.mpr hclean] at hname hreadonly
      refine Or.inr (Or.inr ⟨hmem, hname, hreadonly ?_⟩)
      exact List.mem_filter.mpr ⟨hmem, by decide⟩

/-! ### One meaning -/

/-- A file that the loop and the units read alike. -/
structure ReadAlike (sh : Shell) (vars : Variables) (text : List Char) : Prop where
  plain : ∀ line ∈ split '\n' text, Plain sh line
  /-- The value that counts is one that a variable can hold. -/
  clean : ∀ name value, name ≠ LINE → lastValue name (split '\n' text) = some value →
    '\x00' ∉ value
  /-- A bare name is of no variable that the shell has for itself alone. -/
  bare : ∀ name ∈ (split '\n' text).map withoutNul, isName name = true → name ≠ LINE →
    vars.exported name = false → lastValue name (split '\n' text) = none → vars.value name = none
  free : sh.readonly LINE = false
  /-- The loop's own variable is given to nobody, or it is to be empty. -/
  own : vars.exported LINE = true ∨ ((split '\n' text).map withoutNul).any (names LINE) = true →
    (lastValue LINE (split '\n' text)).or (vars.environment LINE) = some []

theorem accepted_of_ambiguousValues (h : ambiguousValues text = []) :
    ∀ line ∈ split '\n' text, ambiguousValue line = none :=
  List.filterMap_eq_nil_iff.mp h

theorem findSome_congr {α β : Type} {f g : α → Option β} {l : List α}
    (h : ∀ a ∈ l, f a = g a) : l.findSome? f = l.findSome? g := by
  induction l with
  | nil => rfl
  | cons a l ih =>
    have hrest : ∀ b ∈ l, f b = g b := fun b hb => h b (List.mem_cons_of_mem a hb)
    rw [List.findSome?_cons, List.findSome?_cons, h a List.mem_cons_self, ih hrest]

theorem environmentFile_eq (haccepted : ∀ line ∈ split '\n' text, ambiguousValue line = none)
    (hplain : ∀ line ∈ split '\n' text, Plain sh line) (name : List Char) :
    environmentFile text name = lastValue name (split '\n' text) := by
  have hline : ∀ line ∈ split '\n' text,
      ((environmentLine line).bind fun p => if p.1 = name then some p.2 else none) =
        assignmentFor name line := by
    intro line hmem
    rw [environmentLine_of_plain (haccepted line hmem) (hplain line hmem)]
    unfold assignmentFor
    split_ifs <;> rfl
  unfold environmentFile lastValue
  apply findSome_congr
  intro line hmem
  exact hline line (List.mem_reverse.mp hmem)

/-- What a plain line has for a variable, read without NULs. -/
theorem assignmentFor_withoutNul (h : Plain sh line) (name : List Char) :
    assignmentFor name (withoutNul line) = (assignmentFor name line).map withoutNul := by
  have hnone : ∀ line, '=' ∉ line → assignmentFor name line = none := by
    intro line hmem
    unfold assignmentFor
    rw [Shell.valueFor_of_notMem hmem, ite_self]
  rcases h with hskip | ⟨hmem, -⟩ | ⟨hmem, hname, -⟩
  · unfold assignmentFor
    rw [hskip, isSkipped_withoutNul hskip]
    rfl
  · have hread : '=' ∉ withoutNul line := fun h => hmem (List.mem_of_mem_filter h)
    rw [hnone line hmem, hnone _ hread]
    rfl
  · obtain ⟨start, rest, rfl, hstart⟩ := List.eq_append_cons_of_mem hmem
    rw [Shell.nameOf_of_split (splitOnce_append hstart)] at hname
    have hkey := withoutNul_of_isName hname
    have hread : withoutNul (start ++ '=' :: rest) = start ++ '=' :: withoutNul rest := by
      rw [withoutNul_append, withoutNul_cons (by decide), hkey]
    unfold assignmentFor Shell.valueFor
    rw [hread, isSkipped_of_isName hname, isSkipped_of_isName hname, splitOnce_append hstart,
      splitOnce_append hstart]
    by_cases hsame : start = name
    · simp [hsame]
    · simp [hsame]

theorem lastValue_withoutNul (h : ∀ line ∈ ls, Plain sh line) (name : List Char) :
    lastValue name (ls.map withoutNul) = (lastValue name ls).map withoutNul := by
  unfold lastValue
  rw [← List.map_reverse, List.findSome?_map, List.map_findSome?]
  apply findSome_congr
  intro line hmem
  exact assignmentFor_withoutNul (h line (List.mem_reverse.mp hmem)) name

theorem readCredentials_eq (sh : Shell) (text : List Char) (vars : Variables) :
    readCredentials sh text vars = readAll sh ((split '\n' text).map withoutNul) vars := by
  apply readLoop_eq
  simpa using split_ne_nil '\n' text

/-- What the loop gives the commands after it. -/
theorem environment_readCredentials (h : readCredentials sh text vars = some after)
    (hplain : ∀ line ∈ split '\n' text, Plain sh line) (hname : isName name = true) :
    after.environment name =
      if (vars.exported name || ((split '\n' text).map withoutNul).any (names name)) = true then
        if name = LINE then some []
        else ((lastValue name (split '\n' text)).map withoutNul).or (vars.value name)
      else none := by
  rw [readCredentials_eq] at h
  obtain ⟨hvalue, hexported⟩ := readAll_spec h hname
  unfold Variables.environment
  rw [hvalue, hexported, lastValue_withoutNul hplain]

/-- A line with a value for a variable names it. -/
theorem names_of_lastValue (h : (lastValue name ls).isSome) : ls.any (names name) = true := by
  obtain ⟨line, hline, hsome⟩ := List.findSome?_isSome_iff.mp h
  obtain ⟨value, hvalue⟩ := Option.isSome_iff_exists.mp hsome
  unfold assignmentFor at hvalue
  split_ifs at hvalue with hskip
  rw [List.any_eq_true]
  refine ⟨line, List.mem_reverse.mp hline, ?_⟩
  unfold names
  simp [hskip, Shell.nameOf_of_valueFor hvalue]

/-- A line that names a variable and has no value for it is the bare name. -/
theorem bare_of_names (h : names name line = true) (hnone : assignmentFor name line = none) :
    line = name := by
  unfold names at h
  rw [Bool.and_eq_true, decide_eq_true_eq] at h
  obtain ⟨hskip, hname⟩ := h
  unfold assignmentFor at hnone
  rw [if_neg (by simpa using hskip)] at hnone
  by_cases hmem : '=' ∈ line
  · obtain ⟨start, rest, hline, hstart⟩ := List.eq_append_cons_of_mem hmem
    have hsplit : splitOnce '=' line = some (start, rest) := by
      rw [hline]
      exact splitOnce_append hstart
    have hvalue : Shell.valueFor name line = some rest := by
      rw [Shell.valueFor_eq_some, hsplit, ← hname, Shell.nameOf_of_split hsplit]
    rw [hvalue] at hnone
    cases hnone
  · rw [← hname, Shell.nameOf_of_notMem hmem]

/-- A bare name is a line that names it. -/
theorem names_self (h : isName name = true) : names name name = true := by
  have hskip : isSkipped name = false := by
    simpa using isSkipped_of_isName h []
  have hequals : '=' ∉ name := by
    intro hmem
    exact (isName_spec h hmem).2 (by decide)
  unfold names
  rw [hskip, Shell.nameOf_of_notMem hequals]
  simp

/-- What has a value in a plain file is a name. -/
theorem isName_of_lastValue (hplain : ∀ line ∈ ls, Plain sh line)
    (h : (lastValue name ls).isSome) : isName name = true := by
  obtain ⟨line, hline, hsome⟩ := List.findSome?_isSome_iff.mp h
  obtain ⟨value, hvalue⟩ := Option.isSome_iff_exists.mp hsome
  unfold assignmentFor at hvalue
  split_ifs at hvalue with hskip
  rcases hplain line (List.mem_reverse.mp hline) with hskip' | ⟨hequals, -⟩ | ⟨-, hname, -⟩
  · exact absurd hskip' hskip
  · rw [Shell.valueFor_of_notMem hequals] at hvalue
    cases hvalue
  · rw [← Shell.nameOf_of_valueFor hvalue]
    exact hname

theorem plain_of_oneMeaning (h : OneMeaning sh vars text) :
    ∀ line ∈ split '\n' text, Plain sh line := by
  obtain ⟨after, hloop, hsame⟩ := h
  have hsome : (readAll sh ((split '\n' text).map withoutNul) vars).isSome := by
    rw [← readCredentials_eq, hloop]
    rfl
  have htaken := (readAll_isSome_iff.mp hsome).2
  intro line hmem
  apply plain_of_taken (htaken _ (List.mem_map_of_mem hmem))
  intro p hp
  have hset : (environmentFile text p.1).isSome := by
    unfold environmentFile
    rw [List.findSome?_isSome_iff]
    refine ⟨line, List.mem_reverse.mpr hmem, ?_⟩
    rw [hp, Option.bind_some, if_pos rfl]
    rfl
  obtain ⟨value, hvalue⟩ := Option.isSome_iff_exists.mp hset
  by_contra hnot
  have hnone := hsame p.1
  rw [Variables.environment_of_not_isName (by simpa using hnot), hvalue] at hnone
  cases hnone

theorem readAlike_of_oneMeaning (haccepted : ambiguousValues text = [])
    (h : OneMeaning sh vars text) : ReadAlike sh vars text := by
  have hplain := plain_of_oneMeaning h
  obtain ⟨after, hloop, hsame⟩ := h
  have hfile := environmentFile_eq (accepted_of_ambiguousValues haccepted) hplain
  refine ⟨hplain, ?clean, ?bare, ?free, ?own⟩
  case clean =>
    intro name value hline hlast
    have hsome : (lastValue name (split '\n' text)).isSome := by
      rw [hlast]
      rfl
    have hname := isName_of_lastValue hplain hsome
    have hafter := hsame name
    rw [environment_readCredentials hloop hplain hname, hfile, hlast, if_neg hline] at hafter
    split_ifs at hafter
    · exact withoutNul_eq_self_iff.mp (Option.some.inj hafter)
    · cases hafter
  case bare =>
    intro name hmem hname hline hexported hnone
    have hnamed : ((split '\n' text).map withoutNul).any (names name) = true :=
      List.any_eq_true.mpr ⟨name, hmem, names_self hname⟩
    have hafter := hsame name
    rw [environment_readCredentials hloop hplain hname, hnamed, Bool.or_true, if_pos rfl,
      if_neg hline, hnone, hfile, hnone] at hafter
    unfold Variables.environment at hafter
    rw [hexported] at hafter
    simpa using hafter
  case free =>
    rw [readCredentials_eq] at hloop
    have hsome : (readAll sh ((split '\n' text).map withoutNul) vars).isSome := by
      rw [hloop]
      rfl
    exact (readAll_isSome_iff.mp hsome).1
  case own =>
    intro hgiven
    have hafter := hsame LINE
    rw [environment_readCredentials hloop hplain isName_LINE, if_pos (by simpa using hgiven),
      if_pos rfl, hfile] at hafter
    exact hafter.symm

/-- A variable that is named and not the loop's own has the units' value. -/
theorem value_of_readAlike (h : ReadAlike sh vars text) (hname : isName name = true)
    (hline : name ≠ LINE)
    (hgiven : vars.exported name = true ∨
      ((split '\n' text).map withoutNul).any (names name) = true) :
    ((lastValue name (split '\n' text)).map withoutNul).or (vars.value name) =
      (lastValue name (split '\n' text)).or (vars.environment name) := by
  cases hlast : lastValue name (split '\n' text) with
  | some value =>
    rw [Option.map_some, withoutNul_eq_self_iff.mpr (h.clean name value hline hlast)]
    rfl
  | none =>
    rw [Option.map_none, Option.none_or, Option.none_or]
    unfold Variables.environment
    cases hexported : vars.exported name with
    | true => rw [if_pos rfl]
    | false =>
      rw [if_neg Bool.false_ne_true]
      have hnames : ((split '\n' text).map withoutNul).any (names name) = true := by
        simpa [hexported] using hgiven
      obtain ⟨line, hmem, hnamed⟩ := List.any_eq_true.mp hnames
      have hnone : lastValue name ((split '\n' text).map withoutNul) = none := by
        rw [lastValue_withoutNul h.plain, hlast]
        rfl
      have hbare : assignmentFor name line = none :=
        List.findSome?_eq_none_iff.mp hnone line (List.mem_reverse.mpr hmem)
      obtain rfl := bare_of_names hnamed hbare
      exact h.bare line hmem hname hline hexported hlast

theorem taken_of_plain (h : Plain sh line) :
    isSkipped (withoutNul line) = true ∨ sh.Exports (withoutNul line) := by
  rcases h with hskip | ⟨-, htaken⟩ | ⟨hmem, hname, hreadonly⟩
  · exact Or.inl (isSkipped_withoutNul hskip)
  · exact htaken
  · right
    right
    rw [nameOf_withoutNul, withoutNul_of_isName hname]
    exact ⟨hname, fun _ => hreadonly⟩

theorem oneMeaning_of_readAlike (haccepted : ambiguousValues text = [])
    (h : ReadAlike sh vars text) : OneMeaning sh vars text := by
  have hsome : (readAll sh ((split '\n' text).map withoutNul) vars).isSome := by
    rw [readAll_isSome_iff]
    refine ⟨h.free, ?_⟩
    intro read hread
    obtain ⟨line, hmem, rfl⟩ := List.mem_map.mp hread
    exact taken_of_plain (h.plain line hmem)
  obtain ⟨after, hafter⟩ := Option.isSome_iff_exists.mp hsome
  rw [← readCredentials_eq] at hafter
  refine ⟨after, hafter, ?_⟩
  intro name
  rw [environmentFile_eq (accepted_of_ambiguousValues haccepted) h.plain]
  cases hname : isName name with
  | false =>
    have hnone : lastValue name (split '\n' text) = none := by
      by_contra hvalue
      rw [isName_of_lastValue h.plain (Option.isSome_iff_ne_none.mpr hvalue)] at hname
      cases hname
    rw [hnone, Variables.environment_of_not_isName hname, Variables.environment_of_not_isName hname]
    rfl
  | true =>
    rw [environment_readCredentials hafter h.plain hname]
    by_cases hgiven : vars.exported name = true ∨
        ((split '\n' text).map withoutNul).any (names name) = true
    · rw [if_pos (by simpa using hgiven)]
      by_cases hline : name = LINE
      · rw [if_pos hline, hline]
        exact (h.own (hline ▸ hgiven)).symm
      · rw [if_neg hline]
        exact value_of_readAlike h hname hline hgiven
    · rw [not_or, Bool.not_eq_true, Bool.not_eq_true] at hgiven
      have hnone : (lastValue name (split '\n' text)).map withoutNul = none := by
        rw [← lastValue_withoutNul h.plain]
        by_contra hvalue
        have hnames := names_of_lastValue (Option.isSome_iff_ne_none.mpr hvalue)
        rw [hgiven.2] at hnames
        cases hnames
      rw [Option.map_eq_none_iff] at hnone
      unfold Variables.environment
      simp [hgiven, hnone]

/-- A text without NULs has none in a value. -/
theorem notMem_lastValue (h : '\x00' ∉ text)
    (hlast : lastValue name (split '\n' text) = some value) : '\x00' ∉ value := by
  obtain ⟨line, hmem, hvalue⟩ := List.exists_of_findSome?_eq_some hlast
  unfold assignmentFor at hvalue
  split_ifs at hvalue
  have hline := (splitOnce_eq_some (Shell.valueFor_eq_some.mp hvalue)).1
  intro hnul
  have hwhole : '\x00' ∈ ofLines (split '\n' text) := by
    unfold ofLines
    rw [List.mem_flatMap]
    refine ⟨line, List.mem_reverse.mp hmem, ?_⟩
    rw [hline]
    simp [hnul]
  rw [ofLines_split, List.mem_append] at hwhole
  rcases hwhole with htext | hnewline
  · exact h htext
  · revert hnewline
    decide

/-- A shell that starts with nothing. -/
def noVariables : Variables := ⟨fun _ => none, fun _ => false, by simp⟩

end Kuma.Backup
