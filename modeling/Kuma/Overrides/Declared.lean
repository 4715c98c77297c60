import Kuma.Lib.Fallible
import Kuma.Overrides.Converge
import Kuma.Sync.Declaration

/-! The overrides of a declaration, the keyfile the image bakes of them, and what the machine
reads of it. -/
namespace Kuma.Overrides
open Kuma.Lib Kuma.Lib.Text Kuma.Sync KeyFile

inductive Scope
  | system
  | user
  deriving DecidableEq

inductive BusPolicy
  | none
  | see
  | talk
  | own
  deriving DecidableEq

def BusPolicy.asStr : BusPolicy → String
  | .none => "none"
  | .see => "see"
  | .talk => "talk"
  | .own => "own"

structure AppOverride where
  scope : Scope
  filesystems : List String
  sockets : List String
  devices : List String
  shared : List String
  features : List String
  persistent : List String
  environment : List (String × String)
  sessionBus : List (String × BusPolicy)
  systemBus : List (String × BusPolicy)

def CONTEXT : Chars := "Context".toList

def ENVIRONMENT : Chars := "Environment".toList

def SESSION_BUS : Chars := "Session Bus Policy".toList

def SYSTEM_BUS : Chars := "System Bus Policy".toList

namespace AppOverride

/-- The lists of the context, each with the key it is written as. -/
def contextLists (app : AppOverride) : List (String × List String) :=
  [("filesystems", app.filesystems), ("sockets", app.sockets), ("devices", app.devices),
    ("shared", app.shared), ("features", app.features), ("persistent", app.persistent)]

def isEmpty (app : AppOverride) : Bool :=
  app.contextLists.all (·.2.isEmpty) && app.environment.isEmpty && app.sessionBus.isEmpty &&
    app.systemBus.isEmpty

end AppOverride

/-- Every key a declaration asks for, in the order the file writes them. -/
def declaredKeys (app : AppOverride) : List (Key × Chars) :=
  ((app.contextLists.filter fun list => !list.2.isEmpty).map fun list =>
      ((CONTEXT, list.1.toList), list.2.flatMap fun value => value.toList ++ [';'])) ++
    (app.environment.map fun var => ((ENVIRONMENT, var.1.toList), var.2.toList)) ++
    (app.sessionBus.map fun bus => ((SESSION_BUS, bus.1.toList), bus.2.asStr.toList)) ++
    app.systemBus.map fun bus => ((SYSTEM_BUS, bus.1.toList), bus.2.asStr.toList)

/-- The rest of the keyfile, after what is out already and under the group that is open. -/
def renderFrom (out current : Chars) : List (Key × Chars) → Chars
  | [] => out
  | ((group, key), value) :: keys =>
    let opened := if group = current then out
      else (if out = [] then out else out ++ ['\n']) ++ '[' :: group ++ [']', '\n']
    renderFrom (opened ++ key ++ '=' :: value ++ ['\n']) group keys

/-- The keyfile the image bakes. -/
def renderDeclared (app : AppOverride) : Chars := renderFrom [] [] (declaredKeys app)

inductive OverrideFault
  | name (fault : NameFault)
  | empty (app : String)
  | newline (field name : String)
  deriving DecidableEq

/-- The check of one app's table. -/
def validateOverride (app : String) (table : AppOverride) : Except OverrideFault Unit := do
  (validateName app "overrides" ['.', '-', '_']).mapError .name
  (if table.isEmpty then .error (.empty app) else .ok ())
  table.contextLists.forM fun list => list.2.forM fun value =>
    (validateName value ("overrides." ++ app ++ "." ++ list.1)
      ['!', '/', '.', '-', '_', ':', '~', ' ']).mapError .name
  table.environment.forM fun var => do
    let field := "overrides." ++ app ++ ".environment"
    (validateName var.1 field ['_']).mapError .name
    (if '\n' ∈ var.2.toList ∨ '\r' ∈ var.2.toList then .error (.newline field var.1) else .ok ())
  (table.sessionBus ++ table.systemBus).forM fun bus =>
    (validateName bus.1 ("overrides." ++ app ++ ".bus") ['.', '-', '_', '*']).mapError .name

/-- The overrides of a declaration that has passed the check. -/
structure Declared where
  tables : List (String × AppOverride)
  nodup : (tables.map Prod.fst).Nodup
  valid : ∀ table ∈ tables, validateOverride table.1 table.2 = .ok ()

/-- What a declared key is made of: one of kuma's four groups, a name without white space, and
a value on one line. -/
structure Declarable (entry : Key × Chars) : Prop where
  group : entry.1.1 ∈ [CONTEXT, ENVIRONMENT, SESSION_BUS, SYSTEM_BUS]
  key : entry.1.2 ≠ []
  chars : ∀ c ∈ entry.1.2, c.isAlphanum = true ∨ c ∈ ['.', '-', '_', '*']
  value : '\n' ∉ entry.2

section
variable {app : String} {table : AppOverride}

theorem newline_notMem_of_validateName {value field : String} {extra : List Char}
    (hextra : '\n' ∉ extra) (h : validateName value field extra = .ok ()) :
    '\n' ∉ value.toList := by
  intro hin
  rcases (chars_of_validateName h).2 _ hin with halnum | hmem
  · exact absurd halnum (by decide)
  · exact hextra hmem

theorem declaredKeys_declarable (h : validateOverride app table = .ok ()) :
    ∀ entry ∈ declaredKeys table, Declarable entry := by
  simp only [validateOverride, bind_eq_ok] at h
  obtain ⟨_, -, _, -, _, hlists, _, henvironment, hbuses⟩ := h
  rw [forM_eq_ok] at hlists henvironment hbuses
  have hbus : ∀ bus ∈ table.sessionBus ++ table.systemBus, bus.1.toList ≠ [] ∧
      ∀ c ∈ bus.1.toList, c.isAlphanum = true ∨ c ∈ ['.', '-', '_', '*'] := by
    intro bus hin
    obtain ⟨hempty, hchars⟩ := chars_of_validateName (mapError_eq_ok.mp (hbuses bus hin))
    exact ⟨by simpa using hempty, hchars⟩
  have hpolicy : ∀ policy : BusPolicy, '\n' ∉ policy.asStr.toList := by
    intro policy
    cases policy <;> decide
  intro entry hentry
  simp only [declaredKeys, List.mem_append, List.mem_map, List.mem_filter] at hentry
  rcases hentry with ((⟨list, ⟨hin, -⟩, rfl⟩ | ⟨var, hin, rfl⟩) | ⟨bus, hin, rfl⟩) | ⟨bus, hin, rfl⟩
  · have hname : list.1 ∈ ["filesystems", "sockets", "devices", "shared", "features",
        "persistent"] := List.mem_map_of_mem (f := Prod.fst) hin
    have hnames : ∀ name ∈ ["filesystems", "sockets", "devices", "shared", "features",
        "persistent"], name.toList ≠ [] ∧ (name.toList.all fun c =>
          c.isAlphanum || ['.', '-', '_', '*'].contains c) = true := by decide
    obtain ⟨hempty, hall⟩ := hnames _ hname
    have hchars : ∀ c ∈ list.1.toList, c.isAlphanum = true ∨ c ∈ ['.', '-', '_', '*'] := by
      intro c hc
      have hc := List.all_eq_true.mp hall c hc
      rwa [Bool.or_eq_true, List.contains_iff_mem] at hc
    refine ⟨by simp, hempty, hchars, fun hnewline => ?_⟩
    obtain ⟨value, hvalue, hmem⟩ := List.mem_flatMap.mp hnewline
    have hvalid := mapError_eq_ok.mp (forM_eq_ok.mp (hlists list hin) value hvalue)
    rcases List.mem_append.mp hmem with hmem | hmem
    · exact newline_notMem_of_validateName (by decide) hvalid hmem
    · exact absurd (List.mem_singleton.mp hmem) (by decide)
  · obtain ⟨_, hname, hvalue⟩ := bind_eq_ok.mp (henvironment var hin)
    obtain ⟨hempty, hchars⟩ := chars_of_validateName (mapError_eq_ok.mp hname)
    refine ⟨by simp, by simpa using hempty, fun c hc => ?_, fun hnewline => ?_⟩
    · exact (hchars c hc).imp_right fun hextra => by simp [List.mem_singleton.mp hextra]
    · rw [if_pos (.inl hnewline)] at hvalue
      cases hvalue
  · obtain ⟨hempty, hchars⟩ := hbus bus (List.mem_append_left _ hin)
    exact ⟨by simp, hempty, hchars, hpolicy bus.2⟩
  · obtain ⟨hempty, hchars⟩ := hbus bus (List.mem_append_right _ hin)
    exact ⟨by simp, hempty, hchars, hpolicy bus.2⟩

variable {entry : Key × Chars} {keys : List (Key × Chars)} {out current : Chars}

theorem Declarable.not_mem {c : Char} (h : Declarable entry) (hc : c.isAlphanum = false)
    (hextra : c ∉ ['.', '-', '_', '*']) : c ∉ entry.1.2 := by
  intro hin
  rcases h.chars c hin with halnum | hmem
  · rw [hc] at halnum
    cases halnum
  · exact hextra hmem

/-- The line of a declared key is read as its pair, less the white space a value ends in. -/
theorem Declarable.line (h : Declarable entry) :
    let text := entry.1.2 ++ '=' :: entry.2
    header (trim (dropReturn text)) = none ∧
      readLine (dropReturn text) = .pair entry.1.2 (trimEnd entry.2) ∧
      valueOf (trim (dropReturn text)) = trimEnd entry.2 := by
  obtain ⟨c, k, hk⟩ := List.exists_cons_of_ne_nil h.key
  have hblank : ∀ x ∈ entry.1.2, isWhiteSpace x = false := by
    intro x hx
    rcases h.chars x hx with halnum | hmem
    · exact isWhiteSpace_of_isAlphanum halnum
    · have hall : (['.', '-', '_', '*'].all fun x => !isWhiteSpace x) = true := by decide
      have hx := List.all_eq_true.mp hall x hmem
      simpa using hx
  have hc : isWhiteSpace c = false := hblank c (by simp [hk])
  have hequals : '=' ∉ entry.1.2 := h.not_mem (by decide) (by decide)
  have hbracket : '[' ∉ entry.1.2 := h.not_mem (by decide) (by decide)
  have hhash : '#' ∉ entry.1.2 := h.not_mem (by decide) (by decide)
  have htrim : trim (dropReturn (entry.1.2 ++ '=' :: entry.2)) =
      entry.1.2 ++ '=' :: trimEnd entry.2 := by
    rw [trim_dropReturn, hk, List.cons_append, trim_cons hc, ← List.cons_append,
      trimEnd_append (by decide)]
  have hsplit : splitOnce '=' (entry.1.2 ++ '=' :: trimEnd entry.2) =
      some (entry.1.2, trimEnd entry.2) := splitOnce_append hequals
  dsimp only
  refine ⟨?_, ?_, by rw [htrim, valueOf, hsplit]; rfl⟩
  · rw [htrim, hk, List.cons_append, header_eq_none]
    rintro ⟨rfl, -⟩
    exact hbracket (by simp [hk])
  · have hhead : (entry.1.2 ++ '=' :: trimEnd entry.2).head? ≠ some '#' := by
      rw [hk, List.cons_append, List.head?_cons]
      intro heq
      exact hhash (by simp [hk, Option.some.inj heq])
    unfold readLine
    rw [htrim, hsplit]
    simp only [trim_of_not_whiteSpace hblank]
    rw [if_pos ⟨hhead, h.key⟩]

/-- The keyfile, line by line. -/
def keyLines (first : Bool) (current : Chars) : List (Key × Chars) → List Chars
  | [] => []
  | ((group, key), value) :: keys =>
    (if group = current then [] else (if first then [] else [[]]) ++ ['[' :: group ++ [']']]) ++
      (key ++ '=' :: value) :: keyLines false group keys

theorem renderFrom_eq : renderFrom out current keys =
    out ++ (keyLines (out = []) current keys).flatMap (· ++ ['\n']) := by
  induction keys generalizing out current with
  | nil => simp [renderFrom, keyLines]
  | cons entry keys ih =>
    obtain ⟨⟨group, key⟩, value⟩ := entry
    rw [renderFrom, ih, keyLines]
    have hnext : ∀ opened : Chars,
        decide (opened ++ key ++ '=' :: value ++ ['\n'] = []) = false := by simp
    rw [hnext]
    split_ifs with hgroup hout hout
    · simp
    · simp_all
    · simp_all
    · simp_all
    · simp

theorem newline_notMem_keyLines {first : Bool} (h : ∀ entry ∈ keys, Declarable entry) :
    ∀ line ∈ keyLines first current keys, '\n' ∉ line := by
  induction keys generalizing first current with
  | nil =>
    intro line hline
    cases hline
  | cons entry keys ih =>
    have hentry := h entry List.mem_cons_self
    have hgroup : '\n' ∉ entry.1.1 := by
      have hall : ∀ group ∈ [CONTEXT, ENVIRONMENT, SESSION_BUS, SYSTEM_BUS], '\n' ∉ group := by
        decide
      exact hall _ hentry.group
    have hkey : '\n' ∉ entry.1.2 := hentry.not_mem (by decide) (by decide)
    intro line hline
    rw [keyLines, List.mem_append] at hline
    rcases hline with hline | hline
    · have hopens : line = [] ∨ line = '[' :: entry.1.1 ++ [']'] := by
        split_ifs at hline
        · cases hline
        · exact .inr (by simpa using hline)
        · simpa using hline
      rcases hopens with rfl | rfl
      · exact List.not_mem_nil
      · simp [hgroup]
    · rcases List.mem_cons.mp hline with rfl | hline
      · simp [hkey, hentry.value]
      · exact ih (fun e he => h e (List.mem_cons_of_mem _ he)) line hline

/-- What the machine reads of the lines is what they were written from. -/
theorem scan_keyLines {first : Bool} (h : ∀ entry ∈ keys, Declarable entry) :
    scan trim current ((keyLines first current keys).map dropReturn) =
      keys.map fun entry => (entry.1, trimEnd entry.2) := by
  induction keys generalizing first current with
  | nil => rfl
  | cons entry keys ih =>
    have hrest : ∀ name, scan trim name ((keyLines false name keys).map dropReturn) =
        keys.map fun entry => (entry.1, trimEnd entry.2) :=
      fun name => ih fun e he => h e (List.mem_cons_of_mem _ he)
    obtain ⟨hheader, hread, hvalue⟩ := (h entry List.mem_cons_self).line
    have hpair : scan trim entry.1.1 (((entry.1.2 ++ '=' :: entry.2) ::
        keyLines false entry.1.1 keys).map dropReturn) =
        (entry.1, trimEnd entry.2) :: keys.map fun entry => (entry.1, trimEnd entry.2) := by
      rw [List.map_cons, scan, hheader, hread]
      dsimp only
      rw [hvalue, hrest]
    have hopened : ∀ lines, scan trim current (dropReturn ('[' :: entry.1.1 ++ [']']) :: lines) =
        scan trim entry.1.1 lines := by
      intro lines
      obtain ⟨hdrop, hopens⟩ := header_line entry.1.1
      rw [scan, hdrop, hopens]
    have hskip : ∀ lines, scan trim current (dropReturn [] :: lines) = scan trim current lines :=
      fun _ => rfl
    rw [keyLines, List.map_append, List.map_cons]
    split_ifs with hcurrent hfirst
    · rw [← hcurrent]
      exact hpair
    · exact (hopened _).trans hpair
    · exact (hskip _).trans ((hopened _).trans hpair)

theorem parseDeclared_eq (text : Chars) :
    parseDeclared text = (entries (parse text)).filter fun entry => entry.1.1 ≠ [] := by
  rw [parseDeclared]
  induction parse text with
  | nil => rfl
  | cons group file ih =>
    have hcons : ∀ rest : KeyFile, entries (group :: rest) =
        (group.pairs.map fun pair => ((group.name, pair.1), pair.2)) ++ entries rest := fun _ => rfl
    have hpairs : (group.pairs.map fun pair => ((group.name, pair.1), pair.2)).filter
        (fun entry => entry.1.1 ≠ []) =
        if group.name = [] then []
        else group.pairs.map fun pair => ((group.name, pair.1), pair.2) := by
      rw [List.filter_map]
      split_ifs with hname <;> simp [Function.comp_def, hname]
    rw [hcons, List.filter_append, ← ih, hpairs, List.filter_cons]
    by_cases hname : group.name = []
    · simp only [hname, ne_eq, not_true_eq_false, decide_false, if_true, List.nil_append]
      rfl
    · simp only [hname, ne_eq, not_false_eq_true, decide_true, if_true, if_false]
      exact hcons _

/-- Baked and read back are the same keys, each less the white space its value ends in. -/
theorem parseDeclared_renderDeclared (h : validateOverride app table = .ok ()) :
    parseDeclared (renderDeclared table) =
      (declaredKeys table).map fun entry => (entry.1, trimEnd entry.2) := by
  have hkeys := declaredKeys_declarable h
  have hgroups : ∀ group ∈ [CONTEXT, ENVIRONMENT, SESSION_BUS, SYSTEM_BUS], group ≠ [] := by
    decide
  rw [parseDeclared_eq, entries_parse, renderDeclared, renderFrom_eq, List.nil_append,
    lines_flatMap (newline_notMem_keyLines hkeys), scan_keyLines hkeys, List.filter_eq_self]
  intro entry hentry
  obtain ⟨e, he, rfl⟩ := List.mem_map.mp hentry
  simpa using hgroups _ (hkeys e he).group

theorem trimEnd_asStr (policy : BusPolicy) :
    trimEnd policy.asStr.toList = policy.asStr.toList := by
  cases policy <;> decide

/-- A list is written with a separator after each of its values. -/
theorem trimEnd_list (values : List String) :
    trimEnd (values.flatMap fun value => value.toList ++ [';']) =
      values.flatMap fun value => value.toList ++ [';'] := by
  rcases List.eq_nil_or_concat' values with rfl | ⟨init, last, rfl⟩
  · rfl
  · rw [List.flatMap_append, List.flatMap_singleton, ← List.append_assoc,
      trimEnd_append (by decide)]
    rfl

/-- Only a variable can have a value that ends in white space. -/
theorem trimmed_iff : (∀ entry ∈ declaredKeys table, trimEnd entry.2 = entry.2) ↔
    ∀ var ∈ table.environment, trimEnd var.2.toList = var.2.toList := by
  constructor
  · intro h var hvar
    apply h ((ENVIRONMENT, var.1.toList), var.2.toList)
    rw [declaredKeys, List.mem_append, List.mem_append, List.mem_append]
    exact .inl (.inl (.inr (List.mem_map_of_mem hvar)))
  · intro hvalues entry hentry
    simp only [declaredKeys, List.mem_append, List.mem_map] at hentry
    rcases hentry with ((⟨list, -, rfl⟩ | ⟨var, hvar, rfl⟩) | ⟨bus, -, rfl⟩) | ⟨bus, -, rfl⟩
    · exact trimEnd_list list.2
    · exact hvalues var hvar
    · exact trimEnd_asStr bus.2
    · exact trimEnd_asStr bus.2

/-- The round trip is exact where no variable's value ends in white space. -/
theorem parseDeclared_renderDeclared_iff (app : String) (table : AppOverride)
    (h : validateOverride app table = .ok ()) :
    parseDeclared (renderDeclared table) = declaredKeys table ↔
      ∀ var ∈ table.environment, trimEnd var.2.toList = var.2.toList := by
  have hid : declaredKeys table = (declaredKeys table).map id := (List.map_id _).symm
  rw [parseDeclared_renderDeclared h, ← trimmed_iff]
  nth_rewrite 2 [hid]
  rw [List.map_inj_left]
  constructor
  · exact fun hsame entry hentry => congrArg Prod.snd (hsame entry hentry)
  · exact fun hvalues entry hentry => Prod.ext rfl (hvalues entry hentry)

end

/-- An app that is launched with one variable. -/
def launchedWith (name value : String) : AppOverride :=
  ⟨.system, [], [], [], [], [], [], [(name, value)], [], []⟩

theorem parseDeclared_renderDeclared_greeting :
    parseDeclared (renderDeclared (launchedWith "GREETING" "hello")) =
      declaredKeys (launchedWith "GREETING" "hello") :=
  (parseDeclared_renderDeclared_iff "org.gnome.Maps" (launchedWith "GREETING" "hello")
    (by decide +kernel)).mpr (by decide +kernel)

/-- The blank that a value ends in is in the baked file and is not read back. -/
theorem parseDeclared_renderDeclared_blank :
    validateOverride "org.gnome.Maps" (launchedWith "GREETING" "hello ") = .ok () ∧
      parseDeclared (renderDeclared (launchedWith "GREETING" "hello ")) ≠
        declaredKeys (launchedWith "GREETING" "hello ") := by
  have hvalid : validateOverride "org.gnome.Maps" (launchedWith "GREETING" "hello ") = .ok () := by
    decide +kernel
  refine ⟨hvalid, ?_⟩
  rw [parseDeclared_renderDeclared hvalid]
  decide +kernel

end Kuma.Overrides
