import Kuma.Lib.Fallible
import Kuma.Lib.Splitting
import Kuma.Lib.Words
import Mathlib.Data.Finset.Basic

/-! The walk over the feature blocks, and the recorder that they emit through: one pass makes the
Containerfile and the files that its COPY lines name. What a block emits is scoped, so that it can
copy only what it has been handed. -/
namespace Kuma.Containerfile
open Kuma.Lib.Text

/-- What a unit does on installer media, and why. -/
inductive Live
  | masked (why : String)
  | runs (why : String)
  | conditioned (why : String)

/-- A file of the build context, as `stage` and `supplied` hand it out. -/
structure Staged where
  name : List Char

/-- `copy`, `copy_exec` and `copy_private`. -/
inductive Mode
  | plain | exec | secret

def Mode.flag : Mode → List Char
  | .plain => []
  | .exec => "--chmod=755 ".toList
  | .secret => "--chmod=600 ".toList

/-- The half of systemd that a unit is enabled in. -/
inductive UnitScope
  | system | global

def UnitScope.verb : UnitScope → List Char
  | .system => "systemctl enable ".toList
  | .global => "systemctl --global enable ".toList

/-- One call of the recorder. -/
inductive Op (γ : Type)
  | enterBlock (units : List (List Char × Live))
  | raw (text : List Char)
  | stage (name : List Char) (content : γ)
  | stageTree (dir : List Char) (tree : γ)
  | supplied (name : List Char)
  | copy (mode : Mode) (file : Staged) (dest : List Char)
  | enable (run : UnitScope × List (List Char)) (runs : List (UnitScope × List (List Char)))

/-- What a block emits, by how many files it holds: it may copy those, and no others. -/
inductive Walk (γ : Type) : ℕ → Type
  | done {n : ℕ} : Walk γ n
  | raw {n : ℕ} (text : List Char) (rest : Walk γ n) : Walk γ n
  | stage {n : ℕ} (name : List Char) (content : γ) (rest : Walk γ (n + 1)) : Walk γ n
  | stageTree {n : ℕ} (dir : List Char) (tree : γ) (rest : Walk γ (n + 1)) : Walk γ n
  | supplied {n : ℕ} (name : List Char) (rest : Walk γ (n + 1)) : Walk γ n
  | copy {n : ℕ} (mode : Mode) (file : Fin n) (dest : List Char) (rest : Walk γ n) : Walk γ n
  | enable {n : ℕ} (run : UnitScope × List (List Char))
      (runs : List (UnitScope × List (List Char))) (rest : Walk γ n) : Walk γ n

/-- The files held, and one more. -/
def handed {n : ℕ} (held : Fin n → Staged) (file : Staged) : Fin (n + 1) → Staged :=
  fun i => if h : i.val < n then held ⟨i, h⟩ else file

def Walk.ops {γ : Type} {n : ℕ} : Walk γ n → (Fin n → Staged) → List (Op γ)
  | .done, _ => []
  | .raw text rest, held => .raw text :: rest.ops held
  | .stage name content rest, held => .stage name content :: rest.ops (handed held ⟨name⟩)
  | .stageTree dir tree rest, held => .stageTree dir tree :: rest.ops (handed held ⟨dir⟩)
  | .supplied name rest, held => .supplied name :: rest.ops (handed held ⟨name⟩)
  | .copy mode file dest rest, held => .copy mode (held file) dest :: rest.ops held
  | .enable run runs rest, held => .enable run runs :: rest.ops held

/-- A feature block, for one declaration. -/
structure Block (γ : Type) where
  name : String
  units : List (List Char × Live)
  emit : Walk γ 0

/-- What the recorder panics with. -/
inductive Fault
  | rawCopy
  | stagedTwice (name : List Char)
  | unaccounted (unit : List Char)
  | neverCopied (names : List (List Char))
  deriving DecidableEq

structure Emitter (γ : Type) where
  text : List Char
  files : List (List Char × γ)
  copied : List (List Char)
  blockUnits : List (List Char × Live)

structure Plan (γ : Type) where
  text : List Char
  files : List (List Char × γ)

def COPY : List Char := "COPY ".toList

def copyLine (mode : Mode) (name dest : List Char) : List Char :=
  COPY ++ (mode.flag ++ (name ++ ' ' :: dest)) ++ ['\n']

def enableRun (run : UnitScope × List (List Char)) : List Char :=
  run.1.verb ++ [' '].intercalate run.2

def andThen (run : UnitScope × List (List Char)) : List Char :=
  " \\".toList ++ '\n' :: ("    && ".toList ++ enableRun run)

/-- `enable` and its compound forms: one RUN, a line for each scope. -/
def enableText (run : UnitScope × List (List Char)) (runs : List (UnitScope × List (List Char))) :
    List Char :=
  "RUN ".toList ++ enableRun run ++
    (runs.flatMap andThen ++ ['\n'])

/-- A kuma unit that no row of the block's table accounts for. -/
def unaccounted (units : List (List Char × Live)) (unit : List Char) : Bool :=
  (stripPrefix "kuma-".toList unit).isSome && !units.any fun row => row.1 = unit

namespace Emitter
variable {γ : Type} [DecidableEq γ]

def new : Emitter γ := ⟨[], [], [], []⟩

def step (e : Emitter γ) : Op γ → Except Fault (Emitter γ)
  | .enterBlock units => .ok { e with blockUnits := units }
  | .raw text =>
    if (stripPrefix COPY (text.dropWhile isWhiteSpace)).isSome then .error .rawCopy
    else .ok { e with text := e.text ++ text }
  | .stage name content =>
    match e.files.lookup name with
    | some existing => if existing = content then .ok e else .error (.stagedTwice name)
    | none => .ok { e with files := (name, content) :: e.files }
  | .stageTree dir tree => .ok { e with files := (dir, tree) :: e.files.filter (·.1 ≠ dir) }
  | .supplied _ => .ok e
  | .copy mode file dest =>
    .ok { e with text := e.text ++ copyLine mode file.name dest, copied := file.name :: e.copied }
  | .enable run runs =>
    match ((run :: runs).flatMap Prod.snd).find? (unaccounted e.blockUnits) with
    | some unit => .error (.unaccounted unit)
    | none => .ok { e with text := e.text ++ enableText run runs }

def neverCopied (e : Emitter γ) : List (List Char) :=
  (e.files.map Prod.fst).filter (· ∉ e.copied)

end Emitter

section
variable {γ : Type} [DecidableEq γ]

/-- The calls of one pass over the blocks. -/
def calls (blocks : List (Block γ)) : List (Op γ) :=
  blocks.flatMap fun b => .enterBlock b.units :: b.emit.ops Fin.elim0

/-- One pass over the blocks, and the reconciling of what it staged with what it copied. -/
def plan (blocks : List (Block γ)) : Except Fault (Plan γ) := do
  let e ← (calls blocks).foldlM Emitter.step .new
  if e.neverCopied = [] then pure ⟨e.text, e.files⟩ else .error (.neverCopied e.neverCopied)

/-- `live_masks`. -/
def liveMasks (blocks : List (Block γ)) : List (List Char) :=
  blocks.flatMap fun b => b.units.filterMap fun row =>
    match row.2 with
    | .masked _ => some row.1
    | _ => none

end

/-! ### What is read of the text -/

def FLAG : List Char := "--".toList

/-- What a build reads of a COPY line: a source and a destination, after the flags. -/
def readCopy (line : List Char) : Option (List Char × List Char) :=
  (stripPrefix COPY line).bind fun rest =>
    match (words rest).filter fun word => (stripPrefix FLAG word).isNone with
    | [name, dest] => some (name, dest)
    | _ => none

def readCopies (text : List Char) : List (List Char × List Char) := (lines text).filterMap readCopy

def ETC : List Char := "/etc/".toList

def inEtc (path : List Char) : Bool := (stripPrefix ETC path).isSome

/-- The pieces of a line that the shell runs one after another. -/
def shellPieces (line : List Char) : List (List Char) :=
  (splitStr "&&".toList line).flatMap (split ';')

/-- Where the redirects of a line go. -/
def redirects : ℕ → List Char → List (List Char)
  | 0, _ => []
  | fuel + 1, line =>
    match line.dropWhile (· ≠ '>') with
    | [] => []
    | _ :: after =>
      let rest := (after.dropWhile (· = '>')).dropWhile isWhiteSpace
      rest.takeWhile (fun c => !(isWhiteSpace c || c = '"' || c = '\'')) :: redirects fuel rest

def isLinked (text : List Char) : Bool := (splitOnceStr "ln -s".toList text).isSome

/-- The paths that a line of the Containerfile writes, by a COPY, a link or a redirect. -/
def lineWrites (line : List Char) : List (List Char) :=
  ((stripPrefix COPY line).bind fun rest => (words rest).getLast?).toList ++
    (((if isLinked line then shellPieces line else []).filter isLinked).filterMap fun piece =>
      (words piece).getLast?) ++
    redirects line.length line

/-- `etc_writes`. -/
def etcWrites (text : List Char) : Finset (List Char) :=
  ((lines text).flatMap fun line => (lineWrites line).filter inEtc).toFinset

def HOSTNAME : List Char := "/etc/hostname".toList

/-- `etc_paths`, by the text that the declaration comes to and the hostname that it names. -/
def etcPaths (text : List Char) (hostname : Option String) : Finset (List Char) :=
  if hostname.isNone then (etcWrites text).erase HOSTNAME else etcWrites text

/-! ### What a pass leaves -/

section
variable {γ : Type}

/-- What a call adds to the text. -/
def Op.text : Op γ → List Char
  | .raw text => text
  | .copy mode file dest => copyLine mode file.name dest
  | .enable run runs => enableText run runs
  | _ => []

def Op.copies : Op γ → Option (List Char × List Char)
  | .copy _ file dest => some (file.name, dest)
  | _ => none

/-- The names that a call may have copied later. -/
def Op.names : Op γ → Option (List Char)
  | .stage name _ | .stageTree name _ | .supplied name => some name
  | _ => none

/-- The names that a call puts into the build context. -/
def Op.stages : Op γ → Option (List Char)
  | .stage name _ | .stageTree name _ => some name
  | _ => none

/-- A word of a line. -/
structure IsArgument (word : List Char) : Prop where
  ne_nil : word ≠ []
  blank : word.any isWhiteSpace = false
  flag : stripPrefix FLAG word = none

instance (word : List Char) : Decidable (IsArgument word) :=
  decidable_of_iff (word ≠ [] ∧ word.any isWhiteSpace = false ∧ stripPrefix FLAG word = none)
    ⟨fun h => ⟨h.1, h.2.1, h.2.2⟩, fun h => ⟨h.ne_nil, h.blank, h.flag⟩⟩

instance (text : List Char) : Decidable (Terminated text) :=
  inferInstanceAs (Decidable (text = [] ∨ text.getLast? = some '\n'))

/-- What the blocks of the source emit: a verbatim text ends its lines, and none of them is a COPY;
names and destinations are words, and units have no line of their own. -/
def Op.Scribed : Op γ → Prop
  | .raw text => Terminated text ∧ ∀ line ∈ lines text, stripPrefix COPY line = none
  | .copy _ file dest => IsArgument file.name ∧ IsArgument dest
  | .enable run runs => ∀ run' ∈ run :: runs, ∀ unit ∈ run'.2, '\n' ∉ unit
  | _ => True

instance : ∀ op : Op γ, Decidable op.Scribed
  | .raw text =>
    inferInstanceAs (Decidable
      (Terminated text ∧ ∀ line ∈ lines text, stripPrefix COPY line = none))
  | .copy _ file dest => inferInstanceAs (Decidable (IsArgument file.name ∧ IsArgument dest))
  | .enable run runs =>
    inferInstanceAs (Decidable (∀ run' ∈ run :: runs, ∀ unit ∈ run'.2, '\n' ∉ unit))
  | .enterBlock _ | .stage _ _ | .stageTree _ _ | .supplied _ => isTrue trivial

variable {op : Op γ} {ops : List (Op γ)} {blocks : List (Block γ)} {name dest : List Char}
  {content : γ}

theorem mem_keys_of_lookup {files : List (List Char × γ)} (h : files.lookup name = some content) :
    name ∈ files.map Prod.fst := by
  obtain ⟨before, after, rfl, -⟩ := List.lookup_eq_some_iff.mp h
  simp

theorem lookup_filter_ne {files : List (List Char × γ)} {dir : List Char} (hne : name ≠ dir) :
    (files.filter (·.1 ≠ dir)).lookup name = files.lookup name := by
  induction files with
  | nil => rfl
  | cons file files ih =>
    by_cases hdir : file.1 = dir
    · have hother : (name == file.1) = false := by simpa [hdir] using hne
      rw [List.filter_cons_of_neg (by simpa using hdir), ih, List.lookup_cons, hother]
    · rw [List.filter_cons_of_pos (by simpa using hdir), List.lookup_cons, List.lookup_cons, ih]

/-- A block copies what it holds, and nothing else. -/
theorem copies_scoped {n : ℕ} (w : Walk γ n) (held : Fin n → Staged) {copy : List Char × List Char}
    (hcopy : copy ∈ (w.ops held).filterMap Op.copies) :
    (∃ i, (held i).name = copy.1) ∨ copy.1 ∈ (w.ops held).filterMap Op.names := by
  have hhanded : ∀ {n : ℕ} {held : Fin n → Staged} {name : List Char} {names : List (List Char)},
      (∃ i, (handed held ⟨name⟩ i).name = copy.1) ∨ copy.1 ∈ names →
        (∃ i, (held i).name = copy.1) ∨ copy.1 ∈ name :: names := by
    rintro n held name names (⟨i, hi⟩ | hmem)
    · unfold handed at hi
      split_ifs at hi with hlt
      · exact .inl ⟨_, hi⟩
      · exact .inr (List.mem_cons.mpr (.inl hi.symm))
    · exact .inr (List.mem_cons_of_mem _ hmem)
  induction w with
  | done => cases hcopy
  | raw text rest ih => exact ih held hcopy
  | stage name content rest ih => exact hhanded (ih (handed held ⟨name⟩) hcopy)
  | stageTree dir tree rest ih => exact hhanded (ih (handed held ⟨dir⟩) hcopy)
  | supplied name rest ih => exact hhanded (ih (handed held ⟨name⟩) hcopy)
  | copy mode file dest rest ih =>
    rcases List.mem_cons.mp hcopy with rfl | hmem
    · exact .inl ⟨file, rfl⟩
    · exact ih held hmem
  | enable run runs rest ih => exact ih held hcopy

/-! ### What the text says of it -/

theorem readCopies_append {a : List Char} (h : Terminated a) (b : List Char) :
    readCopies (a ++ b) = readCopies a ++ readCopies b := by
  unfold readCopies
  rw [lines_append_of_terminated h, List.filterMap_append]

theorem readCopies_of_none {text : List Char}
    (h : ∀ line ∈ lines text, stripPrefix COPY line = none) : readCopies text = [] := by
  refine List.filterMap_eq_nil_iff.mpr fun line hline => ?_
  rw [readCopy, h line hline]
  rfl

theorem IsArgument.not_whiteSpace {word : List Char} (h : IsArgument word) :
    ∀ c ∈ word, isWhiteSpace c = false := by
  intro c hc
  exact Bool.eq_false_iff.mpr (List.any_eq_false.mp h.blank c hc)

theorem IsArgument.newline_notMem {word : List Char} (h : IsArgument word) : '\n' ∉ word :=
  fun hmem => absurd (h.not_whiteSpace _ hmem) (by decide)

/-- The words of a COPY line after the instruction. -/
theorem words_copy (mode : Mode) (hname : IsArgument name) (hdest : IsArgument dest) :
    ∃ flags : List (List Char), words (mode.flag ++ (name ++ ' ' :: dest)) = flags ++ [name, dest] ∧
      ∀ flag ∈ flags, stripPrefix FLAG flag ≠ none := by
  have hpair : words (name ++ ' ' :: dest) = [name, dest] := by
    rw [words_append_space, words_singleton hname.ne_nil hname.not_whiteSpace,
      words_singleton hdest.ne_nil hdest.not_whiteSpace]
    rfl
  have hflag : ∀ flag : List Char, words flag = [flag] →
      words (flag ++ ' ' :: (name ++ ' ' :: dest)) = [flag] ++ [name, dest] := by
    intro flag hwords
    rw [words_append_space, hwords, hpair]
  cases mode with
  | plain => exact ⟨[], hpair, fun _ hmem => by cases hmem⟩
  | exec =>
    refine ⟨["--chmod=755".toList], hflag "--chmod=755".toList (by decide), fun flag hmem => ?_⟩
    rw [List.mem_singleton.mp hmem]
    decide
  | secret =>
    refine ⟨["--chmod=600".toList], hflag "--chmod=600".toList (by decide), fun flag hmem => ?_⟩
    rw [List.mem_singleton.mp hmem]
    decide

theorem lines_copyLine (mode : Mode) (hname : IsArgument name) (hdest : IsArgument dest) :
    lines (copyLine mode name dest) = [COPY ++ (mode.flag ++ (name ++ ' ' :: dest))] := by
  have hflag : '\n' ∉ mode.flag := by cases mode <;> decide
  have hcopy : '\n' ∉ COPY := by decide
  have hline : '\n' ∉ COPY ++ (mode.flag ++ (name ++ ' ' :: dest)) := by
    simp [hcopy, hflag, hname.newline_notMem, hdest.newline_notMem]
  unfold copyLine
  rw [lines_line hline, dropReturn, if_neg]
  intro hlast
  rcases List.eq_nil_or_concat' dest with rfl | ⟨init, c, rfl⟩
  · exact hdest.ne_nil rfl
  · have hend : COPY ++ (mode.flag ++ (name ++ ' ' :: (init ++ [c]))) =
        (COPY ++ (mode.flag ++ (name ++ ' ' :: init))) ++ [c] := by simp
    rw [hend, List.getLast?_concat] at hlast
    have hblank := hdest.not_whiteSpace c (by simp)
    rw [Option.some.inj hlast] at hblank
    exact absurd hblank (by decide)

theorem readCopies_copyLine (mode : Mode) (hname : IsArgument name) (hdest : IsArgument dest) :
    readCopies (copyLine mode name dest) = [(name, dest)] := by
  obtain ⟨flags, hwords, hflags⟩ := words_copy mode hname hdest
  have hkept : (flags ++ [name, dest]).filter
      (fun word => (stripPrefix FLAG word).isNone) = [name, dest] := by
    rw [List.filter_append, List.filter_eq_nil_iff.mpr fun flag hmem => ?_]
    · simp [hname.flag, hdest.flag]
    · simpa using hflags flag hmem
  unfold readCopies
  rw [lines_copyLine mode hname hdest]
  simp only [List.filterMap_cons, List.filterMap_nil, readCopy,
    stripPrefix_eq_some.mpr (rfl : COPY ++ _ = _), Option.bind_some, hwords, hkept]

/-- A line that opens otherwise is no COPY. -/
theorem stripPrefix_dropReturn {line : List Char} (h : line.head? ≠ some 'C') :
    stripPrefix COPY (dropReturn line) = none := by
  cases hstrip : stripPrefix COPY (dropReturn line) with
  | none => rfl
  | some rest =>
    have hprefix : dropReturn line <+: line := by
      unfold dropReturn
      split_ifs
      · exact List.dropLast_prefix line
      · exact List.prefix_rfl
    obtain ⟨after, hafter⟩ := hprefix
    rw [stripPrefix_eq_some.mp hstrip] at hafter
    refine absurd ?_ h
    rw [← hafter]
    rfl

theorem newline_notMem_enableRun {run : UnitScope × List (List Char)}
    (h : ∀ unit ∈ run.2, '\n' ∉ unit) : '\n' ∉ enableRun run := by
  have hverb : '\n' ∉ run.1.verb := by cases run.1 <;> decide
  unfold enableRun
  rw [List.mem_append, not_or]
  refine ⟨hverb, fun hmem => ?_⟩
  rcases mem_intercalate hmem with hblank | ⟨unit, hunit, hnewline⟩
  · exact absurd hblank (by decide)
  · exact h unit hunit hnewline

theorem lines_enableText {a : List Char} {runs : List (UnitScope × List (List Char))}
    (ha : a.head? ≠ some 'C') (hnil : a ≠ []) (hline : '\n' ∉ a)
    (h : ∀ run ∈ runs, ∀ unit ∈ run.2, '\n' ∉ unit) :
    ∀ line ∈ lines (a ++ (runs.flatMap andThen ++ ['\n'])), stripPrefix COPY line = none := by
  induction runs generalizing a with
  | nil =>
    intro line hmem
    rw [List.flatMap_nil, List.nil_append, lines_line hline, List.mem_singleton] at hmem
    rw [hmem]
    exact stripPrefix_dropReturn ha
  | cons run runs ih =>
    have hbroken : a ++ ((run :: runs).flatMap andThen ++ ['\n']) =
        (a ++ " \\".toList) ++
          '\n' :: (("    && ".toList ++ enableRun run) ++ (runs.flatMap andThen ++ ['\n'])) := by
      simp [List.flatMap_cons, andThen]
    have hopen : '\n' ∉ a ++ " \\".toList := by
      rw [List.mem_append, not_or]
      exact ⟨hline, by decide⟩
    have hrun := newline_notMem_enableRun (h run List.mem_cons_self)
    intro line hmem
    rw [hbroken, lines_append hopen] at hmem
    rcases List.mem_cons.mp hmem with rfl | hmem
    · refine stripPrefix_dropReturn ?_
      cases a with
      | nil => exact absurd rfl hnil
      | cons c a => exact ha
    · refine ih (fun hhead => by cases hhead) (fun hnil => by cases hnil) ?_
        (fun run' hrun' => h run' (List.mem_cons_of_mem _ hrun')) line hmem
      rw [List.mem_append, not_or]
      exact ⟨by decide, hrun⟩

theorem terminated_concat (a : List Char) : Terminated (a ++ ['\n']) := .inr List.getLast?_concat

theorem Op.Scribed.terminated (h : op.Scribed) : Terminated op.text := by
  cases op with
  | raw text => exact h.1
  | copy mode file dest => exact terminated_concat _
  | enable run runs =>
    show Terminated (_ ++ (_ ++ ['\n']))
    rw [← List.append_assoc]
    exact terminated_concat _
  | _ => exact .inl rfl

/-- What a call adds to the text is read as the copy that it makes. -/
theorem readCopies_text (h : op.Scribed) : readCopies op.text = op.copies.toList := by
  cases op with
  | raw text => exact readCopies_of_none h.2
  | copy mode file dest => exact readCopies_copyLine mode h.1 h.2
  | enable run runs =>
    have hrun := newline_notMem_enableRun (h run List.mem_cons_self)
    refine readCopies_of_none (lines_enableText (a := "RUN ".toList ++ enableRun run) ?_ ?_ ?_
      fun run' hrun' => h run' (List.mem_cons_of_mem _ hrun'))
    · exact fun hhead => by cases hhead
    · exact fun hnil => by cases hnil
    · rw [List.mem_append, not_or]
      exact ⟨by decide, hrun⟩
  | _ => rfl

theorem readCopies_texts (h : ∀ op ∈ ops, op.Scribed) :
    readCopies (ops.flatMap Op.text) = ops.filterMap Op.copies := by
  induction ops with
  | nil => rfl
  | cons op ops ih =>
    have hop := h op List.mem_cons_self
    have hrest := ih fun op' hmem => h op' (List.mem_cons_of_mem _ hmem)
    rw [List.flatMap_cons, readCopies_append hop.terminated, readCopies_text hop, hrest,
      List.filterMap_cons]
    cases op.copies <;> rfl

theorem copyLine_mem {mode : Mode} {file : Staged} (h : ∀ op ∈ ops, op.Scribed)
    (hop : .copy mode file dest ∈ ops) :
    COPY ++ (mode.flag ++ (file.name ++ ' ' :: dest)) ∈ lines (ops.flatMap Op.text) := by
  induction ops with
  | nil => cases hop
  | cons op ops ih =>
    have hfirst := h op List.mem_cons_self
    rw [List.flatMap_cons, lines_append_of_terminated hfirst.terminated, List.mem_append]
    rcases List.mem_cons.mp hop with rfl | hmem
    · left
      rw [Op.text, lines_copyLine mode hfirst.1 hfirst.2]
      exact List.mem_singleton.mpr rfl
    · exact .inr (ih (fun op' hmem => h op' (List.mem_cons_of_mem _ hmem)) hmem)

theorem enterBlock_notMem {n : ℕ} (w : Walk γ n) (held : Fin n → Staged)
    (units : List (List Char × Live)) : .enterBlock units ∉ w.ops held := by
  induction w with
  | done => exact List.not_mem_nil
  | _ => simp_all [Walk.ops]

theorem mem_calls {op : Op γ} (h : op ∈ calls blocks) (henter : ∀ units, op ≠ .enterBlock units) :
    ∃ b ∈ blocks, op ∈ b.emit.ops Fin.elim0 := by
  obtain ⟨b, hb, hop⟩ := List.mem_flatMap.mp h
  rcases List.mem_cons.mp hop with hop | hop
  · exact absurd hop (henter b.units)
  · exact ⟨b, hb, hop⟩

theorem ops_calls {b : Block γ} (hb : b ∈ blocks) {op : Op γ} (h : op ∈ b.emit.ops Fin.elim0) :
    op ∈ calls blocks := List.mem_flatMap.mpr ⟨b, hb, List.mem_cons_of_mem _ h⟩

/-- What is copied was staged, or is supplied. -/
theorem copies_calls {copy : List Char × List Char}
    (h : copy ∈ (calls blocks).filterMap Op.copies) :
    copy.1 ∈ (calls blocks).filterMap Op.stages ∨ .supplied copy.1 ∈ calls blocks := by
  obtain ⟨op, hop, hcopies⟩ := List.mem_filterMap.mp h
  have henter : ∀ units, op ≠ .enterBlock units := by
    rintro units rfl
    cases hcopies
  obtain ⟨b, hb, hmem⟩ := mem_calls hop henter
  have hscoped := copies_scoped b.emit Fin.elim0 (List.mem_filterMap.mpr ⟨op, hmem, hcopies⟩)
  rcases hscoped with ⟨i, -⟩ | hname
  · exact i.elim0
  · obtain ⟨named, hnamed, hname⟩ := List.mem_filterMap.mp hname
    have hcall := ops_calls hb hnamed
    cases named with
    | stage name content => exact .inl (List.mem_filterMap.mpr ⟨_, hcall, hname⟩)
    | stageTree dir tree => exact .inl (List.mem_filterMap.mpr ⟨_, hcall, hname⟩)
    | supplied name => exact .inr ((Option.some.inj hname) ▸ hcall)
    | _ => cases hname

/-! ### What the recorder makes of it -/

variable [DecidableEq γ] {e e' : Emitter γ} {p : Plan γ}

/-- All that a call does to the recorder. -/
structure Emitter.Steps (e : Emitter γ) (op : Op γ) (e' : Emitter γ) : Prop where
  text : e'.text = e.text ++ op.text
  copied : ∀ name, name ∈ e'.copied ↔ name ∈ e.copied ∨ ∃ dest, op.copies = some (name, dest)
  files : ∀ name, name ∈ e'.files.map Prod.fst ↔
    name ∈ e.files.map Prod.fst ∨ op.stages = some name
  content : ∀ name content, op = .stage name content → e'.files.lookup name = some content
  kept : ∀ name content, e.files.lookup name = some content →
    (∀ tree, op ≠ .stageTree name tree) → e'.files.lookup name = some content
  units : ∀ run runs, op = .enable run runs → ∀ run' ∈ run :: runs, ∀ unit ∈ run'.2,
    unaccounted e.blockUnits unit = false
  blockUnits : (∀ units, op ≠ .enterBlock units) → e'.blockUnits = e.blockUnits

theorem steps_of_step (h : e.step op = .ok e') : e.Steps op e' := by
  cases op with
  | enterBlock units =>
    cases h
    exact ⟨by simp [Op.text], by simp [Op.copies], by simp [Op.stages], (fun _ _ h => by cases h),
      fun _ _ h _ => h, (fun _ _ h => by cases h), fun h => absurd rfl (h units)⟩
  | raw text =>
    rw [Emitter.step] at h
    split_ifs at h
    cases h
    exact ⟨rfl, by simp [Op.copies], by simp [Op.stages], (fun _ _ h => by cases h),
      fun _ _ h _ => h, (fun _ _ h => by cases h), fun _ => rfl⟩
  | stage name content =>
    rw [Emitter.step] at h
    cases hfile : e.files.lookup name with
    | some existing =>
      simp only [hfile] at h
      split_ifs at h with hsame
      cases h
      refine ⟨by simp [Op.text], by simp [Op.copies], fun name' => ?_, fun name' content' h => ?_,
        fun _ _ h _ => h, (fun _ _ h => by cases h), fun _ => rfl⟩
      · simp only [Op.stages, Option.some.injEq]
        refine ⟨.inl, fun hor => hor.elim id ?_⟩
        rintro rfl
        exact mem_keys_of_lookup hfile
      · cases h
        rw [hfile, hsame]
    | none =>
      simp only [hfile] at h
      cases h
      refine ⟨by simp [Op.text], by simp [Op.copies], fun name' => ?_, fun name' content' h => ?_,
        fun name' content' h _ => ?_, (fun _ _ h => by cases h), fun _ => rfl⟩
      · simp only [Op.stages, List.map_cons, List.mem_cons, Option.some.injEq]
        rw [or_comm, eq_comm]
      · cases h
        simp
      · have hne : name' ≠ name := by
          rintro rfl
          rw [hfile] at h
          cases h
        have hother : (name' == name) = false := by simpa using hne
        simp only [List.lookup_cons, hother]
        exact h
  | stageTree dir tree =>
    cases h
    refine ⟨by simp [Op.text], by simp [Op.copies], fun name => ?_, (fun _ _ h => by cases h),
      fun name content h hne => ?_, (fun _ _ h => by cases h), fun _ => rfl⟩
    · simp only [Op.stages, List.map_cons, List.mem_cons, Option.some.injEq, List.mem_map,
        List.mem_filter, decide_eq_true_eq]
      constructor
      · rintro (rfl | ⟨file, ⟨hfile, -⟩, rfl⟩)
        · exact .inr rfl
        · exact .inl ⟨file, hfile, rfl⟩
      · rintro (⟨file, hfile, rfl⟩ | rfl)
        · by_cases hdir : file.1 = dir
          · exact .inl hdir
          · exact .inr ⟨file, ⟨hfile, hdir⟩, rfl⟩
        · exact .inl rfl
    · have hdir : name ≠ dir := fun hsame => hne tree (hsame ▸ rfl)
      have hother : (name == dir) = false := by simpa using hdir
      simp only [List.lookup_cons, hother]
      rw [lookup_filter_ne hdir]
      exact h
  | supplied name =>
    cases h
    exact ⟨by simp [Op.text], by simp [Op.copies], by simp [Op.stages], (fun _ _ h => by cases h),
      fun _ _ h _ => h, (fun _ _ h => by cases h), fun _ => rfl⟩
  | copy mode file dest =>
    cases h
    refine ⟨rfl, fun name => ?_, by simp [Op.stages], (fun _ _ h => by cases h),
      fun _ _ h _ => h, (fun _ _ h => by cases h), fun _ => rfl⟩
    simp only [Op.copies, List.mem_cons, Option.some.injEq, Prod.mk.injEq]
    constructor
    · rintro (rfl | hname)
      · exact .inr ⟨dest, rfl, rfl⟩
      · exact .inl hname
    · rintro (hname | ⟨_, rfl, -⟩)
      · exact .inr hname
      · exact .inl rfl
  | enable run runs =>
    rw [Emitter.step] at h
    cases hfind : ((run :: runs).flatMap Prod.snd).find? (unaccounted e.blockUnits) with
    | some unit =>
      simp only [hfind] at h
      cases h
    | none =>
      simp only [hfind] at h
      cases h
      refine ⟨rfl, by simp [Op.copies], by simp [Op.stages], (fun _ _ h => by cases h),
        fun _ _ h _ => h, fun run' runs' hop => ?_, fun _ => rfl⟩
      cases hop
      intro run' hrun unit hunit
      have hnone := List.find?_eq_none.mp hfind unit (List.mem_flatMap.mpr ⟨run', hrun, hunit⟩)
      exact Bool.eq_false_iff.mpr hnone

theorem run_cons (h : (op :: ops).foldlM Emitter.step e = .ok e') :
    ∃ next, e.Steps op next ∧ ops.foldlM Emitter.step next = .ok e' := by
  rw [List.foldlM_cons, Kuma.Lib.bind_eq_ok] at h
  obtain ⟨next, hstep, hrest⟩ := h
  exact ⟨next, steps_of_step hstep, hrest⟩

/-! ### What a run records -/

theorem text_run (h : ops.foldlM Emitter.step e = .ok e') :
    e'.text = e.text ++ ops.flatMap Op.text := by
  induction ops generalizing e with
  | nil =>
    cases h
    simp
  | cons op ops ih =>
    obtain ⟨next, hnext, hrest⟩ := run_cons h
    rw [ih hrest, hnext.text, List.flatMap_cons, List.append_assoc]

theorem copied_run (h : ops.foldlM Emitter.step e = .ok e') (name : List Char) :
    name ∈ e'.copied ↔ name ∈ e.copied ∨ ∃ dest, (name, dest) ∈ ops.filterMap Op.copies := by
  induction ops generalizing e with
  | nil =>
    cases h
    simp
  | cons op ops ih =>
    obtain ⟨next, hnext, hrest⟩ := run_cons h
    rw [ih hrest, hnext.copied, or_assoc, ← exists_or]
    simp [List.mem_filterMap]

theorem files_run (h : ops.foldlM Emitter.step e = .ok e') (name : List Char) :
    name ∈ e'.files.map Prod.fst ↔
      name ∈ e.files.map Prod.fst ∨ name ∈ ops.filterMap Op.stages := by
  induction ops generalizing e with
  | nil =>
    cases h
    simp
  | cons op ops ih =>
    obtain ⟨next, hnext, hrest⟩ := run_cons h
    rw [ih hrest, hnext.files, or_assoc]
    simp [List.mem_filterMap]

theorem kept_run (h : ops.foldlM Emitter.step e = .ok e')
    (hfile : e.files.lookup name = some content) (htree : ∀ tree, .stageTree name tree ∉ ops) :
    e'.files.lookup name = some content := by
  induction ops generalizing e with
  | nil =>
    cases h
    exact hfile
  | cons op ops ih =>
    obtain ⟨next, hnext, hrest⟩ := run_cons h
    refine ih hrest (hnext.kept name content hfile fun tree hop => ?_) fun tree hmem => ?_
    · exact htree tree (hop ▸ List.mem_cons_self)
    · exact htree tree (List.mem_cons_of_mem _ hmem)

theorem content_run (h : ops.foldlM Emitter.step e = .ok e')
    (hstage : .stage name content ∈ ops) (htree : ∀ tree, .stageTree name tree ∉ ops) :
    e'.files.lookup name = some content := by
  induction ops generalizing e with
  | nil => cases hstage
  | cons op ops ih =>
    obtain ⟨next, hnext, hrest⟩ := run_cons h
    have hlater : ∀ tree, .stageTree name tree ∉ ops :=
      fun tree hmem => htree tree (List.mem_cons_of_mem _ hmem)
    rcases List.mem_cons.mp hstage with hop | hmem
    · exact kept_run hrest (hnext.content name content hop.symm) hlater
    · exact ih hrest hmem hlater

/-- Between two blocks, every unit that is enabled is one of the first's. -/
theorem units_run (h : ops.foldlM Emitter.step e = .ok e')
    (henter : ∀ units, .enterBlock units ∉ ops) {run : UnitScope × List (List Char)}
    {runs : List (UnitScope × List (List Char))} (henable : .enable run runs ∈ ops)
    {run' : UnitScope × List (List Char)} (hrun : run' ∈ run :: runs) {unit : List Char}
    (hunit : unit ∈ run'.2) : unaccounted e.blockUnits unit = false := by
  induction ops generalizing e with
  | nil => cases henable
  | cons op ops ih =>
    obtain ⟨next, hnext, hrest⟩ := run_cons h
    rcases List.mem_cons.mp henable with hop | hmem
    · exact hnext.units run runs hop.symm run' hrun unit hunit
    · have hsame : next.blockUnits = e.blockUnits :=
        hnext.blockUnits fun units hop => henter units (hop ▸ List.mem_cons_self)
      rw [← hsame]
      exact ih hrest (fun units hmem => henter units (List.mem_cons_of_mem _ hmem)) hmem

/-! ### Blocks of every image -/

def VM_TZ_SERVICE : List Char := "[Unit]
Description=Adopt the host timezone passed by kuma vm
Before=systemd-user-sessions.service

[Service]
Type=oneshot
ExecStart=/usr/libexec/kuma-vm-timezone

[Install]
WantedBy=multi-user.target
".toList

def VM_TZ_SCRIPT : List Char := "#!/usr/bin/bash
set -euo pipefail
modprobe -q qemu_fw_cfg 2>/dev/null || exit 0
raw=/sys/firmware/qemu_fw_cfg/by_name/opt/org.kuma.tz/raw
[ -r \"$raw\" ] || exit 0
tz=$(tr -d '\\0' < \"$raw\")
[ -e \"/usr/share/zoneinfo/$tz\" ] || exit 0
ln -sfn \"../usr/share/zoneinfo/$tz\" /etc/localtime
".toList

def fwupd : Walk (List Char) 0 := .enable (.system, ["fwupd-refresh.timer".toList]) [] .done

def vmTimezone : Walk (List Char) 0 :=
  .stage "kuma-vm-timezone".toList VM_TZ_SCRIPT <|
  .stage "kuma-vm-timezone.service".toList VM_TZ_SERVICE <|
  .raw ['\n'] <|
  .copy .exec 0 "/usr/libexec/kuma-vm-timezone".toList <|
  .copy .plain 1 "/usr/lib/systemd/system/kuma-vm-timezone.service".toList <|
  .enable (.system, ["kuma-vm-timezone.service".toList]) [] .done

def hostname (declared : List Char) : Walk (List Char) 0 :=
  .stage "hostname".toList (declared ++ ['\n']) <|
  .raw ['\n'] <|
  .copy .plain 0 HOSTNAME .done

def kumaBinary : Walk (List Char) 0 :=
  .supplied "kuma".toList <|
  .raw ['\n'] <|
  .copy .exec 0 "/usr/bin/kuma".toList <|
  .raw "RUN /usr/bin/kuma --version\n".toList .done

def declaration : Walk (List Char) 0 :=
  .supplied "kuma.toml".toList <|
  .raw ['\n'] <|
  .copy .plain 0 "/usr/lib/kuma/kuma.toml".toList .done

def vmTimezoneBlock : Block (List Char) where
  name := "vm-timezone"
  units := [("kuma-vm-timezone.service".toList, .runs ("adopts the host's timezone through " ++
    "qemu fw_cfg, which a live session inside `kuma vm` wants, and exits 0 immediately when " ++
    "that channel is absent"))]
  emit := vmTimezone

/-- Some of the blocks that every declaration comes to, in their order. -/
def common (declared : List Char) : List (Block (List Char)) := [
  ⟨"fwupd", [], fwupd⟩,
  vmTimezoneBlock,
  ⟨"hostname", [], hostname declared⟩,
  ⟨"kuma-binary", [], kumaBinary⟩,
  ⟨"declaration", [], declaration⟩]

theorem plan_common : ∃ p, plan (common "workbench".toList) = .ok p := by
  have hsome : (plan (common "workbench".toList)).toOption.isSome = true := by decide
  cases hplan : plan (common "workbench".toList) with
  | ok p => exact ⟨p, rfl⟩
  | error fault =>
    rw [hplan] at hsome
    cases hsome

/-! ### What a pass makes of the image -/

theorem plan_cases (h : plan blocks = .ok p) :
    ∃ e, (calls blocks).foldlM Emitter.step .new = .ok e ∧
      p.text = (calls blocks).flatMap Op.text ∧ p.files = e.files ∧
        ∀ name ∈ p.files.map Prod.fst,
          ∃ dest, (name, dest) ∈ (calls blocks).filterMap Op.copies := by
  unfold plan at h
  rw [Kuma.Lib.bind_eq_ok] at h
  obtain ⟨e, hrun, hrest⟩ := h
  split_ifs at hrest with hnever
  · cases hrest
    refine ⟨e, hrun, text_run hrun, rfl, fun name hname => ?_⟩
    have hcopied : name ∈ e.copied := by
      by_contra hnot
      have hmem : name ∈ e.neverCopied := List.mem_filter.mpr ⟨hname, decide_eq_true hnot⟩
      rw [hnever] at hmem
      cases hmem
    rcases (copied_run hrun name).mp hcopied with hnew | hcopy
    · cases hnew
    · exact hcopy

/-- Of a pass that goes through, the text tells every copy, in order; each names a file that was
staged or is supplied, and each file that was staged is copied. -/
theorem plan_copies (h : plan blocks = .ok p) (hscribed : ∀ op ∈ calls blocks, op.Scribed) :
    readCopies p.text = (calls blocks).filterMap Op.copies ∧
      (∀ copy ∈ readCopies p.text,
        copy.1 ∈ p.files.map Prod.fst ∨ .supplied copy.1 ∈ calls blocks) ∧
      ∀ name ∈ p.files.map Prod.fst, ∃ dest, (name, dest) ∈ readCopies p.text := by
  obtain ⟨e, hrun, htext, hfiles, hcopied⟩ := plan_cases h
  have hread : readCopies p.text = (calls blocks).filterMap Op.copies := by
    rw [htext]
    exact readCopies_texts hscribed
  rw [hread]
  refine ⟨rfl, fun copy hcopy => (copies_calls hcopy).imp_left fun hstaged => ?_, hcopied⟩
  rw [hfiles]
  exact (files_run hrun copy.1).mpr (.inr hstaged)

theorem plan_copies_common : ∃ p, plan (common "workbench".toList) = .ok p ∧
    readCopies p.text = (calls (common "workbench".toList)).filterMap Op.copies ∧
      (∀ copy ∈ readCopies p.text, copy.1 ∈ p.files.map Prod.fst ∨
        .supplied copy.1 ∈ calls (common "workbench".toList)) ∧
      ∀ name ∈ p.files.map Prod.fst, ∃ dest, (name, dest) ∈ readCopies p.text := by
  obtain ⟨p, hp⟩ := plan_common
  exact ⟨p, hp, plan_copies hp (by decide)⟩

/-- Whatever block staged a file, the build context has what it gave, unless a tree took the
file's name. -/
theorem plan_content (h : plan blocks = .ok p) (hstage : .stage name content ∈ calls blocks)
    (htree : ∀ tree, .stageTree name tree ∉ calls blocks) :
    p.files.lookup name = some content := by
  obtain ⟨e, hrun, -, hfiles, -⟩ := plan_cases h
  rw [hfiles]
  exact content_run hrun hstage htree

theorem plan_content_common : ∃ p, plan (common "workbench".toList) = .ok p ∧
    p.files.lookup "hostname".toList = some "workbench\n".toList := by
  obtain ⟨p, hp⟩ := plan_common
  refine ⟨p, hp, plan_content hp (List.mem_flatMap.mpr
    ⟨⟨"hostname", [], hostname "workbench".toList⟩, by simp [common], ?_⟩) ?_⟩
  · exact List.mem_cons_of_mem _ List.mem_cons_self
  · simp [calls, common, Walk.ops, fwupd, vmTimezoneBlock, vmTimezone, hostname, kumaBinary,
      declaration]

/-! ### Units -/

theorem units_blocks (h : (calls blocks).foldlM Emitter.step e = .ok e') {b : Block γ}
    (hb : b ∈ blocks) {run : UnitScope × List (List Char)}
    {runs : List (UnitScope × List (List Char))}
    (henable : .enable run runs ∈ b.emit.ops Fin.elim0) {run' : UnitScope × List (List Char)}
    (hrun : run' ∈ run :: runs) {unit : List Char} (hunit : unit ∈ run'.2) :
    unaccounted b.units unit = false := by
  induction blocks generalizing e with
  | nil => cases hb
  | cons first blocks ih =>
    rw [calls, List.flatMap_cons, List.foldlM_append, Kuma.Lib.bind_eq_ok] at h
    obtain ⟨next, hfirst, hrest⟩ := h
    rw [List.foldlM_cons, Kuma.Lib.bind_eq_ok] at hfirst
    obtain ⟨entered, hstep, hfirst⟩ := hfirst
    cases hstep
    rcases List.mem_cons.mp hb with rfl | hb
    · exact units_run hfirst (enterBlock_notMem b.emit Fin.elim0) henable hrun hunit
    · exact ih hrest hb

/-- Every kuma unit that a pass enables is masked on installer media, or its block says why it may
run there. -/
theorem plan_units (h : plan blocks = .ok p) {b : Block γ} (hb : b ∈ blocks)
    {run : UnitScope × List (List Char)} {runs : List (UnitScope × List (List Char))}
    (henable : .enable run runs ∈ b.emit.ops Fin.elim0) {run' : UnitScope × List (List Char)}
    (hrun : run' ∈ run :: runs) {unit : List Char} (hunit : unit ∈ run'.2)
    (hkuma : (stripPrefix "kuma-".toList unit).isSome = true) :
    unit ∈ liveMasks blocks ∨
      ∃ why, (unit, .runs why) ∈ b.units ∨ (unit, .conditioned why) ∈ b.units := by
  obtain ⟨e, hpass, -⟩ := plan_cases h
  have hlisted := units_blocks hpass hb henable hrun hunit
  unfold unaccounted at hlisted
  rw [hkuma, Bool.true_and, Bool.not_eq_false', List.any_eq_true] at hlisted
  obtain ⟨⟨unit', live⟩, hrow, hsame⟩ := hlisted
  obtain rfl : unit' = unit := of_decide_eq_true hsame
  cases live with
  | masked why =>
    exact .inl (List.mem_flatMap.mpr ⟨b, hb, List.mem_filterMap.mpr ⟨_, hrow, rfl⟩⟩)
  | runs why => exact .inr ⟨why, .inl hrow⟩
  | conditioned why => exact .inr ⟨why, .inr hrow⟩

theorem plan_units_common :
    "kuma-vm-timezone.service".toList ∈ liveMasks (common "workbench".toList) ∨
      ∃ why, ("kuma-vm-timezone.service".toList, .runs why) ∈ vmTimezoneBlock.units ∨
        ("kuma-vm-timezone.service".toList, .conditioned why) ∈ vmTimezoneBlock.units := by
  obtain ⟨p, hp⟩ := plan_common
  have hb : vmTimezoneBlock ∈ common "workbench".toList := by simp [common]
  have henable : .enable (.system, ["kuma-vm-timezone.service".toList]) [] ∈
      vmTimezoneBlock.emit.ops Fin.elim0 := by simp [vmTimezoneBlock, vmTimezone, Walk.ops]
  exact plan_units hp hb henable List.mem_cons_self List.mem_cons_self rfl

/-! ### When a pass goes through -/

theorem raw_run {text : List Char} (h : ops.foldlM Emitter.step e = .ok e')
    (hraw : .raw text ∈ ops) : stripPrefix COPY (text.dropWhile isWhiteSpace) = none := by
  induction ops generalizing e with
  | nil => cases hraw
  | cons op ops ih =>
    rw [List.foldlM_cons, Kuma.Lib.bind_eq_ok] at h
    obtain ⟨next, hstep, hrest⟩ := h
    rcases List.mem_cons.mp hraw with rfl | hmem
    · rw [Emitter.step] at hstep
      split_ifs at hstep with hcopy
      exact Option.not_isSome_iff_eq_none.mp hcopy
    · exact ih hrest hmem

/-- What is found in the build context was there, or the call put it there. -/
theorem origin_step (h : e.step op = .ok e') (hfile : e'.files.lookup name = some content) :
    e.files.lookup name = some content ∨ op = .stage name content ∨
      op = .stageTree name content := by
  cases op with
  | raw text =>
    rw [Emitter.step] at h
    split_ifs at h
    cases h
    exact .inl hfile
  | stage name' content' =>
    rw [Emitter.step] at h
    cases hold : e.files.lookup name' with
    | some existing =>
      simp only [hold] at h
      split_ifs at h
      cases h
      exact .inl hfile
    | none =>
      simp only [hold] at h
      cases h
      by_cases hname : name = name'
      · subst hname
        rw [List.lookup_cons_self] at hfile
        exact .inr (.inl (congrArg _ (Option.some.inj hfile)))
      · have hother : (name == name') = false := by simpa using hname
        simp only [List.lookup_cons, hother] at hfile
        exact .inl hfile
  | stageTree dir tree =>
    cases h
    by_cases hname : name = dir
    · subst hname
      rw [List.lookup_cons_self] at hfile
      exact .inr (.inr (congrArg _ (Option.some.inj hfile)))
    · have hother : (name == dir) = false := by simpa using hname
      simp only [List.lookup_cons, hother] at hfile
      rw [lookup_filter_ne hname] at hfile
      exact .inl hfile
  | enable run runs =>
    rw [Emitter.step] at h
    cases hfind : ((run :: runs).flatMap Prod.snd).find? (unaccounted e.blockUnits) with
    | some unit =>
      simp only [hfind] at h
      cases h
    | none =>
      simp only [hfind] at h
      cases h
      exact .inl hfile
  | _ =>
    cases h
    exact .inl hfile

/-- Calls that the recorder can take in any order: a raw text opens with no COPY, and whoever stages
a file gives the same. -/
structure Admitted (ops : List (Op γ)) : Prop where
  raw : ∀ text, .raw text ∈ ops → stripPrefix COPY (text.dropWhile isWhiteSpace) = none
  agree : ∀ name content content', .stage name content ∈ ops → .stage name content' ∈ ops →
    content = content'

/-- Every kuma unit that a block enables has a row in its table. -/
def Block.Accounted (b : Block γ) : Prop :=
  ∀ run runs, .enable run runs ∈ b.emit.ops Fin.elim0 → ∀ run' ∈ run :: runs, ∀ unit ∈ run'.2,
    unaccounted b.units unit = false

/-- What the build context has of a file is what all that stage it give. -/
def Emitter.Agrees (e : Emitter γ) (all : List (Op γ)) : Prop :=
  ∀ name content, .stage name content ∈ all →
    ∀ kept, e.files.lookup name = some kept → kept = content

section
variable {all : List (Op γ)} (hadmitted : Admitted all)
include hadmitted

theorem step_goes (hop : op ∈ all) (hagrees : e.Agrees all)
    (hunits : ∀ run runs, op = .enable run runs → ∀ run' ∈ run :: runs, ∀ unit ∈ run'.2,
      unaccounted e.blockUnits unit = false) : ∃ next, e.step op = .ok next := by
  cases op with
  | raw text =>
    rw [Emitter.step, hadmitted.raw text hop]
    exact ⟨_, rfl⟩
  | stage name content =>
    rw [Emitter.step]
    cases hfile : e.files.lookup name with
    | some kept => exact ⟨e, if_pos (hagrees name content hop kept hfile)⟩
    | none => exact ⟨_, rfl⟩
  | enable run runs =>
    have hnone : ((run :: runs).flatMap Prod.snd).find? (unaccounted e.blockUnits) = none := by
      refine List.find?_eq_none.mpr fun unit hunit => ?_
      obtain ⟨run', hrun, hmem⟩ := List.mem_flatMap.mp hunit
      exact Bool.eq_false_iff.mp (hunits run runs rfl run' hrun unit hmem)
    rw [Emitter.step, hnone]
    exact ⟨_, rfl⟩
  | _ => exact ⟨_, rfl⟩

variable (htree : ∀ name content tree, .stage name content ∈ all → .stageTree name tree ∉ all)
include htree

theorem agrees_step (hop : op ∈ all) (h : e.step op = .ok e') (hagrees : e.Agrees all) :
    e'.Agrees all := by
  intro name content hstage kept hkept
  rcases origin_step h hkept with hold | rfl | rfl
  · exact hagrees name content hstage kept hold
  · exact hadmitted.agree name kept content hop hstage
  · exact absurd hop (htree name content kept hstage)

theorem run_goes (hsub : ∀ op ∈ ops, op ∈ all) (henter : ∀ units, .enterBlock units ∉ ops)
    (hagrees : e.Agrees all)
    (hunits : ∀ run runs, .enable run runs ∈ ops → ∀ run' ∈ run :: runs, ∀ unit ∈ run'.2,
      unaccounted e.blockUnits unit = false) :
    ∃ e', ops.foldlM Emitter.step e = .ok e' ∧ e'.Agrees all := by
  induction ops generalizing e with
  | nil => exact ⟨e, rfl, hagrees⟩
  | cons op ops ih =>
    have hop := hsub op List.mem_cons_self
    obtain ⟨next, hstep⟩ := step_goes hadmitted hop hagrees fun run runs hrun =>
      hunits run runs (hrun ▸ List.mem_cons_self)
    have hsame : next.blockUnits = e.blockUnits :=
      (steps_of_step hstep).blockUnits fun units hop => henter units (hop ▸ List.mem_cons_self)
    obtain ⟨e', hrest, hlast⟩ := ih (fun op' hmem => hsub op' (List.mem_cons_of_mem _ hmem))
      (fun units hmem => henter units (List.mem_cons_of_mem _ hmem))
      (agrees_step hadmitted htree hop hstep hagrees) fun run runs hmem => by
        rw [hsame]
        exact hunits run runs (List.mem_cons_of_mem _ hmem)
    refine ⟨e', ?_, hlast⟩
    rw [List.foldlM_cons, Kuma.Lib.bind_eq_ok]
    exact ⟨next, hstep, hrest⟩

theorem blocks_go (hsub : ∀ op ∈ calls blocks, op ∈ all) (hunits : ∀ b ∈ blocks, b.Accounted)
    (hagrees : e.Agrees all) :
    ∃ e', (calls blocks).foldlM Emitter.step e = .ok e' ∧ e'.Agrees all := by
  induction blocks generalizing e with
  | nil => exact ⟨e, rfl, hagrees⟩
  | cons b blocks ih =>
    have hcalls : calls (b :: blocks) =
        .enterBlock b.units :: b.emit.ops Fin.elim0 ++ calls blocks := rfl
    rw [hcalls] at hsub ⊢
    obtain ⟨mid, hmid, hagrees⟩ := run_goes (e := { e with blockUnits := b.units }) hadmitted htree
      (fun op hmem => hsub op (List.mem_append_left _ (List.mem_cons_of_mem _ hmem)))
      (enterBlock_notMem b.emit Fin.elim0) hagrees (hunits b List.mem_cons_self)
    obtain ⟨e', hrest, hlast⟩ := ih (fun op hmem => hsub op (List.mem_append_right _ hmem))
      (fun b' hb => hunits b' (List.mem_cons_of_mem _ hb)) hagrees
    refine ⟨e', ?_, hlast⟩
    rw [List.foldlM_append, Kuma.Lib.bind_eq_ok]
    refine ⟨mid, ?_, hrest⟩
    rw [List.foldlM_cons, Kuma.Lib.bind_eq_ok]
    exact ⟨_, rfl, hmid⟩

end

/-- Where no tree takes the name of a file that is staged, a pass goes through exactly if its calls
are admitted, its blocks account for their units, and whatever it stages it copies. -/
theorem plan_goes_iff (htree : ∀ name content tree, .stage name content ∈ calls blocks →
    .stageTree name tree ∉ calls blocks) :
    (∃ p, plan blocks = .ok p) ↔ Admitted (calls blocks) ∧ (∀ b ∈ blocks, b.Accounted) ∧
      ∀ name ∈ (calls blocks).filterMap Op.stages,
        ∃ dest, (name, dest) ∈ (calls blocks).filterMap Op.copies := by
  constructor
  · rintro ⟨p, h⟩
    obtain ⟨e, hrun, -, hfiles, hcopied⟩ := plan_cases h
    refine ⟨⟨fun text => raw_run hrun, fun name content content' hstage hstage' => ?_⟩,
      fun b hb run runs henable run' hrun' unit hunit =>
        units_blocks hrun hb henable hrun' hunit, fun name hname => ?_⟩
    · have hfound := content_run hrun hstage fun tree => htree name content tree hstage
      rw [content_run hrun hstage' fun tree => htree name content' tree hstage'] at hfound
      exact (Option.some.inj hfound).symm
    · refine hcopied name ?_
      rw [hfiles]
      exact (files_run hrun name).mpr (.inr hname)
  · rintro ⟨hadmitted, hunits, hcopied⟩
    obtain ⟨e, hrun, -⟩ := blocks_go (e := .new) hadmitted htree (fun _ hmem => hmem) hunits
      fun _ _ _ _ hkept => by cases hkept
    have hnever : e.neverCopied = [] := by
      refine List.filter_eq_nil_iff.mpr fun name hname => ?_
      rcases (files_run hrun name).mp hname with hnew | hstaged
      · cases hnew
      · simpa using (copied_run hrun name).mpr (.inr (hcopied name hstaged))
    refine ⟨⟨e.text, e.files⟩, ?_⟩
    unfold plan
    rw [Kuma.Lib.bind_eq_ok]
    refine ⟨e, hrun, ?_⟩
    rw [if_pos hnever]
    rfl

theorem plan_goes_iff_common :
    (∃ p, plan (common "workbench".toList) = .ok p) ↔ Admitted (calls (common "workbench".toList)) ∧
      (∀ b ∈ common "workbench".toList, b.Accounted) ∧
        ∀ name ∈ (calls (common "workbench".toList)).filterMap Op.stages,
          ∃ dest, (name, dest) ∈ (calls (common "workbench".toList)).filterMap Op.copies :=
  plan_goes_iff fun name content tree _ => by
    simp [calls, common, Walk.ops, fwupd, vmTimezoneBlock, vmTimezone, hostname, kumaBinary,
      declaration]

/-! ### What doctor watches -/

/-- Doctor watches every path in /etc that a pass copies to, but for the hostname of a declaration
that names none. -/
theorem plan_etc (h : plan blocks = .ok p) (hscribed : ∀ op ∈ calls blocks, op.Scribed)
    (hcopy : (name, dest) ∈ (calls blocks).filterMap Op.copies) (hetc : inEtc dest = true)
    (hostname : Option String) (hhost : dest = HOSTNAME → hostname.isSome = true) :
    dest ∈ etcPaths p.text hostname := by
  obtain ⟨e, -, htext, -⟩ := plan_cases h
  obtain ⟨op, hop, hcopies⟩ := List.mem_filterMap.mp hcopy
  have hwrites : dest ∈ etcWrites p.text := by
    cases op with
    | copy mode file dest' =>
      obtain ⟨-, rfl⟩ := Prod.mk.inj (Option.some.inj hcopies)
      obtain ⟨hname, hdest⟩ := hscribed _ hop
      obtain ⟨flags, hwords, -⟩ := words_copy mode hname hdest
      have hlast : (words (mode.flag ++ (file.name ++ ' ' :: dest'))).getLast? = some dest' := by
        rw [hwords]
        simp
      have hline := copyLine_mem hscribed hop
      rw [← htext] at hline
      refine List.mem_toFinset.mpr (List.mem_flatMap.mpr ⟨_, hline, List.mem_filter.mpr ⟨?_, hetc⟩⟩)
      unfold lineWrites
      rw [stripPrefix_eq_some.mpr (rfl : COPY ++ _ = _), Option.bind_some, hlast]
      simp
    | _ => cases hcopies
  unfold etcPaths
  split_ifs with hnone
  · refine Finset.mem_erase.mpr ⟨fun hsame => ?_, hwrites⟩
    have hsome := hhost hsame
    rw [Option.isNone_iff_eq_none.mp hnone] at hsome
    cases hsome
  · exact hwrites

theorem plan_etc_common : ∃ p, plan (common "workbench".toList) = .ok p ∧
    HOSTNAME ∈ etcPaths p.text (some "workbench") := by
  obtain ⟨p, hp⟩ := plan_common
  have hcopy : ("hostname".toList, HOSTNAME) ∈
      (calls (common "workbench".toList)).filterMap Op.copies := by decide
  exact ⟨p, hp, plan_etc hp (by decide) hcopy rfl _ fun _ => rfl⟩

end
end Kuma.Containerfile
