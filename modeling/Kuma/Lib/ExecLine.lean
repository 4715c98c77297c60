import Mathlib.Data.List.Basic
import Mathlib.Algebra.BigOperators.Group.List.Basic
import Mathlib.Algebra.Ring.Nat

/-! The command lines of unit files: words between blanks, quotes and backslash escapes, then
`%` specifiers, then `$` variables. Reading a line never makes it longer unless a specifier or a
variable does, so that a line that comes back whole had nothing in it to be read. -/
namespace Kuma.Lib.ExecLine

def isBlank (c : Char) : Bool := c == ' ' || c == '\t' || c == '\n' || c == '\r'

def isQuote (c : Char) : Bool := c == '"' || c == '\''

def digit (base : ℕ) (c : Char) : Option ℕ :=
  let n :=
    if '0' ≤ c ∧ c ≤ '9' then c.toNat - '0'.toNat
    else if 'a' ≤ c ∧ c ≤ 'f' then c.toNat - 'a'.toNat + 10
    else if 'A' ≤ c ∧ c ≤ 'F' then c.toNat - 'A'.toNat + 10
    else base
  if n < base then some n else none

/-- The number that the first `width` characters spell, of which none may be missing. It may not
be zero: no word holds a null. -/
def numeral (base width bound : ℕ) (text : List Char) : Option ℕ :=
  if text.length < width then none
  else ((text.take width).foldlM (fun n c => (digit base c).map (n * base + ·)) 0).filter
    fun n => 0 < n && n < bound

/-- What the characters behind a backslash stand for, and how many of them do. A byte is the
character of its number. -/
def unescape : List Char → Option (Char × ℕ)
  | [] => none
  | 'a' :: _ => some (Char.ofNat 7, 1)
  | 'b' :: _ => some (Char.ofNat 8, 1)
  | 'f' :: _ => some (Char.ofNat 12, 1)
  | 'n' :: _ => some ('\n', 1)
  | 'r' :: _ => some ('\r', 1)
  | 't' :: _ => some ('\t', 1)
  | 'v' :: _ => some (Char.ofNat 11, 1)
  | '\\' :: _ => some ('\\', 1)
  | '"' :: _ => some ('"', 1)
  | '\'' :: _ => some ('\'', 1)
  | 's' :: _ => some (' ', 1)
  | 'x' :: rest => (numeral 16 2 256 rest).map fun n => (Char.ofNat n, 3)
  | 'u' :: rest => (numeral 16 4 0x10000 rest).map fun n => (Char.ofNat n, 5)
  | 'U' :: rest => (numeral 16 8 0x110000 rest).map fun n => (Char.ofNat n, 9)
  | c :: rest => (numeral 8 3 256 (c :: rest)).map fun n => (Char.ofNat n, 3)

/-- The words of a line, given the quote that is open, the word that has begun, and how many
characters an escape has read ahead. A quote that stays open, or an escape that is none, spoils the
line. -/
def words : Option Char → Option (List Char) → ℕ → List Char → Option (List (List Char))
  | none, word, _, [] => some word.toList
  | some _, _, _, [] => none
  | quote, word, skip + 1, _ :: rest => words quote word skip rest
  | quote, word, 0, c :: rest =>
    if c = '\\' then
      match unescape rest with
      | none => none
      | some (d, n) => words quote (some (word.getD [] ++ [d])) n rest
    else match quote with
      | some q =>
        if c = q then words none (some (word.getD [])) 0 rest
        else words quote (some (word.getD [] ++ [c])) 0 rest
      | none =>
        if isQuote c then words (some c) (some (word.getD [])) 0 rest
        else if isBlank c then (words none none 0 rest).map (word.toList ++ ·)
        else words none (some (word.getD [] ++ [c])) 0 rest

/-- The length of the words, with a blank behind each. -/
def weight (ws : List (List Char)) : ℕ := (ws.map fun w => w.length + 1).sum

@[simp] theorem weight_nil : weight [] = 0 := rfl

@[simp] theorem weight_cons (w : List Char) (ws : List (List Char)) :
    weight (w :: ws) = w.length + 1 + weight ws := by
  simp [weight]

@[simp] theorem weight_append (us ws : List (List Char)) :
    weight (us ++ ws) = weight us + weight ws := by
  simp [weight]

theorem numeral_length {base width bound n : ℕ} {text : List Char}
    (h : numeral base width bound text = some n) : width ≤ text.length := by
  by_contra hlt
  rw [numeral, if_pos (by omega)] at h
  cases h

theorem unescape_length {text : List Char} {c : Char} {n : ℕ} (h : unescape text = some (c, n)) :
    1 ≤ n ∧ n ≤ text.length := by
  unfold unescape at h
  split at h
  case h_1 => cases h
  case h_13 | h_14 | h_15 =>
    obtain ⟨m, hm, hpair⟩ := Option.map_eq_some_iff.mp h
    have hlength := numeral_length hm
    have hn := (Prod.mk.inj hpair).2
    rw [List.length_cons]
    omega
  case h_16 =>
    obtain ⟨m, hm, hpair⟩ := Option.map_eq_some_iff.mp h
    have hlength := numeral_length hm
    have hn := (Prod.mk.inj hpair).2
    omega
  all_goals
    have hn := (Prod.mk.inj (Option.some.inj h)).2
    rw [List.length_cons]
    omega

section
variable {quote : Option Char} {word : Option (List Char)} {skip : ℕ} {line rest : List Char}
  {ws : List (List Char)} {c : Char}

/-- The next character and what it does. -/
theorem words_cons (h : words quote word 0 (c :: rest) = some ws) :
    (c = '\\' ∧ ∃ d n, unescape rest = some (d, n) ∧
      words quote (some (word.getD [] ++ [d])) n rest = some ws) ∨
    (quote = some c ∧ words none (some (word.getD [])) 0 rest = some ws) ∨
    (quote = none ∧ isQuote c = true ∧
      words (some c) (some (word.getD [])) 0 rest = some ws) ∨
    (quote = none ∧ (c ≠ '\\' ∧ isQuote c = false) ∧ isBlank c = true ∧
      ∃ more, words none none 0 rest = some more ∧ ws = word.toList ++ more) ∨
    (c ≠ '\\' ∧ (quote = none → isQuote c = false ∧ isBlank c = false) ∧
      words quote (some (word.getD [] ++ [c])) 0 rest = some ws) := by
  rw [words.eq_def] at h
  simp only at h
  by_cases hescape : c = '\\'
  · left
    rw [if_pos hescape] at h
    refine ⟨hescape, ?_⟩
    split at h
    · cases h
    · exact ⟨_, _, by assumption, h⟩
  right
  rw [if_neg hescape] at h
  cases quote with
  | some q =>
    simp only at h
    split_ifs at h with hq
    · exact .inl ⟨congrArg some hq.symm, h⟩
    · exact .inr (.inr (.inr ⟨hescape, nofun, h⟩))
  | none =>
    simp only at h
    split_ifs at h with hquote hblank
    · exact .inr (.inl ⟨rfl, hquote, h⟩)
    · obtain ⟨more, hmore, hws⟩ := Option.map_eq_some_iff.mp h
      exact .inr (.inr (.inl
        ⟨rfl, ⟨hescape, Bool.eq_false_iff.mpr hquote⟩, hblank, more, hmore, hws.symm⟩))
    · exact .inr (.inr (.inr ⟨hescape,
        fun _ => ⟨Bool.eq_false_iff.mpr hquote, Bool.eq_false_iff.mpr hblank⟩, h⟩))

theorem length_getD_append (word : Option (List Char)) (c : Char) :
    ((some (word.getD [] ++ [c])).getD []).length = (word.getD []).length + 1 := by
  simp

theorem weight_toList_le (word : Option (List Char)) :
    weight word.toList ≤ (word.getD []).length + 1 := by
  cases word <;> simp

/-- Words come of what they are read from. -/
theorem weight_words (h : words quote word skip line = some ws) :
    weight ws ≤ (word.getD []).length + (line.length - skip) + 1 := by
  induction line generalizing quote word skip ws with
  | nil =>
    cases quote with
    | none =>
      obtain rfl := Option.some.inj h
      have hword := weight_toList_le word
      omega
    | some q => cases h
  | cons c rest ih =>
    rw [List.length_cons]
    cases skip with
    | succ skip =>
      have hrest : words quote word skip rest = some ws := by simpa [words] using h
      have hle := ih hrest
      omega
    | zero =>
      rcases words_cons h with ⟨-, d, n, hunescape, h⟩ | ⟨-, h⟩ | ⟨-, -, h⟩ |
        ⟨-, -, -, more, hmore, rfl⟩ | ⟨-, -, h⟩
      · have hlength := unescape_length hunescape
        have hle := ih h
        rw [length_getD_append] at hle
        omega
      · have hle := ih h
        rw [Option.getD_some] at hle
        omega
      · have hle := ih h
        rw [Option.getD_some] at hle
        omega
      · have hle := ih hmore
        have hword := weight_toList_le word
        rw [Option.getD_none, List.length_nil] at hle
        rw [weight_append]
        omega
      · have hle := ih h
        rw [length_getD_append] at hle
        omega

/-- Quotes and escapes shorten. -/
theorem weight_words_lt (h : words none word 0 line = some ws)
    (hspecial : ∃ c ∈ line, c = '\\' ∨ isQuote c = true) :
    weight ws < (word.getD []).length + line.length + 1 := by
  induction line generalizing word ws with
  | nil =>
    obtain ⟨c, hc, -⟩ := hspecial
    exact absurd hc List.not_mem_nil
  | cons c rest ih =>
    rw [List.length_cons]
    rcases words_cons h with ⟨-, d, n, hunescape, h⟩ | ⟨hquote, -⟩ | ⟨-, -, h⟩ |
      ⟨-, hplain, -, more, hmore, rfl⟩ | ⟨hescape, hplain, h⟩
    · have hlength := unescape_length hunescape
      have hle := weight_words h
      rw [length_getD_append] at hle
      omega
    · cases hquote
    · have hle := weight_words h
      rw [Option.getD_some] at hle
      omega
    · have hrest : ∃ c ∈ rest, c = '\\' ∨ isQuote c = true := by
        obtain ⟨d, hd, hspecial⟩ := hspecial
        rcases List.mem_cons.mp hd with rfl | hd
        · rcases hspecial with rfl | hquote
          · exact absurd rfl hplain.1
          · rw [hplain.2] at hquote
            cases hquote
        · exact ⟨d, hd, hspecial⟩
      have hlt := ih hmore hrest
      have hword := weight_toList_le word
      rw [Option.getD_none, List.length_nil] at hlt
      rw [weight_append]
      omega
    · have hrest : ∃ c ∈ rest, c = '\\' ∨ isQuote c = true := by
        obtain ⟨d, hd, hspecial⟩ := hspecial
        rcases List.mem_cons.mp hd with rfl | hd
        · rcases hspecial with rfl | hquote
          · exact absurd rfl hescape
          · rw [(hplain rfl).1] at hquote
            cases hquote
        · exact ⟨d, hd, hspecial⟩
      have hlt := ih h hrest
      rw [length_getD_append] at hlt
      omega

/-- Characters that a word holds as they are. -/
def Plain (text : List Char) : Prop :=
  ∀ c ∈ text, c ≠ '\\' ∧ isQuote c = false ∧ isBlank c = false

/-- Without quotes and escapes no word holds a blank. -/
theorem isBlank_of_mem_words (h : words none word 0 line = some ws)
    (hplain : ∀ c ∈ line, c ≠ '\\' ∧ isQuote c = false)
    (hword : ∀ c ∈ word.getD [], isBlank c = false) : ∀ w ∈ ws, ∀ c ∈ w, isBlank c = false := by
  induction line generalizing word ws with
  | nil =>
    obtain rfl := Option.some.inj h
    intro w hw
    rw [Option.mem_toList] at hw
    rwa [hw, Option.getD_some] at hword
  | cons c rest ih =>
    obtain ⟨⟨hescape, hquote⟩, hrest⟩ := List.forall_mem_cons.mp hplain
    rcases words_cons h with ⟨rfl, -⟩ | ⟨hnone, -⟩ | ⟨-, hopen, -⟩ |
      ⟨-, -, -, more, hmore, rfl⟩ | ⟨-, hblank, h⟩
    · exact absurd rfl hescape
    · cases hnone
    · rw [hquote] at hopen
      cases hopen
    · intro w hw
      rcases List.mem_append.mp hw with hw | hw
      · rw [Option.mem_toList] at hw
        rwa [hw, Option.getD_some] at hword
      · exact ih hmore hrest (fun d hd => absurd hd List.not_mem_nil) w hw
    · refine ih h hrest fun d hd => ?_
      rw [Option.getD_some, List.mem_append, List.mem_singleton] at hd
      rcases hd with hd | rfl
      · exact hword d hd
      · exact (hblank rfl).2

theorem words_plain_append {text : List Char} (h : Plain text) (hne : text ≠ []) :
    words none word 0 (text ++ rest) = words none (some (word.getD [] ++ text)) 0 rest := by
  induction text generalizing word with
  | nil => exact absurd rfl hne
  | cons c text ih =>
    obtain ⟨⟨hescape, hquote, hblank⟩, htext⟩ := List.forall_mem_cons.mp h
    have hstep : words none word 0 (c :: (text ++ rest)) =
        words none (some (word.getD [] ++ [c])) 0 (text ++ rest) := by
      rw [words.eq_def]
      simp [hescape, hquote, hblank]
    rw [List.cons_append, hstep]
    by_cases hnil : text = []
    · subst hnil
      rfl
    · rw [ih htext hnil, Option.getD_some, List.append_assoc, List.singleton_append]

end

/-- A command with its arguments, one blank before each. -/
def commandLine (command : List Char) (arguments : List (List Char)) : List Char :=
  command ++ arguments.flatMap (' ' :: ·)

theorem weight_commandLine (command : List Char) (arguments : List (List Char)) :
    weight (command :: arguments) = (commandLine command arguments).length + 1 := by
  induction arguments generalizing command with
  | nil => simp [commandLine]
  | cons a arguments ih =>
    have hrest := ih a
    simp only [commandLine, weight_cons, List.length_append, List.flatMap_cons,
      List.length_cons] at hrest ⊢
    omega

theorem mem_commandLine {command : List Char} {arguments : List (List Char)} {c : Char} :
    c ∈ commandLine command arguments ↔
      c ∈ command ∨ ∃ a ∈ arguments, c = ' ' ∨ c ∈ a := by
  simp [commandLine]

/-- Plain words are read as they are written. -/
theorem words_commandLine {command : List Char} {arguments : List (List Char)} (hc : Plain command)
    (hne : command ≠ []) (ha : ∀ a ∈ arguments, Plain a ∧ a ≠ []) :
    words none none 0 (commandLine command arguments) = some (command :: arguments) := by
  have hbegun : ∀ w, words none (some w) 0 (arguments.flatMap (' ' :: ·)) =
      some (w :: arguments) := by
    induction arguments with
    | nil => exact fun w => rfl
    | cons a arguments ih =>
      intro w
      obtain ⟨⟨hplain, hane⟩, harguments⟩ := List.forall_mem_cons.mp ha
      have hblank : words none (some w) 0 (' ' :: (a ++ arguments.flatMap (' ' :: ·))) =
          (words none none 0 (a ++ arguments.flatMap (' ' :: ·))).map (w :: ·) := by
        rw [words.eq_def]
        rfl
      rw [List.flatMap_cons, List.cons_append, hblank, words_plain_append hplain hane,
        ih harguments]
      rfl
  rw [commandLine, words_plain_append hc hne]
  exact hbegun command

/-- The letters that name a specifier. -/
def SPECIFIERS : List Char := "aAbBCdDEfgGhHiIjJlLmMnNopPqsStTuUvVwWyY".toList

/-- What specifiers and variables stand for where the line is read. -/
structure Host where
  specifier : Char → List Char
  environment : List Char → List Char
  /-- The words of a variable. -/
  fields : List Char → List (List Char)

/-- A host on which everything is empty. -/
def bare : Host := ⟨fun _ => [], fun _ => [], fun _ => []⟩

/-- `%` specifiers; what is none stays. -/
def specify (host : Host) : List Char → List Char
  | '%' :: c :: rest =>
    if c = '%' then '%' :: specify host rest
    else if c ∈ SPECIFIERS then host.specifier c ++ specify host rest
    else '%' :: c :: specify host rest
  | c :: rest => c :: specify host rest
  | [] => []

/-- `$` variables inside a word; the name of one whose brace stays open stays. -/
def expand (host : Host) : Option (List Char) → List Char → List Char
  | none, '$' :: '$' :: rest => '$' :: expand host none rest
  | none, '$' :: '\x7b' :: rest => expand host (some []) rest
  | none, c :: rest => c :: expand host none rest
  | none, [] => []
  | some name, '\x7d' :: rest => host.environment name ++ expand host none rest
  | some name, c :: rest => expand host (some (name ++ [c])) rest
  | some name, [] => '$' :: '\x7b' :: name

/-- A word that is a variable becomes the variable's words. -/
def argument (host : Host) (word : List Char) : List (List Char) :=
  match word with
  | '$' :: '$' :: _ | '$' :: '\x7b' :: _ => [expand host none word]
  | '$' :: name => host.fields name
  | _ => [expand host none word]

/-- The arguments a line gives. -/
def argv (host : Host) (line : List Char) : Option (List (List Char)) :=
  (words none none 0 line).map fun ws => (ws.map (specify host)).flatMap (argument host)

/-- A specifier stands in the text. -/
def specifies : List Char → Bool
  | '%' :: c :: rest => c == '%' || SPECIFIERS.contains c || specifies rest
  | _ :: rest => specifies rest
  | [] => false

/-- A variable stands in the text. -/
def expands : Bool → List Char → Bool
  | false, '$' :: '$' :: _ => true
  | false, '$' :: '\x7b' :: rest => expands true rest
  | false, _ :: rest => expands false rest
  | true, '\x7d' :: _ => true
  | true, _ :: rest => expands true rest
  | _, [] => false

section
variable {host : Host} {text : List Char} {w : List Char} {ws : List (List Char)}

theorem specify_of_specifies_eq_false (h : specifies text = false) : specify host text = text := by
  fun_induction specify host text with
  | case1 rest ih => simp [specifies] at h
  | case2 c rest hpercent hspecifier ih => simp [specifies, hspecifier] at h
  | case3 c rest hpercent hspecifier ih =>
    rw [specifies, Bool.or_eq_false_iff] at h
    rw [ih h.2]
  | case4 c rest hnot ih =>
    rw [specifies.eq_2 c rest hnot] at h
    rw [ih h]
  | case5 => rfl

/-- On a bare host specifiers shorten. -/
theorem length_specify_bare (text : List Char) :
    (specify bare text).length + (if specifies text then 1 else 0) ≤ text.length := by
  fun_induction specify bare text with
  | case1 rest ih =>
    simp only [List.length_cons]
    split_ifs at ih ⊢ <;> omega
  | case2 c rest hpercent hspecifier ih =>
    simp only [bare, List.nil_append, List.length_cons] at ih ⊢
    split_ifs at ih ⊢ <;> omega
  | case3 c rest hpercent hspecifier ih =>
    have hsame : specifies ('%' :: c :: rest) = specifies rest := by
      simp [specifies, hpercent, hspecifier]
    rw [hsame]
    simp only [List.length_cons]
    omega
  | case4 c rest hnot ih =>
    rw [specifies.eq_2 c rest hnot]
    simp only [List.length_cons]
    omega
  | case5 => simp [specifies]

theorem expand_of_expands_eq_false {name : Option (List Char)}
    (h : expands name.isSome text = false) :
    expand host name text = (name.map ('$' :: '\x7b' :: ·)).getD [] ++ text := by
  fun_induction expand host name text with
  | case1 rest ih => simp [expands] at h
  | case2 rest ih =>
    have hrest := ih (by simpa [expands] using h)
    simpa using hrest
  | case3 c rest hnot hnot' ih =>
    have hrest : expands false rest = false := by
      rw [← expands.eq_3 c rest hnot hnot']
      exact h
    rw [ih hrest]
    rfl
  | case4 => rfl
  | case5 name rest ih => simp [expands] at h
  | case6 name c rest hnot ih =>
    have hrest : expands true rest = false := by
      rw [← expands.eq_5 c rest hnot]
      exact h
    rw [ih hrest]
    simp
  | case7 name => simp

/-- On a bare host variables shorten. -/
theorem length_expand_bare (name : Option (List Char)) (text : List Char) :
    (expand bare name text).length + (if expands name.isSome text then 1 else 0) ≤
      ((name.map ('$' :: '\x7b' :: ·)).getD [] ++ text).length := by
  fun_induction expand bare name text with
  | case1 rest ih =>
    simp only [expands, Option.isSome_none, Option.map_none, Option.getD_none, List.nil_append,
      List.length_cons, if_true] at ih ⊢
    omega
  | case2 rest ih =>
    have hsame : expands false ('$' :: '\x7b' :: rest) = expands true rest := rfl
    simpa [hsame] using ih
  | case3 c rest hnot hnot' ih =>
    have hsame : expands false (c :: rest) = expands false rest := expands.eq_3 c rest hnot hnot'
    simp only [Option.isSome_none, hsame, Option.map_none, Option.getD_none, List.nil_append,
      List.length_cons] at ih ⊢
    omega
  | case4 => simp [expands]
  | case5 name rest ih =>
    simp only [bare, Option.isSome_none, Option.map_none, Option.getD_none, List.nil_append,
      Option.isSome_some, Option.map_some, Option.getD_some, List.length_append,
      List.length_cons] at ih ⊢
    split_ifs at ih ⊢ <;> omega
  | case6 name c rest hnot ih =>
    have hsame : expands true (c :: rest) = expands true rest := expands.eq_5 c rest hnot
    simp only [Option.isSome_some, hsame, Option.map_some, Option.getD_some, List.length_append,
      List.length_cons, List.length_nil] at ih ⊢
    omega
  | case7 name => simp [expands]

/-- A word that means itself: plain characters, no specifier and no variable. -/
def Inert (w : List Char) : Prop := Plain w ∧ specifies w = false ∧ expands false w = false

instance (text : List Char) : Decidable (Plain text) :=
  List.decidableBAll (fun c => c ≠ '\\' ∧ isQuote c = false ∧ isBlank c = false) text

instance (w : List Char) : Decidable (Inert w) :=
  inferInstanceAs (Decidable (Plain w ∧ specifies w = false ∧ expands false w = false))

theorem specifies_of_notMem (h : '%' ∉ text) : specifies text = false := by
  induction text with
  | nil => rfl
  | cons c text ih =>
    rw [List.mem_cons, not_or] at h
    rw [specifies.eq_2 c text fun d rest hc => absurd hc.symm h.1]
    exact ih h.2

theorem expands_of_notMem (h : '$' ∉ text) : expands false text = false := by
  induction text with
  | nil => rfl
  | cons c text ih =>
    rw [List.mem_cons, not_or] at h
    rw [expands.eq_3 c text (fun rest hc => absurd hc.symm h.1) fun rest hc => absurd hc.symm h.1]
    exact ih h.2

/-- Digits mean themselves. -/
theorem inert_of_isDigit (h : ∀ c ∈ w, c.isDigit = true) : Inert w := by
  have hnot : ∀ d : Char, d.isDigit = false → d ∉ w := by
    intro d hd hmem
    rw [h d hmem] at hd
    cases hd
  have hplain : Plain w := by
    intro c hc
    have hne : ∀ d : Char, d.isDigit = false → c ≠ d := fun d hd hcd => hnot d hd (hcd ▸ hc)
    have hquote : isQuote c = false := by
      simp [isQuote, hne '"' rfl, hne '\'' rfl]
    have hblank : isBlank c = false := by
      simp [isBlank, hne ' ' rfl, hne '\t' rfl, hne '\n' rfl, hne '\r' rfl]
    exact ⟨hne '\\' rfl, hquote, hblank⟩
  exact ⟨hplain, specifies_of_notMem (hnot '%' rfl), expands_of_notMem (hnot '$' rfl)⟩

theorem argument_of_head_ne (h : w.head? ≠ some '$') : argument host w = [expand host none w] := by
  unfold argument
  split
  · rfl
  · rfl
  · exact absurd rfl h
  · rfl

theorem argument_of_expands_eq_false (hhead : w.head? ≠ some '$') (h : expands false w = false) :
    argument host w = [w] := by
  have hexpand : expand host none w = [] ++ w := expand_of_expands_eq_false h
  rw [argument_of_head_ne hhead, hexpand, List.nil_append]

/-- A line of inert words gives them. -/
theorem argv_commandLine {command : List Char} {arguments : List (List Char)}
    (h : ∀ w ∈ command :: arguments, Inert w ∧ w ≠ [] ∧ w.head? ≠ some '$') :
    argv host (commandLine command arguments) = some (command :: arguments) := by
  obtain ⟨hc, ha⟩ := List.forall_mem_cons.mp h
  have hwords : words none none 0 (commandLine command arguments) = some (command :: arguments) :=
    words_commandLine hc.1.1 hc.2.1 fun a hmem => ⟨(ha a hmem).1.1, (ha a hmem).2.1⟩
  have hspecify : (command :: arguments).map (specify host) = command :: arguments :=
    List.map_congr_left (fun w hw => specify_of_specifies_eq_false (h w hw).1.2.1) |>.trans
      (List.map_id _)
  have hargument : (command :: arguments).flatMap (argument host) = command :: arguments := by
    have hsingle : ∀ w ∈ command :: arguments, argument host w = [w] := fun w hw =>
      argument_of_expands_eq_false (h w hw).2.2 (h w hw).1.2.2
    rw [List.flatMap_congr hsingle, List.flatMap_singleton']
  rw [argv, hwords, Option.map_some, hspecify, hargument]

theorem specify_bare (w : List Char) :
    specify bare w = w ∧ specifies w = false ∨ (specify bare w).length < w.length := by
  have hlength := length_specify_bare w
  cases hw : specifies w with
  | false => exact .inl ⟨specify_of_specifies_eq_false hw, rfl⟩
  | true =>
    rw [hw, if_pos rfl] at hlength
    exact .inr (by omega)

theorem argument_bare (w : List Char) :
    argument bare w = [w] ∧ expands false w = false ∨
      weight (argument bare w) < w.length + 1 := by
  have hexpand : [expand bare none w] = [w] ∧ expands false w = false ∨
      weight [expand bare none w] < w.length + 1 := by
    have hlength : (expand bare none w).length + (if expands false w then 1 else 0) ≤ w.length :=
      length_expand_bare none w
    cases hw : expands false w with
    | false =>
      have hself : expand bare none w = [] ++ w := expand_of_expands_eq_false hw
      exact .inl ⟨by rw [hself, List.nil_append], rfl⟩
    | true =>
      rw [hw, if_pos rfl] at hlength
      right
      simp only [weight_cons, weight_nil]
      omega
  unfold argument
  split
  · exact hexpand
  · exact hexpand
  · exact .inr (by simp [bare])
  · exact hexpand

theorem map_specify_bare (ws : List (List Char)) :
    ws.map (specify bare) = ws ∧ (∀ w ∈ ws, specifies w = false) ∨
      weight (ws.map (specify bare)) < weight ws := by
  induction ws with
  | nil => exact .inl ⟨rfl, fun w hw => absurd hw List.not_mem_nil⟩
  | cons w ws ih =>
    rw [List.map_cons, weight_cons, weight_cons]
    have hle := length_specify_bare w
    rcases specify_bare w with ⟨hself, hnone⟩ | hlt
    · rcases ih with ⟨hrest, hall⟩ | hlt
      · exact .inl ⟨by rw [hself, hrest], List.forall_mem_cons.mpr ⟨hnone, hall⟩⟩
      · exact .inr (by omega)
    · right
      rcases ih with ⟨hrest, -⟩ | hlt'
      · rw [hrest]
        omega
      · omega

theorem flatMap_argument_bare (ws : List (List Char)) :
    ws.flatMap (argument bare) = ws ∧ (∀ w ∈ ws, expands false w = false) ∨
      weight (ws.flatMap (argument bare)) < weight ws := by
  induction ws with
  | nil => exact .inl ⟨rfl, fun w hw => absurd hw List.not_mem_nil⟩
  | cons w ws ih =>
    rw [List.flatMap_cons, weight_append, weight_cons]
    rcases argument_bare w with ⟨hself, hnone⟩ | hlt
    · rw [hself, weight_cons, weight_nil]
      rcases ih with ⟨hrest, hall⟩ | hlt
      · exact .inl ⟨by rw [hrest]; rfl, List.forall_mem_cons.mpr ⟨hnone, hall⟩⟩
      · exact .inr (by omega)
    · right
      rcases ih with ⟨hrest, -⟩ | hlt'
      · rw [hrest]
        omega
      · omega

/-- On a bare host a line gives no more than it has. -/
theorem weight_argv_bare {line : List Char} (h : argv bare line = some ws) :
    weight ws ≤ line.length + 1 := by
  obtain ⟨vs, hwords, rfl⟩ := Option.map_eq_some_iff.mp h
  have hwords := weight_words hwords
  rw [Option.getD_none, List.length_nil] at hwords
  have hspecify : weight (vs.map (specify bare)) ≤ weight vs := by
    rcases map_specify_bare vs with ⟨hself, -⟩ | hlt
    · exact Nat.le_of_eq (congrArg weight hself)
    · omega
  have hargument : weight ((vs.map (specify bare)).flatMap (argument bare)) ≤
      weight (vs.map (specify bare)) := by
    rcases flatMap_argument_bare (vs.map (specify bare)) with ⟨hself, -⟩ | hlt
    · exact Nat.le_of_eq (congrArg weight hself)
    · omega
  omega

/-- What a line of words gives back on a bare host was inert. -/
theorem inert_of_argv_bare {command : List Char} {arguments : List (List Char)}
    (h : argv bare (commandLine command arguments) = some (command :: arguments)) :
    ∀ w ∈ command :: arguments, Inert w := by
  obtain ⟨vs, hwords, hargv⟩ := Option.map_eq_some_iff.mp h
  have hweight := weight_commandLine command arguments
  have hle := weight_words hwords
  rw [Option.getD_none, List.length_nil] at hle
  -- nothing was lost on the way, so nothing was read
  have hspecify := map_specify_bare vs
  have hargument := flatMap_argument_bare (vs.map (specify bare))
  rw [hargv] at hargument
  rcases hargument with ⟨hsame, hexpands⟩ | hlt
  swap
  · rcases hspecify with ⟨hself, -⟩ | hlt'
    · rw [hself] at hlt
      omega
    · omega
  rcases hspecify with ⟨hself, hspecifies⟩ | hlt
  swap
  · rw [← hsame] at hlt
    omega
  rw [hself] at hsame hexpands
  subst hsame
  have hplain : ∀ c ∈ commandLine command arguments, c ≠ '\\' ∧ isQuote c = false := by
    by_contra hnot
    push Not at hnot
    obtain ⟨c, hc, hspecial⟩ := hnot
    have hsome : ∃ c ∈ commandLine command arguments, c = '\\' ∨ isQuote c = true := by
      refine ⟨c, hc, ?_⟩
      by_cases hescape : c = '\\'
      · exact .inl hescape
      · exact .inr (Bool.not_eq_false _ ▸ hspecial hescape)
    have hlt := weight_words_lt hwords hsome
    rw [Option.getD_none, List.length_nil] at hlt
    omega
  have hblank := isBlank_of_mem_words hwords hplain fun c hc => absurd hc List.not_mem_nil
  have hmem : ∀ w ∈ command :: arguments, ∀ c ∈ w, c ∈ commandLine command arguments := by
    intro w hw c hc
    rw [commandLine, List.mem_append]
    rcases List.mem_cons.mp hw with rfl | hw
    · exact .inl hc
    · exact .inr (List.mem_flatMap.mpr ⟨w, hw, List.mem_cons_of_mem _ hc⟩)
  intro w hw
  refine ⟨fun c hc => ?_, hspecifies w hw, hexpands w hw⟩
  exact ⟨(hplain c (hmem w hw c hc)).1, (hplain c (hmem w hw c hc)).2, hblank w hw c hc⟩

end

end Kuma.Lib.ExecLine
