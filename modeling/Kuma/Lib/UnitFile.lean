import Mathlib.Data.List.DropRight
import Kuma.Lib.Text
import Kuma.Lib.ExecLine

/-! Unit files: physical lines, the lines that a backslash at the end continues, comments, section
headers and assignments. Text put into a line of such a file stays in it, or shortens it. -/
namespace Kuma.Lib.UnitFile

open ExecLine (isBlank)

def isBreak (c : Char) : Bool := c == '\n' || c == '\r' || c == '\x00'

/-- The lines of a text, given the marks seen of the break that the text follows: one of each kind
in a row is one break. -/
def physical : List Char → List Char → List (List Char)
  | _, [] => [[]]
  | seen, c :: rest =>
    if isBreak c then
      if seen = [] ∨ c ∈ seen then [] :: physical [c] rest else physical (c :: seen) rest
    else match physical [] rest with
      | [] => [[c]]
      | l :: ls => (c :: l) :: ls

/-- The text ends in a backslash that no other one escapes. -/
def endsEscaped : Bool → List Char → Bool
  | escaped, [] => escaped
  | true, _ :: rest => endsEscaped false rest
  | false, c :: rest => endsEscaped (c == '\\') rest

def isComment (line : List Char) : Bool :=
  let c := (line.dropWhile isBlank).head?
  c == some '#' || c == some ';'

/-- The lines once continued ones are joined, a blank for the backslash, and comments are dropped,
given what has begun. -/
def logical : Option (List Char) → List (List Char) → List (List Char)
  | none, [] => []
  | some begun, [] => [begun]
  | begun, l :: ls =>
    if isComment l then logical begun ls
    else
      let joined := begun.getD [] ++ l
      if endsEscaped false joined then logical (some (joined.dropLast ++ [' '])) ls
      else joined :: logical none ls

def strip (line : List Char) : List Char := (line.dropWhile isBlank).rdropWhile isBlank

inductive Item
  | header (name : List Char)
  | assignment (key value : List Char)
  deriving DecidableEq

/-- What a section may not be called. -/
def isUnsafe (c : Char) : Bool := c < ' ' || c == '"' || c == '\'' || c == '\\' || c == '\x7f'

/-- A header that is none spoils the file; a line that assigns nothing is passed over. -/
def readLine (line : List Char) : Option (List Item) :=
  match strip line with
  | [] => some []
  | '[' :: rest =>
    if rest.getLast? = some ']' ∧ rest.dropLast.any isUnsafe = false then
      some [.header rest.dropLast]
    else none
  | c :: rest =>
    match Text.splitOnce '=' (c :: rest) with
    | none | some ([], _) => some []
    | some (key, value) => some [.assignment (strip key) (strip value)]

def readAll : List (List Char) → Option (List Item)
  | [] => some []
  | l :: ls => (readLine l).bind fun items => (readAll ls).map (items ++ ·)

/-- The headers and assignments of a file. -/
def readUnit (text : List Char) : Option (List Item) := readAll (logical none (physical [] text))

section
variable {seen a b text tail begun : List Char} {ls more : List (List Char)} {c : Char}

theorem physical_ne_nil (seen text : List Char) : physical seen text ≠ [] := by
  induction text generalizing seen with
  | nil => exact List.cons_ne_nil _ _
  | cons c rest ih =>
    rw [physical]
    split_ifs
    · exact List.cons_ne_nil _ _
    · exact ih _
    · split <;> exact List.cons_ne_nil _ _

theorem physical_cons (seen text : List Char) (h : isBreak c = false) :
    ∃ l ls, physical [] text = l :: ls ∧ physical seen (c :: text) = (c :: l) :: ls := by
  obtain ⟨l, ls, hls⟩ := List.exists_cons_of_ne_nil (physical_ne_nil [] text)
  refine ⟨l, ls, hls, ?_⟩
  rw [physical, if_neg (Bool.eq_false_iff.mp h), hls]

/-- Behind a character that is no break it does not matter what came before. -/
theorem physical_seen (h : isBreak c = false) :
    physical seen (c :: text) = physical [] (c :: text) := by
  rw [physical, physical, if_neg (Bool.eq_false_iff.mp h), if_neg (Bool.eq_false_iff.mp h)]

/-- A text between newlines, unbroken, is a line. -/
theorem physical_line (text : List Char) (h : ∀ c ∈ a, isBreak c = false)
    (hseen : seen = [] ∨ seen = ['\n']) :
    physical seen (a ++ '\n' :: text) = a :: physical ['\n'] text := by
  induction a generalizing seen with
  | nil =>
    rw [List.nil_append, physical, if_pos (by decide)]
    rcases hseen with rfl | rfl
    · exact if_pos (.inl rfl)
    · exact if_pos (.inr (List.mem_singleton_self _))
  | cons c a ih =>
    obtain ⟨hc, ha⟩ := List.forall_mem_cons.mp h
    obtain ⟨l, ls, hls, hcons⟩ := physical_cons seen (a ++ '\n' :: text) hc
    rw [ih ha (.inl rfl)] at hls
    obtain ⟨rfl, rfl⟩ := List.cons.inj hls
    exact hcons

theorem physical_lines (text : List Char) (h : ∀ l ∈ ls, ∀ c ∈ l, isBreak c = false)
    (hseen : seen = [] ∨ seen = ['\n']) (hne : ls ≠ []) :
    physical seen (ls.flatMap (· ++ ['\n']) ++ text) = ls ++ physical ['\n'] text := by
  induction ls generalizing seen with
  | nil => exact absurd rfl hne
  | cons l ls ih =>
    obtain ⟨hl, hls⟩ := List.forall_mem_cons.mp h
    rw [List.flatMap_cons, List.append_assoc, List.append_assoc, List.singleton_append,
      physical_line _ hl hseen]
    by_cases hnil : ls = []
    · subst hnil
      rfl
    · rw [ih hls (.inr rfl) hnil]
      rfl

/-- An unbroken text is the beginning of the first line. -/
theorem physical_begin {l : List Char} (h : ∀ c ∈ a, isBreak c = false)
    (htext : physical [] text = l :: ls) : physical [] (a ++ text) = (a ++ l) :: ls := by
  induction a with
  | nil => exact htext
  | cons c a ih =>
    obtain ⟨hc, ha⟩ := List.forall_mem_cons.mp h
    obtain ⟨l', ls', hls, hcons⟩ := physical_cons [] (a ++ text) hc
    rw [ih ha] at hls
    obtain ⟨rfl, rfl⟩ := List.cons.inj hls
    exact hcons

/-- How long lines are together. -/
def total (ls : List (List Char)) : ℕ := (ls.map List.length).sum

/-- A text before a newline gives lines of its own characters, without those that break it. -/
theorem physical_append (htail : ∃ d rest, tail = d :: rest ∧ isBreak d = false)
    (seen text : List Char) : ∃ more, physical seen (text ++ '\n' :: tail) =
      more ++ physical [] tail ∧ total more + text.countP isBreak = text.length ∧
      (seen = [] → more ≠ []) := by
  obtain ⟨d, rest, rfl, hd⟩ := htail
  induction text generalizing seen with
  | nil =>
    rw [List.nil_append, physical, if_pos (by decide)]
    split_ifs with hmark
    · exact ⟨[[]], by rw [physical_seen hd]; rfl, rfl, fun _ => List.cons_ne_nil _ _⟩
    · exact ⟨[], by rw [physical_seen hd]; rfl, rfl, fun h => absurd (Or.inl h) hmark⟩
  | cons c text ih =>
    rw [List.countP_cons, List.length_cons, List.cons_append]
    cases hc : isBreak c with
    | true =>
      rw [physical, if_pos hc]
      by_cases hmark : seen = [] ∨ c ∈ seen
      · obtain ⟨more, hmore, htotal, -⟩ := ih [c]
        rw [if_pos hmark, hmore]
        refine ⟨[] :: more, rfl, ?_, fun _ => List.cons_ne_nil _ _⟩
        simp [total] at htotal ⊢
        omega
      · obtain ⟨more, hmore, htotal, -⟩ := ih (c :: seen)
        rw [if_neg hmark, hmore]
        refine ⟨more, rfl, ?_, fun h => absurd (Or.inl h) hmark⟩
        simp at htotal ⊢
        omega
    | false =>
      obtain ⟨more, hmore, htotal, hne⟩ := ih []
      obtain ⟨first, others, rfl⟩ := List.exists_cons_of_ne_nil (hne rfl)
      obtain ⟨l, ls, hls, hcons⟩ := physical_cons seen (text ++ '\n' :: d :: rest) hc
      rw [hmore, List.cons_append] at hls
      obtain ⟨rfl, rfl⟩ := List.cons.inj hls
      refine ⟨(c :: first) :: others, hcons, ?_, fun _ => List.cons_ne_nil _ _⟩
      simp [total] at htotal ⊢
      omega

theorem endsEscaped_append (escaped : Bool) (a b : List Char) :
    endsEscaped escaped (a ++ b) = endsEscaped (endsEscaped escaped a) b := by
  induction a generalizing escaped with
  | nil =>
    cases b <;> rfl
  | cons c a ih =>
    cases escaped
    · rw [List.cons_append, endsEscaped, endsEscaped, ih]
    · rw [List.cons_append, endsEscaped, endsEscaped, ih]

theorem getLast?_of_endsEscaped {escaped : Bool} (h : endsEscaped escaped a = true) :
    a = [] ∧ escaped = true ∨ a.getLast? = some '\\' := by
  induction a generalizing escaped with
  | nil => exact .inl ⟨rfl, by cases escaped <;> simp_all [endsEscaped]⟩
  | cons c a ih =>
    right
    cases escaped with
    | false =>
      rcases ih (show endsEscaped (c == '\\') a = true by simpa [endsEscaped] using h) with
        ⟨rfl, hc⟩ | hlast
      · rw [List.getLast?_singleton, beq_iff_eq.mp hc]
      · rw [List.getLast?_cons, hlast]
        rfl
    | true =>
      rcases ih (show endsEscaped false a = true by simpa [endsEscaped] using h) with
        ⟨-, hc⟩ | hlast
      · cases hc
      · rw [List.getLast?_cons, hlast]
        rfl

/-- A line that no backslash continues stands for itself, or for nothing. -/
theorem logical_append (more : List (List Char)) (h : ∀ l ∈ ls, endsEscaped false l = false) :
    logical none (ls ++ more) = ls.filter (!isComment ·) ++ logical none more := by
  induction ls with
  | nil => rfl
  | cons l ls ih =>
    obtain ⟨hl, hls⟩ := List.forall_mem_cons.mp h
    rw [List.cons_append, logical, List.filter_cons]
    cases hcomment : isComment l with
    | true => simpa using ih hls
    | false => simp [hl, ih hls]

theorem logical_comments (begun : Option (List Char)) (h : ∀ l ∈ ls, isComment l = true) :
    logical begun (ls ++ more) = logical begun more := by
  induction ls with
  | nil => rfl
  | cons l ls ih =>
    obtain ⟨hl, hls⟩ := List.forall_mem_cons.mp h
    rw [List.cons_append, logical.eq_def]
    cases begun <;> simp [hl, ih hls]

theorem logical_cons (begun : Option (List Char)) {l : List Char} (hcomment : isComment l = false) :
    logical begun (l :: ls) =
      if endsEscaped false (begun.getD [] ++ l) then
        logical (some ((begun.getD [] ++ l).dropLast ++ [' '])) ls
      else (begun.getD [] ++ l) :: logical none ls := by
  rw [logical.eq_def]
  cases begun <;> simp [hcomment]

/-- A backslash at the end of a line becomes a blank, and what the line begins with stays. -/
theorem begun_of_escaped {line : List Char} (hescaped : endsEscaped false line = true)
    (ha : '\\' ∉ a) (hline : a <+: line) : a <+: line.dropLast ++ [' '] ∧
      endsEscaped false (line.dropLast ++ [' ']) = false ∧
      (line.dropLast ++ [' ']).length = line.length := by
  have hlast := (getLast?_of_endsEscaped hescaped).resolve_left fun h => by cases h.2
  obtain ⟨front, rfl⟩ := List.getLast?_eq_some_iff.mp hlast
  rw [List.dropLast_concat]
  refine ⟨?_, ?_, by simp⟩
  · rcases List.prefix_concat_iff.mp hline with heq | hfront
    · exact absurd (heq ▸ List.mem_append_right front (List.mem_singleton_self _)) ha
    · exact hfront.trans (List.prefix_append front [' '])
  · rw [endsEscaped_append]
    cases endsEscaped false front <;> rfl

section
variable {comments rest : List (List Char)} {first : List Char}

/-- What has begun takes the first line behind it. -/
theorem logical_swallows (hcomments : ∀ l ∈ comments, isComment l = true)
    (hfirst : isComment first = false) (hends : endsEscaped false first = false)
    (hclosed : endsEscaped false begun = false) :
    logical (some begun) (comments ++ first :: rest) = (begun ++ first) :: logical none rest := by
  rw [logical_comments _ hcomments, logical_cons _ hfirst, Option.getD_some, endsEscaped_append,
    hclosed, hends, if_neg Bool.false_ne_true]

/-- What has begun is continued by lines of its own, or by the first line behind them. -/
theorem logical_begun (more rest : List (List Char))
    (hcomments : ∀ l ∈ comments, isComment l = true)
    (hfirst : isComment first = false) (hends : endsEscaped false first = false)
    (ha : '\\' ∉ a) (hbegun : a <+: begun) (hclosed : endsEscaped false begun = false) :
    ∃ q others, logical (some begun) (more ++ (comments ++ first :: rest)) = (a ++ q) :: others ∧
      ((a ++ q).length ≤ begun.length + total more ∨ others = logical none rest) := by
  induction more generalizing begun with
  | nil =>
    obtain ⟨q, rfl⟩ := hbegun
    rw [List.nil_append, logical_swallows hcomments hfirst hends hclosed, List.append_assoc]
    exact ⟨q ++ first, logical none rest, rfl, .inr rfl⟩
  | cons l more ih =>
    rw [List.cons_append]
    have htotal : total (l :: more) = l.length + total more := by simp [total]
    cases hcomment : isComment l with
    | true =>
      have hskip : logical (some begun) (l :: (more ++ (comments ++ first :: rest))) =
          logical (some begun) (more ++ (comments ++ first :: rest)) := by
        rw [logical.eq_def]
        simp [hcomment]
      obtain ⟨q, others, hlogical, hq⟩ := ih hbegun hclosed
      exact ⟨q, others, hskip.trans hlogical, hq.imp_left fun h => by omega⟩
    | false =>
      have hjoined : a <+: begun ++ l := hbegun.trans (List.prefix_append begun l)
      have hlength : (begun ++ l).length = begun.length + l.length := List.length_append
      rw [logical_cons _ hcomment, Option.getD_some]
      split_ifs with hescaped
      · obtain ⟨hbegun', hclosed', hlength'⟩ := begun_of_escaped hescaped ha hjoined
        obtain ⟨q, others, hlogical, hq⟩ := ih hbegun' hclosed'
        exact ⟨q, others, hlogical, hq.imp_left fun h => by omega⟩
      · obtain ⟨q, hq⟩ := hjoined
        exact ⟨q, _, by rw [hq], .inl (by rw [hq]; omega)⟩

/-- The same of a line that is no comment. -/
theorem logical_line {line : List Char} (more rest : List (List Char))
    (hcomments : ∀ l ∈ comments, isComment l = true)
    (hfirst : isComment first = false) (hends : endsEscaped false first = false)
    (ha : '\\' ∉ a) (hline : a <+: line) (hcomment : isComment line = false) :
    ∃ q others, logical none (line :: (more ++ (comments ++ first :: rest))) = (a ++ q) :: others ∧
      ((a ++ q).length ≤ line.length + total more ∨ others = logical none rest) := by
  rw [logical_cons _ hcomment, Option.getD_none, List.nil_append]
  split_ifs with hescaped
  · obtain ⟨hbegun, hclosed, hlength⟩ := begun_of_escaped hescaped ha hline
    obtain ⟨q, others, hlogical, hq⟩ :=
      logical_begun more rest hcomments hfirst hends ha hbegun hclosed
    exact ⟨q, others, hlogical, hq.imp_left fun h => by omega⟩
  · obtain ⟨q, rfl⟩ := hline
    exact ⟨q, _, rfl, .inl (by omega)⟩

end

theorem readAll_append (ls more : List (List Char)) :
    readAll (ls ++ more) = (readAll ls).bind fun items => (readAll more).map (items ++ ·) := by
  induction ls with
  | nil =>
    rw [List.nil_append, readAll, Option.bind_some]
    simp
  | cons l ls ih =>
    rw [List.cons_append, readAll, readAll, ih]
    cases readLine l with
    | none => rfl
    | some items =>
      cases readAll ls with
      | none => rfl
      | some items' =>
        cases readAll more with
        | none => rfl
        | some items'' => simp

theorem rdropWhile_append_cons {x : Char} (hx : isBlank x = false) (a q : List Char) :
    (a ++ x :: q).rdropWhile isBlank = a ++ x :: q.rdropWhile isBlank := by
  have hreverse : (a ++ x :: q).reverse = q.reverse ++ x :: a.reverse := by simp
  rw [List.rdropWhile, List.rdropWhile, hreverse, List.dropWhile_append]
  split_ifs with hnone
  · rw [List.isEmpty_iff.mp hnone, List.dropWhile_cons_of_neg (Bool.eq_false_iff.mp hx)]
    simp
  · simp

theorem strip_sublist (text : List Char) : (strip text).Sublist text :=
  (List.rdropWhile_prefix _ _).sublist.trans (List.dropWhile_sublist _)

/-- The text neither begins nor ends with a blank. -/
def Trimmed (text : List Char) : Prop :=
  (∀ c ∈ text.head?, isBlank c = false) ∧ ∀ c ∈ text.getLast?, isBlank c = false

theorem rdropWhile_of_trimmed (h : Trimmed text) : text.rdropWhile isBlank = text := by
  rcases List.eq_nil_or_concat text with rfl | ⟨l, c, rfl⟩
  · rfl
  · have hc := h.2 c (by simp)
    rw [List.concat_eq_append, rdropWhile_append_cons hc]
    rfl

theorem strip_of_trimmed (h : Trimmed text) : strip text = text := by
  have hleft : text.dropWhile isBlank = text := by
    cases text with
    | nil => rfl
    | cons c text => exact List.dropWhile_cons_of_neg (Bool.eq_false_iff.mp (h.1 c rfl))
  rw [strip, hleft, rdropWhile_of_trimmed h]

theorem trimmed_commandLine {command : List Char} {arguments : List (List Char)}
    (h : ∀ w ∈ command :: arguments, ExecLine.Plain w ∧ w ≠ []) :
    Trimmed (ExecLine.commandLine command arguments) := by
  have hlast : ∃ w ∈ command :: arguments,
      (ExecLine.commandLine command arguments).getLast? = w.getLast? := by
    rcases List.eq_nil_or_concat arguments with rfl | ⟨front, a, rfl⟩
    · exact ⟨command, List.mem_cons_self, by simp [ExecLine.commandLine]⟩
    · have hmem : a ∈ command :: front.concat a := by simp
      have hend : ExecLine.commandLine command (front.concat a) =
          ExecLine.commandLine command front ++ [' '] ++ a := by simp [ExecLine.commandLine]
      exact ⟨a, hmem, by rw [hend, List.getLast?_append_of_ne_nil _ (h a hmem).2]⟩
  obtain ⟨hplain, hne⟩ := h command List.mem_cons_self
  obtain ⟨c, rest, rfl⟩ := List.exists_cons_of_ne_nil hne
  constructor
  · intro d hd
    obtain rfl := Option.some.inj hd
    exact (hplain c List.mem_cons_self).2.2
  · intro d hd
    obtain ⟨w, hw, hlast⟩ := hlast
    rw [hlast] at hd
    exact ((h w hw).1 d (List.mem_of_getLast? hd)).2.2

/-- A key that can be read, and its value without the blanks around it. -/
theorem readLine_assignment {key : List Char} (hne : key ≠ [])
    (hkey : ∀ c ∈ key, isBlank c = false ∧ c ≠ '=' ∧ c ≠ '[') (q : List Char) :
    ∃ v, readLine (key ++ '=' :: q) = some [.assignment key v] ∧ v.Sublist q ∧
      (Trimmed q → v = q) := by
  obtain ⟨k, key, rfl⟩ := List.exists_cons_of_ne_nil hne
  have hk := hkey k List.mem_cons_self
  have hleft : (k :: key ++ '=' :: q).dropWhile isBlank = k :: key ++ '=' :: q :=
    List.dropWhile_cons_of_neg (Bool.eq_false_iff.mp hk.1)
  have hstrip : strip (k :: key ++ '=' :: q) = k :: key ++ '=' :: q.rdropWhile isBlank := by
    rw [strip, hleft, rdropWhile_append_cons (by decide)]
  have hequals : '=' ∉ k :: key := fun h => (hkey '=' h).2.1 rfl
  have htrimmed : Trimmed (k :: key) := by
    refine ⟨fun c hc => (hkey c (List.mem_of_mem_head? hc)).1, fun c hc => ?_⟩
    exact (hkey c (List.mem_of_getLast? hc)).1
  refine ⟨strip (q.rdropWhile isBlank), ?_, ?_, fun hq => ?_⟩
  · rw [readLine, hstrip]
    have hbracket : k ≠ '[' := hk.2.2
    have hsplit : Text.splitOnce '=' (k :: key ++ '=' :: q.rdropWhile isBlank) =
        some (k :: key, q.rdropWhile isBlank) := Text.splitOnce_append hequals
    rw [List.cons_append] at hsplit ⊢
    simp only [hsplit, strip_of_trimmed htrimmed]
  · exact (strip_sublist _).trans (List.rdropWhile_prefix _ _).sublist
  · rw [rdropWhile_of_trimmed hq, strip_of_trimmed hq]

end

/-- A file of lines, into one of which a text is put. -/
def template (head : List (List Char)) (line : List Char) (tail : List (List Char)) : List Char :=
  head.flatMap (· ++ ['\n']) ++ (line ++ '\n' :: tail.flatMap (· ++ ['\n']))

/-- Lines that a text put between them can do nothing to but continue: unbroken, none of them
continued itself, a comment and an assignment behind the place. -/
structure Frame (head comments : List (List Char)) (first : List Char) (rest : List (List Char))
    (key : List Char) : Prop where
  head_ne : head ≠ []
  unbroken : ∀ l ∈ head ++ (comments ++ first :: rest), ∀ c ∈ l, isBreak c = false
  closed : ∀ l ∈ head ++ (comments ++ first :: rest), endsEscaped false l = false
  begins : ∃ d l ls, comments = (d :: l) :: ls
  comment : ∀ l ∈ comments, isComment l = true
  first : isComment first = false ∧ ∃ item, readLine first = some [item]
  key_ne : key ≠ []
  key : ∀ c ∈ key, isBreak c = false ∧ isBlank c = false ∧ c ≠ '=' ∧ c ≠ '[' ∧ c ≠ '\\' ∧
    c ≠ '#' ∧ c ≠ ';'

section
variable {head comments rest : List (List Char)} {first key x v : List Char}
  {before after : List Item}

theorem Frame.isComment_key (h : Frame head comments first rest key) (x : List Char) :
    isComment (key ++ x) = false := by
  obtain ⟨k, key', rfl⟩ := List.exists_cons_of_ne_nil h.key_ne
  obtain ⟨-, hblank, -, -, -, hhash, hsemi⟩ := h.key k List.mem_cons_self
  rw [UnitFile.isComment, List.cons_append,
    List.dropWhile_cons_of_neg (Bool.eq_false_iff.mp hblank)]
  simp [hhash, hsemi]

/-- The lines of the file: those before, those that come of the text, and those behind. -/
theorem Frame.lines (h : Frame head comments first rest key) (x : List Char) :
    ∃ l more, physical [] (template head (key ++ '=' :: x) (comments ++ first :: rest)) =
      head ++ (key ++ '=' :: l) :: (more ++ (comments ++ first :: (rest ++ [[]]))) ∧
      l.length + total more + x.countP isBreak = x.length ∧
      ((∀ c ∈ x, isBreak c = false) → l = x ∧ more = []) := by
  let tail := comments ++ first :: rest
  let text := tail.flatMap (· ++ ['\n'])
  have hhead : ∀ l ∈ head, ∀ c ∈ l, isBreak c = false := fun l hl =>
    h.unbroken l (List.mem_append_left _ hl)
  have htail : ∀ l ∈ tail, ∀ c ∈ l, isBreak c = false := fun l hl =>
    h.unbroken l (List.mem_append_right _ hl)
  have hkey : ∀ c ∈ key ++ ['='], isBreak c = false := by
    intro c hc
    rcases List.mem_append.mp hc with hc | hc
    · exact (h.key c hc).1
    · obtain rfl := List.mem_singleton.mp hc
      decide
  have hbegins : ∃ d rest, text = d :: rest ∧ isBreak d = false := by
    obtain ⟨d, l, ls, hcomments⟩ := h.begins
    have hmem : d :: l ∈ tail := List.mem_append_left _ (hcomments ▸ List.mem_cons_self)
    have htext : text = d :: (l ++ ['\n'] ++ (ls ++ first :: rest).flatMap (· ++ ['\n'])) := by
      show (comments ++ first :: rest).flatMap (· ++ ['\n']) = _
      rw [hcomments]
      simp
    exact ⟨d, _, htext, htail (d :: l) hmem d List.mem_cons_self⟩
  have hlines : physical [] text = comments ++ first :: (rest ++ [[]]) := by
    have hlines := physical_lines [] htail (.inl rfl) (List.append_ne_nil_of_right_ne_nil _
      (List.cons_ne_nil first rest))
    rw [List.append_nil] at hlines
    rw [hlines]
    show (comments ++ first :: rest) ++ [[]] = _
    simp
  obtain ⟨more, hmore, htotal, hne⟩ := physical_append hbegins [] x
  obtain ⟨l, others, rfl⟩ := List.exists_cons_of_ne_nil (hne rfl)
  have hunbroken : (∀ c ∈ x, isBreak c = false) → l = x ∧ others = [] := by
    intro hx
    obtain ⟨d, rest, htext, hd⟩ := hbegins
    have hline := physical_line text hx (.inl rfl)
    rw [htext, physical_seen hd, ← htext, hmore] at hline
    have hsame := List.append_cancel_right (show _ = [x] ++ physical [] text from hline)
    exact List.cons.inj hsame
  refine ⟨l, others, ?_, by simpa [total] using htotal, hunbroken⟩
  rw [hlines] at hmore
  have hline := physical_begin hkey hmore
  obtain ⟨k, key', hk⟩ := List.exists_cons_of_ne_nil h.key_ne
  have hstart : physical ['\n'] (key ++ '=' :: (x ++ '\n' :: text)) =
      physical [] (key ++ '=' :: (x ++ '\n' :: text)) := by
    rw [hk]
    exact physical_seen (h.key k (hk ▸ List.mem_cons_self)).1
  have hsplit : template head (key ++ '=' :: x) tail =
      head.flatMap (· ++ ['\n']) ++ (key ++ '=' :: (x ++ '\n' :: text)) := by
    simp [template, text]
  rw [List.append_assoc, List.append_assoc, List.singleton_append, List.singleton_append] at hline
  rw [hsplit, physical_lines _ hhead (.inl rfl) h.head_ne, hstart, hline]
  rfl

theorem Frame.logical_head (h : Frame head comments first rest key) (more : List (List Char)) :
    logical none (head ++ more) = logical none head ++ logical none more := by
  have hclosed : ∀ l ∈ head, endsEscaped false l = false := fun l hl =>
    h.closed l (List.mem_append_left _ hl)
  have hself := logical_append [] hclosed
  rw [List.append_nil, logical, List.append_nil] at hself
  rw [logical_append _ hclosed, hself]

/-- A text of one line is the value of its key. -/
theorem Frame.readUnit_of_line (h : Frame head comments first rest key)
    (hx : ∀ c ∈ x, isBreak c = false ∧ c ≠ '\\') (htrimmed : Trimmed x)
    (hbefore : readAll (logical none head) = some before)
    (hafter : readAll (logical none (comments ++ first :: (rest ++ [[]]))) = some after) :
    readUnit (template head (key ++ '=' :: x) (comments ++ first :: rest)) =
      some (before ++ .assignment key x :: after) := by
  obtain ⟨l, more, hlines, -, hunbroken⟩ := h.lines x
  obtain ⟨rfl, rfl⟩ := hunbroken fun c hc => (hx c hc).1
  have hclosed : endsEscaped false (key ++ '=' :: l) = false := by
    by_contra hescaped
    have hlast := (getLast?_of_endsEscaped (Bool.not_eq_false _ ▸ hescaped)).resolve_left
      fun h => by cases h.2
    rcases List.mem_append.mp (List.mem_of_getLast? hlast) with hkey | hl
    · exact (h.key _ hkey).2.2.2.2.1 rfl
    · rcases List.mem_cons.mp hl with hequals | hl
      · exact absurd hequals (by decide)
      · exact (hx _ hl).2 rfl
  obtain ⟨v, hv, -, htrim⟩ := readLine_assignment h.key_ne
    (fun c hc => ⟨(h.key c hc).2.1, (h.key c hc).2.2.1, (h.key c hc).2.2.2.1⟩) l
  rw [htrim htrimmed] at hv
  rw [readUnit, hlines, h.logical_head, readAll_append, hbefore, List.nil_append,
    logical_cons _ (h.isComment_key _), Option.getD_none, List.nil_append, hclosed,
    if_neg Bool.false_ne_true, readAll, hv, hafter]
  rfl

/-- What a file gives of a text put into it: the text, or something shorter, unless one of the
lines behind it is missing. -/
theorem Frame.value_of_readUnit (h : Frame head comments first rest key)
    (hbefore : readAll (logical none head) = some before)
    (hafter : readAll (logical none (comments ++ first :: (rest ++ [[]]))) = some after)
    (hread : readUnit (template head (key ++ '=' :: x) (comments ++ first :: rest)) =
      some (before ++ .assignment key v :: after)) :
    v.length < x.length ∨ v = x ∧ ∀ c ∈ x, isBreak c = false := by
  obtain ⟨l, more, hlines, htotal, hunbroken⟩ := h.lines x
  obtain ⟨hfirst, item, hitem⟩ := h.first
  have hends : endsEscaped false first = false :=
    h.closed first (List.mem_append_right _ (List.mem_append_right _ List.mem_cons_self))
  have hkey : '\\' ∉ key ++ ['='] := by
    intro hmem
    rcases List.mem_append.mp hmem with hmem | hmem
    · exact (h.key _ hmem).2.2.2.2.1 rfl
    · exact absurd (List.mem_singleton.mp hmem) (by decide)
  have hassignment := readLine_assignment h.key_ne
    (fun c hc => ⟨(h.key c hc).2.1, (h.key c hc).2.2.1, (h.key c hc).2.2.2.1⟩)
  -- what the lines give if the first one begins with the key
  have hgives : ∀ q others, logical none ((key ++ '=' :: l) ::
      (more ++ (comments ++ first :: (rest ++ [[]])))) = (key ++ '=' :: q) :: others →
      v.Sublist q ∧ readAll others = some after := by
    intro q others hlogical
    obtain ⟨w, hw, hsub, -⟩ := hassignment q
    rw [readUnit, hlines, h.logical_head, readAll_append, hbefore, hlogical, readAll, hw] at hread
    cases hothers : readAll others with
    | none =>
      rw [hothers] at hread
      cases hread
    | some items =>
      rw [hothers] at hread
      have hsame := List.append_cancel_left (Option.some.inj hread)
      obtain ⟨hvalue, hitems⟩ := List.cons.inj hsame
      obtain rfl := (Item.assignment.inj hvalue).2
      exact ⟨hsub, congrArg some hitems⟩
  -- a line behind cannot be missing
  have hcomplete : ∀ others, readAll others = some after →
      others ≠ logical none (rest ++ [[]]) := by
    rintro others hothers rfl
    rw [logical_comments _ h.comment, logical_cons _ hfirst, Option.getD_none, List.nil_append,
      hends, if_neg Bool.false_ne_true, readAll, hitem, hothers] at hafter
    have hlength := congrArg List.length (Option.some.inj hafter)
    simp at hlength
  have hcomment := h.isComment_key ('=' :: l)
  have hbegins : key ++ ['='] <+: key ++ '=' :: l := ⟨l, by simp⟩
  have hreassoc : ∀ q, key ++ ['='] ++ q = key ++ '=' :: q := fun q => by simp
  by_cases hx : ∀ c ∈ x, isBreak c = false
  · obtain ⟨rfl, rfl⟩ := hunbroken hx
    cases hescaped : endsEscaped false (key ++ '=' :: l) with
    | false =>
      have hsub := (hgives l _ (by
        rw [logical_cons _ hcomment, Option.getD_none, List.nil_append, hescaped,
          if_neg Bool.false_ne_true])).1
      rcases hsub.length_le.lt_or_eq with hlt | heq
      · exact .inl hlt
      · exact .inr ⟨hsub.eq_of_length heq, hx⟩
    | true =>
      obtain ⟨⟨q, hq⟩, hclosed, -⟩ := begun_of_escaped hescaped hkey hbegins
      have hlogical : logical none ((key ++ '=' :: l) ::
          ([] ++ (comments ++ first :: (rest ++ [[]])))) =
          (key ++ '=' :: (q ++ first)) :: logical none (rest ++ [[]]) := by
        rw [logical_cons _ hcomment, Option.getD_none, List.nil_append, hescaped, if_pos rfl,
          List.nil_append, logical_swallows h.comment hfirst hends hclosed, ← hq,
          List.append_assoc, hreassoc]
      exact absurd rfl (hcomplete _ (hgives _ _ hlogical).2)
  · obtain ⟨q, others, hlogical, hq⟩ :=
      logical_line more (rest ++ [[]]) h.comment hfirst hends hkey hbegins hcomment
    rw [hreassoc] at hlogical hq
    obtain ⟨hsub, hothers⟩ := hgives q others hlogical
    rcases hq with hle | hmissing
    · left
      have hbroken : 0 < x.countP isBreak := by
        rw [List.countP_pos_iff]
        push Not at hx
        obtain ⟨c, hc, hbreak⟩ := hx
        exact ⟨c, hc, Bool.not_eq_false _ ▸ hbreak⟩
      have hlength := hsub.length_le
      simp only [List.length_append, List.length_cons] at hle
      omega
    · exact absurd hmissing (hcomplete others hothers)

end

end Kuma.Lib.UnitFile
