import Mathlib.Data.List.Basic
import Mathlib.Data.List.DropRight
import Mathlib.Algebra.Group.Int.Defs

/-! The string operations of Rust's standard library that the sources lean on, over lists
of characters: splitting, trimming and the parsing of unsigned integers. -/
namespace Kuma.Lib.Text

/-- Texts are compared by equality. -/
instance lawfulBEqText : LawfulBEq (List Char) := inferInstance

/-- `str::split_once` on one character. -/
def splitOnce (c : Char) : List Char → Option (List Char × List Char)
  | [] => none
  | x :: xs =>
    if x = c then some ([], xs)
    else (splitOnce c xs).map fun p => (x :: p.1, p.2)

/-- `str::split` on one character: always at least one piece. -/
def split (c : Char) : List Char → List (List Char)
  | [] => [[]]
  | x :: xs =>
    if x = c then [] :: split c xs
    else match split c xs with
      | [] => [[x]]
      | piece :: pieces => (x :: piece) :: pieces

/-- `str::strip_prefix`. -/
def stripPrefix : List Char → List Char → Option (List Char)
  | [], text => some text
  | _ :: _, [] => none
  | p :: ps, x :: xs => if p = x then stripPrefix ps xs else none

/-- `str::strip_suffix`. -/
def stripSuffix (suffix text : List Char) : Option (List Char) :=
  (stripPrefix suffix.reverse text.reverse).map List.reverse

/-- A value between two of these quotes. -/
def unquote (quote : Char) (value : List Char) : Option (List Char) :=
  (stripPrefix [quote] value).bind (stripSuffix [quote])

/-- `str::split_once` on a longer separator: the first occurrence. -/
def splitOnceStr (sep : List Char) : List Char → Option (List Char × List Char)
  | [] => if sep = [] then some ([], []) else none
  | x :: xs =>
    match stripPrefix sep (x :: xs) with
    | some rest => some ([], rest)
    | none => (splitOnceStr sep xs).map fun p => (x :: p.1, p.2)

/-- Unicode's `White_Space` property. -/
def isWhiteSpace (c : Char) : Bool :=
  let n := c.toNat
  (9 ≤ n && n ≤ 13) || n == 0x20 || n == 0x85 || n == 0xA0 || n == 0x1680 ||
    (0x2000 ≤ n && n ≤ 0x200A) || n == 0x2028 || n == 0x2029 || n == 0x202F || n == 0x205F ||
    n == 0x3000

/-- `str::trim`. -/
def trim (text : List Char) : List Char :=
  ((text.dropWhile isWhiteSpace).reverse.dropWhile isWhiteSpace).reverse

/-- `str::split_whitespace`. -/
def words (text : List Char) : List (List Char) :=
  (text.splitOnP isWhiteSpace).filter (· ≠ [])

/-- `str::strip_suffix` of a carriage return. -/
def dropReturn (line : List Char) : List Char :=
  if line.getLast? = some '\r' then line.dropLast else line

/-- `str::lines`: a last line needs no newline, and an empty one is none. -/
def lines (text : List Char) : List (List Char) :=
  let pieces := split '\n' text
  pieces.dropLast.map dropReturn ++ (pieces.getLast?.filter (· ≠ [])).toList

/-- Every line ended by a newline. -/
def ofLines (lines : List (List Char)) : List Char := lines.flatMap (· ++ ['\n'])

section
variable {c : Char} {a b text rest : List Char}

theorem split_ne_nil (c : Char) (text : List Char) : split c text ≠ [] := by
  cases text with
  | nil => simp [split]
  | cons x xs =>
    rw [split]
    split_ifs
    · simp
    · split <;> simp

theorem split_append (h : c ∉ a) : split c (a ++ c :: rest) = a :: split c rest := by
  induction a with
  | nil => simp [split]
  | cons x xs ih =>
    rw [List.mem_cons, not_or] at h
    rw [List.cons_append, split, if_neg (Ne.symm h.1), ih h.2]

/-- A text is split at a separator into what its two sides are split into. -/
theorem split_append_split (c : Char) (a rest : List Char) :
    split c (a ++ c :: rest) = split c a ++ split c rest := by
  induction a with
  | nil => simp [split]
  | cons x xs ih =>
    obtain ⟨piece, pieces, hsplit⟩ := List.exists_cons_of_ne_nil (split_ne_nil c xs)
    rw [List.cons_append, split, split, ih, hsplit]
    split_ifs <;> rfl

theorem split_of_notMem (h : c ∉ a) : split c a = [a] := by
  induction a with
  | nil => rfl
  | cons x xs ih =>
    rw [List.mem_cons, not_or] at h
    rw [split, if_neg (Ne.symm h.1), ih h.2]

theorem lines_append (h : '\n' ∉ a) : lines (a ++ '\n' :: rest) = dropReturn a :: lines rest := by
  obtain ⟨piece, pieces, hsplit⟩ := List.exists_cons_of_ne_nil (split_ne_nil '\n' rest)
  simp [lines, split_append h, hsplit, List.getLast?_cons_cons]

/-- A text written line by line is read line by line. -/
theorem lines_flatMap {texts : List (List Char)} (h : ∀ t ∈ texts, '\n' ∉ t) :
    lines (texts.flatMap (· ++ ['\n'])) = texts.map dropReturn := by
  induction texts with
  | nil => rfl
  | cons t texts ih =>
    have hrest := ih fun t' ht' => h t' (List.mem_cons_of_mem t ht')
    rw [List.flatMap_cons, List.append_assoc, List.singleton_append,
      lines_append (h t List.mem_cons_self), hrest, List.map_cons]

theorem ofLines_append (ls ls' : List (List Char)) :
    ofLines (ls ++ ls') = ofLines ls ++ ofLines ls' := List.flatMap_append

theorem ofLines_split (text : List Char) : ofLines (split '\n' text) = text ++ ['\n'] := by
  induction text with
  | nil => rfl
  | cons x xs ih =>
    rw [split]
    split_ifs with hx
    · rw [hx, List.cons_append, ← ih]
      rfl
    · obtain ⟨piece, pieces, hsplit⟩ := List.exists_cons_of_ne_nil (split_ne_nil '\n' xs)
      rw [hsplit] at ih ⊢
      rw [List.cons_append, ← ih]
      rfl

/-- Texts that each end in a separator are split apart again, with an empty piece after the
last. -/
theorem split_flatMap {c : Char} {texts : List (List Char)} (h : ∀ t ∈ texts, c ∉ t) :
    split c (texts.flatMap (· ++ [c])) = texts ++ [[]] := by
  induction texts with
  | nil => rfl
  | cons t texts ih =>
    have hrest : split c (texts.flatMap (· ++ [c])) = texts ++ [[]] :=
      ih fun t' ht' => h t' (List.mem_cons_of_mem t ht')
    have ht : c ∉ t := h t List.mem_cons_self
    rw [List.flatMap_cons, List.append_assoc, List.singleton_append, split_append ht, hrest]
    rfl

/-- Lines of their own are split apart again. -/
theorem split_ofLines {ls : List (List Char)} (h : ∀ l ∈ ls, '\n' ∉ l) :
    split '\n' (ofLines ls) = ls ++ [[]] := split_flatMap h

theorem ofLines_inj {ls ls' : List (List Char)} (h : ∀ l ∈ ls, '\n' ∉ l)
    (h' : ∀ l ∈ ls', '\n' ∉ l) : ofLines ls = ofLines ls' ↔ ls = ls' := by
  constructor
  · intro heq
    have hsplit := congrArg (split '\n') heq
    rw [split_ofLines h, split_ofLines h'] at hsplit
    exact List.append_cancel_right hsplit
  · exact congrArg ofLines

theorem lines_ofLines_append {ls : List (List Char)} (h : ∀ l ∈ ls, '\n' ∉ l)
    (rest : List Char) : lines (ofLines ls ++ rest) = ls.map dropReturn ++ lines rest := by
  induction ls with
  | nil => rfl
  | cons l ls ih =>
    have hl : ofLines (l :: ls) ++ rest = l ++ '\n' :: (ofLines ls ++ rest) := by
      unfold ofLines
      rw [List.flatMap_cons, List.append_assoc, List.append_assoc]
      rfl
    rw [hl, lines_append (h l List.mem_cons_self),
      ih fun l' hl' => h l' (List.mem_cons_of_mem l hl')]
    rfl

theorem notMem_split {piece : List Char} (h : piece ∈ split c text) : c ∉ piece := by
  induction text generalizing piece with
  | nil =>
    obtain rfl : piece = [] := by simpa [split] using h
    simp
  | cons x xs ih =>
    obtain ⟨head, pieces, hsplit⟩ := List.exists_cons_of_ne_nil (split_ne_nil c xs)
    rw [split, hsplit] at h
    split_ifs at h with hx
    · rcases List.mem_cons.mp h with rfl | h
      · simp
      · exact ih (hsplit ▸ h)
    · rcases List.mem_cons.mp h with rfl | h
      · rw [List.mem_cons, not_or]
        exact ⟨Ne.symm hx, ih (by simp [hsplit])⟩
      · exact ih (by simp [hsplit, h])

theorem mem_of_mem_split {piece : List Char} {d : Char} (h : piece ∈ split c text)
    (hd : d ∈ piece) : d ∈ text := by
  induction text generalizing piece with
  | nil =>
    obtain rfl : piece = [] := by simpa [split] using h
    cases hd
  | cons x xs ih =>
    obtain ⟨head, pieces, hsplit⟩ := List.exists_cons_of_ne_nil (split_ne_nil c xs)
    rw [split, hsplit] at h
    split_ifs at h with hx
    · rcases List.mem_cons.mp h with rfl | h
      · cases hd
      · exact List.mem_cons_of_mem x (ih (hsplit ▸ h) hd)
    · rcases List.mem_cons.mp h with rfl | h
      · rcases List.mem_cons.mp hd with rfl | hd
        · exact List.mem_cons_self
        · exact List.mem_cons_of_mem x (ih (by simp [hsplit]) hd)
      · exact List.mem_cons_of_mem x (ih (by simp [hsplit, h]) hd)

theorem mem_of_mem_dropReturn (h : c ∈ dropReturn text) : c ∈ text := by
  unfold dropReturn at h
  split_ifs at h
  · exact List.dropLast_subset _ h
  · exact h

theorem newline_notMem_lines {line : List Char} (h : line ∈ lines text) : '\n' ∉ line := by
  rcases List.mem_append.mp h with h | h
  · obtain ⟨piece, hpiece, rfl⟩ := List.mem_map.mp h
    intro hnewline
    exact notMem_split (List.dropLast_subset _ hpiece) (mem_of_mem_dropReturn hnewline)
  · rw [Option.mem_toList] at h
    exact notMem_split (List.mem_of_getLast? (Option.mem_filter_iff.mp h).1)

theorem stripPrefix_eq_some {start text rest : List Char} :
    stripPrefix start text = some rest ↔ text = start ++ rest := by
  induction start generalizing text with
  | nil => simp [stripPrefix]
  | cons p ps ih =>
    cases text with
    | nil => simp [stripPrefix]
    | cons x xs =>
      rw [stripPrefix]
      split_ifs with hx
      · simp [ih, hx]
      · simp [Ne.symm hx]

theorem stripSuffix_eq_some {suffix text rest : List Char} :
    stripSuffix suffix text = some rest ↔ text = rest ++ suffix := by
  unfold stripSuffix
  rw [Option.map_eq_some_iff]
  constructor
  · rintro ⟨back, hback, rfl⟩
    have htext := stripPrefix_eq_some.mp hback
    rw [← List.reverse_inj, htext]
    simp
  · rintro rfl
    exact ⟨rest.reverse, stripPrefix_eq_some.mpr (by simp), by simp⟩

theorem mem_of_mem_unquote {quote c : Char} {value rest : List Char}
    (h : unquote quote value = some rest) (hc : c ∈ rest) : c ∈ value := by
  obtain ⟨inner, hinner, hrest⟩ := Option.bind_eq_some_iff.mp h
  rw [stripPrefix_eq_some.mp hinner, stripSuffix_eq_some.mp hrest]
  simp [hc]

theorem headD_split {c : Char} {text : List Char} (d : List Char) :
    (split c text).headD d = text.takeWhile (· ≠ c) := by
  induction text with
  | nil => rfl
  | cons x xs ih =>
    rw [split]
    split_ifs with hx
    · simp [hx]
    · obtain ⟨piece, pieces, hsplit⟩ := List.exists_cons_of_ne_nil (split_ne_nil c xs)
      rw [hsplit] at ih ⊢
      have hpiece : piece = xs.takeWhile (· ≠ c) := ih
      simp [hx, hpiece]

/-- What stands around the first occurrence of a longer separator. -/
theorem splitOnceStr_eq_some {sep : List Char} (h : splitOnceStr sep text = some (a, b)) :
    text = a ++ sep ++ b := by
  induction text generalizing a with
  | nil =>
    rw [splitOnceStr] at h
    split_ifs at h with hsep
    cases h
    rw [hsep]
    rfl
  | cons x xs ih =>
    rw [splitOnceStr] at h
    split at h
    · next rest hrest =>
      cases h
      exact stripPrefix_eq_some.mp hrest
    · obtain ⟨⟨a', b'⟩, hrest, hpair⟩ := Option.map_eq_some_iff.mp h
      obtain ⟨rfl, rfl⟩ : x :: a' = a ∧ b' = b := by simpa using hpair
      rw [ih hrest]
      rfl

/-- No occurrence of a separator stands before the one that is found. -/
theorem splitOnceStr_first {sep a' b' : List Char} (h : text = a' ++ sep ++ b') :
    ∃ a b, splitOnceStr sep text = some (a, b) ∧ a.length ≤ a'.length := by
  induction text generalizing a' with
  | nil =>
    obtain ⟨hleft, rfl⟩ := List.append_eq_nil_iff.mp h.symm
    obtain ⟨rfl, rfl⟩ := List.append_eq_nil_iff.mp hleft
    exact ⟨[], [], rfl, le_rfl⟩
  | cons x xs ih =>
    rw [splitOnceStr]
    cases hstrip : stripPrefix sep (x :: xs) with
    | some rest => exact ⟨[], rest, rfl, Nat.zero_le _⟩
    | none =>
      cases a' with
      | nil =>
        rw [List.nil_append] at h
        rw [stripPrefix_eq_some.mpr h] at hstrip
        cases hstrip
      | cons y a' =>
        rw [List.cons_append, List.cons_append] at h
        obtain ⟨a, b, hsplit, hle⟩ := ih (List.cons.inj h).2
        rw [hsplit]
        exact ⟨x :: a, b, rfl, Nat.succ_le_succ hle⟩

/-- A separator is found where its first character first stands. -/
theorem splitOnceStr_append {sep : List Char} (h : c ∉ a) :
    splitOnceStr (c :: sep) (a ++ c :: sep ++ rest) = some (a, rest) := by
  induction a with
  | nil =>
    have hstrip : stripPrefix (c :: sep) (c :: (sep ++ rest)) = some rest :=
      stripPrefix_eq_some.mpr rfl
    rw [List.nil_append, List.cons_append, splitOnceStr, hstrip]
  | cons x xs ih =>
    rw [List.mem_cons, not_or] at h
    have hstrip : stripPrefix (c :: sep) (x :: (xs ++ c :: sep ++ rest)) = none := by
      rw [stripPrefix, if_neg h.1]
    rw [List.cons_append, List.cons_append, splitOnceStr, hstrip]
    simp only [ih h.2, Option.map_some]

theorem splitOnce_append (h : c ∉ a) : splitOnce c (a ++ c :: rest) = some (a, rest) := by
  induction a with
  | nil => simp [splitOnce]
  | cons x xs ih =>
    rw [List.mem_cons, not_or] at h
    rw [List.cons_append, splitOnce, if_neg (Ne.symm h.1), ih h.2]
    rfl

theorem splitOnce_eq_some (h : splitOnce c text = some (a, b)) :
    text = a ++ c :: b ∧ c ∉ a := by
  induction text generalizing a with
  | nil => cases h
  | cons x xs ih =>
    rw [splitOnce] at h
    split_ifs at h with hx
    · obtain ⟨rfl, rfl⟩ : [] = a ∧ xs = b := by simpa using h
      simp [hx]
    · obtain ⟨⟨a', b'⟩, hrest, hpair⟩ := Option.map_eq_some_iff.mp h
      obtain ⟨rfl, rfl⟩ : x :: a' = a ∧ b' = b := by simpa using hpair
      obtain ⟨htext, hnone⟩ := ih hrest
      refine ⟨by rw [htext, List.cons_append], ?_⟩
      rw [List.mem_cons, not_or]
      exact ⟨Ne.symm hx, hnone⟩

theorem splitOnce_eq_none : splitOnce c text = none ↔ c ∉ text := by
  constructor
  · intro h hmem
    obtain ⟨start, rest, htext, hstart⟩ := List.eq_append_cons_of_mem hmem
    rw [htext, splitOnce_append hstart] at h
    cases h
  · intro h
    by_contra hsome
    obtain ⟨⟨a, b⟩, hsplit⟩ := Option.ne_none_iff_exists'.mp hsome
    exact h ((splitOnce_eq_some hsplit).1 ▸ by simp)

end

/-- `str::trim_end`. -/
def trimEnd (text : List Char) : List Char := text.rdropWhile isWhiteSpace

section
variable {c x : Char} {a b text : List Char}

theorem trim_eq (text : List Char) : trim text = trimEnd (text.dropWhile isWhiteSpace) := rfl

theorem trim_cons (h : isWhiteSpace x = false) : trim (x :: text) = trimEnd (x :: text) := by
  rw [trim_eq, List.dropWhile_cons_of_neg (by simp [h])]

theorem trimEnd_trimEnd (text : List Char) : trimEnd (trimEnd text) = trimEnd text :=
  List.rdropWhile_idempotent _ _

theorem trimEnd_trim (text : List Char) : trimEnd (trim text) = trim text := trimEnd_trimEnd _

theorem mem_of_mem_trimEnd (h : c ∈ trimEnd text) : c ∈ text :=
  (List.rdropWhile_prefix isWhiteSpace text).subset h

theorem mem_of_mem_trim (h : c ∈ trim text) : c ∈ text :=
  (List.dropWhile_suffix isWhiteSpace).subset (mem_of_mem_trimEnd h)

theorem head_trimEnd (h : trimEnd text = x :: a) : text.head? = some x := by
  obtain ⟨rest, hrest⟩ := List.rdropWhile_prefix isWhiteSpace text
  rw [← hrest, show text.rdropWhile isWhiteSpace = x :: a from h]
  rfl

/-- A trimmed text begins with something. -/
theorem isWhiteSpace_head_trim (h : trim text = x :: a) : isWhiteSpace x = false := by
  have hhead : (text.dropWhile isWhiteSpace).head? = some x := head_trimEnd h
  have hstop := List.head?_dropWhile_not isWhiteSpace text
  simpa [hhead] using hstop

theorem dropReturn_of_trimEnd (h : trimEnd text = text) : dropReturn text = text := by
  unfold dropReturn
  split_ifs with hreturn
  · have hne : text ≠ [] := by
      rintro rfl
      cases hreturn
    have hlast : text.getLast hne = '\r' := by
      rw [List.getLast?_eq_some_getLast hne] at hreturn
      exact Option.some.inj hreturn
    have hstop := List.rdropWhile_eq_self_iff.mp h hne
    rw [hlast] at hstop
    exact absurd (by decide) hstop
  · rfl

/-- A carriage return at the end of a line is white space. -/
theorem trim_dropReturn (text : List Char) : trim (dropReturn text) = trim text := by
  unfold dropReturn
  split_ifs with hreturn
  · obtain ⟨init, rfl⟩ := List.getLast?_eq_some_iff.mp hreturn
    rw [List.dropLast_concat, trim_eq, trim_eq, List.dropWhile_append]
    split_ifs with hblank
    · rw [List.isEmpty_iff.mp hblank]
      rfl
    · exact (List.rdropWhile_concat_pos isWhiteSpace _ _ (by decide)).symm
  · rfl

theorem trimEnd_append (h : isWhiteSpace c = false) :
    trimEnd (a ++ c :: b) = a ++ c :: trimEnd b := by
  unfold trimEnd List.rdropWhile
  rw [List.reverse_append, List.reverse_cons, List.append_assoc, List.dropWhile_append]
  cases hb : b.reverse.dropWhile isWhiteSpace with
  | nil => simp [h]
  | cons y ys => simp

end

theorem isWhiteSpace_of_trim_eq_nil {text : List Char} (h : trim text = []) {c : Char}
    (hc : c ∈ text) : isWhiteSpace c = true := by
  have hblank := List.rdropWhile_eq_nil_iff.mp h
  rw [← List.takeWhile_append_dropWhile (p := isWhiteSpace) (l := text), List.mem_append] at hc
  rcases hc with hc | hc
  · exact List.mem_takeWhile_imp hc
  · exact hblank c hc

theorem isWhiteSpace_of_isAlphanum {c : Char} (h : c.isAlphanum = true) :
    isWhiteSpace c = false := by
  have hval : c.toNat = c.val.toNat := rfl
  unfold Char.isAlphanum Char.isAlpha Char.isUpper Char.isLower Char.isDigit at h
  simp only [Bool.or_eq_true, Bool.and_eq_true, decide_eq_true_eq, UInt32.le_iff_toNat_le,
    ge_iff_le] at h
  have hrange : 48 ≤ c.toNat ∧ c.toNat ≤ 122 := by
    have hdigits : '0'.val.toNat = 48 ∧ '9'.val.toNat = 57 := ⟨rfl, rfl⟩
    have hupper : 'A'.val.toNat = 65 ∧ 'Z'.val.toNat = 90 := ⟨rfl, rfl⟩
    have hlower : 'a'.val.toNat = 97 ∧ 'z'.val.toNat = 122 := ⟨rfl, rfl⟩
    omega
  simp only [isWhiteSpace, Bool.or_eq_false_iff, Bool.and_eq_false_iff, beq_eq_false_iff_ne,
    decide_eq_false_iff_not]
  omega

theorem trim_of_not_whiteSpace {text : List Char} (h : ∀ c ∈ text, isWhiteSpace c = false) :
    trim text = text := by
  have hdrop : ∀ l : List Char, (∀ c ∈ l, isWhiteSpace c = false) →
      l.dropWhile isWhiteSpace = l := by
    intro l hl
    cases l with
    | nil => rfl
    | cons c l => simp [hl c List.mem_cons_self]
  rw [trim, hdrop _ h, hdrop _ fun c hc => h c (List.mem_reverse.mp hc), List.reverse_reverse]

/-- The lines of a file with their newlines; the last one may have none. -/
def segments : List Char → List (List Char)
  | [] => []
  | c :: cs =>
    if c = '\n' then ['\n'] :: segments cs
    else match segments cs with
      | [] => [[c]]
      | line :: rest => (c :: line) :: rest

/-- Nothing more has to be ended by a newline. -/
def Terminated (text : List Char) : Prop := text = [] ∨ text.getLast? = some '\n'

theorem flatten_segments (text : List Char) : (segments text).flatten = text := by
  induction text with
  | nil => rfl
  | cons c cs ih =>
    rw [segments]
    split_ifs with hc
    · rw [List.flatten_cons, ih, hc]
      rfl
    · cases hcs : segments cs with
      | nil =>
        rw [hcs] at ih
        rw [← ih]
        rfl
      | cons line rest =>
        rw [hcs] at ih
        rw [← ih]
        rfl

theorem Terminated.of_cons {c : Char} {cs : List Char} (h : Terminated (c :: cs))
    (hc : c ≠ '\n') : cs ≠ [] ∧ Terminated cs := by
  rcases h with h | h
  · cases h
  · cases cs with
    | nil =>
      have hlast : c = '\n' := by simpa using h
      exact absurd hlast hc
    | cons d ds => exact ⟨List.cons_ne_nil d ds, .inr (by simpa using h)⟩

theorem Terminated.tail {c : Char} {cs : List Char} (h : Terminated (c :: cs)) :
    Terminated cs := by
  cases cs with
  | nil => exact .inl rfl
  | cons d ds =>
    rcases h with h | h
    · cases h
    · exact .inr (by simpa using h)

theorem segments_ne_nil {text : List Char} (h : text ≠ []) : segments text ≠ [] := by
  intro hnil
  have hflat := flatten_segments text
  rw [hnil] at hflat
  exact h hflat.symm

theorem segments_append {a : List Char} (h : Terminated a) (b : List Char) :
    segments (a ++ b) = segments a ++ segments b := by
  induction a with
  | nil => rfl
  | cons c cs ih =>
    rw [List.cons_append, segments, segments]
    split_ifs with hc
    · rw [ih h.tail, List.cons_append]
    · obtain ⟨hne, hcs⟩ := h.of_cons hc
      obtain ⟨line, rest, hline⟩ := List.exists_cons_of_ne_nil (segments_ne_nil hne)
      rw [ih hcs, hline]
      rfl

/-- Without a newline of its own a text runs into the next line. -/
theorem segments_append_of_notMem {a b line : List Char} {rest : List (List Char)}
    (h : '\n' ∉ a) (hb : segments b = line :: rest) :
    segments (a ++ b) = (a ++ line) :: rest := by
  induction a with
  | nil => exact hb
  | cons c cs ih =>
    rw [List.mem_cons, not_or] at h
    rw [List.cons_append, segments, if_neg (Ne.symm h.1), ih h.2]
    rfl

theorem segments_ofLines {ls : List (List Char)} (h : ∀ l ∈ ls, '\n' ∉ l) :
    segments (ofLines ls) = ls.map (· ++ ['\n']) := by
  induction ls with
  | nil => rfl
  | cons l ls ih =>
    have hl : ofLines (l :: ls) = l ++ ('\n' :: ofLines ls) := by
      unfold ofLines
      rw [List.flatMap_cons, List.append_assoc]
      rfl
    have hrest := ih fun l' hl' => h l' (List.mem_cons_of_mem l hl')
    have hnext : segments ('\n' :: ofLines ls) = ['\n'] :: segments (ofLines ls) := by
      rw [segments, if_pos rfl]
    rw [hl, segments_append_of_notMem (h l List.mem_cons_self) hnext, hrest, List.map_cons]

/-- The first line of several ends in the only newline it has. -/
theorem segments_eq_cons {text line : List Char} {rest : List (List Char)}
    (h : segments text = line :: rest) :
    segments rest.flatten = rest ∧ (rest ≠ [] → ∃ l, line = l ++ ['\n'] ∧ '\n' ∉ l) := by
  induction text generalizing line with
  | nil => cases h
  | cons c cs ih =>
    rw [segments] at h
    split_ifs at h with hc
    · cases h
      exact ⟨by rw [flatten_segments], fun _ => ⟨[], rfl, List.not_mem_nil⟩⟩
    · cases hcs : segments cs with
      | nil =>
        rw [hcs] at h
        cases h
        exact ⟨rfl, fun hne => absurd rfl hne⟩
      | cons line' rest' =>
        rw [hcs] at h
        cases h
        obtain ⟨hrest, hline⟩ := ih hcs
        refine ⟨hrest, ?_⟩
        intro hne
        obtain ⟨l, rfl, hl⟩ := hline hne
        exact ⟨c :: l, rfl, by simp [Ne.symm hc, hl]⟩

theorem segments_suffix {text : List Char} {xs ys : List (List Char)}
    (h : segments text = xs ++ ys) : segments ys.flatten = ys := by
  induction xs generalizing text with
  | nil =>
    have hflat := flatten_segments text
    rw [h] at hflat
    rw [List.nil_append] at h hflat
    rw [hflat, h]
  | cons x xs ih => exact ih (segments_eq_cons h).1

theorem segments_line {l : List Char} (h : '\n' ∉ l) :
    segments (l ++ ['\n']) = [l ++ ['\n']] := by
  have hnewline : segments ['\n'] = [['\n']] := rfl
  exact segments_append_of_notMem h hnewline

theorem Terminated.append {a b : List Char} (ha : Terminated a) (hb : Terminated b) :
    Terminated (a ++ b) := by
  rcases hb with rfl | hb
  · rw [List.append_nil]
    exact ha
  · right
    rw [List.getLast?_append, hb]
    rfl

/-- Lines before others are complete. -/
theorem segments_before {text : List Char} {xs ys : List (List Char)}
    (h : segments text = xs ++ ys) (hne : ys ≠ []) :
    Terminated xs.flatten ∧ segments xs.flatten = xs := by
  induction xs generalizing text with
  | nil => exact ⟨.inl rfl, rfl⟩
  | cons x xs ih =>
    obtain ⟨hrest, hline⟩ := segments_eq_cons h
    obtain ⟨hterm, hsegs⟩ := ih hrest
    obtain ⟨l, rfl, hl⟩ := hline (by simp [hne])
    have hx : Terminated (l ++ ['\n']) := .inr (by simp)
    rw [List.flatten_cons]
    refine ⟨hx.append hterm, ?_⟩
    rw [segments_append hx, hsegs, segments_line hl]
    rfl

/-- A text is lines that end in a newline, and what is left after the last of them. -/
theorem exists_terminated_append (text : List Char) :
    ∃ a p, text = a ++ p ∧ Terminated a ∧ '\n' ∉ p := by
  refine ⟨text.rdropWhile (· ≠ '\n'), text.rtakeWhile (· ≠ '\n'), ?_, ?_, ?_⟩
  · exact List.rdropWhile_append_rtakeWhile.symm
  · by_cases hnil : text.rdropWhile (· ≠ '\n') = []
    · exact .inl hnil
    · have hlast := List.rdropWhile_last_not (· ≠ '\n') text hnil
      right
      rw [List.getLast?_eq_some_getLast hnil]
      simpa using hlast
  · intro hmem
    have hother := List.mem_rtakeWhile_imp hmem
    simp at hother

/-- A line of a file without its ending, as `str::lines` yields it. -/
def lineOf (line : List Char) : List Char :=
  if line.getLast? = some '\n' then dropReturn line.dropLast else line

theorem exists_ofLines_append (text : List Char) :
    ∃ ls p, text = ofLines ls ++ p ∧ (∀ l ∈ ls, '\n' ∉ l) ∧ '\n' ∉ p := by
  obtain ⟨ls, p, hsplit⟩ : ∃ ls p, split '\n' text = ls ++ [p] :=
    ⟨_, _, (List.dropLast_concat_getLast (split_ne_nil '\n' text)).symm⟩
  have hpieces : ∀ piece ∈ ls ++ [p], '\n' ∉ piece := by
    intro piece hpiece
    rw [← hsplit] at hpiece
    exact notMem_split hpiece
  refine ⟨ls, p, ?_, ?_, ?_⟩
  · have htext := ofLines_split text
    have hlast : ofLines [p] = p ++ ['\n'] := by
      unfold ofLines
      simp
    rw [hsplit, ofLines_append, hlast, ← List.append_assoc] at htext
    exact (List.append_cancel_right htext).symm
  · exact fun l hl => hpieces l (List.mem_append_left _ hl)
  · exact hpieces p (List.mem_append_right _ (List.mem_singleton_self p))

theorem segments_of_notMem {p : List Char} (h : '\n' ∉ p) :
    segments p = if p = [] then [] else [p] := by
  induction p with
  | nil => rfl
  | cons c cs ih =>
    rw [List.mem_cons, not_or] at h
    rw [segments, if_neg (Ne.symm h.1), ih h.2]
    cases cs <;> rfl

theorem lines_of_notMem {p : List Char} (h : '\n' ∉ p) :
    lines p = if p = [] then [] else [p] := by
  unfold lines
  rw [split_of_notMem h]
  cases p <;> rfl

/-- `str::lines` yields the lines of the file without their endings. -/
theorem lines_eq_map_segments (text : List Char) : lines text = (segments text).map lineOf := by
  obtain ⟨ls, p, rfl, hls, hp⟩ := exists_ofLines_append text
  have hterm : Terminated (ofLines ls) := by
    rcases List.eq_nil_or_concat' ls with rfl | ⟨start, l, rfl⟩
    · exact .inl rfl
    · right
      rw [ofLines_append]
      unfold ofLines
      simp
  rw [lines_ofLines_append hls, segments_append hterm, segments_ofLines hls, List.map_append,
    List.map_map, lines_of_notMem hp, segments_of_notMem hp]
  congr 1
  · apply List.map_congr_left
    intro l _
    have hlast : (l ++ ['\n']).getLast? = some '\n' := by simp
    rw [Function.comp_apply, lineOf, if_pos hlast, List.dropLast_concat]
  · split_ifs with hnil
    · rfl
    · have hlast : p.getLast? ≠ some '\n' := fun h => hp (List.mem_of_getLast? h)
      rw [List.map_singleton, lineOf, if_neg hlast]

theorem mem_of_mem_lines {text line : List Char} {c : Char} (h : line ∈ lines text)
    (hc : c ∈ line) : c ∈ text := by
  rw [lines_eq_map_segments] at h
  obtain ⟨segment, hsegment, rfl⟩ := List.mem_map.mp h
  have hmem : c ∈ segment := by
    unfold lineOf at hc
    split_ifs at hc
    · exact List.dropLast_subset _ (mem_of_mem_dropReturn hc)
    · exact hc
  rw [← flatten_segments text]
  exact List.mem_flatten_of_mem hsegment hmem

/-- The number of words `str::split_whitespace` yields. -/
def wordCount : List Char → ℕ
  | [] => 0
  | [c] => if isWhiteSpace c then 0 else 1
  | c :: d :: cs =>
    (if isWhiteSpace c then 0 else if isWhiteSpace d then 1 else 0) + wordCount (d :: cs)

/-- The value of a run of decimal digits; no digits, or another character, is an error. -/
def digits : List Char → Option ℕ
  | [] => none
  | cs => if cs.all Char.isDigit then some (cs.foldl (fun n c => 10 * n + (c.toNat - 48)) 0)
    else none

/-- `str::parse` at an unsigned type of values below `bound`: one leading plus is allowed,
a minus is not, and a value past the type is an error. -/
def parseUnsigned (bound : ℕ) (text : List Char) : Option ℕ :=
  let body := match text with
    | '+' :: rest => rest
    | cs => cs
  (digits body).filter (· < bound)

/-- The integer `test` reads: blanks around a sign and digits, within 64 bits. -/
def shellInteger (text : List Char) : Option Int :=
  let blank (c : Char) : Bool := c == ' ' || c == '\t'
  let body := text.dropWhile fun c => blank c || (9 ≤ c.toNat && c.toNat ≤ 13)
  let value := match (body.reverse.dropWhile blank).reverse with
    | '-' :: ds => (digits ds).map fun n => -(n : Int)
    | '+' :: ds => (digits ds).map fun n => (n : Int)
    | ds => (digits ds).map fun n => (n : Int)
  value.filter fun v => -2 ^ 63 ≤ v && v < 2 ^ 63

/-- A run of digits is read as its value. -/
theorem parseUnsigned_of_isDigit {bound : ℕ} {text : List Char} (hne : text ≠ [])
    (hdigits : ∀ c ∈ text, c.isDigit = true) (h : Nat.ofDigitChars 10 text 0 < bound) :
    parseUnsigned bound text = some (Nat.ofDigitChars 10 text 0) := by
  obtain ⟨c, cs, rfl⟩ := List.exists_cons_of_ne_nil hne
  have hplus : c ≠ '+' := by
    rintro rfl
    have hdigit := hdigits '+' List.mem_cons_self
    cases hdigit
  have hbody : (match c :: cs with | '+' :: rest => rest | ds => ds) = c :: cs := by
    split
    · rename_i heq
      exact absurd (List.cons.inj heq).1 hplus
    · rfl
  have hread : digits (c :: cs) = some (Nat.ofDigitChars 10 (c :: cs) 0) :=
    if_pos (List.all_eq_true.mpr hdigits)
  unfold parseUnsigned
  simp only [hbody, hread]
  exact Option.filter_eq_some_iff.mpr ⟨rfl, decide_eq_true h⟩

/-- A value is read back from the digits it is written in. -/
theorem parseUnsigned_toDigits {bound n : ℕ} (h : n < bound) :
    parseUnsigned bound (Nat.toDigits 10 n) = some n := by
  have hdigits : ∀ c ∈ Nat.toDigits 10 n, c.isDigit = true := fun c hc =>
    Nat.isDigit_of_mem_toDigits (by omega) (by omega) hc
  have hvalue : Nat.ofDigitChars 10 (Nat.toDigits 10 n) 0 = n := Nat.ofDigitChars_ten_toDigits
  have hread := parseUnsigned_of_isDigit Nat.toDigits_ne_nil hdigits (hvalue.symm ▸ h)
  rwa [hvalue] at hread

theorem parseUnsigned_lt {bound n : ℕ} {text : List Char}
    (h : parseUnsigned bound text = some n) : n < bound := by
  simpa using (Option.filter_eq_some_iff.mp h).2

/-- A wider unsigned type reads every text the narrower one reads, with the same value. -/
theorem parseUnsigned_mono {b c n : ℕ} {text : List Char} (hbc : b ≤ c)
    (h : parseUnsigned b text = some n) : parseUnsigned c text = some n := by
  obtain ⟨hd, hn⟩ := Option.filter_eq_some_iff.mp h
  have hlt : n < b := by simpa using hn
  exact Option.filter_eq_some_iff.mpr ⟨hd, by simpa using Nat.lt_of_lt_of_le hlt hbc⟩

end Kuma.Lib.Text
