import Kuma.Lib.Text
import Mathlib.Algebra.Ring.Nat

/-! One boot entry: the fields that are read of it, the title that it should have by the
deployment its own `ostree=` argument names, and the rewriting of its title. -/
namespace Kuma.BootEntries
open Kuma.Lib.Text

def TITLE : List Char := "title".toList
def OPTIONS : List Char := "options".toList
def OSTREE : List Char := "ostree=".toList
def PRETTY_NAME : List Char := "PRETTY_NAME=".toList
def SLOT : List Char := "(ostree:".toList

/-- `str::trim_start`. -/
def trimStart (text : List Char) : List Char := text.dropWhile isWhiteSpace

/-- A field is a key, whitespace, then the value. -/
def isField (line key : List Char) : Bool :=
  (stripPrefix key (trimStart line)).any fun rest => rest.head?.any isWhiteSpace

def field (body key : List Char) : Option (List Char) :=
  ((lines body).find? (isField · key)).map fun line => trim ((trimStart line).drop key.length)

def ostreeKarg (options : List Char) : Option (List Char) :=
  (words options).findSome? (stripPrefix OSTREE)

def kargIndex (karg : List Char) : Option ℕ :=
  (split '/' karg).getLast?.bind (parseUnsigned (2 ^ 32))

def prettyName (osRelease : List Char) : Option (List Char) := do
  let line ← ((lines osRelease).map trim).find? fun line => (stripPrefix PRETTY_NAME line).isSome
  let value := trim (line.drop PRETTY_NAME.length)
  let unquoted := ((unquote '"' value).or (unquote '\'' value)).getD value
  if unquoted = [] then none else some unquoted

/-- The readable files under a root, by directory and relative path. -/
abbrev Sysroot := List Char → List Char → Option (List Char)

def deploymentName (sysroot : Sysroot) (karg : List Char) : Option (List Char) :=
  ((["usr/lib/os-release", "etc/os-release"].map String.toList).filterMap
    (sysroot (karg.dropWhile (· == '/')))).findSome? prettyName

/-- `str::rsplit_once`. -/
def rsplitOnceStr (sep text : List Char) : Option (List Char × List Char) :=
  (splitOnceStr sep.reverse text.reverse).map fun p => (p.2.reverse, p.1.reverse)

def suffixIndex (title : List Char) : Option ℕ := do
  let head ← stripSuffix [')'] (trimEnd title)
  let (_, tail) ← rsplitOnceStr SLOT head
  parseUnsigned (2 ^ 32) tail

/-- A deployment's name with its slot, as ostree writes the two. -/
def withSlot (pretty : List Char) (index : ℕ) : List Char :=
  pretty ++ ' ' :: (SLOT ++ Nat.toDigits 10 index ++ [')'])

/-- The title for a deployment: with the slot when there is one in the title that it has. -/
def titleFor (karg pretty current : List Char) : Option (List Char) :=
  match suffixIndex current with
  | some _ => (kargIndex karg).map (withSlot pretty)
  | none => some pretty

/-- What the entry says, and what it should say. -/
def wanted (sysroot : Sysroot) (body : List Char) : Option (List Char × List Char) := do
  let current ← field body TITLE
  let options ← field body OPTIONS
  let karg ← ostreeKarg options
  let pretty ← deploymentName sysroot karg
  let title ← titleFor karg pretty current
  return (current, title)

/-- The line that `write_title` writes for a line of the entry. -/
def titled (title line : List Char) : List Char :=
  if isField line TITLE then TITLE ++ ' ' :: title else line

def writeTitle (body title : List Char) : List Char := ofLines ((lines body).map (titled title))

variable {body title key line value rest a b : List Char} {sysroot : Sysroot} {n : ℕ}

/-! ### Reading a field -/

theorem isField_iff : isField line key = true ↔
    ∃ w rest, trimStart line = key ++ w :: rest ∧ isWhiteSpace w = true := by
  unfold isField
  rw [Option.any_eq_true]
  constructor
  · rintro ⟨rest, hrest, hspace⟩
    rw [Option.any_eq_true] at hspace
    obtain ⟨w, hw, hwspace⟩ := hspace
    obtain ⟨tail, rfl⟩ := List.head?_eq_some_iff.mp hw
    exact ⟨w, tail, stripPrefix_eq_some.mp hrest, hwspace⟩
  · rintro ⟨w, rest, hline, hspace⟩
    exact ⟨w :: rest, stripPrefix_eq_some.mpr hline, hspace⟩

/-- The value a field's line has. -/
def valueOf (line key : List Char) : List Char := trim ((trimStart line).drop key.length)

theorem valueOf_eq (h : trimStart line = key ++ rest) : valueOf line key = trim rest := by
  unfold valueOf
  rw [h, List.drop_left]

theorem field_eq (body key : List Char) :
    field body key = ((lines body).find? (isField · key)).map (valueOf · key) := rfl

theorem trimStart_append (h : trimStart a = value) (hne : value ≠ []) :
    trimStart (a ++ b) = value ++ b := by
  unfold trimStart at h ⊢
  rw [List.dropWhile_append, h]
  simp [hne]

theorem dropReturn_append_return (start : List Char) : dropReturn (start ++ ['\r']) = start := by
  unfold dropReturn
  rw [if_pos (by simp), List.dropLast_concat]

theorem trim_append_return (text : List Char) : trim (text ++ ['\r']) = trim text := by
  rw [← trim_dropReturn, dropReturn_append_return]

/-- A return at the end of a line leaves a field that has a value what it is. -/
theorem isField_dropReturn (h : isField (dropReturn line) key = true) :
    isField line key = true ∧ valueOf (dropReturn line) key = valueOf line key := by
  by_cases hlast : line.getLast? = some '\r'
  · obtain ⟨start, rfl⟩ := List.getLast?_eq_some_iff.mp hlast
    rw [dropReturn_append_return] at h ⊢
    obtain ⟨w, rest, hstart, hspace⟩ := isField_iff.mp h
    have hline : trimStart (start ++ ['\r']) = key ++ w :: (rest ++ ['\r']) := by
      rw [trimStart_append hstart (by simp)]
      simp
    refine ⟨isField_iff.mpr ⟨w, rest ++ ['\r'], hline, hspace⟩, ?_⟩
    rw [valueOf_eq hstart, valueOf_eq hline, ← List.cons_append, trim_append_return]
  · have hsame : dropReturn line = line := by
      unfold dropReturn
      rw [if_neg hlast]
    rw [hsame] at h ⊢
    exact ⟨h, rfl⟩

/-- A field with a value is one without the return too. -/
theorem isField_of_value (h : isField line key = true) (hvalue : valueOf line key ≠ []) :
    isField (dropReturn line) key = true := by
  by_cases hlast : line.getLast? = some '\r'
  · obtain ⟨start, rfl⟩ := List.getLast?_eq_some_iff.mp hlast
    rw [dropReturn_append_return]
    obtain ⟨w, rest, hline, hspace⟩ := isField_iff.mp h
    rw [valueOf_eq hline] at hvalue
    have hne : trimStart start ≠ [] := by
      intro hnil
      unfold trimStart at hnil hline
      rw [List.dropWhile_append, hnil] at hline
      have hreturn : isWhiteSpace '\r' = true := by decide
      simp [hreturn] at hline
    rw [trimStart_append rfl hne] at hline
    rcases List.eq_nil_or_concat' rest with rfl | ⟨rest', r, rfl⟩
    · -- the return would be all of the value
      have hw : w = '\r' := by
        have hlasts := congrArg List.getLast? hline
        simpa using hlasts.symm
      rw [hw] at hvalue
      exact absurd (by decide) hvalue
    · have hline' : trimStart start ++ ['\r'] = (key ++ w :: rest') ++ [r] := by
        rw [hline]
        simp
      exact isField_iff.mpr ⟨w, rest', (List.append_inj' hline' rfl).1, hspace⟩
  · have hsame : dropReturn line = line := by
      unfold dropReturn
      rw [if_neg hlast]
    rw [hsame]
    exact h

/-! ### The rewritten entry -/

/-- The line that the title is written on. -/
def titleLine (title : List Char) : List Char := TITLE ++ ' ' :: title

theorem not_options_of_title (h : isField line TITLE = true) : isField line OPTIONS = false := by
  by_contra hoptions
  obtain ⟨w, rest, hline, -⟩ := isField_iff.mp h
  obtain ⟨w', rest', hline', -⟩ := isField_iff.mp (by simpa using hoptions)
  rw [hline] at hline'
  have hfirst : 't' = 'o' := (List.cons.inj hline').1
  cases hfirst

theorem dropReturn_titleLine (title : List Char) :
    dropReturn (titleLine title) = titleLine (dropReturn title) := by
  rcases List.eq_nil_or_concat' title with rfl | ⟨start, c, rfl⟩
  · decide
  · have hline : titleLine (start ++ [c]) = titleLine start ++ [c] := by
      unfold titleLine
      simp
    by_cases hc : c = '\r'
    · rw [hline, hc, dropReturn_append_return, dropReturn_append_return]
    · unfold dropReturn
      rw [hline, if_neg (by simpa using hc), if_neg (by simpa using hc), hline]

theorem isField_titleLine (title : List Char) : isField (titleLine title) TITLE = true :=
  isField_iff.mpr ⟨' ', title, rfl, by decide⟩

theorem valueOf_titleLine (title : List Char) : valueOf (titleLine title) TITLE = trim title := by
  have hline : trimStart (titleLine title) = TITLE ++ ' ' :: title := rfl
  rw [valueOf_eq hline, trim_eq, List.dropWhile_cons_of_pos (by decide), ← trim_eq]

theorem titled_of_field (h : isField line TITLE = true) : titled title line = titleLine title := by
  unfold titled
  rw [if_pos h]
  rfl

theorem titled_of_not_field (h : isField line TITLE = false) : titled title line = line := by
  unfold titled
  rw [h, if_neg Bool.false_ne_true]

theorem find_field {ls : List (List Char)} (h : isField line key = true) :
    (line :: ls).find? (isField · key) = some line :=
  List.find?_cons_of_pos h

theorem find_other {ls : List (List Char)} (h : isField line key = false) :
    (line :: ls).find? (isField · key) = ls.find? (isField · key) :=
  List.find?_cons_of_neg (by simp [h])

/-- The lines of a rewritten entry, as they are read again. -/
theorem lines_writeTitle (h : '\n' ∉ title) :
    lines (writeTitle body title) = ((lines body).map (titled title)).map dropReturn := by
  apply lines_flatMap
  intro line hline
  obtain ⟨old, hold, rfl⟩ := List.mem_map.mp hline
  unfold titled
  split_ifs
  · have hkey : '\n' ∉ TITLE := by decide
    simp [hkey, h]
  · exact newline_notMem_lines hold

/-- The first title line reads as the new title, trimmed. -/
theorem field_writeTitle_title (h : '\n' ∉ title) (hfield : field body TITLE = some value) :
    field (writeTitle body title) TITLE = some (trim title) := by
  have hfind : ∀ ls : List (List Char),
      ((ls.map (titled title)).map dropReturn).find? (isField · TITLE) =
        (ls.find? (isField · TITLE)).map fun _ => titleLine (dropReturn title) := by
    intro ls
    induction ls with
    | nil => rfl
    | cons l ls ih =>
      rw [List.map_cons, List.map_cons]
      cases hl : isField l TITLE with
      | true =>
        rw [titled_of_field hl, dropReturn_titleLine,
          find_field (isField_titleLine (dropReturn title)), find_field hl]
        rfl
      | false =>
        have hdrop : isField (dropReturn l) TITLE = false := by
          by_contra htitle
          rw [(isField_dropReturn (by simpa using htitle)).1] at hl
          cases hl
        rw [titled_of_not_field hl, find_other hdrop, ih, find_other hl]
  rw [field_eq] at hfield ⊢
  obtain ⟨first, hfirst, -⟩ := Option.map_eq_some_iff.mp hfield
  rw [lines_writeTitle h, hfind, hfirst]
  simp [valueOf_titleLine, trim_dropReturn]

/-- Options with a value are read as they were. -/
theorem field_writeTitle_options (h : '\n' ∉ title) (hfield : field body OPTIONS = some value)
    (hvalue : value ≠ []) : field (writeTitle body title) OPTIONS = some value := by
  have hfind : ∀ ls : List (List Char),
      (ls.find? (isField · OPTIONS)).map (valueOf · OPTIONS) = some value →
        (((ls.map (titled title)).map dropReturn).find? (isField · OPTIONS)).map
          (valueOf · OPTIONS) = some value := by
    intro ls
    induction ls with
    | nil => exact id
    | cons l ls ih =>
      intro hls
      rw [List.map_cons, List.map_cons]
      cases hl : isField l OPTIONS with
      | true =>
        rw [find_field hl] at hls
        have hread : valueOf l OPTIONS = value := Option.some.inj hls
        have hplain : isField l TITLE = false := by
          by_contra htitle
          rw [not_options_of_title (by simpa using htitle)] at hl
          cases hl
        have hkept := isField_of_value hl (by rw [hread]; exact hvalue)
        rw [titled_of_not_field hplain, find_field hkept, Option.map_some,
          (isField_dropReturn hkept).2, hread]
      | false =>
        rw [find_other hl] at hls
        have hdrop : isField (dropReturn (titled title l)) OPTIONS = false := by
          by_contra hoptions
          have hbefore := (isField_dropReturn (by simpa using hoptions)).1
          cases htitle : isField l TITLE with
          | true =>
            rw [titled_of_field htitle, not_options_of_title (isField_titleLine title)] at hbefore
            cases hbefore
          | false =>
            rw [titled_of_not_field htitle, hl] at hbefore
            cases hbefore
        rw [find_other hdrop]
        exact ih hls
  rw [field_eq] at hfield ⊢
  rw [lines_writeTitle h]
  exact hfind _ hfield

/-! ### What is wanted of it -/

theorem wanted_eq_some {current : List Char} :
    wanted sysroot body = some (current, title) ↔ ∃ options karg pretty,
      field body TITLE = some current ∧ field body OPTIONS = some options ∧
      ostreeKarg options = some karg ∧ deploymentName sysroot karg = some pretty ∧
      titleFor karg pretty current = some title := by
  unfold wanted
  simp only [Option.bind_eq_bind, Option.pure_def, Option.bind_eq_some_iff, Option.some.injEq,
    Prod.mk.injEq]
  constructor
  · rintro ⟨c, hc, options, ho, karg, hk, pretty, hp, t, ht, rfl, rfl⟩
    exact ⟨options, karg, pretty, hc, ho, hk, hp, ht⟩
  · rintro ⟨options, karg, pretty, hc, ho, hk, hp, ht⟩
    exact ⟨current, hc, options, ho, karg, hk, pretty, hp, title, ht, rfl, rfl⟩

/-- A deployment's name is not empty, and it is one line. -/
theorem prettyName_spec {osRelease pretty : List Char} (h : prettyName osRelease = some pretty) :
    pretty ≠ [] ∧ '\n' ∉ pretty := by
  unfold prettyName at h
  simp only [Option.bind_eq_bind, Option.bind_eq_some_iff] at h
  obtain ⟨line, hline, h⟩ := h
  split_ifs at h with hempty
  obtain rfl := Option.some.inj h
  refine ⟨hempty, ?_⟩
  have hmem := List.mem_of_find?_eq_some hline
  obtain ⟨raw, hraw, rfl⟩ := List.mem_map.mp hmem
  have hvalue : '\n' ∉ trim ((trim raw).drop PRETTY_NAME.length) := by
    intro hnewline
    exact newline_notMem_lines hraw
      (mem_of_mem_trim (List.mem_of_mem_drop (mem_of_mem_trim hnewline)))
  intro hnewline
  cases hdouble : unquote '"' (trim ((trim raw).drop PRETTY_NAME.length)) with
  | some inner =>
    rw [hdouble] at hnewline
    exact hvalue (mem_of_mem_unquote hdouble hnewline)
  | none =>
    rw [hdouble, Option.none_or] at hnewline
    cases hsingle : unquote '\'' (trim ((trim raw).drop PRETTY_NAME.length)) with
    | some inner =>
      rw [hsingle] at hnewline
      exact hvalue (mem_of_mem_unquote hsingle hnewline)
    | none =>
      rw [hsingle] at hnewline
      exact hvalue hnewline

theorem deploymentName_spec {karg pretty : List Char}
    (h : deploymentName sysroot karg = some pretty) : pretty ≠ [] ∧ '\n' ∉ pretty := by
  obtain ⟨osRelease, -, hname⟩ := List.exists_of_findSome?_eq_some h
  exact prettyName_spec hname

theorem newline_notMem_titleFor {karg pretty current : List Char} (hpretty : '\n' ∉ pretty)
    (h : titleFor karg pretty current = some title) : '\n' ∉ title := by
  unfold titleFor at h
  cases hsuffix : suffixIndex current with
  | none =>
    rw [hsuffix] at h
    cases h
    exact hpretty
  | some slot =>
    rw [hsuffix] at h
    obtain ⟨index, -, rfl⟩ := Option.map_eq_some_iff.mp h
    have hdigits : '\n' ∉ Nat.toDigits 10 index := by
      intro hmem
      have hdigit := Nat.isDigit_of_mem_toDigits (by omega) (by omega) hmem
      cases hdigit
    have hslot : '\n' ∉ SLOT := by decide
    simp [withSlot, hpretty, hslot, hdigits]

/-- A slot is read out of whatever it is written after. -/
theorem suffixIndex_slot (before : List Char) (h : n < 2 ^ 32) :
    suffixIndex (before ++ SLOT ++ Nat.toDigits 10 n ++ [')']) = some n := by
  have hcolon : ':' ∉ (Nat.toDigits 10 n).reverse := by
    rw [List.mem_reverse]
    intro hmem
    have hdigit := Nat.isDigit_of_mem_toDigits (by omega) (by omega) hmem
    cases hdigit
  have hend : trimEnd (before ++ SLOT ++ Nat.toDigits 10 n ++ [')']) =
      before ++ SLOT ++ Nat.toDigits 10 n ++ [')'] := trimEnd_append (by decide)
  have hhead : stripSuffix [')'] (before ++ SLOT ++ Nat.toDigits 10 n ++ [')']) =
      some (before ++ SLOT ++ Nat.toDigits 10 n) := stripSuffix_eq_some.mpr rfl
  have hslot : SLOT.reverse = ':' :: "eertso(".toList := by decide
  have hback : (before ++ SLOT ++ Nat.toDigits 10 n).reverse =
      (Nat.toDigits 10 n).reverse ++ ':' :: "eertso(".toList ++ before.reverse := by
    rw [List.reverse_append, List.reverse_append, hslot, List.append_assoc]
  have hsplit : rsplitOnceStr SLOT (before ++ SLOT ++ Nat.toDigits 10 n) =
      some (before, Nat.toDigits 10 n) := by
    unfold rsplitOnceStr
    rw [hback, hslot, splitOnceStr_append hcolon]
    simp
  unfold suffixIndex
  rw [hend, hhead]
  simp only [Option.bind_eq_bind, Option.bind_some, hsplit]
  exact parseUnsigned_toDigits h

/-- Trimming a title with a slot trims its start. -/
theorem trim_withSlot (pretty : List Char) (n : ℕ) :
    trim (withSlot pretty n) =
      trimStart (pretty ++ [' ']) ++ SLOT ++ Nat.toDigits 10 n ++ [')'] := by
  have htitle : withSlot pretty n = (pretty ++ [' ']) ++ (SLOT ++ Nat.toDigits 10 n ++ [')']) := by
    simp [withSlot]
  have hslot : (SLOT ++ Nat.toDigits 10 n ++ [')']).dropWhile isWhiteSpace =
      SLOT ++ Nat.toDigits 10 n ++ [')'] := by
    have hopen : SLOT ++ Nat.toDigits 10 n ++ [')'] =
        '(' :: ("ostree:".toList ++ Nat.toDigits 10 n ++ [')']) := rfl
    rw [hopen, List.dropWhile_cons_of_neg (by decide)]
  have hstart : (withSlot pretty n).dropWhile isWhiteSpace =
      trimStart (pretty ++ [' ']) ++ (SLOT ++ Nat.toDigits 10 n ++ [')']) := by
    rw [htitle, List.dropWhile_append]
    unfold trimStart
    split_ifs with hempty
    · rw [hslot, List.isEmpty_iff.mp hempty, List.nil_append]
    · rfl
  rw [trim_eq, hstart, ← List.append_assoc, ← List.append_assoc]
  exact trimEnd_append (by decide)

/-- The written title is read as what is wanted then: a name before a slot starts with no
whitespace, and a bare name has none at its ends and no slot of its own, unless the deployment
has no index to tell. -/
def ReadsBack (karg pretty current : List Char) : Prop :=
  match suffixIndex current with
  | some _ => ∀ c ∈ pretty.head?, isWhiteSpace c = false
  | none =>
    if (suffixIndex (trim pretty)).isSome then kargIndex karg = none else trim pretty = pretty

theorem trimStart_eq_self_iff (h : a ≠ []) (b : List Char) :
    trimStart (a ++ b) = a ++ b ↔ ∀ c ∈ a.head?, isWhiteSpace c = false := by
  obtain ⟨c, cs, rfl⟩ := List.exists_cons_of_ne_nil h
  unfold trimStart
  rw [List.cons_append, List.head?_cons]
  cases hc : isWhiteSpace c with
  | true =>
    rw [List.dropWhile_cons_of_pos hc]
    constructor
    · intro hsame
      have hlen := (List.dropWhile_suffix (l := cs ++ b) isWhiteSpace).length_le
      rw [hsame, List.length_cons] at hlen
      omega
    · intro hnone
      rw [hnone c rfl] at hc
      cases hc
  | false =>
    rw [List.dropWhile_cons_of_neg (by simp [hc])]
    simp [hc]

theorem length_trim_le (text : List Char) : (trim text).length ≤ text.length := by
  have hend := (List.rdropWhile_prefix isWhiteSpace (text.dropWhile isWhiteSpace)).length_le
  have hstart := (List.dropWhile_suffix (l := text) isWhiteSpace).length_le
  rw [trim_eq]
  exact hend.trans hstart

/-- A title with a slot is wanted again as it is. -/
theorem titleFor_trim_withSlot {karg pretty : List Char} {index : ℕ}
    (h : kargIndex karg = some index) :
    titleFor karg pretty (trim (withSlot pretty index)) = some (withSlot pretty index) := by
  obtain ⟨piece, -, hpiece⟩ := Option.bind_eq_some_iff.mp h
  have hread : suffixIndex (trim (withSlot pretty index)) = some index := by
    rw [trim_withSlot]
    exact suffixIndex_slot _ (parseUnsigned_lt hpiece)
  unfold titleFor
  simp only [hread, h, Option.map_some]

theorem trim_withSlot_eq_iff {pretty : List Char} (h : pretty ≠ []) (index : ℕ) :
    trim (withSlot pretty index) = withSlot pretty index ↔
      ∀ c ∈ pretty.head?, isWhiteSpace c = false := by
  have hwhole : withSlot pretty index =
      (pretty ++ [' ']) ++ SLOT ++ Nat.toDigits 10 index ++ [')'] := by
    simp [withSlot]
  rw [trim_withSlot, hwhole, List.append_cancel_right_eq, List.append_cancel_right_eq,
    List.append_cancel_right_eq, trimStart_eq_self_iff h]

/-- A name with a slot after it is longer than the name. -/
theorem trim_ne_withSlot (pretty : List Char) (index : ℕ) :
    trim pretty ≠ withSlot pretty index := by
  intro hsame
  have hlonger : pretty.length < (withSlot pretty index).length := by
    rw [withSlot, List.length_append, List.length_cons]
    omega
  have hlen := length_trim_le pretty
  rw [hsame] at hlen
  omega

theorem readsBack_iff {karg pretty current : List Char} (hpretty : pretty ≠ [])
    (h : titleFor karg pretty current = some title) :
    (∀ again, titleFor karg pretty (trim title) = some again → trim title = again) ↔
      ReadsBack karg pretty current := by
  unfold titleFor at h
  unfold ReadsBack
  cases hsuffix : suffixIndex current with
  | some slot =>
    simp only [hsuffix] at h ⊢
    obtain ⟨index, hindex, rfl⟩ := Option.map_eq_some_iff.mp h
    rw [← trim_withSlot_eq_iff hpretty index, titleFor_trim_withSlot hindex]
    simp
  | none =>
    simp only [hsuffix] at h ⊢
    obtain rfl := Option.some.inj h
    cases hread : suffixIndex (trim pretty) with
    | none =>
      have hagain : titleFor karg pretty (trim pretty) = some pretty := by
        unfold titleFor
        simp only [hread]
      simp [hagain]
    | some slot =>
      have hagain : titleFor karg pretty (trim pretty) =
          (kargIndex karg).map (withSlot pretty) := by
        unfold titleFor
        simp only [hread]
      rw [hagain]
      simp only [Option.isSome_some, if_true]
      constructor
      · intro hall
        by_contra hsome
        obtain ⟨index, hindex⟩ := Option.ne_none_iff_exists'.mp hsome
        exact trim_ne_withSlot pretty index (hall _ (by rw [hindex, Option.map_some]))
      · intro hnone again hagain
        rw [hnone] at hagain
        cases hagain

/-- A rewritten entry has the new title, trimmed, and the deployment it had. -/
theorem wanted_writeTitle {current options karg pretty : List Char}
    (hcurrent : field body TITLE = some current) (hoptions : field body OPTIONS = some options)
    (hkarg : ostreeKarg options = some karg) (hpretty : deploymentName sysroot karg = some pretty)
    (htitle : titleFor karg pretty current = some title) :
    wanted sysroot (writeTitle body title) =
      (titleFor karg pretty (trim title)).map fun again => (trim title, again) := by
  have hline := newline_notMem_titleFor (deploymentName_spec hpretty).2 htitle
  have hvalue : options ≠ [] := by
    rintro rfl
    have hnone : ostreeKarg [] = none := by decide
    rw [hnone] at hkarg
    cases hkarg
  unfold wanted
  rw [field_writeTitle_title hline hcurrent, field_writeTitle_options hline hoptions hvalue]
  simp only [Option.bind_eq_bind, Option.bind_some, hkarg, hpretty, Option.pure_def]
  cases titleFor karg pretty (trim title) <;> rfl

/-! ### What a rewriting touches -/

/-- A line of the file that has the title. -/
def IsTitle (line : List Char) : Prop := isField (lineOf line) TITLE = true

/-- The rewritten entry differs in its title line alone, line endings included. -/
def OnlyTitle (body body' title : List Char) : Prop :=
  ∃ before line after, segments body = before ++ line :: after ∧ IsTitle line ∧
    (∀ other ∈ before, ¬ IsTitle other) ∧
    segments body' = before ++ (titleLine title ++ ['\n']) :: after

/-- A line that a rewriting leaves as it is: it is the new title already, or no title, and it
ends in a newline without a carriage return before it. -/
def Kept (title line : List Char) : Prop :=
  line = titleLine title ++ ['\n'] ∨
    ¬ IsTitle line ∧ ∃ start, line = start ++ ['\n'] ∧ start.getLast? ≠ some '\r'

def OthersKept (body title : List Char) : Prop :=
  ∃ before line after, segments body = before ++ line :: after ∧ IsTitle line ∧
    (∀ other ∈ before, ¬ IsTitle other) ∧ ∀ other ∈ before ++ after, Kept title other

theorem segments_writeTitle (h : '\n' ∉ title) :
    segments (writeTitle body title) =
      (segments body).map fun line => titled title (lineOf line) ++ ['\n'] := by
  have hlines : ∀ line ∈ (lines body).map (titled title), '\n' ∉ line := by
    intro line hline
    obtain ⟨old, hold, rfl⟩ := List.mem_map.mp hline
    unfold titled
    split_ifs
    · have hkey : '\n' ∉ TITLE := by decide
      simp [hkey, h]
    · exact newline_notMem_lines hold
  unfold writeTitle
  rw [segments_ofLines hlines, lines_eq_map_segments, List.map_map, List.map_map]
  rfl

theorem lineOf_newline (start : List Char) : lineOf (start ++ ['\n']) = dropReturn start := by
  unfold lineOf
  rw [if_pos (by simp), List.dropLast_concat]

theorem titled_eq_self_iff : titled title (lineOf line) ++ ['\n'] = line ↔ Kept title line := by
  unfold Kept IsTitle
  cases htitle : isField (lineOf line) TITLE with
  | true =>
    rw [titled_of_field htitle]
    simp [eq_comm]
  | false =>
    rw [titled_of_not_field htitle]
    constructor
    · intro hsame
      right
      refine ⟨by simp, lineOf line, hsame.symm, ?_⟩
      have hread := lineOf_newline (lineOf line)
      rw [hsame] at hread
      intro hreturn
      obtain ⟨start, hstart⟩ := List.getLast?_eq_some_iff.mp hreturn
      rw [hstart, dropReturn_append_return] at hread
      have hlen := congrArg List.length hread
      simp at hlen
    · rintro (rfl | ⟨-, start, rfl, hreturn⟩)
      · rw [lineOf_newline, dropReturn_titleLine, isField_titleLine] at htitle
        cases htitle
      · have hsame : dropReturn start = start := by
          unfold dropReturn
          rw [if_neg hreturn]
        rw [lineOf_newline, hsame]

theorem onlyTitle_writeTitle_iff (h : '\n' ∉ title) :
    OnlyTitle body (writeTitle body title) title ↔ OthersKept body title := by
  unfold OnlyTitle OthersKept
  rw [segments_writeTitle h]
  refine exists_congr fun before => exists_congr fun line => exists_congr fun after => ?_
  constructor
  · rintro ⟨hbody, hline, hbefore, hnew⟩
    refine ⟨hbody, hline, hbefore, ?_⟩
    rw [hbody, List.map_append, List.map_cons] at hnew
    obtain ⟨hstart, hrest⟩ := List.append_inj hnew (List.length_map _)
    have hend := (List.cons.inj hrest).2
    have hid : ∀ ls : List (List Char), ls.map (fun line => titled title (lineOf line) ++ ['\n']) =
        ls → ∀ other ∈ ls, Kept title other := by
      intro ls hls other hother
      have hmap : ls.map (fun line => titled title (lineOf line) ++ ['\n']) = ls.map id := by
        rw [hls, List.map_id]
      exact titled_eq_self_iff.mp (List.map_eq_map_iff.mp hmap other hother)
    intro other hother
    rcases List.mem_append.mp hother with hother | hother
    · exact hid before hstart other hother
    · exact hid after hend other hother
  · rintro ⟨hbody, hline, hbefore, hkept⟩
    refine ⟨hbody, hline, hbefore, ?_⟩
    have hid : ∀ ls : List (List Char), (∀ other ∈ ls, Kept title other) →
        ls.map (fun line => titled title (lineOf line) ++ ['\n']) = ls := by
      intro ls hls
      have hmap : ls.map (fun line => titled title (lineOf line) ++ ['\n']) = ls.map id :=
        List.map_eq_map_iff.mpr fun other hother => titled_eq_self_iff.mpr (hls other hother)
      rw [hmap, List.map_id]
    rw [hbody, List.map_append, List.map_cons, titled_of_field hline,
      hid before fun other hother => hkept other (List.mem_append_left _ hother),
      hid after fun other hother => hkept other (List.mem_append_right _ hother)]

end Kuma.BootEntries
