import Kuma.Lib.Text
import Mathlib.Algebra.BigOperators.Group.List.Basic
import Mathlib.Algebra.Ring.Nat

/-! A failed unit's own words, made one bounded line of a report: crypt hashes are masked, the
ends trimmed, control characters dropped, and the middle cut out of what is too long. -/
namespace Kuma.Inspect
open Kuma.Lib.Text

def REASON_MAX : ℕ := 120
def JOIN : List Char := " ... ".toList
def NUDGE : ℕ := 12
def REDACTED_HASH : List Char := "<redacted>".toList

/-- `char::is_control`. -/
def isControl (c : Char) : Bool := c.toNat < 32 || (127 ≤ c.toNat && c.toNat ≤ 159)

/-- An id, and the dollar that closes it, follow a dollar. -/
def opens (rest : List Char) : Bool :=
  let id := rest.takeWhile Char.isAlphanum
  !id.isEmpty && (rest.drop id.length).head? == some '$'

/-- The loop of `mask_hashes`; what it skips runs to the next whitespace. -/
def maskFrom : Bool → List Char → List Char
  | _, [] => []
  | true, c :: rest => if isWhiteSpace c then c :: maskFrom false rest else maskFrom true rest
  | false, c :: rest =>
    if c = '$' then
      if opens rest then REDACTED_HASH ++ maskFrom true rest else '$' :: maskFrom false rest
    else c :: maskFrom false rest

def maskHashes (text : List Char) : List Char := maskFrom false text

/-- The line as it is shown when it is short enough. -/
def cleaned (line : List Char) : List Char :=
  (trim (maskHashes line)).filter fun c => !isControl c

/-- The length of a text in bytes. -/
def byteLength (text : List Char) : ℕ := (text.map Char.utf8Size).sum

/-- `front`, cut at its last space when that is near its end. -/
def nudgeFront (front : List Char) : List Char :=
  match splitOnce ' ' front.reverse with
  | some (after, before) => if byteLength after + 1 ≤ NUDGE then before.reverse else front
  | none => front

/-- `back`, cut at its first space when that is near its start. -/
def nudgeBack (back : List Char) : List Char :=
  match splitOnce ' ' back with
  | some (before, _) => if byteLength before ≤ NUDGE then back.drop before.length else back
  | none => back

def HEAD : ℕ := (REASON_MAX - JOIN.length) / 2
def TAIL : ℕ := REASON_MAX - JOIN.length - HEAD

/-- What is shown of a long line before the cut. -/
def shownFront (clean : List Char) : List Char := trimEnd (nudgeFront (clean.take HEAD))

/-- What is shown of it after the cut. -/
def shownBack (clean : List Char) : List Char :=
  (nudgeBack (clean.drop (clean.length - TAIL))).dropWhile isWhiteSpace

def oneLineReason (line : List Char) : List Char :=
  if (cleaned line).length ≤ REASON_MAX then cleaned line
  else shownFront (cleaned line) ++ JOIN ++ shownBack (cleaned line)

/-! ### Openings of a crypt hash -/

/-- What names a hash's kind. -/
def IsId (id : List Char) : Prop := id ≠ [] ∧ ∀ c ∈ id, c.isAlphanum = true

/-- Somewhere in the text an id stands between two dollars. -/
def HasOpening (text : List Char) : Prop :=
  ∃ start id, IsId id ∧ start ++ '$' :: (id ++ ['$']) <+: text

variable {text rest start id x y : List Char} {c : Char} {n : ℕ}

theorem isAlphanum_dollar : ('$' : Char).isAlphanum = false := rfl

theorem opens_iff : opens rest = true ↔ ∃ id, IsId id ∧ id ++ ['$'] <+: rest := by
  unfold opens
  simp only [Bool.and_eq_true, Bool.not_eq_true', List.isEmpty_eq_false_iff, beq_iff_eq]
  constructor
  · rintro ⟨hne, hnext⟩
    refine ⟨rest.takeWhile Char.isAlphanum, ⟨hne, fun c hc => List.mem_takeWhile_imp hc⟩, ?_⟩
    obtain ⟨after, hafter⟩ := List.head?_eq_some_iff.mp hnext
    refine ⟨after, ?_⟩
    have hwhole := List.prefix_iff_eq_append.mp (List.takeWhile_prefix Char.isAlphanum (l := rest))
    rw [hafter] at hwhole
    rw [List.append_assoc]
    exact hwhole
  · rintro ⟨id, hid, after, rfl⟩
    have htake : (id ++ ['$'] ++ after).takeWhile Char.isAlphanum = id := by
      rw [List.append_assoc, List.takeWhile_append_of_pos hid.2]
      simp [isAlphanum_dollar]
    rw [htake]
    exact ⟨hid.1, by simp⟩

theorem hasOpening_cons :
    HasOpening (c :: rest) ↔ c = '$' ∧ opens rest = true ∨ HasOpening rest := by
  unfold HasOpening
  rw [opens_iff]
  constructor
  · rintro ⟨start, id, hid, hpre⟩
    cases start with
    | nil =>
      rw [List.nil_append, List.cons_prefix_cons] at hpre
      exact .inl ⟨hpre.1.symm, id, hid, hpre.2⟩
    | cons d start =>
      rw [List.cons_append, List.cons_prefix_cons] at hpre
      exact .inr ⟨start, id, hid, hpre.2⟩
  · rintro (⟨rfl, id, hid, hpre⟩ | ⟨start, id, hid, hpre⟩)
    · exact ⟨[], id, hid, List.cons_prefix_cons.mpr ⟨rfl, hpre⟩⟩
    · exact ⟨c :: start, id, hid, List.cons_prefix_cons.mpr ⟨rfl, hpre⟩⟩

theorem not_hasOpening_nil : ¬ HasOpening [] := by
  rintro ⟨start, id, -, hpre⟩
  have hnil := List.prefix_nil.mp hpre
  simp at hnil

/-- Text without a dollar before another adds no opening. -/
theorem hasOpening_append (h : '$' ∉ start) : HasOpening (start ++ text) ↔ HasOpening text := by
  induction start with
  | nil => exact Iff.rfl
  | cons c start ih =>
    rw [List.mem_cons, not_or] at h
    rw [List.cons_append, hasOpening_cons, ih h.2]
    constructor
    · rintro (⟨hc, -⟩ | hrest)
      · exact absurd hc.symm h.1
      · exact hrest
    · exact .inr

/-! ### Masking -/

theorem maskFrom_cons_of_ne (h : c ≠ '$') :
    maskFrom false (c :: rest) = c :: maskFrom false rest := by
  rw [maskFrom, if_neg h]

/-- An opening that masking leaves was one before. -/
theorem prefix_of_prefix_maskFrom (hid : ∀ c ∈ id, c.isAlphanum = true)
    (h : id ++ ['$'] <+: maskFrom false rest) : id ++ ['$'] <+: rest := by
  induction id generalizing rest with
  | nil =>
    cases rest with
    | nil =>
      rw [maskFrom] at h
      exact h
    | cons c rest =>
      by_cases hc : c = '$'
      · rw [hc]
        exact List.cons_prefix_cons.mpr ⟨rfl, List.nil_prefix⟩
      · rw [maskFrom_cons_of_ne hc, List.nil_append, List.cons_prefix_cons] at h
        exact absurd h.1.symm hc
  | cons d id ih =>
    have hd := hid d List.mem_cons_self
    have hid' : ∀ c ∈ id, c.isAlphanum = true := fun c hc => hid c (List.mem_cons_of_mem d hc)
    cases rest with
    | nil =>
      rw [maskFrom] at h
      exact h
    | cons c rest =>
      by_cases hc : c = '$'
      · -- neither what stays of the dollar nor what replaces it is alphanumeric
        rw [hc, maskFrom, if_pos rfl] at h
        split_ifs at h
        · rw [List.cons_append] at h
          have hfirst : d = '<' := (List.cons_prefix_cons.mp h).1
          rw [hfirst] at hd
          cases hd
        · rw [List.cons_append] at h
          have hfirst : d = '$' := (List.cons_prefix_cons.mp h).1
          rw [hfirst] at hd
          cases hd
      · rw [maskFrom_cons_of_ne hc, List.cons_append, List.cons_prefix_cons] at h
        rw [List.cons_append, List.cons_prefix_cons]
        exact ⟨h.1, ih hid' h.2⟩

theorem not_hasOpening_maskFrom (skip : Bool) (text : List Char) :
    ¬ HasOpening (maskFrom skip text) := by
  have hmask : '$' ∉ REDACTED_HASH := by decide
  induction text generalizing skip with
  | nil =>
    rw [maskFrom]
    exact not_hasOpening_nil
  | cons c rest ih =>
    cases skip with
    | true =>
      rw [maskFrom]
      split_ifs with hspace
      · have hc : c ≠ '$' := by
          rintro rfl
          cases hspace
        rw [hasOpening_cons, not_or]
        exact ⟨fun h => hc h.1, ih false⟩
      · exact ih true
    | false =>
      rw [maskFrom]
      split_ifs with hc hopens
      · rw [hasOpening_append hmask]
        exact ih true
      · rw [hasOpening_cons, not_or]
        refine ⟨fun h => hopens ?_, ih false⟩
        obtain ⟨id, hid, hpre⟩ := opens_iff.mp h.2
        exact opens_iff.mpr ⟨id, hid, prefix_of_prefix_maskFrom hid.2 hpre⟩
      · rw [hasOpening_cons, not_or]
        exact ⟨fun h => hc h.1, ih false⟩

theorem maskHashes_of_not_hasOpening (h : ¬ HasOpening text) : maskHashes text = text := by
  unfold maskHashes
  induction text with
  | nil => rfl
  | cons c rest ih =>
    rw [hasOpening_cons, not_or] at h
    rw [maskFrom]
    split_ifs with hc hopens
    · exact absurd ⟨hc, hopens⟩ h.1
    · rw [ih h.2, hc]
    · rw [ih h.2]

theorem maskHashes_maskHashes (text : List Char) :
    maskHashes (maskHashes text) = maskHashes text :=
  maskHashes_of_not_hasOpening (not_hasOpening_maskFrom false text)

/-! ### Cutting -/

theorem prefix_nudgeFront (front : List Char) : nudgeFront front <+: front := by
  unfold nudgeFront
  cases hsplit : splitOnce ' ' front.reverse with
  | none => exact List.prefix_refl front
  | some pieces =>
    obtain ⟨after, before⟩ := pieces
    have hfront : front = before.reverse ++ ' ' :: after.reverse := by
      rw [← List.reverse_inj, (splitOnce_eq_some hsplit).1]
      simp
    simp only
    split_ifs
    · exact ⟨' ' :: after.reverse, hfront.symm⟩
    · exact List.prefix_refl front

theorem suffix_nudgeBack (back : List Char) : nudgeBack back <:+ back := by
  unfold nudgeBack
  cases splitOnce ' ' back with
  | none => exact List.suffix_refl back
  | some pieces =>
    simp only
    split_ifs
    · exact List.drop_suffix _ back
    · exact List.suffix_refl back

theorem prefix_shownFront (clean : List Char) : shownFront clean <+: clean.take HEAD :=
  (List.rdropWhile_prefix isWhiteSpace _).trans (prefix_nudgeFront _)

theorem suffix_shownBack (clean : List Char) :
    shownBack clean <:+ clean.drop (clean.length - TAIL) :=
  (List.dropWhile_suffix _).trans (suffix_nudgeBack _)

/-- At most 120 characters are shown of any line. -/
theorem length_oneLineReason_le (line : List Char) :
    (oneLineReason line).length ≤ REASON_MAX := by
  unfold oneLineReason
  split_ifs with hshort
  · exact hshort
  · have hfront := (prefix_shownFront (cleaned line)).length_le
    have hback := (suffix_shownBack (cleaned line)).length_le
    have hhead : HEAD = 57 := rfl
    have htail : TAIL = 58 := rfl
    have hjoin : JOIN.length = 5 := rfl
    have hmax : REASON_MAX = 120 := rfl
    rw [List.length_take] at hfront
    rw [List.length_drop] at hback
    simp only [List.length_append]
    omega

theorem isControl_cleaned {line : List Char} (h : c ∈ cleaned line) : isControl c = false := by
  have hkept := (List.mem_filter.mp h).2
  simpa using hkept

theorem isControl_oneLineReason {line : List Char} (h : c ∈ oneLineReason line) :
    isControl c = false := by
  unfold oneLineReason at h
  split_ifs at h with hshort
  · exact isControl_cleaned h
  · rcases List.mem_append.mp h with h | h
    · rcases List.mem_append.mp h with h | h
      · have hmem := (prefix_shownFront (cleaned line)).mem h
        exact isControl_cleaned (List.mem_of_mem_take hmem)
      · have hjoin : ∀ c ∈ JOIN, isControl c = false :=
          List.forall_iff_forall_mem.mp (by decide)
        exact hjoin c h
    · have hmem := (suffix_shownBack (cleaned line)).mem h
      exact isControl_cleaned (List.mem_of_mem_drop hmem)

/-- Nothing opens across a character that no opening has. -/
theorem opens_append_cons (hdollar : c ≠ '$') (halnum : c.isAlphanum = false) :
    opens (x ++ c :: y) = true ↔ opens x = true := by
  rw [opens_iff, opens_iff]
  constructor
  · rintro ⟨id, hid, hpre⟩
    refine ⟨id, hid, ?_⟩
    by_cases hlen : (id ++ ['$']).length ≤ x.length
    · exact List.prefix_of_prefix_length_le hpre (List.prefix_append x _) hlen
    · -- the character would stand in the opening
      have hbefore : x ++ [c] <+: x ++ c :: y := ⟨y, by simp⟩
      have hcover : x ++ [c] <+: id ++ ['$'] := by
        apply List.prefix_of_prefix_length_le hbefore hpre
        rw [List.length_append, List.length_singleton]
        omega
      have hmem : c ∈ id ++ ['$'] := hcover.mem (by simp)
      rcases List.mem_append.mp hmem with hmem | hmem
      · rw [hid.2 c hmem] at halnum
        cases halnum
      · exact absurd (List.mem_singleton.mp hmem) hdollar
  · rintro ⟨id, hid, hpre⟩
    exact ⟨id, hid, hpre.trans (List.prefix_append x _)⟩

theorem hasOpening_append_cons (hdollar : c ≠ '$') (halnum : c.isAlphanum = false) :
    HasOpening (x ++ c :: y) ↔ HasOpening x ∨ HasOpening y := by
  induction x with
  | nil =>
    have hnot := not_hasOpening_nil
    rw [List.nil_append, hasOpening_cons]
    tauto
  | cons d x ih =>
    have hopens : opens (x ++ c :: y) = true ↔ opens x = true :=
      opens_append_cons hdollar halnum
    rw [List.cons_append, hasOpening_cons, hasOpening_cons, hopens]
    tauto

/-- The ends of a line are not joined to an opening by what stands for its middle. -/
theorem hasOpening_join : HasOpening (x ++ JOIN ++ y) ↔ HasOpening x ∨ HasOpening y := by
  have hjoin : JOIN ++ y = ' ' :: '.' :: '.' :: '.' :: ' ' :: y := rfl
  have hdots : '$' ∉ ['.', '.', '.', ' '] := by decide
  rw [List.append_assoc, hjoin, hasOpening_append_cons (by decide) (by decide)]
  have hrest : HasOpening (['.', '.', '.', ' '] ++ y) ↔ HasOpening y := hasOpening_append hdots
  exact or_congr_right hrest

theorem hasOpening_of_prefix (h : x <+: y) (hx : HasOpening x) : HasOpening y := by
  obtain ⟨start, id, hid, hpre⟩ := hx
  exact ⟨start, id, hid, hpre.trans h⟩

/-- An opening of a prefix is one that ends within it. -/
theorem hasOpening_prefix_iff (h : x <+: y) :
    HasOpening x ↔ ∃ start id, IsId id ∧ start ++ '$' :: (id ++ ['$']) <+: y ∧
      start.length + id.length + 2 ≤ x.length := by
  constructor
  · rintro ⟨start, id, hid, hpre⟩
    refine ⟨start, id, hid, hpre.trans h, ?_⟩
    have hlen := hpre.length_le
    simp only [List.length_append, List.length_cons, List.length_nil] at hlen
    omega
  · rintro ⟨start, id, hid, hpre, hlen⟩
    refine ⟨start, id, hid, List.prefix_of_prefix_length_le hpre h ?_⟩
    simp only [List.length_append, List.length_cons, List.length_nil]
    omega

/-- An opening of a suffix is one that starts within it. -/
theorem hasOpening_suffix_iff (h : x <:+ y) :
    HasOpening x ↔ ∃ start id, IsId id ∧ start ++ '$' :: (id ++ ['$']) <+: y ∧
      y.length - x.length ≤ start.length := by
  obtain ⟨before, rfl⟩ := h
  constructor
  · rintro ⟨start, id, hid, after, rfl⟩
    refine ⟨before ++ start, id, hid, ⟨after, by simp⟩, ?_⟩
    simp only [List.length_append]
    omega
  · rintro ⟨start, id, hid, hpre, hlen⟩
    have hbefore : before <+: start := by
      apply List.prefix_of_prefix_length_le (List.prefix_append before x)
        ((List.prefix_append start _).trans hpre)
      rw [List.length_append] at hlen
      omega
    obtain ⟨left, rfl⟩ := hbefore
    rw [List.append_assoc, List.prefix_append_right_inj] at hpre
    exact ⟨left, id, hid, hpre⟩

/-! ### What dropping control characters can open -/

/-- The length of what is shown before the cut, and where what is shown after it begins. -/
def Shown (clean : List Char) (first past : ℕ) : Prop :=
  clean.length ≤ REASON_MAX ∨ past ≤ (shownFront clean).length ∨
    clean.length - (shownBack clean).length ≤ first

theorem hasOpening_oneLineReason_iff (line : List Char) :
    HasOpening (oneLineReason line) ↔ ∃ start id, IsId id ∧
      start ++ '$' :: (id ++ ['$']) <+: cleaned line ∧
        Shown (cleaned line) start.length (start.length + id.length + 2) := by
  unfold oneLineReason Shown
  split_ifs with hshort
  · unfold HasOpening
    simp [hshort]
  · have hfront := (prefix_shownFront (cleaned line)).trans (List.take_prefix _ _)
    have hback := (suffix_shownBack (cleaned line)).trans (List.drop_suffix _ _)
    rw [hasOpening_join, hasOpening_prefix_iff hfront, hasOpening_suffix_iff hback]
    constructor
    · rintro (⟨start, id, hid, hpre, hin⟩ | ⟨start, id, hid, hpre, hin⟩)
      · exact ⟨start, id, hid, hpre, .inr (.inl hin)⟩
      · exact ⟨start, id, hid, hpre, .inr (.inr hin)⟩
    · rintro ⟨start, id, hid, hpre, hall | hin | hin⟩
      · exact absurd hall hshort
      · exact .inl ⟨start, id, hid, hpre, hin⟩
      · exact .inr ⟨start, id, hid, hpre, hin⟩

/-- A text without its control characters. -/
def printable (text : List Char) : List Char := text.filter fun c => !isControl c

/-- An opening of what is left once control characters are dropped was there with some of them
in it. -/
theorem prefix_printable_iff :
    start ++ '$' :: (id ++ ['$']) <+: printable text ↔ ∃ before mid,
      before ++ '$' :: (mid ++ ['$']) <+: text ∧ printable before = start ∧ printable mid = id := by
  unfold printable
  constructor
  · rintro ⟨after, hafter⟩
    rw [List.append_assoc, eq_comm, List.filter_eq_append_iff] at hafter
    obtain ⟨front, rest, rfl, hfront, hrest⟩ := hafter
    rw [List.cons_append, List.append_assoc, List.filter_eq_cons_iff] at hrest
    obtain ⟨skipped, tail, rfl, hskipped, -, htail⟩ := hrest
    rw [List.filter_eq_append_iff] at htail
    obtain ⟨mid, last, rfl, hmid, hlast⟩ := htail
    rw [List.singleton_append, List.filter_eq_cons_iff] at hlast
    obtain ⟨skipped', left, rfl, hskipped', -, -⟩ := hlast
    refine ⟨front ++ skipped, mid ++ skipped', ⟨left, by simp⟩, ?_, ?_⟩
    · rw [List.filter_append, hfront, List.filter_eq_nil_iff.mpr hskipped, List.append_nil]
    · rw [List.filter_append, hmid, List.filter_eq_nil_iff.mpr hskipped', List.append_nil]
  · rintro ⟨before, mid, hpre, rfl, rfl⟩
    have hdollar : ('$' :: mid ++ ['$']).filter (fun c => !isControl c) =
        '$' :: (mid.filter (fun c => !isControl c) ++ ['$']) := by
      rw [List.filter_append, List.filter_cons]
      rfl
    have hfiltered := hpre.filter fun c => !isControl c
    rw [List.filter_append, ← List.cons_append, hdollar] at hfiltered
    exact hfiltered

/-- Control characters stand in what would be an id without them. -/
def SplitId (mid : List Char) : Prop := IsId (printable mid) ∧ ∃ c ∈ mid, isControl c = true

theorem not_hasOpening_trim_maskHashes (text : List Char) :
    ¬ HasOpening (trim (maskHashes text)) := by
  intro h
  have hstart := hasOpening_of_prefix (List.rdropWhile_prefix isWhiteSpace _) h
  obtain ⟨start, id, hid, hpre, -⟩ :=
    (hasOpening_suffix_iff (List.dropWhile_suffix isWhiteSpace)).mp hstart
  exact not_hasOpening_maskFrom false text ⟨start, id, hid, hpre⟩

/-- A reason line is safe to paste, and masking is what it should be on its text. -/
structure ReasonSafe (line : List Char) : Prop where
  bounded : (oneLineReason line).length ≤ REASON_MAX
  noControl : ∀ c ∈ oneLineReason line, isControl c = false
  noOpening : ¬ HasOpening (oneLineReason line)
  mask_mask : maskHashes (maskHashes line) = maskHashes line
  mask_plain : ¬ HasOpening line → maskHashes line = line

/-- A line is safe when no opening that control characters keep from being masked lies in what
is shown of it. -/
theorem reason_safe_iff (line : List Char) :
    ReasonSafe line ↔ ∀ before mid,
      before ++ '$' :: (mid ++ ['$']) <+: trim (maskHashes line) → SplitId mid →
        ¬ Shown (cleaned line) (printable before).length
          ((printable before).length + (printable mid).length + 2) := by
  have hopening := hasOpening_oneLineReason_iff line
  constructor
  · intro h before mid hpre hsplit hshown
    have hclean : printable before ++ '$' :: (printable mid ++ ['$']) <+: cleaned line :=
      prefix_printable_iff.mpr ⟨before, mid, hpre, rfl, rfl⟩
    exact h.noOpening (hopening.mpr ⟨_, _, hsplit.1, hclean, hshown⟩)
  · intro h
    constructor
    · exact length_oneLineReason_le line
    · intro c hc
      exact isControl_oneLineReason hc
    · intro hhas
      obtain ⟨start, id, hid, hpre, hshown⟩ := hopening.mp hhas
      obtain ⟨before, mid, hmasked, rfl, rfl⟩ := prefix_printable_iff.mp hpre
      refine h before mid hmasked ⟨hid, ?_⟩ hshown
      -- without a control character it would have been masked
      by_contra hnone
      have hmid : printable mid = mid := by
        unfold printable
        rw [List.filter_eq_self]
        intro c hc
        by_contra hcontrol
        exact hnone ⟨c, hc, by simpa using hcontrol⟩
      rw [hmid] at hid
      exact not_hasOpening_trim_maskHashes line ⟨before, mid, hid, hmasked⟩
    · exact maskHashes_maskHashes line
    · exact maskHashes_of_not_hasOpening

/-- An escape character before the dollar that closes the id hides a hash from the mask, and is
dropped after it. -/
theorem oneLineReason_escape :
    oneLineReason "$6\x1b$./ab$0123".toList = "$6$./ab$0123".toList ∧
      ¬ ReasonSafe "$6\x1b$./ab$0123".toList := by
  have hshown : oneLineReason "$6\x1b$./ab$0123".toList = "$6$./ab$0123".toList := by decide
  refine ⟨hshown, ?_⟩
  intro h
  apply h.noOpening
  rw [hshown]
  exact ⟨[], ['6'], ⟨by decide, List.forall_iff_forall_mem.mp (by decide)⟩, by decide⟩

end Kuma.Inspect
