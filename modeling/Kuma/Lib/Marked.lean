import Mathlib.Data.List.Basic
import Mathlib.Data.List.Infix

/-! Marked regions of a list of lines, each from a line that opens one to the next line that
closes it, or to the end: what lies outside of them, and a sweep that takes them out and the
blank lines before them too. -/
namespace Kuma.Lib.Marked

variable {α : Type} [DecidableEq α] (isOpen isClose : α → Bool) (blank : α)

/-- The lines outside every region. The one blank line right before an opening belongs to the
region. -/
def apart : Bool → List α → List α
  | _, [] => []
  | inside, l :: ls =>
    if isOpen l then apart true ls
    else if inside then apart (!isClose l) ls
    else if l = blank ∧ ls.head?.any isOpen = true then apart false ls
    else l :: apart false ls

/-- The newest lines go while they are blank; the oldest line stays. -/
def popBlank : List α → List α
  | a :: b :: rest => if a = blank then popBlank (b :: rest) else a :: b :: rest
  | kept => kept

/-- A removal line by line, over the lines kept so far, newest first. -/
def sweep : List α → Bool → List α → List α
  | kept, _, [] => kept
  | kept, inside, l :: ls =>
    if isOpen l then sweep (popBlank blank kept) true ls
    else if inside then sweep kept (!isClose l) ls
    else sweep (l :: kept) false ls

/-- `sed '/start/,/stop/d'`: from a line that starts a range to the next one that stops it, or
to the end. -/
def deleteRanges (start stop : α → Bool) : Bool → List α → List α
  | _, [] => []
  | true, l :: ls => deleteRanges start stop (!stop l) ls
  | false, l :: ls =>
    if start l then deleteRanges start stop true ls else l :: deleteRanges start stop false ls

/-- The list ends in no blank line, unless that is all there is. -/
def EndsWell (lines : List α) : Prop := lines.getLast? ≠ some blank ∨ lines = [blank]

/-- What is outside ends well at every opening. -/
def WellSpaced (inside : Bool) (before lines : List α) : Prop :=
  ∀ start mark, start ++ [mark] <+: lines → isOpen mark = true →
    EndsWell blank (before ++ apart isOpen isClose blank inside (start ++ [mark]))

variable {isOpen isClose blank} {kept outer lines : List α} {inside : Bool} {l a : α}

theorem popBlank_cons_blank (h : kept ≠ []) :
    popBlank blank (blank :: kept) = popBlank blank kept := by
  obtain ⟨b, rest, rfl⟩ := List.exists_cons_of_ne_nil h
  rw [popBlank, if_pos rfl]

theorem popBlank_of_head (h : a ≠ blank) : popBlank blank (a :: kept) = a :: kept := by
  cases kept with
  | nil => rfl
  | cons b rest => rw [popBlank, if_neg h]

/-- The pop stops at a line that is not blank, or at the oldest one. -/
theorem popBlank_eq (blank : α) (kept : List α) :
    popBlank blank kept = kept.dropWhile (· = blank) ∨ popBlank blank kept = [blank] := by
  induction kept with
  | nil => exact .inl rfl
  | cons a kept ih =>
    by_cases ha : a = blank
    · subst ha
      cases kept with
      | nil => exact .inr rfl
      | cons b rest =>
        rw [popBlank_cons_blank (List.cons_ne_nil b rest), List.dropWhile_cons_of_pos (by simp)]
        exact ih
    · rw [popBlank_of_head ha, List.dropWhile_cons_of_neg (by simpa using ha)]
      exact .inl rfl

theorem popBlank_ne_nil (blank : α) (h : kept ≠ []) : popBlank blank kept ≠ [] := by
  induction kept with
  | nil => exact absurd rfl h
  | cons a kept ih =>
    by_cases ha : a = blank
    · subst ha
      cases kept with
      | nil => exact List.cons_ne_nil _ _
      | cons b rest =>
        rw [popBlank_cons_blank (List.cons_ne_nil b rest)]
        exact ih (List.cons_ne_nil b rest)
    · rw [popBlank_of_head ha]
      exact List.cons_ne_nil _ _

theorem popBlank_popBlank (kept : List α) :
    popBlank blank (popBlank blank kept) = popBlank blank kept := by
  induction kept with
  | nil => rfl
  | cons a kept ih =>
    by_cases ha : a = blank
    · subst ha
      cases kept with
      | nil => rfl
      | cons b rest =>
        rw [popBlank_cons_blank (List.cons_ne_nil b rest)]
        exact ih
    · rw [popBlank_of_head ha, popBlank_of_head ha]

theorem popBlank_suffix (kept : List α) : popBlank blank kept <:+ kept := by
  induction kept with
  | nil => exact List.suffix_refl _
  | cons a kept ih =>
    by_cases ha : a = blank
    · subst ha
      cases kept with
      | nil => exact List.suffix_refl _
      | cons b rest =>
        rw [popBlank_cons_blank (List.cons_ne_nil b rest)]
        exact ih.trans (List.suffix_cons a _)
    · rw [popBlank_of_head ha]

theorem mem_of_mem_popBlank (h : a ∈ popBlank blank kept) : a ∈ kept :=
  (popBlank_suffix kept).mem h

theorem mem_popBlank_iff (ha : a ≠ blank) : a ∈ popBlank blank kept ↔ a ∈ kept := by
  constructor
  · exact mem_of_mem_popBlank
  · intro h
    induction kept with
    | nil => cases h
    | cons b kept ih =>
      by_cases hb : b = blank
      · have hkept : a ∈ kept := (List.mem_cons.mp h).resolve_left (by simpa [hb] using ha)
        rw [hb, popBlank_cons_blank (List.ne_nil_of_mem hkept)]
        exact ih hkept
      · rw [popBlank_of_head hb]
        exact h

/-- No line that is not blank is popped. -/
theorem countP_popBlank (blank : α) (kept : List α) :
    (popBlank blank kept).countP (· ≠ blank) = kept.countP (· ≠ blank) := by
  induction kept with
  | nil => rfl
  | cons a kept ih =>
    by_cases ha : a = blank
    · subst ha
      cases kept with
      | nil => rfl
      | cons b rest =>
        have hskip : (a :: b :: rest).countP (· ≠ a) = (b :: rest).countP (· ≠ a) :=
          List.countP_cons_of_neg (by simp)
        rw [popBlank_cons_blank (List.cons_ne_nil b rest), ih, hskip]
    · rw [popBlank_of_head ha]

/-- Lines over a kept list that cannot be popped are popped down to it at most. -/
theorem popBlank_append (hne : kept ≠ []) (hstuck : popBlank blank kept = kept) (top : List α) :
    ∃ left, popBlank blank (top ++ kept) = left ++ kept ∧ left.length ≤ top.length := by
  induction top with
  | nil => exact ⟨[], hstuck, le_refl _⟩
  | cons a top ih =>
    by_cases ha : a = blank
    · subst ha
      obtain ⟨left, hleft, hlen⟩ := ih
      have hmore : top ++ kept ≠ [] := by simp [hne]
      refine ⟨left, ?_, ?_⟩
      · rw [List.cons_append, popBlank_cons_blank hmore, hleft]
      · rw [List.length_cons]
        omega
    · refine ⟨a :: top, ?_, le_refl _⟩
      rw [List.cons_append, popBlank_of_head ha]

/-- A blank line right before an opening is popped there. -/
theorem sweep_blank (hne : kept ≠ []) (hopen : lines.head?.any isOpen = true) :
    sweep isOpen isClose blank (blank :: kept) inside lines =
      sweep isOpen isClose blank kept inside lines := by
  cases lines with
  | nil => cases hopen
  | cons m lines =>
    have hm : isOpen m = true := by simpa using hopen
    rw [sweep, sweep, if_pos hm, if_pos hm, popBlank_cons_blank hne]

/-- From a kept list that cannot be popped, the sweep adds no more than what lies outside. -/
theorem sweep_append (hne : kept ≠ []) (hstuck : popBlank blank kept = kept) (top : List α) :
    ∃ added, sweep isOpen isClose blank (top ++ kept) inside lines = added ++ kept ∧
      added.length ≤ top.length + (apart isOpen isClose blank inside lines).length := by
  induction lines generalizing inside top with
  | nil => exact ⟨top, rfl, by simp [apart]⟩
  | cons l lines ih =>
    have hmore : top ++ kept ≠ [] := by simp [hne]
    rw [sweep, apart]
    split_ifs with hopen hin hblank
    · obtain ⟨left, hleft, hlen⟩ := popBlank_append hne hstuck top
      rw [hleft]
      obtain ⟨added, hadded, hbound⟩ := ih left
      exact ⟨added, hadded, by omega⟩
    · exact ih top
    · rw [hblank.1, sweep_blank hmore hblank.2]
      exact ih top
    · obtain ⟨added, hadded, hbound⟩ := ih (l :: top)
      refine ⟨added, hadded, ?_⟩
      rw [List.length_cons] at hbound ⊢
      omega

theorem sublist_dropWhile_blank (h : (a :: outer).Sublist kept) (ha : a ≠ blank) :
    (a :: outer).Sublist (kept.dropWhile (· = blank)) := by
  induction kept with
  | nil => exact h
  | cons b kept ih =>
    by_cases hb : b = blank
    · rw [List.dropWhile_cons_of_pos (by simpa using hb)]
      cases h with
      | cons _ h => exact ih h
      | cons_cons _ h => exact absurd hb ha
    · rw [List.dropWhile_cons_of_neg (by simpa using hb)]
      exact h

/-- What ends well is kept through a pop. -/
theorem sublist_popBlank (h : outer.Sublist kept)
    (hcount : outer.countP (· ≠ blank) = kept.countP (· ≠ blank))
    (hwell : outer.head? ≠ some blank ∨ outer = [blank]) :
    outer.Sublist (popBlank blank kept) := by
  cases outer with
  | nil => exact List.nil_sublist _
  | cons a outer =>
    by_cases ha : a = blank
    · subst ha
      have honly : outer = [] := by
        rcases hwell with hhead | hone
        · exact absurd rfl hhead
        · exact (List.cons.inj hone).2
      subst honly
      have hne : kept ≠ [] := by
        rintro rfl
        cases h
      obtain ⟨b, hb⟩ := List.exists_mem_of_ne_nil _ (popBlank_ne_nil a hne)
      have hnone : kept.countP (· ≠ a) = 0 := by
        rw [← hcount]
        simp
      have hblank : b = a := by
        simpa using List.countP_eq_zero.mp hnone b (mem_of_mem_popBlank hb)
      rw [hblank] at hb
      exact List.singleton_sublist.mpr hb
    · have hdrop := sublist_dropWhile_blank h ha
      rcases popBlank_eq blank kept with heq | heq
      · rw [heq]
        exact hdrop
      · have hnone := countP_popBlank blank kept
        have hone : [blank].countP (· ≠ blank) = 0 := by simp
        have hmore : (a :: outer).countP (· ≠ blank) = outer.countP (· ≠ blank) + 1 :=
          List.countP_cons_of_pos (decide_eq_true ha)
        rw [heq] at hnone
        omega

omit [DecidableEq α] in
theorem prefix_snoc_cons {start : List α} {mark : α} :
    start ++ [mark] <+: l :: lines ↔
      start = [] ∧ mark = l ∨ ∃ start', start = l :: start' ∧ start' ++ [mark] <+: lines := by
  cases start with
  | nil => simp [List.cons_prefix_cons]
  | cons b start =>
    rw [List.cons_append, List.cons_prefix_cons]
    constructor
    · rintro ⟨rfl, h⟩
      exact .inr ⟨start, rfl, h⟩
    · rintro (⟨h, -⟩ | ⟨start', h, hprefix⟩)
      · cases h
      · cases h
        exact ⟨rfl, hprefix⟩

omit [DecidableEq α] in
theorem head?_of_prefix_snoc {start : List α} {mark : α} (h : start ++ [mark] <+: lines) :
    (start ++ [mark]).head? = lines.head? := by
  obtain ⟨rest, rfl⟩ := h
  cases start <;> rfl

/-- The spacing of a list, by its first line and the rest. -/
theorem wellSpaced_cons {before now : List α} {inside' : Bool}
    (hstep : ∀ start mark, start ++ [mark] <+: lines →
      before ++ apart isOpen isClose blank inside (l :: (start ++ [mark])) =
        now ++ apart isOpen isClose blank inside' (start ++ [mark])) :
    WellSpaced isOpen isClose blank inside before (l :: lines) ↔
      (isOpen l = true → EndsWell blank before) ∧
        WellSpaced isOpen isClose blank inside' now lines := by
  have hfirst : isOpen l = true → apart isOpen isClose blank inside [l] = [] := by
    intro hopen
    rw [apart, if_pos hopen, apart]
  constructor
  · intro h
    constructor
    · intro hopen
      have hwell := h [] l (prefix_snoc_cons.mpr (.inl ⟨rfl, rfl⟩)) hopen
      rw [List.nil_append, hfirst hopen, List.append_nil] at hwell
      exact hwell
    · intro start mark hprefix hopen
      rw [← hstep start mark hprefix]
      exact h (l :: start) mark (prefix_snoc_cons.mpr (.inr ⟨start, rfl, hprefix⟩)) hopen
  · rintro ⟨hwell, hrest⟩ start mark hprefix hopen
    rcases prefix_snoc_cons.mp hprefix with ⟨rfl, rfl⟩ | ⟨start', rfl, hprefix'⟩
    · rw [List.nil_append, hfirst hopen, List.append_nil]
      exact hwell hopen
    · rw [List.cons_append, hstep start' mark hprefix']
      exact hrest start' mark hprefix' hopen

/-! What a line asks of the spacing, by what the line is. -/

theorem wellSpaced_open {before : List α} (hopen : isOpen l = true) :
    WellSpaced isOpen isClose blank inside before (l :: lines) ↔
      EndsWell blank before ∧ WellSpaced isOpen isClose blank true before lines := by
  have hstep : ∀ start mark, start ++ [mark] <+: lines →
      before ++ apart isOpen isClose blank inside (l :: (start ++ [mark])) =
        before ++ apart isOpen isClose blank true (start ++ [mark]) := by
    intro start mark _
    rw [apart, if_pos hopen]
  rw [wellSpaced_cons hstep, forall_prop_of_true hopen]

theorem wellSpaced_inside {before : List α} (hopen : ¬ isOpen l = true) :
    WellSpaced isOpen isClose blank true before (l :: lines) ↔
      WellSpaced isOpen isClose blank (!isClose l) before lines := by
  have hstep : ∀ start mark, start ++ [mark] <+: lines →
      before ++ apart isOpen isClose blank true (l :: (start ++ [mark])) =
        before ++ apart isOpen isClose blank (!isClose l) (start ++ [mark]) := by
    intro start mark _
    rw [apart, if_neg hopen, if_pos rfl]
  rw [wellSpaced_cons hstep]
  exact and_iff_right fun h => absurd h hopen

theorem wellSpaced_blank {before : List α} (hopen : ¬ isOpen l = true)
    (hblank : l = blank ∧ lines.head?.any isOpen = true) :
    WellSpaced isOpen isClose blank false before (l :: lines) ↔
      WellSpaced isOpen isClose blank false before lines := by
  have hstep : ∀ start mark, start ++ [mark] <+: lines →
      before ++ apart isOpen isClose blank false (l :: (start ++ [mark])) =
        before ++ apart isOpen isClose blank false (start ++ [mark]) := by
    intro start mark hprefix
    have hnext : (start ++ [mark]).head?.any isOpen = true := by
      rw [head?_of_prefix_snoc hprefix]
      exact hblank.2
    rw [apart, if_neg hopen, if_neg Bool.false_ne_true, if_pos ⟨hblank.1, hnext⟩]
  rw [wellSpaced_cons hstep]
  exact and_iff_right fun h => absurd h hopen

theorem wellSpaced_line {before : List α} (hopen : ¬ isOpen l = true)
    (hblank : ¬ (l = blank ∧ lines.head?.any isOpen = true)) :
    WellSpaced isOpen isClose blank false before (l :: lines) ↔
      WellSpaced isOpen isClose blank false (before ++ [l]) lines := by
  have hstep : ∀ start mark, start ++ [mark] <+: lines →
      before ++ apart isOpen isClose blank false (l :: (start ++ [mark])) =
        (before ++ [l]) ++ apart isOpen isClose blank false (start ++ [mark]) := by
    intro start mark hprefix
    have hnext : ¬ (l = blank ∧ (start ++ [mark]).head?.any isOpen = true) := by
      rw [head?_of_prefix_snoc hprefix]
      exact hblank
    rw [apart, if_neg hopen, if_neg Bool.false_ne_true, if_neg hnext, List.append_assoc]
    rfl
  rw [wellSpaced_cons hstep]
  exact and_iff_right fun h => absurd h hopen

/-- Too many blank lines before a pop do not all fit under what is left of them. -/
theorem not_sublist_popBlank (hcount : outer.countP (· ≠ blank) = kept.countP (· ≠ blank))
    (hhead : outer.head? = some blank) (hmore : outer ≠ [blank]) :
    ¬ outer.Sublist (popBlank blank kept) := by
  obtain ⟨rest, rfl⟩ := List.head?_eq_some_iff.mp hhead
  intro h
  have hsame := hcount.trans (countP_popBlank blank kept).symm
  rcases popBlank_eq blank kept with heq | heq
  · rw [heq] at h hsame
    cases hdrop : kept.dropWhile (· = blank) with
    | nil =>
      rw [hdrop] at h
      cases h
    | cons y left =>
      have hy : y ≠ blank := by
        have hfirst := List.head_dropWhile_not (· = blank) (l := kept) (by simp [hdrop])
        simpa [hdrop] using hfirst
      rw [hdrop] at h hsame
      rw [List.countP_cons_of_pos (l := left) (decide_eq_true hy)] at hsame
      cases h with
      | cons _ h =>
        have hle := h.countP_le (p := (· ≠ blank))
        omega
      | cons_cons _ h => exact hy rfl
  · rw [heq] at h
    cases h with
    | cons _ h => cases h
    | cons_cons _ h => exact hmore (by rw [List.sublist_nil.mp h])

/-- What does not end well at an opening is not all kept, whatever follows. -/
theorem not_sublist_of_not_endsWell (hkept : outer.Sublist kept)
    (hcount : outer.countP (· ≠ blank) = kept.countP (· ≠ blank))
    (hhead : outer.head? = some blank) (hmore : outer ≠ [blank]) :
    ¬ ((apart isOpen isClose blank true lines).reverse ++ outer).Sublist
      (sweep isOpen isClose blank (popBlank blank kept) true lines) := by
  have hne : kept ≠ [] := by
    rintro rfl
    rw [List.sublist_nil.mp hkept] at hhead
    cases hhead
  obtain ⟨added, hadded, hbound⟩ : ∃ added, sweep isOpen isClose blank
      ([] ++ popBlank blank kept) true lines = added ++ popBlank blank kept ∧
      added.length ≤ ([] : List α).length + (apart isOpen isClose blank true lines).length :=
    sweep_append (popBlank_ne_nil blank hne) (popBlank_popBlank kept) []
  rw [List.nil_append] at hadded
  rw [hadded]
  intro h
  apply not_sublist_popBlank hcount hhead hmore
  -- the lines after the opening fill what was added, and leave the kept ones for the rest
  obtain ⟨above, below, hsplit, habove, hbelow⟩ := List.append_sublist_iff.mp h
  have hlen := habove.length_le
  rw [List.length_reverse] at hlen
  rw [List.length_nil] at hbound
  rcases List.append_eq_append_iff.mp hsplit with ⟨extra, -, hpop⟩ | ⟨extra, hshort, hlong⟩
  · rw [hpop]
    exact hbelow.trans (List.sublist_append_right extra below)
  · have hnone : extra = [] := by
      have hsum : added.length = above.length + extra.length := by
        rw [hshort, List.length_append]
      apply List.eq_nil_of_length_eq_zero
      omega
    rw [hlong, hnone] at hbelow
    exact hbelow

omit [DecidableEq α] in
theorem endsWell_reverse (outer : List α) :
    EndsWell blank outer.reverse ↔ outer.head? ≠ some blank ∨ outer = [blank] := by
  unfold EndsWell
  rw [List.getLast?_reverse, List.reverse_eq_iff, List.reverse_singleton]

/-- The sweep keeps what is outside of the regions when that ends well at every opening. -/
theorem sublist_sweep_iff (hkept : outer.Sublist kept)
    (hcount : outer.countP (· ≠ blank) = kept.countP (· ≠ blank)) :
    ((apart isOpen isClose blank inside lines).reverse ++ outer).Sublist
        (sweep isOpen isClose blank kept inside lines) ↔
      WellSpaced isOpen isClose blank inside outer.reverse lines := by
  induction lines generalizing kept outer inside with
  | nil =>
    constructor
    · intro _ start mark hprefix
      have hnil := List.prefix_nil.mp hprefix
      simp at hnil
    · intro _
      exact hkept
  | cons l lines ih =>
    by_cases hopen : isOpen l = true
    · rw [wellSpaced_open hopen, sweep, apart, if_pos hopen, if_pos hopen, endsWell_reverse]
      by_cases hwell : outer.head? ≠ some blank ∨ outer = [blank]
      · have hpop : outer.countP (· ≠ blank) = (popBlank blank kept).countP (· ≠ blank) := by
          rw [countP_popBlank, hcount]
        rw [ih (sublist_popBlank hkept hcount hwell) hpop]
        exact (and_iff_right hwell).symm
      · constructor
        · intro h
          rw [not_or, not_not] at hwell
          exact absurd h (not_sublist_of_not_endsWell hkept hcount hwell.1 hwell.2)
        · intro h
          exact absurd h.1 hwell
    · rw [sweep, apart, if_neg hopen, if_neg hopen]
      cases inside with
      | true => rw [wellSpaced_inside hopen, if_pos rfl, if_pos rfl, ih hkept hcount]
      | false =>
        rw [if_neg Bool.false_ne_true, if_neg Bool.false_ne_true]
        by_cases hblank : l = blank ∧ lines.head?.any isOpen = true
        · have hmore : outer.countP (· ≠ blank) = (l :: kept).countP (· ≠ blank) := by
            rw [List.countP_cons_of_neg (l := kept) (by simp [hblank.1]), hcount]
          rw [wellSpaced_blank hopen hblank, if_pos hblank, ih (hkept.cons l) hmore]
        · have hmore : (l :: outer).countP (· ≠ blank) = (l :: kept).countP (· ≠ blank) := by
            rw [List.countP_cons, List.countP_cons, hcount]
          have hrest : ((apart isOpen isClose blank false lines).reverse ++ l :: outer).Sublist
              (sweep isOpen isClose blank (l :: kept) false lines) ↔
                WellSpaced isOpen isClose blank false (l :: outer).reverse lines :=
            ih (hkept.cons_cons l) hmore
          rw [wellSpaced_line hopen hblank, if_neg hblank, List.reverse_cons, List.append_assoc,
            ← List.reverse_cons, ← hrest]
          rfl

/-! ### Lists without regions -/

theorem sweep_of_not_open {start : List α} (h : ∀ l ∈ start, isOpen l = false)
    (kept lines : List α) :
    sweep isOpen isClose blank kept false (start ++ lines) =
      sweep isOpen isClose blank (start.reverse ++ kept) false lines := by
  induction start generalizing kept with
  | nil => rfl
  | cons l start ih =>
    have hl : ¬ isOpen l = true := by simp [h l List.mem_cons_self]
    rw [List.cons_append, sweep, if_neg hl, if_neg Bool.false_ne_true,
      ih fun l' hl' => h l' (List.mem_cons_of_mem l hl'), List.reverse_cons, List.append_assoc]
    rfl

theorem sweep_inside {start : List α} (hopen : ∀ l ∈ start, isOpen l = false)
    (hclose : ∀ l ∈ start, isClose l = false) (kept lines : List α) :
    sweep isOpen isClose blank kept true (start ++ lines) =
      sweep isOpen isClose blank kept true lines := by
  induction start with
  | nil => rfl
  | cons l start ih =>
    have hl : ¬ isOpen l = true := by simp [hopen l List.mem_cons_self]
    rw [List.cons_append, sweep, if_neg hl, if_pos rfl, hclose l List.mem_cons_self]
    exact ih (fun l' hl' => hopen l' (List.mem_cons_of_mem l hl'))
      fun l' hl' => hclose l' (List.mem_cons_of_mem l hl')

/-- One region at the end goes, with the blank lines before it. -/
theorem sweep_region {start body : List α} {mark close : α}
    (hstart : ∀ l ∈ start, isOpen l = false) (hmark : isOpen mark = true)
    (hopen : ∀ l ∈ body, isOpen l = false) (hclose : ∀ l ∈ body, isClose l = false)
    (hend : isOpen close = false) :
    sweep isOpen isClose blank [] false (start ++ mark :: (body ++ [close])) =
      popBlank blank start.reverse := by
  rw [sweep_of_not_open hstart, List.append_nil, sweep, if_pos hmark, sweep_inside hopen hclose,
    sweep, if_neg (by simp [hend]), if_pos rfl, sweep]

section
variable {start stop : α → Bool}

omit [DecidableEq α] in
theorem deleteRanges_of_not_start (h : ∀ l ∈ lines, start l = false) (rest : List α) :
    deleteRanges start stop false (lines ++ rest) =
      lines ++ deleteRanges start stop false rest := by
  induction lines with
  | nil => rfl
  | cons l lines ih =>
    rw [List.cons_append, deleteRanges, h l List.mem_cons_self, if_neg Bool.false_ne_true,
      ih fun l' hl' => h l' (List.mem_cons_of_mem l hl')]
    rfl

omit [DecidableEq α] in
theorem deleteRanges_inside {close : α} (h : ∀ l ∈ lines, stop l = false)
    (hclose : stop close = true) (rest : List α) :
    deleteRanges start stop true (lines ++ close :: rest) = deleteRanges start stop false rest := by
  induction lines with
  | nil => rw [List.nil_append, deleteRanges, hclose, Bool.not_true]
  | cons l lines ih =>
    rw [List.cons_append, deleteRanges, h l List.mem_cons_self]
    exact ih fun l' hl' => h l' (List.mem_cons_of_mem l hl')

omit [DecidableEq α] in
/-- The one range of a list is deleted, and nothing else. -/
theorem deleteRanges_range {before body after : List α} {mark close : α}
    (hbefore : ∀ l ∈ before, start l = false) (hmark : start mark = true)
    (hbody : ∀ l ∈ body, stop l = false) (hclose : stop close = true)
    (hafter : ∀ l ∈ after, start l = false) :
    deleteRanges start stop false (before ++ mark :: (body ++ close :: after)) =
      before ++ after := by
  have hrest : deleteRanges start stop false (after ++ []) =
      after ++ deleteRanges start stop false [] := deleteRanges_of_not_start hafter []
  rw [List.append_nil, deleteRanges, List.append_nil] at hrest
  rw [deleteRanges_of_not_start hbefore, deleteRanges, if_pos hmark,
    deleteRanges_inside hbody hclose, hrest]

end

/-- A line that is not blank is swept together when it is outside. -/
theorem mem_sweep_iff (ha : a ≠ blank) :
    a ∈ sweep isOpen isClose blank kept inside lines ↔
      a ∈ apart isOpen isClose blank inside lines ∨ a ∈ kept := by
  induction lines generalizing kept inside with
  | nil => simp [sweep, apart]
  | cons l lines ih =>
    rw [sweep, apart]
    split_ifs with hopen hin hblank
    · rw [ih, mem_popBlank_iff ha]
    · exact ih
    · rw [ih, List.mem_cons, hblank.1]
      simp [ha]
    · rw [ih, List.mem_cons, List.mem_cons]
      tauto

theorem forall_mem_sweep {p : α → Prop} (hkept : ∀ l ∈ kept, p l)
    (hlines : ∀ l ∈ lines, isOpen l = false → p l) :
    ∀ l ∈ sweep isOpen isClose blank kept inside lines, p l := by
  induction lines generalizing kept inside with
  | nil => exact hkept
  | cons l lines ih =>
    have hrest : ∀ l' ∈ lines, isOpen l' = false → p l' := fun l' hl' =>
      hlines l' (List.mem_cons_of_mem l hl')
    rw [sweep]
    split_ifs with hopen hin
    · exact ih (fun l' hl' => hkept l' (mem_of_mem_popBlank hl')) hrest
    · exact ih hkept hrest
    · refine ih ?_ hrest
      intro l' hl'
      rcases List.mem_cons.mp hl' with rfl | hl'
      · exact hlines l' List.mem_cons_self (by simpa using hopen)
      · exact hkept l' hl'

end Kuma.Lib.Marked
