import Kuma.Lib.Marked
import Kuma.Lib.Text

/-! The block that turning hibernate on appends to `/etc/fstab`, and the removal that turning it
off makes of the whole file, line by line. -/
namespace Kuma.Hibernate
open Kuma.Lib Kuma.Lib.Text Kuma.Lib.Marked

def SUBVOL : String := "swap"
def MOUNT : String := "/var/swap"
def FILE : String := "/var/swap/swapfile"
def PRIORITY : Int := -2

def FSTAB_OPEN : List Char := "# >>> kuma hibernate >>>".toList
def FSTAB_CLOSE : List Char := "# <<< kuma hibernate <<<".toList

/-- A filesystem's uuid, one word of `blkid`'s. -/
structure FsUuid where
  text : List Char
  oneLine : '\n' ∉ text

/-- The lines between the markers. -/
def fstabBody (fsUuid : FsUuid) : List (List Char) :=
  ["# The swapfile this machine hibernates into. The kernel finds it".toList,
    "# at resume through the resume= and resume_offset= kernel".toList,
    "# arguments, not through these lines; these are what make it swap".toList,
    "# once the system is up, which is what hibernating into it needs.".toList,
    "UUID=".toList ++ fsUuid.text ++ s!" {MOUNT} btrfs subvol={SUBVOL}".toList ++
      ",noatime,nodatacow,x-systemd.device-timeout=0 0 0".toList,
    s!"{FILE} none swap pri={PRIORITY},x-systemd.requires-mounts-for={MOUNT} 0 0".toList]

def fstabLines (fsUuid : FsUuid) : List Char :=
  '\n' :: ofLines (FSTAB_OPEN :: (fstabBody fsUuid ++ [FSTAB_CLOSE]))

/-- `while out.ends_with("\n\n") { out.pop(); }`, over the reversed text. -/
def popEnd : List Char → List Char
  | '\n' :: '\n' :: rest => popEnd ('\n' :: rest)
  | out => out

def popNewlines (out : List Char) : List Char := (popEnd out.reverse).reverse

/-- What `strip_fstab` has written, and whether it is in a block. -/
structure Strip where
  out : List Char
  inside : Bool

def isOpen (line : List Char) : Bool := trim line == FSTAB_OPEN
def isClose (line : List Char) : Bool := trim line == FSTAB_CLOSE

def stripStep (strip : Strip) (line : List Char) : Strip :=
  if isOpen line then ⟨popNewlines strip.out, true⟩
  else if strip.inside then ⟨strip.out, !isClose line⟩
  else ⟨strip.out ++ line ++ ['\n'], false⟩

def stripFstab (text : List Char) : List Char :=
  ((lines text).foldl stripStep ⟨[], false⟩).out

/-- Hibernate turned on and off again, once for each uuid. -/
def cycles (text : List Char) (uuids : List FsUuid) : List Char :=
  uuids.foldl (fun text fsUuid => stripFstab (text ++ fstabLines fsUuid)) text

variable {text out line : List Char} {fsUuid : FsUuid} {kept : List (List Char)}

/-! ### The removal, line by line -/

theorem popEnd_of_head (h : ∀ rest, out ≠ '\n' :: '\n' :: rest) : popEnd out = out := by
  unfold popEnd
  split
  · rename_i rest
    exact absurd rfl (h rest)
  · rfl

theorem length_popEnd_le (out : List Char) : (popEnd out).length ≤ out.length := by
  fun_induction popEnd out with
  | case1 rest ih => exact ih.trans (Nat.le_succ _)
  | case2 out h => exact le_refl _

theorem popEnd_eq_self_iff : popEnd out = out ↔ ∀ rest, out ≠ '\n' :: '\n' :: rest := by
  constructor
  · rintro h rest rfl
    have hshort := length_popEnd_le ('\n' :: rest)
    rw [popEnd] at h
    rw [h] at hshort
    simp only [List.length_cons] at hshort
    omega
  · exact popEnd_of_head

theorem popNewlines_eq_self_iff : popNewlines out = out ↔ ¬ ['\n', '\n'] <:+ out := by
  unfold popNewlines
  rw [List.reverse_eq_iff, popEnd_eq_self_iff, ← List.reverse_prefix]
  constructor
  · rintro h ⟨rest, hrest⟩
    exact h rest hrest.symm
  · intro h rest hrest
    exact h ⟨rest, hrest.symm⟩

/-- The text that lines, newest first, leave reversed. -/
theorem reverse_ofLines_cons (line : List Char) (kept : List (List Char)) :
    (ofLines (line :: kept).reverse).reverse =
      '\n' :: (line.reverse ++ (ofLines kept.reverse).reverse) := by
  rw [List.reverse_cons, ofLines_append, List.reverse_append]
  unfold ofLines
  simp

/-- Popping newlines off the text is popping blank lines off the kept ones. -/
theorem popNewlines_ofLines (h : ∀ line ∈ kept, '\n' ∉ line) :
    popNewlines (ofLines kept.reverse) = ofLines (popBlank [] kept).reverse := by
  unfold popNewlines
  rw [List.reverse_eq_iff]
  induction kept with
  | nil => rfl
  | cons line kept ih =>
    rw [reverse_ofLines_cons]
    by_cases hline : line = []
    · subst hline
      cases kept with
      | nil => rfl
      | cons next kept =>
        have hrest := ih fun l hl => h l (List.mem_cons_of_mem _ hl)
        rw [reverse_ofLines_cons] at hrest
        rw [popBlank_cons_blank (List.cons_ne_nil next kept), reverse_ofLines_cons, ← hrest]
        rfl
    · obtain ⟨c, cs, hrev⟩ := List.exists_cons_of_ne_nil
        (mt List.reverse_eq_nil_iff.mp hline)
      have hc : c ≠ '\n' := by
        rintro rfl
        apply h line List.mem_cons_self
        rw [← List.mem_reverse, hrev]
        exact List.mem_cons_self
      rw [popBlank_of_head hline, reverse_ofLines_cons, hrev]
      apply popEnd_of_head
      intro rest hrest
      exact hc (List.cons.inj (List.cons.inj hrest).2).1

/-- The code's fold is the sweep of the lines, written out. -/
theorem foldl_stripStep (inside : Bool) (ls : List (List Char))
    (hkept : ∀ line ∈ kept, '\n' ∉ line) (hls : ∀ line ∈ ls, '\n' ∉ line) :
    (ls.foldl stripStep ⟨ofLines kept.reverse, inside⟩).out =
      ofLines (sweep isOpen isClose [] kept inside ls).reverse := by
  induction ls generalizing kept inside with
  | nil => rfl
  | cons l ls ih =>
    have hrest : ∀ line ∈ ls, '\n' ∉ line := fun line hline =>
      hls line (List.mem_cons_of_mem l hline)
    rw [List.foldl_cons, stripStep, sweep]
    split_ifs with hopen hin
    · have hpopped : ∀ line ∈ popBlank [] kept, '\n' ∉ line := fun line hline =>
        hkept line (mem_of_mem_popBlank hline)
      rw [popNewlines_ofLines hkept, ih true hpopped hrest]
    · exact ih _ hkept hrest
    · have hnew : ∀ line ∈ l :: kept, '\n' ∉ line := by
        intro line hline
        rcases List.mem_cons.mp hline with rfl | hline
        · exact hls _ List.mem_cons_self
        · exact hkept line hline
      have hout : ofLines kept.reverse ++ l ++ ['\n'] = ofLines (l :: kept).reverse := by
        rw [List.reverse_cons, ofLines_append, List.append_assoc]
        unfold ofLines
        simp
      rw [hout, ih false hnew hrest]

/-- The lines that the removal keeps. -/
def stripped (text : List Char) : List (List Char) :=
  (sweep isOpen isClose [] [] false (lines text)).reverse

theorem stripFstab_eq (text : List Char) : stripFstab text = ofLines (stripped text) := by
  have hnone : ∀ line ∈ ([] : List (List Char)), '\n' ∉ line := by
    intro line hline
    cases hline
  exact foldl_stripStep false (lines text) hnone fun _ => newline_notMem_lines

theorem newline_notMem_stripped (h : line ∈ stripped text) : '\n' ∉ line :=
  forall_mem_sweep (p := ('\n' ∉ ·)) (fun _ h => absurd h List.not_mem_nil)
    (fun _ hl _ => newline_notMem_lines hl) line (List.mem_reverse.mp h)

theorem isOpen_stripped (h : line ∈ stripped text) : isOpen line = false :=
  forall_mem_sweep (p := (isOpen · = false)) (fun _ h => absurd h List.not_mem_nil)
    (fun _ _ h => h) line (List.mem_reverse.mp h)

theorem isOpen_dropReturn (line : List Char) : isOpen (dropReturn line) = isOpen line := by
  unfold isOpen
  rw [trim_dropReturn]

theorem isClose_dropReturn (line : List Char) : isClose (dropReturn line) = isClose line := by
  unfold isClose
  rw [trim_dropReturn]

/-! ### On and off again -/

/-- No line of the text is one of kuma's markers. -/
def NoMarkers (text : List Char) : Prop :=
  ∀ line ∈ split '\n' text, isOpen line = false ∧ isClose line = false

/-- The text ends in one newline and no more, and none of its lines ends in a carriage
return. -/
structure Restorable (text : List Char) : Prop where
  newline : text.getLast? = some '\n'
  noBlankLine : ¬ ['\n', '\n'] <:+ text
  noReturn : ∀ line ∈ split '\n' text, line.getLast? ≠ some '\r'

/-- What stands between the markers is neither of them. -/
theorem no_marker_fstabBody (h : line ∈ fstabBody fsUuid) :
    isOpen line = false ∧ isClose line = false := by
  have hletter : ∀ rest : List Char, isOpen ('U' :: rest) = false ∧
      isClose ('U' :: rest) = false := by
    intro rest
    have htrim : trim ('U' :: rest) = trimEnd ('U' :: rest) := trim_cons rfl
    have hhead : ∀ marker, trim ('U' :: rest) ≠ '#' :: marker := by
      intro marker heq
      have hfirst := head_trimEnd (htrim ▸ heq)
      cases hfirst
    unfold isOpen isClose
    exact ⟨beq_eq_false_iff_ne.mpr (hhead _), beq_eq_false_iff_ne.mpr (hhead _)⟩
  revert line
  unfold fstabBody
  simp only [List.forall_mem_cons]
  refine ⟨?_, ?_, ?_, ?_, hletter _, ?_, fun _ h => absurd h List.not_mem_nil⟩
  · rw [String.toList_ofList]
    decide
  · rw [String.toList_ofList]
    decide
  · rw [String.toList_ofList]
    decide
  · rw [String.toList_ofList]
    decide
  · decide

theorem newline_notMem_fstabBody (h : line ∈ fstabBody fsUuid) : '\n' ∉ line := by
  revert line
  unfold fstabBody
  simp only [List.forall_mem_cons, List.mem_append, not_or]
  refine ⟨?_, ?_, ?_, ?_, ⟨⟨⟨?_, fsUuid.oneLine⟩, ?_⟩, ?_⟩, ?_,
    fun _ h => absurd h List.not_mem_nil⟩
  · rw [String.toList_ofList]
    decide
  · rw [String.toList_ofList]
    decide
  · rw [String.toList_ofList]
    decide
  · rw [String.toList_ofList]
    decide
  · decide
  · decide
  · rw [String.toList_ofList]
    decide
  · decide

theorem newline_notMem_fstabBlock (fsUuid : FsUuid) {line : List Char}
    (h : line ∈ FSTAB_OPEN :: (fstabBody fsUuid ++ [FSTAB_CLOSE])) : '\n' ∉ line := by
  rcases List.mem_cons.mp h with rfl | h
  · decide
  · rcases List.mem_append.mp h with h | h
    · exact newline_notMem_fstabBody h
    · rw [List.mem_singleton.mp h]
      decide

/-- The lines of a text with the block after it: those of the text, ended by the block's own
first newline, and the block's. -/
theorem lines_append_fstabLines (text : List Char) (fsUuid : FsUuid) :
    lines (text ++ fstabLines fsUuid) = (split '\n' text).map dropReturn ++
      (FSTAB_OPEN :: (fstabBody fsUuid ++ [FSTAB_CLOSE])).map dropReturn := by
  have hpieces : ∀ line ∈ split '\n' text, '\n' ∉ line := fun _ => notMem_split
  have hblock := lines_ofLines_append (fun _ => newline_notMem_fstabBlock fsUuid) []
  have htext := lines_ofLines_append hpieces
    (ofLines (FSTAB_OPEN :: (fstabBody fsUuid ++ [FSTAB_CLOSE])))
  rw [List.append_nil] at hblock
  rw [ofLines_split, hblock, List.append_assoc] at htext
  rw [show lines ([] : List Char) = [] from rfl, List.append_nil] at htext
  exact htext

theorem stripFstab_append (h : NoMarkers text) (fsUuid : FsUuid) :
    stripFstab (text ++ fstabLines fsUuid) =
      ofLines (popBlank [] ((split '\n' text).map dropReturn).reverse).reverse := by
  rw [stripFstab_eq, stripped, lines_append_fstabLines, List.map_cons, List.map_append,
    List.map_singleton, sweep_region]
  · intro line hline
    obtain ⟨piece, hpiece, rfl⟩ := List.mem_map.mp hline
    rw [isOpen_dropReturn]
    exact (h piece hpiece).1
  · decide
  · intro line hline
    obtain ⟨piece, hpiece, rfl⟩ := List.mem_map.mp hline
    rw [isOpen_dropReturn]
    exact (no_marker_fstabBody hpiece).1
  · intro line hline
    obtain ⟨piece, hpiece, rfl⟩ := List.mem_map.mp hline
    rw [isClose_dropReturn]
    exact (no_marker_fstabBody hpiece).2
  · decide

theorem dropReturn_eq_self_iff : dropReturn line = line ↔ line.getLast? ≠ some '\r' := by
  unfold dropReturn
  split_ifs with hlast
  · constructor
    · intro hsame
      have hlen := congrArg List.length hsame
      rw [List.length_dropLast] at hlen
      have hpos : 0 < line.length := by
        apply List.length_pos_of_ne_nil
        rintro rfl
        cases hlast
      omega
    · intro h
      exact absurd hlast h
  · exact ⟨fun _ => hlast, fun _ => rfl⟩

theorem map_dropReturn_eq_self_iff :
    kept.map dropReturn = kept ↔ ∀ line ∈ kept, line.getLast? ≠ some '\r' := by
  have hid : kept.map dropReturn = kept.map id ↔ ∀ line ∈ kept, dropReturn line = id line :=
    List.map_eq_map_iff
  rw [List.map_id] at hid
  rw [hid]
  exact forall₂_congr fun _ _ => dropReturn_eq_self_iff

/-- The text is written in lines of its own when it ends in a newline. -/
theorem ofLines_of_split {ls : List (List Char)} (h : split '\n' text = ls ++ [[]]) :
    ofLines ls = text := by
  have htext := ofLines_split text
  rw [h, ofLines_append] at htext
  exact List.append_cancel_right htext

theorem split_of_getLast? (h : text.getLast? = some '\n') :
    ∃ ls, ls ≠ [] ∧ split '\n' text = ls ++ [[]] := by
  obtain ⟨start, rfl⟩ := List.getLast?_eq_some_iff.mp h
  refine ⟨split '\n' start, split_ne_nil '\n' start, ?_⟩
  rw [← ofLines_split]
  exact split_ofLines fun _ => notMem_split

theorem getLast?_ofLines (h : kept ≠ []) : (ofLines kept).getLast? = some '\n' := by
  rw [← List.dropLast_concat_getLast h, ofLines_append]
  unfold ofLines
  simp

/-- The lines that are left of a text with the block after it. -/
def left (text : List Char) : List (List Char) :=
  (popBlank [] ((split '\n' text).map dropReturn).reverse).reverse

theorem newline_notMem_left (h : line ∈ left text) : '\n' ∉ line := by
  have hmem := mem_of_mem_popBlank (List.mem_reverse.mp h)
  obtain ⟨piece, hpiece, rfl⟩ := List.mem_map.mp (List.mem_reverse.mp hmem)
  exact fun hnewline => notMem_split hpiece (mem_of_mem_dropReturn hnewline)

theorem left_ne_nil (text : List Char) : left text ≠ [] := by
  have hpieces : ((split '\n' text).map dropReturn).reverse ≠ [] := by
    simp [split_ne_nil]
  simpa [left] using popBlank_ne_nil [] hpieces

/-- A text of lines, less the empty piece after its last newline, has its blank lines popped. -/
theorem reverse_left {ls : List (List Char)} (hne : ls ≠ []) (h : split '\n' text = ls ++ [[]]) :
    (left text).reverse = popBlank [] (ls.map dropReturn).reverse := by
  have hmore : (ls.map dropReturn).reverse ≠ [] := by simpa using hne
  unfold left
  rw [List.reverse_reverse, h, List.map_append, List.reverse_append]
  exact popBlank_cons_blank hmore

/-- What is left is the text itself: its lines have no returns and no blank line at the end. -/
theorem restorable_of_left (h : ofLines (left text) = text) : Restorable text := by
  have hsplit : split '\n' text = left text ++ [[]] := by
    have hpieces := split_ofLines fun line (hline : line ∈ left text) => newline_notMem_left hline
    rw [h] at hpieces
    exact hpieces
  have hpop := reverse_left (left_ne_nil text) hsplit
  have hsame : (left text).map dropReturn = left text := by
    have hlen : (popBlank [] ((left text).map dropReturn).reverse).length =
        ((left text).map dropReturn).reverse.length := by
      rw [← hpop]
      simp
    have hstay := (popBlank_suffix ((left text).map dropReturn).reverse).eq_of_length hlen
    exact List.reverse_injective (hstay.symm.trans hpop.symm)
  constructor
  · rw [← h]
    exact getLast?_ofLines (left_ne_nil text)
  · rw [hsame] at hpop
    have hnewline : ∀ line ∈ (left text).reverse, '\n' ∉ line := fun line hline =>
      newline_notMem_left (List.mem_reverse.mp hline)
    have hwritten := popNewlines_ofLines hnewline
    rw [← hpop, List.reverse_reverse, h] at hwritten
    exact popNewlines_eq_self_iff.mp hwritten
  · intro line hline
    rw [hsplit] at hline
    rcases List.mem_append.mp hline with hline | hline
    · exact map_dropReturn_eq_self_iff.mp hsame line hline
    · rw [List.mem_singleton.mp hline]
      simp

theorem ofLines_left (h : Restorable text) : ofLines (left text) = text := by
  obtain ⟨ls, hne, hsplit⟩ := split_of_getLast? h.newline
  have htext := ofLines_of_split hsplit
  have hpiece : ∀ line ∈ ls, line ∈ split '\n' text := by
    intro line hline
    rw [hsplit]
    exact List.mem_append_left _ hline
  have hsame : ls.map dropReturn = ls :=
    map_dropReturn_eq_self_iff.mpr fun line hline => h.noReturn line (hpiece line hline)
  have hnewline : ∀ line ∈ ls.reverse, '\n' ∉ line := fun line hline =>
    notMem_split (hpiece line (List.mem_reverse.mp hline))
  have hwritten := popNewlines_ofLines hnewline
  have hleft := reverse_left hne hsplit
  rw [hsame] at hleft
  rw [List.reverse_reverse, htext, popNewlines_eq_self_iff.mpr h.noBlankLine, ← hleft,
    List.reverse_reverse] at hwritten
  exact hwritten.symm

/-- Turning hibernate on and off gives the text back when it ends in exactly one newline, and
no carriage return stands before one. -/
theorem stripFstab_append_eq_iff (h : NoMarkers text) (fsUuid : FsUuid) :
    stripFstab (text ++ fstabLines fsUuid) = text ↔ Restorable text := by
  rw [stripFstab_append h]
  exact ⟨restorable_of_left, ofLines_left⟩

theorem cycles_singleton (text : List Char) (fsUuid : FsUuid) :
    cycles text [fsUuid] = stripFstab (text ++ fstabLines fsUuid) := rfl

theorem cycles_eq (h : ∀ fsUuid, stripFstab (text ++ fstabLines fsUuid) = text)
    (uuids : List FsUuid) : cycles text uuids = text := by
  induction uuids with
  | nil => rfl
  | cons fsUuid uuids ih =>
    have hstep : cycles text (fsUuid :: uuids) =
        cycles (stripFstab (text ++ fstabLines fsUuid)) uuids := rfl
    rw [hstep, h fsUuid]
    exact ih

/-! ### On any text -/

theorem stripFstab_ofLines (hlines : ∀ line ∈ kept, '\n' ∉ line)
    (hopen : ∀ line ∈ kept, isOpen line = false) :
    stripFstab (ofLines kept) = ofLines (kept.map dropReturn) := by
  have hread : lines (ofLines kept) = kept.map dropReturn := lines_flatMap hlines
  have hopen' : ∀ line ∈ kept.map dropReturn, isOpen line = false := by
    intro line hline
    obtain ⟨piece, hpiece, rfl⟩ := List.mem_map.mp hline
    rw [isOpen_dropReturn]
    exact hopen piece hpiece
  have hsweep : sweep isOpen isClose [] [] false (kept.map dropReturn ++ []) =
      sweep isOpen isClose [] ((kept.map dropReturn).reverse ++ []) false [] :=
    sweep_of_not_open hopen' [] []
  rw [List.append_nil, List.append_nil] at hsweep
  rw [stripFstab_eq, stripped, hread, hsweep, sweep, List.reverse_reverse]

/-- A second removal changes nothing when no line outside the blocks is read with a carriage
return at its end. -/
theorem stripFstab_stripFstab_eq_iff (text : List Char) :
    stripFstab (stripFstab text) = stripFstab text ↔
      ∀ line ∈ apart isOpen isClose [] false (lines text), line.getLast? ≠ some '\r' := by
  have hnewline : ∀ line ∈ (stripped text).map dropReturn, '\n' ∉ line := by
    intro line hline
    obtain ⟨piece, hpiece, rfl⟩ := List.mem_map.mp hline
    exact fun hmem => newline_notMem_stripped hpiece (mem_of_mem_dropReturn hmem)
  rw [stripFstab_eq text, stripFstab_ofLines (fun _ => newline_notMem_stripped)
    (fun _ => isOpen_stripped), ofLines_inj hnewline (fun _ => newline_notMem_stripped),
    map_dropReturn_eq_self_iff]
  apply forall_congr'
  intro line
  by_cases hline : line = []
  · simp [hline]
  · have hmem : line ∈ stripped text ↔ line ∈ apart isOpen isClose [] false (lines text) := by
      unfold stripped
      rw [List.mem_reverse, mem_sweep_iff hline]
      simp
    rw [hmem]

/-- The lines outside the blocks are all kept when they end well at every opening. -/
theorem keeps_iff (text : List Char) :
    (apart isOpen isClose [] false (lines text)).Sublist
        (split '\n' (stripFstab text)).dropLast ↔
      WellSpaced isOpen isClose [] false [] (lines text) := by
  have hsweep : ((apart isOpen isClose [] false (lines text)).reverse ++ []).Sublist
      (sweep isOpen isClose [] [] false (lines text)) ↔
        WellSpaced isOpen isClose [] false [] (lines text) :=
    sublist_sweep_iff (List.Sublist.refl []) rfl
  rw [List.append_nil] at hsweep
  rw [stripFstab_eq, split_ofLines fun _ => newline_notMem_stripped, List.dropLast_concat,
    ← hsweep, ← List.reverse_sublist, stripped, List.reverse_reverse]

/-- The removal is exact on one text: it undoes the block for any uuids, it changes nothing a
second time, and it keeps every line outside the blocks. -/
structure StripExact (text : List Char) : Prop where
  restores : NoMarkers text → ∀ uuids, cycles text uuids = text
  idempotent : stripFstab (stripFstab text) = stripFstab text
  keeps : (apart isOpen isClose [] false (lines text)).Sublist
    (split '\n' (stripFstab text)).dropLast

/-- The texts on which it is. -/
structure Removable (text : List Char) : Prop where
  restorable : NoMarkers text → Restorable text
  noReturn : ∀ line ∈ apart isOpen isClose [] false (lines text), line.getLast? ≠ some '\r'
  wellSpaced : WellSpaced isOpen isClose [] false [] (lines text)

theorem strip_exact_iff (text : List Char) : StripExact text ↔ Removable text := by
  constructor
  · intro h
    constructor
    · intro hmarkers
      exact (stripFstab_append_eq_iff hmarkers ⟨[], List.not_mem_nil⟩).mp
        (h.restores hmarkers [⟨[], List.not_mem_nil⟩])
    · exact (stripFstab_stripFstab_eq_iff text).mp h.idempotent
    · exact (keeps_iff text).mp h.keeps
  · intro h
    constructor
    · intro hmarkers
      exact cycles_eq fun fsUuid =>
        (stripFstab_append_eq_iff hmarkers fsUuid).mpr (h.restorable hmarkers)
    · exact (stripFstab_stripFstab_eq_iff text).mpr h.noReturn
    · exact (keeps_iff text).mpr h.wellSpaced

/-- The blank line at the end of an fstab goes with the block. -/
theorem stripFstab_blank_line :
    stripFstab ("UUID=1 / btrfs defaults 0 0\n\n".toList ++
        fstabLines ⟨"86bf".toList, by decide⟩) = "UUID=1 / btrfs defaults 0 0\n".toList ∧
      ¬ StripExact "UUID=1 / btrfs defaults 0 0\n\n".toList := by
  have hmarkers : NoMarkers "UUID=1 / btrfs defaults 0 0\n\n".toList := by
    unfold NoMarkers
    rw [String.toList_ofList]
    decide
  have hstrip : stripFstab ("UUID=1 / btrfs defaults 0 0\n\n".toList ++
      fstabLines ⟨"86bf".toList, by decide⟩) = "UUID=1 / btrfs defaults 0 0\n".toList := by
    rw [stripFstab_append hmarkers, String.toList_ofList, String.toList_ofList]
    decide
  refine ⟨hstrip, ?_⟩
  intro h
  have hback := h.restores hmarkers [⟨"86bf".toList, by decide⟩]
  rw [cycles_singleton, hstrip] at hback
  repeat rw [String.toList_ofList] at hback
  revert hback
  decide

end Kuma.Hibernate
