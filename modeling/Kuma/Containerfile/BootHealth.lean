import Kuma.Lib.Marked
import Kuma.Lib.Text

/-! The hook that keeps a fallback counter in the bootloader's `custom.cfg` while `grub.cfg` has
none of its own: presence is a search for the marker anywhere, removal a range of lines, and
adding an append to whatever the file ends in. A character stands for a byte. -/
namespace Kuma.Containerfile.BootHealth
open Kuma.Lib Kuma.Lib.Text Kuma.Lib.Marked

def BEGIN : List Char := "# >>> kuma boot-health >>>".toList
def END : List Char := "# <<< kuma boot-health <<<".toList

/-- The lines between the markers. -/
def body : List (List Char) :=
  ["# Managed by kuma-boot-health-sync; do not edit between these markers.",
    "# Boot-counter fallback for bootloaders installed before greenboot",
    "# entered the image: decrement boot_counter each attempt, and boot the",
    "# previous deployment (menu entry 1) when it runs out. Same logic",
    "# greenboot ships for fresh installs via bootupd's static config.",
    "insmod increment",
    "# Check if boot_counter exists and boot_success=0 to activate this behavior.",
    "if [ -n \"$\x7bboot_counter\x7d\" -a \"$\x7bboot_success\x7d\" = \"0\" ]; then",
    "  # if countdown has ended, choose to boot rollback deployment,",
    "  # i.e. default=1 on OSTree-based systems.",
    "  if  [ \"$\x7bboot_counter\x7d\" = \"0\" -o \"$\x7bboot_counter\x7d\" = \"-1\" ]; then",
    "    set default=1",
    "    set boot_counter=-1",
    "  # otherwise decrement boot_counter",
    "  else",
    "    decrement boot_counter",
    "  fi",
    "  save_env boot_counter",
    "fi",
    "",
    "# Reset boot_success for current boot",
    "set boot_success=0",
    "save_env boot_success"].map String.toList

/-- What `cat` appends. -/
def BLOCK : List Char := ofLines (BEGIN :: (body ++ [END]))

/-- `grep -q boot_counter`. -/
def countsNatively (cfg : List Char) : Bool := decide ("boot_counter".toList <:+: cfg)

/-- `grep -qF "$begin"`: anywhere in a line. -/
def mentions (custom : List Char) : Bool := decide (BEGIN <:+: custom)

def isBegin (line : List Char) : Bool := BEGIN.isPrefixOf line
def isEnd (line : List Char) : Bool := END.isPrefixOf line

/-- `sed -i "\|^$begin|,\|^$end|d"`. -/
def dropBlock (custom : List Char) : List Char :=
  (deleteRanges isBegin isEnd false (segments custom)).flatten

/-- One run of `kuma-boot-health-sync`, over the two files where they exist. -/
def sync (cfg custom : Option (List Char)) : Option (List Char) :=
  match cfg with
  | none => custom
  | some cfg =>
    if countsNatively cfg then
      match custom with
      | none => none
      | some text =>
        if mentions text then
          if dropBlock text = [] then none else some (dropBlock text)
        else some text
    else
      match custom with
      | none => some BLOCK
      | some text => if mentions text then some text else some (text ++ BLOCK)

/-- The runs that a history of `grub.cfg` contents makes. -/
def runs (history : List (List Char)) (custom : Option (List Char)) : Option (List Char) :=
  history.foldl (fun custom cfg => sync (some cfg) custom) custom

/-- A file that is absent has no lines. -/
def contents (custom : Option (List Char)) : List Char := custom.getD []

/-! ### Blocks -/

/-- The lines have a marked block, with these lines around it: its begin marker is alone on its
line, and no other marker starts a line in it. -/
def BlockAt (lines before after : List (List Char)) : Prop :=
  ∃ inner close, lines = before ++ (BEGIN ++ ['\n']) :: (inner ++ close :: after) ∧
    isEnd close = true ∧ ∀ line ∈ inner, isBegin line = false ∧ isEnd line = false

/-- There is one block, and no other line starts with its begin marker. -/
def OneBlock (text : List Char) : Prop :=
  ∃ before after, BlockAt (segments text) before after ∧
    ∀ line ∈ before ++ after, isBegin line = false

def NoBlock (text : List Char) : Prop := ∀ line ∈ segments text, isBegin line = false

/-- The lines outside every block that is closed. -/
def outside : Bool → List (List Char) → List (List Char)
  | _, [] => []
  | true, line :: rest => outside (!isEnd line) rest
  | false, line :: rest =>
    if isBegin line && rest.any isEnd then outside true rest else line :: outside false rest

variable {text before after cfg a b : List Char} {custom : Option (List Char)}
  {start rest lines : List (List Char)} {line : List Char}

theorem isBegin_mark : isBegin (BEGIN ++ ['\n']) = true :=
  List.isPrefixOf_iff_prefix.mpr (List.prefix_append BEGIN _)

theorem outside_of_not_begin (h : ∀ line ∈ start, isBegin line = false) :
    outside false (start ++ rest) = start ++ outside false rest := by
  induction start with
  | nil => rfl
  | cons line start ih =>
    rw [List.cons_append, outside, h line List.mem_cons_self, Bool.false_and,
      if_neg Bool.false_ne_true, ih fun l hl => h l (List.mem_cons_of_mem line hl)]
    rfl

theorem outside_inside (h : ∀ line ∈ start, isEnd line = false) {close : List Char}
    (hclose : isEnd close = true) :
    outside true (start ++ close :: rest) = outside false rest := by
  induction start with
  | nil => rw [List.nil_append, outside, hclose, Bool.not_true]
  | cons line start ih =>
    rw [List.cons_append, outside, h line List.mem_cons_self]
    exact ih fun l hl => h l (List.mem_cons_of_mem line hl)

theorem outside_eq_self (h : ∀ line ∈ lines, isBegin line = false) :
    outside false lines = lines := by
  have hall : outside false (lines ++ []) = lines ++ outside false [] := outside_of_not_begin h
  rw [List.append_nil, outside, List.append_nil] at hall
  exact hall

/-- Around one block, the lines outside are those before it and those after it. -/
theorem BlockAt.outside_eq {before after : List (List Char)} (h : BlockAt lines before after)
    (hout : ∀ line ∈ before ++ after, isBegin line = false) :
    outside false lines = before ++ after := by
  obtain ⟨inner, close, rfl, hclose, hinner⟩ := h
  have hcloses : (inner ++ close :: after).any isEnd = true := by
    simp [hclose]
  rw [outside_of_not_begin fun line hline => hout line (List.mem_append_left _ hline),
    outside, isBegin_mark, hcloses, Bool.and_self, if_pos rfl,
    outside_inside (fun line hline => (hinner line hline).2) hclose,
    outside_eq_self fun line hline => hout line (List.mem_append_right _ hline)]

theorem BlockAt.deleteRanges_eq {before after : List (List Char)} (h : BlockAt lines before after)
    (hout : ∀ line ∈ before ++ after, isBegin line = false) :
    deleteRanges isBegin isEnd false lines = before ++ after := by
  obtain ⟨inner, close, rfl, hclose, hinner⟩ := h
  exact deleteRanges_range (fun line hline => hout line (List.mem_append_left _ hline))
    isBegin_mark (fun line hline => (hinner line hline).2) hclose
    fun line hline => hout line (List.mem_append_right _ hline)

theorem mentions_iff : mentions text = true ↔ BEGIN <:+: text := decide_eq_true_iff

/-- A line that starts with the marker is in a text that mentions it. -/
theorem mentions_of_isBegin (hline : line ∈ lines) (h : isBegin line = true) :
    BEGIN <:+: lines.flatten := by
  have hpre : BEGIN <+: line := List.isPrefixOf_iff_prefix.mp h
  exact hpre.isInfix.trans (List.infix_of_mem_flatten hline)

theorem isBegin_of_not_mentions (h : ¬ BEGIN <:+: lines.flatten) :
    ∀ line ∈ lines, isBegin line = false := by
  intro line hline
  by_contra hbegin
  exact h (mentions_of_isBegin hline (by simpa using hbegin))

/-! ### One run -/

/-- A line of the block between its markers is one line, and starts with neither of them. -/
theorem inert_body : body.all (fun line =>
    !line.contains '\n' && !isBegin (line ++ ['\n']) && !isEnd (line ++ ['\n'])) = true := by
  unfold body isBegin isEnd BEGIN END
  simp only [List.map_cons, List.map_nil]
  -- the characters of a literal are read off its spelling, once each
  repeat rw [String.toList_ofList]
  decide

theorem newline_notMem_block (h : line ∈ BEGIN :: (body ++ [END])) : '\n' ∉ line := by
  rcases List.mem_cons.mp h with rfl | h
  · decide
  · rcases List.mem_append.mp h with h | h
    · have hinert := List.all_eq_true.mp inert_body line h
      simp only [Bool.and_eq_true, Bool.not_eq_true', List.contains_eq_mem,
        decide_eq_false_iff_not] at hinert
      exact hinert.1.1
    · rw [List.mem_singleton.mp h]
      decide

theorem segments_BLOCK :
    segments BLOCK = (BEGIN ++ ['\n']) :: (body.map (· ++ ['\n']) ++ [END ++ ['\n']]) := by
  unfold BLOCK
  rw [segments_ofLines fun _ => newline_notMem_block, List.map_cons, List.map_append,
    List.map_singleton]

theorem no_marker_body (h : line ∈ body.map (· ++ ['\n'])) :
    isBegin line = false ∧ isEnd line = false := by
  obtain ⟨inner, hinner, rfl⟩ := List.mem_map.mp h
  have hinert := List.all_eq_true.mp inert_body inner hinner
  simp only [Bool.and_eq_true, Bool.not_eq_true'] at hinert
  exact ⟨hinert.1.2, hinert.2⟩

theorem blockAt_append (h : Terminated text) :
    BlockAt (segments (text ++ BLOCK)) (segments text) [] := by
  refine ⟨body.map (· ++ ['\n']), END ++ ['\n'], ?_, ?_, fun _ => no_marker_body⟩
  · rw [segments_append h, segments_BLOCK]
  · exact List.isPrefixOf_iff_prefix.mpr (List.prefix_append END _)

/-- The lines outside a block are read as they are without it. -/
theorem BlockAt.segments_flatten {before after : List (List Char)}
    (h : BlockAt (segments text) before after) :
    segments (before ++ after).flatten = before ++ after := by
  obtain ⟨inner, close, hlines, -, -⟩ := h
  obtain ⟨hterm, hbefore⟩ := segments_before hlines (List.cons_ne_nil _ _)
  have hafter : segments after.flatten = after := by
    have hshift : segments text =
        (before ++ (BEGIN ++ ['\n']) :: (inner ++ [close])) ++ after := by
      rw [hlines]
      simp
    exact segments_suffix hshift
  rw [List.flatten_append, segments_append hterm, hbefore, hafter]

theorem BlockAt.mentions_eq {before after : List (List Char)}
    (h : BlockAt (segments text) before after) : mentions text = true := by
  obtain ⟨inner, close, hlines, -, -⟩ := h
  rw [mentions_iff, ← flatten_segments text]
  apply mentions_of_isBegin _ isBegin_mark
  rw [hlines]
  exact List.mem_append_right _ List.mem_cons_self

theorem sync_counted (h : countsNatively cfg = true) :
    contents (sync (some cfg) custom) =
      if mentions (contents custom) then dropBlock (contents custom) else contents custom := by
  cases custom with
  | none =>
    have hnone : mentions [] = false := by decide
    simp [sync, h, contents, hnone]
  | some text =>
    have hread : contents (some text) = text := rfl
    rw [hread, sync, if_pos h]
    by_cases hmentions : mentions text = true
    · simp only [if_pos hmentions]
      split_ifs with hempty
      · exact hempty.symm
      · rfl
    · simp only [if_neg hmentions]
      rfl

theorem sync_uncounted (h : countsNatively cfg = false) :
    contents (sync (some cfg) custom) =
      if mentions (contents custom) then contents custom else contents custom ++ BLOCK := by
  have hnot : ¬ countsNatively cfg = true := by simp [h]
  cases custom with
  | none =>
    have hnone : ¬ mentions (contents none) = true := by decide
    have hfirst : contents (none : Option (List Char)) = [] := rfl
    rw [if_neg hnone, hfirst, List.nil_append, sync, if_neg hnot]
    rfl
  | some text =>
    have hread : contents (some text) = text := rfl
    rw [hread, sync, if_neg hnot]
    by_cases hmentions : mentions text = true
    · simp only [if_pos hmentions]
      rfl
    · simp only [if_neg hmentions]
      rfl

/-- The file is the lines outside of kuma's block, alone or with one block among them. -/
def Around (outer : List (List Char)) (text : List Char) : Prop :=
  text = outer.flatten ∨
    ∃ before after, before ++ after = outer ∧ BlockAt (segments text) before after

/-- Lines that a block can be put after and taken out of again: a marker is nowhere in them, and
the last one is ended. -/
structure Fits (outer : List (List Char)) : Prop where
  segments_flatten : segments outer.flatten = outer
  unmentioned : ¬ BEGIN <:+: outer.flatten
  terminated : Terminated outer.flatten

variable {outer : List (List Char)}

theorem Fits.not_isBegin (h : Fits outer) : ∀ line ∈ outer, isBegin line = false :=
  isBegin_of_not_mentions h.unmentioned

theorem Around.contents_counted (hfits : Fits outer) (h : Around outer (contents custom))
    (hcfg : countsNatively cfg = true) :
    contents (sync (some cfg) custom) = outer.flatten := by
  rw [sync_counted hcfg]
  rcases h with htext | ⟨before, after, houter, hblock⟩
  · have hnot : ¬ mentions (contents custom) = true := by
      rw [mentions_iff, htext]
      exact hfits.unmentioned
    rw [if_neg hnot, htext]
  · rw [if_pos hblock.mentions_eq, dropBlock,
      hblock.deleteRanges_eq (by rw [houter]; exact hfits.not_isBegin), houter]

theorem Around.blockAt_uncounted (hfits : Fits outer) (h : Around outer (contents custom))
    (hcfg : countsNatively cfg = false) :
    ∃ before after, before ++ after = outer ∧
      BlockAt (segments (contents (sync (some cfg) custom))) before after := by
  rw [sync_uncounted hcfg]
  rcases h with htext | ⟨before, after, houter, hblock⟩
  · have hnot : ¬ mentions (contents custom) = true := by
      rw [mentions_iff, htext]
      exact hfits.unmentioned
    refine ⟨outer, [], List.append_nil outer, ?_⟩
    have hblock := blockAt_append hfits.terminated
    rw [hfits.segments_flatten] at hblock
    rw [if_neg hnot, htext]
    exact hblock
  · rw [if_pos hblock.mentions_eq]
    exact ⟨before, after, houter, hblock⟩

theorem Around.step (hfits : Fits outer) (h : Around outer (contents custom)) (cfg : List Char) :
    Around outer (contents (sync (some cfg) custom)) := by
  by_cases hcfg : countsNatively cfg = true
  · exact .inl (h.contents_counted hfits hcfg)
  · exact .inr (h.blockAt_uncounted hfits (by simpa using hcfg))

theorem Around.run (hfits : Fits outer) (h : Around outer (contents custom))
    (history : List (List Char)) : Around outer (contents (runs history custom)) := by
  induction history generalizing custom with
  | nil => exact h
  | cons cfg history ih => exact ih (h.step hfits cfg)

theorem Around.outside_eq (hfits : Fits outer) (h : Around outer text) :
    outside false (segments text) = outer := by
  rcases h with rfl | ⟨before, after, houter, hblock⟩
  · rw [hfits.segments_flatten]
    exact outside_eq_self hfits.not_isBegin
  · rw [hblock.outside_eq (by rw [houter]; exact hfits.not_isBegin), houter]

/-! ### Every run -/

/-- After a run over `cfg` the file has kuma's block once, or not at all where the bootloader
counts, the lines outside of it are those it had at first, and another run changes nothing. -/
structure Converged (cfg : List Char) (original now : Option (List Char)) : Prop where
  counted : countsNatively cfg = true → NoBlock (contents now)
  uncounted : countsNatively cfg = false → OneBlock (contents now)
  kept : outside false (segments (contents now)) = outside false (segments (contents original))
  settled : sync (some cfg) now = now

/-- A file that the hook can converge: the marker is nowhere and the last line is ended, or
there is one block and that is so of the lines around it. -/
def Mendable (text : List Char) : Prop :=
  ¬ BEGIN <:+: text ∧ Terminated text ∨
    ∃ before after, BlockAt (segments text) before after ∧
      ¬ BEGIN <:+: (before ++ after).flatten ∧ Terminated (before ++ after).flatten

theorem Mendable.around (h : Mendable text) : ∃ outer, Fits outer ∧ Around outer text := by
  rcases h with ⟨hnone, hterm⟩ | ⟨before, after, hblock, hnone, hterm⟩
  · refine ⟨segments text, ⟨?_, ?_, ?_⟩, .inl (flatten_segments text).symm⟩
    · rw [flatten_segments]
    · rw [flatten_segments]
      exact hnone
    · rw [flatten_segments]
      exact hterm
  · exact ⟨before ++ after, ⟨hblock.segments_flatten, hnone, hterm⟩,
      .inr ⟨before, after, rfl, hblock⟩⟩

theorem sync_counted_settled (hfits : Fits outer) (h : contents custom = outer.flatten)
    (hcfg : countsNatively cfg = true) : sync (some cfg) custom = custom := by
  cases custom with
  | none => rw [sync, if_pos hcfg]
  | some text =>
    have htext : text = outer.flatten := h
    have hnot : ¬ mentions text = true := by
      rw [mentions_iff, htext]
      exact hfits.unmentioned
    rw [sync, if_pos hcfg]
    simp only [if_neg hnot]

theorem sync_uncounted_settled (h : mentions (contents custom) = true)
    (hcfg : countsNatively cfg = false) : sync (some cfg) custom = custom := by
  cases custom with
  | none =>
    have hnone : mentions (contents none) = false := by decide
    rw [hnone] at h
    cases h
  | some text =>
    have hmentions : mentions text = true := h
    rw [sync, if_neg (by simp [hcfg])]
    simp only [if_pos hmentions]

/-- A run from a file that can be mended converges. -/
theorem Around.converged {now : Option (List Char)} (hfits : Fits outer)
    (horiginal : Around outer (contents custom)) (hnow : Around outer (contents now))
    (cfg : List Char) : Converged cfg custom (sync (some cfg) now) := by
  constructor
  · intro hcfg
    rw [hnow.contents_counted hfits hcfg]
    intro line hline
    rw [hfits.segments_flatten] at hline
    exact hfits.not_isBegin line hline
  · intro hcfg
    obtain ⟨before, after, houter, hblock⟩ := hnow.blockAt_uncounted hfits hcfg
    refine ⟨before, after, hblock, ?_⟩
    rw [houter]
    exact hfits.not_isBegin
  · rw [(hnow.step hfits cfg).outside_eq hfits, horiginal.outside_eq hfits]
  · by_cases hcfg : countsNatively cfg = true
    · exact sync_counted_settled hfits (hnow.contents_counted hfits hcfg) hcfg
    · have huncounted : countsNatively cfg = false := by simpa using hcfg
      obtain ⟨before, after, -, hblock⟩ := hnow.blockAt_uncounted hfits huncounted
      exact sync_uncounted_settled hblock.mentions_eq huncounted

/-- An append after a line that is not ended does not begin a line. -/
theorem terminated_of_oneBlock (hnone : ¬ BEGIN <:+: text) (h : OneBlock (text ++ BLOCK)) :
    Terminated text := by
  obtain ⟨a, p, rfl, hterm, hp⟩ := exists_terminated_append text
  obtain ⟨before, after, ⟨inner, close, hlines, -, -⟩, -⟩ := h
  rw [List.append_assoc, segments_append hterm,
    segments_append_of_notMem hp segments_BLOCK] at hlines
  have hmark : BEGIN ++ ['\n'] ∈ segments a ++ (p ++ (BEGIN ++ ['\n'])) ::
      (body.map (· ++ ['\n']) ++ [END ++ ['\n']]) := by
    rw [hlines]
    exact List.mem_append_right _ List.mem_cons_self
  rcases List.mem_append.mp hmark with hmem | hmem
  · have hin := mentions_of_isBegin hmem isBegin_mark
    rw [flatten_segments] at hin
    exact absurd (hin.trans (List.prefix_append a p).isInfix) hnone
  · rcases List.mem_cons.mp hmem with hglued | hmem
    · have hnil : p = [] := List.append_left_eq_self.mp hglued.symm
      rw [hnil, List.append_nil]
      exact hterm
    · rcases List.mem_append.mp hmem with hmem | hmem
      · have hbegin := (no_marker_body hmem).1
        rw [isBegin_mark] at hbegin
        cases hbegin
      · have hend : isBegin (END ++ ['\n']) = false := by decide
        rw [← List.mem_singleton.mp hmem, isBegin_mark] at hend
        cases hend

theorem not_oneBlock_of_not_begin (h : ∀ line ∈ segments text, isBegin line = false) :
    ¬ OneBlock text := by
  rintro ⟨before, after, ⟨inner, close, hlines, -, -⟩, -⟩
  have hmark := h (BEGIN ++ ['\n']) (by
    rw [hlines]
    exact List.mem_append_right _ List.mem_cons_self)
  rw [isBegin_mark] at hmark
  cases hmark

def native : List Char := "boot_counter".toList

/-- The hook converges along every history of `grub.cfg` on the files that it can mend. -/
theorem converges_iff (custom : Option (List Char)) :
    (∀ history cfg, Converged cfg custom (sync (some cfg) (runs history custom))) ↔
      Mendable (contents custom) := by
  constructor
  · intro h
    have hplain : countsNatively [] = false := by decide
    have hnative : countsNatively native = true := by decide
    have hfirst := (h [] []).uncounted hplain
    have hread : runs [] custom = custom := rfl
    rw [hread, sync_uncounted hplain] at hfirst
    by_cases hmentions : mentions (contents custom) = true
    · -- the block that is there, taken out once and put back
      rw [if_pos hmentions] at hfirst
      obtain ⟨before, after, hblock, hout⟩ := hfirst
      have hdropped : contents (sync (some native) custom) = (before ++ after).flatten := by
        rw [sync_counted hnative, if_pos hmentions, dropBlock, hblock.deleteRanges_eq hout]
      have hagain := (h [native] []).uncounted hplain
      have hread' : runs [native] custom = sync (some native) custom := rfl
      rw [hread', sync_uncounted hplain, hdropped] at hagain
      have hunmentioned : ¬ mentions (before ++ after).flatten = true := by
        intro hstill
        rw [if_pos hstill] at hagain
        refine not_oneBlock_of_not_begin ?_ hagain
        rw [hblock.segments_flatten]
        exact hout
      rw [if_neg hunmentioned] at hagain
      rw [mentions_iff] at hunmentioned
      exact .inr ⟨before, after, hblock, hunmentioned, terminated_of_oneBlock hunmentioned hagain⟩
    · rw [if_neg hmentions] at hfirst
      rw [mentions_iff] at hmentions
      exact .inl ⟨hmentions, terminated_of_oneBlock hmentions hfirst⟩
  · intro h history cfg
    obtain ⟨outer, hfits, haround⟩ := h.around
    exact haround.converged hfits (haround.run hfits history) cfg

/-- A file whose last line is not ended gets a block that no line begins. -/
theorem sync_unterminated :
    sync (some []) (some "set timeout=5".toList) = some ("set timeout=5".toList ++ BLOCK) ∧
      ¬ Converged [] (some "set timeout=5".toList)
        (sync (some []) (some "set timeout=5".toList)) := by
  have hplain : countsNatively [] = false := by decide
  have hnone : ¬ BEGIN <:+: "set timeout=5".toList := by decide
  have hsync : sync (some []) (some "set timeout=5".toList) =
      some ("set timeout=5".toList ++ BLOCK) := by
    have hnot : ¬ mentions "set timeout=5".toList = true := mentions_iff.not.mpr hnone
    rw [sync, if_neg (by rw [hplain]; exact Bool.false_ne_true)]
    simp only [if_neg hnot]
  refine ⟨hsync, ?_⟩
  intro h
  have hone := h.uncounted hplain
  rw [hsync] at hone
  have hterm := terminated_of_oneBlock hnone hone
  revert hterm
  unfold Terminated
  decide

end Kuma.Containerfile.BootHealth
