import Kuma.Lib.Text

/-! Keyfiles as the overrides converger edits them: what it reads, what it sets and removes,
and what a file it wrote is read as the next time. -/
namespace Kuma.Overrides
open Kuma.Lib Kuma.Lib.Text

abbrev Chars := List Char

/-- A key of a file: its group and its name. -/
abbrev Key := Chars × Chars

inductive Line
  | pair (key value : Chars)
  | raw (line : Chars)
  deriving DecidableEq

structure Group where
  name : Chars
  lines : List Line
  deriving DecidableEq

abbrev KeyFile := List Group

/-- The group a trimmed line opens. -/
def header (trimmed : Chars) : Option Chars :=
  match trimmed with
  | '[' :: rest => if rest.getLast? = some ']' then some rest.dropLast else none
  | _ => none

/-- A line that opens no group. -/
def readLine (line : Chars) : Line :=
  match splitOnce '=' (trim line) with
  | some (key, value) =>
    if (trim line).head? ≠ some '#' ∧ trim key ≠ [] then .pair (trim key) value else .raw line
  | none => .raw line

def Line.text : Line → Chars
  | .pair key value => key ++ '=' :: value
  | .raw line => line

def Group.pairs (group : Group) : List (Chars × Chars) :=
  group.lines.filterMap fun
    | .pair key value => some (key, value)
    | .raw _ => none

namespace KeyFile

/-- The groups from the one that is open when the lines begin. -/
def parseFrom (group : Group) : List Chars → KeyFile
  | [] => [group]
  | line :: lines =>
    match header (trim line) with
    | some name => group :: parseFrom ⟨name, []⟩ lines
    | none => parseFrom { group with lines := group.lines ++ [readLine line] } lines

def parse (text : Chars) : KeyFile := parseFrom ⟨[], []⟩ (Text.lines text)

def setLine (key value : Chars) : List Line → List Line
  | [] => [.pair key value]
  | .pair k v :: rest =>
    if k = key then .pair k value :: rest else .pair k v :: setLine key value rest
  | .raw line :: rest => .raw line :: setLine key value rest

/-- The first group of the name takes the key, and a file without one grows it. -/
def set (key : Key) (value : Chars) : KeyFile → KeyFile
  | [] => [⟨key.1, [.pair key.2 value]⟩]
  | group :: rest =>
    if group.name = key.1 then { group with lines := setLine key.2 value group.lines } :: rest
    else group :: set key value rest

def isPair (key : Chars) : Line → Bool
  | .pair k _ => k == key
  | .raw _ => false

/-- Only the first group of the name is looked at. -/
def remove (key : Key) : KeyFile → KeyFile
  | [] => []
  | group :: rest =>
    if group.name = key.1 then
      { group with lines := group.lines.filter fun line => !isPair key.2 line } :: rest
    else group :: remove key rest

/-- The value a first pair of the key has in the first group of the name. -/
def existing (key : Key) (file : KeyFile) : Option Chars :=
  (file.find? (·.name = key.1)).bind fun group =>
    (group.pairs.find? (·.1 = key.2)).map Prod.snd

def has (key : Key) (file : KeyFile) : Bool :=
  file.any fun group => group.name = key.1 && group.lines.any (isPair key.2)

/-- A line that keeps its group's header in the file. -/
def counts : Line → Bool
  | .pair _ _ => true
  | .raw line => trim line ≠ []

def renderGroup (group : Group) : List Chars :=
  if group.name = [] then group.lines.map Line.text
  else if group.lines.any counts then
    ('[' :: group.name ++ [']']) :: group.lines.map Line.text
  else []

def render (file : KeyFile) : Chars := (file.flatMap renderGroup).flatMap (· ++ ['\n'])

/-- Every pair of a file, with the key it is under. -/
def entries (file : KeyFile) : List (Key × Chars) :=
  file.flatMap fun group => group.pairs.map fun pair => ((group.name, pair.1), pair.2)

/-- The values a file has for a key. A well-formed file has at most one. -/
def values (key : Key) (found : List (Key × Chars)) : List Chars :=
  found.filterMap fun entry => if entry.1 = key then some entry.2 else none

end KeyFile

/-- What stands after the first `=`. -/
def valueOf (line : Chars) : Chars := ((splitOnce '=' line).map Prod.snd).getD []

/-- The pairs of a text, line by line. `spell` says how much of a line its value is read from:
the parser reads the trimmed line, and in the file the value is the whole rest of it. -/
def scan (spell : Chars → Chars) (name : Chars) : List Chars → List (Key × Chars)
  | [] => []
  | line :: lines =>
    match header (trim line), readLine line with
    | some name, _ => scan spell name lines
    | none, .pair key _ => ((name, key), valueOf (spell line)) :: scan spell name lines
    | none, .raw _ => scan spell name lines

/-- The pairs as they stand in the file. -/
def found (text : Chars) : List (Key × Chars) := scan id [] (Text.lines text)

section
variable {line lines key value name : Chars}

theorem readLine_eq_pair (h : readLine line = .pair key value) :
    ∃ k, trim line = k ++ '=' :: value ∧ '=' ∉ k ∧ key = trim k ∧ trim k ≠ [] ∧
      (trim line).head? ≠ some '#' := by
  unfold readLine at h
  cases hsplit : splitOnce '=' (trim line) with
  | none => simp [hsplit] at h
  | some halves =>
    obtain ⟨k, v⟩ := halves
    simp only [hsplit] at h
    split_ifs at h with hkey
    obtain ⟨hk, hv⟩ := Line.pair.inj h
    subst hv
    obtain ⟨htext, hnone⟩ := splitOnce_eq_some hsplit
    exact ⟨k, htext, hnone, hk.symm, hkey.2, hkey.1⟩

theorem raw_of_readLine {raw : Chars} (h : readLine line = .raw raw) : raw = line := by
  unfold readLine at h
  split at h
  · split_ifs at h
    exact (Line.raw.inj h).symm
  · exact (Line.raw.inj h).symm

/-- What a parser reads of a pair is what stands in the trimmed line. -/
theorem value_of_readLine (h : readLine line = .pair key value) : value = valueOf (trim line) := by
  obtain ⟨k, htext, hnone, -⟩ := readLine_eq_pair h
  rw [valueOf, htext, splitOnce_append hnone]
  rfl

end

/-- A line that is read as itself once it is written. -/
def Line.Kept : Line → Prop
  | .pair key value => '\n' ∉ key ∧ '\n' ∉ value ∧ '=' ∉ key ∧ key ≠ [] ∧ trim key = key ∧
      key.head? ≠ some '#' ∧ trimEnd value = value ∧ header (key ++ '=' :: value) = none
  | .raw line => '\n' ∉ line ∧ header (trim line) = none ∧ readLine line = .raw line

section
variable {c : Char} {line key value rest : Chars}

theorem header_eq_none : header (c :: rest) = none ↔ ¬(c = '[' ∧ rest.getLast? = some ']') := by
  unfold header
  split
  · next h =>
    obtain ⟨rfl, rfl⟩ := List.cons.inj h
    simp
  · next h =>
    have hne : c ≠ '[' := fun hc => h rest (by rw [hc])
    simp [hne]

/-- Whether a pair opens a group shows in the ends of its line alone. -/
theorem header_pair {key' : Chars} (h : header (c :: key ++ '=' :: value) = none) :
    header (c :: key' ++ '=' :: value) = none := by
  rw [List.cons_append, header_eq_none] at h ⊢
  simpa [List.getLast?_append] using h

theorem kept_readLine (hline : '\n' ∉ line) (hheader : header (trim line) = none) :
    (readLine line).Kept := by
  cases hread : readLine line with
  | raw raw =>
    obtain rfl := raw_of_readLine hread
    exact ⟨hline, hheader, hread⟩
  | pair key value =>
    obtain ⟨k, htext, hnone, rfl, hkey, hcomment⟩ := readLine_eq_pair hread
    obtain ⟨c, k', rfl⟩ : ∃ c k', k = c :: k' :=
      List.exists_cons_of_ne_nil (by rintro rfl; exact hkey rfl)
    have hc : isWhiteSpace c = false := isWhiteSpace_head_trim (htext.trans (List.cons_append ..))
    have htrim : trim (c :: k') = trimEnd (c :: k') := trim_cons hc
    have hvalue : trimEnd value = value := by
      have hend := trimEnd_trim line
      rw [htext, trimEnd_append (by decide)] at hend
      simpa using hend
    obtain ⟨c', k'', hshort⟩ := List.exists_cons_of_ne_nil hkey
    obtain rfl : c' = c := by
      rw [htrim] at hshort
      simpa using (head_trimEnd hshort).symm
    have hnewline : ∀ x ∈ trim line, x ≠ '\n' := fun x hx heq => hline (heq ▸ mem_of_mem_trim hx)
    rw [htext] at hnewline hcomment hheader
    refine ⟨fun hin => ?_, fun hin => ?_, fun hin => ?_, hkey, ?_, ?_, hvalue, ?_⟩
    · exact hnewline _ (List.mem_append_left _ (mem_of_mem_trim hin)) rfl
    · exact hnewline _ (List.mem_append_right _ (List.mem_cons_of_mem _ hin)) rfl
    · exact hnone (mem_of_mem_trim hin)
    · rw [htrim] at hshort ⊢
      rw [hshort, trim_cons hc, ← hshort, trimEnd_trimEnd]
    · rw [hshort]
      simpa using hcomment
    · rw [hshort]
      exact header_pair hheader

end

/-- A pair that is written is read as it was. -/
theorem Line.Kept.pair {key value : Chars} (h : (Line.pair key value).Kept) :
    let text := key ++ '=' :: value
    trim text = text ∧ dropReturn text = text ∧ header text = none ∧
      readLine text = .pair key value ∧ valueOf text = value := by
  obtain ⟨-, -, hnone, hkey, htrim, hcomment, hvalue, hheader⟩ := h
  obtain ⟨c, k, rfl⟩ := List.exists_cons_of_ne_nil hkey
  have hc : isWhiteSpace c = false := isWhiteSpace_head_trim htrim
  have htext : trim (c :: k ++ '=' :: value) = c :: k ++ '=' :: value := by
    rw [List.cons_append, trim_cons hc, ← List.cons_append, trimEnd_append (by decide), hvalue]
  have hsplit : splitOnce '=' (c :: k ++ '=' :: value) = some (c :: k, value) :=
    splitOnce_append hnone
  have hend : trimEnd (c :: k ++ '=' :: value) = c :: k ++ '=' :: value := by
    rw [trimEnd_append (by decide), hvalue]
  refine ⟨htext, dropReturn_of_trimEnd hend, hheader, ?_, by rw [valueOf, hsplit]; rfl⟩
  · unfold readLine
    rw [htext, hsplit]
    simp only [htrim]
    rw [if_pos ⟨by simpa using hcomment, hkey⟩]

theorem Line.Kept.raw {line : Chars} (h : (Line.raw line).Kept) :
    header (trim (dropReturn line)) = none ∧
      readLine (dropReturn line) = .raw (dropReturn line) := by
  obtain ⟨-, hheader, hread⟩ := h
  rw [trim_dropReturn]
  refine ⟨hheader, ?_⟩
  unfold readLine at hread ⊢
  rw [trim_dropReturn]
  split at hread
  · split_ifs at hread ⊢ with hkey
    rfl
  · rfl

theorem mem_of_header {trimmed name : Chars} (h : header trimmed = some name) {c : Char}
    (hc : c ∈ name) : c ∈ trimmed := by
  unfold header at h
  split at h
  · split_ifs at h
    obtain rfl := Option.some.inj h
    exact List.mem_cons_of_mem _ (List.dropLast_subset _ hc)
  · cases h

/-- The line a group is written under opens it again. -/
theorem header_line (name : Chars) :
    let line := '[' :: name ++ [']']
    dropReturn line = line ∧ header (trim line) = some name := by
  have hend : trimEnd ('[' :: name ++ [']']) = '[' :: name ++ [']'] := by
    rw [trimEnd_append (by decide)]
    rfl
  refine ⟨dropReturn_of_trimEnd hend, ?_⟩
  rw [List.cons_append, trim_cons (by decide), ← List.cons_append, hend]
  simp [header]

namespace KeyFile

/-- What a parsed file is: a nameless group at the top, and lines that can be written. -/
structure Sound (file : KeyFile) : Prop where
  opens : (file.map Group.name).head? = some []
  names : ∀ group ∈ file, '\n' ∉ group.name
  kept : ∀ group ∈ file, ∀ line ∈ group.lines, line.Kept

section
variable {group : Group} {lines : List Chars} {text : Chars} {file : KeyFile}

theorem parseFrom_head : (parseFrom group lines).head?.map Group.name = some group.name := by
  induction lines generalizing group with
  | nil => rfl
  | cons line lines ih =>
    rw [parseFrom]
    split
    · rfl
    · rw [ih]

theorem parseFrom_sound (hname : '\n' ∉ group.name) (hkept : ∀ line ∈ group.lines, line.Kept)
    (hlines : ∀ line ∈ lines, '\n' ∉ line) : ∀ g ∈ parseFrom group lines,
      '\n' ∉ g.name ∧ ∀ line ∈ g.lines, line.Kept := by
  induction lines generalizing group with
  | nil =>
    intro g hg
    obtain rfl : g = group := by simpa [parseFrom] using hg
    exact ⟨hname, hkept⟩
  | cons line lines ih =>
    have hline := hlines line List.mem_cons_self
    have hrest : ∀ line ∈ lines, '\n' ∉ line := fun l hl => hlines l (List.mem_cons_of_mem _ hl)
    rw [parseFrom]
    cases hheader : header (trim line) with
    | some name =>
      intro g hg
      rcases List.mem_cons.mp hg with rfl | hg
      · exact ⟨hname, hkept⟩
      · have hopened : '\n' ∉ name := fun hin => hline (mem_of_mem_trim (mem_of_header hheader hin))
        exact ih hopened (fun _ hl => absurd hl List.not_mem_nil) hrest g hg
    | none =>
      refine ih hname (fun l hl => ?_) hrest
      rcases List.mem_append.mp hl with hl | hl
      · exact hkept l hl
      · rw [List.mem_singleton.mp hl]
        exact kept_readLine hline hheader

theorem parse_sound (text : Chars) : (parse text).Sound := by
  have hsound : ∀ g ∈ parse text, '\n' ∉ g.name ∧ ∀ line ∈ g.lines, line.Kept :=
    parseFrom_sound List.not_mem_nil (fun _ hl => absurd hl List.not_mem_nil)
      fun _ hl => newline_notMem_lines hl
  refine ⟨?_, fun g hg => (hsound g hg).1, fun g hg => (hsound g hg).2⟩
  rw [List.head?_map]
  exact parseFrom_head

theorem pairs_concat_pair {key value : Chars} :
    ({ group with lines := group.lines ++ [.pair key value] } : Group).pairs =
      group.pairs ++ [(key, value)] := by
  simp [Group.pairs]

theorem pairs_concat_raw {line : Chars} :
    ({ group with lines := group.lines ++ [.raw line] } : Group).pairs = group.pairs := by
  simp [Group.pairs]

theorem entries_parseFrom : entries (parseFrom group lines) =
    (group.pairs.map fun pair => ((group.name, pair.1), pair.2)) ++ scan trim group.name lines := by
  induction lines generalizing group with
  | nil => simp [parseFrom, entries, scan]
  | cons line lines ih =>
    rw [parseFrom, scan]
    cases hheader : header (trim line) with
    | some name =>
      have hrest : entries (parseFrom ⟨name, []⟩ lines) = scan trim name lines := ih
      rw [entries, List.flatMap_cons, ← entries, hrest]
    | none =>
      rw [ih]
      cases hread : readLine line with
      | pair key value =>
        rw [pairs_concat_pair, value_of_readLine hread]
        simp
      | raw raw => rw [pairs_concat_raw]

/-- What the parser reads of a text, line by line. -/
theorem entries_parse : entries (parse text) = scan trim [] (Text.lines text) := entries_parseFrom

end
section
variable {name : Chars} {lines : List Line} {rest : List Chars} {file : KeyFile}

/-- The lines of a group, written and read. -/
theorem scan_lines (h : ∀ line ∈ lines, line.Kept) :
    scan id name ((lines.map Line.text).map dropReturn ++ rest) =
      ((Group.mk name lines).pairs.map fun pair => ((name, pair.1), pair.2)) ++
        scan id name rest := by
  induction lines with
  | nil => rfl
  | cons line lines ih =>
    have hline := h line List.mem_cons_self
    have hrest := ih fun l hl => h l (List.mem_cons_of_mem _ hl)
    rw [List.map_cons, List.map_cons, List.cons_append, scan]
    cases line with
    | pair key value =>
      obtain ⟨htrim, hdrop, hheader, hread, hvalue⟩ := hline.pair
      simp only [Line.text, hdrop, htrim, hheader, hread, id, hvalue, hrest]
      rfl
    | raw raw =>
      obtain ⟨hheader, hread⟩ := hline.raw
      simp only [Line.text, hheader, hread, hrest]
      rfl

theorem newline_notMem_text {line : Line} (h : line.Kept) : '\n' ∉ line.text := by
  cases line with
  | pair key value =>
    obtain ⟨hkey, hvalue, -⟩ := h
    simp [Line.text, hkey, hvalue]
  | raw raw => exact h.1

/-- No nameless group but the first has a pair: its header would not be written. -/
def Named (file : KeyFile) : Prop := ∀ group ∈ file.tail, group.name = [] → group.pairs = []

instance (file : KeyFile) : Decidable file.Named :=
  inferInstanceAs (Decidable (∀ group ∈ file.tail, _))

theorem pairs_of_not_counts {group : Group} (h : group.lines.any counts = false) :
    group.pairs = [] := by
  rw [Group.pairs, List.filterMap_eq_nil_iff]
  intro line hline
  cases line with
  | pair key value => exact absurd (List.any_eq_false.mp h _ hline) (by simp [counts])
  | raw raw => rfl

theorem scan_renderGroups {groups : List Group}
    (hkept : ∀ group ∈ groups, ∀ line ∈ group.lines, line.Kept)
    (hnamed : ∀ group ∈ groups, group.name = [] → group.pairs = []) :
    scan id name ((groups.flatMap renderGroup).map dropReturn) = entries groups := by
  induction groups generalizing name with
  | nil => rfl
  | cons group groups ih =>
    have hgroup := hkept group List.mem_cons_self
    have hrest : ∀ name, scan id name ((groups.flatMap renderGroup).map dropReturn) =
        entries groups := fun name =>
      ih (fun g hg => hkept g (List.mem_cons_of_mem _ hg))
        fun g hg => hnamed g (List.mem_cons_of_mem _ hg)
    rw [List.flatMap_cons, List.map_append, entries, List.flatMap_cons, ← entries, renderGroup]
    split_ifs with hname hcounts
    · have hpairs := hnamed group List.mem_cons_self hname
      have hnone : (Group.mk name group.lines).pairs = [] := hpairs
      rw [scan_lines hgroup, hrest, hnone, hpairs]
      rfl
    · obtain ⟨hdrop, hheader⟩ := header_line group.name
      rw [List.map_cons, List.cons_append, scan, hdrop, hheader]
      dsimp only
      rw [scan_lines hgroup, hrest]
    · have hpairs := pairs_of_not_counts (by simpa using hcounts)
      rw [hpairs]
      exact hrest name

/-- What is written out holds no newline of its own. -/
theorem newline_notMem_renderGroups (h : file.Sound) :
    ∀ line ∈ file.flatMap renderGroup, '\n' ∉ line := by
  intro line hline
  obtain ⟨group, hgroup, hmem⟩ := List.mem_flatMap.mp hline
  have hlines : ∀ line ∈ group.lines.map Line.text, '\n' ∉ line := by
    intro line hl
    obtain ⟨l, hmem, rfl⟩ := List.mem_map.mp hl
    exact newline_notMem_text (h.kept group hgroup l hmem)
  rw [renderGroup] at hmem
  split_ifs at hmem
  · exact hlines line hmem
  · rcases List.mem_cons.mp hmem with rfl | hmem
    · simp [h.names group hgroup]
    · exact hlines line hmem
  · cases hmem

/-- What was written is found again. -/
theorem found_render (h : file.Sound) (hnamed : file.Named) :
    found file.render = entries file := by
  obtain ⟨top, groups, rfl⟩ : ∃ top groups, file = top :: groups := by
    apply List.exists_cons_of_ne_nil
    rintro rfl
    cases h.opens
  have htop : top.name = [] := by simpa using h.opens
  rw [found, render, lines_flatMap (newline_notMem_renderGroups h), List.flatMap_cons,
    List.map_append, renderGroup, if_pos htop, scan_lines (h.kept top List.mem_cons_self),
    scan_renderGroups (fun g hg => h.kept g (List.mem_cons_of_mem _ hg)) hnamed]
  simp only [entries, List.flatMap_cons, htop]
  rfl

end
end KeyFile
end Kuma.Overrides
