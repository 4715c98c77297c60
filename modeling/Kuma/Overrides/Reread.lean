import Kuma.Overrides.Converge

/-! What a written keyfile is read as the next time: groups that were not written are gone, and
lines of a nameless group stand under the last header above them. -/
namespace Kuma.Overrides
open Kuma.Lib Kuma.Lib.Text

/-- A line as it is read back. A return before its newline is taken for a part of that. -/
def Line.reread : Line → Line
  | .pair key value => .pair key value
  | .raw line => .raw (dropReturn line)

/-- The pairs of a group, under the header that they are read under. -/
def Group.under (name : Chars) (group : Group) : List (Key × Chars) :=
  group.pairs.map fun pair => ((name, pair.1), pair.2)

namespace KeyFile

/-- The groups that are read of a written file, from the one that is open. -/
def rereadFrom (group : Group) : KeyFile → KeyFile
  | [] => [group]
  | next :: file =>
    if next.name = [] then
      rereadFrom { group with lines := group.lines ++ next.lines.map Line.reread } file
    else if next.lines.any counts then
      group :: rereadFrom ⟨next.name, next.lines.map Line.reread⟩ file
    else rereadFrom group file

def reread (file : KeyFile) : KeyFile := rereadFrom ⟨[], []⟩ file

/-- The pairs of a written file, each under the last header above it that is written. -/
def underHeaders (above : Chars) : KeyFile → List (Key × Chars)
  | [] => []
  | group :: file =>
    if group.name = [] then group.under above ++ underHeaders above file
    else if group.lines.any counts then
      group.under group.name ++ underHeaders group.name file
    else underHeaders above file

section
variable {group : Group} {lines : List Line} {rest : List Chars} {file : KeyFile} {text : Chars}

theorem parseFrom_lines (h : ∀ line ∈ lines, line.Kept) :
    parseFrom group ((lines.map Line.text).map dropReturn ++ rest) =
      parseFrom { group with lines := group.lines ++ lines.map Line.reread } rest := by
  induction lines generalizing group with
  | nil => simp
  | cons line lines ih =>
    have hline := h line List.mem_cons_self
    have hrest : ∀ line ∈ lines, line.Kept := fun l hl => h l (List.mem_cons_of_mem _ hl)
    have hread : parseFrom group (((line :: lines).map Line.text).map dropReturn ++ rest) =
        parseFrom { group with lines := group.lines ++ [line.reread] }
          ((lines.map Line.text).map dropReturn ++ rest) := by
      rw [List.map_cons, List.map_cons, List.cons_append, parseFrom]
      cases line with
      | pair key value =>
        obtain ⟨htrim, hdrop, hheader, hread, -⟩ := hline.pair
        simp only [Line.text, hdrop, htrim, hheader, hread, Line.reread]
      | raw raw =>
        obtain ⟨hheader, hread⟩ := hline.raw
        simp only [Line.text, hheader, hread, Line.reread]
    rw [hread, ih hrest]
    simp

theorem parseFrom_renderGroups (h : ∀ g ∈ file, ∀ line ∈ g.lines, line.Kept) :
    parseFrom group ((file.flatMap renderGroup).map dropReturn) = rereadFrom group file := by
  induction file generalizing group with
  | nil => rfl
  | cons next file ih =>
    have hnext := h next List.mem_cons_self
    have hrest : ∀ g ∈ file, ∀ line ∈ g.lines, line.Kept :=
      fun g hg => h g (List.mem_cons_of_mem _ hg)
    rw [List.flatMap_cons, List.map_append, renderGroup, rereadFrom]
    split_ifs with hname hcounts
    · rw [parseFrom_lines hnext, ih hrest]
    · obtain ⟨hdrop, hheader⟩ := header_line next.name
      rw [List.map_cons, List.cons_append, parseFrom, hdrop, hheader]
      dsimp only
      rw [parseFrom_lines hnext, ih hrest]
      rfl
    · exact ih hrest

theorem lines_render (h : file.Sound) :
    Text.lines file.render = (file.flatMap renderGroup).map dropReturn :=
  lines_flatMap (newline_notMem_renderGroups h)

/-- A written file, read again. -/
theorem parse_render (h : file.Sound) : parse file.render = file.reread := by
  rw [parse, lines_render h, parseFrom_renderGroups h.kept, reread]

theorem pairs_reread : (Group.mk group.name (lines.map Line.reread)).pairs =
    (Group.mk group.name lines).pairs := by
  unfold Group.pairs
  rw [List.filterMap_map]
  apply List.filterMap_congr
  intro line _
  cases line <;> rfl

theorem entries_rereadFrom :
    entries (rereadFrom group file) = group.under group.name ++ underHeaders group.name file := by
  induction file generalizing group with
  | nil => simp [rereadFrom, entries, underHeaders, Group.under]
  | cons next file ih =>
    have hpairs : ∀ lines', (Group.mk group.name (group.lines ++ lines')).pairs =
        group.pairs ++ (Group.mk group.name lines').pairs := by
      intro lines'
      simp [Group.pairs]
    rw [rereadFrom, underHeaders]
    split_ifs with hname hcounts
    · rw [ih]
      unfold Group.under
      rw [hpairs, pairs_reread, List.map_append, List.append_assoc]
      rfl
    · have hcons : entries (group :: rereadFrom ⟨next.name, next.lines.map Line.reread⟩ file) =
          group.under group.name ++
            entries (rereadFrom ⟨next.name, next.lines.map Line.reread⟩ file) := rfl
      rw [hcons, ih]
      unfold Group.under
      rw [pairs_reread]
    · exact ih

/-- What is read of a written file. -/
theorem entries_parse_render (h : file.Sound) :
    entries (parse file.render) = underHeaders [] file := by
  rw [parse_render h, reread, entries_rereadFrom]
  rfl

theorem underHeaders_eq_nil {above : Chars} (h : entries file = []) :
    underHeaders above file = [] := by
  induction file generalizing above with
  | nil => rfl
  | cons next file ih =>
    have hboth : next.under next.name ++ entries file = [] := h
    obtain ⟨hnext, hrest⟩ := List.append_eq_nil_iff.mp hboth
    have hpairs : ∀ name, next.under name = [] := by
      intro name
      have hnone : next.pairs = [] := List.map_eq_nil_iff.mp hnext
      rw [Group.under, hnone, List.map_nil]
    rw [underHeaders]
    split_ifs
    · rw [hpairs, ih hrest, List.nil_append]
    · rw [hpairs, ih hrest, List.nil_append]
    · exact ih hrest

end
end KeyFile
end Kuma.Overrides
