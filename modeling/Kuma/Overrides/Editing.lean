import Kuma.Overrides.KeyFile
import Mathlib.Data.List.Nodup

/-! What setting and removing a key leaves of a file's other keys. -/
namespace Kuma.Overrides
open Kuma.Lib Kuma.Lib.Text

namespace KeyFile

def lineValue (k : Chars) : Line → Option Chars
  | .pair key value => if key = k then some value else none
  | .raw _ => none

/-- The values that the lines of one group have for a key of it. -/
def groupValues (k : Chars) (lines : List Line) : List Chars := lines.filterMap (lineValue k)

section
variable {key key' : Key} {value k : Chars} {file : KeyFile} {group : Group} {lines : List Line}

theorem values_cons : values key (entries (group :: file)) =
    (if group.name = key.1 then groupValues key.2 group.lines else []) ++
      values key (entries file) := by
  have hpairs : ∀ lines : List Line, values key
      ((Group.mk group.name lines).pairs.map fun pair => ((group.name, pair.1), pair.2)) =
      if group.name = key.1 then groupValues key.2 lines else [] := by
    intro lines
    induction lines with
    | nil => simp [values, Group.pairs, groupValues]
    | cons line lines ih =>
      cases line with
      | raw raw =>
        have hskip : (Group.mk group.name (.raw raw :: lines)).pairs =
            (Group.mk group.name lines).pairs := rfl
        rw [hskip, ih]
        rfl
      | pair k v =>
        have htake : (Group.mk group.name (.pair k v :: lines)).pairs =
            (k, v) :: (Group.mk group.name lines).pairs := rfl
        rw [htake, List.map_cons, values, List.filterMap_cons, ← values, ih]
        by_cases hname : group.name = key.1 <;> by_cases hk : k = key.2 <;>
          simp [hname, hk, Prod.ext_iff, groupValues, lineValue]
  rw [entries, List.flatMap_cons, ← entries, values, List.filterMap_append, ← values, ← values,
    hpairs]

theorem groupValues_setLine_of_ne (h : k ≠ key.2) :
    groupValues k (setLine key.2 value lines) = groupValues k lines := by
  induction lines with
  | nil => simp [setLine, groupValues, lineValue, Ne.symm h]
  | cons line lines ih =>
    unfold groupValues at ih
    cases line with
    | raw raw => simp [setLine, groupValues, List.filterMap_cons, lineValue, ih]
    | pair k' v' =>
      rw [setLine]
      split_ifs with hk
      · simp [groupValues, lineValue, hk, Ne.symm h]
      · simp [groupValues, List.filterMap_cons, lineValue, ih]

theorem groupValues_filter_of_ne (h : k ≠ key.2) :
    groupValues k (lines.filter fun line => !isPair key.2 line) = groupValues k lines := by
  rw [groupValues, groupValues, List.filterMap_filter]
  apply List.filterMap_congr
  intro line _
  cases line with
  | raw raw => simp [isPair]
  | pair k' v' =>
    by_cases hk : k' = key.2
    · simp [isPair, hk, lineValue, Ne.symm h]
    · simp [isPair, hk]

theorem groupValues_filter_self :
    groupValues key.2 (lines.filter fun line => !isPair key.2 line) = [] := by
  rw [groupValues, List.filterMap_eq_nil_iff]
  intro line hline
  have hkept := (List.mem_filter.mp hline).2
  cases line with
  | raw raw => rfl
  | pair k' v' =>
    have hk : k' ≠ key.2 := by simpa [isPair] using hkept
    simp [lineValue, hk]

theorem values_set_of_ne (h : key' ≠ key) :
    values key' (entries (set key value file)) = values key' (entries file) := by
  have hk : key.1 = key'.1 → key'.2 ≠ key.2 := fun hname hk => h (Prod.ext hname.symm hk)
  induction file with
  | nil =>
    rw [set, values_cons]
    split_ifs with hname
    · have hother := hk hname
      simp [groupValues, lineValue, Ne.symm hother]
    · rfl
  | cons group file ih =>
    rw [set]
    split_ifs with hgroup
    · rw [values_cons, values_cons]
      dsimp only
      split_ifs with hname
      · rw [groupValues_setLine_of_ne (hk (hgroup.symm.trans hname))]
      · rfl
    · rw [values_cons, values_cons, ih]

theorem values_remove_of_ne (h : key' ≠ key) :
    values key' (entries (remove key file)) = values key' (entries file) := by
  have hk : key.1 = key'.1 → key'.2 ≠ key.2 := fun hname hk => h (Prod.ext hname.symm hk)
  induction file with
  | nil => rfl
  | cons group file ih =>
    rw [remove]
    split_ifs with hgroup
    · rw [values_cons, values_cons]
      dsimp only
      split_ifs with hname
      · rw [groupValues_filter_of_ne (hk (hgroup.symm.trans hname))]
      · rfl
    · rw [values_cons, values_cons, ih]

/-- No group of the name, no value. -/
theorem values_of_not_mem (h : key.1 ∉ file.map Group.name) : values key (entries file) = [] := by
  induction file with
  | nil => rfl
  | cons group file ih =>
    rw [List.map_cons, List.mem_cons, not_or] at h
    rw [values_cons, if_neg (Ne.symm h.1), ih h.2]
    rfl

/-- Where the group stands under one header, a removed key is gone. -/
theorem values_remove_self (hkey : key.1 ≠ [])
    (h : ((file.map Group.name).filter (· ≠ [])).Nodup) :
    values key (entries (remove key file)) = [] := by
  induction file with
  | nil => rfl
  | cons group file ih =>
    rw [remove]
    split_ifs with hgroup
    · have hname : group.name ≠ [] := hgroup ▸ hkey
      rw [List.map_cons, List.filter_cons_of_pos (by simpa using hname), List.nodup_cons] at h
      have hnone : key.1 ∉ file.map Group.name := by
        intro hmem
        exact h.1 (List.mem_filter.mpr ⟨hgroup ▸ hmem, by simpa using hname⟩)
      rw [values_cons, values_of_not_mem hnone]
      dsimp only
      rw [if_pos hgroup, groupValues_filter_self]
      rfl
    · have hrest : ((file.map Group.name).filter (· ≠ [])).Nodup := by
        rw [List.map_cons] at h
        exact h.sublist (List.Sublist.filter _ (List.sublist_cons_self ..))
      rw [values_cons, if_neg hgroup, ih hrest]
      rfl

theorem values_of_not_has (h : has key file = false) : values key (entries file) = [] := by
  induction file with
  | nil => rfl
  | cons group file ih =>
    rw [has, List.any_cons, Bool.or_eq_false_iff] at h
    rw [values_cons, ih h.2, List.append_nil]
    split_ifs with hname
    · rw [groupValues, List.filterMap_eq_nil_iff]
      intro line hline
      have hnone : group.lines.any (isPair key.2) = false := by simpa [hname] using h.1
      have hpair := List.any_eq_false.mp hnone line hline
      cases line with
      | raw raw => rfl
      | pair k v =>
        have hk : k ≠ key.2 := by simpa [isPair] using hpair
        simp [lineValue, hk]
    · rfl

end
/-- A file whose keys survive being read and written: every pair stands under a header that is
written, and every group under one header. -/
structure Tidy (file : KeyFile) : Prop extends Sound file where
  named : file.Named
  distinct : ((file.map Group.name).filter (· ≠ [])).Nodup

/-- A pair that can be set. -/
def Writable (entry : Key × Chars) : Prop :=
  entry.1.1 ≠ [] ∧ '\n' ∉ entry.1.1 ∧ (Line.pair entry.1.2 entry.2).Kept

section
variable {key : Key} {value : Chars} {file : KeyFile} {group : Group}

theorem mem_setLine {k : Chars} {lines : List Line} {line : Line}
    (h : line ∈ setLine k value lines) : line = .pair k value ∨ line ∈ lines := by
  induction lines with
  | nil => exact .inl (by simpa [setLine] using h)
  | cons head lines ih =>
    have hlift : line = .pair k value ∨ line ∈ lines →
        line = .pair k value ∨ line ∈ head :: lines :=
      fun hl => hl.imp_right (List.mem_cons_of_mem _)
    cases head with
    | raw raw =>
      rcases List.mem_cons.mp h with rfl | h
      · exact .inr List.mem_cons_self
      · exact hlift (ih h)
    | pair k' v' =>
      rw [setLine] at h
      split_ifs at h with hk
      · rcases List.mem_cons.mp h with rfl | h
        · exact .inl (by rw [hk])
        · exact .inr (List.mem_cons_of_mem _ h)
      · rcases List.mem_cons.mp h with rfl | h
        · exact .inr List.mem_cons_self
        · exact hlift (ih h)

/-- Every group of an edited file is one of the file, or of the key that was set. -/
theorem mem_set (h : group ∈ set key value file) : group ∈ file ∨
    (group.name = key.1 ∧ ∀ line ∈ group.lines,
      line = .pair key.2 value ∨ ∃ g ∈ file, line ∈ g.lines) := by
  induction file with
  | nil =>
    obtain rfl : group = ⟨key.1, [.pair key.2 value]⟩ := by simpa [set] using h
    exact .inr ⟨rfl, fun line hline => .inl (by simpa using hline)⟩
  | cons head file ih =>
    rw [set] at h
    split_ifs at h with hhead
    · rcases List.mem_cons.mp h with rfl | h
      · refine .inr ⟨hhead, fun line hline => ?_⟩
        exact (mem_setLine hline).imp_right fun hl => ⟨head, List.mem_cons_self, hl⟩
      · exact .inl (List.mem_cons_of_mem _ h)
    · rcases List.mem_cons.mp h with rfl | h
      · exact .inl List.mem_cons_self
      · rcases ih h with hold | ⟨hname, hlines⟩
        · exact .inl (List.mem_cons_of_mem _ hold)
        · refine .inr ⟨hname, fun line hline => (hlines line hline).imp_right ?_⟩
          rintro ⟨g, hg, hl⟩
          exact ⟨g, List.mem_cons_of_mem _ hg, hl⟩

theorem mem_remove (h : group ∈ remove key file) :
    ∃ g ∈ file, group.name = g.name ∧ group.lines.Sublist g.lines := by
  induction file with
  | nil => cases h
  | cons head file ih =>
    rw [remove] at h
    split_ifs at h with hhead
    · rcases List.mem_cons.mp h with rfl | h
      · exact ⟨head, List.mem_cons_self, rfl, List.filter_sublist⟩
      · exact ⟨group, List.mem_cons_of_mem _ h, rfl, .refl _⟩
    · rcases List.mem_cons.mp h with rfl | h
      · exact ⟨group, List.mem_cons_self, rfl, .refl _⟩
      · obtain ⟨g, hg, hsame⟩ := ih h
        exact ⟨g, List.mem_cons_of_mem _ hg, hsame⟩

theorem set_names : (set key value file).map Group.name =
    if key.1 ∈ file.map Group.name then file.map Group.name
    else file.map Group.name ++ [key.1] := by
  induction file with
  | nil => rfl
  | cons head file ih =>
    rw [set]
    split_ifs with hhead hmem hmem
    · rfl
    · exact absurd (by simp [hhead]) hmem
    · rw [List.map_cons, ih, if_pos (by simpa [Ne.symm hhead] using hmem), List.map_cons]
    · rw [List.map_cons, ih, if_neg (by simpa [Ne.symm hhead] using hmem), List.map_cons,
        List.cons_append]

theorem remove_names : (remove key file).map Group.name = file.map Group.name := by
  induction file with
  | nil => rfl
  | cons head file ih =>
    rw [remove]
    split_ifs
    · rfl
    · rw [List.map_cons, ih, List.map_cons]

theorem pairs_of_sublist {g : Group} (h : group.lines.Sublist g.lines) (hnone : g.pairs = []) :
    group.pairs = [] := by
  have hsub : group.pairs.Sublist g.pairs := h.filterMap _
  rw [hnone] at hsub
  exact List.sublist_nil.mp hsub

theorem Sound.set (h : file.Sound) (hnewline : '\n' ∉ key.1)
    (hkept : (Line.pair key.2 value).Kept) : (set key value file).Sound := by
  refine ⟨?_, fun g hg => ?_, fun g hg line hline => ?_⟩
  · rw [set_names]
    split_ifs
    · exact h.opens
    · rw [List.head?_append, h.opens]
      rfl
  · rcases mem_set hg with hold | ⟨hname, -⟩
    · exact h.names g hold
    · rw [hname]
      exact hnewline
  · rcases mem_set hg with hold | ⟨-, hlines⟩
    · exact h.kept g hold line hline
    · rcases hlines line hline with rfl | ⟨g', hg', hl⟩
      · exact hkept
      · exact h.kept g' hg' line hl

theorem Sound.remove (h : file.Sound) : (remove key file).Sound := by
  refine ⟨?_, fun g hg => ?_, fun g hg line hline => ?_⟩
  · rw [remove_names]
    exact h.opens
  · obtain ⟨g', hg', hsame, -⟩ := mem_remove hg
    rw [hsame]
    exact h.names g' hg'
  · obtain ⟨g', hg', -, hsub⟩ := mem_remove hg
    exact h.kept g' hg' line (hsub.subset hline)

theorem Tidy.set (h : file.Tidy) (hw : Writable (key, value)) : (set key value file).Tidy := by
  have hkey : key.1 ≠ [] := hw.1
  refine ⟨h.toSound.set hw.2.1 hw.2.2, fun g hg hname => ?_, ?_⟩
  · cases file with
    | nil =>
      have hopens := h.opens
      cases hopens
    | cons top rest =>
      have htop : top.name = [] := by simpa using h.opens
      have hne : top.name ≠ key.1 := htop ▸ Ne.symm hkey
      rw [KeyFile.set, if_neg hne] at hg
      rcases mem_set hg with hold | ⟨hsame, -⟩
      · exact h.named g hold hname
      · exact absurd (hsame.symm.trans hname) hkey
  · rw [set_names]
    split_ifs with hmem
    · exact h.distinct
    · rw [List.filter_append, List.nodup_append]
      refine ⟨h.distinct, (List.nodup_singleton _).sublist List.filter_sublist, fun a ha b hb => ?_⟩
      rintro rfl
      obtain rfl : a = key.1 := List.mem_singleton.mp (List.mem_of_mem_filter hb)
      exact hmem (List.mem_of_mem_filter ha)

theorem Tidy.remove (h : file.Tidy) : (remove key file).Tidy := by
  refine ⟨h.toSound.remove, fun g hg hname => ?_, ?_⟩
  · cases file with
    | nil => cases hg
    | cons top rest =>
      rw [KeyFile.remove] at hg
      split_ifs at hg
      · exact h.named g hg hname
      · obtain ⟨g', hg', hsame, hsub⟩ := mem_remove hg
        exact pairs_of_sublist hsub (h.named g' hg' (hsame.symm.trans hname))
  · rw [remove_names]
    exact h.distinct

end
end KeyFile
end Kuma.Overrides
