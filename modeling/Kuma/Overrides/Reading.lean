import Kuma.Overrides.Declared
import Kuma.Overrides.Reread

/-! A keyfile as `live_keys` reads it, to whom the last pair of a key wins, and as the edits look
at it: the first group of a name and the first pair of a key. -/
namespace Kuma.Overrides
open Kuma.Lib Kuma.Lib.Text KeyFile

/-- `live_keys`: the value of a key is its last pair's. -/
def liveKeys (text : Chars) (key : Key) : Option Chars :=
  (values key (parseDeclared text)).getLast?

namespace KeyFile

/-- The group that an edit of the name looks at. -/
def first (name : Chars) (file : KeyFile) : Option Group := file.find? (·.name = name)

/-- The values of a key in the group that an edit of it looks at. -/
def own (key : Key) (file : KeyFile) : List Chars :=
  ((first key.1 file).map fun group => groupValues key.2 group.lines).getD []

/-- The pairs of the groups that repeat a name. -/
def repeats (met : List Chars) : KeyFile → List (Key × Chars)
  | [] => []
  | group :: file =>
    (if group.name ∈ met then group.under group.name else []) ++
      repeats (group.name :: met) file

section
variable {key key' : Key} {value name k : Chars} {file : KeyFile} {group : Group}
  {lines : List Line} {met : List Chars} {text : Chars}

theorem values_append (a b : List (Key × Chars)) :
    values key (a ++ b) = values key a ++ values key b := List.filterMap_append

theorem values_under : values key (group.under name) =
    if name = key.1 then groupValues key.2 group.lines else [] := by
  have hentries : entries [⟨name, group.lines⟩] = group.under name := by
    simp [entries, Group.under, Group.pairs]
  rw [← hentries, values_cons]
  simp [entries, values]

theorem own_cons : own key (group :: file) =
    if group.name = key.1 then groupValues key.2 group.lines else own key file := by
  unfold own first
  rw [List.find?_cons]
  by_cases hname : group.name = key.1 <;> simp [hname]

theorem own_of_not_mem (h : key.1 ∉ file.map Group.name) : own key file = [] := by
  induction file with
  | nil => rfl
  | cons group file ih =>
    rw [List.map_cons, List.mem_cons, not_or] at h
    rw [own_cons, if_neg (Ne.symm h.1), ih h.2]

theorem groupValues_setLine_self :
    groupValues k (setLine k value lines) = value :: (groupValues k lines).tail := by
  unfold groupValues
  induction lines with
  | nil => simp [setLine, lineValue]
  | cons line lines ih =>
    cases line with
    | raw raw => simpa [setLine, List.filterMap_cons, lineValue] using ih
    | pair k' v' =>
      rw [setLine]
      split_ifs with hk
      · simp [lineValue, hk]
      · simpa [List.filterMap_cons, lineValue, hk] using ih

theorem own_set_self : own key (set key value file) = value :: (own key file).tail := by
  induction file with
  | nil => simp [set, own, first, groupValues, lineValue]
  | cons group file ih =>
    rw [set]
    split_ifs with hname
    · rw [own_cons, own_cons, if_pos hname, if_pos hname, groupValues_setLine_self]
    · rw [own_cons, own_cons, if_neg hname, if_neg hname, ih]

theorem own_set_of_ne (h : key' ≠ key) : own key' (set key value file) = own key' file := by
  have hk : key.1 = key'.1 → key'.2 ≠ key.2 := fun hname hk => h (Prod.ext hname.symm hk)
  induction file with
  | nil =>
    rw [set, own_cons]
    split_ifs with hname
    · simp [own, first, groupValues, lineValue, Ne.symm (hk hname)]
    · rfl
  | cons group file ih =>
    rw [set]
    split_ifs with hgroup
    · rw [own_cons, own_cons]
      split_ifs with hname
      · exact groupValues_setLine_of_ne (hk (hgroup.symm.trans hname))
      · rfl
    · rw [own_cons, own_cons, ih]

theorem own_remove_self : own key (remove key file) = [] := by
  induction file with
  | nil => rfl
  | cons group file ih =>
    rw [remove]
    split_ifs with hname
    · rw [own_cons, if_pos hname, groupValues_filter_self]
    · rw [own_cons, if_neg hname, ih]

theorem own_remove_of_ne (h : key' ≠ key) : own key' (remove key file) = own key' file := by
  have hk : key.1 = key'.1 → key'.2 ≠ key.2 := fun hname hk => h (Prod.ext hname.symm hk)
  induction file with
  | nil => rfl
  | cons group file ih =>
    rw [remove]
    split_ifs with hgroup
    · rw [own_cons, own_cons]
      split_ifs with hname
      · exact groupValues_filter_of_ne (hk (hgroup.symm.trans hname))
      · rfl
    · rw [own_cons, own_cons, ih]

theorem find_pairs : (group.pairs.find? (·.1 = k)).map Prod.snd =
    (groupValues k group.lines).head? := by
  unfold Group.pairs groupValues
  induction group.lines with
  | nil => rfl
  | cons line lines ih =>
    cases line with
    | raw raw => simpa [List.filterMap_cons, lineValue] using ih
    | pair k' v' =>
      by_cases hk : k' = k
      · simp [lineValue, hk]
      · simpa [List.filterMap_cons, lineValue, hk] using ih

/-- What convergence compares is the first pair of the first group. -/
theorem existing_eq : existing key file = (own key file).head? := by
  unfold existing own first
  cases file.find? (·.name = key.1) with
  | none => rfl
  | some group => simpa using find_pairs

/-- The pairs under a name that was not met are those of its first group and of the groups that
repeat it. -/
theorem values_entries (met : List Chars) : values key (entries file) =
    (if key.1 ∈ met then [] else own key file) ++ values key (repeats met file) := by
  induction file generalizing met with
  | nil => simp [entries, repeats, values, own, first]
  | cons group file ih =>
    have hhead : values key (if group.name ∈ met then group.under group.name else []) =
        if group.name ∈ met ∧ group.name = key.1 then groupValues key.2 group.lines else [] := by
      by_cases hmet : group.name ∈ met
      · simp [hmet, values_under]
      · simp [hmet, values]
    rw [values_cons, repeats, values_append, hhead, ih (group.name :: met), own_cons]
    by_cases hname : group.name = key.1
    · by_cases hmet : key.1 ∈ met <;> simp [hname, hmet]
    · by_cases hmet : key.1 ∈ met <;> simp [hname, hmet, Ne.symm hname]

theorem values_own_repeats :
    values key (entries file) = own key file ++ values key (repeats [] file) :=
  (values_entries []).trans (by rw [if_neg List.not_mem_nil])

end
end KeyFile

section
variable {key : Key} {text : Chars}

theorem values_parseDeclared (h : key.1 ≠ []) :
    values key (parseDeclared text) = values key (entries (parse text)) := by
  rw [parseDeclared_eq]
  unfold values
  rw [List.filterMap_filter]
  apply List.filterMap_congr
  intro entry _
  by_cases hkey : entry.1 = key
  · simp [hkey, h]
  · simp [hkey]

/-- No key is read outside of the groups. -/
theorem liveKeys_of_nameless (h : key.1 = []) : liveKeys text key = none := by
  have hnone : values key (parseDeclared text) = [] := by
    rw [parseDeclared_eq]
    unfold values
    rw [List.filterMap_eq_nil_iff]
    intro entry hentry
    have hname := (List.mem_filter.mp hentry).2
    rw [if_neg]
    rintro rfl
    simp [h] at hname
  rw [liveKeys, hnone, List.getLast?_nil]

theorem liveKeys_eq (h : key.1 ≠ []) : liveKeys text key =
    (own key (parse text) ++ values key (repeats [] (parse text))).getLast? := by
  rw [liveKeys, values_parseDeclared h, values_own_repeats]

end
end Kuma.Overrides
