import Kuma.Overrides.Reading

/-! What one convergence comes to for a reader to whom the last pair of a key wins. -/
namespace Kuma.Overrides
open Kuma.Lib Kuma.Lib.Text KeyFile

def ownedIds (wanted : List (Key × Chars)) : List Chars :=
  wanted.map fun entry => ownedId entry.1

/-- A key that was set before and is wanted no longer. -/
def TakenBack (wanted : List (Key × Chars)) (previously : List Chars) (key : Key) : Prop :=
  ∃ id ∈ previously, id ∉ ownedIds wanted ∧ splitOnce '\t' id = some key

instance (wanted : List (Key × Chars)) (previously : List Chars) (key : Key) :
    Decidable (TakenBack wanted previously key) :=
  inferInstanceAs (Decidable (∃ id ∈ previously, _))

/-- One convergence did what it says, in the file as `live_keys` reads it. -/
structure ConvergesRight (live : Chars) (wanted : List (Key × Chars)) (previously : List Chars) :
    Prop where
  has : ∀ entry ∈ wanted,
    liveKeys (converge live wanted previously).1 entry.1 = some entry.2
  gone : ∀ key, TakenBack wanted previously key →
    liveKeys (converge live wanted previously).1 key = none
  others : ∀ key, key ∉ wanted.map Prod.fst → ¬ TakenBack wanted previously key →
    liveKeys (converge live wanted previously).1 key = liveKeys live key
  owned : (converge live wanted previously).2.2 = ownedIds wanted
  set : (converge live wanted previously).2.1.set =
    (wanted.filter fun entry => liveKeys live entry.1 ≠ some entry.2).map
      fun entry => ownedId entry.1
  removed : ∀ id, id ∈ (converge live wanted previously).2.1.removed ↔
    id ∈ previously ∧ id ∉ ownedIds wanted ∧
      ∃ key, splitOnce '\t' id = some key ∧ liveKeys live key ≠ none

namespace KeyFile

/-- The pairs that no edit looks at, by the header that they stand under once the file is
written. `kept` says of a name whether its first header is written again. -/
def beyond (kept : Chars → Bool) (above : Chars) (met : List Chars) :
    KeyFile → List (Key × Chars)
  | [] => []
  | group :: file =>
    if group.name = [] then group.under above ++ beyond kept above (group.name :: met) file
    else if group.name ∈ met then
      group.under group.name ++
        beyond kept (if group.lines.any counts then group.name else above)
          (group.name :: met) file
    else
      beyond kept (if kept group.name then group.name else above) (group.name :: met) file

/-- The lines of the first group of a name that are no pairs. -/
def raws (name : Chars) (file : KeyFile) : List Chars :=
  ((first name file).map fun group => group.lines.filterMap fun
    | .pair _ _ => none
    | .raw line => some line).getD []

/-- A file with other pairs in the first group of each name, and with new groups at its end. -/
inductive Revised : List Chars → KeyFile → KeyFile → Prop
  | grown {met : List Chars} {file : KeyFile} (hname : ∀ group ∈ file, group.name ≠ [])
      (hnew : ∀ group ∈ file, group.name ∉ met) (hnodup : (file.map Group.name).Nodup) :
      Revised met [] file
  | again {met : List Chars} {group : Group} {file file' : KeyFile} (hmet : group.name ∈ met)
      (hrest : Revised (group.name :: met) file file') :
      Revised met (group :: file) (group :: file')
  | first {met : List Chars} {group : Group} {lines : List Line} {file file' : KeyFile}
      (hmet : group.name ∉ met) (hrest : Revised (group.name :: met) file file') :
      Revised met (group :: file) (⟨group.name, lines⟩ :: file')

section
variable {key : Key} {value above name : Chars} {file file' : KeyFile} {met : List Chars}
  {kept : Chars → Bool}

theorem Revised.refl (met : List Chars) (file : KeyFile) : Revised met file file := by
  induction file generalizing met with
  | nil =>
    exact .grown (fun _ h => absurd h List.not_mem_nil) (fun _ h => absurd h List.not_mem_nil)
      List.nodup_nil
  | cons group file ih =>
    by_cases hmet : group.name ∈ met
    · exact .again hmet (ih _)
    · exact .first hmet (ih _)

theorem Revised.set (h : Revised met file file') (hname : key.1 ≠ []) (hkey : key.1 ∉ met) :
    Revised met file (set key value file') := by
  induction h with
  | grown hnamed hnew hnodup =>
    refine .grown (fun g hg => ?_) (fun g hg => ?_) ?_
    · rcases mem_set hg with hold | ⟨hsame, -⟩
      · exact hnamed g hold
      · rwa [hsame]
    · rcases mem_set hg with hold | ⟨hsame, -⟩
      · exact hnew g hold
      · rwa [hsame]
    · rw [set_names]
      split_ifs with hmem
      · exact hnodup
      · exact List.nodup_append.mpr ⟨hnodup, List.nodup_singleton _, by
          rintro a ha b hb rfl
          exact hmem (List.mem_singleton.mp hb ▸ ha)⟩
  | @again met group file file' hmet hrest ih =>
    have hne : group.name ≠ key.1 := fun hsame => hkey (hsame ▸ hmet)
    rw [KeyFile.set, if_neg hne]
    refine .again hmet (ih ?_)
    rw [List.mem_cons, not_or]
    exact ⟨Ne.symm hne, hkey⟩
  | @first met group lines file file' hmet hrest ih =>
    rw [KeyFile.set]
    split_ifs with hsame
    · exact .first hmet hrest
    · refine .first hmet (ih ?_)
      rw [List.mem_cons, not_or]
      exact ⟨Ne.symm hsame, hkey⟩

theorem Revised.remove (h : Revised met file file') (hkey : key.1 ∉ met) :
    Revised met file (remove key file') := by
  induction h with
  | @grown met file' hnamed hnew hnodup =>
    refine .grown (fun g hg => ?_) (fun g hg => ?_) ?_
    · obtain ⟨g', hg', hsame, -⟩ := mem_remove hg
      rw [hsame]
      exact hnamed g' hg'
    · obtain ⟨g', hg', hsame, -⟩ := mem_remove hg
      rw [hsame]
      exact hnew g' hg'
    · rwa [remove_names]
  | @again met group file file' hmet hrest ih =>
    have hne : group.name ≠ key.1 := fun hsame => hkey (hsame ▸ hmet)
    rw [KeyFile.remove, if_neg hne]
    refine .again hmet (ih ?_)
    rw [List.mem_cons, not_or]
    exact ⟨Ne.symm hne, hkey⟩
  | @first met group lines file file' hmet hrest ih =>
    rw [KeyFile.remove]
    split_ifs with hsame
    · exact .first hmet hrest
    · refine .first hmet (ih ?_)
      rw [List.mem_cons, not_or]
      exact ⟨Ne.symm hsame, hkey⟩

/-- Groups of names that differ are written and read as they are. -/
theorem values_underHeaders_of_nodup (hname : ∀ group ∈ file, group.name ≠ [])
    (hnodup : (file.map Group.name).Nodup) :
    values key (underHeaders above file) = own key file := by
  induction file generalizing above with
  | nil => rfl
  | cons group file ih =>
    obtain ⟨hnew, hrest⟩ := List.nodup_cons.mp hnodup
    have hread : ∀ above, values key (underHeaders above file) = own key file :=
      fun above => ih (fun g hg => hname g (List.mem_cons_of_mem _ hg)) hrest
    have hown : group.name = key.1 → own key file = [] := fun hsame =>
      own_of_not_mem (hsame ▸ hnew)
    rw [underHeaders, if_neg (hname group List.mem_cons_self), own_cons]
    split_ifs with hcounts hsame hsame
    · rw [values_append, values_under, if_pos hsame, hread, hown hsame, List.append_nil]
    · rw [values_append, values_under, if_neg hsame, hread, List.nil_append]
    · have hpairs := pairs_of_not_counts (by simpa using hcounts)
      have hnone : group.under key.1 = [] := by rw [Group.under, hpairs, List.map_nil]
      have hvalues : values key (group.under key.1) =
          if key.1 = key.1 then groupValues key.2 group.lines else [] := values_under
      rw [hnone, if_pos rfl] at hvalues
      rw [hread, hown hsame]
      exact hvalues
    · exact hread above

theorem groupValues_of_not_counts {k : Chars} {group : Group} (h : group.lines.any counts = false) :
    groupValues k group.lines = [] := by
  have hvalues : values (k, k) (group.under k) =
      if k = k then groupValues k group.lines else [] := values_under
  rw [Group.under, pairs_of_not_counts h, if_pos rfl] at hvalues
  exact hvalues.symm

/-- What is read of a written revision: the pairs that the edits looked at, then the others. -/
theorem Revised.values_underHeaders (h : Revised met file file') (hnameless : [] ∈ met)
    (hkept : ∀ name ∉ met, ∀ group ∈ KeyFile.first name file',
      group.lines.any counts = kept name)
    (habove : above = key.1 → key.1 ∈ met) :
    values key (underHeaders above file') =
      (if key.1 ∈ met then [] else own key file') ++ values key (beyond kept above met file) := by
  induction h generalizing above with
  | @grown met file' hnamed hnew hnodup =>
    rw [values_underHeaders_of_nodup hnamed hnodup]
    split_ifs with hmet
    · rw [own_of_not_mem]
      · rfl
      · intro hmem
        obtain ⟨group, hgroup, hsame⟩ := List.mem_map.mp hmem
        exact hnew group hgroup (hsame ▸ hmet)
    · simp [beyond, values]
  | @again met group file file' hmet hrest ih =>
    have hmem : key.1 ∈ group.name :: met ↔ key.1 ∈ met := by
      rw [List.mem_cons, or_iff_right_of_imp]
      rintro hsame
      rwa [hsame]
    have hnext : ∀ above, (above = key.1 → key.1 ∈ met) →
        values key (underHeaders above file') = (if key.1 ∈ met then [] else own key file') ++
          values key (beyond kept above (group.name :: met) file) := by
      intro above habove
      simp only [hmem] at ih
      apply ih (List.mem_cons_of_mem _ hnameless) _ habove
      intro name hname g hg
      rw [List.mem_cons, not_or] at hname
      apply hkept name hname.2 g
      unfold KeyFile.first at hg ⊢
      rwa [List.find?_cons_of_neg (by simpa using Ne.symm hname.1)]
    have hown : key.1 ∉ met → own key (group :: file') = own key file' := by
      intro hnot
      rw [own_cons, if_neg]
      rintro hsame
      exact hnot (hsame ▸ hmet)
    -- a group of a name that was met has no part in what comes first
    have hswap : ∀ {name : Chars} {rest : List Chars}, (name = key.1 → key.1 ∈ met) →
        values key (group.under name) ++ ((if key.1 ∈ met then [] else own key file') ++ rest) =
          (if key.1 ∈ met then [] else own key (group :: file')) ++
            (values key (group.under name) ++ rest) := by
      intro name rest hname
      by_cases hkey : key.1 ∈ met
      · simp [hkey]
      · have hnone : values key (group.under name) = [] := by
          rw [values_under, if_neg fun hsame => hkey (hname hsame)]
        simp [hkey, hnone, hown hkey]
    have hhere : group.name = key.1 → key.1 ∈ met := fun hsame => hsame ▸ hmet
    rw [underHeaders, beyond]
    by_cases hname : group.name = []
    · rw [if_pos hname, if_pos hname, values_append, values_append, hnext above habove,
        hswap habove]
    · rw [if_neg hname, if_neg hname, if_pos hmet, values_append]
      by_cases hcounts : group.lines.any counts = true
      · rw [if_pos hcounts, if_pos hcounts, values_append, hnext group.name hhere, hswap hhere]
      · have hnone : values key (group.under group.name) = [] := by
          rw [values_under, groupValues_of_not_counts (by simpa using hcounts), ite_self]
        rw [if_neg hcounts, if_neg hcounts, hnext above habove, hnone, List.nil_append]
        by_cases hkey : key.1 ∈ met
        · rw [if_pos hkey, if_pos hkey]
        · rw [if_neg hkey, if_neg hkey, hown hkey]
  | @first met group lines file file' hmet hrest ih =>
    have hname : group.name ≠ [] := fun hnil => hmet (hnil ▸ hnameless)
    have hcounts : lines.any counts = kept group.name := by
      apply hkept group.name hmet ⟨group.name, lines⟩
      simp [KeyFile.first]
    have hnext : ∀ above, (above = key.1 → key.1 ∈ group.name :: met) →
        values key (underHeaders above file') =
          (if key.1 ∈ group.name :: met then [] else own key file') ++
            values key (beyond kept above (group.name :: met) file) := by
      intro above habove
      apply ih (List.mem_cons_of_mem _ hnameless) _ habove
      intro name hname g hg
      rw [List.mem_cons, not_or] at hname
      apply hkept name hname.2 g
      unfold KeyFile.first at hg ⊢
      rwa [List.find?_cons_of_neg (by simpa using Ne.symm hname.1)]
    have hlater : above = key.1 → key.1 ∈ group.name :: met := fun hsame =>
      List.mem_cons_of_mem _ (habove hsame)
    have hhere : group.name = key.1 → key.1 ∈ group.name :: met := fun hsame =>
      hsame ▸ List.mem_cons_self
    rw [underHeaders, beyond, if_neg hname, if_neg hname, if_neg hmet, own_cons]
    by_cases hwritten : lines.any counts = true
    · have hkeep : kept group.name = true := hcounts ▸ hwritten
      rw [if_pos hwritten, if_pos hkeep, values_append, hnext group.name hhere, values_under]
      by_cases hsame : group.name = key.1
      · have hnot : key.1 ∉ met := hsame ▸ hmet
        simp [hsame, hnot]
      · simp [hsame, Ne.symm hsame]
    · have hkeep : kept group.name = false := by simpa [hcounts] using hwritten
      have hpairs : groupValues key.2 (Group.mk group.name lines).lines = [] :=
        groupValues_of_not_counts (by simpa using hwritten)
      rw [if_neg hwritten, hkeep, if_neg Bool.false_ne_true, hnext above hlater]
      by_cases hsame : group.name = key.1
      · have hnot : key.1 ∉ met := hsame ▸ hmet
        simp [hsame, hnot, hpairs]
      · simp [hsame, Ne.symm hsame]

/-- A revised file, read again under the headers that are written. -/
theorem Revised.values_render (h : Revised [] file file')
    (hopens : (file.map Group.name).head? = some []) (hkey : key.1 ≠ []) (hkept : ∀ name ≠ [], ∀ group ∈ KeyFile.first name file',
      group.lines.any counts = kept name) :
    values key (underHeaders [] file') = own key file' ++ values key (beyond kept [] [] file) := by
  have hunder : ∀ group : Group, values key (group.under []) = [] := by
    intro group
    rw [values_under, if_neg (Ne.symm hkey)]
  cases h with
  | grown => cases hopens
  | again hmet => cases hmet
  | @first _ top lines file file' hmet hrest =>
    have htop : top.name = [] := by simpa using hopens
    have hsame : top.name ≠ key.1 := htop ▸ Ne.symm hkey
    rw [htop] at hrest
    have hkept' : ∀ name ∉ [[]], ∀ group ∈ KeyFile.first name file',
        group.lines.any counts = kept name := by
      intro name hname group hgroup
      rw [List.mem_singleton] at hname
      apply hkept name hname group
      unfold KeyFile.first at hgroup ⊢
      rwa [List.find?_cons_of_neg (by simpa [htop] using Ne.symm hname)]
    have hnext : values key (underHeaders [] file') =
        (if key.1 ∈ [[]] then [] else own key file') ++
          values key (beyond kept [] [[]] file) :=
      hrest.values_underHeaders List.mem_cons_self hkept' fun hsame => absurd hsame.symm hkey
    rw [underHeaders, beyond, if_pos htop, if_pos htop, values_append, values_append, hunder,
      hunder, own_cons, if_neg hsame, htop, hnext, if_neg]
    · rfl
    · simpa using hkey

theorem raws_cons {group : Group} : raws name (group :: file) =
    if group.name = name then raws name [⟨name, group.lines⟩] else raws name file := by
  unfold raws KeyFile.first
  rw [List.find?_cons, List.find?_cons]
  by_cases hname : group.name = name <;> simp [hname]

theorem raws_set : raws name (set key value file) = raws name file := by
  have hlines : ∀ lines, raws name [⟨name, setLine key.2 value lines⟩] =
      raws name [⟨name, lines⟩] := by
    intro lines
    induction lines with
    | nil => simp [raws, KeyFile.first, setLine]
    | cons line lines ih =>
      cases line with
      | raw raw => simpa [raws, KeyFile.first, setLine] using ih
      | pair k v =>
        rw [setLine]
        split_ifs
        · simp [raws, KeyFile.first]
        · simpa [raws, KeyFile.first] using ih
  induction file with
  | nil => by_cases hname : key.1 = name <;> simp [set, raws, KeyFile.first, hname]
  | cons group file ih =>
    rw [set]
    split_ifs with hgroup
    · rw [raws_cons, hlines]
      exact (@raws_cons name file group).symm
    · rw [raws_cons, ih, ← raws_cons]

theorem raws_remove : raws name (remove key file) = raws name file := by
  have hlines : ∀ lines : List Line, raws name [⟨name, lines.filter fun l => !isPair key.2 l⟩] =
      raws name [⟨name, lines⟩] := by
    intro lines
    induction lines with
    | nil => rfl
    | cons line lines ih =>
      cases line with
      | raw raw => simpa [raws, KeyFile.first, isPair] using ih
      | pair k v =>
        by_cases hk : k = key.2 <;> simpa [raws, KeyFile.first, isPair, hk] using ih
  induction file with
  | nil => rfl
  | cons group file ih =>
    rw [remove]
    split_ifs with hgroup
    · rw [raws_cons, hlines]
      exact (@raws_cons name file group).symm
    · rw [raws_cons, ih, ← raws_cons]

/-- A group counts for a pair of it, or for a line that is not blank. -/
theorem counts_first {group : Group} (h : group ∈ first name file) :
    group.lines.any counts = true ↔
      (∃ k, own (name, k) file ≠ []) ∨ ∃ raw ∈ raws name file, trim raw ≠ [] := by
  have hown : ∀ k, own (name, k) file = groupValues k group.lines := by
    intro k
    simp [own, Option.mem_def.mp h]
  have hraws : raws name file = group.lines.filterMap fun
      | .pair _ _ => none
      | .raw line => some line := by simp [raws, Option.mem_def.mp h]
  rw [hraws, List.any_eq_true]
  constructor
  · rintro ⟨line, hline, hcounts⟩
    cases line with
    | pair k v =>
      refine .inl ⟨k, List.ne_nil_of_mem (a := v) ?_⟩
      rw [hown, groupValues, List.mem_filterMap]
      exact ⟨.pair k v, hline, by simp [lineValue]⟩
    | raw raw =>
      exact .inr ⟨raw, List.mem_filterMap.mpr ⟨.raw raw, hline, rfl⟩,
        by simpa [counts] using hcounts⟩
  · rintro (⟨k, hk⟩ | ⟨raw, hraw, hblank⟩)
    · rw [hown, groupValues] at hk
      obtain ⟨v, hv⟩ := List.exists_mem_of_ne_nil _ hk
      obtain ⟨line, hline, hlv⟩ := List.mem_filterMap.mp hv
      cases line with
      | raw raw => cases hlv
      | pair k' v' => exact ⟨_, hline, rfl⟩
    · obtain ⟨line, hline, hlr⟩ := List.mem_filterMap.mp hraw
      cases line with
      | pair k v => cases hlr
      | raw raw' =>
        obtain rfl := Option.some.inj hlr
        exact ⟨_, hline, by simpa [counts] using hblank⟩

end
end KeyFile

section
variable {file file' : KeyFile} {key : Key} {value : Chars} {wanted : List (Key × Chars)}
  {owned previously : List Chars}

theorem revised_setKeys (h : Revised [] file file') (hwanted : ∀ entry ∈ wanted, entry.1.1 ≠ []) :
    Revised [] file (setKeys file' wanted).1 := by
  induction wanted generalizing file' with
  | nil => exact h
  | cons entry wanted ih =>
    exact ih (h.set (hwanted entry List.mem_cons_self) List.not_mem_nil)
      fun e he => hwanted e (List.mem_cons_of_mem _ he)

theorem raws_setKeys {name : Chars} : raws name (setKeys file wanted).1 = raws name file := by
  induction wanted generalizing file with
  | nil => rfl
  | cons entry wanted ih => exact ih.trans raws_set

theorem own_setKeys_of_notMem (h : key ∉ wanted.map Prod.fst) :
    own key (setKeys file wanted).1 = own key file := by
  induction wanted generalizing file with
  | nil => rfl
  | cons entry wanted ih =>
    rw [List.map_cons, List.mem_cons, not_or] at h
    exact (ih h.2).trans (own_set_of_ne h.1)

theorem own_setKeys (hnodup : (wanted.map Prod.fst).Nodup) (h : (key, value) ∈ wanted) :
    own key (setKeys file wanted).1 = value :: (own key file).tail := by
  induction wanted generalizing file with
  | nil => cases h
  | cons entry wanted ih =>
    obtain ⟨hnew, hrest⟩ := List.nodup_cons.mp hnodup
    rcases List.mem_cons.mp h with rfl | h
    · exact (own_setKeys_of_notMem hnew).trans own_set_self
    · have hne : key ≠ entry.1 := fun hsame => hnew (hsame ▸ List.mem_map_of_mem h)
      have hset : own key (file.set entry.1 entry.2) = own key file := own_set_of_ne hne
      rw [← hset]
      exact ih hrest h

/-- What the loop reports is what each key had before it. -/
theorem own_setKeys_ne_nil (h : key ∈ wanted.map Prod.fst) :
    own key (setKeys file wanted).1 ≠ [] := by
  induction wanted generalizing file with
  | nil => cases h
  | cons entry wanted ih =>
    by_cases hlater : key ∈ wanted.map Prod.fst
    · exact ih hlater
    · have hkey : key = entry.1 := (List.mem_cons.mp h).resolve_right hlater
      have hkept : own key (setKeys (file.set entry.1 entry.2) wanted).1 =
          own key (file.set entry.1 entry.2) := own_setKeys_of_notMem hlater
      change own key (setKeys (file.set entry.1 entry.2) wanted).1 ≠ []
      rw [hkept, hkey, own_set_self]
      exact List.cons_ne_nil _ _

theorem setKeys_set (hnodup : (wanted.map Prod.fst).Nodup) : (setKeys file wanted).2 =
    (wanted.filter fun entry => (own entry.1 file).head? ≠ some entry.2).map
      fun entry => ownedId entry.1 := by
  induction wanted generalizing file with
  | nil => rfl
  | cons entry wanted ih =>
    obtain ⟨key, value⟩ := entry
    obtain ⟨hnew, hrest⟩ := List.nodup_cons.mp hnodup
    have hsame : (wanted.filter fun entry => (own entry.1 (file.set key value)).head? ≠
        some entry.2) = wanted.filter fun entry => (own entry.1 file).head? ≠ some entry.2 := by
      apply List.filter_congr
      intro entry hentry
      have hne : entry.1 ≠ key := by
        have hmem : entry.1 ∈ wanted.map Prod.fst := List.mem_map_of_mem hentry
        rintro rfl
        exact hnew hmem
      rw [own_set_of_ne hne]
    rw [setKeys]
    dsimp only
    rw [ih hrest, hsame, existing_eq, List.filter_cons]
    by_cases hhas : (own key file).head? = some value <;> simp [hhas]

theorem ownedId_of_splitOnce {id : Chars} (h : splitOnce '\t' id = some key) : id = ownedId key :=
  (splitOnce_eq_some h).1

theorem TakenBack.notMem (h : TakenBack wanted previously key) : key ∉ wanted.map Prod.fst := by
  obtain ⟨id, -, howned, hkey⟩ := h
  intro hmem
  obtain ⟨entry, hentry, rfl⟩ := List.mem_map.mp hmem
  exact howned (List.mem_map.mpr ⟨entry, hentry, (ownedId_of_splitOnce hkey).symm⟩)

theorem own_removeKeys_of_not (h : ¬ TakenBack wanted previously key) :
    own key (removeKeys (ownedIds wanted) file previously).1 = own key file := by
  apply removeKeys_rule (I := fun f => own key f = own key file) rfl
  intro id hid howned k hk f hf
  have hne : key ≠ k := by
    rintro rfl
    exact h ⟨id, hid, howned, hk⟩
  rw [own_remove_of_ne hne, hf]

theorem raws_removeKeys {name : Chars} :
    raws name (removeKeys owned file previously).1 = raws name file :=
  removeKeys_rule (I := fun f => raws name f = raws name file) rfl
    fun _ _ _ _ _ _ hf => raws_remove.trans hf

theorem revised_removeKeys (h : Revised [] file file') :
    Revised [] file (removeKeys owned file' previously).1 :=
  removeKeys_rule (I := Revised [] file) h fun _ _ _ _ _ _ hf => hf.remove List.not_mem_nil

/-- A key taken back is gone from the group that is looked at. -/
theorem own_removeKeys (h : TakenBack wanted previously key) :
    own key (removeKeys (ownedIds wanted) file previously).1 = [] := by
  have habsent : ∀ f : KeyFile, f.has key = false → own key f = [] := by
    intro f hhas
    have hall : values key (entries f) = own key f ++ values key (repeats [] f) :=
      values_own_repeats
    exact (List.append_eq_nil_iff.mp (hall.symm.trans (values_of_not_has hhas))).1
  obtain ⟨id, hid, howned, hkey⟩ := h
  refine removeKeys_reaches (I := fun _ => True) (P := fun f => own key f = []) hid howned hkey
    (fun _ _ _ => trivial) (fun _ _ => own_remove_self) (fun f _ => habsent f)
    (fun k f _ hnone => ?_) trivial
  by_cases hk : key = k
  · rw [hk, own_remove_self]
  · rw [own_remove_of_ne hk, hnone]

theorem has_iff : file.has key = true ↔ values key (entries file) ≠ [] := by
  constructor
  · intro hhas
    obtain ⟨group, hgroup, hpair⟩ := List.any_eq_true.mp hhas
    rw [Bool.and_eq_true, decide_eq_true_eq] at hpair
    obtain ⟨line, hline, hkey⟩ := List.any_eq_true.mp hpair.2
    cases line with
    | raw raw => cases hkey
    | pair k v =>
      have hk : k = key.2 := by simpa [isPair] using hkey
      have hmem : (k, v) ∈ group.pairs := List.mem_filterMap.mpr ⟨_, hline, rfl⟩
      apply List.ne_nil_of_mem (a := v)
      refine List.mem_filterMap.mpr ⟨((group.name, k), v), ?_, ?_⟩
      · exact List.mem_flatMap.mpr ⟨group, hgroup, List.mem_map_of_mem hmem⟩
      · rw [if_pos (Prod.ext hpair.1 hk)]
  · intro hvalues
    by_contra hhas
    exact hvalues (values_of_not_has (by simpa using hhas))

/-- What the loop reports is what was there of the keys that it takes back. -/
theorem mem_removeKeys {id : Chars} :
    id ∈ (removeKeys owned file previously).2 ↔ id ∈ previously ∧ id ∉ owned ∧
      ∃ key, splitOnce '\t' id = some key ∧ values key (entries file) ≠ [] := by
  induction previously generalizing file with
  | nil => simp [removeKeys]
  | cons head previously ih =>
    -- an id that is not taken back is nothing to the loop
    have hskip : (id = head → ¬ (id ∉ owned ∧
        ∃ key, splitOnce '\t' id = some key ∧ values key (entries file) ≠ [])) →
        (id ∈ (removeKeys owned file previously).2 ↔ id ∈ head :: previously ∧ id ∉ owned ∧
          ∃ key, splitOnce '\t' id = some key ∧ values key (entries file) ≠ []) := by
      intro hhead
      rw [ih, List.mem_cons]
      constructor
      · rintro ⟨hid, hrest⟩
        exact ⟨.inr hid, hrest⟩
      · rintro ⟨rfl | hid, hrest⟩
        · exact absurd hrest (hhead rfl)
        · exact ⟨hid, hrest⟩
    rw [removeKeys]
    split_ifs with howned
    · apply hskip
      rintro rfl ⟨hnot, -⟩
      exact hnot howned
    · cases hsplit : splitOnce '\t' head with
      | none =>
        apply hskip
        rintro rfl ⟨-, key, hkey, -⟩
        rw [hsplit] at hkey
        cases hkey
      | some key =>
        dsimp only
        split_ifs with hhas
        · rw [List.mem_cons, ih, List.mem_cons]
          have hremove : id ≠ head → ∀ k, splitOnce '\t' id = some k →
              values k (entries (file.remove key)) = values k (entries file) := by
            intro hne k hk
            apply values_remove_of_ne
            rintro rfl
            exact hne ((ownedId_of_splitOnce hk).trans (ownedId_of_splitOnce hsplit).symm)
          constructor
          · rintro (rfl | ⟨hid, hnot, k, hk, hvalues⟩)
            · exact ⟨.inl rfl, howned, key, hsplit, has_iff.mp hhas⟩
            · by_cases hne : id = head
              · subst hne
                exact ⟨.inl rfl, howned, key, hsplit, has_iff.mp hhas⟩
              · exact ⟨.inr hid, hnot, k, hk, hremove hne k hk ▸ hvalues⟩
          · rintro ⟨rfl | hid, hnot, k, hk, hvalues⟩
            · exact .inl rfl
            · by_cases hne : id = head
              · exact .inl hne
              · exact .inr ⟨hid, hnot, k, hk, (hremove hne k hk).symm ▸ hvalues⟩
        · apply hskip
          rintro rfl ⟨-, k, hk, hvalues⟩
          obtain rfl : key = k := Option.some.inj (hsplit.symm.trans hk)
          exact hhas (has_iff.mpr hvalues)

end

section
variable (live : Chars) (wanted : List (Key × Chars)) (previously : List Chars)

/-- The file with its edits, before it is written. -/
def edited : KeyFile :=
  (removeKeys (ownedIds wanted) (setKeys (parse live) wanted).1 previously).1

/-- Whether the first header of a name is written again: a key is wanted under it, or a line of
the group stays that counts. -/
def keepsHeader (name : Chars) : Bool :=
  wanted.any (·.1.1 = name) || (first name (parse live)).any fun group => group.lines.any fun
    | .pair key _ => !decide (TakenBack wanted previously (name, key))
    | .raw line => trim line ≠ []

/-- The pairs outside of the first group of their name, each under the header that it comes to
stand under. That is another one than its own where its own is empty. -/
def strays : List (Key × Chars) := beyond (keepsHeader live wanted previously) [] [] (parse live)

/-- No pair of a wanted key comes after its first one, or the last that does has the value. -/
def Settles (entry : Key × Chars) : Prop :=
  ∀ value ∈ ((own entry.1 (parse live)).tail ++
    values entry.1 (strays live wanted previously)).getLast?, value = entry.2

/-- The edits and the reader mean the same pairs: each wanted key settles, by its id a first pair
says what the last says, a key taken back is in no later group and in no nameless one, and no
other key has another value under the headers that are written. -/
structure MeansOnePair : Prop where
  writable : ∀ entry ∈ wanted, Writable entry
  settles : ∀ entry ∈ wanted, Settles live wanted previously entry
  reported :
    ((wanted.filter fun entry => (own entry.1 (parse live)).head? ≠ some entry.2).map
      fun entry => ownedId entry.1) =
    (wanted.filter fun entry => liveKeys live entry.1 ≠ some entry.2).map
      fun entry => ownedId entry.1
  taken : ∀ key, TakenBack wanted previously key → key.1 ≠ [] →
    values key (strays live wanted previously) = []
  nameless : ∀ key, TakenBack wanted previously key → key.1 = [] →
    values key (entries (parse live)) = []
  others : ∀ key, key.1 ≠ [] → key ∉ wanted.map Prod.fst → ¬ TakenBack wanted previously key →
    (own key (parse live) ++ values key (strays live wanted previously)).getLast? =
      liveKeys live key

end

section
variable {live : Chars} {wanted : List (Key × Chars)} {previously : List Chars} {key : Key}
  {value name : Chars}

theorem own_edited (hnodup : (wanted.map Prod.fst).Nodup) (h : (key, value) ∈ wanted) :
    own key (edited live wanted previously) = value :: (own key (parse live)).tail := by
  have hnot : ¬ TakenBack wanted previously key :=
    fun htaken => htaken.notMem (List.mem_map_of_mem h)
  rw [edited, own_removeKeys_of_not hnot, own_setKeys hnodup h]

theorem own_edited_ne_nil (h : key ∈ wanted.map Prod.fst) :
    own key (edited live wanted previously) ≠ [] := by
  have hnot : ¬ TakenBack wanted previously key := fun htaken => htaken.notMem h
  rw [edited, own_removeKeys_of_not hnot]
  exact own_setKeys_ne_nil h

theorem own_edited_of_takenBack (h : TakenBack wanted previously key) :
    own key (edited live wanted previously) = [] := own_removeKeys h

theorem own_edited_of_not (h : key ∉ wanted.map Prod.fst)
    (hnot : ¬ TakenBack wanted previously key) :
    own key (edited live wanted previously) = own key (parse live) := by
  rw [edited, own_removeKeys_of_not hnot, own_setKeys_of_notMem h]

theorem raws_edited : raws name (edited live wanted previously) = raws name (parse live) :=
  raws_removeKeys.trans raws_setKeys

theorem sound_edited
    (h : ∀ entry ∈ wanted, '\n' ∉ entry.1.1 ∧ (Line.pair entry.1.2 entry.2).Kept) :
    (edited live wanted previously).Sound := by
  have hset : ∀ {file : KeyFile} {wanted : List (Key × Chars)}, file.Sound →
      (∀ entry ∈ wanted, '\n' ∉ entry.1.1 ∧ (Line.pair entry.1.2 entry.2).Kept) →
        (setKeys file wanted).1.Sound := by
    intro file wanted hfile hwanted
    induction wanted generalizing file with
    | nil => exact hfile
    | cons entry wanted ih =>
      obtain ⟨hnewline, hkept⟩ := hwanted entry List.mem_cons_self
      exact ih (hfile.set hnewline hkept) fun e he => hwanted e (List.mem_cons_of_mem _ he)
  exact removeKeys_rule (I := Sound) (hset (parse_sound live) h) fun _ _ _ _ _ _ hf => hf.remove

theorem keepsHeader_iff : keepsHeader live wanted previously name = true ↔
    (∃ entry ∈ wanted, entry.1.1 = name) ∨
      (∃ k, own (name, k) (parse live) ≠ [] ∧ ¬ TakenBack wanted previously (name, k)) ∨
      ∃ raw ∈ raws name (parse live), trim raw ≠ [] := by
  unfold keepsHeader own raws
  rw [Bool.or_eq_true, List.any_eq_true]
  simp only [decide_eq_true_eq]
  cases first name (parse live) with
  | none => simp
  | some group =>
    apply or_congr_right
    simp only [Option.any_some, List.any_eq_true, Option.map_some, Option.getD_some]
    constructor
    · rintro ⟨line, hline, hstays⟩
      cases line with
      | pair k v =>
        refine .inl ⟨k, List.ne_nil_of_mem (a := v) ?_, by simpa using hstays⟩
        exact List.mem_filterMap.mpr ⟨_, hline, by simp [lineValue]⟩
      | raw raw =>
        exact .inr ⟨raw, List.mem_filterMap.mpr ⟨_, hline, rfl⟩, by simpa using hstays⟩
    · rintro (⟨k, hk, hnot⟩ | ⟨raw, hraw, hblank⟩)
      · obtain ⟨v, hv⟩ := List.exists_mem_of_ne_nil _ hk
        obtain ⟨line, hline, hlv⟩ := List.mem_filterMap.mp hv
        cases line with
        | raw raw => cases hlv
        | pair k' v' =>
          obtain ⟨hkey, -⟩ : k' = k ∧ v' = v := by simpa [lineValue] using hlv
          exact ⟨_, hline, by simpa [hkey] using hnot⟩
      · obtain ⟨line, hline, hlr⟩ := List.mem_filterMap.mp hraw
        cases line with
        | pair k v => cases hlr
        | raw raw' =>
          obtain rfl := Option.some.inj hlr
          exact ⟨_, hline, by simpa using hblank⟩

/-- What keeps a header, read off the file as it was. -/
theorem counts_edited {group : Group}
    (h : group ∈ first name (edited live wanted previously)) :
    group.lines.any counts = keepsHeader live wanted previously name := by
  rw [Bool.eq_iff_iff, counts_first h, keepsHeader_iff, raws_edited]
  constructor
  · rintro (⟨k, hk⟩ | hraw)
    · by_cases hwanted : (name, k) ∈ wanted.map Prod.fst
      · obtain ⟨entry, hentry, hkey⟩ := List.mem_map.mp hwanted
        exact .inl ⟨entry, hentry, congrArg Prod.fst hkey⟩
      · have hnot : ¬ TakenBack wanted previously (name, k) :=
          fun htaken => hk (own_edited_of_takenBack htaken)
        rw [own_edited_of_not hwanted hnot] at hk
        exact .inr (.inl ⟨k, hk, hnot⟩)
    · exact .inr (.inr hraw)
  · rintro (⟨⟨key, value⟩, hentry, rfl⟩ | ⟨k, hk, hnot⟩ | hraw)
    · exact .inl ⟨key.2, own_edited_ne_nil (List.mem_map_of_mem hentry)⟩
    · refine .inl ⟨k, ?_⟩
      by_cases hwanted : (name, k) ∈ wanted.map Prod.fst
      · exact own_edited_ne_nil hwanted
      · rwa [own_edited_of_not hwanted hnot]
    · exact .inr hraw

/-- Nothing is wanted of a file that comes out blank. -/
theorem wanted_of_blank (h : trim (edited live wanted previously).render = []) : wanted = [] := by
  rw [List.eq_nil_iff_forall_not_mem]
  intro entry hentry
  have hpairs : own entry.1 (edited live wanted previously) ≠ [] :=
    own_edited_ne_nil (List.mem_map_of_mem hentry)
  have hvalues : values entry.1 (entries (edited live wanted previously)) =
      own entry.1 (edited live wanted previously) ++
        values entry.1 (repeats [] (edited live wanted previously)) := values_own_repeats
  rw [entries_of_blank h] at hvalues
  exact hpairs (List.append_eq_nil_iff.mp hvalues.symm).1

/-- What is read of a converged file. -/
theorem liveKeys_converge (hwritable : ∀ entry ∈ wanted, Writable entry) (hkey : key.1 ≠ []) :
    liveKeys (converge live wanted previously).1 key =
      (own key (edited live wanted previously) ++
        values key (strays live wanted previously)).getLast? := by
  have hsound : (edited live wanted previously).Sound :=
    sound_edited fun entry hentry => (hwritable entry hentry).2
  have hrevised : Revised [] (parse live) (edited live wanted previously) :=
    revised_removeKeys (revised_setKeys (Revised.refl [] _) fun e he => (hwritable e he).1)
  have hrender : values key (underHeaders [] (edited live wanted previously)) =
      own key (edited live wanted previously) ++ values key (strays live wanted previously) :=
    hrevised.values_render (parse_sound live).opens hkey
      fun name _ group hgroup => counts_edited hgroup
  rw [liveKeys, values_parseDeclared hkey, ← hrender]
  have hout : (converge live wanted previously).1 =
      if trim (edited live wanted previously).render = [] then []
      else (edited live wanted previously).render := rfl
  rw [hout]
  split_ifs with hblank
  · rw [underHeaders_eq_nil (entries_of_blank hblank)]
    rfl
  · rw [entries_parse_render hsound]

/-- What can be read has been written so that it is read. -/
theorem writable_of_liveKeys {text : Chars} (h : liveKeys text key = some value) :
    Writable (key, value) := by
  obtain ⟨entry, hentry, hvalue⟩ := List.mem_filterMap.mp (List.mem_of_getLast? h)
  split_ifs at hvalue with hkey
  obtain ⟨k, v⟩ := entry
  obtain rfl : k = key := hkey
  obtain rfl := Option.some.inj hvalue
  exact parseDeclared_writable text _ hentry

theorem ConvergesRight.writable (h : ConvergesRight live wanted previously) :
    ∀ entry ∈ wanted, Writable entry :=
  fun entry hentry => writable_of_liveKeys (h.has entry hentry)

/-- A wanted key has its value exactly when it settles. -/
theorem liveKeys_converge_eq_iff (hnodup : (wanted.map Prod.fst).Nodup)
    (hwritable : ∀ entry ∈ wanted, Writable entry) (h : (key, value) ∈ wanted) :
    liveKeys (converge live wanted previously).1 key = some value ↔
      Settles live wanted previously (key, value) := by
  rw [liveKeys_converge hwritable (hwritable _ h).1, own_edited hnodup h, List.cons_append,
    Settles]
  rcases List.eq_nil_or_concat' ((own key (parse live)).tail ++
    values key (strays live wanted previously)) with hnil | ⟨init, v, hlast⟩
  · simp [hnil]
  · have hcons : (value :: (init ++ [v])).getLast? = some v := by
      rw [← List.cons_append, List.getLast?_concat]
    rw [hlast, hcons, List.getLast?_concat]
    simp

theorem converge_set (hnodup : (wanted.map Prod.fst).Nodup) :
    (converge live wanted previously).2.1.set =
      (wanted.filter fun entry => (own entry.1 (parse live)).head? ≠ some entry.2).map
        fun entry => ownedId entry.1 := setKeys_set hnodup

theorem mem_converge_removed {id : Chars} : id ∈ (converge live wanted previously).2.1.removed ↔
    id ∈ previously ∧ id ∉ ownedIds wanted ∧
      ∃ key, splitOnce '\t' id = some key ∧ values key (entries (parse live)) ≠ [] := by
  have hmem : id ∈ (converge live wanted previously).2.1.removed ↔ id ∈ previously ∧
      id ∉ ownedIds wanted ∧ ∃ key, splitOnce '\t' id = some key ∧
        values key (entries (setKeys (parse live) wanted).1) ≠ [] := mem_removeKeys
  rw [hmem]
  have hset : ∀ key, splitOnce '\t' id = some key → id ∉ ownedIds wanted →
      values key (entries (setKeys (parse live) wanted).1) = values key (entries (parse live)) := by
    intro key hkey howned
    apply setKeys_values
    rintro entry hentry rfl
    exact howned (List.mem_map.mpr ⟨entry, hentry, (ownedId_of_splitOnce hkey).symm⟩)
  constructor
  · rintro ⟨hid, howned, key, hkey, hvalues⟩
    exact ⟨hid, howned, key, hkey, hset key hkey howned ▸ hvalues⟩
  · rintro ⟨hid, howned, key, hkey, hvalues⟩
    exact ⟨hid, howned, key, hkey, (hset key hkey howned).symm ▸ hvalues⟩

/-- What is in the file under a header is what is read of it. -/
theorem values_ne_nil_iff (h : key.1 ≠ []) :
    values key (entries (parse live)) ≠ [] ↔ liveKeys live key ≠ none := by
  rw [liveKeys, values_parseDeclared h, ne_eq, ne_eq, List.getLast?_eq_none_iff]

theorem meansOnePair_of_convergesRight (hnodup : (wanted.map Prod.fst).Nodup)
    (h : ConvergesRight live wanted previously) : MeansOnePair live wanted previously := by
  have hread : ∀ key : Key, key.1 ≠ [] → liveKeys (converge live wanted previously).1 key =
      (own key (edited live wanted previously) ++
        values key (strays live wanted previously)).getLast? :=
    fun key hkey => liveKeys_converge h.writable hkey
  constructor
  case writable => exact h.writable
  case settles =>
    intro entry hentry
    exact (liveKeys_converge_eq_iff hnodup h.writable hentry).mp (h.has entry hentry)
  case reported => rw [← converge_set hnodup, h.set]
  case taken =>
    intro key htaken hkey
    have hgone := h.gone key htaken
    rw [hread key hkey, own_edited_of_takenBack htaken, List.nil_append,
      List.getLast?_eq_none_iff] at hgone
    exact hgone
  case nameless =>
    intro key htaken hkey
    obtain ⟨id, hid, howned, hsplit⟩ := htaken
    by_contra hvalues
    obtain ⟨-, -, key', hsplit', hlive⟩ := (h.removed id).mp
      (mem_converge_removed.mpr ⟨hid, howned, key, hsplit, hvalues⟩)
    obtain rfl : key = key' := Option.some.inj (hsplit.symm.trans hsplit')
    exact hlive (liveKeys_of_nameless hkey)
  case others =>
    intro key hkey hwanted hnot
    rw [← h.others key hwanted hnot, hread key hkey, own_edited_of_not hwanted hnot]

theorem convergesRight_of_meansOnePair (hnodup : (wanted.map Prod.fst).Nodup)
    (h : MeansOnePair live wanted previously) : ConvergesRight live wanted previously := by
  have hread : ∀ key : Key, key.1 ≠ [] → liveKeys (converge live wanted previously).1 key =
      (own key (edited live wanted previously) ++
        values key (strays live wanted previously)).getLast? :=
    fun key hkey => liveKeys_converge h.writable hkey
  constructor
  case has =>
    intro entry hentry
    exact (liveKeys_converge_eq_iff hnodup h.writable hentry).mpr (h.settles entry hentry)
  case gone =>
    intro key htaken
    by_cases hkey : key.1 = []
    · exact liveKeys_of_nameless hkey
    · rw [hread key hkey, own_edited_of_takenBack htaken, h.taken key htaken hkey]
      rfl
  case others =>
    intro key hwanted hnot
    by_cases hkey : key.1 = []
    · rw [liveKeys_of_nameless hkey, liveKeys_of_nameless hkey]
    · rw [hread key hkey, own_edited_of_not hwanted hnot, h.others key hkey hwanted hnot]
  case owned => rfl
  case set => rw [converge_set hnodup, h.reported]
  case removed =>
    intro id
    rw [mem_converge_removed]
    refine and_congr_right fun hid => and_congr_right fun howned => exists_congr fun key => ?_
    refine and_congr_right fun hsplit => ?_
    by_cases hkey : key.1 = []
    · have hnone := h.nameless key ⟨id, hid, howned, hsplit⟩ hkey
      simp [hnone, liveKeys_of_nameless hkey]
    · exact values_ne_nil_iff hkey

/-- Convergence does what it says exactly where the edits and the reader mean the same pairs. -/
theorem convergesRight_iff (live : Chars) (wanted : List (Key × Chars)) (previously : List Chars)
    (hnodup : (wanted.map Prod.fst).Nodup) :
    ConvergesRight live wanted previously ↔ MeansOnePair live wanted previously :=
  ⟨meansOnePair_of_convergesRight hnodup, convergesRight_of_meansOnePair hnodup⟩

end

/-- A declaration of one context list. -/
def wantsDevices (value : String) : List (Key × Chars) :=
  [((CONTEXT, "devices".toList), value.toList)]

theorem convergesRight_sockets : ConvergesRight "[Context]\nsockets=x11;\n".toList
    (wantsDevices "dri;") ["Context\tsockets".toList] := by
  have hstrays : strays "[Context]\nsockets=x11;\n".toList (wantsDevices "dri;")
      ["Context\tsockets".toList] = [] := by decide +kernel
  have hrepeats : repeats [] (parse "[Context]\nsockets=x11;\n".toList) = [] := by decide +kernel
  refine (convergesRight_iff _ (wantsDevices "dri;") ["Context\tsockets".toList]
    (by decide +kernel)).mpr ?_
  constructor
  case writable =>
    have hread : parseDeclared "[Context]\ndevices=dri;\n".toList = wantsDevices "dri;" := by
      decide +kernel
    rw [← hread]
    exact parseDeclared_writable _
  case settles =>
    intro entry hentry
    have hown : own entry.1 (parse "[Context]\nsockets=x11;\n".toList) = [] := by
      rw [List.mem_singleton.mp hentry]
      decide +kernel
    rw [Settles, hstrays, hown]
    intro value hvalue
    cases hvalue
  case reported => decide +kernel
  case taken =>
    intro key _ _
    rw [hstrays]
    rfl
  case nameless =>
    intro key htaken hkey
    obtain ⟨id, hid, -, hsplit⟩ := htaken
    have hread : splitOnce '\t' "Context\tsockets".toList = some (CONTEXT, "sockets".toList) := by
      decide +kernel
    rw [List.mem_singleton.mp hid, hread] at hsplit
    obtain rfl := Option.some.inj hsplit
    revert hkey
    decide +kernel
  case others =>
    intro key hkey _ _
    rw [hstrays, liveKeys_eq hkey, hrepeats]

/-- A key that stands twice is set at its first line, and read from its last. -/
theorem not_convergesRight_repeated :
    ((wantsDevices "shm;").map Prod.fst).Nodup ∧
      (∀ entry ∈ wantsDevices "shm;",
        '\n' ∉ entry.2 ∧ '\r' ∉ entry.2 ∧ trim entry.2 = entry.2) ∧
      ¬ ConvergesRight "[Context]\ndevices=all;\ndevices=dri;\n".toList
        (wantsDevices "shm;") [] := by
  refine ⟨by decide +kernel, by decide +kernel, ?_⟩
  intro h
  have hread := h.has _ List.mem_cons_self
  revert hread
  decide +kernel

end Kuma.Overrides
