import Kuma.Overrides.LastWins

/-! Convergence, run again on what it wrote. -/
namespace Kuma.Overrides
open Kuma.Lib Kuma.Lib.Text KeyFile

namespace KeyFile

section
variable {key : Key} {value : Chars} {file : KeyFile} {group : Group}

/-- What an entry is made of that a text has. -/
theorem kept_of_mem_entries {text : Chars} {entry : Key × Chars}
    (h : entry ∈ entries (parse text)) :
    '\n' ∉ entry.1.1 ∧ (Line.pair entry.1.2 entry.2).Kept := by
  obtain ⟨group, hgroup, hpair⟩ := List.mem_flatMap.mp h
  obtain ⟨⟨k, v⟩, hkv, rfl⟩ := List.mem_map.mp hpair
  obtain ⟨line, hline, hlv⟩ := List.mem_filterMap.mp hkv
  have hsound := parse_sound text
  have hkept := hsound.kept group hgroup line hline
  cases line with
  | raw raw => cases hlv
  | pair key value =>
    obtain ⟨rfl, rfl⟩ : key = k ∧ value = v := by simpa using hlv
    exact ⟨hsound.names group hgroup, hkept⟩

theorem setLine_of_head {k : Chars} {lines : List Line}
    (h : (groupValues k lines).head? = some value) : setLine k value lines = lines := by
  induction lines with
  | nil => cases h
  | cons line lines ih =>
    cases line with
    | raw raw => rw [setLine, ih h]
    | pair k' v' =>
      rw [setLine]
      split_ifs with hk
      · obtain rfl : v' = value := by simpa [groupValues, lineValue, hk] using h
        rfl
      · have hrest : groupValues k (.pair k' v' :: lines) = groupValues k lines := by
          simp [groupValues, lineValue, hk]
        rw [ih (hrest ▸ h)]

/-- A key is not moved by giving it the value that it has. -/
theorem set_of_own (h : (own key file).head? = some value) : set key value file = file := by
  induction file with
  | nil => cases h
  | cons group file ih =>
    rw [own_cons] at h
    rw [set]
    split_ifs at h ⊢ with hname
    · rw [setLine_of_head h]
    · rw [ih h]

theorem own_rereadFrom_self (h : group.name = key.1) :
    groupValues key.2 group.lines <+: own key (rereadFrom group file) := by
  induction file generalizing group with
  | nil => rw [rereadFrom, own_cons, if_pos h]
  | cons next file ih =>
    rw [rereadFrom]
    split_ifs
    · have hmore : groupValues key.2 group.lines <+:
          groupValues key.2 (group.lines ++ next.lines.map Line.reread) := by
        unfold groupValues
        rw [List.filterMap_append]
        exact List.prefix_append _ _
      have hopen : (Group.mk group.name (group.lines ++ next.lines.map Line.reread)).name =
          key.1 := h
      exact hmore.trans (ih hopen)
    · rw [own_cons, if_pos h]
    · exact ih h

theorem groupValues_reread (k : Chars) (lines : List Line) :
    groupValues k (lines.map Line.reread) = groupValues k lines := by
  unfold groupValues
  rw [List.filterMap_map]
  apply List.filterMap_congr
  intro line _
  cases line <;> rfl

/-- The pairs that an edit looks at come first again when the file is read. -/
theorem own_rereadFrom (hname : group.name ≠ key.1) (hkey : key.1 ≠ []) :
    own key file <+: own key (rereadFrom group file) := by
  induction file generalizing group with
  | nil => exact List.nil_prefix
  | cons next file ih =>
    rw [own_cons, rereadFrom]
    by_cases hnext : next.name = key.1
    · rw [if_pos hnext, if_neg (hnext ▸ hkey)]
      split_ifs with hcounts
      · rw [own_cons, if_neg hname]
        rw [← groupValues_reread]
        have hopen : (Group.mk next.name (next.lines.map Line.reread)).name = key.1 := hnext
        exact own_rereadFrom_self hopen
      · rw [groupValues_of_not_counts (by simpa using hcounts)]
        exact List.nil_prefix
    · rw [if_neg hnext]
      split_ifs
      · exact ih hname
      · rw [own_cons, if_neg hname]
        exact ih hnext
      · exact ih hname

/-- Read again, the first pair of a key is the one that was written first. -/
theorem own_reread (hopens : (file.map Group.name).head? = some []) :
    own key file <+: own key file.reread := by
  obtain ⟨top, groups, rfl⟩ : ∃ top groups, file = top :: groups := by
    apply List.exists_cons_of_ne_nil
    rintro rfl
    cases hopens
  have htop : top.name = [] := by simpa using hopens
  rw [reread, rereadFrom, if_pos htop, own_cons]
  by_cases hkey : key.1 = []
  · have hopen : (Group.mk [] (top.lines.map Line.reread)).name = key.1 := hkey.symm
    rw [if_pos (htop.trans hkey.symm), ← groupValues_reread]
    exact own_rereadFrom_self hopen
  · rw [if_neg (htop ▸ Ne.symm hkey)]
    exact own_rereadFrom (Ne.symm hkey) hkey

/-- A file without returns is written again as it was. -/
theorem flatMap_renderGroup_rereadFrom (hgroup : group.name = [] ∨ group.lines.any counts = true)
    (h : ∀ g ∈ file, g.lines.map Line.reread = g.lines) :
    (rereadFrom group file).flatMap renderGroup =
      renderGroup group ++ file.flatMap renderGroup := by
  induction file generalizing group with
  | nil => simp [rereadFrom]
  | cons next file ih =>
    have hnext := h next List.mem_cons_self
    have hrest : ∀ g ∈ file, g.lines.map Line.reread = g.lines :=
      fun g hg => h g (List.mem_cons_of_mem _ hg)
    have hlonger : ∀ lines, renderGroup ⟨group.name, group.lines ++ lines⟩ =
        renderGroup group ++ lines.map Line.text := by
      intro lines
      unfold renderGroup
      rcases hgroup with hname | hcounts
      · simp [hname]
      · split_ifs <;> simp_all
    rw [rereadFrom, hnext, List.flatMap_cons]
    by_cases hname : next.name = []
    · have hopen : (Group.mk group.name (group.lines ++ next.lines)).name = [] ∨
          (Group.mk group.name (group.lines ++ next.lines)).lines.any counts = true :=
        hgroup.imp_right fun hcounts => by simp [hcounts]
      have hwritten : renderGroup next = next.lines.map Line.text := by
        rw [renderGroup, if_pos hname]
      rw [if_pos hname, hwritten, ← List.append_assoc, ← hlonger]
      exact ih hopen hrest
    · rw [if_neg hname]
      split_ifs with hcounts
      · rw [List.flatMap_cons]
        congr 1
        exact ih (.inr hcounts) hrest
      · have hdropped : renderGroup next = [] := by
          rw [renderGroup, if_neg hname, if_neg hcounts]
        rw [hdropped, List.nil_append]
        exact ih hgroup hrest

/-- No line but a pair has a return. -/
def Clean (file : KeyFile) : Prop := ∀ group ∈ file, ∀ raw, .raw raw ∈ group.lines → '\r' ∉ raw

theorem Clean.reread (h : file.Clean) : ∀ g ∈ file, g.lines.map Line.reread = g.lines := by
  intro g hg
  have hlines : ∀ line ∈ g.lines, line.reread = line := by
    intro line hline
    cases line with
    | pair key value => rfl
    | raw raw =>
      have hlast : raw.getLast? ≠ some '\r' :=
        fun hlast => h g hg raw hline (List.mem_of_getLast? hlast)
      rw [Line.reread, dropReturn, if_neg hlast]
  rw [List.map_congr_left hlines, List.map_id']

theorem clean_parse {text : Chars} (h : '\r' ∉ text) : (parse text).Clean := by
  have hfrom : ∀ (lines : List Chars) (group : Group), (∀ line ∈ lines, '\r' ∉ line) →
      (∀ raw, .raw raw ∈ group.lines → '\r' ∉ raw) → (parseFrom group lines).Clean := by
    intro lines
    induction lines with
    | nil =>
      intro group _ hgroup g hg
      rw [List.mem_singleton.mp hg]
      exact hgroup
    | cons line lines ih =>
      intro group hlines hgroup
      have hline := hlines line List.mem_cons_self
      have hrest : ∀ line ∈ lines, '\r' ∉ line := fun l hl => hlines l (List.mem_cons_of_mem _ hl)
      rw [parseFrom]
      split
      · intro g hg
        rcases List.mem_cons.mp hg with rfl | hg
        · exact hgroup
        · exact ih _ hrest (fun raw hraw => absurd hraw List.not_mem_nil) g hg
      · apply ih _ hrest
        intro raw hraw
        rcases List.mem_append.mp hraw with hraw | hraw
        · exact hgroup raw hraw
        · have hread : readLine line = .raw raw := (List.mem_singleton.mp hraw).symm
          rw [raw_of_readLine hread]
          exact hline
  exact hfrom _ _ (fun line hline hc => h (mem_of_mem_lines hline hc))
    fun raw hraw => absurd hraw List.not_mem_nil

theorem Clean.set (h : file.Clean) : (set key value file).Clean := by
  intro group hgroup raw hraw
  rcases mem_set hgroup with hold | ⟨-, hlines⟩
  · exact h group hold raw hraw
  · rcases hlines _ hraw with hpair | ⟨g, hg, hl⟩
    · cases hpair
    · exact h g hg raw hl

theorem Clean.remove (h : file.Clean) : (remove key file).Clean := by
  intro group hgroup raw hraw
  obtain ⟨g, hg, -, hsub⟩ := mem_remove hgroup
  exact h g hg raw (hsub.subset hraw)

end
end KeyFile

section
variable {live : Chars} {wanted : List (Key × Chars)} {previously owned : List Chars}
  {file : KeyFile}

theorem setKeys_of_own (h : ∀ entry ∈ wanted, (own entry.1 file).head? = some entry.2) :
    setKeys file wanted = (file, []) := by
  induction wanted with
  | nil => rfl
  | cons entry wanted ih =>
    have hentry := h entry List.mem_cons_self
    rw [setKeys, set_of_own hentry, ih fun e he => h e (List.mem_cons_of_mem _ he),
      existing_eq, if_pos hentry]

theorem removeKeys_of_owned (h : ∀ id ∈ previously, id ∈ owned) :
    removeKeys owned file previously = (file, []) := by
  induction previously with
  | nil => rfl
  | cons id previously ih =>
    rw [removeKeys, if_pos (h id List.mem_cons_self),
      ih fun i hi => h i (List.mem_cons_of_mem _ hi)]

theorem clean_edited (h : '\r' ∉ live) : (edited live wanted previously).Clean := by
  have hset : ∀ {file : KeyFile} {wanted : List (Key × Chars)}, file.Clean →
      (setKeys file wanted).1.Clean := by
    intro file wanted hfile
    induction wanted generalizing file with
    | nil => exact hfile
    | cons entry wanted ih => exact ih hfile.set
  exact removeKeys_rule (I := Clean) (hset (clean_parse h)) fun _ _ _ _ _ _ hf => hf.remove

/-- What was converged is left as it is. -/
theorem converge_converge (hreturn : '\r' ∉ live) (hnodup : (wanted.map Prod.fst).Nodup)
    (hkept : ∀ entry ∈ wanted, '\n' ∉ entry.1.1 ∧ (Line.pair entry.1.2 entry.2).Kept) :
    converge (converge live wanted previously).1 wanted (converge live wanted previously).2.2 =
      ((converge live wanted previously).1, ⟨[], []⟩, (converge live wanted previously).2.2) := by
  have hsound : (edited live wanted previously).Sound := sound_edited hkept
  have hclean : (edited live wanted previously).Clean := clean_edited hreturn
  have hrender : (edited live wanted previously).reread.render =
      (edited live wanted previously).render := by
    have hopen : (Group.mk [] []).name = [] ∨ (Group.mk [] []).lines.any counts = true := .inl rfl
    have hsame : (rereadFrom ⟨[], []⟩ (edited live wanted previously)).flatMap renderGroup =
        renderGroup ⟨[], []⟩ ++ (edited live wanted previously).flatMap renderGroup :=
      flatMap_renderGroup_rereadFrom hopen hclean.reread
    unfold render reread
    rw [hsame]
    rfl
  have hout : (converge live wanted previously).1 =
      if trim (edited live wanted previously).render = [] then []
      else (edited live wanted previously).render := rfl
  have howned : (converge live wanted previously).2.2 =
      wanted.map fun entry => ownedId entry.1 := rfl
  have hagain : ∀ {file : KeyFile},
      (∀ entry ∈ wanted, (own entry.1 file).head? = some entry.2) →
      setKeys file wanted = (file, []) ∧
        removeKeys (wanted.map fun entry => ownedId entry.1) file
          (wanted.map fun entry => ownedId entry.1) = (file, []) :=
    fun h => ⟨setKeys_of_own h, removeKeys_of_owned fun _ hid => hid⟩
  have hown : ∀ entry ∈ wanted,
      (own entry.1 (edited live wanted previously).reread).head? = some entry.2 := by
    intro entry hentry
    have hprefix : own entry.1 (edited live wanted previously) <+:
        own entry.1 (edited live wanted previously).reread := own_reread hsound.opens
    obtain ⟨rest, hrest⟩ := hprefix
    rw [← hrest, own_edited hnodup hentry]
    rfl
  by_cases hblank : trim (edited live wanted previously).render = []
  · have hnone : wanted = [] := wanted_of_blank hblank
    subst hnone
    rw [hout, if_pos hblank]
    rfl
  · obtain ⟨hset, hremove⟩ := hagain hown
    rw [hout, if_neg hblank, howned, converge, parse_render hsound]
    rw [hset, hremove, hrender, if_neg hblank]

end
end Kuma.Overrides
