import Kuma.Overrides.Editing

/-! One app's convergence: the keys of a declaration merged into whatever its file holds. -/
namespace Kuma.Overrides
open Kuma.Lib Kuma.Lib.Text KeyFile

/-- One key under kuma's authority, as the state file names it. -/
def ownedId (key : Key) : Chars := key.1 ++ '\t' :: key.2

structure Changed where
  set : List Chars
  removed : List Chars
  deriving DecidableEq

/-- The keys a baked file asks for. -/
def parseDeclared (text : Chars) : List (Key × Chars) :=
  entries ((parse text).filter (·.name ≠ []))

/-- The file with every wanted key set, and the keys that did not stand there so already. -/
def setKeys (file : KeyFile) : List (Key × Chars) → KeyFile × List Chars
  | [] => (file, [])
  | (key, value) :: wanted =>
    let done := setKeys (file.set key value) wanted
    (done.1, if file.existing key = some value then done.2 else ownedId key :: done.2)

/-- The file without the keys that were set before and are wanted no longer. -/
def removeKeys (owned : List Chars) (file : KeyFile) : List Chars → KeyFile × List Chars
  | [] => (file, [])
  | id :: previously =>
    if id ∈ owned then removeKeys owned file previously
    else match splitOnce '\t' id with
      | none => removeKeys owned file previously
      | some key =>
        if file.has key then
          let done := removeKeys owned (file.remove key) previously
          (done.1, id :: done.2)
        else removeKeys owned file previously

/-- The text to write, what changed, and what kuma owns now. An empty text removes the file. -/
def converge (live : Chars) (wanted : List (Key × Chars)) (previously : List Chars) :
    Chars × Changed × List Chars :=
  let owned := wanted.map fun entry => ownedId entry.1
  let set := setKeys (parse live) wanted
  let removed := removeKeys owned set.1 previously
  let rendered := removed.1.render
  (if trim rendered = [] then [] else rendered, ⟨set.2, removed.2⟩, owned)

/-- A text whose pairs survive being rewritten: under one written header a group, and no value
that ends in white space. -/
structure TidyText (text : Chars) : Prop where
  named : (parse text).Named
  distinct : (((parse text).map Group.name).filter (· ≠ [])).Nodup
  spelled : found text = entries (parse text)

instance (text : Chars) : Decidable (TidyText text) :=
  decidable_of_iff ((parse text).Named ∧ (((parse text).map Group.name).filter (· ≠ [])).Nodup ∧
      found text = entries (parse text))
    ⟨fun h => ⟨h.1, h.2.1, h.2.2⟩, fun h => ⟨h.named, h.distinct, h.spelled⟩⟩

theorem TidyText.parse {text : Chars} (h : TidyText text) : (parse text).Tidy :=
  ⟨parse_sound text, h.named, h.distinct⟩

theorem tidyText_nil : TidyText [] := by decide

section
variable {file : KeyFile} {key : Key} {wanted : List (Key × Chars)} {owned previously : List Chars}

/-- What the image bakes can be set. -/
theorem parseDeclared_writable (text : Chars) : ∀ entry ∈ parseDeclared text, Writable entry := by
  have hsound := parse_sound text
  intro entry hentry
  obtain ⟨group, hgroup, hpair⟩ := List.mem_flatMap.mp hentry
  obtain ⟨⟨k, v⟩, hkv, rfl⟩ := List.mem_map.mp hpair
  obtain ⟨hmem, hname⟩ := List.mem_filter.mp hgroup
  obtain ⟨line, hline, hlv⟩ := List.mem_filterMap.mp hkv
  have hkept := hsound.kept group hmem line hline
  cases line with
  | raw raw => cases hlv
  | pair key value =>
    obtain ⟨rfl, rfl⟩ : key = k ∧ value = v := by simpa using hlv
    exact ⟨by simpa using hname, hsound.names group hmem, hkept⟩

theorem setKeys_tidy (h : file.Tidy) (hwanted : ∀ entry ∈ wanted, Writable entry) :
    (setKeys file wanted).1.Tidy := by
  induction wanted generalizing file with
  | nil => exact h
  | cons entry wanted ih =>
    have hset := h.set (hwanted entry List.mem_cons_self)
    exact ih hset fun e he => hwanted e (List.mem_cons_of_mem _ he)

theorem setKeys_values (h : ∀ entry ∈ wanted, entry.1 ≠ key) :
    values key (entries (setKeys file wanted).1) = values key (entries file) := by
  induction wanted generalizing file with
  | nil => rfl
  | cons entry wanted ih =>
    have hrest : values key (entries (setKeys (file.set entry.1 entry.2) wanted).1) =
        values key (entries (file.set entry.1 entry.2)) :=
      ih fun e he => h e (List.mem_cons_of_mem _ he)
    have hne : key ≠ entry.1 := Ne.symm (h entry List.mem_cons_self)
    exact hrest.trans (values_set_of_ne hne)

/-- The removal rule: what no removal of a key that was set before breaks, the loop keeps. -/
theorem removeKeys_rule {I : KeyFile → Prop} (h : I file)
    (hremove : ∀ id ∈ previously, id ∉ owned → ∀ key, splitOnce '\t' id = some key →
      ∀ file, I file → I (file.remove key)) : I (removeKeys owned file previously).1 := by
  induction previously generalizing file with
  | nil => exact h
  | cons id previously ih =>
    have hrest : ∀ id ∈ previously, id ∉ owned → ∀ key, splitOnce '\t' id = some key →
        ∀ file, I file → I (file.remove key) :=
      fun i hi => hremove i (List.mem_cons_of_mem _ hi)
    rw [removeKeys]
    split_ifs with howned
    · exact ih h hrest
    · split
      · exact ih h hrest
      · next key hkey =>
        split_ifs
        · exact ih (hremove id List.mem_cons_self howned key hkey file h) hrest
        · exact ih h hrest

theorem removeKeys_values (h : ∀ id ∈ previously, splitOnce '\t' id ≠ some key) :
    values key (entries (removeKeys owned file previously).1) = values key (entries file) := by
  apply removeKeys_rule (I := fun f => values key (entries f) = values key (entries file)) rfl
  intro id hid _ k hk f hf
  have hne : key ≠ k := by
    rintro rfl
    exact h id hid hk
  rw [values_remove_of_ne hne, hf]

/-- Of a key that was set before and is wanted no longer, the loop reaches what its removal brings
about, if that is there without the key and no other removal undoes it. -/
theorem removeKeys_reaches {I P : KeyFile → Prop} {id : Chars} (hid : id ∈ previously)
    (howned : id ∉ owned) (hkey : splitOnce '\t' id = some key)
    (hkept : ∀ k file, I file → I (file.remove k)) (hgone : ∀ file, I file → P (file.remove key))
    (habsent : ∀ file, I file → file.has key = false → P file)
    (hstays : ∀ k file, I file → P file → P (file.remove k)) (h : I file) :
    P (removeKeys owned file previously).1 := by
  have hrest : ∀ f rest, I f → P f → P (removeKeys owned f rest).1 := by
    intro f rest hf hP
    exact (removeKeys_rule (I := fun f => I f ∧ P f) ⟨hf, hP⟩
      fun _ _ _ k _ f hf => ⟨hkept k f hf.1, hstays k f hf.1 hf.2⟩).2
  induction previously generalizing file with
  | nil => cases hid
  | cons head previously ih =>
    rw [removeKeys]
    rcases List.mem_cons.mp hid with rfl | hid
    · rw [if_neg howned, hkey]
      dsimp only
      split_ifs with hhas
      · exact hrest _ _ (hkept key file h) (hgone file h)
      · exact hrest _ _ h (habsent file h (Bool.eq_false_iff.mpr hhas))
    · split_ifs
      · exact ih hid h
      · split
        · exact ih hid h
        · next k _ =>
          split_ifs
          · exact ih hid (hkept k file h)
          · exact ih hid h

/-- A key that was set before and is wanted no longer is gone. -/
theorem removeKeys_gone {id : Chars} (htidy : file.Tidy) (hid : id ∈ previously)
    (howned : id ∉ owned) (hkey : splitOnce '\t' id = some key) (hname : key.1 ≠ []) :
    values key (entries (removeKeys owned file previously).1) = [] := by
  refine removeKeys_reaches (I := Tidy) (P := fun f => values key (entries f) = []) hid howned hkey
    (fun _ _ hf => hf.remove) (fun _ hf => values_remove_self hname hf.distinct)
    (fun _ _ hhas => values_of_not_has hhas) (fun k f hf hnone => ?_) htidy
  by_cases hk : key = k
  · subst hk
    exact values_remove_self hname hf.distinct
  · rw [values_remove_of_ne hk, hnone]

/-- A file that comes out blank has no pair left. -/
theorem entries_of_blank (h : trim file.render = []) : entries file = [] := by
  rw [entries, List.flatMap_eq_nil_iff]
  intro group hgroup
  by_contra hne
  have hpairs : group.pairs ≠ [] := fun hnone => hne (by rw [hnone]; rfl)
  obtain ⟨⟨k, v⟩, hkv⟩ := List.exists_mem_of_ne_nil _ hpairs
  obtain ⟨line, hline, hlv⟩ := List.mem_filterMap.mp hkv
  have hequals : '=' ∈ line.text := by
    cases line with
    | raw raw => cases hlv
    | pair key value => simp [Line.text]
  have hmem : line.text ∈ renderGroup group := by
    have hlines : line.text ∈ group.lines.map Line.text := List.mem_map_of_mem hline
    unfold renderGroup
    split_ifs with hname hcounts
    · exact hlines
    · exact List.mem_cons_of_mem _ hlines
    · exact absurd (pairs_of_not_counts (by simpa using hcounts)) hpairs
  have hrender : '=' ∈ file.render := List.mem_flatMap.mpr
    ⟨line.text, List.mem_flatMap.mpr ⟨group, hgroup, hmem⟩, List.mem_append_left _ hequals⟩
  have hblank := isWhiteSpace_of_trim_eq_nil h hrender
  exact absurd hblank (by decide)

variable {live : Chars}

/-- What is found in a converged file is what the two loops left of it. -/
theorem found_converge (hlive : TidyText live) (hwanted : ∀ entry ∈ wanted, Writable entry) :
    found (converge live wanted previously).1 =
      entries (removeKeys (wanted.map fun entry => ownedId entry.1)
        (setKeys (parse live) wanted).1 previously).1 := by
  have htidy : (removeKeys (wanted.map fun entry => ownedId entry.1)
      (setKeys (parse live) wanted).1 previously).1.Tidy :=
    removeKeys_rule (I := Tidy) (setKeys_tidy hlive.parse hwanted) fun _ _ _ _ _ _ hf => hf.remove
  unfold converge
  dsimp only
  split_ifs with hblank
  · rw [entries_of_blank hblank]
    rfl
  · exact found_render htidy.toSound htidy.named

/-- A key that is neither wanted nor among those that were set before is left as it was. -/
theorem converge_keeps (hlive : TidyText live) (hwanted : ∀ entry ∈ wanted, Writable entry)
    (hkey : ∀ entry ∈ wanted, entry.1 ≠ key)
    (hprevious : ∀ id ∈ previously, splitOnce '\t' id ≠ some key) :
    values key (found (converge live wanted previously).1) = values key (found live) := by
  rw [found_converge hlive hwanted, removeKeys_values hprevious, setKeys_values hkey, hlive.spelled]

/-- A key that was set before and is wanted no longer is taken back. -/
theorem converge_removes {id : Chars} (hlive : TidyText live)
    (hwanted : ∀ entry ∈ wanted, Writable entry) (hid : id ∈ previously)
    (howned : id ∉ wanted.map fun entry => ownedId entry.1) (hkey : splitOnce '\t' id = some key)
    (hname : key.1 ≠ []) : values key (found (converge live wanted previously).1) = [] := by
  rw [found_converge hlive hwanted]
  exact removeKeys_gone (setKeys_tidy hlive.parse hwanted) hid howned hkey hname

end
end Kuma.Overrides
