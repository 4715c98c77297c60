import Kuma.Overrides.Store

/-! Who owns a key of an override file: what a run leaves alone, and what it can take back. -/
namespace Kuma.Overrides
open Kuma.Lib Kuma.Lib.Text KeyFile

namespace Image

variable {image : Image} {app : String} {entry : Key × Chars}

/-- What the machine reads of an app is what its table declares. -/
theorem mem_wanted (h : entry ∈ image.wanted app) : ∃ table ∈ image.tables, table.1 = app ∧
    ∃ declared ∈ declaredKeys table.2, declared.1 = entry.1 := by
  unfold wanted at h
  cases hfile : image.baked.find? (·.1 = app) with
  | none => simp [hfile] at h
  | some file =>
    have hmem := List.mem_of_find?_eq_some hfile
    have happ : file.1 = app := by simpa using List.find?_some hfile
    unfold baked at hmem
    split_ifs at hmem with hships
    · obtain ⟨table, htable, rfl⟩ := List.mem_map.mp hmem
      simp only [hfile, Option.map_some, Option.getD_some,
        parseDeclared_renderDeclared (image.valid table htable)] at h
      obtain ⟨declared, hdeclared, rfl⟩ := List.mem_map.mp h
      exact ⟨table, htable, happ, declared, hdeclared, rfl⟩
    · cases hmem

theorem wanted_writable : ∀ entry ∈ image.wanted app, Writable entry := by
  intro entry h
  unfold wanted at h
  cases hfile : image.baked.find? (·.1 = app) with
  | none => simp [hfile] at h
  | some file =>
    simp only [hfile, Option.map_some, Option.getD_some] at h
    exact parseDeclared_writable _ entry h

theorem mem_keys_of_wanted (h : entry ∈ image.wanted app) : (app, entry.1) ∈ image.keys := by
  obtain ⟨table, htable, rfl, declared, hdeclared, hkey⟩ := mem_wanted h
  exact List.mem_flatMap.mpr ⟨table, htable, List.mem_map.mpr ⟨declared, hdeclared, by rw [hkey]⟩⟩

/-- A key that a declaration can name has a group that is named, and without a tab. -/
theorem plain_of_mem_keys {key : Key} (h : (app, key) ∈ image.keys) :
    key.1 ≠ [] ∧ '\t' ∉ key.1 := by
  obtain ⟨table, htable, hmem⟩ := List.mem_flatMap.mp h
  obtain ⟨declared, hdeclared, hpair⟩ := List.mem_map.mp hmem
  obtain ⟨-, rfl⟩ : table.1 = app ∧ declared.1 = key := by simpa using hpair
  have hall : ∀ group ∈ [CONTEXT, ENVIRONMENT, SESSION_BUS, SYSTEM_BUS],
      group ≠ [] ∧ '\t' ∉ group := by decide
  exact hall _ (declaredKeys_declarable (image.valid table htable) declared hdeclared).group

theorem wanted_recordable (h : entry ∈ image.wanted app) :
    Owned.Recordable app (ownedId entry.1) := by
  obtain ⟨table, htable, rfl, declared, hdeclared, hkey⟩ := mem_wanted h
  have hvalid := image.valid table htable
  have hdeclarable := declaredKeys_declarable hvalid declared hdeclared
  obtain ⟨-, htab⟩ := plain_of_mem_keys (mem_keys_of_wanted h)
  have hname : ∀ c ∈ table.1.toList, c.isAlphanum = true ∨ c ∈ ['.', '-', '_'] := by
    simp only [validateOverride, bind_eq_ok] at hvalid
    obtain ⟨_, hname, -⟩ := hvalid
    exact (Kuma.Sync.chars_of_validateName (mapError_eq_ok.mp hname)).2
  have happ : ∀ c, c.isAlphanum = false → c ∉ ['.', '-', '_'] → c ∉ table.1.toList := by
    intro c hc hextra hin
    rcases hname c hin with halnum | hmem
    · rw [hc] at halnum
      cases halnum
    · exact hextra hmem
  have hgroup : '\n' ∉ declared.1.1 := by
    have hall : ∀ group ∈ [CONTEXT, ENVIRONMENT, SESSION_BUS, SYSTEM_BUS], '\n' ∉ group := by
      decide
    exact hall _ hdeclarable.group
  rw [← hkey] at htab ⊢
  refine ⟨happ _ (by decide) (by decide), happ _ (by decide) (by decide), declared.1, rfl, htab,
    ?_, fun hlast => ?_⟩
  · have hnewline : '\n' ∉ declared.1.2 := hdeclarable.not_mem (by decide) (by decide)
    simp [ownedId, hgroup, hnewline]
  · have hend : (ownedId declared.1).getLast? = declared.1.2.getLast? := by
      obtain ⟨c, k, hk⟩ := List.exists_cons_of_ne_nil hdeclarable.key
      simp [ownedId, hk, List.getLast?_append, List.getLast?_cons]
    rw [hend] at hlast
    exact hdeclarable.not_mem (by decide) (by decide) (List.mem_of_getLast? hlast)

/-- Every key the old image bakes is baked into the new one. -/
def Keeps (old new : Image) : Prop :=
  ∀ file ∈ old.baked, ∀ entry ∈ old.wanted file.1, entry.1 ∈ (new.wanted file.1).map Prod.fst

instance (old new : Image) : Decidable (old.Keeps new) :=
  inferInstanceAs (Decidable (∀ file ∈ old.baked, _))

/-- An app with keys to read has a baked file. -/
theorem mem_baked_of_wanted (h : entry ∈ image.wanted app) : app ∈ image.baked.map Prod.fst := by
  unfold wanted at h
  cases hfile : image.baked.find? (·.1 = app) with
  | none => simp [hfile] at h
  | some file =>
    have happ : file.1 = app := by simpa using List.find?_some hfile
    exact List.mem_map.mpr ⟨file, List.mem_of_find?_eq_some hfile, happ⟩

theorem Keeps.wanted {new : Image} (h : image.Keeps new) (hentry : entry ∈ image.wanted app) :
    entry.1 ∈ (new.wanted app).map Prod.fst := by
  obtain ⟨file, hfile, rfl⟩ := List.mem_map.mp (mem_baked_of_wanted hentry)
  exact h file hfile entry hentry

end Image
section
variable {text : Chars} {content : Option Bytes}

theorem Bytes.lossy_of_readToString {bytes : Bytes} (h : bytes.readToString = some text) :
    bytes.lossy = text := by
  induction bytes generalizing text with
  | nil => exact Option.some.inj h
  | cons piece bytes ih =>
    cases piece with
    | stray b => cases h
    | char c =>
      obtain ⟨rest, hrest, rfl⟩ := Option.map_eq_some_iff.mp h
      rw [← ih hrest]
      rfl

/-- A file whose pairs survive a run: there is none, or it is UTF-8 and tidy. -/
def TidyFile (content : Option Bytes) : Prop :=
  match content with
  | none => True
  | some bytes =>
    match bytes.readToString with
    | none => False
    | some text => TidyText text

instance (content : Option Bytes) : Decidable (TidyFile content) := by
  unfold TidyFile
  split
  · infer_instance
  · split <;> infer_instance

/-- What the converger reads of a tidy file is what stands in it. -/
theorem TidyFile.readable (h : TidyFile content) :
    TidyText ((content.bind Bytes.readToString).getD []) ∧
      Store.pairsOf content = found ((content.bind Bytes.readToString).getD []) := by
  unfold TidyFile at h
  split at h
  · exact ⟨tidyText_nil, rfl⟩
  · next bytes =>
    split at h
    · exact h.elim
    · next text htext =>
      simp only [Option.bind_some, htext, Option.getD_some, Store.pairsOf, Option.map_some,
        Bytes.lossy_of_readToString htext]
      exact ⟨h, trivial⟩

end

/-- A write that goes through or leaves the file as it was. -/
def Write.Clean : Write → Prop
  | .torn _ _ => False
  | _ => True

instance : DecidablePred Write.Clean := fun w => by
  cases w <;> (unfold Write.Clean; infer_instance)

namespace Store

/-- The steps under which keys stay with their owners: a run meets tidy files only and tears
none, and after a run that died no image drops a key that the one before baked. -/
def Orderly (scope : Scope) (s : Store) : Action → Prop
  | .boot d ships => s.died = true → s.image.Keeps (d.image scope ships)
  | .edit _ _ _ => True
  | .run scope' r => scope' = scope →
      (∀ app ∈ s.apps, TidyFile (s.files app) ∧ (r.write app).Clean) ∧ r.state.Clean

instance (scope : Scope) (s : Store) : DecidablePred (s.Orderly scope) := fun a => by
  cases a with
  | boot d ships => exact inferInstanceAs (Decidable (_ → _))
  | edit scope' app content => exact inferInstanceAs (Decidable True)
  | run scope' r => exact inferInstanceAs (Decidable (_ → _))

/-- A key that no declaration ever named is left as it was by a run. -/
def Spares (scope : Scope) (s : Store) (a : Action) : Prop :=
  match a with
  | .run _ _ => ∀ app key, (app, key) ∉ s.named →
      values key ((s.step scope a).pairs app) = values key (s.pairs app)
  | _ => True

/-- A key that a run wrote, whose value is still the one it wrote and which the declaration does
not name, is in the state file, and an orderly run that goes through takes it back. -/
def Accountable (scope : Scope) (s : Store) : Prop :=
  ∀ app key v, s.wrote app key = some v → (app, key) ∉ s.image.keys →
    ownedId key ∈ s.readState.ids app ∧
      ∀ r, s.Orderly scope (.run scope r) → ((convergeStore r).exec s).2 = true →
        values key ((s.ran r).pairs app) = []

/-- What holds between the steps of an orderly run. -/
structure Kept (s : Store) : Prop where
  current : ∀ named ∈ s.image.keys, named ∈ s.named
  plain : ∀ named ∈ s.named, named.2.1 ≠ [] ∧ '\t' ∉ named.2.1
  recorded : ∀ app, ∀ id ∈ s.readState.ids app, ∃ key, id = ownedId key ∧ (app, key) ∈ s.named
  live : ∀ app key v, s.wrote app key = some v → s.live app key = some v
  authored : ∀ app key v, s.wrote app key = some v → (app, key) ∈ s.named
  accounted : ∀ app key v, s.wrote app key = some v → ownedId key ∈ s.readState.ids app ∨
    s.died = true ∧ key ∈ (s.image.wanted app).map Prod.fst

section
variable {s : Store} {app other : String} {content : Option Bytes} {set : List Key} {key : Key}

@[simp] theorem put_pairs_self : (s.put app content set).pairs app = pairsOf content := by
  simp [pairs, put]

theorem put_pairs_of_ne (h : other ≠ app) :
    (s.put app content set).pairs other = s.pairs other := by
  simp [pairs, put, h]

theorem put_wrote_of_ne (h : other ≠ app) :
    (s.put app content set).wrote other = s.wrote other := Function.update_of_ne h ..

/-- What counts as written after a file was replaced is live in it, and was written before or
has just been set. -/
theorem of_put_wrote {v : Chars} (h : (s.put app content set).wrote app key = some v) :
    (values key (pairsOf content)).head? = some v ∧ (key ∈ set ∨ s.wrote app key = some v) := by
  simp only [put, Function.update_self] at h
  split_ifs at h with hset
  refine ⟨h, hset.imp_right fun hsame => ?_⟩
  rw [← hsame, h]

theorem splitOnce_ownedId (h : '\t' ∉ key.1) : splitOnce '\t' (ownedId key) = some key :=
  splitOnce_append h

/-- One app's turn: the file is left where it holds what it should, or it is replaced. -/
theorem wp_convergeApp {r : Attempt} {previous : Owned} {Q F : Store → Prop}
    (htidy : TidyFile (s.files app)) (hclean : (r.write app).Clean) (hF : F s)
    (hidle : s.pairs app = found (s.converged previous app).1 → Q s)
    (hput : ∀ content set, pairsOf content = found (s.converged previous app).1 →
      (∀ key ∈ set, key ∈ (s.image.wanted app).map Prod.fst) → Q (s.put app content set)) :
    (convergeApp r previous app).wp (fun _ => True) Q F s := by
  obtain ⟨-, hpairs⟩ := htidy.readable
  rw [convergeApp, Script.wp]
  dsimp only
  by_cases hempty : (s.converged previous app).1 = []
  · rw [if_pos hempty]
    by_cases hthere : (s.files app).isSome = true
    · have hnone := hput none [] (by rw [hempty]; rfl) fun _ h => absurd h List.not_mem_nil
      rw [if_pos hthere, Script.wp]
      refine ⟨trivial, ?_⟩
      cases r.remove app with
      | true => exact hnone
      | false => exact hF
    · rw [if_neg hthere, Script.wp]
      apply hidle
      have hfile : s.files app = none := by simpa using hthere
      rw [pairs, hfile, hempty]
      rfl
  · rw [if_neg hempty]
    by_cases hdiffers :
        (s.converged previous app).1 ≠ ((s.files app).bind Bytes.readToString).getD []
    · rw [if_pos hdiffers, Script.wp]
      refine ⟨trivial, ?_⟩
      cases hwrite : r.write app with
      | refused => exact hF
      | torn n bytes =>
        rw [hwrite] at hclean
        exact hclean.elim
      | whole =>
        refine hput _ _ ?_ fun key hkey => ?_
        · rw [pairsOf, Option.map_some, Bytes.lossy_ofText, Option.getD_some]
        · obtain ⟨entry, hentry, rfl⟩ := List.mem_map.mp hkey
          exact List.mem_map_of_mem (List.mem_of_mem_filter hentry)
    · rw [if_neg hdiffers, Script.wp]
      apply hidle
      rw [not_not.mp hdiffers]
      exact hpairs

end

/-- What holds wherever a run stands, of the store it began in. -/
structure Midway (s₀ s : Store) : Prop where
  frame : s = { s₀ with files := s.files, wrote := s.wrote }
  spared : ∀ app key, (app, key) ∉ s₀.named →
    values key (s.pairs app) = values key (s₀.pairs app)
  live : ∀ app key v, s.wrote app key = some v → s.live app key = some v
  authored : ∀ app key v, s.wrote app key = some v → (app, key) ∈ s₀.named
  accounted : ∀ app key v, s.wrote app key = some v → ownedId key ∈ s₀.readState.ids app ∨
    key ∈ (s₀.image.wanted app).map Prod.fst

/-- What holds between two turns, of the apps whose turn is still to come. -/
structure Looped (s₀ : Store) (rest : List String) (s : Store) : Prop extends Midway s₀ s where
  nodup : rest.Nodup
  waiting : ∀ app ∈ rest, app ∈ s₀.apps ∧ s.files app = s₀.files app
  taken : ∀ app, app ∉ rest → ∀ key : Key, key.1 ≠ [] → '\t' ∉ key.1 →
    ownedId key ∈ s₀.readState.ids app →
    ownedId key ∉ (s₀.image.wanted app).map (fun entry => ownedId entry.1) →
    values key (s.pairs app) = []

section
variable {s₀ s : Store} {app : String} {content : Option Bytes} {set : List Key} {r : Attempt}

theorem Kept.converged_keeps (h : s₀.Kept) (htidy : TidyFile (s₀.files app)) {key : Key}
    (hkey : (app, key) ∉ s₀.named) :
    values key (found (s₀.converged s₀.readState app).1) = values key (s₀.pairs app) := by
  obtain ⟨htext, hpairs⟩ := htidy.readable
  rw [pairs, hpairs]
  refine converge_keeps htext Image.wanted_writable (fun entry hentry heq => ?_)
    fun id hid heq => ?_
  · have hnamed := h.current _ (Image.mem_keys_of_wanted hentry)
    rw [heq] at hnamed
    exact hkey hnamed
  · obtain ⟨key', rfl, hnamed⟩ := h.recorded app id hid
    rw [splitOnce_ownedId (h.plain _ hnamed).2] at heq
    obtain rfl := Option.some.inj heq
    exact hkey hnamed

theorem converged_removes (htidy : TidyFile (s₀.files app)) {key : Key} (hname : key.1 ≠ [])
    (htab : '\t' ∉ key.1) (hid : ownedId key ∈ s₀.readState.ids app)
    (howned : ownedId key ∉ (s₀.image.wanted app).map fun entry => ownedId entry.1) :
    values key (found (s₀.converged s₀.readState app).1) = [] :=
  converge_removes htidy.readable.1 Image.wanted_writable hid howned (splitOnce_ownedId htab) hname

theorem Midway.put (h : Midway s₀ s) (hs₀ : s₀.Kept) (htidy : TidyFile (s₀.files app))
    (hcontent : pairsOf content = found (s₀.converged s₀.readState app).1)
    (hset : ∀ key ∈ set, key ∈ (s₀.image.wanted app).map Prod.fst) :
    Midway s₀ (s.put app content set) where
  frame := by
    rw [h.frame]
    rfl
  spared := by
    intro other key hkey
    by_cases hother : other = app
    · subst hother
      rw [put_pairs_self, hcontent, hs₀.converged_keeps htidy hkey]
    · rw [put_pairs_of_ne hother, h.spared other key hkey]
  live := by
    intro other key v hwrote
    by_cases hother : other = app
    · subst hother
      rw [Store.live, put_pairs_self]
      exact (of_put_wrote hwrote).1
    · rw [put_wrote_of_ne hother] at hwrote
      rw [Store.live, put_pairs_of_ne hother]
      exact h.live other key v hwrote
  authored := by
    intro other key v hwrote
    by_cases hother : other = app
    · subst hother
      rcases (of_put_wrote hwrote).2 with hmem | hold
      · obtain ⟨entry, hentry, rfl⟩ := List.mem_map.mp (hset key hmem)
        exact hs₀.current _ (Image.mem_keys_of_wanted hentry)
      · exact h.authored other key v hold
    · rw [put_wrote_of_ne hother] at hwrote
      exact h.authored other key v hwrote
  accounted := by
    intro other key v hwrote
    by_cases hother : other = app
    · subst hother
      rcases (of_put_wrote hwrote).2 with hmem | hold
      · exact .inr (hset key hmem)
      · exact h.accounted other key v hold
    · rw [put_wrote_of_ne hother] at hwrote
      exact h.accounted other key v hwrote

/-- One turn of the loop. -/
theorem Looped.turn {rest : List String} (h : Looped s₀ (app :: rest) s) (hs₀ : s₀.Kept)
    (htidy : ∀ app ∈ s₀.apps, TidyFile (s₀.files app) ∧ (r.write app).Clean) :
    (convergeApp r s₀.readState app).wp (fun _ => True) (Looped s₀ rest) (Midway s₀) s := by
  obtain ⟨happ, hfile⟩ := h.waiting app List.mem_cons_self
  obtain ⟨hfiles, hclean⟩ := htidy app happ
  have hnodup := List.nodup_cons.mp h.nodup
  have himage : s.image = s₀.image := by rw [h.frame]
  have hconverged : s.converged s₀.readState app = s₀.converged s₀.readState app := by
    rw [converged, hfile, himage]
    rfl
  have hrest : ∀ other, other ∉ rest → other ≠ app → other ∉ app :: rest := by
    intro other hother hne hmem
    exact (List.mem_cons.mp hmem).elim hne hother
  apply wp_convergeApp (hfile ▸ hfiles) hclean h.toMidway
  · intro hpairs
    rw [hconverged] at hpairs
    refine ⟨h.toMidway, hnodup.2,
      fun other hother => h.waiting other (List.mem_cons_of_mem _ hother),
      fun other hother key hname htab hid howned => ?_⟩
    by_cases hsame : other = app
    · subst hsame
      rw [hpairs, converged_removes hfiles hname htab hid howned]
    · exact h.taken other (hrest other hother hsame) key hname htab hid howned
  · intro content set hcontent hset
    rw [hconverged] at hcontent
    rw [himage] at hset
    refine ⟨h.toMidway.put hs₀ hfiles hcontent hset, hnodup.2, fun other hother => ?_,
      fun other hother key hname htab hid howned => ?_⟩
    · obtain ⟨hin, hsame⟩ := h.waiting other (List.mem_cons_of_mem _ hother)
      have hne : other ≠ app := by
        rintro rfl
        exact hnodup.1 hother
      refine ⟨hin, ?_⟩
      rw [put]
      dsimp only
      rw [Function.update_of_ne hne, hsame]
    · by_cases hsame : other = app
      · subst hsame
        rw [put_pairs_self, hcontent, converged_removes hfiles hname htab hid howned]
      · rw [put_pairs_of_ne hsame]
        exact h.taken other (hrest other hother hsame) key hname htab hid howned

theorem nodup_apps : s.apps.Nodup :=
  (List.perm_insertionSort _ _).nodup_iff.mpr (List.nodup_dedup _)

theorem mem_apps : app ∈ s.apps ↔
    app ∈ s.readState.map Prod.fst ∨ app ∈ s.image.baked.map Prod.fst := by
  rw [apps, List.mem_insertionSort, List.mem_dedup, List.mem_append]

theorem looped_start (h : s₀.Kept) : Looped s₀ s₀.apps s₀ where
  frame := rfl
  spared := fun _ _ _ => rfl
  live := h.live
  authored := h.authored
  accounted := fun app key v hwrote => (h.accounted app key v hwrote).imp_right And.right
  nodup := nodup_apps
  waiting := fun _ happ => ⟨happ, rfl⟩
  taken := by
    intro app happ key _ _ hid
    rw [Owned.ids_of_not_mem fun hin => happ (mem_apps.mpr (.inl hin))] at hid
    cases hid

/-- What a finished run owns of an app is what the image wants of it. -/
theorem ids_owned : s.owned.ids app = (s.image.wanted app).map fun entry => ownedId entry.1 := by
  have hlist : ∀ apps : List String, Owned.ids app (apps.filterMap fun app =>
      let now := (s.image.wanted app).map fun entry => ownedId entry.1
      if now = [] then none else some (app, now)) =
      if app ∈ apps then (s.image.wanted app).map fun entry => ownedId entry.1 else [] := by
    intro apps
    induction apps with
    | nil => rfl
    | cons head apps ih =>
      rw [List.filterMap_cons]
      by_cases hnow : ((s.image.wanted head).map fun entry => ownedId entry.1) = []
      · simp only [if_pos hnow]
        rw [ih]
        by_cases hhead : app = head
        · subst hhead
          simp [hnow]
        · simp [hhead]
      · simp only [if_neg hnow]
        rw [Owned.ids_cons, ih]
        by_cases hhead : head = app
        · simp [hhead]
        · simp [hhead, Ne.symm hhead]
  rw [owned, hlist]
  split_ifs with happ
  · rfl
  · cases hwanted : s.image.wanted app with
    | nil => rfl
    | cons entry wanted =>
      have hentry : entry ∈ s.image.wanted app := by simp [hwanted]
      exact absurd (mem_apps.mpr (.inr (Image.mem_baked_of_wanted hentry))) happ

theorem mem_owned {entry : String × List Chars} (h : entry ∈ s.owned) :
    entry.2 = (s.image.wanted entry.1).map fun e => ownedId e.1 := by
  obtain ⟨app, -, happ⟩ := List.mem_filterMap.mp h
  dsimp only at happ
  split_ifs at happ
  obtain rfl := Option.some.inj happ
  rfl

theorem owned_sublist : (s.owned.map Prod.fst).Sublist s.apps := by
  have hsub : ∀ apps : List String, ((apps.filterMap fun app =>
      let now := (s.image.wanted app).map fun entry => ownedId entry.1
      if now = [] then none else some (app, now)).map Prod.fst).Sublist apps := by
    intro apps
    induction apps with
    | nil => exact .refl _
    | cons head apps ih =>
      rw [List.filterMap_cons]
      by_cases hnow : ((s.image.wanted head).map fun entry => ownedId entry.1) = []
      · simp only [if_pos hnow]
        exact ih.cons _
      · simp only [if_neg hnow]
        exact ih.cons_cons _
  exact hsub s.apps

theorem nodup_owned : (s.owned.map Prod.fst).Nodup := nodup_apps.sublist owned_sublist

/-- A store whose run is through: every turn has been taken, and the state file says what the
image wants. -/
structure Finished (s₀ s : Store) : Prop where
  looped : Looped s₀ [] { s with state := s₀.state }
  ids : ∀ app, s.readState.ids app = (s₀.image.wanted app).map fun entry => ownedId entry.1

theorem wp_convergeStore (hs₀ : s₀.Kept)
    (htidy : ∀ app ∈ s₀.apps, TidyFile (s₀.files app) ∧ (r.write app).Clean)
    (hclean : r.state.Clean) :
    (convergeStore r).wp (fun _ => True) (Finished s₀) (Midway s₀) s₀ := by
  rw [convergeStore, Script.wp, Script.wp]
  refine Script.wp_mono (fun s hs => ?_) (fun _ => id)
    (Script.wp_each (fun app rest s hs => hs.turn hs₀ htidy) (looped_start hs₀))
  have hstate : s.state = s₀.state := by rw [hs.frame]
  have hsame : { s with state := s₀.state } = s := by rw [← hstate]
  split_ifs with hmoved
  · rw [writeState, Script.wp]
    refine ⟨trivial, ?_⟩
    cases hwrite : r.state with
    | refused => exact hs.toMidway
    | torn n bytes =>
      rw [hwrite] at hclean
      exact hclean.elim
    | whole =>
      refine ⟨by rwa [hsame], fun app => ?_⟩
      have hread : Store.readState { s with state := some (Bytes.ofText s₀.owned.write) } =
          Owned.read s₀.owned.write := by
        rw [readState, Option.bind_some, Bytes.readToString_ofText]
        rfl
      rw [hread, Owned.ids_read_write nodup_owned fun entry hentry id hid => ?_, ids_owned]
      rw [mem_owned hentry] at hid
      obtain ⟨e, he, rfl⟩ := List.mem_map.mp hid
      exact Image.wanted_recordable he
  · rw [Script.wp]
    refine ⟨by rwa [hsame], fun app => ?_⟩
    have hread : s.readState = s₀.readState := by rw [readState, hstate]; rfl
    rw [hread, ← not_not.mp hmoved, ids_owned]

theorem ownedId_inj {key key' : Key} (hkey : '\t' ∉ key.1) (hkey' : '\t' ∉ key'.1)
    (h : ownedId key = ownedId key') : key = key' := by
  have hsplit := splitOnce_ownedId hkey
  rw [h, splitOnce_ownedId hkey'] at hsplit
  exact (Option.some.inj hsplit).symm

/-- A run that died leaves the state file as it was, and what it wrote is still wanted. -/
theorem Kept.died (h : s₀.Kept) (hs : Midway s₀ s) : Kept { s with died := true } := by
  have himage : s.image = s₀.image := by rw [hs.frame]
  have hnamed : s.named = s₀.named := by rw [hs.frame]
  have hread : s.readState = s₀.readState := by
    rw [hs.frame]
    rfl
  refine ⟨?_, ?_, ?_, hs.live, ?_, fun app key v hwrote => ?_⟩
  · change ∀ named ∈ s.image.keys, named ∈ s.named
    rw [himage, hnamed]
    exact h.current
  · change ∀ named ∈ s.named, _
    rw [hnamed]
    exact h.plain
  · change ∀ app, ∀ id ∈ s.readState.ids app, ∃ key, id = ownedId key ∧ (app, key) ∈ s.named
    rw [hread, hnamed]
    exact h.recorded
  · change ∀ app key v, _ → (app, key) ∈ s.named
    rw [hnamed]
    exact hs.authored
  · change ownedId key ∈ s.readState.ids app ∨ true = true ∧ key ∈ (s.image.wanted app).map Prod.fst
    rw [hread, himage]
    exact (hs.accounted app key v hwrote).imp_right fun hin => ⟨rfl, hin⟩

/-- After a run that went through, a value that runs have written is wanted, or gone. -/
theorem Finished.wanted (h : s₀.Kept) (hs : Finished s₀ s) {key : Key} {v : Chars}
    (hwrote : s.wrote app key = some v) :
    ownedId key ∈ (s₀.image.wanted app).map fun entry => ownedId entry.1 := by
  by_contra hnot
  obtain ⟨hname, htab⟩ := h.plain _ (hs.looped.authored app key v hwrote)
  have hlive : (values key (s.pairs app)).head? = some v := hs.looped.live app key v hwrote
  rcases hs.looped.accounted app key v hwrote with hid | hin
  · have hgone : values key (s.pairs app) = [] :=
      hs.looped.taken app List.not_mem_nil key hname htab hid hnot
    rw [hgone] at hlive
    cases hlive
  · obtain ⟨entry, hentry, rfl⟩ := List.mem_map.mp hin
    exact hnot (List.mem_map_of_mem (f := fun entry => ownedId entry.1) hentry)

theorem Kept.finished (h : s₀.Kept) (hs : Finished s₀ s) : Kept { s with died := false } := by
  have hframe := hs.looped.frame
  have himage : s.image = s₀.image := by simpa using congrArg Store.image hframe
  have hnamed : s.named = s₀.named := by simpa using congrArg Store.named hframe
  refine ⟨?_, ?_, fun app id hid => ?_, hs.looped.live, ?_, fun app key v hwrote => .inl ?_⟩
  · change ∀ named ∈ s.image.keys, named ∈ s.named
    rw [himage, hnamed]
    exact h.current
  · change ∀ named ∈ s.named, _
    rw [hnamed]
    exact h.plain
  · change id ∈ s.readState.ids app at hid
    rw [hs.ids app] at hid
    obtain ⟨entry, hentry, rfl⟩ := List.mem_map.mp hid
    refine ⟨entry.1, rfl, ?_⟩
    change (app, entry.1) ∈ s.named
    rw [hnamed]
    exact h.current _ (Image.mem_keys_of_wanted hentry)
  · change ∀ app key v, _ → (app, key) ∈ s.named
    rw [hnamed]
    exact hs.looped.authored
  · change ownedId key ∈ s.readState.ids app
    rw [hs.ids app]
    exact hs.wanted h hwrote

/-- An orderly run: it finished, or it died on its way. -/
theorem ran_cases (h : s₀.Kept)
    (htidy : ∀ app ∈ s₀.apps, TidyFile (s₀.files app) ∧ (r.write app).Clean)
    (hclean : r.state.Clean) :
    ((convergeStore r).exec s₀).2 = true ∧ Finished s₀ ((convergeStore r).final s₀) ∨
      ((convergeStore r).exec s₀).2 = false ∧ Midway s₀ ((convergeStore r).final s₀) := by
  obtain ⟨-, hok, hfailed⟩ := Script.wp_sound (wp_convergeStore h htidy hclean)
  cases hstatus : ((convergeStore r).exec s₀).2 with
  | true => exact .inl ⟨rfl, hok hstatus⟩
  | false => exact .inr ⟨rfl, hfailed hstatus⟩

theorem Kept.ran (h : s₀.Kept)
    (htidy : ∀ app ∈ s₀.apps, TidyFile (s₀.files app) ∧ (r.write app).Clean)
    (hclean : r.state.Clean) : (s₀.ran r).Kept := by
  rw [Store.ran]
  rcases ran_cases h htidy hclean with ⟨hstatus, hs⟩ | ⟨hstatus, hs⟩
  · rw [hstatus]
    exact h.finished hs
  · rw [hstatus]
    exact h.died hs

theorem Kept.spared (h : s₀.Kept)
    (htidy : ∀ app ∈ s₀.apps, TidyFile (s₀.files app) ∧ (r.write app).Clean)
    (hclean : r.state.Clean) {key : Key} (hkey : (app, key) ∉ s₀.named) :
    values key ((s₀.ran r).pairs app) = values key (s₀.pairs app) := by
  rcases ran_cases h htidy hclean with ⟨-, hs⟩ | ⟨-, hs⟩
  · exact hs.looped.spared app key hkey
  · exact hs.spared app key hkey

theorem Kept.boot {scope : Scope} {d : Declared} {ships : Bool} (h : s.Kept)
    (hkeeps : s.died = true → s.image.Keeps (d.image scope ships)) :
    (s.step scope (.boot d ships)).Kept := by
  refine ⟨fun named hmem => List.mem_append_right _ hmem, fun named hmem => ?_,
    fun app id hid => ?_, h.live, fun app key v hwrote => ?_, fun app key v hwrote => ?_⟩
  · rcases List.mem_append.mp hmem with hold | hnew
    · exact h.plain named hold
    · exact Image.plain_of_mem_keys hnew
  · obtain ⟨key, hkey, hnamed⟩ := h.recorded app id hid
    exact ⟨key, hkey, List.mem_append_left _ hnamed⟩
  · exact List.mem_append_left _ (h.authored app key v hwrote)
  · refine (h.accounted app key v hwrote).imp_right fun ⟨hdied, hin⟩ => ⟨hdied, ?_⟩
    obtain ⟨entry, hentry, rfl⟩ := List.mem_map.mp hin
    exact (hkeeps hdied).wanted hentry

/-- Anyone may replace a file: a value that is no longer kuma's is no longer counted. -/
theorem Kept.edit (h : s.Kept) : (s.put app content []).Kept := by
  have hold : ∀ other key v, (s.put app content []).wrote other key = some v →
      s.wrote other key = some v := by
    intro other key v hwrote
    by_cases hother : other = app
    · subst hother
      exact (of_put_wrote hwrote).2.resolve_left List.not_mem_nil
    · rwa [put_wrote_of_ne hother] at hwrote
  refine ⟨h.current, h.plain, h.recorded, fun other key v hwrote => ?_,
    fun other key v hwrote => h.authored other key v (hold other key v hwrote),
    fun other key v hwrote => h.accounted other key v (hold other key v hwrote)⟩
  by_cases hother : other = app
  · subst hother
    rw [Store.live, put_pairs_self]
    exact (of_put_wrote hwrote).1
  · rw [Store.live, put_pairs_of_ne hother]
    exact h.live other key v (hold other key v hwrote)

variable {scope : Scope} {a : Action}

theorem Kept.step (h : s.Kept) (ha : s.Orderly scope a) : (s.step scope a).Kept := by
  cases a with
  | boot d ships => exact h.boot ha
  | edit scope' app content =>
    rw [Store.step]
    split_ifs
    · exact h.edit
    · exact h
  | run scope' r =>
    rw [Store.step]
    split_ifs with hscope
    · obtain ⟨htidy, hclean⟩ := ha hscope
      exact h.ran htidy hclean
    · exact h

theorem Kept.spares (h : s.Kept) (ha : s.Orderly scope a) : s.Spares scope a := by
  cases a with
  | boot d ships => exact trivial
  | edit scope' app content => exact trivial
  | run scope' r =>
    intro app key hkey
    rw [Store.step]
    split_ifs with hscope
    · obtain ⟨htidy, hclean⟩ := ha hscope
      exact h.spared htidy hclean hkey
    · rfl

theorem Kept.accountable (h : s.Kept) : s.Accountable scope := by
  intro app key v hwrote hkey
  obtain ⟨hname, htab⟩ := h.plain _ (h.authored app key v hwrote)
  have hnot : ownedId key ∉ (s.image.wanted app).map fun entry => ownedId entry.1 := by
    intro hin
    obtain ⟨entry, hentry, heq⟩ := List.mem_map.mp hin
    have hkeys := Image.mem_keys_of_wanted hentry
    have hsame := ownedId_inj (Image.plain_of_mem_keys hkeys).2 htab heq
    rw [hsame] at hkeys
    exact hkey hkeys
  have hid : ownedId key ∈ s.readState.ids app := by
    refine (h.accounted app key v hwrote).resolve_right fun hdied => ?_
    obtain ⟨entry, hentry, rfl⟩ := List.mem_map.mp hdied.2
    exact hkey (Image.mem_keys_of_wanted hentry)
  refine ⟨hid, fun r ha hok => ?_⟩
  obtain ⟨htidy, hclean⟩ := ha rfl
  rcases ran_cases h htidy hclean with ⟨-, hs⟩ | ⟨hfailed, -⟩
  · exact hs.looped.taken app List.not_mem_nil key hname htab hid hnot
  · rw [hok] at hfailed
    cases hfailed

theorem kept_start (files : String → Option Bytes) : (start files).Kept where
  current := fun _ h => absurd h List.not_mem_nil
  plain := fun _ h => absurd h List.not_mem_nil
  recorded := fun _ _ h => absurd h List.not_mem_nil
  live := fun _ _ _ h => nomatch h
  authored := fun _ _ _ h => nomatch h
  accounted := fun _ _ _ h => nomatch h

end
end Store

namespace Machine

def Orderly (s : Machine) (a : Action) : Prop := ∀ scope, (s scope).Orderly scope a

instance (s : Machine) : DecidablePred s.Orderly := fun a =>
  decidable_of_iff ((s .system).Orderly .system a ∧ (s .user).Orderly .user a)
    ⟨fun h scope => by
      cases scope with
      | system => exact h.1
      | user => exact h.2,
    fun h => ⟨h .system, h .user⟩⟩

variable {files : Scope → String → Option Bytes} {as : List Action}

/-- The converger owns keys and not files: in an orderly history no run touches a key that no
declaration ever named, and every key a run wrote that is still kuma's can be taken back. -/
theorem overrides_own_keys (h : Along step Orderly (start files) as) :
    Along step (fun s a => ∀ scope, (s scope).Spares scope a) (start files) as ∧
      ∀ scope, (run step (start files) as scope).Accountable scope := by
  have hstep : ∀ (s : Machine) a, (∀ scope, (s scope).Kept) → s.Orderly a →
      ∀ scope, (s.step a scope).Kept := fun s a hs ha scope => (hs scope).step (ha scope)
  have hstart : ∀ scope, (start files scope).Kept := fun scope => Store.kept_start (files scope)
  constructor
  · have hkept := along_invariant hstep hstart h
    exact (hkept.and h).mono fun s a hs scope => (hs.1 scope).spares (hs.2 scope)
  · intro scope
    exact (run_invariant hstep hstart h scope).accountable

/-- A declaration of one context list. -/
private def table (devices : List String) : AppOverride :=
  ⟨.system, [], [], devices, [], [], [], [], [], []⟩

private def declares : Declared where
  tables := [("org.example.App", table ["dri"])]
  nodup := by decide
  valid := by decide +kernel

private theorem tables_nodup : (([] : List (String × AppOverride)).map Prod.fst).Nodup :=
  List.nodup_nil

private theorem tables_valid :
    ∀ table ∈ ([] : List (String × AppOverride)), validateOverride table.1 table.2 = .ok () :=
  List.forall_mem_nil _

private def declaresNothing : Declared := ⟨[], tables_nodup, tables_valid⟩

private def smooth : Attempt := ⟨fun _ => .whole, fun _ => true, .whole⟩

/-- The state file cannot be written. -/
private def stateless : Attempt := { smooth with state := .refused }

/-- What the machine's owner wrote, in UTF-8 and with one byte of Latin-1. -/
private def kept : Scope → String → Option Bytes := fun _ app =>
  if app = "org.example.App" then some (Bytes.ofText "[Context]\nsockets=x11;\n".toList)
  else none

private def latin : Scope → String → Option Bytes := fun scope app =>
  (kept scope app).map fun bytes => bytes ++ [.char '#', .stray 0xE9]

private def declaredAndDropped : List Action :=
  [.boot declares true, .run .system smooth, .boot declaresNothing true]

theorem overrides_own_keys_dropped :
    (run step (start kept) declaredAndDropped .system).wrote "org.example.App"
      (CONTEXT, "devices".toList) = some "dri;".toList ∧
    Along step (fun s a => ∀ scope, (s scope).Spares scope a) (start kept) declaredAndDropped ∧
      ∀ scope, (run step (start kept) declaredAndDropped scope).Accountable scope := by
  have horderly : Along step Orderly (start kept) declaredAndDropped := by decide +kernel
  exact ⟨by decide +kernel, overrides_own_keys horderly⟩

private def declaredAndLost : List Action :=
  [.boot declares true, .run .system stateless, .boot declaresNothing true, .run .system smooth]

theorem overrides_lose_keys :
    ¬ Along step (fun s a => ∀ scope, (s scope).Spares scope a) (start latin)
        [.boot declares true, .run .system smooth] ∧
      ¬ ∀ scope, (run step (start kept) declaredAndLost scope).Accountable scope := by
  constructor
  · intro h
    have hrun := (along_cons.mp (along_cons.mp h).2).1 .system "org.example.App"
      (CONTEXT, "sockets".toList) (by decide +kernel)
    revert hrun
    decide +kernel
  · intro h
    have hwrote : (run step (start kept) declaredAndLost .system).wrote "org.example.App"
        (CONTEXT, "devices".toList) = some "dri;".toList := by decide +kernel
    obtain ⟨hid, -⟩ := h .system _ _ _ hwrote (by decide +kernel)
    revert hid
    decide +kernel

end Machine
end Kuma.Overrides
