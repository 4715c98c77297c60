import Kuma.Overrides.Rerun

/-! What `kuma diff` reports of the overrides, beside what the converger would do. -/
namespace Kuma.Overrides
open Kuma.Lib Kuma.Lib.Text KeyFile

inductive Change
  | add
  | remove
  deriving DecidableEq

/-- One key that does not match the declaration. -/
structure Drift where
  app : String
  key : Key
  change : Change
  deriving DecidableEq

/-- An app's file as the observers read it: one that has no text is empty to them. -/
def Store.text (s : Store) (app : String) : Chars :=
  ((s.files app).bind Bytes.readToString).getD []

namespace Declared

/-- The keys that an app's table asks for in a scope. -/
def keys (d : Declared) (scope : Scope) (app : String) : List (Key × Chars) :=
  (((d.tables.filter (·.2.scope = scope)).find? (·.1 = app)).map fun table =>
    declaredKeys table.2).getD []

/-- The declaration against one of the two stores. -/
def driftIn (d : Declared) (scope : Scope) (s : Store) : List Drift :=
  ((d.tables.filter (·.2.scope = scope)).flatMap fun table =>
    ((declaredKeys table.2).filter fun entry =>
      liveKeys (s.text table.1) entry.1 ≠ some entry.2).map fun entry =>
        ⟨table.1, entry.1, .add⟩) ++
  s.readState.flatMap fun owned => owned.2.filterMap fun id =>
    if id ∈ (d.keys scope owned.1).map (fun entry => ownedId entry.1) then none
    else match splitOnce '\t' id with
      | none => none
      | some key =>
        if (liveKeys (s.text owned.1) key).isSome then some ⟨owned.1, key, .remove⟩ else none

def drift (d : Declared) (m : Machine) : List Drift :=
  d.driftIn .system (m .system) ++ d.driftIn .user (m .user)

end Declared

/-- The names of one table's variables and buses are each there once, as in a map. -/
structure AppOverride.Mapped (app : AppOverride) : Prop where
  environment : (app.environment.map Prod.fst).Nodup
  sessionBus : (app.sessionBus.map Prod.fst).Nodup
  systemBus : (app.systemBus.map Prod.fst).Nodup

/-- What is reported is what the converger would do, and once it has done it nothing is. -/
structure Predicts (d : Declared) (m : Machine) : Prop where
  adds : ∀ scope app id,
    (∃ key, ownedId key = id ∧ ⟨app, key, .add⟩ ∈ d.driftIn scope (m scope)) ↔
      ∃ changed, (app, changed) ∈ (m scope).report ∧ id ∈ changed.set
  removes : ∀ scope app id,
    (∃ key, ownedId key = id ∧ ⟨app, key, .remove⟩ ∈ d.driftIn scope (m scope)) ↔
      ∃ changed, (app, changed) ∈ (m scope).report ∧ id ∈ changed.removed
  settled : ∀ r : Scope → Attempt,
    (∀ scope, ((convergeStore (r scope)).exec (m scope)).2 = true) →
      d.drift (fun scope => (convergeStore (r scope)).final (m scope)) = []

/-- The observer and the converger look at the same pairs: no variable's value ends in white
space, a declared key settles and its first pair says what its last one says, and no key of the
state file that is under no group stands above the first header. -/
structure LooksAlike (d : Declared) (m : Machine) : Prop where
  trimmed : ∀ table ∈ d.tables, ∀ var ∈ table.2.environment,
    trimEnd var.2.toList = var.2.toList
  settles : ∀ table ∈ d.tables, ∀ entry ∈ declaredKeys table.2,
    Settles ((m table.2.scope).text table.1) (declaredKeys table.2)
      ((m table.2.scope).readState.ids table.1) entry
  same : ∀ table ∈ d.tables, ∀ entry ∈ declaredKeys table.2,
    (own entry.1 (parse ((m table.2.scope).text table.1))).head? = some entry.2 ↔
      liveKeys ((m table.2.scope).text table.1) entry.1 = some entry.2
  nameless : ∀ scope app, ∀ id ∈ (m scope).readState.ids app, ∀ key : Key,
    splitOnce '\t' id = some key → key.1 = [] →
      values key (entries (parse ((m scope).text app))) = []

section
variable {d : Declared} {m : Machine} {s : Store} {scope : Scope} {app : String} {key : Key}
  {id : Chars} {table : String × AppOverride} {owned : Owned}

/-- The names that a table gives keys in each group. -/
def AppOverride.names (app : AppOverride) : List (Chars × List String) :=
  [(CONTEXT, (app.contextLists.filter fun list => !list.2.isEmpty).map Prod.fst),
    (ENVIRONMENT, app.environment.map Prod.fst), (SESSION_BUS, app.sessionBus.map Prod.fst),
    (SYSTEM_BUS, app.systemBus.map Prod.fst)]

theorem declaredKeys_names (app : AppOverride) : (declaredKeys app).map Prod.fst =
    app.names.flatMap fun group => group.2.map fun name => (group.1, name.toList) := by
  unfold declaredKeys AppOverride.names
  simp [Function.comp_def]

/-- What a table declares it declares once. -/
theorem AppOverride.Mapped.nodup {app : AppOverride} (h : app.Mapped) :
    ((declaredKeys app).map Prod.fst).Nodup := by
  have hlists : ((app.contextLists.filter fun list => !list.2.isEmpty).map Prod.fst).Nodup := by
    have hall : (app.contextLists.map Prod.fst).Nodup := by
      change ["filesystems", "sockets", "devices", "shared", "features", "persistent"].Nodup
      decide
    exact hall.sublist (List.filter_sublist.map _)
  have hgroups : (app.names.map Prod.fst).Nodup := by
    change [CONTEXT, ENVIRONMENT, SESSION_BUS, SYSTEM_BUS].Nodup
    decide
  rw [declaredKeys_names, List.nodup_flatMap]
  constructor
  · intro group hgroup
    have hnames : group.2.Nodup := by
      simp only [names, List.mem_cons, List.not_mem_nil, or_false] at hgroup
      rcases hgroup with rfl | rfl | rfl | rfl
      · exact hlists
      · exact h.environment
      · exact h.sessionBus
      · exact h.systemBus
    have hpair : Function.Injective fun name : String => (group.1, name.toList) :=
      fun a b hab => String.toList_inj.mp (Prod.ext_iff.mp hab).2
    exact hnames.map hpair
  · refine (List.pairwise_map.mp hgroups).imp fun {a b} hne => ?_
    intro key ha hb
    obtain ⟨_, -, rfl⟩ := List.mem_map.mp ha
    obtain ⟨_, -, hsame⟩ := List.mem_map.mp hb
    exact hne (Prod.ext_iff.mp hsame).1.symm

theorem Owned.nodup_record (h : (owned.map Prod.fst).Nodup) :
    ((owned.record app id).map Prod.fst).Nodup := by
  unfold Owned.record
  split_ifs with hany
  · have hnames : (owned.map fun entry =>
        if entry.1 = app then (entry.1, entry.2 ++ [id]) else entry).map Prod.fst =
        owned.map Prod.fst := by
      rw [List.map_map]
      apply List.map_congr_left
      intro entry _
      rw [Function.comp_apply]
      split_ifs <;> rfl
    rwa [hnames]
  · have hperm : (owned.orderedInsert (fun a b => a.1 ≤ b.1) (app, [id])).Perm
        ((app, [id]) :: owned) := List.perm_orderedInsert _ _ _
    rw [(hperm.map Prod.fst).nodup_iff, List.map_cons, List.nodup_cons]
    refine ⟨fun hmem => ?_, h⟩
    obtain ⟨entry, hentry, hname⟩ := List.mem_map.mp hmem
    exact Owned.ne_of_not_any hany entry hentry hname

/-- A state file is read into one entry an app. -/
theorem nodup_readState : (s.readState.map Prod.fst).Nodup := by
  have hfold : ∀ (lines : List Chars) (owned : Owned), (owned.map Prod.fst).Nodup →
      ((lines.foldl Owned.readLine owned).map Prod.fst).Nodup := by
    intro lines
    induction lines with
    | nil => exact fun _ h => h
    | cons line lines ih =>
      intro owned howned
      apply ih
      unfold Owned.readLine
      split
      · exact howned
      · split
        · exact howned
        · exact Owned.nodup_record howned
  unfold Store.readState
  cases s.state.bind Bytes.readToString with
  | none => exact List.nodup_nil
  | some text => exact hfold _ [] List.nodup_nil

/-- The entry of a name in a list that has it once. -/
theorem find?_eq_some_iff {α : Type} {l : List (String × α)} (h : (l.map Prod.fst).Nodup)
    {value : α} : l.find? (·.1 = app) = some (app, value) ↔ (app, value) ∈ l := by
  constructor
  · exact List.mem_of_find?_eq_some
  · intro hmem
    induction l with
    | nil => cases hmem
    | cons entry l ih =>
      rw [List.map_cons, List.nodup_cons] at h
      rw [List.find?_cons]
      rcases List.mem_cons.mp hmem with rfl | hrest
      · simp
      · have hlater : app ∈ l.map Prod.fst := List.mem_map_of_mem (f := Prod.fst) hrest
        have hne : entry.1 ≠ app := fun heq => h.1 (heq ▸ hlater)
        simp only [hne, decide_false]
        exact ih h.2 hrest

/-- An app's keys in the scope of its table are the table's. -/
theorem Declared.keys_eq (h : table ∈ d.tables) :
    d.keys table.2.scope table.1 = declaredKeys table.2 := by
  have hnodup : ((d.tables.filter (·.2.scope = table.2.scope)).map Prod.fst).Nodup :=
    d.nodup.sublist (List.filter_sublist.map _)
  have hmem : (table.1, table.2) ∈ d.tables.filter (·.2.scope = table.2.scope) :=
    List.mem_filter.mpr ⟨h, by simp⟩
  rw [Declared.keys, (find?_eq_some_iff hnodup).mpr hmem]
  rfl

theorem Declared.mem_keys {entry : Key × Chars} (h : entry ∈ d.keys scope app) :
    ∃ table ∈ d.tables, table.1 = app ∧ table.2.scope = scope ∧
      entry ∈ declaredKeys table.2 := by
  unfold Declared.keys at h
  cases hfind : (d.tables.filter (·.2.scope = scope)).find? (·.1 = app) with
  | none => simp [hfind] at h
  | some table =>
    rw [hfind] at h
    obtain ⟨hmem, hscope⟩ := List.mem_filter.mp (List.mem_of_find?_eq_some hfind)
    have happ := List.find?_some hfind
    exact ⟨table, hmem, by simpa using happ, by simpa using hscope, h⟩

theorem mem_driftIn_add : ⟨app, key, .add⟩ ∈ d.driftIn scope s ↔
    ∃ value, (key, value) ∈ d.keys scope app ∧ liveKeys (s.text app) key ≠ some value := by
  have hremove : ⟨app, key, .add⟩ ∉ s.readState.flatMap fun owned => owned.2.filterMap fun id =>
      if id ∈ (d.keys scope owned.1).map (fun entry => ownedId entry.1) then none
      else match splitOnce '\t' id with
        | none => none
        | some key => if (liveKeys (s.text owned.1) key).isSome
          then some (Drift.mk owned.1 key .remove) else none := by
    intro hmem
    obtain ⟨owned, -, hmem⟩ := List.mem_flatMap.mp hmem
    obtain ⟨id, -, hid⟩ := List.mem_filterMap.mp hmem
    split_ifs at hid
    split at hid
    · cases hid
    · split_ifs at hid
      cases hid
  unfold Declared.driftIn
  rw [List.mem_append, or_iff_left hremove, List.mem_flatMap]
  constructor
  · rintro ⟨table, htable, hmem⟩
    obtain ⟨hmem', hscope⟩ := List.mem_filter.mp htable
    obtain ⟨entry, hentry, hdrift⟩ := List.mem_map.mp hmem
    obtain ⟨hdeclared, hlive⟩ := List.mem_filter.mp hentry
    obtain ⟨rfl, rfl⟩ : table.1 = app ∧ entry.1 = key := by simpa using hdrift
    have hkeys := Declared.keys_eq hmem'
    rw [of_decide_eq_true hscope] at hkeys
    exact ⟨entry.2, hkeys ▸ hdeclared, by simpa using hlive⟩
  · rintro ⟨value, hkey, hlive⟩
    obtain ⟨table, htable, rfl, hscope, hdeclared⟩ := Declared.mem_keys hkey
    refine ⟨table, List.mem_filter.mpr ⟨htable, by simpa using hscope⟩, ?_⟩
    exact List.mem_map.mpr
      ⟨(key, value), List.mem_filter.mpr ⟨hdeclared, by simpa using hlive⟩, rfl⟩

theorem mem_driftIn_remove : ⟨app, key, .remove⟩ ∈ d.driftIn scope s ↔
    ∃ id ∈ s.readState.ids app, id ∉ (d.keys scope app).map (fun entry => ownedId entry.1) ∧
      splitOnce '\t' id = some key ∧ liveKeys (s.text app) key ≠ none := by
  have hadd : ⟨app, key, .remove⟩ ∉ (d.tables.filter (·.2.scope = scope)).flatMap fun table =>
      ((declaredKeys table.2).filter fun entry =>
        liveKeys (s.text table.1) entry.1 ≠ some entry.2).map fun entry =>
          Drift.mk table.1 entry.1 .add := by
    intro hmem
    obtain ⟨table, -, hmem⟩ := List.mem_flatMap.mp hmem
    obtain ⟨entry, -, hdrift⟩ := List.mem_map.mp hmem
    cases hdrift
  have hids : ∀ {id : Chars}, id ∈ s.readState.ids app ↔
      ∃ ids, (app, ids) ∈ s.readState ∧ id ∈ ids := by
    intro id
    constructor
    · intro hid
      unfold Owned.ids at hid
      cases hfind : s.readState.find? (·.1 = app) with
      | none => simp [hfind] at hid
      | some owned =>
        rw [hfind] at hid
        have happ : owned.1 = app := by simpa using List.find?_some hfind
        exact ⟨owned.2, happ ▸ List.mem_of_find?_eq_some hfind, hid⟩
    · rintro ⟨ids, hmem, hid⟩
      rw [Owned.ids, (find?_eq_some_iff nodup_readState).mpr hmem]
      exact hid
  unfold Declared.driftIn
  rw [List.mem_append, or_iff_right hadd, List.mem_flatMap]
  constructor
  · rintro ⟨owned, howned, hmem⟩
    obtain ⟨id, hid, hdrift⟩ := List.mem_filterMap.mp hmem
    split_ifs at hdrift with hkept
    cases hsplit : splitOnce '\t' id with
    | none =>
      rw [hsplit] at hdrift
      cases hdrift
    | some key' =>
      rw [hsplit] at hdrift
      dsimp only at hdrift
      split_ifs at hdrift with hlive
      obtain ⟨rfl, rfl⟩ : owned.1 = app ∧ key' = key := by simpa using hdrift
      exact ⟨id, hids.mpr ⟨owned.2, howned, hid⟩, hkept, hsplit, Option.isSome_iff_ne_none.mp hlive⟩
  · rintro ⟨id, hid, hkept, hsplit, hlive⟩
    obtain ⟨ids, hmem, hin⟩ := hids.mp hid
    refine ⟨(app, ids), hmem, List.mem_filterMap.mpr ⟨id, hin, ?_⟩⟩
    rw [if_neg hkept, hsplit]
    dsimp only
    rw [if_pos (Option.isSome_iff_ne_none.mpr hlive)]

/-- An app is reported when something of it changed. -/
theorem mem_report {changed : Changed} : (app, changed) ∈ s.report ↔
    changed = (s.converged s.readState app).2.1 ∧ changed ≠ ⟨[], []⟩ := by
  have hnone : ∀ {changed : Changed},
      changed.set = [] ∧ changed.removed = [] ↔ changed = ⟨[], []⟩ := by
    intro changed
    cases changed
    simp
  unfold Store.report
  rw [List.mem_filterMap]
  constructor
  · rintro ⟨app', -, happ⟩
    dsimp only at happ
    split_ifs at happ with hempty
    obtain ⟨rfl, rfl⟩ : app' = app ∧ (s.converged s.readState app').2.1 = changed := by
      simpa using happ
    exact ⟨rfl, fun heq => hempty (hnone.mpr heq)⟩
  · rintro ⟨rfl, hchanged⟩
    have hin : app ∈ s.apps := by
      by_contra hout
      rw [Store.mem_apps, not_or] at hout
      have hids : s.readState.ids app = [] := Owned.ids_of_not_mem hout.1
      have hwanted : s.image.wanted app = [] := by
        rw [List.eq_nil_iff_forall_not_mem]
        exact fun entry hentry => hout.2 (Image.mem_baked_of_wanted hentry)
      apply hchanged
      rw [Store.converged, hwanted, hids]
      rfl
    refine ⟨app, hin, ?_⟩
    dsimp only
    rw [if_neg fun hempty => hchanged (hnone.mp hempty)]

theorem mem_reported {part : Changed → List Chars} (hpart : part ⟨[], []⟩ = []) :
    (∃ changed, (app, changed) ∈ s.report ∧ id ∈ part changed) ↔
      id ∈ part (s.converged s.readState app).2.1 := by
  constructor
  · rintro ⟨changed, hmem, hid⟩
    rwa [(mem_report.mp hmem).1] at hid
  · intro hid
    refine ⟨_, mem_report.mpr ⟨rfl, fun hnone => ?_⟩, hid⟩
    rw [hnone, hpart] at hid
    cases hid

/-- What the machine reads of an app is what its table declares, less the white space that a
value ends in. -/
theorem wanted_image : (d.image scope true).wanted app =
    (d.keys scope app).map fun entry => (entry.1, trimEnd entry.2) := by
  have hbaked : (d.image scope true).baked =
      (d.tables.filter (·.2.scope = scope)).map fun table =>
        (table.1, renderDeclared table.2) := rfl
  rw [Image.wanted, hbaked, List.find?_map]
  unfold Declared.keys
  change (((Option.map _ ((d.tables.filter (·.2.scope = scope)).find? (·.1 = app))).map
    Prod.snd).map parseDeclared).getD [] = _
  cases hfind : (d.tables.filter (·.2.scope = scope)).find? (·.1 = app) with
  | none => rfl
  | some table =>
    have hmem := List.mem_of_mem_filter (List.mem_of_find?_eq_some hfind)
    simp only [Option.map_some, Option.getD_some]
    exact parseDeclared_renderDeclared (d.valid table hmem)

/-- Every key of an app is declared, in its scope. -/
theorem keys_plain {entry : Key × Chars} (h : entry ∈ d.keys scope app) :
    entry.1.1 ≠ [] ∧ '\t' ∉ entry.1.1 := by
  obtain ⟨table, htable, -, -, hdeclared⟩ := Declared.mem_keys h
  have hall : ∀ group ∈ [CONTEXT, ENVIRONMENT, SESSION_BUS, SYSTEM_BUS],
      group ≠ [] ∧ '\t' ∉ group := by decide
  exact hall _ (declaredKeys_declarable (d.valid table htable) entry hdeclared).group

theorem nodup_keys (hmapped : ∀ table ∈ d.tables, table.2.Mapped) :
    ((d.keys scope app).map Prod.fst).Nodup := by
  unfold Declared.keys
  cases hfind : (d.tables.filter (·.2.scope = scope)).find? (·.1 = app) with
  | none => exact List.nodup_nil
  | some table =>
    exact (hmapped table (List.mem_of_mem_filter (List.mem_of_find?_eq_some hfind))).nodup

/-- A run whose writes and removals all succeed goes through. -/
theorem exec_smooth (s : Store) :
    ((convergeStore ⟨fun _ => .whole, fun _ => true, .whole⟩).exec s).2 = true := by
  have hturn : ∀ (app : String) (rest : List String) (s' : Store), True →
      (convergeApp ⟨fun _ => .whole, fun _ => true, .whole⟩ s.readState app).wp
        (fun _ => True) (fun _ => True) (fun _ => False) s' := by
    intro app _ s' _
    rw [convergeApp, Script.wp]
    dsimp only
    by_cases hempty : (s'.converged s.readState app).1 = []
    · rw [if_pos hempty]
      by_cases hthere : (s'.files app).isSome = true
      · rw [if_pos hthere, Script.wp]
        exact ⟨trivial, trivial⟩
      · rw [if_neg hthere, Script.wp]
        exact trivial
    · rw [if_neg hempty]
      by_cases hdiffers :
          (s'.converged s.readState app).1 ≠ ((s'.files app).bind Bytes.readToString).getD []
      · rw [if_pos hdiffers, Script.wp]
        exact ⟨trivial, trivial⟩
      · rw [if_neg hdiffers, Script.wp]
        exact trivial
  have hloop : (Script.each (convergeApp ⟨fun _ => .whole, fun _ => true, .whole⟩ s.readState)
      s.apps).wp (fun _ => True) (fun _ => True) (fun _ => False) s :=
    Script.wp_each (I := fun _ _ => True) hturn trivial
  apply Script.ok_of_wp (C := fun _ => True) (Q := fun _ => True)
  rw [convergeStore, Script.wp, Script.wp]
  refine Script.wp_mono (fun s' _ => ?_) (fun _ => id) hloop
  split_ifs
  · rw [writeState, Script.wp]
    exact ⟨trivial, trivial⟩
  · exact trivial

/-- What a run that went through left of an app's file. -/
theorem Through.text {s₀ : Store} (h : Store.Through s₀ s) (happ : app ∈ s₀.apps) :
    s.text app = (s₀.converged s₀.readState app).1 :=
  (h.turning.turned app happ List.not_mem_nil).1

theorem drift_eq_nil : d.drift m = [] ↔ ∀ scope, d.driftIn scope (m scope) = [] := by
  unfold Declared.drift
  rw [List.append_eq_nil_iff]
  constructor
  · rintro ⟨hsystem, huser⟩ scope
    cases scope with
    | system => exact hsystem
    | user => exact huser
  · exact fun h => ⟨h .system, h .user⟩

/-- No key is read with a value that ends in white space, after no run either. -/
theorem Predicts.trimmed (h : Predicts d m) (htable : table ∈ d.tables) :
    ∀ entry ∈ declaredKeys table.2, trimEnd entry.2 = entry.2 := by
  intro entry hentry
  have hnone := drift_eq_nil.mp (h.settled (fun _ => ⟨fun _ => .whole, fun _ => true, .whole⟩)
    fun scope => exec_smooth (m scope)) table.2.scope
  have hread : liveKeys (((convergeStore ⟨fun _ => .whole, fun _ => true, .whole⟩).final
      (m table.2.scope)).text table.1) entry.1 = some entry.2 := by
    by_contra hlive
    have hadd := mem_driftIn_add.mpr ⟨entry.2, (Declared.keys_eq htable).symm ▸ hentry, hlive⟩
    rw [hnone] at hadd
    cases hadd
  obtain ⟨-, -, hkept⟩ := writable_of_liveKeys hread
  obtain ⟨-, -, -, -, -, -, hvalue, -⟩ := hkept
  exact hvalue

section
variable (himage : ∀ scope, (m scope).image = d.image scope true)
  (hmapped : ∀ table ∈ d.tables, table.2.Mapped)
include himage

/-- The keys of a table are those that the machine reads where no value ends in white space. -/
theorem wanted_of_trimmed (htable : table ∈ d.tables)
    (htrimmed : ∀ entry ∈ declaredKeys table.2, trimEnd entry.2 = entry.2) :
    (m table.2.scope).image.wanted table.1 = declaredKeys table.2 := by
  rw [himage, wanted_image, Declared.keys_eq htable]
  have hsame : ∀ entry ∈ declaredKeys table.2,
      ((entry.1, trimEnd entry.2) : Key × Chars) = entry :=
    fun entry hentry => by rw [htrimmed entry hentry]
  rw [List.map_congr_left hsame, List.map_id']

theorem mem_apps_of_table (htable : table ∈ d.tables)  :
    table.1 ∈ (m table.2.scope).apps := by
  rw [Store.mem_apps, himage]
  refine .inr (List.mem_map.mpr ⟨(table.1, renderDeclared table.2), ?_, rfl⟩)
  have hin : table ∈ d.tables.filter (·.2.scope = table.2.scope) :=
    List.mem_filter.mpr ⟨htable, by simp⟩
  exact List.mem_map_of_mem hin

include hmapped

/-- After a run a declared key is what the observer looks for exactly when its value does not
end in white space and it settles. -/
theorem live_final {r : Attempt} (htable : table ∈ d.tables)
    (htrimmed : ∀ entry ∈ declaredKeys table.2, trimEnd entry.2 = entry.2)
    (hok : ((convergeStore r).exec (m table.2.scope)).2 = true) {entry : Key × Chars}
    (hentry : entry ∈ declaredKeys table.2) :
    liveKeys (((convergeStore r).final (m table.2.scope)).text table.1) entry.1 = some entry.2 ↔
      Settles ((m table.2.scope).text table.1) (declaredKeys table.2)
        ((m table.2.scope).readState.ids table.1) entry := by
  have hthrough : Store.Through (m table.2.scope) ((convergeStore r).final (m table.2.scope)) :=
    (Script.wp_sound Store.wp_convergeStore_through).2.1 hok
  have hwanted := wanted_of_trimmed himage htable htrimmed
  have hwritable : ∀ e ∈ declaredKeys table.2, Writable e := by
    rw [← hwanted]
    exact Image.wanted_writable
  rw [Through.text hthrough (mem_apps_of_table himage htable), Store.converged, hwanted]
  exact liveKeys_converge_eq_iff (hmapped table htable).nodup hwritable hentry

theorem Predicts.settles (h : Predicts d m) (htable : table ∈ d.tables) {entry : Key × Chars}
    (hentry : entry ∈ declaredKeys table.2) :
    Settles ((m table.2.scope).text table.1) (declaredKeys table.2)
      ((m table.2.scope).readState.ids table.1) entry := by
  have hok := exec_smooth (m table.2.scope)
  rw [← live_final himage hmapped htable (h.trimmed htable) hok hentry]
  have hnone := drift_eq_nil.mp (h.settled (fun _ => ⟨fun _ => .whole, fun _ => true, .whole⟩)
    fun scope => exec_smooth (m scope)) table.2.scope
  by_contra hlive
  have hadd := mem_driftIn_add.mpr ⟨entry.2, (Declared.keys_eq htable).symm ▸ hentry, hlive⟩
  rw [hnone] at hadd
  cases hadd

omit hmapped in
theorem wanted_eq_keys (htrimmed : ∀ table ∈ d.tables, ∀ entry ∈ declaredKeys table.2,
    trimEnd entry.2 = entry.2) (scope : Scope) (app : String) :
    (m scope).image.wanted app = d.keys scope app := by
  rw [himage, wanted_image]
  have hsame : ∀ entry ∈ d.keys scope app,
      ((entry.1, trimEnd entry.2) : Key × Chars) = entry := by
    intro entry hentry
    obtain ⟨table, htable, -, -, hdeclared⟩ := Declared.mem_keys hentry
    rw [htrimmed table htable entry hdeclared]
  rw [List.map_congr_left hsame, List.map_id']

/-- What is reported as added and what the converger would set, key by key. -/
theorem adds_iff (htrimmed : ∀ table ∈ d.tables, ∀ entry ∈ declaredKeys table.2,
    trimEnd entry.2 = entry.2) (scope : Scope) (app : String) :
    (∀ id, (∃ key, ownedId key = id ∧ ⟨app, key, .add⟩ ∈ d.driftIn scope (m scope)) ↔
      ∃ changed, (app, changed) ∈ (m scope).report ∧ id ∈ changed.set) ↔
    ∀ entry ∈ d.keys scope app,
      ((own entry.1 (parse ((m scope).text app))).head? = some entry.2 ↔
        liveKeys ((m scope).text app) entry.1 = some entry.2) := by
  have hnodup : ((d.keys scope app).map Prod.fst).Nodup := nodup_keys hmapped
  have hset : ((m scope).converged (m scope).readState app).2.1.set =
      ((d.keys scope app).filter fun entry =>
        (own entry.1 (parse ((m scope).text app))).head? ≠ some entry.2).map
          fun entry => ownedId entry.1 := by
    rw [Store.converged, wanted_eq_keys himage htrimmed]
    exact converge_set hnodup
  have hleft : ∀ id, (∃ key, ownedId key = id ∧
      ⟨app, key, .add⟩ ∈ d.driftIn scope (m scope)) ↔
        ∃ entry ∈ d.keys scope app, ownedId entry.1 = id ∧
          liveKeys ((m scope).text app) entry.1 ≠ some entry.2 := by
    intro id
    constructor
    · rintro ⟨key, rfl, hadd⟩
      obtain ⟨value, hmem, hlive⟩ := mem_driftIn_add.mp hadd
      exact ⟨(key, value), hmem, rfl, hlive⟩
    · rintro ⟨entry, hmem, rfl, hlive⟩
      exact ⟨entry.1, rfl, mem_driftIn_add.mpr ⟨entry.2, hmem, hlive⟩⟩
  have hright : ∀ id, (∃ changed, (app, changed) ∈ (m scope).report ∧ id ∈ changed.set) ↔
      ∃ entry ∈ d.keys scope app, ownedId entry.1 = id ∧
        (own entry.1 (parse ((m scope).text app))).head? ≠ some entry.2 := by
    intro id
    have hreported : (∃ changed, (app, changed) ∈ (m scope).report ∧ id ∈ changed.set) ↔
        id ∈ ((m scope).converged (m scope).readState app).2.1.set := mem_reported rfl
    rw [hreported, hset]
    simp only [List.mem_map, List.mem_filter, decide_eq_true_eq]
    constructor
    · rintro ⟨entry, ⟨hmem, hown⟩, hid⟩
      exact ⟨entry, hmem, hid, hown⟩
    · rintro ⟨entry, hmem, hid, hown⟩
      exact ⟨entry, ⟨hmem, hown⟩, hid⟩
  -- an id names one entry
  have hone : ∀ entry ∈ d.keys scope app, ∀ other ∈ d.keys scope app,
      ownedId other.1 = ownedId entry.1 → other = entry := by
    intro entry hentry other hother hid
    have hkey := Store.ownedId_inj (keys_plain hother).2 (keys_plain hentry).2 hid
    exact List.inj_on_of_nodup_map hnodup hother hentry hkey
  constructor
  · intro h entry hentry
    have hid := h (ownedId entry.1)
    rw [hleft, hright] at hid
    rw [← not_iff_not]
    constructor
    · intro hown
      obtain ⟨other, hother, hsame, hlive⟩ := hid.mpr ⟨entry, hentry, rfl, hown⟩
      rwa [hone entry hentry other hother hsame] at hlive
    · intro hlive
      obtain ⟨other, hother, hsame, hown⟩ := hid.mp ⟨entry, hentry, rfl, hlive⟩
      rwa [hone entry hentry other hother hsame] at hown
  · intro h id
    rw [hleft, hright]
    refine exists_congr fun entry => and_congr_right fun hentry => and_congr_right fun _ => ?_
    exact not_congr (h entry hentry).symm

omit hmapped in
/-- What is reported as removed and what the converger would remove, key by key. -/
theorem removes_iff (htrimmed : ∀ table ∈ d.tables, ∀ entry ∈ declaredKeys table.2,
    trimEnd entry.2 = entry.2) (scope : Scope) (app : String) :
    (∀ id, (∃ key, ownedId key = id ∧ ⟨app, key, .remove⟩ ∈ d.driftIn scope (m scope)) ↔
      ∃ changed, (app, changed) ∈ (m scope).report ∧ id ∈ changed.removed) ↔
    ∀ id ∈ (m scope).readState.ids app, ∀ key : Key, splitOnce '\t' id = some key →
      key.1 = [] → values key (entries (parse ((m scope).text app))) = [] := by
  have hleft : ∀ id, (∃ key, ownedId key = id ∧
      ⟨app, key, .remove⟩ ∈ d.driftIn scope (m scope)) ↔
        id ∈ (m scope).readState.ids app ∧ id ∉ ownedIds (d.keys scope app) ∧
          ∃ key, splitOnce '\t' id = some key ∧ liveKeys ((m scope).text app) key ≠ none := by
    intro id
    constructor
    · rintro ⟨key, rfl, hremove⟩
      obtain ⟨id, hid, hkept, hsplit, hlive⟩ := mem_driftIn_remove.mp hremove
      obtain rfl := ownedId_of_splitOnce hsplit
      exact ⟨hid, hkept, key, hsplit, hlive⟩
    · rintro ⟨hid, hkept, key, hsplit, hlive⟩
      exact ⟨key, (ownedId_of_splitOnce hsplit).symm,
        mem_driftIn_remove.mpr ⟨id, hid, hkept, hsplit, hlive⟩⟩
  have hright : ∀ id, (∃ changed, (app, changed) ∈ (m scope).report ∧ id ∈ changed.removed) ↔
      id ∈ (m scope).readState.ids app ∧ id ∉ ownedIds (d.keys scope app) ∧
        ∃ key, splitOnce '\t' id = some key ∧
          values key (entries (parse ((m scope).text app))) ≠ [] := by
    intro id
    have hreported : (∃ changed, (app, changed) ∈ (m scope).report ∧ id ∈ changed.removed) ↔
        id ∈ ((m scope).converged (m scope).readState app).2.1.removed := mem_reported rfl
    rw [hreported, Store.converged, wanted_eq_keys himage htrimmed]
    exact mem_converge_removed
  constructor
  · intro h id hid key hsplit hname
    by_contra hvalues
    have hkept : id ∉ ownedIds (d.keys scope app) := by
      intro hin
      obtain ⟨entry, hentry, hsame⟩ := List.mem_map.mp hin
      rw [ownedId_of_splitOnce hsplit] at hsame
      have htab : '\t' ∉ key.1 := hname ▸ List.not_mem_nil
      have hkey := Store.ownedId_inj (keys_plain hentry).2 htab hsame
      exact (keys_plain hentry).1 (hkey ▸ hname)
    obtain ⟨-, -, key', hsplit', hlive⟩ := (hleft id).mp ((h id).mpr ((hright id).mpr
      ⟨hid, hkept, key, hsplit, hvalues⟩))
    obtain rfl : key = key' := Option.some.inj (hsplit.symm.trans hsplit')
    exact hlive (liveKeys_of_nameless hname)
  · intro h id
    rw [hleft, hright]
    refine and_congr_right fun hid => and_congr_right fun _ => exists_congr fun key => ?_
    refine and_congr_right fun hsplit => ?_
    by_cases hname : key.1 = []
    · have hnone := h id hid key hsplit hname
      simp [hnone, liveKeys_of_nameless hname]
    · exact (values_ne_nil_iff hname).symm

/-- Nothing is left to report after a run in which every declared key settles. -/
theorem driftIn_final (h : LooksAlike d m)
    (htrimmed : ∀ table ∈ d.tables, ∀ entry ∈ declaredKeys table.2, trimEnd entry.2 = entry.2)
    {r : Attempt} (hok : ((convergeStore r).exec (m scope)).2 = true) :
    d.driftIn scope ((convergeStore r).final (m scope)) = [] := by
  have hthrough : Store.Through (m scope) ((convergeStore r).final (m scope)) :=
    (Script.wp_sound Store.wp_convergeStore_through).2.1 hok
  rw [List.eq_nil_iff_forall_not_mem]
  rintro ⟨app, key, change⟩ hdrift
  cases change with
  | add =>
    obtain ⟨value, hkey, hlive⟩ := mem_driftIn_add.mp hdrift
    obtain ⟨table, htable, rfl, rfl, hdeclared⟩ := Declared.mem_keys hkey
    apply hlive
    exact (live_final himage hmapped htable (htrimmed table htable) hok hdeclared).mpr
      (h.settles table htable _ hdeclared)
  | remove =>
    obtain ⟨id, hid, hkept, -, -⟩ := mem_driftIn_remove.mp hdrift
    rw [hthrough.state, Store.ids_owned, wanted_eq_keys himage htrimmed] at hid
    exact hkept hid

theorem Predicts.looksAlike (h : Predicts d m) : LooksAlike d m := by
  have htrimmed : ∀ table ∈ d.tables, ∀ entry ∈ declaredKeys table.2,
      trimEnd entry.2 = entry.2 := fun table htable => h.trimmed htable
  constructor
  case trimmed => exact fun table htable => trimmed_iff.mp (htrimmed table htable)
  case settles =>
    intro table htable entry hentry
    exact h.settles himage hmapped htable hentry
  case same =>
    intro table htable entry hentry
    have hadds := (adds_iff himage hmapped htrimmed table.2.scope table.1).mp
      (h.adds table.2.scope table.1)
    exact hadds entry ((Declared.keys_eq htable).symm ▸ hentry)
  case nameless =>
    intro scope app
    exact (removes_iff himage htrimmed scope app).mp (h.removes scope app)

theorem LooksAlike.predicts (h : LooksAlike d m) : Predicts d m := by
  have htrimmed : ∀ table ∈ d.tables, ∀ entry ∈ declaredKeys table.2,
      trimEnd entry.2 = entry.2 := fun table htable => trimmed_iff.mpr (h.trimmed table htable)
  constructor
  case adds =>
    intro scope app
    apply (adds_iff himage hmapped htrimmed scope app).mpr
    intro entry hentry
    obtain ⟨table, htable, rfl, rfl, hdeclared⟩ := Declared.mem_keys hentry
    exact h.same table htable entry hdeclared
  case removes =>
    intro scope app
    exact (removes_iff himage htrimmed scope app).mpr (h.nameless scope app)
  case settled =>
    intro r hok
    rw [drift_eq_nil]
    exact fun scope => driftIn_final himage hmapped h htrimmed (hok scope)

end
end

/-- The observer predicts the converger exactly where the two look at the same pairs. -/
theorem drift_predicts_iff (d : Declared) (m : Machine)
    (himage : ∀ scope, (m scope).image = d.image scope true)
    (hmapped : ∀ table ∈ d.tables, table.2.Mapped) : Predicts d m ↔ LooksAlike d m :=
  ⟨fun h => h.looksAlike himage hmapped, fun h => h.predicts himage hmapped⟩

/-- A declaration of one device, and a machine with one file. -/
private def declaresDevice : Declared where
  tables := [("org.example.App", ⟨.system, [], [], ["dri"], [], [], [], [], [], []⟩)]
  nodup := by decide
  valid := by decide +kernel

private def holding (text : String) : Machine := fun scope =>
  ⟨declaresDevice.image scope true,
    fun app => if app = "org.example.App" then some (Bytes.ofText text.toList) else none,
    none, [], fun _ _ => none, false⟩

private theorem mapped_device : ∀ table ∈ declaresDevice.tables, table.2.Mapped := by
  intro table htable
  rw [List.mem_singleton.mp htable]
  exact ⟨List.nodup_nil, List.nodup_nil, List.nodup_nil⟩

theorem drift_predicts_device :
    Predicts declaresDevice (holding "[Context]\nsockets=x11;\n") := by
  refine (drift_predicts_iff _ _ (fun _ => rfl) mapped_device).mpr ?_
  constructor
  case trimmed => decide +kernel
  case settles =>
    intro table htable entry hentry
    rw [List.mem_singleton.mp htable] at hentry ⊢
    have hlast : ((own entry.1 (parse "[Context]\nsockets=x11;\n".toList)).tail ++
        values entry.1 (strays "[Context]\nsockets=x11;\n".toList (wantsDevices "dri;")
          [])).getLast? = none := by
      have hkey : entry ∈ wantsDevices "dri;" := hentry
      rw [List.mem_singleton.mp hkey]
      decide +kernel
    intro value hvalue
    have htext : (holding "[Context]\nsockets=x11;\n" .system).text "org.example.App" =
        "[Context]\nsockets=x11;\n".toList := by decide +kernel
    change value ∈ ((own entry.1 (parse ((holding "[Context]\nsockets=x11;\n" .system).text
      "org.example.App"))).tail ++ values entry.1 (strays ((holding "[Context]\nsockets=x11;\n"
        .system).text "org.example.App") (wantsDevices "dri;") [])).getLast? at hvalue
    rw [htext, hlast] at hvalue
    cases hvalue
  case same => decide +kernel
  case nameless =>
    intro scope app id hid
    cases hid

/-- A device that the file names twice is set at its first line, and the observer reads its
last. -/
theorem drift_misses_repeated :
    (∀ scope, (holding "[Context]\ndevices=all;\ndevices=dri;\n" scope).image =
      declaresDevice.image scope true) ∧
    (∀ table ∈ declaresDevice.tables, table.2.Mapped) ∧
    ¬ Predicts declaresDevice (holding "[Context]\ndevices=all;\ndevices=dri;\n") := by
  refine ⟨fun _ => rfl, mapped_device, fun h => ?_⟩
  have hreport : ("org.example.App", ⟨["Context\tdevices".toList], []⟩) ∈
      (holding "[Context]\ndevices=all;\ndevices=dri;\n" .system).report := by decide +kernel
  have hnone : declaresDevice.driftIn .system
      (holding "[Context]\ndevices=all;\ndevices=dri;\n" .system) = [] := by decide +kernel
  obtain ⟨key, -, hadd⟩ := (h.adds .system "org.example.App" "Context\tdevices".toList).mpr
    ⟨_, hreport, List.mem_singleton_self _⟩
  rw [hnone] at hadd
  cases hadd

end Kuma.Overrides
