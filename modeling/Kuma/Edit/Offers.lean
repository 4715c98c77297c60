import Kuma.Edit.Declaring

/-! Whether the declaration can hold what `kuma capture` offers: the offers of a machine, all
written into a valid declaration. -/
namespace Kuma.Edit
open Kuma.Lib Kuma.Inspect Kuma.Overrides Kuma.Sync

section
variable {overrides : List (String × AppOverride)} {app : String} {table : AppOverride}

theorem tableOf_eq_some (h : (overrides.map Prod.fst).Nodup) :
    tableOf overrides app = some table ↔ (app, table) ∈ overrides := by
  unfold tableOf
  induction overrides with
  | nil => simp
  | cons entry overrides ih =>
    rw [List.map_cons, List.nodup_cons] at h
    obtain ⟨name, entry⟩ := entry
    by_cases hname : name = app
    · obtain rfl := hname
      have hnot : (name, table) ∉ overrides := by
        intro hmem
        exact h.1 (List.mem_map.mpr ⟨(name, table), hmem, rfl⟩)
      simp [hnot, eq_comm]
    · rw [List.find?_cons_of_neg (by simpa using hname), ih h.2, List.mem_cons]
      simp [Ne.symm hname]

/-- The table of an app, as the document has it. -/
theorem tableOf_readMap {node : Node} {entries : Entries} (hentries : node.entries? = some entries)
    (hnodup : entries.keys.Nodup) (h : readMap readApp (some node) = some overrides) :
    tableOf overrides app = (entries.get app.toList).bind readApp := by
  have hkeys : (overrides.map Prod.fst).Nodup := by
    rw [(keys_readMap hentries h).nodup_iff]
    exact hnodup.map fun a b heq => by simpa using congrArg String.toList heq
  apply Option.ext
  intro table
  rw [tableOf_eq_some hkeys, mem_readMap hentries h, Option.bind_eq_some_iff]
  simp only [Entries.mem_toList hnodup]

end

/-- What every offer is: keys that the declaration has a place for and does not name, each once,
in the store that the declaration gives the app. -/
structure Proposed (declared : List (String × AppOverride)) (p : Proposal) : Prop where
  scope : ∀ table, tableOf declared p.app = some table → table.scope = p.scope
  representable : ∀ entry ∈ p.keys, representable entry.1 = true
  nonempty : p.keys ≠ []
  nodup : (p.keys.map Prod.fst).Nodup
  fresh : ∀ table, tableOf declared p.app = some table → ∀ entry ∈ p.keys, ∀ value,
    (entry.1, value) ∉ declaredKeys table

section
variable {declared : List (String × AppOverride)} {m : Machine} {app : String} {scope : Scope}
  {p : Proposal} {installed : List String}

theorem nodup_liveEntries (text : Chars) : ((liveEntries text).map Prod.fst).Nodup := by
  unfold liveEntries
  rw [((List.perm_insertionSort _ _).map Prod.fst).nodup_iff, List.map_filterMap]
  apply List.Nodup.filterMap _ (List.nodup_dedup _)
  intro key key' k hk hk'
  simp only [Option.mem_def, Option.map_map, Option.map_eq_some_iff, Function.comp_apply] at hk hk'
  obtain ⟨_, -, rfl⟩ := hk
  obtain ⟨_, -, heq⟩ := hk'
  exact heq.symm

theorem proposalIn_spec (h : proposalIn declared m app scope = some p) :
    p.app = app ∧ Proposed declared p := by
  unfold proposalIn at h
  dsimp only at h
  split_ifs at h with hscope hkeys
  obtain rfl := Option.some.inj h
  refine ⟨rfl, fun table htable => ?_, fun entry hentry => ?_, hkeys, ?_, ?_⟩
  · by_contra hne
    apply hscope
    rw [Option.any_eq_true]
    exact ⟨table, htable, by simpa using hne⟩
  · have hentry := (List.mem_filter.mp hentry).2
    simp only [Bool.and_eq_true] at hentry
    exact hentry.1.1
  · exact (nodup_liveEntries _).sublist (List.filter_sublist.map Prod.fst)
  · intro table htable entry hentry value hvalue
    have hentry := (List.mem_filter.mp hentry).2
    simp only [Bool.and_eq_true, Bool.not_eq_true'] at hentry
    have hdeclared : ownedId entry.1 ∈ ((tableOf declared app).map fun table =>
        (declaredKeys table).map fun entry => ownedId entry.1).getD [] := by
      rw [htable]
      exact List.mem_map.mpr ⟨(entry.1, value), hvalue, rfl⟩
    rw [← List.contains_iff_mem, hentry.2] at hdeclared
    cases hdeclared

/-- The offer of one app, if there is just one. -/
def offer (declared : List (String × AppOverride)) (m : Machine) (app : String) :
    Option Proposal :=
  match [Scope.system, Scope.user].filterMap (proposalIn declared m app) with
  | [proposal] => some proposal
  | _ => none

theorem offer_spec (h : offer declared m app = some p) : p.app = app ∧ Proposed declared p := by
  unfold offer at h
  split at h
  · next q hfound =>
    obtain rfl := Option.some.inj h
    have hmem : q ∈ [Scope.system, Scope.user].filterMap (proposalIn declared m app) := by
      rw [hfound]
      exact List.mem_singleton_self q
    obtain ⟨scope, -, hproposal⟩ := List.mem_filterMap.mp hmem
    exact proposalIn_spec hproposal
  · cases h

theorem capturable_eq : (capturable installed declared m).1 =
    (installed.dedup.insertionSort (· ≤ ·)).filterMap (offer declared m) := by
  unfold capturable
  dsimp only
  rw [List.filterMap_map]
  rfl

/-- At most one offer an app, and only of the apps that are installed. -/
theorem capturable_spec : (∀ p ∈ (capturable installed declared m).1,
      p.app ∈ installed ∧ Proposed declared p) ∧
    ((capturable installed declared m).1.map Proposal.app).Nodup := by
  rw [capturable_eq]
  constructor
  · intro p hp
    obtain ⟨app, happ, hoffer⟩ := List.mem_filterMap.mp hp
    obtain ⟨rfl, hproposed⟩ := offer_spec hoffer
    rw [(List.perm_insertionSort _ _).mem_iff, List.mem_dedup] at happ
    exact ⟨happ, hproposed⟩
  · rw [List.map_filterMap]
    have hsorted : (installed.dedup.insertionSort (· ≤ ·)).Nodup :=
      (List.perm_insertionSort _ _).nodup_iff.mpr (List.nodup_dedup _)
    apply List.Nodup.filterMap _ hsorted
    intro app app' name hname hname'
    obtain ⟨p, hp, rfl⟩ := Option.map_eq_some_iff.mp hname
    obtain ⟨q, hq, heq⟩ := Option.map_eq_some_iff.mp hname'
    rw [← (offer_spec hp).1, ← (offer_spec hq).1, heq]

end

/-- What the declaration takes: every table that a proposal goes into is absent or written as a
table, and every value is one that the schema has. -/
structure Takes (doc : Entries) (ps : List Proposal) : Prop where
  overrides : standing (doc.get OVERRIDES) = true
  apps : ∀ p ∈ ps, standing (below (doc.get OVERRIDES) p.app.toList) = true
  sections : ∀ p ∈ ps, ∀ entry ∈ p.keys, entry.1.1 ≠ CONTEXT → standing (below
    (below (doc.get OVERRIDES) p.app.toList) (sectionOf entry.1.1)) = true
  spelled : ∀ p ∈ ps, ∀ entry ∈ p.keys, spelled entry = true

/-- A declaration has taken the proposals, and is what it was beside them. -/
structure Captured (config : Config) (ps : List Proposal) (config' : Config) : Prop where
  valid : config'.validate = .ok ()
  declared : ∀ p ∈ ps, ∃ new, tableOf config'.overrides p.app = some new ∧ new.scope = p.scope ∧
    ∀ entry, entry ∈ declaredKeys new ↔ entry ∈ p.keys ∨
      ∃ old, tableOf config.overrides p.app = some old ∧ entry ∈ declaredKeys old
  others : ∀ app ∉ ps.map Proposal.app,
    tableOf config'.overrides app = tableOf config.overrides app
  rest : { config' with overrides := config.overrides } = config

/-- The proposals can all be written: the file is replaced by one that declares them. -/
def Captures (t : Toml) (text : Chars) (config : Config) (ps : List Proposal) : Prop :=
  ∃ after config', rewriteFile t (declareOverrides ps) (some (Bytes.ofText text)) true =
      (some (Bytes.ofText after), .ok ()) ∧
    (t.parse after).bind t.read = some config' ∧ Captured config ps config'

section
variable {t : Toml} {text : Chars} {doc edited : Entries} {config config' : Config}
  {ps : List Proposal}

theorem read_eq_some : t.read doc = some config ↔ ∃ rest overrides,
    t.rest (doc.without OVERRIDES) = some rest ∧ readOverrides (doc.get OVERRIDES) = some overrides ∧
      { rest with overrides := overrides } = config := by
  unfold Toml.read
  simp only [Option.bind_eq_bind, Option.bind_eq_some_iff, Option.some.injEq, exists_and_left]

theorem declareOverrides_eq_ok : declareOverrides ps doc = .ok edited ↔ ∃ table table' : Entries,
    (doc.get OVERRIDES).getD (.table .nil) = .table table ∧
      ps.foldlM declareApp table = .ok table' ∧ doc.insert OVERRIDES (.table table') = edited := by
  unfold declareOverrides
  simp only [bind_eq_ok, asTable_eq_ok, Except.ok.injEq, exists_and_left]

/-- Other overrides, each of them valid, leave a valid declaration valid. -/
theorem validate_overrides {overrides : List (String × AppOverride)}
    (h : config.validate = .ok ())
    (hvalid : ∀ table ∈ overrides, validateOverride table.1 table.2 = .ok ()) :
    ({ config with overrides := overrides } : Config).validate = .ok () := by
  have hloop : (overrides.forM fun table =>
      (validateOverride table.1 table.2).mapError Config.Fault.override) = .ok () :=
    forM_eq_ok.mpr fun table htable => mapError_eq_ok.mpr (hvalid table htable)
  unfold Config.validate Config.validateRest at h ⊢
  simp only [seq_eq_ok] at h ⊢
  obtain ⟨hschema, hsystem, huser, hpackages, hservices, hcertificates, -, hrest⟩ := h
  exact ⟨hschema, hsystem, huser, hpackages, hservices, hcertificates, hloop, hrest⟩

variable {table table' : Entries} {overrides : List (String × AppOverride)} {p : Proposal}

/-- A table of overrides and what it is read as. -/
structure Reads (table : Entries) (overrides : List (String × AppOverride)) : Prop where
  read : readOverrides (some (.table table)) = some overrides
  nodup : table.keys.Nodup

namespace Reads

theorem keys_nodup (h : Reads table overrides) : (overrides.map Prod.fst).Nodup := by
  rw [(keys_readMap rfl h.read).nodup_iff]
  exact h.nodup.map fun a b heq => by simpa using congrArg String.toList heq

theorem tableOf_eq (h : Reads table overrides) (app : String) :
    tableOf overrides app = (table.get app.toList).bind readApp :=
  tableOf_readMap rfl h.nodup h.read

theorem of_document (hread : t.read doc = some config)
    (hnodup : (config.overrides.map Prod.fst).Nodup)
    (htable : (doc.get OVERRIDES).getD (.table .nil) = .table table) :
    Reads table config.overrides := by
  obtain ⟨rest, overrides, -, hoverrides, rfl⟩ := read_eq_some.mp hread
  have htable' : readOverrides (some (.table table)) = some overrides := by
    rw [← htable]
    exact (readMap_getD readApp _).symm.trans hoverrides
  refine ⟨htable', ?_⟩
  rw [(keys_readMap rfl htable').nodup_iff] at hnodup
  exact hnodup.of_map

/-- What a proposal finds, where the machine's values are spelled as the schema has them. -/
theorem finds (h : Reads table overrides) (hproposed : Proposed overrides p)
    (hspelled : ∀ entry ∈ p.keys, spelled entry = true) :
    Finds table p ((tableOf overrides p.app).getD .default) := by
  refine ⟨fun app happ => ?_, fun hscope => ?_, fun entry hentry => ?_, hproposed.nodup⟩
  · cases hget : table.get p.app.toList with
    | none =>
      rw [hget] at happ
      obtain rfl := Node.table.inj happ
      rw [h.tableOf_eq, hget]
      exact Fields.nil
    | some node =>
      rw [hget] at happ
      obtain rfl : node = .table app := happ
      have hall := exists_readMap_table.mp ⟨overrides, h.read⟩
      obtain ⟨old, hold⟩ := hall _ (Entries.mem_of_get hget)
      have htable : tableOf overrides p.app = some old := by
        rw [h.tableOf_eq, hget]
        exact hold
      rw [htable]
      exact readFields_iff.mp hold
  · cases htable : tableOf overrides p.app with
    | none => rfl
    | some old => exact (hproposed.scope old htable).trans hscope
  · refine ⟨hproposed.representable entry hentry, hspelled entry hentry, fun value hvalue => ?_⟩
    cases htable : tableOf overrides p.app with
    | none =>
      rw [htable] at hvalue
      cases hvalue
    | some old =>
      rw [htable] at hvalue
      exact hproposed.fresh old htable entry hentry value hvalue

/-- The table that the proposals are left in is read again. -/
theorem declareApps (h : Reads table overrides) (hproposed : ∀ p ∈ ps, Proposed overrides p)
    (hnodup : (ps.map Proposal.app).Nodup)
    (hspelled : ∀ p ∈ ps, ∀ entry ∈ p.keys, spelled entry = true)
    (hdeclare : ps.foldlM declareApp table = .ok table') : ∃ overrides',
      Reads table' overrides' ∧
      (∀ p ∈ ps, ∃ new, tableOf overrides' p.app = some new ∧
        Grown p.keys { (tableOf overrides p.app).getD .default with scope := p.scope } new) ∧
      ∀ app ∉ ps.map Proposal.app, tableOf overrides' app = tableOf overrides app := by
  have hfinds : ∀ p ∈ ps, Finds table p ((tableOf overrides p.app).getD .default) :=
    fun p hp => h.finds (hproposed p hp) (hspelled p hp)
  have hspec := @declareApps_spec table table' ps (fun app => (tableOf overrides app).getD .default)
  obtain ⟨hleaves, hothers⟩ := hspec hfinds hnodup hdeclare
  have hkeys' := nodup_declareApps hdeclare h.nodup
  have hread : ∀ entry ∈ table'.toList, ∃ value, readApp entry.2 = some value := by
    rintro ⟨key, node⟩ hentry
    rw [Entries.mem_toList hkeys'] at hentry
    by_cases hkey : key ∈ ps.map fun p => p.app.toList
    · obtain ⟨p, hp, rfl⟩ := List.mem_map.mp hkey
      obtain ⟨node', new, hget, hnew, -⟩ := hleaves p hp
      obtain rfl := Option.some.inj (hentry.symm.trans hget)
      exact ⟨new, hnew⟩
    · rw [hothers key hkey] at hentry
      have hall := exists_readMap_table.mp ⟨overrides, h.read⟩
      exact hall _ (Entries.mem_of_get hentry)
  obtain ⟨overrides', hoverrides⟩ := exists_readMap_table.mpr hread
  have hreads : Reads table' overrides' := ⟨hoverrides, hkeys'⟩
  refine ⟨overrides', hreads, fun p hp => ?_, fun app happ => ?_⟩
  · obtain ⟨node, new, hget, hnew, hgrown⟩ := hleaves p hp
    refine ⟨new, ?_, hgrown⟩
    rw [hreads.tableOf_eq, hget]
    exact hnew
  · have happ' : app.toList ∉ ps.map fun p => p.app.toList := by
      intro hmem
      obtain ⟨p, hp, heq⟩ := List.mem_map.mp hmem
      exact happ (List.mem_map.mpr ⟨p, hp, String.toList_inj.mp heq⟩)
    rw [hreads.tableOf_eq, hothers _ happ', h.tableOf_eq]

end Reads

/-- What the proposals make of a valid declaration is one, and has taken them. -/
theorem captured_of_tables {overrides' : List (String × AppOverride)}
    (hvalid : config.validate = .ok ()) (hnodup : (config.overrides.map Prod.fst).Nodup)
    (hnodup' : (overrides'.map Prod.fst).Nodup)
    (hinstalled : ∀ p ∈ ps, p.app ∈ config.packages.flatpak) (hkeys : ∀ p ∈ ps, p.keys ≠ [])
    (hps : ∀ p ∈ ps, ∃ new, tableOf overrides' p.app = some new ∧
      Grown p.keys { (tableOf config.overrides p.app).getD .default with scope := p.scope } new)
    (hothers : ∀ app ∉ ps.map Proposal.app, tableOf overrides' app = tableOf config.overrides app) :
    Captured config ps { config with overrides := overrides' } := by
  have hvalidated := Config.validated hvalid
  refine ⟨validate_overrides hvalid ?_, fun p hp => ?_, hothers, rfl⟩
  · rintro ⟨app, new⟩ hnew
    rw [← tableOf_eq_some hnodup'] at hnew
    by_cases happ : app ∈ ps.map Proposal.app
    · obtain ⟨p, hp, rfl⟩ := List.mem_map.mp happ
      obtain ⟨new', hnew', hgrown⟩ := hps p hp
      obtain rfl := Option.some.inj (hnew.symm.trans hnew')
      have hname : nameable APP_CHARS p.app.toList = true := by
        obtain ⟨-, hflatpak, -⟩ := (seq_eq_ok.mp hvalidated.packages).imp id seq_eq_ok.mp
        exact validateName_eq_ok.mp
          (mapError_eq_ok.mp (forM_eq_ok.mp hflatpak p.app (hinstalled p hp)))
      have hchecked : Checked ((tableOf config.overrides p.app).getD .default) := by
        cases hold : tableOf config.overrides p.app with
        | none => exact ⟨by decide, List.forall_mem_nil _, List.forall_mem_nil _⟩
        | some old =>
          rw [tableOf_eq_some hnodup] at hold
          exact (validateOverride_eq_ok.mp (hvalidated.overrides _ hold)).2.2
      have hscoped : Checked
          { (tableOf config.overrides p.app).getD .default with scope := p.scope } :=
        ⟨hchecked.lists, hchecked.environment, hchecked.buses⟩
      obtain ⟨entry, hentry⟩ := List.exists_mem_of_ne_nil _ (hkeys p hp)
      have hdeclared : declaredKeys new ≠ [] :=
        List.ne_nil_of_mem ((hgrown.keys entry).mpr (.inl hentry))
      exact validateOverride_eq_ok.mpr ⟨hname, hdeclared, hgrown.checked hscoped⟩
    · rw [hothers app happ, tableOf_eq_some hnodup] at hnew
      exact hvalidated.overrides _ hnew
  · obtain ⟨new, hnew, hgrown⟩ := hps p hp
    refine ⟨new, hnew, hgrown.scope, fun entry => ?_⟩
    have hscope : ∀ old : AppOverride,
        declaredKeys { old with scope := p.scope } = declaredKeys old := fun _ => rfl
    rw [hgrown.keys, hscope]
    refine or_congr_right ?_
    cases htable : tableOf config.overrides p.app with
    | none =>
      have hnone : entry ∉ declaredKeys AppOverride.default := List.not_mem_nil
      simpa using hnone
    | some old => simp only [Option.getD_some, Option.some.injEq, exists_eq_left']

theorem takes_iff_ready (htable : (doc.get OVERRIDES).getD (.table .nil) = .table table) :
    Takes doc ps ↔ (∀ p ∈ ps, Ready table p) ∧
      ∀ p ∈ ps, ∀ entry ∈ p.keys, spelled entry = true := by
  have hbelow : ∀ key, below (doc.get OVERRIDES) key = table.get key := fun _ => below_eq htable
  constructor
  · intro h
    refine ⟨fun p hp => ⟨?_, fun entry hentry hgroup => ?_⟩, h.spelled⟩
    · rw [← hbelow]
      exact h.apps p hp
    · rw [← hbelow]
      exact h.sections p hp entry hentry hgroup
  · rintro ⟨hready, hspelled⟩
    refine ⟨standing_iff.mpr ⟨table, htable⟩,
      fun p hp => ?_, fun p hp entry hentry hgroup => ?_, hspelled⟩
    · rw [hbelow]
      exact (hready p hp).app
    · rw [hbelow]
      exact (hready p hp).sections entry hentry hgroup

/-- Every proposal that a valid declaration has taken was spelled as the schema has it. -/
theorem Captured.spelled (h : Captured config ps config')
    (hnodup : (config'.overrides.map Prod.fst).Nodup) :
    ∀ p ∈ ps, ∀ entry ∈ p.keys, Edit.spelled entry = true := by
  intro p hp entry hentry
  obtain ⟨new, hnew, -, hkeys⟩ := h.declared p hp
  rw [tableOf_eq_some hnodup] at hnew
  have hvalid := (Config.validated h.valid).overrides _ hnew
  exact spelled_of_declared (validateOverride_eq_ok.mp hvalid).2.2
    ((hkeys entry).mpr (.inl hentry))

end

/-- Everything that capture offers can be written together exactly where the declaration takes each
of the offers. -/
theorem captures_iff (t : Toml) (text : Chars) (doc : Entries) (config : Config) (m : Machine)
    (ps : List Proposal) (hps : ps = (capturable config.packages.flatpak config.overrides m).1)
    (hparse : t.parse text = some doc) (hread : t.read doc = some config)
    (hvalid : config.validate = .ok ()) (hnodup : (config.overrides.map Prod.fst).Nodup)
    (hprint : ∀ edited, declareOverrides ps doc = .ok edited →
      (t.parse (t.print text edited)).bind t.read = t.read edited) :
    Captures t text config ps ↔ Takes doc ps := by
  obtain ⟨hall, happs⟩ :=
    @capturable_spec config.overrides m config.packages.flatpak
  rw [← hps] at hall happs
  have hproposed : ∀ p ∈ ps, Proposed config.overrides p := fun p hp => (hall p hp).2
  have hrepresentable : ∀ p ∈ ps, ∀ entry ∈ p.keys, representable entry.1 = true :=
    fun p hp => (hproposed p hp).representable
  constructor
  · rintro ⟨after, config', hrewrite, hafter, hcaptured⟩
    have hok : (rewriteFile t (declareOverrides ps) (some (Bytes.ofText text)) true).2 = .ok () := by
      rw [hrewrite]
    obtain ⟨text', doc', edited, hload, hedit, -, -, hfile⟩ := rewriteFile_ok hok
    obtain ⟨rfl, rfl⟩ : text = text' ∧ doc = doc' := by
      rw [load_ofText hparse] at hload
      simpa using hload
    have htext : after = t.print text edited := by
      rw [hrewrite] at hfile
      exact Bytes.ofText_inj (Option.some.inj hfile)
    rw [htext, hprint edited hedit] at hafter
    obtain ⟨table, table', htable, hfold, rfl⟩ := declareOverrides_eq_ok.mp hedit
    have hreads := Reads.of_document hread hnodup htable
    have hreads' : Reads table' config'.overrides := by
      obtain ⟨rest, overrides', -, hoverrides, rfl⟩ := read_eq_some.mp hafter
      rw [Entries.get_insert_self] at hoverrides
      exact ⟨hoverrides, nodup_declareApps hfold hreads.nodup⟩
    rw [takes_iff_ready htable]
    exact ⟨(exists_declareApps happs hrepresentable).mp ⟨table', hfold⟩,
      hcaptured.spelled hreads'.keys_nodup⟩
  · intro htakes
    obtain ⟨table, htable⟩ := standing_iff.mp htakes.overrides
    obtain ⟨hready, hspelled⟩ := (takes_iff_ready htable).mp htakes
    have hreads := Reads.of_document hread hnodup htable
    obtain ⟨table', hfold⟩ := (exists_declareApps happs hrepresentable).mpr hready
    obtain ⟨overrides', hreads', htables, hothers⟩ :=
      hreads.declareApps hproposed happs hspelled hfold
    have hedit : declareOverrides ps doc = .ok (doc.insert OVERRIDES (.table table')) :=
      declareOverrides_eq_ok.mpr ⟨table, table', htable, hfold, rfl⟩
    have hcaptured := captured_of_tables hvalid hnodup hreads'.keys_nodup
      (fun p hp => (hall p hp).1) (fun p hp => (hproposed p hp).nonempty) htables hothers
    have hafter : (t.parse (t.print text (doc.insert OVERRIDES (.table table')))).bind t.read =
        some { config with overrides := overrides' } := by
      rw [hprint _ hedit]
      obtain ⟨rest, overrides, hrest, -, rfl⟩ := read_eq_some.mp hread
      refine read_eq_some.mpr ⟨rest, overrides', ?_, ?_, rfl⟩
      · rw [Entries.without_insert, hrest]
      · rw [Entries.get_insert_self, hreads'.read]
    have haccepts : t.accepts (t.print text (doc.insert OVERRIDES (.table table'))) = true := by
      unfold Toml.accepts
      rw [hafter]
      exact decide_eq_true hcaptured.valid
    exact ⟨t.print text (doc.insert OVERRIDES (.table table')), _,
      rewriteFile_of_accepts (load_ofText hparse) hedit haccepts, hafter, hcaptured⟩

/-- A declaration of two apps, with the overrides of so many of them. -/
private def mapsText (count : ℕ) : Chars :=
  let maps := "\n[overrides.\"org.example.Maps\"]\nsockets = [\"x11\"]\n"
  let notes := "\n[overrides.\"org.example.Notes\"]\nfilesystems = [\"/data/a,b\"]\n"
  "schema_version = 1\n\n[packages]\n".toList ++
    "flatpak = [\"org.example.Maps\", \"org.example.Notes\"]\n".toList ++
      (([maps, notes].take count).flatMap String.toList)

private def mapsDoc (count : ℕ) : Entries :=
  let list (key value : String) : Node :=
    .table (.cons key.toList (.array (.cons (.string value.toList) .nil)) .nil)
  let notes : Entries := if count < 2 then .nil
    else .cons "org.example.Notes".toList (list "filesystems" "/data/a,b") .nil
  let overrides : Entries := if count < 1 then .nil
    else .cons OVERRIDES (.table (.cons "org.example.Maps".toList (list "sockets" "x11") notes)) .nil
  .cons "schema_version".toList (.literal "1".toList) (.cons PACKAGES (.table
    (.cons "flatpak".toList (.array (.cons (.string "org.example.Maps".toList)
      (.cons (.string "org.example.Notes".toList) .nil))) .nil)) overrides)

private def mapsConfig : Config :=
  { Config.default with packages := ⟨[], ["org.example.Maps", "org.example.Notes"], []⟩ }

private def mapsToml : Toml where
  parse text :=
    if text = mapsText 0 then some (mapsDoc 0)
    else if text = mapsText 1 then some (mapsDoc 1)
    else if text = mapsText 2 then some (mapsDoc 2) else none
  print _ doc :=
    if (doc.get OVERRIDES).isNone then mapsText 0
    else if (below (doc.get OVERRIDES) "org.example.Notes".toList).isNone then mapsText 1
    else mapsText 2
  rest doc := some { Config.default with
    packages := ⟨[], (readList (below (doc.get PACKAGES) "flatpak".toList)).getD [], []⟩ }

/-- A machine whose system store has these files. -/
private def overriding (files : List (String × String)) : Machine := fun scope =>
  .start fun app => match scope with
    | .system => ((files.find? (·.1 = app)).map Prod.snd).map fun text => Bytes.ofText text.toList
    | .user => none

private def mapsProposal : Proposal :=
  ⟨"org.example.Maps", .system, [((CONTEXT, "sockets".toList), "x11;".toList)]⟩

private def notesProposal : Proposal :=
  ⟨"org.example.Notes", .system, [((CONTEXT, "filesystems".toList), "/data/a,b;".toList)]⟩

private theorem parse_maps : mapsToml.parse (mapsText 0) = some (mapsDoc 0) ∧
    mapsToml.parse (mapsText 1) = some (mapsDoc 1) ∧
      mapsToml.parse (mapsText 2) = some (mapsDoc 2) := by
  have hone : mapsText 1 ≠ mapsText 0 := by decide +kernel
  have htwo : mapsText 2 ≠ mapsText 0 ∧ mapsText 2 ≠ mapsText 1 := by decide +kernel
  unfold mapsToml
  dsimp only
  rw [if_pos rfl, if_neg hone, if_pos rfl, if_neg htwo.1, if_neg htwo.2, if_pos rfl]
  exact ⟨rfl, rfl, rfl⟩

theorem captures_maps : Captures mapsToml (mapsText 0) mapsConfig [mapsProposal] := by
  obtain ⟨hzero, hone, -⟩ := parse_maps
  have hps : [mapsProposal] = (capturable mapsConfig.packages.flatpak mapsConfig.overrides
      (overriding [("org.example.Maps", "[Context]\nsockets=x11;\n")])).1 := by decide +kernel
  have hprint : ∀ edited, declareOverrides [mapsProposal] (mapsDoc 0) = .ok edited →
      (mapsToml.parse (mapsToml.print (mapsText 0) edited)).bind mapsToml.read =
        mapsToml.read edited := by
    intro edited h
    obtain rfl : mapsDoc 1 = edited := Except.ok.inj h
    exact congrArg (·.bind mapsToml.read) hone
  refine (captures_iff mapsToml (mapsText 0) (mapsDoc 0) mapsConfig _ [mapsProposal] hps hzero rfl
    (by decide +kernel) (by decide) hprint).mpr ⟨rfl, ?_, ?_, ?_⟩
  all_goals
    intro p hp
    obtain rfl := List.mem_singleton.mp hp
  · rfl
  · intro entry hentry hgroup
    obtain rfl := List.mem_singleton.mp hentry
    exact absurd rfl hgroup
  · decide +kernel

/-- A path with a comma is offered, and then refuses the offer beside it too. -/
theorem captures_not_comma :
    mapsToml.parse (mapsText 0) = some (mapsDoc 0) ∧
      mapsToml.read (mapsDoc 0) = some mapsConfig ∧ mapsConfig.validate = .ok () ∧
      (capturable mapsConfig.packages.flatpak mapsConfig.overrides
        (overriding [("org.example.Maps", "[Context]\nsockets=x11;\n"),
          ("org.example.Notes", "[Context]\nfilesystems=/data/a,b;\n")])).1 =
        [mapsProposal, notesProposal] ∧
      (∀ edited, declareOverrides [mapsProposal, notesProposal] (mapsDoc 0) = .ok edited →
        (mapsToml.parse (mapsToml.print (mapsText 0) edited)).bind mapsToml.read =
          mapsToml.read edited) ∧
      ¬ Captures mapsToml (mapsText 0) mapsConfig [mapsProposal, notesProposal] := by
  obtain ⟨hzero, -, htwo⟩ := parse_maps
  refine ⟨hzero, rfl, by decide +kernel, by decide +kernel, fun edited h => ?_, fun h => ?_⟩
  · obtain rfl : mapsDoc 2 = edited := Except.ok.inj h
    exact congrArg (·.bind mapsToml.read) htwo
  · obtain ⟨after, -, hrewrite, -⟩ := h
    have hrefused : (rewriteFile mapsToml (declareOverrides [mapsProposal, notesProposal])
        (some (Bytes.ofText (mapsText 0))) true).2 = .error .breaks := by decide +kernel
    rw [hrewrite] at hrefused
    cases hrefused

end Kuma.Edit
