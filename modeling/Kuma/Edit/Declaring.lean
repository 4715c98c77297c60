import Kuma.Edit.Captured

/-! Proposals written into a document: when the edit goes through, and what it makes of the table
of overrides. -/
namespace Kuma.Edit
open Kuma.Lib Kuma.Inspect Kuma.Overrides Kuma.Sync

/-- Absent, or written as a table: what the edits can go into. -/
def standing : Option Node → Bool
  | none => true
  | some (.table _) => true
  | some _ => false

/-- What stands under a key of a table in either of its forms. -/
def below (node : Option Node) (key : Chars) : Option Node :=
  (node.bind Node.entries?).bind (·.get key)

def SECTIONS : List Chars := ["environment", "session-bus", "system-bus"].map String.toList

section
variable {name : String} {app app' table table' : Entries} {entry : Key × Chars}
  {keys : List (Key × Chars)} {node : Option Node} {p : Proposal}

theorem standing_iff : standing node = true ↔ ∃ app, node.getD (.table .nil) = .table app := by
  cases node with
  | none => simp [standing]
  | some node => cases node <;> simp [standing]

theorem below_eq {key : Chars} (h : node.getD (.table .nil) = .table app) :
    below node key = app.get key := by
  cases node with
  | none =>
    obtain rfl := Node.table.inj h
    rfl
  | some node =>
    obtain rfl : node = .table app := h
    rfl

theorem sectionOf_mem (group : Chars) : sectionOf group ∈ SECTIONS := by
  unfold sectionOf
  split_ifs <;> decide

theorem exists_declareKey : (∃ app', declareKey name app entry = .ok app') ↔
    (entry.1.1 ≠ CONTEXT → standing (app.get (sectionOf entry.1.1)) = true) := by
  by_cases hgroup : entry.1.1 = CONTEXT
  · have hdeclare : ∃ app', declareKey name app entry = .ok app' := ⟨_, if_pos hgroup⟩
    simp [hgroup, hdeclare]
  · rw [standing_iff]
    simp only [declareKey_section hgroup, ne_eq, hgroup, not_false_eq_true, true_imp_iff]
    constructor
    · rintro ⟨-, sub, hsub, -⟩
      exact ⟨sub, hsub⟩
    · rintro ⟨sub, hsub⟩
      exact ⟨_, sub, hsub, rfl⟩

/-- A key that is written leaves the form of every section as it was. -/
theorem standing_declareKey (hkey : representable entry.1 = true)
    (hdeclare : declareKey name app entry = .ok app') {key : Chars} (hsection : key ∈ SECTIONS) :
    standing (app'.get key) = standing (app.get key) := by
  by_cases hgroup : entry.1.1 = CONTEXT
  · have hlist : entry.1.2 ∈ CONTEXT_KEYS := by
      unfold representable at hkey
      rw [if_pos hgroup, List.contains_iff_mem] at hkey
      exact hkey
    have hne : ∀ list ∈ CONTEXT_KEYS, ∀ key ∈ SECTIONS, list ≠ key := by decide
    unfold declareKey at hdeclare
    rw [if_pos hgroup] at hdeclare
    obtain rfl := Except.ok.inj hdeclare
    rw [Entries.get_insert_of_ne (hne _ hlist key hsection)]
  · obtain ⟨sub, hsub, rfl⟩ := (declareKey_section hgroup).mp hdeclare
    rw [Entries.get_insert]
    split_ifs with hsame
    · have hstands : standing (app.get (sectionOf entry.1.1)) = true :=
        standing_iff.mpr ⟨sub, hsub⟩
      rw [← hsame, hstands]
      rfl
    · rfl

/-- The keys of a proposal can be written exactly where each section they go into is absent or
written as a table. -/
theorem exists_declareKeys (hkeys : ∀ entry ∈ keys, representable entry.1 = true) :
    (∃ app', keys.foldlM (declareKey name) app = .ok app') ↔
      ∀ entry ∈ keys, entry.1.1 ≠ CONTEXT → standing (app.get (sectionOf entry.1.1)) = true := by
  apply exists_foldlM
  · exact fun entry _ app => exists_declareKey
  · apply List.pairwise_of_forall_mem_list
    intro entry hentry other _ app app' hdeclare
    rw [standing_declareKey (hkeys entry hentry) hdeclare (sectionOf_mem other.1.1)]

theorem get_placed {scope : Scope} {key : Chars} (hsection : key ∈ SECTIONS) :
    (if scope = .system then app
      else app.insert "scope".toList (.string scope.asStr.toList)).get key = app.get key := by
  have hne : ∀ key ∈ SECTIONS, "scope".toList ≠ key := by decide
  split_ifs with hscope
  · rfl
  · rw [Entries.get_insert_of_ne (hne key hsection)]

/-- What a proposal goes into. -/
structure Ready (table : Entries) (p : Proposal) : Prop where
  app : standing (table.get p.app.toList) = true
  sections : ∀ entry ∈ p.keys, entry.1.1 ≠ CONTEXT →
    standing (below (table.get p.app.toList) (sectionOf entry.1.1)) = true

theorem declareApp_eq_ok : declareApp table p = .ok table' ↔ ∃ app keyed : Entries,
    (table.get p.app.toList).getD (.table .nil) = .table app ∧
    p.keys.foldlM (declareKey p.app) (if p.scope = .system then app
      else app.insert "scope".toList (.string p.scope.asStr.toList)) = .ok keyed ∧
    table.insert p.app.toList (.table keyed) = table' := by
  unfold declareApp
  simp only [bind_eq_ok, asTable_eq_ok, Except.ok.injEq, exists_and_left]

theorem exists_declareApp (hkeys : ∀ entry ∈ p.keys, representable entry.1 = true) :
    (∃ table', declareApp table p = .ok table') ↔ Ready table p := by
  have hplaced : ∀ app : Entries, (∃ keyed, p.keys.foldlM (declareKey p.app)
      (if p.scope = .system then app
        else app.insert "scope".toList (.string p.scope.asStr.toList)) = .ok keyed) ↔
      ∀ entry ∈ p.keys, entry.1.1 ≠ CONTEXT →
        standing (app.get (sectionOf entry.1.1)) = true := by
    intro app
    rw [exists_declareKeys hkeys]
    refine forall₃_congr fun entry _ _ => ?_
    rw [get_placed (sectionOf_mem entry.1.1)]
  constructor
  · rintro ⟨table', hdeclare⟩
    obtain ⟨app, keyed, happ, hkeyed, -⟩ := declareApp_eq_ok.mp hdeclare
    refine ⟨standing_iff.mpr ⟨app, happ⟩, ?_⟩
    intro entry hentry hgroup
    rw [below_eq happ]
    exact (hplaced app).mp ⟨keyed, hkeyed⟩ entry hentry hgroup
  · intro hready
    obtain ⟨app, happ⟩ := standing_iff.mp hready.app
    obtain ⟨keyed, hkeyed⟩ := (hplaced app).mpr fun entry hentry hgroup =>
      below_eq happ ▸ hready.sections entry hentry hgroup
    exact ⟨_, declareApp_eq_ok.mpr ⟨app, keyed, happ, hkeyed, rfl⟩⟩

/-- The apps of the proposals are told apart, and so each goes into what the document has. -/
theorem exists_declareApps {ps : List Proposal} (hnodup : (ps.map Proposal.app).Nodup)
    (hkeys : ∀ p ∈ ps, ∀ entry ∈ p.keys, representable entry.1 = true) :
    (∃ table', ps.foldlM declareApp table = .ok table') ↔ ∀ p ∈ ps, Ready table p := by
  apply exists_foldlM
  · exact fun p hp table => exists_declareApp (hkeys p hp)
  · rw [List.Nodup, List.pairwise_map] at hnodup
    refine hnodup.imp fun {p q} hne table table' hdeclare => ?_
    obtain ⟨app, keyed, -, -, rfl⟩ := declareApp_eq_ok.mp hdeclare
    have hget : (table.insert p.app.toList (.table keyed)).get q.app.toList =
        table.get q.app.toList := by
      rw [Entries.get_insert_of_ne]
      exact fun heq => hne (String.toList_inj.mp heq)
    constructor
    · intro hready
      exact ⟨hget ▸ hready.app, hget ▸ hready.sections⟩
    · intro hready
      exact ⟨hget.symm ▸ hready.app, hget.symm ▸ hready.sections⟩

theorem nodup_declareApps {ps : List Proposal} (hdeclare : ps.foldlM declareApp table = .ok table')
    (hnodup : table.keys.Nodup) : table'.keys.Nodup := by
  induction ps generalizing table with
  | nil =>
    obtain rfl := Except.ok.inj hdeclare
    exact hnodup
  | cons p ps ih =>
    obtain ⟨next, hp, hrest⟩ := bind_eq_ok.mp hdeclare
    obtain ⟨app, keyed, -, -, rfl⟩ := declareApp_eq_ok.mp hp
    exact ih hrest (Entries.nodup_keys_insert hnodup)

theorem Takable.grown {old new : AppOverride} {other : Key × Chars} (h : Takable old other)
    (hgrown : Grown [entry] old new) (hne : entry.1 ≠ other.1) : Takable new other := by
  refine ⟨h.representable, h.spelled, fun value hvalue => ?_⟩
  rcases (hgrown.keys _).mp hvalue with hentry | hold
  · exact hne (congrArg Prod.fst (List.mem_singleton.mp hentry)).symm
  · exact h.fresh value hold

/-- Keys that are told apart are all gained, one after the other. -/
theorem declareKeys_spec {old : AppOverride} (h : Fields app old)
    (hkeys : ∀ entry ∈ keys, Takable old entry) (hnodup : (keys.map Prod.fst).Nodup)
    (hdeclare : keys.foldlM (declareKey name) app = .ok app') :
    ∃ new, Fields app' new ∧ Grown keys old new := by
  induction keys generalizing app old with
  | nil =>
    obtain rfl := Except.ok.inj hdeclare
    exact ⟨old, h, rfl, by simp, id⟩
  | cons entry keys ih =>
    rw [List.map_cons, List.nodup_cons] at hnodup
    obtain ⟨next, hentry, hrest⟩ := bind_eq_ok.mp hdeclare
    obtain ⟨middle, hmiddle, hgrown⟩ :=
      declareKey_spec h (hkeys entry List.mem_cons_self) hentry
    have htakable : ∀ other ∈ keys, Takable middle other := by
      intro other hother
      have hne : entry.1 ≠ other.1 := by
        intro heq
        exact hnodup.1 (heq ▸ List.mem_map_of_mem hother)
      exact (hkeys other (List.mem_cons_of_mem _ hother)).grown hgrown hne
    obtain ⟨new, hnew, hlater⟩ := ih hmiddle htakable hnodup.2 hrest
    exact ⟨new, hnew, hgrown.trans hlater⟩

/-- What a proposal finds in a table: its app's permissions, none where the app is absent. -/
structure Finds (table : Entries) (p : Proposal) (old : AppOverride) : Prop where
  fields : ∀ app : Entries, (table.get p.app.toList).getD (.table .nil) = .table app →
    Fields app old
  scope : p.scope = .system → old.scope = .system
  keys : ∀ entry ∈ p.keys, Takable old entry
  nodup : (p.keys.map Prod.fst).Nodup

/-- What a proposal leaves there: its app's permissions in its store, with its keys. -/
def Leaves (table : Entries) (p : Proposal) (old : AppOverride) : Prop :=
  ∃ node new, table.get p.app.toList = some node ∧ readApp node = some new ∧
    Grown p.keys { old with scope := p.scope } new

theorem declareApp_spec {old : AppOverride} (h : Finds table p old)
    (hdeclare : declareApp table p = .ok table') : Leaves table' p old := by
  obtain ⟨app, keyed, happ, hkeyed, rfl⟩ := declareApp_eq_ok.mp hdeclare
  have hplaced : Fields (if p.scope = .system then app
      else app.insert "scope".toList (.string p.scope.asStr.toList))
      { old with scope := p.scope } := by
    split_ifs with hscope
    · have hsame : { old with scope := p.scope } = old := by rw [hscope, ← h.scope hscope]
      rw [hsame]
      exact h.fields app happ
    · exact (h.fields app happ).insertScope p.scope
  have htakable : ∀ entry ∈ p.keys, Takable { old with scope := p.scope } entry :=
    fun entry hentry => ⟨(h.keys entry hentry).representable, (h.keys entry hentry).spelled,
      (h.keys entry hentry).fresh⟩
  obtain ⟨new, hfields, hgrown⟩ := declareKeys_spec hplaced htakable h.nodup hkeyed
  refine ⟨.table keyed, new, Entries.get_insert_self table, ?_, hgrown⟩
  exact readFields_iff.mpr hfields

/-- All the proposals are left in the table, and every other app is as it was. -/
theorem declareApps_spec {ps : List Proposal} {old : String → AppOverride}
    (h : ∀ p ∈ ps, Finds table p (old p.app)) (hnodup : (ps.map Proposal.app).Nodup)
    (hdeclare : ps.foldlM declareApp table = .ok table') :
    (∀ p ∈ ps, Leaves table' p (old p.app)) ∧
      ∀ app ∉ ps.map fun p => p.app.toList, table'.get app = table.get app := by
  induction ps generalizing table with
  | nil =>
    obtain rfl := Except.ok.inj hdeclare
    exact ⟨List.forall_mem_nil _, fun _ _ => rfl⟩
  | cons p ps ih =>
    rw [List.map_cons, List.nodup_cons] at hnodup
    obtain ⟨next, hp, hrest⟩ := bind_eq_ok.mp hdeclare
    have hleaves := declareApp_spec (h p List.mem_cons_self) hp
    obtain ⟨app, keyed, -, -, rfl⟩ := declareApp_eq_ok.mp hp
    have hother : ∀ key : Chars, key ≠ p.app.toList →
        (table.insert p.app.toList (.table keyed)).get key = table.get key :=
      fun key hkey => Entries.get_insert_of_ne hkey.symm table
    have hnot : p.app.toList ∉ ps.map fun q => q.app.toList := by
      intro hmem
      obtain ⟨q, hq, heq⟩ := List.mem_map.mp hmem
      exact hnodup.1 (List.mem_map.mpr ⟨q, hq, String.toList_inj.mp heq⟩)
    have hfinds : ∀ q ∈ ps,
        Finds (table.insert p.app.toList (.table keyed)) q (old q.app) := by
      intro q hq
      have hne : q.app.toList ≠ p.app.toList := fun heq =>
        hnot (heq ▸ List.mem_map_of_mem (f := fun q : Proposal => q.app.toList) hq)
      have hq := h q (List.mem_cons_of_mem _ hq)
      exact ⟨fun app happ => hq.fields app (hother _ hne ▸ happ), hq.scope, hq.keys, hq.nodup⟩
    obtain ⟨hall, hothers⟩ := ih hfinds hnodup.2 hrest
    refine ⟨List.forall_mem_cons.mpr ⟨?_, hall⟩, fun key hkey => ?_⟩
    · obtain ⟨node, new, hget, hnew⟩ := hleaves
      exact ⟨node, new, (hothers _ hnot).trans hget, hnew⟩
    · rw [List.map_cons, List.mem_cons, not_or] at hkey
      exact (hothers key hkey.2).trans (hother key hkey.1)

end
end Kuma.Edit
