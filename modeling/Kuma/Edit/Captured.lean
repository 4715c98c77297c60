import Kuma.Edit.Permissions

/-! A declaration that takes what capture offers: what the schema reads of it afterwards. -/
namespace Kuma.Edit
open Kuma.Lib Kuma.Inspect Kuma.Overrides Kuma.Sync

/-- What one app's table is read as, field by field. -/
structure Fields (app : Entries) (table : AppOverride) : Prop where
  known : ∀ key ∈ app.keys, key ∈ FIELDS
  scope : readScope (app.get "scope".toList) = some table.scope
  lists : ∀ list ∈ table.contextLists, readList (app.get list.1.toList) = some list.2
  environment : readMap Node.str? (app.get "environment".toList) = some table.environment
  sessionBus : readMap readPolicy (app.get "session-bus".toList) = some table.sessionBus
  systemBus : readMap readPolicy (app.get "system-bus".toList) = some table.systemBus

/-- The part of an app's check that looks at one value after another. -/
structure Checked (table : AppOverride) : Prop where
  lists : ∀ list ∈ table.contextLists, ∀ value ∈ list.2, nameable VALUE_CHARS value.toList = true
  environment : ∀ var ∈ table.environment,
    nameable ['_'] var.1.toList = true ∧ oneLine var.2.toList = true
  buses : ∀ bus ∈ table.sessionBus ++ table.systemBus, nameable BUS_CHARS bus.1.toList = true

section
variable {app : String} {table : AppOverride} {entry : Key × Chars}

theorem validateName_eq_ok {value field : String} {extra : List Char} :
    validateName value field extra = .ok () ↔ nameable extra value.toList = true := by
  unfold validateName nameable
  split_ifs with hempty hdash hnone
  · simp [hempty]
  · simp [hdash]
  · simp_all
  · split
    · next ch hfind =>
      have hch := List.find?_some hfind
      have hmem := List.mem_of_find?_eq_some hfind
      simp only [reduceCtorEq, false_iff, Bool.not_eq_true, Bool.and_eq_false_iff]
      refine .inr (List.all_eq_false.mpr ⟨ch, hmem, ?_⟩)
      simpa using hch
    · next hfind =>
      have hall := List.find?_eq_none.mp hfind
      have hchars : ∀ ch ∈ value.toList, ch.isAlphanum = true ∨ ch ∈ extra := by
        intro ch hch
        have hnot := hall ch hch
        by_cases halnum : ch.isAlphanum = true
        · exact .inl halnum
        · exact .inr (by simpa [halnum] using hnot)
      simp_all

theorem isEmpty_iff : table.isEmpty = true ↔ declaredKeys table = [] := by
  simp [AppOverride.isEmpty, declaredKeys, List.filter_eq_nil_iff, and_assoc]

theorem validateOverride_eq_ok : validateOverride app table = .ok () ↔
    nameable APP_CHARS app.toList = true ∧ declaredKeys table ≠ [] ∧ Checked table := by
  have hempty : (if table.isEmpty then Except.error (.empty app) else .ok () :
      Except OverrideFault Unit) = .ok () ↔ declaredKeys table ≠ [] := by
    rw [ne_eq, ← isEmpty_iff]
    split_ifs with h <;> simp [h]
  have hvalue : ∀ (var : String × String) (field : String), (if '\n' ∈ var.2.toList ∨
      '\r' ∈ var.2.toList then Except.error (OverrideFault.newline field var.1) else .ok ()) =
        .ok () ↔ oneLine var.2.toList = true := by
    intro var field
    have honeLine : oneLine var.2.toList = true ↔ ¬('\n' ∈ var.2.toList ∨ '\r' ∈ var.2.toList) := by
      simp [oneLine]
    rw [honeLine]
    split_ifs with h <;> simp [h]
  unfold validateOverride
  simp only [seq_eq_ok, forM_eq_ok, hempty, hvalue, mapError_eq_ok, validateName_eq_ok]
  constructor
  · rintro ⟨hname, hkeys, hlists, henvironment, hbuses⟩
    exact ⟨hname, hkeys, hlists, henvironment, hbuses⟩
  · rintro ⟨hname, hkeys, hchecked⟩
    exact ⟨hname, hkeys, hchecked.lists, hchecked.environment, hchecked.buses⟩

end

section
variable {app sub entries : Entries} {table : AppOverride} {key : Chars} {name : String}
  {node : Node} {α : Type} {read : Node → Option α} {value : α} {pairs : List (String × α)}

theorem readMap_getD (read : Node → Option α) (node : Option Node) :
    readMap read node = readMap read (some (node.getD (.table .nil))) := by
  cases node <;> rfl

/-- What a map is read from, entry by entry. -/
theorem readMap_eq_some (hentries : node.entries? = some entries) :
    readMap read (some node) = some pairs ↔ ∃ read' : List (String × α),
      (entries.toList.mapM fun entry =>
        (read entry.2).map fun value => (String.ofList entry.1, value)) = some read' ∧
      read'.insertionSort (fun a b => a.1 ≤ b.1) = pairs := by
  unfold readMap
  simp only [hentries, Option.bind_eq_bind, Option.bind_some, Option.bind_eq_some_iff,
    Option.some.injEq]

theorem mem_readMap (hentries : node.entries? = some entries)
    (h : readMap read (some node) = some pairs) :
    (name, value) ∈ pairs ↔ ∃ n, (name.toList, n) ∈ entries.toList ∧ read n = some value := by
  obtain ⟨read', hread, rfl⟩ := (readMap_eq_some hentries).mp h
  rw [(List.perm_insertionSort _ _).mem_iff, mem_of_mapM hread]
  constructor
  · rintro ⟨⟨k, n⟩, hmem, hvalue⟩
    obtain ⟨v, hv, heq⟩ := Option.map_eq_some_iff.mp hvalue
    obtain ⟨rfl, rfl⟩ := Prod.mk.inj heq
    exact ⟨n, by rwa [String.toList_ofList], hv⟩
  · rintro ⟨n, hmem, hvalue⟩
    exact ⟨(name.toList, n), hmem, by simp [hvalue]⟩

theorem exists_readMap (hentries : node.entries? = some entries) :
    (∃ pairs, readMap read (some node) = some pairs) ↔
      ∀ entry ∈ entries.toList, ∃ value, read entry.2 = some value := by
  simp only [readMap_eq_some hentries]
  rw [exists_comm]
  simp only [exists_and_left, exists_eq', and_true, exists_mapM, Option.map_eq_some_iff]
  refine forall₂_congr fun entry _ => ?_
  constructor
  · rintro ⟨_, value, hvalue, -⟩
    exact ⟨value, hvalue⟩
  · rintro ⟨value, hvalue⟩
    exact ⟨_, value, hvalue, rfl⟩

theorem exists_readMap_table : (∃ pairs, readMap read (some (.table sub)) = some pairs) ↔
    ∀ entry ∈ sub.toList, ∃ value, read entry.2 = some value :=
  exists_readMap rfl

/-- The keys of a map are those of its table. -/
theorem keys_readMap (hentries : node.entries? = some entries)
    (h : readMap read (some node) = some pairs) :
    (pairs.map Prod.fst).Perm (entries.keys.map String.ofList) := by
  obtain ⟨read', hread, rfl⟩ := (readMap_eq_some hentries).mp h
  have hkeys : read'.map Prod.fst = entries.keys.map String.ofList := by
    have hmap := mapM_eq_some.mp hread
    clear h hread
    rw [Entries.keys]
    generalize entries.toList = l at hmap ⊢
    induction l generalizing read' with
    | nil => rw [List.map_eq_nil_iff.mp hmap.symm, List.map_nil, List.map_nil, List.map_nil]
    | cons entry l ih =>
      obtain ⟨pair, rest, rfl, hpair, hrest⟩ := List.map_eq_cons_iff.mp hmap.symm
      obtain ⟨_, -, rfl⟩ := Option.map_eq_some_iff.mp hpair.symm
      rw [List.map_cons, List.map_cons, List.map_cons,
        ih rest hrest.symm]
  rw [← hkeys]
  exact (List.perm_insertionSort _ _).map _

theorem readFields_iff : readFields app = some table ↔ Fields app table := by
  have hguard : ∀ {β : Type} {p : Prop} [Decidable p] {next : Option β},
      (guard p >>= fun _ => next) = if p then next else none := by
    intro β p _ next
    unfold guard
    split_ifs <;> rfl
  unfold readFields
  rw [hguard]
  simp only [Option.bind_eq_bind]
  constructor
  · intro h
    split_ifs at h with hknown
    simp only [Option.bind_eq_some_iff, Option.some.injEq] at h
    obtain ⟨scope, hscope, f, hf, so, hso, dev, hdev, sh, hsh, fe, hfe, pe, hpe, env, henv, sb,
      hsb, yb, hyb, rfl⟩ := h
    refine ⟨hknown, hscope, ?_, henv, hsb, hyb⟩
    simp only [AppOverride.contextLists, List.forall_mem_cons]
    exact ⟨hf, hso, hdev, hsh, hfe, hpe, List.forall_mem_nil _⟩
  · intro h
    have hlists := h.lists
    simp only [AppOverride.contextLists, List.forall_mem_cons] at hlists
    obtain ⟨hf, hso, hdev, hsh, hfe, hpe, -⟩ := hlists
    rw [if_pos h.known]
    simp only [h.scope, hf, hso, hdev, hsh, hfe, hpe, h.environment, h.sessionBus, h.systemBus,
      Option.bind_some]

/-- A table with another list under a key of the context. -/
def setList (table : AppOverride) (list : Chars) (values : List String) : AppOverride :=
  { table with
    filesystems := if list = "filesystems".toList then values else table.filesystems
    sockets := if list = "sockets".toList then values else table.sockets
    devices := if list = "devices".toList then values else table.devices
    shared := if list = "shared".toList then values else table.shared
    features := if list = "features".toList then values else table.features
    persistent := if list = "persistent".toList then values else table.persistent }

theorem contextLists_setList (table : AppOverride) (list : Chars) (values : List String) :
    (setList table list values).contextLists =
      table.contextLists.map fun l => (l.1, if list = l.1.toList then values else l.2) := rfl

theorem mem_contextKeys {list : String × List String} (h : list ∈ table.contextLists) :
    list.1.toList ∈ CONTEXT_KEYS := by
  have hkeys : table.contextLists.map (fun list => list.1.toList) = CONTEXT_KEYS := rfl
  rw [← hkeys]
  exact List.mem_map_of_mem h

namespace Fields

theorem nil : Fields .nil .default := by
  apply readFields_iff.mp
  rfl

theorem known_insert (h : Fields app table) (hkey : key ∈ FIELDS) :
    ∀ k ∈ (app.insert key node).keys, k ∈ FIELDS := by
  intro k hk
  rcases Entries.mem_keys_insert.mp hk with rfl | hk
  · exact hkey
  · exact h.known k hk

theorem insertList {list : Chars} (h : Fields app table) (hlist : list ∈ CONTEXT_KEYS)
    (values : List Chars) :
    Fields (app.insert list (.array (Nodes.ofList (values.map .string))))
      (setList table list (values.map String.ofList)) := by
  have hknown : list ∈ FIELDS := by
    have hall : ∀ list ∈ CONTEXT_KEYS, list ∈ FIELDS := by decide
    exact hall list hlist
  have hother : ∀ other ∈ ["scope", "environment", "session-bus", "system-bus"],
      list ≠ other.toList := by
    have hall : ∀ list ∈ CONTEXT_KEYS, ∀ other ∈ ["scope", "environment", "session-bus",
        "system-bus"], list ≠ other.toList := by decide
    exact hall list hlist
  have hread : readList (some (.array (Nodes.ofList (values.map .string)))) =
      some (values.map String.ofList) := by
    rw [readList, Nodes.toList_ofList, mapM_eq_some, List.map_map, List.map_map]
    rfl
  refine ⟨h.known_insert hknown, ?_, fun l hl => ?_, ?_, ?_, ?_⟩
  · rw [Entries.get_insert_of_ne (hother "scope" (by simp))]
    exact h.scope
  · rw [contextLists_setList, List.mem_map] at hl
    obtain ⟨l, hl, rfl⟩ := hl
    rw [Entries.get_insert]
    split_ifs with heq
    · exact hread
    · exact h.lists l hl
  · rw [Entries.get_insert_of_ne (hother "environment" (by simp))]
    exact h.environment
  · rw [Entries.get_insert_of_ne (hother "session-bus" (by simp))]
    exact h.sessionBus
  · rw [Entries.get_insert_of_ne (hother "system-bus" (by simp))]
    exact h.systemBus

/-- Beside the lists there are four fields, each with a key of its own. -/
theorem lists_insert (h : Fields app table)
    (hkey : key ∈ ["scope", "environment", "session-bus", "system-bus"].map String.toList) :
    ∀ list ∈ table.contextLists, readList ((app.insert key node).get list.1.toList) =
      some list.2 := by
  intro list hlist
  have hall : ∀ list ∈ CONTEXT_KEYS, ∀ key ∈ ["scope", "environment", "session-bus",
      "system-bus"].map String.toList, key ≠ list := by decide
  rw [Entries.get_insert_of_ne (hall _ (mem_contextKeys hlist) key hkey)]
  exact h.lists list hlist

theorem insertScope (h : Fields app table) (scope : Scope) :
    Fields (app.insert "scope".toList (.string scope.asStr.toList))
      { table with scope := scope } := by
  refine ⟨h.known_insert (by decide), ?_, h.lists_insert (by decide), ?_, ?_, ?_⟩
  · rw [Entries.get_insert_self]
    cases scope <;> rfl
  · rw [Entries.get_insert_of_ne (by decide)]
    exact h.environment
  · rw [Entries.get_insert_of_ne (by decide)]
    exact h.sessionBus
  · rw [Entries.get_insert_of_ne (by decide)]
    exact h.systemBus

theorem insertEnvironment {environment : List (String × String)} (h : Fields app table)
    (hread : readMap Node.str? (some node) = some environment) :
    Fields (app.insert "environment".toList node) { table with environment := environment } := by
  refine ⟨h.known_insert (by decide), ?_, h.lists_insert (by decide), ?_, ?_, ?_⟩
  · rw [Entries.get_insert_of_ne (by decide)]
    exact h.scope
  · rw [Entries.get_insert_self]
    exact hread
  · rw [Entries.get_insert_of_ne (by decide)]
    exact h.sessionBus
  · rw [Entries.get_insert_of_ne (by decide)]
    exact h.systemBus

theorem insertSessionBus {bus : List (String × BusPolicy)} (h : Fields app table)
    (hread : readMap readPolicy (some node) = some bus) :
    Fields (app.insert "session-bus".toList node) { table with sessionBus := bus } := by
  refine ⟨h.known_insert (by decide), ?_, h.lists_insert (by decide), ?_, ?_, ?_⟩
  · rw [Entries.get_insert_of_ne (by decide)]
    exact h.scope
  · rw [Entries.get_insert_of_ne (by decide)]
    exact h.environment
  · rw [Entries.get_insert_self]
    exact hread
  · rw [Entries.get_insert_of_ne (by decide)]
    exact h.systemBus

theorem insertSystemBus {bus : List (String × BusPolicy)} (h : Fields app table)
    (hread : readMap readPolicy (some node) = some bus) :
    Fields (app.insert "system-bus".toList node) { table with systemBus := bus } := by
  refine ⟨h.known_insert (by decide), ?_, h.lists_insert (by decide), ?_, ?_, ?_⟩
  · rw [Entries.get_insert_of_ne (by decide)]
    exact h.scope
  · rw [Entries.get_insert_of_ne (by decide)]
    exact h.environment
  · rw [Entries.get_insert_of_ne (by decide)]
    exact h.sessionBus
  · rw [Entries.get_insert_self]
    exact hread

end Fields
/-- A map whose table is given a key that it does not have. -/
theorem readMap_insert {old : Option Node} (htable : old.getD (.table .nil) = .table sub)
    (h : readMap read old = some pairs) (hnew : ∀ value, (name, value) ∉ pairs)
    (hvalue : read node = some value) :
    ∃ pairs', readMap read (some (.table (sub.insert name.toList node))) = some pairs' ∧
      ∀ pair, pair ∈ pairs' ↔ pair = (name, value) ∨ pair ∈ pairs := by
  rw [readMap_getD, htable] at h
  have hread := exists_readMap_table.mp ⟨pairs, h⟩
  have hkey : name.toList ∉ sub.keys := by
    intro hmem
    obtain ⟨⟨k, n⟩, hn, rfl⟩ := List.mem_map.mp hmem
    obtain ⟨v, hv⟩ := hread _ hn
    have hentries : (Node.table sub).entries? = some sub := rfl
    exact hnew v ((mem_readMap hentries h).mpr ⟨n, hn, hv⟩)
  have hlist : (sub.insert name.toList node).toList = sub.toList ++ [(name.toList, node)] :=
    Entries.toList_insert_of_not_mem hkey
  have hreads : ∀ entry ∈ (sub.insert name.toList node).toList,
      ∃ value, read entry.2 = some value := by
    rw [hlist, List.forall_mem_append]
    exact ⟨hread, by simpa using ⟨value, hvalue⟩⟩
  obtain ⟨pairs', h'⟩ := exists_readMap_table.mpr hreads
  refine ⟨pairs', h', fun ⟨name', value'⟩ => ?_⟩
  rw [mem_readMap rfl h', mem_readMap rfl h, hlist]
  simp only [List.mem_append, List.mem_singleton, Prod.mk.injEq, String.toList_inj]
  constructor
  · rintro ⟨n, hn | ⟨rfl, rfl⟩, hv⟩
    · exact .inr ⟨n, hn, hv⟩
    · exact .inl ⟨rfl, Option.some.inj (hv.symm.trans hvalue)⟩
  · rintro (⟨rfl, rfl⟩ | ⟨n, hn, hv⟩)
    · exact ⟨node, .inr ⟨rfl, rfl⟩, hvalue⟩
    · exact ⟨n, .inl hn, hv⟩

end

section
variable {α β : Type} {pair : α} {old new : List α}

/-- The members of a list that has gained one are checked once the new one is. -/
theorem forall_mem_gained {check : α → Prop} (h : ∀ p, p ∈ new ↔ p = pair ∨ p ∈ old)
    (hpair : check pair) (hold : ∀ p ∈ old, check p) : ∀ p ∈ new, check p := by
  intro p hp
  rcases (h p).mp hp with rfl | hp
  · exact hpair
  · exact hold p hp

theorem exists_mem_gained {f : α → β} {b : β} (h : ∀ p, p ∈ new ↔ p = pair ∨ p ∈ old) :
    (∃ p ∈ new, f p = b) ↔ b = f pair ∨ ∃ p ∈ old, f p = b := by
  constructor
  · rintro ⟨p, hp, rfl⟩
    rcases (h p).mp hp with rfl | hp
    · exact .inl rfl
    · exact .inr ⟨p, hp, rfl⟩
  · rintro (rfl | ⟨p, hp, hb⟩)
    · exact ⟨pair, (h pair).mpr (.inl rfl), rfl⟩
    · exact ⟨p, (h p).mpr (.inr hp), hb⟩

end

/-- What a table has gained: some keys, each with its value. -/
structure Grown (keys : List (Key × Chars)) (old new : AppOverride) : Prop where
  scope : new.scope = old.scope
  keys : ∀ entry, entry ∈ declaredKeys new ↔ entry ∈ keys ∨ entry ∈ declaredKeys old
  checked : Checked old → Checked new

section
variable {table new : AppOverride} {entry : Key × Chars} {keys : List (Key × Chars)}

theorem mem_declaredKeys : entry ∈ declaredKeys table ↔
    (∃ list ∈ table.contextLists, list.2 ≠ [] ∧
      ((CONTEXT, list.1.toList), list.2.flatMap fun value => value.toList ++ [';']) = entry) ∨
    (∃ var ∈ table.environment, ((ENVIRONMENT, var.1.toList), var.2.toList) = entry) ∨
    (∃ bus ∈ table.sessionBus, ((SESSION_BUS, bus.1.toList), bus.2.asStr.toList) = entry) ∨
    ∃ bus ∈ table.systemBus, ((SYSTEM_BUS, bus.1.toList), bus.2.asStr.toList) = entry := by
  simp only [declaredKeys, List.mem_append, List.mem_map, List.mem_filter, or_assoc, and_assoc,
    Bool.not_eq_true', List.isEmpty_eq_false_iff]

/-- The keys of the context, once a list is set under a key that had none. -/
theorem mem_context_setList {list : Chars} {values : List Chars} (hlist : list ∈ CONTEXT_KEYS)
    (hvalues : values ≠ []) (hnew : ∀ value, ((CONTEXT, list), value) ∉ declaredKeys table) :
    (∃ l ∈ (setList table list (values.map String.ofList)).contextLists, l.2 ≠ [] ∧
      ((CONTEXT, l.1.toList), l.2.flatMap fun value => value.toList ++ [';']) = entry) ↔
    entry = ((CONTEXT, list), values.flatMap (· ++ [';'])) ∨ ∃ l ∈ table.contextLists, l.2 ≠ [] ∧
      ((CONTEXT, l.1.toList), l.2.flatMap fun value => value.toList ++ [';']) = entry := by
  have hjoin : ((values.map String.ofList).flatMap fun value => value.toList ++ [';']) =
      values.flatMap (· ++ [';']) := by
    simp [List.flatMap_map]
  have hkeys : table.contextLists.map (fun list => list.1.toList) = CONTEXT_KEYS := rfl
  simp only [contextLists_setList, List.mem_map, exists_exists_and_eq_and]
  constructor
  · rintro ⟨l, hl, hne, rfl⟩
    split_ifs at hne ⊢ with heq
    · rw [hjoin, heq]
      exact .inl rfl
    · exact .inr ⟨l, hl, hne, rfl⟩
  · rintro (rfl | ⟨l, hl, hne, rfl⟩)
    · rw [← hkeys] at hlist
      obtain ⟨l, hl, rfl⟩ := List.mem_map.mp hlist
      refine ⟨l, hl, ?_⟩
      rw [if_pos rfl, hjoin]
      exact ⟨by simpa using hvalues, rfl⟩
    · have hother : list ≠ l.1.toList := by
        rintro rfl
        exact hnew _ (mem_declaredKeys.mpr (.inl ⟨l, hl, hne, rfl⟩))
      refine ⟨l, hl, ?_⟩
      rw [if_neg hother]
      exact ⟨hne, rfl⟩

namespace Grown

theorem trans {first second : List (Key × Chars)} {middle : AppOverride}
    (h : Grown first table middle) (h' : Grown second middle new) :
    Grown (first ++ second) table new := by
  refine ⟨h'.scope.trans h.scope, fun entry => ?_, fun hchecked => h'.checked (h.checked hchecked)⟩
  rw [h'.keys, h.keys, List.mem_append]
  tauto

theorem setList {list : Chars} {values : List Chars} (hlist : list ∈ CONTEXT_KEYS)
    (hvalues : values ≠ []) (hchecked : ∀ value ∈ values, nameable VALUE_CHARS value = true)
    (hnew : ∀ value, ((CONTEXT, list), value) ∉ declaredKeys table) :
    Grown [((CONTEXT, list), values.flatMap (· ++ [';']))] table
      (setList table list (values.map String.ofList)) := by
  refine ⟨rfl, fun entry => ?_, fun hold => ⟨?_, hold.environment, hold.buses⟩⟩
  · rw [mem_declaredKeys, mem_context_setList hlist hvalues hnew, mem_declaredKeys,
      List.mem_singleton, or_assoc]
    rfl
  · rw [contextLists_setList, List.forall_mem_map]
    intro l hl value hvalue
    split_ifs at hvalue with heq
    · obtain ⟨value, hmem, rfl⟩ := List.mem_map.mp hvalue
      rw [String.toList_ofList]
      exact hchecked value hmem
    · exact hold.lists l hl value hvalue

theorem setEnvironment {name value : String} {environment : List (String × String)}
    (hname : nameable ['_'] name.toList = true) (hvalue : oneLine value.toList = true)
    (h : ∀ var, var ∈ environment ↔ var = (name, value) ∨ var ∈ table.environment) :
    Grown [((ENVIRONMENT, name.toList), value.toList)] table
      { table with environment := environment } := by
  refine ⟨rfl, fun entry => ?_, fun hold => ⟨hold.lists, ?_, hold.buses⟩⟩
  · rw [mem_declaredKeys, mem_declaredKeys, exists_mem_gained h, List.mem_singleton, or_assoc]
    exact or_left_comm
  · exact forall_mem_gained h ⟨hname, hvalue⟩ hold.environment

theorem setSessionBus {name : String} {policy : BusPolicy} {bus : List (String × BusPolicy)}
    (hname : nameable BUS_CHARS name.toList = true)
    (h : ∀ pair, pair ∈ bus ↔ pair = (name, policy) ∨ pair ∈ table.sessionBus) :
    Grown [((SESSION_BUS, name.toList), policy.asStr.toList)] table
      { table with sessionBus := bus } := by
  refine ⟨rfl, fun entry => ?_, fun hold => ⟨hold.lists, hold.environment, ?_⟩⟩
  · rw [mem_declaredKeys, mem_declaredKeys, exists_mem_gained h, List.mem_singleton, or_assoc,
      or_left_comm (a := ∃ var ∈ table.environment, _)]
    exact or_left_comm
  · obtain ⟨hsession, hsystem⟩ := List.forall_mem_append.mp hold.buses
    exact List.forall_mem_append.mpr ⟨forall_mem_gained h hname hsession, hsystem⟩

theorem setSystemBus {name : String} {policy : BusPolicy} {bus : List (String × BusPolicy)}
    (hname : nameable BUS_CHARS name.toList = true)
    (h : ∀ pair, pair ∈ bus ↔ pair = (name, policy) ∨ pair ∈ table.systemBus) :
    Grown [((SYSTEM_BUS, name.toList), policy.asStr.toList)] table
      { table with systemBus := bus } := by
  refine ⟨rfl, fun entry => ?_, fun hold => ⟨hold.lists, hold.environment, ?_⟩⟩
  · rw [mem_declaredKeys, mem_declaredKeys, exists_mem_gained h, List.mem_singleton,
      or_left_comm (a := ∃ bus ∈ table.sessionBus, _),
      or_left_comm (a := ∃ var ∈ table.environment, _)]
    exact or_left_comm
  · obtain ⟨hsession, hsystem⟩ := List.forall_mem_append.mp hold.buses
    exact List.forall_mem_append.mpr ⟨hsession, forall_mem_gained h hname hsystem⟩

end Grown

/-- A key that can be declared, whose value the schema takes. -/
structure Takable (table : AppOverride) (entry : Key × Chars) : Prop where
  representable : representable entry.1 = true
  spelled : spelled entry = true
  fresh : ∀ value, (entry.1, value) ∉ declaredKeys table

variable {name : String} {app app' : Entries} {fault : EditFault} {node : Option Node}

theorem asTable_eq_ok : asTable node fault = .ok app ↔ node.getD (.table .nil) = .table app := by
  unfold asTable
  cases node.getD (.table .nil) <;> simp

theorem readPolicy_of_mem {value : Chars} (h : value ∈ POLICIES) :
    ∃ policy : BusPolicy, policy.asStr.toList = value ∧
      readPolicy (.string value) = some policy := by
  have hall : ∀ value ∈ POLICIES, ∃ policy ∈ [BusPolicy.none, .see, .talk, .own],
      policy.asStr.toList = value ∧ readPolicy (.string value) = some policy := by decide
  obtain ⟨policy, -, hpolicy⟩ := hall value h
  exact ⟨policy, hpolicy⟩

theorem declareKey_section (hgroup : entry.1.1 ≠ CONTEXT) :
    declareKey name app entry = .ok app' ↔ ∃ sub : Entries,
      (app.get (sectionOf entry.1.1)).getD (.table .nil) = .table sub ∧
      app.insert (sectionOf entry.1.1) (.table (sub.insert entry.1.2 (.string entry.2))) = app' := by
  have hvalue : asDeclaration entry = [entry.2] := if_neg hgroup
  unfold declareKey
  rw [if_neg hgroup, hvalue, bind_eq_ok]
  simp only [asTable_eq_ok, List.head?_cons, Option.getD_some, Except.ok.injEq]

/-- A key is written where it belongs, and is what the table has gained. -/
theorem declareKey_spec (h : Fields app table) (hkey : Takable table entry)
    (hdeclare : declareKey name app entry = .ok app') :
    ∃ new, Fields app' new ∧ Grown [entry] table new := by
  obtain ⟨hrepresentable, hspelled, hfresh⟩ := hkey
  obtain ⟨⟨group, key⟩, value⟩ := entry
  obtain ⟨key, rfl⟩ : ∃ name : String, name.toList = key := ⟨_, String.toList_ofList⟩
  obtain ⟨value, rfl⟩ : ∃ text : String, text.toList = value := ⟨_, String.toList_ofList⟩
  unfold representable at hrepresentable
  unfold spelled at hspelled
  dsimp only at hrepresentable hspelled hfresh
  split_ifs at hrepresentable hspelled with hcontext henvironment hbus
  · obtain rfl := hcontext
    unfold declareKey at hdeclare
    rw [if_pos rfl] at hdeclare
    obtain rfl := Except.ok.inj hdeclare
    have hlist := List.contains_iff_mem.mp hrepresentable
    simp only [Bool.and_eq_true, decide_eq_true_eq, List.all_eq_true] at hspelled
    obtain ⟨⟨hvalues, hchecked⟩, hjoin⟩ := hspelled
    have hgrown := Grown.setList hlist hvalues hchecked hfresh
    rw [hjoin] at hgrown
    exact ⟨_, h.insertList hlist _, hgrown⟩
  · obtain rfl := henvironment
    obtain ⟨sub, hsub, rfl⟩ := (declareKey_section hcontext).mp hdeclare
    have hname : nameable ['_'] key.toList = true := by
      rw [Bool.and_eq_true] at hrepresentable
      unfold nameable
      rw [Bool.and_eq_true, Bool.and_eq_true]
      refine ⟨⟨?_, hrepresentable.1⟩, hrepresentable.2⟩
      rw [decide_eq_true_eq]
      intro hdash
      have hchar := List.all_eq_true.mp hrepresentable.2 '-' (List.mem_of_head? hdash)
      exact absurd hchar (by decide)
    have hnew : ∀ v, (key, v) ∉ table.environment := by
      intro v hv
      exact hfresh v.toList (mem_declaredKeys.mpr (.inr (.inl ⟨(key, v), hv, rfl⟩)))
    have hvalue : (Node.string value.toList).str? = some value := by
      simp [Node.str?]
    obtain ⟨environment, hread, hmem⟩ := readMap_insert hsub h.environment hnew hvalue
    exact ⟨_, h.insertEnvironment hread, Grown.setEnvironment hname hspelled hmem⟩
  · rw [Bool.and_eq_true, List.contains_iff_mem] at hspelled
    obtain ⟨hdash, hpolicy⟩ := hspelled
    obtain ⟨policy, hvalue, hread⟩ := readPolicy_of_mem hpolicy
    have hname : nameable BUS_CHARS key.toList = true := by
      rw [Bool.and_eq_true] at hrepresentable
      unfold nameable
      rw [Bool.and_eq_true, Bool.and_eq_true]
      exact ⟨⟨hdash, hrepresentable.1⟩, hrepresentable.2⟩
    obtain ⟨sub, hsub, rfl⟩ := (declareKey_section hcontext).mp hdeclare
    dsimp only at hsub ⊢
    rw [← hvalue] at hread ⊢
    rcases hbus with rfl | rfl
    · have hnew : ∀ policy, (key, policy) ∉ table.sessionBus := by
        intro p hp
        exact hfresh _ (mem_declaredKeys.mpr (.inr (.inr (.inl ⟨(key, p), hp, rfl⟩))))
      obtain ⟨bus, hbus, hmem⟩ := readMap_insert hsub h.sessionBus hnew hread
      exact ⟨_, h.insertSessionBus hbus, Grown.setSessionBus hname hmem⟩
    · have hnew : ∀ policy, (key, policy) ∉ table.systemBus := by
        intro p hp
        exact hfresh _ (mem_declaredKeys.mpr (.inr (.inr (.inr ⟨(key, p), hp, rfl⟩))))
      obtain ⟨bus, hbus, hmem⟩ := readMap_insert hsub h.systemBus hnew hread
      exact ⟨_, h.insertSystemBus hbus, Grown.setSystemBus hname hmem⟩

theorem nameable_ne_nil {extra : List Char} {value : Chars} (h : nameable extra value = true) :
    value ≠ [] := by
  rintro rfl
  cases h

theorem not_mem_of_nameable {extra : List Char} {value : Chars} {c : Char}
    (h : nameable extra value = true) (halnum : c.isAlphanum = false) (hextra : c ∉ extra) :
    c ∉ value := by
  unfold nameable at h
  rw [Bool.and_eq_true, List.all_eq_true] at h
  intro hc
  have hchar := h.2 c hc
  simp [halnum, hextra] at hchar

theorem spelled_bus {group : Chars} {bus : String × BusPolicy}
    (hgroup : group ≠ CONTEXT ∧ group ≠ ENVIRONMENT)
    (hname : nameable BUS_CHARS bus.1.toList = true) :
    spelled ((group, bus.1.toList), bus.2.asStr.toList) = true := by
  have hpolicy : bus.2.asStr.toList ∈ POLICIES := by
    cases bus.2 <;> decide
  unfold nameable at hname
  rw [Bool.and_eq_true, Bool.and_eq_true] at hname
  unfold spelled
  rw [if_neg hgroup.1, if_neg hgroup.2, Bool.and_eq_true, List.contains_iff_mem]
  exact ⟨hname.1.1, hpolicy⟩

/-- What a valid table declares has a value that the schema takes. -/
theorem spelled_of_declared (h : Checked table) (hentry : entry ∈ declaredKeys table) :
    spelled entry = true := by
  rcases mem_declaredKeys.mp hentry with
    ⟨list, hlist, hne, rfl⟩ | ⟨var, hvar, rfl⟩ | ⟨bus, hbus, rfl⟩ | ⟨bus, hbus, rfl⟩
  · have hchecked : ∀ value ∈ list.2.map String.toList, nameable VALUE_CHARS value = true :=
      List.forall_mem_map.mpr (h.lists list hlist)
    have hjoin : (list.2.flatMap fun value => value.toList ++ [';']) =
        (list.2.map String.toList).flatMap (· ++ [';']) := by
      rw [List.flatMap_map]
    have hsplit := Text.split_flatMap (c := ';') fun value hvalue =>
      not_mem_of_nameable (hchecked value hvalue) (by decide) (by decide)
    have hvalues : asDeclaration ((CONTEXT, list.1.toList),
        list.2.flatMap fun value => value.toList ++ [';']) = list.2.map String.toList := by
      unfold asDeclaration
      rw [if_pos rfl, hjoin, hsplit, List.filter_append, List.filter_eq_self.mpr]
      · simp
      · intro value hvalue
        simpa using nameable_ne_nil (hchecked value hvalue)
    unfold spelled
    rw [if_pos rfl, hvalues]
    simp only [Bool.and_eq_true, decide_eq_true_eq, List.all_eq_true]
    exact ⟨⟨by simpa using hne, hchecked⟩, hjoin.symm⟩
  · exact (h.environment var hvar).2
  · have hname := h.buses bus (List.mem_append_left _ hbus)
    exact spelled_bus (by decide) hname
  · have hname := h.buses bus (List.mem_append_right _ hbus)
    exact spelled_bus (by decide) hname

end
end Kuma.Edit
