import Kuma.Edit.Document
import Mathlib.Algebra.BigOperators.Group.List.Basic
import Mathlib.Algebra.Ring.Nat
import Mathlib.Data.List.Count

/-! `kuma add` and `kuma remove`: edits of the package lists. -/
namespace Kuma.Edit
open Kuma.Lib Kuma.Inspect Kuma.Overrides

def LISTS : List Chars := ["rpm", "flatpak", "brew"].map String.toList

/-- A list as it is looked at: in either form of `[packages]`. -/
def listArray (doc : Entries) (list : Chars) : Option (List Node) :=
  ((doc.get PACKAGES).bind Node.entries?).bind fun packages =>
    match packages.get list with
    | some (.array items) => some items.toList
    | _ => none

/-- A list as it is edited: of a `[packages]` that is written as a table, grown where it is
absent. -/
def editList (doc : Entries) (list : Chars) (f : List Node → List Node) :
    Except EditFault Entries :=
  match (doc.get PACKAGES).getD (.table .nil) with
  | .table packages =>
    match (packages.get list).getD (.array .nil) with
    | .array items =>
      .ok (doc.insert PACKAGES (.table
        (packages.insert list (.array (Nodes.ofList (f items.toList))))))
    | _ => .error (.notArray list)
  | _ => .error .packagesNotTable

def isNamed (name : String) (node : Node) : Bool := node.str? = some name

def contains (items : List Node) (name : String) : Bool := items.any (isNamed name)

/-- A name is pushed at the end of a list that does not have it. -/
def pushNew (name : String) (items : List Node) : List Node :=
  if contains items name then items else items ++ [.string name.toList]

/-- The names that a list does not have yet are pushed, each once. -/
def pushAll : List String → List Node → List Node × List String
  | [], items => (items, [])
  | name :: names, items =>
    if contains items name then pushAll names items
    else
      let (pushed, added) := pushAll names (items ++ [.string name.toList])
      (pushed, name :: added)

/-- A name that Flathub does not list is refused, where its list is there to be asked. -/
def refuseUnknownFlatpaks (known : Option (List String)) (names : List String) :
    Except EditFault Unit :=
  match known with
  | none => .ok ()
  | some apps => names.forM fun name =>
    if apps.contains name then .ok () else .error (.unknownFlatpak name)

/-- `kuma add`. Nothing is written where every name is there. -/
def add (t : Toml) (known : Option (List String)) (list : Chars) (names : List String)
    (file : Option Bytes) (writes : Bool) : Option Bytes × Except EditFault Unit :=
  match (do
    if list = "flatpak".toList then refuseUnknownFlatpaks known names
    let (text, doc) ← load t file
    let edited ← editList doc list fun items => (pushAll names items).1
    if (pushAll names ((listArray doc list).getD [])).2 = [] then .ok none
    else (store t text edited writes).map some) with
  | .ok none => (file, .ok ())
  | .ok (some bytes) => (some bytes, .ok ())
  | .error fault => (file, .error fault)

/-- The first occurrence of a name in the first list that has it is dropped. -/
def removeOne (doc : Entries) (name : String) : Except EditFault Entries :=
  match LISTS.find? fun list => (listArray doc list).any (contains · name) with
  | none => .error (.undeclared name)
  | some list => editList doc list fun items => items.eraseP (isNamed name)

def removeAll (doc : Entries) (names : List String) : Except EditFault Entries :=
  names.foldlM removeOne doc

/-- `kuma remove`. -/
def remove (t : Toml) (names : List String) (file : Option Bytes) (writes : Bool) :
    Option Bytes × Except EditFault Unit :=
  rewriteFile t (removeAll · names) file writes

/-- How often a name stands in the lists of a document. -/
def declared (doc : Entries) (name : String) : ℕ :=
  (LISTS.map fun list => ((listArray doc list).getD []).countP (isNamed name)).sum

/-- A list without some names. -/
def others (doc : Entries) (names : List String) (list : Chars) : List Node :=
  ((listArray doc list).getD []).filter fun node => !names.any fun name => isNamed name node

/-- The names are gone from every list, the rest of each list stands in its order, and nothing
else of the document changed. -/
structure Gone (names : List String) (doc doc' : Entries) : Prop where
  gone : ∀ name ∈ names, ∀ list ∈ LISTS, ∀ items, listArray doc' list = some items →
    contains items name = false
  rest : ∀ list ∈ LISTS, others doc' names list = others doc names list
  packages : ∀ key ∉ LISTS, ((doc'.get PACKAGES).bind Node.entries?).bind (·.get key) =
    ((doc.get PACKAGES).bind Node.entries?).bind (·.get key)
  outside : doc'.without PACKAGES = doc.without PACKAGES

section
variable {doc doc' : Entries} {list other : Chars} {name : String} {names : List String}
  {f : List Node → List Node}

/-- What one edit of a list does. -/
structure EditedList (doc : Entries) (list : Chars) (f : List Node → List Node)
    (doc' : Entries) : Prop where
  here : listArray doc' list = some (f ((listArray doc list).getD []))
  lists : ∀ other ≠ list, listArray doc' other = listArray doc other
  packages : ∀ key ≠ list, ((doc'.get PACKAGES).bind Node.entries?).bind (·.get key) =
    ((doc.get PACKAGES).bind Node.entries?).bind (·.get key)
  outside : doc'.without PACKAGES = doc.without PACKAGES

/-- What is looked at of `[packages]` is what is edited, where it can be edited. -/
theorem get_packages {packages : Entries} {key : Chars}
    (h : (doc.get PACKAGES).getD (.table .nil) = .table packages) :
    ((doc.get PACKAGES).bind Node.entries?).bind (·.get key) = packages.get key := by
  cases hget : doc.get PACKAGES with
  | none =>
    rw [hget, Option.getD_none, Node.table.injEq] at h
    rw [← h]
    rfl
  | some node =>
    rw [hget, Option.getD_some] at h
    rw [h]
    rfl

theorem listArray_eq (doc : Entries) (list : Chars) : listArray doc list =
    (((doc.get PACKAGES).bind Node.entries?).bind (·.get list)).bind fun
      | .array items => some items.toList
      | _ => none := by
  unfold listArray
  cases (doc.get PACKAGES).bind Node.entries? with
  | none => rfl
  | some packages =>
    simp only [Option.bind_some]
    cases packages.get list with
    | none => rfl
    | some node => cases node <;> rfl

theorem editedList (h : editList doc list f = .ok doc') : EditedList doc list f doc' := by
  unfold editList at h
  cases hpackages : (doc.get PACKAGES).getD (.table .nil) with
  | table packages =>
    rw [hpackages] at h
    dsimp only at h
    have hlook : ∀ key, ((doc.get PACKAGES).bind Node.entries?).bind (·.get key) =
        packages.get key := fun key => get_packages hpackages
    cases hitems : (packages.get list).getD (.array .nil) with
    | array items =>
      rw [hitems] at h
      dsimp only at h
      obtain rfl := Except.ok.inj h
      have hlook' : ∀ key, (((doc.insert PACKAGES (.table (packages.insert list
          (.array (Nodes.ofList (f items.toList)))))).get PACKAGES).bind Node.entries?).bind
            (·.get key) = (packages.insert list (.array (Nodes.ofList (f items.toList)))).get key := by
        intro key
        rw [Entries.get_insert_self]
        rfl
      have hold : (listArray doc list).getD [] = items.toList := by
        rw [listArray_eq, hlook]
        cases hget : packages.get list with
        | none =>
          rw [hget, Option.getD_none, Node.array.injEq] at hitems
          rw [← hitems]
          rfl
        | some node =>
          rw [hget, Option.getD_some] at hitems
          rw [hitems]
          rfl
      constructor
      case here =>
        rw [hold, listArray_eq, hlook', Entries.get_insert_self]
        exact congrArg some (Nodes.toList_ofList _)
      case lists =>
        intro other hother
        rw [listArray_eq, listArray_eq, hlook', hlook, Entries.get_insert_of_ne (Ne.symm hother)]
      case packages =>
        intro key hkey
        rw [hlook', hlook, Entries.get_insert_of_ne (Ne.symm hkey)]
      case outside => exact Entries.without_insert doc
    | _ =>
      rw [hitems] at h
      cases h
  | _ =>
    rw [hpackages] at h
    cases h

/-- An addition that is refused leaves the file as it was. -/
theorem add_error {t : Toml} {known : Option (List String)} {file : Option Bytes} {writes : Bool}
    {fault : EditFault} (h : (add t known list names file writes).2 = .error fault) :
    (add t known list names file writes).1 = file := by
  unfold add at h ⊢
  split at h
  · cases h
  · cases h
  · rfl

/-- An edit that changes nothing of a list leaves the document as it was. -/
theorem editList_same {items : List Node} (hitems : listArray doc list = some items)
    (hsame : f items = items) (h : editList doc list f = .ok doc') : doc' = doc := by
  unfold listArray at hitems
  unfold editList at h
  cases hpackages : doc.get PACKAGES with
  | none =>
    rw [hpackages] at hitems
    cases hitems
  | some node =>
    rw [hpackages] at hitems h
    cases node with
    | table packages =>
      dsimp only [Option.bind_some, Node.entries?, Option.getD_some] at hitems h
      cases hget : packages.get list with
      | none =>
        rw [hget] at hitems
        cases hitems
      | some node =>
        rw [hget] at hitems h
        cases node with
        | array nodes =>
          dsimp only [Option.getD_some] at hitems h
          obtain rfl := Option.some.inj hitems
          rw [hsame, Nodes.ofList_toList, Entries.insert_of_get hget,
            Entries.insert_of_get hpackages] at h
          exact (Except.ok.inj h).symm
        | _ => cases hitems
    | _ => cases h

/-- What one removal does: one of the name's occurrences is dropped, in one list. -/
theorem editedList_of_removeOne (h : removeOne doc name = .ok doc') : ∃ list ∈ LISTS,
    contains ((listArray doc list).getD []) name = true ∧
      EditedList doc list (fun items => items.eraseP (isNamed name)) doc' := by
  unfold removeOne at h
  cases hfind : LISTS.find? fun list => (listArray doc list).any (contains · name) with
  | none =>
    rw [hfind] at h
    cases h
  | some list =>
    rw [hfind] at h
    refine ⟨list, List.mem_of_find?_eq_some hfind, ?_, editedList h⟩
    have hany := List.find?_some hfind
    cases hlist : listArray doc list with
    | none => simp [hlist] at hany
    | some items => simpa [hlist] using hany

theorem isNamed_inj {node : Node} {other : String} (h : isNamed name node = true)
    (h' : isNamed other node = true) : name = other := by
  unfold isNamed at h h'
  rw [decide_eq_true_eq] at h h'
  exact Option.some.inj (h.symm.trans h')

theorem countP_eraseP {items : List Node} (h : contains items name = true) (other : String) :
    items.countP (isNamed other) =
      (items.eraseP (isNamed name)).countP (isNamed other) + if name = other then 1 else 0 := by
  obtain ⟨node, hnode, hnamed⟩ := List.any_eq_true.mp h
  obtain ⟨a, before, rest, -, ha, hitems, herase⟩ := List.exists_of_eraseP hnode hnamed
  rw [herase, hitems, List.countP_append, List.countP_append, List.countP_cons]
  by_cases hname : name = other
  · subst hname
    rw [if_pos ha, if_pos rfl]
    omega
  · have hnot : ¬ isNamed other a = true := fun hother => hname (isNamed_inj ha hother)
    rw [if_neg hnot, if_neg hname]
    omega

/-- A sum in which one term changes. -/
theorem sum_map_of_single {α : Type} [DecidableEq α] {l : List α} {a : α} {g g' : α → ℕ} {c : ℕ}
    (hnodup : l.Nodup) (ha : a ∈ l) (h : ∀ x, g x = g' x + if x = a then c else 0) :
    (l.map g).sum = (l.map g').sum + c := by
  induction l with
  | nil => cases ha
  | cons x l ih =>
    rw [List.nodup_cons] at hnodup
    have hx := h x
    rw [List.map_cons, List.map_cons, List.sum_cons, List.sum_cons]
    rcases List.mem_cons.mp ha with rfl | hlater
    · have hsame : l.map g = l.map g' := by
        apply List.map_congr_left
        intro y hy
        have hne : y ≠ a := fun heq => hnodup.1 (heq ▸ hy)
        rw [h y, if_neg hne]
        rfl
      rw [if_pos rfl] at hx
      rw [hsame]
      omega
    · have hne : x ≠ a := fun heq => hnodup.1 (heq ▸ hlater)
      have hrest := ih hnodup.2 hlater
      rw [if_neg hne] at hx
      omega

theorem declared_removeOne (h : removeOne doc name = .ok doc') (other : String) :
    declared doc other = declared doc' other + if name = other then 1 else 0 := by
  obtain ⟨list, hlist, hcontains, hedited⟩ := editedList_of_removeOne h
  have hcount : ∀ l, ((listArray doc l).getD []).countP (isNamed other) =
      ((listArray doc' l).getD []).countP (isNamed other) +
        if l = list then (if name = other then 1 else 0) else 0 := by
    intro l
    split_ifs with hl hname
    · rw [hl, hedited.here, countP_eraseP hcontains other, if_pos hname]
      rfl
    · rw [hl, hedited.here, countP_eraseP hcontains other, if_neg hname]
      rfl
    · rw [hedited.lists l hl]
      rfl
  have hnodup : LISTS.Nodup := by decide
  exact sum_map_of_single hnodup hlist hcount

/-- What is left beside some names is what was, whichever of them goes. -/
theorem others_removeOne (h : removeOne doc name = .ok doc') (hname : name ∈ names)
    (list : Chars) : others doc' names list = others doc names list := by
  obtain ⟨found, -, hcontains, hedited⟩ := editedList_of_removeOne h
  unfold others
  by_cases hlist : list = found
  · subst hlist
    obtain ⟨node, hnode, hnamed⟩ := List.any_eq_true.mp hcontains
    obtain ⟨a, before, rest, -, ha, hitems, herase⟩ := List.exists_of_eraseP hnode hnamed
    have hdropped : (names.any fun n => isNamed n a) = true :=
      List.any_eq_true.mpr ⟨name, hname, ha⟩
    rw [hedited.here, Option.getD_some, herase, hitems, List.filter_append, List.filter_append,
      List.filter_cons_of_neg (by simpa using hdropped)]
  · rw [hedited.lists list hlist]

theorem outside_removeOne (h : removeOne doc name = .ok doc') :
    doc'.without PACKAGES = doc.without PACKAGES ∧
      ∀ key ∉ LISTS, ((doc'.get PACKAGES).bind Node.entries?).bind (·.get key) =
        ((doc.get PACKAGES).bind Node.entries?).bind (·.get key) := by
  obtain ⟨list, hlist, -, hedited⟩ := editedList_of_removeOne h
  exact ⟨hedited.outside, fun key hkey => hedited.packages key fun heq => hkey (heq ▸ hlist)⟩

/-- A whole removal: each name is dropped as often as it is given. -/
theorem removeAll_spec {given : List String} (hgiven : given ⊆ names)
    (h : removeAll doc given = .ok doc') :
    (∀ name, declared doc name = declared doc' name + given.count name) ∧
      (∀ list, others doc' names list = others doc names list) ∧
        doc'.without PACKAGES = doc.without PACKAGES ∧
          ∀ key ∉ LISTS, ((doc'.get PACKAGES).bind Node.entries?).bind (·.get key) =
            ((doc.get PACKAGES).bind Node.entries?).bind (·.get key) := by
  induction given generalizing doc with
  | nil =>
    obtain rfl : doc = doc' := Except.ok.inj h
    exact ⟨fun _ => rfl, fun _ => rfl, rfl, fun _ _ => rfl⟩
  | cons name given ih =>
    obtain ⟨next, hone, hrest⟩ := bind_eq_ok.mp h
    have hname := hgiven List.mem_cons_self
    obtain ⟨hcount, hothers, houtside, hkeys⟩ :=
      ih (fun n hn => hgiven (List.mem_cons_of_mem _ hn)) hrest
    obtain ⟨houtside', hkeys'⟩ := outside_removeOne hone
    refine ⟨fun n => ?_, fun list => ?_, houtside.trans houtside', fun key hkey => ?_⟩
    · have hstep := declared_removeOne hone n
      have hlater := hcount n
      rw [List.count_cons]
      split_ifs at hstep ⊢ with hsame hsame'
      all_goals simp_all
      all_goals omega
    · exact (hothers list).trans (others_removeOne hone hname list)
    · exact (hkeys key hkey).trans (hkeys' key hkey)

theorem declared_eq_zero : declared doc name = 0 ↔
    ∀ list ∈ LISTS, ∀ items, listArray doc list = some items → contains items name = false := by
  unfold declared
  rw [List.sum_eq_zero_iff_forall_eq_nat, List.forall_mem_map]
  refine forall₂_congr fun list _ => ?_
  have hcount : ∀ items : List Node,
      items.countP (isNamed name) = 0 ↔ contains items name = false := by
    intro items
    rw [List.countP_eq_zero, contains, List.any_eq_false]
  cases listArray doc list with
  | none => simp
  | some items =>
    rw [Option.getD_some, hcount]
    simp

/-- The names are gone exactly when each was given as often as it was declared. -/
theorem gone_iff (h : removeAll doc names = .ok doc') :
    Gone names doc doc' ↔ ∀ name ∈ names, declared doc name = names.count name := by
  obtain ⟨hcount, hothers, houtside, hkeys⟩ := removeAll_spec (List.Subset.refl names) h
  have hzero : ∀ name, declared doc' name = 0 ↔ declared doc name = names.count name := by
    intro name
    have hname := hcount name
    omega
  constructor
  · intro hgone name hname
    rw [← hzero, declared_eq_zero]
    exact hgone.gone name hname
  · intro hall
    refine ⟨fun name hname => ?_, fun list _ => hothers list, hkeys, houtside⟩
    rw [← declared_eq_zero, hzero]
    exact hall name hname

end

/-- `kuma remove` takes names out of the declaration exactly when each of them is given as often
as the lists have it. -/
theorem remove_gone_iff (t : Toml) (text : Chars) (doc : Entries) (names : List String)
    (after : Chars) (doc' : Entries) (writes : Bool) (hparse : t.parse text = some doc)
    (hprint : ∀ edited, removeAll doc names = .ok edited →
      t.parse (t.print text edited) = some edited)
    (hremove : remove t names (some (Bytes.ofText text)) writes =
      (some (Bytes.ofText after), .ok ()))
    (hafter : t.parse after = some doc') :
    Gone names doc doc' ↔ ∀ name ∈ names, declared doc name = names.count name := by
  have hok : (remove t names (some (Bytes.ofText text)) writes).2 = .ok () := by rw [hremove]
  obtain ⟨text', doc'', edited, hload, hedited, -, -, hfile⟩ := rewriteFile_ok hok
  obtain ⟨rfl, rfl⟩ : text = text' ∧ doc = doc'' := by
    rw [load_ofText hparse] at hload
    simpa using hload
  have htext : after = t.print text edited := by
    apply Bytes.ofText_inj
    have hleft : (remove t names (some (Bytes.ofText text)) writes).1 =
        some (Bytes.ofText after) := by rw [hremove]
    exact Option.some.inj (hleft.symm.trans hfile)
  rw [htext, hprint edited hedited] at hafter
  obtain rfl := Option.some.inj hafter
  exact gone_iff hedited

/-- A declaration of one package, so many times over. -/
private def fishes (n : ℕ) : Entries :=
  .cons "schema_version".toList (.literal "1".toList) (.cons PACKAGES (.table
    (.cons "rpm".toList (.array (Nodes.ofList (List.replicate n (.string "fish".toList))))
      .nil)) .nil)

private def fishText (n : ℕ) : Chars :=
  "schema_version = 1\n\n[packages]\nrpm = [".toList ++
    ([',', ' '].intercalate (List.replicate n "\"fish\"".toList)) ++ "]\n".toList

private def fishToml : Toml where
  parse text :=
    if text = fishText 2 then some (fishes 2)
    else if text = fishText 1 then some (fishes 1)
    else if text = fishText 0 then some (fishes 0) else none
  print _ doc := fishText (declared doc "fish")
  rest doc :=
    let strings list := ((listArray doc list).getD []).filterMap Node.str?
    some { Config.default with
      packages := ⟨strings "rpm".toList, strings "flatpak".toList, strings "brew".toList⟩ }

private theorem parse_fishes : fishToml.parse (fishText 2) = some (fishes 2) ∧
    fishToml.parse (fishText 1) = some (fishes 1) ∧
      fishToml.parse (fishText 0) = some (fishes 0) := by
  have hone : fishText 1 ≠ fishText 2 := by decide +kernel
  have hnone : fishText 0 ≠ fishText 2 ∧ fishText 0 ≠ fishText 1 := by decide +kernel
  unfold fishToml
  dsimp only
  rw [if_pos rfl, if_neg hone, if_pos rfl, if_neg hnone.1, if_neg hnone.2, if_pos rfl]
  exact ⟨rfl, rfl, rfl⟩

theorem remove_gone_fish : Gone ["fish"] (fishes 1) (fishes 0) := by
  obtain ⟨-, hone, hnone⟩ := parse_fishes
  have hedited : ∀ edited, removeAll (fishes 1) ["fish"] = .ok edited →
      fishToml.parse (fishToml.print (fishText 1) edited) = some edited := by
    intro edited h
    obtain rfl : fishes 0 = edited := Except.ok.inj h
    exact hnone
  have hremove : remove fishToml ["fish"] (some (Bytes.ofText (fishText 1))) true =
      (some (Bytes.ofText (fishText 0)), .ok ()) := by decide +kernel
  exact (remove_gone_iff fishToml (fishText 1) (fishes 1) ["fish"] (fishText 0) (fishes 0) true
    hone hedited hremove hnone).mpr (by decide +kernel)

/-- A name that a list has twice stands there still once it was removed. -/
theorem remove_leaves_second :
    fishToml.parse (fishText 2) = some (fishes 2) ∧ fishToml.accepts (fishText 2) = true ∧
      remove fishToml ["fish"] (some (Bytes.ofText (fishText 2))) true =
        (some (Bytes.ofText (fishText 1)), .ok ()) ∧
      fishToml.parse (fishText 1) = some (fishes 1) ∧ ¬ Gone ["fish"] (fishes 2) (fishes 1) := by
  obtain ⟨htwo, hone, -⟩ := parse_fishes
  refine ⟨htwo, by decide +kernel, by decide +kernel, hone, fun h => ?_⟩
  have hrpm := h.gone "fish" List.mem_cons_self "rpm".toList List.mem_cons_self
    [.string "fish".toList] rfl
  revert hrpm
  decide

end Kuma.Edit
