import Kuma.Sync.Inventory
import Kuma.Sync.Promise

/-! The three readers of the lists, the record and the installed set beside the run they speak
about: what the verbs report and mark, what the probe counts, and what one run does. -/
namespace Kuma.Sync
open Kuma.Lib

/-- A machine whose image bakes the declared lists. The installed sets are what the managers
report of the names that are installed. -/
structure Setting where
  list : (m : Manager) → Baked m
  formulae : Manager → List String
  record : Manager → Option String
  bootstrapped : Bool
  flatpakUser : Finset String
  brewLeaves : Finset String

namespace Setting

variable (s : Setting) (full : Bool) (m : Manager)

def installed : Finset String := m.racks (s.formulae m)

/-- Whether the manager is there to be asked and to be run. -/
def there : Manager → Bool
  | .flatpak => true
  | .brew => s.bootstrapped

def store : Store := ⟨s.record m, s.installed m, ∅, ∅, ∅, Finset.empty_subset _⟩

/-- One run of the script in which no call fails. -/
def ran : Store :=
  (sync m { Outcomes.smooth with executable := s.bootstrapped } (s.list m).text full).final
    (s.store m)

/-- `observe`, which `drift` agrees with on all that the probe counts. -/
def observe : Inventory.Machine where
  flatpakSystem := some (s.installed .flatpak)
  flatpakUser := s.flatpakUser
  flatpakState := Inventory.toSet ((s.record .flatpak).getD "")
  brewInstalled := if s.bootstrapped then some (s.installed .brew) else none
  brewLeaves := s.brewLeaves
  brewState := Inventory.shortSet ((s.record .brew).getD "")

def declared : Finset String := (s.list m).names.toFinset

def entries : Finset Inventory.DiffEntry :=
  (Inventory.diff s.bootstrapped (s.declared .flatpak) (s.declared .brew) s.observe m).getD ∅

/-- The items that `kuma diff` reports to add, and to remove. -/
def adds : Finset String := ((s.entries m).filter fun e => e.change = "add").image fun e => e.item

def removes : Finset String :=
  ((s.entries m).filter fun e => e.change = "remove").image fun e => e.item

/-- The items that `kuma capture` marks doomed. -/
def doomed : Finset String :=
  ((Inventory.candidates (s.declared .flatpak) (s.declared .brew) s.observe).filter fun c =>
    c.list = m ∧ c.doomed = true).image fun c => c.item

def drift : List String :=
  Inventory.observeMachine (some (s.list .flatpak).text) (some (s.list .brew).text) s.observe

/-- What the readers take from the record of a manager. -/
def ours : Finset String := (Inventory.toSet ((s.record m).getD "")).image m.rack

/-- The readers and the run agree on the applications, and the probe on their numbers. -/
structure Agree : Prop where
  adds : ∀ m, (s.adds m).image m.rack = (s.ran full m).put
  removes : ∀ m, s.removes m = (s.ran full m).taken
  doomed : ∀ m, s.doomed m = (s.ran full m).taken
  counts : s.drift =
    Inventory.count (s.ran full .brew).taken.card "brew formula(e) to remove"
      (Inventory.count (s.ran full .brew).put.card "brew formula(e) to install"
        (Inventory.count (s.ran full .flatpak).taken.card "flatpak(s) to remove"
          (Inventory.count (s.ran full .flatpak).put.card "flatpak(s) to install" [])))
  idle : s.drift = [] ↔ ∀ m, (s.ran full m).put = ∅ ∧ (s.ran full m).taken = ∅

/-- When they do: where the files are equal nothing is missing; where they differ nothing
listed is installed under another name, nothing recorded is listed in another spelling, and
the record reads to everyone alike on what the list has dropped. -/
def Alike : Prop :=
  s.there m = true →
    if (s.record m).getD "" = (s.list m).text then ∀ name ∈ (s.list m).names, name ∈ s.installed m
    else (∀ name ∈ (s.list m).names, m.rack name ∈ s.installed m → name ∈ s.installed m) ∧
      ¬ Side.Respelled m (s.list m).names (s.store m) ∧
      ∀ app ∈ s.installed m, app ∉ m.racks (s.list m).names →
        (app ∈ s.ours m ↔ app ∈ m.racks (s.store m).recorded)

variable {s : Setting} {full : Bool} {m : Manager} {app : String}

/-- A baked list reads to the readers as its names. -/
theorem toSet_text (list : Baked m) : Inventory.toSet list.text = list.names.toFinset := by
  have htrim : ∀ name ∈ list.names, String.ofList (Text.trim name.toList) = name := by
    intro name hname
    rw [Text.trim_of_not_whiteSpace (list.valid name hname).not_whiteSpace, String.ofList_toList]
  have hlines : ∀ name ∈ list.names, Lines.IsLine name := fun name hname =>
    (list.valid name hname).isLine
  ext name
  rw [Inventory.toSet, Baked.text, Lines.splitOn_unlines hlines]
  simp only [List.mem_toFinset, List.mem_filter, List.map_map, List.map_append, List.mem_append,
    List.mem_map, Function.comp_apply, List.map_cons, List.map_nil, List.mem_singleton,
    decide_eq_true_eq]
  constructor
  · rintro ⟨⟨other, hother, rfl⟩ | rfl, hne⟩
    · rwa [htrim other hother]
    · exact absurd rfl hne
  · intro hname
    exact ⟨.inl ⟨name, hname, htrim name hname⟩, (hlines name hname).1⟩

/-- Whatever is installed is called what it is known by. -/
theorem rack_of_installed (h : app ∈ s.installed m) : m.rack app = app := by
  obtain ⟨name, -, rfl⟩ := Manager.mem_racks.mp h
  exact m.rack_rack name

theorem rack_image_declared : (s.declared m).image m.rack = m.racks (s.list m).names := by
  ext app
  simp [declared, Manager.mem_racks]

theorem convergenceRemoves_iff {declared : Finset String} :
    s.observe.convergenceRemoves m app declared = true ↔ app ∈ s.ours m ∧ app ∉ declared := by
  cases m with
  | flatpak =>
    have hours : s.observe.flatpakState = s.ours .flatpak := Finset.image_id.symm
    change (decide (app ∈ s.observe.flatpakState) && decide (app ∉ declared)) = true ↔ _
    rw [hours, Bool.and_eq_true, decide_eq_true_iff, decide_eq_true_iff]
  | brew =>
    change (decide (app ∈ s.ours .brew) && decide (app ∉ declared)) = true ↔ _
    rw [Bool.and_eq_true, decide_eq_true_iff, decide_eq_true_iff]

/-- The doomed: installed, not declared, and in the record. -/
theorem mem_doomed : app ∈ s.doomed m ↔ s.there m = true ∧ app ∈ s.installed m ∧
    app ∉ s.declared m ∧ app ∈ s.ours m := by
  have hremoves : s.observe.convergenceRemoves m app (s.declared m) = true ↔
      app ∈ s.ours m ∧ app ∉ s.declared m := convergenceRemoves_iff
  cases m with
  | flatpak =>
    simp only [doomed, Inventory.candidates, Finset.mem_image, Finset.mem_filter, Finset.mem_union]
    constructor
    · rintro ⟨c, ⟨(⟨other, ⟨hin, hnot⟩, rfl⟩ | ⟨other, -, rfl⟩) | ⟨other, -, rfl⟩, hlist,
        hdoomed⟩, rfl⟩
      · dsimp only at hdoomed hremoves ⊢
        exact ⟨rfl, hin, hnot, (hremoves.mp hdoomed).1⟩
      · cases hlist
      · cases hdoomed
    · rintro ⟨-, hin, hnot, hours⟩
      exact ⟨⟨.flatpak, app,
        s.observe.convergenceRemoves .flatpak app (s.declared .flatpak), false⟩,
        ⟨.inl (.inl ⟨app, ⟨hin, hnot⟩, rfl⟩), rfl, hremoves.mpr ⟨hours, hnot⟩⟩, rfl⟩
  | brew =>
    simp only [doomed, Inventory.candidates, Finset.mem_image, Finset.mem_filter, Finset.mem_union]
    cases hthere : s.bootstrapped with
    | false =>
      have hnone : s.observe.brewInstalled = none := by simp [observe, hthere]
      constructor
      · rintro ⟨c, ⟨(⟨other, -, rfl⟩ | ⟨other, ⟨⟨hin, -⟩, -⟩, rfl⟩) | ⟨other, -, rfl⟩, hlist,
          hdoomed⟩, rfl⟩
        · cases hlist
        · rw [hnone] at hin
          cases hin
        · cases hlist
      · rintro ⟨hbrew, -⟩
        cases hthere.symm.trans hbrew
    | true =>
      have hsome : s.observe.brewInstalled = some (s.installed .brew) := by simp [observe, hthere]
      constructor
      · rintro ⟨c, ⟨(⟨other, -, rfl⟩ | ⟨other, ⟨⟨hin, hnot⟩, -⟩, rfl⟩) | ⟨other, -, rfl⟩, hlist,
          hdoomed⟩, rfl⟩
        · cases hlist
        · rw [hsome] at hin
          dsimp only at hdoomed hremoves ⊢
          exact ⟨hthere, hin, hnot, (hremoves.mp hdoomed).1⟩
        · cases hlist
      · rintro ⟨-, hin, hnot, hours⟩
        have hdoomed := hremoves.mpr ⟨hours, hnot⟩
        refine ⟨⟨.brew, app, s.observe.convergenceRemoves .brew app (s.declared .brew), false⟩,
          ⟨.inl (.inr ⟨app, ⟨⟨?_, hnot⟩, ?_⟩, rfl⟩), rfl, hdoomed⟩, rfl⟩
        · rw [hsome]
          exact hin
        · rw [hdoomed, Bool.true_or]

theorem entries_of_there (h : s.there m = true) : ∃ removal, s.entries m =
    (Inventory.diffSection m removal (s.declared m) (some (s.installed m))
      (Inventory.candidates (s.declared .flatpak) (s.declared .brew) s.observe)).getD ∅ := by
  cases m with
  | flatpak => exact ⟨_, rfl⟩
  | brew =>
    have hthere : s.bootstrapped = true := h
    have hsome : s.observe.brewInstalled = some (s.installed .brew) := by simp [observe, hthere]
    refine ⟨"no longer declared (convergence removes it)", ?_⟩
    rw [entries, Inventory.diff, Inventory.diffBrew, if_pos (.inr hthere), hsome]

theorem entries_of_not_there (h : s.there m = false) : s.entries m = ∅ := by
  cases m with
  | flatpak => cases h
  | brew =>
    have hthere : s.bootstrapped = false := h
    have hnone : s.observe.brewInstalled = none := by simp [observe, hthere]
    rw [entries, Inventory.diff, Inventory.diffBrew, hnone]
    split_ifs
    · rfl
    · rfl

theorem adds_of_there (h : s.there m = true) :
    s.adds m = (s.declared m).filter fun name => name ∉ s.installed m := by
  obtain ⟨removal, hentries⟩ := entries_of_there h
  rw [adds, hentries, Inventory.diffSection_adds]

/-- What is reported to go is what is marked doomed. -/
theorem removes_eq_doomed : s.removes m = s.doomed m := by
  cases hthere : s.there m with
  | true =>
    obtain ⟨removal, hentries⟩ := entries_of_there hthere
    rw [removes, hentries, Inventory.diffSection_removes, doomed]
  | false =>
    rw [removes, entries_of_not_there hthere]
    symm
    apply Finset.eq_empty_of_forall_notMem
    intro app happ
    have hbrew : s.there m = true := (mem_doomed.mp happ).1
    rw [hthere] at hbrew
    cases hbrew

theorem ran_of_there (h : s.there m = true) :
    s.ran full m = (s.store m).synced m (s.list m) := by
  have hsucceed : ({ Outcomes.smooth with executable := s.bootstrapped } : Outcomes).Succeed :=
    ⟨rfl, rfl, fun _ _ => rfl, fun _ => rfl, rfl, fun _ => rfl, rfl⟩
  have hbegins : ({ Outcomes.smooth with executable := s.bootstrapped } : Outcomes).Begins m := by
    cases m with
    | flatpak => exact rfl
    | brew => exact ⟨rfl, h⟩
  exact final_sync_of_succeed hsucceed hbegins

theorem ran_of_not_there (h : s.there m = false) : s.ran full m = s.store m := by
  have hbegins : ¬ ({ Outcomes.smooth with executable := s.bootstrapped } : Outcomes).Begins m := by
    cases m with
    | flatpak => cases h
    | brew =>
      rintro ⟨-, hexecutable⟩
      cases hexecutable.symm.trans h
  rw [ran, sync_of_not_begins hbegins]
  rfl

/-- Over a record that equals the list a run does nothing. -/
theorem ran_of_equal (full : Bool) (h : s.there m = true)
    (hequal : (s.record m).getD "" = (s.list m).text) :
    (s.ran full m).put = ∅ ∧ (s.ran full m).taken = ∅ := by
  have hsynced : (s.store m).synced m (s.list m) = (s.store m).withRecord := if_pos hequal
  rw [ran_of_there h, hsynced]
  exact ⟨rfl, rfl⟩

theorem put_of_differs (h : s.there m = true)
    (hdiffers : (s.record m).getD "" ≠ (s.list m).text) :
    (s.ran full m).put = m.racks (s.list m).names \ s.installed m := by
  have hsynced : (s.store m).synced m (s.list m) = (s.store m).withRecord.converged m (s.list m) :=
    if_neg hdiffers
  rw [ran_of_there h, hsynced, Store.converged_put]
  exact Finset.empty_union _

theorem mem_taken_of_differs (full : Bool) (h : s.there m = true)
    (hdiffers : (s.record m).getD "" ≠ (s.list m).text) : app ∈ (s.ran full m).taken ↔
      (∃ name ∈ (s.store m).recorded, name ∉ (s.list m).names ∧ m.rack name = app) ∧
        (app ∈ s.installed m ∨ app ∈ m.racks (s.list m).names) := by
  have hsynced : (s.store m).synced m (s.list m) = (s.store m).withRecord.converged m (s.list m) :=
    if_neg hdiffers
  rw [ran_of_there h, hsynced]
  refine Store.mem_taken_uninstallAll.trans ?_
  have hnone : app ∉ ((s.store m).withRecord.install m (s.list m).names).taken := by
    intro happ
    cases happ
  have hin : app ∈ ((s.store m).withRecord.install m (s.list m).names).installed ↔
      app ∈ s.installed m ∨ app ∈ m.racks (s.list m).names := Finset.mem_union
  rw [hin, or_iff_right hnone]
  simp only [List.mem_map, List.mem_filter, decide_eq_true_eq, and_assoc,
    Store.withRecord_recorded]

theorem mem_image_adds (h : s.there m = true) : app ∈ (s.adds m).image m.rack ↔
    ∃ name ∈ (s.list m).names, name ∉ s.installed m ∧ m.rack name = app := by
  simp only [adds_of_there h, declared, Finset.mem_image, Finset.mem_filter, List.mem_toFinset,
    and_assoc]

/-- What is missing by its own name is missing as an application, when nothing listed is
installed under another name. -/
theorem image_adds_iff (h : s.there m = true) :
    (s.adds m).image m.rack = m.racks (s.list m).names \ s.installed m ↔
      ∀ name ∈ (s.list m).names, m.rack name ∈ s.installed m → name ∈ s.installed m := by
  constructor
  · intro heq name hname hin
    by_contra hnot
    have hadded : m.rack name ∈ (s.adds m).image m.rack :=
      (mem_image_adds h).mpr ⟨name, hname, hnot, rfl⟩
    rw [heq] at hadded
    exact (Finset.mem_sdiff.mp hadded).2 hin
  · intro hunder
    ext app
    rw [mem_image_adds h, Finset.mem_sdiff]
    constructor
    · rintro ⟨name, hname, hnot, rfl⟩
      exact ⟨Manager.mem_racks_of_mem hname, fun hin => hnot (hunder name hname hin)⟩
    · rintro ⟨hlisted, hnot⟩
      obtain ⟨name, hname, rfl⟩ := Manager.mem_racks.mp hlisted
      refine ⟨name, hname, fun hin => hnot ?_, rfl⟩
      rwa [rack_of_installed hin]

/-- Then an installed application that is listed is listed by its own name. -/
theorem mem_declared_of_racks
    (hunder : ∀ name ∈ (s.list m).names, m.rack name ∈ s.installed m → name ∈ s.installed m)
    (hin : app ∈ s.installed m) (hlisted : app ∈ m.racks (s.list m).names) :
    app ∈ s.declared m := by
  obtain ⟨name, hname, hrack⟩ := Manager.mem_racks.mp hlisted
  have hown : m.rack name = name := rack_of_installed (hunder name hname (hrack ▸ hin))
  have hsame : name = app := hown.symm.trans hrack
  exact List.mem_toFinset.mpr (hsame ▸ hname)

theorem items_of_equal (h : s.there m = true) (hequal : (s.record m).getD "" = (s.list m).text) :
    (s.adds m).image m.rack = (s.ran full m).put ∧ s.doomed m = (s.ran full m).taken ↔
      ∀ name ∈ (s.list m).names, name ∈ s.installed m := by
  obtain ⟨hput, htaken⟩ := ran_of_equal full h hequal
  rw [hput, htaken]
  constructor
  · rintro ⟨hadds, -⟩ name hname
    by_contra hnot
    have hadded : m.rack name ∈ (s.adds m).image m.rack :=
      (mem_image_adds h).mpr ⟨name, hname, hnot, rfl⟩
    rw [hadds] at hadded
    cases hadded
  · intro hall
    constructor
    · apply Finset.eq_empty_of_forall_notMem
      intro app happ
      obtain ⟨name, hname, hnot, -⟩ := (mem_image_adds h).mp happ
      exact hnot (hall name hname)
    · apply Finset.eq_empty_of_forall_notMem
      intro app happ
      obtain ⟨-, hin, hnot, hours⟩ := mem_doomed.mp happ
      have hlisted : app ∈ m.racks (s.list m).names := by
        rw [← rack_image_declared, declared, ← toSet_text, ← hequal]
        exact hours
      exact hnot (mem_declared_of_racks (fun name hname _ => hall name hname) hin hlisted)

theorem items_of_differs (h : s.there m = true)
    (hdiffers : (s.record m).getD "" ≠ (s.list m).text) :
    (s.adds m).image m.rack = (s.ran full m).put ∧ s.doomed m = (s.ran full m).taken ↔
      (∀ name ∈ (s.list m).names, m.rack name ∈ s.installed m → name ∈ s.installed m) ∧
        ¬ Side.Respelled m (s.list m).names (s.store m) ∧
        ∀ app ∈ s.installed m, app ∉ m.racks (s.list m).names →
          (app ∈ s.ours m ↔ app ∈ m.racks (s.store m).recorded) := by
  rw [put_of_differs h hdiffers, image_adds_iff h]
  have htaken : ∀ app, app ∈ (s.ran full m).taken ↔ _ := fun app =>
    mem_taken_of_differs full h hdiffers
  have hunlisted : ∀ app ∈ s.installed m, app ∉ m.racks (s.list m).names → app ∉ s.declared m := by
    intro app hin hnot hdeclared
    have hlisted := Manager.mem_racks_of_mem (m := m) (List.mem_toFinset.mp hdeclared)
    rw [rack_of_installed hin] at hlisted
    exact hnot hlisted
  refine and_congr_right fun hunder => ?_
  constructor
  · intro hdoomed
    constructor
    · rintro ⟨name, hname, hdropped, hlisted⟩
      have hgone : m.rack name ∈ s.doomed m := by
        rw [hdoomed]
        exact (htaken _).mpr ⟨⟨name, hname, hdropped, rfl⟩, .inr hlisted⟩
      obtain ⟨-, hin, hnot, -⟩ := mem_doomed.mp hgone
      exact hnot (mem_declared_of_racks hunder hin hlisted)
    · intro app hin hdropped
      constructor
      · intro hours
        have hgone : app ∈ (s.ran full m).taken := by
          rw [← hdoomed]
          exact mem_doomed.mpr ⟨h, hin, hunlisted app hin hdropped, hours⟩
        obtain ⟨⟨name, hname, -, hrack⟩, -⟩ := (htaken app).mp hgone
        exact Manager.mem_racks.mpr ⟨name, hname, hrack⟩
      · intro hrecorded
        obtain ⟨name, hname, hrack⟩ := Manager.mem_racks.mp hrecorded
        have hname' : name ∉ (s.list m).names := fun hmem =>
          hdropped (hrack ▸ Manager.mem_racks_of_mem hmem)
        have hgone : app ∈ s.doomed m := by
          rw [hdoomed]
          exact (htaken app).mpr ⟨⟨name, hname, hname', hrack⟩, .inl hin⟩
        exact (mem_doomed.mp hgone).2.2.2
  · rintro ⟨hspelled, hreads⟩
    ext app
    rw [mem_doomed, htaken]
    constructor
    · rintro ⟨-, hin, hnot, hours⟩
      have hdropped : app ∉ m.racks (s.list m).names := fun hlisted =>
        hnot (mem_declared_of_racks hunder hin hlisted)
      obtain ⟨name, hname, hrack⟩ := Manager.mem_racks.mp ((hreads app hin hdropped).mp hours)
      have hname' : name ∉ (s.list m).names := fun hmem =>
        hdropped (hrack ▸ Manager.mem_racks_of_mem hmem)
      exact ⟨⟨name, hname, hname', hrack⟩, .inl hin⟩
    · rintro ⟨⟨name, hname, hname', rfl⟩, hthere⟩
      have hdropped : m.rack name ∉ m.racks (s.list m).names := fun hlisted =>
        hspelled ⟨name, hname, hname', hlisted⟩
      have hin := hthere.resolve_right hdropped
      refine ⟨h, hin, hunlisted _ hin hdropped, (hreads _ hin hdropped).mpr ?_⟩
      exact Manager.mem_racks_of_mem hname

/-- Reports and run agree on the items of a manager exactly when its files read alike. -/
theorem items_iff (full : Bool) : (s.adds m).image m.rack = (s.ran full m).put ∧
    s.doomed m = (s.ran full m).taken ↔ s.Alike m := by
  unfold Alike
  cases hthere : s.there m with
  | false =>
    have hadds : s.adds m = ∅ := by
      rw [adds, entries_of_not_there hthere]
      rfl
    have hdoomed : s.doomed m = ∅ := by
      rw [← removes_eq_doomed, removes, entries_of_not_there hthere]
      rfl
    rw [ran_of_not_there hthere, hadds, hdoomed]
    exact iff_of_true ⟨rfl, rfl⟩ fun h => nomatch h
  | true =>
    by_cases hequal : (s.record m).getD "" = (s.list m).text
    · simpa [hequal] using items_of_equal hthere hequal
    · simpa [hequal] using items_of_differs hthere hequal

theorem under_of_alike (hthere : s.there m = true) (h : s.Alike m) :
    ∀ name ∈ (s.list m).names, m.rack name ∈ s.installed m → name ∈ s.installed m := by
  have hfiles := h hthere
  split_ifs at hfiles with hequal
  · exact fun name hname _ => hfiles name hname
  · exact hfiles.1

/-- The probe counts what the run installs, and what it takes, where they read alike. -/
theorem counts_of_alike (full : Bool) (hthere : s.there m = true) (h : s.Alike m) :
    Inventory.toInstall (m.racks (s.list m).names) (s.installed m) = (s.ran full m).put.card ∧
    Inventory.toRemove s.observe m (m.racks (s.list m).names) (s.installed m) =
      (s.ran full m).taken.card := by
  obtain ⟨hadds, hdoomed⟩ := (items_iff full).mpr h
  have hunder := under_of_alike hthere h
  constructor
  · have hput : (s.ran full m).put = m.racks (s.list m).names \ s.installed m :=
      hadds.symm.trans ((image_adds_iff hthere).mpr hunder)
    rw [hput, Inventory.toInstall, Finset.filter_notMem_eq_sdiff]
  · have htaken : (s.installed m).filter (fun item => s.observe.convergenceRemoves m item
        (m.racks (s.list m).names) = true) = (s.ran full m).taken := by
      rw [← hdoomed]
      ext app
      rw [Finset.mem_filter, convergenceRemoves_iff, mem_doomed]
      constructor
      · rintro ⟨hin, hours, hnot⟩
        refine ⟨hthere, hin, fun hdeclared => hnot ?_, hours⟩
        have hlisted := Manager.mem_racks_of_mem (m := m) (List.mem_toFinset.mp hdeclared)
        rwa [rack_of_installed hin] at hlisted
      · rintro ⟨-, hin, hnot, hours⟩
        exact ⟨hin, hours, fun hlisted => hnot (mem_declared_of_racks hunder hin hlisted)⟩
    rw [Inventory.toRemove, htaken]

theorem image_toSet_text (list : Baked m) :
    (Inventory.toSet list.text).image m.rack = m.racks list.names := by
  ext app
  simp [toSet_text, Manager.mem_racks]

/-- What the probe reports, count by count. -/
theorem drift_eq : s.drift =
    let flatpaks := Inventory.count (Inventory.toRemove s.observe .flatpak
        (Manager.flatpak.racks (s.list .flatpak).names) (s.installed .flatpak))
        "flatpak(s) to remove"
      (Inventory.count (Inventory.toInstall (Manager.flatpak.racks (s.list .flatpak).names)
        (s.installed .flatpak)) "flatpak(s) to install" [])
    if s.bootstrapped then
      Inventory.count (Inventory.toRemove s.observe .brew
          (Manager.brew.racks (s.list .brew).names) (s.installed .brew)) "brew formula(e) to remove"
        (Inventory.count (Inventory.toInstall (Manager.brew.racks (s.list .brew).names)
          (s.installed .brew)) "brew formula(e) to install" flatpaks)
    else flatpaks := by
  have hflatpak : Inventory.toSet (s.list .flatpak).text =
      Manager.flatpak.racks (s.list .flatpak).names :=
    Finset.image_id.symm.trans (image_toSet_text (s.list .flatpak))
  have hbrew : Inventory.shortSet (s.list .brew).text = Manager.brew.racks (s.list .brew).names :=
    image_toSet_text (s.list .brew)
  rw [← hflatpak, ← hbrew]
  unfold drift Inventory.observeMachine
  cases hthere : s.bootstrapped with
  | true =>
    have hsome : s.observe.brewInstalled = some (s.installed .brew) := by simp [observe, hthere]
    rw [hsome]
    rfl
  | false =>
    have hnone : s.observe.brewInstalled = none := by simp [observe, hthere]
    rw [hnone]
    rfl

/-- One declared list beside an empty one, on a machine with both managers. -/
private def only (m : Manager) (list : Baked m) (formulae : List String) (record : String) :
    Setting where
  list := fun m' => if h : m = m' then h ▸ list else ⟨[], Manager.validName_nil m'⟩
  formulae := fun m' => if m' = m then formulae else []
  record := fun m' => if m' = m then some record else none
  bootstrapped := true
  flatpakUser := ∅
  brewLeaves := ∅

private theorem mapsNamed : ∀ name ∈ ["org.gnome.Maps"], Manager.flatpak.ValidName name := by
  decide +kernel

private theorem fzfNamedTapped :
    ∀ name ∈ ["homebrew/core/fzf"], Manager.brew.ValidName name := by
  decide +kernel

private theorem fzfNamed : ∀ name ∈ ["fzf"], Manager.brew.ValidName name := by
  decide +kernel

private def uninstalled : Setting :=
  only .flatpak ⟨["org.gnome.Maps"], mapsNamed⟩ [] "org.gnome.Maps\n"

private def tapped : Setting :=
  only .brew ⟨["homebrew/core/fzf"], fzfNamedTapped⟩ ["homebrew/core/fzf"] "homebrew/core/fzf\n"

private def untapped : Setting :=
  only .brew ⟨["fzf"], fzfNamed⟩ ["fzf"] "homebrew/core/fzf\n"

end Setting
end Kuma.Sync
