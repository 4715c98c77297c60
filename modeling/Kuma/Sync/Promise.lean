import Kuma.Sync.Machine

/-! What one converging run makes of the machine, over histories in which every command
goes through: when the booted list and only it is there afterwards. -/
namespace Kuma.Sync
open Kuma.Lib

/-- A run whose commands all go through, to its end. -/
def Action.Succeeds : Action → Prop
  | .runs _ r => r.env.Succeed ∧ r.dies = none
  | _ => True

def Action.Boots : Action → Prop
  | .boot _ => True
  | _ => False

namespace Side

variable {m : Manager} {side : Side m}

/-- Every application of the names is there, and nothing is that a run once put there for
another list's sake. -/
def Promised (names : List String) (side : Side m) : Prop :=
  (∀ name ∈ names, m.rack name ∈ side.store.installed) ∧
    ∀ app ∈ side.store.given, app ∈ m.racks names

/-- The record names an application in another spelling than the list does. -/
def Respelled (m : Manager) (names : List String) (s : Store) : Prop :=
  ∃ name ∈ s.recorded, name ∉ names ∧ m.rack name ∈ m.racks names

/-- When a converging run keeps the promise: it has the block, and then either nothing to do
or no spelling that it takes for an application of its own. -/
def Convergent (side : Side m) : Prop :=
  match side.baked with
  | none => side.store.given = ∅
  | some list =>
    if side.store.record.getD "" = list.text then
      ∀ name ∈ list.names, m.rack name ∈ side.store.installed
    else ¬ Respelled m list.names side.store

instance (names : List String) (side : Side m) : Decidable (side.Promised names) := by
  unfold Promised
  infer_instance

instance (names : List String) (s : Store) : Decidable (Respelled m names s) := by
  unfold Respelled
  infer_instance

instance (side : Side m) : Decidable side.Convergent := by
  unfold Convergent
  split
  · infer_instance
  · infer_instance

/-- What whole runs keep: the record is a list's text, and names what was given. -/
structure Accounted (side : Side m) : Prop where
  record : ∃ list : Baked m, side.store.record.getD "" = list.text
  given : ∀ app ∈ side.store.given, app ∈ m.racks side.store.recorded

end Side

section
variable {m : Manager} {list : Baked m} {s : Store} {app : String}

theorem recorded_of_text (h : s.record.getD "" = list.text) : s.recorded = list.names := by
  rw [Store.recorded, h, list.readLines_text]

theorem converged_recorded : (s.converged m list).recorded = list.names :=
  recorded_of_text rfl

/-- What a converged store holds of an application: the list's, less those the record had in
another spelling. -/
theorem mem_installed_converged : app ∈ (s.converged m list).installed ↔
    (app ∈ s.installed ∨ app ∈ m.racks list.names) ∧
      ∀ name ∈ s.recorded, name ∉ list.names → m.rack name ≠ app := by
  have hdropped : app ∉ (s.recorded.filter fun name => name ∉ list.names).map m.rack ↔
      ∀ name ∈ s.recorded, name ∉ list.names → m.rack name ≠ app := by
    simp [List.mem_map, List.mem_filter]
  have hin : app ∈ (s.converged m list).installed ↔ app ∈ (s.install m list.names).installed ∧
      app ∉ (s.recorded.filter fun name => name ∉ list.names).map m.rack :=
    Store.mem_installed_uninstallAll
  rw [hdropped] at hin
  exact hin.trans (and_congr_left fun _ => Finset.mem_union)

/-- What was given before and still is, has its name on the list. -/
theorem mem_racks_of_given_converged (hgiven : ∀ app ∈ s.given, app ∈ m.racks s.recorded)
    (h : app ∈ (s.converged m list).given) : app ∈ m.racks list.names := by
  obtain ⟨hbefore, hkept⟩ := Store.mem_given_uninstallAll.mp h
  rcases Finset.mem_union.mp hbefore with hold | hnew
  · obtain ⟨name, hname, hrack⟩ := Manager.mem_racks.mp (hgiven app hold)
    by_cases hlisted : name ∈ list.names
    · exact Manager.mem_racks.mpr ⟨name, hlisted, hrack⟩
    · have hdropped : app ∈ (s.recorded.filter fun name => name ∉ list.names).map m.rack :=
        List.mem_map.mpr ⟨name, List.mem_filter.mpr ⟨hname, by simpa using hlisted⟩, hrack⟩
      exact absurd hdropped hkept
  · exact (Finset.mem_sdiff.mp hnew).1

end
namespace Side

variable {m : Manager} {side : Side m}

/-- A whole run either stops at its own tests or leaves what a successful one leaves. -/
theorem ends_of_succeeds {r : SyncRun} {list : Baked m} {s : Store} (h : r.env.Succeed)
    (hdies : r.dies = none) : r.ends list s = s ∧ ¬ r.env.Begins m ∨
      r.ends list s = s.synced m list ∧ r.env.Begins m := by
  rw [SyncRun.ends, hdies]
  by_cases hbegins : r.env.Begins m
  · exact .inr ⟨final_sync_of_succeed h hbegins, hbegins⟩
  · rw [sync_of_not_begins hbegins]
    exact .inl ⟨rfl, hbegins⟩

theorem accounted_of_synced {list : Baked m} {s : Store}
    (hrecord : ∃ list : Baked m, s.record.getD "" = list.text)
    (hgiven : ∀ app ∈ s.given, app ∈ m.racks s.recorded) :
    (∃ list' : Baked m, (s.synced m list).record.getD "" = list'.text) ∧
      ∀ app ∈ (s.synced m list).given, app ∈ m.racks (s.synced m list).recorded := by
  unfold Store.synced
  by_cases heq : s.record.getD "" = list.text
  · rw [if_pos heq]
    exact ⟨hrecord, hgiven⟩
  · rw [if_neg heq]
    refine ⟨⟨list, rfl⟩, fun app happ => ?_⟩
    rw [converged_recorded]
    exact mem_racks_of_given_converged (s := s.withRecord) hgiven happ

theorem accounted_ran (h : side.Accounted) {r : SyncRun} (hr : r.env.Succeed)
    (hdies : r.dies = none) : (side.ran r).Accounted := by
  obtain ⟨hrecord, hgiven⟩ := h
  cases hbaked : side.baked with
  | none =>
    rw [ran_of_none hbaked]
    exact ⟨hrecord, hgiven⟩
  | some list =>
    rw [ran_of_some hbaked]
    rcases ends_of_succeeds hr hdies with ⟨hends, -⟩ | ⟨hends, -⟩
    · rw [hends]
      exact ⟨hrecord, hgiven⟩
    · rw [hends]
      obtain ⟨hrecord', hgiven'⟩ := accounted_of_synced (s := side.store.afresh) hrecord hgiven
      exact ⟨hrecord', hgiven'⟩

theorem step_accounted (side : Side m) (a : Action) (h : side.Accounted) (ha : a.Succeeds) :
    (side.step a).Accounted := by
  apply step_rule h
  · intro d _
    exact ⟨h.record, h.given⟩
  · intro app _
    exact ⟨h.record, h.given⟩
  · intro app _
    exact ⟨h.record, fun x hx => h.given x (Finset.mem_of_mem_erase hx)⟩
  · rintro r rfl
    exact accounted_ran h ha.1 ha.2

/-- One converging run over an accounted store keeps the promise of its list exactly when it
is convergent. -/
theorem promised_ran_iff (h : side.Accounted) {r : SyncRun} (hr : r.env.Succeed)
    (hdies : r.dies = none) (hbegins : r.env.Begins m) :
    (side.ran r).Promised side.names ↔ side.Convergent := by
  obtain ⟨-, hgiven⟩ := h
  unfold Convergent
  cases hbaked : side.baked with
  | none =>
    have hnames : side.names = [] := by
      unfold names
      rw [hbaked]
      rfl
    rw [ran_of_none hbaked, hnames]
    constructor
    · rintro ⟨-, hgone⟩
      apply Finset.eq_empty_iff_forall_notMem.mpr
      intro app happ
      simpa [Manager.racks] using hgone app happ
    · intro hempty
      constructor
      · intro name hname
        cases hname
      · intro app happ
        change app ∈ side.store.given at happ
        rw [hempty] at happ
        cases happ
  | some list =>
    have hends : r.ends list side.store.afresh = side.store.afresh.synced m list := by
      rcases ends_of_succeeds hr hdies with ⟨-, hnot⟩ | ⟨hends, -⟩
      · exact absurd hbegins hnot
      · exact hends
    rw [ran_of_some hbaked, names_of_some hbaked, hends]
    dsimp only
    by_cases heq : side.store.record.getD "" = list.text
    · have hsynced : side.store.afresh.synced m list = side.store.afresh.withRecord := if_pos heq
      have hrecorded : side.store.recorded = list.names := recorded_of_text heq
      rw [if_pos heq, hsynced]
      constructor
      · rintro ⟨hthere, -⟩
        exact hthere
      · intro hthere
        exact ⟨hthere, fun app happ => hrecorded ▸ hgiven app happ⟩
    · have hsynced : side.store.afresh.synced m list =
          side.store.afresh.withRecord.converged m list := if_neg heq
      rw [if_neg heq, hsynced]
      constructor
      · rintro ⟨hthere, -⟩ ⟨word, hword, hunlisted, hrack⟩
        obtain ⟨name, hname, hsame⟩ := Manager.mem_racks.mp hrack
        have hin := (mem_installed_converged.mp (hthere name hname)).2 word hword hunlisted
        exact hin hsame.symm
      · intro hspelled
        constructor
        · intro name hname
          apply mem_installed_converged.mpr
          refine ⟨.inr (Manager.mem_racks_of_mem hname), fun word hword hunlisted hsame => ?_⟩
          exact hspelled ⟨word, hword, hunlisted, Manager.mem_racks.mpr ⟨name, hname, hsame.symm⟩⟩
        · intro app happ
          exact mem_racks_of_given_converged (s := side.store.afresh.withRecord) hgiven happ

/-- The booted list stays booted until the next boot. -/
theorem names_run {mid : List Action} (hmid : ∀ a ∈ mid, ¬ a.Boots) :
    (run step side mid).names = side.names := by
  induction mid generalizing side with
  | nil => rfl
  | cons a mid ih =>
    obtain ⟨ha, hrest⟩ := List.forall_mem_cons.mp hmid
    have hstep : (side.step a).names = side.names := by
      apply step_rule (I := fun side' => side'.names = side.names) rfl
      · rintro d rfl
        exact absurd trivial ha
      · intro app _
        rfl
      · intro app _
        rfl
      · intro r _
        exact ran_names
    rw [run_cons, ih hrest, hstep]

end Side

namespace Machine

theorem convergence_promise (stock : Manager → Finset String) (m : Manager)
    (before mid : List Action) (d : Declaration) (r : SyncRun)
    (hsucceeds : ∀ a ∈ before ++ .boot d :: mid ++ [.runs m r], a.Succeeds)
    (hmid : ∀ a ∈ mid, ¬ a.Boots) (hbegins : r.env.Begins m) :
    (run step (start stock) (before ++ .boot d :: mid ++ [.runs m r]) m).Promised (d.list m) ↔
      (run step (start stock) (before ++ .boot d :: mid) m).Convergent := by
  have hstart : (Side.start (stock m) : Side m).Accounted :=
    ⟨⟨⟨[], fun name hname => nomatch hname⟩, rfl⟩, fun app happ => nomatch happ⟩
  obtain ⟨hhistory, hlast⟩ := List.forall_mem_append.mp hsucceeds
  obtain ⟨hr, hdies⟩ := hlast (.runs m r) List.mem_cons_self
  have haccounted := run_invariant Side.step_accounted hstart (along_of_forall hhistory)
  have hnames : (run Side.step (.start (stock m) : Side m) (before ++ .boot d :: mid)).names =
      d.list m := by
    rw [run_append, run_cons, Side.names_run hmid, Side.names_boot]
  have hpromised := Side.promised_ran_iff haccounted hr hdies hbegins
  have hstep : ∀ side : Side m, side.step (.runs m r) = side.ran r := fun side => if_pos rfl
  rw [run_append, run_cons, run_nil, step, run_apply, hstep, ← hnames]
  exact hpromised

private def bare : Machine := start fun _ => ∅

/-- A boot run to its end. -/
private def boots (m : Manager) : Action := .runs m ⟨.smooth, false, none⟩

private theorem boots_succeeds (m : Manager) : (boots m).Succeeds := ⟨Outcomes.smooth_succeed, rfl⟩

private def flatpaks (desktop : Desktop) (apps : List String)
    (h : ∀ app ∈ apps, Manager.flatpak.ValidName app) : Declaration :=
  ⟨desktop, false, apps, [], h, Manager.validName_nil .brew⟩

private def brews (formulae : List String)
    (h : ∀ formula ∈ formulae, Manager.brew.ValidName formula) : Declaration :=
  ⟨.none, true, [], formulae, Manager.validName_nil .flatpak, h⟩

private theorem maps_valid : ∀ app ∈ ["org.gnome.Maps"], Manager.flatpak.ValidName app := by
  decide +kernel

private def oneFlatpak (desktop : Desktop) : Declaration :=
  flatpaks desktop ["org.gnome.Maps"] maps_valid

private def noFlatpak (desktop : Desktop) : Declaration :=
  flatpaks desktop [] (Manager.validName_nil .flatpak)

/-- On a desktop an emptied list takes back what it gave. -/
theorem convergence_promise_emptied :
    (run step bare ([.boot (oneFlatpak .niri), boots .flatpak] ++ .boot (noFlatpak .niri) :: [] ++
      [boots .flatpak]) .flatpak).Promised [] := by
  have hsucceeds : ∀ a ∈ [.boot (oneFlatpak .niri), boots .flatpak] ++
      .boot (noFlatpak .niri) :: [] ++ [boots .flatpak], a.Succeeds := by
    simp only [List.cons_append, List.nil_append, List.forall_mem_cons]
    exact ⟨trivial, boots_succeeds .flatpak, trivial, boots_succeeds .flatpak, nofun⟩
  exact (convergence_promise (fun _ => ∅) .flatpak [.boot (oneFlatpak .niri), boots .flatpak] []
    (noFlatpak .niri) ⟨.smooth, false, none⟩ hsucceeds nofun rfl).mpr (by decide +kernel)

/-- Three ways to break the promise: the owner removes what an unchanged list names, the last
line of a list goes on an image without a desktop, and a formula changes its spelling. -/
theorem convergence_promise_broken :
    ¬ (run step bare [.boot (oneFlatpak .niri), boots .flatpak,
      .uninstalls .flatpak "org.gnome.Maps", .boot (oneFlatpak .niri), boots .flatpak]
        .flatpak).Promised ["org.gnome.Maps"] ∧
    ¬ (run step bare [.boot (oneFlatpak .none), boots .flatpak, .boot (noFlatpak .none),
      boots .flatpak] .flatpak).Promised [] ∧
    ¬ (run step bare [.boot (brews ["homebrew/core/fzf"] (by decide +kernel)), boots .brew,
      .boot (brews ["fzf"] (by decide +kernel)), boots .brew] .brew).Promised ["fzf"] := by
  refine ⟨?_, ?_, ?_⟩
  · decide +kernel
  · decide +kernel
  · decide +kernel

end Machine
end Kuma.Sync
