import Kuma.Sync.Promise

/-! What a run takes away, over histories in which anything may fail and a run may die after
any command. -/
namespace Kuma.Sync
open Kuma.Lib

section
variable {m : Manager} {env : Outcomes} {list : Baked m} {full : Bool} {s s₀ : Store}

/-- What a run may take by the record it starts from. -/
def TakesDropped (m : Manager) (names : List String) (s₀ s : Store) : Prop :=
  (∀ app ∈ s.taken, ∃ name ∈ s₀.recorded, name ∉ names ∧ m.rack name = app) ∧
    (s.recorded = s₀.recorded ∨ s.recorded = names)

theorem TakesDropped.round {word : String × ℕ} (h : TakesDropped m list.names s₀ s)
    (hword : word.1 ∈ s₀.recorded) (hdropped : word.1 ∉ list.names) :
    TakesDropped m list.names s₀ (s.round m env word) := by
  refine ⟨fun app happ => ?_, ?_⟩
  · unfold Store.round at happ
    split_ifs at happ
    · rcases Store.mem_taken_uninstall happ with rfl | hold
      · exact ⟨word.1, hword, hdropped, rfl⟩
      · exact h.1 app hold
    · exact h.1 app happ
  · rw [Store.round_recorded]
    exact h.2

/-- No command of a run takes anything but what the record names and the list does not. -/
theorem wp_sync_takesDropped (h : s.taken = ∅) :
    (sync m env list.text full).wp (TakesDropped m list.names s)
      (TakesDropped m list.names s) (TakesDropped m list.names s) s := by
  have hstart : TakesDropped m list.names s s := by
    refine ⟨fun app happ => ?_, .inl rfl⟩
    rw [h] at happ
    cases happ
  by_cases hbegins : env.Begins m
  swap
  · rw [sync_of_not_begins hbegins]
    exact hstart
  rw [sync_of_begins hbegins]
  refine wp_started hstart (fun _ => hstart) ?_
  rw [syncRecorded, Script.wp]
  have hcreated : TakesDropped m list.names s s.withRecord := hstart
  refine wp_createRecord hstart hcreated ?_ fun _ => hstart
  rw [Script.wp, Script.wp]
  by_cases hequal : s.withRecord.record = some list.text
  · rw [if_pos hequal]
    exact wp_currency_if hcreated
  · rw [if_neg hequal, converge, Script.wp]
    let I : Store → Prop := fun s' =>
      TakesDropped m list.names s s' ∧ s'.recorded = s.recorded
    have hinstall : (install m env list.text).wp (TakesDropped m list.names s) I
        (TakesDropped m list.names s) s.withRecord :=
      wp_install (I := I) ⟨hcreated, rfl⟩ (fun s' hs' => hs'.1)
        (fun s' landed hs' _ => hs') fun s' hs' => hs'.1
    refine Script.wp_mono ?_ (fun _ => id) hinstall
    rintro s' ⟨htakes, hrecorded⟩
    rw [Script.wp]
    let J : List (String × ℕ) → Store → Prop := fun rest s' =>
      TakesDropped m list.names s s' ∧ ∀ word ∈ rest, word.1 ∈ s.recorded
    have hwords : ∀ word ∈ s'.recorded.zipIdx, word.1 ∈ s.recorded := fun word hword =>
      hrecorded ▸ List.fst_mem_of_mem_zipIdx hword
    refine Script.wp_mono ?_ (fun _ => id) (wp_takeBack (I := J) ⟨htakes, hwords⟩ ?_ ?_)
    · rintro s'' ⟨htakes', -⟩
      have hcopied : TakesDropped m list.names s { s'' with record := some list.text } :=
        ⟨htakes'.1, .inr list.readLines_text⟩
      exact wp_copyDeclared htakes' hcopied (wp_currency_if hcopied) fun _ => htakes'
    · rintro word rest s'' ⟨htakes', hrest⟩ -
      exact ⟨htakes', fun other hother => hrest other (List.mem_cons_of_mem _ hother)⟩
    · rintro word rest s'' ⟨htakes', hrest⟩ hdropped
      have hnext : TakesDropped m list.names s (s''.round m env word) :=
        htakes'.round (hrest word List.mem_cons_self) hdropped
      exact ⟨hnext, hnext, fun other hother => hrest other (List.mem_cons_of_mem _ hother)⟩

theorem SyncRun.ends_takesDropped {r : SyncRun} (h : s.taken = ∅) :
    TakesDropped m list.names s (r.ends list s) := by
  have hwp : (sync m r.env list.text r.full).wp (TakesDropped m list.names s)
      (TakesDropped m list.names s) (TakesDropped m list.names s) s := wp_sync_takesDropped h
  obtain ⟨-, hok, hfailed⟩ := Script.wp_sound hwp
  have hstart : TakesDropped m list.names s s := by
    refine ⟨fun app happ => ?_, .inl rfl⟩
    rw [h] at happ
    cases happ
  unfold SyncRun.ends
  split
  · cases hstatus : ((sync m r.env list.text r.full).exec s).2 with
    | true => exact hok hstatus
    | false => exact hfailed hstatus
  · exact Script.cut_of_wp hwp hstart _

end

namespace Side

variable {m : Manager} {side : Side m}

/-- The record and the list name only what some list has named. -/
structure Known (side : Side m) : Prop where
  recorded : ∀ name ∈ side.store.recorded, name ∈ side.listed
  names : ∀ name ∈ side.names, name ∈ side.listed

theorem known_ran {r : SyncRun} (h : side.Known) : (side.ran r).Known := by
  cases hbaked : side.baked with
  | none =>
    rw [ran_of_none hbaked]
    exact ⟨h.recorded, h.names⟩
  | some list =>
    have hnames := names_of_some hbaked
    rw [ran_of_some hbaked]
    have hends : TakesDropped m list.names side.store.afresh (r.ends list side.store.afresh) :=
      SyncRun.ends_takesDropped rfl
    refine ⟨fun name hname => ?_, h.names⟩
    change name ∈ (r.ends list side.store.afresh).recorded at hname
    rcases hends.2 with hold | hnew
    · rw [hold] at hname
      exact h.recorded name hname
    · rw [hnew, ← hnames] at hname
      exact h.names name hname

theorem step_known (side : Side m) (a : Action) (h : side.Known) : (side.step a).Known := by
  apply step_rule h
  · intro d _
    refine ⟨fun name hname => Finset.mem_union_left _ (h.recorded name hname), fun name hname => ?_⟩
    have hlist : name ∈ d.list m := by
      rw [← d.names_bakes m]
      exact hname
    exact Finset.mem_union_right _ (List.mem_toFinset.mpr hlist)
  · intro app _
    exact ⟨h.recorded, h.names⟩
  · intro app _
    exact ⟨h.recorded, h.names⟩
  · intro r _
    exact known_ran h

/-- What a run takes, and when none of it is the list's own. -/
theorem taken_ran {r : SyncRun} (h : side.Known) {app : String}
    (happ : app ∈ (side.ran r).store.taken) :
    (∃ name ∈ side.listed, name ∉ side.names ∧ m.rack name = app) ∧
      (m = .flatpak ∨ ¬ Respelled m side.names side.store → app ∉ m.racks side.names) := by
  cases hbaked : side.baked with
  | none =>
    rw [ran_of_none hbaked] at happ
    cases happ
  | some list =>
    rw [ran_of_some hbaked] at happ
    have hends : TakesDropped m list.names side.store.afresh (r.ends list side.store.afresh) :=
      SyncRun.ends_takesDropped rfl
    obtain ⟨name, hname, hdropped, hrack⟩ := hends.1 app happ
    have hlisted : name ∈ side.listed := h.recorded name hname
    rw [names_of_some hbaked]
    refine ⟨⟨name, hlisted, hdropped, hrack⟩, ?_⟩
    rintro (rfl | hspelled) hnamed
    · obtain ⟨other, hother, hsame⟩ := Manager.mem_racks.mp hnamed
      have hequal : other = name := hsame.trans hrack.symm
      exact hdropped (hequal ▸ hother)
    · exact hspelled ⟨name, hname, hdropped, hrack ▸ hnamed⟩

end Side

namespace Machine

/-- After any history at all, a run takes an application only for a name that an earlier list
held and the booted one does not; and none that the booted list names, but for a spelling. -/
theorem takes_only_the_dropped (stock : Manager → Finset String) (m : Manager)
    (as : List Action) (r : SyncRun) :
    ∀ app ∈ (run step (start stock) (as ++ [.runs m r]) m).store.taken,
      (∃ name ∈ (run step (start stock) as m).listed,
        name ∉ (run step (start stock) as m).names ∧ m.rack name = app) ∧
      (m = .flatpak ∨ ¬ Side.Respelled m (run step (start stock) as m).names
        (run step (start stock) as m).store →
          app ∉ m.racks (run step (start stock) as m).names) := by
  intro app happ
  have hstart : (Side.start (stock m) : Side m).Known :=
    ⟨nofun, nofun⟩
  have hknown : (run step (start stock) as m).Known := by
    rw [run_apply]
    exact run_invariant (P := fun _ _ => True) (fun side a hside _ => side.step_known a hside)
      hstart (along_of_forall fun _ _ => trivial)
  have hstep : run step (start stock) (as ++ [.runs m r]) m =
      (run step (start stock) as m).ran r := by
    rw [run_append, run_cons, run_nil, step]
    exact if_pos rfl
  rw [hstep] at happ
  exact Side.taken_ran hknown happ

private theorem mapsValid : ∀ app ∈ ["org.gnome.Maps"], Manager.flatpak.ValidName app := by
  decide +kernel

private def maps : Declaration :=
  ⟨.niri, false, ["org.gnome.Maps"], [], mapsValid, Manager.validName_nil .brew⟩

private def nothing : Declaration :=
  ⟨.niri, false, [], [], Manager.validName_nil .flatpak, Manager.validName_nil .brew⟩

private def mapsDropped : List Action :=
  [.boot maps, .runs .flatpak ⟨.smooth, false, none⟩, .boot nothing]

theorem takes_only_the_dropped_maps :
    "org.gnome.Maps" ∉ Manager.flatpak.racks
      (run step (start fun _ => ∅) mapsDropped .flatpak).names :=
  (takes_only_the_dropped (fun _ => ∅) .flatpak mapsDropped ⟨.smooth, false, none⟩ "org.gnome.Maps"
    (by decide +kernel)).2 (.inl rfl)

private def tapped (formulae : List String)
    (h : ∀ formula ∈ formulae, Manager.brew.ValidName formula) : Declaration :=
  ⟨.none, true, [], formulae, Manager.validName_nil .flatpak, h⟩

private theorem fzfTapped :
    ∀ formula ∈ ["homebrew/core/fzf"], Manager.brew.ValidName formula := by
  decide +kernel

private theorem fzfCore : ∀ formula ∈ ["fzf"], Manager.brew.ValidName formula := by
  decide +kernel

private def respelled : List Action :=
  [.boot (tapped ["homebrew/core/fzf"] fzfTapped), .runs .brew ⟨.smooth, false, none⟩,
    .boot (tapped ["fzf"] fzfCore)]

/-- A run takes away a formula that its own list names in another spelling. -/
theorem takes_the_respelled :
    "fzf" ∈ (run step (start fun _ => ∅)
      (respelled ++ [.runs .brew ⟨.smooth, false, none⟩]) .brew).store.taken ∧
    "fzf" ∈ Manager.brew.racks (run step (start fun _ => ∅) respelled .brew).names := by
  constructor
  · decide +kernel
  · decide +kernel

end Machine
end Kuma.Sync
