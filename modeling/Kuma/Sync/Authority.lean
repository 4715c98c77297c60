import Kuma.Sync.Machine

/-! Whose an application is, over histories in which anything may fail and a run may die after
any command: what a run put there stays accounted for, and only what a list once named is
taken away. -/
namespace Kuma.Sync
open Kuma.Lib

/-- Every application a run put there is on the list or in the record. -/
def Store.Accounted (m : Manager) (names : List String) (s : Store) : Prop :=
  ∀ app ∈ s.given, app ∈ m.racks names ∨ app ∈ m.racks s.recorded

/-- The run lives to write its copy. -/
def SyncRun.Copies {m : Manager} (r : SyncRun) (list : Baked m) (s : Store) : Prop :=
  r.env.copied = true ∧ ((beforeCopy m r.env list.text).exec s).2 = true ∧
    ∀ k ∈ r.dies, ((beforeCopy m r.env list.text).exec s).1.length < k

/-- No uninstall fails of an application that a run put there and the list does not name. -/
def Outcomes.TakesBack (env : Outcomes) (m : Manager) (names : List String) (s : Store) : Prop :=
  ∀ word ∈ s.recorded.zipIdx, m.rack word.1 ∈ s.given → m.rack word.1 ∉ m.racks names →
    env.uninstall word.2 = true

instance {m : Manager} (r : SyncRun) (list : Baked m) (s : Store) :
    Decidable (r.Copies list s) := by
  unfold SyncRun.Copies
  infer_instance

instance (env : Outcomes) (m : Manager) (names : List String) (s : Store) :
    Decidable (env.TakesBack m names s) := by
  unfold Outcomes.TakesBack
  infer_instance

section
variable {m : Manager} {env : Outcomes} {list : Baked m} {full : Bool} {s : Store}
  {names : List String}

theorem Store.Accounted.withRecord (h : s.Accounted m names) : s.withRecord.Accounted m names := h

theorem Store.Accounted.install {landed : List String} (h : s.Accounted m names)
    (hsub : landed ⊆ names) : (s.install m landed).Accounted m names := by
  intro app happ
  rcases Finset.mem_union.mp happ with hold | hnew
  · exact h app hold
  · obtain ⟨name, hname, hrack⟩ := Manager.mem_racks.mp (Finset.mem_sdiff.mp hnew).1
    exact .inl (Manager.mem_racks.mpr ⟨name, hsub hname, hrack⟩)

theorem Store.Accounted.round {word : String × ℕ} (h : s.Accounted m names) :
    (s.round m env word).Accounted m names := by
  unfold Store.round
  split_ifs
  · intro app happ
    exact h app (Finset.mem_of_mem_erase happ)
  · exact h

/-- Where the loop ends: nothing new is given but the list's, and what an uninstall took is
given no more. -/
structure LoopEnds (m : Manager) (env : Outcomes) (names : List String) (s s' : Store) :
    Prop where
  accounted : s'.Accounted m names
  recorded : s'.recorded = s.recorded
  given : ∀ app ∈ s'.given, app ∈ s.given ∨ app ∈ m.racks names
  taken : ∀ word ∈ s.recorded.zipIdx, word.1 ∉ names → env.uninstall word.2 = true →
    m.rack word.1 ∉ s'.given

theorem wp_takeBack_loopEnds {s₀ : Store} {C F : Store → Prop} (h : s.Accounted m list.names)
    (hrecorded : s.recorded = s₀.recorded)
    (hgiven : ∀ app ∈ s.given, app ∈ s₀.given ∨ app ∈ m.racks list.names)
    (hC : ∀ s, s.Accounted m list.names → C s) :
    (takeBack m env list.text).wp C (LoopEnds m env list.names s₀) F s := by
  let I : List (String × ℕ) → Store → Prop := fun rest s' =>
    s'.Accounted m list.names ∧ s'.recorded = s₀.recorded ∧
      (∀ app ∈ s'.given, app ∈ s₀.given ∨ app ∈ m.racks list.names) ∧
      ∀ word ∈ s₀.recorded.zipIdx, word ∈ rest ∨ word.1 ∈ list.names ∨
        (env.uninstall word.2 = true → m.rack word.1 ∉ s'.given)
  have hstart : I s.recorded.zipIdx s :=
    ⟨h, hrecorded, hgiven, fun word hword => .inl (hrecorded ▸ hword)⟩
  refine Script.wp_mono ?_ (fun _ => id) (wp_takeBack (I := I) hstart ?_ ?_)
  · rintro s' ⟨haccounted, hrecorded', hgiven', htaken⟩
    refine ⟨haccounted, hrecorded', hgiven', fun word hword hunlisted hok => ?_⟩
    rcases htaken word hword with hrest | hlisted | hgone
    · cases hrest
    · exact absurd hlisted hunlisted
    · exact hgone hok
  · rintro word rest s' ⟨haccounted, hrecorded', hgiven', htaken⟩ hlisted
    refine ⟨haccounted, hrecorded', hgiven', fun other hother => ?_⟩
    rcases htaken other hother with hrest | hdone
    · rcases List.mem_cons.mp hrest with rfl | hrest
      · exact .inr (.inl hlisted)
      · exact .inl hrest
    · exact .inr hdone
  · rintro word rest s' ⟨haccounted, hrecorded', hgiven', htaken⟩ hunlisted
    have hnext : (s'.round m env word).Accounted m list.names := haccounted.round
    refine ⟨hC _ hnext, hnext, Store.round_recorded.trans hrecorded',
      fun app happ => hgiven' app (Store.round_given happ), fun other hother => ?_⟩
    rcases htaken other hother with hrest | hlisted | hgone
    · rcases List.mem_cons.mp hrest with rfl | hrest
      · exact .inr (.inr fun hok => Store.notMem_given_round hok)
      · exact .inl hrest
    · exact .inr (.inl hlisted)
    · exact .inr (.inr fun hok hin => hgone hok (Store.round_given hin))

/-- Whatever fails before the copy, the store stays accounted for. -/
theorem wp_beforeCopy (h : s.Accounted m list.names) :
    (beforeCopy m env list.text).wp (Store.Accounted m list.names)
      (LoopEnds m env list.names s) (Store.Accounted m list.names) s := by
  unfold beforeCopy
  refine wp_started h (fun _ => h) ?_
  rw [Script.wp]
  refine wp_createRecord h h.withRecord ?_ fun _ => h
  rw [Script.wp]
  let I : Store → Prop := fun s' => s'.Accounted m list.names ∧ s'.recorded = s.recorded ∧
    ∀ app ∈ s'.given, app ∈ s.given ∨ app ∈ m.racks list.names
  have hinstall : (install m env list.text).wp (Store.Accounted m list.names) I
      (Store.Accounted m list.names) s.withRecord := by
    refine wp_install (I := I) ⟨h, rfl, fun app happ => .inl happ⟩ (fun s' hs' => hs'.1) ?_
      fun s' hs' => hs'.1
    rintro s' landed ⟨haccounted, hrecorded, hgiven⟩ hsub
    refine ⟨haccounted.install hsub, hrecorded, fun app happ => ?_⟩
    rcases Finset.mem_union.mp happ with hold | hnew
    · exact hgiven app hold
    · obtain ⟨name, hname, hrack⟩ := Manager.mem_racks.mp (Finset.mem_sdiff.mp hnew).1
      exact .inr (Manager.mem_racks.mpr ⟨name, hsub hname, hrack⟩)
  refine Script.wp_mono ?_ (fun _ => id) hinstall
  rintro s' ⟨haccounted, hrecorded, hgiven⟩
  exact wp_takeBack_loopEnds haccounted hrecorded hgiven fun _ => id

/-- The copy accounts for what the loop left, when no uninstall failed that mattered. -/
theorem accounted_of_copied {s' : Store} (h : LoopEnds m env list.names s s')
    (htakes : env.TakesBack m list.names s) :
    Store.Accounted m list.names { s' with record := some list.text } := by
  intro app happ
  by_cases hlisted : app ∈ m.racks list.names
  · exact .inl hlisted
  · exfalso
    obtain ⟨name, hname, hrack⟩ :=
      Manager.mem_racks.mp ((h.accounted app happ).resolve_left hlisted)
    rw [h.recorded] at hname
    obtain ⟨i, hi, hget⟩ := List.getElem_of_mem hname
    have hword : (name, i) ∈ s.recorded.zipIdx := by
      rw [List.mk_mem_zipIdx_iff_getElem?, List.getElem?_eq_getElem hi, hget]
    have hgiven : m.rack name ∈ s.given := by
      rw [hrack]
      exact (h.given app happ).resolve_right hlisted
    have hunlisted : name ∉ list.names := fun hmem =>
      hlisted (hrack ▸ Manager.mem_racks_of_mem hmem)
    have hok := htakes (name, i) hword hgiven (by rwa [hrack])
    exact h.taken (name, i) hword hunlisted hok (by rwa [hrack])

/-- A run that has nothing to converge, or is stopped at its tests, changes no account. -/
theorem wp_sync_of_equal (h : s.Accounted m list.names)
    (hequal : env.Begins m → s.record.getD "" = list.text) :
    (sync m env list.text full).wp (Store.Accounted m list.names) (Store.Accounted m list.names)
      (Store.Accounted m list.names) s := by
  by_cases hbegins : env.Begins m
  · rw [sync_of_begins hbegins]
    refine wp_started h (fun _ => h) ?_
    rw [syncRecorded, Script.wp]
    refine wp_createRecord h h.withRecord ?_ fun _ => h
    have hrecord : s.withRecord.record = some list.text := congrArg some (hequal hbegins)
    rw [Script.wp, Script.wp, if_pos hrecord]
    exact wp_currency_if h.withRecord
  · rw [sync_of_not_begins hbegins]
    exact h

/-- A run over a differing record, to its copy and past it. -/
theorem wp_copying (h : s.Accounted m list.names)
    (htakes : env.copied = true → env.TakesBack m list.names s) :
    ((beforeCopy m env list.text).seq ((copyDeclared env list.text).seq
      (if full then currency m env else .done))).wp (Store.Accounted m list.names)
        (Store.Accounted m list.names) (Store.Accounted m list.names) s := by
  rw [Script.wp]
  refine Script.wp_mono (fun s' hs' => ?_) (fun _ => id) (wp_beforeCopy h)
  rw [Script.wp, copyDeclared, Script.wp]
  cases hcopied : env.copied with
  | false => exact ⟨hs'.accounted, hs'.accounted⟩
  | true =>
    have hnext := accounted_of_copied hs' (htakes hcopied)
    exact ⟨hnext, wp_currency_if hnext⟩

/-- A run, however it ends, leaves the store accounted for. -/
theorem SyncRun.ends_accounted {r : SyncRun} (h : s.Accounted m list.names)
    (hr : r.env.Begins m → s.record.getD "" ≠ list.text → r.Copies list s →
      r.env.TakesBack m list.names s) : (r.ends list s).Accounted m list.names := by
  have hof_wp : ∀ {S : Script Store}, S.wp (Store.Accounted m list.names)
      (Store.Accounted m list.names) (Store.Accounted m list.names) s →
        (S.final s).Accounted m list.names ∧ ∀ k, (S.cut k s).Accounted m list.names := by
    intro S hwp
    obtain ⟨-, hok, hfailed⟩ := Script.wp_sound hwp
    refine ⟨?_, Script.cut_of_wp hwp h⟩
    cases hstatus : (S.exec s).2 with
    | true => exact hok hstatus
    | false => exact hfailed hstatus
  by_cases hequal : r.env.Begins m → s.record.getD "" = list.text
  · have hwp : (sync m r.env list.text r.full).wp (Store.Accounted m list.names)
        (Store.Accounted m list.names) (Store.Accounted m list.names) s :=
      wp_sync_of_equal h hequal
    obtain ⟨hfinal, hcut⟩ := hof_wp hwp
    unfold SyncRun.ends
    split
    · exact hfinal
    · exact hcut _
  · obtain ⟨hbegins, hdiffers⟩ := Classical.not_imp.mp hequal
    have hexec : (sync m r.env list.text r.full).exec s = ((beforeCopy m r.env list.text).seq
        ((copyDeclared r.env list.text).seq (if r.full then currency m r.env else .done))).exec s :=
      exec_sync_of_differs hbegins hdiffers
    have hwp : (beforeCopy m r.env list.text).wp (Store.Accounted m list.names)
        (LoopEnds m r.env list.names s) (Store.Accounted m list.names) s := wp_beforeCopy h
    have hbefore := (hof_wp (Script.wp_mono (fun s' hs' => hs'.accounted) (fun _ => id) hwp)).2
    by_cases htakes : r.env.copied = true → r.env.TakesBack m list.names s
    · have hcopying : ((beforeCopy m r.env list.text).seq ((copyDeclared r.env list.text).seq
          (if r.full then currency m r.env else .done))).wp (Store.Accounted m list.names)
          (Store.Accounted m list.names) (Store.Accounted m list.names) s := wp_copying h htakes
      obtain ⟨hfinal, hcut⟩ := hof_wp hcopying
      unfold SyncRun.ends
      split
      · rwa [Script.final_congr hexec]
      · rw [Script.cut_congr hexec]
        exact hcut _
    · -- an uninstall that matters failed, so the run did not live to its copy
      obtain ⟨hcopied, hnot⟩ := Classical.not_imp.mp htakes
      have hdied : ¬ r.Copies list s := fun hcopies => hnot (hr hbegins hdiffers hcopies)
      cases hstatus : ((beforeCopy m r.env list.text).exec s).2 with
      | false =>
        unfold SyncRun.ends
        split
        · rw [Script.final_congr (hexec.trans (Script.exec_seq_of_failed hstatus))]
          exact (Script.wp_sound hwp).2.2 hstatus
        · rw [Script.cut_congr (hexec.trans (Script.exec_seq_of_failed hstatus))]
          exact hbefore _
      | true =>
        obtain ⟨k, hk, hshort⟩ : ∃ k ∈ r.dies,
            k ≤ ((beforeCopy m r.env list.text).exec s).1.length := by
          by_contra hlives
          refine hdied ⟨hcopied, hstatus, fun k hk => ?_⟩
          by_contra hshort
          exact hlives ⟨k, hk, by omega⟩
        have hdies : r.dies = some k := hk
        rw [SyncRun.ends, hdies]
        dsimp only
        rw [Script.cut_congr hexec, Script.cut_seq_of_le hshort]
        exact hbefore k

end

namespace Side

variable {m : Manager} {side : Side m}

/-- Every application that a run put there, that is there still and that the list does not
name, is named in the record. -/
def Recorded (side : Side m) : Prop :=
  ∀ app ∈ side.store.given, app ∉ m.racks side.names → app ∈ m.racks side.store.recorded

/-- A boot drops nothing a run has given while the record differs from the booted list, and
a run that copies its list over a differing record takes back what it should. -/
def KeepsRecord (side : Side m) : Action → Prop
  | .boot d => ∀ list ∈ side.baked, side.store.record.getD "" ≠ list.text →
    ∀ app ∈ side.store.given, app ∈ m.racks list.names → app ∈ m.racks (d.list m)
  | .runs m' r => m' = m → ∀ list ∈ side.baked, r.env.Begins m →
    side.store.record.getD "" ≠ list.text → r.Copies list side.store.afresh →
    r.env.TakesBack m list.names side.store.afresh
  | _ => True

instance (side : Side m) : Decidable side.Recorded := by
  unfold Recorded
  infer_instance

instance (side : Side m) (a : Action) : Decidable (side.KeepsRecord a) := by
  unfold KeepsRecord
  split
  · infer_instance
  · infer_instance
  · infer_instance

theorem recorded_iff : side.Recorded ↔ side.store.Accounted m side.names := by
  constructor
  · intro h app happ
    by_cases hlisted : app ∈ m.racks side.names
    · exact .inl hlisted
    · exact .inr (h app happ hlisted)
  · intro h app happ hlisted
    exact (h app happ).resolve_left hlisted

theorem recorded_boot {d : Declaration} (h : side.Recorded) (ha : side.KeepsRecord (.boot d)) :
    (side.step (.boot d)).Recorded := by
  intro app happ hdropped
  rw [names_boot] at hdropped
  by_cases hlisted : app ∈ m.racks side.names
  · cases hbaked : side.baked with
    | none =>
      rw [names, hbaked] at hlisted
      simp [Manager.racks] at hlisted
    | some list =>
      rw [names_of_some hbaked] at hlisted
      by_cases hequal : side.store.record.getD "" = list.text
      · have hrecorded : side.store.recorded = list.names := by
          rw [Store.recorded, hequal, list.readLines_text]
        change app ∈ m.racks side.store.recorded
        rwa [hrecorded]
      · exact absurd (ha list hbaked hequal app happ hlisted) hdropped
  · exact h app happ hlisted

theorem recorded_ran {r : SyncRun} (h : side.Recorded) (ha : side.KeepsRecord (.runs m r)) :
    (side.ran r).Recorded := by
  rw [recorded_iff, ran_names]
  cases hbaked : side.baked with
  | none =>
    rw [ran_of_none hbaked]
    exact recorded_iff.mp h
  | some list =>
    rw [ran_of_some hbaked]
    have haccounted : side.store.afresh.Accounted m list.names := by
      rw [← names_of_some hbaked]
      exact recorded_iff.mp h
    rw [names_of_some hbaked]
    exact SyncRun.ends_accounted haccounted (ha rfl list hbaked)

theorem step_recorded (side : Side m) (a : Action) (h : side.Recorded) (ha : side.KeepsRecord a) :
    (side.step a).Recorded := by
  apply step_rule h
  · rintro d rfl
    exact recorded_boot h ha
  · intro app _
    exact h
  · intro app _ x hx
    exact h x (Finset.mem_of_mem_erase hx)
  · rintro r rfl
    exact recorded_ran h ha

end Side

namespace Machine

theorem authority_is_recorded (stock : Manager → Finset String) (m : Manager) (as : List Action)
    (h : Along step (fun s a => (s m).KeepsRecord a) (start stock) as) :
    Along step (fun s _ => (s m).Recorded) (start stock) as ∧
      (run step (start stock) as m).Recorded := by
  have hstep : ∀ (s : Machine) (a : Action), (s m).Recorded → (s m).KeepsRecord a →
      (s.step a m).Recorded := fun s a => Side.step_recorded (s m) a
  have hstart : (start stock m).Recorded := fun app happ => nomatch happ
  exact ⟨along_invariant (I := fun s => (s m).Recorded) hstep hstart h,
    run_invariant (I := fun s => (s m).Recorded) hstep hstart h⟩

private def unsaid : Machine := start fun _ => ∅

private def oneApp (apps : List String) (h : ∀ app ∈ apps, Manager.flatpak.ValidName app) :
    Declaration := ⟨.niri, false, apps, [], h, Manager.validName_nil .brew⟩

private def declared : Declaration := oneApp ["org.gnome.Maps"] (by decide +kernel)

private def emptied : Declaration := oneApp [] (Manager.validName_nil .flatpak)

/-- A history in which a run dies before its copy, a later one makes up for it, and the list
is emptied over a record that is up to date. -/
private def diesAndRecovers : List Action :=
  [.boot declared, .runs .flatpak ⟨.smooth, false, some 3⟩, .runs .flatpak ⟨.smooth, false, none⟩,
    .boot emptied, .runs .flatpak ⟨.smooth, false, some 4⟩]

theorem authority_is_recorded_recovering :
    (run step unsaid diesAndRecovers .flatpak).Recorded := by
  have hkeeps : Along step (fun s a => (s .flatpak).KeepsRecord a) unsaid diesAndRecovers := by
    decide +kernel
  exact (authority_is_recorded (fun _ => ∅) .flatpak diesAndRecovers hkeeps).2

/-- Authority is lost over a failed uninstall, and over a run that died before its copy when
the next list no longer names what it installed. -/
theorem authority_is_lost :
    ¬ (run step unsaid [.boot declared, .runs .flatpak ⟨.smooth, false, none⟩, .boot emptied,
      .runs .flatpak ⟨{ Outcomes.smooth with uninstall := fun _ => false }, false, none⟩]
        .flatpak).Recorded ∧
    ¬ (run step unsaid [.boot declared, .runs .flatpak ⟨.smooth, false, some 3⟩, .boot emptied]
        .flatpak).Recorded := by
  constructor
  · decide +kernel
  · decide +kernel

end Machine

end Kuma.Sync
