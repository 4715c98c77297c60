import Kuma.Sync.Converge

/-! What each command of the sync scripts preserves, as rules for the precondition of a run,
and the outcome of a run whose commands all go through. -/
namespace Kuma.Sync
open Kuma.Lib

section
variable {m : Manager} {env : Outcomes} {list : Baked m} {full : Bool} {s : Store}
  {C Q F : Store → Prop}

@[simp] theorem Store.withRecord_recorded : s.withRecord.recorded = s.recorded := rfl

theorem Store.withRecord_of_some (h : s.record.isSome) : s.withRecord = s := by
  obtain ⟨text, htext⟩ := Option.isSome_iff_exists.mp h
  obtain ⟨record, installed, given, put, taken, owned⟩ := s
  cases htext
  rfl

theorem wp_plain {ok : Bool} (hC : C s) (hok : ok = true → Q s) (hfailed : ok = false → F s) :
    (plain ok).wp C Q F s := by
  refine ⟨hC, ?_⟩
  split_ifs with h
  · exact hok h
  · exact hfailed (by simpa using h)

theorem wp_createRecord (hC : C s) (hnew : C s.withRecord) (hdone : Q s.withRecord)
    (hfailed : env.created = false → F s) : (createRecord env).wp C Q F s := by
  unfold createRecord
  rw [Script.wp]
  by_cases hsome : s.record.isSome
  · rw [if_pos hsome]
    rwa [Store.withRecord_of_some hsome] at hdone
  · have hnone : s.record = none := by simpa using hsome
    have hmade : s.withRecord = { s with record := some "" } := by
      rw [Store.withRecord, hnone]
      rfl
    rw [hmade] at hnew hdone
    rw [if_neg hsome, Script.wp]
    cases hcreated : env.created with
    | true => exact ⟨hnew, hdone⟩
    | false => exact ⟨hC, hfailed hcreated⟩

/-- What one round of the loop leaves, over a name the list does not hold. -/
def Store.round (m : Manager) (env : Outcomes) (word : String × ℕ) (s : Store) : Store :=
  if env.uninstall word.2 then s.uninstall (m.rack word.1) else s

theorem Store.round_recorded {word : String × ℕ} : (s.round m env word).recorded = s.recorded := by
  unfold Store.round
  split_ifs
  · rfl
  · rfl

theorem Store.round_given {word : String × ℕ} : (s.round m env word).given ⊆ s.given := by
  unfold Store.round
  split_ifs
  · exact Finset.erase_subset _ _
  · exact Finset.Subset.refl _

theorem Store.notMem_given_round {word : String × ℕ} (h : env.uninstall word.2 = true) :
    m.rack word.1 ∉ (s.round m env word).given := by
  rw [Store.round, if_pos h]
  exact Finset.notMem_erase _ _

theorem Store.uninstall_of_notMem {app : String} (h : app ∉ s.installed) : s.uninstall app = s := by
  have hgiven : app ∉ s.given := fun hmem => h (s.owned hmem)
  obtain ⟨record, installed, given, put, taken, owned⟩ := s
  simp only [Store.uninstall, Store.mk.injEq]
  exact ⟨trivial, Finset.erase_eq_of_notMem h, Finset.erase_eq_of_notMem hgiven, trivial, if_neg h⟩

/-- The loop rule for the record: a round over a listed name does nothing, and one over
another name uninstalls what it can. -/
theorem wp_takeBack {I : List (String × ℕ) → Store → Prop} (h : I s.recorded.zipIdx s)
    (hlisted : ∀ word rest s, I (word :: rest) s → word.1 ∈ list.names → I rest s)
    (hround : ∀ word rest s, I (word :: rest) s → word.1 ∉ list.names →
      C (s.round m env word) ∧ I rest (s.round m env word)) :
    (takeBack m env list.text).wp C (I []) F s := by
  unfold takeBack
  rw [Script.wp, list.completeLines_text]
  refine Script.wp_each (fun word rest s hs => ?_) h
  by_cases hmem : word.1 ∈ list.names
  · rw [if_pos hmem]
    exact hlisted word rest s hs hmem
  · rw [if_neg hmem]
    apply Script.wp_tolerate
    have hnext := hround word rest s hs hmem
    unfold uninstallRecorded
    rw [Script.wp]
    unfold Store.round at hnext
    cases hok : env.uninstall word.2 with
    | false => simpa [hok] using hnext
    | true =>
      by_cases hin : m.rack word.1 ∈ s.installed
      · simpa [hok, hin] using hnext
      · have hsame := Store.uninstall_of_notMem hin
        simpa [hok, hin, hsame] using hnext

theorem wp_copyDeclared (hC : C s) (hcopied : C { s with record := some list.text })
    (hdone : Q { s with record := some list.text }) (hfailed : env.copied = false → F s) :
    (copyDeclared env list.text).wp C Q F s := by
  unfold copyDeclared
  rw [Script.wp]
  cases hok : env.copied with
  | true => exact ⟨hcopied, hdone⟩
  | false => exact ⟨hC, hfailed hok⟩

/-- A batch lands some of the list, and all of it when it goes through. -/
theorem wp_installDeclared {attempt : ℕ}
    (hlanded : ∀ landed, landed ⊆ list.names → C (s.install m landed))
    (hdone : Q (s.install m list.names))
    (hfailed : ∀ landed, landed ⊆ list.names → F (s.install m landed)) :
    (installDeclared m env list.text attempt).wp C Q F s := by
  unfold installDeclared
  rw [Script.wp, list.completeLines_text]
  have hsub : list.names.filter (env.install attempt) ⊆ list.names := List.filter_subset_self _
  refine ⟨hlanded _ hsub, ?_⟩
  cases hall : list.names.all (env.install attempt) with
  | false => exact hfailed _ hsub
  | true =>
    have hwhole : list.names.filter (env.install attempt) = list.names :=
      List.filter_eq_self.mpr (List.all_eq_true.mp hall)
    simpa [hall, hwhole] using hdone

theorem Store.install_nil : s.install m [] = s := by
  obtain ⟨record, installed, given, put, taken, owned⟩ := s
  simp [Store.install, Manager.racks]

theorem wp_install {I : Store → Prop} (h : I s) (hC : ∀ s, I s → C s)
    (hlanded : ∀ s landed, I s → landed ⊆ list.names → I (s.install m landed))
    (hfailed : ∀ s, I s → F s) : (install m env list.text).wp C I F s := by
  cases m with
  | flatpak =>
    unfold install
    rw [Script.wp]
    refine wp_installDeclared (fun landed hsub => hC _ (hlanded s landed h hsub))
      (hlanded s _ h fun _ => id) fun landed hsub => ?_
    have hfirst := hlanded s landed h hsub
    exact wp_installDeclared (fun landed' hsub' => hC _ (hlanded _ landed' hfirst hsub'))
      (hlanded _ _ hfirst fun _ => id)
      fun landed' hsub' => hfailed _ (hlanded _ landed' hfirst hsub')
  | brew =>
    unfold install
    by_cases hempty : list.text = ""
    · rw [if_pos hempty]
      exact h
    · rw [if_neg hempty]
      exact wp_installDeclared (fun landed hsub => hC _ (hlanded s landed h hsub))
        (hlanded s _ h fun _ => id) fun landed hsub => hfailed _ (hlanded s landed h hsub)

/-- Installs that all go through land the whole list at the first attempt. -/
theorem wp_install_of_succeed (henv : env.Succeed) (hC : ∀ s, C s) :
    (install m env list.text).wp C (fun s' => s' = s.install m list.names) F s := by
  have hall : list.names.all (env.install 0) = true :=
    List.all_eq_true.mpr fun name _ => henv.install 0 name
  have hwhole : list.names.filter (env.install 0) = list.names :=
    List.filter_eq_self.mpr (List.all_eq_true.mp hall)
  have hbatch : ∀ F, (installDeclared m env list.text 0).wp C
      (fun s' => s' = s.install m list.names) F s := by
    intro F
    unfold installDeclared
    rw [Script.wp, list.completeLines_text]
    refine ⟨hC _, ?_⟩
    rw [if_pos hall, hwhole]
  cases m with
  | flatpak => exact hbatch _
  | brew =>
    unfold install
    by_cases hempty : list.text = ""
    · rw [if_pos hempty]
      have hnone : list.names = [] := by
        rw [← list.completeLines_text, hempty]
        rfl
      rw [hnone]
      exact Store.install_nil.symm
    · rw [if_neg hempty]
      exact hbatch F

/-- The loop takes back every application of the names that were dropped. -/
theorem wp_takeBack_of_succeed (henv : env.Succeed) (hC : ∀ s, C s) :
    (takeBack m env list.text).wp C (fun s' => s' = s.uninstallAll
      ((s.recorded.filter fun name => name ∉ list.names).map m.rack)) F s := by
  let apps : List String → List String := fun names =>
    (names.filter fun name => name ∉ list.names).map m.rack
  have hloop : (takeBack m env list.text).wp C (fun s' =>
      s'.uninstallAll (apps (([] : List (String × ℕ)).map Prod.fst)) =
        s.uninstallAll (apps s.recorded)) F s := by
    refine wp_takeBack (I := fun rest s' =>
      s'.uninstallAll (apps (rest.map Prod.fst)) = s.uninstallAll (apps s.recorded)) ?_ ?_ ?_
    · rw [List.zipIdx_map_fst]
    · rintro ⟨name, i⟩ rest s' hs' hmem
      have hskip : apps (name :: rest.map Prod.fst) = apps (rest.map Prod.fst) := by
        simp [apps, hmem]
      rwa [List.map_cons, hskip] at hs'
    · rintro ⟨name, i⟩ rest s' hs' hmem
      have htake : apps (name :: rest.map Prod.fst) = m.rack name :: apps (rest.map Prod.fst) := by
        simp [apps, hmem]
      rw [List.map_cons, htake] at hs'
      refine ⟨hC _, ?_⟩
      rw [Store.round, if_pos (henv.uninstall i)]
      exact hs'
  exact hloop

theorem wp_converge_of_succeed (henv : env.Succeed) (hC : ∀ s, C s) :
    (converge m env list.text).wp C (fun s' => s' = s.converged m list) F s := by
  unfold converge
  rw [Script.wp]
  refine Script.wp_mono (fun s' hs' => ?_) (fun _ => id) (wp_install_of_succeed henv hC)
  subst hs'
  rw [Script.wp]
  refine Script.wp_mono (fun s' hs' => ?_) (fun _ => id) (wp_takeBack_of_succeed henv hC)
  subst hs'
  exact wp_copyDeclared (hC _) (hC _) rfl fun hfailed =>
    absurd (hfailed.symm.trans henv.copied) Bool.false_ne_true

theorem wp_currency_of_succeed (henv : env.Succeed) (hC : ∀ s, C s) (hQ : Q s) :
    (currency m env).wp C Q F s := by
  have hpass : ∀ {ok : Bool} {F Q : Store → Prop}, ok = true → Q s → (plain ok).wp C Q F s :=
    fun hok hQ => wp_plain (hC s) (fun _ => hQ) fun hfailed => nomatch hfailed.symm.trans hok
  cases m with
  | flatpak =>
    rw [currency, Script.wp]
    exact hpass (henv.update 0) (hpass henv.cleaned hQ)
  | brew =>
    rw [currency, Script.wp]
    exact hpass henv.cleaned (hpass (henv.update 0) hQ)

/-- A run that its own tests stop has no commands. -/
theorem sync_of_not_begins {declared : String} (h : ¬ env.Begins m) :
    sync m env declared full = .done := by
  cases m with
  | flatpak =>
    have hmarker : env.marker = true := by simpa [Outcomes.Begins] using h
    rw [sync, flatpakSync, if_pos hmarker]
  | brew =>
    rw [sync, brewSync]
    by_cases hmarker : env.marker = true
    · rw [if_pos hmarker]
    · have hexecutable : env.executable = false := by simpa [Outcomes.Begins, hmarker] using h
      rw [if_neg hmarker, if_pos (by simp [hexecutable])]

/-- The common part behind either script's tests: flatpak's makes the record's directory. -/
def started (m : Manager) (env : Outcomes) (body : Script Store) : Script Store :=
  match m with
  | .flatpak => (plain env.made).seq body
  | .brew => body

theorem sync_of_begins {declared : String} (h : env.Begins m) :
    sync m env declared full = started m env (syncRecorded m env declared full) := by
  cases m with
  | flatpak =>
    have hmarker : env.marker = false := h
    rw [sync, flatpakSync, if_neg (by simp [hmarker]), started]
  | brew =>
    obtain ⟨hmarker, hexecutable⟩ : env.marker = false ∧ env.executable = true := h
    rw [sync, brewSync, if_neg (by simp [hmarker]), if_neg (by simp [hexecutable]), started]

theorem wp_started {body : Script Store} (hC : C s) (hfailed : env.made = false → F s)
    (hbody : body.wp C Q F s) : (started m env body).wp C Q F s := by
  cases m with
  | flatpak => exact wp_plain hC (fun _ => hbody) hfailed
  | brew => exact hbody

theorem wp_sync_of_succeed (henv : env.Succeed) (hbegins : env.Begins m) :
    (sync m env list.text full).wp (fun _ => True) (fun s' => s' = s.synced m list)
      (fun _ => False) s := by
  have hcurrency : ∀ s', s' = s.synced m list → (if full then currency m env else .done :
      Script Store).wp (fun _ => True) (fun s' => s' = s.synced m list) (fun _ => False) s' := by
    intro s' hs'
    cases full with
    | true => exact wp_currency_of_succeed henv (fun _ => trivial) hs'
    | false => exact hs'
  have hbody : (syncRecorded m env list.text full).wp (fun _ => True)
      (fun s' => s' = s.synced m list) (fun _ => False) s := by
    rw [syncRecorded, Script.wp]
    refine wp_createRecord trivial trivial ?_ fun hfailed =>
      absurd (hfailed.symm.trans henv.created) Bool.false_ne_true
    rw [Script.wp]
    refine Script.wp_mono hcurrency (fun _ => id) ?_
    rw [Script.wp, Store.synced]
    by_cases heq : s.record.getD "" = list.text
    · have hrecord : s.withRecord.record = some list.text := congrArg some heq
      rw [if_pos hrecord, if_pos heq]
      rfl
    · have hrecord : s.withRecord.record ≠ some list.text := fun h => heq (Option.some.inj h)
      rw [if_neg hrecord, if_neg heq]
      exact wp_converge_of_succeed henv fun _ => trivial
  rw [sync_of_begins hbegins]
  exact wp_started trivial
    (fun hfailed => absurd (hfailed.symm.trans henv.made) Bool.false_ne_true) hbody

theorem final_sync_of_succeed (henv : env.Succeed) (hbegins : env.Begins m) :
    (sync m env list.text full).final s = s.synced m list :=
  Script.final_of_wp (wp_sync_of_succeed henv hbegins)

/-- What holds whatever the run does to no application: the passes of the full mode. -/
theorem wp_currency (h : C s) : (currency m env).wp C C C s := by
  cases m with
  | flatpak =>
    rw [currency, Script.wp, Script.wp]
    exact wp_plain h (fun _ => wp_plain h (fun _ => h) fun _ => h)
      fun _ => wp_plain h (fun _ => wp_plain h (fun _ => h) fun _ => h) fun _ => h
  | brew =>
    rw [currency, Script.wp]
    exact wp_plain h (fun _ => wp_plain h (fun _ => h) fun _ => h) fun _ => h

theorem wp_currency_if (h : C s) :
    (if full then currency m env else .done : Script Store).wp C C C s := by
  cases full with
  | true => exact wp_currency h
  | false => exact h

/-- What a run over a record that differs does before its copy. -/
def beforeCopy (m : Manager) (env : Outcomes) (declared : String) : Script Store :=
  started m env ((createRecord env).seq ((install m env declared).seq (takeBack m env declared)))

/-- Such a run is its copy and the passes, after that. -/
theorem exec_sync_of_differs (hbegins : env.Begins m) (hdiffers : s.record.getD "" ≠ list.text) :
    (sync m env list.text full).exec s = ((beforeCopy m env list.text).seq
      ((copyDeclared env list.text).seq (if full then currency m env else .done))).exec s := by
  have hbody : ∀ s, s.record.getD "" ≠ list.text → (syncRecorded m env list.text full).exec s =
      (((createRecord env).seq ((install m env list.text).seq (takeBack m env list.text))).seq
        ((copyDeclared env list.text).seq (if full then currency m env else .done))).exec s := by
    intro s hs
    rw [syncRecorded, Script.exec_seq_assoc]
    apply Script.exec_seq_congr
    intro hcreated
    have hdiffers : ((createRecord env).final s).record ≠ some list.text := by
      have hwp : (createRecord env).wp (fun _ => True) (fun s' => s'.record ≠ some list.text)
          (fun _ => True) s :=
        wp_createRecord trivial trivial (fun h => hs (Option.some.inj h)) fun _ => trivial
      exact (Script.wp_sound hwp).2.1 hcreated
    have hlook : ((Script.look fun s => if s.record = some list.text then .done
        else converge m env list.text).exec ((createRecord env).final s)) =
          (converge m env list.text).exec ((createRecord env).final s) := by
      rw [Script.exec, if_neg hdiffers]
    rw [Script.exec_seq_first hlook, converge, Script.exec_seq_assoc, Script.exec_seq_assoc]
    apply Script.exec_seq_congr
    intro _
    rw [Script.exec_seq_assoc]
  rw [sync_of_begins hbegins, beforeCopy]
  cases m with
  | flatpak =>
    rw [started, started, Script.exec_seq_assoc]
    apply Script.exec_seq_congr
    intro _
    exact hbody _ hdiffers
  | brew => exact hbody s hdiffers

end
end Kuma.Sync
