import Kuma.Lib.Script
import Kuma.Sync.Declaration

/-! The two sync scripts, over the record of what convergence installed and the manager's
installed set. A word of a list is one argument of a command: valid names hold no blanks and
no quotes. -/
namespace Kuma.Sync
open Kuma.Lib

/-- One manager's half of the machine. The rest is the history's: what any run of the script
put there that is there still, and what this run put there and took away. -/
structure Store where
  record : Option String
  installed : Finset String
  given : Finset String
  put : Finset String
  taken : Finset String
  owned : given ⊆ installed

/-- How the outside answers the commands of one run: installs by attempt and name, uninstalls
by round of the loop. -/
structure Outcomes where
  marker : Bool
  executable : Bool
  made : Bool
  created : Bool
  install : ℕ → String → Bool
  uninstall : ℕ → Bool
  copied : Bool
  update : ℕ → Bool
  cleaned : Bool

namespace Store

/-- What a batch that landed leaves. An application that was there already is not given. -/
def install (m : Manager) (landed : List String) (s : Store) : Store :=
  { s with
    installed := s.installed ∪ m.racks landed
    given := s.given ∪ (m.racks landed \ s.installed)
    put := s.put ∪ (m.racks landed \ s.installed)
    owned := Finset.union_subset_union s.owned Finset.sdiff_subset }

def uninstall (app : String) (s : Store) : Store :=
  { s with
    installed := s.installed.erase app
    given := s.given.erase app
    taken := if app ∈ s.installed then insert app s.taken else s.taken
    owned := Finset.erase_subset_erase app s.owned }

def uninstallAll (apps : List String) (s : Store) : Store :=
  apps.foldl (fun s app => s.uninstall app) s

/-- The words of the record; a record that is not there yet is created empty. -/
def recorded (s : Store) : List String := Lines.readLines (s.record.getD "")

variable {m : Manager} {landed : List String} {app : String} {apps : List String} {s : Store}

theorem mem_taken_uninstall {x : String} (h : x ∈ (s.uninstall app).taken) :
    x = app ∨ x ∈ s.taken := by
  unfold uninstall at h
  split_ifs at h
  · exact Finset.mem_insert.mp h
  · exact .inr h

@[simp] theorem uninstallAll_put : (s.uninstallAll apps).put = s.put := by
  induction apps generalizing s with
  | nil => rfl
  | cons app apps ih => exact ih

theorem mem_installed_uninstallAll {x : String} :
    x ∈ (s.uninstallAll apps).installed ↔ x ∈ s.installed ∧ x ∉ apps := by
  induction apps generalizing s with
  | nil => simp [uninstallAll]
  | cons app apps ih =>
    have hrest : x ∈ (s.uninstallAll (app :: apps)).installed ↔
        x ∈ (s.uninstall app).installed ∧ x ∉ apps := ih
    rw [hrest, uninstall, Finset.mem_erase, List.mem_cons, not_or]
    tauto

theorem mem_given_uninstallAll {x : String} :
    x ∈ (s.uninstallAll apps).given ↔ x ∈ s.given ∧ x ∉ apps := by
  induction apps generalizing s with
  | nil => simp [uninstallAll]
  | cons app apps ih =>
    have hrest : x ∈ (s.uninstallAll (app :: apps)).given ↔
        x ∈ (s.uninstall app).given ∧ x ∉ apps := ih
    rw [hrest, uninstall, Finset.mem_erase, List.mem_cons, not_or]
    tauto

theorem mem_taken_uninstallAll {x : String} :
    x ∈ (s.uninstallAll apps).taken ↔ x ∈ s.taken ∨ x ∈ apps ∧ x ∈ s.installed := by
  induction apps generalizing s with
  | nil => simp [uninstallAll]
  | cons app apps ih =>
    have hrest : x ∈ (s.uninstallAll (app :: apps)).taken ↔
        x ∈ (s.uninstall app).taken ∨ x ∈ apps ∧ x ∈ (s.uninstall app).installed := ih
    have hfirst : x ∈ (s.uninstall app).taken ↔ x ∈ s.taken ∨ x = app ∧ x ∈ s.installed := by
      unfold uninstall
      split_ifs with happ
      · rw [Finset.mem_insert]
        constructor
        · rintro (rfl | hold)
          · exact .inr ⟨rfl, happ⟩
          · exact .inl hold
        · rintro (hold | ⟨rfl, -⟩)
          · exact .inr hold
          · exact .inl rfl
      · constructor
        · exact .inl
        · rintro (hold | ⟨rfl, hin⟩)
          · exact hold
          · exact absurd hin happ
    rw [hrest, hfirst, uninstall, Finset.mem_erase, List.mem_cons]
    tauto

end Store

section
variable (m : Manager) (env : Outcomes) (declared : String)

/-- A command that touches no application. -/
def plain (ok : Bool) : Script Store := .command fun s => (s, ok)

/-- `[ -f "$state" ] || : > "$state"`. -/
def createRecord : Script Store :=
  .look fun s =>
    if s.record.isSome then .done
    else .command fun s => if env.created then ({ s with record := some "" }, true) else (s, false)

/-- One batch of installs over the whole list. -/
def installDeclared (attempt : ℕ) : Script Store :=
  let names := Lines.completeLines declared
  .command fun s =>
    (s.install m (names.filter (env.install attempt)), names.all (env.install attempt))

/-- An uninstall fails where there is nothing to uninstall. -/
def uninstallRecorded (round : ℕ) (name : String) : Script Store :=
  .command fun s =>
    if env.uninstall round && decide (m.rack name ∈ s.installed) then
      (s.uninstall (m.rack name), true)
    else (s, false)

/-- The loop over the record. -/
def takeBack : Script Store :=
  .look fun s => Script.each (fun word : String × ℕ =>
    if word.1 ∈ Lines.completeLines declared then .done
    else .tolerate (uninstallRecorded m env word.2 word.1)) s.recorded.zipIdx

/-- `cp "$declared" "$state"`. -/
def copyDeclared : Script Store :=
  .command fun s => if env.copied then ({ s with record := some declared }, true) else (s, false)

/-- The flatpak batch is tried again without static deltas; the brew batch is tried once, and
only for a list that names something. -/
def install : Script Store :=
  match m with
  | .flatpak => (installDeclared m env declared 0).orElse (installDeclared m env declared 1)
  | .brew => if declared = "" then .done else installDeclared m env declared 0

def converge : Script Store :=
  (install m env declared).seq ((takeBack m env declared).seq (copyDeclared env declared))

/-- The passes of the full mode: an update with its own second attempt and the removal of
unused runtimes, or the autoremove and the upgrade. -/
def currency : Script Store :=
  match m with
  | .flatpak => ((plain (env.update 0)).orElse (plain (env.update 1))).seq (plain env.cleaned)
  | .brew => (plain env.cleaned).seq (plain (env.update 0))

/-- What both scripts do once they are past their own tests. -/
def syncRecorded (full : Bool) : Script Store :=
  (createRecord env).seq ((Script.look fun s =>
    if s.record = some declared then .done else converge m env declared).seq
      (if full then currency m env else .done))

def flatpakSync (full : Bool) : Script Store :=
  if env.marker then .done else (plain env.made).seq (syncRecorded .flatpak env declared full)

def brewSync (full : Bool) : Script Store :=
  if env.marker then .done
  else if !env.executable then .done
  else syncRecorded .brew env declared full

def sync (full : Bool) : Script Store :=
  match m with
  | .flatpak => flatpakSync env declared full
  | .brew => brewSync env declared full

end

/-- The commands of a run all go through. -/
structure Outcomes.Succeed (env : Outcomes) : Prop where
  made : env.made = true
  created : env.created = true
  install : ∀ attempt name, env.install attempt name = true
  uninstall : ∀ round, env.uninstall round = true
  copied : env.copied = true
  update : ∀ attempt, env.update attempt = true
  cleaned : env.cleaned = true

/-- A run nothing stands in the way of. -/
def Outcomes.smooth : Outcomes where
  marker := false
  executable := true
  made := true
  created := true
  install := fun _ _ => true
  uninstall := fun _ => true
  copied := true
  update := fun _ => true
  cleaned := true

theorem Outcomes.smooth_succeed : smooth.Succeed :=
  ⟨rfl, rfl, fun _ _ => rfl, fun _ => rfl, rfl, fun _ => rfl, rfl⟩

/-- The run gets past the tests at its head. -/
def Outcomes.Begins (env : Outcomes) : Manager → Prop
  | .flatpak => env.marker = false
  | .brew => env.marker = false ∧ env.executable = true

instance (env : Outcomes) (m : Manager) : Decidable (env.Begins m) := by
  cases m with
  | flatpak => exact inferInstanceAs (Decidable (_ = _))
  | brew => exact inferInstanceAs (Decidable (_ ∧ _))

/-- What a script whose commands all go through makes of the store. -/
def Store.converged (m : Manager) (list : Baked m) (s : Store) : Store :=
  let dropped := s.recorded.filter fun name => name ∉ list.names
  { ((s.install m list.names).uninstallAll (dropped.map m.rack)) with record := some list.text }

theorem Store.converged_put {s : Store} {m : Manager} {list : Baked m} :
    (s.converged m list).put = (s.install m list.names).put := uninstallAll_put

/-- The record, created where it was missing. -/
def Store.withRecord (s : Store) : Store := { s with record := some (s.record.getD "") }

/-- What a run whose commands all go through leaves: a record that equals the list settles
it, and any other has the run converge. -/
def Store.synced (m : Manager) (list : Baked m) (s : Store) : Store :=
  if s.record.getD "" = list.text then s.withRecord else s.withRecord.converged m list

end Kuma.Sync
