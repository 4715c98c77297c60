import Kuma.Lib.Run
import Kuma.Sync.Commands

/-! The machine over its whole history: images booted one after another, runs of the sync
scripts that may die, and the owner's own installs and uninstalls in between. -/
namespace Kuma.Sync
open Kuma.Lib

/-- One run of a sync script, and after how many commands it died. -/
structure SyncRun where
  env : Outcomes
  full : Bool
  dies : Option ℕ

/-- One manager's side of the machine: the list of the booted image, the store, and every
name that a list has held so far. -/
structure Side (m : Manager) where
  baked : Option (Baked m)
  store : Store
  listed : Finset String

inductive Action
  | boot (d : Declaration)
  | installs (m : Manager) (app : String)
  | uninstalls (m : Manager) (app : String)
  | runs (m : Manager) (r : SyncRun)

/-- The owner's own install, which gives nothing. -/
def Store.add (app : String) (s : Store) : Store :=
  { s with
    installed := insert app s.installed
    owned := s.owned.trans (Finset.subset_insert app s.installed) }

/-- The owner's own uninstall, which is none of the script's. -/
def Store.remove (app : String) (s : Store) : Store := { s.uninstall app with taken := s.taken }

/-- The store as a new run finds it. -/
def Store.afresh (s : Store) : Store := { s with put := ∅, taken := ∅ }

def SyncRun.ends {m : Manager} (r : SyncRun) (list : Baked m) (s : Store) : Store :=
  match r.dies with
  | none => (sync m r.env list.text r.full).final s
  | some k => (sync m r.env list.text r.full).cut k s

namespace Side

variable {m : Manager}

def names (side : Side m) : List String := (side.baked.map Baked.names).getD []

/-- The unit starts its run only where the image ships it. -/
def ran (r : SyncRun) (side : Side m) : Side m :=
  match side.baked with
  | none => { side with store := side.store.afresh }
  | some list => { side with store := r.ends list side.store.afresh }

def step (side : Side m) : Action → Side m
  | .boot d => { side with baked := d.bakes m, listed := side.listed ∪ (d.list m).toFinset }
  | .installs m' app => if m' = m then { side with store := side.store.add app } else side
  | .uninstalls m' app => if m' = m then { side with store := side.store.remove app } else side
  | .runs m' r => if m' = m then side.ran r else side

/-- A machine that nothing was ever booted on, with what its owner has installed. -/
def start (stock : Finset String) : Side m :=
  ⟨none, ⟨none, stock, ∅, ∅, ∅, Finset.empty_subset _⟩, ∅⟩

variable {side : Side m} {r : SyncRun} {list : Baked m}

theorem ran_of_none (h : side.baked = none) :
    side.ran r = { side with store := side.store.afresh } := by
  unfold ran
  rw [h]

theorem ran_of_some (h : side.baked = some list) :
    side.ran r = { side with store := r.ends list side.store.afresh } := by
  unfold ran
  rw [h]

theorem names_of_some (h : side.baked = some list) : side.names = list.names := by
  unfold names
  rw [h]
  rfl

@[simp] theorem ran_names : (side.ran r).names = side.names := by
  cases hbaked : side.baked with
  | none => rw [ran_of_none hbaked, names, names]
  | some list => rw [ran_of_some hbaked, names, names]

/-- The step rule: what an action leaves of the side it is about. -/
theorem step_rule {I : Side m → Prop} {a : Action} (h : I side)
    (hboot : ∀ d, a = .boot d →
      I { side with baked := d.bakes m, listed := side.listed ∪ (d.list m).toFinset })
    (hadd : ∀ app, a = .installs m app → I { side with store := side.store.add app })
    (hremove : ∀ app, a = .uninstalls m app → I { side with store := side.store.remove app })
    (hrun : ∀ r, a = .runs m r → I (side.ran r)) : I (side.step a) := by
  cases a with
  | boot d => exact hboot d rfl
  | installs m' app =>
    rw [step]
    split_ifs with hm
    · subst hm
      exact hadd app rfl
    · exact h
  | uninstalls m' app =>
    rw [step]
    split_ifs with hm
    · subst hm
      exact hremove app rfl
    · exact h
  | runs m' r =>
    rw [step]
    split_ifs with hm
    · subst hm
      exact hrun r rfl
    · exact h

theorem names_boot (side : Side m) (d : Declaration) : (side.step (.boot d)).names = d.list m :=
  d.names_bakes m

end Side

/-- Both sides, which share nothing but the boots. -/
abbrev Machine := (m : Manager) → Side m

namespace Machine

def step (s : Machine) (a : Action) : Machine := fun m => (s m).step a

def start (stock : Manager → Finset String) : Machine := fun m => .start (stock m)

theorem run_apply (s : Machine) (as : List Action) (m : Manager) :
    run step s as m = run Side.step (s m) as := by
  induction as generalizing s with
  | nil => rfl
  | cons a as ih => exact ih (s.step a)

end Machine
end Kuma.Sync
