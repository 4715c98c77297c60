import Kuma.Lib.Run
import Kuma.Lib.Text
import Kuma.Sync.Converge
import Mathlib.Data.Fintype.Defs
import Mathlib.Logic.Function.Basic

/-! The gate of the daily units: what it reads and decides, the marker it leaves for the sync
script, and the interleavings of the two daily units with the runs that pass no gate. -/
namespace Kuma.Sync
open Kuma.Lib

/-- What the gate can read of one power supply. A capacity that cannot be read is full. -/
structure Supply where
  type : Option String
  status : Option String
  capacity : Option String

/-- What an activation finds where it looks: the supplies, `busctl`'s answer and the clock. -/
structure Reads where
  supplies : List Supply
  metered : String
  date : String

/-- A supply that is reason enough to wait. -/
def Supply.reason (s : Supply) : Option String :=
  let capacity := s.capacity.getD "100"
  if s.type = some "Battery" ∧ s.status = some "Discharging" ∧
      (Text.shellInteger capacity.toList).any (· < 20) then
    some ("on battery (" ++ capacity ++ "%)")
  else none

def batteryReason (supplies : List Supply) : String :=
  (supplies.findSome? Supply.reason).getD ""

/-- NetworkManager's yes and its guessed yes. -/
def isMetered (answer : String) : Bool :=
  let digits := String.ofList (answer.toList.filter Char.isDigit)
  digits == "1" || digits == "3"

def withMetered (reasons answer : String) : String :=
  if isMetered answer then
    (if reasons = "" then "" else reasons ++ "; ") ++ "on a metered connection"
  else reasons

instance : Fintype Manager := ⟨{.flatpak, .brew}, fun m => by cases m <;> decide⟩

/-- How far an activation of a daily unit has come: systemd's directory, the gate's commands,
the sync script's test of the marker. -/
inductive Stage
  | idle
  | started
  | entered
  | cleared
  | weighed (reasons : String)
  | decided (reasons : String)
  | noted (reasons : String) (some_reason : reasons ≠ "")
  | gated (reasons : String)
  | ended (reasons : String) (skipped : Bool)
  | failed (reasons : String)
  deriving DecidableEq

/-- What the daily units share. `runtime` is the runtime directory, where there is one, and
whether the marker stands in it. -/
structure Gate where
  runtime : Option Bool
  stamp : List String
  stage : Manager → Stage

namespace Stage

/-- The gate decided to skip and left its mark, which the sync script has not tested yet. -/
def Awaits : Stage → Prop
  | .gated reasons => reasons ≠ ""
  | _ => False

/-- The mark was left, and systemd has not deactivated the unit. -/
def Stands : Stage → Prop
  | .gated reasons | .ended reasons _ => reasons ≠ ""
  | _ => False

/-- The gate decided to proceed, and the sync script has not tested for the marker yet. -/
def Proceeds : Stage → Prop
  | .decided reasons | .gated reasons => reasons = ""
  | _ => False

/-- An activation that is over skipped exactly if its own gate had a reason to. -/
def Honoured : Stage → Prop
  | .ended reasons skipped => skipped = true ↔ reasons ≠ ""
  | .failed _ => False
  | _ => True

instance : DecidablePred Awaits := fun stage => by
  cases stage <;> (unfold Awaits; infer_instance)

instance : DecidablePred Stands := fun stage => by
  cases stage <;> (unfold Stands; infer_instance)

instance : DecidablePred Proceeds := fun stage => by
  cases stage <;> (unfold Proceeds; infer_instance)

instance : DecidablePred Honoured := fun stage => by
  cases stage <;> (unfold Honoured; infer_instance)

end Stage

namespace Gate

inductive Action
  /-- the next command of an activation, which opens one where none is under way -/
  | daily (m : Manager) (r : Reads)
  /-- a run of the boot unit, which `kuma sync` starts too, tests the marker -/
  | boot (m : Manager)
  | reboot

/-- `[ -e /run/kuma-converge-gate/skip ]`. -/
def marked (s : Gate) : Bool := s.runtime.getD false

/-- `mkdir -p` of the runtime directory. -/
def mkdir (s : Gate) : Gate := { s with runtime := some s.marked }

/-- `rm -f` of the marker. -/
def clear (s : Gate) : Gate := { s with runtime := s.runtime.map fun _ => false }

def goes (s : Gate) (m : Manager) (stage : Stage) : Gate :=
  { s with stage := Function.update s.stage m stage }

/-- One command of a daily activation. -/
def advance (s : Gate) (m : Manager) (r : Reads) : Gate :=
  match s.stage m with
  | .idle => s.mkdir.goes m .started
  | .started => s.mkdir.goes m .entered
  | .entered => s.clear.goes m .cleared
  | .cleared => s.goes m (.weighed (batteryReason r.supplies))
  | .weighed reasons => s.goes m (.decided (withMetered reasons r.metered))
  | .decided reasons =>
    if h : reasons = "" then { s with stamp := [] }.goes m (.gated reasons)
    else { s with stamp := s.stamp ++ [r.date ++ " " ++ reasons] }.goes m (.noted reasons h)
  | .noted reasons _ =>
    -- `: > "$marker"` fails where another unit took the directory away
    if s.runtime.isSome then { s with runtime := some true }.goes m (.gated reasons)
    else s.goes m (.failed reasons)
  | .gated reasons => s.goes m (.ended reasons s.marked)
  | .ended _ _ | .failed _ => { s with runtime := none }.goes m .idle

def step (s : Gate) : Action → Gate
  | .daily m r => s.advance m r
  | .boot _ => s
  | .reboot => ⟨none, s.stamp, fun _ => .idle⟩

def start (stamp : List String) : Gate := ⟨none, stamp, fun _ => .idle⟩

/-- A run of a sync script, which tests for the marker first. -/
def seen (s : Gate) (env : Outcomes) : Outcomes := { env with marker := s.marked }

/-- What the marker is for: a run that finds it does nothing, and any other is a run where
there is none. -/
theorem sync_seen (s : Gate) (m : Manager) (env : Outcomes) (declared : String) (full : Bool) :
    sync m (s.seen env) declared full =
      if s.marked then .done else sync m { env with marker := false } declared full := by
  cases hmarked : s.marked with
  | true => cases m <;> simp [sync, flatpakSync, brewSync, seen, hmarked]
  | false => simp only [seen, hmarked, Bool.false_eq_true, if_false]

/-- A run that passes no gate is not ended by a marker. -/
def Converges (s : Gate) : Action → Prop
  | .boot _ => s.marked = false
  | _ => True

instance (s : Gate) : DecidablePred s.Converges := fun a => by
  cases a <;> (unfold Converges; infer_instance)

/-- The units keep out of each other's way: no marker is removed before its own test, none is
left for a unit that has decided to proceed, the directory outlives the gate, and the runs that
pass no gate come when no mark stands. -/
def Apart (s : Gate) : Action → Prop
  | .daily m r =>
    match s.stage m with
    | .entered | .ended _ _ | .failed _ => ∀ u, u ≠ m → ¬(s.stage u).Awaits
    | .weighed reasons => withMetered reasons r.metered = "" → s.marked = false
    | .noted _ _ => s.runtime.isSome = true ∧ ∀ u, u ≠ m → ¬(s.stage u).Proceeds
    | _ => True
  | .boot _ => ∀ u, ¬(s.stage u).Stands
  | .reboot => True

instance (s : Gate) : DecidablePred s.Apart := fun a => by
  cases a with
  | daily m r =>
    unfold Apart
    dsimp only
    cases s.stage m <;> infer_instance
  | boot m => exact inferInstanceAs (Decidable (∀ u, ¬(s.stage u).Stands))
  | reboot => exact inferInstanceAs (Decidable True)

/-- What holds between the commands of units that keep apart. -/
structure Kept (s : Gate) : Prop where
  left : s.marked = true → ∃ u, (s.stage u).Stands
  awaited : ∀ u, (s.stage u).Awaits → s.marked = true
  clear : ∀ u, (s.stage u).Proceeds → s.marked = false
  honoured : ∀ u, (s.stage u).Honoured

theorem kept_start (stamp : List String) : (start stamp).Kept where
  left := fun h => by simp [start, marked] at h
  awaited := fun _ h => h.elim
  clear := fun _ h => h.elim
  honoured := fun _ => trivial

section
variable {s s' : Gate} {m u : Manager} {stage : Stage}

@[simp] theorem goes_stage_self : (s.goes m stage).stage m = stage := Function.update_self ..

theorem goes_stage_of_ne (h : u ≠ m) : (s.goes m stage).stage u = s.stage u :=
  Function.update_of_ne h ..

@[simp] theorem goes_marked : (s.goes m stage).marked = s.marked := rfl

@[simp] theorem mkdir_marked : s.mkdir.marked = s.marked := rfl

@[simp] theorem clear_marked : s.clear.marked = false := by
  unfold clear marked
  cases s.runtime <;> rfl

/-- A property of a unit's stage is looked at once for the unit that moved, and once for the
others. -/
theorem goes_rule {P : Stage → Prop} (hself : P stage) (hothers : ∀ u, u ≠ m → P (s.stage u)) :
    ∀ u, P ((s.goes m stage).stage u) := by
  intro u
  by_cases hu : u = m
  · rw [hu, goes_stage_self]
    exact hself
  · rw [goes_stage_of_ne hu]
    exact hothers u hu

/-- A command that leaves the marker as it is. -/
theorem Kept.goes (h : s.Kept) (hstage : s'.stage = s.stage) (hmarked : s'.marked = s.marked)
    (hleft : (s.stage m).Stands → stage.Stands) (hawaited : stage.Awaits → s.marked = true)
    (hclear : stage.Proceeds → s.marked = false) (hhonoured : stage.Honoured) :
    (s'.goes m stage).Kept where
  left := by
    rw [goes_marked, hmarked]
    intro hs
    obtain ⟨u, hu⟩ := h.left hs
    by_cases hum : u = m
    · refine ⟨m, ?_⟩
      rw [goes_stage_self]
      exact hleft (hum ▸ hu)
    · refine ⟨u, ?_⟩
      rw [goes_stage_of_ne hum, hstage]
      exact hu
  awaited := by
    rw [goes_marked, hmarked]
    apply goes_rule (P := fun stage => stage.Awaits → s.marked = true) hawaited
    rw [hstage]
    exact fun u _ => h.awaited u
  clear := by
    rw [goes_marked, hmarked]
    apply goes_rule (P := fun stage => stage.Proceeds → s.marked = false) hclear
    rw [hstage]
    exact fun u _ => h.clear u
  honoured := by
    apply goes_rule hhonoured
    rw [hstage]
    exact fun u _ => h.honoured u

/-- A command that removes the marker, while no other unit awaits its own. -/
theorem Kept.removes (stage : Stage) (h : s.Kept) (hstage : s'.stage = s.stage)
    (hmarked : s'.marked = false) (hothers : ∀ u, u ≠ m → ¬(s.stage u).Awaits)
    (hself : ¬stage.Awaits) (hhonoured : stage.Honoured) : (s'.goes m stage).Kept where
  left := by
    rw [goes_marked, hmarked]
    intro hs
    exact absurd hs (by decide)
  awaited := by
    have hnone : ∀ u, ¬((s'.goes m stage).stage u).Awaits := by
      apply goes_rule (P := fun stage => ¬stage.Awaits) hself
      rw [hstage]
      exact hothers
    exact fun u hu => absurd hu (hnone u)
  clear := by
    rw [goes_marked, hmarked]
    exact fun _ _ => rfl
  honoured := by
    apply goes_rule hhonoured
    rw [hstage]
    exact fun u _ => h.honoured u

/-- The mark, left while no other unit has decided to proceed. -/
theorem Kept.leaves {reasons : String} (h : s.Kept) (hstage : s'.stage = s.stage)
    (hmarked : s'.marked = true) (hreasons : reasons ≠ "")
    (hothers : ∀ u, u ≠ m → ¬(s.stage u).Proceeds) : (s'.goes m (.gated reasons)).Kept where
  left := by
    intro _
    refine ⟨m, ?_⟩
    rw [goes_stage_self]
    exact hreasons
  awaited := by
    rw [goes_marked, hmarked]
    exact fun _ _ => rfl
  clear := by
    have hself : ¬(Stage.gated reasons).Proceeds := hreasons
    have hnone : ∀ u, ¬((s'.goes m (.gated reasons)).stage u).Proceeds := by
      apply goes_rule (P := fun stage => ¬stage.Proceeds) hself
      rw [hstage]
      exact hothers
    exact fun u hu => absurd hu (hnone u)
  honoured := by
    have hself : (Stage.gated reasons).Honoured := trivial
    apply goes_rule hself
    rw [hstage]
    exact fun u _ => h.honoured u

/-- One command of a unit that keeps apart, by what it has come to. -/
theorem Kept.advance {r : Reads} (h : s.Kept) (hapart : s.Apart (.daily m r)) :
    (s.advance m r).Kept := by
  unfold Gate.advance
  unfold Apart at hapart
  dsimp only at hapart
  have hclear := h.clear m
  have hawaited := h.awaited m
  have hmoves : ∀ {s' : Gate} (stage : Stage), s'.stage = s.stage → s'.marked = s.marked →
      ¬(s.stage m).Stands → ¬stage.Awaits → (stage.Proceeds → s.marked = false) →
      stage.Honoured → (s'.goes m stage).Kept :=
    fun _ hs hmarked hstands hawaits hproceeds hhonoured =>
      h.goes hs hmarked (fun hs => absurd hs hstands) (fun hs => absurd hs hawaits) hproceeds
        hhonoured
  cases hstage : s.stage m with
  | idle =>
    rw [hstage] at hmoves
    exact hmoves .started rfl mkdir_marked id id False.elim trivial
  | started =>
    rw [hstage] at hmoves
    exact hmoves .entered rfl mkdir_marked id id False.elim trivial
  | entered =>
    rw [hstage] at hapart
    exact h.removes .cleared rfl clear_marked hapart id trivial
  | cleared =>
    rw [hstage] at hmoves
    exact hmoves (.weighed _) rfl rfl id id False.elim trivial
  | weighed reasons =>
    rw [hstage] at hmoves hapart
    exact hmoves (.decided _) rfl rfl id id hapart trivial
  | decided reasons =>
    rw [hstage] at hmoves hclear
    dsimp only
    split_ifs with hreasons
    · exact hmoves (.gated _) rfl rfl id (fun hs => hs hreasons) hclear trivial
    · exact hmoves (.noted _ hreasons) rfl rfl id id False.elim trivial
  | noted reasons hreasons =>
    rw [hstage] at hapart
    obtain ⟨hdirectory, hothers⟩ := hapart
    dsimp only
    rw [if_pos hdirectory]
    exact h.leaves rfl rfl hreasons hothers
  | gated reasons =>
    rw [hstage] at hclear hawaited
    -- the one test of the marker: the invariant says that it finds what the gate decided
    have hhonoured : (Stage.ended reasons s.marked).Honoured := by
      refine ⟨fun hmarked hreasons => ?_, hawaited⟩
      rw [hclear hreasons] at hmarked
      exact absurd hmarked (by decide)
    have hleft : (s.stage m).Stands → (Stage.ended reasons s.marked).Stands := by
      rw [hstage]
      exact id
    exact h.goes rfl rfl hleft False.elim False.elim hhonoured
  | ended reasons skipped =>
    rw [hstage] at hapart
    exact h.removes .idle rfl rfl hapart id trivial
  | failed reasons =>
    rw [hstage] at hapart
    exact h.removes .idle rfl rfl hapart id trivial

theorem Kept.step {a : Action} (h : s.Kept) (hapart : s.Apart a) : (s.step a).Kept := by
  cases a with
  | daily m r => exact h.advance hapart
  | boot m => exact h
  | reboot => exact kept_start s.stamp

/-- No mark stands where no unit has left one. -/
theorem Kept.unmarked (h : s.Kept) (hnone : ∀ u, ¬(s.stage u).Stands) : s.marked = false := by
  by_contra hmarked
  obtain ⟨u, hu⟩ := h.left (by simpa using hmarked)
  exact hnone u hu

theorem Kept.converges {a : Action} (h : s.Kept) (hapart : s.Apart a) : s.Converges a := by
  cases a with
  | daily m r => exact trivial
  | boot m => exact h.unmarked hapart
  | reboot => exact trivial

end

variable {stamp : List String} {as : List Action}

theorem kept_run (h : Along step Apart (start stamp) as) : (run step (start stamp) as).Kept :=
  run_invariant (fun _ _ hs hapart => hs.step hapart) (kept_start stamp) h

/-- Among units that keep apart the gate is the timer's alone: an activation that is over
skipped exactly if its own gate decided to, and no other run ever finds a marker. -/
theorem gate_is_the_timers (h : Along step Apart (start stamp) as) :
    (∀ m, ((run step (start stamp) as).stage m).Honoured) ∧
      Along step Converges (start stamp) as := by
  have hkept : Along step (fun s _ => s.Kept) (start stamp) as :=
    along_invariant (fun _ _ hs hapart => hs.step hapart) (kept_start stamp) h
  constructor
  · exact (kept_run h).honoured
  · exact (hkept.and h).mono fun s a hs => hs.1.converges hs.2

/-- On the mains and off a metered line. -/
private def mains : Reads := ⟨[⟨some "Mains", none, none⟩], "u 2", "2026-01-01T00:10:00Z"⟩

private def drained : Reads :=
  ⟨[⟨some "Battery", some "Discharging", some "12"⟩], "u 1", "2026-01-01T00:20:00Z"⟩

/-- One activation after the other, and a boot run once both are over. -/
private def inTurn : List Action :=
  List.replicate 9 (.daily .flatpak drained) ++ List.replicate 8 (.daily .brew mains) ++
    [.boot .flatpak]

theorem gate_is_the_timers_in_turn :
    (∀ m, ((run step (start []) inTurn).stage m).Honoured) ∧
      Along step Converges (start []) inTurn :=
  have hapart : Along step Apart (start []) inTurn := by decide +kernel
  gate_is_the_timers hapart

/-- A boot run comes between a skip's mark and its deactivation. -/
private def booted : List Action := List.replicate 8 (.daily .flatpak drained) ++ [.boot .brew]

/-- One unit has decided to proceed when the other leaves its mark. -/
private def markedOver : List Action :=
  List.replicate 6 (.daily .brew mains) ++ List.replicate 7 (.daily .flatpak drained) ++
    [.daily .brew mains]

/-- One unit awaits its own mark when the other's gate clears it. -/
private def clearedUnder : List Action :=
  List.replicate 7 (.daily .brew drained) ++ List.replicate 3 (.daily .flatpak drained) ++
    [.daily .brew drained]

/-- The daily units share one marker, and every caller of the scripts tests for it. -/
theorem the_marker_is_everyones :
    ¬Along step Converges (start []) booted ∧
      (run step (start []) markedOver).stage .brew = .ended "" true ∧
      (run step (start []) clearedUnder).stage .brew =
        .ended "on battery (12%); on a metered connection" false := by
  decide +kernel

end Gate
end Kuma.Sync
