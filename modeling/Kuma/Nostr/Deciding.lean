import Kuma.Lib.Run
import Kuma.Nostr.Registry

/-! The engine under concurrent decisions. Any number of calls of `decide` advance one
section at a time between the calls the verbs make, all over one mutex. The level read
expects the record the pairing section left, so a removal between the two poisons it. -/
namespace Kuma.Nostr
open Kuma.Lib

variable {N : Crate}

/-- The engine's calls from other threads. -/
inductive EngineVerb
  | revoke (app : String)
  | delete (app : String)
  | logout (app : String)
  | rename (app name : String)
  | setLevel (app : String) (level : Level)
  | approve (id : String) (remember : Option ℕ)
  | deny (id : String)

/-- What a verb leaves of the engine; `none` panicked. -/
def EngineVerb.call (env : Env N) (e : Engine N) : EngineVerb → Option (Engine N)
  | .revoke app => (e.revoke env app).map Prod.fst
  | .delete app => (e.delete env app).map Prod.fst
  | .logout app => (e.logout env app).map Prod.fst
  | .rename app name => (e.rename env app name).map Prod.fst
  | .setLevel app level => (e.setLevel env app level).map Prod.fst
  | .approve id remember => (e.approve env id remember).map Prod.fst
  | .deny id => (e.deny env id).map Prod.fst

/-- The app a verb removes, if it removes one. -/
def EngineVerb.removes : EngineVerb → Option String
  | .delete app | .logout app => some app
  | _ => none

/-- One call of `decide`. -/
structure DecideCall (N : Crate) where
  app : N.PublicKey
  method : Method
  params : List String
  pc : DecidePc

structure Deciding (N : Crate) where
  engine : Engine N
  calls : List (DecideCall N)

inductive DecidingAction (N : Crate)
  | call (app : N.PublicKey) (method : Method) (params : List String)
  | advance (env : Env N) (i : ℕ)
  | verb (env : Env N) (verb : EngineVerb)

/-- A new call of `decide` for an app. -/
def DecidingAction.calls (app : String) : DecidingAction N → Prop
  | .call who _ _ => N.hex who = app
  | _ => False

namespace Deciding

def step (s : Deciding N) : DecidingAction N → Deciding N
  | .call app method params => { s with calls := s.calls ++ [⟨app, method, params, .called⟩] }
  | .advance env i =>
    match s.calls[i]? with
    | none => s
    | some c =>
      let advanced := s.engine.advance env c.app c.method c.params c.pc
      { engine := advanced.1, calls := s.calls.set i { c with pc := advanced.2 } }
  | .verb env verb => { s with engine := (verb.call env s.engine).getD s.engine }

def start (stateDir : Option StateDir) : Deciding N := ⟨.new stateDir, []⟩

/-- The app whose record an action removes. -/
def removed (s : Deciding N) : DecidingAction N → Option String
  | .verb _ verb => verb.removes.filter fun app => (s.engine.registry.lookup app).isSome
  | _ => none

/-- A removal comes after the level read of every call of the app it removes. -/
def RemovesLate (s : Deciding N) (a : DecidingAction N) : Prop :=
  ∀ app ∈ s.removed a, ∀ c ∈ s.calls, N.hex c.app = app → c.pc ≠ .called ∧ c.pc ≠ .paired

instance (s : Deciding N) (a : DecidingAction N) : Decidable (RemovesLate s a) := by
  unfold RemovesLate
  infer_instance

/-- Every call about to read the level has a record to read. -/
structure Recorded (s : Deciding N) : Prop where
  unpoisoned : s.engine.poisoned = false
  record : ∀ c ∈ s.calls, c.pc = .paired → (s.engine.registry.lookup (N.hex c.app)).isSome

/-- The app has no record, and no call is about to pair it. -/
structure Absent (app : String) (s : Deciding N) : Prop where
  norecord : s.engine.registry.lookup app = none
  nocall : ∀ c ∈ s.calls, N.hex c.app = app → c.pc ≠ .called

end Deciding

/-- What a verb makes of the register. -/
theorem EngineVerb.call_moves {env : Env N} {e e' : Engine N} {verb : EngineVerb}
    (h : verb.call env e = some e') : ∃ r, e.Moves e' r ∧
      (r = e.registry ∨ (∃ app, r = Register.assign app true e.registry) ∨
        ∃ app, verb.removes = some app ∧ r = Register.strike app e.registry) := by
  cases verb with
  | revoke app =>
    obtain ⟨result, hr, rfl⟩ := Option.map_eq_some_iff.mp h
    exact ⟨_, (Engine.revoke_moves hr).1, .inr (.inl ⟨app, rfl⟩)⟩
  | delete app =>
    obtain ⟨result, hr, rfl⟩ := Option.map_eq_some_iff.mp h
    exact ⟨_, (Engine.remove_moves hr).1, .inr (.inr ⟨app, rfl, rfl⟩)⟩
  | logout app =>
    obtain ⟨result, hr, rfl⟩ := Option.map_eq_some_iff.mp h
    exact ⟨_, (Engine.remove_moves hr).1, .inr (.inr ⟨app, rfl, rfl⟩)⟩
  | rename app name =>
    obtain ⟨result, hr, rfl⟩ := Option.map_eq_some_iff.mp h
    exact ⟨_, Engine.rename_moves hr, .inl rfl⟩
  | setLevel app level =>
    obtain ⟨result, hr, rfl⟩ := Option.map_eq_some_iff.mp h
    exact ⟨_, Engine.setLevel_moves hr, .inl rfl⟩
  | approve id remember =>
    obtain ⟨result, hr, rfl⟩ := Option.map_eq_some_iff.mp h
    exact ⟨_, Engine.answer_moves hr, .inl rfl⟩
  | deny id =>
    obtain ⟨result, hr, rfl⟩ := Option.map_eq_some_iff.mp h
    exact ⟨_, Engine.answer_moves hr, .inl rfl⟩

/-- A record survives every verb but its removal. -/
theorem EngineVerb.call_kept {env : Env N} {e e' : Engine N} {verb : EngineVerb} {app : String}
    (h : verb.call env e = some e') (hne : verb.removes ≠ some app) :
    (e'.registry.lookup app).isSome = (e.registry.lookup app).isSome := by
  obtain ⟨r, hmoves, hr⟩ := call_moves h
  rw [hmoves.registry]
  rcases hr with rfl | ⟨other, rfl⟩ | ⟨other, hremoves, rfl⟩
  · rfl
  · by_cases ho : app = other
    · subst ho
      simp
    · rw [Register.lookup_assign_of_ne ho]
  · have ho : app ≠ other := fun ho => hne (by rw [ho]; exact hremoves)
    rw [Register.lookup_strike_of_ne ho]

/-- No verb makes a record. -/
theorem EngineVerb.call_absent {env : Env N} {e e' : Engine N} {verb : EngineVerb} {app : String}
    (h : verb.call env e = some e') (hnone : e.registry.lookup app = none) :
    e'.registry.lookup app = none := by
  by_cases hne : verb.removes = some app
  · obtain ⟨r, hmoves, hr⟩ := call_moves h
    rw [hmoves.registry]
    rcases hr with rfl | ⟨other, rfl⟩ | ⟨other, hremoves, rfl⟩
    · exact hnone
    · by_cases ho : app = other
      · subst ho
        simp [hnone]
      · rwa [Register.lookup_assign_of_ne ho]
    · obtain rfl := Option.some.inj (hne.symm.trans hremoves)
      exact Register.lookup_strike_self
  · simpa [hnone] using call_kept h hne

theorem EngineVerb.call_removed {env : Env N} {e e' : Engine N} {verb : EngineVerb} {app : String}
    (h : verb.call env e = some e') (hremoves : verb.removes = some app) :
    e'.registry.lookup app = none := by
  cases verb with
  | delete who =>
    obtain ⟨result, hr, rfl⟩ := Option.map_eq_some_iff.mp h
    obtain rfl := Option.some.inj hremoves
    rw [(Engine.remove_moves hr).1.registry, Register.lookup_strike_self]
  | logout who =>
    obtain ⟨result, hr, rfl⟩ := Option.map_eq_some_iff.mp h
    obtain rfl := Option.some.inj hremoves
    rw [(Engine.remove_moves hr).1.registry, Register.lookup_strike_self]
  | _ => cases hremoves

/-- Advancing a call never takes it back to its start, and pairs it only from there. -/
theorem Engine.advance_pc {env : Env N} {e : Engine N} {who : N.PublicKey} {method : Method}
    {params : List String} {pc : DecidePc} (h : pc ≠ .called) :
    (e.advance env who method params pc).2 ≠ .called ∧
      (e.advance env who method params pc).2 ≠ .paired := by
  cases pc with
  | called => exact absurd rfl h
  | paired =>
    unfold Engine.advance Engine.judge
    grind
  | asking =>
    unfold Engine.advance Engine.register
    grind
  | waiting card ticket deadline =>
    unfold Engine.advance Engine.wait
    grind
  | expired card =>
    unfold Engine.advance Engine.expire
    grind
  | returned decision => simp [Engine.advance]
  | panicked => simp [Engine.advance]

namespace Deciding

/-- The calls after one of them advanced: the old ones, and that one further on. -/
theorem mem_calls_advance {s : Deciding N} {env : Env N} {i : ℕ} {c c' : DecideCall N}
    (hi : s.calls[i]? = some c) (h : c' ∈ (s.step (.advance env i)).calls) :
    c' ∈ s.calls ∨
      c' = { c with pc := (s.engine.advance env c.app c.method c.params c.pc).2 } := by
  simp only [step, hi] at h
  exact List.mem_or_eq_of_mem_set h

/-- An advance enrols at most the app of the call that pairs. -/
theorem lookup_advance {s : Deciding N} {env : Env N} {i : ℕ} {c : DecideCall N} {app : String}
    (hi : s.calls[i]? = some c) (h : c.pc = .called → N.hex c.app ≠ app) :
    (s.step (.advance env i)).engine.registry.lookup app = s.engine.registry.lookup app := by
  simp only [step, hi]
  by_cases hpc : c.pc = .called
  · rcases Engine.advance_called env s.engine c.app c.method c.params with
      ⟨-, hpanic⟩ | ⟨e', hadvance, hmoves⟩
    · rw [hpc, hpanic]
    · rw [hpc, hadvance, hmoves.registry, Register.lookup_enrol_of_ne (h hpc).symm]
  · rw [Engine.advance_registry hpc]

/-- No advance loses a record. -/
theorem isSome_lookup_advance {s : Deciding N} {env : Env N} {i : ℕ} {app : String}
    (h : (s.engine.registry.lookup app).isSome) :
    ((s.step (.advance env i)).engine.registry.lookup app).isSome := by
  cases hi : s.calls[i]? with
  | none => simpa [step, hi] using h
  | some c =>
    by_cases hc : c.pc = .called → N.hex c.app ≠ app
    · rwa [lookup_advance hi hc]
    · obtain ⟨hpc, hname⟩ : c.pc = .called ∧ N.hex c.app = app := by simpa using hc
      subst hname
      rcases Engine.advance_called env s.engine c.app c.method c.params with
        ⟨-, hpanic⟩ | ⟨e', hadvance, hmoves⟩
      · simpa [step, hi, hpc, hpanic] using h
      · simp [step, hi, hpc, hadvance, hmoves.registry]

theorem step_recorded (s : Deciding N) (a : DecidingAction N) (hs : Recorded s)
    (ha : RemovesLate s a) : Recorded (s.step a) := by
  obtain ⟨hp, hrec⟩ := hs
  cases a with
  | call app method params =>
    refine ⟨hp, fun c hc hpc => ?_⟩
    rcases List.mem_append.mp hc with hold | hnew
    · exact hrec c hold hpc
    · rw [List.mem_singleton.mp hnew] at hpc
      cases hpc
  | advance env i =>
    cases hi : s.calls[i]? with
    | none => simpa [step, hi] using (⟨hp, hrec⟩ : Recorded s)
    | some c =>
      have hc := hrec c (List.mem_of_getElem? hi)
      refine ⟨?_, fun c' hc' hpc' => ?_⟩
      · simpa [step, hi] using (Engine.advance_poisoned hc).trans hp
      · rcases mem_calls_advance hi hc' with hold | rfl
        · exact isSome_lookup_advance (hrec c' hold hpc')
        · -- the call that advanced is about to read the level: it has just paired
          have hpc : c.pc = .called := by
            by_contra hne
            exact (Engine.advance_pc hne).2 hpc'
          rcases Engine.advance_called env s.engine c.app c.method c.params with
            ⟨hpoisoned, -⟩ | ⟨e', hadvance, hmoves⟩
          · cases hpoisoned.symm.trans hp
          · simp [step, hi, hpc, hadvance, hmoves.registry]
  | verb env verb =>
    cases hv : verb.call env s.engine with
    | none => simpa [step, hv] using (⟨hp, hrec⟩ : Recorded s)
    | some e' =>
      obtain ⟨r, hmoves, -⟩ := EngineVerb.call_moves hv
      refine ⟨by simpa [step, hv] using hmoves.poisoned.trans hp, fun c hc hpc => ?_⟩
      have hsome := hrec c hc hpc
      have hne : verb.removes ≠ some (N.hex c.app) := by
        intro hremoves
        have hlate := ha (N.hex c.app) (by simp [removed, hremoves, hsome]) c hc rfl
        exact hlate.2 hpc
      simpa [step, hv, EngineVerb.call_kept hv hne] using hsome

theorem step_absent {app : String} (s : Deciding N) (a : DecidingAction N) (hs : Absent app s)
    (ha : ¬ a.calls app) : Absent app (s.step a) := by
  obtain ⟨hnone, hcalls⟩ := hs
  cases a with
  | call who method params =>
    refine ⟨hnone, fun c hc hname => ?_⟩
    rcases List.mem_append.mp hc with hold | hnew
    · exact hcalls c hold hname
    · rw [List.mem_singleton.mp hnew] at hname
      exact absurd hname ha
  | advance env i =>
    cases hi : s.calls[i]? with
    | none => simpa [step, hi] using (⟨hnone, hcalls⟩ : Absent app s)
    | some c =>
      have hc : c.pc = .called → N.hex c.app ≠ app := fun hpc hname =>
        hcalls c (List.mem_of_getElem? hi) hname hpc
      refine ⟨(lookup_advance hi hc).trans hnone, fun c' hc' hname => ?_⟩
      rcases mem_calls_advance hi hc' with hold | rfl
      · exact hcalls c' hold hname
      · exact (Engine.advance_pc fun hpc => hc hpc hname).1
  | verb env verb =>
    cases hv : verb.call env s.engine with
    | none => simpa [step, hv] using (⟨hnone, hcalls⟩ : Absent app s)
    | some e' => exact ⟨by simpa [step, hv] using EngineVerb.call_absent hv hnone, hcalls⟩

/-- A removal that comes late leaves the app absent. -/
theorem absent_of_removed {s : Deciding N} {a : DecidingAction N} {app : String}
    (hs : Recorded s) (ha : RemovesLate s a) (h : s.removed a = some app) :
    Absent app (s.step a) := by
  cases a with
  | call who method params => cases h
  | advance env i => cases h
  | verb env verb =>
    have hlate := ha app h
    obtain ⟨hremoves, -⟩ := Option.filter_eq_some_iff.mp h
    obtain ⟨e', hv⟩ : ∃ e', verb.call env s.engine = some e' := by
      cases verb with
      | delete who =>
        obtain ⟨result, hr⟩ := Engine.remove_isSome env who _ _ hs.unpoisoned
        exact ⟨_, Option.map_eq_some_iff.mpr ⟨result, hr, rfl⟩⟩
      | logout who =>
        obtain ⟨result, hr⟩ := Engine.remove_isSome env who _ _ hs.unpoisoned
        exact ⟨_, Option.map_eq_some_iff.mpr ⟨result, hr, rfl⟩⟩
      | _ => cases hremoves
    exact ⟨by simpa [step, hv] using EngineVerb.call_removed hv hremoves,
      fun c hc hname => (hlate c hc hname).1⟩

theorem decide_survives_late_removals (stateDir : Option StateDir) (as : List (DecidingAction N))
    (hlate : Along step RemovesLate (start stateDir) as) :
    (∀ pre, pre <+: as → (run step (start stateDir) pre).engine.poisoned = false) ∧
    ∀ pre a mid app, pre ++ a :: mid <+: as →
      (run step (start stateDir) pre).removed a = some app →
      (∀ a ∈ mid, ¬ a.calls app) →
      (run step (start stateDir) (pre ++ a :: mid)).engine.registry.lookup app = none := by
  have hstart : Recorded (start stateDir : Deciding N) := ⟨rfl, fun c hc => nomatch hc⟩
  refine ⟨fun pre hpre => (run_invariant step_recorded hstart (hlate.initial hpre)).unpoisoned, ?_⟩
  intro pre a mid app hpre hremoved hcalls
  obtain ⟨hbefore, hafter⟩ := along_append.mp (hlate.initial hpre)
  have hgone := absent_of_removed (run_invariant step_recorded hstart hbefore)
    (along_cons.mp hafter).1 hremoved
  have hmid := run_invariant step_absent hgone (along_of_forall hcalls)
  rw [run_append, run_cons]
  exact hmid.norecord

/-- One app on record. -/
private def oneApp : StateDir where
  apps := some [⟨"app", .ask, 0, none, none, none, none, none, 0, none⟩]
  log := none

private def env : Env (Crate.plain []) := .plain [] 100

private def lateDelete : List (DecidingAction (Crate.plain [])) :=
  [.call "app" .getPublicKey [], .advance env 0, .advance env 0, .verb env (.delete "app"),
    .advance env 0]

/-- A deletion behind the level read: the ask is laid, and nobody is on record. -/
theorem decide_survives_late_delete :
    (run step (start (some oneApp)) lateDelete).engine.poisoned = false ∧
    (run step (start (some oneApp)) lateDelete).engine.registry.lookup "app" = none := by
  have hlate : Along step RemovesLate (start (some oneApp)) lateDelete := by decide +kernel
  have hsurvives := decide_survives_late_removals (some oneApp) lateDelete hlate
  exact ⟨hsurvives.1 lateDelete List.prefix_rfl,
    hsurvives.2 [.call "app" .getPublicKey [], .advance env 0, .advance env 0]
      (.verb env (.delete "app")) [.advance env 0] "app" List.prefix_rfl (by decide +kernel)
      (by simp [DecidingAction.calls])⟩

/-- A deletion between the pairing and the level read poisons the engine, and one before the
pairing leaves the deleted app a record. -/
theorem decide_broken_by_early_removals :
    (run step (start (some oneApp)) [.call "app" .getPublicKey [], .advance env 0,
      .verb env (.delete "app"), .advance env 0]).engine.poisoned = true ∧
    (run step (start (some oneApp)) [.call "app" .getPublicKey [], .verb env (.delete "app"),
      .advance env 0]).engine.registry.lookup "app" = some false := by
  decide +kernel

end Deciding
end Kuma.Nostr
