import Kuma.Nostr.Outlines
import Kuma.Nostr.Planning

/-! What one step of the whole process can do: the verbs through their shapes, and the
worker's beats through what they leave alone. -/
namespace Kuma.Nostr
open Kuma.Lib

variable {N : Crate}

/-- The verb an action runs under the daemon's lock; startup runs an unlock. -/
def Action.request : Action N → Option (Env N × Request)
  | .verb env request => some (env, request)
  | .startup env => some (env, .unlock)
  | _ => none

/-- A beat of the worker. -/
def Action.isBeat : Action N → Bool
  | .beat _ => true
  | _ => false

namespace System

variable {s : System N} {a : Action N} {env : Env N} {request : Request} {event : N.Event}

theorem step_of_request (h : a.request = some (env, request)) (hp : s.poisoned = false) :
    s.step a = s.underLock (s.daemon.handle env request) := by
  cases a with
  | verb env' request' =>
    cases h
    simp [step, hp]
  | startup env' =>
    cases h
    simp [step, hp, Daemon.startupUnlock, Daemon.handle]
  | _ => cases h

theorem step_of_request_poisoned (h : a.request = some (env, request)) (hp : s.poisoned = true) :
    s.step a = s := by
  cases a with
  | verb | startup => simp [step, hp]
  | _ => cases h

/-- A verb that leaves the lock unpoisoned answered, and did one of the things verbs do. -/
theorem step_handled (h : a.request = some (env, request)) (hp : s.poisoned = false)
    (hp' : (s.step a).poisoned = false) :
    ∃ response, Daemon.Handled env s.daemon request (s.step a).daemon response := by
  rw [step_of_request h hp] at hp' ⊢
  have hanswer : (s.daemon.handle env request).2.isNone = false := hp'
  cases hr : (s.daemon.handle env request).2 with
  | none => simp [hr] at hanswer
  | some response =>
    exact ⟨response, Daemon.handle_handled
      (Prod.ext rfl hr : s.daemon.handle env request = (_, some response))⟩

@[simp] theorem publish_bunker {d : Daemon N} : (d.publish event).1.bunker = d.bunker := by
  unfold Daemon.publish
  split <;> rfl

@[simp] theorem publish_vault {d : Daemon N} : (d.publish event).1.vault = d.vault := by
  unfold Daemon.publish
  split <;> rfl

@[simp] theorem publish_engine {d : Daemon N} : (d.publish event).1.engine = d.engine := by
  unfold Daemon.publish
  split <;> rfl

@[simp] theorem publish_pool {d : Daemon N} :
    (d.publish event).1.pool.isSome = d.pool.isSome := by
  unfold Daemon.publish
  split <;> simp_all

@[simp] theorem burn_bunker {d : Daemon N} {secret : String} :
    (d.burn env secret).1.bunker = d.bunker := by
  unfold Daemon.burn
  split <;> rfl

@[simp] theorem burn_pool {d : Daemon N} {secret : String} :
    (d.burn env secret).1.pool = d.pool := by
  unfold Daemon.burn
  split <;> rfl

@[simp] theorem burn_engine {d : Daemon N} {secret : String} :
    (d.burn env secret).1.engine = d.engine := by
  unfold Daemon.burn
  split <;> rfl

@[simp] theorem burn_key {d : Daemon N} {secret : String} :
    (d.burn env secret).1.vault.key = d.vault.key := by
  unfold Daemon.burn
  split
  · rename_i vault burned h
    obtain ⟨-, -, -, hkey, -⟩ := Vault.burnSecret_ok h
    exact hkey
  · rfl

/-- What no beat of the worker touches. -/
structure Framed (s s' : System N) : Prop where
  poisoned : s'.poisoned = s.poisoned
  bunker : s'.daemon.bunker = s.daemon.bunker
  key : s'.daemon.vault.key = s.daemon.vault.key
  pool : s'.daemon.pool.isSome = s.daemon.pool.isSome

theorem Framed.refl (s : System N) {worker : Worker N} : s.Framed { s with worker } :=
  ⟨rfl, rfl, rfl, rfl⟩

theorem workerCall_framed {call : Option (Engine N)} {next : Worker N} :
    s.Framed (s.workerCall call next) := by
  cases call <;> exact ⟨rfl, rfl, rfl, rfl⟩

theorem beat_framed : s.Framed (s.beat env) := by
  obtain ⟨daemon, poisoned, worker⟩ := s
  cases worker with
  | idle | dead => exact .refl _
  | pairing | serving | shedding | ending => exact workerCall_framed
  | burning answer burned =>
    cases poisoned with
    | true => exact .refl _
    | false => exact ⟨rfl, burn_bunker, burn_key, by simp [beat]⟩
  | publishing answer =>
    cases poisoned with
    | true => exact .refl _
    | false => exact ⟨rfl, publish_bunker, by simp [beat], publish_pool⟩
  | asking request id method params pc =>
    cases pc with
    | returned decision =>
      cases poisoned with
      | true => exact .refl _
      | false =>
        simp only [beat, Bool.false_eq_true, if_false]
        split <;> exact .refl _
    | _ => exact ⟨rfl, rfl, rfl, rfl⟩

/-- While `decide` has sections to go, a beat is the next of them. -/
theorem beat_deciding {request : N.Event} {id : String} {method : Method} {params : List String}
    {pc : DecidePc} (h : s.worker = .asking request id method params pc)
    (hreturned : ∀ decision, pc ≠ .returned decision) (hpanicked : pc ≠ .panicked) :
    s.beat env = { s.withEngine (s.daemon.engine.advance env request.pubkey method params pc).1 with
      worker := .asking request id method params
        (s.daemon.engine.advance env request.pubkey method params pc).2 } := by
  unfold beat
  rw [h]
  cases pc with
  | returned decision => exact absurd rfl (hreturned decision)
  | panicked => exact absurd rfl hpanicked
  | _ => rfl

/-- Taking up an event changes the bunker as planning does, and no other part. -/
theorem recv_daemon (s : System N) (env : Env N) (event : N.Event) :
    (s.recv env event).daemon = s.daemon ∨
    ∃ b, s.worker = .idle ∧ s.poisoned = false ∧ s.daemon.bunker = some b ∧
      (s.recv env event).daemon = { s.daemon with bunker := some (b.plan env event).1 } := by
  unfold recv
  cases hw : s.worker with
  | idle =>
    cases hp : s.poisoned with
    | true => simp
    | false =>
      cases hb : s.daemon.bunker with
      | none => simp [Daemon.planBunkerEvent, hb]
      | some b => simp [Daemon.planBunkerEvent, hb]
  | _ => exact .inl rfl

@[simp] theorem recv_poisoned : (s.recv env event).poisoned = s.poisoned := by
  unfold recv
  cases s.worker with
  | idle => cases s.poisoned <;> rfl
  | _ => rfl

theorem planned_eq_some {p : Plan N} (h : s.planned env event = some p) :
    ∃ b, s.worker = .idle ∧ s.poisoned = false ∧ s.daemon.bunker = some b ∧
      (b.plan env event).2 = p ∧ s.step (.recv env event) = { s with
        daemon := { s.daemon with bunker := some (b.plan env event).1 }
        worker := Worker.hold p } := by
  unfold planned at h
  split at h
  · rename_i hw
    split_ifs at h with hp
    cases hb : s.daemon.bunker with
    | none => simp [Daemon.planBunkerEvent, hb] at h
    | some b =>
      have hplan : (b.plan env event).2 = p := by simpa [Daemon.planBunkerEvent, hb] using h
      have hp' : s.poisoned = false := by simpa using hp
      exact ⟨b, hw, hp', rfl, hplan, by
        simp [step, recv, hw, hp', Daemon.planBunkerEvent, hb, hplan]⟩
  · cases h

/-- An event that nothing takes up changes nothing, but may end a worker that finds the lock
poisoned. -/
theorem recv_of_unplanned (h : s.planned env event = none) :
    s.recv env event = s ∨ s.worker = .idle ∧ s.poisoned = true ∧
      s.recv env event = { s with worker := .dead } := by
  unfold planned at h
  unfold recv
  cases hw : s.worker with
  | idle =>
    cases hp : s.poisoned with
    | true => exact .inr ⟨rfl, rfl, by simp⟩
    | false =>
      refine .inl ?_
      simp only [hw, hp, Bool.false_eq_true, if_false] at h ⊢
      cases hb : s.daemon.bunker with
      | none =>
        obtain ⟨daemon, poisoned, worker⟩ := s
        subst hw
        simp_all [Daemon.planBunkerEvent]
      | some b => simp [Daemon.planBunkerEvent, hb] at h
  | _ => exact .inl rfl

/-- A verb that arms the bunker anew. -/
def arms (s : System N) (a : Action N) : Bool :=
  match a.request with
  | some (env, request) => (s.daemon.opening env request).isSome
  | none => false

/-- A poisoned lock stays so, over the bunker it found, until the process starts over. -/
theorem step_of_poisoned (hp : s.poisoned = true) (hr : ∀ env, a ≠ .restart env) :
    (s.step a).poisoned = true ∧ (s.step a).daemon.bunker = s.daemon.bunker := by
  cases a with
  | restart env => exact absurd rfl (hr env)
  | beat env => exact ⟨beat_framed.poisoned.trans hp, beat_framed.bunker⟩
  | recv env event =>
    refine ⟨by simpa [step] using hp, ?_⟩
    rcases recv_daemon s env event with hsame | ⟨b, -, hp', -⟩
    · simp [step, hsame]
    · cases hp.symm.trans hp'
  | _ => simp [step, hp]

theorem poisoned_of_step (hp : (s.step a).poisoned = false) (hr : ∀ env, a ≠ .restart env) :
    s.poisoned = false := by
  by_contra hne
  cases (step_of_poisoned (by simpa using hne) hr).1.symm.trans hp

theorem planned_of_armed {b : Bunker N} (idle : s.worker = .idle) (running : s.poisoned = false)
    (armed : s.daemon.bunker = some b) : s.planned env event = some (b.plan env event).2 := by
  simp [planned, idle, running, Daemon.planBunkerEvent, armed]

/-- Everything a step that leaves the lock unpoisoned can have done. -/
inductive Stepped (s : System N) : Action N → System N → Prop
  | restarted (now : Env N) : Stepped s (.restart now) (s.restart now)
  | answered {action : Action N} (now : Env N) (verb : Request) {response : Response}
      {d' : Daemon N} (running : s.poisoned = false) (called : action.request = some (now, verb))
      (handled : Daemon.Handled now s.daemon verb d' response) :
      Stepped s action { s with daemon := d' }
  /-- a watchdog inside its window, or an event that nothing takes up -/
  | unchanged {action : Action N} (running : s.poisoned = false)
      (uncalled : action.request = none) : Stepped s action s
  | locked (now : Env N) (running : s.poisoned = false)
      (expired : s.daemon.inactivityExpired now = true) :
      Stepped s (.watchdog now) { s with daemon := s.daemon.lockSwitch }
  | planned (now : Env N) (arrived : N.Event) (b : Bunker N) (running : s.poisoned = false)
      (idle : s.worker = .idle) (armed : s.daemon.bunker = some b) :
      Stepped s (.recv now arrived) { s with
        daemon := { s.daemon with bunker := some (b.plan now arrived).1 }
        worker := Worker.hold (b.plan now arrived).2 }
  | beaten (now : Env N) (running : s.poisoned = false) : Stepped s (.beat now) (s.beat now)

theorem step_stepped (hp : (s.step a).poisoned = false) : Stepped s a (s.step a) := by
  by_cases hrestart : ∃ env, a = .restart env
  · obtain ⟨env, rfl⟩ := hrestart
    exact .restarted env
  have running := poisoned_of_step hp fun env h => hrestart ⟨env, h⟩
  cases hreq : a.request with
  | some asked =>
    obtain ⟨env, request⟩ := asked
    obtain ⟨response, hhandled⟩ := step_handled hreq running hp
    rw [step_of_request hreq running] at hp hhandled ⊢
    have hanswered : (s.daemon.handle env request).2.isNone = s.poisoned := hp.trans running.symm
    have hsame : s.underLock (s.daemon.handle env request) =
        { s with daemon := (s.daemon.handle env request).1 } := by
      rw [underLock, hanswered]
    rw [hsame]
    exact .answered env request running hreq hhandled
  | none =>
    cases a with
    | verb | startup => cases hreq
    | restart env => exact absurd ⟨env, rfl⟩ hrestart
    | beat env => exact .beaten env running
    | watchdog env =>
      cases hexpired : s.daemon.inactivityExpired env with
      | true =>
        have hlocked : s.step (.watchdog env) = { s with daemon := s.daemon.lockSwitch } := by
          simp [step, running, Daemon.watchdog, hexpired]
        rw [hlocked]
        exact .locked env running hexpired
      | false =>
        have hsame : s.step (.watchdog env) = s := by
          simp only [step, running, Daemon.watchdog, hexpired, Bool.false_eq_true, if_false]
          rw [← running]
        rw [hsame]
        exact .unchanged running rfl
    | recv env event =>
      cases hplanned : s.planned env event with
      | some p =>
        obtain ⟨b, idle, -, armed, rfl, hstep⟩ := planned_eq_some hplanned
        rw [hstep]
        exact .planned env event b running idle armed
      | none =>
        rcases recv_of_unplanned hplanned with hsame | ⟨-, hpoisoned, -⟩
        · rw [step, hsame]
          exact .unchanged running rfl
        · cases hpoisoned.symm.trans running

end System
end Kuma.Nostr
