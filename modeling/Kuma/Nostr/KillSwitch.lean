import Kuma.Lib.Run
import Kuma.Nostr.Steps

/-! The kill switch: an armed bunker, a relay pool and a key in the vault come and go
together, and a closed switch answers no event until something opens it again. -/
namespace Kuma.Nostr
open Kuma.Lib

variable {N : Crate} {env : Env N}

/-- The three parts of an open switch are there together, over one key. -/
structure Coupled (d : Daemon N) : Prop where
  armed : d.bunker.isSome = d.vault.key.isSome
  pool : d.pool.isSome = d.bunker.isSome
  key : ∀ b, d.bunker = some b → d.vault.key = some b.keys

section
variable {d d' : Daemon N}

theorem Coupled.of_closed (hkey : d.vault.key = none) (hbunker : d.bunker = none)
    (hpool : d.pool = none) : Coupled d := by
  refine ⟨by rw [hbunker, hkey]; rfl, by rw [hpool, hbunker]; rfl, fun b hb => ?_⟩
  rw [hbunker] at hb
  cases hb

/-- The same three parts, with the bunker changed but for its key. -/
theorem Coupled.of_changed (change : Bunker N → Bunker N) (hd : Coupled d)
    (hchange : ∀ b, (change b).keys = b.keys) (hkey : d'.vault.key = d.vault.key)
    (hbunker : d'.bunker = d.bunker.map change) (hpool : d'.pool.isSome = d.pool.isSome) :
    Coupled d' := by
  refine ⟨?_, ?_, fun b hb => ?_⟩
  · rw [hbunker, Option.isSome_map, hkey, hd.armed]
  · rw [hbunker, Option.isSome_map, hpool, hd.pool]
  · rw [hbunker] at hb
    obtain ⟨old, hold, rfl⟩ := Option.map_eq_some_iff.mp hb
    rw [hkey, hd.key old hold, hchange]

end

namespace Daemon

variable {d d' : Daemon N} {request : Request} {response : Response}

theorem Handled.coupled (hd : Coupled d) (h : Handled env d request d' response) : Coupled d' := by
  cases h.outlined with
  | kept change reshuffles vault bunker pool =>
    exact hd.of_changed change reshuffles.keys (by rw [vault]) bunker pool
  | minted label b vault secret uri armed drawn =>
    obtain ⟨-, -, -, -, -, hkey⟩ := Vault.mintSecret_ok drawn
    exact hd.of_changed (fun b => b.withSecrets vault.outstanding) (fun _ => rfl) hkey
      (by simp [armed]) rfl
  | closed key _ _ bunker pool => exact .of_closed key bunker pool
  | armed vault key how _ holds bunker pool =>
    have hkey := opening_key how
    refine ⟨by simp [bunker, holds, hkey], by simp [bunker, pool], fun b hb => ?_⟩
    rw [bunker] at hb
    cases hb
    rw [holds, hkey, freshBunker_keys]

/-- A closed switch stays closed under every verb that does not say it opened. -/
theorem Handled.closed_of_quiet (hbunker : d.bunker = none) (hkey : d.vault.key = none)
    (h : Handled env d request d' response) (hquiet : response.opens = false) :
    d'.bunker = none ∧ d'.vault.key = none := by
  cases h.outlined with
  | kept change _ vault bunker _ => exact ⟨by rw [bunker, hbunker]; rfl, by rw [vault, hkey]⟩
  | minted label b vault secret uri armed _ => cases armed.symm.trans hbunker
  | closed key _ _ bunker _ => exact ⟨bunker, key⟩
  | armed vault key how opens _ _ _ =>
    rcases opens with hopens | ⟨-, hsome⟩
    · cases hquiet.symm.trans hopens
    · cases hsome.symm.trans hkey

/-- Over an engine nothing has poisoned an arming ends with an answer. -/
theorem armBunker_answers (hp : d.engine.poisoned = false) (vault : Vault N) (at_ : ℕ)
    (key : N.SecretKey) :
    (({ d with vault, lastActivity := at_ }.armBunker key).2).isSome := by
  rw [armBunker_of_unpoisoned (d := { d with vault, lastActivity := at_ }) hp]
  rfl

theorem onEngine_answers {α : Type} {call : Option (Engine N × α)} {answer : α → Response}
    (h : call.isSome) : (d.onEngine call answer).2.isSome := by
  obtain ⟨called, rfl⟩ := Option.isSome_iff_exists.mp h
  rfl

theorem setup_answers (hp : d.engine.poisoned = false) (mode : SetupMode) :
    (d.setup env mode).2.isSome := by
  unfold setup
  split
  · rfl
  · split
    · rfl
    · simpa using armBunker_answers hp _ d.lastActivity _

theorem unlock_answers (hp : d.engine.poisoned = false) : (d.unlock env).2.isSome := by
  unfold unlock
  split
  · rfl
  · split
    · rfl
    · simpa [touch] using armBunker_answers hp _ env.instant _

theorem rotate_answers (hp : d.engine.poisoned = false) : (d.rotate env).2.isSome := by
  unfold rotate
  split
  · rfl
  · split
    · rfl
    · simpa using armBunker_answers hp _ d.lastActivity _

theorem connect_answers (hp : d.engine.poisoned = false) (uri : String) :
    (d.connect env uri).2.isSome := by
  unfold connect
  split
  · rfl
  · dsimp only
    split
    · rfl
    · rename_i parts _
      obtain ⟨engine, hc⟩ := Engine.pairWithMetadata_isSome env parts.clientPubkey
        parts.name none parts.perms parts.url hp
      rw [hc]
      dsimp only
      split <;> rfl

theorem handle_answers (hp : d.engine.poisoned = false) (request : Request) :
    (d.handle env request).2.isSome := by
  obtain ⟨hrevoke, hunrevoke, hdelete, hrename, hlevel, hanswer⟩ :=
    Engine.calls_isSome env hp
  have hlock := Engine.lock_of_unpoisoned hp
  cases request with
  | ping | lock | touch | status | destroy | mint => rfl
  | setup mode => exact setup_answers hp mode
  | unlock => exact unlock_answers hp
  | rotate => exact rotate_answers hp
  | connect uri => exact connect_answers hp uri
  | prompts => simp [handle, Engine.prompts, hlock]
  | log => simp [handle, Engine.log, hlock]
  | apps => simp [handle, Engine.apps, hlock]
  | approve id rememberHours =>
    simp only [handle, approve]
    split
    · rfl
    · exact onEngine_answers (hanswer _ _ _)
  | deny id => exact onEngine_answers (hanswer _ _ _)
  | level app level => exact onEngine_answers (hlevel app level)
  | label app name => exact onEngine_answers (hrename app name)
  | revoke app =>
    obtain ⟨called, hc⟩ := Option.isSome_iff_exists.mp (hrevoke app)
    simp [handle, revoke, hc]
  | unrevoke app =>
    obtain ⟨called, hc⟩ := Option.isSome_iff_exists.mp (hunrevoke app)
    simp [handle, unrevoke, hc]
  | delete app =>
    obtain ⟨called, hc⟩ := Option.isSome_iff_exists.mp (hdelete app)
    simp [handle, delete, hc]

/-- A verb that panics arms nothing. -/
theorem bunker_of_panicked {request : Request} (hbunker : d.bunker = none)
    (h : (d.handle env request).2 = none) : (d.handle env request).1.bunker = none := by
  rcases handle_panicked h with ⟨vault, key, -, -, hnone⟩ | ⟨-, sessions, hchanged⟩
  · exact hnone
  · rw [hchanged, hbunker]
    rfl

/-- What a verb that answers leaves of the engine's lock. -/
theorem Handled.unpoisoned (h : Handled env d request d' response) :
    d'.engine.poisoned = d.engine.poisoned := by
  cases h with
  | idle _ _ _ _ _ _ engine => exact engine.poisoned
  | revoked _ _ _ _ _ engine => exact engine.poisoned
  | unrevoked _ _ _ _ _ engine => exact engine.poisoned
  | deleted _ _ _ _ _ engine => exact engine.poisoned
  | linked _ _ _ _ _ _ _ _ _ engine => exact engine.elim (·.poisoned) (·.poisoned)
  | minted => rfl
  | closed _ _ _ _ _ _ engine => rw [engine]
  | armed _ _ _ _ _ _ _ engine => rw [engine]

end Daemon

namespace System

variable {s : System N} {a : Action N}

theorem step_coupled (s : System N) (a : Action N) (hs : s.poisoned = false → Coupled s.daemon)
    (hp : (s.step a).poisoned = false) : Coupled (s.step a).daemon := by
  have hstep := step_stepped hp
  generalize s.step a = s' at hstep
  cases hstep with
  | restarted env => exact .of_closed rfl rfl rfl
  | answered _ _ running _ handled => exact handled.coupled (hs running)
  | unchanged running _ => exact hs running
  | locked env _ _ => exact .of_closed rfl rfl rfl
  | planned env event b running _ armed =>
    exact (hs running).of_changed (fun b => (b.plan env event).1) (fun _ => Bunker.plan_keys) rfl
      (by simp [armed]) rfl
  | beaten env running =>
    exact (hs running).of_changed id (fun _ => rfl) beat_framed.key
      (by simpa using beat_framed.bunker) beat_framed.pool

/-- The verbs alone never meet a poisoned lock. -/
theorem step_unpoisoned (s : System N) (a : Action N)
    (hs : s.poisoned = false ∧ s.daemon.engine.poisoned = false) (ha : a.isBeat = false) :
    (s.step a).poisoned = false ∧ (s.step a).daemon.engine.poisoned = false := by
  obtain ⟨hp, he⟩ := hs
  cases hreq : a.request with
  | some asked =>
    obtain ⟨env, request⟩ := asked
    have hp' : (s.step a).poisoned = false := by
      rw [step_of_request hreq hp]
      simpa [underLock] using Daemon.handle_answers he request
    obtain ⟨response, hhandled⟩ := step_handled hreq hp hp'
    exact ⟨hp', hhandled.unpoisoned.trans he⟩
  | none =>
    cases a with
    | verb | startup => cases hreq
    | restart env => exact ⟨rfl, rfl⟩
    | beat env => cases ha
    | watchdog env =>
      simp only [step, hp, Bool.false_eq_true, if_false, Daemon.watchdog]
      split <;> exact ⟨trivial, he⟩
    | recv env event =>
      refine ⟨by simpa [step] using hp, ?_⟩
      rcases recv_daemon s env event with hsame | ⟨b, -, -, -, hplan⟩
      · simpa [step, hsame] using he
      · simpa [step, hplan] using he

/-- A Lock, a confirmed Destroy, or a watchdog beat past the window. -/
def Closes (s : System N) : Action N → Prop
  | .verb _ request => Daemon.closes request = true
  | .watchdog env => s.daemon.inactivityExpired env = true
  | _ => False

/-- A Setup or an Unlock that succeeds, the startup's included. -/
def Opens (s : System N) (a : Action N) : Prop :=
  ∃ env request response, a.request = some (env, request) ∧
    (s.daemon.handle env request).2 = some response ∧ response.opens = true

/-- The switch is closed: no bunker, and no key to arm one with. -/
structure Shut (s : System N) : Prop where
  bunker : s.daemon.bunker = none
  key : s.poisoned = false → s.daemon.vault.key = none

theorem shut_of_closes (hp : s.poisoned = false) (ha : Closes s a) : Shut (s.step a) := by
  cases a with
  | verb env request =>
    cases request with
    | lock =>
      rw [step_of_request rfl hp]
      exact ⟨rfl, fun _ => rfl⟩
    | destroy confirm =>
      cases confirm with
      | false => cases ha
      | true =>
        rw [step_of_request rfl hp]
        exact ⟨rfl, fun _ => (Vault.destroy_spec _ _).1⟩
    | _ => cases ha
  | watchdog env =>
    have hexpired : s.daemon.inactivityExpired env = true := ha
    simp only [step, hp, Bool.false_eq_true, if_false, Daemon.watchdog, hexpired, if_true]
    exact ⟨rfl, fun _ => rfl⟩
  | _ => cases ha

theorem step_shut (s : System N) (a : Action N) (hs : Shut s) (ha : ¬ Opens s a) :
    Shut (s.step a) := by
  by_cases hr : ∃ env, a = .restart env
  · obtain ⟨env, rfl⟩ := hr
    exact ⟨rfl, fun _ => rfl⟩
  cases hp : s.poisoned with
  | true =>
    obtain ⟨hp', hbunker⟩ := step_of_poisoned hp fun env h => hr ⟨env, h⟩
    exact ⟨hbunker.trans hs.bunker, fun h => by simp [hp'] at h⟩
  | false =>
    cases hreq : a.request with
    | some asked =>
      obtain ⟨env, request⟩ := asked
      rw [step_of_request hreq hp]
      cases hanswer : (s.daemon.handle env request).2 with
      | none =>
        exact ⟨Daemon.bunker_of_panicked hs.bunker hanswer, fun h => by
          simp [underLock, hanswer] at h⟩
      | some response =>
        have hquiet : response.opens = false := by
          by_contra hopens
          exact ha ⟨env, request, response, hreq, hanswer, by simpa using hopens⟩
        have hhandled := Daemon.handle_handled
          (Prod.ext rfl hanswer : s.daemon.handle env request = (_, some response))
        obtain ⟨hbunker, hkey⟩ := hhandled.closed_of_quiet hs.bunker (hs.key hp) hquiet
        exact ⟨hbunker, fun _ => hkey⟩
    | none =>
      cases a with
      | verb | startup => cases hreq
      | restart env => exact ⟨rfl, fun _ => rfl⟩
      | watchdog env =>
        simp only [step, hp, Bool.false_eq_true, if_false, Daemon.watchdog]
        split
        · exact ⟨rfl, fun _ => rfl⟩
        · exact ⟨hs.bunker, fun _ => hs.key hp⟩
      | recv env event =>
        rcases recv_daemon s env event with hsame | ⟨b, -, -, hb, -⟩
        · refine ⟨?_, fun _ => ?_⟩
          · simpa [step, hsame] using hs.bunker
          · simpa [step, hsame] using hs.key hp
        · cases hb.symm.trans hs.bunker
      | beat env =>
        exact ⟨beat_framed.bunker.trans hs.bunker, fun _ => beat_framed.key.trans (hs.key hp)⟩

theorem kill_switch (boot : Boot) (as : List (Action N)) :
    ((run step (start boot) as).poisoned = false → Coupled (run step (start boot) as).daemon) ∧
    ((∀ a ∈ as, a.isBeat = false) → (run step (start boot) as).poisoned = false) ∧
    ∀ pre a post, as = pre ++ a :: post → (run step (start boot) pre).poisoned = false →
      Closes (run step (start boot) pre) a →
      Along step (fun s a => ¬ Opens s a) (run step (start boot) (pre ++ [a])) post →
      ∀ env : Env N,
        (∀ event, ((run step (start boot) as).daemon.planBunkerEvent env event).2 = none) ∧
        ∀ ask decision,
          (run step (start boot) as).daemon.executeBunkerEvent env ask decision = none := by
  refine ⟨?_, ?_, ?_⟩
  · exact run_invariant (P := fun _ _ => True) (fun s a hs _ => step_coupled s a hs)
      (fun _ => .of_closed rfl rfl rfl) (along_of_forall fun _ _ => trivial)
  · intro hverbs
    exact (run_invariant step_unpoisoned ⟨rfl, rfl⟩ (along_of_forall hverbs)).1
  · rintro pre a post rfl hp hcloses hquiet env
    rw [run_append, run_cons, run_nil] at hquiet
    have hshut := run_invariant step_shut (shut_of_closes hp hcloses) hquiet
    rw [run_append, run_cons]
    refine ⟨fun event => ?_, fun ask decision => ?_⟩
    · simp [Daemon.planBunkerEvent, hshut.bunker]
    · cases ask <;> simp [Daemon.executeBunkerEvent, hshut.bunker]

end System
end Kuma.Nostr
