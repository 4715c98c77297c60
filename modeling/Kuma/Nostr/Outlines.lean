import Kuma.Nostr.Verbs

/-! The verbs once more, in outline: what invariants over the key, the vault and the bunker's
secrets need to know of them, and what a verb leaves behind that panics. -/
namespace Kuma.Nostr
open Kuma.Lib

variable {N : Crate} {env : Env N}

namespace Bunker

variable {b : Bunker N} {app : String} {pubkey : N.PublicKey}

@[simp] theorem evict_keys : (b.evict app).keys = b.keys := by
  unfold evict
  split <;> rfl

@[simp] theorem evict_revoked : (b.evict app).revoked = b.revoked := by
  unfold evict
  split <;> rfl

@[simp] theorem evict_replay : (b.evict app).replay = b.replay := by
  unfold evict
  split <;> rfl

@[simp] theorem evict_expectedSecrets : (b.evict app).expectedSecrets = b.expectedSecrets := by
  unfold evict
  split <;> rfl

theorem evict_sessions (h : N.parsePublicKey app = .ok pubkey) :
    (b.evict app).sessions = b.sessions.erase pubkey := by
  simp [evict, h]

theorem onApp_of_ok {change : Bunker N → N.PublicKey → Bunker N}
    (h : N.parsePublicKey app = .ok pubkey) : b.onApp change app = change b pubkey := by
  simp [onApp, h]

/-- What a change keeps, the change under a spelling keeps. -/
theorem onApp_kept {change : Bunker N → N.PublicKey → Bunker N} {F : Type} {f : Bunker N → F}
    (h : ∀ pubkey, f (change b pubkey) = f b) : f (b.onApp change app) = f b := by
  unfold onApp
  split
  · exact h _
  · rfl

/-- A change of the armed bunker that leaves its key, secrets and replay gates alone. -/
structure Reshuffles (change : Bunker N → Bunker N) : Prop where
  keys : ∀ b, (change b).keys = b.keys
  expectedSecrets : ∀ b, (change b).expectedSecrets = b.expectedSecrets
  replay : ∀ b, (change b).replay = b.replay

theorem Reshuffles.onApp {change : Bunker N → N.PublicKey → Bunker N}
    (h : ∀ pubkey, Reshuffles fun b => change b pubkey) :
    Reshuffles (Bunker.onApp change app) :=
  ⟨fun b => onApp_kept fun pubkey => (h pubkey).keys b,
    fun b => onApp_kept fun pubkey => (h pubkey).expectedSecrets b,
    fun b => onApp_kept fun pubkey => (h pubkey).replay b⟩

end Bunker

namespace Daemon

variable {d d' : Daemon N}

/-- A Connect changes sessions alone in the bunker, whatever comes of it. -/
theorem connect_parts (uri : String) : (d.connect env uri).1.vault = d.vault ∧
    ∃ sessions : Bunker N → Finset N.PublicKey, (d.connect env uri).1.bunker =
      d.bunker.map fun b => { b with sessions := sessions b } := by
  cases hb : d.bunker with
  | none => simp [connect, hb]
  | some b =>
    have hkept : (b.startHandshake env uri).1 =
        { b with sessions := (b.startHandshake env uri).1.sessions } := by
      rw [startHandshake_fst]
      split <;> rfl
    have hparts : (d.connect env uri).1.vault = d.vault ∧
        (d.connect env uri).1.bunker = some (b.startHandshake env uri).1 := by
      simp only [connect, hb]
      split
      · exact ⟨rfl, rfl⟩
      · split
        · exact ⟨rfl, rfl⟩
        · split <;> exact ⟨rfl, rfl⟩
    exact ⟨hparts.1, fun b => (b.startHandshake env uri).1.sessions,
      hparts.2.trans (congrArg some hkept)⟩

/-- A verb that panics got as far as an arming, or changed sessions at most. -/
theorem handle_panicked {request : Request} (h : (d.handle env request).2 = none) :
    (∃ vault key, d.opening env request = some (vault, key) ∧
      (d.handle env request).1.vault = vault ∧ (d.handle env request).1.bunker = none) ∨
    (d.handle env request).1.vault = d.vault ∧ ∃ sessions : Bunker N → Finset N.PublicKey,
      (d.handle env request).1.bunker =
        d.bunker.map fun b => { b with sessions := sessions b } := by
  have harm : ∀ (d : Daemon N) (key : N.SecretKey), (d.armBunker key).2 = none →
      (d.armBunker key).1.vault = d.vault ∧ (d.armBunker key).1.bunker = none := by
    intro d key harmed
    cases hp : d.engine.poisoned with
    | true => simp [armBunker, teardownBunker, Engine.apps, Engine.lock, hp]
    | false => simp [armBunker_of_unpoisoned hp] at harmed
  have hsame : d.vault = d.vault ∧ ∃ sessions : Bunker N → Finset N.PublicKey,
      d.bunker = d.bunker.map fun b => { b with sessions := sessions b } :=
    ⟨rfl, Bunker.sessions, by simp⟩
  cases request with
  | ping | lock | touch | status | destroy | mint => cases h
  | setup mode =>
    simp only [handle, setup] at h ⊢
    cases hk : setupKey env mode with
    | error e => simp [hk] at h
    | ok key =>
      cases hv : d.vault.setup env key with
      | error e => simp [hk, hv] at h
      | ok vault =>
        refine .inl ⟨vault, key, by simp [opening, hk, hv, Except.toOption], ?_⟩
        simp only [hk, hv, Option.map_eq_none_iff] at h ⊢
        exact harm _ _ h
  | unlock =>
    simp only [handle, unlock] at h ⊢
    cases hv : d.vault.unlock env with
    | error e => simp [hv] at h
    | ok vault =>
      cases hk : vault.key with
      | none => simp [hv, hk] at h
      | some key =>
        refine .inl ⟨vault, key, by simp [opening, hk, hv, Except.toOption], ?_⟩
        simp only [hk, hv, Option.map_eq_none_iff] at h ⊢
        exact harm _ _ h
  | rotate =>
    simp only [handle, rotate] at h ⊢
    cases hk : d.vault.key with
    | none => simp [hk] at h
    | some key =>
      cases hv : d.vault.rotateSecret env with
      | error e => simp [hk, hv] at h
      | ok rotated =>
        refine .inl ⟨rotated.1, key, by simp [opening, hk, hv, Except.toOption], ?_⟩
        simp only [hk, hv, Option.map_eq_none_iff] at h ⊢
        exact harm _ _ h
  | connect uri => exact .inr (connect_parts uri)
  | prompts | log | apps => exact .inr hsame
  | approve id rememberHours =>
    simp only [handle, approve, onEngine]
    split
    · exact .inr hsame
    · split <;> exact .inr hsame
  | deny id | level app level | label app name =>
    simp only [handle, onEngine]
    split <;> exact .inr hsame
  | revoke app =>
    cases hc : d.engine.revoke env app with
    | none =>
      have hstay : d.handle env (.revoke app) = (d, none) := by simp [handle, revoke, hc]
      rw [hstay]
      exact .inr hsame
    | some called => simp [handle, revoke, hc] at h
  | unrevoke app =>
    cases hc : d.engine.unrevoke env app with
    | none =>
      have hstay : d.handle env (.unrevoke app) = (d, none) := by simp [handle, unrevoke, hc]
      rw [hstay]
      exact .inr hsame
    | some called => simp [handle, unrevoke, hc] at h
  | delete app =>
    cases hc : d.engine.delete env app with
    | none =>
      have hstay : d.handle env (.delete app) = (d, none) := by simp [handle, delete, hc]
      rw [hstay]
      exact .inr hsame
    | some called => simp [handle, delete, hc] at h

/-- The same verbs, told apart no further than the vault and the bunker's secrets need. -/
inductive Outlined (env : Env N) (d : Daemon N) : Request → Daemon N → Response → Prop
  | kept {request : Request} {after : Daemon N} {response : Response}
      (change : Bunker N → Bunker N) (reshuffles : Bunker.Reshuffles change)
      (vault : after.vault = d.vault)
      (bunker : after.bunker = d.bunker.map change) (pool : after.pool.isSome = d.pool.isSome) :
      Outlined env d request after response
  | minted (label : Option String) (b : Bunker N) (vault : Vault N) (secret uri : String)
      (armed : d.bunker = some b) (drawn : d.vault.mintSecret env label = .ok (vault, secret)) :
      Outlined env d (.mint label)
        { d with vault, bunker := some (b.withSecrets vault.outstanding) } (.mint uri)
  | closed {request : Request} {after : Daemon N} {response : Response}
      (key : after.vault.key = none)
      (secrets : after.vault.secrets = [] ∨
        after.vault.secrets = d.vault.secrets ∧ after.vault.store = d.vault.store)
      (store : after.vault.store = none ∨ after.vault.store = d.vault.store)
      (bunker : after.bunker = none) (pool : after.pool = none) :
      Outlined env d request after response
  | armed {request : Request} {after : Daemon N} {response : Response} (vault : Vault N)
      (key : N.SecretKey) (how : d.opening env request = some (vault, key))
      (opens : response.opens = true ∨ request = .rotate ∧ d.vault.key = some key)
      (holds : after.vault = vault)
      (bunker : after.bunker = some ({ d with vault }.freshBunker key)) (pool : after.pool.isSome) :
      Outlined env d request after response

theorem Handled.outlined {request : Request} {response : Response}
    (h : Handled env d request d' response) : Outlined env d request d' response := by
  cases h with
  | idle _ _ _ vault bunker pool _ =>
    exact .kept id ⟨fun _ => rfl, fun _ => rfl, fun _ => rfl⟩ vault (by simpa using bunker)
      (by rw [pool])
  | revoked app _ vault bunker pool _ =>
    refine .kept _ (.onApp fun pubkey => ?_) vault bunker pool
    exact ⟨fun b => by simp [Bunker.markRevoked], fun b => by simp [Bunker.markRevoked],
      fun b => by simp [Bunker.markRevoked]⟩
  | unrevoked app _ vault bunker pool _ =>
    refine .kept _ (.onApp fun pubkey => ?_) vault bunker pool
    exact ⟨fun b => rfl, fun b => rfl, fun b => rfl⟩
  | deleted app _ vault bunker pool _ =>
    refine .kept _ (.onApp fun pubkey => ?_) vault bunker pool
    exact ⟨fun b => by simp, fun b => by simp, fun b => by simp⟩
  | linked uri parts b _ armed _ vault bunker pool _ =>
    exact .kept (fun b => { b with sessions := insert parts.clientPubkey b.sessions })
      ⟨fun _ => rfl, fun _ => rfl, fun _ => rfl⟩ vault (by simp [bunker, armed]) pool
  | minted label b vault secret uri armed drawn =>
    exact .minted label b vault secret uri armed drawn
  | closed _ key secrets store bunker pool _ => exact .closed key secrets store bunker pool
  | armed vault key how opens holds bunker pool _ =>
    exact .armed vault key how opens holds bunker pool

end Daemon
end Kuma.Nostr
