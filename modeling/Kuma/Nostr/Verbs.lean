import Kuma.Nostr.Ledger
import Kuma.Nostr.Registry
import Kuma.Nostr.Worker

/-! What one socket verb can do to the daemon, said once: the shapes below are all there
are, and every invariant over verbs is read off them. -/
namespace Kuma.Nostr
open Kuma.Lib

variable {N : Crate} {env : Env N}

/-- The keys an arming seeds: the records no tombstone stands on. -/
def seeded (N : Crate) (r : Registry) : List N.PublicKey :=
  r.filterMap fun e => if e.2 then none else (N.parsePublicKey e.1).toOption

theorem mem_seeded {r : Registry} {app : N.PublicKey} :
    app ∈ seeded N r ↔ ∃ name, (name, false) ∈ r ∧ N.parsePublicKey name = .ok app := by
  simp only [seeded, List.mem_filterMap]
  constructor
  · rintro ⟨⟨name, tombstone⟩, hmem, h⟩
    cases tombstone with
    | true => cases h
    | false =>
      cases hp : N.parsePublicKey name with
      | error e => simp [hp, Except.toOption] at h
      | ok pk =>
        have hpk : pk = app := by simpa [hp, Except.toOption] using h
        exact ⟨name, hmem, hpk ▸ hp⟩
  · rintro ⟨name, hmem, hp⟩
    exact ⟨_, hmem, by simp [hp, Except.toOption]⟩

namespace Bunker

/-- A change keyed by an app's spelling; a spelling that does not parse changes nothing. -/
def onApp (change : Bunker N → N.PublicKey → Bunker N) (app : String) (b : Bunker N) : Bunker N :=
  match N.parsePublicKey app with
  | .ok pubkey => change b pubkey
  | .error _ => b

end Bunker

/-- An answer that says the switch opened. -/
def Response.opens : Response → Bool
  | .setup _ | .unlock _ => true
  | _ => false

namespace Daemon

variable {d d' : Daemon N} {key : N.SecretKey}

/-- The bunker an arming builds. It knows no tombstones. -/
def freshBunker (d : Daemon N) (key : N.SecretKey) : Bunker N :=
  ((Bunker.new key d.vault.outstanding).seed (seeded N d.engine.registry)).withRelays d.relays

@[simp] theorem freshBunker_keys : (d.freshBunker key).keys = key := rfl

@[simp] theorem freshBunker_revoked : (d.freshBunker key).revoked = ∅ := rfl

@[simp] theorem freshBunker_expectedSecrets :
    (d.freshBunker key).expectedSecrets = d.vault.outstanding := rfl

theorem mem_freshBunker_sessions {app : N.PublicKey} : app ∈ (d.freshBunker key).sessions ↔
    ∃ name, (name, false) ∈ d.engine.registry ∧ N.parsePublicKey name = .ok app := by
  simp [freshBunker, Bunker.seed, Bunker.new, Bunker.withRelays, mem_seeded]

/-- Every tombstone is marked on a bunker that is not there. -/
theorem foldl_seedRecord {apps : List Paired} (acc : Daemon N × List N.PublicKey)
    (hdown : acc.1.bunker = none) :
    apps.foldl seedRecord acc = (acc.1, acc.2 ++ seeded N (registryOf apps)) := by
  induction apps generalizing acc with
  | nil => simp [seeded, registryOf]
  | cons p ps ih =>
    rw [List.foldl_cons]
    have hnil : ({ acc.1 with bunker := none } : Daemon N) = acc.1 := by rw [← hdown]
    cases hp : N.parsePublicKey p.pubkey with
    | error e =>
      have hstep : seedRecord acc p = acc := by simp [seedRecord, hp]
      rw [hstep, ih acc hdown]
      simp [seeded, registryOf, hp, Except.toOption]
    | ok pubkey =>
      cases hr : p.revokedAt with
      | none =>
        have hstep : seedRecord acc p = (acc.1, acc.2 ++ [pubkey]) := by simp [seedRecord, hp, hr]
        rw [hstep, ih (acc.1, acc.2 ++ [pubkey]) hdown]
        simp [seeded, registryOf, hp, hr, Except.toOption]
      | some at_ =>
        have hstep : seedRecord acc p = acc := by simp [seedRecord, hp, hr, hdown, hnil]
        rw [hstep, ih acc hdown]
        simp [seeded, registryOf, hr]

theorem armBunker_of_unpoisoned (hp : d.engine.poisoned = false) :
    d.armBunker key = ({ d with
      pool := some (RelayPool.spawn d.relays (N.publicKey key))
      bunker := some (d.freshBunker key) }, some (N.npub (N.publicKey key))) := by
  simp only [armBunker, teardownBunker, Engine.apps, Engine.lock_of_unpoisoned hp,
    Option.map_some]
  rw [foldl_seedRecord _ rfl]
  rfl

theorem armBunker_of_poisoned (hp : d.engine.poisoned = true) : (d.armBunker key).2 = none := by
  simp [armBunker, teardownBunker, Engine.apps, Engine.lock, hp]

section
variable {app : String} {change : Bunker N → N.PublicKey → Bunker N}
  {roads : N.PublicKey → RelayPool N → RelayPool N}

@[simp] theorem onLive_vault : (d.onLive app change roads).vault = d.vault := by
  unfold onLive
  split <;> rfl

@[simp] theorem onLive_engine : (d.onLive app change roads).engine = d.engine := by
  unfold onLive
  split <;> rfl

@[simp] theorem onLive_bunker :
    (d.onLive app change roads).bunker = d.bunker.map (Bunker.onApp change app) := by
  unfold onLive Bunker.onApp
  cases hb : d.bunker with
  | none => simp [hb]
  | some b => cases hp : N.parsePublicKey app <;> simp [hb]

@[simp] theorem onLive_pool : (d.onLive app change roads).pool.isSome = d.pool.isSome := by
  unfold onLive
  split <;> simp

end

/-- The vault and the key a verb arms with: a Setup, an Unlock or a Rotate that succeeds. -/
def opening (env : Env N) (d : Daemon N) : Request → Option (Vault N × N.SecretKey)
  | .setup mode => do
    let key ← (setupKey env mode).toOption
    let vault ← (d.vault.setup env key).toOption
    return (vault, key)
  | .unlock => do
    let vault ← (d.vault.unlock env).toOption
    let key ← vault.key
    return (vault, key)
  | .rotate => do
    let key ← d.vault.key
    let rotated ← (d.vault.rotateSecret env).toOption
    return (rotated.1, key)
  | _ => none

theorem opening_key {request : Request} {vault : Vault N}
    (h : d.opening env request = some (vault, key)) : vault.key = some key := by
  cases request with
  | setup mode =>
    obtain ⟨key', -, h⟩ := Option.bind_eq_some_iff.mp h
    obtain ⟨vault', hv, h⟩ := Option.bind_eq_some_iff.mp h
    cases h
    obtain ⟨secret, -, -, hkey⟩ := Vault.setup_ok (toOption_eq_some.mp hv)
    exact hkey
  | unlock =>
    obtain ⟨vault', -, h⟩ := Option.bind_eq_some_iff.mp h
    obtain ⟨key', hkey, h⟩ := Option.bind_eq_some_iff.mp h
    cases h
    exact hkey
  | rotate =>
    obtain ⟨key', hkey, h⟩ := Option.bind_eq_some_iff.mp h
    obtain ⟨rotated, hv, h⟩ := Option.bind_eq_some_iff.mp h
    cases h
    exact (Vault.rotateSecret_ok (toOption_eq_some.mp hv)).2.2.trans hkey
  | _ => cases h

/-- What arms over an unpoisoned engine leaves the fresh bunker. -/
theorem handle_of_opening {request : Request} {vault : Vault N} (hp : d.engine.poisoned = false)
    (h : d.opening env request = some (vault, key)) :
    (d.handle env request).1.bunker = some ({ d with vault }.freshBunker key) ∧
      (d.handle env request).1.engine = d.engine ∧ (d.handle env request).2.isSome := by
  have harm : ∀ at_, ({ d with vault, lastActivity := at_ }.armBunker key).1.bunker =
      some ({ d with vault }.freshBunker key) ∧
      ({ d with vault, lastActivity := at_ }.armBunker key).1.engine = d.engine ∧
      (({ d with vault, lastActivity := at_ }.armBunker key).2).isSome := by
    intro at_
    rw [armBunker_of_unpoisoned (d := { d with vault, lastActivity := at_ }) hp]
    exact ⟨rfl, rfl, rfl⟩
  cases request with
  | setup mode =>
    obtain ⟨key', hk, h⟩ := Option.bind_eq_some_iff.mp h
    obtain ⟨vault', hv, h⟩ := Option.bind_eq_some_iff.mp h
    cases h
    simpa [handle, setup, toOption_eq_some.mp hk, toOption_eq_some.mp hv] using harm d.lastActivity
  | unlock =>
    obtain ⟨vault', hv, h⟩ := Option.bind_eq_some_iff.mp h
    obtain ⟨key', hkey, h⟩ := Option.bind_eq_some_iff.mp h
    cases h
    simpa [handle, unlock, touch, toOption_eq_some.mp hv, hkey] using harm env.instant
  | rotate =>
    obtain ⟨key', hkey, h⟩ := Option.bind_eq_some_iff.mp h
    obtain ⟨rotated, hv, h⟩ := Option.bind_eq_some_iff.mp h
    cases h
    simpa [handle, rotate, toOption_eq_some.mp hv, hkey] using harm d.lastActivity
  | _ => cases h

/-- The requests that close the switch. -/
def closes : Request → Bool
  | .lock | .destroy true => true
  | _ => false

/-- Everything a verb that answers can have done. -/
inductive Handled (env : Env N) (d : Daemon N) : Request → Daemon N → Response → Prop
  /-- nothing but bookkeeping -/
  | idle {request d' response} (open_ : closes request = false) (quiet : response.opens = false)
      (missed : ∀ app, request = .revoke app → d.engine.registry.lookup app = none)
      (vault : d'.vault = d.vault) (bunker : d'.bunker = d.bunker) (pool : d'.pool = d.pool)
      (engine : d.engine.Moves d'.engine d.engine.registry) : Handled env d request d' response
  | revoked (app : String) {d'} (found : (d.engine.registry.lookup app).isSome)
      (vault : d'.vault = d.vault)
      (bunker : d'.bunker = d.bunker.map
        (Bunker.onApp (fun b pubkey => (b.markRevoked pubkey).evict app) app))
      (pool : d'.pool.isSome = d.pool.isSome)
      (engine : d.engine.Moves d'.engine (Register.assign app true d.engine.registry)) :
      Handled env d (.revoke app) d' (.revoke true)
  | unrevoked (app : String) {d'} (found : d.engine.registry.lookup app = some true)
      (vault : d'.vault = d.vault)
      (bunker : d'.bunker = d.bunker.map (Bunker.onApp Bunker.markUnrevoked app))
      (pool : d'.pool.isSome = d.pool.isSome)
      (engine : d.engine.Moves d'.engine (Register.assign app false d.engine.registry)) :
      Handled env d (.unrevoke app) d' (.unrevoke true)
  | deleted (app : String) {d'} (found : (d.engine.registry.lookup app).isSome)
      (vault : d'.vault = d.vault)
      (bunker : d'.bunker = d.bunker.map (Bunker.onApp (fun b _ => b.evict app) app))
      (pool : d'.pool.isSome = d.pool.isSome)
      (engine : d.engine.Moves d'.engine (Register.strike app d.engine.registry)) :
      Handled env d (.delete app) d' (.delete true)
  /-- the session is open whether or not the handshake went out -/
  | linked (uri : String) (parts : NostrConnectParts N) (b : Bunker N) {d' response}
      (parsed : parseNostrconnectUri N uri = .ok parts) (armed : d.bunker = some b)
      (quiet : response.opens = false) (vault : d'.vault = d.vault)
      (bunker : d'.bunker = some { b with sessions := insert parts.clientPubkey b.sessions })
      (pool : d'.pool.isSome = d.pool.isSome)
      (engine : d.engine.Moves d'.engine d.engine.registry ∨ d.engine.Moves d'.engine
        (Register.enrol (N.hex parts.clientPubkey) false d.engine.registry)) :
      Handled env d (.connect uri) d' response
  | minted (label : Option String) (b : Bunker N) (vault : Vault N) (secret uri : String)
      (armed : d.bunker = some b) (drawn : d.vault.mintSecret env label = .ok (vault, secret)) :
      Handled env d (.mint label)
        { d with vault, bunker := some (b.withSecrets vault.outstanding) } (.mint uri)
  | closed {request d' response} (shut : closes request = true) (key : d'.vault.key = none)
      (secrets : d'.vault.secrets = [] ∨
        d'.vault.secrets = d.vault.secrets ∧ d'.vault.store = d.vault.store)
      (store : d'.vault.store = none ∨ d'.vault.store = d.vault.store)
      (bunker : d'.bunker = none) (pool : d'.pool = none) (engine : d'.engine = d.engine) :
      Handled env d request d' response
  | armed {request d' response} (vault : Vault N) (key : N.SecretKey)
      (how : d.opening env request = some (vault, key))
      (opens : response.opens = true ∨ request = .rotate ∧ d.vault.key = some key)
      (holds : d'.vault = vault) (bunker : d'.bunker = some ({ d with vault }.freshBunker key))
      (pool : d'.pool.isSome) (engine : d'.engine = d.engine) : Handled env d request d' response

theorem Handled.refl {request : Request} {response : Response} (hopen : closes request = false)
    (hquiet : response.opens = false)
    (hmissed : ∀ app, request = .revoke app → d.engine.registry.lookup app = none) :
    Handled env d request d response :=
  .idle hopen hquiet hmissed rfl rfl rfl (.refl _)

/-- Arming answers only over an engine nothing has poisoned. -/
theorem armBunker_answered {vault : Vault N} (at_ : ℕ) {npub : String}
    (h : ({ d with vault, lastActivity := at_ }.armBunker key) = (d', some npub)) :
    d'.vault = vault ∧ d'.bunker = some ({ d with vault }.freshBunker key) ∧
      d'.pool.isSome ∧ d'.engine = d.engine := by
  cases hp : d.engine.poisoned with
  | true =>
    have hnone : (({ d with vault, lastActivity := at_ }.armBunker key).2) = none :=
      armBunker_of_poisoned hp
    rw [h] at hnone
    cases hnone
  | false =>
    rw [armBunker_of_unpoisoned (d := { d with vault, lastActivity := at_ }) hp] at h
    cases h
    exact ⟨rfl, rfl, rfl, rfl⟩

theorem setup_handled {mode : SetupMode} {response : Response}
    (h : d.setup env mode = (d', some response)) : Handled env d (.setup mode) d' response := by
  unfold setup at h
  cases hk : setupKey env mode with
  | error e =>
    simp only [hk, Prod.mk.injEq, Option.some.injEq] at h
    obtain ⟨rfl, rfl⟩ := h
    exact .refl rfl rfl nofun
  | ok key =>
    cases hv : d.vault.setup env key with
    | error e =>
      simp only [hk, hv, Prod.mk.injEq, Option.some.injEq] at h
      obtain ⟨rfl, rfl⟩ := h
      exact .refl rfl rfl nofun
    | ok vault =>
      simp only [hk, hv, Prod.mk.injEq, Option.map_eq_some_iff] at h
      obtain ⟨rfl, npub, hnpub, rfl⟩ := h
      obtain ⟨hvault, hbunker, hpool, hengine⟩ :=
        armBunker_answered d.lastActivity (Prod.ext rfl hnpub)
      exact .armed vault key (by simp [opening, hk, hv, Except.toOption]) (.inl rfl) hvault hbunker
        hpool hengine

theorem unlock_handled {response : Response} (h : d.unlock env = (d', some response)) :
    Handled env d .unlock d' response := by
  unfold unlock at h
  cases hv : d.vault.unlock env with
  | error e =>
    simp only [hv, Prod.mk.injEq, Option.some.injEq] at h
    obtain ⟨rfl, rfl⟩ := h
    exact .refl rfl rfl nofun
  | ok vault =>
    obtain ⟨key, hk⟩ := Option.isSome_iff_exists.mp (Vault.unlock_ok hv).1
    simp only [hv, hk, Prod.mk.injEq, Option.map_eq_some_iff] at h
    obtain ⟨rfl, npub, hnpub, rfl⟩ := h
    obtain ⟨hvault, hbunker, hpool, hengine⟩ :=
      armBunker_answered env.instant (Prod.ext rfl hnpub)
    exact .armed vault key (by simp [opening, hv, hk, Except.toOption]) (.inl rfl) hvault hbunker
      hpool hengine

theorem rotate_handled {response : Response} (h : d.rotate env = (d', some response)) :
    Handled env d .rotate d' response := by
  unfold rotate at h
  cases hk : d.vault.key with
  | none =>
    simp only [hk, Prod.mk.injEq, Option.some.injEq] at h
    obtain ⟨rfl, rfl⟩ := h
    exact .refl rfl rfl nofun
  | some key =>
    cases hv : d.vault.rotateSecret env with
    | error e =>
      simp only [hk, hv, Prod.mk.injEq, Option.some.injEq] at h
      obtain ⟨rfl, rfl⟩ := h
      exact .refl rfl rfl nofun
    | ok rotated =>
      simp only [hk, hv, Prod.mk.injEq, Option.map_eq_some_iff] at h
      obtain ⟨rfl, npub, hnpub, -⟩ := h
      obtain ⟨hvault, hbunker, hpool, hengine⟩ :=
        armBunker_answered d.lastActivity (Prod.ext rfl hnpub)
      exact .armed rotated.1 key (by simp [opening, hk, hv, Except.toOption]) (.inr ⟨rfl, hk⟩)
        hvault hbunker hpool hengine

/-- A verb that is one call of the engine and edits no record. -/
theorem onEngine_handled {α : Type} {call : Option (Engine N × α)} {answer : α → Response}
    {request : Request} {response : Response} (hopen : closes request = false)
    (hquiet : ∀ result, (answer result).opens = false) (hrevoke : ∀ app, request ≠ .revoke app)
    (hmoves : ∀ engine result, call = some (engine, result) →
      d.engine.Moves engine d.engine.registry)
    (h : d.onEngine call answer = (d', some response)) : Handled env d request d' response := by
  unfold onEngine at h
  cases hc : call with
  | none => simp [hc] at h
  | some called =>
    simp only [hc, Prod.mk.injEq, Option.some.injEq] at h
    obtain ⟨rfl, rfl⟩ := h
    exact .idle hopen (hquiet _) (fun app h => absurd h (hrevoke app)) rfl rfl rfl (hmoves _ _ hc)

theorem approve_handled {id : String} {rememberHours : Option ℕ} {response : Response}
    (h : d.approve env id rememberHours = (d', some response)) :
    Handled env d (.approve id rememberHours) d' response := by
  unfold approve at h
  split_ifs at h with hceiling
  · simp only [Prod.mk.injEq, Option.some.injEq] at h
    obtain ⟨rfl, rfl⟩ := h
    exact .refl rfl rfl nofun
  · exact onEngine_handled rfl (fun result => by cases result <;> rfl) nofun
      (fun engine result hc => Engine.answer_moves hc) h

theorem revoke_handled {app : String} {response : Response}
    (h : d.revoke env app = (d', some response)) : Handled env d (.revoke app) d' response := by
  unfold revoke at h
  cases hc : d.engine.revoke env app with
  | none => simp [hc] at h
  | some called =>
    obtain ⟨engine, removed⟩ := called
    obtain ⟨hmoves, hfound⟩ := Engine.revoke_moves hc
    cases removed with
    | false =>
      simp only [hc, Bool.false_eq_true, if_false, Prod.mk.injEq, Option.some.injEq] at h
      obtain ⟨rfl, rfl⟩ := h
      have hnone : d.engine.registry.lookup app = none := by simpa using hfound.symm
      rw [Register.assign_of_none hnone] at hmoves
      exact .idle rfl rfl (fun name hname => by cases hname; exact hnone) rfl rfl rfl hmoves
    | true =>
      simp only [hc, if_true, Prod.mk.injEq, Option.some.injEq] at h
      obtain ⟨rfl, rfl⟩ := h
      exact .revoked app hfound.symm (by simp) (by simp) (by simp) (by simpa using hmoves)

theorem unrevoke_handled {app : String} {response : Response}
    (h : d.unrevoke env app = (d', some response)) :
    Handled env d (.unrevoke app) d' response := by
  unfold unrevoke at h
  cases hc : d.engine.unrevoke env app with
  | none => simp [hc] at h
  | some called =>
    obtain ⟨engine, cleared⟩ := called
    obtain ⟨hmoves, hfound⟩ := Engine.unrevoke_moves hc
    cases cleared with
    | false =>
      simp only [hc, Bool.false_eq_true, if_false, Prod.mk.injEq, Option.some.injEq] at h
      obtain ⟨rfl, rfl⟩ := h
      have hkeep : Register.assign app false d.engine.registry = d.engine.registry := by
        cases hlook : d.engine.registry.lookup app with
        | none => exact Register.assign_of_none hlook
        | some tombstone =>
          cases tombstone with
          | false => exact Register.assign_of_some hlook
          | true => simp [hlook] at hfound
      rw [hkeep] at hmoves
      exact .idle rfl rfl nofun rfl rfl rfl hmoves
    | true =>
      simp only [hc, if_true, Prod.mk.injEq, Option.some.injEq] at h
      obtain ⟨rfl, rfl⟩ := h
      exact .unrevoked app (by simpa using hfound.symm) (by simp) (by simp) (by simp)
        (by simpa using hmoves)

theorem delete_handled {app : String} {response : Response}
    (h : d.delete env app = (d', some response)) : Handled env d (.delete app) d' response := by
  unfold delete at h
  cases hc : d.engine.delete env app with
  | none => simp [hc] at h
  | some called =>
    obtain ⟨engine, removed⟩ := called
    obtain ⟨hmoves, hfound⟩ := Engine.remove_moves hc
    cases removed with
    | false =>
      simp only [hc, Bool.false_eq_true, if_false, Prod.mk.injEq, Option.some.injEq] at h
      obtain ⟨rfl, rfl⟩ := h
      have hnone : d.engine.registry.lookup app = none := by simpa using hfound.symm
      rw [Register.strike_of_none hnone] at hmoves
      exact .idle rfl rfl nofun rfl rfl rfl hmoves
    | true =>
      simp only [hc, if_true, Prod.mk.injEq, Option.some.injEq] at h
      obtain ⟨rfl, rfl⟩ := h
      exact .deleted app hfound.symm (by simp) (by simp) (by simp) (by simpa using hmoves)

/-- What a handshake leaves of the bunker, sent or not. -/
theorem startHandshake_fst (env : Env N) (b : Bunker N) (uri : String) :
    (b.startHandshake env uri).1 = match parseNostrconnectUri N uri with
    | .ok parts => { b with sessions := insert parts.clientPubkey b.sessions }
    | .error _ => b := by
  cases hp : parseNostrconnectUri N uri <;> simp [Bunker.startHandshake, hp]

theorem startHandshake_parts {b : Bunker N} {uri : String} {handshake : N.Event}
    {parts : NostrConnectParts N} (h : (b.startHandshake env uri).2 = .ok (handshake, parts)) :
    parseNostrconnectUri N uri = .ok parts := by
  unfold Bunker.startHandshake at h
  split at h
  · cases h
  · rename_i parts' hparsed
    obtain ⟨content, -, h⟩ := bind_eq_ok.mp h
    obtain ⟨event, -, h⟩ := bind_eq_ok.mp h
    cases h
    exact hparsed

theorem connect_handled {uri : String} {response : Response}
    (h : d.connect env uri = (d', some response)) : Handled env d (.connect uri) d' response := by
  unfold connect at h
  cases hb : d.bunker with
  | none =>
    simp only [hb, Prod.mk.injEq, Option.some.injEq] at h
    obtain ⟨rfl, rfl⟩ := h
    exact .refl rfl rfl nofun
  | some b =>
    have hfst := startHandshake_fst env b uri
    cases hs : (b.startHandshake env uri).2 with
    | error e =>
      simp only [hb, hs, Prod.mk.injEq, Option.some.injEq] at h
      obtain ⟨rfl, rfl⟩ := h
      cases hp : parseNostrconnectUri N uri with
      | error e =>
        rw [hp] at hfst
        exact .idle rfl rfl nofun rfl (by simp [hfst, hb]) rfl (.refl _)
      | ok parts =>
        rw [hp] at hfst
        exact .linked uri parts b hp hb rfl rfl (by simp [hfst]) rfl (.inl (.refl _))
    | ok sent =>
      obtain ⟨handshake, parts⟩ := sent
      have hp := startHandshake_parts hs
      rw [hp] at hfst
      simp only [hb, hs, hfst] at h
      cases hc : d.engine.pairWithMetadata env parts.clientPubkey parts.name none parts.perms
          parts.url with
      | none => simp [hc] at h
      | some engine =>
        have hmoves := Engine.pairWithMetadata_moves hc
        cases hpool : d.pool with
        | none =>
          simp only [hc, hpool, Option.map_none, Prod.mk.injEq, Option.some.injEq] at h
          obtain ⟨rfl, rfl⟩ := h
          exact .linked uri parts b hp hb rfl rfl rfl (by simp [hpool]) (.inr hmoves)
        | some pool =>
          simp only [hc, hpool, Option.map_some, Prod.mk.injEq, Option.some.injEq] at h
          obtain ⟨rfl, rfl⟩ := h
          refine .linked uri parts b hp hb ?_ rfl rfl (by simp [hpool]) (.inr hmoves)
          split <;> rfl

theorem mint_handled {label : Option String} {response : Response}
    (h : d.mint env label = (d', response)) : Handled env d (.mint label) d' response := by
  unfold mint at h
  cases hb : d.bunker with
  | none =>
    simp only [hb, Prod.mk.injEq] at h
    obtain ⟨rfl, rfl⟩ := h
    exact .refl rfl rfl nofun
  | some b =>
    cases hv : d.vault.mintSecret env label with
    | error e =>
      simp only [hb, hv, Prod.mk.injEq] at h
      obtain ⟨rfl, rfl⟩ := h
      exact .refl rfl rfl nofun
    | ok minted =>
      simp only [hb, hv, Prod.mk.injEq] at h
      obtain ⟨rfl, rfl⟩ := h
      exact .minted label b minted.1 minted.2 _ hb hv

theorem status_handled {response : Response} (h : d.status env = (d', response)) :
    Handled env d .status d' response := by
  unfold status at h
  split at h
  · simp only [Prod.mk.injEq] at h
    obtain ⟨rfl, rfl⟩ := h
    exact .refl rfl rfl nofun
  · simp only [Prod.mk.injEq] at h
    obtain ⟨rfl, rfl⟩ := h
    exact .idle rfl rfl nofun rfl rfl rfl (.refl _)

theorem destroy_handled {confirm : Bool} {response : Response}
    (h : d.destroy env confirm = (d', response)) :
    Handled env d (.destroy confirm) d' response := by
  unfold destroy at h
  cases confirm with
  | false =>
    simp only [Bool.not_false, if_true, Prod.mk.injEq] at h
    obtain ⟨rfl, rfl⟩ := h
    exact .refl rfl rfl nofun
  | true =>
    simp only [Bool.not_true, Bool.false_eq_true, if_false, Prod.mk.injEq] at h
    obtain ⟨rfl, -⟩ := h
    obtain ⟨hkey, hsecrets, hstore⟩ := Vault.destroy_spec env d.vault
    exact .closed rfl hkey (.inl hsecrets) hstore rfl rfl rfl

/-- Every verb that answers did one of the things listed. -/
theorem handle_handled {request : Request} {response : Response}
    (h : d.handle env request = (d', some response)) : Handled env d request d' response := by
  cases request with
  | ping | touch =>
    simp only [handle, Prod.mk.injEq, Option.some.injEq] at h
    obtain ⟨rfl, rfl⟩ := h
    exact .idle rfl rfl nofun rfl rfl rfl (.refl _)
  | status =>
    simp only [handle, Prod.map, id, Prod.mk.injEq, Option.some.injEq] at h
    obtain ⟨rfl, rfl⟩ := h
    exact status_handled rfl
  | setup mode => exact setup_handled h
  | unlock => exact unlock_handled h
  | lock =>
    simp only [handle, Prod.mk.injEq, Option.some.injEq] at h
    obtain ⟨rfl, rfl⟩ := h
    exact .closed rfl rfl (.inr ⟨rfl, rfl⟩) (.inr rfl) rfl rfl rfl
  | destroy confirm =>
    simp only [handle, Prod.map, id, Prod.mk.injEq, Option.some.injEq] at h
    obtain ⟨rfl, rfl⟩ := h
    exact destroy_handled rfl
  | prompts | log | apps =>
    simp only [handle, Prod.mk.injEq, Option.map_eq_some_iff] at h
    obtain ⟨rfl, _, -, rfl⟩ := h
    exact .refl rfl rfl nofun
  | approve id rememberHours => exact approve_handled h
  | deny id =>
    exact onEngine_handled rfl (fun result => by cases result <;> rfl) nofun
      (fun engine result hc => Engine.answer_moves hc) h
  | revoke app => exact revoke_handled h
  | unrevoke app => exact unrevoke_handled h
  | delete app => exact delete_handled h
  | level app level =>
    exact onEngine_handled rfl (fun result => by cases result <;> rfl) nofun
      (fun engine result hc => Engine.setLevel_moves hc) h
  | connect uri => exact connect_handled h
  | rotate => exact rotate_handled h
  | mint label =>
    simp only [handle, Prod.map, id, Prod.mk.injEq, Option.some.injEq] at h
    obtain ⟨rfl, rfl⟩ := h
    exact mint_handled rfl
  | label app name =>
    exact onEngine_handled rfl (fun result => rfl) nofun
      (fun engine result hc => Engine.rename_moves hc) h

end Daemon
end Kuma.Nostr
