import Kuma.Nostr.Gate
import Kuma.Nostr.Pool
import Kuma.Nostr.Vault

/-! The daemon: the vault, the bunker it arms, the relay pool and the engine, behind one
mutex. Each socket verb runs under that mutex from end to end. A verb that answers `none`
panicked, which is what taking a poisoned engine comes to, and left the state it had
reached. -/
namespace Kuma.Nostr
open Kuma.Lib (HashMap)

inductive SetupMode
  | generate
  | import_ (secret : String) (passphrase : Option String)

inductive Request
  | ping
  | status
  | setup (mode : SetupMode)
  | unlock
  | lock
  | touch
  | destroy (confirm : Bool)
  | prompts
  | log
  | approve (id : String) (rememberHours : Option ℕ)
  | deny (id : String)
  | apps
  | revoke (app : String)
  | level (app : String) (level : Level)
  | rotate
  | mint (label : Option String)
  | connect (uri : String)
  | unrevoke (app : String)
  | delete (app : String)
  | label (app name : String)

structure InactivityFact where
  windowSecs : ℕ
  remainingSecs : ℕ

/-- What `status` says. -/
structure VaultFact where
  exists_ : Bool
  unlocked : Bool
  pubkey : Option String
  relays : List String
  connected : List String
  uri : Option String
  inactivity : Option InactivityFact

inductive Response
  | err (error : String)
  | ping
  | status (vault : VaultFact)
  | setup (pubkey : String)
  | unlock (pubkey : String)
  | lock
  | touch
  | destroyDryRun (would : String)
  | destroy
  | prompts (prompts : List PromptView)
  | log (log : List LogEntry)
  | approve
  | deny
  | apps (apps : List Paired)
  | revoke (removed : Bool)
  | level
  | rotate (uri : String)
  | mint (uri : String)
  | connect (name : Option String) (relays : List String)
  | unrevoke (cleared : Bool)
  | delete (removed : Bool)
  | label (named : Bool)

/-- The inactivity window and the last activity are on the monotonic clock. -/
structure Daemon (N : Crate) where
  vault : Vault N
  relays : List String
  bunker : Option (Bunker N)
  pool : Option (RelayPool N)
  engine : Engine N
  relayStates : HashMap String RelayState
  inactivity : Option ℕ
  lastActivity : ℕ

/-- `keys::import`. -/
def importKey (N : Crate) (raw : String) : Except String N.SecretKey :=
  let raw := Kuma.Lib.Text.trim raw.toList
  match N.parseSecretKey (String.ofList raw) with
  | some key => .ok key
  | none =>
    let words := Kuma.Lib.Text.wordCount raw
    if words ≤ 1 then .error "not an nsec, not hex, and not a mnemonic"
    else if words ≠ 12 ∧ words ≠ 24 then
      .error ("a mnemonic is 12 or 24 words, got " ++ toString words)
    else (N.keyOfMnemonic (String.ofList raw)).mapError ("mnemonic rejected: " ++ ·)

namespace Daemon

variable {N : Crate}

def new (vault : Vault N) (relays : List String) (stateDir : Option StateDir)
    (inactivity : Option ℕ) (instant : ℕ) : Daemon N where
  vault := vault
  relays := relays
  bunker := none
  pool := none
  engine := .new stateDir
  relayStates := ∅
  inactivity := inactivity
  lastActivity := instant

def touch (env : Env N) (d : Daemon N) : Daemon N := { d with lastActivity := env.instant }

def inactivityExpired (env : Env N) (d : Daemon N) : Bool :=
  d.vault.isUnlocked &&
    d.inactivity.any fun window => decide (window < env.instant - d.lastActivity)

def inactivityFact (env : Env N) (d : Daemon N) : Option InactivityFact :=
  d.inactivity.map fun window =>
    ⟨window / 1000000000, (window - (env.instant - d.lastActivity)) / 1000000000⟩

/-- Pool down, bunker dropped. -/
def teardownBunker (d : Daemon N) : Daemon N := { d with bunker := none, pool := none }

/-- The bunker stops being armed before the key goes. -/
def lockSwitch (d : Daemon N) : Daemon N :=
  let d := d.teardownBunker
  { d with vault := d.vault.lock }

/-- One beat of the inactivity watchdog. -/
def watchdog (env : Env N) (d : Daemon N) : Daemon N :=
  if d.inactivityExpired env then d.lockSwitch else d

/-- One record on its way into a freshly armed bunker. The tombstone is marked on the
daemon's own bunker, and the record's key is seeded otherwise. -/
def seedRecord (acc : Daemon N × List N.PublicKey) (paired : Paired) :
    Daemon N × List N.PublicKey :=
  match N.parsePublicKey paired.pubkey with
  | .ok pubkey =>
    if paired.revokedAt.isSome then
      ({ acc.1 with bunker := acc.1.bunker.map fun b => b.markRevoked pubkey }, acc.2)
    else (acc.1, acc.2 ++ [pubkey])
  | .error _ => acc

/-- Arm the bunker: the old one down, a pool up, a bunker over the vault's secrets, the
persisted pairings seeded into it. -/
def armBunker (d : Daemon N) (key : N.SecretKey) : Daemon N × Option String :=
  let d := d.teardownBunker
  let pubkey := N.publicKey key
  let d := { d with pool := some (RelayPool.spawn d.relays pubkey) }
  let bunker := Bunker.new key d.vault.outstanding
  match d.engine.apps with
  | none => (d, none)
  | some apps =>
    let (d, seeded) := apps.foldl seedRecord (d, [])
    let bunker := (bunker.seed seeded).withRelays d.relays
    ({ d with bunker := some bunker }, some (N.npub pubkey))

def setupKey (env : Env N) : SetupMode → Except String N.SecretKey
  | .generate => .ok (N.generateKey env.entropy)
  | .import_ secret passphrase =>
    if "ncryptsec1".toList.isPrefixOf (Kuma.Lib.Text.trim secret.toList) then
      match passphrase with
      | some pass => N.openNcryptsec secret pass
      | none => .error "an ncryptsec needs the passphrase it was wrapped with"
    else importKey N secret

def setup (env : Env N) (d : Daemon N) (mode : SetupMode) : Daemon N × Option Response :=
  match setupKey env mode with
  | .error e => (d, some (.err ("import failed: " ++ e)))
  | .ok key =>
    match d.vault.setup env key with
    | .error e => (d, some (.err e))
    | .ok vault =>
      let armed := armBunker { d with vault } key
      (armed.1, armed.2.map .setup)

def unlock (env : Env N) (d : Daemon N) : Daemon N × Option Response :=
  match d.vault.unlock env with
  | .error e => (d, some (.err e))
  | .ok vault =>
    match vault.key with
    | none => ({ d with vault }, some (.err "unlocked the vault and found no key"))
    | some key =>
      let armed := armBunker (touch env { d with vault }) key
      (armed.1, armed.2.map .unlock)

/-- The startup posture is the same unlock, with its failure on stderr. -/
def startupUnlock (env : Env N) (d : Daemon N) : Daemon N × Option Response := d.unlock env

def rotate (env : Env N) (d : Daemon N) : Daemon N × Option Response :=
  match d.vault.key with
  | none => (d, some (.err "the bunker is locked; unlock before rotating"))
  | some key =>
    match d.vault.rotateSecret env with
    | .error e => (d, some (.err e))
    | .ok (vault, secret) =>
      let armed := armBunker { d with vault } key
      (armed.1, armed.2.map fun _ =>
        match armed.1.vault.storedPubkey (env.store 1) with
        | .error e => .err e
        | .ok none => .err "rotated and found no identity"
        | .ok (some npub) => .rotate (bunkerUri npub d.relays (some secret)))

/-- The bunker's public identity: the armed one, else the stored one, else none. -/
def bunkerPubkey (env : Env N) (d : Daemon N) : Option String :=
  match d.bunker with
  | some bunker => some (N.npub bunker.publicKey)
  | none =>
    match d.vault.storedPubkey (env.store 1) with
    | .ok (some pubkey) => some (N.npub pubkey)
    | _ => none

def status (env : Env N) (d : Daemon N) : Daemon N × Response :=
  match d.vault.stored (env.store 0) with
  | .error e => (d, .err ("cannot read the vault: " ++ e))
  | .ok exists_ =>
    let relayStates := env.heard.foldl (fun states (url, state) => states.insert url state)
      d.relayStates
    let d := { d with relayStates }
    let pubkey := d.bunkerPubkey env
    let uri := match pubkey, d.vault.uriSecret, d.bunker.isSome with
      | some npub, some secret, true =>
        (N.parsePublicKey npub).toOption.map fun pk => bunkerUri pk d.relays (some secret)
      | _, _, _ => none
    let connected := (relayStates.entries.filter fun e => e.2 == .connected).map fun e => e.1
    (d, .status
      ⟨exists_, d.vault.isUnlocked, pubkey, d.relays, connected, uri, d.inactivityFact env⟩)

def destroy (env : Env N) (d : Daemon N) (confirm : Bool) : Daemon N × Response :=
  if !confirm then
    (d, .destroyDryRun "delete the vault from the keyring; the key is unrecoverable afterwards")
  else
    let d := d.teardownBunker
    let (vault, result) := d.vault.destroy env
    ({ d with vault }, match result with
      | .ok () => .destroy
      | .error e => .err e)

/-- A verb that is one call of the engine. -/
def onEngine {α : Type} (d : Daemon N) (call : Option (Engine N × α)) (answer : α → Response) :
    Daemon N × Option Response :=
  match call with
  | none => (d, none)
  | some (engine, result) => ({ d with engine }, some (answer result))

/-- The answer to a verb whose engine call may fail. -/
def Response.ofResult (done : Response) : Except String Unit → Response
  | .ok () => done
  | .error e => .err e

def approve (env : Env N) (d : Daemon N) (id : String) (rememberHours : Option ℕ) :
    Daemon N × Option Response :=
  if rememberHours.any fun hours => decide (1 < hours) then
    (d, some (.err "a remember is an hour at most; longer wants Trust"))
  else
    d.onEngine (d.engine.approve env id (rememberHours.map (· * 3600))) (Response.ofResult .approve)

/-- The live half of a verb about one app: the armed bunker's change, beside the roads'. -/
def onLive (d : Daemon N) (app : String) (change : Bunker N → N.PublicKey → Bunker N)
    (roads : N.PublicKey → RelayPool N → RelayPool N) : Daemon N :=
  match d.bunker, N.parsePublicKey app with
  | some bunker, .ok pubkey =>
    { d with bunker := some (change bunker pubkey), pool := d.pool.map (roads pubkey) }
  | _, _ => d

/-- Tombstone, eviction and road teardown, one act. -/
def revoke (env : Env N) (d : Daemon N) (app : String) : Daemon N × Option Response :=
  match d.engine.revoke env app with
  | none => (d, none)
  | some (engine, removed) =>
    let d := { d with engine }
    (if removed then
        d.onLive app (fun bunker pubkey => (bunker.markRevoked pubkey).evict app) RelayPool.dropApp
      else d, some (.revoke removed))

def unrevoke (env : Env N) (d : Daemon N) (app : String) : Daemon N × Option Response :=
  match d.engine.unrevoke env app with
  | none => (d, none)
  | some (engine, cleared) =>
    let d := { d with engine }
    (if cleared then d.onLive app Bunker.markUnrevoked (fun _ pool => pool) else d,
      some (.unrevoke cleared))

def delete (env : Env N) (d : Daemon N) (app : String) : Daemon N × Option Response :=
  match d.engine.delete env app with
  | none => (d, none)
  | some (engine, removed) =>
    let d := { d with engine }
    (if removed then d.onLive app (fun bunker _ => bunker.evict app) RelayPool.dropApp else d,
      some (.delete removed))

/-- A `nostrconnect://` pairing: the session, the roads, the record, the handshake. -/
def connect (env : Env N) (d : Daemon N) (uri : String) : Daemon N × Option Response :=
  match d.bunker with
  | none => (d, some (.err "the bunker is locked; unlock it and the pairing can land"))
  | some bunker =>
    let started := bunker.startHandshake env uri
    let d := { d with bunker := some started.1 }
    match started.2 with
    | .error e => (d, some (.err ("the URI did not parse: " ++ e)))
    | .ok (handshake, parts) =>
      let roads := RelayPool.subscribeRelays parts.clientPubkey parts.relays bunker.publicKey
      let d := { d with pool := d.pool.map roads }
      match d.engine.pairWithMetadata env parts.clientPubkey parts.name none parts.perms
          parts.url with
      | none => (d, none)
      | some engine =>
        let d := { d with engine }
        match d.pool with
        | none => (d, some (.err "the handshake was not published: the bunker is not running"))
        | some pool =>
          let published := pool.publishOnlyTo handshake parts.clientPubkey
          ({ d with pool := some published.1 }, some (match published.2 with
            | .error e => .err ("the handshake was not published: " ++ e)
            | .ok () => .connect parts.name parts.relays))

def mint (env : Env N) (d : Daemon N) (label : Option String) : Daemon N × Response :=
  match d.bunker with
  | none => (d, .err "the bunker is locked; unlock it and the pairing URI comes with it")
  | some bunker =>
    match d.vault.mintSecret env label with
    | .error e => (d, .err e)
    | .ok (vault, secret) =>
      ({ d with vault, bunker := some (bunker.withSecrets vault.outstanding) },
        .mint (bunkerUri bunker.publicKey d.relays (some secret)))

/-- One socket verb. -/
def handle (env : Env N) (d : Daemon N) (request : Request) : Daemon N × Option Response :=
  match request with
  | .ping => (d, some .ping)
  | .status => (d.status env).map id some
  | .setup mode => d.setup env mode
  | .unlock => d.unlock env
  | .lock => (d.lockSwitch, some .lock)
  | .touch => (d.touch env, some .touch)
  | .destroy confirm => (d.destroy env confirm).map id some
  | .prompts => (d, d.engine.prompts.map .prompts)
  | .log => (d, d.engine.log.map .log)
  | .approve id rememberHours => d.approve env id rememberHours
  | .deny id => d.onEngine (d.engine.deny env id) (Response.ofResult .deny)
  | .apps => (d, d.engine.apps.map .apps)
  | .revoke app => d.revoke env app
  | .unrevoke app => d.unrevoke env app
  | .delete app => d.delete env app
  | .level app level => d.onEngine (d.engine.setLevel env app level) (Response.ofResult .level)
  | .connect uri => d.connect env uri
  | .rotate => d.rotate env
  | .mint label => (d.mint env label).map id some
  | .label app name => d.onEngine (d.engine.rename env app name) .label

/-- Beat one of the worker: plan an event. `none` when the bunker is locked. -/
def planBunkerEvent (env : Env N) (d : Daemon N) (event : N.Event) :
    Daemon N × Option (Plan N) :=
  match d.bunker with
  | none => (d, none)
  | some bunker =>
    let planned := bunker.plan env event
    ({ d with bunker := some planned.1 }, some planned.2)

/-- The connect's other half: the stored copy of a burned secret dies too. -/
def burn (env : Env N) (d : Daemon N) (secret : String) : Daemon N × Except String Unit :=
  match d.vault.burnSecret env secret with
  | .ok (vault, _) => ({ d with vault }, .ok ())
  | .error e => (d, .error e)

/-- Beat three: run the decided ask. -/
def executeBunkerEvent (env : Env N) (d : Daemon N) (ask : Plan N) (decision : Decision) :
    Option N.Event :=
  match ask with
  | .ask request id method params => do
    let bunker ← d.bunker
    bunker.execute env request id method params decision
  | _ => none

def publish (d : Daemon N) (event : N.Event) : Daemon N × Except String Unit :=
  match d.pool with
  | none => (d, .error "the bunker is not running")
  | some pool =>
    let (pool, result) := match (N.tagKeys event.tags).head? with
      | some app => pool.publishFor event app
      | none => pool.publish event
    ({ d with pool := some pool }, result)

end Daemon
end Kuma.Nostr
