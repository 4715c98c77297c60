import Kuma.Nostr.Replay
import Kuma.Nostr.Uri

/-! The bunker: planning a request event under the daemon's lock, and executing one that
the gate decided. -/
namespace Kuma.Nostr
open Kuma.Lib (HashMap)

/-- `Kind::NostrConnect`, which requests and answers share. -/
def nostrConnectKind : UInt16 := 24133

structure ClientMeta where
  name : Option String
  url : Option String
  image : Option String

/-- A malformed or absent blob is no metadata, never a refusal. -/
def ClientMeta.parse (N : Crate) (raw : Option String) : Option ClientMeta := do
  let raw ← raw
  let value ← (N.parseJson raw).toOption
  some ⟨value.strAt "name", value.strAt "url", value.strAt "image"⟩

/-- An outstanding pairing secret, with the name the person minted it under. -/
structure Outstanding where
  secret : String
  label : Option String
  deriving DecidableEq

inductive Decision
  | allow
  | deny (reason : String)
  deriving DecidableEq

inductive Plan (N : Crate)
  | ignore
  | answer (event : N.Event)
  | paired (answer : N.Event) (app : N.PublicKey) (metadata : Option ClientMeta)
      (burned : Option Outstanding) (perms : Option String)
  | relaysServed (answer : N.Event) (app : N.PublicKey)
  | ended (answer : N.Event) (app : N.PublicKey)
  | shed (app : N.PublicKey)
  | ask (request : N.Event) (id : String) (method : Method) (params : List String)

/-- A finished answer, or silence when the wrap failed. -/
def Plan.ofAnswer {N : Crate} : Option N.Event → Plan N
  | some event => .answer event
  | none => .ignore

/-- A plan other than silence and the shed. -/
def Plan.speaks {N : Crate} : Plan N → Bool
  | .ignore | .shed _ => false
  | _ => true

/-- A request that waits on the gate. -/
def Plan.asks {N : Crate} : Plan N → Bool
  | .ask .. => true
  | _ => false

/-- The secret whose live copy a plan burned. -/
def Plan.burns {N : Crate} : Plan N → Option String
  | .paired _ _ _ burned _ => burned.map Outstanding.secret
  | _ => none

def rateRefillPerSec : Float := 10.0
def rateBurst : Float := 30.0
def rateBucketsMax : ℕ := 1000
def rateBucketStale : ℕ := 600 * 1000000000

/-- A token bucket: what the refill has accumulated, and when it last moved. -/
structure Bucket where
  tokens : Float
  seen : ℕ

/-- `Duration::as_secs_f64`, of a span in nanoseconds. -/
def asSecsF64 (nanos : ℕ) : Float :=
  Float.ofNat (nanos / 1000000000) + Float.ofNat (nanos % 1000000000) / 1000000000.0

/-- `f64::min`: a number wins over a NaN. -/
def minF64 (a b : Float) : Float :=
  if a.isNaN then b else if b.isNaN then a else if a ≤ b then a else b

structure Bunker (N : Crate) where
  keys : N.SecretKey
  sessions : Finset N.PublicKey
  expectedSecrets : List Outstanding
  revoked : Finset N.PublicKey
  relays : List String
  refillPerSec : Float
  burst : Float
  rate : HashMap N.PublicKey Bucket
  replay : Replay N

/-- Byte equality, whose timing alone differs from `==`. -/
def constantTimeEq (a b : String) : Bool := a == b

namespace Bunker

variable {N : Crate}

def new (keys : N.SecretKey) (expectedSecrets : List Outstanding) : Bunker N where
  keys := keys
  sessions := ∅
  expectedSecrets := expectedSecrets
  revoked := ∅
  relays := []
  refillPerSec := rateRefillPerSec
  burst := rateBurst
  rate := ∅
  replay := .empty

def publicKey (b : Bunker N) : N.PublicKey := N.publicKey b.keys

def withRelays (b : Bunker N) (relays : List String) : Bunker N := { b with relays }

def withSecrets (b : Bunker N) (secrets : List Outstanding) : Bunker N :=
  { b with expectedSecrets := secrets }

def markRevoked (b : Bunker N) (app : N.PublicKey) : Bunker N :=
  { b with revoked := insert app b.revoked }

def markUnrevoked (b : Bunker N) (app : N.PublicKey) : Bunker N :=
  { b with revoked := b.revoked.erase app }

def seed (b : Bunker N) (paired : List N.PublicKey) : Bunker N :=
  { b with sessions := b.sessions ∪ paired.toFinset }

/-- An unparsable id evicts nothing. -/
def evict (b : Bunker N) (app : String) : Bunker N :=
  match N.parsePublicKey app with
  | .ok pubkey => { b with sessions := b.sessions.erase pubkey }
  | .error _ => b

def isPaired (b : Bunker N) (app : N.PublicKey) : Bool := decide (app ∈ b.sessions)

/-- The wrap of a typed answer, encrypted back to the app that asked. -/
def responseEvent (env : Env N) (b : Bunker N) (request : N.Event) (requestId : String)
    (response : N.Response) : Option N.Event := do
  let message := N.responseMessage requestId response
  let content ← (N.nip44Encrypt env.entropy b.keys request.pubkey (N.printMessage message)).toOption
  (N.finalize env.entropy b.keys nostrConnectKind content request.pubkey).toOption

/-- The same wrap for a result the typed responses cannot carry. -/
def rawResponse (env : Env N) (b : Bunker N) (request : N.Event) (requestId : String)
    (result : String) : Option N.Event := do
  let message := Message.response requestId (some result) none
  let content ← (N.nip44Encrypt env.entropy b.keys request.pubkey (N.printMessage message)).toOption
  (N.finalize env.entropy b.keys nostrConnectKind content request.pubkey).toOption

/-- The session opens before the wrap is tried, and stays open when the wrap fails. -/
def startHandshake (env : Env N) (b : Bunker N) (uri : String) :
    Bunker N × Except String (N.Event × NostrConnectParts N) :=
  match parseNostrconnectUri N uri with
  | .error e => (b, .error e)
  | .ok parts =>
    let message := Message.response env.handshakeId (some parts.secret) none
    ({ b with sessions := insert parts.clientPubkey b.sessions }, do
      let content ← N.nip44Encrypt env.entropy b.keys parts.clientPubkey (N.printMessage message)
      let event ← N.finalize env.entropy b.keys nostrConnectKind content parts.clientPubkey
      return (event, parts))

/-- Idle buckets shed first, then the oldest eighth. -/
def bucketRoom (now : ℕ) (rate : HashMap N.PublicKey Bucket) : HashMap N.PublicKey Bucket :=
  if rate.size < rateBucketsMax then rate
  else
    let live := rate.retain fun _ bucket => decide (now - bucket.seen < rateBucketStale)
    if live.size < rateBucketsMax then live
    else
      let seens := (live.values.map Bucket.seen).mergeSort
      let cutoff := seens.getD (seens.length / 8) 0
      live.retain fun _ bucket => decide (cutoff < bucket.seen)

/-- The buckets after the sender's token is spent, and whether there was one. -/
def admitRate (b : Bunker N) (now : ℕ) (app : N.PublicKey) :
    HashMap N.PublicKey Bucket × Bool :=
  let rate := bucketRoom now b.rate
  let bucket := (rate.lookup app).getD ⟨b.burst, now⟩
  let elapsed := asSecsF64 (now - bucket.seen)
  let tokens := minF64 (bucket.tokens + elapsed * b.refillPerSec) b.burst
  if tokens ≥ 1.0 then (rate.insert app ⟨tokens - 1.0, now⟩, true)
  else (rate.insert app ⟨tokens, now⟩, false)

/-- The perms a connect asks for; a third param that opens a brace is metadata instead. -/
def connectPerms (params : List String) : Option String := do
  let raw ← params[2]?
  let trimmed := Kuma.Lib.Text.trim raw.toList
  if trimmed.isEmpty || trimmed.head? == some '\x7b' then none else some (String.ofList trimmed)

/-- The three doors of a connect, in order: the tombstone, the bond, the secret. -/
def planConnect (env : Env N) (b : Bunker N) (event : N.Event) (id : String)
    (params : List String) : Bunker N × Plan N :=
  let secret := params[1]?
  let perms := connectPerms params
  let metadata := (ClientMeta.parse N params[3]?).or (ClientMeta.parse N params[2]?)
  if event.pubkey ∈ b.revoked then
    (b, .ofAnswer (b.responseEvent env event id (.withError "this app is revoked")))
  else
    let known := b.isPaired event.pubkey
    let burnAt := match secret, known with
      | some provided, false => b.expectedSecrets.findIdx? fun s => constantTimeEq s.secret provided
      | _, _ => none
    if !(known || burnAt.isSome) then
      (b, .ofAnswer (b.responseEvent env event id
        (.withError "the connect did not carry the secret the pairing URI carries")))
    else
      let opened := { b with sessions := insert event.pubkey b.sessions }
      match b.responseEvent env event id (.withResult .ack) with
      | some answer =>
        match burnAt with
        | some i =>
          ({ opened with expectedSecrets := b.expectedSecrets.eraseIdx i },
            .paired answer event.pubkey metadata b.expectedSecrets[i]? perms)
        | none => (opened, .paired answer event.pubkey metadata none perms)
      | none => (opened, .ignore)

def planRaw (env : Env N) (b : Bunker N) (event : N.Event) (value : Json) : Bunker N × Plan N :=
  match value.strAt "id", value.strAt "method" with
  | some id, some "switch_relays" =>
    if !b.isPaired event.pubkey then (b, .ignore)
    else match (N.printStrings b.relays).bind (b.rawResponse env event id) with
      | some answer => (b, .relaysServed answer event.pubkey)
      | none => (b, .ignore)
  | some id, some "logout" =>
    let closed := { b with sessions := b.sessions.erase event.pubkey }
    match b.rawResponse env event id "ack" with
    | some answer =>
      if b.isPaired event.pubkey then (closed, .ended answer event.pubkey)
      else (closed, .answer answer)
    | none => (closed, .ignore)
  | _, _ => (b, .ignore)

/-- A typed request past the gates: protocol is answered here, the rest is asked. -/
def planRequest (env : Env N) (b : Bunker N) (event : N.Event) (id : String) (method : Method)
    (params : List String) : Bunker N × Plan N :=
  match method with
  | .connect => b.planConnect env event id params
  | .ping => (b, .ofAnswer (b.responseEvent env event id (.withResult .pong)))
  | method =>
    if !b.isPaired event.pubkey then
      (b, .ofAnswer (b.responseEvent env event id (.withError "this app is not paired")))
    else (b, .ask event id method params)

def isRawMethod (plain : Json) : Bool :=
  plain.strAt "method" == some "switch_relays" || plain.strAt "method" == some "logout"

/-- Decrypt and dispatch. What does not decrypt or parse is noise. -/
def dispatch (env : Env N) (b : Bunker N) (event : N.Event) : Bunker N × Plan N :=
  match N.nip44Decrypt b.keys event.pubkey event.content with
  | .error _ => (b, .ignore)
  | .ok plaintext =>
    match N.parseJson plaintext with
    | .error _ => (b, .ignore)
    | .ok plain =>
      if isRawMethod plain then b.planRaw env event plain
      else match N.parseMessage plaintext with
        | some (.request id method params) => b.planRequest env event id method params
        | _ => (b, .ignore)

/-- Whether the event is a request to this bunker at all. -/
def addressed (b : Bunker N) (event : N.Event) : Bool :=
  event.kind == nostrConnectKind && (N.tagKeys event.tags).contains b.publicKey

def plan (env : Env N) (b : Bunker N) (event : N.Event) : Bunker N × Plan N :=
  if !b.addressed event then (b, .ignore)
  else
    let admitted := b.replay.admit_ env.unixNow event
    let b := { b with replay := admitted.1 }
    if !admitted.2 then (b, .ignore)
    else
      let within := b.admitRate env.instant event.pubkey
      let b := { b with rate := within.1 }
      if !within.2 then (b, .shed event.pubkey)
      else b.dispatch env event

/-- The kind a `sign_event` param carries, as the signer reads it. -/
def signerKind (parsed : Json) : Option UInt16 :=
  match parsed.get? "kind" with
  | some (.number n) =>
    n.asU64.bind fun k => if k.toNat < UInt16.size then some k.toUInt16 else none
  | some (.string s) => parseU16 s
  | _ => none

def signerTags (parsed : Json) : Except String N.Tags :=
  let failed (e : String) := "the event's tags do not parse: " ++ e
  match parsed.get? "tags" with
  | some value =>
    match value.stringLists with
    | some list => (N.parseTags list).mapError failed
    | none => .error (failed (N.stringListsError value))
  | none => .ok N.noTags

def signEvent (env : Env N) (b : Bunker N) (params : List String) : N.Response :=
  match params.head? with
  | none => .withError "sign_event wants an event"
  | some json =>
    match N.parseJson json with
    | .error e => .withError ("unreadable unsigned event: " ++ e)
    | .ok parsed =>
      match signerKind parsed with
      | none => .withError "the event carries no kind"
      | some kind =>
        let content := ((parsed.get? "content").bind Json.asStr).getD ""
        match signerTags parsed with
        | .error e => .withError e
        | .ok tags =>
          let createdAt := ((parsed.get? "created_at").bind Json.asU64).getD (.ofNat env.unixNow)
          match N.signEvent env.entropy b.keys ⟨b.publicKey, createdAt, kind, tags, content⟩ with
          | .ok signed => .withResult (.signEvent signed)
          | .error e => .withError ("signing failed: " ++ e)

/-- Transform a payload for someone who is not the asking app. -/
def thirdPartyCrypto (env : Env N) (b : Bunker N) (method : Method) (params : List String) :
    N.Response :=
  match params with
  | [pk, payload] =>
    match N.parsePublicKey pk with
    | .error e => .withError ("unreadable pubkey: " ++ e)
    | .ok peer =>
      let answer (attempt : Except String (ResponseResult N.PublicKey N.Event)) : N.Response :=
        match attempt with
        | .ok result => .withResult result
        | .error e => .withError ("the payload did not transform: " ++ e)
      match method with
      | .nip04Encrypt => answer (.nip04Encrypt <$> N.nip04Encrypt env.entropy b.keys peer payload)
      | .nip04Decrypt => answer (.nip04Decrypt <$> N.nip04Decrypt b.keys peer payload)
      | .nip44Encrypt => answer (.nip44Encrypt <$> N.nip44Encrypt env.entropy b.keys peer payload)
      | .nip44Decrypt => answer (.nip44Decrypt <$> N.nip44Decrypt b.keys peer payload)
      | _ => .withError "not a third-party crypto method"
  | _ => .withError "the method wants [pubkey, payload]"

/-- The methods the gate allowed. -/
def run (env : Env N) (b : Bunker N) (method : Method) (params : List String) : N.Response :=
  match method with
  | .getPublicKey => .withResult (.getPublicKey b.publicKey)
  | .signEvent => b.signEvent env params
  | .nip04Encrypt | .nip04Decrypt | .nip44Encrypt | .nip44Decrypt =>
    b.thirdPartyCrypto env method params
  | other => .withError ("the " ++ other.debug ++ " method is not implemented")

def execute (env : Env N) (b : Bunker N) (request : N.Event) (id : String) (method : Method)
    (params : List String) (decision : Decision) : Option N.Event :=
  let response := match decision with
    | .allow => b.run env method params
    | .deny reason => .withError reason
  b.responseEvent env request id response

end Bunker
end Kuma.Nostr
