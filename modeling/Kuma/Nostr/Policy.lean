import Kuma.Nostr.Bunker

/-! The policy engine: the pairings, the prompts, the standing answers and the activity
log behind one mutex. Each critical section of the source is one definition here; a
section that finds the mutex poisoned panics, which reads as `none`. -/
namespace Kuma.Nostr
open Kuma.Lib (HashMap)

inductive Level
  | basic
  | ask
  | trust
  deriving DecidableEq

/-- The kinds that sign unattended at Basic. -/
def safeKinds : List UInt16 :=
  [1, 6, 7, 16, 1111, 30023, 30024, 1808, 9735, 10001, 30000, 30001, 24242]

/-- One paired app, as `apps.json` keeps it. `revokedAt` is the tombstone. -/
structure Paired where
  pubkey : String
  level : Level
  pairedAt : ℕ
  name : Option String
  image : Option String
  perms : Option String
  url : Option String
  revokedAt : Option ℕ
  requestCount : ℕ
  lastUsedAt : Option ℕ
  deriving DecidableEq

structure LogEntry where
  at_ : ℕ
  app : String
  method : String
  summary : String
  verdict : String
  deriving DecidableEq

/-- What `prompts` shows of one ask. -/
structure PromptView where
  id : String
  app : String
  method : String
  summary : String
  kind : Option UInt64
  kindLabel : Option String
  content : Option String
  sensitive : Bool
  retries : ℕ
  detail : Option String

/-- A `oneshot` channel: what was sent into it, and whether its receiver still waits. -/
structure Oneshot where
  sent : Option Decision
  open_ : Bool

/-- One card. The responders are the channels of every ask that joined it. -/
structure Prompt (N : Crate) where
  app : N.PublicKey
  method : Method
  params : List String
  summary : String
  responders : List ℕ

structure Inner (N : Crate) where
  apps : List Paired
  prompts : List (String × Prompt N)
  remembered : HashMap String ℕ
  log : List LogEntry
  nextId : ℕ

/-- The state directory; `none` is a file that is absent or does not parse. -/
structure StateDir where
  apps : Option (List Paired)
  log : Option (List LogEntry)

/-- The engine's shared state. `channels` holds every `oneshot` made so far, by number. -/
structure Engine (N : Crate) where
  inner : Inner N
  poisoned : Bool
  stateDir : Option StateDir
  channels : List Oneshot

def promptTtl : ℕ := 300 * 1000000000
def logCap : ℕ := 500

variable {N : Crate}

/-- The kind number an event JSON carries: a number or a numeric string. -/
def eventKind (N : Crate) (json : String) : Option UInt64 := do
  let value ← (N.parseJson json).toOption
  match ← value.get? "kind" with
  | .number n => n.asU64
  | .string s => parseU64 s
  | _ => none

def eventContent (N : Crate) (json : String) : Option String := do
  let value ← (N.parseJson json).toOption
  (value.get? "content").bind Json.asStr

/-- Whether the call reads a private payload or writes what no safe list vouches for. The
kind is cut to sixteen bits before the list is asked. -/
def isSensitive (N : Crate) (method : Method) (params : List String) : Bool :=
  match method with
  | .nip04Decrypt | .nip44Decrypt => true
  | .nip04Encrypt => true
  | .signEvent =>
    match params.head?.bind (eventKind N) with
    | some kind => !safeKinds.contains kind.toUInt16
    | none => true
  | _ => false

def detail (method : Method) (params : List String) : Option String :=
  match method with
  | .nip04Decrypt | .nip44Decrypt => params.head?.map ("decrypt for " ++ ·)
  | .nip04Encrypt => params.head?.map ("encrypt for " ++ ·)
  | _ => none

def kindLabel (kind : UInt64) : Option String :=
  match kind.toNat with
  | 0 => some "Metadata"
  | 1 => some "Note"
  | 3 => some "Contacts"
  | 4 => some "DM"
  | 5 => some "Delete"
  | 6 => some "Repost"
  | 7 => some "Reaction"
  | 8 => some "Badge Award"
  | 9 => some "Chat Message"
  | 10 => some "Group Chat"
  | 1984 => some "Report"
  | 9734 => some "Zap Request"
  | 9735 => some "Zap"
  | 10000 => some "Mute List"
  | 10001 => some "Pin List"
  | 10002 => some "Relay List"
  | 22242 => some "HTTP Auth"
  | 27235 => some "HTTP Auth"
  | 30000 => some "Categorized People"
  | 30001 => some "Categorized Bookmarks"
  | 30023 => some "Long-form Content"
  | 30078 => some "App-specific Data"
  | _ => none

def signEventSummary (N : Crate) (params : List String) : String :=
  match params.head?.bind (eventKind N) with
  | some kind =>
    match kind.toNat with
    | 0 => "Update profile"
    | 1 => "Sign a note"
    | 3 => "Update contacts"
    | 4 => "Send DM"
    | 5 => "Delete event"
    | 6 => "Repost"
    | 7 => "Sign a reaction"
    | 9 => "Sign chat message"
    | 9734 => "Sign zap request"
    | 9735 => "Sign zap"
    | 10002 => "Update relay list"
    | 22242 => "Sign http auth"
    | 24133 => "Sign NIP-46 response"
    | 27235 => "Sign http auth"
    | 30023 => "Sign article"
    | other => "Sign event (kind " ++ toString other ++ ")"
  | none => "Sign event"

/-- The ask's one line, for the prompt and the log alike. -/
def summarize (N : Crate) (method : Method) (params : List String) : String :=
  match method with
  | .signEvent => signEventSummary N params
  | .getPublicKey => "Get public key"
  | .nip04Encrypt => "Encrypt message (NIP-04)"
  | .nip04Decrypt => "Decrypt message (NIP-04)"
  | .nip44Encrypt => "Encrypt message (NIP-44)"
  | .nip44Decrypt => "Decrypt message (NIP-44)"
  | .ping => "Ping"
  | other => other.debug.toLower

def rememberKey (app : N.PublicKey) (method : Method) : String :=
  N.hex app ++ ":" ++ method.debug

/-- `format!("{}-{:04}", unix_now(), next_id)`. -/
def promptId (now nextId : ℕ) : String :=
  let digits := toString nextId
  toString now ++ "-" ++ String.ofList (List.replicate (4 - digits.length) '0') ++ digits

def Prompt.view (id : String) (prompt : Prompt N) : PromptView :=
  let eventJson := if prompt.method = .signEvent then prompt.params.head? else none
  let kind := eventJson.bind (eventKind N)
  { id
    app := N.hex prompt.app
    method := prompt.method.debug
    summary := prompt.summary
    kind
    kindLabel := kind.bind kindLabel
    content := eventJson.bind (eventContent N)
    sensitive := isSensitive N prompt.method prompt.params
    retries := prompt.responders.length
    detail := detail prompt.method prompt.params }

/-- Update the first record of `app`. -/
def updateApp (app : String) (f : Paired → Paired) : List Paired → List Paired
  | [] => []
  | p :: ps => if p.pubkey = app then f p :: ps else p :: updateApp app f ps

def findApp (app : String) (apps : List Paired) : Option Paired :=
  apps.find? fun p => p.pubkey == app

namespace Engine

/-- A file write over what the file held before. -/
def write {α : Type} (outcome : FileWrite) (old : Option α) (new : α) : Option α :=
  match outcome with
  | .written => some new
  | .refused => old
  | .torn => none

def persistApps (env : Env N) (e : Engine N) : Engine N :=
  { e with stateDir := e.stateDir.map fun dir =>
      { dir with apps := write env.appsWrite dir.apps e.inner.apps } }

def persistLog (env : Env N) (e : Engine N) : Engine N :=
  { e with stateDir := e.stateDir.map fun dir =>
      { dir with log := write env.logWrite dir.log e.inner.log } }

/-- Push, cap, persist. -/
def recordLog (env : Env N) (e : Engine N) (app method summary verdict : String) : Engine N :=
  let log := e.inner.log ++ [⟨env.unixNow, app, method, summary, verdict⟩]
  persistLog env { e with inner := { e.inner with log := log.drop (log.length - logCap) } }

/-- A fresh engine over a state directory. -/
def new (stateDir : Option StateDir) : Engine N where
  inner :=
    { apps := (stateDir.bind StateDir.apps).getD []
      prompts := []
      remembered := ∅
      log := (stateDir.bind StateDir.log).getD []
      nextId := 0 }
  poisoned := false
  stateDir := stateDir
  channels := []

/-- Taking the mutex: a poisoned one panics. -/
def lock (e : Engine N) : Option (Inner N) := if e.poisoned then none else some e.inner

def withApps (e : Engine N) (apps : List Paired) : Engine N :=
  { e with inner := { e.inner with apps } }

def withRemembered (e : Engine N) (remembered : HashMap String ℕ) : Engine N :=
  { e with inner := { e.inner with remembered } }

/-- Pair an app, or fill in what its record lacks. The fill-in is not persisted. -/
def pairWithMetadata (env : Env N) (e : Engine N) (app : N.PublicKey)
    (name image perms url : Option String) : Option (Engine N) := do
  let inner ← e.lock
  let hex := N.hex app
  match findApp hex inner.apps with
  | some _ =>
    return e.withApps (updateApp hex (fun p =>
      { p with
        name := p.name.or name
        image := p.image.or image
        perms := p.perms.or perms
        url := p.url.or url }) inner.apps)
  | none =>
    let e := e.withApps (inner.apps ++ [
      { pubkey := hex, level := .ask, pairedAt := env.unixNow, name, image, perms, url,
        revokedAt := none, requestCount := 0, lastUsedAt := none }])
    return (e.recordLog env hex "connect" "paired" "paired at ask").persistApps env

def pair (env : Env N) (e : Engine N) (app : N.PublicKey) : Option (Engine N) :=
  e.pairWithMetadata env app none none none none

def apps (e : Engine N) : Option (List Paired) := e.lock.map Inner.apps

def log (e : Engine N) : Option (List LogEntry) := e.lock.map Inner.log

def forget (app : String) (remembered : HashMap String ℕ) : HashMap String ℕ :=
  remembered.retain fun key _ => !(app ++ ":").toList.isPrefixOf key.toList

/-- The tombstone's act; whether a record was found. -/
def revoke (env : Env N) (e : Engine N) (app : String) : Option (Engine N × Bool) := do
  let inner ← e.lock
  match findApp app inner.apps with
  | none => return (e, false)
  | some paired =>
    let e := (e.withApps (updateApp app (fun p => { p with revokedAt := some env.unixNow })
      inner.apps)).withRemembered (forget app inner.remembered)
    let e := if paired.revokedAt.isNone then
        e.recordLog env app "revoke" "the person revoked the app" "tombstoned"
      else e
    return (e.persistApps env, true)

/-- Clear a tombstone; whether there was one. -/
def unrevoke (env : Env N) (e : Engine N) (app : String) : Option (Engine N × Bool) := do
  let inner ← e.lock
  match findApp app inner.apps with
  | none => return (e, false)
  | some paired =>
    if paired.revokedAt.isNone then return (e, false)
    let e := e.withApps (updateApp app (fun p => { p with revokedAt := none }) inner.apps)
    let e := e.recordLog env app "unrevoke" "the person un-revoked the app" "cleared"
    return (e.persistApps env, true)

/-- The person's label for an app. -/
def rename (env : Env N) (e : Engine N) (app name : String) : Option (Engine N × Bool) := do
  let inner ← e.lock
  match findApp app inner.apps with
  | none => return (e, false)
  | some _ =>
    let e := e.withApps (updateApp app (fun p => { p with name := some name }) inner.apps)
    let e := e.recordLog env app "label" "the person named the app" "named"
    return (e.persistApps env, true)

/-- The record and its standing answers, gone together; whether there was a record. -/
def removeApp (e : Engine N) (app : String) : Engine N × Bool :=
  let apps := e.inner.apps.filter fun p => p.pubkey != app
  ((e.withApps apps).withRemembered (forget app e.inner.remembered),
    decide (apps.length < e.inner.apps.length))

/-- The body `delete` and `logout` share, under the words each of them logs. -/
def remove (env : Env N) (e : Engine N) (app method summary : String) :
    Option (Engine N × Bool) := do
  let _ ← e.lock
  let (e, removed) := e.removeApp app
  if removed then return ((e.recordLog env app method summary "removed").persistApps env, true)
  return (e, false)

def delete (env : Env N) (e : Engine N) (app : String) : Option (Engine N × Bool) :=
  e.remove env app "delete" "the person deleted the app"

def logout (env : Env N) (e : Engine N) (app : String) : Option (Engine N × Bool) :=
  e.remove env app "logout" "the app ended its own session"

def noted (env : Env N) (e : Engine N) (app method summary verdict : String) :
    Option (Engine N) := do
  let _ ← e.lock
  return e.recordLog env app method summary verdict

def prompts (e : Engine N) : Option (List PromptView) := do
  let inner ← e.lock
  return inner.prompts.map fun (id, prompt) => prompt.view id

/-- Send into a channel: it lands while the receiver waits. -/
def send (channels : List Oneshot) (ticket : ℕ) (decision : Decision) : List Oneshot × Bool :=
  match channels[ticket]? with
  | some c => if c.open_ then (channels.set ticket { c with sent := some decision }, true)
    else (channels, false)
  | none => (channels, false)

/-- One decision to every responder; whether anyone received it. -/
def sendAll (channels : List Oneshot) (decision : Decision) : List ℕ → List Oneshot × Bool
  | [] => (channels, false)
  | ticket :: tickets =>
    let sent := send channels ticket decision
    let rest := sendAll sent.1 decision tickets
    (rest.1, sent.2 || rest.2)

def verdictOf : Decision → String
  | .allow => "allowed"
  | .deny reason => "denied: " ++ reason

/-- Answer a card, for every waiter it collected. `remember` is in seconds. -/
def answer (env : Env N) (e : Engine N) (id : String) (decision : Decision)
    (remember : Option ℕ) : Option (Engine N × Except String Unit) := do
  let inner ← e.lock
  match inner.prompts.find? fun p => p.1 == id with
  | none => return (e, .error ("no prompt " ++ id))
  | some (_, prompt) =>
    let remembered := match remember with
      | some secs =>
        inner.remembered.insert (rememberKey prompt.app prompt.method) (env.unixNow + secs)
      | none => inner.remembered
    let (channels, received) := sendAll e.channels decision prompt.responders
    let e := { e with
      inner := { inner with prompts := inner.prompts.eraseP fun p => p.1 == id, remembered }
      channels }
    let verdict := if received then verdictOf decision
      else "an answer came after the window closed"
    return (e.recordLog env (N.hex prompt.app) prompt.method.debug prompt.summary verdict, .ok ())

def approve (env : Env N) (e : Engine N) (id : String) (remember : Option ℕ) :
    Option (Engine N × Except String Unit) := e.answer env id .allow remember

def deny (env : Env N) (e : Engine N) (id : String) : Option (Engine N × Except String Unit) :=
  e.answer env id (.deny "denied") none

def setLevel (env : Env N) (e : Engine N) (app : String) (level : Level) :
    Option (Engine N × Except String Unit) := do
  let inner ← e.lock
  match findApp app inner.apps with
  | none => return (e, .error ("no paired app " ++ app))
  | some _ =>
    return ((e.withApps (updateApp app (fun p => { p with level }) inner.apps)).persistApps env,
      .ok ())

end Engine
end Kuma.Nostr
