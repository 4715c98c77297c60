import Kuma.Lib.Run
import Kuma.Nostr.Protocol

/-! The whole daemon process: the socket verbs, the watchdog and the bunker worker, each
taking the daemon's mutex for one beat at a time, in any order. The worker plans an event
under the lock, decides with the lock released, executes under it and publishes after. -/
namespace Kuma.Nostr

variable (N : Crate)

/-- What the worker holds between two of its beats. -/
inductive Worker
  | idle
  | pairing (answer : N.Event) (app : N.PublicKey) (metadata : Option ClientMeta)
      (burned : Option Outstanding) (perms : Option String)
  | burning (answer : N.Event) (burned : Outstanding)
  | publishing (answer : N.Event)
  | serving (answer : N.Event) (app : N.PublicKey)
  | shedding (app : N.PublicKey)
  | ending (answer : N.Event) (app : N.PublicKey)
  | asking (request : N.Event) (id : String) (method : Method) (params : List String)
      (pc : DecidePc)
  | dead

/-- `poisoned` is the daemon's mutex. The engine is shared: the worker reaches it through
its own handle, without the daemon's mutex. -/
structure System where
  daemon : Daemon N
  poisoned : Bool
  worker : Worker N

/-- What a process starts over. -/
structure Boot where
  store : SecretStore
  relays : List String
  stateDir : Option StateDir
  inactivity : Option ℕ
  instant : ℕ

/-- One beat of one thread. `restart` is the process dying and another starting over the
same store and state directory; `startup` is its unlock. -/
inductive Action
  | verb (env : Env N) (request : Request)
  | watchdog (env : Env N)
  | recv (env : Env N) (event : N.Event)
  | beat (env : Env N)
  | startup (env : Env N)
  | restart (env : Env N)

variable {N}

/-- What the worker does with a plan. -/
def Worker.hold : Plan N → Worker N
  | .ignore => .idle
  | .answer event => .publishing event
  | .paired answer app metadata burned perms => .pairing answer app metadata burned perms
  | .relaysServed answer app => .serving answer app
  | .ended answer app => .ending answer app
  | .shed app => .shedding app
  | .ask request id method params => .asking request id method params .called

namespace System

def withEngine (s : System N) (engine : Engine N) : System N :=
  { s with daemon := { s.daemon with engine } }

/-- A panic with the daemon's mutex held poisons it. -/
def underLock (s : System N) (result : Daemon N × Option Response) : System N :=
  { s with daemon := result.1, poisoned := result.2.isNone }

/-- The plan an event meets when the worker takes it up; `none` when nothing takes it up,
or the bunker is locked. -/
def planned (s : System N) (env : Env N) (event : N.Event) : Option (Plan N) :=
  match s.worker with
  | .idle => if s.poisoned then none else (s.daemon.planBunkerEvent env event).2
  | _ => none

def recv (env : Env N) (s : System N) (event : N.Event) : System N :=
  match s.worker with
  | .idle =>
    if s.poisoned then { s with worker := .dead }
    else
      let result := s.daemon.planBunkerEvent env event
      { s with daemon := result.1, worker := (result.2.map Worker.hold).getD .idle }
  | _ => s

/-- The name a pairing lands under: the minted label first, the client's claim second. -/
def pairingName (burned : Option Outstanding) (metadata : Option ClientMeta) : Option String :=
  (burned.bind Outstanding.label).or (metadata.bind ClientMeta.name)

/-- An engine call from the worker's own thread, and what it holds afterwards. -/
def workerCall (s : System N) (call : Option (Engine N)) (next : Worker N) : System N :=
  match call with
  | none => { s with worker := .dead }
  | some engine => { s.withEngine engine with worker := next }

def beat (env : Env N) (s : System N) : System N :=
  match s.worker with
  | .idle => s
  | .dead => s
  | .pairing answer app metadata burned perms =>
    s.workerCall (s.daemon.engine.pairWithMetadata env app (pairingName burned metadata)
        (metadata.bind ClientMeta.image) perms (metadata.bind ClientMeta.url))
      (match burned with
        | some burned => .burning answer burned
        | none => .publishing answer)
  | .burning answer burned =>
    if s.poisoned then { s with worker := .dead }
    else { s with daemon := (s.daemon.burn env burned.secret).1, worker := .publishing answer }
  | .publishing answer =>
    if s.poisoned then { s with worker := .dead }
    else { s with daemon := (s.daemon.publish answer).1, worker := .idle }
  | .serving answer app =>
    s.workerCall (s.daemon.engine.noted env (N.hex app) "switch_relays" "the bunker's relay list"
      "served") (.publishing answer)
  | .shedding app =>
    s.workerCall (s.daemon.engine.noted env (N.hex app) "rate_limit" "over its rate" "shed") .idle
  | .ending answer app =>
    s.workerCall ((s.daemon.engine.logout env (N.hex app)).map Prod.fst) (.publishing answer)
  | .asking request id method params (.returned decision) =>
    if s.poisoned then { s with worker := .dead }
    else
      match s.daemon.executeBunkerEvent env (.ask request id method params) decision with
      | some answer => { s with worker := .publishing answer }
      | none => { s with worker := .idle }
  | .asking _ _ _ _ .panicked => { s with worker := .dead }
  | .asking request id method params pc =>
    let (engine, pc) := s.daemon.engine.advance env request.pubkey method params pc
    { s.withEngine engine with worker := .asking request id method params pc }

/-- A new process over what the old one stored. -/
def restart (env : Env N) (s : System N) : System N where
  daemon := .new (.new s.daemon.vault.store) s.daemon.relays s.daemon.engine.stateDir
    s.daemon.inactivity env.instant
  poisoned := false
  worker := .idle

/-- A poisoned mutex stops every thread that comes to take it. -/
def step (s : System N) : Action N → System N
  | .verb env request => if s.poisoned then s else s.underLock (s.daemon.handle env request)
  | .watchdog env => if s.poisoned then s else { s with daemon := s.daemon.watchdog env }
  | .recv env event => s.recv env event
  | .beat env => s.beat env
  | .startup env => if s.poisoned then s else s.underLock (s.daemon.startupUnlock env)
  | .restart env => s.restart env

/-- The process as it starts: a locked daemon over a store and a state directory. -/
def start (boot : Boot) : System N where
  daemon := .new (.new boot.store) boot.relays boot.stateDir boot.inactivity boot.instant
  poisoned := false
  worker := .idle

end System
end Kuma.Nostr
