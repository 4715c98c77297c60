import Kuma.Nostr.Policy

/-! `Engine::decide`, one critical section at a time. Between two sections the engine's
mutex is free and any other thread may take it. -/
namespace Kuma.Nostr
open Kuma.Lib (HashMap)

/-- Where one call of `decide` stands. -/
inductive DecidePc
  /-- called, the pairing not yet looked up -/
  | called
  /-- paired, the level not yet read -/
  | paired
  /-- judged: a person has to be asked -/
  | asking
  /-- on a card, waiting on a channel until a deadline -/
  | waiting (card : String) (ticket deadline : ℕ)
  /-- the window closed, the card not yet taken back -/
  | expired (card : String)
  | returned (decision : Decision)
  | panicked
  deriving DecidableEq

variable {N : Crate}

namespace Engine

/-- A standing answer for this app and method that still runs. -/
def trustedHere (e : Engine N) (now : ℕ) (app : N.PublicKey) (method : Method) : Bool :=
  (e.inner.remembered.lookup (rememberKey app method)).any fun until_ => decide (now < until_)

/-- How a call is allowed without asking, in the log's words; `none` asks. -/
def standingVerdict (e : Engine N) (now : ℕ) (paired : Paired) (app : N.PublicKey)
    (method : Method) (params : List String) : Option String :=
  if paired.level = .trust then some "allowed (trust)"
  else if e.trustedHere now app method then some "allowed (remembered)"
  else if paired.level = .basic ∧ isSensitive N method params = false then some "allowed (basic)"
  else none

/-- The level read. The record the pairing left is expected, and its absence panics with
the mutex held. -/
def judge (env : Env N) (e : Engine N) (app : N.PublicKey) (method : Method)
    (params : List String) : Engine N × DecidePc :=
  let hex := N.hex app
  match findApp hex e.inner.apps with
  | none => ({ e with poisoned := true }, .panicked)
  | some paired =>
    let counted := e.withApps (updateApp hex (fun p =>
      { p with requestCount := p.requestCount + 1, lastUsedAt := some env.unixNow }) e.inner.apps)
    match e.standingVerdict env.unixNow paired app method params with
    | some verdict =>
      ((counted.recordLog env hex method.debug (summarize N method params) verdict).persistApps env,
        .returned .allow)
    | none => (counted, .asking)

/-- The card an identical ask already waits on. -/
def identicalAsk (app : N.PublicKey) (method : Method) (params : List String)
    (entry : String × Prompt N) : Bool :=
  entry.2.app == app && entry.2.method == method && entry.2.params == params

/-- Join the card of an identical ask, or lay a new one. -/
def register (env : Env N) (e : Engine N) (app : N.PublicKey) (method : Method)
    (params : List String) : Engine N × DecidePc :=
  let ticket := e.channels.length
  let channels := e.channels ++ [⟨none, true⟩]
  let deadline := env.instant + promptTtl
  match e.inner.prompts.findIdx? (identicalAsk app method params) with
  | some i =>
    let card := (e.inner.prompts[i]?.map Prod.fst).getD ""
    let prompts := e.inner.prompts.modify i fun entry =>
      (entry.1, { entry.2 with responders := entry.2.responders ++ [ticket] })
    ({ e with inner := { e.inner with prompts }, channels }, .waiting card ticket deadline)
  | none =>
    let nextId := e.inner.nextId + 1
    let card := promptId env.unixNow nextId
    let prompt := { app, method, params, summary := summarize N method params,
                    responders := [ticket] }
    ({ e with inner := { e.inner with prompts := e.inner.prompts ++ [(card, prompt)], nextId },
              channels }, .waiting card ticket deadline)

/-- Whether some card still holds the sending half of a channel. -/
def senderAlive (e : Engine N) (ticket : ℕ) : Bool :=
  e.inner.prompts.any fun entry => entry.2.responders.contains ticket

/-- The wait: an answer, a dropped sender, the deadline, or more waiting. -/
def wait (env : Env N) (e : Engine N) (card : String) (ticket deadline : ℕ) :
    Engine N × DecidePc :=
  match e.channels[ticket]? with
  | none => (e, .waiting card ticket deadline)
  | some c =>
    match c.sent with
    | some decision => (e, .returned decision)
    | none =>
      if !e.senderAlive ticket then (e, .returned (.deny "the prompt was dropped"))
      else if deadline ≤ env.instant then
        ({ e with channels := e.channels.set ticket { c with open_ := false } }, .expired card)
      else (e, .waiting card ticket deadline)

/-- Take an unanswered card back; an answered one is already gone. -/
def expire (env : Env N) (e : Engine N) (app : N.PublicKey) (method : Method)
    (params : List String) (card : String) : Engine N × DecidePc :=
  let timedOut := DecidePc.returned (.deny "the ask timed out unanswered")
  if e.inner.prompts.any fun entry => entry.1 == card then
    let prompts := e.inner.prompts.filter fun entry => entry.1 != card
    let e := { e with inner := { e.inner with prompts } }
    (e.recordLog env (N.hex app) method.debug (summarize N method params) "expired unanswered",
      timedOut)
  else (e, timedOut)

/-- The next section of a call. Every section but the wait takes the mutex first. -/
def advance (env : Env N) (e : Engine N) (app : N.PublicKey) (method : Method)
    (params : List String) (pc : DecidePc) : Engine N × DecidePc :=
  match pc with
  | .called =>
    match e.pair env app with
    | some e => (e, .paired)
    | none => (e, .panicked)
  | .paired => if e.poisoned then (e, .panicked) else e.judge env app method params
  | .asking => if e.poisoned then (e, .panicked) else e.register env app method params
  | .waiting card ticket deadline => e.wait env card ticket deadline
  | .expired card =>
    if e.poisoned then (e, .panicked) else e.expire env app method params card
  | .returned decision => (e, .returned decision)
  | .panicked => (e, .panicked)

end Engine
end Kuma.Nostr
