import Kuma.Lib.Fallible
import Kuma.Nostr.Bunker

/-! What planning an event can do to the bunker, said once. Everything later that speaks of
a planned event reads it off these cases. -/
namespace Kuma.Nostr.Bunker
open Kuma.Lib (toOption_eq_some)
open Kuma.Nostr

variable {N : Crate} {env : Env N} {b b' : Bunker N} {event : N.Event} {p : Plan N}

/-- The typed request an event decrypts to. -/
def requestOf (b : Bunker N) (event : N.Event) : Option (String × Method × List String) := do
  let plaintext ← (N.nip44Decrypt b.keys event.pubkey event.content).toOption
  let plain ← (N.parseJson plaintext).toOption
  if isRawMethod plain then none
  match ← N.parseMessage plaintext with
  | .request id method params => some (id, method, params)
  | .response .. => none

/-- Every outcome of an event that decrypted: the bunker it leaves and the plan. -/
inductive Dispatched (env : Env N) (b : Bunker N) (event : N.Event) : Bunker N → Plan N → Prop
  | silent : Dispatched env b event b .ignore
  | answered (answer : N.Event) : Dispatched env b event b (.answer answer)
  | served (answer : N.Event) (paired : event.pubkey ∈ b.sessions) :
      Dispatched env b event b (.relaysServed answer event.pubkey)
  | asked (id : String) (method : Method) (params : List String)
      (paired : event.pubkey ∈ b.sessions) :
      Dispatched env b event b (.ask event id method params)
  /-- a paired app's reconnect, which spends nothing -/
  | bond (answer : N.Event) (metadata : Option ClientMeta) (perms : Option String)
      (standing : event.pubkey ∉ b.revoked) (paired : event.pubkey ∈ b.sessions) :
      Dispatched env b event b (.paired answer event.pubkey metadata none perms)
  /-- a new app's connect, which burns the live copy of its secret -/
  | opened (i : ℕ) (burned : Outstanding) (answer : N.Event) (metadata : Option ClientMeta)
      (perms : Option String) (standing : event.pubkey ∉ b.revoked)
      (stranger : event.pubkey ∉ b.sessions) (live : b.expectedSecrets[i]? = some burned) :
      Dispatched env b event
        { b with
          sessions := insert event.pubkey b.sessions
          expectedSecrets := b.expectedSecrets.eraseIdx i }
        (.paired answer event.pubkey metadata (some burned) perms)
  /-- the same connect when its ack could not be wrapped: a session and no burn -/
  | halfOpened (id : String) (params : List String) (provided : String)
      (decoded : b.requestOf event = some (id, .connect, params))
      (carried : params[1]? = some provided) (live : ∃ o ∈ b.expectedSecrets, o.secret = provided)
      (standing : event.pubkey ∉ b.revoked) (stranger : event.pubkey ∉ b.sessions)
      (unwrapped : b.responseEvent env event id (.withResult .ack) = none) :
      Dispatched env b event { b with sessions := insert event.pubkey b.sessions } .ignore
  | closed (p : Plan N) (goodbye : (∃ answer, p = .ended answer event.pubkey) ∨
        (∃ answer, p = .answer answer) ∨ p = .ignore) :
      Dispatched env b event { b with sessions := b.sessions.erase event.pubkey } p

theorem Dispatched.ofAnswer (answer : Option N.Event) :
    Dispatched env b event b (.ofAnswer answer) := by
  cases answer with
  | none => exact .silent
  | some answer => exact .answered answer

theorem planConnect_dispatched {id : String} {params : List String}
    (hreq : b.requestOf event = some (id, .connect, params)) :
    Dispatched env b event (b.planConnect env event id params).1
      (b.planConnect env event id params).2 := by
  unfold planConnect
  by_cases hr : event.pubkey ∈ b.revoked
  · simp only [hr, if_true]
    exact .ofAnswer _
  simp only [hr, if_false]
  by_cases hp : event.pubkey ∈ b.sessions
  · have hk : b.isPaired event.pubkey = true := by simp [isPaired, hp]
    have hi : insert event.pubkey b.sessions = b.sessions := Finset.insert_eq_of_mem hp
    cases ha : b.responseEvent env event id (.withResult .ack) with
    | none => simpa [hk, hi, ha] using Dispatched.silent
    | some answer => simpa [hk, hi, ha] using Dispatched.bond answer _ _ hr hp
  · have hk : b.isPaired event.pubkey = false := by simp [isPaired, hp]
    cases hs : params[1]? with
    | none => simpa [hk, hs] using Dispatched.ofAnswer _
    | some provided =>
      cases hf : b.expectedSecrets.findIdx? fun s => constantTimeEq s.secret provided with
      | none => simpa [hk, hs, hf] using Dispatched.ofAnswer _
      | some i =>
        obtain ⟨hlt, hmatch, -⟩ := List.findIdx?_eq_some_iff_getElem.mp hf
        have hlive : b.expectedSecrets[i]? = some b.expectedSecrets[i] :=
          List.getElem?_eq_getElem hlt
        cases ha : b.responseEvent env event id (.withResult .ack) with
        | none =>
          have hlive : ∃ o ∈ b.expectedSecrets, o.secret = provided :=
            ⟨_, List.getElem_mem hlt, by simpa [constantTimeEq] using hmatch⟩
          simpa [hk, hs, hf, ha] using
            Dispatched.halfOpened id params provided hreq hs hlive hr hp ha
        | some answer =>
          simpa [hk, hs, hf, ha, hlive] using Dispatched.opened i _ answer _ _ hr hp hlive

theorem planRaw_dispatched (value : Json) :
    Dispatched env b event (b.planRaw env event value).1 (b.planRaw env event value).2 := by
  unfold planRaw
  split
  · rename_i id _ _
    by_cases hp : event.pubkey ∈ b.sessions
    · cases ha : (N.printStrings b.relays).bind (b.rawResponse env event id) with
      | none => simpa [isPaired, hp, ha] using Dispatched.silent
      | some answer => simpa [isPaired, hp, ha] using Dispatched.served answer hp
    · simpa [isPaired, hp] using Dispatched.silent
  · rename_i id _ _
    cases ha : b.rawResponse env event id "ack" with
    | none => simpa [ha] using Dispatched.closed .ignore (.inr (.inr rfl))
    | some answer =>
      by_cases hp : event.pubkey ∈ b.sessions
      · simpa [ha, isPaired, hp] using
          Dispatched.closed (.ended answer event.pubkey) (.inl ⟨_, rfl⟩)
      · simpa [ha, isPaired, hp, Finset.erase_eq_of_notMem hp] using Dispatched.answered answer
  · exact .silent

theorem planRequest_dispatched {id : String} {method : Method} {params : List String}
    (hreq : b.requestOf event = some (id, method, params)) :
    Dispatched env b event (b.planRequest env event id method params).1
      (b.planRequest env event id method params).2 := by
  unfold planRequest
  split
  · exact planConnect_dispatched hreq
  · exact .ofAnswer _
  · by_cases hp : event.pubkey ∈ b.sessions
    · simpa [isPaired, hp] using Dispatched.asked id _ params hp
    · simpa [isPaired, hp] using Dispatched.ofAnswer _

theorem dispatch_dispatched :
    Dispatched env b event (b.dispatch env event).1 (b.dispatch env event).2 := by
  unfold dispatch
  split
  · exact .silent
  · rename_i plaintext hdecrypt
    split
    · exact .silent
    · rename_i plain hjson
      split
      · exact planRaw_dispatched _
      · rename_i hraw
        split
        · rename_i id method params hmessage
          have hreq : b.requestOf event = some (id, method, params) := by
            simp [requestOf, hdecrypt, hjson, hraw, hmessage, Except.toOption]
          exact planRequest_dispatched hreq
        · exact .silent

/-- The bunker that dispatches: the gates have left their marks. -/
def admitted (env : Env N) (b : Bunker N) (event : N.Event) : Bunker N :=
  { b with
    replay := b.replay.mark env.unixNow event
    rate := (b.admitRate env.instant event.pubkey).1 }

/-- Every outcome of planning an event. -/
inductive Planned (env : Env N) (b : Bunker N) (event : N.Event) : Bunker N → Plan N → Prop
  | refused (gate : b.addressed event = false ∨ (b.replay.admit_ env.unixNow event).2 = false) :
      Planned env b event b .ignore
  | shed (addressed : b.addressed event = true)
      (fresh : (b.replay.admit_ env.unixNow event).2 = true) :
      Planned env b event (b.admitted env event) (.shed event.pubkey)
  | dispatched (addressed : b.addressed event = true)
      (fresh : (b.replay.admit_ env.unixNow event).2 = true)
      (within : (b.admitRate env.instant event.pubkey).2 = true) {b' : Bunker N} {p : Plan N}
      (outcome : Dispatched env (b.admitted env event) event b' p) : Planned env b event b' p

theorem dispatch_of_requestOf {id : String} {method : Method} {params : List String}
    (h : b.requestOf event = some (id, method, params)) :
    b.dispatch env event = b.planRequest env event id method params := by
  obtain ⟨plaintext, hdecrypt, h⟩ := Option.bind_eq_some_iff.mp h
  obtain ⟨plain, hjson, h⟩ := Option.bind_eq_some_iff.mp h
  have hdecrypt := toOption_eq_some.mp hdecrypt
  have hjson := toOption_eq_some.mp hjson
  cases hraw : isRawMethod plain with
  | true => simp [hraw] at h
  | false =>
    simp only [hraw, Bool.false_eq_true, if_false] at h
    obtain ⟨message, hmessage, h⟩ := Option.bind_eq_some_iff.mp h
    cases message with
    | response => cases h
    | request id' method' params' =>
      cases h
      simp [dispatch, hdecrypt, hjson, hraw, hmessage]

/-- An event that gets past the gates is dispatched. -/
theorem plan_of_admitted (ha : b.addressed event = true)
    (hf : (b.replay.admit_ env.unixNow event).2 = true)
    (hr : (b.admitRate env.instant event.pubkey).2 = true) :
    b.plan env event = (b.admitted env event).dispatch env event := by
  have hm := Replay.admit_admitted hf
  have hr' : (({ b with replay := b.replay.mark env.unixNow event } : Bunker N).admitRate
      env.instant event.pubkey).2 = true := hr
  simp only [plan, ha, hf, hm, hr', Bool.not_true, Bool.false_eq_true, if_false]
  rfl

theorem plan_planned (env : Env N) (b : Bunker N) (event : N.Event) :
    Planned env b event (b.plan env event).1 (b.plan env event).2 := by
  unfold plan
  cases ha : b.addressed event with
  | false => exact .refused (.inl ha)
  | true =>
    cases hf : (b.replay.admit_ env.unixNow event).2 with
    | false =>
      have hm := Replay.admit_refused hf
      simp only [hf, hm, Bool.not_false, Bool.not_true, Bool.false_eq_true, if_true, if_false]
      exact .refused (.inr hf)
    | true =>
      have hm := Replay.admit_admitted hf
      simp only [hf, hm, Bool.not_true, Bool.false_eq_true, if_false]
      split
      · exact .shed ha hf
      · rename_i hr
        simp only [Bool.not_eq_true', Bool.not_eq_false] at hr
        exact .dispatched ha hf hr dispatch_dispatched

/-- The plan of an event and the bunker it leaves, read together. -/
theorem planned_of_plan (h : (b.plan env event).2 = p) :
    Planned env b event (b.plan env event).1 p := h ▸ plan_planned env b event

/-- Only an app without a live tombstone is planned as paired. -/
theorem Planned.standing {answer : N.Event} {app : N.PublicKey} {metadata : Option ClientMeta}
    {burned : Option Outstanding} {perms : Option String}
    (h : Planned env b event b' (.paired answer app metadata burned perms)) :
    event.pubkey ∉ b.revoked := by
  cases h with
  | dispatched _ _ _ outcome =>
    cases outcome with
    | bond _ _ _ standing _ => exact standing
    | opened _ _ _ _ _ standing _ _ => exact standing
    | closed p goodbye => simp at goodbye

/-- Only an app in the session set has its requests asked. -/
theorem Planned.paired_of_asks (h : Planned env b event b' p) (hasks : p.asks = true) :
    event.pubkey ∈ b.sessions := by
  cases h with
  | refused _ => cases hasks
  | shed _ _ => cases hasks
  | dispatched _ _ _ outcome =>
    cases outcome with
    | asked _ _ _ paired => exact paired
    | closed p goodbye =>
      rcases goodbye with ⟨answer, rfl⟩ | ⟨answer, rfl⟩ | rfl <;> cases hasks
    | _ => cases hasks

theorem Dispatched.keys (h : Dispatched env b event b' p) : b'.keys = b.keys := by
  cases h <;> rfl

theorem Dispatched.revoked (h : Dispatched env b event b' p) : b'.revoked = b.revoked := by
  cases h <;> rfl

theorem Dispatched.relays (h : Dispatched env b event b' p) : b'.relays = b.relays := by
  cases h <;> rfl

theorem Dispatched.replay (h : Dispatched env b event b' p) : b'.replay = b.replay := by
  cases h <;> rfl

theorem Planned.keys (h : Planned env b event b' p) : b'.keys = b.keys := by
  cases h with
  | dispatched _ _ _ outcome => exact outcome.keys
  | _ => rfl

theorem Planned.revoked (h : Planned env b event b' p) : b'.revoked = b.revoked := by
  cases h with
  | dispatched _ _ _ outcome => exact outcome.revoked
  | _ => rfl

theorem Planned.relays (h : Planned env b event b' p) : b'.relays = b.relays := by
  cases h with
  | dispatched _ _ _ outcome => exact outcome.relays
  | _ => rfl

/-- A planned event leaves the replay gates alone or leaves its mark in them. -/
theorem Planned.replay (h : Planned env b event b' p) :
    b'.replay = b.replay ∧ p = .ignore ∨
      b.addressed event = true ∧ (b.replay.admit_ env.unixNow event).2 = true ∧
        b'.replay = b.replay.mark env.unixNow event := by
  cases h with
  | refused _ => exact .inl ⟨rfl, rfl⟩
  | shed addressed fresh => exact .inr ⟨addressed, fresh, rfl⟩
  | dispatched addressed fresh _ outcome => exact .inr ⟨addressed, fresh, outcome.replay⟩

/-- The sessions other than the sender's are not an event's to change. -/
theorem Dispatched.sessions_of_ne (h : Dispatched env b event b' p) {app : N.PublicKey}
    (hne : app ≠ event.pubkey) : app ∈ b'.sessions ↔ app ∈ b.sessions := by
  cases h <;> simp [hne]

theorem Planned.sessions_of_ne (h : Planned env b event b' p) {app : N.PublicKey}
    (hne : app ≠ event.pubkey) : app ∈ b'.sessions ↔ app ∈ b.sessions := by
  cases h with
  | dispatched _ _ _ outcome => exact outcome.sessions_of_ne hne
  | _ => rfl

@[simp] theorem plan_keys : (b.plan env event).1.keys = b.keys :=
  (plan_planned env b event).keys

@[simp] theorem plan_revoked : (b.plan env event).1.revoked = b.revoked :=
  (plan_planned env b event).revoked

end Kuma.Nostr.Bunker
