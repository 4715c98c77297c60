import Kuma.Lib.Run
import Kuma.Nostr.Planning
import Kuma.Nostr.Policy

/-! The worker's queue: one thread plans the events in the order they came in, each when its
turn comes, and stands still while an ask waits on a person. The gates read the clocks at that
turn, so one app's pending ask moves the moment at which another app's event is judged. -/
namespace Kuma.Nostr
open Kuma.Lib

variable {N : Crate}

/-- An event in the inbound channel: when it came in on the monotonic clock, what its section
reads from outside, and, should it be asked, how long its answer keeps the worker. -/
structure Delivery (N : Crate) where
  event : N.Event
  arrives : ℕ
  env : Env N
  holds : ℕ
  brief : holds ≤ promptTtl

/-- The bunker, and the instant from which the worker is free again. -/
structure Queue (N : Crate) where
  bunker : Bunker N
  free : ℕ

namespace Bunker

variable {b b' : Bunker N} {env env' : Env N} {event : N.Event}

/-- The tokens the sender's bucket holds after the refill. -/
def tokens (b : Bunker N) (now : ℕ) (app : N.PublicKey) : Float :=
  let bucket := ((bucketRoom now b.rate).lookup app).getD ⟨b.burst, now⟩
  minF64 (bucket.tokens + asSecsF64 (now - bucket.seen) * b.refillPerSec) b.burst

/-- The first outstanding secret that an echo matches. -/
def door (b : Bunker N) (provided : String) : Option Outstanding :=
  b.expectedSecrets.find? fun o => constantTimeEq o.secret provided

/-- The secret a connect event carries. -/
def carried (b : Bunker N) (event : N.Event) : Option String :=
  match b.requestOf event with
  | some (_, .connect, params) => params[1]?
  | _ => none

/-- None of the three replay tests refuses the event: it is unseen, fresh, and not behind its
own sender's time. -/
def timely (b : Bunker N) (now : ℕ) (event : N.Event) : Bool :=
  !b.replay.seenBefore now event && isFresh now event.createdAt &&
    !b.replay.travelsBack now event

/-- Two bunkers that differ in nothing an app's event reads past the gates, the outstanding
secrets apart. -/
structure Alike (app : N.PublicKey) (b b' : Bunker N) : Prop where
  keys : b.keys = b'.keys
  relays : b.relays = b'.relays
  revoked : b.revoked = b'.revoked
  paired : app ∈ b.sessions ↔ app ∈ b'.sessions

/-- The clocks of two moments and the records of two bunkers tell the same of an event: its
timeliness, whether its sender has a token left, and which secret its connect would open. -/
structure Undisturbed (event : N.Event) (env : Env N) (b : Bunker N) (env' : Env N)
    (b' : Bunker N) : Prop where
  timely : b.timely env.unixNow event = b'.timely env'.unixNow event
  token : b.timely env.unixNow event = true →
    (b.tokens env.instant event.pubkey ≥ 1.0 ↔ b'.tokens env'.instant event.pubkey ≥ 1.0)
  door : event.pubkey ∉ b.sessions → event.pubkey ∉ b.revoked →
    ∀ provided ∈ b.carried event, b.door provided = b'.door provided

theorem admit_snd_eq_timely (b : Bunker N) (now : ℕ) (event : N.Event) :
    (b.replay.admit_ now event).2 = b.timely now event := by
  simp only [Replay.admit_snd, Replay.isPlausible, timely, Bool.and_assoc]

theorem admitRate_snd (b : Bunker N) (now : ℕ) (app : N.PublicKey) :
    (b.admitRate now app).2 = decide (b.tokens now app ≥ 1.0) := by
  unfold admitRate tokens
  dsimp only
  split_ifs with h
  · exact (decide_eq_true h).symm
  · exact (decide_eq_false h).symm

/-- Planning an event, by the three tests before it is dispatched. -/
theorem plan_eq (env : Env N) (b : Bunker N) (event : N.Event) :
    b.plan env event =
      if b.addressed event && b.timely env.unixNow event then
        if b.tokens env.instant event.pubkey ≥ 1.0 then (b.admitted env event).dispatch env event
        else (b.admitted env event, .shed event.pubkey)
      else (b, .ignore) := by
  cases ha : b.addressed event with
  | false => simp [plan, ha]
  | true =>
    have htimely := admit_snd_eq_timely b env.unixNow event
    cases hf : b.timely env.unixNow event with
    | false =>
      rw [hf] at htimely
      simp [plan, ha, htimely, Replay.admit_refused htimely]
    | true =>
      rw [hf] at htimely
      have htokens := admitRate_snd b env.instant event.pubkey
      by_cases ht : b.tokens env.instant event.pubkey ≥ 1.0
      · rw [decide_eq_true ht] at htokens
        simp only [Bool.and_self, if_true, if_pos ht, plan_of_admitted ha htimely htokens]
      · rw [decide_eq_false ht] at htokens
        have hshed : (({ b with replay := b.replay.mark env.unixNow event } : Bunker N).admitRate
            env.instant event.pubkey).2 = false := htokens
        simp only [Bool.and_self, if_true, if_neg ht, plan, ha, htimely,
          Replay.admit_admitted htimely, hshed, Bool.not_true, Bool.not_false,
          Bool.false_eq_true, if_false]
        rfl

theorem door_of_findIdx? {provided : String} :
    b.door provided =
      (b.expectedSecrets.findIdx? fun o => constantTimeEq o.secret provided).bind
        fun i => b.expectedSecrets[i]? := by
  unfold door
  cases hf : b.expectedSecrets.findIdx? fun o => constantTimeEq o.secret provided with
  | none =>
    have hnone := List.findIdx?_eq_none_iff.mp hf
    simpa using hnone
  | some i =>
    obtain ⟨hlt, hmatch, hbefore⟩ := List.findIdx?_eq_some_iff_getElem.mp hf
    have hat : b.expectedSecrets[i]? = some b.expectedSecrets[i] := List.getElem?_eq_getElem hlt
    simp only [Option.bind_some, hat]
    exact List.find?_eq_some_iff_getElem.mpr
      ⟨hmatch, i, hlt, rfl, fun j hj => by simpa using hbefore j hj⟩

namespace Alike

variable {app : N.PublicKey}

theorem refl (app : N.PublicKey) (b : Bunker N) : Alike app b b := ⟨rfl, rfl, rfl, Iff.rfl⟩

theorem isPaired (h : Alike event.pubkey b b') :
    b.isPaired event.pubkey = b'.isPaired event.pubkey := decide_eq_decide.mpr h.paired

theorem addressed (h : Alike app b b') : b.addressed event = b'.addressed event := by
  simp only [Bunker.addressed, publicKey, h.keys]

theorem requestOf (h : Alike app b b') : b.requestOf event = b'.requestOf event := by
  simp only [Bunker.requestOf, h.keys]

theorem responseEvent (h : Alike app b b') (hdraw : env.entropy = env'.entropy)
    (request : N.Event) (id : String) (response : N.Response) :
    b.responseEvent env request id response = b'.responseEvent env' request id response := by
  simp only [Bunker.responseEvent, h.keys, hdraw]

theorem rawResponse (h : Alike app b b') (hdraw : env.entropy = env'.entropy)
    (request : N.Event) (id result : String) :
    b.rawResponse env request id result = b'.rawResponse env' request id result := by
  simp only [Bunker.rawResponse, h.keys, hdraw]

theorem opened (h : Alike app b b') {secrets secrets' : List Outstanding} :
    Alike app { b with sessions := insert app b.sessions, expectedSecrets := secrets }
      { b' with sessions := insert app b'.sessions, expectedSecrets := secrets' } :=
  ⟨h.keys, h.relays, h.revoked, by simp⟩

theorem closed (h : Alike app b b') :
    Alike app { b with sessions := b.sessions.erase app }
      { b' with sessions := b'.sessions.erase app } :=
  ⟨h.keys, h.relays, h.revoked, by simp⟩

theorem gates (h : Alike app b b') {replay replay' : Replay N}
    {rate rate' : HashMap N.PublicKey Bucket} :
    Alike app { b with replay, rate } { b' with replay := replay', rate := rate' } :=
  ⟨h.keys, h.relays, h.revoked, h.paired⟩

theorem planConnect (h : Alike event.pubkey b b') (hdraw : env.entropy = env'.entropy)
    {id : String} {params : List String}
    (hdoor : event.pubkey ∉ b.sessions → event.pubkey ∉ b.revoked →
      ∀ provided ∈ params[1]?, b.door provided = b'.door provided) :
    (b.planConnect env event id params).2 = (b'.planConnect env' event id params).2 ∧
      Alike event.pubkey (b.planConnect env event id params).1
        (b'.planConnect env' event id params).1 := by
  have hanswer := h.responseEvent hdraw event id
  unfold Bunker.planConnect
  by_cases hr : event.pubkey ∈ b.revoked
  · have hr' : event.pubkey ∈ b'.revoked := h.revoked ▸ hr
    simp only [hr, hr', if_true, hanswer]
    exact ⟨trivial, h⟩
  have hr' : event.pubkey ∉ b'.revoked := h.revoked ▸ hr
  simp only [hr, hr', if_false, ← h.isPaired, hanswer]
  by_cases hp : event.pubkey ∈ b.sessions
  · have hk : b.isPaired event.pubkey = true := decide_eq_true hp
    cases ha : b'.responseEvent env' event id (.withResult .ack) with
    | none => simpa [hk] using h.opened
    | some answer => simpa [hk] using h.opened
  · have hk : b.isPaired event.pubkey = false := decide_eq_false hp
    cases hs : params[1]? with
    | none => simpa [hk] using h
    | some provided =>
      -- the secret's place may differ between the two lists; what it opens does not
      have hsame := hdoor hp hr provided hs
      rw [door_of_findIdx?, door_of_findIdx?] at hsame
      cases hf : b.expectedSecrets.findIdx? fun o => constantTimeEq o.secret provided with
      | none =>
        cases hf' : b'.expectedSecrets.findIdx? fun o => constantTimeEq o.secret provided with
        | none => simpa [hk, hf, hf'] using h
        | some j =>
          obtain ⟨hlt, -⟩ := List.findIdx?_eq_some_iff_getElem.mp hf'
          simp [hf, hf', hlt] at hsame
      | some i =>
        obtain ⟨hlt, -⟩ := List.findIdx?_eq_some_iff_getElem.mp hf
        cases hf' : b'.expectedSecrets.findIdx? fun o => constantTimeEq o.secret provided with
        | none => simp [hf, hf', hlt] at hsame
        | some j =>
          have hburned : b.expectedSecrets[i]? = b'.expectedSecrets[j]? := by
            simpa [hf, hf'] using hsame
          cases ha : b'.responseEvent env' event id (.withResult .ack) with
          | none => simpa [hk, hf, hf'] using h.opened
          | some answer => simpa [hk, hf, hf', hburned] using h.opened

theorem planRaw (h : Alike event.pubkey b b') (hdraw : env.entropy = env'.entropy)
    (value : Json) :
    (b.planRaw env event value).2 = (b'.planRaw env' event value).2 ∧
      Alike event.pubkey (b.planRaw env event value).1 (b'.planRaw env' event value).1 := by
  have hraw := h.rawResponse hdraw event
  have hrelays : N.printStrings b'.relays = N.printStrings b.relays := by rw [h.relays]
  unfold Bunker.planRaw
  simp only [← h.isPaired, hrelays, hraw]
  split
  · split_ifs
    · exact ⟨rfl, h⟩
    · split
      · exact ⟨rfl, h⟩
      · exact ⟨rfl, h⟩
  · split
    · split_ifs
      · exact ⟨rfl, h.closed⟩
      · exact ⟨rfl, h.closed⟩
    · exact ⟨rfl, h.closed⟩
  · exact ⟨rfl, h⟩

theorem planRequest (h : Alike event.pubkey b b') (hdraw : env.entropy = env'.entropy)
    {id : String} {method : Method} {params : List String}
    (hdoor : method = .connect → event.pubkey ∉ b.sessions → event.pubkey ∉ b.revoked →
      ∀ provided ∈ params[1]?, b.door provided = b'.door provided) :
    (b.planRequest env event id method params).2 =
        (b'.planRequest env' event id method params).2 ∧
      Alike event.pubkey (b.planRequest env event id method params).1
        (b'.planRequest env' event id method params).1 := by
  have hanswer := h.responseEvent hdraw event id
  unfold Bunker.planRequest
  simp only [← h.isPaired, hanswer]
  split
  · exact h.planConnect hdraw (hdoor rfl)
  · exact ⟨rfl, h⟩
  · split_ifs
    · exact ⟨rfl, h⟩
    · exact ⟨rfl, h⟩

/-- Past the gates two such bunkers plan the event alike, and stay alike to its sender. -/
theorem dispatch (h : Alike event.pubkey b b') (hdraw : env.entropy = env'.entropy)
    (hdoor : event.pubkey ∉ b.sessions → event.pubkey ∉ b.revoked →
      ∀ provided ∈ b.carried event, b.door provided = b'.door provided) :
    (b.dispatch env event).2 = (b'.dispatch env' event).2 ∧
      Alike event.pubkey (b.dispatch env event).1 (b'.dispatch env' event).1 := by
  cases hreq : b.requestOf event with
  | some request =>
    obtain ⟨id, method, params⟩ := request
    have hreq' : b'.requestOf event = some (id, method, params) := h.requestOf ▸ hreq
    rw [dispatch_of_requestOf hreq, dispatch_of_requestOf hreq']
    refine h.planRequest hdraw fun hconnect hp hr provided hprovided => ?_
    subst hconnect
    exact hdoor hp hr provided (by simpa [carried, hreq] using hprovided)
  | none =>
    -- what is no typed request is a raw one or noise
    unfold Bunker.dispatch
    rw [← h.keys]
    split
    · exact ⟨rfl, h⟩
    · rename_i plaintext hdecrypt
      split
      · exact ⟨rfl, h⟩
      · rename_i plain hjson
        split_ifs with hraw
        · exact h.planRaw hdraw plain
        · split
          · rename_i id method params hmessage
            simp [Bunker.requestOf, hdecrypt, hjson, hraw, hmessage, Except.toOption] at hreq
          · exact ⟨rfl, h⟩

/-- The step: an undisturbed event is planned alike. -/
theorem plan (h : Alike event.pubkey b b') (hdraw : env.entropy = env'.entropy)
    (hcalm : Undisturbed event env b env' b') :
    (b.plan env event).2 = (b'.plan env' event).2 ∧
      Alike event.pubkey (b.plan env event).1 (b'.plan env' event).1 := by
  rw [plan_eq, plan_eq, ← h.addressed, ← hcalm.timely]
  by_cases hgates : (b.addressed event && b.timely env.unixNow event) = true
  · have htimely : b.timely env.unixNow event = true := (Bool.and_eq_true_iff.mp hgates).2
    simp only [hgates, if_true, ← hcalm.token htimely]
    have hadmitted : Alike event.pubkey (b.admitted env event) (b'.admitted env' event) := h.gates
    split_ifs
    · exact hadmitted.dispatch hdraw hcalm.door
    · exact ⟨rfl, hadmitted⟩
  · simp only [hgates]
    exact ⟨rfl, h⟩

/-- Another app's event leaves the bunker as it was to everyone else. -/
theorem plan_other (h : Alike app b b') (hother : app ≠ event.pubkey) :
    Alike app (b.plan env event).1 b' := by
  have hplanned := plan_planned env b event
  exact ⟨hplanned.keys.trans h.keys, hplanned.relays.trans h.relays,
    hplanned.revoked.trans h.revoked, (hplanned.sessions_of_ne hother).trans h.paired⟩

end Alike
end Bunker

namespace Queue
open Bunker (Alike Undisturbed)

/-- The instant at which the worker reaches a delivery. -/
def reach (q : Queue N) (d : Delivery N) : ℕ := max d.arrives q.free

/-- What the planning section reads: the clocks stand where they do at that instant. `unix` is
what the wall clock shows at each instant of the monotonic one. -/
def turn (unix : ℕ → ℕ) (q : Queue N) (d : Delivery N) : Env N :=
  { d.env with unixNow := unix (q.reach d), instant := q.reach d }

def planned (unix : ℕ → ℕ) (q : Queue N) (d : Delivery N) : Bunker N × Plan N :=
  q.bunker.plan (q.turn unix d) d.event

/-- An ask keeps the worker, anything else is over at once. -/
def step (unix : ℕ → ℕ) (q : Queue N) (d : Delivery N) : Queue N where
  bunker := (q.planned unix d).1
  free := q.reach d + if (q.planned unix d).2.asks then d.holds else 0

/-- The deliveries of one app's events. -/
def own (app : N.PublicKey) (d : Delivery N) : Bool := decide (d.event.pubkey = app)

/-- The plans the worker gives to one app's events, in their order. -/
def plansTo (unix : ℕ → ℕ) (app : N.PublicKey) (q : Queue N) (ds : List (Delivery N)) :
    List (Plan N) :=
  ((visits (step unix) q ds).filter fun x => own app x.2).map fun x => (x.1.planned unix x.2).2

/-- The app's own event finds the two queues, each at its own moment, telling the same of it. -/
def Calm (unix : ℕ → ℕ) (app : N.PublicKey) (q q' : Queue N) (d : Delivery N) : Prop :=
  own app d = true →
    Undisturbed d.event (q.turn unix d) q.bunker (q'.turn unix d) q'.bunker

theorem plansTo_filter_own (unix : ℕ → ℕ) (app : N.PublicKey) (q : Queue N)
    (ds : List (Delivery N)) :
    plansTo unix app q (ds.filter (own app)) =
      (visits (step unix) q (ds.filter (own app))).map fun x => (x.1.planned unix x.2).2 := by
  have hown : ∀ x ∈ visits (step unix) q (ds.filter (own app)), own app x.2 = true :=
    along_of_forall fun d hd => (List.mem_filter.mp hd).2
  unfold plansTo
  rw [List.filter_eq_self.mpr hown]

section
private def askText : String × Json × Option Message :=
  Crate.plainRequest "1" .getPublicKey "get_public_key" []

private def asksAt (app : (Crate.plain [askText]).PublicKey) (id : String) (createdAt : UInt64)
    (arrives holds : ℕ) (brief : holds ≤ 300) : Delivery (Crate.plain [askText]) where
  event := ⟨id, app, createdAt, 24133, ["pub-key"], askText.1, true⟩
  arrives := arrives * 1000000000
  env := .plain _ arrives
  holds := holds * 1000000000
  brief := Nat.mul_le_mul_right _ brief

/-- Two paired apps before a free worker. -/
private def twoApps : Queue (Crate.plain [askText]) where
  bunker := (Bunker.new "key" []).seed ["one", "other"]
  free := 0

private def seconds (instant : ℕ) : ℕ := instant / 1000000000

private def briefly : List (Delivery (Crate.plain [askText])) :=
  [asksAt "one" "1" 1000 1000 10 (by decide), asksAt "other" "2" 999 1000 10 (by decide)]

private def twoAsks : List (Delivery (Crate.plain [askText])) :=
  [asksAt "one" "1" 1000 1000 300 (by decide), asksAt "one" "2" 1000 1000 300 (by decide),
    asksAt "other" "3" 999 1000 0 (by decide)]

end
end Queue
end Kuma.Nostr
