import Kuma.Nostr.Admission
import Kuma.Nostr.Queue

/-! What it takes to disturb an app's event in the queue: a wait that moves its turn, a flood
that fills one of the caches, or another app's event under the same id or with the same pairing
secret. Where none of these happens the other apps go unnoticed. -/
namespace Kuma.Nostr
open Kuma.Lib

variable {N : Crate}

/-- The outstanding secrets after a burn. -/
def burnt : Option String → List Outstanding → List Outstanding
  | none, secrets => secrets
  | some secret, secrets => secrets.eraseP fun o => constantTimeEq o.secret secret

/-- The outstanding entries of one secret, which `door` opens in their order. -/
def copiesOf (secret : String) (secrets : List Outstanding) : List Outstanding :=
  secrets.filter fun o => constantTimeEq o.secret secret

theorem copiesOf_burnt_of_ne {secret : String} {burned : Option String}
    (h : secret ∉ burned) (secrets : List Outstanding) :
    copiesOf secret (burnt burned secrets) = copiesOf secret secrets := by
  cases burned with
  | none => rfl
  | some other =>
    have hne : other ≠ secret := by simpa using h
    induction secrets with
    | nil => rfl
    | cons o rest ih =>
      simp only [burnt, copiesOf] at ih ⊢
      by_cases ho : o.secret = other
      · have hkeep : constantTimeEq o.secret secret = false := by simp [constantTimeEq, ho, hne]
        rw [List.eraseP_cons_of_pos (by simp [constantTimeEq, ho]),
          List.filter_cons_of_neg (by simp [hkeep])]
      · rw [List.eraseP_cons_of_neg (by simp [constantTimeEq, ho]), List.filter_cons,
          List.filter_cons, ih]

theorem copiesOf_burnt (secret : String) (secrets : List Outstanding) :
    copiesOf secret (burnt (some secret) secrets) = (copiesOf secret secrets).tail := by
  induction secrets with
  | nil => rfl
  | cons o rest ih =>
    simp only [burnt, copiesOf] at ih ⊢
    cases ho : constantTimeEq o.secret secret with
    | true => simp only [List.eraseP_cons, List.filter_cons, ho, cond_true, if_true, List.tail_cons]
    | false =>
      simp only [List.eraseP_cons, List.filter_cons, ho, cond_false, Bool.false_eq_true, if_false,
        ih]

/-- A burn takes the same copies off two lists that agree on them. -/
theorem copiesOf_burnt_congr {secret : String} {secrets secrets' : List Outstanding}
    (burned : Option String) (h : copiesOf secret secrets = copiesOf secret secrets') :
    copiesOf secret (burnt burned secrets) = copiesOf secret (burnt burned secrets') := by
  by_cases hb : secret ∈ burned
  · obtain rfl : burned = some secret := hb
    rw [copiesOf_burnt, copiesOf_burnt, h]
  · rw [copiesOf_burnt_of_ne hb, copiesOf_burnt_of_ne hb, h]

namespace Bunker

variable {b b' : Bunker N} {env : Env N} {event : N.Event} {carried : Option String}
  {outcome : Bunker N × Plan N}

/-- An outcome of planning burns what its plan says, and nothing but the secret carried. -/
structure Burns (b : Bunker N) (carried : Option String) (outcome : Bunker N × Plan N) :
    Prop where
  outstanding : outcome.1.expectedSecrets = burnt outcome.2.burns b.expectedSecrets
  echoed : ∀ secret ∈ outcome.2.burns, secret ∈ carried

theorem Burns.nothing (hkept : outcome.1.expectedSecrets = b.expectedSecrets)
    (hplan : outcome.2.burns = none) : Burns b carried outcome :=
  ⟨by rw [hplan, hkept]; rfl, by simp [hplan]⟩

@[simp] theorem burns_ofAnswer (answer : Option N.Event) : (Plan.ofAnswer answer).burns = none := by
  cases answer <;> rfl

theorem planConnect_burns (env : Env N) (b : Bunker N) (event : N.Event) (id : String)
    (params : List String) : Burns b params[1]? (b.planConnect env event id params) := by
  unfold planConnect
  by_cases hr : event.pubkey ∈ b.revoked
  · simp only [hr, if_true]
    exact .nothing rfl (burns_ofAnswer _)
  simp only [hr, if_false]
  by_cases hp : b.isPaired event.pubkey = true
  · simp only [hp, Bool.true_or, Bool.not_true, Bool.false_eq_true, if_false]
    cases ha : b.responseEvent env event id (.withResult .ack) with
    | none => exact .nothing rfl rfl
    | some answer =>
      cases hs : params[1]? with
      | none => exact .nothing rfl rfl
      | some provided => exact .nothing rfl rfl
  · have hk : b.isPaired event.pubkey = false := Bool.not_eq_true _ ▸ hp
    cases hs : params[1]? with
    | none =>
      simp only [hk]
      exact .nothing rfl (burns_ofAnswer _)
    | some provided =>
      cases hf : b.expectedSecrets.findIdx? fun o => constantTimeEq o.secret provided with
      | none =>
        simp only [hk, hf]
        exact .nothing rfl (burns_ofAnswer _)
      | some i =>
        obtain ⟨hlt, hmatch, -⟩ := List.findIdx?_eq_some_iff_getElem.mp hf
        have hat : b.expectedSecrets[i]? = some b.expectedSecrets[i] :=
          List.getElem?_eq_getElem hlt
        have hsecret : b.expectedSecrets[i].secret = provided := by
          simpa [constantTimeEq] using hmatch
        have herase : b.expectedSecrets.eraseIdx i =
            b.expectedSecrets.eraseP fun o => constantTimeEq o.secret provided := by
          rw [List.eraseP_eq_eraseIdx, hf]
        cases ha : b.responseEvent env event id (.withResult .ack) with
        | none =>
          simp only [hk, hf]
          exact .nothing rfl rfl
        | some answer =>
          simp only [hk, hf, hat]
          constructor
          · simpa [Plan.burns, burnt, hsecret] using herase
          · simp [Plan.burns, hsecret]

theorem planRaw_burns (env : Env N) (b : Bunker N) (event : N.Event) (value : Json) :
    Burns b carried (b.planRaw env event value) := by
  unfold planRaw
  split
  · split_ifs
    · exact .nothing rfl rfl
    · split
      · exact .nothing rfl rfl
      · exact .nothing rfl rfl
  · dsimp only
    split
    · split_ifs
      · exact .nothing rfl rfl
      · exact .nothing rfl rfl
    · exact .nothing rfl rfl
  · exact .nothing rfl rfl

theorem planRequest_burns {id : String} {method : Method} {params : List String}
    (h : b.requestOf event = some (id, method, params)) :
    Burns b (b.carried event) (b.planRequest env event id method params) := by
  cases method with
  | connect =>
    have hcarried : b.carried event = params[1]? := by simp only [Bunker.carried, h]
    rw [hcarried]
    exact planConnect_burns env b event id params
  | ping => exact .nothing rfl (burns_ofAnswer _)
  | _ =>
    simp only [planRequest]
    split_ifs
    · exact .nothing rfl (burns_ofAnswer _)
    · exact .nothing rfl rfl

theorem dispatch_burns (env : Env N) (b : Bunker N) (event : N.Event) :
    Burns b (b.carried event) (b.dispatch env event) := by
  cases hreq : b.requestOf event with
  | some request =>
    rw [dispatch_of_requestOf hreq]
    exact planRequest_burns hreq
  | none =>
    unfold dispatch
    split
    · exact .nothing rfl rfl
    · rename_i plaintext hdecrypt
      split
      · exact .nothing rfl rfl
      · rename_i plain hjson
        split_ifs with hraw
        · exact planRaw_burns env b event plain
        · split
          · rename_i id method params hmessage
            simp [requestOf, hdecrypt, hjson, hraw, hmessage, Except.toOption] at hreq
          · exact .nothing rfl rfl

/-- A planned event burns the secret it carries or none. -/
theorem plan_burns (env : Env N) (b : Bunker N) (event : N.Event) :
    Burns b (b.carried event) (b.plan env event) := by
  rw [plan_eq]
  split_ifs
  · have hburns := dispatch_burns env (b.admitted env event) event
    exact ⟨hburns.outstanding, hburns.echoed⟩
  · exact .nothing rfl rfl
  · exact .nothing rfl rfl

theorem Dispatched.gates {p : Plan N} (h : Dispatched env b event b' p) :
    b'.replay = b.replay ∧ b'.rate = b.rate ∧ b'.refillPerSec = b.refillPerSec ∧
      b'.burst = b.burst := by
  cases h <;> exact ⟨rfl, rfl, rfl, rfl⟩

/-- The gates keep an event in mind exactly when its turn is timely. -/
theorem plan_gates (env : Env N) (b : Bunker N) (event : N.Event) :
    (b.plan env event).1.replay =
        (if b.addressed event && b.timely env.unixNow event then b.replay.mark env.unixNow event
        else b.replay) ∧
      (b.plan env event).1.rate =
        (if b.addressed event && b.timely env.unixNow event then
          (b.admitRate env.instant event.pubkey).1
        else b.rate) ∧
      (b.plan env event).1.refillPerSec = b.refillPerSec ∧
      (b.plan env event).1.burst = b.burst := by
  rw [plan_eq]
  split_ifs
  · exact dispatch_dispatched.gates
  · exact ⟨rfl, rfl, rfl, rfl⟩
  · exact ⟨rfl, rfl, rfl, rfl⟩

/-- Neither of the replay caches nor the table of buckets is full. -/
structure Roomy (b : Bunker N) : Prop where
  replay : Replay.Roomy b.replay
  rate : b.rate.size < rateBucketsMax

theorem bucketRoom_of_lt {now : ℕ} {rate : HashMap N.PublicKey Bucket}
    (h : rate.size < rateBucketsMax) : bucketRoom now rate = rate := if_pos h

/-- The mark a roomy pair of caches takes of an event, entry by entry. -/
theorem mark_seen {r : Replay N} (hr : Replay.Roomy r) (now : ℕ) (event : N.Event)
    (i : String) : (r.mark now event).seen.lookup i =
      if i = event.id then some (now + dedupTtlSecs) else r.seen.lookup i := by
  by_cases hi : i = event.id
  · rw [if_pos hi, hi]
    exact Replay.mark_seen_self r now event
  · rw [if_neg hi, Replay.mark_seen_of_ne r now hi, Replay.shed_of_lt hr.1]

theorem mark_watermark {r r' : Replay N} (hr : Replay.Roomy r) (hr' : Replay.Roomy r')
    (now : ℕ) (event : N.Event)
    (h : r.watermark.lookup event.pubkey = r'.watermark.lookup event.pubkey) :
    (r.mark now event).watermark.lookup event.pubkey =
      (r'.mark now event).watermark.lookup event.pubkey := by
  rw [Replay.mark_watermark_self hr, Replay.mark_watermark_self hr', h]

theorem seenBefore_congr {r r' : Replay N} {now : ℕ} {event : N.Event}
    (h : r.seen.lookup event.id = r'.seen.lookup event.id) :
    r.seenBefore now event = r'.seenBefore now event := by
  simp only [Replay.seenBefore, h]

/-- Two bunkers that an app's events under some ids, carrying some secrets, cannot tell apart. -/
structure Unnoticed (app : N.PublicKey) (ids secrets : Set String) (b b' : Bunker N) : Prop
    extends Alike app b b' where
  seen : ∀ i ∈ ids, b.replay.seen.lookup i = b'.replay.seen.lookup i
  mark : b.replay.watermark.lookup app = b'.replay.watermark.lookup app
  bucket : b.rate.lookup app = b'.rate.lookup app
  refill : b.refillPerSec = b'.refillPerSec
  burst : b.burst = b'.burst
  outstanding : ∀ secret ∈ secrets,
    copiesOf secret b.expectedSecrets = copiesOf secret b'.expectedSecrets

namespace Unnoticed

variable {app : N.PublicKey} {ids secrets : Set String} {env' : Env N}

theorem refl (app : N.PublicKey) (ids secrets : Set String) (b : Bunker N) :
    Unnoticed app ids secrets b b where
  toAlike := .refl app b
  seen _ _ := rfl
  mark := rfl
  bucket := rfl
  refill := rfl
  burst := rfl
  outstanding _ _ := rfl

theorem tokens (h : Unnoticed app ids secrets b b') (hr : Roomy b) (hr' : Roomy b') (now : ℕ) :
    b.tokens now app = b'.tokens now app := by
  simp only [Bunker.tokens, bucketRoom_of_lt hr.rate, bucketRoom_of_lt hr'.rate, h.bucket,
    h.refill, h.burst]

theorem admitRate (h : Unnoticed app ids secrets b b') (hr : Roomy b) (hr' : Roomy b')
    (now : ℕ) : (b.admitRate now app).1.lookup app = (b'.admitRate now app).1.lookup app := by
  simp only [Bunker.admitRate, bucketRoom_of_lt hr.rate, bucketRoom_of_lt hr'.rate, h.bucket,
    h.refill, h.burst]
  split_ifs
  · simp only [AList.lookup_insert]
  · simp only [AList.lookup_insert]

theorem undisturbed (h : Unnoticed event.pubkey ids secrets b b') (hr : Roomy b)
    (hr' : Roomy b') (hid : event.id ∈ ids) (hsecret : ∀ s ∈ b.carried event, s ∈ secrets)
    (hwall : env.unixNow = env'.unixNow) (hinstant : env.instant = env'.instant) :
    Undisturbed event env b env' b' where
  timely := by
    simp only [Bunker.timely, Replay.travelsBack, seenBefore_congr (h.seen _ hid), h.mark, hwall]
  token _ := by rw [h.tokens hr hr', hinstant]
  door _ _ provided hprovided := by
    have hcopies := congrArg List.head? (h.outstanding provided (hsecret provided hprovided))
    simpa only [copiesOf, List.head?_filter, Bunker.door] using hcopies

/-- The app's own event, at one moment in both: what the two keep of it is again the same. -/
theorem plan (h : Unnoticed event.pubkey ids secrets b b') (hr : Roomy b) (hr' : Roomy b')
    (hid : event.id ∈ ids) (hsecret : ∀ s ∈ b.carried event, s ∈ secrets)
    (hdraw : env.entropy = env'.entropy) (hwall : env.unixNow = env'.unixNow)
    (hinstant : env.instant = env'.instant) :
    Unnoticed event.pubkey ids secrets (b.plan env event).1 (b'.plan env' event).1 := by
  have hcalm : Undisturbed event env b env' b' := h.undisturbed hr hr' hid hsecret hwall hinstant
  obtain ⟨hplan, halike⟩ := h.toAlike.plan hdraw hcalm
  obtain ⟨hreplay, hrate, hrefill, hburst⟩ := plan_gates env b event
  obtain ⟨hreplay', hrate', hrefill', hburst'⟩ := plan_gates env' b' event
  rw [← h.addressed, ← hcalm.timely, ← hwall] at hreplay'
  rw [← h.addressed, ← hcalm.timely, ← hinstant] at hrate'
  refine ⟨halike, ?_, ?_, ?_, ?_, ?_, ?_⟩
  · intro i hi
    rw [hreplay, hreplay']
    split_ifs
    · rw [mark_seen hr.replay, mark_seen hr'.replay, h.seen i hi]
    · exact h.seen i hi
  · rw [hreplay, hreplay']
    split_ifs
    · exact mark_watermark hr.replay hr'.replay _ event h.mark
    · exact h.mark
  · rw [hrate, hrate']
    split_ifs
    · exact h.admitRate hr hr' _
    · exact h.bucket
  · rw [hrefill, hrefill', h.refill]
  · rw [hburst, hburst', h.burst]
  · intro secret hs
    rw [(plan_burns env b event).outstanding, (plan_burns env' b' event).outstanding, ← hplan]
    exact copiesOf_burnt_congr _ (h.outstanding secret hs)

/-- Another app's event, under another id and without the app's secrets. -/
theorem plan_other (h : Unnoticed app ids secrets b b') (hr : Roomy b)
    (hother : app ≠ event.pubkey) (hid : event.id ∉ ids)
    (hsecret : ∀ s ∈ b.carried event, s ∉ secrets) :
    Unnoticed app ids secrets (b.plan env event).1 b' := by
  obtain ⟨hreplay, hrate, hrefill, hburst⟩ := plan_gates env b event
  refine ⟨h.toAlike.plan_other hother, ?_, ?_, ?_, ?_, ?_, ?_⟩
  · intro i hi
    have hne : i ≠ event.id := fun he => hid (he ▸ hi)
    rw [hreplay]
    split_ifs
    · rw [mark_seen hr.replay, if_neg hne, h.seen i hi]
    · exact h.seen i hi
  · rw [hreplay]
    split_ifs
    · rw [Replay.mark_watermark_of_ne hr.replay _ hother, h.mark]
    · exact h.mark
  · rw [hrate]
    split_ifs
    · simp only [Bunker.admitRate, bucketRoom_of_lt hr.rate]
      split_ifs
      · rw [AList.lookup_insert_ne hother, h.bucket]
      · rw [AList.lookup_insert_ne hother, h.bucket]
    · exact h.bucket
  · rw [hrefill, h.refill]
  · rw [hburst, h.burst]
  · intro secret hs
    have hburns := plan_burns env b event
    have hunburned : secret ∉ (b.plan env event).2.burns :=
      fun hmem => hsecret secret (hburns.echoed secret hmem) hs
    rw [hburns.outstanding, copiesOf_burnt_of_ne hunburned]
    exact h.outstanding secret hs

end Unnoticed
end Bunker

namespace Queue
open Bunker (Roomy Unnoticed)

/-- Nothing but the plans themselves passes between the app and the others: the app's turn comes
when it would come alone, no cache is full, and ids and secrets are not shared. -/
structure Apart (app : N.PublicKey) (ids secrets : Set String) (q q' : Queue N)
    (d : Delivery N) : Prop where
  room : Roomy q.bunker
  room' : Roomy q'.bunker
  mine : own app d = true → q.reach d = q'.reach d ∧ d.event.id ∈ ids ∧
    ∀ s ∈ q.bunker.carried d.event, s ∈ secrets
  others : own app d = false → d.event.id ∉ ids ∧ ∀ s ∈ q.bunker.carried d.event, s ∉ secrets

/-- Waits, full caches, shared ids and shared secrets are all that can disturb an app. -/
theorem calm_of_apart {unix : ℕ → ℕ} {app : N.PublicKey} {ids secrets : Set String}
    {q : Queue N} {ds : List (Delivery N)}
    (h : Beside (step unix) (own app) (Apart app ids secrets) q q ds) :
    Beside (step unix) (own app) (Calm unix app) q q ds := by
  have hkept : ∀ (q q' : Queue N) (d : Delivery N), Unnoticed app ids secrets q.bunker q'.bunker →
      Apart app ids secrets q q' d → own app d = true → Calm unix app q q' d ∧
        Unnoticed app ids secrets (q.step unix d).bunker (q'.step unix d).bunker := by
    intro q q' d hsame hapart hown
    obtain rfl : d.event.pubkey = app := of_decide_eq_true hown
    obtain ⟨hreach, hid, hsecret⟩ := hapart.mine hown
    have hwall : (q.turn unix d).unixNow = (q'.turn unix d).unixNow := congrArg unix hreach
    constructor
    · intro _
      exact hsame.undisturbed hapart.room hapart.room' hid hsecret hwall hreach
    · exact hsame.plan hapart.room hapart.room' hid hsecret rfl hwall hreach
  have hdeleted : ∀ (q q' : Queue N) (d : Delivery N),
      Unnoticed app ids secrets q.bunker q'.bunker → Apart app ids secrets q q' d →
      own app d = false → Calm unix app q q' d ∧
        Unnoticed app ids secrets (q.step unix d).bunker q'.bunker := by
    intro q q' d hsame hapart hother
    have hne : d.event.pubkey ≠ app := of_decide_eq_false hother
    obtain ⟨hid, hsecret⟩ := hapart.others hother
    constructor
    · intro hown
      rw [hother] at hown
      cases hown
    · exact hsame.plan_other hapart.room hne.symm hid hsecret
  exact h.weaken hkept hdeleted (.refl app ids secrets q.bunker)

end Queue
end Kuma.Nostr
