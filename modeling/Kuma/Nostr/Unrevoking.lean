import Kuma.Lib.Run
import Kuma.Nostr.Steps

/-! An app's session after a Revoke. Nothing but a new pairing opens it again, except an
arming that finds the app's record without a tombstone, which seeds it. -/
namespace Kuma.Nostr
open Kuma.Lib

variable {N : Crate} {env : Env N} {app : N.PublicKey}

namespace Bunker

variable {b : Bunker N} {event : N.Event}

/-- The app has no session, and what it asks for is refused as not paired. -/
structure Unpaired (b : Bunker N) (app : N.PublicKey) : Prop where
  absent : app ∉ b.sessions
  refused : ∀ (env : Env N) (event : N.Event) (id : String) (method : Method)
    (params : List String), event.pubkey = app → b.addressed event = true →
    (b.replay.admit_ env.unixNow event).2 = true → (b.admitRate env.instant app).2 = true →
    b.requestOf event = some (id, method, params) → method ≠ .connect → method ≠ .ping →
    (b.plan env event).2 =
      .ofAnswer (b.responseEvent env event id (.withError "this app is not paired"))
  unasked : ∀ (env : Env N) (event : N.Event), event.pubkey = app →
    (b.plan env event).2.asks = false

theorem unpaired_of_absent (h : app ∉ b.sessions) : b.Unpaired app := by
  refine ⟨h, ?_, ?_⟩
  · rintro env event id method params rfl haddressed hfresh hrate hrequest hconnect hping
    have habsent : (b.admitted env event).isPaired event.pubkey = false := decide_eq_false h
    rw [plan_of_admitted haddressed hfresh hrate,
      dispatch_of_requestOf (b := b.admitted env event) hrequest]
    cases method with
    | connect => exact absurd rfl hconnect
    | ping => exact absurd rfl hping
    | _ =>
      simp only [planRequest, habsent, Bool.not_false, if_true]
      rfl
  · rintro env event rfl
    by_contra hasks
    exact h ((plan_planned env b event).paired_of_asks (by simpa using hasks))

/-- A connect with a live secret that opens a session and cannot answer. -/
def HalfOpens (env : Env N) (b : Bunker N) (event : N.Event) : Prop :=
  b.addressed event = true ∧ (b.replay.admit_ env.unixNow event).2 = true ∧
    (b.admitRate env.instant event.pubkey).2 = true ∧ event.pubkey ∉ b.revoked ∧
    event.pubkey ∉ b.sessions ∧ ∃ id params provided,
      b.requestOf event = some (id, .connect, params) ∧ params[1]? = some provided ∧
      (∃ o ∈ b.expectedSecrets, o.secret = provided) ∧
      b.responseEvent env event id (.withResult .ack) = none

/-- Planning lets an app into the session set only by a pairing, whole or half. -/
theorem plan_sessions (h : event.pubkey ∉ b.sessions)
    (hin : event.pubkey ∈ (b.plan env event).1.sessions) :
    ((b.plan env event).2.burns).isSome ∨ b.HalfOpens env event := by
  have hplanned := plan_planned env b event
  generalize (b.plan env event).1 = b' at hplanned hin
  generalize (b.plan env event).2 = p at hplanned ⊢
  cases hplanned with
  | refused _ => exact absurd hin h
  | shed _ _ => exact absurd hin h
  | dispatched addressed fresh within outcome =>
    cases outcome with
    | opened => exact .inl rfl
    | halfOpened id params provided decoded carried live standing stranger unwrapped =>
      exact .inr ⟨addressed, fresh, within, standing, stranger, id, params, provided, decoded,
        carried, live, unwrapped⟩
    | closed => simp at hin
    | _ => exact absurd hin h

end Bunker

namespace System

variable {s : System N} {a : Action N}

/-- An arming finds every record of the app under a tombstone. -/
def ArmsWithout (app : N.PublicKey) (s : System N) (a : Action N) : Prop :=
  s.arms a = true → ∀ e ∈ s.daemon.engine.registry, N.parsePublicKey e.1 = .ok app → e.2 = true

/-- The app's connect opens a session without an answer. -/
def HalfOpens (app : N.PublicKey) (s : System N) : Action N → Prop
  | .recv env event => event.pubkey = app ∧ s.worker = .idle ∧
      ∃ b, s.daemon.bunker = some b ∧ b.HalfOpens env event
  | _ => False

/-- The app completes a connect with a live secret, or the person pastes its URI. -/
def Repairs (app : N.PublicKey) (s : System N) : Action N → Prop
  | .recv env event => event.pubkey = app ∧ ((s.planned env event).bind Plan.burns).isSome
  | .verb _ (.connect uri) => ∃ parts, parseNostrconnectUri N uri = .ok parts ∧
      parts.clientPubkey = app
  | _ => False

/-- Whatever bunker is armed has no session for the app. -/
def Parted (app : N.PublicKey) (s : System N) : Prop :=
  s.poisoned = false → ∀ b, s.daemon.bunker = some b → app ∉ b.sessions

/-- A change that adds no session. -/
theorem absent_of_handled {d d' : Daemon N} {request : Request} {response : Response}
    (h : Daemon.Handled env d request d' response)
    (hd : ∀ b, d.bunker = some b → app ∉ b.sessions)
    (harm : (d.opening env request).isSome → ∀ e ∈ d.engine.registry,
      N.parsePublicKey e.1 = .ok app → e.2 = true)
    (hconnect : ∀ uri parts, request = .connect uri → parseNostrconnectUri N uri = .ok parts →
      parts.clientPubkey ≠ app) : ∀ b, d'.bunker = some b → app ∉ b.sessions := by
  have hmap : ∀ change : Bunker N → Bunker N, (∀ b, (change b).sessions ⊆ b.sessions) →
      d'.bunker = d.bunker.map change → ∀ b, d'.bunker = some b → app ∉ b.sessions := by
    intro change hchange hbunker b' hb' hmem
    obtain ⟨b, hb, rfl⟩ := Option.map_eq_some_iff.mp (hbunker.symm.trans hb')
    exact hd b hb (hchange b hmem)
  have hevict : ∀ (name : String) (b : Bunker N), (b.evict name).sessions ⊆ b.sessions := by
    intro name b
    unfold Bunker.evict
    split
    · exact Finset.erase_subset _ _
    · exact fun _ h => h
  cases h with
  | idle _ _ _ _ bunker _ _ => exact fun b hb => hd b (bunker ▸ hb)
  | revoked name _ _ bunker _ _ =>
    refine hmap _ (fun b => ?_) bunker
    unfold Bunker.onApp
    split
    · exact hevict name (b.markRevoked _)
    · exact fun _ h => h
  | unrevoked name _ _ bunker _ _ =>
    refine hmap _ (fun b => ?_) bunker
    exact (Bunker.onApp_kept (f := Bunker.sessions) fun pubkey => rfl).subset
  | deleted name _ _ bunker _ _ =>
    refine hmap _ (fun b => ?_) bunker
    unfold Bunker.onApp
    split
    · exact hevict name b
    · exact fun _ h => h
  | linked uri parts b parsed armed _ _ bunker _ _ =>
    intro b' hb' hmem
    cases bunker.symm.trans hb'
    rcases Finset.mem_insert.mp hmem with heq | hold
    · exact hconnect uri parts rfl parsed heq.symm
    · exact hd b armed hold
  | minted label b vault secret uri armed _ =>
    exact hmap (fun b => b.withSecrets vault.outstanding) (fun b => fun _ h => h) (by simp [armed])
  | closed _ _ _ _ bunker _ _ => exact fun b hb => by cases bunker.symm.trans hb
  | armed vault key how _ _ bunker _ _ =>
    intro b' hb' hmem
    cases bunker.symm.trans hb'
    obtain ⟨name, hrecord, hparse⟩ := Daemon.mem_freshBunker_sessions.mp hmem
    cases harm (by rw [how]; rfl) _ hrecord hparse

theorem step_parted (s : System N) (a : Action N) (hs : Parted app s)
    (ha : ArmsWithout app s a ∧ ¬ HalfOpens app s a ∧ ¬ Repairs app s a) :
    Parted app (s.step a) := by
  obtain ⟨harm, hhalf, hrepair⟩ := ha
  intro hp' b' hb' hmem
  have hstep := step_stepped hp'
  generalize s.step a = s' at hstep hb'
  cases hstep with
  | restarted env => cases hb'
  | answered env verb running called handled =>
    refine absent_of_handled handled (hs running) (fun hopening => harm ?_) ?_ b' hb' hmem
    · simpa [arms, called] using hopening
    · rintro uri parts rfl hparsed happ
      cases a with
      | verb env' request' =>
        cases called
        exact hrepair ⟨parts, hparsed, happ⟩
      | _ => cases called
  | unchanged running _ => exact hs running b' hb' hmem
  | locked env _ _ => cases hb'
  | planned env event b running idle armed =>
    cases hb'
    have habsent := hs running b armed
    by_cases hsender : app = event.pubkey
    · subst hsender
      rcases Bunker.plan_sessions habsent hmem with hburns | hopens
      · exact hrepair ⟨rfl, by rw [planned_of_armed idle running armed]; exact hburns⟩
      · exact hhalf ⟨rfl, idle, b, armed, hopens⟩
    · exact habsent (((Bunker.plan_planned env b event).sessions_of_ne hsender).mp hmem)
  | beaten env running => exact hs running b' (beat_framed.bunker ▸ hb') hmem

/-- A Revoke that finds its app ends the session. -/
theorem parted_of_revoked {who : String} (hwho : N.parsePublicKey who = .ok app)
    (hp : s.poisoned = false)
    (hrevoked : (s.daemon.handle env (.revoke who)).2 = some (.revoke true)) :
    Parted app (s.step (.verb env (.revoke who))) := by
  intro _ b' hb'
  rw [step_of_request rfl hp] at hb'
  have hbunker : (s.daemon.handle env (.revoke who)).1.bunker = s.daemon.bunker.map
      (Bunker.onApp (fun b pubkey => (b.markRevoked pubkey).evict who) who) := by
    simp only [Daemon.handle, Daemon.revoke] at hrevoked ⊢
    cases hcall : s.daemon.engine.revoke env who with
    | none => simp [hcall] at hrevoked
    | some called =>
      obtain ⟨engine, removed⟩ := called
      have hremoved : removed = true := by simpa [hcall] using hrevoked
      simp [hremoved]
  obtain ⟨b, hb, rfl⟩ := Option.map_eq_some_iff.mp (hbunker.symm.trans hb')
  rw [Bunker.onApp_of_ok hwho, Bunker.evict_sessions hwho]
  exact Finset.notMem_erase _ _

theorem unrevoke_opens_no_gate (s : System N) {who : String}
    (hwho : N.parsePublicKey who = .ok app) (hp : s.poisoned = false)
    (hrevoked : (s.daemon.handle env (.revoke who)).2 = some (.revoke true)) (as : List (Action N))
    (hrun : Along step (fun s a => ArmsWithout app s a ∧ ¬ HalfOpens app s a ∧ ¬ Repairs app s a)
      (s.step (.verb env (.revoke who))) as) :
    let s' := run step (s.step (.verb env (.revoke who))) as
    s'.poisoned = false → ∀ b, s'.daemon.bunker = some b → b.Unpaired app := by
  intro s' hp' b hb
  have hparted : Parted app s' :=
    run_invariant step_parted (parted_of_revoked hwho hp hrevoked) hrun
  exact Bunker.unpaired_of_absent (hparted hp' b hb)

private def keyText : String × Json × Option Message :=
  Crate.plainRequest "1" .getPublicKey "get_public_key" []

private def onePaired : Boot where
  store := none
  relays := []
  stateDir := some ⟨some [⟨"app", .trust, 0, none, none, none, none, none, 0, none⟩], none⟩
  inactivity := none
  instant := 0

private def pairedApp : (Crate.plain [keyText]).PublicKey := "app"

private def atKey (now : ℕ) : Env (Crate.plain [keyText]) := .plain _ now

private def armedWithApp : System (Crate.plain [keyText]) :=
  (start onePaired).step (.verb (atKey 990) (.setup (.import_ "key" none)))

private def keyRequest (now : UInt64) : (Crate.plain [keyText]).Event :=
  ⟨"id", pairedApp, now, 24133, ["pub-key"], keyText.1, true⟩

private def minted : System (Crate.plain [keyText]) :=
  run step (armedWithApp.step (.verb (atKey 991) (.revoke "app")))
    [.verb (atKey 992) (.unrevoke "app"), .verb (atKey 993) (.mint none)]

theorem unrevoke_opens_no_gate_mint :
    ∃ b, minted.daemon.bunker = some b ∧ b.Unpaired pairedApp := by
  have happ : (Crate.plain [keyText]).parsePublicKey "app" = .ok pairedApp := rfl
  have harmed : minted.daemon.bunker.isSome := by decide +kernel
  obtain ⟨b, hb⟩ := Option.isSome_iff_exists.mp harmed
  refine ⟨b, hb, unrevoke_opens_no_gate armedWithApp happ rfl rfl _ ?_ (by decide +kernel) b hb⟩
  simp [ArmsWithout, HalfOpens, Repairs, arms, Action.request, Daemon.opening]

private def rearmedAfterUnrevoke : List (Action (Crate.plain [keyText])) :=
  [.verb (atKey 992) (.unrevoke "app"), .verb (atKey 993) .lock, .verb (atKey 994) .unlock]

/-- A Lock and an Unlock after the Unrevoke: the app's request reaches the gate, though it
has not paired again. -/
theorem unrevoked_asks_after_unlock :
    (armedWithApp.daemon.handle (atKey 991) (.revoke "app")).2 = some (.revoke true) ∧
    Along step (fun s a => ¬ Repairs pairedApp s a)
      (armedWithApp.step (.verb (atKey 991) (.revoke "app"))) rearmedAfterUnrevoke ∧
    ((run step (armedWithApp.step (.verb (atKey 991) (.revoke "app"))) rearmedAfterUnrevoke).planned
      (atKey 995) (keyRequest 995)).any Plan.asks = true := by
  refine ⟨rfl, ?_, by decide +kernel⟩
  simp [rearmedAfterUnrevoke, Repairs]

end System
end Kuma.Nostr
