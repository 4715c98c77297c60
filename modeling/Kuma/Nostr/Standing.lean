import Kuma.Lib.Run
import Kuma.Nostr.Steps

/-! What an Ask still rests on when it is executed. Nothing looks at the app again between
planning its request and running it, so the verbs that end its standing in between decide. -/
namespace Kuma.Nostr
open Kuma.Lib

variable {N : Crate} {env : Env N}

/-- The request of the Ask a worker holds, and where its call of `decide` stands. -/
def Worker.asked : Worker N → Option (N.Event × DecidePc)
  | .asking request _ _ _ pc => some (request, pc)
  | _ => none

/-- The app is paired, its record stands without a tombstone, and the bunker is one the
request was addressed to. -/
structure Standing (e : Engine N) (b : Bunker N) (request : N.Event) : Prop where
  paired : request.pubkey ∈ b.sessions
  record : ∃ p, findApp (N.hex request.pubkey) e.inner.apps = some p ∧ p.revokedAt = none
  tagged : b.publicKey ∈ N.tagKeys request.tags

namespace System

variable {s : System N} {a : Action N}

/-- When the worker comes to execute an allowed Ask, the Ask has its standing. -/
def ExecutesStanding (s : System N) (a : Action N) : Prop :=
  ∀ env request b, a = .beat env → s.worker.asked = some (request, .returned .allow) →
    s.poisoned = false → s.daemon.bunker = some b → Standing s.daemon.engine b request

/-- The actions that leave the standing of a held Ask alone. -/
structure KeepsStanding (s : System N) (a : Action N) : Prop where
  /-- its app is neither revoked nor deleted under an armed bunker -/
  unremoved : ∀ request pc, s.worker.asked = some (request, pc) → s.daemon.bunker.isSome →
    ∀ env who, a = .verb env (.revoke who) ∨ a = .verb env (.delete who) →
      (s.daemon.engine.registry.lookup who).isSome → N.parsePublicKey who ≠ .ok request.pubkey
  /-- an arming brings up an identity it names, beside a record without a tombstone -/
  rearmed : ∀ request pc, s.worker.asked = some (request, pc) →
    ∀ env verb vault key, a.request = some (env, verb) →
      s.daemon.opening env verb = some (vault, key) →
      N.publicKey key ∈ N.tagKeys request.tags ∧
        s.daemon.engine.registry.lookup (N.hex request.pubkey) = some false
  /-- no tombstone stands on the app whose request is taken up -/
  planned : ∀ env event, a = .recv env event → (s.planned env event).any Plan.asks = true →
    s.daemon.engine.registry.lookup (N.hex event.pubkey) ≠ some true

theorem KeepsStanding.of_beat (s : System N) (env : Env N) : KeepsStanding s (.beat env) where
  unremoved := by
    intro request pc hasked harmed env' who hverb
    cases hverb with
    | inl hrevoke => cases hrevoke
    | inr hdelete => cases hdelete
  rearmed := by
    intro request pc hasked env' verb vault key hcalled
    cases hcalled
  planned := by
    intro env' event heq
    cases heq

/-- Where the worker holds no Ask, no verb can take its standing. -/
theorem KeepsStanding.of_verb {verb : Request} (h : s.worker.asked = none) :
    KeepsStanding s (.verb env verb) where
  unremoved := by
    intro request pc hasked
    rw [h] at hasked
    cases hasked
  rearmed := by
    intro request pc hasked
    rw [h] at hasked
    cases hasked
  planned := by
    intro env' event heq
    cases heq

theorem KeepsStanding.of_recv {event : N.Event}
    (h : s.daemon.engine.registry.lookup (N.hex event.pubkey) ≠ some true) :
    KeepsStanding s (.recv env event) where
  unremoved := by
    intro request pc hasked harmed env' who hverb
    cases hverb with
    | inl hrevoke => cases hrevoke
    | inr hdelete => cases hdelete
  rearmed := by
    intro request pc hasked env' verb vault key hcalled
    cases hcalled
  planned := by
    intro env' event' heq hasks
    cases heq
    exact h

/-- What an Ask rests on while it is held: its record is there once `decide` has paired. -/
structure Rests (e : Engine N) (b : Bunker N) (request : N.Event) (pc : DecidePc) : Prop where
  paired : request.pubkey ∈ b.sessions
  tagged : b.publicKey ∈ N.tagKeys request.tags
  standing : e.registry.lookup (N.hex request.pubkey) ≠ some true
  enrolled : pc ≠ .called → pc ≠ .panicked →
    e.registry.lookup (N.hex request.pubkey) = some false

/-- Every Ask held over an armed bunker rests on its standing. -/
def Held (s : System N) : Prop :=
  s.poisoned = false → ∀ request pc b, s.worker.asked = some (request, pc) →
    s.daemon.bunker = some b → Rests s.daemon.engine b request pc

theorem Rests.congr {e e' : Engine N} {b b' : Bunker N} {request : N.Event} {pc : DecidePc}
    (h : Rests e b request pc) (hpaired : request.pubkey ∈ b'.sessions) (hkeys : b'.keys = b.keys)
    (hlook : e'.registry.lookup (N.hex request.pubkey) =
      e.registry.lookup (N.hex request.pubkey)) : Rests e' b' request pc := by
  have hkey : b'.publicKey = b.publicKey := congrArg N.publicKey hkeys
  refine ⟨hpaired, ?_, ?_, fun hcalled hpanic => ?_⟩
  · rw [hkey]
    exact h.tagged
  · rw [hlook]
    exact h.standing
  · rw [hlook]
    exact h.enrolled hcalled hpanic

/-- The pairing section gives the Ask its record. -/
theorem Rests.of_enrolled {e e' : Engine N} {b : Bunker N} {request : N.Event} {pc pc' : DecidePc}
    (h : Rests e b request pc) (hmoves : e.Moves e' (Register.enrol (N.hex request.pubkey) false
      e.registry)) : Rests e' b request pc' := by
  have hlook : e'.registry.lookup (N.hex request.pubkey) = some false := by
    rw [hmoves.registry, Register.lookup_enrol_self]
    cases hr : e.registry.lookup (N.hex request.pubkey) with
    | none => rfl
    | some tombstone =>
      cases tombstone with
      | false => rfl
      | true => exact absurd hr h.standing
  exact ⟨h.paired, h.tagged, by simp [hlook], fun _ _ => hlook⟩

/-- No section of `decide` takes the Ask's standing. -/
theorem Rests.advance {e : Engine N} {b : Bunker N} {request : N.Event} {pc : DecidePc}
    (h : Rests e b request pc) (env : Env N) (method : Method) (params : List String) :
    Rests (e.advance env request.pubkey method params pc).1 b request
      (e.advance env request.pubkey method params pc).2 := by
  by_cases hcalled : pc = .called
  · subst hcalled
    rcases Engine.advance_called env e request.pubkey method params with
      ⟨-, hpanic⟩ | ⟨e', hadvance, hmoves⟩
    · rw [hpanic]
      exact ⟨h.paired, h.tagged, h.standing, fun _ hne => absurd rfl hne⟩
    · rw [hadvance]
      exact h.of_enrolled hmoves
  · have hregistry : (e.advance env request.pubkey method params pc).1.registry = e.registry :=
      Engine.advance_registry hcalled
    refine ⟨h.paired, h.tagged, hregistry ▸ h.standing, fun _ hpanic => ?_⟩
    rw [hregistry]
    refine h.enrolled hcalled fun heq => hpanic ?_
    rw [heq]
    rfl

/-- An eviction under another app's spelling leaves the session open. -/
theorem mem_evict_of_ne {b : Bunker N} {who : String} {app : N.PublicKey}
    (hne : N.parsePublicKey who ≠ .ok app) (h : app ∈ b.sessions) :
    app ∈ (b.evict who).sessions := by
  unfold Bunker.evict
  split
  · rename_i pubkey hparse
    exact Finset.mem_erase.mpr ⟨fun heq => hne (heq ▸ hparse), h⟩
  · exact h

/-- A verb keeps what a held Ask rests on, within the conditions. -/
theorem rests_of_handled (hN : N.HexParses) {d d' : Daemon N} {request : N.Event} {pc : DecidePc}
    {verb : Request} {response : Response} (h : Daemon.Handled env d verb d' response)
    (hd : ∀ b, d.bunker = some b → Rests d.engine b request pc)
    (hremoved : d.bunker.isSome → ∀ who, verb = .revoke who ∨ verb = .delete who →
      (d.engine.registry.lookup who).isSome → N.parsePublicKey who ≠ .ok request.pubkey)
    (harm : ∀ vault key, d.opening env verb = some (vault, key) →
      N.publicKey key ∈ N.tagKeys request.tags ∧
        d.engine.registry.lookup (N.hex request.pubkey) = some false) :
    ∀ b, d'.bunker = some b → Rests d'.engine b request pc := by
  have hother : ∀ who, N.parsePublicKey who ≠ .ok request.pubkey → N.hex request.pubkey ≠ who :=
    fun who hne heq => hne (heq ▸ hN request.pubkey)
  intro b' hb'
  cases h with
  | idle _ _ _ _ bunker _ engine =>
    have hold := hd b' (bunker ▸ hb')
    exact hold.congr hold.paired rfl (by rw [engine.registry])
  | revoked who found _ bunker _ engine =>
    obtain ⟨b, hb, rfl⟩ := Option.map_eq_some_iff.mp (bunker.symm.trans hb')
    have hne := hremoved (by simp [hb]) who (.inl rfl) found
    refine (hd b hb).congr ?_ (Bunker.onApp_kept fun pubkey => Bunker.evict_keys) ?_
    · unfold Bunker.onApp
      split
      · exact mem_evict_of_ne hne (hd b hb).paired
      · exact (hd b hb).paired
    · rw [engine.registry, Register.lookup_assign_of_ne (hother who hne)]
  | unrevoked who found _ bunker _ engine =>
    obtain ⟨b, hb, rfl⟩ := Option.map_eq_some_iff.mp (bunker.symm.trans hb')
    have hsessions : (b.onApp Bunker.markUnrevoked who).sessions = b.sessions :=
      Bunker.onApp_kept fun pubkey => rfl
    refine (hd b hb).congr ?_ (Bunker.onApp_kept fun pubkey => rfl) ?_
    · rw [hsessions]
      exact (hd b hb).paired
    · have hne : N.hex request.pubkey ≠ who := fun heq => (hd b hb).standing (heq ▸ found)
      rw [engine.registry, Register.lookup_assign_of_ne hne]
  | deleted who found _ bunker _ engine =>
    obtain ⟨b, hb, rfl⟩ := Option.map_eq_some_iff.mp (bunker.symm.trans hb')
    have hne := hremoved (by simp [hb]) who (.inr rfl) found
    refine (hd b hb).congr ?_ (Bunker.onApp_kept fun pubkey => Bunker.evict_keys) ?_
    · unfold Bunker.onApp
      split
      · exact mem_evict_of_ne hne (hd b hb).paired
      · exact (hd b hb).paired
    · rw [engine.registry, Register.lookup_strike_of_ne (hother who hne)]
  | linked uri parts b parsed armed _ _ bunker _ engine =>
    cases bunker.symm.trans hb'
    have hold := hd b armed
    have hpaired := Finset.mem_insert_of_mem (b := parts.clientPubkey) hold.paired
    rcases engine with engine | engine
    · exact hold.congr hpaired rfl (by rw [engine.registry])
    · by_cases hname : N.hex request.pubkey = N.hex parts.clientPubkey
      · rw [← hname] at engine
        exact (hold.of_enrolled engine).congr hpaired rfl rfl
      · exact hold.congr hpaired rfl (by rw [engine.registry, Register.lookup_enrol_of_ne hname])
  | minted label b vault secret uri armed _ =>
    cases hb'
    exact (hd b armed).congr (hd b armed).paired rfl rfl
  | closed _ _ _ _ bunker _ _ => cases bunker.symm.trans hb'
  | armed vault key how _ _ bunker _ engine =>
    cases bunker.symm.trans hb'
    obtain ⟨htagged, hlook⟩ := harm vault key how
    rw [engine]
    refine ⟨?_, htagged, by simp [hlook], fun _ _ => hlook⟩
    exact Daemon.mem_freshBunker_sessions.mpr ⟨_, Register.mem_of_lookup hlook, hN _⟩

/-- A beat that ends with an Ask held is a section of its `decide`. -/
theorem beat_asked {request : N.Event} {pc' : DecidePc}
    (h : (s.beat env).worker.asked = some (request, pc')) :
    ∃ method params pc, s.worker.asked = some (request, pc) ∧
      (s.daemon.engine.advance env request.pubkey method params pc) =
        ((s.beat env).daemon.engine, pc') := by
  have hcall : ∀ (call : Option (Engine N)) (next : Worker N), next.asked = none →
      (s.workerCall call next).worker.asked ≠ some (request, pc') := by
    intro call next hnext
    cases call with
    | none => exact nofun
    | some engine => simp [workerCall, hnext]
  obtain ⟨daemon, poisoned, worker⟩ := s
  cases worker with
  | idle | dead => cases h
  | pairing answer app metadata burned perms =>
    exact absurd h (hcall _ _ (by cases burned <;> rfl))
  | serving | shedding | ending => exact absurd h (hcall _ _ rfl)
  | burning | publishing => cases poisoned <;> cases h
  | asking request' id method params pc =>
    cases pc with
    | returned decision =>
      cases poisoned with
      | true => cases h
      | false =>
        simp only [beat, Bool.false_eq_true, if_false] at h
        split at h <;> cases h
    | panicked => cases h
    | _ =>
      simp only [beat, Worker.asked, Option.some.injEq, Prod.mk.injEq] at h
      obtain ⟨rfl, rfl⟩ := h
      exact ⟨method, params, _, rfl, rfl⟩

/-- An event taken up to be asked is from a paired app, to this bunker. -/
theorem planned_asks {b b' : Bunker N} {event : N.Event} {p : Plan N}
    (h : Bunker.Planned env b event b' p) (hasks : p.asks = true) :
    event.pubkey ∈ b'.sessions ∧ b'.publicKey ∈ N.tagKeys event.tags ∧
      (Worker.hold p).asked = some (event, .called) := by
  cases h with
  | refused _ => cases hasks
  | shed _ _ => cases hasks
  | dispatched addressed _ _ outcome =>
    have htag : b.publicKey ∈ N.tagKeys event.tags := by
      simp only [Bunker.addressed, Bool.and_eq_true, List.contains_iff_mem] at addressed
      exact addressed.2
    cases outcome with
    | asked _ _ _ paired => exact ⟨paired, htag, rfl⟩
    | closed p goodbye =>
      rcases goodbye with ⟨answer, rfl⟩ | ⟨answer, rfl⟩ | rfl <;> cases hasks
    | _ => cases hasks

/-- No plan but an Ask leaves the worker with one. -/
theorem hold_asked {p : Plan N} (h : p.asks = false) : (Worker.hold p).asked = none := by
  cases p with
  | ask => cases h
  | _ => rfl

theorem step_held (hN : N.HexParses) (s : System N) (a : Action N) (hs : Held s)
    (ha : KeepsStanding s a) : Held (s.step a) := by
  intro hp' request pc b hasked hb
  have hstep := step_stepped hp'
  generalize s.step a = s' at hstep hasked hb
  cases hstep with
  | restarted env => cases hasked
  | answered env verb running called handled =>
    refine rests_of_handled hN handled (fun b hb => hs running request pc b hasked hb) ?_ ?_ b hb
    · intro harmed who hverb
      refine ha.unremoved request pc hasked harmed env who ?_
      cases a with
      | verb env' verb' =>
        cases called
        simpa using hverb
      | startup env' =>
        cases called
        simp at hverb
      | _ => cases called
    · exact fun vault key how => ha.rearmed request pc hasked env verb vault key called how
  | unchanged running _ => exact hs running request pc b hasked hb
  | locked env _ _ => cases hb
  | planned env event b₀ running idle armed =>
    cases hasks : (b₀.plan env event).2.asks with
    | false => simp [hold_asked hasks] at hasked
    | true =>
      obtain ⟨hpaired, htagged, hhold⟩ := planned_asks (Bunker.plan_planned env b₀ event) hasks
      cases hb
      cases hhold.symm.trans hasked
      refine ⟨hpaired, htagged, ha.planned env _ rfl ?_, fun hne => absurd rfl hne⟩
      simp [planned_of_armed idle running armed, hasks]
  | beaten env running =>
    obtain ⟨method, params, pc₀, hasked₀, hadvance⟩ := beat_asked hasked
    have hrests := hs running request pc₀ b hasked₀ (beat_framed.bunker ▸ hb)
    have hadvanced := hrests.advance env method params
    rwa [hadvance] at hadvanced

theorem executesStanding_of_held (h : Held s) : ExecutesStanding s a := by
  rintro env request b rfl hasked hp hb
  have hrests := h hp request _ b hasked hb
  have hlook := hrests.enrolled nofun nofun
  rw [Engine.lookup_registry] at hlook
  obtain ⟨p, hfind, htombstone⟩ := Option.map_eq_some_iff.mp hlook
  exact ⟨hrests.paired, ⟨p, hfind, by simpa using htombstone⟩, hrests.tagged⟩

theorem asks_execute_standing (hN : N.HexParses) (boot : Boot) (as : List (Action N))
    (h : Along step KeepsStanding (start boot) as) :
    Along step ExecutesStanding (start boot) as := by
  have hstart : Held (start boot : System N) := nofun
  have hheld := along_invariant (step_held hN) hstart h
  exact fun x hx => executesStanding_of_held (hheld x hx)

private def askText : String × Json × Option Message :=
  Crate.plainRequest "1" .getPublicKey "get_public_key" []

private def oneTrusted : Boot where
  store := none
  relays := []
  stateDir := some ⟨some [⟨"app", .trust, 0, none, none, none, none, none, 0, none⟩], none⟩
  inactivity := none
  instant := 0

private def trusted : (Crate.plain [askText]).PublicKey := "app"

private def askedAt (now : ℕ) : Env (Crate.plain [askText]) := .plain _ now

/-- A trusted app's request, taken up and allowed. -/
private def allowedAsk : List (Action (Crate.plain [askText])) :=
  [.verb (askedAt 990) (.setup (.import_ "key" none)),
    .recv (askedAt 991) ⟨"id", trusted, 991, 24133, ["pub-key"], askText.1, true⟩,
    .beat (askedAt 992), .beat (askedAt 993)]

theorem asks_execute_standing_trusted :
    Along step ExecutesStanding (start oneTrusted) (allowedAsk ++ [.beat (askedAt 994)]) := by
  refine asks_execute_standing (Crate.plain_hexParses _) oneTrusted _ ?_
  refine along_cons.mpr ⟨.of_verb rfl, along_cons.mpr ⟨.of_recv (by decide +kernel), ?_⟩⟩
  simp [KeepsStanding.of_beat]

private def revokedAsk : List (Action (Crate.plain [askText])) :=
  allowedAsk ++ [.verb (askedAt 994) (.revoke "app")]

/-- A Revoke between the decision and the execution: the request still runs, for an app with
neither a session nor a standing record. -/
theorem revoked_ask_executes :
    ¬ Along step ExecutesStanding (start oneTrusted)
      (revokedAsk ++ [.beat (askedAt 995)]) := by
  intro h
  obtain ⟨-, hlast⟩ := along_append.mp h
  have hallowed : ((run step (start oneTrusted) revokedAsk).worker.asked.any fun held =>
      decide (held.1.pubkey = trusted ∧ held.2 = .returned .allow)) = true := by decide +kernel
  have hunpaired : ((run step (start oneTrusted) revokedAsk).daemon.bunker.any fun b =>
      decide (trusted ∉ b.sessions)) = true := by decide +kernel
  have hpoisoned : (run step (start oneTrusted) revokedAsk).poisoned = false := by decide +kernel
  obtain ⟨⟨request, pc⟩, hasked, hheld⟩ := (Option.any_eq_true _ _).mp hallowed
  obtain ⟨b, hb, hnot⟩ := (Option.any_eq_true _ _).mp hunpaired
  obtain ⟨hsender, rfl⟩ := of_decide_eq_true hheld
  have hstanding := (along_cons.mp hlast).1 _ request b rfl hasked hpoisoned hb
  exact of_decide_eq_true hnot (hsender ▸ hstanding.paired)

end System
end Kuma.Nostr
