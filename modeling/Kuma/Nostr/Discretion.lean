import Kuma.Lib.Matching
import Kuma.Nostr.Deciding

/-! The activity log holds no payload. The engine looks at an ask's params through three
questions alone: whether two asks are identical, what kind of event is to be signed, and, by
that kind, whether the call is sensitive. Asks that agree on these leave one and the same log. -/
namespace Kuma.Nostr
open Kuma.Lib

variable {N : Crate} {env : Env N}

/-- Two params of one method that carry the same event kind, or both none, where the method
signs an event. -/
def SameKind (N : Crate) (method : Method) (params params' : List String) : Prop :=
  method = .signEvent →
    params.head?.bind (eventKind N) = params'.head?.bind (eventKind N)

theorem SameKind.isSensitive {method : Method} {params params' : List String}
    (h : SameKind N method params params') :
    isSensitive N method params = isSensitive N method params' := by
  cases method with
  | signEvent =>
    have hkind := h rfl
    simp only [Nostr.isSensitive, hkind]
  | _ => rfl

theorem SameKind.summarize {method : Method} {params params' : List String}
    (h : SameKind N method params params') :
    summarize N method params = summarize N method params' := by
  cases method with
  | signEvent =>
    have hkind := h rfl
    simp only [Nostr.summarize, signEventSummary, hkind]
  | _ => rfl

/-- A card with its params rewritten. -/
def veilPrompt (φ : List String → List String) (entry : String × Prompt N) : String × Prompt N :=
  (entry.1, { entry.2 with params := φ entry.2.params })

namespace Engine

variable {φ : List String → List String} {e : Engine N}

/-- The engine with the params of every card rewritten. -/
def veil (φ : List String → List String) (e : Engine N) : Engine N :=
  { e with inner := { e.inner with prompts := e.inner.prompts.map (veilPrompt φ) } }

@[simp] theorem veil_apps : (e.veil φ).inner.apps = e.inner.apps := rfl

@[simp] theorem veil_remembered : (e.veil φ).inner.remembered = e.inner.remembered := rfl

@[simp] theorem veil_poisoned : (e.veil φ).poisoned = e.poisoned := rfl

@[simp] theorem veil_channels : (e.veil φ).channels = e.channels := rfl

@[simp] theorem recordLog_veil (app method summary verdict : String) :
    (e.veil φ).recordLog env app method summary verdict =
      (e.recordLog env app method summary verdict).veil φ := by
  simp only [recordLog, persistLog, veil]

@[simp] theorem persistApps_veil : (e.veil φ).persistApps env = (e.persistApps env).veil φ := by
  simp only [persistApps, veil]

@[simp] theorem withApps_veil (apps : List Paired) :
    (e.veil φ).withApps apps = (e.withApps apps).veil φ := by
  simp only [withApps, veil]

@[simp] theorem withRemembered_veil (remembered : HashMap String ℕ) :
    (e.veil φ).withRemembered remembered = (e.withRemembered remembered).veil φ := by
  simp only [withRemembered, veil]

theorem lock_veil : (e.veil φ).lock = e.lock.map fun inner =>
    { inner with prompts := inner.prompts.map (veilPrompt φ) } := by
  unfold lock veil
  dsimp only
  split_ifs
  · rfl
  · rfl

theorem pairWithMetadata_veil (app : N.PublicKey) (name image perms url : Option String) :
    (e.veil φ).pairWithMetadata env app name image perms url =
      (e.pairWithMetadata env app name image perms url).map (veil φ) := by
  simp only [pairWithMetadata, lock_veil]
  cases e.lock with
  | none => rfl
  | some inner =>
    simp only [Option.map_some, Option.bind_eq_bind, Option.bind_some]
    cases findApp (N.hex app) inner.apps with
    | some paired => simp
    | none => simp

theorem revoke_veil (app : String) :
    (e.veil φ).revoke env app = (e.revoke env app).map (Prod.map (veil φ) id) := by
  simp only [revoke, lock_veil]
  cases e.lock with
  | none => rfl
  | some inner =>
    simp only [Option.map_some, Option.bind_eq_bind, Option.bind_some]
    cases findApp app inner.apps with
    | none => rfl
    | some paired =>
      dsimp only
      split_ifs
      · simp
      · simp

theorem rename_veil (app name : String) :
    (e.veil φ).rename env app name = (e.rename env app name).map (Prod.map (veil φ) id) := by
  simp only [rename, lock_veil]
  cases e.lock with
  | none => rfl
  | some inner =>
    simp only [Option.map_some, Option.bind_eq_bind, Option.bind_some]
    cases findApp app inner.apps with
    | none => rfl
    | some paired => simp

theorem setLevel_veil (app : String) (level : Level) :
    (e.veil φ).setLevel env app level =
      (e.setLevel env app level).map (Prod.map (veil φ) id) := by
  simp only [setLevel, lock_veil]
  cases e.lock with
  | none => rfl
  | some inner =>
    simp only [Option.map_some, Option.bind_eq_bind, Option.bind_some]
    cases findApp app inner.apps with
    | none => rfl
    | some paired => simp

theorem remove_veil (app method summary : String) :
    (e.veil φ).remove env app method summary =
      (e.remove env app method summary).map (Prod.map (veil φ) id) := by
  have hremoved : (e.veil φ).removeApp app = Prod.map (veil φ) id (e.removeApp app) := rfl
  simp only [remove, lock_veil, hremoved]
  cases e.lock with
  | none => rfl
  | some inner =>
    obtain ⟨e', removed⟩ := e.removeApp app
    cases removed with
    | false => rfl
    | true => simp

/-- A card is found, answered and logged by its id, its app, its method and its summary. -/
theorem answer_veil (card : String) (decision : Decision) (remember : Option ℕ) :
    (e.veil φ).answer env card decision remember =
      (e.answer env card decision remember).map (Prod.map (veil φ) id) := by
  simp only [answer, lock_veil]
  cases e.lock with
  | none => rfl
  | some inner =>
    have hfind : ((inner.prompts.map (veilPrompt φ)).find? fun p => p.1 == card) =
        (inner.prompts.find? fun p => p.1 == card).map (veilPrompt φ) := List.find?_map
    have herase : ((inner.prompts.map (veilPrompt φ)).eraseP fun p => p.1 == card) =
        (inner.prompts.eraseP fun p => p.1 == card).map (veilPrompt φ) := List.eraseP_map
    simp only [Option.map_some, Option.bind_eq_bind, Option.bind_some, hfind, herase]
    cases inner.prompts.find? fun p => p.1 == card with
    | none => rfl
    | some entry =>
      let answered (remembered : HashMap String ℕ) : Engine N := { e with
        inner := { inner with
          prompts := inner.prompts.eraseP fun p => p.1 == card
          remembered := remembered }
        channels := (sendAll e.channels decision entry.2.responders).1 }
      have hlog : ∀ remembered, ∀ app method summary verdict : String,
          ((answered remembered).veil φ).recordLog env app method summary verdict =
            ((answered remembered).recordLog env app method summary verdict).veil φ :=
        fun _ => recordLog_veil
      cases remember with
      | none => exact congrArg (fun e => some (e, Except.ok ())) (hlog _ _ _ _ _)
      | some secs => exact congrArg (fun e => some (e, Except.ok ())) (hlog _ _ _ _ _)

section
variable {app : N.PublicKey} {method : Method} {params : List String}

theorem standingVerdict_veil (hkind : SameKind N method params (φ params)) (now : ℕ)
    (paired : Paired) : (e.veil φ).standingVerdict now paired app method (φ params) =
      e.standingVerdict now paired app method params := by
  unfold standingVerdict trustedHere
  rw [veil_remembered, hkind.isSensitive]

theorem judge_veil (hkind : SameKind N method params (φ params)) :
    (e.veil φ).judge env app method (φ params) =
      Prod.map (veil φ) id (e.judge env app method params) := by
  simp only [judge, veil_apps, standingVerdict_veil hkind, ← hkind.summarize, withApps_veil]
  cases findApp (N.hex app) e.inner.apps with
  | none => rfl
  | some paired =>
    dsimp only
    cases e.standingVerdict env.unixNow paired app method params with
    | none => rfl
    | some verdict => simp

/-- The new ask meets the same card among the rewritten ones. -/
theorem findIdx?_veilPrompt {prompts : List (String × Prompt N)}
    (hsame : ∀ entry ∈ prompts, φ entry.2.params = φ params → entry.2.params = params) :
    (prompts.map (veilPrompt φ)).findIdx? (identicalAsk app method (φ params)) =
      prompts.findIdx? (identicalAsk app method params) := by
  induction prompts with
  | nil => rfl
  | cons entry rest ih =>
    have hrest := ih fun x hx => hsame x (List.mem_cons_of_mem _ hx)
    have hhead : identicalAsk app method (φ params) (veilPrompt φ entry) =
        identicalAsk app method params entry := by
      have hparams : (φ entry.2.params == φ params) = (entry.2.params == params) := by
        rw [Bool.eq_iff_iff, beq_iff_eq, beq_iff_eq]
        constructor
        · exact hsame entry List.mem_cons_self
        · exact congrArg φ
      simp only [identicalAsk, veilPrompt, hparams]
    rw [List.map_cons, List.findIdx?_cons, List.findIdx?_cons, hhead, hrest]

theorem modify_veilPrompt (prompts : List (String × Prompt N)) (i ticket : ℕ) :
    ((prompts.map (veilPrompt φ)).modify i fun entry =>
      (entry.1, { entry.2 with responders := entry.2.responders ++ [ticket] })) =
      (prompts.modify i fun entry =>
        (entry.1, { entry.2 with responders := entry.2.responders ++ [ticket] })).map
        (veilPrompt φ) := by
  apply List.ext_getElem?
  intro j
  simp only [List.getElem?_modify, List.getElem?_map]
  cases prompts[j]? with
  | none => rfl
  | some entry =>
    by_cases hij : i = j
    · simp [hij, veilPrompt]
    · simp [hij]

theorem register_veil (hkind : SameKind N method params (φ params))
    (hsame : ∀ entry ∈ e.inner.prompts, φ entry.2.params = φ params → entry.2.params = params) :
    (e.veil φ).register env app method (φ params) =
      Prod.map (veil φ) id (e.register env app method params) := by
  have hfind : (e.inner.prompts.map (veilPrompt φ)).findIdx? (identicalAsk app method (φ params)) =
      e.inner.prompts.findIdx? (identicalAsk app method params) := findIdx?_veilPrompt hsame
  unfold register
  simp only [veil, hfind]
  cases e.inner.prompts.findIdx? (identicalAsk app method params) with
  | none => simp [veil, veilPrompt, hkind.summarize]
  | some i =>
    have hcard : ((e.inner.prompts.map (veilPrompt φ))[i]?.map Prod.fst) =
        e.inner.prompts[i]?.map Prod.fst := by
      rw [List.getElem?_map, Option.map_map]
      rfl
    simp only [hcard, modify_veilPrompt]
    rfl

theorem wait_veil (card : String) (ticket deadline : ℕ) :
    (e.veil φ).wait env card ticket deadline =
      Prod.map (veil φ) id (e.wait env card ticket deadline) := by
  have halive : (e.veil φ).senderAlive ticket = e.senderAlive ticket := by
    unfold senderAlive veil
    rw [List.any_map]
    rfl
  unfold wait
  rw [halive]
  simp only [veil_channels]
  cases e.channels[ticket]? with
  | none => rfl
  | some c =>
    cases hsent : c.sent with
    | some decision => simp [hsent]
    | none =>
      simp only [hsent]
      split_ifs
      · rfl
      · rfl
      · rfl

theorem expire_veil (hkind : SameKind N method params (φ params)) (card : String) :
    (e.veil φ).expire env app method (φ params) card =
      Prod.map (veil φ) id (e.expire env app method params card) := by
  have hthere : ((e.veil φ).inner.prompts.any fun entry => entry.1 == card) =
      e.inner.prompts.any fun entry => entry.1 == card := by
    simp only [veil, List.any_map]
    rfl
  have hfilter : ((e.veil φ).inner.prompts.filter fun entry => entry.1 != card) =
      (e.inner.prompts.filter fun entry => entry.1 != card).map (veilPrompt φ) := List.filter_map
  unfold expire
  simp only [hthere, hfilter, ← hkind.summarize]
  split_ifs
  · let kept : Engine N := { e with
      inner := { e.inner with prompts := e.inner.prompts.filter fun entry => entry.1 != card } }
    have hlog : ∀ app method summary verdict : String,
        (kept.veil φ).recordLog env app method summary verdict =
          (kept.recordLog env app method summary verdict).veil φ := recordLog_veil
    exact congrArg (fun e => (e, DecidePc.returned (.deny "the ask timed out unanswered")))
      (hlog _ _ _ _)
  · rfl

/-- Every section of a call does the same under rewritten params. -/
theorem advance_veil (hkind : SameKind N method params (φ params))
    (hsame : ∀ entry ∈ e.inner.prompts, φ entry.2.params = φ params → entry.2.params = params)
    (pc : DecidePc) :
    (e.veil φ).advance env app method (φ params) pc =
      Prod.map (veil φ) id (e.advance env app method params pc) := by
  cases pc with
  | called =>
    have hpair : (e.veil φ).pair env app = (e.pair env app).map (veil φ) :=
      pairWithMetadata_veil app none none none none
    simp only [advance, hpair]
    cases e.pair env app with
    | none => rfl
    | some e' => rfl
  | paired =>
    simp only [advance, veil_poisoned, judge_veil hkind]
    split_ifs
    · rfl
    · rfl
  | asking =>
    simp only [advance, veil_poisoned, register_veil hkind hsame]
    split_ifs
    · rfl
    · rfl
  | waiting card ticket deadline => exact wait_veil card ticket deadline
  | expired card =>
    simp only [advance, veil_poisoned, expire_veil hkind]
    split_ifs
    · rfl
    · rfl
  | returned decision => rfl
  | panicked => rfl

end
end Engine

theorem EngineVerb.call_veil (φ : List String → List String) (env : Env N) (e : Engine N)
    (verb : EngineVerb) : verb.call env (e.veil φ) = (verb.call env e).map (Engine.veil φ) := by
  have hfst : ∀ {α : Type} (called : Option (Engine N × α)),
      (called.map (Prod.map (Engine.veil φ) id)).map Prod.fst =
        (called.map Prod.fst).map (Engine.veil φ) := by
    intro α called
    cases called <;> rfl
  cases verb with
  | revoke app => simp only [call, Engine.revoke_veil, hfst]
  | delete app => simp only [call, Engine.delete, Engine.remove_veil, hfst]
  | logout app => simp only [call, Engine.logout, Engine.remove_veil, hfst]
  | rename app name => simp only [call, Engine.rename_veil, hfst]
  | setLevel app level => simp only [call, Engine.setLevel_veil, hfst]
  | approve id remember => simp only [call, Engine.approve, Engine.answer_veil, hfst]
  | deny id => simp only [call, Engine.deny, Engine.answer_veil, hfst]

/-- An action with the params of its ask rewritten. -/
def DecidingAction.veil (φ : List String → List String) : DecidingAction N → DecidingAction N
  | .call app method params => .call app method (φ params)
  | .advance env i => .advance env i
  | .verb env asked => .verb env asked

/-- The params of an ask. -/
def DecidingAction.asks : DecidingAction N → Option (List String)
  | .call _ _ params => some params
  | _ => none

/-- A rewriting that keeps the kind of event an action asks to sign. -/
def DecidingAction.KeepsKind (φ : List String → List String) : DecidingAction N → Prop
  | .call _ method params => SameKind N method params (φ params)
  | _ => True

/-- Two actions that differ in the params of an ask at most, and there not in the kind. -/
inductive SameButParams : DecidingAction N → DecidingAction N → Prop
  | call (app : N.PublicKey) (method : Method) {params params' : List String}
      (kind : SameKind N method params params') :
      SameButParams (.call app method params) (.call app method params')
  | advance (env : Env N) (i : ℕ) : SameButParams (.advance env i) (.advance env i)
  | verb (env : Env N) (verb : EngineVerb) : SameButParams (.verb env verb) (.verb env verb)

namespace Deciding

/-- The engine and its calls with the params of every ask rewritten. -/
def veil (φ : List String → List String) (s : Deciding N) : Deciding N where
  engine := s.engine.veil φ
  calls := s.calls.map fun c => { c with params := φ c.params }

/-- The rewriting keeps the kind of event every call asks to sign. -/
def KeepsKinds (φ : List String → List String) (s : Deciding N) : Prop :=
  ∀ c ∈ s.calls, SameKind N c.method c.params (φ c.params)

variable {φ : List String → List String}

theorem keepsKinds_step (s : Deciding N) (a : DecidingAction N) (hs : KeepsKinds φ s)
    (ha : a.KeepsKind φ) : KeepsKinds φ (s.step a) := by
  cases a with
  | call app method params =>
    intro c hc
    rcases List.mem_append.mp hc with hold | hnew
    · exact hs c hold
    · rw [List.mem_singleton.mp hnew]
      exact ha
  | advance env i =>
    intro c' hc'
    cases hi : s.calls[i]? with
    | none =>
      simp only [step, hi] at hc'
      exact hs c' hc'
    | some c =>
      rcases mem_calls_advance hi hc' with hold | rfl
      · exact hs c' hold
      · exact hs c (List.mem_of_getElem? hi)
  | verb env verb => exact hs

/-- The step: a rewriting that keeps asks apart and kinds in place goes unnoticed. -/
theorem step_veil (hφ : Function.Injective φ) (s : Deciding N) (a : DecidingAction N)
    (hs : KeepsKinds φ s) : (s.veil φ).step (a.veil φ) = (s.step a).veil φ := by
  cases a with
  | call app method params => simp [step, veil, DecidingAction.veil]
  | verb env verb =>
    have hcall : ((verb.call env s.engine).map (Engine.veil φ)).getD (s.engine.veil φ) =
        ((verb.call env s.engine).getD s.engine).veil φ := Option.getD_map ..
    simp only [step, veil, DecidingAction.veil, EngineVerb.call_veil, hcall]
  | advance env i =>
    cases hi : s.calls[i]? with
    | none => simp [step, veil, DecidingAction.veil, hi]
    | some c =>
      have hkind := hs c (List.mem_of_getElem? hi)
      have hadvance : (s.engine.veil φ).advance env c.app c.method (φ c.params) c.pc =
          Prod.map (Engine.veil φ) id (s.engine.advance env c.app c.method c.params c.pc) :=
        Engine.advance_veil hkind (fun _ _ h => hφ h) c.pc
      simp [step, veil, DecidingAction.veil, hi, hadvance, List.map_set]

theorem run_veil (hφ : Function.Injective φ) (stateDir : Option StateDir)
    (as : List (DecidingAction N)) (hkinds : ∀ a ∈ as, a.KeepsKind φ) :
    run step (start stateDir) (as.map (DecidingAction.veil φ)) =
      (run step (start stateDir) as).veil φ := by
  have hstart : KeepsKinds φ (start stateDir : Deciding N) := by
    intro c hc
    cases hc
  have hsame : (start stateDir : Deciding N).veil φ = start stateDir := rfl
  have hrun := run_map (f := veil φ) (g := DecidingAction.veil φ) (keepsKinds_step (φ := φ))
    (fun s a hs _ => step_veil hφ s a hs) hstart (along_of_forall hkinds)
  rwa [hsame] at hrun

/-- Actions that correspond are one another's rewriting, where the rewriting is right about
the params of their asks. -/
theorem eq_veil_of_sameButParams {as as' : List (DecidingAction N)}
    (h : List.Forall₂ SameButParams as as')
    (hφ : ∀ x ∈ (as.filterMap DecidingAction.asks).zip (as'.filterMap DecidingAction.asks),
      φ x.1 = x.2) :
    as' = as.map (DecidingAction.veil φ) ∧ ∀ a ∈ as, a.KeepsKind φ := by
  induction h with
  | nil => exact ⟨rfl, by simp⟩
  | @cons a a' as as' ha has ih =>
    cases ha with
    | @call app method params params' kind =>
      have hparams : φ params = params' := hφ (params, params') List.mem_cons_self
      obtain ⟨hmap, hkinds⟩ := ih fun x hx => hφ x (List.mem_cons_of_mem _ hx)
      constructor
      · rw [List.map_cons, hmap, DecidingAction.veil, hparams]
      · intro a ha
        rcases List.mem_cons.mp ha with rfl | ha
        · rw [← hparams] at kind
          exact kind
        · exact hkinds a ha
    | advance env i | verb env asked =>
      obtain ⟨hmap, hkinds⟩ := ih hφ
      constructor
      · rw [List.map_cons, hmap, DecidingAction.veil]
      · intro a ha
        rcases List.mem_cons.mp ha with rfl | ha
        · trivial
        · exact hkinds a ha

/-- Two runs of the engine that differ in the params of their asks alone, in no kind and in no
identity of two asks, leave one log in memory and on disk. -/
theorem log_holds_no_payload (stateDir : Option StateDir) (as as' : List (DecidingAction N))
    (hsame : List.Forall₂ SameButParams as as')
    (hmatch : Matching
      ((as.filterMap DecidingAction.asks).zip (as'.filterMap DecidingAction.asks))) :
    (run step (start stateDir) as').engine.inner.log =
        (run step (start stateDir) as).engine.inner.log ∧
      (run step (start stateDir) as').engine.stateDir =
        (run step (start stateDir) as).engine.stateDir := by
  obtain ⟨φ, hφ, hpairs⟩ := hmatch.exists_injective
  obtain ⟨hmap, hkinds⟩ := eq_veil_of_sameButParams hsame hpairs
  have hrun := run_veil hφ stateDir as hkinds
  rw [hmap, hrun]
  exact ⟨rfl, rfl⟩

private def noteTexts : List (String × Json × Option Message) :=
  [("a", .object [("kind", .number (.posInt 1)), ("content", .string "yes")], none),
    ("b", .object [("kind", .number (.posInt 1)), ("content", .string "no")], none)]

private def noteEnv : Env (Crate.plain noteTexts) := .plain _ 100

/-- A note is asked for, laid on a card and approved. -/
private def signing (text : String) : List (DecidingAction (Crate.plain noteTexts)) :=
  [.call "app" .signEvent [text], .advance noteEnv 0, .advance noteEnv 0, .advance noteEnv 0,
    .verb noteEnv (.approve "100-0001" none)]

theorem log_holds_no_note :
    (run step (start none) (signing "b")).engine.inner.log =
        (run step (start none) (signing "a")).engine.inner.log ∧
      (run step (start none) (signing "b")).engine.stateDir =
        (run step (start none) (signing "a")).engine.stateDir := by
  have hkind : SameKind (Crate.plain noteTexts) .signEvent ["a"] ["b"] := by
    intro _
    decide +kernel
  have hsame : List.Forall₂ SameButParams (signing "a") (signing "b") :=
    .cons (.call "app" .signEvent hkind) <| .cons (.advance noteEnv 0) <|
      .cons (.advance noteEnv 0) <| .cons (.advance noteEnv 0) <|
      .cons (.verb noteEnv (.approve "100-0001" none)) .nil
  exact log_holds_no_payload none _ _ hsame (by decide)

end Deciding
end Kuma.Nostr
