import Kuma.Nostr.Deciding

/-! Standing grants over whole runs of the engine. A grant is minted when a card is answered,
which may be long after the app's record was tombstoned or removed, and answering a card looks
at no record. -/
namespace Kuma.Nostr
open Kuma.Lib

variable {N : Crate} {env : Env N}

/-- The app whose pairing a verb ends. -/
def EngineVerb.ends : EngineVerb → Option String
  | .revoke app | .delete app | .logout app => some app
  | _ => none

/-- The card a call of `decide` stands on. -/
def DecidePc.card : DecidePc → Option String
  | .waiting card _ _ | .expired card => some card
  | _ => none

/-- The engine's calls, with those that only ever help an app. -/
inductive GrantingAction (N : Crate)
  | deciding (action : DecidingAction N)
  | pair (env : Env N) (app : N.PublicKey) (name image perms url : Option String)
  | unrevoke (env : Env N) (app : String)

/-- The engine and its asks, beside what the history says of them: which asks are older than
the last end of their app's pairing, and which grants are, or came of answering such an ask. -/
structure Granting (N : Crate) where
  deciding : Deciding N
  outlived : Finset ℕ
  tainted : Finset String

namespace Engine

variable {e e' : Engine N} {app : String}

theorem mem_forget {remembered : HashMap String ℕ} {key : String} :
    key ∈ forget app remembered ↔
      key ∈ remembered ∧ (app ++ ":").toList.isPrefixOf key.toList = false := by
  simp only [← AList.lookup_isSome, forget, HashMap.lookup_retain]
  cases remembered.lookup key with
  | none => simp
  | some until_ => simp

/-- An app's grants are spelled with its name. -/
theorem rememberKey_prefix (who : N.PublicKey) (method : Method) :
    (N.hex who ++ ":").toList.isPrefixOf (rememberKey who method).toList = true := by
  simp [rememberKey, List.append_assoc]

theorem pairWithMetadata_remembered {who : N.PublicKey} {name image perms url : Option String}
    (h : e.pairWithMetadata env who name image perms url = some e') :
    e'.inner.remembered = e.inner.remembered := by
  obtain ⟨p, -, rfl⟩ | ⟨-, p, -, -, rfl⟩ := pairWithMetadata_cases h
  · rfl
  · rfl

theorem revoke_remembered {found : Bool} (h : e.revoke env app = some (e', found)) :
    e'.inner.remembered =
      if found then forget app e.inner.remembered else e.inner.remembered := by
  obtain ⟨-, rfl, rfl⟩ | ⟨p, marked, -, rfl, rfl, rfl⟩ := revoke_cases h
  · rfl
  · split <;> rfl

theorem unrevoke_remembered {cleared : Bool} (h : e.unrevoke env app = some (e', cleared)) :
    e'.inner.remembered = e.inner.remembered := by
  obtain ⟨-, rfl, -⟩ | ⟨p, -, -, -, rfl⟩ := unrevoke_cases h
  · rfl
  · rfl

theorem remove_remembered {method summary : String} {removed : Bool}
    (h : e.remove env app method summary = some (e', removed)) :
    e'.inner.remembered = forget app e.inner.remembered := by
  obtain ⟨-, rfl⟩ := remove_cases h
  split_ifs
  · rfl
  · rfl

theorem rename_remembered {name : String} {named : Bool}
    (h : e.rename env app name = some (e', named)) :
    e'.inner.remembered = e.inner.remembered := by
  obtain ⟨-, rfl, -⟩ | ⟨-, -, rfl⟩ := rename_cases h
  · rfl
  · rfl

theorem setLevel_remembered {level : Level} {result : Except String Unit}
    (h : e.setLevel env app level = some (e', result)) :
    e'.inner.remembered = e.inner.remembered := by
  obtain ⟨-, rfl, -⟩ | ⟨-, -, rfl⟩ := setLevel_cases h
  · rfl
  · rfl

/-- An answer mints at most the grant of the card it found. -/
theorem answer_remembered {id : String} {decision : Decision} {remember : Option ℕ}
    {result : Except String Unit} (h : e.answer env id decision remember = some (e', result)) :
    e'.inner.remembered = e.inner.remembered ∧
        (remember = none ∨ (e.inner.prompts.find? fun p => p.1 == id) = none) ∨
      ∃ entry secs, remember = some secs ∧
        (e.inner.prompts.find? fun p => p.1 == id) = some entry ∧ e'.inner.remembered =
          e.inner.remembered.insert (rememberKey entry.2.app entry.2.method)
            (env.unixNow + secs) := by
  obtain ⟨inner, hlock, h⟩ := Option.bind_eq_some_iff.mp h
  obtain ⟨-, rfl⟩ := lock_eq_some hlock
  cases hf : e.inner.prompts.find? fun p => p.1 == id with
  | none =>
    simp only [hf, Option.pure_def, Option.some.injEq, Prod.mk.injEq] at h
    obtain ⟨rfl, -⟩ := h
    exact .inl ⟨rfl, .inr rfl⟩
  | some entry =>
    simp only [hf, Option.pure_def, Option.some.injEq, Prod.mk.injEq] at h
    obtain ⟨rfl, -⟩ := h
    cases remember with
    | none => exact .inl ⟨rfl, .inl rfl⟩
    | some secs => exact .inr ⟨entry, secs, rfl, rfl, rfl⟩

section
variable {who : N.PublicKey} {method : Method} {params : List String}

theorem judge_remembered :
    (e.judge env who method params).1.inner.remembered = e.inner.remembered := by
  unfold judge
  dsimp only
  split
  · rfl
  · split <;> rfl

theorem register_remembered :
    (e.register env who method params).1.inner.remembered = e.inner.remembered := by
  unfold register
  dsimp only
  split <;> rfl

theorem wait_remembered {card : String} {ticket deadline : ℕ} :
    (e.wait env card ticket deadline).1.inner.remembered = e.inner.remembered := by
  unfold wait
  split
  · rfl
  · split
    · rfl
    · split_ifs <;> rfl

theorem expire_remembered {card : String} :
    (e.expire env who method params card).1.inner.remembered = e.inner.remembered := by
  unfold expire
  dsimp only
  split <;> rfl

/-- No section of `decide` mints a grant or forgets one. -/
theorem advance_remembered (pc : DecidePc) :
    (e.advance env who method params pc).1.inner.remembered = e.inner.remembered := by
  cases pc with
  | called =>
    unfold advance
    cases hc : e.pair env who with
    | none => rfl
    | some e' => exact pairWithMetadata_remembered hc
  | paired =>
    cases hp : e.poisoned with
    | true => simp [advance, hp]
    | false => simpa [advance, hp] using judge_remembered
  | asking =>
    cases hp : e.poisoned with
    | true => simp [advance, hp]
    | false => simpa [advance, hp] using register_remembered
  | waiting card ticket deadline => exact wait_remembered
  | expired card =>
    cases hp : e.poisoned with
    | true => simp [advance, hp]
    | false => simpa [advance, hp] using expire_remembered
  | returned decision => rfl
  | panicked => rfl

end
end Engine

/-- A verb over a poisoned lock panics before it does anything. -/
theorem EngineVerb.call_of_poisoned {e : Engine N} {verb : EngineVerb} (hp : e.poisoned = true) :
    verb.call env e = none := by
  have hlock : e.lock = none := by simp [Engine.lock, hp]
  cases verb with
  | revoke app => simp [call, Engine.revoke, hlock]
  | delete app => simp [call, Engine.delete, Engine.remove, hlock]
  | logout app => simp [call, Engine.logout, Engine.remove, hlock]
  | rename app name => simp [call, Engine.rename, hlock]
  | setLevel app level => simp [call, Engine.setLevel, hlock]
  | approve id remember => simp [call, Engine.approve, Engine.answer, hlock]
  | deny id => simp [call, Engine.deny, Engine.answer, hlock]

namespace Granting

variable {s : Granting N} {a : GrantingAction N}

abbrev engine (s : Granting N) : Engine N := s.deciding.engine

/-- The asks of an app, by number. -/
def asksOf (s : Granting N) (app : String) : Finset ℕ :=
  (Finset.range s.deciding.calls.length).filter fun i =>
    (s.deciding.calls[i]?.map fun c => N.hex c.app) = some app

/-- The asks that wait on a card. -/
def asksOn (s : Granting N) (card : String) : Finset ℕ :=
  (Finset.range s.deciding.calls.length).filter fun i =>
    (s.deciding.calls[i]?.bind fun c => c.pc.card) = some card

/-- The grants that stand for an app. -/
def grantsOf (s : Granting N) (app : String) : Finset String :=
  (s.engine.inner.remembered.keys.filter fun key =>
    (app ++ ":").toList.isPrefixOf key.toList).toFinset

/-- The app whose pairing an action ends. -/
def ended (s : Granting N) : GrantingAction N → Option String
  | .deciding (.verb _ verb) => verb.ends.filter fun app =>
      !s.engine.poisoned && (s.engine.registry.lookup app).isSome
  | _ => none

/-- The grant an action mints, and whether an ask it answers is older than the last end of its
app's pairing. -/
def minted (s : Granting N) : GrantingAction N → Option (String × Bool)
  | .deciding (.verb _ (.approve id (some _))) =>
    if s.engine.poisoned then none
    else (s.engine.inner.prompts.find? fun p => p.1 == id).map fun entry =>
      (rememberKey entry.2.app entry.2.method, decide (∃ i ∈ s.asksOn id, i ∈ s.outlived))
  | _ => none

def stepDeciding (s : Granting N) : GrantingAction N → Deciding N
  | .deciding action => s.deciding.step action
  | .pair env app name image perms url => { s.deciding with
      engine := (s.engine.pairWithMetadata env app name image perms url).getD s.engine }
  | .unrevoke env app => { s.deciding with
      engine := ((s.engine.unrevoke env app).map Prod.fst).getD s.engine }

def step (s : Granting N) (a : GrantingAction N) : Granting N where
  deciding := s.stepDeciding a
  outlived := match s.ended a with
    | some app => s.outlived ∪ s.asksOf app
    | none => s.outlived
  tainted := match s.ended a, s.minted a with
    | some app, _ => s.tainted ∪ s.grantsOf app
    | none, some (key, old) => if old then insert key s.tainted else s.tainted.erase key
    | none, none => s.tainted

def start (stateDir : Option StateDir) : Granting N := ⟨.start stateDir, ∅, ∅⟩

/-- Every standing grant is of an app whose record carries no tombstone. -/
def GrantsStand (s : Granting N) : Prop :=
  ∀ key ∈ s.engine.inner.remembered, ∃ app method, key = rememberKey app method ∧
    ∃ p, findApp (N.hex app) s.engine.inner.apps = some p ∧ p.revokedAt = none

/-- What is allowed for a grant's sake is allowed for the sake of an untainted one. -/
def AllowsFresh (s : Granting N) : GrantingAction N → Prop
  | .deciding (.advance env i) =>
    ∀ c ∈ s.deciding.calls[i]?, c.pc = .paired →
      ∀ p ∈ findApp (N.hex c.app) s.engine.inner.apps,
        s.engine.standingVerdict env.unixNow p c.app c.method c.params =
          some "allowed (remembered)" → rememberKey c.app c.method ∉ s.tainted
  | _ => True

/-- A remembered approval answers asks that were all made since the last end of their app's
pairing, and finds the app's record without a tombstone. -/
def MintsFresh (s : Granting N) : GrantingAction N → Prop
  | .deciding (.verb _ (.approve id (some _))) =>
    s.engine.poisoned = false → ∀ entry ∈ s.engine.inner.prompts.find? fun p => p.1 == id,
      s.engine.registry.lookup (N.hex entry.2.app) = some false ∧
        ∀ i ∈ s.asksOn id, i ∉ s.outlived
  | _ => True

instance (s : Granting N) (a : GrantingAction N) : Decidable (AllowsFresh s a) := by
  unfold AllowsFresh
  split
  · infer_instance
  · infer_instance

instance (s : Granting N) (a : GrantingAction N) : Decidable (MintsFresh s a) := by
  unfold MintsFresh
  split
  · infer_instance
  · infer_instance

end Granting

/-- What the conditions keep: standing grants stand on records, and none of them is tainted. -/
structure CleanGrants (e : Engine N) (tainted : Finset String) : Prop where
  stands : ∀ key ∈ e.inner.remembered, ∃ app method, key = rememberKey app method ∧
    e.registry.lookup (N.hex app) = some false
  untainted : ∀ key ∈ e.inner.remembered, key ∉ tainted

section
variable {e e' : Engine N} {tainted tainted' : Finset String}

/-- A change that mints nothing and leaves the records in place. -/
theorem CleanGrants.of_kept (h : CleanGrants e tainted)
    (hmem : e'.inner.remembered = e.inner.remembered)
    (hlook : ∀ name, e.registry.lookup name = some false →
      e'.registry.lookup name = some false) : CleanGrants e' tainted := by
  refine ⟨fun key hkey => ?_, fun key hkey => ?_⟩
  · rw [hmem] at hkey
    obtain ⟨app, method, rfl, hrecord⟩ := h.stands key hkey
    exact ⟨app, method, rfl, hlook _ hrecord⟩
  · rw [hmem] at hkey
    exact h.untainted key hkey

/-- The end of a pairing takes the app's grants with it, and leaves the others' records. -/
theorem CleanGrants.of_ended {app : String} (h : CleanGrants e tainted)
    (hmem : e'.inner.remembered = Engine.forget app e.inner.remembered)
    (hlook : ∀ name, name ≠ app → e'.registry.lookup name = e.registry.lookup name)
    (htaint : ∀ key ∈ tainted', key ∈ tainted ∨
      (app ++ ":").toList.isPrefixOf key.toList = true) : CleanGrants e' tainted' := by
  refine ⟨fun key hkey => ?_, fun key hkey htainted => ?_⟩
  · rw [hmem, Engine.mem_forget] at hkey
    obtain ⟨who, method, rfl, hrecord⟩ := h.stands key hkey.1
    have hne : N.hex who ≠ app := by
      rintro rfl
      rw [Engine.rememberKey_prefix] at hkey
      cases hkey.2
    exact ⟨who, method, rfl, (hlook _ hne).trans hrecord⟩
  · rw [hmem, Engine.mem_forget] at hkey
    rcases htaint key htainted with hold | hgone
    · exact h.untainted key hkey.1 hold
    · cases hkey.2.symm.trans hgone

/-- A grant minted for an app with a standing record. -/
theorem CleanGrants.of_minted {app : N.PublicKey} {method : Method} {until_ : ℕ}
    (h : CleanGrants e tainted)
    (hmem : e'.inner.remembered = e.inner.remembered.insert (rememberKey app method) until_)
    (hlook : e'.registry = e.registry) (hrecord : e.registry.lookup (N.hex app) = some false) :
    CleanGrants e' (tainted.erase (rememberKey app method)) := by
  have hcases : ∀ key ∈ e'.inner.remembered, key = rememberKey app method ∨
      key ∈ e.inner.remembered := by
    intro key hkey
    rw [hmem, AList.mem_insert] at hkey
    exact hkey
  refine ⟨fun key hkey => ?_, fun key hkey htainted => ?_⟩
  · rcases hcases key hkey with rfl | hold
    · exact ⟨app, method, rfl, by rwa [hlook]⟩
    · obtain ⟨who, method', rfl, hwho⟩ := h.stands key hold
      exact ⟨who, method', rfl, by rwa [hlook]⟩
  · obtain ⟨hne, hin⟩ := Finset.mem_erase.mp htainted
    rcases hcases key hkey with rfl | hold
    · exact hne rfl
    · exact h.untainted key hold hin

end

namespace Granting

variable {s : Granting N} {a : GrantingAction N}

theorem ended_of_ends (env : Env N) {verb : EngineVerb} {app : String}
    (hp : s.engine.poisoned = false) (hends : verb.ends = some app) :
    s.ended (.deciding (.verb env verb)) =
      if (s.engine.registry.lookup app).isSome then some app else none := by
  simp only [ended, hends, hp, Option.filter_some, Bool.not_false, Bool.true_and]

/-- Ending a pairing taints nothing but what the app had. -/
theorem mem_tainted_of_ends {verb : EngineVerb} {app key : String}
    (hp : s.engine.poisoned = false) (hends : verb.ends = some app)
    (hminted : s.minted (.deciding (.verb env verb)) = none)
    (h : key ∈ (s.step (.deciding (.verb env verb))).tainted) :
    key ∈ s.tainted ∨ (app ++ ":").toList.isPrefixOf key.toList = true := by
  have hended := ended_of_ends env hp hends
  simp only [step, hended, hminted] at h
  split at h
  · rename_i app' _ happ
    split_ifs at happ
    cases happ
    rcases Finset.mem_union.mp h with hold | hgrant
    · exact .inl hold
    · rw [grantsOf, List.mem_toFinset, List.mem_filter] at hgrant
      exact .inr hgrant.2
  · rename_i hnone
    cases hnone
  · exact .inl h

theorem engine_verb {verb : EngineVerb} {e' : Engine N} (hcall : verb.call env s.engine = some e') :
    (s.step (.deciding (.verb env verb))).engine = e' := by
  simp [step, stepDeciding, Deciding.step, hcall]

theorem engine_verb_none {verb : EngineVerb} (hcall : verb.call env s.engine = none) :
    (s.step (.deciding (.verb env verb))).engine = s.engine := by
  simp [step, stepDeciding, Deciding.step, hcall]

/-- A verb that ends a pairing, over a lock nothing has poisoned. -/
theorem clean_of_ends {verb : EngineVerb} {app : String} {e' : Engine N}
    (hs : CleanGrants s.engine s.tainted) (hp : s.engine.poisoned = false)
    (hends : verb.ends = some app) (hminted : s.minted (.deciding (.verb env verb)) = none)
    (hcall : verb.call env s.engine = some e')
    (hmem : e'.inner.remembered = Engine.forget app s.engine.inner.remembered)
    (hlook : ∀ name, name ≠ app → e'.registry.lookup name = s.engine.registry.lookup name) :
    CleanGrants (s.step (.deciding (.verb env verb))).engine
      (s.step (.deciding (.verb env verb))).tainted := by
  rw [engine_verb hcall]
  exact hs.of_ended hmem hlook fun key hkey => mem_tainted_of_ends hp hends hminted hkey

/-- A verb that keeps the records and the grants, and ends no pairing. -/
theorem clean_of_quiet {verb : EngineVerb} {e' : Engine N} {r : Registry}
    (hs : CleanGrants s.engine s.tainted)
    (htaint : (s.step (.deciding (.verb env verb))).tainted = s.tainted)
    (hcall : verb.call env s.engine = some e')
    (hmem : e'.inner.remembered = s.engine.inner.remembered)
    (hmoves : s.engine.Moves e' r) (hr : r = s.engine.registry) :
    CleanGrants (s.step (.deciding (.verb env verb))).engine
      (s.step (.deciding (.verb env verb))).tainted := by
  rw [engine_verb hcall, htaint]
  refine hs.of_kept hmem fun name hname => ?_
  rwa [hmoves.registry, hr]

/-- A revocation that finds no record is none. -/
theorem clean_of_revoke {app : String} (hs : CleanGrants s.engine s.tainted)
    (hp : s.engine.poisoned = false) :
    CleanGrants (s.step (.deciding (.verb env (.revoke app)))).engine
      (s.step (.deciding (.verb env (.revoke app)))).tainted := by
  obtain ⟨⟨e', found⟩, hcall⟩ := Option.isSome_iff_exists.mp ((Engine.calls_isSome env hp).1 app)
  obtain ⟨hmoves, hfound⟩ := Engine.revoke_moves hcall
  have hverb : EngineVerb.call env s.engine (.revoke app) = some e' := by
    simp [EngineVerb.call, hcall]
  have hmem := Engine.revoke_remembered hcall
  cases found with
  | true =>
    refine clean_of_ends hs hp rfl rfl hverb hmem fun name hne => ?_
    rw [hmoves.registry, Register.lookup_assign_of_ne hne]
  | false =>
    have hnone : s.engine.registry.lookup app = none := by simpa using hfound.symm
    have hended := ended_of_ends env hp (rfl : EngineVerb.ends (.revoke app) = some app)
    refine clean_of_quiet hs ?_ hverb hmem hmoves (Register.assign_of_none hnone)
    simp [step, hended, hnone, minted]

/-- A removal forgets the app's grants whether or not it finds a record. -/
theorem clean_of_remove {verb : EngineVerb} {app method summary : String}
    (hs : CleanGrants s.engine s.tainted) (hp : s.engine.poisoned = false)
    (hends : verb.ends = some app) (hminted : s.minted (.deciding (.verb env verb)) = none)
    (hverb : verb.call env s.engine = (s.engine.remove env app method summary).map Prod.fst) :
    CleanGrants (s.step (.deciding (.verb env verb))).engine
      (s.step (.deciding (.verb env verb))).tainted := by
  obtain ⟨⟨e', removed⟩, hcall⟩ := Engine.remove_isSome env app method summary hp
  have hcall' : verb.call env s.engine = some e' := by simp [hverb, hcall]
  refine clean_of_ends hs hp hends hminted hcall' (Engine.remove_remembered hcall)
    fun name hne => ?_
  rw [(Engine.remove_moves hcall).1.registry, Register.lookup_strike_of_ne hne]

/-- A remembered approval, as the condition has it. -/
theorem clean_of_approve {id : String} {secs : ℕ} (hs : CleanGrants s.engine s.tainted)
    (hp : s.engine.poisoned = false)
    (ha : s.MintsFresh (.deciding (.verb env (.approve id (some secs))))) :
    CleanGrants (s.step (.deciding (.verb env (.approve id (some secs))))).engine
      (s.step (.deciding (.verb env (.approve id (some secs))))).tainted := by
  have hanswers := (Engine.calls_isSome env hp).2.2.2.2.2 id .allow (some secs)
  obtain ⟨⟨e', result⟩, hcall⟩ := Option.isSome_iff_exists.mp hanswers
  have hverb : EngineVerb.call env s.engine (.approve id (some secs)) = some e' := by
    simp [EngineVerb.call, Engine.approve, hcall]
  have hmoves := Engine.answer_moves hcall
  rcases Engine.answer_remembered hcall with ⟨hmem, hnone⟩ | ⟨entry, secs', hsecs, hfind, hmem⟩
  · have hfind : (s.engine.inner.prompts.find? fun p => p.1 == id) = none := by simpa using hnone
    refine clean_of_quiet hs ?_ hverb hmem hmoves rfl
    simp [step, ended, EngineVerb.ends, minted, hfind]
  · obtain ⟨hrecord, hfresh⟩ := ha hp entry hfind
    have hold : decide (∃ i ∈ s.asksOn id, i ∈ s.outlived) = false := by simpa using hfresh
    have hminted : s.minted (.deciding (.verb env (.approve id (some secs)))) =
        some (rememberKey entry.2.app entry.2.method, false) := by
      simp only [minted, hp, Bool.false_eq_true, if_false, hfind, Option.map_some, hold]
    have htaint : (s.step (.deciding (.verb env (.approve id (some secs))))).tainted =
        s.tainted.erase (rememberKey entry.2.app entry.2.method) := by
      simp only [step, hminted]
      rfl
    rw [engine_verb hverb, htaint]
    exact hs.of_minted hmem hmoves.registry hrecord

/-- An answer without a remember mints nothing. -/
theorem clean_of_answer {verb : EngineVerb} {id : String} {decision : Decision}
    (hs : CleanGrants s.engine s.tainted) (hp : s.engine.poisoned = false)
    (htaint : (s.step (.deciding (.verb env verb))).tainted = s.tainted)
    (hverb : verb.call env s.engine = (s.engine.answer env id decision none).map Prod.fst) :
    CleanGrants (s.step (.deciding (.verb env verb))).engine
      (s.step (.deciding (.verb env verb))).tainted := by
  obtain ⟨⟨e', result⟩, hcall⟩ := Option.isSome_iff_exists.mp
    ((Engine.calls_isSome env hp).2.2.2.2.2 id decision none)
  have hcall' : verb.call env s.engine = some e' := by simp [hverb, hcall]
  rcases Engine.answer_remembered hcall with ⟨hmem, -⟩ | ⟨entry, secs, hsecs, -⟩
  · exact clean_of_quiet hs htaint hcall' hmem (Engine.answer_moves hcall) rfl
  · cases hsecs

theorem clean_of_verb {verb : EngineVerb} (hs : CleanGrants s.engine s.tainted)
    (ha : s.MintsFresh (.deciding (.verb env verb))) :
    CleanGrants (s.step (.deciding (.verb env verb))).engine
      (s.step (.deciding (.verb env verb))).tainted := by
  cases hp : s.engine.poisoned with
  | true =>
    have hended : s.ended (.deciding (.verb env verb)) = none := by
      cases hends : verb.ends <;> simp [ended, hends, hp]
    have hminted : s.minted (.deciding (.verb env verb)) = none := by
      unfold minted
      split
      · simp [hp]
      · rfl
    rw [engine_verb_none (EngineVerb.call_of_poisoned hp)]
    simpa [step, hended, hminted] using hs
  | false =>
    cases verb with
    | revoke app => exact clean_of_revoke hs hp
    | delete app => exact clean_of_remove hs hp rfl rfl rfl
    | logout app => exact clean_of_remove hs hp rfl rfl rfl
    | rename app name =>
      obtain ⟨⟨e', named⟩, hcall⟩ := Option.isSome_iff_exists.mp
        ((Engine.calls_isSome env hp).2.2.2.1 app name)
      exact clean_of_quiet hs (by simp [step, ended, EngineVerb.ends, minted])
        (by simp [EngineVerb.call, hcall]) (Engine.rename_remembered hcall)
        (Engine.rename_moves hcall) rfl
    | setLevel app level =>
      obtain ⟨⟨e', result⟩, hcall⟩ := Option.isSome_iff_exists.mp
        ((Engine.calls_isSome env hp).2.2.2.2.1 app level)
      exact clean_of_quiet hs (by simp [step, ended, EngineVerb.ends, minted])
        (by simp [EngineVerb.call, hcall]) (Engine.setLevel_remembered hcall)
        (Engine.setLevel_moves hcall) rfl
    | approve id remember =>
      cases remember with
      | none => exact clean_of_answer hs hp (by simp [step, ended, EngineVerb.ends, minted]) rfl
      | some secs => exact clean_of_approve hs hp ha
    | deny id => exact clean_of_answer hs hp (by simp [step, ended, EngineVerb.ends, minted]) rfl

/-- A section of `decide`: the pairing may make a record, and nothing is minted. -/
theorem clean_of_advance {i : ℕ} (hs : CleanGrants s.engine s.tainted) :
    CleanGrants (s.step (.deciding (.advance env i))).engine s.tainted := by
  cases hi : s.deciding.calls[i]? with
  | none => simpa [step, stepDeciding, engine, Deciding.step, hi] using hs
  | some c =>
    have hengine : (s.step (.deciding (.advance env i))).engine =
        (s.engine.advance env c.app c.method c.params c.pc).1 := by
      simp [step, stepDeciding, Deciding.step, hi]
    rw [hengine]
    refine hs.of_kept (Engine.advance_remembered c.pc) fun name hname => ?_
    by_cases hpc : c.pc = .called
    · rcases Engine.advance_called env s.engine c.app c.method c.params with
        ⟨-, hpanic⟩ | ⟨e', hadvance, hmoves⟩
      · rwa [hpc, hpanic]
      · rw [hpc, hadvance, hmoves.registry]
        exact Register.lookup_enrol_of_some hname
    · rwa [Engine.advance_registry hpc]

theorem clean_of_pair {app : N.PublicKey} {name image perms url : Option String}
    (hs : CleanGrants s.engine s.tainted) :
    CleanGrants (s.step (.pair env app name image perms url)).engine s.tainted := by
  cases hcall : s.engine.pairWithMetadata env app name image perms url with
  | none => simpa [step, stepDeciding, engine, hcall] using hs
  | some e' =>
    have hengine : (s.step (.pair env app name image perms url)).engine = e' := by
      simp [step, stepDeciding, hcall]
    rw [hengine]
    refine hs.of_kept (Engine.pairWithMetadata_remembered hcall) fun other hother => ?_
    rw [(Engine.pairWithMetadata_moves hcall).registry]
    exact Register.lookup_enrol_of_some hother

/-- An un-revocation only takes tombstones away. -/
theorem clean_of_unrevoke {app : String} (hs : CleanGrants s.engine s.tainted) :
    CleanGrants (s.step (.unrevoke env app)).engine s.tainted := by
  cases hcall : s.engine.unrevoke env app with
  | none => simpa [step, stepDeciding, engine, hcall] using hs
  | some result =>
    have hengine : (s.step (.unrevoke env app)).engine = result.1 := by
      simp [step, stepDeciding, hcall]
    rw [hengine]
    refine hs.of_kept (Engine.unrevoke_remembered hcall) fun name hname => ?_
    rw [(Engine.unrevoke_moves hcall).1.registry]
    by_cases hne : name = app
    · rw [hne] at hname ⊢
      simp [hname]
    · rwa [Register.lookup_assign_of_ne hne]

theorem step_clean (s : Granting N) (a : GrantingAction N) (hs : CleanGrants s.engine s.tainted)
    (ha : s.MintsFresh a) : CleanGrants (s.step a).engine (s.step a).tainted := by
  cases a with
  | deciding action =>
    cases action with
    | call app method params => exact hs
    | advance env i => exact clean_of_advance hs
    | verb env verb => exact clean_of_verb hs ha
  | pair env app name image perms url => exact clean_of_pair hs
  | unrevoke env app => exact clean_of_unrevoke hs

theorem grantsStand_of_clean (hs : CleanGrants s.engine s.tainted) : s.GrantsStand := by
  intro key hkey
  obtain ⟨app, method, rfl, hrecord⟩ := hs.stands key hkey
  rw [Engine.lookup_registry] at hrecord
  obtain ⟨p, hp, hstanding⟩ := Option.map_eq_some_iff.mp hrecord
  exact ⟨app, method, rfl, p, hp, by simpa using hstanding⟩

/-- An allowance in the log's word for a grant used one that stands. -/
theorem allowsFresh_of_clean (hs : CleanGrants s.engine s.tainted) (a : GrantingAction N) :
    s.AllowsFresh a := by
  unfold AllowsFresh
  split
  · rename_i env i
    intro c _ _ p _ hverdict
    have htrusted : s.engine.trustedHere env.unixNow c.app c.method = true := by
      unfold Engine.standingVerdict at hverdict
      split_ifs at hverdict with hlevel htrusted hbasic
      · simp at hverdict
      · exact htrusted
      · simp at hverdict
    refine hs.untainted _ (AList.lookup_isSome.mp ?_)
    unfold Engine.trustedHere at htrusted
    exact Option.isSome_of_any htrusted
  · trivial

theorem grants_die_with_the_pairing (stateDir : Option StateDir) (as : List (GrantingAction N))
    (h : Along step MintsFresh (start stateDir) as) :
    (∀ pre, pre <+: as → (run step (start stateDir) pre).GrantsStand) ∧
    Along step AllowsFresh (start stateDir) as := by
  have hstart : CleanGrants (start stateDir : Granting N).engine
      (start stateDir : Granting N).tainted :=
    ⟨fun key hkey => absurd hkey (AList.notMem_empty key),
      fun key hkey => absurd hkey (AList.notMem_empty key)⟩
  constructor
  · intro pre hpre
    exact grantsStand_of_clean (run_invariant (I := fun s => CleanGrants s.engine s.tainted)
      step_clean hstart (h.initial hpre))
  · have hclean := along_invariant (I := fun s => CleanGrants s.engine s.tainted)
      step_clean hstart h
    exact hclean.mono fun s a hs => allowsFresh_of_clean hs a

/-- A first ask of a fresh app, up to its card. -/
private def asked : List (GrantingAction (Crate.plain [])) :=
  [.deciding (.call "app" .getPublicKey []), .deciding (.advance (.plain [] 100) 0),
    .deciding (.advance (.plain [] 100) 0), .deciding (.advance (.plain [] 100) 0)]

private def approval : GrantingAction (Crate.plain []) :=
  .deciding (.verb (.plain [] 100) (.approve "100-0001" (some 3600)))

/-- A second ask, up to its level read. -/
private def secondAsk : List (GrantingAction (Crate.plain [])) :=
  [.deciding (.call "app" .getPublicKey []), .deciding (.advance (.plain [] 200) 1),
    .deciding (.advance (.plain [] 200) 1)]

/-- A remembered approval, a revocation and an un-revocation: the grant is gone. -/
private def grantedAndEnded : List (GrantingAction (Crate.plain [])) :=
  asked ++ [approval, .deciding (.verb (.plain [] 150) (.revoke "app")),
    .unrevoke (.plain [] 160) "app"] ++ secondAsk

theorem grants_die_with_a_revocation :
    (run step (start none) grantedAndEnded).GrantsStand ∧
      Along step AllowsFresh (start none) grantedAndEnded := by
  have hfresh : Along step MintsFresh (start none) grantedAndEnded := by decide +kernel
  have hdie := grants_die_with_the_pairing none grantedAndEnded hfresh
  exact ⟨hdie.1 grantedAndEnded List.prefix_rfl, hdie.2⟩

/-- A revocation while the card is up, and a remembered approval after it. -/
private def approvedAfterRevoke : List (GrantingAction (Crate.plain [])) :=
  asked ++ [.deciding (.verb (.plain [] 150) (.revoke "app")), approval]

/-- The grant stands beside the tombstone, and comes back with the un-revocation. -/
theorem grants_outlive_a_revocation :
    ¬ (run step (start none) approvedAfterRevoke).GrantsStand ∧
      ¬ Along step AllowsFresh (start none)
        (approvedAfterRevoke ++ [.unrevoke (.plain [] 160) "app"] ++ secondAsk) := by
  constructor
  · have hgrant : "app:GetPublicKey" ∈
        (run step (start none) approvedAfterRevoke).engine.inner.remembered := by decide +kernel
    have hrevoked : ∀ p ∈ (run step (start none) approvedAfterRevoke).engine.inner.apps,
        p.revokedAt ≠ none := by decide +kernel
    intro hstand
    obtain ⟨app, method, -, p, hp, hnone⟩ := hstand _ hgrant
    exact hrevoked p (List.mem_of_find?_eq_some hp) hnone
  · decide +kernel

end Granting
end Kuma.Nostr
