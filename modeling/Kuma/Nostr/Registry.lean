import Kuma.Lib.Register
import Kuma.Nostr.Gate

/-! The engine's records as a register of names and tombstones, and each call of the engine
as one edit of it. -/
namespace Kuma.Nostr
open Kuma.Lib

/-- Who is on record, and whether a tombstone stands there. -/
abbrev Registry := Register String Bool

def registryOf (apps : List Paired) : Registry :=
  apps.map fun p => (p.pubkey, p.revokedAt.isSome)

variable {N : Crate} {env : Env N} {apps : List Paired} {app : String} {f : Paired → Paired}

theorem lookup_registryOf :
    (registryOf apps).lookup app = (findApp app apps).map fun p => p.revokedAt.isSome := by
  induction apps with
  | nil => rfl
  | cons p ps ih =>
    rw [registryOf, List.map_cons, Register.lookup_cons]
    by_cases hp : p.pubkey = app
    · simp [findApp, hp]
    · rw [if_neg hp]
      simpa [findApp, hp, registryOf] using ih

/-- An update that leaves names and tombstones alone is no edit. -/
theorem registryOf_updateApp
    (hf : ∀ p, (f p).pubkey = p.pubkey ∧ (f p).revokedAt = p.revokedAt) :
    registryOf (updateApp app f apps) = registryOf apps := by
  induction apps with
  | nil => rfl
  | cons p ps ih =>
    by_cases hp : p.pubkey = app
    · simp [updateApp, registryOf, hp, hf]
    · simpa [updateApp, registryOf, hp] using ih

theorem registryOf_updateApp_assign {tombstone : Bool}
    (hf : ∀ p, (f p).pubkey = p.pubkey ∧ (f p).revokedAt.isSome = tombstone) :
    registryOf (updateApp app f apps) = Register.assign app tombstone (registryOf apps) := by
  induction apps with
  | nil => rfl
  | cons p ps ih =>
    by_cases hp : p.pubkey = app
    · simp [updateApp, registryOf, Register.assign, hp, hf]
    · simpa [updateApp, registryOf, Register.assign, hp] using ih

theorem registryOf_filter :
    registryOf (apps.filter fun p => p.pubkey != app) = Register.strike app (registryOf apps) := by
  simp [registryOf, Register.strike, List.filter_map, Function.comp_def]

namespace Engine

variable {e e' e'' : Engine N} {r : Registry}

def registry (e : Engine N) : Registry := registryOf e.inner.apps

theorem lookup_registry :
    e.registry.lookup app = (findApp app e.inner.apps).map fun p => p.revokedAt.isSome :=
  lookup_registryOf

theorem isSome_lookup_registry :
    (e.registry.lookup app).isSome = (findApp app e.inner.apps).isSome := by
  rw [lookup_registry, Option.isSome_map]

/-- What a restart would load. -/
def filed (e : Engine N) : Registry := registryOf ((e.stateDir.bind StateDir.apps).getD [])

/-- A call that leaves the given register. The file holds the old text, the new one, or
nothing that reads. -/
structure Moves (e e' : Engine N) (r : Registry) : Prop where
  registry : e'.registry = r
  poisoned : e'.poisoned = e.poisoned
  filed : e'.filed = e.filed ∨ e'.filed = [] ∨ e'.filed = r

theorem Moves.refl (e : Engine N) : e.Moves e e.registry := ⟨rfl, rfl, .inl rfl⟩

theorem Moves.withApps (h : registryOf apps = r) : e.Moves (e.withApps apps) r :=
  ⟨h, rfl, .inl rfl⟩

theorem Moves.withRemembered {remembered : HashMap String ℕ} (h : e.Moves e' r) :
    e.Moves (e'.withRemembered remembered) r := ⟨h.registry, h.poisoned, h.filed⟩

section
variable {method summary verdict : String}

@[simp] theorem recordLog_registry :
    (e.recordLog env app method summary verdict).registry = e.registry := by
  simp only [recordLog, persistLog, registry]

@[simp] theorem recordLog_poisoned :
    (e.recordLog env app method summary verdict).poisoned = e.poisoned := by
  simp only [recordLog, persistLog]

@[simp] theorem recordLog_filed :
    (e.recordLog env app method summary verdict).filed = e.filed := by
  unfold recordLog persistLog filed
  cases e.stateDir <;> rfl

theorem Moves.recordLog (h : e.Moves e' r) :
    e.Moves (e'.recordLog env app method summary verdict) r := by
  refine ⟨?_, ?_, ?_⟩
  · simpa using h.registry
  · simpa using h.poisoned
  · simpa using h.filed

end

theorem persistApps_filed (env : Env N) (e : Engine N) :
    (e.persistApps env).filed = e.filed ∨ (e.persistApps env).filed = [] ∨
    (e.persistApps env).filed = e.registry := by
  unfold persistApps filed write
  cases e.stateDir with
  | none => exact .inl rfl
  | some dir =>
    cases env.appsWrite with
    | written => exact .inr (.inr rfl)
    | refused => exact .inl rfl
    | torn => exact .inr (.inl rfl)

theorem Moves.persistApps (h : e.Moves e' r) : e.Moves (e'.persistApps env) r := by
  refine ⟨h.registry, h.poisoned, ?_⟩
  rcases persistApps_filed env e' with hf | hf | hf
  · rw [hf]
    exact h.filed
  · exact .inr (.inl hf)
  · exact .inr (.inr (hf.trans h.registry))

theorem lock_eq_some {inner : Inner N} (h : e.lock = some inner) :
    e.poisoned = false ∧ inner = e.inner := by
  unfold lock at h
  cases hp : e.poisoned with
  | true => simp [hp] at h
  | false =>
    simp only [hp, Bool.false_eq_true, if_false, Option.some.injEq] at h
    exact ⟨rfl, h.symm⟩

theorem lock_of_unpoisoned (h : e.poisoned = false) : e.lock = some e.inner := by
  simp [lock, h]

/-! ### What each call can do -/

theorem pairWithMetadata_cases {who : N.PublicKey} {name image perms url : Option String}
    (h : e.pairWithMetadata env who name image perms url = some e') :
    (∃ p, findApp (N.hex who) e.inner.apps = some p ∧
      e' = e.withApps (updateApp (N.hex who) (fun p =>
        { p with
          name := p.name.or name
          image := p.image.or image
          perms := p.perms.or perms
          url := p.url.or url }) e.inner.apps)) ∨
    (findApp (N.hex who) e.inner.apps = none ∧ ∃ p : Paired, p.pubkey = N.hex who ∧
      p.revokedAt = none ∧ e' = ((e.withApps (e.inner.apps ++ [p])).recordLog env (N.hex who)
        "connect" "paired" "paired at ask").persistApps env) := by
  obtain ⟨inner, hlock, h⟩ := Option.bind_eq_some_iff.mp h
  obtain ⟨-, rfl⟩ := lock_eq_some hlock
  cases hf : findApp (N.hex who) e.inner.apps with
  | some p =>
    simp only [hf, Option.pure_def, Option.some.injEq] at h
    exact .inl ⟨p, rfl, h.symm⟩
  | none =>
    simp only [hf, Option.pure_def, Option.some.injEq] at h
    exact .inr ⟨rfl, _, rfl, rfl, h.symm⟩

theorem revoke_cases {removed : Bool} (h : e.revoke env app = some (e', removed)) :
    (findApp app e.inner.apps = none ∧ e' = e ∧ removed = false) ∨
    ∃ p marked, findApp app e.inner.apps = some p ∧ removed = true ∧
      marked = (e.withApps (updateApp app (fun p =>
        { p with revokedAt := some env.unixNow }) e.inner.apps)).withRemembered
          (forget app e.inner.remembered) ∧
      e' = (if p.revokedAt.isNone then
        marked.recordLog env app "revoke" "the person revoked the app" "tombstoned"
      else marked).persistApps env := by
  obtain ⟨inner, hlock, h⟩ := Option.bind_eq_some_iff.mp h
  obtain ⟨-, rfl⟩ := lock_eq_some hlock
  cases hf : findApp app e.inner.apps with
  | none =>
    simp only [hf, Option.pure_def, Option.some.injEq, Prod.mk.injEq] at h
    exact .inl ⟨rfl, h.1.symm, h.2.symm⟩
  | some p =>
    simp only [hf, Option.pure_def, Option.some.injEq, Prod.mk.injEq] at h
    exact .inr ⟨p, _, rfl, h.2.symm, rfl, h.1.symm⟩

theorem unrevoke_cases {cleared : Bool} (h : e.unrevoke env app = some (e', cleared)) :
    ((∀ p ∈ findApp app e.inner.apps, p.revokedAt = none) ∧ e' = e ∧ cleared = false) ∨
    ∃ p, findApp app e.inner.apps = some p ∧ p.revokedAt.isSome ∧ cleared = true ∧
      e' = ((e.withApps (updateApp app (fun p => { p with revokedAt := none })
        e.inner.apps)).recordLog env app "unrevoke" "the person un-revoked the app"
          "cleared").persistApps env := by
  obtain ⟨inner, hlock, h⟩ := Option.bind_eq_some_iff.mp h
  obtain ⟨-, rfl⟩ := lock_eq_some hlock
  cases hf : findApp app e.inner.apps with
  | none =>
    simp only [hf, Option.pure_def, Option.some.injEq, Prod.mk.injEq] at h
    refine .inl ⟨fun p hp => ?_, h.1.symm, h.2.symm⟩
    cases hp
  | some p =>
    cases hstanding : p.revokedAt with
    | none =>
      simp only [hf, hstanding, Option.isNone_none, if_true, Option.pure_def, Option.some.injEq,
        Prod.mk.injEq] at h
      refine .inl ⟨fun q hq => ?_, h.1.symm, h.2.symm⟩
      obtain rfl := Option.some.inj hq
      exact hstanding
    | some since =>
      simp only [hf, hstanding, Option.isNone_some, Bool.false_eq_true, if_false,
        Option.pure_def, Option.some.injEq, Prod.mk.injEq] at h
      exact .inr ⟨p, rfl, by rw [hstanding]; rfl, h.2.symm, h.1.symm⟩

theorem rename_cases {name : String} {named : Bool}
    (h : e.rename env app name = some (e', named)) :
    (findApp app e.inner.apps = none ∧ e' = e ∧ named = false) ∨
    ((findApp app e.inner.apps).isSome ∧ named = true ∧
      e' = ((e.withApps (updateApp app (fun p => { p with name := some name })
        e.inner.apps)).recordLog env app "label" "the person named the app"
          "named").persistApps env) := by
  obtain ⟨inner, hlock, h⟩ := Option.bind_eq_some_iff.mp h
  obtain ⟨-, rfl⟩ := lock_eq_some hlock
  cases hf : findApp app e.inner.apps with
  | none =>
    simp only [hf, Option.pure_def, Option.some.injEq, Prod.mk.injEq] at h
    exact .inl ⟨rfl, h.1.symm, h.2.symm⟩
  | some p =>
    simp only [hf, Option.pure_def, Option.some.injEq, Prod.mk.injEq] at h
    exact .inr ⟨rfl, h.2.symm, h.1.symm⟩

theorem setLevel_cases {level : Level} {result : Except String Unit}
    (h : e.setLevel env app level = some (e', result)) :
    (findApp app e.inner.apps = none ∧ e' = e ∧ result = .error ("no paired app " ++ app)) ∨
    ((findApp app e.inner.apps).isSome ∧ result = .ok () ∧
      e' = (e.withApps (updateApp app (fun p => { p with level })
        e.inner.apps)).persistApps env) := by
  obtain ⟨inner, hlock, h⟩ := Option.bind_eq_some_iff.mp h
  obtain ⟨-, rfl⟩ := lock_eq_some hlock
  cases hf : findApp app e.inner.apps with
  | none =>
    simp only [hf, Option.pure_def, Option.some.injEq, Prod.mk.injEq] at h
    exact .inl ⟨rfl, h.1.symm, h.2.symm⟩
  | some p =>
    simp only [hf, Option.pure_def, Option.some.injEq, Prod.mk.injEq] at h
    exact .inr ⟨rfl, h.2.symm, h.1.symm⟩

theorem remove_cases {method summary : String} {removed : Bool}
    (h : e.remove env app method summary = some (e', removed)) :
    removed = (e.removeApp app).2 ∧ e' = if removed then
      ((e.removeApp app).1.recordLog env app method summary "removed").persistApps env
    else (e.removeApp app).1 := by
  obtain ⟨inner, -, h⟩ := Option.bind_eq_some_iff.mp h
  cases hremoved : (e.removeApp app).2 with
  | true =>
    simp only [hremoved, if_true, Option.pure_def, Option.some.injEq, Prod.mk.injEq] at h
    obtain ⟨rfl, rfl⟩ := h
    exact ⟨rfl, rfl⟩
  | false =>
    simp only [hremoved, Bool.false_eq_true, if_false, Option.pure_def, Option.some.injEq,
      Prod.mk.injEq] at h
    obtain ⟨rfl, rfl⟩ := h
    exact ⟨rfl, rfl⟩

/-! ### Each call as an edit of the register -/

theorem pairWithMetadata_moves {who : N.PublicKey} {name image perms url : Option String}
    (h : e.pairWithMetadata env who name image perms url = some e') :
    e.Moves e' (Register.enrol (N.hex who) false e.registry) := by
  have hsome : (e.registry.lookup (N.hex who)).isSome = _ := isSome_lookup_registry
  obtain ⟨p, hf, rfl⟩ | ⟨hf, p, hname, hstanding, rfl⟩ := pairWithMetadata_cases h
  · have hkeep : Register.enrol (N.hex who) false e.registry = e.registry := by
      simp [Register.enrol, hsome, hf]
    rw [hkeep]
    exact .withApps (registryOf_updateApp fun _ => ⟨rfl, rfl⟩)
  · have hnew : Register.enrol (N.hex who) false e.registry =
        e.registry ++ [(N.hex who, false)] := by
      simp [Register.enrol, hsome, hf]
    rw [hnew]
    exact Moves.persistApps (.recordLog (.withApps (by
      simp [registryOf, registry, hname, hstanding])))

theorem pairWithMetadata_isSome (env : Env N) (who : N.PublicKey)
    (name image perms url : Option String) (hp : e.poisoned = false) :
    ∃ e', e.pairWithMetadata env who name image perms url = some e' := by
  simp only [pairWithMetadata, lock_of_unpoisoned hp, Option.bind_eq_bind, Option.bind_some]
  split
  · exact ⟨_, rfl⟩
  · exact ⟨_, rfl⟩

theorem revoke_moves {removed : Bool} (h : e.revoke env app = some (e', removed)) :
    e.Moves e' (Register.assign app true e.registry) ∧
      removed = (e.registry.lookup app).isSome := by
  have hsome : (e.registry.lookup app).isSome = _ := isSome_lookup_registry
  obtain ⟨hf, rfl, rfl⟩ | ⟨p, marked, hf, rfl, hmarked, rfl⟩ := revoke_cases h
  · have hnone : e'.registry.lookup app = none := by simpa [hf] using hsome
    rw [Register.assign_of_none hnone, hnone]
    exact ⟨.refl e', rfl⟩
  · refine ⟨.persistApps ?_, by rw [hsome, hf]; rfl⟩
    have hmark : e.Moves marked (Register.assign app true e.registry) :=
      hmarked ▸ .withRemembered (.withApps (registryOf_updateApp_assign fun _ => ⟨rfl, rfl⟩))
    split_ifs
    · exact hmark.recordLog
    · exact hmark

theorem unrevoke_moves {cleared : Bool} (h : e.unrevoke env app = some (e', cleared)) :
    e.Moves e' (Register.assign app false e.registry) ∧
      cleared = (e.registry.lookup app == some true) := by
  have hlook : e.registry.lookup app = _ := lookup_registry
  obtain ⟨hnone, rfl, rfl⟩ | ⟨p, hf, hstanding, rfl, rfl⟩ := unrevoke_cases h
  · cases hf : findApp app e'.inner.apps with
    | none =>
      have hnone : e'.registry.lookup app = none := by simpa [hf] using hlook
      rw [Register.assign_of_none hnone, hnone]
      exact ⟨.refl e', rfl⟩
    | some p =>
      have hsome : e'.registry.lookup app = some false := by
        simpa [hf, hnone p hf] using hlook
      rw [Register.assign_of_some hsome, hsome]
      exact ⟨.refl e', rfl⟩
  · have hsome : e.registry.lookup app = some true := by simpa [hf, hstanding] using hlook
    rw [hsome]
    exact ⟨.persistApps (.recordLog (.withApps
      (registryOf_updateApp_assign fun _ => ⟨rfl, rfl⟩))), rfl⟩

theorem rename_moves {name : String} {named : Bool} (h : e.rename env app name = some (e', named)) :
    e.Moves e' e.registry := by
  obtain ⟨-, rfl, -⟩ | ⟨-, -, rfl⟩ := rename_cases h
  · exact .refl e'
  · exact .persistApps (.recordLog (.withApps (registryOf_updateApp fun _ => ⟨rfl, rfl⟩)))

theorem setLevel_moves {level : Level} {result : Except String Unit}
    (h : e.setLevel env app level = some (e', result)) : e.Moves e' e.registry := by
  obtain ⟨-, rfl, -⟩ | ⟨-, -, rfl⟩ := setLevel_cases h
  · exact .refl e'
  · exact .persistApps (.withApps (registryOf_updateApp fun _ => ⟨rfl, rfl⟩))

theorem remove_moves {method summary : String} {removed : Bool}
    (h : e.remove env app method summary = some (e', removed)) :
    e.Moves e' (Register.strike app e.registry) ∧
      removed = (e.registry.lookup app).isSome := by
  have hgone : e.Moves (e.removeApp app).1 (Register.strike app e.registry) :=
    .withRemembered (.withApps registryOf_filter)
  have hfound : (e.removeApp app).2 = (e.registry.lookup app).isSome := by
    rw [isSome_lookup_registry, Bool.eq_iff_iff]
    simp [removeApp, findApp, List.length_filter_lt_length_iff_exists]
  obtain ⟨hremoved, rfl⟩ := remove_cases h
  refine ⟨?_, hremoved.trans hfound⟩
  split_ifs
  · exact .persistApps hgone.recordLog
  · exact hgone

theorem remove_isSome (env : Env N) (app method summary : String) (hp : e.poisoned = false) :
    ∃ result, e.remove env app method summary = some result := by
  simp only [remove, lock_of_unpoisoned hp, Option.bind_eq_bind, Option.bind_some]
  split
  · exact ⟨_, rfl⟩
  · exact ⟨_, rfl⟩

/-- Over a lock nothing has poisoned, the calls of the verbs all return. -/
theorem calls_isSome (env : Env N) (hp : e.poisoned = false) :
    (∀ app, (e.revoke env app).isSome) ∧ (∀ app, (e.unrevoke env app).isSome) ∧
    (∀ app, (e.delete env app).isSome) ∧ (∀ app name, (e.rename env app name).isSome) ∧
    (∀ app level, (e.setLevel env app level).isSome) ∧
    ∀ id decision remember, (e.answer env id decision remember).isSome := by
  have hlock := lock_of_unpoisoned hp
  refine ⟨fun app => ?_, fun app => ?_, fun app => ?_, fun app name => ?_, fun app level => ?_,
    fun id decision remember => ?_⟩
  · simp only [revoke, hlock, Option.bind_eq_bind, Option.bind_some]
    split <;> rfl
  · simp only [unrevoke, hlock, Option.bind_eq_bind, Option.bind_some]
    split
    · rfl
    · split <;> rfl
  · obtain ⟨result, hr⟩ := remove_isSome env app "delete" "the person deleted the app" hp
    simp [delete, hr]
  · simp only [rename, hlock, Option.bind_eq_bind, Option.bind_some]
    split <;> rfl
  · simp only [setLevel, hlock, Option.bind_eq_bind, Option.bind_some]
    split <;> rfl
  · simp only [answer, hlock, Option.bind_eq_bind, Option.bind_some]
    split <;> rfl

theorem noted_moves {method summary verdict : String}
    (h : e.noted env app method summary verdict = some e') : e.Moves e' e.registry := by
  obtain ⟨inner, -, h⟩ := Option.bind_eq_some_iff.mp h
  cases h
  exact (Moves.refl e).recordLog

theorem answer_moves {id : String} {decision : Decision} {remember : Option ℕ}
    {result : Except String Unit} (h : e.answer env id decision remember = some (e', result)) :
    e.Moves e' e.registry := by
  obtain ⟨inner, hlock, h⟩ := Option.bind_eq_some_iff.mp h
  obtain ⟨-, rfl⟩ := lock_eq_some hlock
  cases hf : e.inner.prompts.find? fun p => p.1 == id with
  | none =>
    simp only [hf, Option.pure_def, Option.some.injEq, Prod.mk.injEq] at h
    obtain ⟨rfl, -⟩ := h
    exact .refl e
  | some entry =>
    simp only [hf, Option.pure_def, Option.some.injEq, Prod.mk.injEq] at h
    obtain ⟨rfl, -⟩ := h
    exact Moves.recordLog ⟨rfl, rfl, .inl rfl⟩

section
variable {who : N.PublicKey} {method : Method} {params : List String} {pc : DecidePc}

/-- The level read counts the use, and poisons the lock when the record is gone. -/
theorem judge_moves :
    (e.judge env who method params).1.registry = e.registry ∧
      ((e.registry.lookup (N.hex who)).isSome →
        e.Moves (e.judge env who method params).1 e.registry) := by
  rw [isSome_lookup_registry]
  cases hf : findApp (N.hex who) e.inner.apps with
  | none =>
    have hgone : e.judge env who method params = ({ e with poisoned := true }, .panicked) := by
      simp [judge, hf]
    rw [hgone]
    exact ⟨rfl, fun h => nomatch h⟩
  | some paired =>
    have hcount : e.Moves (e.withApps (updateApp (N.hex who) (fun p =>
        { p with requestCount := p.requestCount + 1, lastUsedAt := some env.unixNow })
          e.inner.apps)) e.registry := .withApps (registryOf_updateApp fun _ => ⟨rfl, rfl⟩)
    simp only [judge, hf]
    cases e.standingVerdict env.unixNow paired who method params with
    | none => exact ⟨hcount.registry, fun _ => hcount⟩
    | some verdict =>
      exact ⟨hcount.recordLog.persistApps.registry, fun _ => hcount.recordLog.persistApps⟩

theorem register_moves : e.Moves (e.register env who method params).1 e.registry := by
  unfold register
  split
  · exact ⟨rfl, rfl, .inl rfl⟩
  · exact ⟨rfl, rfl, .inl rfl⟩

theorem wait_moves {card : String} {ticket deadline : ℕ} :
    e.Moves (e.wait env card ticket deadline).1 e.registry := by
  unfold wait
  split
  · exact .refl e
  · split
    · exact .refl e
    · split_ifs
      · exact .refl e
      · exact ⟨rfl, rfl, .inl rfl⟩
      · exact .refl e

theorem expire_moves {card : String} :
    e.Moves (e.expire env who method params card).1 e.registry := by
  unfold expire
  split
  · exact Moves.recordLog ⟨rfl, rfl, .inl rfl⟩
  · exact .refl e

/-- The pairing section enrols the app, or finds the lock poisoned and panics. -/
theorem advance_called (env : Env N) (e : Engine N) (who : N.PublicKey) (method : Method)
    (params : List String) :
    e.poisoned = true ∧ e.advance env who method params .called = (e, .panicked) ∨
    ∃ e', e.advance env who method params .called = (e', .paired) ∧
      e.Moves e' (Register.enrol (N.hex who) false e.registry) := by
  cases hp : e.poisoned with
  | true =>
    exact .inl ⟨rfl, by simp [advance, pair, pairWithMetadata, lock, hp]⟩
  | false =>
    obtain ⟨e', he'⟩ := pairWithMetadata_isSome env who none none none none hp
    exact .inr ⟨e', by simp [advance, pair, he'], pairWithMetadata_moves he'⟩

/-- No other section of `decide` edits a record. -/
theorem advance_registry (h : pc ≠ .called) :
    (e.advance env who method params pc).1.registry = e.registry := by
  cases pc with
  | called => exact absurd rfl h
  | paired =>
    cases hp : e.poisoned with
    | true => simp [advance, hp]
    | false => simpa [advance, hp] using judge_moves.1
  | asking =>
    cases hp : e.poisoned with
    | true => simp [advance, hp]
    | false => simpa [advance, hp] using register_moves.registry
  | waiting card ticket deadline => exact wait_moves.registry
  | expired card =>
    cases hp : e.poisoned with
    | true => simp [advance, hp]
    | false => simpa [advance, hp] using expire_moves.registry
  | returned decision => rfl
  | panicked => rfl

/-- No section poisons the lock but the level read, and that one only without a record. -/
theorem advance_poisoned
    (h : pc = .paired → (e.registry.lookup (N.hex who)).isSome) :
    (e.advance env who method params pc).1.poisoned = e.poisoned := by
  cases pc with
  | called =>
    unfold advance
    cases hc : e.pair env who with
    | none => rfl
    | some e' => exact (pairWithMetadata_moves hc).poisoned
  | paired =>
    cases hp : e.poisoned with
    | true => simp [advance, hp]
    | false => simpa [advance, hp] using (judge_moves.2 (h rfl)).poisoned.trans hp
  | asking =>
    cases hp : e.poisoned with
    | true => simp [advance, hp]
    | false => simpa [advance, hp] using register_moves.poisoned.trans hp
  | waiting card ticket deadline => exact wait_moves.poisoned
  | expired card =>
    cases hp : e.poisoned with
    | true => simp [advance, hp]
    | false => simpa [advance, hp] using expire_moves.poisoned.trans hp
  | returned decision => rfl
  | panicked => rfl

/-- A section of `decide` that poisons the lock is its last. -/
theorem advance_panics (hp : e.poisoned = false)
    (h : (e.advance env who method params pc).1.poisoned = true) :
    (e.advance env who method params pc).2 = .panicked := by
  by_cases hfound : pc = .paired → (e.registry.lookup (N.hex who)).isSome
  · rw [advance_poisoned hfound, hp] at h
    cases h
  · obtain ⟨rfl, hnone⟩ := Classical.not_imp.mp hfound
    rw [isSome_lookup_registry, Option.not_isSome_iff_eq_none] at hnone
    simp [advance, hp, judge, hnone]

end
end Engine
end Kuma.Nostr
