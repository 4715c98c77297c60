import Kuma.Nostr.Deciding

/-! The pairings in memory against the ones in `apps.json`, after every call of the engine. A
call that changes a record is to save the list; two of them forget to. -/
namespace Kuma.Nostr
open Kuma.Lib

variable {N : Crate}

/-- A call of the engine, or one section of a `decide`. -/
inductive EngineOp (N : Crate)
  | pair (app : N.PublicKey) (name image perms url : Option String)
  | decide (app : N.PublicKey) (method : Method) (params : List String) (pc : DecidePc)
  | unrevoke (app : String)
  | verb (verb : EngineVerb)
  | noted (app method summary verdict : String)

namespace Engine

/-- What a call leaves; a panic leaves what it found. -/
def perform (e : Engine N) (op : Env N × EngineOp N) : Engine N :=
  match op.2 with
  | .pair app name image perms url => (e.pairWithMetadata op.1 app name image perms url).getD e
  | .decide app method params pc => (e.advance op.1 app method params pc).1
  | .unrevoke app => ((e.unrevoke op.1 app).map Prod.fst).getD e
  | .verb verb => (verb.call op.1 e).getD e
  | .noted app method summary verdict => (e.noted op.1 app method summary verdict).getD e

/-- A fresh engine over the same directory holds the same pairings. -/
structure Durable (e : Engine N) : Prop where
  files : e.stateDir.isSome
  apps : (new e.stateDir : Engine N).inner.apps = e.inner.apps

/-- A call that meets a record adds nothing to it, and a level read that finds a record finds
an answer too. -/
def Saves (e : Engine N) (op : Env N × EngineOp N) : Prop :=
  match op.2 with
  | .pair app name image perms url => e.poisoned = false →
    ∀ p ∈ findApp (N.hex app) e.inner.apps,
      (p.name.isSome ∨ name = none) ∧ (p.image.isSome ∨ image = none) ∧
        (p.perms.isSome ∨ perms = none) ∧ (p.url.isSome ∨ url = none)
  | .decide app method params .paired => e.poisoned = false →
    ∀ p ∈ findApp (N.hex app) e.inner.apps,
      (e.standingVerdict op.1.unixNow p app method params).isSome
  | _ => True

section
variable {e e' : Engine N} {env : Env N} {apps : List Paired} {app method summary verdict : String}

@[simp] theorem recordLog_apps :
    (e.recordLog env app method summary verdict).inner.apps = e.inner.apps := by
  simp only [recordLog, persistLog]

@[simp] theorem recordLog_files :
    (e.recordLog env app method summary verdict).stateDir.isSome = e.stateDir.isSome := by
  simp only [recordLog, persistLog, Option.isSome_map]

/-- The log is another file. -/
theorem recordLog_durable :
    (e.recordLog env app method summary verdict).Durable ↔ e.Durable := by
  have happs : (new (e.recordLog env app method summary verdict).stateDir : Engine N).inner.apps =
      (new e.stateDir : Engine N).inner.apps := by
    simp only [recordLog, persistLog, new]
    cases e.stateDir with
    | none => rfl
    | some dir => simp only [Option.map_some, Option.bind_some]
  constructor
  · intro h
    exact ⟨recordLog_files.symm.trans h.files, happs.symm.trans (h.apps.trans recordLog_apps)⟩
  · intro h
    exact ⟨recordLog_files.trans h.files, happs.trans (h.apps.trans recordLog_apps.symm)⟩

/-- A list that replaces the one in memory alone has to be the old one. -/
theorem withApps_durable (h : e.Durable) : (e.withApps apps).Durable ↔ apps = e.inner.apps := by
  constructor
  · intro h'
    have hloaded : (new e.stateDir : Engine N).inner.apps = apps := h'.apps
    rw [← hloaded, h.apps]
  · intro heq
    exact ⟨h.files, by rw [heq]; exact h.apps⟩

/-- A saved list is durable whatever stood in the file. -/
theorem persistApps_durable (hfiles : e.stateDir.isSome) (hwritten : env.appsWrite = .written) :
    (e.persistApps env).Durable := by
  obtain ⟨dir, hdir⟩ := Option.isSome_iff_exists.mp hfiles
  have hsaved : (e.persistApps env).stateDir = some { dir with apps := some e.inner.apps } := by
    simp [persistApps, hdir, hwritten, write]
  constructor
  · rw [hsaved]
    rfl
  · rw [hsaved]
    rfl

/-- An update of a record changes the list exactly when it changes the record. -/
theorem updateApp_eq_self_iff {f : Paired → Paired} {p : Paired} (h : findApp app apps = some p) :
    updateApp app f apps = apps ↔ f p = p := by
  induction apps with
  | nil => cases h
  | cons q ps ih =>
    unfold updateApp
    by_cases hq : q.pubkey = app
    · obtain rfl : q = p := by simpa [findApp, hq] using h
      simp [hq]
    · have hrest : findApp app ps = some p := by simpa [findApp, hq] using h
      simp [hq, ih hrest]

theorem pairWithMetadata_durable {who : N.PublicKey} {name image perms url : Option String}
    (hd : e.Durable) (hwritten : env.appsWrite = .written)
    (h : e.pairWithMetadata env who name image perms url = some e') :
    e'.Durable ↔ ∀ p ∈ findApp (N.hex who) e.inner.apps,
      (p.name.isSome ∨ name = none) ∧ (p.image.isSome ∨ image = none) ∧
        (p.perms.isSome ∨ perms = none) ∧ (p.url.isSome ∨ url = none) := by
  have hfill : ∀ old new : Option String, old.or new = old ↔ old.isSome ∨ new = none := by
    intro old new
    cases old <;> simp
  obtain ⟨p, hf, rfl⟩ | ⟨hf, p, -, -, rfl⟩ := pairWithMetadata_cases h
  · rw [withApps_durable hd, updateApp_eq_self_iff hf, hf]
    cases p
    simp [hfill]
  · refine iff_of_true (persistApps_durable (recordLog_files.trans hd.files) hwritten) ?_
    simp [hf]

theorem revoke_durable {removed : Bool} (hd : e.Durable) (hwritten : env.appsWrite = .written)
    (h : e.revoke env app = some (e', removed)) : e'.Durable := by
  obtain ⟨-, rfl, -⟩ | ⟨p, marked, -, -, rfl, rfl⟩ := revoke_cases h
  · exact hd
  · apply persistApps_durable _ hwritten
    split_ifs
    · exact recordLog_files.trans hd.files
    · exact hd.files

theorem unrevoke_durable {cleared : Bool} (hd : e.Durable) (hwritten : env.appsWrite = .written)
    (h : e.unrevoke env app = some (e', cleared)) : e'.Durable := by
  obtain ⟨-, rfl, -⟩ | ⟨p, -, -, -, rfl⟩ := unrevoke_cases h
  · exact hd
  · exact persistApps_durable (recordLog_files.trans hd.files) hwritten

theorem rename_durable {name : String} {named : Bool} (hd : e.Durable)
    (hwritten : env.appsWrite = .written) (h : e.rename env app name = some (e', named)) :
    e'.Durable := by
  obtain ⟨-, rfl, -⟩ | ⟨-, -, rfl⟩ := rename_cases h
  · exact hd
  · exact persistApps_durable (recordLog_files.trans hd.files) hwritten

theorem setLevel_durable {level : Level} {result : Except String Unit} (hd : e.Durable)
    (hwritten : env.appsWrite = .written) (h : e.setLevel env app level = some (e', result)) :
    e'.Durable := by
  obtain ⟨-, rfl, -⟩ | ⟨-, -, rfl⟩ := setLevel_cases h
  · exact hd
  · have hupdated : (e.withApps (updateApp app (fun p => { p with level }) e.inner.apps)
      ).stateDir.isSome := hd.files
    exact persistApps_durable hupdated hwritten

/-- A removal that found nothing to remove left the list as it was. -/
theorem remove_durable {removed : Bool} (hd : e.Durable) (hwritten : env.appsWrite = .written)
    (h : e.remove env app method summary = some (e', removed)) : e'.Durable := by
  obtain ⟨hremoved, rfl⟩ := remove_cases h
  have hfiles : (e.removeApp app).1.stateDir.isSome := hd.files
  split_ifs with hfound
  · exact persistApps_durable (recordLog_files.trans hfiles) hwritten
  · have hsame : e.inner.apps.filter (fun p => p.pubkey != app) = e.inner.apps := by
      have hnone : (e.removeApp app).2 = false := by
        rw [← hremoved]
        exact Bool.eq_false_iff.mpr hfound
      have hshort : ¬ (e.inner.apps.filter fun p => p.pubkey != app).length <
          e.inner.apps.length := of_decide_eq_false hnone
      exact List.filter_sublist.eq_of_length_le (by omega)
    have hkept := (withApps_durable hd).mpr hsame
    exact ⟨hkept.files, hkept.apps⟩

theorem answer_durable {id : String} {decision : Decision} {remember : Option ℕ}
    {result : Except String Unit} (hd : e.Durable)
    (h : e.answer env id decision remember = some (e', result)) : e'.Durable := by
  obtain ⟨inner, hlock, h⟩ := Option.bind_eq_some_iff.mp h
  obtain ⟨-, rfl⟩ := lock_eq_some hlock
  cases hf : e.inner.prompts.find? fun p => p.1 == id with
  | none =>
    simp only [hf, Option.pure_def, Option.some.injEq, Prod.mk.injEq] at h
    exact h.1 ▸ hd
  | some entry =>
    simp only [hf, Option.pure_def, Option.some.injEq, Prod.mk.injEq] at h
    rw [← h.1]
    exact recordLog_durable.mpr ⟨hd.files, hd.apps⟩

section
variable {who : N.PublicKey} {params : List String}

/-- A level read that finds a record counts it, and saves the count with an answer alone. -/
theorem judge_durable {method : Method} (hd : e.Durable) (hwritten : env.appsWrite = .written) :
    (e.judge env who method params).1.Durable ↔ ∀ p ∈ findApp (N.hex who) e.inner.apps,
      (e.standingVerdict env.unixNow p who method params).isSome := by
  cases hf : findApp (N.hex who) e.inner.apps with
  | none =>
    have hkept : (e.judge env who method params).1.Durable := by
      simp only [judge, hf]
      exact ⟨hd.files, hd.apps⟩
    simp [hkept]
  | some p =>
    simp only [judge, hf]
    cases hverdict : e.standingVerdict env.unixNow p who method params with
    | some verdict =>
      have hcounted : (e.withApps (updateApp (N.hex who) (fun p =>
        { p with requestCount := p.requestCount + 1, lastUsedAt := some env.unixNow })
          e.inner.apps)).stateDir.isSome := hd.files
      simp [persistApps_durable (recordLog_files.trans hcounted) hwritten, hverdict]
    | none =>
      have hcount : ({ p with requestCount := p.requestCount + 1,
                              lastUsedAt := some env.unixNow } : Paired) ≠ p := by
        intro heq
        have hless := congrArg Paired.requestCount heq
        simp at hless
      simp [withApps_durable hd, updateApp_eq_self_iff hf, hcount, hverdict]

theorem register_durable {method : Method} (hd : e.Durable) :
    (e.register env who method params).1.Durable := by
  unfold register
  split
  · exact ⟨hd.files, hd.apps⟩
  · exact ⟨hd.files, hd.apps⟩

theorem wait_durable {card : String} {ticket deadline : ℕ} (hd : e.Durable) :
    (e.wait env card ticket deadline).1.Durable := by
  unfold wait
  split
  · exact hd
  · split
    · exact hd
    · split_ifs
      · exact hd
      · exact ⟨hd.files, hd.apps⟩
      · exact hd

theorem expire_durable {method : Method} {card : String} (hd : e.Durable) :
    (e.expire env who method params card).1.Durable := by
  unfold expire
  split
  · exact recordLog_durable.mpr ⟨hd.files, hd.apps⟩
  · exact hd

end

theorem verb_durable {verb : EngineVerb} (hd : e.Durable) (hwritten : env.appsWrite = .written)
    (h : verb.call env e = some e') : e'.Durable := by
  cases verb with
  | revoke app =>
    obtain ⟨result, hr, rfl⟩ := Option.map_eq_some_iff.mp h
    exact revoke_durable hd hwritten hr
  | delete app =>
    obtain ⟨result, hr, rfl⟩ := Option.map_eq_some_iff.mp h
    exact remove_durable hd hwritten hr
  | logout app =>
    obtain ⟨result, hr, rfl⟩ := Option.map_eq_some_iff.mp h
    exact remove_durable hd hwritten hr
  | rename app name =>
    obtain ⟨result, hr, rfl⟩ := Option.map_eq_some_iff.mp h
    exact rename_durable hd hwritten hr
  | setLevel app level =>
    obtain ⟨result, hr, rfl⟩ := Option.map_eq_some_iff.mp h
    exact setLevel_durable hd hwritten hr
  | approve id remember =>
    obtain ⟨result, hr, rfl⟩ := Option.map_eq_some_iff.mp h
    exact answer_durable hd hr
  | deny id =>
    obtain ⟨result, hr, rfl⟩ := Option.map_eq_some_iff.mp h
    exact answer_durable hd hr

/-- With the writes going through, a call keeps the file true exactly when it saves. -/
theorem perform_durable_iff {op : Env N × EngineOp N} (hd : e.Durable)
    (hwritten : op.1.appsWrite = .written) : (e.perform op).Durable ↔ Saves e op := by
  obtain ⟨env, op⟩ := op
  cases op with
  | pair app name image perms url =>
    unfold perform Saves
    cases hcall : e.pairWithMetadata env app name image perms url with
    | none =>
      have hpoisoned : e.poisoned ≠ false := by
        intro hp
        obtain ⟨e', he'⟩ := pairWithMetadata_isSome env app name image perms url hp
        rw [hcall] at he'
        cases he'
      simp [hcall, hd, hpoisoned]
    | some e' =>
      obtain ⟨inner, hlock, -⟩ := Option.bind_eq_some_iff.mp hcall
      have hp := (lock_eq_some hlock).1
      simp only [hcall, Option.getD_some, hp, forall_true_left]
      exact pairWithMetadata_durable hd hwritten hcall
  | decide app method params pc =>
    unfold perform Saves advance
    cases pc with
    | called =>
      cases hcall : e.pair env app with
      | none => simp [hcall, hd]
      | some e' =>
        have hpaired := (pairWithMetadata_durable hd hwritten hcall).mpr fun p _ => by simp
        simp [hcall, hpaired]
    | paired =>
      cases hp : e.poisoned with
      | true => simp [hd]
      | false => simpa using judge_durable hd hwritten
    | asking =>
      cases hp : e.poisoned with
      | true => simp [hd]
      | false => simp [register_durable hd]
    | waiting card ticket deadline => simp [wait_durable hd]
    | expired card =>
      cases hp : e.poisoned with
      | true => simp [hd]
      | false => simp [expire_durable hd]
    | returned decision => simp [hd]
    | panicked => simp [hd]
  | unrevoke app =>
    have hkept : (((e.unrevoke env app).map Prod.fst).getD e).Durable := by
      cases hcall : e.unrevoke env app with
      | none => exact hd
      | some result => exact unrevoke_durable hd hwritten hcall
    exact ⟨fun _ => trivial, fun _ => hkept⟩
  | verb verb =>
    have hkept : ((verb.call env e).getD e).Durable := by
      cases hcall : verb.call env e with
      | none => exact hd
      | some e' => exact verb_durable hd hwritten hcall
    exact ⟨fun _ => trivial, fun _ => hkept⟩
  | noted app method summary verdict =>
    have hkept : ((e.noted env app method summary verdict).getD e).Durable := by
      cases hcall : e.noted env app method summary verdict with
      | none => exact hd
      | some e' =>
        obtain ⟨inner, -, h⟩ := Option.bind_eq_some_iff.mp hcall
        cases h
        exact recordLog_durable.mpr hd
    exact ⟨fun _ => trivial, fun _ => hkept⟩

end
end Engine

/-- As long as the list's writes go through: a restart finds every pairing as it was, all along
a run, exactly when no call tells a record something new and no level read goes on to ask. -/
theorem apps_durable_iff (dir : StateDir) (ops : List (Env N × EngineOp N))
    (hwritten : ∀ op ∈ ops, op.1.appsWrite = .written) :
    Along Engine.perform Engine.Saves (.new (some dir)) ops ↔
      ∀ pre, pre <+: ops → (run Engine.perform (.new (some dir)) pre).Durable :=
  along_iff_invariant (fun _ _ => Engine.perform_durable_iff) ⟨rfl, rfl⟩ (along_of_forall hwritten)

private def atOnce : Env (Crate.plain []) := .plain [] 100

private def reconnects : List (Env (Crate.plain []) × EngineOp (Crate.plain [])) :=
  [(atOnce, .pair "app" none none none none), (atOnce, .pair "app" (some "Notes") none none none)]

private def pairs : List (Env (Crate.plain []) × EngineOp (Crate.plain [])) :=
  [(atOnce, .pair "app" none none none none)]

theorem apps_durable_paired : (run Engine.perform (.new (some ⟨none, none⟩)) pairs).Durable := by
  have hwritten : ∀ op ∈ pairs, op.1.appsWrite = .written := by simp [pairs, atOnce, Env.plain]
  refine (apps_durable_iff ⟨none, none⟩ pairs hwritten).mp ?_ pairs (List.prefix_refl pairs)
  refine along_cons.mpr ⟨?_, along_nil _⟩
  intro _ p hp
  cases hp

/-- An app that names itself on its second connect: the name is gone with the process. -/
theorem apps_forget_the_name :
    ¬ (run Engine.perform (.new (some ⟨none, none⟩)) reconnects).Durable := by
  intro hd
  have happs := congrArg (List.map Paired.name) hd.apps
  revert happs
  decide +kernel

end Kuma.Nostr
