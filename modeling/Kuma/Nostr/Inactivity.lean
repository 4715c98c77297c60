import Kuma.Nostr.KillSwitch

/-! The inactivity switch over whole runs. The clock is read at the last touch, which is a
Touch, an Unlock that found its key, or the process starting: a Setup, a Rotate or an answered
prompt leaves it running. -/
namespace Kuma.Nostr
open Kuma.Lib

variable {N : Crate} {env : Env N}

namespace Daemon

variable {d : Daemon N} {key : N.SecretKey}

/-- The two fields of the switch. -/
def switch (d : Daemon N) : Option ℕ × ℕ := (d.inactivity, d.lastActivity)

/-- The verbs that start the clock over. -/
def touches (env : Env N) (d : Daemon N) : Request → Bool
  | .touch => true
  | .unlock => (d.opening env .unlock).isSome
  | _ => false

theorem foldl_seedRecord_switch (apps : List Paired) (acc : Daemon N × List N.PublicKey) :
    (apps.foldl seedRecord acc).1.switch = acc.1.switch := by
  induction apps generalizing acc with
  | nil => rfl
  | cons p ps ih =>
    rw [List.foldl_cons, ih]
    unfold seedRecord
    split
    · split <;> rfl
    · rfl

@[simp] theorem armBunker_switch : (d.armBunker key).1.switch = d.switch := by
  unfold armBunker
  dsimp only
  split
  · rfl
  · exact foldl_seedRecord_switch _ _

@[simp] theorem onEngine_switch {α : Type} {call : Option (Engine N × α)}
    {answer : α → Response} : (d.onEngine call answer).1.switch = d.switch := by
  unfold onEngine
  split <;> rfl

@[simp] theorem onLive_switch {app : String} {change : Bunker N → N.PublicKey → Bunker N}
    {roads : N.PublicKey → RelayPool N → RelayPool N} :
    (d.onLive app change roads).switch = d.switch := by
  unfold onLive
  split <;> rfl

theorem unlock_switch : (d.unlock env).1.switch =
    (d.inactivity, if d.touches env .unlock then env.instant else d.lastActivity) := by
  unfold unlock
  cases hv : d.vault.unlock env with
  | error e => simp [switch, touches, opening, hv, Except.toOption]
  | ok vault =>
    cases hk : vault.key with
    | none => simp [switch, touches, opening, hv, hk, Except.toOption]
    | some key =>
      have htouches : d.touches env .unlock = true := by
        simp [touches, opening, hv, hk, Except.toOption]
      simp only [hk, armBunker_switch, htouches, if_true]
      rfl

theorem connect_switch (uri : String) : (d.connect env uri).1.switch = d.switch := by
  unfold connect
  split
  · rfl
  · dsimp only
    split
    · rfl
    · split
      · rfl
      · split <;> rfl

/-- What a verb makes of the switch: the clock starts over under the verbs that touch. -/
theorem handle_switch (request : Request) : (d.handle env request).1.switch =
    (d.inactivity, if d.touches env request then env.instant else d.lastActivity) := by
  cases request with
  | ping | lock | touch | prompts | log | apps => rfl
  | unlock => exact unlock_switch
  | connect uri => exact connect_switch uri
  | status =>
    simp only [handle, Prod.map, id, status]
    split <;> rfl
  | setup mode =>
    simp only [handle, setup]
    split
    · rfl
    · split
      · rfl
      · exact armBunker_switch
  | rotate =>
    simp only [handle, rotate]
    split
    · rfl
    · split
      · rfl
      · exact armBunker_switch
  | destroy confirm =>
    simp only [handle, Prod.map, id, destroy]
    split <;> rfl
  | mint label =>
    simp only [handle, Prod.map, id, mint]
    split
    · rfl
    · split <;> rfl
  | approve id rememberHours =>
    simp only [handle, approve]
    split
    · rfl
    · exact onEngine_switch
  | deny | level | label => exact onEngine_switch
  | revoke app =>
    simp only [handle, revoke]
    split
    · rfl
    · dsimp only
      split
      · exact onLive_switch
      · rfl
  | unrevoke app =>
    simp only [handle, unrevoke]
    split
    · rfl
    · dsimp only
      split
      · exact onLive_switch
      · rfl
  | delete app =>
    simp only [handle, delete]
    split
    · rfl
    · dsimp only
      split
      · exact onLive_switch
      · rfl

end Daemon

namespace System

variable {s : System N} {a : Action N}

/-- The instant at which an action starts the clock over, if it does. -/
def touched (s : System N) (a : Action N) : Option ℕ :=
  match a.request with
  | some (env, request) =>
    if !s.poisoned && s.daemon.touches env request then some env.instant else none
  | none =>
    match a with
    | .restart env => some env.instant
    | _ => none

/-- The last touch of a process's history, which begins with its start. -/
def lastTouch (boot : Boot) (as : List (Action N)) : ℕ :=
  ((visits step (start boot) as).filterMap fun x => x.1.touched x.2).getLast?.getD boot.instant

/-- A window is set, and it has gone by since the last touch. -/
def Lapsed (boot : Boot) (as : List (Action N)) (now : ℕ) : Prop :=
  ∃ window, boot.inactivity = some window ∧ lastTouch boot as + window < now

theorem workerCall_switch {call : Option (Engine N)} {next : Worker N} :
    (s.workerCall call next).daemon.switch = s.daemon.switch := by
  cases call <;> rfl

theorem burn_switch {d : Daemon N} {secret : String} :
    (d.burn env secret).1.switch = d.switch := by
  unfold Daemon.burn
  split <;> rfl

theorem publish_switch {d : Daemon N} {event : N.Event} :
    (d.publish event).1.switch = d.switch := by
  unfold Daemon.publish
  split <;> rfl

theorem beat_switch : (s.beat env).daemon.switch = s.daemon.switch := by
  obtain ⟨daemon, poisoned, worker⟩ := s
  cases worker with
  | idle | dead => rfl
  | pairing | serving | shedding | ending => exact workerCall_switch
  | burning answer burned =>
    cases poisoned with
    | true => rfl
    | false => exact burn_switch
  | publishing answer =>
    cases poisoned with
    | true => rfl
    | false => exact publish_switch
  | asking request id method params pc =>
    cases pc with
    | returned decision =>
      cases poisoned with
      | true => rfl
      | false =>
        simp only [beat, Bool.false_eq_true, if_false]
        split <;> rfl
    | _ => rfl

/-- One step sets the window of the process that follows to its own, and the clock only where
it touches. -/
theorem step_switch (s : System N) (a : Action N) : (s.step a).daemon.switch =
    (s.daemon.inactivity, (s.touched a).getD s.daemon.lastActivity) := by
  cases hreq : a.request with
  | some asked =>
    obtain ⟨env, request⟩ := asked
    cases hp : s.poisoned with
    | true =>
      rw [step_of_request_poisoned hreq hp]
      simp [touched, hreq, hp, Daemon.switch]
    | false =>
      rw [step_of_request hreq hp]
      have hhandled : (s.underLock (s.daemon.handle env request)).daemon.switch = _ :=
        Daemon.handle_switch request
      rw [hhandled]
      cases ht : s.daemon.touches env request <;> simp [touched, hreq, hp, ht]
  | none =>
    cases a with
    | verb | startup => cases hreq
    | restart env => rfl
    | beat env => exact beat_switch
    | watchdog env =>
      simp only [step]
      split
      · rfl
      · simp only [Daemon.watchdog]
        split <;> rfl
    | recv env event =>
      rcases recv_daemon s env event with hsame | ⟨b, -, -, -, hplan⟩
      · simp [step, hsame, touched, hreq, Daemon.switch]
      · simp [step, hplan, touched, hreq, Daemon.switch]

theorem run_inactivity (boot : Boot) (as : List (Action N)) :
    (run step (start boot) as).daemon.inactivity = boot.inactivity :=
  run_invariant (I := fun s : System N => s.daemon.inactivity = boot.inactivity)
    (P := fun _ _ => True)
    (fun s a hs _ => (congrArg Prod.fst (step_switch s a)).trans hs) rfl
    (along_of_forall fun _ _ => trivial)

theorem run_lastActivity (boot : Boot) (as : List (Action N)) :
    (run step (start boot) as).daemon.lastActivity = lastTouch boot as := by
  let activity (s : System N) : ℕ := s.daemon.lastActivity
  have hstep : ∀ (s : System N) (a : Action N),
      activity (step s a) = (touched s a).getD (activity s) :=
    fun s a => congrArg Prod.snd (step_switch s a)
  exact run_latest hstep (start boot) as

theorem inactivityExpired_iff (boot : Boot) (as : List (Action N)) (env : Env N) :
    (run step (start boot) as).daemon.inactivityExpired env = true ↔
      (run step (start boot) as).daemon.vault.isUnlocked = true ∧ Lapsed boot as env.instant := by
  rw [Daemon.inactivityExpired, run_inactivity, run_lastActivity, Lapsed]
  cases boot.inactivity with
  | none => simp
  | some window => simp [Nat.lt_sub_iff_add_lt, Nat.add_comm]

/-- A switch whose vault is locked has nothing armed either. -/
theorem shut_of_locked (boot : Boot) (as : List (Action N))
    (hp : (run step (start boot) as).poisoned = false)
    (hlocked : (run step (start boot) as).daemon.vault.isUnlocked = false) :
    Shut (run step (start boot) as) := by
  have hcoupled : Coupled (run step (start boot) as).daemon :=
    run_invariant (I := fun s : System N => s.poisoned = false → Coupled s.daemon)
      (P := fun _ _ => True) (fun s a hs _ => step_coupled s a hs)
      (fun _ => .of_closed rfl rfl rfl) (along_of_forall fun _ _ => trivial) hp
  have hkey : (run step (start boot) as).daemon.vault.key = none := by
    simpa [Vault.isUnlocked] using hlocked
  refine ⟨?_, fun _ => hkey⟩
  simpa [hkey] using hcoupled.armed

/-- The watchdog's beat, in any history that has not poisoned the lock. -/
theorem inactivity_switch (boot : Boot) (pre post : List (Action N)) (env : Env N)
    (hp : (run step (start boot) pre).poisoned = false) :
    (Lapsed boot pre env.instant →
      Along step (fun s a => ¬ Opens s a) (run step (start boot) (pre ++ [.watchdog env])) post →
      Shut (run step (start boot) (pre ++ .watchdog env :: post))) ∧
    (¬ Lapsed boot pre env.instant →
      run step (start boot) (pre ++ [.watchdog env]) = run step (start boot) pre) := by
  have hexpired := inactivityExpired_iff boot pre env
  simp only [run_append, run_cons, run_nil]
  constructor
  · intro hlapsed hquiet
    refine run_invariant step_shut ?_ hquiet
    cases hunlocked : (run step (start boot) pre).daemon.vault.isUnlocked with
    | true => exact shut_of_closes hp (hexpired.mpr ⟨hunlocked, hlapsed⟩)
    | false =>
      refine step_shut _ _ (shut_of_locked boot pre hp hunlocked) ?_
      rintro ⟨_, _, _, hreq, -⟩
      cases hreq
  · intro hlapsed
    have hinside : (run step (start boot) pre).daemon.inactivityExpired env = false := by
      by_contra h
      exact hlapsed (hexpired.mp (by simpa using h)).2
    simp only [step, hp, Bool.false_eq_true, if_false, Daemon.watchdog, hinside]
    rw [← hp]

private def guardedBoot : Boot := ⟨none, [], none, some (300 * 1000000000), 0⟩

private def idleAt (now : ℕ) : Env (Crate.plain []) := .plain _ now

/-- A Setup long after the start, which the clock does not count as a touch. -/
private def setUpLate : List (Action (Crate.plain [])) :=
  [.verb (idleAt 990) (.setup (.import_ "key" none))]

theorem inactivity_switch_setup :
    (run step (start guardedBoot) setUpLate).daemon.vault.isUnlocked = true ∧
    Shut (run step (start guardedBoot)
      (setUpLate ++ .watchdog (idleAt 991) :: [.beat (idleAt 992)])) := by
  refine ⟨by decide +kernel, ?_⟩
  refine (inactivity_switch guardedBoot setUpLate [.beat (idleAt 992)] (idleAt 991)
    (by decide +kernel)).1 ⟨_, rfl, ?_⟩ ?_
  · have hlast : lastTouch guardedBoot setUpLate = 0 := by decide +kernel
    rw [hlast]
    decide
  · refine along_cons.mpr ⟨?_, along_nil _⟩
    rintro ⟨_, _, _, hreq, -⟩
    cases hreq

end System
end Kuma.Nostr
