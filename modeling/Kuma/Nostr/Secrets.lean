import Kuma.Lib.OneTime
import Kuma.Nostr.Books
import Kuma.Nostr.KillSwitch

/-! One-time pairing secrets over whole runs. Each step of the process is a step of the books
as long as nothing copies the store while a burn is owed, and no secret is spent twice. -/
namespace Kuma.Nostr
open Kuma.Lib

variable {N : Crate} {env : Env N}

/-- A worker that a panic ended, or is about to. -/
def Worker.stopped : Worker N → Bool
  | .dead | .asking _ _ _ _ .panicked => true
  | _ => false

namespace System

variable {s : System N} {a : Action N}

/-- The books of a process. -/
def books (s : System N) : OneTime.Books String :=
  ⟨s.daemon.vault.stock, s.daemon.vault.secrets, s.daemon.live, s.worker.owes⟩

/-- The secret a connect is answered with a pairing for. -/
def spends (s : System N) : Action N → Option String
  | .recv env event => (s.planned env event).bind Plan.burns
  | _ => none

/-- The actions that copy stored secrets over the live ones, or lose the debt. -/
def copies (s : System N) : Action N → Bool
  | .verb env request => s.daemon.copies env request
  | .startup env => s.daemon.copies env .unlock
  | .restart _ => true
  | _ => false

/-- Nothing is copied while a spent secret is still stored. -/
def CopiesSettled (s : System N) (a : Action N) : Prop :=
  s.copies a = true → ∀ secret, s.worker.owes = some secret → secret ∉ s.daemon.vault.stock

instance (s : System N) (a : Action N) : Decidable (CopiesSettled s a) :=
  inferInstanceAs (Decidable (s.copies a = true →
    ∀ secret ∈ s.worker.owes, secret ∉ s.daemon.vault.stock))

/-- What the burn counts on: a store it can read, and locks nothing has poisoned. -/
structure Orderly (s : System N) : Prop where
  readable : s.worker.owes.isSome ∨ s.daemon.bunker.isSome ∨ s.daemon.vault.key.isSome →
    s.daemon.vault.Readable
  sane : s.poisoned = true ∨ s.daemon.engine.poisoned = true → s.worker.stopped = true

theorem Orderly.unpoisoned (h : Orderly s) (hrunning : s.worker.stopped = false) :
    s.poisoned = false ∧ s.daemon.engine.poisoned = false := by
  have hsane := h.sane
  cases hp : s.poisoned <;> cases he : s.daemon.engine.poisoned <;> simp_all

theorem owes_of_stopped {worker : Worker N} (h : worker.stopped = true) : worker.owes = none := by
  cases worker with
  | pairing | burning => cases h
  | _ => rfl

/-- A beat leaves the vault and the debt alone, unless it is the burn. -/
theorem beat_settles (env : Env N) (hs : Orderly s) :
    (s.beat env).daemon.vault = s.daemon.vault ∧ (s.beat env).worker.owes = s.worker.owes ∨
    ∃ answer burned, s.worker = .burning answer burned ∧
      (s.beat env).daemon = (s.daemon.burn env burned.secret).1 ∧
      (s.beat env).worker = .publishing answer := by
  have hcall : ∀ (call : Option (Engine N)) (next : Worker N), s.beat env = s.workerCall call next →
      next.owes = none → s.worker.owes = none →
      (s.beat env).daemon.vault = s.daemon.vault ∧ (s.beat env).worker.owes = s.worker.owes := by
    intro call next hbeat hnext hnone
    rw [hbeat, hnone]
    cases call with
    | none => exact ⟨rfl, rfl⟩
    | some engine => exact ⟨rfl, hnext⟩
  have hunpoisoned := hs.unpoisoned
  obtain ⟨daemon, poisoned, worker⟩ := s
  cases worker with
  | idle | dead => exact .inl ⟨rfl, rfl⟩
  | serving | shedding | ending => exact .inl (hcall _ _ rfl rfl rfl)
  | pairing answer app metadata burned perms =>
    obtain ⟨-, hengine⟩ := hunpoisoned rfl
    obtain ⟨engine, hpair⟩ := Engine.pairWithMetadata_isSome env app (pairingName burned metadata)
      (metadata.bind ClientMeta.image) perms (metadata.bind ClientMeta.url) hengine
    refine .inl ⟨?_, ?_⟩
    · simp [beat, workerCall, withEngine, hpair]
    · cases burned <;> simp [beat, workerCall, hpair, Worker.owes]
  | burning answer burned =>
    obtain ⟨rfl, -⟩ := hunpoisoned rfl
    exact .inr ⟨answer, burned, rfl, rfl, rfl⟩
  | publishing answer =>
    cases poisoned with
    | true => exact .inl ⟨rfl, rfl⟩
    | false => exact .inl ⟨publish_vault, rfl⟩
  | asking request id method params pc =>
    cases pc with
    | returned decision =>
      cases poisoned with
      | true => exact .inl ⟨rfl, rfl⟩
      | false =>
        simp only [beat, Bool.false_eq_true, if_false]
        split <;> exact .inl ⟨rfl, rfl⟩
    | _ => exact .inl ⟨rfl, rfl⟩

theorem beat_books (hs : Orderly s) (hwork : env.store 0 = .working) :
    OneTime.Step [] s.books none (s.beat env).books := by
  rcases beat_settles env hs with ⟨hvault, howes⟩ | ⟨answer, burned, hworker, hdaemon, hworker'⟩
  · have hlive : (s.beat env).daemon.live = s.daemon.live :=
      Daemon.live_of_kept id (fun _ => rfl) (by simpa using beat_framed.bunker)
    have hsame : (s.beat env).books = s.books := by simp only [books, hvault, howes, hlive]
    rw [hsame]
    exact .refl _ _
  · have hread := hs.readable (.inl (by rw [hworker]; rfl))
    simp only [books, hworker, hdaemon, hworker']
    exact Daemon.burn_books hwork hread burned.secret

theorem draws_of_request {request : Request} (h : a.request = some (env, request)) :
    a.draws = (Action.verb env request).draws := by
  cases a with
  | verb | startup =>
    cases h
    rfl
  | _ => cases h

theorem copies_of_request {request : Request} (h : a.request = some (env, request)) :
    s.copies a = s.daemon.copies env request := by
  cases a with
  | verb | startup =>
    cases h
    rfl
  | _ => cases h

theorem spends_of_request {request : Request} (h : a.request = some (env, request)) :
    s.spends a = none := by
  cases a with
  | verb | startup => rfl
  | _ => cases h

theorem recv_books {event : N.Event} :
    OneTime.Step [] s.books (s.spends (.recv env event)) (s.recv env event).books := by
  simp only [spends]
  cases hplanned : s.planned env event with
  | none =>
    rw [Option.bind_none]
    rcases recv_of_unplanned hplanned with hsame | ⟨hidle, -, hdead⟩
    · rw [hsame]
      exact .refl _ _
    · have hbooks : (s.recv env event).books = s.books := by
        rw [hdead]
        simp [books, hidle, Worker.owes]
      rw [hbooks]
      exact .refl _ _
  | some p =>
    obtain ⟨b, hidle, -, hb, hplan, hstep⟩ := planned_eq_some hplanned
    obtain ⟨hburns, hlist⟩ := (Bunker.planned_of_plan hplan).books
    have howes : s.worker.owes = none := by rw [hidle]; rfl
    have hlive := Daemon.live_of_some hb
    have hafter : (s.recv env event).books = { s.books with
        live := (b.plan env event).1.expectedSecrets.map Outstanding.secret
        owed := p.burns } := by
      have hrecv : s.recv env event = _ := hstep
      rw [hrecv, hburns]
      rfl
    rw [hafter, Option.bind_some]
    cases hspent : p.burns with
    | some secret =>
      rw [hspent] at hlist
      exact .spend secret _ howes (by simpa [books, hlive] using hlist)
    | none =>
      rw [hspent] at hlist
      refine .wane (.refl _) (.inl ⟨rfl, rfl⟩) ?_ (.inl howes.symm)
      simp [books, hlive, hlist]

theorem step_books (s : System N) (a : Action N) (hs : Orderly s)
    (ha : CopiesSettled s a ∧ a.StoreWorks) :
    OneTime.Step a.draws s.books (s.spends a) (s.step a).books := by
  obtain ⟨hsettled, hworks⟩ := ha
  cases hreq : a.request with
  | some asked =>
    obtain ⟨env, request⟩ := asked
    rw [spends_of_request hreq, draws_of_request hreq]
    cases hp : s.poisoned with
    | true =>
      rw [step_of_request_poisoned hreq hp]
      exact .refl _ _
    | false =>
      rw [step_of_request hreq hp]
      cases hanswer : (s.daemon.handle env request).2 with
      | some response =>
        have hhandled := Daemon.handle_handled
          (Prod.ext rfl hanswer : s.daemon.handle env request = (_, some response))
        exact hhandled.books s.worker.owes fun hcopies => hsettled (by rwa [copies_of_request hreq])
      | none =>
        have hstopped : s.worker.stopped = true := by
          refine hs.sane (.inr ?_)
          by_contra hengine
          have hanswers : (s.daemon.handle env request).2.isSome :=
            Daemon.handle_answers (by simpa using hengine) request
          simp [hanswer] at hanswers
        exact Daemon.panicked_books hanswer (owes_of_stopped hstopped)
  | none =>
    cases a with
    | verb | startup => cases hreq
    | recv env event => exact recv_books
    | beat env => exact beat_books hs (hworks 0)
    | restart env =>
      exact .wane (.refl _) (.inr (.inr rfl)) (List.nil_sublist _) (.inr ⟨rfl, hsettled rfl⟩)
    | watchdog env =>
      cases hp : s.poisoned with
      | true =>
        have hsame : s.step (.watchdog env) = s := by simp [step, hp]
        rw [hsame]
        exact .refl _ _
      | false =>
        simp only [step, hp, Bool.false_eq_true, if_false, Daemon.watchdog]
        split
        · exact .wane (.refl _) (.inl ⟨rfl, rfl⟩) (List.nil_sublist _) (.inl rfl)
        · exact .refl _ _

/-- What poisons the engine's lock stops the worker. -/
theorem beat_stopped (hp : s.daemon.engine.poisoned = false)
    (h : (s.beat env).daemon.engine.poisoned = true) : (s.beat env).worker.stopped = true := by
  have hcall : ∀ (call : Option (Engine N)) (next : Worker N), s.beat env = s.workerCall call next →
      (∀ engine, call = some engine → engine.poisoned = false) → False := by
    intro call next hbeat hcall
    rw [hbeat] at h
    cases call with
    | none => cases hp.symm.trans h
    | some engine => cases (hcall engine rfl).symm.trans h
  obtain ⟨daemon, poisoned, worker⟩ := s
  cases worker with
  | idle | dead => cases hp.symm.trans h
  | pairing answer app metadata burned perms =>
    exact (hcall _ _ rfl fun engine hpair =>
      (Engine.pairWithMetadata_moves hpair).poisoned.trans hp).elim
  | serving | shedding =>
    exact (hcall _ _ rfl fun engine hnoted => (Engine.noted_moves hnoted).poisoned.trans hp).elim
  | ending answer app =>
    refine (hcall _ _ rfl fun engine hlogout => ?_).elim
    obtain ⟨⟨engine', removed⟩, hremove, rfl⟩ := Option.map_eq_some_iff.mp hlogout
    exact (Engine.remove_moves hremove).1.poisoned.trans hp
  | burning answer burned =>
    cases poisoned with
    | true => cases hp.symm.trans h
    | false =>
      simp only [beat, Bool.false_eq_true, if_false, burn_engine] at h
      cases hp.symm.trans h
  | publishing answer =>
    cases poisoned with
    | true => cases hp.symm.trans h
    | false =>
      simp only [beat, Bool.false_eq_true, if_false, publish_engine] at h
      cases hp.symm.trans h
  | asking request id method params pc =>
    cases pc with
    | returned decision =>
      cases poisoned with
      | true => cases hp.symm.trans h
      | false =>
        simp only [beat, Bool.false_eq_true, if_false] at h
        split at h <;> cases hp.symm.trans h
    | panicked => rfl
    | _ =>
      rw [beat_deciding rfl (fun _ => by simp) (by simp)] at h ⊢
      simp only [Worker.stopped, Engine.advance_panics hp h]

/-- No thread but its own moves a stopped worker. -/
theorem worker_of_stopped (hstopped : s.worker.stopped = true) (ha : a.isBeat = false)
    (hrestart : ∀ env, a ≠ .restart env) : (s.step a).worker = s.worker := by
  cases a with
  | verb | startup | watchdog =>
    simp only [step]
    split <;> rfl
  | recv env event =>
    have hbusy : s.worker ≠ .idle := fun hidle => by simp [hidle, Worker.stopped] at hstopped
    have hplanned : s.planned env event = none := by
      unfold planned
      split
      · contradiction
      · rfl
    rcases recv_of_unplanned hplanned with hsame | ⟨hidle, -⟩
    · exact congrArg worker hsame
    · exact absurd hidle hbusy
  | beat env => cases ha
  | restart env => exact absurd rfl (hrestart env)

/-- A worker goes on only over locks nothing has poisoned. -/
theorem step_sane (s : System N) (a : Action N) (hs : Orderly s) :
    (s.step a).poisoned = true ∨ (s.step a).daemon.engine.poisoned = true →
      (s.step a).worker.stopped = true := by
  intro h
  by_cases hrestart : ∃ env, a = .restart env
  · obtain ⟨env, rfl⟩ := hrestart
    simp [step, restart, Daemon.new, Engine.new] at h
  cases hbeat : a.isBeat with
  | true =>
    cases a with
    | beat env =>
      cases hstopped : s.worker.stopped with
      | false =>
        obtain ⟨hp, hengine⟩ := hs.unpoisoned hstopped
        refine beat_stopped hengine (h.resolve_left fun hpoisoned => ?_)
        rw [step, beat_framed.poisoned, hp] at hpoisoned
        cases hpoisoned
      | true =>
        unfold Worker.stopped at hstopped
        split at hstopped
        · rename_i hdead
          simp [step, beat, hdead, Worker.stopped]
        · rename_i hpanicked
          simp [step, beat, hpanicked, Worker.stopped]
        · cases hstopped
    | _ => cases hbeat
  | false =>
    cases hstopped : s.worker.stopped with
    | true => rwa [worker_of_stopped hstopped hbeat fun env h => hrestart ⟨env, h⟩]
    | false =>
      obtain ⟨hp', hengine'⟩ := step_unpoisoned s a (hs.unpoisoned hstopped) hbeat
      simp [hp', hengine'] at h

theorem beat_readable (hs : Orderly s) (hwork : env.store 0 = .working) :
    (s.beat env).worker.owes.isSome ∨ (s.beat env).daemon.bunker.isSome ∨
      (s.beat env).daemon.vault.key.isSome → (s.beat env).daemon.vault.Readable := by
  rcases beat_settles env hs with ⟨hvault, howes⟩ | ⟨answer, burned, hworker, hdaemon, -⟩
  · rw [hvault, howes, beat_framed.bunker]
    exact hs.readable
  · intro _
    have hread := hs.readable (.inl (by rw [hworker]; rfl))
    rw [hdaemon, Daemon.burn]
    rcases Vault.burnSecret_settles hwork hread burned.secret with
      ⟨⟨error, herror⟩, -⟩ | ⟨vault, found, hok, ⟨rfl, -⟩ | hholds⟩
    · simpa [herror] using hread
    · simpa [hok] using hread
    · simpa [hok] using hholds.readable

theorem step_readable (s : System N) (a : Action N) (hs : Orderly s) (hworks : a.StoreWorks) :
    (s.step a).worker.owes.isSome ∨ (s.step a).daemon.bunker.isSome ∨
      (s.step a).daemon.vault.key.isSome → (s.step a).daemon.vault.Readable := by
  cases hreq : a.request with
  | some asked =>
    obtain ⟨env, request⟩ := asked
    cases hp : s.poisoned with
    | true => rw [step_of_request_poisoned hreq hp]; exact hs.readable
    | false =>
      rw [step_of_request hreq hp]
      cases hanswer : (s.daemon.handle env request).2 with
      | some response =>
        have hhandled := Daemon.handle_handled
          (Prod.ext rfl hanswer : s.daemon.handle env request = (_, some response))
        exact hhandled.readable hs.readable
      | none => exact Daemon.panicked_readable hanswer hs.readable
  | none =>
    cases a with
    | verb | startup => cases hreq
    | restart env => simp [step, restart, Daemon.new, Vault.new, Worker.owes]
    | watchdog env =>
      simp only [step]
      split
      · exact hs.readable
      · simp only [Daemon.watchdog]
        split
        · rintro (howes | hbunker | hkey)
          · exact (hs.readable (.inl howes)).of_store (.inr rfl)
          · cases hbunker
          · cases hkey
        · exact hs.readable
    | recv env event =>
      simp only [step]
      cases hplanned : s.planned env event with
      | none =>
        rcases recv_of_unplanned hplanned with hsame | ⟨hidle, -, hdead⟩
        · rw [hsame]
          exact hs.readable
        · rw [hdead]
          exact fun h => hs.readable (.inr (h.resolve_left (by simp [Worker.owes])))
      | some p =>
        obtain ⟨b, -, -, hb, -, hstep⟩ := planned_eq_some hplanned
        have hrecv : s.recv env event = _ := hstep
        rw [hrecv]
        exact fun _ => hs.readable (.inr (.inl (by simp [hb])))
    | beat env => exact beat_readable hs (hworks 0)

theorem secrets_spent_once (boot : Boot) (as : List (Action N)) (hworks : ∀ a ∈ as, a.StoreWorks)
    (hdraws : ((start boot : System N).daemon.vault.stock ++ as.flatMap Action.draws).Nodup)
    (hsettled : Along step CopiesSettled (start boot) as) (secret : String) :
    (visits step (start boot) as).countP (fun x => x.1.spends x.2 = some secret) ≤ 1 ∧
    ∀ pre a post, as = pre ++ a :: post → (run step (start boot) pre).spends a = some secret →
      secret ∉ (run step (start boot) as).daemon.live := by
  have hstart : Orderly (start boot : System N) :=
    ⟨by simp [start, Daemon.new, Vault.new, Worker.owes], by simp [start, Daemon.new, Engine.new]⟩
  have hsound : OneTime.Sound (start boot : System N).books (as.flatMap Action.draws) :=
    ⟨hdraws, List.nodup_nil, List.nil_subset _, (List.nodup_append.mp hdraws).2.1, nofun⟩
  exact OneTime.spent_at_most_once
    (fun s a hs ha => ⟨step_readable s a hs ha.2, step_sane s a hs⟩) step_books hstart
    (hsettled.and (along_of_forall hworks)) hsound secret

private def pairText : String × Json × Option Message :=
  Crate.plainRequest "1" .connect "connect" ["pub-key", "990-1"]

private def emptyBoot : Boot := ⟨none, [], none, none, 0⟩

private def pairingAt (now : ℕ) : Env (Crate.plain [pairText]) := .plain _ now

/-- An app's connect with the secret the setup left outstanding. -/
private def connectFrom (app : (Crate.plain [pairText]).PublicKey) (now : ℕ) :
    Action (Crate.plain [pairText]) :=
  .recv (pairingAt now) ⟨app, app, .ofNat now, 24133, ["pub-key"], pairText.1, true⟩

private def setUp : Action (Crate.plain [pairText]) :=
  .verb (pairingAt 990) (.setup (.import_ "key" none))

private def mintAfterBurn : List (Action (Crate.plain [pairText])) :=
  [setUp, connectFrom "app" 991, .beat (pairingAt 992), .beat (pairingAt 993),
    .beat (pairingAt 994), .verb (pairingAt 995) (.mint none), connectFrom "other" 996]

theorem secrets_spent_once_mint :
    (visits step (start emptyBoot) mintAfterBurn).countP
      (fun x => x.1.spends x.2 = some "990-1") ≤ 1 :=
  (secrets_spent_once emptyBoot mintAfterBurn
    (by simp [mintAfterBurn, setUp, connectFrom, pairingAt, Action.StoreWorks, Env.plain])
    (by decide +kernel) (by decide +kernel) "990-1").1

private def mintBeforeBurn : List (Action (Crate.plain [pairText])) :=
  [setUp, connectFrom "app" 991, .verb (pairingAt 992) (.mint none), .beat (pairingAt 993),
    .beat (pairingAt 994), .beat (pairingAt 995), connectFrom "other" 996]

/-- A Mint between the live burn and the stored one: two apps pair with one secret. -/
theorem secret_spent_twice_over_mint : (∀ a ∈ mintBeforeBurn, a.StoreWorks) ∧
    ((start emptyBoot : System (Crate.plain [pairText])).daemon.vault.stock ++
      mintBeforeBurn.flatMap Action.draws).Nodup ∧
    (visits step (start emptyBoot) mintBeforeBurn).countP
      (fun x => x.1.spends x.2 = some "990-1") = 2 := by
  refine ⟨?_, by decide +kernel, by decide +kernel⟩
  simp [mintBeforeBurn, setUp, connectFrom, pairingAt, Action.StoreWorks, Env.plain]

end System
end Kuma.Nostr
