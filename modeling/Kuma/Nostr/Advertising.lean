import Kuma.Nostr.Secrets

/-! The pairing URI that Status advertises. It carries the latest secret of the vault's list,
while connects are checked against the bunker's. A connect takes its secret off the bunker's
list in one section and off the vault's in a later one, which may fail. -/
namespace Kuma.Nostr
open Kuma.Lib

variable {N : Crate} {env : Env N}

namespace Bunker

variable {b : Bunker N} {event : N.Event} {id : String} {params : List String}

/-- A fresh and valid connect of a new app that no tombstone stands on: the gates let it in,
it reads as a connect, and its ack can be wrapped. -/
structure Knocks (env : Env N) (b : Bunker N) (event : N.Event) (id : String)
    (params : List String) : Prop where
  addressed : b.addressed event = true
  fresh : (b.replay.admit_ env.unixNow event).2 = true
  within : (b.admitRate env.instant event.pubkey).2 = true
  decoded : b.requestOf event = some (id, .connect, params)
  stranger : event.pubkey ∉ b.sessions
  standing : event.pubkey ∉ b.revoked
  wraps : (b.responseEvent env event id (.withResult .ack)).isSome

/-- A planned event that pairs its sender under a secret. -/
def pairsUnder (secret : String) (event : N.Event) (p : Plan N) : Prop :=
  ∃ answer metadata burned perms, p = .paired answer event.pubkey metadata (some burned) perms ∧
    burned.secret = secret

/-- The door of a live secret opens to every such connect that carries it. -/
theorem Knocks.pairs (h : Knocks env b event id params) {secret : String}
    (hcarried : params[1]? = some secret)
    (hlive : secret ∈ b.expectedSecrets.map Outstanding.secret) :
    pairsUnder secret event (b.plan env event).2 := by
  rw [plan_of_admitted h.addressed h.fresh h.within]
  have hdecoded : (b.admitted env event).requestOf event = some (id, .connect, params) := h.decoded
  rw [dispatch_of_requestOf hdecoded]
  obtain ⟨o, ho, hsecret⟩ := List.mem_map.mp hlive
  have hmatch : (b.expectedSecrets.findIdx? fun o => constantTimeEq o.secret secret).isSome := by
    rw [List.findIdx?_isSome]
    exact List.any_eq_true.mpr ⟨o, ho, by simp [constantTimeEq, hsecret]⟩
  obtain ⟨i, hi⟩ := Option.isSome_iff_exists.mp hmatch
  obtain ⟨hlt, hat, -⟩ := List.findIdx?_eq_some_iff_getElem.mp hi
  have hburned : b.expectedSecrets[i].secret = secret := by simpa [constantTimeEq] using hat
  obtain ⟨answer, hanswer⟩ := Option.isSome_iff_exists.mp h.wraps
  have hwraps : (b.admitted env event).responseEvent env event id (.withResult .ack) =
      some answer := hanswer
  have hstranger : (b.admitted env event).isPaired event.pubkey = false :=
    decide_eq_false h.stranger
  have hopen : (b.admitted env event).expectedSecrets = b.expectedSecrets := rfl
  have hstanding : event.pubkey ∉ (b.admitted env event).revoked := h.standing
  simp only [planRequest, planConnect, hstanding, if_false, hstranger, hopen, hcarried, hi,
    Option.isSome_some, Bool.or_true, Bool.not_true, Bool.false_eq_true, hwraps,
    List.getElem?_eq_getElem hlt]
  exact ⟨answer, _, _, _, rfl, hburned⟩

end Bunker

namespace System

/-- The URI that Status answers, if it runs and answers one. -/
def statusUri (env : Env N) (s : System N) : Option String :=
  if s.poisoned then none
  else match (s.daemon.handle env .status).2 with
    | some (.status fact) => fact.uri
    | _ => none

/-- Status advertises no dead URI: what it shows carries a secret of the armed bunker's list,
so that a connect with it pairs. -/
def AdvertisesLive (env : Env N) (s : System N) : Prop :=
  ∀ uri, s.statusUri env = some uri →
    ∃ (b : Bunker N) (pk : N.PublicKey) (secret : String), s.daemon.bunker = some b ∧
    uri = bunkerUri pk s.daemon.relays (some secret) ∧
    secret ∈ b.expectedSecrets.map Outstanding.secret ∧
    ∀ later event id params, Bunker.Knocks later b event id params → params[1]? = some secret →
      Bunker.pairsUnder secret event (b.plan later event).2

/-- The bunker and the vault list the same secrets. -/
def Agree (s : System N) : Prop :=
  s.daemon.bunker.isSome = true ∧ s.daemon.live = s.daemon.vault.secrets

instance (s : System N) : Decidable (Agree s) := by
  unfold Agree
  infer_instance

theorem statusUri_eq_some {s : System N} {uri : String} (h : s.statusUri env = some uri) :
    s.poisoned = false ∧ ∃ (b : Bunker N) (pk : N.PublicKey) (secret : String),
      s.daemon.bunker = some b ∧ s.daemon.vault.uriSecret = some secret ∧
        uri = bunkerUri pk s.daemon.relays (some secret) := by
  unfold statusUri at h
  split_ifs at h with hp
  have hrunning : s.poisoned = false := by simpa using hp
  refine ⟨hrunning, ?_⟩
  simp only [Daemon.handle, Daemon.status, Prod.map] at h
  cases hstored : s.daemon.vault.stored (env.store 0) with
  | error e => simp [hstored] at h
  | ok there =>
    cases hsecret : s.daemon.vault.uriSecret with
    | none => simp [hstored, hsecret] at h
    | some secret =>
      cases hb : s.daemon.bunker with
      | none => simp [hstored, hsecret, hb] at h
      | some b =>
        simp only [hstored, hsecret, hb, Daemon.bunkerPubkey, Option.isSome_some,
          Option.map_eq_some_iff] at h
        obtain ⟨pk, -, rfl⟩ := h
        exact ⟨b, pk, secret, rfl, rfl, rfl⟩

/-- While the vault is open, or a bunker stands, no secret is stored that the vault's list has
not. -/
def Mirrored (s : System N) : Prop :=
  s.daemon.vault.key.isSome ∨ s.daemon.bunker.isSome →
    s.daemon.vault.stock ⊆ s.daemon.vault.secrets

theorem mirrored_of_holds {s : System N} {secrets : List String}
    (h : s.daemon.vault.Holds secrets) : Mirrored s := by
  intro _
  rw [h.stock, h.mirrored]
  exact List.Subset.refl _

/-- A burn keeps the vault as it was, or leaves in both places what was stored and is no
longer owed. -/
theorem burn_kept (env : Env N) (d : Daemon N) (secret : String) :
    (d.burn env secret).1.vault = d.vault ∨
      ∃ kept : List String, (d.burn env secret).1.vault.Holds kept ∧ kept ⊆ d.vault.stock := by
  unfold Daemon.burn
  cases hburn : d.vault.burnSecret env secret with
  | error e => exact .inl rfl
  | ok burnt =>
    obtain ⟨vault, found⟩ := burnt
    obtain ⟨blob, nonce, hstore, -, hsame | hholds⟩ := Vault.burnSecret_ok hburn
    · exact .inl hsame.1
    · refine .inr ⟨_, hholds, fun t ht => ?_⟩
      have hstored : t ∈ blob.secrets := (List.mem_filter.mp ht).1
      simp [Vault.stock, hstore, Payload.secrets, hstored]

/-- The only beat that touches the vault is the burn. -/
theorem beat_vault (env : Env N) (s : System N) :
    (s.beat env).daemon.vault = s.daemon.vault ∨
      ∃ secret, (s.beat env).daemon.vault = (s.daemon.burn env secret).1.vault := by
  have hcall : ∀ (call : Option (Engine N)) (next : Worker N),
      (s.workerCall call next).daemon.vault = s.daemon.vault := by
    intro call next
    cases call <;> rfl
  unfold beat
  cases s.worker with
  | idle | dead => exact .inl rfl
  | pairing | serving | shedding | ending => exact .inl (hcall _ _)
  | burning answer burned =>
    dsimp only
    split_ifs
    · exact .inl rfl
    · exact .inr ⟨burned.secret, rfl⟩
  | publishing answer =>
    dsimp only
    split_ifs
    · exact .inl rfl
    · exact .inl publish_vault
  | asking request id method params pc =>
    cases pc with
    | returned decision =>
      dsimp only
      split_ifs
      · exact .inl rfl
      · split <;> exact .inl rfl
    | _ => exact .inl rfl

theorem mirrored_beat {s : System N} (h : Mirrored s) : Mirrored (s.beat env) := by
  have hframed : s.Framed (s.beat env) := beat_framed
  rcases beat_vault env s with hsame | ⟨secret, hburn⟩
  · intro hopen
    rw [hsame, hframed.bunker] at hopen
    rw [hsame]
    exact h hopen
  · rcases burn_kept env s.daemon secret with hsame | ⟨kept, hholds, -⟩
    · intro hopen
      rw [hburn, hsame, hframed.bunker] at hopen
      rw [hburn, hsame]
      exact h hopen
    · exact mirrored_of_holds (hburn ▸ hholds)

theorem Stepped.mirrored {s s' : System N} {a : Action N} (hstep : Stepped s a s')
    (h : s.poisoned = false → Mirrored s) : Mirrored s' := by
  cases hstep with
  | restarted now =>
    intro hopen
    simp [restart, Daemon.new, Vault.new] at hopen
  | answered now verb running called handled =>
    cases handled.outlined with
    | kept change _ vault bunker _ =>
      intro hopen
      rw [vault, bunker, Option.isSome_map] at hopen
      rw [vault]
      exact h running hopen
    | minted label b vault secret uri armed drawn =>
      obtain ⟨blob, nonce, -, -, hholds, -⟩ := Vault.mintSecret_ok drawn
      exact mirrored_of_holds hholds
    | closed key _ _ bunker _ =>
      intro hopen
      simp [key, bunker] at hopen
    | armed vault key how _ holds _ _ =>
      rcases Daemon.opening_vault how with ⟨-, rfl⟩ | ⟨kept, new, hholds, -⟩
      · intro _
        rw [holds]
        exact h running (.inl (by simp [Daemon.opening_key how]))
      · exact mirrored_of_holds (holds.symm ▸ hholds)
  | unchanged running _ => exact h running
  | locked now running _ =>
    intro hopen
    simp [Daemon.lockSwitch, Daemon.teardownBunker, Vault.lock] at hopen
  | planned now arrived b running idle armed =>
    intro _
    exact h running (.inr (by simp [armed]))
  | beaten now running => exact mirrored_beat (h running)

end System

/-- A process beside the secrets its connects have spent since the two lists last agreed. -/
structure Advertising (N : Crate) where
  system : System N
  spent : List String

namespace Advertising
open Kuma.Nostr.System (Agree Mirrored Stepped)

def start (boot : Boot) : Advertising N := ⟨.start boot, []⟩

def step (w : Advertising N) (a : Action N) : Advertising N where
  system := w.system.step a
  spent := if Agree (w.system.step a) then [] else (w.system.spends a).toList ++ w.spent

/-- Whatever the vault lists and the bunker does not has been spent. -/
def Listed (w : Advertising N) : Prop :=
  w.system.daemon.bunker.isSome = true →
    ∀ secret ∈ w.system.daemon.vault.secrets,
      secret ∈ w.system.daemon.live ∨ secret ∈ w.spent

/-- One step over both lists: what the vault lists afterwards is live, was spent before, or is
spent now, unless the lists agree again. -/
theorem listed_stepped {w : Advertising N} {a : Action N} {s' : System N}
    (hstep : Stepped w.system a s') (hm : w.system.poisoned = false → Mirrored w.system)
    (hl : w.system.poisoned = false → Listed w) (hagree : ¬Agree s')
    (harmed : s'.daemon.bunker.isSome = true) :
    ∀ secret ∈ s'.daemon.vault.secrets,
      secret ∈ s'.daemon.live ∨ secret ∈ (w.system.spends a).toList ++ w.spent := by
  have hkeep : w.system.poisoned = false → w.system.daemon.bunker.isSome = true →
      ∀ secret ∈ w.system.daemon.vault.secrets, secret ∈ w.system.daemon.live ∨
        secret ∈ (w.system.spends a).toList ++ w.spent := by
    intro running hstood secret hsecret
    apply (hl running hstood secret hsecret).imp_right
    exact List.mem_append_right _
  cases hstep with
  | restarted now => simp [System.restart, Daemon.new] at harmed
  | answered now verb running called handled =>
    cases handled.outlined with
    | kept change reshuffles vault bunker _ =>
      rw [bunker, Option.isSome_map] at harmed
      rw [vault, Daemon.live_of_kept change reshuffles.expectedSecrets bunker]
      exact hkeep running harmed
    | minted label b vault secret uri armed drawn =>
      apply absurd _ hagree
      constructor
      · rfl
      · exact (Daemon.live_of_some rfl).trans (Vault.outstanding_secrets vault)
    | closed key _ _ bunker _ => simp [bunker] at harmed
    | armed vault key how _ holds bunker _ =>
      apply absurd _ hagree
      constructor
      · rw [bunker]
        rfl
      · rw [Daemon.live_of_some bunker, Daemon.freshBunker_expectedSecrets, holds]
        exact Vault.outstanding_secrets vault
  | unchanged running _ => exact hkeep running harmed
  | locked now running _ => simp [Daemon.lockSwitch, Daemon.teardownBunker] at harmed
  | planned now arrived b running idle armed =>
    intro secret hsecret
    have hbefore := hl running (by simp [armed]) secret hsecret
    have hspends : w.system.spends (.recv now arrived) = (b.plan now arrived).2.burns := by
      simp [System.spends, System.planned_of_armed idle running armed]
    obtain ⟨-, hbooks⟩ := (Bunker.plan_planned now b arrived).books
    rw [hspends, Daemon.live_of_some rfl]
    rw [Daemon.live_of_some armed] at hbefore
    cases hburns : (b.plan now arrived).2.burns with
    | none =>
      rw [hburns] at hbooks
      rw [hbooks]
      exact hbefore
    | some burned =>
      -- the live list is the old one less the copy that was burned
      rw [hburns] at hbooks
      rcases hbefore with hlive | hspent
      · rcases List.mem_cons.mp (hbooks.mem_iff.mp hlive) with rfl | hleft
        · exact .inr (by simp)
        · exact .inl hleft
      · exact .inr (List.mem_append_right _ hspent)
  | beaten now running =>
    have hbunker : (w.system.beat now).daemon.bunker = w.system.daemon.bunker :=
      System.beat_framed.bunker
    have hlive : (w.system.beat now).daemon.live = w.system.daemon.live :=
      Daemon.live_of_kept id (fun _ => rfl) (by simpa using hbunker)
    rw [hbunker] at harmed
    have hsub : (w.system.beat now).daemon.vault.secrets ⊆ w.system.daemon.vault.secrets := by
      rcases System.beat_vault now w.system with hsame | ⟨secret, hburn⟩
      · rw [hsame]
        exact List.Subset.refl _
      · rcases System.burn_kept now w.system.daemon secret with hsame | ⟨kept, hholds, hkept⟩
        · rw [hburn, hsame]
          exact List.Subset.refl _
        · rw [hburn, hholds.mirrored]
          exact List.Subset.trans hkept (hm running (.inr harmed))
    intro secret hsecret
    rw [hlive]
    exact hkeep running harmed secret (hsub hsecret)

/-- What every run keeps, until something poisons the daemon's lock. -/
structure Honest (w : Advertising N) : Prop where
  mirrored : w.system.poisoned = false → Mirrored w.system
  listed : w.system.poisoned = false → Listed w

theorem honest_step (w : Advertising N) (a : Action N) (h : Honest w) : Honest (w.step a) := by
  constructor
  · intro hp
    exact (System.step_stepped hp).mirrored h.mirrored
  · intro hp harmed secret hsecret
    by_cases hagree : Agree (w.system.step a)
    · exact .inl (hagree.2 ▸ hsecret)
    · have hspent : (w.step a).spent = (w.system.spends a).toList ++ w.spent := if_neg hagree
      rw [hspent]
      exact listed_stepped (System.step_stepped hp) h.mirrored h.listed hagree harmed secret hsecret

theorem honest_run (boot : Boot) (as : List (Action N)) : Honest (run step (start boot) as) := by
  have hstart : Honest (start boot : Advertising N) := by
    constructor
    · intro _ hopen
      simp [start, System.start, Daemon.new, Vault.new] at hopen
    · intro _ harmed
      simp [start, System.start, Daemon.new] at harmed
  have hall : Along step (fun _ _ => True) (start boot : Advertising N) as :=
    fun _ _ => trivial
  exact run_invariant (fun w a hw _ => honest_step w a hw) hstart hall

/-- In every state of every run, a Status whose latest secret no connect has spent since the
two lists last agreed advertises a live one. -/
theorem status_advertises_live (boot : Boot) (as : List (Action N)) (env : Env N)
    (hunspent : ∀ secret ∈ (run step (start boot) as).system.daemon.vault.uriSecret,
      secret ∉ (run step (start boot) as).spent) :
    System.AdvertisesLive env (run step (start boot) as).system := by
  intro uri huri
  obtain ⟨running, b, pk, secret, hbunker, hlatest, huri⟩ := System.statusUri_eq_some huri
  have hlisted := (honest_run boot as).listed running (by simp [hbunker]) secret
    (List.mem_of_getLast? hlatest)
  have hlive : secret ∈ b.expectedSecrets.map Outstanding.secret := by
    have hmem := hlisted.resolve_right (hunspent secret hlatest)
    rwa [Daemon.live_of_some hbunker] at hmem
  refine ⟨b, pk, secret, hbunker, huri, hlive, ?_⟩
  intro later event id params hknocks hcarried
  exact hknocks.pairs hcarried hlive

private def connectText : String × Json × Option Message :=
  Crate.plainRequest "1" .connect "connect" ["pub-key", "990-1"]

private def second (now : ℕ) : Env (Crate.plain [connectText]) := .plain _ now

private def newProcess : Boot := ⟨none, [], none, none, 0⟩

/-- A Setup, whose one outstanding secret an app's connect then spends. -/
private def setUpAndPair : List (Action (Crate.plain [connectText])) :=
  [.verb (second 990) (.setup (.import_ "key" none)),
    .recv (second 991) ⟨"app", "app", 991, 24133, ["pub-key"], connectText.1, true⟩]

/-- After the stored burn and a Mint the new URI is live. -/
theorem status_advertises_live_minted :
    System.AdvertisesLive (second 996) (run step (start newProcess)
      (setUpAndPair ++ [.beat (second 992), .beat (second 993), .beat (second 994),
        .verb (second 995) (.mint none)])).system :=
  status_advertises_live newProcess _ (second 996) (by decide +kernel)

/-- Between the two burns Status still shows the URI whose secret the connect has spent. -/
theorem status_advertises_spent :
    ¬System.AdvertisesLive (second 992) (run step (start newProcess) setUpAndPair).system := by
  intro h
  have hshown : (run step (start newProcess) setUpAndPair).system.statusUri (second 992) =
      some (bunkerUri (N := Crate.plain [connectText]) "pub-key" [] (some "990-1")) := by
    decide +kernel
  have hempty : (run step (start newProcess) setUpAndPair).system.daemon.live = [] := by
    decide +kernel
  obtain ⟨b, pk, secret, hbunker, -, hlive, -⟩ := h _ hshown
  rw [Daemon.live_of_some hbunker] at hempty
  rw [hempty] at hlive
  cases hlive

end Advertising
end Kuma.Nostr
