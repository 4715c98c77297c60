import Kuma.Lib.Run
import Kuma.Nostr.KillSwitch

/-! Tombstones across arming. A tombstone lives in the engine's record and in the armed
bunker's revoked set; every verb keeps the two together, and an arming drops the second. -/
namespace Kuma.Nostr
open Kuma.Lib

variable {N : Crate} {env : Env N}

namespace Bunker

variable {b : Bunker N} {event : N.Event}

theorem planConnect_of_revoked {id : String} {params : List String}
    (h : event.pubkey ∈ b.revoked) : b.planConnect env event id params =
      (b, .ofAnswer (b.responseEvent env event id (.withError "this app is revoked"))) := by
  simp [planConnect, h]

/-- The bunker turns an app away whatever its connect carries. -/
structure TurnsAway (b : Bunker N) (app : N.PublicKey) : Prop where
  listed : app ∈ b.revoked
  answered : ∀ (env : Env N) (event : N.Event) (id : String) (params : List String),
    event.pubkey = app → b.addressed event = true →
    (b.replay.admit_ env.unixNow event).2 = true → (b.admitRate env.instant app).2 = true →
    b.requestOf event = some (id, .connect, params) →
    (b.plan env event).2 =
      .ofAnswer (b.responseEvent env event id (.withError "this app is revoked"))
  unpaired : ∀ (env : Env N) (event : N.Event), event.pubkey = app →
    ∀ answer who metadata burned perms,
      (b.plan env event).2 ≠ .paired answer who metadata burned perms

theorem turnsAway_of_revoked {app : N.PublicKey} (h : app ∈ b.revoked) : b.TurnsAway app := by
  refine ⟨h, ?_, ?_⟩
  · rintro env event id params rfl haddressed hfresh hrate hrequest
    rw [plan_of_admitted haddressed hfresh hrate, dispatch_of_requestOf (b := b.admitted env event)
      hrequest, planRequest, planConnect_of_revoked (b := b.admitted env event) h]
    rfl
  · rintro env event rfl answer who metadata burned perms hplan
    exact (planned_of_plan hplan).standing h

end Bunker

/-- A process beside the apps a Connect verb re-approved since their last revocation. -/
structure Watched (N : Crate) where
  sys : System N
  approved : Finset N.PublicKey

namespace Watched

/-- A Connect that succeeds approves its app, a Revoke that finds its app unapproves it. -/
def approve (s : System N) (approved : Finset N.PublicKey) : Action N → Finset N.PublicKey
  | .verb env (.connect uri) =>
    match (s.daemon.handle env (.connect uri)).2, parseNostrconnectUri N uri with
    | some (.connect ..), .ok parts => insert parts.clientPubkey approved
    | _, _ => approved
  | .verb _ (.revoke app) =>
    match N.parsePublicKey app with
    | .ok pubkey =>
      if (s.daemon.engine.registry.lookup app).isSome then approved.erase pubkey else approved
    | .error _ => approved
  | _ => approved

def step (w : Watched N) (a : Action N) : Watched N := ⟨w.sys.step a, approve w.sys w.approved a⟩

def start (boot : Boot) : Watched N := ⟨System.start boot, ∅⟩

/-- The apps under a tombstone, but for those approved since. -/
def tombstoned (w : Watched N) (app : N.PublicKey) : Prop :=
  w.sys.daemon.engine.registry.lookup (N.hex app) = some true ∧ app ∉ w.approved

/-- Whatever bunker is armed turns every tombstoned app away. -/
def TombstonesLive (w : Watched N) : Prop :=
  ∀ b, w.sys.daemon.bunker = some b → ∀ app, w.tombstoned app → b.TurnsAway app

/-- An arming finds no tombstone. -/
def ArmsClean (w : Watched N) (a : Action N) : Prop :=
  w.sys.arms a = true → ∀ app, ¬ w.tombstoned app

end Watched

/-- Every record is named by the spelling the engine itself gives a key. -/
def Named (N : Crate) (r : Registry) : Prop := ∀ e ∈ r, ∃ app : N.PublicKey, e.1 = N.hex app

section
variable {r : Registry} {app : String} {tombstone : Bool}

theorem Named.assign (h : Named N r) : Named N (Register.assign app tombstone r) :=
  Register.forall_keys_assign (P := fun name => ∃ app : N.PublicKey, name = N.hex app) h

theorem Named.strike (h : Named N r) : Named N (Register.strike app r) :=
  Register.forall_keys_strike (P := fun name => ∃ app : N.PublicKey, name = N.hex app) h

theorem Named.enrol (h : Named N r) (who : N.PublicKey) :
    Named N (Register.enrol (N.hex who) tombstone r) :=
  Register.forall_keys_enrol (P := fun name => ∃ app : N.PublicKey, name = N.hex app) h ⟨who, rfl⟩

theorem Named.of_lookup (h : Named N r) (hlook : r.lookup app = some tombstone) :
    ∃ who : N.PublicKey, app = N.hex who := h _ (Register.mem_of_lookup hlook)

end

structure Engine.Named (e : Engine N) : Prop where
  registry : Nostr.Named N e.registry
  filed : Nostr.Named N e.filed

theorem Engine.Named.moves {e e' : Engine N} {r : Registry} (he : e.Named) (h : e.Moves e' r)
    (hr : Nostr.Named N r) : e'.Named := by
  refine ⟨h.registry ▸ hr, ?_⟩
  rcases h.filed with hf | hf | hf
  · exact hf ▸ he.filed
  · rw [hf]
    exact fun e he => nomatch he
  · exact hf ▸ hr

namespace Daemon

variable {d d' : Daemon N} {request : Request} {response : Response}

/-- Verbs name records as the engine does. -/
theorem Handled.named (hd : d.engine.Named) (h : Handled env d request d' response) :
    d'.engine.Named := by
  cases h with
  | idle _ _ _ _ _ _ engine => exact hd.moves engine hd.registry
  | revoked _ _ _ _ _ engine => exact hd.moves engine hd.registry.assign
  | unrevoked _ _ _ _ _ engine => exact hd.moves engine hd.registry.assign
  | deleted _ _ _ _ _ engine => exact hd.moves engine hd.registry.strike
  | linked _ parts _ _ _ _ _ _ _ engine =>
    rcases engine with engine | engine
    · exact hd.moves engine hd.registry
    · exact hd.moves engine (hd.registry.enrol parts.clientPubkey)
  | minted => exact hd
  | closed _ _ _ _ _ _ engine => exact engine ▸ hd
  | armed _ _ _ _ _ _ _ engine => exact engine ▸ hd

/-- A tombstone outside the approved apps is live in a bunker. -/
def Listed (d : Daemon N) (approved : Finset N.PublicKey) : Prop :=
  ∀ b, d.bunker = some b → ∀ app, d.engine.registry.lookup (N.hex app) = some true →
    app ∉ approved → app ∈ b.revoked

theorem Listed.of_kept (change : Bunker N → Bunker N) {approved approved' : Finset N.PublicKey}
    (hd : d.Listed approved) (happroved : approved ⊆ approved')
    (hchange : ∀ b, (change b).revoked = b.revoked) (hbunker : d'.bunker = d.bunker.map change)
    (hlook : ∀ app, d'.engine.registry.lookup (N.hex app) = some true →
      d.engine.registry.lookup (N.hex app) = some true) : d'.Listed approved' := by
  intro b' hb' app htomb hnot
  obtain ⟨b, hb, rfl⟩ := Option.map_eq_some_iff.mp (hbunker.symm.trans hb')
  rw [hchange]
  exact hd b hb app (hlook app htomb) fun hmem => hnot (happroved hmem)

/-- A Revoke lists the app it finds. -/
theorem listed_of_revoked (hN : N.HexParses) (hd : d.engine.Named)
    {approved approved' : Finset N.PublicKey} (hlisted : d.Listed approved) {name : String}
    (hfound : (d.engine.registry.lookup name).isSome)
    (happroved : ∀ app ∈ approved, N.parsePublicKey name ≠ .ok app → app ∈ approved')
    (hbunker : d'.bunker = d.bunker.map
      (Bunker.onApp (fun b pubkey => (b.markRevoked pubkey).evict name) name))
    (hmoves : d.engine.Moves d'.engine (Register.assign name true d.engine.registry)) :
    d'.Listed approved' := by
  obtain ⟨tombstone, hlook⟩ := Option.isSome_iff_exists.mp hfound
  obtain ⟨who, rfl⟩ := hd.registry.of_lookup hlook
  intro b' hb' app htomb hnot
  obtain ⟨b, hb, rfl⟩ := Option.map_eq_some_iff.mp (hbunker.symm.trans hb')
  rw [Bunker.onApp_of_ok (hN who), Bunker.evict_revoked]
  by_cases happ : app = who
  · simp [happ, Bunker.markRevoked]
  · have hne : N.hex app ≠ N.hex who := fun h => happ (hN.injective h)
    rw [hmoves.registry, Register.lookup_assign_of_ne hne] at htomb
    refine Finset.mem_insert_of_mem (hlisted b hb app htomb fun hmem => hnot ?_)
    exact happroved app hmem fun hparse => happ (Except.ok.inj ((hN who).symm.trans hparse)).symm

/-- An Unrevoke unlists the app it finds, and no other. -/
theorem listed_of_unrevoked (hN : N.HexParses) (hd : d.engine.Named)
    {approved approved' : Finset N.PublicKey} (hlisted : d.Listed approved) {name : String}
    (hfound : d.engine.registry.lookup name = some true) (happroved : approved ⊆ approved')
    (hbunker : d'.bunker = d.bunker.map (Bunker.onApp Bunker.markUnrevoked name))
    (hmoves : d.engine.Moves d'.engine (Register.assign name false d.engine.registry)) :
    d'.Listed approved' := by
  obtain ⟨who, rfl⟩ := hd.registry.of_lookup hfound
  intro b' hb' app htomb hnot
  obtain ⟨b, hb, rfl⟩ := Option.map_eq_some_iff.mp (hbunker.symm.trans hb')
  rw [Bunker.onApp_of_ok (hN who)]
  by_cases happ : app = who
  · rw [happ, hmoves.registry, Register.lookup_assign_self, hfound] at htomb
    cases htomb
  · have hne : N.hex app ≠ N.hex who := fun h => happ (hN.injective h)
    rw [hmoves.registry, Register.lookup_assign_of_ne hne] at htomb
    exact Finset.mem_erase.mpr
      ⟨happ, hlisted b hb app htomb fun hmem => hnot (happroved hmem)⟩

theorem Handled.listed (hN : N.HexParses) (hd : d.engine.Named)
    {approved approved' : Finset N.PublicKey} (hlisted : d.Listed approved)
    (happroved : ∀ app ∈ approved, (∀ name, request = .revoke name →
      (d.engine.registry.lookup name).isSome → N.parsePublicKey name ≠ .ok app) → app ∈ approved')
    (hclean : (d.opening env request).isSome → ∀ app,
      d.engine.registry.lookup (N.hex app) = some true → app ∈ approved)
    (h : Handled env d request d' response) : d'.Listed approved' := by
  have hgrow : (∀ name, request ≠ .revoke name) → approved ⊆ approved' := fun hne app hmem =>
    happroved app hmem fun name hname => absurd hname (hne name)
  cases h with
  | idle _ _ missed _ bunker _ engine =>
    have hall : approved ⊆ approved' := fun app hmem =>
      happroved app hmem fun name hname hfound => by simp [missed name hname] at hfound
    exact hlisted.of_kept id hall (fun _ => rfl) (by simpa using bunker)
      fun app htomb => by rwa [engine.registry] at htomb
  | revoked name found _ bunker _ engine =>
    refine listed_of_revoked hN hd hlisted found (fun app hmem hne => ?_) bunker engine
    exact happroved app hmem fun name' hname _ => by cases hname; exact hne
  | unrevoked name found _ bunker _ engine =>
    exact listed_of_unrevoked hN hd hlisted found (hgrow fun _ => nofun) bunker engine
  | deleted name _ _ bunker _ engine =>
    refine hlisted.of_kept _ (hgrow fun _ => nofun)
      (fun b => Bunker.onApp_kept fun pubkey => Bunker.evict_revoked) bunker fun app htomb => ?_
    rw [engine.registry] at htomb
    by_cases hname : N.hex app = name
    · rw [hname, Register.lookup_strike_self] at htomb
      cases htomb
    · rwa [Register.lookup_strike_of_ne hname] at htomb
  | linked uri parts b _ armed _ _ bunker _ engine =>
    refine hlisted.of_kept (fun b =>
      { b with sessions := insert parts.clientPubkey b.sessions }) (hgrow fun _ => nofun)
      (fun _ => rfl) (by simp [bunker, armed]) fun app htomb => ?_
    rcases engine with engine | engine
    · rwa [engine.registry] at htomb
    · rw [engine.registry] at htomb
      by_cases hname : N.hex app = N.hex parts.clientPubkey
      · rw [hname, Register.lookup_enrol_self] at htomb
        rw [hname]
        cases hlook : d.engine.registry.lookup (N.hex parts.clientPubkey) with
        | none => simp [hlook] at htomb
        | some tombstone => simpa [hlook] using htomb
      · rwa [Register.lookup_enrol_of_ne hname] at htomb
  | minted label b vault secret uri armed _ =>
    exact hlisted.of_kept (fun b => b.withSecrets vault.outstanding)
      (hgrow fun _ => nofun) (fun _ => rfl) (by simp [armed]) fun app htomb => htomb
  | closed _ _ _ _ bunker _ _ =>
    intro b' hb'
    cases bunker.symm.trans hb'
  | armed vault key how _ _ bunker _ engine =>
    intro b' hb' app htomb hnot
    rw [engine] at htomb
    have hmem := hclean (by rw [how]; rfl) app htomb
    refine absurd (hgrow (fun name hname => ?_) hmem) hnot
    subst hname
    cases how

end Daemon

namespace Watched

variable {w : Watched N} {a : Action N}

/-- Approvals grow, but for the app a Revoke finds. -/
theorem mem_approve {s : System N} {approved : Finset N.PublicKey} {app : N.PublicKey}
    (h : app ∈ approved)
    (hne : ∀ env name, a = .verb env (.revoke name) →
      (s.daemon.engine.registry.lookup name).isSome → N.parsePublicKey name ≠ .ok app) :
    app ∈ approve s approved a := by
  unfold approve
  split
  · split
    · exact Finset.mem_insert_of_mem h
    · exact h
  · rename_i env name
    split
    · rename_i pubkey hparse
      split_ifs with hfound
      · refine Finset.mem_erase.mpr ⟨fun heq => ?_, h⟩
        exact hne env name rfl hfound (heq ▸ hparse)
      · exact h
    · exact h
  · exact h

theorem approve_of_arms {s : System N} {approved : Finset N.PublicKey} (h : s.arms a = true) :
    approve s approved a = approved := by
  cases a with
  | verb env request => cases request <;> first | rfl | simp [System.arms, Action.request,
      Daemon.opening] at h
  | _ => rfl

/-- Nothing has poisoned a lock, and every record is named by a key. -/
structure Sound (s : System N) : Prop where
  unpoisoned : s.poisoned = false ∧ s.daemon.engine.poisoned = false
  named : s.daemon.engine.Named

theorem step_sound (s : System N) (a : Action N) (hs : Sound s) (ha : a.isBeat = false) :
    Sound (s.step a) := by
  have hp' := System.step_unpoisoned s a hs.unpoisoned ha
  have hstep := System.step_stepped hp'.1
  generalize s.step a = s' at hp' hstep
  refine ⟨hp', ?_⟩
  cases hstep with
  | restarted env => exact ⟨hs.named.filed, hs.named.filed⟩
  | answered _ _ _ _ handled => exact handled.named hs.named
  | unchanged _ _ => exact hs.named
  | locked env _ _ => exact hs.named
  | planned env event b _ _ _ => exact hs.named
  | beaten env _ => cases ha

/-- Only a verb approves or unapproves an app. -/
theorem approve_of_uncalled {s : System N} {approved : Finset N.PublicKey} (h : a.request = none) :
    approve s approved a = approved := by
  cases a with
  | verb | startup => cases h
  | _ => rfl

theorem step_listed (hN : N.HexParses) (w : Watched N) (a : Action N)
    (hw : Sound w.sys ∧ w.sys.daemon.Listed w.approved) (ha : a.isBeat = false ∧ ArmsClean w a) :
    Sound (w.step a).sys ∧ (w.step a).sys.daemon.Listed (w.step a).approved := by
  obtain ⟨hs, hlisted⟩ := hw
  obtain ⟨hbeat, hclean⟩ := ha
  have hs' := step_sound w.sys a hs hbeat
  refine ⟨hs', ?_⟩
  have hstep := System.step_stepped hs'.unpoisoned.1
  have hsys : (w.step a).sys = w.sys.step a := rfl
  have happroved : (w.step a).approved = approve w.sys w.approved a := rfl
  rw [hsys, happroved]
  generalize w.sys.step a = s' at hstep
  cases hstep with
  | restarted env => exact fun b hb => nomatch hb
  | answered env verb _ called handled =>
    refine handled.listed hN hs.named hlisted (fun app hmem hne => ?_) fun hopening app htomb => ?_
    · refine mem_approve hmem fun env' name hname hfound => hne name ?_ hfound
      rw [hname] at called
      cases called
      rfl
    · by_contra hnot
      exact hclean (by simpa [System.arms, called] using hopening) app ⟨htomb, hnot⟩
  | unchanged _ uncalled =>
    rw [approve_of_uncalled uncalled]
    exact hlisted
  | locked env _ _ => exact fun b hb => nomatch hb
  | planned env event b _ _ armed =>
    exact hlisted.of_kept (fun b => (b.plan env event).1) (fun _ h => h)
      (fun _ => Bunker.plan_revoked) (by simp [armed]) fun app htomb => htomb
  | beaten env _ => cases hbeat

theorem tombstonesLive_of_listed {w : Watched N} (h : w.sys.daemon.Listed w.approved) :
    w.TombstonesLive :=
  fun b hb app htomb => Bunker.turnsAway_of_revoked (h b hb app htomb.1 htomb.2)

/-- An arming over a tombstone leaves it dead. -/
theorem armsClean_of_tombstonesLive {w : Watched N} {a : Action N} (hs : Sound w.sys)
    (h : (w.step a).TombstonesLive) : ArmsClean w a := by
  intro harms app htomb
  have happroved : (w.step a).approved = w.approved := approve_of_arms harms
  unfold System.arms at harms
  split at harms
  · rename_i env request hreq
    obtain ⟨⟨vault, key⟩, hopening⟩ := Option.isSome_iff_exists.mp harms
    obtain ⟨hbunker, hengine, -⟩ := Daemon.handle_of_opening hs.unpoisoned.2 hopening
    have hstep : (w.step a).sys = w.sys.underLock (w.sys.daemon.handle env request) :=
      System.step_of_request hreq hs.unpoisoned.1
    have hturns := h _ (by rw [hstep]; exact hbunker) app
      ⟨by rw [hstep]; simpa [System.underLock, hengine] using htomb.1,
        by rw [happroved]; exact htomb.2⟩
    simpa using hturns.listed
  · cases harms

theorem tombstones_live_iff (hN : N.HexParses) (boot : Boot)
    (hboot : Named N (registryOf ((boot.stateDir.bind StateDir.apps).getD [])))
    (as : List (Action N)) (hverbs : ∀ a ∈ as, a.isBeat = false) :
    (∀ pre, pre <+: as → (run step (start boot) pre).TombstonesLive) ↔
      Along step ArmsClean (start boot) as := by
  have hstart : Sound (start boot : Watched N).sys := ⟨⟨rfl, rfl⟩, hboot, hboot⟩
  constructor
  · rintro h ⟨w, a⟩ hvisit
    obtain ⟨pre, post, rfl, rfl⟩ := mem_visits hvisit
    have hbeats : Along step (fun _ a => a.isBeat = false) (start boot) pre :=
      along_of_forall fun a ha => hverbs a (List.mem_append_left _ ha)
    have hsound := run_invariant (I := fun w : Watched N => Sound w.sys)
      (fun w a hs ha => step_sound w.sys a hs ha) hstart hbeats
    refine armsClean_of_tombstonesLive hsound ?_
    have hlive := h (pre ++ [a]) ⟨post, by simp⟩
    rwa [run_append] at hlive
  · intro hclean pre hpre
    have hbeats : Along step (fun _ a => a.isBeat = false) (start boot) as :=
      along_of_forall hverbs
    exact tombstonesLive_of_listed (run_invariant (step_listed hN)
      ⟨hstart, fun b hb => nomatch hb⟩ ((hbeats.and hclean).initial hpre)).2

private def connectText : String × Json × Option Message :=
  Crate.plainRequest "1" .connect "connect" ["pub-key", "990-1"]

private def oneApp : Boot where
  store := none
  relays := []
  stateDir := some ⟨some [⟨"app", .ask, 0, none, none, none, none, none, 0, none⟩], none⟩
  inactivity := none
  instant := 0

private def app : (Crate.plain [connectText]).PublicKey := "app"

private def armAndRevoke : List (Action (Crate.plain [connectText])) :=
  [.verb (.plain _ 990) (.setup (.import_ "key" none)), .verb (.plain _ 991) (.revoke "app")]

private theorem oneApp_named :
    Named (Crate.plain [connectText]) (registryOf ((oneApp.stateDir.bind StateDir.apps).getD [])) :=
  fun e _ => ⟨e.1, rfl⟩

theorem tombstones_live_revoke : (run step (start oneApp) armAndRevoke).TombstonesLive := by
  refine (tombstones_live_iff (Crate.plain_hexParses _) oneApp oneApp_named armAndRevoke
    (by simp [armAndRevoke, Action.isBeat])).mpr ?_ armAndRevoke List.prefix_rfl
  refine along_cons.mpr ⟨fun _ app htomb => ?_, along_cons.mpr ⟨fun h => ?_, along_nil _⟩⟩
  · have hmem := Register.mem_of_lookup htomb.1
    simp [start, System.start, Daemon.new, Engine.new, Engine.registry, registryOf, oneApp] at hmem
  · simp [System.arms, Action.request, Daemon.opening] at h

private def rearmed : Watched (Crate.plain [connectText]) :=
  run step (start oneApp) (armAndRevoke ++
    [.verb (.plain _ 992) .lock, .verb (.plain _ 993) .unlock])

/-- A Lock and an Unlock after the Revoke: the revoked app pairs with the live secret. -/
theorem tombstone_dead_after_unlock :
    ¬ rearmed.TombstonesLive ∧
    (rearmed.sys.planned (.plain _ 994)
      ⟨"id", app, 994, 24133, ["pub-key"], connectText.1, true⟩).bind Plan.burns =
        some "990-1" := by
  refine ⟨fun h => ?_, by decide +kernel⟩
  have hlost : (rearmed.sys.daemon.bunker.any fun b => decide (app ∉ b.revoked)) = true := by
    decide +kernel
  obtain ⟨b, hb, hnot⟩ := (Option.any_eq_true _ _).mp hlost
  have htomb : rearmed.tombstoned app := ⟨by decide +kernel, by decide +kernel⟩
  exact of_decide_eq_true hnot (h b hb app htomb).listed

end Watched
end Kuma.Nostr
