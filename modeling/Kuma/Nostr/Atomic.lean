import Kuma.Nostr.Percent
import Kuma.Nostr.Planning

/-! What a wrap that fails leaves behind it. A connect, a goodbye and a handshake each change the
session set before the answer is encrypted and signed, and none of them takes the change back. -/
namespace Kuma.Nostr.Bunker
open Kuma.Lib (bind_eq_ok)

variable {N : Crate} {env : Env N} {b : Bunker N} {event : N.Event}

/-- The answer's encryption to the peer fails, or the event around it cannot be finished. -/
def WrapFails (env : Env N) (b : Bunker N) (peer : N.PublicKey) (message : Message) : Prop :=
  ∀ content, N.nip44Encrypt env.entropy b.keys peer (N.printMessage message) = .ok content →
    ∀ answer, N.finalize env.entropy b.keys nostrConnectKind content peer ≠ .ok answer

/-- The event gets past the gates: it is addressed to the bunker, fresh, and within its sender's
rate. -/
def Reaches (env : Env N) (b : Bunker N) (event : N.Event) : Prop :=
  b.addressed event = true ∧ (b.replay.admit_ env.unixNow event).2 = true ∧
    (b.admitRate env.instant event.pubkey).2 = true

/-- The id and the method of a request that the typed messages do not know. -/
def rawOf (b : Bunker N) (event : N.Event) : Option (String × String) := do
  let plaintext ← (N.nip44Decrypt b.keys event.pubkey event.content).toOption
  let plain ← (N.parseJson plaintext).toOption
  if isRawMethod plain then return (← plain.strAt "id", ← plain.strAt "method") else none

/-- A stranger's connect that echoes a live secret. -/
def Pairs (b : Bunker N) (event : N.Event) (id : String) : Prop :=
  ∃ params provided, b.requestOf event = some (id, .connect, params) ∧
    params[1]? = some provided ∧ (∃ live ∈ b.expectedSecrets, live.secret = provided) ∧
    event.pubkey ∉ b.revoked ∧ event.pubkey ∉ b.sessions

/-- A paired app's goodbye. -/
def Leaves (b : Bunker N) (event : N.Event) (id : String) : Prop :=
  b.rawOf event = some (id, "logout") ∧ event.pubkey ∈ b.sessions

/-- An event that comes to nothing moves only the replay cache and the rate buckets. -/
def PlanAtomic (env : Env N) (b : Bunker N) (event : N.Event) : Prop :=
  (b.plan env event).2 = .ignore → (b.plan env event).1 =
    { b with replay := (b.plan env event).1.replay, rate := (b.plan env event).1.rate }

/-- A handshake that fails leaves the bunker as it was. -/
def HandshakeAtomic (env : Env N) (b : Bunker N) (uri : String) : Prop :=
  ∀ e, (b.startHandshake env uri).2 = .error e → (b.startHandshake env uri).1 = b

theorem wrap_eq_none {peer : N.PublicKey} {message : Message} :
    (do
      let content ← (N.nip44Encrypt env.entropy b.keys peer (N.printMessage message)).toOption
      (N.finalize env.entropy b.keys nostrConnectKind content peer).toOption) = none ↔
      WrapFails env b peer message := by
  unfold WrapFails
  cases N.nip44Encrypt env.entropy b.keys peer (N.printMessage message) with
  | error e => simp [Except.toOption]
  | ok content =>
    cases hfinal : N.finalize env.entropy b.keys nostrConnectKind content peer with
    | error e => simp [Except.toOption, hfinal]
    | ok answer => simp [Except.toOption, hfinal]

theorem responseEvent_eq_none {id : String} {response : N.Response} :
    b.responseEvent env event id response = none ↔
      WrapFails env b event.pubkey (N.responseMessage id response) := wrap_eq_none

theorem rawResponse_eq_none {id result : String} :
    b.rawResponse env event id result = none ↔
      WrapFails env b event.pubkey (.response id (some result) none) := wrap_eq_none

/-- A typed request takes no session away. -/
theorem subset_planRequest (env : Env N) (b : Bunker N) (event : N.Event) (id : String)
    (method : Method) (params : List String) :
    b.sessions ⊆ (b.planRequest env event id method params).1.sessions := by
  have hconnect : b.sessions ⊆ (b.planConnect env event id params).1.sessions := by
    unfold planConnect
    simp only
    split_ifs
    · exact Finset.Subset.refl _
    · exact Finset.Subset.refl _
    · split
      · split
        · exact Finset.subset_insert _ _
        · exact Finset.subset_insert _ _
      · exact Finset.subset_insert _ _
  unfold planRequest
  split
  · exact hconnect
  · exact Finset.Subset.refl _
  · split_ifs
    · exact Finset.Subset.refl _
    · exact Finset.Subset.refl _

/-- A stranger's connect whose ack fails opens the session and comes to nothing. -/
theorem dispatch_pairs {id : String} (hpairs : b.Pairs event id)
    (hfails : WrapFails env b event.pubkey (N.responseMessage id (.withResult .ack))) :
    b.dispatch env event = ({ b with sessions := insert event.pubkey b.sessions }, .ignore) := by
  obtain ⟨params, provided, hrequest, hsecret, ⟨live, hlive, hmatch⟩, hstanding, hstranger⟩ :=
    hpairs
  have hpaired : b.isPaired event.pubkey = false := by simpa [isPaired] using hstranger
  have hburn : (b.expectedSecrets.findIdx? fun s => constantTimeEq s.secret provided).isSome := by
    rw [List.findIdx?_isSome]
    exact List.any_eq_true.mpr ⟨live, hlive, by simpa [constantTimeEq] using hmatch⟩
  have hanswer := responseEvent_eq_none.mpr hfails
  rw [dispatch_of_requestOf hrequest]
  change b.planConnect env event id params = _
  simp only [planConnect, if_neg hstanding, hpaired, hsecret, hburn, hanswer, Bool.false_or,
    Bool.not_true, Bool.false_eq_true, if_false]

theorem rawOf_eq_some {id method : String} :
    b.rawOf event = some (id, method) ↔ ∃ plaintext plain,
      N.nip44Decrypt b.keys event.pubkey event.content = .ok plaintext ∧
      N.parseJson plaintext = .ok plain ∧ isRawMethod plain = true ∧
      plain.strAt "id" = some id ∧ plain.strAt "method" = some method := by
  unfold rawOf
  constructor
  · intro h
    obtain ⟨plaintext, hdecrypt, h⟩ := Option.bind_eq_some_iff.mp h
    obtain ⟨plain, hjson, h⟩ := Option.bind_eq_some_iff.mp h
    split_ifs at h with hraw
    obtain ⟨id', hid, h⟩ := Option.bind_eq_some_iff.mp h
    obtain ⟨method', hmethod, h⟩ := Option.bind_eq_some_iff.mp h
    cases h
    exact ⟨plaintext, plain, Kuma.Lib.toOption_eq_some.mp hdecrypt,
      Kuma.Lib.toOption_eq_some.mp hjson, hraw, hid, hmethod⟩
  · rintro ⟨plaintext, plain, hdecrypt, hjson, hraw, hid, hmethod⟩
    simp [hdecrypt, hjson, hraw, hid, hmethod, Except.toOption]

/-- A goodbye whose ack fails closes the session and comes to nothing. -/
theorem dispatch_leaves {id : String} (hleaves : b.Leaves event id)
    (hfails : WrapFails env b event.pubkey (.response id (some "ack") none)) :
    b.dispatch env event = ({ b with sessions := b.sessions.erase event.pubkey }, .ignore) := by
  obtain ⟨plaintext, plain, hdecrypt, hjson, hraw, hid, hmethod⟩ := rawOf_eq_some.mp hleaves.1
  have hanswer := rawResponse_eq_none.mpr hfails
  simp [dispatch, hdecrypt, hjson, hraw, planRaw, hid, hmethod, hanswer]

/-- A raw request that comes to nothing changes nothing, unless it is such a goodbye. -/
theorem planRaw_ignore {value : Json} (h : (b.planRaw env event value).2 = .ignore) :
    (b.planRaw env event value).1 = b ∨ ∃ id, value.strAt "id" = some id ∧
      value.strAt "method" = some "logout" ∧ event.pubkey ∈ b.sessions ∧
      WrapFails env b event.pubkey (.response id (some "ack") none) := by
  unfold planRaw at h ⊢
  split
  · left
    split_ifs
    · rfl
    · split <;> rfl
  · next id hid hmethod =>
    simp only [hid, hmethod] at h
    cases hanswer : b.rawResponse env event id "ack" with
    | some answer =>
      rw [hanswer] at h
      simp only at h
      split_ifs at h
    | none =>
      by_cases hpaired : event.pubkey ∈ b.sessions
      · exact .inr ⟨id, hid, hmethod, hpaired, rawResponse_eq_none.mp hanswer⟩
      · left
        simp [Finset.erase_eq_of_notMem hpaired]
  · exact .inl rfl

/-- A typed request that comes to nothing changes nothing, unless it is a stranger's connect. -/
theorem planRequest_ignore {id : String} {method : Method} {params : List String}
    (hrequest : b.requestOf event = some (id, method, params))
    (h : (b.planRequest env event id method params).2 = .ignore) :
    (b.planRequest env event id method params).1 = b ∨ ∃ id, b.Pairs event id ∧
      WrapFails env b event.pubkey (N.responseMessage id (.withResult .ack)) := by
  have hdispatched : Dispatched env b event _ _ := planRequest_dispatched hrequest
  have hsubset := subset_planRequest env b event id method params
  rw [h] at hdispatched
  generalize (b.planRequest env event id method params).1 = b' at hdispatched hsubset
  cases hdispatched with
  | silent => exact .inl rfl
  | halfOpened id params provided hdecoded hcarried hlive hstanding hstranger hunwrapped =>
    exact .inr ⟨id, ⟨params, provided, hdecoded, hcarried, hlive, hstanding, hstranger⟩,
      responseEvent_eq_none.mp hunwrapped⟩
  | closed =>
    left
    have hstays : event.pubkey ∉ b.sessions := by
      intro hmem
      exact absurd rfl (Finset.mem_erase.mp (hsubset hmem)).1
    rw [Finset.erase_eq_of_notMem hstays]

/-- The session set was changed for an answer that could not be wrapped. -/
def HalfDone (env : Env N) (b : Bunker N) (event : N.Event) : Prop :=
  ∃ id, b.Pairs event id ∧
      WrapFails env b event.pubkey (N.responseMessage id (.withResult .ack)) ∨
    b.Leaves event id ∧ WrapFails env b event.pubkey (.response id (some "ack") none)

theorem dispatch_ignore (h : (b.dispatch env event).2 = .ignore) (hwhole : ¬HalfDone env b event) :
    (b.dispatch env event).1 = b := by
  unfold dispatch at h ⊢
  split
  · rfl
  · next plaintext hdecrypt =>
    rw [hdecrypt] at h
    simp only at h
    split
    · rfl
    · next plain hjson =>
      rw [hjson] at h
      simp only at h
      split_ifs at h ⊢ with hraw
      · rcases planRaw_ignore h with hsame | ⟨id, hid, hmethod, hpaired, hfails⟩
        · exact hsame
        · have hleaves : b.Leaves event id :=
            ⟨rawOf_eq_some.mpr ⟨plaintext, plain, hdecrypt, hjson, hraw, hid, hmethod⟩, hpaired⟩
          exact absurd ⟨id, .inr ⟨hleaves, hfails⟩⟩ hwhole
      · split
        · next id method params hmessage =>
          simp only [hmessage] at h
          have hrequest : b.requestOf event = some (id, method, params) := by
            simp [requestOf, hdecrypt, hjson, hraw, hmessage, Except.toOption]
          rcases planRequest_ignore hrequest h with hsame | ⟨id, hpairs, hfails⟩
          · exact hsame
          · exact absurd ⟨id, .inl ⟨hpairs, hfails⟩⟩ hwhole
        · rfl

/-- A plan that comes to nothing is atomic exactly when the event did not get past the gates or
changed no session for an answer whose wrap failed. -/
theorem planAtomic_iff (env : Env N) (b : Bunker N) (event : N.Event) :
    b.PlanAtomic env event ↔ ¬(Reaches env b event ∧ HalfDone env b event) := by
  constructor
  · rintro hatomic ⟨⟨haddressed, hfresh, hwithin⟩, id, hhalf⟩
    have hplan := plan_of_admitted haddressed hfresh hwithin
    unfold PlanAtomic at hatomic
    rw [hplan] at hatomic
    rcases hhalf with ⟨hpairs, hfails⟩ | ⟨hleaves, hfails⟩
    · have hopened : (b.admitted env event).dispatch env event = _ := dispatch_pairs hpairs hfails
      rw [hopened] at hatomic
      have hsessions := congrArg Bunker.sessions (hatomic rfl)
      exact hpairs.choose_spec.choose_spec.2.2.2.2 (Finset.insert_eq_self.mp hsessions)
    · have hclosed : (b.admitted env event).dispatch env event = _ := dispatch_leaves hleaves hfails
      rw [hclosed] at hatomic
      have hsessions := congrArg Bunker.sessions (hatomic rfl)
      exact Finset.erase_eq_self.mp hsessions hleaves.2
  · intro hwhole hignore
    by_cases hreaches : Reaches env b event
    · have hplan := plan_of_admitted hreaches.1 hreaches.2.1 hreaches.2.2
      rw [hplan] at hignore ⊢
      have hsame : ((b.admitted env event).dispatch env event).1 = b.admitted env event :=
        dispatch_ignore hignore fun hhalf => hwhole ⟨hreaches, hhalf⟩
      rw [hsame]
      rfl
    · have hplanned := planned_of_plan hignore
      generalize (b.plan env event).1 = b' at hplanned
      cases hplanned with
      | refused => rfl
      | dispatched haddressed hfresh hwithin => exact absurd ⟨haddressed, hfresh, hwithin⟩ hreaches

theorem wrap_eq_error {α : Type} (env : Env N) (b : Bunker N) (peer : N.PublicKey)
    (message : Message) (parts : α) :
    (∃ e, (do
      let content ← N.nip44Encrypt env.entropy b.keys peer (N.printMessage message)
      let event ← N.finalize env.entropy b.keys nostrConnectKind content peer
      return (event, parts)) = Except.error e) ↔ WrapFails env b peer message := by
  unfold WrapFails
  cases N.nip44Encrypt env.entropy b.keys peer (N.printMessage message) with
  | error e => simp [bind, Except.bind]
  | ok content =>
    cases hfinal : N.finalize env.entropy b.keys nostrConnectKind content peer with
    | error e => simp [bind, Except.bind, hfinal]
    | ok answer => simp [bind, Except.bind, hfinal, pure, Except.pure]

/-- A handshake is atomic exactly when its wrap goes through or the client has a session already. -/
theorem handshakeAtomic_iff (env : Env N) (b : Bunker N) (uri : String) :
    b.HandshakeAtomic env uri ↔ ∀ parts, parseNostrconnectUri N uri = .ok parts →
      WrapFails env b parts.clientPubkey (.response env.handshakeId (some parts.secret) none) →
        parts.clientPubkey ∈ b.sessions := by
  unfold HandshakeAtomic startHandshake
  cases hparse : parseNostrconnectUri N uri with
  | error e => simp
  | ok parts =>
    have hopened : { b with sessions := insert parts.clientPubkey b.sessions } = b ↔
        parts.clientPubkey ∈ b.sessions := by
      constructor
      · intro hsame
        exact Finset.insert_eq_self.mp (congrArg Bunker.sessions hsame)
      · intro hmem
        rw [Finset.insert_eq_of_mem hmem]
    have hwrap := wrap_eq_error env b parts.clientPubkey
      (.response env.handshakeId (some parts.secret) none) parts
    simp only [Except.ok.injEq, forall_eq', hopened, ← hwrap]
    constructor
    · rintro hatomic ⟨e, he⟩
      exact hatomic e he
    · intro hatomic e he
      exact hatomic ⟨e, he⟩

/-- A surface that encrypts up to the scheme's own limit, 65535 bytes of plaintext. -/
private abbrev capped : Crate :=
  { Crate.plain [] with
    nip44Encrypt := fun _ _ _ text =>
      if text.utf8ByteSize ≤ 65535 then .ok text else .error "message too long" }

private def atOnce : Env capped where
  unixNow := 100
  instant := 0
  entropy := ()
  wraps _ := .ok "draw"
  handshakeId := "handshake"
  store _ := .working
  appsWrite := .written
  logWrite := .written
  heard := []

private def early : Bunker capped := .new "bunker" []

private theorem startHandshake_early {secret : String} (hlong : 65535 < secret.utf8ByteSize) :
    early.startHandshake atOnce (clientUri "app" "wss://relay" secret) =
      ({ early with sessions := insert "app" ∅ }, .error "message too long") := by
  have hparse : parseNostrconnectUri capped (clientUri "app" "wss://relay" secret) =
      .ok ⟨"app", ["wss://relay"], secret, none, none, none⟩ :=
    parse_clientUri (by decide) rfl (by rfl)
  have hprinted : ¬(capped.printMessage (.response "handshake" (some secret) none)).utf8ByteSize ≤
      65535 := by
    change ¬("handshake" ++ " " ++ secret ++ "").utf8ByteSize ≤ 65535
    rw [String.utf8ByteSize_append, String.utf8ByteSize_append]
    omega
  have hcapped : capped.nip44Encrypt () "bunker" "app"
      (capped.printMessage (.response "handshake" (some secret) none)) =
        .error "message too long" := if_neg hprinted
  unfold startHandshake
  rw [hparse]
  change (_, Except.bind (capped.nip44Encrypt () "bunker" "app"
    (capped.printMessage (.response "handshake" (some secret) none))) _) = _
  rw [hcapped]
  rfl

private theorem utf8ByteSize_replicate (n : ℕ) :
    (String.ofList (List.replicate n 'a')).utf8ByteSize = n := by
  induction n with
  | zero => rfl
  | succ n ih =>
    have hone : (String.ofList ['a']).utf8ByteSize = 1 := by decide
    rw [List.replicate_succ, ← List.singleton_append, String.ofList_append,
      String.utf8ByteSize_append, ih, hone, Nat.add_comm]

end Kuma.Nostr.Bunker
