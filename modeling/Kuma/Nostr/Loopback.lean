import Kuma.Lib.Fallible
import Kuma.Lib.Url
import Kuma.Nostr.Uri

/-! The loopback rule of a `nostrconnect://` URI against the host a URL parser dials. The
rule takes what stands before the first colon for the host, and a userinfo may hold a colon. -/
namespace Kuma.Nostr
open Kuma.Lib Kuma.Lib.Text

/-- The hosts that plaintext may go to. -/
def loopbackHosts : List String := ["127.0.0.1", "::1", "localhost"]

/-- The relay that a pair of the query names, decoded. -/
def relayOfPair (pair : List Char) : Option String := do
  let (key, value) ← splitOnce '=' pair
  if String.ofList key = "relay" then (percentDecode (String.ofList value)).toOption else none

/-- The relays that the query of a pairing URI names. -/
def relayValues (uri : String) : List String :=
  let rest := (stripPrefix "nostrconnect://".toList uri.toList).getD []
  (split '&' ((splitOnce '?' rest).getD (rest, [])).2).filterMap relayOfPair

/-- The authority of a relay whose scheme is `ws`. -/
def plaintextAuthority (relay : String) : Option (List Char) :=
  (stripPrefix "ws://".toList relay.toList).map Url.authority

/-- The host a plaintext relay is dialled at. -/
def plaintextHost (relay : String) : Option String :=
  (plaintextAuthority relay).map fun authority => String.ofList (Url.host (Url.hostPort authority))

/-- The relay is no plaintext one, or has no userinfo, or has one before a loopback host. -/
def UserinfoAtLoopback (relay : String) : Prop :=
  ∀ authority ∈ plaintextAuthority relay, '@' ∈ authority →
    ∃ name ∈ loopbackHosts, Url.Spells name.toList (Url.hostPort authority)

section
variable {q q' : ConnectQuery} {pair : List Char} {pairs : List (List Char)}

theorem ConnectQuery.relays_of_read (h : q.read pair = .ok q') :
    q'.relays = q.relays ++ (relayOfPair pair).toList := by
  unfold ConnectQuery.read at h
  unfold relayOfPair
  cases hpair : splitOnce '=' pair with
  | none =>
    rw [hpair] at h
    cases h
    simp
  | some p =>
    obtain ⟨key, value⟩ := p
    rw [hpair] at h
    cases hvalue : percentDecode (String.ofList value) with
    | error e =>
      simp only [hvalue, bind, Except.bind] at h
      split at h
      all_goals cases h
      all_goals simp_all
    | ok text =>
      simp only [hvalue, bind, Except.bind, pure, Except.pure] at h
      split at h
      all_goals cases h
      all_goals simp_all [Except.toOption]

theorem ConnectQuery.relays_of_foldlM (h : pairs.foldlM ConnectQuery.read q = .ok q') :
    q'.relays = q.relays ++ pairs.filterMap relayOfPair := by
  induction pairs generalizing q with
  | nil =>
    cases h
    simp
  | cons pair pairs ih =>
    rw [List.foldlM_cons] at h
    cases hread : q.read pair with
    | error e =>
      rw [hread] at h
      cases h
    | ok q₁ =>
      rw [hread] at h
      rw [ih h, relays_of_read hread, List.filterMap_cons, List.append_assoc]
      cases relayOfPair pair with
      | none => rfl
      | some text => rfl

end

variable {N : Crate}

/-- What an accepted URI's relays are, and what each of them has passed. -/
theorem relays_of_parse {uri : String} {parts : NostrConnectParts N}
    (h : parseNostrconnectUri N uri = .ok parts) :
    parts.relays = relayValues uri ∧ ∀ relay ∈ parts.relays, checkRelay relay = .ok () := by
  unfold parseNostrconnectUri at h
  dsimp only at h
  split at h
  · next rest hrest =>
    obtain ⟨_, hrest', h⟩ := bind_eq_ok.mp h
    cases hrest'
    obtain ⟨_, -, h⟩ := bind_eq_ok.mp h
    obtain ⟨q, hquery, h⟩ := bind_eq_ok.mp h
    have hrelays : q.relays = relayValues uri := by
      rw [ConnectQuery.relays_of_foldlM hquery, relayValues, hrest]
      rfl
    split_ifs at h with hempty
    · obtain ⟨_, himpossible, -⟩ := bind_eq_ok.mp h
      cases himpossible
    · obtain ⟨_, hchecks, h⟩ := bind_eq_ok.mp h
      split at h
      · cases h
      · cases h
        exact ⟨hrelays, forM_eq_ok.mp hchecks⟩
  · obtain ⟨_, himpossible, -⟩ := bind_eq_ok.mp h
    cases himpossible

/-- The authority of a plaintext relay that passed the rule reads as a loopback host, taken for
a host and a port. -/
theorem spells_of_checkRelay {relay : String} {authority : List Char}
    (hcheck : checkRelay relay = .ok ()) (hauthority : plaintextAuthority relay = some authority) :
    ∃ name ∈ loopbackHosts, Url.Spells name.toList authority := by
  obtain ⟨rest, hrest, rfl⟩ := Option.map_eq_some_iff.mp hauthority
  have hscheme : splitOnceStr "://".toList relay.toList = some ("ws".toList, rest) := by
    rw [stripPrefix_eq_some.mp hrest]
    simp [splitOnceStr, stripPrefix]
  simp only [checkRelay, hscheme, String.ofList_toList, headD_split] at hcheck
  split_ifs at hcheck with hloopback
  obtain ⟨name, hname, hhost⟩ : ∃ name ∈ loopbackHosts,
      (rest.takeWhile (· ≠ '/')).takeWhile (· ≠ ':') = name.toList := by
    refine ⟨String.ofList ((rest.takeWhile (· ≠ '/')).takeWhile (· ≠ ':')), ?_,
      String.toList_ofList.symm⟩
    simpa [loopbackHosts] using hloopback
  obtain ⟨hcolon, hrest⟩ := Url.takeWhile_ne_eq_iff.mp hhost
  have hplain : ∀ c ∈ name.toList, c ∉ ['/', '?', '#'] := by
    have hall : (loopbackHosts.all fun name => name.toList.all fun c =>
      !(['/', '?', '#'].contains c)) = true := by decide
    have hname := List.all_eq_true.mp (List.all_eq_true.mp hall name hname)
    intro c hc
    simpa using hname c hc
  obtain ⟨first, others, hfirst, hopen⟩ :
      ∃ first others, name.toList = first :: others ∧ first ≠ '[' := by
    have hall : (loopbackHosts.all fun name => name.toList.head?.any (· != '[')) = true := by
      decide
    have hname := List.all_eq_true.mp hall name hname
    cases htext : name.toList with
    | nil => simp [htext] at hname
    | cons first others => exact ⟨first, others, rfl, by simpa [htext] using hname⟩
  have hbegins : Url.authority rest = name.toList ∨
      ∃ port, Url.authority rest = name.toList ++ ':' :: port := by
    rw [← Url.authority_takeWhile]
    rcases hrest with hrest | ⟨port, hrest⟩
    · left
      rw [hrest]
      have happend : Url.authority (name.toList ++ []) = name.toList ++ Url.authority [] :=
        Url.authority_append hplain
      simpa [Url.authority] using happend
    · right
      refine ⟨Url.authority port, ?_⟩
      rw [hrest, Url.authority_append hplain, Url.authority_cons_colon]
  refine ⟨name, hname, .inl ⟨?_, hcolon, hbegins⟩⟩
  rcases hbegins with hbegins | ⟨port, hbegins⟩
  · simpa [hbegins, hfirst] using hopen
  · simpa [hbegins, hfirst] using hopen

/-- Every plaintext relay of an accepted URI is dialled at a loopback host, unless a userinfo
stands before another host. -/
theorem loopback_sound_iff {uri : String} {parts : NostrConnectParts N}
    (h : parseNostrconnectUri N uri = .ok parts) :
    (∀ relay ∈ parts.relays, ∀ host ∈ plaintextHost relay, host ∈ loopbackHosts) ↔
      ∀ relay ∈ relayValues uri, UserinfoAtLoopback relay := by
  obtain ⟨hrelays, hchecks⟩ := relays_of_parse h
  rw [hrelays] at hchecks ⊢
  refine forall₂_congr fun relay hrelay => ?_
  unfold plaintextHost UserinfoAtLoopback
  cases hauthority : plaintextAuthority relay with
  | none => simp
  | some authority =>
    have hhost : String.ofList (Url.host (Url.hostPort authority)) ∈ loopbackHosts ↔
        ∃ name ∈ loopbackHosts, Url.Spells name.toList (Url.hostPort authority) := by
      constructor
      · intro hmem
        exact ⟨_, hmem, Url.host_eq_iff.mp String.toList_ofList.symm⟩
      · intro hspells
        obtain ⟨name, hname, hspells⟩ := hspells
        rw [Url.host_eq_iff.mpr hspells, String.ofList_toList]
        exact hname
    have hcond : (∀ host ∈ (some authority).map fun authority =>
        String.ofList (Url.host (Url.hostPort authority)), host ∈ loopbackHosts) ↔
        ∃ name ∈ loopbackHosts, Url.Spells name.toList (Url.hostPort authority) := by
      simpa using hhost
    rw [hcond]
    constructor
    · intro hspells _ hsome _
      cases hsome
      exact hspells
    · intro hcond
      by_cases hat : '@' ∈ authority
      · exact hcond authority rfl hat
      · obtain ⟨name, hname, hspells⟩ :=
          spells_of_checkRelay (hchecks relay hrelay) hauthority
        rw [Url.hostPort_of_notMem hat]
        exact ⟨name, hname, hspells⟩

/-- A URI of one relay, from a client whose key is `app`. -/
private def invitation (relay : String) : String :=
  "nostrconnect://app?relay=" ++ relay ++ "&secret=s"

private theorem relays_of_invitation (relay : String)
    (h : ((parseNostrconnectUri (Crate.plain []) (invitation relay)).toOption.map
      NostrConnectParts.relays) = some [relay]) :
    ∃ parts : NostrConnectParts (Crate.plain []),
      parseNostrconnectUri (Crate.plain []) (invitation relay) = .ok parts ∧
        parts.relays = [relay] := by
  obtain ⟨parts, hparts, hrelays⟩ := Option.map_eq_some_iff.mp h
  exact ⟨parts, toOption_eq_some.mp hparts, hrelays⟩

theorem loopback_sound_port :
    ∃ parts : NostrConnectParts (Crate.plain []),
      parseNostrconnectUri (Crate.plain []) (invitation "ws://127.0.0.1:7777") = .ok parts ∧
      ∀ relay ∈ parts.relays, ∀ host ∈ plaintextHost relay, host ∈ loopbackHosts := by
  obtain ⟨parts, hparts, -⟩ := relays_of_invitation "ws://127.0.0.1:7777" (by decide +kernel)
  refine ⟨parts, hparts, (loopback_sound_iff hparts).mpr fun relay hrelay authority hsome hat => ?_⟩
  have hvalues : relayValues (invitation "ws://127.0.0.1:7777") = ["ws://127.0.0.1:7777"] := by
    decide +kernel
  have hauthority : plaintextAuthority "ws://127.0.0.1:7777" = some "127.0.0.1:7777".toList := by
    decide +kernel
  rw [hvalues, List.mem_singleton] at hrelay
  rw [hrelay, hauthority] at hsome
  cases hsome
  exact absurd hat (by decide)

/-- What stands before the colon of a userinfo passes for the host. -/
theorem loopback_dials_elsewhere :
    ∃ parts : NostrConnectParts (Crate.plain []),
      parseNostrconnectUri (Crate.plain []) (invitation "ws://127.0.0.1:7777@relay.example") =
        .ok parts ∧
      ¬ ∀ relay ∈ parts.relays, ∀ host ∈ plaintextHost relay, host ∈ loopbackHosts := by
  obtain ⟨parts, hparts, hrelays⟩ :=
    relays_of_invitation "ws://127.0.0.1:7777@relay.example" (by decide +kernel)
  have hhost : plaintextHost "ws://127.0.0.1:7777@relay.example" = some "relay.example" := by
    decide +kernel
  refine ⟨parts, hparts, fun hall => ?_⟩
  have hloopback := hall _ (by rw [hrelays]; exact List.mem_singleton_self _) _ hhost
  revert hloopback
  decide

end Kuma.Nostr
