import Kuma.Config.Validate
import Kuma.Nostr.Loopback
import Kuma.Nostr.Percent

/-! The relay rule is written twice, in the declaration's validator and in the parser of a pairing
URI. Where the two disagree: the validator takes a bracketed host out of its brackets, the parser
takes what stands before the first colon. -/
namespace Kuma.Nostr
open Kuma.Lib Kuma.Lib.Text

variable {N : Crate} {uri relay : String} {rest : List Char}

/-- A pairing URI that is valid but for its one relay, with a secret and a relay parameter that
decodes to `relay`. -/
def Invites (N : Crate) (uri relay : String) : Prop :=
  ∃ (client : N.PublicKey) (rest pubkeyStr query : List Char) (q : ConnectQuery),
    stripPrefix "nostrconnect://".toList uri.toList = some rest ∧
    splitOnce '?' rest = some (pubkeyStr, query) ∧
    N.parsePublicKey (String.ofList pubkeyStr) = .ok client ∧
    (split '&' query).foldlM ConnectQuery.read {} = .ok q ∧
    q.relays = [relay] ∧ q.secret ≠ none

/-- The host of a plaintext relay whose authority opens a bracket, up to the first that closes
one. -/
def bracketedHost (relay : String) : Option String :=
  (stripPrefix "ws://[".toList relay.toList).map fun rest =>
    String.ofList ((rest.takeWhile (· ≠ '/')).takeWhile (· ≠ ']'))

/-- Such a URI is accepted when its relay passes the parser's rule. -/
theorem parse_of_invites (h : Invites N uri relay) :
    (∃ parts, parseNostrconnectUri N uri = .ok parts) ↔ checkRelay relay = .ok () := by
  obtain ⟨client, rest, pubkeyStr, query, q, hrest, hsplit, hclient, hquery, hrelays, hsecret⟩ := h
  obtain ⟨secret, hsecret⟩ := Option.ne_none_iff_exists'.mp hsecret
  have hparse := parse_of_query hrest hsplit hclient hquery hrelays hsecret
  rw [hparse]
  cases checkRelay relay with
  | error e => simp [Except.map]
  | ok _ => simp [Except.map]

theorem checkRelay_ws (h : splitOnceStr "://".toList relay.toList = some ("ws".toList, rest)) :
    checkRelay relay = .ok () ↔
      String.ofList ((rest.takeWhile (· ≠ '/')).takeWhile (· ≠ ':')) ∈ loopbackHosts := by
  simp only [checkRelay, h, String.ofList_toList, headD_split, loopbackHosts]
  split_ifs with hhost
  · simpa using hhost
  · simpa using hhost

theorem validateRelay_bracketed
    (h : splitOnceStr "://".toList relay.toList = some ("ws".toList, '[' :: rest)) :
    Config.validateRelay relay = .ok () ↔
      String.ofList ((rest.takeWhile (· ≠ '/')).takeWhile (· ≠ ']')) ∈ loopbackHosts := by
  have hstrip : stripPrefix ['['] (('[' :: rest).takeWhile (· ≠ '/')) =
      some (rest.takeWhile (· ≠ '/')) := by
    simp [stripPrefix]
  simp only [Config.validateRelay, h, String.ofList_toList, headD_split, hstrip, loopbackHosts]
  split_ifs with hhost
  · simpa using hhost
  · simpa using hhost

theorem validateRelay_unbracketed
    (h : splitOnceStr "://".toList relay.toList = some ("ws".toList, rest))
    (hopen : stripPrefix ['['] (rest.takeWhile (· ≠ '/')) = none) :
    Config.validateRelay relay = .ok () ↔
      String.ofList ((rest.takeWhile (· ≠ '/')).takeWhile (· ≠ ':')) ∈ loopbackHosts := by
  simp only [Config.validateRelay, h, String.ofList_toList, headD_split, hopen, loopbackHosts]
  split_ifs with hhost
  · simpa using hhost
  · simpa using hhost

theorem bracketedHost_ws (h : splitOnceStr "://".toList relay.toList = some ("ws".toList, rest)) :
    bracketedHost relay = (stripPrefix ['['] rest).map fun rest =>
      String.ofList ((rest.takeWhile (· ≠ '/')).takeWhile (· ≠ ']')) := by
  have hrelay := splitOnceStr_eq_some h
  have hstrip : stripPrefix "ws://[".toList relay.toList = stripPrefix ['['] rest := by
    rw [hrelay]
    simp [stripPrefix]
  rw [bracketedHost, hstrip]

/-- No plaintext relay, no brackets. -/
theorem bracketedHost_eq_none
    (h : ∀ rest, splitOnceStr "://".toList relay.toList ≠ some ("ws".toList, rest)) :
    bracketedHost relay = none := by
  unfold bracketedHost
  cases hstrip : stripPrefix "ws://[".toList relay.toList with
  | none => rfl
  | some rest =>
    have hsplit : splitOnceStr "://".toList relay.toList = some ("ws".toList, '[' :: rest) := by
      rw [stripPrefix_eq_some.mp hstrip]
      simp [splitOnceStr, stripPrefix]
    exact absurd hsplit (h _)

theorem checkRelay_of_scheme {scheme rest : List Char}
    (hsplit : splitOnceStr "://".toList relay.toList = some (scheme, rest))
    (hscheme : String.ofList scheme ≠ "ws") :
    checkRelay relay = .ok () ↔ String.ofList scheme = "wss" := by
  unfold checkRelay
  rw [hsplit]
  simp only
  split
  · next hwss => exact iff_of_true rfl hwss
  · next hws => exact absurd hws hscheme
  · next hwss _ => exact iff_of_false (fun h => nomatch h) hwss

theorem validateRelay_of_scheme {scheme rest : List Char}
    (hsplit : splitOnceStr "://".toList relay.toList = some (scheme, rest))
    (hscheme : String.ofList scheme ≠ "ws") :
    Config.validateRelay relay = .ok () ↔ String.ofList scheme = "wss" := by
  unfold Config.validateRelay
  rw [hsplit]
  simp only
  split
  · next hwss => exact iff_of_true rfl hwss
  · next hws => exact absurd hws hscheme
  · next hwss _ => exact iff_of_false (fun h => nomatch h) hwss

/-- A relay that is not plaintext is judged by its scheme alone, by both rules alike. -/
theorem validateRelay_iff_checkRelay
    (h : ∀ rest, splitOnceStr "://".toList relay.toList ≠ some ("ws".toList, rest)) :
    Config.validateRelay relay = .ok () ↔ checkRelay relay = .ok () := by
  cases hsplit : splitOnceStr "://".toList relay.toList with
  | none =>
    unfold Config.validateRelay checkRelay
    rw [hsplit]
    exact iff_of_false (fun h => nomatch h) fun h => nomatch h
  | some pair =>
    obtain ⟨scheme, rest⟩ := pair
    have hscheme : String.ofList scheme ≠ "ws" := by
      intro hws
      refine h rest ?_
      rw [hsplit, ← hws, String.toList_ofList]
    rw [validateRelay_of_scheme hsplit hscheme, checkRelay_of_scheme hsplit hscheme]

/-- What the parser takes for the host of a bracketed address is no loopback name. -/
theorem colonHost_notMem (inner : List Char) :
    String.ofList ((('[' :: inner).takeWhile (· ≠ '/')).takeWhile (· ≠ ':')) ∉ loopbackHosts := by
  intro hmem
  have hall : (loopbackHosts.all fun name => name.toList.head? != some '[') = true := by
    decide
  have hname := List.all_eq_true.mp hall _ hmem
  simp at hname

theorem stripPrefix_bracket_eq_none {text : List Char} (h : ∀ inner, text ≠ '[' :: inner) :
    stripPrefix ['['] text = none := by
  cases hstrip : stripPrefix ['['] text with
  | none => rfl
  | some inner => exact absurd (stripPrefix_eq_some.mp hstrip) (h inner)

theorem authority_unbracketed {rest : List Char} (h : ∀ inner, rest ≠ '[' :: inner) :
    ∀ inner, rest.takeWhile (· ≠ '/') ≠ '[' :: inner := by
  intro inner hinner
  cases rest with
  | nil => cases hinner
  | cons first rest =>
    rw [List.takeWhile_cons] at hinner
    split_ifs at hinner
    exact h rest (by rw [(List.cons.inj hinner).1])

/-- On a URI valid but for its relay the parser and the validator agree, unless the relay is a
plaintext one at a bracketed loopback host. -/
theorem relay_rules_agree_iff (h : Invites N uri relay) :
    (Config.validateRelay relay = .ok () ↔ ∃ parts, parseNostrconnectUri N uri = .ok parts) ↔
      ∀ host ∈ bracketedHost relay, host ∉ loopbackHosts := by
  rw [parse_of_invites h]
  by_cases hplain : ∃ rest, splitOnceStr "://".toList relay.toList = some ("ws".toList, rest)
  · obtain ⟨rest, hws⟩ := hplain
    rw [checkRelay_ws hws, bracketedHost_ws hws]
    by_cases hbracket : ∃ inner, rest = '[' :: inner
    · -- the parser's host begins with the bracket
      obtain ⟨inner, rfl⟩ := hbracket
      rw [validateRelay_bracketed hws]
      simp only [colonHost_notMem, iff_false]
      simp [stripPrefix]
    · have hrest := not_exists.mp hbracket
      have hauthority := stripPrefix_bracket_eq_none (authority_unbracketed hrest)
      rw [validateRelay_unbracketed hws hauthority, stripPrefix_bracket_eq_none hrest]
      simp
  · have hforeign := not_exists.mp hplain
    simp [validateRelay_iff_checkRelay hforeign, bracketedHost_eq_none hforeign]

/-- Every text is the relay of such a URI. -/
theorem invites_clientUri {client : String} {pk : N.PublicKey} (hclient : '?' ∉ client.toList)
    (hkey : N.parsePublicKey client = .ok pk) (relay secret : String) :
    Invites N (clientUri client relay secret) relay := by
  obtain ⟨rest, query, hrest, hsplit, hquery⟩ := clientUri_parts hclient relay secret
  exact ⟨pk, rest, client.toList, query, _, hrest, hsplit, by rwa [String.ofList_toList], hquery,
    rfl, nofun⟩

theorem relay_rules_agree_port :
    Config.validateRelay "ws://127.0.0.1:7777" = .ok () ↔
      ∃ parts, parseNostrconnectUri (Crate.plain [])
        (clientUri "app" "ws://127.0.0.1:7777" "s") = .ok parts := by
  have hinvites : Invites (Crate.plain []) (clientUri "app" "ws://127.0.0.1:7777" "s")
      "ws://127.0.0.1:7777" := invites_clientUri (by decide) rfl _ _
  exact (relay_rules_agree_iff hinvites).mpr (by decide +kernel)

/-- The declaration may name a relay at the IPv6 loopback, a pairing URI may not. -/
theorem relay_rules_differ :
    Invites (Crate.plain []) (clientUri "app" "ws://[::1]:7777" "s") "ws://[::1]:7777" ∧
      ¬(Config.validateRelay "ws://[::1]:7777" = .ok () ↔
        ∃ parts, parseNostrconnectUri (Crate.plain []) (clientUri "app" "ws://[::1]:7777" "s") =
          .ok parts) := by
  have hinvites : Invites (Crate.plain []) (clientUri "app" "ws://[::1]:7777" "s")
      "ws://[::1]:7777" := invites_clientUri (by decide) rfl _ _
  refine ⟨hinvites, ?_⟩
  rw [parse_of_invites hinvites]
  decide +kernel

end Kuma.Nostr
