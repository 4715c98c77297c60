import Kuma.Lib.Fallible
import Kuma.Nostr.Percent

/-! The round trip of the `bunker://` URI. The printer writes the secret behind an ampersand, as if
a relay had opened the query before it. -/
namespace Kuma.Nostr
open Kuma.Lib.Text

variable {N : Crate} {pk : N.PublicKey} {relays : List String} {secret : Option String}

/-- A key's spelling is made of hexadecimal digits. -/
def Crate.HexDigits (N : Crate) : Prop :=
  ∀ pk, ∀ c ∈ (N.hex pk).toList, c ∈ "0123456789abcdef".toList

/-- The values of one parameter of a URI's query, as they are written. -/
def queryValues (key uri : String) : List String :=
  match splitOnce '?' uri.toList with
  | some (_, query) => (split '&' query).filterMap fun pair =>
      (stripPrefix (key ++ "=").toList pair).map String.ofList
  | none => []

/-- The parameters that the printer writes. -/
def bunkerParams (relays : List String) (secret : Option String) : List (List Char) :=
  relays.map (fun relay => "relay=".toList ++ (percentEncode relay).toList) ++
    secret.toList.map fun secret => "secret=".toList ++ (percentEncode secret).toList

/-- A parameter holds no separator of two. -/
theorem notMem_bunkerParams (relays : List String) (secret : Option String) :
    ∀ param ∈ bunkerParams relays secret, '&' ∉ param := by
  intro param hparam
  rcases List.mem_append.mp hparam with hrelay | hsecret
  · obtain ⟨relay, -, rfl⟩ := List.mem_map.mp hrelay
    simp [notMem_percentEncode relay (c := '&') (by decide)]
  · obtain ⟨text, -, rfl⟩ := List.mem_map.mp hsecret
    simp [notMem_percentEncode text (c := '&') (by decide)]

theorem split_intercalate (first : List Char) (others : List (List Char))
    (h : ∀ param ∈ first :: others, '&' ∉ param) :
    split '&' (first ++ others.flatMap fun param => '&' :: param) = first :: others := by
  induction others generalizing first with
  | nil =>
    rw [List.flatMap_nil, List.append_nil]
    exact split_of_notMem (h first List.mem_cons_self)
  | cons second others ih =>
    rw [List.flatMap_cons, List.cons_append, split_append (h first List.mem_cons_self)]
    rw [ih second fun param hparam => h param (List.mem_cons_of_mem _ hparam)]

/-- How the relays are written once a query is open, and before. -/
theorem foldl_relays_open (relays : List String) {uri : String} (h : '?' ∈ uri.toList) :
    (relays.foldl (fun uri relay =>
      let sep := if uri.toList.contains '?' then "&" else "?"
      uri ++ sep ++ "relay=" ++ percentEncode relay) uri).toList =
    uri.toList ++ relays.flatMap fun relay =>
      '&' :: ("relay=".toList ++ (percentEncode relay).toList) := by
  induction relays generalizing uri with
  | nil => simp
  | cons relay relays ih =>
    have hopen : uri.toList.contains '?' = true := by simpa using h
    rw [List.foldl_cons]
    simp only [hopen, if_true]
    rw [ih (by simp [h])]
    have hsep : "&".toList = ['&'] := rfl
    rw [List.flatMap_cons]
    generalize percentEncode relay = first
    simp [hsep]

/-- With a relay to open the query, every parameter stands in it. -/
theorem bunkerUri_cons (hdigits : N.HexDigits) (pk : N.PublicKey) (relay : String)
    (relays : List String) (secret : Option String) :
    (bunkerUri pk (relay :: relays) secret).toList = "bunker://".toList ++ ((N.hex pk).toList ++
      '?' :: (("relay=".toList ++ (percentEncode relay).toList) ++
        (bunkerParams relays secret).flatMap fun param => '&' :: param)) := by
  have hclosed : ("bunker://" ++ N.hex pk).toList.contains '?' = false := by
    have hhex : '?' ∉ (N.hex pk).toList := by
      intro hmem
      exact absurd (hdigits pk _ hmem) (by decide)
    simp [hhex]
  have hquery : (relays.foldl (fun uri relay =>
      let sep := if uri.toList.contains '?' then "&" else "?"
      uri ++ sep ++ "relay=" ++ percentEncode relay)
      ("bunker://" ++ N.hex pk ++ "?" ++ "relay=" ++ percentEncode relay)).toList =
      "bunker://".toList ++ ((N.hex pk).toList ++ '?' ::
        (("relay=".toList ++ (percentEncode relay).toList) ++ relays.flatMap fun relay =>
          '&' :: ("relay=".toList ++ (percentEncode relay).toList))) := by
    have hsep : "?".toList = ['?'] := rfl
    rw [foldl_relays_open relays (by simp [hsep])]
    generalize percentEncode relay = first
    simp [hsep]
  unfold bunkerUri bunkerParams
  rw [List.foldl_cons]
  simp only [hclosed, Bool.false_eq_true, if_false]
  cases secret with
  | none =>
    simp only [hquery, Option.toList_none, List.map_nil, List.append_nil, List.flatMap_map]
  | some secret =>
    simp only [String.toList_append, hquery, List.flatMap_append, List.flatMap_map,
      Option.toList_some, List.map_cons, List.map_nil, List.flatMap_cons, List.flatMap_nil]
    have hname : "&secret=".toList = '&' :: "secret=".toList := by decide
    simp only [hname, List.append_assoc, List.cons_append, List.append_nil]

/-- The relays read back from their parameters, whatever else stands among them. -/
theorem foldlM_bunkerParams (relays done : List String) (secret : Option String) :
    (bunkerParams relays secret).foldlM readRelay done = .ok (done ++ relays) := by
  induction relays generalizing done with
  | nil =>
    rw [List.append_nil]
    cases secret with
    | none => rfl
    | some secret =>
      have hother : readRelay done ("secret=".toList ++ (percentEncode secret).toList) =
          .ok done := by
        simp [readRelay, stripPrefix, pure, Except.pure]
      change ([_].foldlM readRelay done) = _
      rw [List.foldlM_cons, hother]
      rfl
  | cons relay relays ih =>
    have hrelay : readRelay done ("relay=".toList ++ (percentEncode relay).toList) =
        .ok (done ++ [relay]) := by
      rw [readRelay, stripPrefix_eq_some.mpr rfl]
      simp only [String.ofList_toList, percentDecode_percentEncode]
      rfl
    have hrest := ih (done ++ [relay])
    rw [List.append_assoc, List.singleton_append] at hrest
    rw [← hrest]
    change (_ :: bunkerParams relays secret).foldlM readRelay done = _
    rw [List.foldlM_cons, hrelay]
    rfl

/-- The printed URI reads back as the key and the relays, and its query has one secret parameter,
which decodes to the secret, or none when there is no secret. -/
def RoundTrips (N : Crate) (pk : N.PublicKey) (relays : List String) (secret : Option String) :
    Prop :=
  parseBunkerUri N (bunkerUri pk relays secret) = .ok (pk, relays) ∧
    (queryValues "secret" (bunkerUri pk relays secret)).map percentDecode =
      secret.toList.map .ok

theorem hex_noQuery (hdigits : N.HexDigits) (pk : N.PublicKey) : '?' ∉ (N.hex pk).toList := by
  intro hmem
  exact absurd (hdigits pk _ hmem) (by decide)

theorem roundTrips_cons (hparses : N.HexParses) (hdigits : N.HexDigits) (relay : String) :
    RoundTrips N pk (relay :: relays) secret := by
  have hhex := hex_noQuery hdigits pk
  have huri := bunkerUri_cons hdigits pk relay relays secret
  have hparams : split '&' (("relay=".toList ++ (percentEncode relay).toList) ++
      (bunkerParams relays secret).flatMap fun param => '&' :: param) =
      bunkerParams (relay :: relays) secret :=
    split_intercalate _ _ (notMem_bunkerParams (relay :: relays) secret)
  constructor
  · have hrelays := foldlM_bunkerParams (relay :: relays) [] secret
    rw [List.nil_append] at hrelays
    simp only [parseBunkerUri, stripPrefix_eq_some.mpr huri, splitOnce_append hhex, hparams,
      String.ofList_toList, hparses pk, hrelays, bind, Except.bind, Except.mapError]
    rfl
  · have hopen : '?' ∉ "bunker://".toList ++ (N.hex pk).toList := by simp [hhex]
    have hname : ("secret" ++ "=").toList = "secret=".toList := by decide
    have hother : ∀ relay, stripPrefix "secret=".toList
        ("relay=".toList ++ (percentEncode relay).toList) = none := by
      intro relay
      simp [stripPrefix]
    have hsecret : ∀ secret, stripPrefix "secret=".toList
        ("secret=".toList ++ (percentEncode secret).toList) = some (percentEncode secret).toList :=
      fun _ => stripPrefix_eq_some.mpr rfl
    unfold queryValues
    rw [huri, ← List.append_assoc, splitOnce_append hopen]
    simp only [hparams, hname]
    unfold bunkerParams
    rw [List.filterMap_append, List.filterMap_map, List.filterMap_map]
    simp only [Function.comp_def, hother, hsecret, Option.map_none, Option.map_some,
      String.ofList_toList]
    cases secret with
    | none => simp
    | some secret => simp [percentDecode_percentEncode]

/-- The URI round-trips unless it carries a secret and no relay. -/
theorem bunkerUri_roundTrips_iff (hparses : N.HexParses) (hdigits : N.HexDigits)
    (pk : N.PublicKey) (relays : List String) (secret : Option String) :
    RoundTrips N pk relays secret ↔ relays ≠ [] ∨ secret = none := by
  cases relays with
  | cons relay relays =>
    simp [roundTrips_cons hparses hdigits relay]
  | nil =>
    have hhex := hex_noQuery hdigits pk
    cases secret with
    | none =>
      simp only [ne_eq, not_true_eq_false, or_true, iff_true]
      have huri : (bunkerUri pk [] none).toList = "bunker://".toList ++ (N.hex pk).toList :=
        String.toList_append
      constructor
      · simp only [parseBunkerUri, stripPrefix_eq_some.mpr huri, splitOnce_eq_none.mpr hhex,
          String.ofList_toList, hparses pk, bind, Except.bind, Except.mapError]
        rfl
      · have hnone : '?' ∉ (bunkerUri pk [] none).toList := by
          rw [huri]
          simp [hhex]
        rw [queryValues, splitOnce_eq_none.mpr hnone]
        rfl
    | some secret =>
      simp only [ne_eq, not_true_eq_false, reduceCtorEq, or_self, iff_false]
      rintro ⟨-, hsecrets⟩
      have hnone : '?' ∉ (bunkerUri pk [] (some secret)).toList := by
        change '?' ∉ ("bunker://" ++ N.hex pk ++ "&secret=" ++ percentEncode secret).toList
        have hsecret := notMem_percentEncode secret (c := '?') (by decide)
        simp only [String.toList_append, List.mem_append, not_or]
        exact ⟨⟨⟨by decide, hhex⟩, by decide⟩, hsecret⟩
      rw [queryValues, splitOnce_eq_none.mpr hnone] at hsecrets
      cases hsecrets

/-- A surface whose keys are spelled in hexadecimal digits. -/
private abbrev spelledInHex : Crate :=
  { Crate.plain [] with
    PublicKey := Fin 16
    decPublicKey := inferInstance
    hex := fun key => String.ofList ["0123456789abcdef".toList.getD key.val '0']
    npub := fun _ => ""
    parsePublicKey := fun text =>
      match "0123456789abcdef".toList.findIdx? (text.toList == [·]) with
      | some i => .ok (Fin.ofNat 16 i)
      | none => .error "not a key"
    publicKey := fun _ => 0
    verify := fun _ => true
    tagKeys := fun _ => []
    signEvent := fun _ _ _ => .error "no signer"
    finalize := fun _ _ _ _ _ => .error "no signer"
    nip44Encrypt := fun _ _ _ text => .ok text
    nip44Decrypt := fun _ _ text => .ok text
    nip04Encrypt := fun _ _ _ text => .ok text
    nip04Decrypt := fun _ _ text => .ok text
    responseMessage := fun id _ => .response id none none }

private theorem hexParses_spelledInHex : spelledInHex.HexParses := by
  have hall : ∀ pk : Fin 16, ((spelledInHex.parsePublicKey (spelledInHex.hex pk)).toOption :
      Option (Fin 16)) = some pk := by decide
  exact fun pk => Kuma.Lib.toOption_eq_some.mp (hall pk)

private theorem hexDigits_spelledInHex : spelledInHex.HexDigits := by
  have hall : ∀ pk : Fin 16,
      (spelledInHex.hex pk).toList.all ("0123456789abcdef".toList.contains ·) = true := by
    decide
  intro pk c hc
  exact List.contains_iff_mem.mp (List.all_eq_true.mp (hall pk) c hc)

theorem bunkerUri_roundTrips_separators :
    RoundTrips spelledInHex (11 : Fin 16) ["wss://relay/?a=b&c=%+é"] (some "s&relay=x") :=
  (bunkerUri_roundTrips_iff hexParses_spelledInHex hexDigits_spelledInHex _ _ _).mpr
    (.inl (List.cons_ne_nil _ _))

/-- Without a relay the secret is part of the key. -/
theorem bunkerUri_breaks :
    bunkerUri (11 : Fin 16) [] (some "s") (N := spelledInHex) = "bunker://b&secret=s" ∧
      (parseBunkerUri spelledInHex "bunker://b&secret=s").toOption = none ∧
      ¬RoundTrips spelledInHex (11 : Fin 16) [] (some "s") := by
  have huri :
      bunkerUri (11 : Fin 16) [] (some "s") (N := spelledInHex) = "bunker://b&secret=s" := by
    decide +kernel
  refine ⟨huri, by decide +kernel, fun h => ?_⟩
  have hsecrets := h.2
  rw [huri] at hsecrets
  revert hsecrets
  decide +kernel

end Kuma.Nostr
