import Kuma.Nostr.Uri

/-! The query strings of both URIs: what `percent_encode` writes, `percent_decode` reads back, and
no separator of a query stands in it. -/
namespace Kuma.Nostr
open Kuma.Lib.Text

/-- The digit that `{:02X}` writes. -/
def upperDigit (n : UInt8) : Char :=
  if n < 10 then Char.ofNat (n.toNat + 48) else Char.ofNat (n.toNat + 55)

/-- What one byte of a value becomes. -/
def encodeByte (b : UInt8) : List Char :=
  if isUnreserved b then [Char.ofNat b.toNat] else ['%', upperDigit (b / 16), upperDigit (b % 16)]

/-- The byte that a character below 128 takes. -/
def asciiByte (c : Char) : UInt8 := c.toNat.toUInt8

theorem percentEncode_toList (value : String) :
    (percentEncode value).toList = (utf8Bytes value).flatMap encodeByte := String.toList_ofList

/-- What holds of the 256 bytes one by one holds of every byte. -/
theorem forall_byte {p : UInt8 → Bool} (h : ((List.range 256).all fun n => p n.toUInt8) = true)
    (b : UInt8) : p b = true := by
  have hb := List.all_eq_true.mp h b.toNat (List.mem_range.mpr b.toNat_lt)
  simpa using hb

/-- What is written for a byte is ASCII, and no separator of a query. -/
theorem encodeByte_chars (b : UInt8) :
    ∀ c ∈ encodeByte b, c.toNat < 128 ∧ c ∉ ['?', '&', '='] := by
  have hall := forall_byte (p := fun b => (encodeByte b).all fun c =>
    decide (c.toNat < 128 ∧ c ∉ ['?', '&', '='])) (by decide +kernel) b
  simpa using hall

/-- A written byte reads back, whatever follows it. -/
theorem percentDecodeBytes_encodeByte (b : UInt8) (rest : List UInt8) :
    percentDecodeBytes ((encodeByte b).map asciiByte ++ rest) =
      (percentDecodeBytes rest).map (b :: ·) := by
  unfold encodeByte
  split_ifs with hplain
  · have hbyte := forall_byte (p := fun b => !isUnreserved b ||
      asciiByte (Char.ofNat b.toNat) == b && b != 0x2B && b != 0x25) (by decide +kernel) b
    simp only [hplain, Bool.not_true, Bool.false_or, Bool.and_eq_true, beq_iff_eq,
      bne_iff_ne] at hbyte
    obtain ⟨⟨hback, hplus⟩, hpercent⟩ := hbyte
    rw [List.map_singleton, List.singleton_append, hback, percentDecodeBytes.eq_def]
    simp [hplus, hpercent]
  · have hbyte := forall_byte (p := fun b =>
      hexByte (asciiByte (upperDigit (b / 16))) (asciiByte (upperDigit (b % 16))) == some b)
      (by decide +kernel) b
    have hpercent : asciiByte '%' = 0x25 := rfl
    simp [percentDecodeBytes, hpercent, beq_iff_eq.mp hbyte]

theorem percentDecodeBytes_encode (bytes : List UInt8) :
    percentDecodeBytes ((bytes.flatMap encodeByte).map asciiByte) = some bytes := by
  induction bytes with
  | nil => rfl
  | cons b bytes ih =>
    rw [List.flatMap_cons, List.map_append, percentDecodeBytes_encodeByte, ih]
    rfl

theorem utf8Bytes_ofList_ascii {text : List Char} (h : ∀ c ∈ text, c.toNat < 128) :
    utf8Bytes (String.ofList text) = text.map asciiByte := by
  have hbytes : utf8Bytes (String.ofList text) = text.flatMap String.utf8EncodeChar := by
    simp [utf8Bytes, String.toByteArray_ofList, List.utf8Encode]
  rw [hbytes]
  clear hbytes
  induction text with
  | nil => rfl
  | cons c text ih =>
    have hc := h c List.mem_cons_self
    have hsize : c.utf8Size = 1 := Char.utf8Size_eq_one_iff.mpr (UInt32.le_iff_toNat_le.mpr (by
      change c.toNat ≤ 127
      omega))
    rw [List.flatMap_cons, String.utf8EncodeChar_eq_singleton hsize,
      ih fun c hc => h c (List.mem_cons_of_mem _ hc)]
    rfl

theorem fromUTF8_utf8Bytes (text : String) :
    String.fromUTF8? ⟨(utf8Bytes text).toArray⟩ = some text := by
  have hbytes : (⟨(utf8Bytes text).toArray⟩ : ByteArray) = text.toByteArray := by
    simp [utf8Bytes]
  rw [hbytes]
  unfold String.fromUTF8?
  rw [dif_pos text.isValidUTF8]
  rfl

theorem percentDecode_percentEncode (text : String) :
    percentDecode (percentEncode text) = .ok text := by
  have hascii : ∀ c ∈ (utf8Bytes text).flatMap encodeByte, c.toNat < 128 := by
    intro c hc
    obtain ⟨b, -, hb⟩ := List.mem_flatMap.mp hc
    exact (encodeByte_chars b c hb).1
  unfold percentDecode
  rw [← String.ofList_toList (s := percentEncode text), percentEncode_toList,
    utf8Bytes_ofList_ascii hascii, percentDecodeBytes_encode, Option.bind_some, fromUTF8_utf8Bytes]

/-- The separators of a query have no place in a written value. -/
theorem notMem_percentEncode (text : String) {c : Char} (hc : c ∈ ['?', '&', '=']) :
    c ∉ (percentEncode text).toList := by
  rw [percentEncode_toList]
  intro hmem
  obtain ⟨b, -, hb⟩ := List.mem_flatMap.mp hmem
  exact (encodeByte_chars b c hb).2 hc

/-- The URI of a client that listens on one relay. -/
def clientUri (client relay secret : String) : String :=
  "nostrconnect://" ++ client ++ "?relay=" ++ percentEncode relay ++ "&secret=" ++
    percentEncode secret

variable {N : Crate} {client relay secret : String} {pk : N.PublicKey}

theorem read_relay (q : ConnectQuery) (relay : String) :
    q.read ("relay".toList ++ '=' :: (percentEncode relay).toList) =
      .ok { q with relays := q.relays ++ [relay] } := by
  have hkey : '=' ∉ "relay".toList := by decide
  rw [ConnectQuery.read, splitOnce_append hkey]
  simp [percentDecode_percentEncode, bind, Except.bind, pure, Except.pure]

theorem read_secret (q : ConnectQuery) (secret : String) :
    q.read ("secret".toList ++ '=' :: (percentEncode secret).toList) =
      .ok { q with secret := some secret } := by
  have hkey : '=' ∉ "secret".toList := by decide
  rw [ConnectQuery.read, splitOnce_append hkey]
  simp [percentDecode_percentEncode, bind, Except.bind, pure, Except.pure]

/-- What the parser makes of a URI whose query reads as one relay and a secret. -/
theorem parse_of_query {uri : String} {rest pubkeyStr query : List Char} {q : ConnectQuery}
    (hrest : stripPrefix "nostrconnect://".toList uri.toList = some rest)
    (hsplit : splitOnce '?' rest = some (pubkeyStr, query))
    (hclient : N.parsePublicKey (String.ofList pubkeyStr) = .ok pk)
    (hquery : (split '&' query).foldlM ConnectQuery.read {} = .ok q) (hrelays : q.relays = [relay])
    (hsecret : q.secret = some secret) :
    parseNostrconnectUri N uri = (checkRelay relay).map fun _ =>
      { clientPubkey := pk, relays := [relay], secret, perms := q.perms, name := q.name,
        url := q.url } := by
  have hchecks : [relay].forM checkRelay = checkRelay relay := by
    change (do checkRelay relay; pure ⟨⟩) = checkRelay relay
    cases checkRelay relay <;> rfl
  simp only [parseNostrconnectUri, hrest, hsplit, Option.getD_some, hclient, hquery, hrelays,
    hsecret, hchecks, bind, Except.bind, Except.mapError, List.isEmpty_cons, Bool.false_eq_true,
    if_false]
  cases checkRelay relay <;> rfl

/-- How a client's URI is taken apart. -/
theorem clientUri_parts (hclient : '?' ∉ client.toList) (relay secret : String) :
    ∃ rest query, stripPrefix "nostrconnect://".toList (clientUri client relay secret).toList =
        some rest ∧
      splitOnce '?' rest = some (client.toList, query) ∧
      (split '&' query).foldlM ConnectQuery.read {} =
        .ok { relays := [relay], secret := some secret } := by
  have hrelay : '&' ∉ "relay".toList ++ '=' :: (percentEncode relay).toList := by
    simp [notMem_percentEncode relay (c := '&') (by decide)]
  have hsecret : '&' ∉ "secret".toList ++ '=' :: (percentEncode secret).toList := by
    simp [notMem_percentEncode secret (c := '&') (by decide)]
  have huri : (clientUri client relay secret).toList = "nostrconnect://".toList ++
      (client.toList ++ '?' :: (("relay".toList ++ '=' :: (percentEncode relay).toList) ++
        '&' :: ("secret".toList ++ '=' :: (percentEncode secret).toList))) := by
    unfold clientUri
    generalize percentEncode relay = first
    generalize percentEncode secret = second
    simp
  refine ⟨_, _, stripPrefix_eq_some.mpr huri, splitOnce_append hclient, ?_⟩
  rw [split_append hrelay, split_of_notMem hsecret, List.foldlM_cons, read_relay]
  simp only [bind, Except.bind]
  rw [List.foldlM_cons, read_secret]
  rfl

theorem parse_clientUri (hclient : '?' ∉ client.toList) (hkey : N.parsePublicKey client = .ok pk)
    (hrelay : checkRelay relay = .ok ()) :
    parseNostrconnectUri N (clientUri client relay secret) =
      .ok ⟨pk, [relay], secret, none, none, none⟩ := by
  obtain ⟨rest, query, hrest, hsplit, hquery⟩ :=
    clientUri_parts hclient relay secret
  rw [parse_of_query hrest hsplit (by rwa [String.ofList_toList]) hquery rfl rfl, hrelay]
  rfl

end Kuma.Nostr
