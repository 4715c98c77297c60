import Kuma.Nostr.Crate

/-! The two pairing URIs: the `bunker://` one the daemon prints and the `nostrconnect://`
one a client hands the person. -/
namespace Kuma.Nostr
open Kuma.Lib.Text

def utf8Bytes (s : String) : List UInt8 := s.toUTF8.data.toList

/-- `format!("{s:?}")`: quotes, with the control characters escaped. -/
def debugStr (s : String) : String :=
  let hexDigits (n : ℕ) : String := String.ofList (Nat.toDigits 16 n)
  let escape (c : Char) : String :=
    if c = '"' then "\\\"" else if c = '\\' then "\\\\"
    else if c = '\n' then "\\n" else if c = '\r' then "\\r" else if c = '\t' then "\\t"
    else if c.toNat = 0 then "\\0"
    else if c.toNat < 32 ∨ c.toNat = 127 then "\\u\x7b" ++ hexDigits c.toNat ++ "\x7d"
    else c.toString
  "\"" ++ s.toList.foldl (fun acc c => acc ++ escape c) "" ++ "\""

/-- One hexadecimal digit's value. -/
def hexDigit (b : UInt8) : Option UInt8 :=
  if 0x30 ≤ b ∧ b ≤ 0x39 then some (b - 0x30)
  else if 0x41 ≤ b ∧ b ≤ 0x46 then some (b - 0x37)
  else if 0x61 ≤ b ∧ b ≤ 0x66 then some (b - 0x57)
  else none

/-- `u8::from_str_radix` at 16 on two bytes, with the leading plus it allows. -/
def hexByte (a b : UInt8) : Option UInt8 :=
  if a = 0x2B then hexDigit b
  else do
    let hi ← hexDigit a
    let lo ← hexDigit b
    some (16 * hi + lo)

def percentDecodeBytes : List UInt8 → Option (List UInt8)
  | [] => some []
  | c :: rest =>
    if c = 0x2B then (percentDecodeBytes rest).map (0x20 :: ·)
    else if c = 0x25 then
      match rest with
      | a :: b :: rest => do
        let byte ← hexByte a b
        (percentDecodeBytes rest).map (byte :: ·)
      | _ => none
    else (percentDecodeBytes rest).map (c :: ·)

def percentDecode (value : String) : Except String String :=
  match (percentDecodeBytes (utf8Bytes value)).bind fun out => String.fromUTF8? ⟨out.toArray⟩ with
  | some text => .ok text
  | none => .error "bad percent-encoding"

/-- The bytes a query value carries as they are. -/
def isUnreserved (b : UInt8) : Bool :=
  (0x41 ≤ b && b ≤ 0x5A) || (0x61 ≤ b && b ≤ 0x7A) || (0x30 ≤ b && b ≤ 0x39) ||
    b == 0x2D || b == 0x2E || b == 0x5F || b == 0x7E

def percentEncode (value : String) : String :=
  let upper (n : UInt8) : Char :=
    if n < 10 then Char.ofNat (n.toNat + 48) else Char.ofNat (n.toNat + 55)
  String.ofList ((utf8Bytes value).flatMap fun b =>
    if isUnreserved b then [Char.ofNat b.toNat] else ['%', upper (b / 16), upper (b % 16)])

variable {N : Crate}

/-- The URI an app logs in with. -/
def bunkerUri (publicKey : N.PublicKey) (relays : List String) (secret : Option String) : String :=
  let uri := relays.foldl (fun uri relay =>
    let sep := if uri.toList.contains '?' then "&" else "?"
    uri ++ sep ++ "relay=" ++ percentEncode relay) ("bunker://" ++ N.hex publicKey)
  match secret with
  | some secret => uri ++ "&secret=" ++ percentEncode secret
  | none => uri

/-- One pair of a `bunker://` query; only what starts with `relay=` is read. -/
def readRelay (relays : List String) (pair : List Char) : Except String (List String) :=
  match stripPrefix "relay=".toList pair with
  | some value => return relays ++ [← percentDecode (String.ofList value)]
  | none => return relays

def parseBunkerUri (N : Crate) (uri : String) : Except String (N.PublicKey × List String) := do
  let rest ← match stripPrefix "bunker://".toList uri.toList with
    | some rest => .ok rest
    | none => .error "not a bunker:// URI"
  let (pubkeyStr, query) := match splitOnce '?' rest with
    | some (pk, q) => (pk, some q)
    | none => (rest, none)
  let publicKey ← (N.parsePublicKey (String.ofList pubkeyStr)).mapError ("bad bunker pubkey: " ++ ·)
  let relays ← match query with
    | some query => (split '&' query).foldlM readRelay []
    | none => .ok []
  return (publicKey, relays)

structure NostrConnectParts (N : Crate) where
  clientPubkey : N.PublicKey
  relays : List String
  secret : String
  perms : Option String
  name : Option String
  url : Option String

/-- What the query string has said so far. -/
structure ConnectQuery where
  relays : List String := []
  secret : Option String := none
  perms : Option String := none
  name : Option String := none
  url : Option String := none

/-- One `key=value` pair of the query; a pair without an equals sign is skipped. -/
def ConnectQuery.read (q : ConnectQuery) (pair : List Char) : Except String ConnectQuery :=
  match splitOnce '=' pair with
  | none => .ok q
  | some (key, value) => do
    let value := String.ofList value
    match String.ofList key with
    | "relay" => return { q with relays := q.relays ++ [← percentDecode value] }
    | "secret" => return { q with secret := some (← percentDecode value) }
    | "perms" => return { q with perms := some (← percentDecode value) }
    | "name" => return { q with name := some (← percentDecode value) }
    | "url" => return { q with url := some (← percentDecode value) }
    | _ => return q

/-- The declaration's own rule for a relay: `wss://` anywhere, `ws://` to loopback only. -/
def checkRelay (relay : String) : Except String Unit :=
  match splitOnceStr "://".toList relay.toList with
  | none => .error ("relay " ++ debugStr relay ++
      " has no scheme; relays are wss:// or ws:// to loopback")
  | some (scheme, rest) =>
    match String.ofList scheme with
    | "wss" => .ok ()
    | "ws" =>
      let authority := (split '/' rest).headD []
      let host := String.ofList ((split ':' authority).headD authority)
      if host = "127.0.0.1" ∨ host = "::1" ∨ host = "localhost" then .ok ()
      else .error ("relay " ++ debugStr relay ++ " is ws:// to a non-loopback host: that is " ++
        "plaintext on the wire, and the metadata alone is not kuma's to leak")
    | other => .error ("relay " ++ debugStr relay ++ " has scheme " ++ debugStr other ++
        "; relays are wss://, or ws:// to loopback only")

def parseNostrconnectUri (N : Crate) (uri : String) : Except String (NostrConnectParts N) := do
  let rest ← match stripPrefix "nostrconnect://".toList uri.toList with
    | some rest => .ok rest
    | none => .error "the URI must start with nostrconnect://"
  let (pubkeyStr, query) := (splitOnce '?' rest).getD (rest, [])
  let clientPubkey ← (N.parsePublicKey (String.ofList pubkeyStr)).mapError
    ("the client pubkey must be 64 hex characters: " ++ ·)
  let q ← (split '&' query).foldlM ConnectQuery.read {}
  if q.relays.isEmpty then .error "the URI carries no relay to answer the client on"
  q.relays.forM checkRelay
  match q.secret with
  | none => .error "the URI carries no secret, and a connect without one is a spoofed one"
  | some secret =>
    return { clientPubkey, relays := q.relays, secret, perms := q.perms, name := q.name,
             url := q.url }

end Kuma.Nostr
