import Kuma.Nostr.Json
import Mathlib.Data.Finset.Basic

/-! What the daemon takes from outside its own source: the `nostr` crate's types and
cryptography, the JSON parser and printer, and, for each call, the clocks, the randomness
and the fate of the calls it makes to the secret store and the disk. -/
namespace Kuma.Nostr

/-- An event as the crate's parser hands it over. Nothing in the type says that the id
is the hash of the rest, or that the signature is the sender's. -/
structure Event (PublicKey Tags Sig : Type) where
  id : String
  pubkey : PublicKey
  createdAt : UInt64
  kind : UInt16
  tags : Tags
  content : String
  sig : Sig

structure UnsignedEvent (PublicKey Tags : Type) where
  pubkey : PublicKey
  createdAt : UInt64
  kind : UInt16
  tags : Tags
  content : String

/-- The methods the crate's enum knows; `other` stands for any this tree does not name. -/
inductive Method
  | connect
  | getPublicKey
  | signEvent
  | nip04Encrypt
  | nip04Decrypt
  | nip44Encrypt
  | nip44Decrypt
  | ping
  | other (name : String)
  deriving DecidableEq

/-- `format!("{method:?}")`. -/
def Method.debug : Method → String
  | connect => "Connect"
  | getPublicKey => "GetPublicKey"
  | signEvent => "SignEvent"
  | nip04Encrypt => "Nip04Encrypt"
  | nip04Decrypt => "Nip04Decrypt"
  | nip44Encrypt => "Nip44Encrypt"
  | nip44Decrypt => "Nip44Decrypt"
  | ping => "Ping"
  | other name => name

inductive Message
  | request (id : String) (method : Method) (params : List String)
  | response (id : String) (result error : Option String)

inductive ResponseResult (PublicKey Event : Type)
  | ack
  | pong
  | getPublicKey (pubkey : PublicKey)
  | signEvent (event : Event)
  | nip04Encrypt (ciphertext : String)
  | nip04Decrypt (plaintext : String)
  | nip44Encrypt (ciphertext : String)
  | nip44Decrypt (plaintext : String)

/-- `NostrConnectResponse`: a result, or the error the app sees. -/
inductive MethodResponse (PublicKey Event : Type)
  | withResult (result : ResponseResult PublicKey Event)
  | withError (error : String)

/-- The third-party surface. `Entropy` is what the randomised calls draw on. -/
structure Crate where
  PublicKey : Type
  SecretKey : Type
  Tags : Type
  Sig : Type
  Entropy : Type
  [decPublicKey : DecidableEq PublicKey]
  [decSecretKey : DecidableEq SecretKey]
  hex : PublicKey → String
  npub : PublicKey → String
  parsePublicKey : String → Except String PublicKey
  publicKey : SecretKey → PublicKey
  generateKey : Entropy → SecretKey
  parseSecretKey : String → Option SecretKey
  keyOfMnemonic : String → Except String SecretKey
  toNcryptsec : Entropy → SecretKey → String → Except String String
  openNcryptsec : String → String → Except String SecretKey
  verify : Event PublicKey Tags Sig → Bool
  /-- The keys the event's `p` tags name. -/
  tagKeys : Tags → List PublicKey
  noTags : Tags
  parseTags : List (List String) → Except String Tags
  signEvent : Entropy → SecretKey → UnsignedEvent PublicKey Tags →
    Except String (Event PublicKey Tags Sig)
  /-- A builder with one `p` tag, finalised under the key. -/
  finalize : Entropy → SecretKey → (kind : UInt16) → (content : String) → (tag : PublicKey) →
    Except String (Event PublicKey Tags Sig)
  nip44Encrypt : Entropy → SecretKey → PublicKey → String → Except String String
  nip44Decrypt : SecretKey → PublicKey → String → Except String String
  nip04Encrypt : Entropy → SecretKey → PublicKey → String → Except String String
  nip04Decrypt : SecretKey → PublicKey → String → Except String String
  parseJson : String → Except String Json
  /-- Why a value is not a list of lists of strings. -/
  stringListsError : Json → String
  printStrings : List String → Option String
  parseMessage : String → Option Message
  printMessage : Message → String
  /-- `NostrConnectMessage::response`. -/
  responseMessage : String → MethodResponse PublicKey (Event PublicKey Tags Sig) → Message

namespace Crate

variable (N : Crate)

instance : DecidableEq N.PublicKey := N.decPublicKey
instance : DecidableEq N.SecretKey := N.decSecretKey

abbrev Event := Nostr.Event N.PublicKey N.Tags N.Sig
abbrev UnsignedEvent := Nostr.UnsignedEvent N.PublicKey N.Tags
abbrev Response := MethodResponse N.PublicKey N.Event

/-- A key's hex spelling parses back to the key. -/
def HexParses : Prop := ∀ pk, N.parsePublicKey (N.hex pk) = .ok pk

/-- Signing an event keeps its kind and its content. -/
def SigningKeepsBody : Prop :=
  ∀ entropy key unsigned signed, N.signEvent entropy key unsigned = .ok signed →
    signed.kind = unsigned.kind ∧ signed.content = unsigned.content

variable {N}

/-- The text of a request in JSON, beside what it reads as. -/
def plainRequest (id : String) (method : Method) (wire : String) (params : List String) :
    String × Json × Option Message :=
  let quoted (s : String) := "\"" ++ s ++ "\""
  ("\x7b\"id\":" ++ quoted id ++ ",\"method\":" ++ quoted wire ++ ",\"params\":[" ++
      ",".intercalate (params.map quoted) ++ "]\x7d",
    .object [("id", .string id), ("method", .string wire),
      ("params", .array (params.map .string))],
    some (.request id method params))

/-- A surface small enough to run: a key is its own spelling, the cipher is the identity, a
signature is the word of whether it holds, and JSON texts read as a table says. -/
def plain (texts : List (String × Json × Option Message)) : Crate where
  PublicKey := String
  SecretKey := String
  Tags := List String
  Sig := Bool
  Entropy := Unit
  hex := id
  npub := id
  parsePublicKey := .ok
  publicKey key := "pub-" ++ key
  generateKey _ := "generated"
  parseSecretKey := some
  keyOfMnemonic := .ok
  toNcryptsec _ key _ := .ok key
  openNcryptsec text _ := .ok text
  verify event := event.sig
  tagKeys := id
  noTags := []
  parseTags lists := .ok (lists.filterMap fun tag =>
    if tag.head? == some "p" then tag[1]? else none)
  signEvent _ _ unsigned := .ok
    ⟨"signed", unsigned.pubkey, unsigned.createdAt, unsigned.kind, unsigned.tags,
      unsigned.content, true⟩
  finalize _ key kind content tag := .ok ⟨"answer", "pub-" ++ key, 0, kind, [tag], content, true⟩
  nip44Encrypt _ _ _ text := .ok text
  nip44Decrypt _ _ text := .ok text
  nip04Encrypt _ _ _ text := .ok text
  nip04Decrypt _ _ text := .ok text
  parseJson text := match texts.lookup text with
    | some (value, _) => .ok value
    | none => .error "expected value at line 1 column 1"
  stringListsError _ := "invalid type"
  printStrings items := some (", ".intercalate items)
  parseMessage text := (texts.lookup text).bind Prod.snd
  printMessage
    | .request id method params => id ++ " " ++ method.debug ++ " " ++ ", ".intercalate params
    | .response id result error => id ++ " " ++ result.getD "" ++ error.getD ""
  responseMessage id
    | .withError error => .response id none (some error)
    | .withResult .ack => .response id (some "ack") none
    | .withResult .pong => .response id (some "pong") none
    | .withResult (.getPublicKey key) => .response id (some key) none
    | .withResult (.signEvent event) => .response id (some event.content) none
    | .withResult (.nip04Encrypt text) => .response id (some text) none
    | .withResult (.nip04Decrypt text) => .response id (some text) none
    | .withResult (.nip44Encrypt text) => .response id (some text) none
    | .withResult (.nip44Decrypt text) => .response id (some text) none

theorem plain_hexParses (texts : List (String × Json × Option Message)) :
    (plain texts).HexParses := fun _ => rfl

theorem plain_signingKeepsBody (texts : List (String × Json × Option Message)) :
    (plain texts).SigningKeepsBody := by
  intro entropy key unsigned signed h
  cases h
  exact ⟨rfl, rfl⟩

theorem HexParses.injective (h : N.HexParses) : Function.Injective N.hex := by
  intro a b hab
  have hb := h b
  rw [← hab, h a] at hb
  exact Except.ok.inj hb

end Crate

/-- The error each of the store's three operations meets; `none` when it goes through. -/
structure StoreCalls where
  load : Option String
  save : Option String
  remove : Option String
  deriving DecidableEq

def StoreCalls.working : StoreCalls := ⟨none, none, none⟩

/-- What became of a file write: done, refused with the old text in place, or torn. -/
inductive FileWrite
  | written
  | refused
  | torn
  deriving DecidableEq

/-- What a relay road last said of its connection. -/
inductive RelayState
  | connected
  | disconnected
  deriving DecidableEq

/-- Everything one critical section reads from outside: the wall clock in seconds, the
monotonic clock in nanoseconds, randomness, and the outcome of its outside calls, by the
order in which it makes them. -/
structure Env (N : Crate) where
  unixNow : ℕ
  instant : ℕ
  entropy : N.Entropy
  /-- The draws of `generate_wrap`, or why the system has no randomness to give. -/
  wraps : ℕ → Except String String
  handshakeId : String
  store : ℕ → StoreCalls
  appsWrite : FileWrite
  logWrite : FileWrite
  /-- What the relay roads have reported and nobody has drained yet. -/
  heard : List (String × RelayState)

/-- A quiet second over the plain surface: every outside call goes through, and the draws
name the second they were made in. -/
def Env.plain (texts : List (String × Json × Option Message)) (now : ℕ) :
    Env (Crate.plain texts) where
  unixNow := now
  instant := now * 1000000000
  entropy := ()
  wraps draw := .ok (toString now ++ "-" ++ toString draw)
  handshakeId := "handshake"
  store _ := .working
  appsWrite := .written
  logWrite := .written
  heard := []

end Kuma.Nostr
