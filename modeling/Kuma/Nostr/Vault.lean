import Kuma.Nostr.Bunker

/-! The vault: the key while it is unlocked, the outstanding pairing secrets, and the
stored blob behind them. Every operation makes its store calls in the source's order, and
a call that fails leaves the store as it was. -/
namespace Kuma.Nostr
open Kuma.Lib (HashMap)

def blobVersion : ℕ := 4
def blobVersionThree : ℕ := 3
def blobVersionTwo : ℕ := 2
def blobVersionOne : ℕ := 1

structure VaultBlob where
  v : ℕ
  wrap : String
  ncryptsec : String
  pubkey : String
  secrets : List String
  labels : HashMap String String

/-- The bytes in the keyring: a blob, with the one field only version 2 had, or bytes that
are no blob at all. -/
inductive Payload
  | blob (blob : VaultBlob) (nonce : Option String)
  | junk (error : String)

/-- The secret store: the payload, if there is one. -/
abbrev SecretStore := Option Payload

structure Vault (N : Crate) where
  store : SecretStore
  key : Option N.SecretKey
  secrets : List String
  labels : HashMap String String

/-- `VaultBlob::decode`. -/
def Payload.decode : Payload → Except String VaultBlob
  | .junk error => .error error
  | .blob b _ =>
    if b.v = blobVersion ∨ b.v = blobVersionThree ∨ b.v = blobVersionTwo ∨
        b.v = blobVersionOne then .ok b
    else .error ("vault blob is version " ++ toString b.v ++ ", this binary reads " ++
      toString blobVersion)

def Payload.oldNonce : Payload → Option String
  | .blob _ nonce => nonce
  | .junk _ => none

namespace Vault

variable {N : Crate}

def new (store : SecretStore) : Vault N := ⟨store, none, [], ∅⟩

def isUnlocked (vault : Vault N) : Bool := vault.key.isSome

/-- The outstanding secrets with their labels: what the bunker arms against. -/
def outstanding (vault : Vault N) : List Outstanding :=
  vault.secrets.map fun secret => ⟨secret, vault.labels.lookup secret⟩

def uriSecret (vault : Vault N) : Option String := vault.secrets.getLast?

/-- `store.load()`. -/
def load (calls : StoreCalls) (vault : Vault N) : Except String (Option Payload) :=
  match calls.load with
  | none => .ok vault.store
  | some e => .error e

/-- `store.save()`; the blob's own serialisation drops the old nonce. -/
def save (calls : StoreCalls) (vault : Vault N) (blob : VaultBlob) : Except String (Vault N) :=
  match calls.save with
  | none => .ok { vault with store := some (.blob blob none) }
  | some e => .error e

def stored (calls : StoreCalls) (vault : Vault N) : Except String Bool := do
  return (← vault.load calls).isSome

def storedPubkey (calls : StoreCalls) (vault : Vault N) : Except String (Option N.PublicKey) := do
  match ← vault.load calls with
  | some bytes =>
    let blob ← bytes.decode
    let pubkey ← (N.parsePublicKey blob.pubkey).mapError ("the stored pubkey is broken: " ++ ·)
    return some pubkey
  | none => return none

/-- The stored blob, or the error every operation on it starts with. -/
def loadBlob (calls : StoreCalls) (vault : Vault N) : Except String VaultBlob := do
  match ← vault.load calls with
  | some bytes => bytes.decode
  | none => .error "no vault exists in this store"

def generateWrap (env : Env N) (draw : ℕ) : Except String String :=
  (env.wraps draw).mapError ("OS randomness unavailable: " ++ ·)

/-- Hold what the store now holds. -/
def mirror (vault : Vault N) (blob : VaultBlob) : Vault N :=
  { vault with secrets := blob.secrets, labels := blob.labels }

/-- The labels stay as they were: only the secrets and the key are taken from the blob. -/
def storeAndUnlock (env : Env N) (vault : Vault N) (key : N.SecretKey) :
    Except String (Vault N) := do
  let wrap ← generateWrap env 0
  let secret ← generateWrap env 1
  let ncryptsec ← N.toNcryptsec env.entropy key wrap
  let blob : VaultBlob := ⟨blobVersion, wrap, ncryptsec, N.hex (N.publicKey key), [secret], ∅⟩
  let vault ← vault.save (env.store 0) blob
  return { vault with secrets := blob.secrets, key := some key }

def setup (env : Env N) (vault : Vault N) (key : N.SecretKey) : Except String (Vault N) := do
  if (← vault.load (env.store 0)).isSome then .error "a vault already exists; destroy it first"
  else vault.storeAndUnlock env key

/-- An older blob in today's form, with the secrets it carries over. -/
def migrate (env : Env N) (bytes : Payload) (blob : VaultBlob) : Except String VaultBlob :=
  if blob.v = blobVersion then .ok blob
  else if blob.v = blobVersionTwo then
    .ok { blob with secrets := bytes.oldNonce.toList, v := blobVersion }
  else if blob.v = blobVersionOne then do
    let fresh ← generateWrap env 0
    return { blob with secrets := [fresh], v := blobVersion }
  else .ok { blob with v := blobVersion }

/-- A vault whose last secret was burned comes up with a fresh one. -/
def restock (env : Env N) (blob : VaultBlob) : Except String VaultBlob :=
  if blob.secrets.isEmpty then do
    let fresh ← generateWrap env 0
    return { blob with secrets := [fresh] }
  else .ok blob

def unlock (env : Env N) (vault : Vault N) : Except String (Vault N) := do
  if vault.key.isSome then return vault
  match ← vault.load (env.store 0) with
  | none => .error "no vault exists in this store"
  | some bytes =>
    let blob ← bytes.decode
    let key ← N.openNcryptsec blob.ncryptsec blob.wrap
    let blob ← migrate env bytes blob
    let blob ← restock env blob
    let vault ← vault.save (env.store 0) blob
    return { vault.mirror blob with key := some key }

/-- Drop the key. The outstanding secrets stay. -/
def lock (vault : Vault N) : Vault N := { vault with key := none }

def mintSecret (env : Env N) (vault : Vault N) (label : Option String) :
    Except String (Vault N × String) := do
  let blob ← vault.loadBlob (env.store 0)
  let fresh ← generateWrap env 0
  let labels := match label with
    | some label => blob.labels.insert fresh label
    | none => blob.labels
  let blob := { blob with labels, secrets := blob.secrets ++ [fresh] }
  let vault ← vault.save (env.store 0) blob
  return (vault.mirror blob, fresh)

/-- Burn a secret; whether it was outstanding. -/
def burnSecret (env : Env N) (vault : Vault N) (secret : String) :
    Except String (Vault N × Bool) := do
  let blob ← vault.loadBlob (env.store 0)
  let secrets := blob.secrets.filter fun s => s != secret
  if secrets.length = blob.secrets.length then return (vault, false)
  else
    let blob := { blob with secrets, labels := blob.labels.erase secret }
    let vault ← vault.save (env.store 0) blob
    return (vault.mirror blob, true)

def rotateSecret (env : Env N) (vault : Vault N) : Except String (Vault N × String) := do
  let blob ← vault.loadBlob (env.store 0)
  let fresh ← generateWrap env 0
  let blob := { blob with secrets := [fresh], labels := ∅, v := blobVersion }
  let vault ← vault.save (env.store 0) blob
  return (vault.mirror blob, fresh)

/-- The memory is cleared before the store is asked, so a failed removal still locks. -/
def destroy (env : Env N) (vault : Vault N) : Vault N × Except String Unit :=
  let vault := { vault.lock with secrets := [], labels := ∅ }
  match (env.store 0).remove with
  | none => ({ vault with store := none }, .ok ())
  | some e => (vault, .error e)

end Vault
end Kuma.Nostr
