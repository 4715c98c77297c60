import Kuma.Nostr.Ledger

/-! The vault's operations as they are written, on a vault that is edited in place: the fields are
assigned one after another, and an error leaves behind it what was assigned before. Each operation
turns out to be the all-or-nothing function of the vault's own module. -/
namespace Kuma.Nostr
open Kuma.Lib (HashMap)

/-- A program on `&mut self` that may return early with an error. -/
abbrev InPlace (N : Crate) := ExceptT String (StateM (Vault N))

namespace Vault

variable {N : Crate} {env : Env N} {vault : Vault N} {α : Type}

namespace InPlace

def load (calls : StoreCalls) : InPlace N (Option Payload) := do
  let vault ← get
  match calls.load with
  | none => return vault.store
  | some e => throw e

def save (calls : StoreCalls) (blob : VaultBlob) : InPlace N Unit :=
  match calls.save with
  | none => modify fun vault => { vault with store := some (.blob blob none) }
  | some e => throw e

def remove (calls : StoreCalls) : InPlace N Unit :=
  match calls.remove with
  | none => modify fun vault => { vault with store := none }
  | some e => throw e

/-- `self.secrets = ..`, `self.labels = ..` and `self.key = ..`. -/
def setSecrets (secrets : List String) : InPlace N Unit :=
  modify fun vault => { vault with secrets }

def setLabels (labels : HashMap String String) : InPlace N Unit :=
  modify fun vault => { vault with labels }

def setKey (key : Option N.SecretKey) : InPlace N Unit := modify fun vault => { vault with key }

/-- The stored blob, or the error every operation on it starts with. -/
def loadBlob (calls : StoreCalls) : InPlace N VaultBlob := do
  match ← load calls with
  | some bytes => bytes.decode
  | none => throw "no vault exists in this store"

def storeAndUnlock (env : Env N) (key : N.SecretKey) : InPlace N Unit := do
  let wrap ← generateWrap env 0
  let secret ← generateWrap env 1
  let ncryptsec ← N.toNcryptsec env.entropy key wrap
  let blob : VaultBlob := ⟨blobVersion, wrap, ncryptsec, N.hex (N.publicKey key), [secret], ∅⟩
  save (env.store 0) blob
  setSecrets blob.secrets
  setKey (some key)

def setup (env : Env N) (key : N.SecretKey) : InPlace N Unit := do
  if (← load (env.store 0)).isSome then throw "a vault already exists; destroy it first"
  storeAndUnlock env key

def unlock (env : Env N) : InPlace N Unit := do
  if (← get).key.isSome then return
  match ← load (env.store 0) with
  | none => throw "no vault exists in this store"
  | some bytes =>
    let blob ← bytes.decode
    let key ← N.openNcryptsec blob.ncryptsec blob.wrap
    let blob ← migrate env bytes blob
    let blob ← restock env blob
    save (env.store 0) blob
    setSecrets blob.secrets
    setLabels blob.labels
    setKey (some key)

def lock : InPlace N Unit := setKey none

def mintSecret (env : Env N) (label : Option String) : InPlace N String := do
  let blob ← loadBlob (env.store 0)
  let fresh ← generateWrap env 0
  let labels := match label with
    | some label => blob.labels.insert fresh label
    | none => blob.labels
  let blob := { blob with labels, secrets := blob.secrets ++ [fresh] }
  save (env.store 0) blob
  setSecrets blob.secrets
  setLabels blob.labels
  return fresh

def burnSecret (env : Env N) (secret : String) : InPlace N Bool := do
  let blob ← loadBlob (env.store 0)
  let secrets := blob.secrets.filter fun s => s != secret
  if secrets.length = blob.secrets.length then return false
  let blob := { blob with secrets, labels := blob.labels.erase secret }
  save (env.store 0) blob
  setSecrets blob.secrets
  setLabels blob.labels
  return true

def rotateSecret (env : Env N) : InPlace N String := do
  let blob ← loadBlob (env.store 0)
  let fresh ← generateWrap env 0
  let blob := { blob with secrets := [fresh], labels := ∅, v := blobVersion }
  save (env.store 0) blob
  setSecrets blob.secrets
  setLabels blob.labels
  return fresh

def destroy (env : Env N) : InPlace N Unit := do
  lock
  setSecrets []
  setLabels ∅
  remove (env.store 0)

end InPlace

/-- Run a program on a vault: what it returns and the vault it leaves. -/
def after (program : InPlace N α) (vault : Vault N) : Except String α × Vault N :=
  program.run.run vault

/-- What an all-or-nothing function makes of a vault: an error leaves it alone. -/
def settle (vault : Vault N) : Except String (Vault N × α) → Except String α × Vault N
  | .ok (vault, a) => (.ok a, vault)
  | .error e => (.error e, vault)

/-- An all-or-nothing function with nothing to return. -/
def settleUnit (vault : Vault N) (result : Except String (Vault N)) :
    Except String Unit × Vault N :=
  vault.settle (result.map fun vault => (vault, ()))

theorem after_bind {β : Type} (vault : Vault N) (program : InPlace N α) (next : α → InPlace N β) :
    vault.after (program >>= next) = match vault.after program with
      | (.ok a, vault) => vault.after (next a)
      | (.error e, vault) => (.error e, vault) := by
  change (ExceptT.bindCont next (program.run.run vault).1).run (program.run.run vault).2 = _
  unfold after
  cases program.run.run vault with
  | mk result vault' => cases result <;> rfl

theorem after_lift (vault : Vault N) (result : Except String α) :
    vault.after (liftM result : InPlace N α) = (result, vault) := rfl

theorem after_load (calls : StoreCalls) :
    vault.after (InPlace.load calls) = (vault.load calls, vault) := by
  unfold InPlace.load load
  cases calls.load <;> rfl

theorem after_loadBlob (calls : StoreCalls) :
    vault.after (InPlace.loadBlob calls) = (vault.loadBlob calls, vault) := by
  unfold InPlace.loadBlob loadBlob
  rw [after_bind, after_load]
  cases vault.load calls with
  | error e => rfl
  | ok bytes => cases bytes <;> rfl

theorem after_save (calls : StoreCalls) (blob : VaultBlob) :
    vault.after (InPlace.save calls blob) = vault.settleUnit (vault.save calls blob) := by
  unfold InPlace.save save
  cases calls.save <;> rfl

/-- A program that reads first does what the rest of it does with what was read. -/
theorem after_read {β : Type} {program : InPlace N β} {next : β → InPlace N α}
    {result : Except String β} {rest : β → Except String (Vault N × α)}
    (hread : vault.after program = (result, vault))
    (hnext : ∀ b, vault.after (next b) = vault.settle (rest b)) :
    vault.after (program >>= next) = vault.settle (result >>= rest) := by
  rw [after_bind, hread]
  cases result with
  | error e => rfl
  | ok b => exact hnext b

/-- A program that writes the store and then its own fields, which cannot fail. -/
theorem after_write {calls : StoreCalls} {blob : VaultBlob} {next : Unit → InPlace N α}
    {fields : Vault N → Vault N} {a : α}
    (hnext : ∀ vault : Vault N, vault.after (next ()) = (.ok a, fields vault)) :
    vault.after (InPlace.save calls blob >>= next) =
      vault.settle (vault.save calls blob >>= fun vault => .ok (fields vault, a)) := by
  rw [after_bind, after_save]
  cases vault.save calls blob with
  | error e => rfl
  | ok vault' => exact hnext vault'

theorem after_read_unit {β : Type} {program : InPlace N β} {next : β → InPlace N Unit}
    {result : Except String β} {rest : β → Except String (Vault N)}
    (hread : vault.after program = (result, vault))
    (hnext : ∀ b, vault.after (next b) = vault.settleUnit (rest b)) :
    vault.after (program >>= next) = vault.settleUnit (result >>= rest) := by
  rw [after_read hread hnext]
  cases result <;> rfl

theorem after_write_unit {calls : StoreCalls} {blob : VaultBlob} {next : Unit → InPlace N Unit}
    {fields : Vault N → Vault N}
    (hnext : ∀ vault : Vault N, vault.after (next ()) = (.ok (), fields vault)) :
    vault.after (InPlace.save calls blob >>= next) =
      vault.settleUnit (vault.save calls blob >>= fun vault => .ok (fields vault)) := by
  rw [after_write hnext]
  cases vault.save calls blob <;> rfl

theorem mintSecret_inPlace (label : Option String) :
    vault.after (InPlace.mintSecret env label) = vault.settle (vault.mintSecret env label) := by
  apply after_read (after_loadBlob _)
  intro blob
  apply after_read (after_lift vault _)
  intro fresh
  exact after_write fun _ => rfl

theorem rotateSecret_inPlace :
    vault.after (InPlace.rotateSecret env) = vault.settle (vault.rotateSecret env) := by
  apply after_read (after_loadBlob _)
  intro blob
  apply after_read (after_lift vault _)
  intro fresh
  exact after_write fun _ => rfl

theorem burnSecret_inPlace (secret : String) :
    vault.after (InPlace.burnSecret env secret) = vault.settle (vault.burnSecret env secret) := by
  apply after_read (after_loadBlob _)
  intro blob
  dsimp only
  split_ifs
  · rfl
  · exact after_write fun _ => rfl

/-- The memory is locked and emptied before the store is asked. -/
theorem destroy_inPlace :
    vault.after (InPlace.destroy env) = ((vault.destroy env).2, (vault.destroy env).1) := by
  unfold InPlace.destroy InPlace.remove destroy
  cases (env.store 0).remove <;> rfl

theorem storeAndUnlock_inPlace (key : N.SecretKey) :
    vault.after (InPlace.storeAndUnlock env key) =
      vault.settleUnit (vault.storeAndUnlock env key) := by
  apply after_read_unit (after_lift vault _)
  intro wrap
  apply after_read_unit (after_lift vault _)
  intro secret
  apply after_read_unit (after_lift vault _)
  intro ncryptsec
  exact after_write_unit fun _ => rfl

theorem setup_inPlace (key : N.SecretKey) :
    vault.after (InPlace.setup env key) = vault.settleUnit (vault.setup env key) := by
  apply after_read_unit (after_load _)
  intro loaded
  split_ifs
  · rfl
  · exact storeAndUnlock_inPlace key

theorem unlock_inPlace :
    vault.after (InPlace.unlock env) = vault.settleUnit (vault.unlock env) := by
  have hget : vault.after (get : InPlace N (Vault N)) = (.ok vault, vault) := rfl
  unfold InPlace.unlock unlock
  rw [after_bind, hget]
  dsimp only
  split_ifs
  · rfl
  · apply after_read_unit (after_load _)
    intro loaded
    cases loaded with
    | none => rfl
    | some bytes =>
      apply after_read_unit (after_lift vault _)
      intro blob
      apply after_read_unit (after_lift vault _)
      intro key
      apply after_read_unit (after_lift vault _)
      intro migrated
      apply after_read_unit (after_lift vault _)
      intro restocked
      exact after_write_unit fun _ => rfl

end Vault
end Kuma.Nostr
