import Kuma.Lib.Fallible
import Kuma.Nostr.Vault

/-! What each operation of the vault leaves behind: the key, the outstanding secrets it
mirrors, and the ones the store holds. -/
namespace Kuma.Nostr
open Kuma.Lib (bind_eq_ok mapError_eq_ok)

/-- The outstanding secrets a payload can give back. -/
def Payload.secrets : Payload → List String
  | .blob b nonce => b.secrets ++ nonce.toList
  | .junk _ => []

/-- A version this binary reads. -/
def VaultBlob.Known (blob : VaultBlob) : Prop :=
  blob.v = blobVersion ∨ blob.v = blobVersionThree ∨ blob.v = blobVersionTwo ∨
    blob.v = blobVersionOne

theorem Payload.decode_known {blob : VaultBlob} (h : blob.Known) (nonce : Option String) :
    (Payload.blob blob nonce).decode = .ok blob := if_pos h

namespace Vault

variable {N : Crate} {env : Env N} {vault vault' : Vault N}

/-- The secrets in the store. -/
def stock (vault : Vault N) : List String := (vault.store.map Payload.secrets).getD []

/-- The store holds a list of secrets, in today's form, and the vault mirrors it. -/
structure Holds (vault : Vault N) (secrets : List String) : Prop where
  mirrored : vault.secrets = secrets
  stored : ∃ blob, vault.store = some (.blob blob none) ∧ blob.secrets = secrets ∧ blob.Known

theorem outstanding_secrets (vault : Vault N) :
    vault.outstanding.map Outstanding.secret = vault.secrets := by
  simp [outstanding, Function.comp_def]

/-- What the store holds, if anything, is in today's form. -/
def Readable (vault : Vault N) : Prop :=
  ∀ bytes, vault.store = some bytes → ∃ blob, bytes = .blob blob none ∧ blob.Known

theorem Holds.stock {secrets : List String} (h : vault.Holds secrets) : vault.stock = secrets := by
  obtain ⟨blob, hstore, hsecrets, -⟩ := h.stored
  simp [Vault.stock, hstore, Payload.secrets, hsecrets]

theorem Holds.readable {secrets : List String} (h : vault.Holds secrets) : vault.Readable := by
  obtain ⟨blob, hstore, -, hknown⟩ := h.stored
  rintro bytes hbytes
  cases hstore.symm.trans hbytes
  exact ⟨blob, rfl, hknown⟩

theorem Readable.of_store (h : vault.Readable)
    (hstore : vault'.store = none ∨ vault'.store = vault.store) : vault'.Readable := by
  intro bytes hbytes
  rcases hstore with hnone | hsame
  · cases hnone.symm.trans hbytes
  · exact h bytes (hsame ▸ hbytes)

theorem load_ok {calls : StoreCalls} {loaded : Option Payload}
    (h : vault.load calls = .ok loaded) : vault.store = loaded := by
  unfold load at h
  split at h
  · exact Except.ok.inj h
  · cases h

theorem decode_ok {bytes : Payload} {blob : VaultBlob} (h : bytes.decode = .ok blob) :
    blob.Known ∧ ∃ nonce, bytes = .blob blob nonce := by
  cases bytes with
  | junk e => cases h
  | blob b nonce =>
    simp only [Payload.decode] at h
    split_ifs at h with hknown
    cases h
    exact ⟨hknown, nonce, rfl⟩

theorem loadBlob_ok {calls : StoreCalls} {blob : VaultBlob}
    (h : vault.loadBlob calls = .ok blob) :
    blob.Known ∧ ∃ nonce, vault.store = some (.blob blob nonce) := by
  obtain ⟨loaded, hload, h⟩ := bind_eq_ok.mp h
  cases loaded with
  | none => cases h
  | some bytes =>
    obtain ⟨hknown, nonce, rfl⟩ := decode_ok h
    exact ⟨hknown, nonce, load_ok hload⟩

theorem save_ok {calls : StoreCalls} {blob : VaultBlob} (h : vault.save calls blob = .ok vault') :
    vault' = { vault with store := some (.blob blob none) } := by
  unfold save at h
  split at h
  · exact (Except.ok.inj h).symm
  · cases h

theorem generateWrap_ok {draw : ℕ} {fresh : String} (h : generateWrap env draw = .ok fresh) :
    env.wraps draw = .ok fresh := mapError_eq_ok.mp h

theorem mintSecret_ok {label : Option String} {secret : String}
    (h : vault.mintSecret env label = .ok (vault', secret)) :
    ∃ blob nonce, vault.store = some (.blob blob nonce) ∧ env.wraps 0 = .ok secret ∧
      vault'.Holds (blob.secrets ++ [secret]) ∧ vault'.key = vault.key := by
  obtain ⟨blob, hblob, h⟩ := bind_eq_ok.mp h
  obtain ⟨hknown, nonce, hstore⟩ := loadBlob_ok hblob
  obtain ⟨fresh, hfresh, h⟩ := bind_eq_ok.mp h
  obtain ⟨saved, hsave, h⟩ := bind_eq_ok.mp h
  cases h
  rw [save_ok hsave]
  exact ⟨blob, nonce, hstore, generateWrap_ok hfresh, ⟨rfl, _, rfl, rfl, hknown⟩, rfl⟩

/-- A burn leaves the secret in neither place, or found it in none. -/
theorem burnSecret_ok {secret : String} {burned : Bool}
    (h : vault.burnSecret env secret = .ok (vault', burned)) :
    ∃ blob nonce, vault.store = some (.blob blob nonce) ∧ vault'.key = vault.key ∧
      (vault' = vault ∧ secret ∉ blob.secrets ∨
        vault'.Holds (blob.secrets.filter fun s => s != secret)) := by
  obtain ⟨blob, hblob, h⟩ := bind_eq_ok.mp h
  obtain ⟨hknown, nonce, hstore⟩ := loadBlob_ok hblob
  dsimp only at h
  split_ifs at h with hlen
  · cases h
    have hall : ∀ s ∈ blob.secrets, (s != secret) = true := List.length_filter_eq_length_iff.mp hlen
    exact ⟨blob, nonce, hstore, rfl, .inl ⟨rfl, fun hmem => by simpa using hall secret hmem⟩⟩
  · obtain ⟨saved, hsave, h⟩ := bind_eq_ok.mp h
    cases h
    rw [save_ok hsave]
    exact ⟨blob, nonce, hstore, rfl, .inr ⟨rfl, _, rfl, rfl, hknown⟩⟩

theorem rotateSecret_ok {secret : String}
    (h : vault.rotateSecret env = .ok (vault', secret)) :
    env.wraps 0 = .ok secret ∧ vault'.Holds [secret] ∧ vault'.key = vault.key := by
  obtain ⟨blob, -, h⟩ := bind_eq_ok.mp h
  obtain ⟨fresh, hfresh, h⟩ := bind_eq_ok.mp h
  obtain ⟨saved, hsave, h⟩ := bind_eq_ok.mp h
  cases h
  rw [save_ok hsave]
  exact ⟨generateWrap_ok hfresh, ⟨rfl, _, rfl, rfl, .inl rfl⟩, rfl⟩

theorem setup_ok {key : N.SecretKey} (h : vault.setup env key = .ok vault') :
    ∃ secret, env.wraps 1 = .ok secret ∧ vault'.Holds [secret] ∧ vault'.key = some key := by
  obtain ⟨loaded, -, h⟩ := bind_eq_ok.mp h
  split_ifs at h
  obtain ⟨wrap, -, h⟩ := bind_eq_ok.mp h
  obtain ⟨secret, hsecret, h⟩ := bind_eq_ok.mp h
  obtain ⟨ncryptsec, -, h⟩ := bind_eq_ok.mp h
  obtain ⟨saved, hsave, h⟩ := bind_eq_ok.mp h
  cases h
  rw [save_ok hsave]
  exact ⟨secret, generateWrap_ok hsecret, ⟨rfl, _, rfl, rfl, .inl rfl⟩, rfl⟩

/-- What an unlock may find in the store, once migrated: the old secrets, the one nonce of
the older form, or a fresh draw. -/
inductive CarriedOver (env : Env N) (blob : VaultBlob) (nonce : Option String) :
    List String → Prop
  | kept : CarriedOver env blob nonce blob.secrets
  | nonce : CarriedOver env blob nonce nonce.toList
  | drawn (fresh : String) (draw : env.wraps 0 = .ok fresh) : CarriedOver env blob nonce [fresh]

theorem migrate_ok {blob blob' : VaultBlob} {nonce : Option String}
    (h : migrate env (.blob blob nonce) blob = .ok blob') :
    CarriedOver env blob nonce blob'.secrets ∧ blob'.v = blobVersion := by
  unfold migrate at h
  split_ifs at h with hv
  · cases h
    exact ⟨.kept, hv⟩
  · cases h
    exact ⟨.nonce, rfl⟩
  · obtain ⟨fresh, hfresh, h⟩ := bind_eq_ok.mp h
    cases h
    exact ⟨.drawn fresh (generateWrap_ok hfresh), rfl⟩
  · cases h
    exact ⟨.kept, rfl⟩

theorem restock_ok {blob blob' : VaultBlob} (h : restock env blob = .ok blob') :
    blob'.v = blob.v ∧
      (blob' = blob ∨ ∃ fresh, env.wraps 0 = .ok fresh ∧ blob'.secrets = [fresh]) := by
  unfold restock at h
  split_ifs at h
  · obtain ⟨fresh, hfresh, h⟩ := bind_eq_ok.mp h
    cases h
    exact ⟨rfl, .inr ⟨fresh, generateWrap_ok hfresh, rfl⟩⟩
  · cases h
    exact ⟨rfl, .inl rfl⟩

theorem unlock_ok (h : vault.unlock env = .ok vault') :
    vault'.key.isSome ∧ (vault' = vault ∨ vault.key = none ∧
      ∃ blob nonce secrets, vault.store = some (.blob blob nonce) ∧ vault'.Holds secrets ∧
        CarriedOver env blob nonce secrets) := by
  unfold unlock at h
  split_ifs at h with hkey
  · cases h
    exact ⟨hkey, .inl rfl⟩
  · obtain ⟨loaded, hload, h⟩ := bind_eq_ok.mp h
    cases loaded with
    | none => cases h
    | some bytes =>
      obtain ⟨blob, hdecode, h⟩ := bind_eq_ok.mp h
      obtain ⟨key, -, h⟩ := bind_eq_ok.mp h
      obtain ⟨migrated, hmigrate, h⟩ := bind_eq_ok.mp h
      obtain ⟨restocked, hrestock, h⟩ := bind_eq_ok.mp h
      obtain ⟨saved, hsave, h⟩ := bind_eq_ok.mp h
      cases h
      obtain ⟨-, nonce, rfl⟩ := decode_ok hdecode
      obtain ⟨hcarried, hversion⟩ := migrate_ok hmigrate
      obtain ⟨hsame, hrestocked⟩ := restock_ok hrestock
      rw [save_ok hsave]
      refine ⟨rfl, .inr ⟨by simpa using hkey, blob, nonce, restocked.secrets, load_ok hload,
        ⟨rfl, _, rfl, rfl, .inl (hsame.trans hversion)⟩, ?_⟩⟩
      rcases hrestocked with rfl | ⟨fresh, hfresh, hone⟩
      · exact hcarried
      · rw [hone]
        exact .drawn fresh hfresh

/-- Over a store that works, a burn leaves the secret nowhere. -/
theorem burnSecret_settles (hwork : env.store 0 = .working) (hread : vault.Readable)
    (secret : String) :
    (∃ error, vault.burnSecret env secret = .error error) ∧ vault.stock = [] ∨
    ∃ vault' burned, vault.burnSecret env secret = .ok (vault', burned) ∧
      (vault' = vault ∧ secret ∉ vault.stock ∨
        vault'.Holds (vault.stock.filter fun s => s != secret)) := by
  cases hstore : vault.store with
  | none =>
    refine .inl ⟨⟨"no vault exists in this store", ?_⟩, by simp [stock, hstore]⟩
    simp [burnSecret, loadBlob, load, hwork, StoreCalls.working, hstore, Bind.bind, Except.bind]
  | some bytes =>
    obtain ⟨blob, rfl, hknown⟩ := hread bytes hstore
    have hload : vault.loadBlob (env.store 0) = .ok blob := by
      simp [loadBlob, load, hwork, StoreCalls.working, hstore, Bind.bind, Except.bind,
        Payload.decode_known hknown]
    have hstock : vault.stock = blob.secrets := by simp [stock, hstore, Payload.secrets]
    refine .inr ?_
    rw [hstock]
    have hburn : ∃ result, vault.burnSecret env secret = .ok result := by
      simp only [burnSecret, hload, Bind.bind, Except.bind]
      split_ifs
      · exact ⟨_, rfl⟩
      · simp [save, hwork, StoreCalls.working, Pure.pure, Except.pure]
    obtain ⟨⟨vault', burned⟩, hburn⟩ := hburn
    obtain ⟨blob', nonce, hstore', -, hleft⟩ := burnSecret_ok hburn
    cases hstore.symm.trans hstore'
    exact ⟨vault', burned, hburn, hleft⟩

theorem destroy_spec (env : Env N) (vault : Vault N) :
    (vault.destroy env).1.key = none ∧ (vault.destroy env).1.secrets = [] ∧
    ((vault.destroy env).1.store = none ∨ (vault.destroy env).1.store = vault.store) := by
  unfold destroy
  split
  · exact ⟨rfl, rfl, .inl rfl⟩
  · exact ⟨rfl, rfl, .inr rfl⟩

end Vault
end Kuma.Nostr
