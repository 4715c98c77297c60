import Kuma.Nostr.Mirror

/-! The four forms of the stored blob. They are read through one structure whose last two fields
may be absent; an unlock writes today's form back. -/
namespace Kuma.Nostr
open Kuma.Lib (HashMap)

/-- A JSON value read as a `u8`. -/
def Json.asU8 (value : Json) : Option ℕ :=
  value.asU64.bind fun n => if n.toNat < 256 then some n.toNat else none

/-- A JSON value read as a map from strings to strings; of a key said twice the last counts. -/
def Json.stringMap : Json → Option (HashMap String String)
  | .object fields => fields.foldlM (fun map field =>
      field.2.asStr.map fun text => map.insert field.1 text) ∅
  | _ => none

namespace VaultBlob

/-- The structure from what stands for each field; an absent list of secrets is the empty one, and
so with the labels. -/
def ofFields (v wrap ncryptsec pubkey secrets labels : Option Json) : Option VaultBlob := do
  let v ← (← v).asU8
  let wrap ← (← wrap).asStr
  let ncryptsec ← (← ncryptsec).asStr
  let pubkey ← (← pubkey).asStr
  let secrets ← (secrets.map Json.strings).getD (some [])
  let labels ← (labels.map Json.stringMap).getD (some ∅)
  return ⟨v, wrap, ncryptsec, pubkey, secrets, labels⟩

def fieldNames : List String := ["v", "wrap", "ncryptsec", "pubkey", "secrets", "labels"]

/-- The derived `Deserialize`: an object, in which no field of the structure stands twice, or the
fields in their order; other keys are passed over. -/
def read : Json → Option VaultBlob
  | .object fields =>
    if fieldNames.any fun name => 1 < fields.countP fun field => field.1 == name then none
    else ofFields (fields.lookup "v") (fields.lookup "wrap") (fields.lookup "ncryptsec")
      (fields.lookup "pubkey") (fields.lookup "secrets") (fields.lookup "labels")
  | .array items =>
    if items.length ≤ 6 then ofFields items[0]? items[1]? items[2]? items[3]? items[4]? items[5]?
    else none
  | _ => none

/-- The secrets a stored blob hands over: version 2 had its nonce, version 1 had none. -/
def carried (blob : VaultBlob) (nonce : Option String) : List String :=
  if blob.v = blobVersionTwo then nonce.toList
  else if blob.v = blobVersionOne then []
  else blob.secrets

/-- What an unlock makes of the blob, with a secret drawn for it when it hands over none. -/
def migrated (blob : VaultBlob) (nonce : Option String) (fresh : String) : VaultBlob :=
  { blob with
    v := blobVersion
    secrets := if blob.carried nonce = [] then [fresh] else blob.carried nonce }

end VaultBlob

/-- What the keyring's bytes are, when they are the JSON `value`; `blame` is the parser's word for
what is no blob. -/
def Payload.read (blame : Json → String) (value : Json) : Payload :=
  match VaultBlob.read value with
  | some held => .blob held (value.strAt "secret")
  | none => .junk (blame value)

namespace Vault

variable {N : Crate} {env : Env N} {vault : Vault N} {blob : VaultBlob} {nonce : Option String}
  {fresh : String} {key : N.SecretKey}

theorem generateWrap_of_drawn (hfresh : env.wraps 0 = .ok fresh) :
    generateWrap env 0 = .ok fresh := by
  rw [generateWrap, hfresh]
  rfl

theorem restock_of_drawn (blob : VaultBlob)
    (hfresh : blob.secrets = [] → env.wraps 0 = .ok fresh) :
    restock env blob =
      .ok { blob with secrets := if blob.secrets = [] then [fresh] else blob.secrets } := by
  unfold restock
  by_cases hsecrets : blob.secrets = []
  · rw [generateWrap_of_drawn (hfresh hsecrets)]
    simp [hsecrets, bind, Except.bind, pure, Except.pure]
  · simp [hsecrets]

/-- The migration and the restocking of a blob, in one. A draw is made only for a blob that hands
over no secret. -/
theorem migrate_restock (hfresh : blob.carried nonce = [] → env.wraps 0 = .ok fresh) :
    (migrate env (.blob blob nonce) blob >>= restock env) = .ok (blob.migrated nonce fresh) := by
  unfold migrate VaultBlob.migrated
  by_cases hfour : blob.v = blobVersion
  · have htwo : blob.v ≠ blobVersionTwo := by rw [hfour]; decide
    have hone : blob.v ≠ blobVersionOne := by rw [hfour]; decide
    have hcarried : blob.carried nonce = blob.secrets := by
      rw [VaultBlob.carried, if_neg htwo, if_neg hone]
    rw [hcarried] at hfresh ⊢
    rw [if_pos hfour, ← hfour]
    exact restock_of_drawn blob hfresh
  by_cases htwo : blob.v = blobVersionTwo
  · have hcarried : blob.carried nonce = nonce.toList := if_pos htwo
    rw [hcarried] at hfresh ⊢
    rw [if_neg hfour, if_pos htwo]
    exact restock_of_drawn { blob with secrets := nonce.toList, v := blobVersion } hfresh
  by_cases hone : blob.v = blobVersionOne
  · have hcarried : blob.carried nonce = [] := by
      rw [VaultBlob.carried, if_neg htwo, if_pos hone]
    rw [hcarried, if_neg hfour, if_neg htwo, if_pos hone, generateWrap_of_drawn (hfresh hcarried)]
    rfl
  · have hcarried : blob.carried nonce = blob.secrets := by
      rw [VaultBlob.carried, if_neg htwo, if_neg hone]
    rw [hcarried] at hfresh ⊢
    rw [if_neg hfour, if_neg htwo, if_neg hone]
    exact restock_of_drawn { blob with v := blobVersion } hfresh

/-- A blob in today's form that holds a secret is written back as it is. -/
theorem migrate_restock_current (env : Env N) (bytes : Payload) (hcurrent : blob.v = blobVersion)
    (hstocked : blob.secrets ≠ []) : (migrate env bytes blob >>= restock env) = .ok blob := by
  have hrestock : restock env blob = .ok blob := by
    unfold restock
    rw [if_neg (by simpa using hstocked)]
  unfold migrate
  rw [if_pos hcurrent]
  exact hrestock

/-- An unlock over a working store, from what the blob turns into. -/
theorem unlock_of_blob {written : VaultBlob} (hlocked : vault.key = none)
    (hstore : vault.store = some (.blob blob nonce)) (hload : (env.store 0).load = none)
    (hknown : blob.Known) (hopens : N.openNcryptsec blob.ncryptsec blob.wrap = .ok key)
    (hwritten : (migrate env (.blob blob nonce) blob >>= restock env) = .ok written) :
    vault.unlock env = vault.save (env.store 0) written >>= fun saved =>
      .ok { saved.mirror written with key := some key } := by
  obtain ⟨migrated, hmigrate, hrestock⟩ := Kuma.Lib.bind_eq_ok.mp hwritten
  have hloaded : vault.load (env.store 0) = .ok (some (.blob blob nonce)) := by
    rw [load, hload, hstore]
  unfold unlock
  simp only [hlocked, Option.isSome_none, Bool.false_eq_true, if_false, hloaded,
    Payload.decode_known hknown, hopens, hmigrate, hrestock, bind, Except.bind]
  rfl

theorem migrated_stocked (blob : VaultBlob) (nonce : Option String) (fresh : String) :
    (blob.migrated nonce fresh).secrets ≠ [] := by
  unfold VaultBlob.migrated
  dsimp only
  split_ifs with hcarried
  · exact List.cons_ne_nil _ _
  · exact hcarried

/-- Over a blob in today's form a lock and an unlock leave the secrets, the labels and the store as
they were, whether the unlock goes through or not. -/
theorem relock_keeps {written : VaultBlob} (hcurrent : written.v = blobVersion)
    (hstocked : written.secrets ≠ []) (env : Env N)
    (hopens : N.openNcryptsec written.ncryptsec written.wrap = .ok key) :
    let vault : Vault N := ⟨some (.blob written none), some key, written.secrets, written.labels⟩
    vault.lock.performed (env, .unlock) = vault.lock ∨
      vault.lock.performed (env, .unlock) = vault := by
  intro vault
  unfold performed program
  rw [unlock_inPlace]
  cases hload : (env.store 0).load with
  | some e =>
    left
    simp [unlock, load, hload, lock, vault, settleUnit, settle, bind, Except.bind, Except.map]
  | none =>
    have hwritten := migrate_restock_current env (.blob written none) hcurrent hstocked
    rw [unlock_of_blob rfl rfl hload (.inl hcurrent) hopens hwritten]
    unfold save
    cases (env.store 0).save with
    | some e => exact .inl rfl
    | none => exact .inr rfl

theorem load_eq (calls : StoreCalls) (vault : Vault N) :
    (∃ e, vault.load calls = .error e) ∨ vault.load calls = .ok vault.store := by
  unfold load
  cases calls.load with
  | none => exact .inr rfl
  | some e => exact .inl ⟨e, rfl⟩

theorem decode_of_not_known (hunknown : ¬blob.Known) (nonce : Option String) :
    ∃ e, (Payload.blob blob nonce).decode = .error e := ⟨_, if_neg hunknown⟩

theorem loadBlob_of_not_known (hunknown : ¬blob.Known)
    (hstore : vault.store = some (.blob blob nonce)) (calls : StoreCalls) :
    ∃ e, vault.loadBlob calls = .error e := by
  obtain ⟨e, he⟩ := decode_of_not_known hunknown nonce
  unfold loadBlob
  rcases load_eq calls vault with ⟨e', hload⟩ | hload
  · exact ⟨e', by rw [hload]; rfl⟩
  · refine ⟨e, ?_⟩
    rw [hload, hstore]
    exact he

/-- A blob of a version that this binary does not read is refused by every operation but the two
that do not read it. -/
theorem refuses_of_not_known (hunknown : ¬blob.Known) (hlocked : vault.key = none)
    (hstore : vault.store = some (.blob blob nonce)) {call : VaultCall N} (hlock : call.2 ≠ .lock)
    (hdestroy : call.2 ≠ .destroy) :
    (∃ e, vault.outcome call = .error e) ∧ vault.performed call = vault := by
  have hrefused : ∃ e, vault.outcome call = .error e := by
    obtain ⟨env, op⟩ := call
    obtain ⟨e, hblob⟩ := loadBlob_of_not_known hunknown hstore (env.store 0)
    unfold outcome program
    cases op with
    | setup key =>
      rw [setup_inPlace]
      unfold setup
      rcases load_eq (env.store 0) vault with ⟨e', hload⟩ | hload
      · exact ⟨e', by rw [hload]; rfl⟩
      · exact ⟨_, by rw [hload, hstore]; rfl⟩
    | unlock =>
      obtain ⟨e', hdecode⟩ := decode_of_not_known hunknown nonce
      rw [unlock_inPlace]
      unfold unlock
      rw [hlocked]
      rcases load_eq (env.store 0) vault with ⟨e'', hload⟩ | hload
      · exact ⟨e'', by rw [hload]; rfl⟩
      · refine ⟨e', ?_⟩
        rw [hload, hstore]
        simp only [bind, Except.bind, hdecode]
        rfl
    | lock => exact absurd rfl hlock
    | mintSecret label =>
      refine ⟨e, ?_⟩
      dsimp only
      rw [after_discard (mintSecret_inPlace label), mintSecret, hblob]
      rfl
    | burnSecret secret =>
      refine ⟨e, ?_⟩
      dsimp only
      rw [after_discard (burnSecret_inPlace secret), burnSecret, hblob]
      rfl
    | rotateSecret =>
      refine ⟨e, ?_⟩
      dsimp only
      rw [after_discard rotateSecret_inPlace, rotateSecret, hblob]
      rfl
    | destroy => exact absurd rfl hdestroy
  obtain ⟨e, he⟩ := hrefused
  exact ⟨⟨e, he⟩, (performed_change vault call).2 hdestroy e he⟩

/-- A version 2 blob as an older daemon wrote it. -/
private def versionTwo : Json :=
  .object [("v", .number (.posInt 2)), ("wrap", .string "wrap"), ("ncryptsec", .string "key"),
    ("pubkey", .string "pub-key"), ("secret", .string "nonce")]

end Vault
end Kuma.Nostr
