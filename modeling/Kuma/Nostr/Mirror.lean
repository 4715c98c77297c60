import Kuma.Lib.Run
import Kuma.Nostr.InPlace

/-! The vault's memory against its store, over whole runs in which any call to the store may fail:
what is in memory while the vault is unlocked is what the stored blob says, an error changes
nothing, and when a label may be left without its secret. -/
namespace Kuma.Nostr
open Kuma.Lib (HashMap Along run along_cons bind_eq_ok map_eq_ok run_invariant along_invariant)

/-- What `to_ncryptsec` wraps, `decrypt_ncryptsec` opens under the same wrap. -/
def Crate.NcryptsecOpens (N : Crate) : Prop :=
  ∀ entropy key wrap text, N.toNcryptsec entropy key wrap = .ok text →
    N.openNcryptsec text wrap = .ok key

inductive VaultOp (N : Crate)
  | setup (key : N.SecretKey)
  | unlock
  | lock
  | mintSecret (label : Option String)
  | burnSecret (secret : String)
  | rotateSecret
  | destroy

/-- An operation, in the environment that it meets. -/
abbrev VaultCall (N : Crate) := Env N × VaultOp N

namespace Vault

variable {N : Crate} {env : Env N} {vault vault' : Vault N} {call : VaultCall N}

/-- The operation's program, whatever it returns besides an error. -/
def program (env : Env N) : VaultOp N → InPlace N Unit
  | .setup key => InPlace.setup env key
  | .unlock => InPlace.unlock env
  | .lock => InPlace.lock
  | .mintSecret label => do let _ ← InPlace.mintSecret env label
  | .burnSecret secret => do let _ ← InPlace.burnSecret env secret
  | .rotateSecret => do let _ ← InPlace.rotateSecret env
  | .destroy => InPlace.destroy env

def outcome (vault : Vault N) (call : VaultCall N) : Except String Unit :=
  (vault.after (program call.1 call.2)).1

def performed (vault : Vault N) (call : VaultCall N) : Vault N :=
  (vault.after (program call.1 call.2)).2

/-- While it is unlocked the vault holds what the stored blob says, and the key that it wraps. -/
def Mirrors (vault : Vault N) : Prop :=
  ∀ key, vault.key = some key → ∃ blob, vault.store = some (.blob blob none) ∧
    vault.secrets = blob.secrets ∧ vault.labels = blob.labels ∧
    N.openNcryptsec blob.ncryptsec blob.wrap = .ok key

/-- Every stored label names an outstanding secret. -/
def LabelsOutstanding (vault : Vault N) : Prop :=
  ∀ blob nonce, vault.store = some (.blob blob nonce) →
    ∀ secret ∈ blob.labels, secret ∈ blob.secrets

/-- An error of anything but a destroy leaves the vault and its store as they were. -/
def AllOrNothing (vault : Vault N) (call : VaultCall N) : Prop :=
  call.2 ≠ .destroy → ∀ e, vault.outcome call = .error e → vault.performed call = vault

/-- The call is no unlock of a blob of version 1 or 2 in which a secret other than the version 2
nonce has a label. -/
def NoneStranded (vault : Vault N) (call : VaultCall N) : Prop :=
  call.2 = .unlock → vault.key = none → ∀ blob nonce, vault.store = some (.blob blob nonce) →
    blob.v = blobVersionOne ∨ blob.v = blobVersionTwo →
      ∀ secret ∈ blob.labels, blob.v = blobVersionTwo ∧ nonce = some secret

/-- The labels follow the secrets from one form of the blob to the next. -/
def Follows (blob blob' : VaultBlob) : Prop :=
  (∀ secret ∈ blob.labels, secret ∈ blob.secrets) → ∀ secret ∈ blob'.labels, secret ∈ blob'.secrets

/-- What one operation can make of a vault. -/
inductive Change (vault : Vault N) (call : VaultCall N) : Vault N → Prop
  | same : Change vault call vault
  | locked : Change vault call vault.lock
  | provisioned (blob : VaultBlob) (key : N.SecretKey) (empty : vault.store = none)
      (unlabelled : blob.labels = ∅)
      (opens : N.NcryptsecOpens → N.openNcryptsec blob.ncryptsec blob.wrap = .ok key) :
      Change vault call
        { vault with store := some (.blob blob none), secrets := blob.secrets, key := some key }
  | opened (blob blob' : VaultBlob) (nonce : Option String) (key : N.SecretKey)
      (stored : vault.store = some (.blob blob nonce))
      (opens : N.openNcryptsec blob'.ncryptsec blob'.wrap = .ok key)
      (follows : vault.NoneStranded call → Follows blob blob') :
      Change vault call ⟨some (.blob blob' none), some key, blob'.secrets, blob'.labels⟩
  | rewritten (blob blob' : VaultBlob) (nonce : Option String)
      (stored : vault.store = some (.blob blob nonce)) (wrap : blob'.wrap = blob.wrap)
      (ncryptsec : blob'.ncryptsec = blob.ncryptsec) (follows : Follows blob blob') :
      Change vault call ⟨some (.blob blob' none), vault.key, blob'.secrets, blob'.labels⟩
  | destroyed (store : SecretStore) (gone : store = none ∨ store = vault.store) :
      Change vault call ⟨store, none, [], ∅⟩

theorem follows_mint (blob : VaultBlob) (fresh : String) (label : Option String) :
    Follows blob { blob with
      labels := match label with
        | some label => blob.labels.insert fresh label
        | none => blob.labels
      secrets := blob.secrets ++ [fresh] } := by
  intro hfollows secret hsecret
  cases label with
  | none => exact List.mem_append_left _ (hfollows secret hsecret)
  | some label =>
    rcases (AList.mem_insert _).mp hsecret with rfl | hold
    · exact List.mem_append_right _ List.mem_cons_self
    · exact List.mem_append_left _ (hfollows secret hold)

theorem follows_burn (blob : VaultBlob) (burned : String) :
    Follows blob { blob with
      secrets := blob.secrets.filter fun s => s != burned
      labels := blob.labels.erase burned } := by
  intro hfollows secret hsecret
  obtain ⟨hne, hold⟩ := AList.mem_erase.mp hsecret
  exact List.mem_filter.mpr ⟨hfollows secret hold, by simpa using hne⟩

theorem change_mintSecret {label : Option String} {secret : String}
    (h : vault.mintSecret env label = .ok (vault', secret)) : Change vault call vault' := by
  obtain ⟨blob, hblob, h⟩ := bind_eq_ok.mp h
  obtain ⟨-, nonce, hstore⟩ := loadBlob_ok hblob
  obtain ⟨fresh, -, h⟩ := bind_eq_ok.mp h
  obtain ⟨saved, hsave, h⟩ := bind_eq_ok.mp h
  cases h
  rw [save_ok hsave]
  exact .rewritten blob _ nonce hstore rfl rfl (follows_mint blob secret label)

theorem change_burnSecret {secret : String} {burned : Bool}
    (h : vault.burnSecret env secret = .ok (vault', burned)) : Change vault call vault' := by
  obtain ⟨blob, hblob, h⟩ := bind_eq_ok.mp h
  obtain ⟨-, nonce, hstore⟩ := loadBlob_ok hblob
  dsimp only at h
  split_ifs at h
  · cases h
    exact .same
  · obtain ⟨saved, hsave, h⟩ := bind_eq_ok.mp h
    cases h
    rw [save_ok hsave]
    exact .rewritten blob _ nonce hstore rfl rfl (follows_burn blob secret)

theorem change_rotateSecret {secret : String} (h : vault.rotateSecret env = .ok (vault', secret)) :
    Change vault call vault' := by
  obtain ⟨blob, hblob, h⟩ := bind_eq_ok.mp h
  obtain ⟨-, nonce, hstore⟩ := loadBlob_ok hblob
  obtain ⟨fresh, -, h⟩ := bind_eq_ok.mp h
  obtain ⟨saved, hsave, h⟩ := bind_eq_ok.mp h
  cases h
  rw [save_ok hsave]
  exact .rewritten blob _ nonce hstore rfl rfl fun _ secret hsecret => absurd hsecret (by simp)

theorem change_setup {key : N.SecretKey} (h : vault.setup env key = .ok vault') :
    Change vault call vault' := by
  obtain ⟨loaded, hload, h⟩ := bind_eq_ok.mp h
  split_ifs at h with hempty
  obtain ⟨wrap, -, h⟩ := bind_eq_ok.mp h
  obtain ⟨secret, -, h⟩ := bind_eq_ok.mp h
  obtain ⟨ncryptsec, hncryptsec, h⟩ := bind_eq_ok.mp h
  obtain ⟨saved, hsave, h⟩ := bind_eq_ok.mp h
  cases h
  rw [save_ok hsave]
  have hnone : vault.store = none := by simpa [load_ok hload] using hempty
  exact .provisioned _ key hnone rfl fun hopens => hopens _ _ _ _ hncryptsec

/-- The blob that an unlock writes is the stored one but for its version and its secrets. -/
theorem migrate_keeps {bytes : Payload} {blob blob' : VaultBlob}
    (h : migrate env bytes blob = .ok blob') :
    blob' = { blob with v := blobVersion, secrets := blob'.secrets } := by
  unfold migrate at h
  split_ifs at h with hv
  · cases h
    rw [← hv]
  · cases h
    rfl
  · obtain ⟨fresh, -, h⟩ := bind_eq_ok.mp h
    cases h
    rfl
  · cases h
    rfl

theorem restock_keeps {blob blob' : VaultBlob} (h : restock env blob = .ok blob') :
    blob' = { blob with secrets := blob'.secrets } ∧
      (blob.secrets ≠ [] → blob'.secrets = blob.secrets) := by
  unfold restock at h
  split_ifs at h with hempty
  · obtain ⟨fresh, -, h⟩ := bind_eq_ok.mp h
    cases h
    exact ⟨rfl, fun hne => absurd (List.isEmpty_iff.mp hempty) hne⟩
  · cases h
    exact ⟨rfl, fun _ => rfl⟩

/-- Where nothing is stranded, every label's secret is carried over. -/
theorem mem_migrated {blob blob' : VaultBlob} {nonce : Option String}
    (h : migrate env (.blob blob nonce) blob = .ok blob')
    (hkept : blob.v = blobVersionOne ∨ blob.v = blobVersionTwo →
      ∀ secret ∈ blob.labels, blob.v = blobVersionTwo ∧ nonce = some secret)
    (hfollows : ∀ secret ∈ blob.labels, secret ∈ blob.secrets) :
    ∀ secret ∈ blob.labels, secret ∈ blob'.secrets := by
  intro secret hsecret
  unfold migrate at h
  split_ifs at h with hfour htwo hone
  · cases h
    exact hfollows secret hsecret
  · cases h
    obtain ⟨-, rfl⟩ := hkept (.inr htwo) secret hsecret
    exact List.mem_cons_self
  · exact absurd (hkept (.inl hone) secret hsecret).1 htwo
  · cases h
    exact hfollows secret hsecret

theorem change_unlock (hcall : call.2 = .unlock) (h : vault.unlock env = .ok vault') :
    Change vault call vault' := by
  unfold unlock at h
  split_ifs at h with hkey
  · cases h
    exact .same
  · obtain ⟨loaded, hload, h⟩ := bind_eq_ok.mp h
    cases loaded with
    | none => cases h
    | some bytes =>
      obtain ⟨blob, hdecode, h⟩ := bind_eq_ok.mp h
      obtain ⟨key, hopens, h⟩ := bind_eq_ok.mp h
      obtain ⟨migrated, hmigrate, h⟩ := bind_eq_ok.mp h
      obtain ⟨restocked, hrestock, h⟩ := bind_eq_ok.mp h
      obtain ⟨saved, hsave, h⟩ := bind_eq_ok.mp h
      cases h
      obtain ⟨-, nonce, rfl⟩ := decode_ok hdecode
      have hmigrated := migrate_keeps hmigrate
      obtain ⟨hrestocked, hstocked⟩ := restock_keeps hrestock
      rw [save_ok hsave]
      refine .opened blob restocked nonce key (load_ok hload) ?_ fun hnone hfollows => ?_
      · rw [hrestocked, hmigrated]
        exact hopens
      · intro secret hsecret
        have hlabel : secret ∈ blob.labels := by
          rw [hrestocked, hmigrated] at hsecret
          exact hsecret
        have hlocked : vault.key = none := by simpa using hkey
        have hcarried := mem_migrated hmigrate (hnone hcall hlocked blob nonce (load_ok hload))
          hfollows secret hlabel
        rw [hstocked (List.ne_nil_of_mem hcarried)]
        exact hcarried

/-- An all-or-nothing program makes the changes that its function makes. -/
theorem change_of_settled {result : Except String (Vault N)}
    (hprogram : vault.after (program call.1 call.2) = vault.settleUnit result)
    (hchange : ∀ vault', result = .ok vault' → Change vault call vault') :
    Change vault call (vault.performed call) ∧ vault.AllOrNothing call := by
  unfold AllOrNothing performed outcome
  rw [hprogram]
  cases result with
  | error e => exact ⟨.same, fun _ _ _ => rfl⟩
  | ok vault' => exact ⟨hchange vault' rfl, nofun⟩

theorem after_discard {α : Type} {result : Except String (Vault N × α)} {program : InPlace N α}
    (h : vault.after program = vault.settle result) :
    vault.after (do let _ ← program) = vault.settleUnit (result.map Prod.fst) := by
  rw [after_bind, h]
  cases result <;> rfl

/-- What any operation can leave, and that an error leaves the vault alone. -/
theorem performed_change (vault : Vault N) (call : VaultCall N) :
    Change vault call (vault.performed call) ∧ vault.AllOrNothing call := by
  obtain ⟨env, op⟩ := call
  cases op with
  | setup key => exact change_of_settled (setup_inPlace key) fun _ h => change_setup h
  | unlock => exact change_of_settled unlock_inPlace fun _ h => change_unlock rfl h
  | lock => exact ⟨.locked, nofun⟩
  | mintSecret label =>
    refine change_of_settled (after_discard (mintSecret_inPlace label)) fun vault' h => ?_
    obtain ⟨done, hdone, rfl⟩ := map_eq_ok.mp h
    exact change_mintSecret hdone
  | burnSecret secret =>
    refine change_of_settled (after_discard (burnSecret_inPlace secret)) fun vault' h => ?_
    obtain ⟨done, hdone, rfl⟩ := map_eq_ok.mp h
    exact change_burnSecret hdone
  | rotateSecret =>
    refine change_of_settled (after_discard rotateSecret_inPlace) fun vault' h => ?_
    obtain ⟨done, hdone, rfl⟩ := map_eq_ok.mp h
    exact change_rotateSecret hdone
  | destroy =>
    refine ⟨?_, fun h => absurd rfl h⟩
    unfold performed program
    rw [destroy_inPlace]
    unfold destroy
    split
    · exact .destroyed none (.inl rfl)
    · exact .destroyed vault.store (.inr rfl)

/-- The vault mirrors its store, and holds no label over an empty one. -/
structure Sound (vault : Vault N) : Prop where
  mirrors : vault.Mirrors
  empty : vault.store = none → vault.labels = ∅

theorem Sound.performed (hopens : N.NcryptsecOpens) (h : vault.Sound) (call : VaultCall N) :
    (vault.performed call).Sound := by
  have hchange := (performed_change vault call).1
  generalize vault.performed call = vault' at hchange
  cases hchange with
  | same => exact h
  | locked => exact ⟨nofun, h.empty⟩
  | provisioned blob key hempty hunlabelled hkey =>
    refine ⟨fun key' hkey' => ?_, nofun⟩
    cases hkey'
    exact ⟨blob, rfl, rfl, (h.empty hempty).trans hunlabelled.symm, hkey hopens⟩
  | opened blob blob' nonce key hstored hkey =>
    refine ⟨fun key' hkey' => ?_, nofun⟩
    cases hkey'
    exact ⟨blob', rfl, rfl, rfl, hkey⟩
  | rewritten blob blob' nonce hstored hwrap hncryptsec =>
    refine ⟨fun key hkey => ?_, nofun⟩
    obtain ⟨held, hheld, -, -, hopened⟩ := h.mirrors key hkey
    cases hstored.symm.trans hheld
    exact ⟨blob', rfl, rfl, rfl, by rw [hwrap, hncryptsec]; exact hopened⟩
  | destroyed store => exact ⟨nofun, fun _ => rfl⟩

theorem LabelsOutstanding.performed (h : vault.LabelsOutstanding)
    (hkept : vault.NoneStranded call) : (vault.performed call).LabelsOutstanding := by
  have hchange := (performed_change vault call).1
  generalize vault.performed call = vault' at hchange
  cases hchange with
  | same => exact h
  | locked => exact h
  | provisioned blob key hempty hunlabelled =>
    intro blob' nonce hstored secret hsecret
    cases hstored
    rw [hunlabelled] at hsecret
    exact absurd hsecret (AList.notMem_empty secret)
  | opened blob blob' nonce key hstored hkey hfollows =>
    intro written nonce' hwritten
    cases hwritten
    exact hfollows hkept (h blob nonce hstored)
  | rewritten blob blob' nonce hstored hwrap hncryptsec hfollows =>
    intro written nonce' hwritten
    cases hwritten
    exact hfollows (h blob nonce hstored)
  | destroyed store hgone =>
    intro blob nonce hstored
    rcases hgone with rfl | rfl
    · cases hstored
    · exact h blob nonce hstored

/-- Whatever calls to the store fail: while the vault is unlocked its memory mirrors its store,
and an error of anything but a destroy changes nothing. Of labels that all name outstanding
secrets none loses its secret, unless an unlock migrates a labelled blob of version 1 or 2. -/
theorem mirrors_and_atomic (hopens : N.NcryptsecOpens) (store : SecretStore)
    (calls : List (VaultCall N)) :
    (∀ pre, pre <+: calls → (run performed (new store) pre).Mirrors) ∧
      Along performed AllOrNothing (new store) calls ∧
      ((new store : Vault N).LabelsOutstanding → Along performed NoneStranded (new store) calls →
        ∀ pre, pre <+: calls → (run performed (new store) pre).LabelsOutstanding) := by
  refine ⟨fun pre _ => ?_, fun visit _ => (performed_change visit.1 visit.2).2, ?_⟩
  · have hnew : (new store : Vault N).Sound := ⟨nofun, fun _ => rfl⟩
    have hsound : (run performed (new store) pre).Sound :=
      run_invariant (P := fun _ _ => True) (fun _ call h _ => h.performed hopens call) hnew
        fun _ _ => trivial
    exact hsound.mirrors
  · intro hlabels hkept pre hpre
    exact run_invariant (fun _ _ h hkept => h.performed hkept) hlabels (hkept.initial hpre)

theorem plain_ncryptsecOpens (texts : List (String × Json × Option Message)) :
    (Crate.plain texts).NcryptsecOpens := by
  intro entropy key wrap text h
  cases h
  rfl

/-- A stored blob of one version, with one secret and no label. -/
private def stocked (v : ℕ) (secrets : List String) (nonce : Option String) : SecretStore :=
  some (.blob ⟨v, "wrap", "key", "pub-key", secrets, ∅⟩ nonce)

private theorem labelsOutstanding_stocked (v : ℕ) (secrets : List String) (nonce : Option String) :
    (new (stocked v secrets nonce) : Vault N).LabelsOutstanding := by
  intro blob nonce hstored secret hsecret
  cases hstored
  exact absurd hsecret (AList.notMem_empty secret)

theorem mirrors_and_atomic_labelled :
    let calls : List (VaultCall (Crate.plain [])) :=
      [(.plain [] 1, .unlock), (.plain [] 2, .mintSecret (some "phone"))]
    (run performed (new (stocked 3 ["old"] none)) calls).LabelsOutstanding := by
  intro calls
  have hkept : Along performed NoneStranded (new (stocked 3 ["old"] none)) calls := by
    refine along_cons.mpr ⟨fun _ _ blob nonce hstored hold => ?_, along_cons.mpr ⟨nofun, ?_⟩⟩
    · cases hstored
      exact absurd hold (by decide)
    · exact Kuma.Lib.along_nil _
  exact (mirrors_and_atomic (plain_ncryptsecOpens []) _ calls).2.2
    (labelsOutstanding_stocked 3 ["old"] none) hkept calls List.prefix_rfl

/-- A labelled mint into a version 2 blob drops the nonce, and the unlock that migrates the blob
drops the minted secret and keeps its label. -/
theorem label_outlives_secret :
    let calls : List (VaultCall (Crate.plain [])) :=
      [(.plain [] 1, .mintSecret (some "phone")), (.plain [] 2, .unlock)]
    (new (stocked 2 [] (some "nonce")) : Vault (Crate.plain [])).LabelsOutstanding ∧
      ¬(run performed (new (stocked 2 [] (some "nonce"))) calls).LabelsOutstanding := by
  intro calls
  refine ⟨labelsOutstanding_stocked 2 [] (some "nonce"), fun h => ?_⟩
  obtain ⟨blob, hstored, hlabel, hburned⟩ : ∃ blob,
      (run performed (new (stocked 2 [] (some "nonce"))) calls).store = some (.blob blob none) ∧
        "1-0" ∈ blob.labels ∧ "1-0" ∉ blob.secrets :=
    ⟨_, rfl, by decide +kernel, by decide +kernel⟩
  exact hburned (h blob none hstored "1-0" hlabel)

end Vault
end Kuma.Nostr
