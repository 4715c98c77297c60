import Kuma.Lib.OneTime
import Kuma.Nostr.Steps

/-! Pairing secrets as one-time tokens. The store, the vault's mirror and the bunker's live
list are the books; what each verb, each planned event and the burn do to them. -/
namespace Kuma.Nostr
open Kuma.Lib

variable {N : Crate} {env : Env N}

/-- The secret whose stored copy a worker has still to burn. -/
def Worker.owes : Worker N → Option String
  | .pairing _ _ _ burned _ => burned.map Outstanding.secret
  | .burning _ burned => some burned.secret
  | _ => none

/-- No call an action makes to the secret store fails. -/
def Action.StoreWorks : Action N → Prop
  | .verb env _ | .watchdog env | .recv env _ | .beat env | .startup env | .restart env =>
    ∀ n, env.store n = .working

/-- The draws an action may turn into secrets. -/
def Action.draws : Action N → List String
  | .verb env (.setup _) => (env.wraps 1).toOption.toList
  | .verb env .unlock | .verb env .rotate | .verb env (.mint _) | .startup env =>
    (env.wraps 0).toOption.toList
  | _ => []

namespace Daemon

variable {d : Daemon N} {request : Request} {vault : Vault N} {key : N.SecretKey}

/-- The secrets a connect can spend. -/
def live (d : Daemon N) : List String :=
  (d.bunker.map fun b => b.expectedSecrets.map Outstanding.secret).getD []

theorem live_of_kept {d' : Daemon N} (change : Bunker N → Bunker N)
    (hchange : ∀ b, (change b).expectedSecrets = b.expectedSecrets)
    (hbunker : d'.bunker = d.bunker.map change) : d'.live = d.live := by
  simp [live, hbunker, Function.comp_def, hchange]

theorem live_of_none (h : d.bunker = none) : d.live = [] := by simp [live, h]

theorem live_of_some {b : Bunker N} (h : d.bunker = some b) :
    d.live = b.expectedSecrets.map Outstanding.secret := by simp [live, h]

/-- What an arming makes of the vault: as it was, or holding old secrets beside a draw. -/
theorem opening_vault (h : d.opening env request = some (vault, key)) :
    request = .unlock ∧ vault = d.vault ∨ ∃ kept new : List String, vault.Holds (kept ++ new) ∧
      kept.Sublist d.vault.stock ∧ new.Sublist (Action.verb env request).draws ∧
      (request ≠ .unlock → kept = []) := by
  cases request with
  | setup mode =>
    obtain ⟨key', -, h⟩ := Option.bind_eq_some_iff.mp h
    obtain ⟨vault', hv, h⟩ := Option.bind_eq_some_iff.mp h
    cases h
    obtain ⟨secret, hdraw, hholds, -⟩ := Vault.setup_ok (toOption_eq_some.mp hv)
    exact .inr ⟨[], [secret], hholds, List.nil_sublist _,
      by simp [Action.draws, hdraw, Except.toOption], fun _ => rfl⟩
  | rotate =>
    obtain ⟨key', -, h⟩ := Option.bind_eq_some_iff.mp h
    obtain ⟨rotated, hv, h⟩ := Option.bind_eq_some_iff.mp h
    cases h
    obtain ⟨hdraw, hholds, -⟩ := Vault.rotateSecret_ok (toOption_eq_some.mp hv)
    exact .inr ⟨[], [rotated.2], hholds, List.nil_sublist _,
      by simp [Action.draws, hdraw, Except.toOption], fun _ => rfl⟩
  | unlock =>
    obtain ⟨vault', hv, h⟩ := Option.bind_eq_some_iff.mp h
    obtain ⟨key', -, h⟩ := Option.bind_eq_some_iff.mp h
    cases h
    obtain ⟨-, hsame | ⟨-, blob, nonce, secrets, hstore, hholds, hcarried⟩⟩ :=
      Vault.unlock_ok (toOption_eq_some.mp hv)
    · exact .inl ⟨rfl, hsame⟩
    · have hstock : d.vault.stock = blob.secrets ++ nonce.toList := by
        simp [Vault.stock, hstore, Payload.secrets]
      refine .inr ?_
      cases hcarried with
      | kept =>
        exact ⟨blob.secrets, [], by simpa using hholds,
          hstock ▸ List.sublist_append_left _ _, List.nil_sublist _, fun h => absurd rfl h⟩
      | nonce =>
        exact ⟨nonce.toList, [], by simpa using hholds,
          hstock ▸ List.sublist_append_right _ _, List.nil_sublist _, fun h => absurd rfl h⟩
      | drawn fresh hdraw =>
        exact ⟨[], [fresh], hholds, List.nil_sublist _,
          by simp [Action.draws, hdraw, Except.toOption], fun _ => rfl⟩
  | _ => cases h

/-- An arming, as a step of the books. -/
theorem opening_books (h : d.opening env request = some (vault, key)) {live : List String}
    (hlive : live.Sublist vault.secrets) (owed : Option String)
    (hsettled : request = .unlock → ∀ secret, owed = some secret → secret ∉ d.vault.stock) :
    OneTime.Step (Action.verb env request).draws ⟨d.vault.stock, d.vault.secrets, d.live, owed⟩ none
      ⟨vault.stock, vault.secrets, live, owed⟩ := by
  rcases opening_vault h with ⟨rfl, rfl⟩ | ⟨kept, new, hholds, hold, hnew, hrest⟩
  · exact .rearm live hlive (hsettled rfl)
  · rw [hholds.stock]
    rw [hholds.mirrored] at hlive ⊢
    refine .restock kept new live hold hnew hlive fun secret howed hmem => ?_
    by_cases hunlock : request = .unlock
    · exact hsettled hunlock secret howed (hold.subset hmem)
    · rw [hrest hunlock] at hmem
      cases hmem

theorem opening_readable (h : d.opening env request = some (vault, key))
    (hread : d.vault.key.isSome → d.vault.Readable) : vault.Readable := by
  rcases opening_vault h with ⟨rfl, rfl⟩ | ⟨kept, new, hholds, -⟩
  · exact hread (by simp [opening_key h])
  · exact hholds.readable

/-- The verbs that copy stored secrets over the live ones. -/
def copies (env : Env N) (d : Daemon N) : Request → Bool
  | .unlock => (d.opening env .unlock).isSome
  | .mint label => d.bunker.isSome && (d.vault.mintSecret env label).toOption.isSome
  | _ => false

variable {d' : Daemon N} {response : Response}

/-- A verb that answers, as a step of the books. -/
theorem Handled.books (h : Handled env d request d' response) (owed : Option String)
    (hsettled : d.copies env request = true → ∀ secret, owed = some secret →
      secret ∉ d.vault.stock) :
    OneTime.Step (Action.verb env request).draws ⟨d.vault.stock, d.vault.secrets, d.live, owed⟩ none
      ⟨d'.vault.stock, d'.vault.secrets, d'.live, owed⟩ := by
  cases h.outlined with
  | kept change reshuffles vault bunker _ =>
    rw [vault, live_of_kept change reshuffles.expectedSecrets bunker]
    exact .refl _ _
  | minted label b vault secret uri armed drawn =>
    obtain ⟨blob, nonce, hstore, hdraw, hholds, -⟩ := Vault.mintSecret_ok drawn
    have hstock : d.vault.stock = blob.secrets ++ nonce.toList := by
      simp [Vault.stock, hstore, Payload.secrets]
    have hold : blob.secrets.Sublist d.vault.stock := hstock ▸ List.sublist_append_left _ _
    have hlive : ({ d with vault, bunker := some (b.withSecrets vault.outstanding) } :
        Daemon N).live = blob.secrets ++ [secret] := by
      simp [live, Bunker.withSecrets, Vault.outstanding_secrets, hholds.mirrored]
    rw [hlive, hholds.stock, hholds.mirrored]
    refine .restock blob.secrets [secret] _ hold (by simp [Action.draws, hdraw, Except.toOption])
      (.refl _) fun t howed hmem => ?_
    exact hsettled (by simp [copies, armed, drawn, Except.toOption]) t howed (hold.subset hmem)
  | closed _ secrets store bunker _ =>
    rw [live_of_none bunker]
    have hstock : d'.vault.stock.Sublist d.vault.stock := by
      rcases store with hnone | hsame
      · simp [Vault.stock, hnone]
      · simp [Vault.stock, hsame]
    refine .wane hstock ?_ (List.nil_sublist _) (.inl rfl)
    rcases secrets with hnone | ⟨hsame, hstore⟩
    · exact .inr (.inr hnone)
    · exact .inl ⟨hsame, by simp [Vault.stock, hstore]⟩
  | armed vault key how _ holds bunker _ =>
    rw [holds, live_of_some bunker, freshBunker_expectedSecrets, Vault.outstanding_secrets]
    refine opening_books how (.refl _) owed ?_
    rintro rfl
    exact hsettled (by simp [copies, how])

/-- A verb that panics, as a step of the books. -/
theorem panicked_books (h : (d.handle env request).2 = none) {owed : Option String}
    (howed : owed = none) :
    OneTime.Step (Action.verb env request).draws ⟨d.vault.stock, d.vault.secrets, d.live, owed⟩ none
      ⟨(d.handle env request).1.vault.stock, (d.handle env request).1.vault.secrets,
        (d.handle env request).1.live, owed⟩ := by
  subst howed
  rcases handle_panicked h with ⟨vault, key, how, hvault, hnone⟩ | ⟨hvault, sessions, hbunker⟩
  · rw [hvault, live_of_none hnone]
    exact opening_books how (List.nil_sublist _) none fun _ _ => nofun
  · rw [hvault, live_of_kept (fun b => { b with sessions := sessions b }) (fun _ => rfl) hbunker]
    exact .refl _ _

/-- The store stays readable for as long as somebody counts on it. -/
theorem Handled.readable (h : Handled env d request d' response) {owed : Prop}
    (hread : owed ∨ d.bunker.isSome ∨ d.vault.key.isSome → d.vault.Readable) :
    owed ∨ d'.bunker.isSome ∨ d'.vault.key.isSome → d'.vault.Readable := by
  cases h.outlined with
  | kept change _ vault bunker _ =>
    rw [vault, bunker, Option.isSome_map]
    exact hread
  | minted label b vault secret uri armed drawn =>
    obtain ⟨blob, nonce, -, -, hholds, -⟩ := Vault.mintSecret_ok drawn
    exact fun _ => hholds.readable
  | closed key _ store bunker _ =>
    rintro (howed | hbunker | hkey)
    · exact (hread (.inl howed)).of_store store
    · simp [bunker] at hbunker
    · simp [key] at hkey
  | armed vault key how _ holds _ _ =>
    rw [holds]
    exact fun _ => opening_readable how fun hkey => hread (.inr (.inr hkey))

theorem panicked_readable (h : (d.handle env request).2 = none) {owed : Prop}
    (hread : owed ∨ d.bunker.isSome ∨ d.vault.key.isSome → d.vault.Readable) :
    owed ∨ (d.handle env request).1.bunker.isSome ∨ (d.handle env request).1.vault.key.isSome →
      (d.handle env request).1.vault.Readable := by
  rcases handle_panicked h with ⟨vault, key, how, hvault, -⟩ | ⟨hvault, sessions, hbunker⟩
  · rw [hvault]
    exact fun _ => opening_readable how fun hkey => hread (.inr (.inr hkey))
  · rw [hvault, hbunker, Option.isSome_map]
    exact hread

/-- A burn over a store that works settles the debt. -/
theorem burn_books (hwork : env.store 0 = .working) (hread : d.vault.Readable) (secret : String) :
    OneTime.Step [] ⟨d.vault.stock, d.vault.secrets, d.live, some secret⟩ none
      ⟨(d.burn env secret).1.vault.stock, (d.burn env secret).1.vault.secrets,
        (d.burn env secret).1.live, none⟩ := by
  have hlive : (d.burn env secret).1.live = d.live :=
    live_of_kept id (fun _ => rfl) (by simp)
  have hkept : secret ∉ d.vault.stock → OneTime.Step [] ⟨d.vault.stock, d.vault.secrets, d.live,
      some secret⟩ none ⟨d.vault.stock, d.vault.secrets, d.live, none⟩ := fun hnot =>
    .wane (.refl _) (.inl ⟨rfl, rfl⟩) (.refl _) (.inr ⟨rfl, by rintro t ⟨⟩; exact hnot⟩)
  rw [hlive]
  rcases Vault.burnSecret_settles hwork hread secret with
    ⟨⟨error, herror⟩, hempty⟩ | ⟨vault, burned, hok, hsettled⟩
  · have hvault : (d.burn env secret).1.vault = d.vault := by simp [burn, herror]
    rw [hvault]
    exact hkept (by simp [hempty])
  · have hvault : (d.burn env secret).1.vault = vault := by simp [burn, hok]
    rw [hvault]
    rcases hsettled with ⟨rfl, hnot⟩ | hholds
    · exact hkept hnot
    · rw [hholds.stock, hholds.mirrored]
      refine .wane List.filter_sublist (.inr (.inl rfl)) (.refl _) (.inr ⟨rfl, ?_⟩)
      rintro t ⟨⟩
      simp

end Daemon
/-- Planning an event spends the secret it burns, and leaves the rest of the live list. -/
theorem Bunker.Planned.books {b b' : Bunker N} {event : N.Event} {p : Plan N}
    (h : Planned env b event b' p) : p.burns = (Worker.hold p).owes ∧
    match p.burns with
    | some secret => (b.expectedSecrets.map Outstanding.secret).Perm
        (secret :: b'.expectedSecrets.map Outstanding.secret)
    | none => b'.expectedSecrets = b.expectedSecrets := by
  cases h with
  | refused _ => exact ⟨rfl, rfl⟩
  | shed _ _ => exact ⟨rfl, rfl⟩
  | dispatched _ _ _ outcome =>
    cases outcome with
    | opened i burned answer metadata perms _ _ live =>
      obtain ⟨hlt, hburned⟩ := List.getElem?_eq_some_iff.mp live
      refine ⟨rfl, ?_⟩
      rw [← hburned]
      exact ((List.getElem_cons_eraseIdx_perm hlt).map Outstanding.secret).symm
    | closed p goodbye =>
      rcases goodbye with ⟨answer, rfl⟩ | ⟨answer, rfl⟩ | rfl <;> exact ⟨rfl, rfl⟩
    | _ => exact ⟨rfl, rfl⟩

end Kuma.Nostr
