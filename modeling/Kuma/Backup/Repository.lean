import Kuma.Config.Validate
import Kuma.Lib.Url

/-! The repository of a backup: what restic reads its address as, and where the check for a password
takes the address for the same. -/
namespace Kuma.Config
open Kuma.Lib Kuma.Lib.Text Kuma.Overrides Kuma.Sync

/-- What may name a backend or a scheme: no piece of an authority or a path. -/
def isScheme (text : Chars) : Bool := text.all fun c => !(['/', '@', ':'].contains c)

/-- An address behind its backend and an optional scheme, which may be the backend itself. -/
def location (repo : Chars) : Chars :=
  match splitOnce ':' repo with
  | none => repo
  | some (backend, rest) =>
    if isScheme backend then
      match stripPrefix ['/', '/'] rest with
      | some inner => inner
      | none =>
        match splitOnceStr "://".toList rest with
        | some (scheme, inner) => if isScheme scheme then inner else rest
        | none => rest
    else repo

def authority (repo : Chars) : Chars := (location repo).takeWhile (· ≠ '/')

/-- Whether restic reads a password: a colon before the last at-sign of the authority. -/
def holdsPassword (repo : Chars) : Bool := ((authority repo).rdropWhile (· ≠ '@')).contains ':'

/-- There is one colon at most, or the last one opens a `://`. -/
def settled (text : Chars) : Bool :=
  text.count ':' ≤ 1 || ['/', '/'].isPrefixOf (text.rtakeWhile (· ≠ ':'))

/-- What the check takes for the userinfo, of the text before the first at-sign. -/
def behindScheme (before : Chars) : Chars :=
  match splitOnceStr "//:".toList before.reverse with
  | some (reversed, _) => reversed.reverse
  | none => ((splitOnce ':' before).map Prod.snd).getD before

section
variable {p q u repo : Chars}

theorem userinfo_eq (repo : String) :
    userinfo repo = (splitOnce '@' repo.toList).map fun p => behindScheme p.1 := rfl

theorem settled_append (hq : ':' ∉ q) :
    settled (p ++ ':' :: q) = true ↔ ':' ∉ p ∨ ['/', '/'] <+: q := by
  have htail : (p ++ ':' :: q).rtakeWhile (· ≠ ':') = q := by
    have hreverse : (p ++ ':' :: q).reverse = q.reverse ++ ':' :: p.reverse := by simp
    have htake : (q.reverse ++ ':' :: p.reverse).takeWhile (· ≠ ':') = q.reverse :=
      Url.takeWhile_ne_eq_iff.mpr
        ⟨fun hmem => hq (List.mem_reverse.mp hmem), .inr ⟨p.reverse, rfl⟩⟩
    rw [List.rtakeWhile, hreverse, htake, List.reverse_reverse]
  have hcount : (p ++ ':' :: q).count ':' ≤ 1 ↔ ':' ∉ p := by
    rw [List.count_append, List.count_cons_self, List.count_eq_zero.mpr hq, ← List.count_eq_zero]
    omega
  unfold settled
  rw [htail, Bool.or_eq_true, decide_eq_true_eq, hcount, List.isPrefixOf_iff_prefix]

theorem settled_of_notMem (h : ':' ∉ u) : settled u = true := by
  have hcount := List.count_eq_zero.mpr h
  unfold settled
  rw [hcount]
  rfl

/-- The last colon of a text. -/
theorem exists_last_colon (h : ':' ∈ u) : ∃ p q, u = p ++ ':' :: q ∧ ':' ∉ q := by
  obtain ⟨q, p, hu, hq⟩ := List.eq_append_cons_of_mem (List.mem_reverse.mpr h)
  refine ⟨p.reverse, q.reverse, ?_, fun hmem => hq (List.mem_reverse.mp hmem)⟩
  rw [← List.reverse_reverse u, hu]
  simp

/-- A colon behind another, with no slash after it, opens nothing. -/
theorem not_settled_append (hp : ':' ∈ p) (hu : ':' ∈ u) (hslash : '/' ∉ u) :
    settled (p ++ u) = false := by
  obtain ⟨x, q, rfl, hq⟩ := exists_last_colon hu
  rw [← List.append_assoc, Bool.eq_false_iff, ne_eq, settled_append hq, not_or]
  constructor
  · simp [hp]
  · rintro ⟨t, rfl⟩
    simp at hslash

/-- Where the check sees a colon in what it takes for the userinfo. -/
theorem colon_behindScheme (before : Chars) :
    ':' ∈ behindScheme before ↔ settled before = false := by
  have hfound : ∀ {p q}, before = p ++ ':' :: '/' :: '/' :: q → ∃ a b,
      splitOnceStr "//:".toList before.reverse = some (a, b) ∧ a.length ≤ q.length := by
    intro p q h
    have hreverse : before.reverse = q.reverse ++ "//:".toList ++ p.reverse := by
      rw [h]
      simp
    obtain ⟨a, b, hsplit, hle⟩ := splitOnceStr_first hreverse
    exact ⟨a, b, hsplit, by simpa using hle⟩
  unfold behindScheme
  cases hsplit : splitOnceStr "//:".toList before.reverse with
  | some pair =>
    obtain ⟨r, s⟩ := pair
    have hbefore : before = s.reverse ++ ':' :: '/' :: '/' :: r.reverse := by
      rw [← List.reverse_reverse before, splitOnceStr_eq_some hsplit]
      simp
    dsimp only
    rw [List.mem_reverse]
    by_cases hr : ':' ∈ r
    · rw [iff_true_left hr]
      obtain ⟨p, q, hu, hq⟩ := exists_last_colon (List.mem_reverse.mpr hr)
      have hlast : before = (s.reverse ++ ':' :: '/' :: '/' :: p) ++ ':' :: q := by
        rw [hbefore, hu]
        simp
      rw [hlast, Bool.eq_false_iff, ne_eq, settled_append hq, not_or]
      refine ⟨by simp, ?_⟩
      rintro ⟨t, rfl⟩
      -- a later `://` would have been found first
      obtain ⟨a, b, hfirst, hle⟩ := hfound (q := t) hlast
      obtain ⟨rfl, rfl⟩ := Prod.mk.inj (Option.some.inj (hsplit.symm.trans hfirst))
      have hlength := congrArg List.length hu
      simp only [List.length_reverse, List.length_append, List.length_cons] at hlength
      omega
    · have hsettled : settled before = true := by
        rw [hbefore, settled_append (by simpa using hr)]
        exact .inr ⟨r.reverse, rfl⟩
      rw [iff_false_left hr, hsettled]
      decide
  | none =>
    dsimp only
    cases hcolon : splitOnce ':' before with
    | none =>
      have hnone := splitOnce_eq_none.mp hcolon
      rw [Option.map_none, Option.getD_none, iff_false_left hnone, settled_of_notMem hnone]
      decide
    | some pair =>
      obtain ⟨x, y⟩ := pair
      obtain ⟨rfl, hx⟩ := splitOnce_eq_some hcolon
      rw [Option.map_some, Option.getD_some]
      by_cases hy : ':' ∈ y
      · rw [iff_true_left hy]
        obtain ⟨p, q, rfl, hq⟩ := exists_last_colon hy
        have hlast : x ++ ':' :: (p ++ ':' :: q) = (x ++ ':' :: p) ++ ':' :: q := by simp
        rw [hlast, Bool.eq_false_iff, ne_eq, settled_append hq, not_or]
        refine ⟨by simp, ?_⟩
        rintro ⟨t, rfl⟩
        obtain ⟨a, b, hfirst, -⟩ := hfound hlast
        rw [hsplit] at hfirst
        cases hfirst
      · have hsettled : settled (x ++ ':' :: y) = true := (settled_append hy).mpr (.inl hx)
        rw [iff_false_left hy, hsettled]
        decide

/-- What stands before an address: no at-sign, and nothing that unsettles a userinfo. -/
theorem location_spec (repo : Chars) : ∃ start, repo = start ++ location repo ∧ '@' ∉ start ∧
    ∀ u, u <+: location repo → '/' ∉ u → '@' ∉ u → (settled (start ++ u) = true ↔ ':' ∉ u) := by
  have hscheme : ∀ {text : Chars}, isScheme text = true ↔ '/' ∉ text ∧ '@' ∉ text ∧ ':' ∉ text := by
    intro text
    unfold isScheme
    rw [List.all_eq_true]
    constructor
    · intro h
      refine ⟨fun hmem => ?_, fun hmem => ?_, fun hmem => ?_⟩ <;> exact absurd (h _ hmem) (by decide)
    · rintro ⟨hslash, hat, hcolon⟩ c hc
      have hne : c ≠ '/' ∧ c ≠ '@' ∧ c ≠ ':' := by
        refine ⟨?_, ?_, ?_⟩ <;> rintro rfl <;> contradiction
      simp [hne]
  have hbehind : ∀ {start u : Chars}, ':' ∈ start → '/' ∉ u →
      (':' ∉ u → settled (start ++ u) = true) → (settled (start ++ u) = true ↔ ':' ∉ u) := by
    intro start u hstart hslash hsettled
    refine ⟨fun h hu => ?_, hsettled⟩
    rw [not_settled_append hstart hu hslash] at h
    cases h
  unfold location
  cases hsplit : splitOnce ':' repo with
  | none =>
    have hnone := splitOnce_eq_none.mp hsplit
    refine ⟨[], rfl, List.not_mem_nil, fun u hu _ _ => ?_⟩
    have hnot : ':' ∉ u := fun hmem => hnone (hu.subset hmem)
    exact iff_of_true (settled_of_notMem hnot) hnot
  | some pair =>
    obtain ⟨backend, rest⟩ := pair
    obtain ⟨hrepo, hbackend⟩ := splitOnce_eq_some hsplit
    dsimp only
    split_ifs with hname
    · obtain ⟨-, hat, -⟩ := hscheme.mp hname
      split
      · next inner hinner =>
        have hrest : rest = '/' :: '/' :: inner := stripPrefix_eq_some.mp hinner
        refine ⟨backend ++ "://".toList, by simp [hrepo, hrest], by simp [hat],
          fun u _ hslash _ => hbehind (by simp) hslash fun hu => ?_⟩
        have hsettled : settled (backend ++ ':' :: ('/' :: '/' :: u)) = true :=
          (settled_append (by simpa using hu)).mpr (.inl hbackend)
        simpa using hsettled
      · have hplain : ∃ start, repo = start ++ rest ∧ '@' ∉ start ∧ ∀ u, u <+: rest → '/' ∉ u →
            '@' ∉ u → (settled (start ++ u) = true ↔ ':' ∉ u) := by
          refine ⟨backend ++ [':'], by simp [hrepo], by simp [hat],
            fun u _ hslash _ => hbehind (by simp) hslash fun hu => ?_⟩
          have hsettled : settled (backend ++ ':' :: u) = true :=
            (settled_append hu).mpr (.inl hbackend)
          simpa using hsettled
        split
        · next scheme inner hinner =>
          split_ifs with hscheme'
          · obtain ⟨-, hat', -⟩ := hscheme.mp hscheme'
            have hrest := splitOnceStr_eq_some hinner
            refine ⟨backend ++ ':' :: scheme ++ "://".toList, by simp [hrepo, hrest],
              by simp [hat, hat'], fun u _ hslash _ => hbehind (by simp) hslash fun hu => ?_⟩
            have hsettled : settled ((backend ++ ':' :: scheme) ++ ':' :: ('/' :: '/' :: u)) = true :=
              (settled_append (by simpa using hu)).mpr (.inr ⟨u, rfl⟩)
            simpa using hsettled
          · exact hplain
        · exact hplain
    · refine ⟨[], rfl, List.not_mem_nil, fun u hu hslash hat => ?_⟩
      have hnot : ':' ∉ u := by
        intro hmem
        obtain ⟨x, y, rfl, hx⟩ := List.eq_append_cons_of_mem hmem
        obtain ⟨t, ht⟩ := hu
        have hsame : splitOnce ':' repo = some (x, y ++ t) := by
          rw [← ht, List.append_assoc, List.cons_append, splitOnce_append hx]
        obtain rfl : backend = x := (Prod.mk.inj (Option.some.inj (hsplit.symm.trans hsame))).1
        apply hname
        rw [hscheme]
        simp only [List.mem_append, not_or] at hslash hat
        exact ⟨hslash.1, hat.1, hx⟩
      exact iff_of_true (settled_of_notMem hnot) hnot

/-- The check refuses an address for the text before its first at-sign. -/
theorem takesPassword_iff (repo : String) : (userinfo repo).any (·.contains ':') = true ↔
    '@' ∈ repo.toList ∧ settled (repo.toList.takeWhile (· ≠ '@')) = false := by
  rw [userinfo_eq]
  cases hsplit : splitOnce '@' repo.toList with
  | none => simp [splitOnce_eq_none.mp hsplit]
  | some pair =>
    obtain ⟨before, after⟩ := pair
    obtain ⟨hrepo, hbefore⟩ := splitOnce_eq_some hsplit
    have htake : repo.toList.takeWhile (· ≠ '@') = before :=
      Url.takeWhile_ne_eq_iff.mpr ⟨hbefore, .inr ⟨after, hrepo⟩⟩
    rw [htake, Option.map_some, Option.any_some, List.contains_iff_mem, colon_behindScheme]
    simp [hrepo]

/-- An at-sign in the authority is the first of the address. -/
theorem settled_iff_authority (hat : '@' ∈ authority repo) :
    settled (repo.takeWhile (· ≠ '@')) = true ↔ ':' ∉ (authority repo).takeWhile (· ≠ '@') := by
  obtain ⟨start, hrepo, hstart, hspec⟩ := location_spec repo
  obtain ⟨u, t, hauthority, hu⟩ := List.eq_append_cons_of_mem hat
  have hprefix : authority repo <+: location repo := List.takeWhile_prefix _
  have hslash : '/' ∉ u := by
    intro hmem
    have hmem' : '/' ∈ authority repo := by
      rw [hauthority]
      exact List.mem_append_left _ hmem
    simpa using List.mem_takeWhile_imp hmem'
  have hbefore : repo.takeWhile (· ≠ '@') = start ++ u := by
    obtain ⟨t', ht'⟩ := hprefix
    refine Url.takeWhile_ne_eq_iff.mpr ⟨by simp [hstart, hu], .inr ⟨t ++ t', ?_⟩⟩
    rw [hauthority] at ht'
    nth_rewrite 1 [hrepo]
    rw [← ht']
    simp
  have htake : (authority repo).takeWhile (· ≠ '@') = u :=
    Url.takeWhile_ne_eq_iff.mpr ⟨hu, .inr ⟨t, hauthority⟩⟩
  have hu' : u <+: location repo :=
    (hauthority ▸ List.prefix_append u _ : u <+: authority repo).trans hprefix
  rw [hbefore, htake]
  exact hspec u hu' hslash hu

theorem holdsPassword_of_notMem (h : '@' ∉ authority repo) : holdsPassword repo = false := by
  have hnil : (authority repo).rdropWhile (· ≠ '@') = [] := by
    rw [List.rdropWhile_eq_nil_iff]
    intro c hc
    exact decide_eq_true fun heq => h (heq ▸ hc)
  unfold holdsPassword
  rw [hnil]
  rfl

end

/-- A check that finds no password in an address. -/
def Blind (x : Except Fault Unit) : Prop := x ≠ .error .backupRepoPassword

namespace Blind

variable {x : Except Fault Unit} {f : Unit → Except Fault Unit} {fault : Fault}

theorem ok : Blind (.ok ()) := by
  intro h
  cases h

theorem seq (hx : Blind x) (hf : Blind (f ())) : Blind (x >>= f) := by
  intro h
  rcases bind_eq_error.mp h with h | ⟨⟨⟩, -, h⟩
  · exact hx h
  · exact hf h

theorem loop {α : Type} {g : α → Except Fault Unit} {l : List α} (h : ∀ a, Blind (g a)) :
    Blind (l.forM g) := by
  intro hl
  obtain ⟨a, -, ha⟩ := forM_eq_error hl
  exact h a ha

theorem mapError {ε : Type} {y : Except ε Unit} {g : ε → Fault}
    (h : ∀ e, g e ≠ .backupRepoPassword) : Blind (y.mapError g) := by
  intro hy
  obtain ⟨e, -, he⟩ := mapError_eq_error.mp hy
  exact h e he

theorem named (value field : String) (extra : List Char) : Blind (Config.named value field extra) :=
  mapError fun _ => Fault.noConfusion

theorem refuseIf {wrong : Prop} [Decidable wrong] (h : fault ≠ .backupRepoPassword) :
    Blind (Config.refuseIf wrong fault) := by
  unfold Config.refuseIf
  split_ifs
  · exact fun heq => h (Except.error.inj heq)
  · exact ok

theorem system (system : System) : Blind system.validate := by
  have hnames : ∀ {value : Option String} {field : String} {extra : List Char},
      Blind (value.toList.forM fun name => Config.named name field extra) :=
    loop fun _ => named _ _ _
  unfold System.validate
  apply seq hnames
  apply seq
  · exact loop fun _ => seq (refuseIf Fault.noConfusion) (loop fun _ => refuseIf Fault.noConfusion)
  · exact seq hnames (seq hnames (seq hnames hnames))

theorem user (user : User) : Blind user.validate := by
  unfold User.validate
  apply seq (named _ _ _)
  apply seq (loop fun _ => named _ _ _)
  apply seq (loop fun _ => named _ _ _)
  apply seq
  · exact loop fun _ => seq (named _ _ _) (refuseIf Fault.noConfusion)
  · exact loop fun _ => refuseIf Fault.noConfusion

theorem packages (packages : Packages) : Blind packages.validate :=
  seq (loop fun _ => named _ _ _) (seq (loop fun _ => named _ _ _) (loop fun _ => named _ _ _))

theorem certificate (entry : String × String) : Blind (validateCertificate entry) :=
  seq (named _ _ _) (seq (refuseIf Fault.noConfusion) (refuseIf Fault.noConfusion))

theorem snapshots (snapshots : Snapshots) : Blind snapshots.validate := by
  unfold Snapshots.validate
  split_ifs
  · exact seq (refuseIf Fault.noConfusion)
      (seq (named _ _ _) (seq (named _ _ _) (refuseIf Fault.noConfusion)))
  · exact ok

theorem nostr (nostr : Nostr) (desktop : Desktop) : Blind (nostr.validate desktop) := by
  unfold Nostr.validate
  split_ifs
  · apply seq (refuseIf Fault.noConfusion)
    apply seq (loop fun _ => mapError fun _ => Fault.noConfusion)
    exact loop fun _ => refuseIf Fault.noConfusion
  · exact ok

end Blind

/-- Only the check of the repository speaks of a password. -/
theorem takesPassword_of_validate {config : Config}
    (h : config.validate = .error .backupRepoPassword) :
    config.backup.enable = true ∧ (userinfo config.backup.repo).any (·.contains ':') = true := by
  by_contra hnot
  apply (?_ : Blind config.validate) h
  have hbackup : Blind (config.backup.validate config.snapshots) := by
    unfold Backup.validate
    split_ifs with henable
    · rw [not_and] at hnot
      apply Blind.seq (Blind.refuseIf Fault.noConfusion)
      apply Blind.seq
      · unfold Config.refuseIf
        rw [if_neg (hnot henable)]
        exact Blind.ok
      apply Blind.seq (Blind.named _ _ _)
      apply Blind.seq (Blind.refuseIf Fault.noConfusion)
      apply Blind.seq (Blind.named _ _ _)
      apply Blind.seq (Blind.named _ _ _)
      apply Blind.seq (Blind.refuseIf Fault.noConfusion)
      exact Blind.loop fun _ => Blind.seq (Blind.refuseIf Fault.noConfusion) (Blind.named _ _ _)
    · exact Blind.ok
  unfold Config.validate Config.validateRest
  apply Blind.seq (Blind.refuseIf Fault.noConfusion)
  apply Blind.seq (Blind.system _)
  apply Blind.seq (Blind.loop Blind.user)
  apply Blind.seq (Blind.packages _)
  apply Blind.seq (Blind.loop fun _ => Blind.named _ _ _)
  apply Blind.seq (Blind.loop Blind.certificate)
  apply Blind.seq (Blind.loop fun _ => Blind.mapError fun _ => Fault.noConfusion)
  apply Blind.seq (Blind.snapshots _)
  exact Blind.seq hbackup (Blind.nostr _ _)

/-- A declaration that says little more than where its backup goes. -/
def backingUp (enable : Bool) (repo : String) : Config :=
  { Config.default with
    snapshots := { Snapshots.default with enable := true }
    backup := { Backup.default with enable := enable, repo := repo } }

/-- The alphabet of an address. -/
def REPO_CHARS : List Char := [':', '/', '.', '-', '_', '@', '+', '~']

section
variable {repo : String}

theorem validate_backingUp (enable : Bool) (repo : String) : (backingUp enable repo).validate =
    (backingUp enable repo).backup.validate (backingUp enable repo).snapshots := by
  have hthen : ∀ {x : Except Fault Unit} {f : Unit → Except Fault Unit}, x = .ok () →
      (x >>= f) = f () := by
    rintro x f rfl
    rfl
  have hsnapshots : ({ Snapshots.default with enable := true } : Snapshots).validate = .ok () := by
    decide +kernel
  have hlast : ∀ x : Except Fault Unit, (x >>= fun _ => Nostr.default.validate .none) = x := by
    rintro (_ | ⟨⟨⟩⟩) <;> rfl
  have hschema : refuseIf ((backingUp enable repo).schemaVersion ≠ CURRENT_SCHEMA)
      (.schema (backingUp enable repo).schemaVersion) = .ok () := refuseIf_eq_ok.mpr fun h => h rfl
  have hsystem : (backingUp enable repo).system.validate = .ok () := rfl
  have huser : (backingUp enable repo).user.toList.forM User.validate = .ok () := rfl
  have hpackages : (backingUp enable repo).packages.validate = .ok () := rfl
  have hservices : (backingUp enable repo).services.validate = .ok () := rfl
  have hcertificates : (backingUp enable repo).system.caCertificates.forM validateCertificate =
      .ok () := rfl
  have hoverrides : ((backingUp enable repo).overrides.forM fun table =>
      (validateOverride table.1 table.2).mapError Fault.override) = .ok () := rfl
  unfold Config.validate Config.validateRest
  rw [hthen hschema, hthen hsystem, hthen huser, hthen hpackages, hthen hservices,
    hthen hcertificates, hthen hoverrides]
  exact (hthen hsnapshots).trans (hlast _)

theorem validate_backup (backup : Backup) (snapshots : Snapshots) (h : backup.enable = true)
    (hvalid : backup.validate snapshots = .ok ()) :
    ¬ (userinfo backup.repo).any (·.contains ':') = true ∧
      validateName backup.repo "backup.repo" REPO_CHARS = .ok () := by
  unfold Backup.validate at hvalid
  rw [if_pos h] at hvalid
  simp only [seq_eq_ok] at hvalid
  obtain ⟨-, hpassword, hname, -⟩ := hvalid
  exact ⟨refuseIf_eq_ok.mp hpassword, mapError_eq_ok.mp hname⟩

/-- An address that the check has nothing against is accepted. -/
theorem backingUp_ok (hrepo : repo ≠ "") (hpassword : ¬ (userinfo repo).any (·.contains ':') = true)
    (hname : validateName repo "backup.repo" REPO_CHARS = .ok ()) :
    (backingUp true repo).validate = .ok () := by
  have hrest : named "backup" "backup.secret" ['.', '-', '_'] = .ok () ∧
      named "daily" "backup.interval" ['*', '-', ':', ' ', ',', '.', '/', '~'] = .ok () := by
    decide +kernel
  have hnamed : named repo "backup.repo" REPO_CHARS = .ok () := mapError_eq_ok.mpr hname
  rw [validate_backingUp]
  unfold Backup.validate
  rw [if_pos (show (backingUp true repo).backup.enable = true from rfl)]
  simp only [seq_eq_ok]
  refine ⟨refuseIf_eq_ok.mpr hrepo, refuseIf_eq_ok.mpr hpassword, hnamed, ?_, hrest.1, hrest.2, ?_⟩
  · rfl
  · exact ⟨rfl, rfl⟩

theorem backingUp_password (hpassword : (userinfo repo).any (·.contains ':') = true) :
    (backingUp true repo).validate = .error .backupRepoPassword := by
  have hrepo : repo ≠ "" := by
    rintro rfl
    cases hpassword
  rw [validate_backingUp]
  unfold Backup.validate
  rw [if_pos (show (backingUp true repo).backup.enable = true from rfl)]
  refine bind_eq_error.mpr (.inr ⟨(), refuseIf_eq_ok.mpr hrepo, bind_eq_error.mpr (.inl ?_)⟩)
  exact if_pos hpassword

end

/-- `Config::validate` is right about an address, whatever else is declared: it accepts none with a
password, and refuses none as one whose authority has no at-sign. -/
def Judged (enable : Bool) (repo : String) : Prop :=
  ∀ config : Config, config.backup.enable = enable → config.backup.repo = repo →
    (config.validate = .ok () → holdsPassword repo.toList = false) ∧
      ('@' ∉ authority repo.toList → config.validate ≠ .error .backupRepoPassword)

/-- What the addresses are like that are told apart. With an at-sign in its authority, an address
that is spelled as one has a colon before the first at-sign, if it has one before the last; with none
there, at most one colon stands before the at-sign of its path, or the last of them opens a `://`.
The address of a backup that is not enabled has no password. -/
def Telling (enable : Bool) (repo : String) : Prop :=
  if enable then
    (validateName repo "backup.repo" REPO_CHARS = .ok () → '@' ∈ authority repo.toList →
      holdsPassword repo.toList = true → ':' ∈ (authority repo.toList).takeWhile (· ≠ '@')) ∧
    ('@' ∉ authority repo.toList → '@' ∈ repo.toList →
      settled (repo.toList.takeWhile (· ≠ '@')) = true)
  else holdsPassword repo.toList = false

theorem mem_of_mem_authority {repo : Chars} {c : Char} (h : c ∈ authority repo) : c ∈ repo := by
  obtain ⟨start, hrepo, -⟩ := location_spec repo
  rw [hrepo]
  exact List.mem_append_right _ ((List.takeWhile_prefix _).subset h)

/-- A repository's address is judged right exactly where its first at-sign and its last colon tell. -/
theorem judged_iff (enable : Bool) (repo : String) : Judged enable repo ↔ Telling enable repo := by
  unfold Telling
  split_ifs with henable
  · subst henable
    constructor
    · intro h
      obtain ⟨haccepts, hrefuses⟩ := h (backingUp true repo) rfl rfl
      refine ⟨fun hname hat hholds => ?_, fun hat hmem => ?_⟩
      · by_contra hcolon
        have hsettled := (settled_iff_authority hat).mpr hcolon
        have hpassword : ¬ (userinfo repo).any (·.contains ':') = true := by
          rw [takesPassword_iff, hsettled]
          simp
        have hrepo : repo ≠ "" := (chars_of_validateName hname).1
        rw [haccepts (backingUp_ok hrepo hpassword hname)] at hholds
        cases hholds
      · by_contra hsettled
        rw [Bool.not_eq_true] at hsettled
        exact hrefuses hat (backingUp_password ((takesPassword_iff repo).mpr ⟨hmem, hsettled⟩))
    · rintro ⟨hfirst, hpath⟩ config henable rfl
      refine ⟨fun hvalid => ?_, fun hat herror => ?_⟩
      · obtain ⟨hpassword, hname⟩ :=
          validate_backup _ _ henable (validated hvalid).backup
        by_contra hholds
        rw [Bool.not_eq_false] at hholds
        have hat : '@' ∈ authority config.backup.repo.toList := by
          by_contra hnot
          rw [holdsPassword_of_notMem hnot] at hholds
          cases hholds
        have hcolon := hfirst hname hat hholds
        rw [takesPassword_iff, not_and, Bool.not_eq_false] at hpassword
        exact (settled_iff_authority hat).mp (hpassword (mem_of_mem_authority hat)) hcolon
      · obtain ⟨hmem, hsettled⟩ :=
          (takesPassword_iff _).mp (takesPassword_of_validate herror).2
        rw [hpath hat hmem] at hsettled
        cases hsettled
  · rw [Bool.not_eq_true] at henable
    subst henable
    constructor
    · intro h
      have haccepted : (backingUp false repo).validate = .ok () := validate_backingUp false repo
      exact (h (backingUp false repo) rfl rfl).1 haccepted
    · rintro hholds config henable rfl
      refine ⟨fun _ => hholds, fun _ herror => ?_⟩
      rw [(takesPassword_of_validate herror).1] at henable
      cases henable

/-- A user name with an at-sign hides the password behind it, and a port before a path with one
passes for a password. -/
theorem not_judged_corp : ¬ Judged true "rest:https://user@corp:secret@host/" ∧
    ¬ Judged true "rest:https://host:8000/bucket@x" := by
  constructor
  · intro h
    have haccepted : (backingUp true "rest:https://user@corp:secret@host/").validate = .ok () := by
      decide +kernel
    have hholds := (h (backingUp true "rest:https://user@corp:secret@host/") rfl rfl).1 haccepted
    revert hholds
    decide +kernel
  · intro h
    apply (h (backingUp true "rest:https://host:8000/bucket@x") rfl rfl).2
    · decide +kernel
    · decide +kernel

end Kuma.Config
