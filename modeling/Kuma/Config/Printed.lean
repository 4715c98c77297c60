import Kuma.Config.Validate
import Kuma.Lib.Fallible

/-! What kuma prints of a declaration that it refuses, and what of it depends on the password
hash. The hash's own check leaves it out of its refusal; the check of names before that one
quotes whatever it refuses. -/
namespace Kuma
open Kuma.Lib Kuma.Overrides Kuma.Sync

/-- `{text:?}`. -/
def quoted (unprintable : Char → Bool) (text : String) : String :=
  String.ofList (Escape.debug unprintable text.toList)

/-- `{ch:?}`: it is the single quote that a character needs escaped. -/
def quotedChar (unprintable : Char → Bool) (ch : Char) : String :=
  "'" ++ (if ch = '\'' then "\\'" else if ch = '"' then "\""
    else String.ofList (Escape.escape unprintable ch)) ++ "'"

def Sync.NameFault.text (unprintable : Char → Bool) : NameFault → String
  | .empty field => field ++ " contains an empty entry"
  | .option field value =>
    field ++ " entry " ++ quoted unprintable value ++ " starts with '-': names cannot be options"
  | .nameless field value =>
    field ++ " entry " ++ quoted unprintable value ++
      " has no letter or digit in it, so it is not a name"
  | .unsupported field value ch =>
    field ++ " entry " ++ quoted unprintable value ++ " contains unsupported character " ++
      quotedChar unprintable ch

def Overrides.OverrideFault.text (unprintable : Char → Bool) : OverrideFault → String
  | .name fault => fault.text unprintable
  | .empty app =>
    "overrides." ++ quoted unprintable app ++ " declares no permissions; an empty table " ++
      "converges nothing and reads like it does, so say what you mean or drop it"
  | .newline field var =>
    field ++ " value for " ++ quoted unprintable var ++ " contains a newline"

namespace Config

def RelayFault.text (unprintable : Char → Bool) : RelayFault → String
  | .noScheme relay =>
    "nostr relay " ++ quoted unprintable relay ++
      " has no scheme; relays are wss:// or ws:// to loopback"
  | .plaintext relay =>
    "nostr relay " ++ quoted unprintable relay ++ " is ws:// to a non-loopback host: that is " ++
      "\\\n                     plaintext on the wire, and the metadata alone (which app, " ++
      "which \\\n                     bunker, how often) is not kuma's to leak. Point wss:// " ++
      "at it, or \\\n                     ws:// at 127.0.0.1, ::1, or localhost only"
  | .scheme relay other =>
    "nostr relay " ++ quoted unprintable relay ++ " has scheme " ++ quoted unprintable other ++
      "; relays are wss://, or ws:// \\\n             to loopback only"

def Fault.text (unprintable : Char → Bool) : Fault → String
  | .schema version =>
    "unsupported schema_version " ++ toString version.toNat ++ " (this kuma understands " ++
      toString CURRENT_SCHEMA.toNat ++ ")"
  | .name fault => fault.text unprintable
  | .firmwareBase =>
    "system.firmware trims kuma's composed base; it means nothing when system.base names an " ++
      "image — remove one of the two"
  | .firmware pkg =>
    "system.firmware entry " ++ quoted unprintable pkg ++
      " is not a firmware package kuma knows; the set is: " ++ ", ".intercalate FIRMWARE_PACKAGES
  | .notCrypt =>
    "user.password_hash is not a crypt(5) hash (expected `$id$salt$hash`, e.g. from " ++
      "`kuma passwd`); a placeholder here builds fine and then fails on the machine at first boot"
  | .sshKey => "user.ssh_keys entry doesn't look like a single-line OpenSSH public key"
  | .notCertificate anchor =>
    "system.ca_certificates " ++ quoted unprintable anchor ++
      " is not a PEM certificate (expected a -----BEGIN CERTIFICATE----- block)"
  | .privateKey anchor =>
    "system.ca_certificates " ++ quoted unprintable anchor ++ " contains a private key. Anchors " ++
      "are public certificates; a key here would be baked world-readable into every image " ++
      "built from this declaration"
  | .override fault => fault.text unprintable
  | .snapshotTarget target =>
    "snapshots.target must be an absolute path with no `..` (got " ++ quoted unprintable target ++
      ")"
  | .snapshotsKeepNothing =>
    "snapshots keeps nothing: keep_recent and keep_daily are both 0, so every snapshot would " ++
      "be deleted by the run that took it"
  | .backupRepoEmpty => "backup.enable is set and backup.repo names nowhere to put it"
  | .backupRepoPassword =>
    "backup.repo carries a password. The repository address belongs here and the credential " ++
      "does not: name it with backup.secret and put the value in " ++
      "/var/lib/kuma/secrets/<name>.env instead"
  | .backupNeedsSnapshots =>
    "backup.enable requires snapshots.enable: a backup reads from a read-only snapshot so " ++
      "nothing changes under it mid-run"
  | .backupKeepsNothing =>
    "backup keeps nothing: keep_daily, keep_weekly and keep_monthly are all 0, so every backup " ++
      "would be pruned by the run that made it"
  | .backupExclude path =>
    "backup.exclude " ++ quoted unprintable path ++ " is neither absolute nor rooted at ~, and " ++
      "a relative exclude means whatever the unit's directory happens to be"
  | .headlessNostr =>
    "nostr.enable requires a desktop: the bunker's unit is a user unit \\\n" ++
      "                     under the graphical session, and a headless machine has none"
  | .relay fault => fault.text unprintable
  | .shortFuse secs =>
    "nostr.inactivity_lock_secs is " ++ toString secs.toNat ++ "s; the floor is one hour " ++
      "(3600), \\\n                     because a fuse shorter than that trips on lunch"

theorem Fault.text_name (unprintable : Char → Bool) (fault : NameFault) :
    (Fault.name fault).text unprintable = fault.text unprintable := rfl

/-- The lines of an error that quote no source: a quoting one begins with a gutter, a caret or
a line number and a gutter. -/
def withoutQuotedSource (text : String) : String :=
  String.ofList (List.intercalate ['\n'] ((Text.lines text.toList).filter fun line =>
    let t := line.dropWhile Text.isWhiteSpace
    !(t.head? == some '|' || t.head? == some '^') &&
      match Text.splitOnce '|' t with
      | some (start, _) =>
        let start := Text.trim start
        !(start.all Char.isDigit && !start.isEmpty)
      | none => true))

/-- Everything that says something about a refused declaration. -/
structure Printed where
  /-- what `kuma check` prints -/
  check : String
  /-- the error of `kuma check --json`, and of its one action -/
  error : String
  /-- the config fact of bare `kuma` -/
  fact : String
  /-- the reason of bare `kuma`'s edit action -/
  why : String

def printed (shown text : String) : Printed where
  check := shown ++ " is not a valid declaration.\n\n  → $EDITOR " ++ shown ++ "   " ++ text ++ "\n"
  error := text
  fact := shown ++ " (invalid)"
  why := withoutQuotedSource text

/-- The checks that a password hash may fail. -/
inductive HashCheck
  | empty
  | option
  | nameless
  | unsupported
  | notCrypt
  deriving DecidableEq

def Fault.hashCheck : Fault → Option HashCheck
  | .name (.empty field) => if field = "user.password_hash" then some .empty else none
  | .name (.option field _) => if field = "user.password_hash" then some .option else none
  | .name (.nameless field _) => if field = "user.password_hash" then some .nameless else none
  | .name (.unsupported field _ _) =>
    if field = "user.password_hash" then some .unsupported else none
  | .notCrypt => some .notCrypt
  | _ => none

/-- The same declaration with another password hash. -/
def withHash (config : Config) (hash : String) : Config :=
  { config with user := config.user.map fun user => { user with passwordHash := some hash } }

/-- A hash without a character that a name may not have there, or none at all. -/
def Spelled (hash : String) : Prop :=
  hash = "" ∨ (hash.toList.any Char.isAlphanum = true ∧
    ∀ c ∈ hash.toList, c.isAlphanum = true ∨ c ∈ ['$', '.', '/', '='])

/-- A check that never refuses over the password hash. -/
def Discreet (check : Except Fault Unit) : Prop := ∀ fault,
  check = .error fault → fault.hashCheck = none

section
variable {check : Except Fault Unit} {next : Unit → Except Fault Unit} {α : Type} {xs : List α}

theorem Discreet.bind (h : Discreet check) (hnext : ∀ u, Discreet (next u)) :
    Discreet (check >>= next) := by
  intro fault hfault
  rcases bind_eq_error.mp hfault with hfirst | ⟨u, -, hsecond⟩
  · exact h fault hfirst
  · exact hnext u fault hsecond

theorem Discreet.forM {f : α → Except Fault Unit} (h : ∀ x ∈ xs, Discreet (f x)) :
    Discreet (xs.forM f) := by
  intro fault hfault
  obtain ⟨x, hx, hfail⟩ := forM_eq_error hfault
  exact h x hx fault hfail

theorem discreet_refuseIf {wrong : Prop} [Decidable wrong] {fault : Fault}
    (h : fault.hashCheck = none) : Discreet (refuseIf wrong fault) := by
  intro fault' hfault
  unfold refuseIf at hfault
  split_ifs at hfault with hwrong
  cases hfault
  exact h

/-- What a refused name says, by the check that it failed. -/
theorem validateName_eq_error {value field : String} {extra : List Char} {fault : NameFault}
    (h : validateName value field extra = .error fault) :
    (value = "" ∧ fault = .empty field) ∨ fault = .option field value ∨
      fault = .nameless field value ∨ ∃ ch, fault = .unsupported field value ch := by
  unfold validateName at h
  split_ifs at h with hempty hdash hnameless
  · cases h
    exact .inl ⟨hempty, rfl⟩
  · cases h
    exact .inr (.inl rfl)
  · cases h
    exact .inr (.inr (.inl rfl))
  · split at h
    · cases h
      exact .inr (.inr (.inr ⟨_, rfl⟩))
    · cases h

theorem discreet_named {value field : String} {extra : List Char}
    (h : field ≠ "user.password_hash") : Discreet (named value field extra) := by
  intro fault hfault
  obtain ⟨nameFault, hname, rfl⟩ := mapError_eq_error.mp hfault
  rcases validateName_eq_error hname with ⟨-, rfl⟩ | rfl | rfl | ⟨ch, rfl⟩
  · simp [Fault.hashCheck, h]
  · simp [Fault.hashCheck, h]
  · simp [Fault.hashCheck, h]
  · simp [Fault.hashCheck, h]

end

theorem discreet_system (system : System) : Discreet system.validate := by
  unfold System.validate
  refine .bind (.forM fun _ _ => discreet_named (by decide)) fun _ => ?_
  refine .bind (.forM fun _ _ => .bind (discreet_refuseIf rfl) fun _ =>
    .forM fun _ _ => discreet_refuseIf rfl) fun _ => ?_
  refine .bind (.forM fun _ _ => discreet_named (by decide)) fun _ => ?_
  refine .bind (.forM fun _ _ => discreet_named (by decide)) fun _ => ?_
  refine .bind (.forM fun _ _ => discreet_named (by decide)) fun _ => ?_
  exact .forM fun _ _ => discreet_named (by decide)

theorem discreet_snapshots (snapshots : Snapshots) : Discreet snapshots.validate := by
  unfold Snapshots.validate
  split_ifs
  · refine .bind (discreet_refuseIf rfl) fun _ => ?_
    refine .bind (discreet_named (by decide)) fun _ => ?_
    exact .bind (discreet_named (by decide)) fun _ => discreet_refuseIf rfl
  · intro fault hfault
    cases hfault

theorem discreet_backup (backup : Backup) (snapshots : Snapshots) :
    Discreet (backup.validate snapshots) := by
  unfold Backup.validate
  split_ifs
  · refine .bind (discreet_refuseIf rfl) fun _ => ?_
    refine .bind (discreet_refuseIf rfl) fun _ => ?_
    refine .bind (discreet_named (by decide)) fun _ => ?_
    refine .bind (discreet_refuseIf rfl) fun _ => ?_
    refine .bind (discreet_named (by decide)) fun _ => ?_
    refine .bind (discreet_named (by decide)) fun _ => ?_
    refine .bind (discreet_refuseIf rfl) fun _ => ?_
    exact .forM fun _ _ => .bind (discreet_refuseIf rfl) fun _ => discreet_named (by decide)
  · intro fault hfault
    cases hfault

theorem discreet_nostr (nostr : Nostr) (desktop : Desktop) : Discreet (nostr.validate desktop) := by
  unfold Nostr.validate
  split_ifs
  · refine .bind (discreet_refuseIf rfl) fun _ => ?_
    refine .bind (.forM fun _ _ => ?_) fun _ => .forM fun _ _ => discreet_refuseIf rfl
    intro fault hfault
    obtain ⟨relayFault, -, rfl⟩ := mapError_eq_error.mp hfault
    rfl
  · intro fault hfault
    cases hfault

theorem discreet_rest (config : Config) : Discreet config.validateRest := by
  unfold validateRest
  refine .bind ?_ fun _ => ?_
  · unfold Packages.validate
    refine .bind (.forM fun _ _ => discreet_named (by decide)) fun _ => ?_
    refine .bind (.forM fun _ _ => discreet_named (by decide)) fun _ => ?_
    exact .forM fun _ _ => discreet_named (by decide)
  refine .bind (.forM fun _ _ => discreet_named (by decide)) fun _ => ?_
  refine .bind (.forM fun _ _ => ?_) fun _ => ?_
  · unfold validateCertificate
    refine .bind (discreet_named (by decide)) fun _ => ?_
    exact .bind (discreet_refuseIf rfl) fun _ => discreet_refuseIf rfl
  refine .bind (.forM fun _ _ => ?_) fun _ => ?_
  · intro fault hfault
    obtain ⟨overrideFault, -, rfl⟩ := mapError_eq_error.mp hfault
    rfl
  refine .bind (discreet_snapshots _) fun _ => ?_
  exact .bind (discreet_backup _ _) fun _ => discreet_nostr _ _

/-- A refusal over the password hash comes from the hash's own two checks. -/
theorem validateHash_of_validate {config : Config} {hash : String} {fault : Fault}
    (h : (config.withHash hash).validate = .error fault) (hcheck : fault.hashCheck ≠ none) :
    validateHash hash = .error fault := by
  rcases bind_eq_error.mp h with hfail | ⟨_, -, h⟩
  · exact absurd (discreet_refuseIf rfl fault hfail) hcheck
  rcases bind_eq_error.mp h with hfail | ⟨_, -, h⟩
  · exact absurd (discreet_system _ fault hfail) hcheck
  rcases bind_eq_error.mp h with h | ⟨_, -, hfail⟩
  swap
  · exact absurd (discreet_rest _ fault hfail) hcheck
  obtain ⟨user, huser, h⟩ := forM_eq_error h
  obtain ⟨user', -, rfl⟩ : ∃ user', config.user = some user' ∧
      { user' with passwordHash := some hash } = user := by
    simpa [withHash] using huser
  rcases bind_eq_error.mp h with hfail | ⟨_, -, h⟩
  · exact absurd (discreet_named (by decide) fault hfail) hcheck
  rcases bind_eq_error.mp h with hfail | ⟨_, -, h⟩
  · exact absurd (Discreet.forM (fun _ _ => discreet_named (by decide)) fault hfail) hcheck
  rcases bind_eq_error.mp h with hfail | ⟨_, -, h⟩
  · exact absurd (Discreet.forM (fun _ _ => discreet_named (by decide)) fault hfail) hcheck
  rcases bind_eq_error.mp h with h | ⟨_, -, hfail⟩
  · obtain ⟨other, hother, hrefused⟩ := forM_eq_error h
    obtain rfl : other = hash := by simpa using hother
    exact hrefused
  · exact absurd (Discreet.forM (fun _ _ => discreet_refuseIf rfl) fault hfail) hcheck

/-- The faults of a hash that quote it. -/
def Quotes (hash : String) (fault : Fault) : Prop :=
  fault = .name (.option "user.password_hash" hash) ∨
    fault = .name (.nameless "user.password_hash" hash) ∨
    ∃ ch, fault = .name (.unsupported "user.password_hash" hash ch)

/-- What the two checks refuse a hash with: its text is in it, or the hash is spelled well. -/
theorem validateHash_eq_error {hash : String} {fault : Fault}
    (h : validateHash hash = .error fault) :
    (Spelled hash ∧ (fault = .name (.empty "user.password_hash") ∨ fault = .notCrypt)) ∨
    (¬ Spelled hash ∧ Quotes hash fault) := by
  rcases bind_eq_error.mp h with hname | ⟨_, hname, hcrypt⟩
  · obtain ⟨nameFault, hinvalid, rfl⟩ := mapError_eq_error.mp hname
    unfold validateName at hinvalid
    split_ifs at hinvalid with hempty hdash hnameless
    · cases hinvalid
      exact .inl ⟨.inl hempty, .inl rfl⟩
    · cases hinvalid
      refine .inr ⟨?_, .inl rfl⟩
      intro hspelled
      obtain ⟨tail, htail⟩ := List.head?_eq_some_iff.mp hdash
      rcases hspelled with hspelled | ⟨-, hchars⟩
      · exact hempty hspelled
      · have hdashed := hchars '-' (by rw [htail]; exact List.mem_cons_self)
        revert hdashed
        decide
    · cases hinvalid
      refine .inr ⟨?_, .inr (.inl rfl)⟩
      intro hspelled
      rcases hspelled with hspelled | ⟨hany, -⟩
      · exact hempty hspelled
      · rw [hany] at hnameless
        cases hnameless
    · split at hinvalid
      · next ch hfound =>
        cases hinvalid
        refine .inr ⟨?_, .inr (.inr ⟨ch, rfl⟩)⟩
        intro hspelled
        rcases hspelled with hspelled | ⟨-, hchars⟩
        · exact hempty hspelled
        · have hch := hchars ch (List.mem_of_find?_eq_some hfound)
          have hbad := List.find?_some hfound
          simp only [Bool.and_eq_true, Bool.not_eq_true', List.contains_eq_mem] at hbad
          rcases hch with hch | hch
          · rw [hch] at hbad
            cases hbad.1
          · rw [decide_eq_true hch] at hbad
            cases hbad.2
      · cases hinvalid
  · have hvalid := mapError_eq_ok.mp hname
    have hchars := (chars_of_validateName hvalid).2
    have hany : hash.toList.any Char.isAlphanum = true := by
      unfold validateName at hvalid
      split_ifs at hvalid with hempty hdash hnameless
      simpa using hnameless
    refine .inl ⟨.inr ⟨hany, hchars⟩, .inr ?_⟩
    simp only [validatePasswordHash, refuseIf] at hcrypt
    split_ifs at hcrypt
    cases hcrypt
    rfl

/-- How a refusal that quotes the hash begins. -/
theorem Quotes.text_eq (unprintable : Char → Bool) {hash : String} {fault : Fault}
    (h : Quotes hash fault) :
    ∃ tail, fault.text unprintable =
      "user.password_hash" ++ " entry " ++ quoted unprintable hash ++ tail := by
  rcases h with rfl | rfl | ⟨ch, rfl⟩
  · exact ⟨_, Fault.text_name _ _⟩
  · exact ⟨_, Fault.text_name _ _⟩
  · refine ⟨" contains unsupported character " ++ quotedChar unprintable ch, ?_⟩
    rw [Fault.text_name, ← String.append_assoc]
    rfl

/-- A quoted hash can be read back from the refusal. -/
theorem Quotes.inj {unprintable : Char → Bool} {hash hash' : String} {fault fault' : Fault}
    (h : Quotes hash fault) (h' : Quotes hash' fault')
    (htext : fault.text unprintable = fault'.text unprintable) : hash = hash' := by
  obtain ⟨tail, htail⟩ := h.text_eq unprintable
  obtain ⟨tail', htail'⟩ := h'.text_eq unprintable
  rw [htail, htail'] at htext
  have hchars := congrArg String.toList htext
  simp only [String.toList_append, quoted, String.toList_ofList, List.append_assoc,
    List.append_cancel_left_eq] at hchars
  exact String.toList_inj.mp (Escape.debug_append_inj hchars).1

/-- No check refuses one hash with its text and another without. -/
theorem Quotes.hashCheck_ne {hash : String} {fault fault' : Fault} (h : Quotes hash fault)
    (h' : fault' = .name (.empty "user.password_hash") ∨ fault' = .notCrypt) :
    fault.hashCheck ≠ fault'.hashCheck := by
  rcases h' with rfl | rfl <;> rcases h with rfl | rfl | ⟨ch, rfl⟩ <;> simp [Fault.hashCheck]

/-- Two refusals at one check of the password hash print the same exactly when the hashes are
the same or neither has anything that a name may not have there. -/
theorem refusals_alike_iff (unprintable : Char → Bool) (shown : String) (config : Config)
    {hash hash' : String} {fault fault' : Fault}
    (h : (config.withHash hash).validate = .error fault)
    (h' : (config.withHash hash').validate = .error fault')
    (hcheck : fault.hashCheck ≠ none) (hsame : fault.hashCheck = fault'.hashCheck) :
    printed shown (fault.text unprintable) = printed shown (fault'.text unprintable) ↔
      hash = hash' ∨ (Spelled hash ∧ Spelled hash') := by
  have hrefused := validateHash_of_validate h hcheck
  have hrefused' := validateHash_of_validate h' (hsame ▸ hcheck)
  constructor
  · intro hprinted
    have htext : fault.text unprintable = fault'.text unprintable :=
      congrArg Printed.error hprinted
    rcases validateHash_eq_error hrefused with ⟨hspelled, hfault⟩ | ⟨-, hquotes⟩ <;>
      rcases validateHash_eq_error hrefused' with ⟨hspelled', hfault'⟩ | ⟨-, hquotes'⟩
    · exact .inr ⟨hspelled, hspelled'⟩
    · exact absurd hsame.symm (hquotes'.hashCheck_ne hfault)
    · exact absurd hsame (hquotes.hashCheck_ne hfault')
    · exact .inl (hquotes.inj hquotes' htext)
  · rintro (rfl | ⟨hspelled, hspelled'⟩)
    · have hfault : fault = fault' := by
        rw [hrefused] at hrefused'
        exact Except.error.inj hrefused'
      rw [hfault]
    · have hfault : fault = fault' := by
        rcases validateHash_eq_error hrefused with ⟨-, hfault⟩ | ⟨hnot, -⟩
        swap
        · exact absurd hspelled hnot
        rcases validateHash_eq_error hrefused' with ⟨-, hfault'⟩ | ⟨hnot, -⟩
        swap
        · exact absurd hspelled' hnot
        rcases hfault with rfl | rfl <;> rcases hfault' with rfl | rfl <;>
          first | rfl | simp [Fault.hashCheck] at hsame
      rw [hfault]

/-- A declaration with one user. -/
def oneUser : Config :=
  { Config.default with user := some ⟨"mira", none, [], none, []⟩ }

theorem refusals_alike_placeholder :
    printed "kuma.toml" (Fault.notCrypt.text fun _ => false) =
        printed "kuma.toml" (Fault.notCrypt.text fun _ => false) ↔
      "abc" = "xyz" ∨ (Spelled "abc" ∧ Spelled "xyz") := by
  have h : (oneUser.withHash "abc").validate = .error .notCrypt := rfl
  have h' : (oneUser.withHash "xyz").validate = .error .notCrypt := rfl
  exact refusals_alike_iff (fun _ => false) "kuma.toml" oneUser h h' (by decide) rfl

/-- A hash with a character too many is printed whole. -/
theorem refusal_repeats_hash :
    ¬ ∀ (config : Config) (hash hash' : String) (fault fault' : Fault),
      (config.withHash hash).validate = .error fault →
      (config.withHash hash').validate = .error fault' →
      fault.hashCheck ≠ none → fault.hashCheck = fault'.hashCheck →
      printed "kuma.toml" (fault.text fun _ => false) =
        printed "kuma.toml" (fault'.text fun _ => false) := by
  intro h
  have hprinted := h oneUser "$6$salt$abc!" "$6$salt$xyz!" _ _ rfl rfl (by decide) rfl
  have htext := congrArg Printed.error hprinted
  have hquotes : Quotes "$6$salt$abc!" (.name (.unsupported "user.password_hash"
    "$6$salt$abc!" '!')) := .inr (.inr ⟨_, rfl⟩)
  have hquotes' : Quotes "$6$salt$xyz!" (.name (.unsupported "user.password_hash"
    "$6$salt$xyz!" '!')) := .inr (.inr ⟨_, rfl⟩)
  have hsame := hquotes.inj hquotes' htext
  revert hsame
  decide

end Config
end Kuma
