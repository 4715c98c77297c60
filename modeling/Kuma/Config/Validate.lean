import Kuma.Config.Schema
import Kuma.Lib.Escape
import Kuma.Lib.Fallible

/-! `Config::validate`: the checks a declaration passes before anything is built from it, in
their order, and the text of each refusal. -/
namespace Kuma.Config
open Kuma.Lib Kuma.Overrides Kuma.Sync

/-- `str::contains` on a longer text. -/
def contains (part text : String) : Bool :=
  (Text.splitOnceStr part.toList text.toList).isSome

inductive RelayFault
  | noScheme (relay : String)
  | plaintext (relay : String)
  | scheme (relay scheme : String)
  deriving DecidableEq

/-- Why a declaration is refused. -/
inductive Fault
  | schema (version : UInt32)
  | name (fault : NameFault)
  | firmwareBase
  | firmware (pkg : String)
  | notCrypt
  | sshKey
  | notCertificate (name : String)
  | privateKey (name : String)
  | override (fault : OverrideFault)
  | snapshotTarget (target : String)
  | snapshotsKeepNothing
  | backupRepoEmpty
  | backupRepoPassword
  | backupNeedsSnapshots
  | backupKeepsNothing
  | backupExclude (path : String)
  | headlessNostr
  | relay (fault : RelayFault)
  | shortFuse (secs : UInt64)
  deriving DecidableEq

def CURRENT_SCHEMA : UInt32 := 1

def FIRMWARE_PACKAGES : List String :=
  ["alsa-sof-firmware", "intel-vsc-firmware", "iwlwifi-dvm-firmware", "iwlwifi-mld-firmware",
    "iwlwifi-mvm-firmware", "amd-gpu-firmware", "amd-ucode-firmware", "atheros-firmware",
    "brcmfmac-firmware", "cirrus-audio-firmware", "intel-audio-firmware", "intel-gpu-firmware",
    "mt7xxx-firmware", "nvidia-gpu-firmware", "nxpwireless-firmware", "qcom-wwan-firmware",
    "realtek-firmware", "tiwilink-firmware"]

/-- A check that a name passes, or the refusal. -/
def named (value field : String) (extra : List Char) : Except Fault Unit :=
  (validateName value field extra).mapError .name

/-- `bail!` under a condition. -/
def refuseIf (wrong : Prop) [Decidable wrong] (fault : Fault) : Except Fault Unit :=
  if wrong then .error fault else .ok ()

/-- The shape of `$id$salt$hash`: fields behind dollar signs, at least three, none empty. -/
def validatePasswordHash (hash : String) : Except Fault Unit :=
  let fields := Text.split '$' ((Text.stripPrefix ['$'] hash.toList).getD [])
  let wellFormed := hash.toList.head? == some '$' && decide (3 ≤ fields.length) &&
    fields.all (fun field => !field.isEmpty)
  refuseIf (wellFormed = false) .notCrypt

/-- A relay address: `wss://` anywhere, `ws://` to loopback only. -/
def validateRelay (relay : String) : Except RelayFault Unit :=
  match Text.splitOnceStr "://".toList relay.toList with
  | none => .error (.noScheme relay)
  | some (scheme, rest) =>
    match String.ofList scheme with
    | "wss" => .ok ()
    | "ws" =>
      let authority := (Text.split '/' rest).headD []
      let host := String.ofList (match Text.stripPrefix ['['] authority with
        | some bracketed => (Text.split ']' bracketed).headD []
        | none => (Text.split ':' authority).headD authority)
      if host = "127.0.0.1" ∨ host = "::1" ∨ host = "localhost" then .ok ()
      else .error (.plaintext relay)
    | other => .error (.scheme relay other)

def System.validate (system : System) : Except Fault Unit := do
  system.base.toList.forM fun base => named base "system.base" ['/', ':', '.', '-', '_', '@']
  system.firmware.toList.forM fun firmware => do
    refuseIf (system.base.isSome) .firmwareBase
    firmware.forM fun pkg => refuseIf (pkg ∉ FIRMWARE_PACKAGES) (.firmware pkg)
  system.timezone.toList.forM fun tz => named tz "system.timezone" ['/', '-', '_', '+']
  system.hostname.toList.forM fun hostname => named hostname "system.hostname" ['-', '.']
  system.locale.toList.forM fun locale => named locale "system.locale" ['_', '.', '-', '@']
  system.shell.toList.forM fun shell => named shell "system.shell" ['-']

/-- The password hash passes two checks, one that every name passes and one of its own. -/
def validateHash (hash : String) : Except Fault Unit := do
  named hash "user.password_hash" ['$', '.', '/', '=']
  validatePasswordHash hash

def validateSshKey (key : String) : Except Fault Unit :=
  let looksLikeKey := ["ssh-", "ecdsa-", "sk-"].any fun p => p.toList.isPrefixOf key.toList
  refuseIf (looksLikeKey = false ∨ '\n' ∈ key.toList) .sshKey

def User.validate (user : User) : Except Fault Unit := do
  named user.name "user.name" ['-', '_']
  user.shell.toList.forM fun shell => named shell "user.shell" ['-']
  user.groups.forM fun group => named group "user.groups" ['-', '_']
  user.passwordHash.toList.forM validateHash
  user.sshKeys.forM validateSshKey

def Packages.validate (packages : Packages) : Except Fault Unit := do
  packages.rpm.forM fun pkg => named pkg "packages.rpm" ['.', '-', '_', '+', ':']
  packages.flatpak.forM fun app => named app Manager.flatpak.field Manager.flatpak.extra
  packages.brew.forM fun formula => named formula Manager.brew.field Manager.brew.extra

def Services.validate (services : Services) : Except Fault Unit :=
  (services.enable ++ services.disable).forM fun svc =>
    named svc "services" ['.', '-', '_', '@']

def validateCertificate (entry : String × String) : Except Fault Unit := do
  named entry.1 "system.ca_certificates" ['.', '-', '_']
  refuseIf (contains "-----BEGIN CERTIFICATE-----" entry.2 = false ∨
    contains "-----END CERTIFICATE-----" entry.2 = false) (.notCertificate entry.1)
  refuseIf (contains "PRIVATE KEY" entry.2) (.privateKey entry.1)

def Snapshots.validate (snapshots : Snapshots) : Except Fault Unit :=
  if snapshots.enable then do
    refuseIf (snapshots.target.toList.head? ≠ some '/' ∨ contains ".." snapshots.target)
      (.snapshotTarget snapshots.target)
    named snapshots.target "snapshots.target" ['/', '.', '-', '_']
    named snapshots.interval "snapshots.interval" ['*', '-', ':', ' ', ',', '.', '/', '~']
    refuseIf (snapshots.keepRecent = 0 ∧ snapshots.keepDaily = 0) .snapshotsKeepNothing
  else .ok ()

/-- What stands before the first `@` of a repository's address, without its scheme. -/
def userinfo (repo : String) : Option (List Char) :=
  (Text.splitOnce '@' repo.toList).map fun p =>
    match Text.splitOnceStr "//:".toList p.1.reverse with
    | some (reversed, _) => reversed.reverse
    | none => ((Text.splitOnce ':' p.1).map Prod.snd).getD p.1

def Backup.validate (backup : Backup) (snapshots : Snapshots) : Except Fault Unit :=
  if backup.enable then do
    refuseIf (backup.repo = "") .backupRepoEmpty
    refuseIf ((userinfo backup.repo).any (·.contains ':')) .backupRepoPassword
    named backup.repo "backup.repo" [':', '/', '.', '-', '_', '@', '+', '~']
    refuseIf (snapshots.enable = false) .backupNeedsSnapshots
    named backup.secret "backup.secret" ['.', '-', '_']
    named backup.interval "backup.interval" ['*', '-', ':', ' ', ',', '.', '/', '~']
    refuseIf (backup.keepDaily = 0 ∧ backup.keepWeekly = 0 ∧ backup.keepMonthly = 0)
      .backupKeepsNothing
    backup.exclude.forM fun path => do
      refuseIf (path.toList.head? ≠ some '/' ∧ path.toList.head? ≠ some '~') (.backupExclude path)
      named path "backup.exclude" ['/', '.', '-', '_', '~', '*', ' ']
  else .ok ()

def Nostr.validate (nostr : Nostr) (desktop : Desktop) : Except Fault Unit :=
  if nostr.enable then do
    refuseIf (desktop = .none) .headlessNostr
    nostr.relays.forM fun relay => (validateRelay relay).mapError .relay
    nostr.inactivityLockSecs.toList.forM fun secs =>
      refuseIf (secs ≠ 0 ∧ secs < 3600) (.shortFuse secs)
  else .ok ()

/-- The checks behind the user's. -/
def validateRest (config : Config) : Except Fault Unit := do
  config.packages.validate
  config.services.validate
  config.system.caCertificates.forM validateCertificate
  config.overrides.forM fun table => (validateOverride table.1 table.2).mapError .override
  config.snapshots.validate
  config.backup.validate config.snapshots
  config.nostr.validate config.system.desktop

/-- `Config::validate`. -/
def validate (config : Config) : Except Fault Unit := do
  refuseIf (config.schemaVersion ≠ CURRENT_SCHEMA) (.schema config.schemaVersion)
  config.system.validate
  config.user.toList.forM User.validate
  config.validateRest

theorem refuseIf_eq_ok {wrong : Prop} [Decidable wrong] {fault : Fault} :
    refuseIf wrong fault = .ok () ↔ ¬wrong := by
  rw [refuseIf]
  split_ifs with h <;> simp [h]

/-- Every part of the declaration passed its checks. -/
structure Validated (config : Config) : Prop where
  schemaVersion : config.schemaVersion = CURRENT_SCHEMA
  system : config.system.validate = .ok ()
  user : ∀ user ∈ config.user, user.validate = .ok ()
  packages : config.packages.validate = .ok ()
  services : config.services.validate = .ok ()
  caCertificates : ∀ entry ∈ config.system.caCertificates, validateCertificate entry = .ok ()
  overrides : ∀ table ∈ config.overrides, validateOverride table.1 table.2 = .ok ()
  snapshots : config.snapshots.validate = .ok ()
  backup : config.backup.validate config.snapshots = .ok ()
  nostr : config.nostr.validate config.system.desktop = .ok ()

theorem validated {config : Config} (h : config.validate = .ok ()) : config.Validated := by
  obtain ⟨⟨⟩, hschema, h⟩ := bind_eq_ok.mp h
  obtain ⟨⟨⟩, hsystem, h⟩ := bind_eq_ok.mp h
  obtain ⟨⟨⟩, huser, h⟩ := bind_eq_ok.mp h
  obtain ⟨⟨⟩, hpackages, h⟩ := bind_eq_ok.mp h
  obtain ⟨⟨⟩, hservices, h⟩ := bind_eq_ok.mp h
  obtain ⟨⟨⟩, hcertificates, h⟩ := bind_eq_ok.mp h
  obtain ⟨⟨⟩, hoverrides, h⟩ := bind_eq_ok.mp h
  obtain ⟨⟨⟩, hsnapshots, h⟩ := bind_eq_ok.mp h
  obtain ⟨⟨⟩, hbackup, hnostr⟩ := bind_eq_ok.mp h
  exact {
    schemaVersion := not_not.mp (refuseIf_eq_ok.mp hschema)
    system := hsystem
    user := fun user huser' => forM_eq_ok.mp huser user (Option.mem_toList.mpr huser')
    packages := hpackages
    services := hservices
    caCertificates := forM_eq_ok.mp hcertificates
    overrides := fun table htable => mapError_eq_ok.mp (forM_eq_ok.mp hoverrides table htable)
    snapshots := hsnapshots
    backup := hbackup
    nostr := hnostr }

end Kuma.Config
