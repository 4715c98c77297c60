import Kuma.Config.Validate
import Kuma.Lib.SortDedup
import Mathlib.Data.String.Basic

/-! The base that kuma composes itself: the manifest, and the tag that its hash gives it. -/
namespace Kuma.Lockfile
open Kuma.Lib Kuma.Lib.Text Kuma.Config

def MINIMAL_MANIFEST : String :=
  "/usr/share/doc/bootc-base-imagectl/manifests/minimal/manifest.yaml"

/-- The manifest down to the firmware packages. -/
def MANIFEST_HEAD : List String :=
  ["# kuma's base image manifest. Generated by kuma — edit the",
   "# declaration, not this file. Composed from Fedora's package repos with",
   "# rpm-ostree, the same building blocks Fedora uses for fedora-bootc.",
   "",
   "metadata:",
   "  summary: kuma base — Fedora minimal bootc core plus hardware enablement",
   "",
   "edition: \"2024\"",
   "recommends: false",
   "",
   "# Fedora's minimal core: everything that makes this a valid, bootable,",
   "# updatable bootc image, maintained by Fedora.",
   "include:",
   "  - " ++ MINIMAL_MANIFEST,
   "",
   "packages:",
   "  # networking: minimal has none; a machine is useless without it",
   "  - NetworkManager NetworkManager-wifi wpa_supplicant",
   "  - systemd-resolved",
   "",
   "  # firmware: `recommends: false` (from minimal) means linux-firmware",
   "  # alone ships ZERO vendor blobs — every one is named explicitly",
   "  - linux-firmware"]

/-- The manifest behind them. It begins with a blank line. -/
def MANIFEST_TAIL : List String :=
  ["",
   "  # the archive repo, so older builds stay reachable after mirrors move on",
   "  - fedora-repos-archive",
   "",
   "  # base infra minimal omits but any real machine needs",
   "  - shadow-utils    # useradd/usermod; kuma-user-sync converges the account",
   "  - sudo            # the wheel/privilege model every account assumes",
   "  - chrony          # NTP; the desktop enables chronyd.service",
   "  - openssh-server  # remote access; VMs and smoke tests ssh in",
   "  - passwd          # password management",
   "  - ncurses         # clear, tput, reset: ncurses-base ships terminfo and",
   "                    # ncurses-libs the library, but the commands every",
   "                    # interactive shell assumes live in neither",
   "  - cryptsetup      # LUKS unlock at boot",
   "  # plymouth draws the LUKS prompt on encrypted machines (dracut renders it",
   "  # through plymouth when the module is present), so base layer, not desktop:",
   "  # - plymouth: daemon, theme loader, dracut module",
   "  # - plymouth-plugin-script: runs spinner_alt's .script; nothing pulls it in",
   "  # - plymouth-plugin-label: renders Image.Text(); a runtime-dlopened plugin",
   "  #   in its own package, absent it draws nothing while the machine waits",
   "  # - dejavu-sans-fonts: Image.Text() needs a font; the base carries none,",
   "  #   and a missing one means a BLANK password prompt",
   "  # The theme files themselves are baked by the Containerfile (assets/CREDITS.md).",
   "  - plymouth plymouth-plugin-script plymouth-plugin-label dejavu-sans-fonts",
   "  - fwupd           # LVFS firmware updates; security maintenance on real",
   "                    # hardware, and nothing else in the image can do it"]

/-- The packages that the manifest names one by one. -/
def firmwareOf (config : Config) : List String :=
  match config.system.firmware with
  | some trim => sortDedup trim
  | none => FIRMWARE_PACKAGES

def manifest (config : Config) : List Char :=
  ofLines ((MANIFEST_HEAD ++ (firmwareOf config).map ("  - " ++ ·) ++ MANIFEST_TAIL).map
    String.toList)

/-- A SHA-256 sum. -/
structure Sum where
  bytes : List (Fin 256)
  length : bytes.length = 32

/-- `{b:02x}` -/
def hexByte (b : Fin 256) : List Char := [Nat.digitChar (b / 16), Nat.digitChar (b % 16)]

/-- The part of the sum that a tag holds. -/
def short (sum : Sum) : List (Fin 256) := sum.bytes.take 6

variable (sha256 : List Char → Sum)

def contentTag (config : Config) : List Char :=
  "localhost/kuma-base:m".toList ++ (short (sha256 (manifest config))).flatMap hexByte

/-- Whether a reference has the shape of those tags. -/
def isContentTag (reference : List Char) : Bool :=
  match stripPrefix "localhost/kuma-base:m".toList reference with
  | some h => h.length == 12 && h.all fun c => ('0' ≤ c && c ≤ '9') || ('a' ≤ c && c ≤ 'f')
  | none => false

/-- The tags of composed bases that nothing keeps. -/
def staleBaseTags (listed : List Char) (keep : List (List Char)) : List (List Char) :=
  ((lines listed).map trim).filter fun t => isContentTag t && !keep.any (· == t)

/-- The same packages, in any order and any number of times. A declaration that names none of
its own is like no other. -/
def SameFirmware (c d : Config) : Prop :=
  match c.system.firmware, d.system.firmware with
  | none, none => True
  | some named, some named' => ∀ pkg, pkg ∈ named ↔ pkg ∈ named'
  | _, _ => False

variable {sha256} {c d : Config}

theorem firmware_of_validate (hvalid : c.validate = .ok ()) {named : List String}
    (hnamed : c.system.firmware = some named) : ∀ pkg ∈ named, pkg ∈ FIRMWARE_PACKAGES := by
  obtain ⟨⟨⟩, -, hrest⟩ := bind_eq_ok.mp (Config.validated hvalid).system
  obtain ⟨⟨⟩, hfirmware, -⟩ := bind_eq_ok.mp hrest
  have hchecked := forM_eq_ok.mp hfirmware named (Option.mem_toList.mpr hnamed)
  obtain ⟨⟨⟩, -, hmembers⟩ := bind_eq_ok.mp hchecked
  intro pkg hpkg
  simpa using refuseIf_eq_ok.mp (forM_eq_ok.mp hmembers pkg hpkg)

theorem FIRMWARE_PACKAGES_unsorted : ¬ FIRMWARE_PACKAGES.Pairwise (· < ·) := by
  decide

theorem firmwareOf_eq_iff : firmwareOf c = firmwareOf d ↔ SameFirmware c d := by
  unfold firmwareOf SameFirmware
  cases hc : c.system.firmware with
  | none =>
    cases hd : d.system.firmware with
    | none => simp
    | some named =>
      refine iff_of_false (fun h => FIRMWARE_PACKAGES_unsorted ?_) id
      have hsame : FIRMWARE_PACKAGES = sortDedup named := h
      exact hsame ▸ pairwise_sortDedup named
  | some named =>
    cases hd : d.system.firmware with
    | none =>
      refine iff_of_false (fun h => FIRMWARE_PACKAGES_unsorted ?_) id
      have hsame : sortDedup named = FIRMWARE_PACKAGES := h
      exact hsame ▸ pairwise_sortDedup named
    | some named' => exact sortDedup_eq_iff

theorem newline_notMem_firmware (hvalid : c.validate = .ok ()) :
    ∀ pkg ∈ firmwareOf c, '\n' ∉ pkg.toList := by
  have hpackages : ∀ pkg ∈ FIRMWARE_PACKAGES, '\n' ∉ pkg.toList := by decide
  intro pkg hpkg
  refine hpackages pkg ?_
  unfold firmwareOf at hpkg
  cases hc : c.system.firmware with
  | none => rwa [hc] at hpkg
  | some named =>
    rw [hc] at hpkg
    exact firmware_of_validate hvalid hc pkg (mem_sortDedup.mp hpkg)

/-- The manifest says which packages were named. -/
theorem manifest_eq_iff (hc : c.validate = .ok ()) (hd : d.validate = .ok ()) :
    manifest c = manifest d ↔ SameFirmware c d := by
  rw [← firmwareOf_eq_iff]
  constructor
  · intro h
    simp only [manifest, List.map_append, ofLines_append] at h
    have hlines := List.append_cancel_left (List.append_cancel_right h)
    have hplain : ∀ {config : Config}, config.validate = .ok () → ∀ line ∈
        ((firmwareOf config).map ("  - " ++ ·)).map String.toList, '\n' ∉ line := by
      intro config hvalid line hline
      simp only [List.map_map, List.mem_map, Function.comp] at hline
      obtain ⟨pkg, hpkg, rfl⟩ := hline
      simpa using newline_notMem_firmware hvalid pkg hpkg
    have hsame := (ofLines_inj (hplain hc) (hplain hd)).mp hlines
    rw [List.map_map, List.map_map] at hsame
    refine List.map_injective_iff.mpr (fun p q hpq => ?_) hsame
    exact String.toList_inj.mp (by simpa using hpq)
  · intro h
    rw [manifest, h, manifest]

theorem isContentTag_digit : ∀ n : Fin 16, (('0' ≤ Nat.digitChar n && Nat.digitChar n ≤ '9') ||
    ('a' ≤ Nat.digitChar n && Nat.digitChar n ≤ 'f')) = true := by decide

theorem digitChar_injective : ∀ m n : Fin 16, Nat.digitChar m = Nat.digitChar n → m = n := by
  decide

/-- The two digits of a byte. -/
def high (b : Fin 256) : Fin 16 := ⟨b / 16, by omega⟩

def low (b : Fin 256) : Fin 16 := ⟨b % 16, by omega⟩

theorem hexByte_eq (b : Fin 256) :
    hexByte b = [Nat.digitChar (high b), Nat.digitChar (low b)] := rfl

theorem hexByte_injective {a b : Fin 256} (h : hexByte a = hexByte b) : a = b := by
  rw [hexByte_eq, hexByte_eq] at h
  obtain ⟨hhigh, h⟩ := List.cons.inj h
  obtain ⟨hlow, -⟩ := List.cons.inj h
  have hquot := congrArg Fin.val (digitChar_injective _ _ hhigh)
  have hrem := congrArg Fin.val (digitChar_injective _ _ hlow)
  simp only [high, low] at hquot hrem
  omega

theorem flatMap_hexByte_injective {xs ys : List (Fin 256)}
    (h : xs.flatMap hexByte = ys.flatMap hexByte) : xs = ys := by
  induction xs generalizing ys with
  | nil =>
    cases ys with
    | nil => rfl
    | cons y ys => simp [hexByte] at h
  | cons x xs ih =>
    cases ys with
    | nil => simp [hexByte] at h
    | cons y ys =>
      rw [List.flatMap_cons, List.flatMap_cons] at h
      obtain ⟨hbyte, hrest⟩ := List.append_inj h rfl
      rw [hexByte_injective hbyte, ih hrest]

theorem length_short (sum : Sum) : (short sum).length = 6 := by
  rw [short, List.length_take, sum.length]
  rfl

variable (sha256) in
/-- What is minted is recognised. -/
theorem isContentTag_contentTag (config : Config) : isContentTag (contentTag sha256 config) := by
  have hstrip : stripPrefix "localhost/kuma-base:m".toList (contentTag sha256 config) =
      some ((short (sha256 (manifest config))).flatMap hexByte) := stripPrefix_eq_some.mpr rfl
  rw [isContentTag, hstrip]
  refine Bool.and_eq_true_iff.mpr ⟨?_, List.all_eq_true.mpr fun c hc => ?_⟩
  · simp [List.length_flatMap, hexByte, length_short]
  · obtain ⟨b, -, hb⟩ := List.mem_flatMap.mp hc
    rw [hexByte_eq] at hb
    rcases List.mem_cons.mp hb with rfl | hb
    · exact isContentTag_digit (high b)
    · obtain rfl := List.mem_singleton.mp hb
      exact isContentTag_digit (low b)

theorem mem_staleBaseTags {listed t : List Char} {keep : List (List Char)}
    (h : t ∈ staleBaseTags listed keep) : isContentTag t = true ∧ t ∉ keep := by
  have hboth := (List.mem_filter.mp h).2
  simp only [Bool.and_eq_true, Bool.not_eq_true', List.any_eq_false, beq_iff_eq] at hboth
  exact ⟨hboth.1, fun hmem => hboth.2 t hmem rfl⟩

/-- Two declarations of composed bases name one tag exactly when they name the same firmware, as
far as twelve digits tell their manifests apart. -/
theorem contentTag_eq_iff (sha256 : List Char → Sum) (c d : Config) (hc : c.validate = .ok ())
    (hd : d.validate = .ok ()) (hapart : short (sha256 (manifest c)) =
      short (sha256 (manifest d)) → manifest c = manifest d) :
    contentTag sha256 c = contentTag sha256 d ↔ SameFirmware c d := by
  rw [← manifest_eq_iff hc hd]
  constructor
  · intro h
    exact hapart (flatMap_hexByte_injective (List.append_cancel_left h))
  · intro h
    exact congrArg (fun text => _ ++ (short (sha256 text)).flatMap hexByte) h

private def trimmed (firmware : List String) : Config :=
  { Config.default with system := { Config.System.default with firmware := some firmware } }

private def lengthSum (text : List Char) : Sum :=
  ⟨List.replicate 32 ⟨text.length % 256, Nat.mod_lt _ (by decide)⟩, List.length_replicate⟩

theorem contentTag_eq_swapped :
    contentTag lengthSum (trimmed ["mt7xxx-firmware", "amd-gpu-firmware"]) =
      contentTag lengthSum (trimmed ["amd-gpu-firmware", "mt7xxx-firmware"]) := by
  have hsame : SameFirmware (trimmed ["mt7xxx-firmware", "amd-gpu-firmware"])
      (trimmed ["amd-gpu-firmware", "mt7xxx-firmware"]) := fun pkg => by simp [or_comm]
  exact (contentTag_eq_iff lengthSum _ _ rfl rfl
    fun _ => (manifest_eq_iff rfl rfl).mpr hsame).mpr hsame

end Kuma.Lockfile
