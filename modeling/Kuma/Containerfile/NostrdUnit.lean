import Kuma.Lib.UnitFile
import Kuma.Config.Validate

/-! `kuma-nostrd.service`: a template into whose one command line the declared relays go. Validation
looks at a relay's scheme and host only; the rest of it is text in a unit file. -/
namespace Kuma.Containerfile

open Lib Lib.ExecLine Lib.UnitFile
open Kuma.Config (Nostr)

def LOCAL_RELAY_URL : String := "ws://127.0.0.1:7777"

namespace Nostrd

/-- The template up to the command line. -/
def HEAD : List (List Char) := [
  "[Unit]",
  "Description=kumaOS nostr bunker",
  "# The bunker is session furniture: it starts and stops with the",
  "# graphical session, and its socket lives under the session's runtime",
  "# directory.",
  "PartOf=graphical-session.target",
  "After=graphical-session.target",
  "",
  "[Service]"].map String.toList

/-- The comment behind the command line. -/
def COMMENTS : List (List Char) := [
  "# The state dir has to exist before the sandbox does: ReadWritePaths",
  "# names it, and a namespace that cannot mount a missing path fails the",
  "# unit before the daemon runs. The `+` runs this one command unsandboxed",
  "# — ProtectHome would refuse the write the daemon itself would need."].map String.toList

def PRE : List Char := "ExecStartPre=+/usr/bin/mkdir -p %h/.local/state/kuma-nostr".toList

/-- The rest of the template. -/
def REST : List (List Char) := [
  "# A bunker that exits zero is still a bunker that stopped answering.",
  "Restart=always",
  "Slice=session.slice",
  "",
  "# The sandbox. A bunker holds a signing key; the unit is the reason an",
  "# attacker already inside the session is the only attacker it matters",
  "# against, and these lines are what keep it that way.",
  "NoNewPrivileges=yes",
  "ProtectSystem=strict",
  "ProtectHome=read-only",
  "# The pairing list and the activity log are the daemon's own state, and",
  "# the socket it answers on, the only things it may write. The socket",
  "# lives in the session's runtime directory, which ProtectSystem=strict",
  "# would otherwise mount read-only.",
  "ReadWritePaths=%h/.local/state/kuma-nostr %t",
  "# A unix socket to answer on, and relays over the network.",
  "RestrictAddressFamilies=AF_UNIX AF_INET AF_INET6",
  "PrivateTmp=yes",
  "ProtectKernelTunables=yes",
  "ProtectKernelModules=yes",
  "ProtectControlGroups=yes",
  "ProtectClock=yes",
  "ProtectHostname=yes",
  "LockPersonality=yes",
  "MemoryDenyWriteExecute=yes",
  "RestrictRealtime=yes",
  "RestrictSUIDSGID=yes",
  "SystemCallFilter=@system-service",
  "SystemCallErrorNumber=EPERM",
  "CapabilityBoundingSet=",
  "SystemCallArchitectures=native",
  "",
  "[Install]",
  "WantedBy=graphical-session.target"].map String.toList

def header (name : String) : Item := .header name.toList

def assignment (key value : String) : Item := .assignment key.toList value.toList

/-- What the template says before the command line. -/
def BEFORE : List Item := [
  header "Unit",
  assignment "Description" "kumaOS nostr bunker",
  assignment "PartOf" "graphical-session.target",
  assignment "After" "graphical-session.target",
  header "Service"]

/-- What it says behind it. -/
def AFTER : List Item := [
  assignment "ExecStartPre" "+/usr/bin/mkdir -p %h/.local/state/kuma-nostr",
  assignment "Restart" "always",
  assignment "Slice" "session.slice",
  assignment "NoNewPrivileges" "yes",
  assignment "ProtectSystem" "strict",
  assignment "ProtectHome" "read-only",
  assignment "ReadWritePaths" "%h/.local/state/kuma-nostr %t",
  assignment "RestrictAddressFamilies" "AF_UNIX AF_INET AF_INET6",
  assignment "PrivateTmp" "yes",
  assignment "ProtectKernelTunables" "yes",
  assignment "ProtectKernelModules" "yes",
  assignment "ProtectControlGroups" "yes",
  assignment "ProtectClock" "yes",
  assignment "ProtectHostname" "yes",
  assignment "LockPersonality" "yes",
  assignment "MemoryDenyWriteExecute" "yes",
  assignment "RestrictRealtime" "yes",
  assignment "RestrictSUIDSGID" "yes",
  assignment "SystemCallFilter" "@system-service",
  assignment "SystemCallErrorNumber" "EPERM",
  assignment "CapabilityBoundingSet" "",
  assignment "SystemCallArchitectures" "native",
  header "Install",
  assignment "WantedBy" "graphical-session.target"]

end Nostrd

/-- `nostrd_service`. -/
def nostrdService (nostr : Nostr) : List Char :=
  let relayArgs :=
    (if nostr.relay.enable then " --relay ".toList ++ LOCAL_RELAY_URL.toList else []) ++
      nostr.relays.flatMap fun r => " --relay ".toList ++ r.toList
  let inactivityArg := match nostr.inactivityLockSecs.filter (0 < ·) with
    | some secs => " --inactivity-lock-secs ".toList ++ (toString secs.toNat).toList
    | none => []
  template Nostrd.HEAD ("ExecStart=/usr/bin/kuma-nostrd".toList ++ relayArgs ++ inactivityArg)
    (Nostrd.COMMENTS ++ Nostrd.PRE :: Nostrd.REST)

namespace Nostrd

def COMMAND : List Char := "/usr/bin/kuma-nostrd".toList

/-- What the daemon is to be given: each relay behind its flag, and the fuse if it is armed. -/
def arguments (nostr : Nostr) : List (List Char) :=
  ((if nostr.relay.enable then [LOCAL_RELAY_URL] else []) ++ nostr.relays).flatMap
      (fun r => ["--relay".toList, r.toList]) ++
    match nostr.inactivityLockSecs.filter (0 < ·) with
    | some secs => ["--inactivity-lock-secs".toList, (toString secs.toNat).toList]
    | none => []

theorem nostrdService_eq (nostr : Nostr) : nostrdService nostr =
    template HEAD ("ExecStart".toList ++ '=' :: commandLine COMMAND (arguments nostr))
      (COMMENTS ++ PRE :: REST) := by
  have hflag : " --relay ".toList = ' ' :: "--relay".toList ++ [' '] := rfl
  have hfuse : " --inactivity-lock-secs ".toList =
      ' ' :: "--inactivity-lock-secs".toList ++ [' '] := rfl
  have hexec : "ExecStart=/usr/bin/kuma-nostrd".toList = "ExecStart".toList ++ '=' :: COMMAND := rfl
  have hrelays : ∀ relays : List String, (relays.flatMap fun r => " --relay ".toList ++ r.toList) =
      (relays.flatMap fun r => ["--relay".toList, r.toList]).flatMap (' ' :: ·) := by
    intro relays
    rw [List.flatMap_assoc]
    exact List.flatMap_congr fun r _ => by simp [hflag]
  have hline : "ExecStart=/usr/bin/kuma-nostrd".toList ++
      ((if nostr.relay.enable then " --relay ".toList ++ LOCAL_RELAY_URL.toList else []) ++
        nostr.relays.flatMap fun r => " --relay ".toList ++ r.toList) ++
      (match nostr.inactivityLockSecs.filter (0 < ·) with
        | some secs => " --inactivity-lock-secs ".toList ++ (toString secs.toNat).toList
        | none => []) =
      "ExecStart".toList ++ '=' :: commandLine COMMAND (arguments nostr) := by
    rw [hrelays, hexec, commandLine, arguments]
    cases nostr.relay.enable with
    | false =>
      cases nostr.inactivityLockSecs.filter (0 < ·) with
      | none => simp
      | some secs => simp [hfuse]
    | true =>
      cases nostr.inactivityLockSecs.filter (0 < ·) with
      | none => simp [hflag]
      | some secs => simp [hflag, hfuse]
  rw [nostrdService, hline]

private theorem unbroken_of_all {ls : List (List Char)}
    (h : (ls.all fun l => l.all fun c => !isBreak c) = true) :
    ∀ l ∈ ls, ∀ c ∈ l, isBreak c = false := by
  intro l hl c hc
  simpa using List.all_eq_true.mp (List.all_eq_true.mp h l hl) c hc

/-- The template around the command line. The literals are spelled out before anything is decided
of them. -/
theorem frame : Frame HEAD COMMENTS PRE REST "ExecStart".toList := by
  unfold HEAD COMMENTS PRE REST
  simp only [List.map_cons, List.map_nil]
  repeat rw [String.toList_ofList]
  exact {
    head_ne := List.cons_ne_nil _ _
    unbroken := unbroken_of_all (by decide +kernel)
    closed := by decide +kernel
    begins := ⟨_, _, _, rfl⟩
    comment := by decide +kernel
    first := ⟨by decide +kernel, _, rfl⟩
    key_ne := List.cons_ne_nil _ _
    key := List.forall_iff_forall_mem.mp (by decide +kernel) }

theorem readAll_head : readAll (logical none HEAD) = some BEFORE := by
  unfold HEAD BEFORE assignment header
  simp only [List.map_cons, List.map_nil]
  repeat rw [String.toList_ofList]
  decide +kernel

theorem readAll_tail : readAll (logical none (COMMENTS ++ PRE :: (REST ++ [[]]))) = some AFTER := by
  unfold COMMENTS PRE REST AFTER assignment header
  simp only [List.map_cons, List.map_nil]
  repeat rw [String.toList_ofList]
  decide +kernel

/-- Read as a unit file, the service says what the template says, and starts the daemon with these
arguments whatever the host's specifiers and variables are. -/
def ReadsAsTemplate (nostr : Nostr) : Prop :=
  ∃ value, readUnit (nostrdService nostr) =
      some (BEFORE ++ .assignment "ExecStart".toList value :: AFTER) ∧
    ∀ host, argv host value = some (COMMAND :: arguments nostr)

/-- The relay is a word that means itself, on one line. -/
def Verbatim (relay : String) : Prop := Inert relay.toList ∧ '\x00' ∉ relay.toList

/-- A word that is itself wherever it stands in a command line. -/
def Fixed (w : List Char) : Prop := (Inert w ∧ w ≠ [] ∧ w.head? ≠ some '$') ∧ '\x00' ∉ w

instance (w : List Char) : Decidable (Fixed w) :=
  inferInstanceAs (Decidable ((Inert w ∧ w ≠ [] ∧ w.head? ≠ some '$') ∧ '\x00' ∉ w))

theorem fixed_toString (n : ℕ) : Fixed (toString n).toList := by
  rw [Nat.toString_eq_ofList_toDigits, String.toList_ofList]
  have hdigits : ∀ c ∈ Nat.toDigits 10 n, c.isDigit = true := fun c hc =>
    Nat.isDigit_of_mem_toDigits (by omega) (by omega) hc
  have hnot : ∀ d : Char, d.isDigit = false → d ∉ Nat.toDigits 10 n := by
    intro d hd hmem
    rw [hdigits d hmem] at hd
    cases hd
  refine ⟨⟨inert_of_isDigit hdigits, Nat.toDigits_ne_nil, fun hhead => ?_⟩, hnot _ rfl⟩
  exact hnot '$' rfl (List.mem_of_mem_head? hhead)

/-- Every argument is a declared relay or a word of the template's own. -/
theorem mem_arguments {nostr : Nostr} {a : List Char} (h : a ∈ arguments nostr) :
    (∃ r ∈ nostr.relays, a = r.toList) ∨ Fixed a := by
  rcases List.mem_append.mp h with h | h
  · obtain ⟨r, hr, ha⟩ := List.mem_flatMap.mp h
    rcases List.mem_pair.mp ha with rfl | rfl
    · exact .inr (by decide)
    · rcases List.mem_append.mp hr with hlocal | hr
      · split_ifs at hlocal
        · obtain rfl := List.mem_singleton.mp hlocal
          exact .inr (by decide)
        · exact absurd hlocal List.not_mem_nil
      · exact .inl ⟨r, hr, rfl⟩
  · split at h
    · rcases List.mem_pair.mp h with rfl | rfl
      · exact .inr (by decide)
      · exact .inr (fixed_toString _)
    · exact absurd h List.not_mem_nil

theorem mem_arguments_of_relay {nostr : Nostr} {r : String} (hr : r ∈ nostr.relays) :
    r.toList ∈ arguments nostr :=
  List.mem_append_left _ (List.mem_flatMap.mpr
    ⟨r, List.mem_append_right _ hr, List.mem_cons_of_mem _ (List.mem_singleton_self _)⟩)

/-- Words that are themselves leave the template as it is. -/
theorem readsAsTemplate_of_fixed {nostr : Nostr} (h : ∀ a ∈ arguments nostr, Fixed a) :
    ReadsAsTemplate nostr := by
  have hcommand : Fixed COMMAND := by decide
  have hfixed : ∀ w ∈ COMMAND :: arguments nostr, Fixed w := List.forall_mem_cons.mpr ⟨hcommand, h⟩
  have hplain : ∀ w ∈ COMMAND :: arguments nostr, ∀ c ∈ w, isBreak c = false ∧ c ≠ '\\' := by
    intro w hw c hc
    obtain ⟨⟨⟨hplain, -⟩, -⟩, hnull⟩ := hfixed w hw
    obtain ⟨hescape, -, hblank⟩ := hplain c hc
    have hc0 : c ≠ '\x00' := fun h => hnull (h ▸ hc)
    have hcn : c ≠ '\n' := by
      rintro rfl
      cases hblank
    have hcr : c ≠ '\r' := by
      rintro rfl
      cases hblank
    exact ⟨by simp [isBreak, hc0, hcn, hcr], hescape⟩
  have hline : ∀ c ∈ commandLine COMMAND (arguments nostr), isBreak c = false ∧ c ≠ '\\' := by
    intro c hc
    rcases mem_commandLine.mp hc with hc | ⟨a, ha, rfl | hc⟩
    · exact hplain _ List.mem_cons_self c hc
    · decide
    · exact hplain a (List.mem_cons_of_mem _ ha) c hc
  have htrimmed : Trimmed (commandLine COMMAND (arguments nostr)) :=
    trimmed_commandLine fun w hw => ⟨(hfixed w hw).1.1.1, (hfixed w hw).1.2.1⟩
  refine ⟨commandLine COMMAND (arguments nostr), ?_, fun host => ?_⟩
  · rw [nostrdService_eq]
    exact frame.readUnit_of_line hline htrimmed readAll_head readAll_tail
  · exact argv_commandLine fun w hw => (hfixed w hw).1

/-- The template reads back only from words that mean themselves: what else it holds would have made
it shorter. -/
theorem inert_of_readsAsTemplate {nostr : Nostr} (h : ReadsAsTemplate nostr) :
    ∀ a ∈ arguments nostr, Inert a ∧ '\x00' ∉ a := by
  obtain ⟨value, hread, hargv⟩ := h
  have hbare := hargv bare
  have hweight := weight_commandLine COMMAND (arguments nostr)
  have hle := weight_argv_bare hbare
  rw [nostrdService_eq] at hread
  rcases frame.value_of_readUnit readAll_head readAll_tail hread with hlt | ⟨rfl, hunbroken⟩
  · omega
  · intro a ha
    refine ⟨inert_of_argv_bare hbare a (List.mem_cons_of_mem _ ha), fun hnull => ?_⟩
    have hbreak := hunbroken '\x00' (mem_commandLine.mpr (.inr ⟨a, ha, .inr hnull⟩))
    cases hbreak

theorem head_of_validateRelay {relay : String} (h : Config.validateRelay relay = .ok ()) :
    relay.toList.head? = some 'w' := by
  unfold Config.validateRelay at h
  split at h
  · cases h
  · rename_i scheme rest hsplit
    have hscheme : scheme = "wss".toList ∨ scheme = "ws".toList := by
      split at h
      · rename_i hwss
        exact .inl (by rw [← hwss, String.toList_ofList])
      · rename_i hws
        exact .inr (by rw [← hws, String.toList_ofList])
      · cases h
    rw [Text.splitOnceStr_eq_some hsplit]
    rcases hscheme with rfl | rfl
    · rfl
    · rfl

theorem head_of_validate {config : Config} (hen : config.nostr.enable = true)
    (hvalid : config.validate = .ok ()) :
    ∀ r ∈ config.nostr.relays, r.toList.head? = some 'w' := by
  have hnostr := (Config.validated hvalid).nostr
  rw [Config.Nostr.validate, if_pos hen] at hnostr
  obtain ⟨-, -, h⟩ := bind_eq_ok.mp hnostr
  obtain ⟨⟨⟩, hrelays, -⟩ := bind_eq_ok.mp h
  intro r hr
  exact head_of_validateRelay (mapError_eq_ok.mp (forM_eq_ok.mp hrelays r hr))

/-- A desktop whose bunker listens on these relays. -/
def listening (relays : List String) : Config :=
  { Config.default with
    system := { Config.System.default with desktop := .niri }
    nostr := ⟨true, relays, ⟨true⟩, some 3600⟩ }

end Nostrd
end Kuma.Containerfile
