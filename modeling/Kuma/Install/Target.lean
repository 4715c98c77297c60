import Kuma.Hibernate.Lifecycle
import Kuma.Install.Layout

/-! The install script: what it writes to a disk, what it holds open on the machine that runs it,
and what a boot of the disk finds. Any command may fail, and the power may go after any of
them. -/
namespace Kuma.Install
open Kuma.Lib
open Kuma.Hibernate (FsUuid Swapfile fstabLines)

/-- What bootc deploys. -/
structure Deployment where
  updates : String
  bootSpec : List Char
  /-- its `/etc/fstab`, where the image has one -/
  fstab : Option (List Char)
  lid : Bool

/-- A btrfs, and what the script knows of it. -/
structure Filesystem where
  uuid : FsUuid
  label : List Char
  /-- the subvolume `root`, and what is deployed in it -/
  root : Option (Option Deployment)
  /-- the subvolume `store`: the image, the account's password hash in it -/
  store : Bool
  /-- the directory `tmp`, which the image's layers pass through -/
  tmp : Bool
  swap : Option (Option Swapfile)

structure BootPartition where
  uuid : List Char
  /-- the arguments of the kernel that it starts -/
  kargs : Option (List (List Char))

structure Luks where
  uuid : List Char
  key : List Char

/-- A disk: its table, and what its three partitions hold. -/
structure Target where
  table : List String
  esp : Bool
  boot : Option BootPartition
  luks : Option Luks
  /-- the third partition's filesystem, inside the container where there is one -/
  fs : Option Filesystem

/-- What the machine that installs holds open. -/
structure Session where
  loop : Bool
  mapper : Bool
  /-- the filesystem's top on `/run/kuma-targetfs` -/
  top : Bool
  /-- `/run/kuma-target`, and what hangs off it -/
  root : Bool
  boot : Bool
  efi : Bool
  /-- the disk's `tmp` on `/var/tmp` -/
  varTmp : Bool
  conf : Bool
  /-- the two mount points are there -/
  points : Bool
  deriving DecidableEq

def Session.clean : Session := ⟨false, false, false, false, false, false, false, false, false⟩

/-- The variables that commands set; `set -u` stops at one that is not. -/
structure Vars where
  passphrase : List Char
  luksUuid : Option (List Char)
  fsUuid : Option FsUuid
  swapOffset : Option (Fin (2 ^ 64))
  bootUuid : Option (List Char)

structure State where
  disk : Target
  session : Session
  vars : Vars

namespace State

/-- `$fs` names a device that answers. -/
def reachable (s : State) : Bool := s.disk.luks.isNone || s.session.mapper

def withFs (s : State) (f : Filesystem → Filesystem) : State :=
  { s with disk := { s.disk with fs := s.disk.fs.map f } }

/-- A fact about the filesystem, where there is one. -/
def fsHas (s : State) (p : Filesystem → Bool) : Bool := s.disk.fs.any p

def withDeployment (s : State) (f : Deployment → Deployment) : State :=
  s.withFs fun fs => { fs with root := fs.root.map (·.map f) }

def deployment (s : State) : Option Deployment := (s.disk.fs.bind (·.root)).join

end State

/-- The commands that may fail: those of the install, then those of `cleanup`. -/
inductive Step
  | mkdirPoints | losetup | wipefs | sfdisk | settle | mkfsVfat | mkfsExt4
  | luksFormat | luksOpen | blkidLuks
  | mkfsBtrfs | mountTop | createRoot | createStore | mountRoot | mkdirBoot | mountBoot
  | mkdirEfi | mountEfi
  | blkidFs | createSwap | mkswapfile | chmod | mapSwapfile
  | mkdirHost | mkdirTmp | bindTmp | build | seen | mktemp | writeConf | blkidBoot | bootc
  | appendFstab | mkdirLid | writeLid
  | umountRoot | deleteStore | umountVarTmp | removeTmp | fstrim | umountTop | closeLuks
  | removeConf | rmdir | detach
  deriving DecidableEq

/-- The commands of `cleanup`. -/
def Step.unwinds : Step → Bool
  | .umountRoot | .deleteStore | .umountVarTmp | .removeTmp | .fstrim | .umountTop | .closeLuks
  | .removeConf | .rmdir | .detach => true
  | _ => false

/-- One run of the script. -/
structure Attempt where
  layout : List Partition
  /-- what is piped in where the disk is encrypted -/
  stdin : Option (List Char)
  swapMib : Option ℕ
  updates : String
  /-- a disk image, reached through a loop device -/
  file : Bool
  /-- `/var/tmp` is memory -/
  memory : Bool
  /-- the numbers that the tools come up with -/
  luksUuid : List Char
  fsUuid : FsUuid
  bootUuid : List Char
  offset : Fin (2 ^ 64)
  /-- the kernel arguments that the image brings, and its fstab with bootc's entries -/
  imageKargs : List (List Char)
  imageFstab : Option (List Char)
  works : Step → Bool

def LUKS_KARG : List Char := "rd.luks.uuid=luks-".toList
def ROOT_KARG : List Char := "root=LABEL=".toList
def ROOT_LABEL : List Char := "root".toList
def ROOT_FLAGS : List Char := "rootflags=subvol=root".toList

/-- One partition's line of the table that `sfdisk` is given. -/
def sfdiskLine (part : Partition) : String :=
  (part.sizeMib.elim "" fun mib => s!"size={mib}MiB, ") ++
    s!"type={part.typeCode}, name=\"{part.label}\""

/-- `IFS= read -r passphrase`: the first line, which the shell keeps without NUL bytes. -/
def readLine (stdin : List Char) : List Char := (stdin.takeWhile (· ≠ '\n')).filter (· ≠ '\x00')

namespace Attempt
variable (t : Attempt)

def command (c : Step) (able : State → Bool) (act : State → State) : Script State :=
  .guarded (t.works c) able act

/-- A command that changes nothing here. -/
def plain (c : Step) : Script State := t.command c (fun _ => true) id

/-! ### `format_script` -/

def luksScript : Script State :=
  .block [
    t.command .luksFormat (fun _ => true) fun s =>
      { s with disk := { s.disk with luks := some ⟨t.luksUuid, s.vars.passphrase⟩, fs := none } },
    t.command .luksOpen (fun s => s.disk.luks.any (·.key = s.vars.passphrase)) fun s =>
      { s with session := { s.session with mapper := true } },
    t.plain .settle,
    t.command .blkidLuks (·.disk.luks.isSome) fun s =>
      { s with vars := { s.vars with luksUuid := s.disk.luks.map (·.uuid) } }]

/-- `create_script`, and the uuid that the kernel will be told. -/
def swapScript (mib : ℕ) : Script State :=
  .block [
    t.command .blkidFs State.reachable fun s =>
      { s with vars := { s.vars with fsUuid := s.disk.fs.map (·.uuid) } },
    t.command .createSwap (fun s => s.session.top && s.fsHas (·.swap.isNone)) fun s =>
      s.withFs fun fs => { fs with swap := some none },
    t.command .mkswapfile (fun s => s.session.top && s.fsHas (·.swap.isSome)) fun s =>
      s.withFs fun fs => { fs with swap := some (some ⟨t.offset, mib⟩) },
    t.plain .chmod,
    t.command .mapSwapfile (fun s => s.session.top && s.fsHas (·.swap.join.isSome)) fun s =>
      { s with vars := { s.vars with
        swapOffset := (s.disk.fs.bind (·.swap.join)).map (·.offset) } }]

/-- `format_script` from the wipe to the mounts. -/
def formatScript : Script State :=
  .block [
    t.command .wipefs (fun _ => true) fun s => { s with disk := { s.disk with table := [] } },
    t.command .sfdisk (fun _ => true) fun s =>
      { s with disk := ⟨t.layout.map sfdiskLine, false, none, none, none⟩ },
    t.plain .settle,
    t.command .mkfsVfat (fun _ => true) fun s => { s with disk := { s.disk with esp := true } },
    t.command .mkfsExt4 (fun _ => true) fun s =>
      { s with disk := { s.disk with boot := some ⟨t.bootUuid, none⟩ } },
    if t.stdin.isSome then t.luksScript else .done,
    t.command .mkfsBtrfs State.reachable fun s =>
      { s with disk := { s.disk with
        fs := some ⟨t.fsUuid, ROOT_LABEL, none, false, false, none⟩ } },
    t.command .mountTop (fun s => s.reachable && s.disk.fs.isSome) fun s =>
      { s with session := { s.session with top := true } },
    t.command .createRoot (·.session.top) (·.withFs fun fs => { fs with root := some none }),
    t.command .createStore (·.session.top) (·.withFs fun fs => { fs with store := true }),
    t.command .mountRoot (fun s => s.reachable && s.fsHas (·.root.isSome)) fun s =>
      { s with session := { s.session with root := true } },
    t.plain .mkdirBoot,
    t.command .mountBoot (fun s => s.session.root && s.disk.boot.isSome) fun s =>
      { s with session := { s.session with boot := true } },
    t.plain .mkdirEfi,
    t.command .mountEfi (fun s => s.session.boot && s.disk.esp) fun s =>
      { s with session := { s.session with efi := true } },
    t.swapMib.elim .done t.swapScript]

/-! ### The image onto the disk -/

/-- The store, `TMPDIR`, and the image that is handed to bootc. -/
def storeScript : Script State :=
  .block [
    t.plain .mkdirHost,
    t.command .mkdirTmp (·.session.top) (·.withFs fun fs => { fs with tmp := true }),
    if t.memory then
      t.command .bindTmp (fun s => s.session.top && s.fsHas (·.tmp)) fun s =>
        { s with session := { s.session with varTmp := true } }
    else .done,
    t.command .build (fun s => s.session.top && s.fsHas (·.store)) id,
    t.command .seen (·.session.root) id,
    t.command .mktemp (fun _ => true) fun s =>
      { s with session := { s.session with conf := true } },
    t.plain .writeConf,
    t.command .blkidBoot (·.disk.boot.isSome) fun s =>
      { s with vars := { s.vars with bootUuid := s.disk.boot.map (·.uuid) } }]

/-- The arguments that name the container, when there is one. -/
def luksKargs (v : Vars) : Option (List (List Char)) :=
  if t.stdin.isSome then v.luksUuid.map fun uuid => [LUKS_KARG ++ uuid] else some []

/-- The resume pair, when there is a swapfile. -/
def swapKargs (v : Vars) : Option (List (List Char)) :=
  if t.swapMib.isSome then
    v.fsUuid.bind fun uuid => v.swapOffset.map fun offset =>
      Hibernate.kargs uuid.text (Nat.toDigits 10 offset)
  else some []

/-- The installed kernel's arguments, unless one names a variable that is not set. -/
def kargs (v : Vars) : Option (List (List Char)) :=
  (t.luksKargs v).bind fun luks => (t.swapKargs v).map fun swap =>
    t.imageKargs ++ (ROOT_KARG ++ ROOT_LABEL) :: ROOT_FLAGS :: (luks ++ swap)

/-- `bootc install to-filesystem` -/
def bootc : Script State :=
  .look fun s =>
    match t.kargs s.vars, s.vars.bootUuid with
    | some kargs, some bootUuid =>
      t.command .bootc (fun s => s.session.root && s.session.boot && s.session.efi) fun s =>
        let deployed : Deployment := ⟨t.updates, "UUID=".toList ++ bootUuid, t.imageFstab, false⟩
        State.withFs { s with disk := { s.disk with
          boot := s.disk.boot.map fun boot => { boot with kargs := some kargs } } }
          fun fs => { fs with root := some (some deployed) }
    | _, _ => .fail

/-- The swapfile's lines and the lid's, in the `/etc` of the deployment. -/
def swapFstab : Script State :=
  .look fun s =>
    match s.deployment.bind (·.fstab), s.vars.fsUuid with
    | some _, some fsUuid =>
      .block [
        t.command .appendFstab (fun _ => true) (·.withDeployment fun d =>
          { d with fstab := d.fstab.map (· ++ fstabLines fsUuid) }),
        t.plain .mkdirLid,
        t.command .writeLid (fun _ => true) (·.withDeployment fun d => { d with lid := true })]
    | _, _ => .fail

/-! ### The whole script -/

/-- What `cleanup` does while it can reach the filesystem. -/
def sweep : Script State :=
  .block [
    .tolerate (t.command .deleteStore (fun s => s.session.top && s.fsHas (·.store)) fun s =>
      s.withFs fun fs => { fs with store := false }),
    .tolerate (t.command .umountVarTmp (·.session.varTmp) fun s =>
      { s with session := { s.session with varTmp := false } }),
    .tolerate (t.command .removeTmp (·.session.top) fun s =>
      s.withFs fun fs => { fs with tmp := false }),
    .tolerate (t.plain .fstrim),
    .tolerate (t.command .umountTop (·.session.top) fun s =>
      { s with session := { s.session with top := false } })]

/-- What is left of the machine's own. -/
def release : Script State :=
  .block [
    .tolerate (t.command .removeConf (fun _ => true) fun s =>
      { s with session := { s.session with conf := false } }),
    .tolerate (t.command .rmdir (fun s => !s.session.top && !s.session.root) fun s =>
      { s with session := { s.session with points := false } }),
    .tolerate (t.command .detach (·.session.loop) fun s =>
      { s with session := { s.session with loop := false } })]

/-- `cleanup`, all of it tolerated. A busy container is not closed. -/
def cleanup : Script State :=
  .block [
    .tolerate (t.command .umountRoot (·.session.root) fun s =>
      { s with session := { s.session with root := false, boot := false, efi := false } }),
    t.sweep,
    if t.stdin.isSome then
      .tolerate (t.command .closeLuks
        (fun s => s.session.mapper && !s.session.top && !s.session.root && !s.session.varTmp)
        fun s => { s with session := { s.session with mapper := false } })
    else .done,
    t.release]

/-- The passphrase is read before anything is written. -/
def readPass : Script State :=
  t.stdin.elim .done fun text =>
    .block [
      .command fun s => ({ s with vars := { s.vars with passphrase := readLine text } }, true),
      .look fun s => if s.vars.passphrase = [] then .fail else .done]

/-- What the trap stands over. -/
def body : Script State :=
  .block [
    if t.file then
      t.command .losetup (fun _ => true) fun s =>
        { s with session := { s.session with loop := true } }
    else .done,
    t.formatScript,
    t.storeScript,
    t.bootc,
    if t.swapMib.isSome then t.swapFstab else .done]

/-- `install_script` -/
def installScript : Script State :=
  .block [
    .command fun s => ({ s with vars := ⟨[], none, none, none, none⟩ }, true),
    t.readPass,
    t.command .mkdirPoints (fun _ => true) fun s =>
      { s with session := { s.session with points := true } },
    .trapped t.body t.cleanup]

end Attempt

/-! ### What a boot of the disk finds -/

namespace Target

/-- The filesystem that the initramfs sees once a passphrase is typed. -/
def unlocked (d : Target) (kargs : List (List Char)) (typed : List Char) : Option Filesystem :=
  match d.luks with
  | none => d.fs
  | some luks => if (LUKS_KARG ++ luks.uuid) ∈ kargs ∧ typed = luks.key then d.fs else none

/-- The machine that the disk boots into, before anything is mounted, where it boots at all. -/
def start (d : Target) (typed : List Char) : Option Hibernate.Machine := do
  let boot ← if d.esp then d.boot else none
  let kargs ← boot.kargs
  let fs ← d.unlocked kargs typed
  let deployed ← fs.root.join
  if (ROOT_KARG ++ fs.label) ∈ kargs ∧ ROOT_FLAGS ∈ kargs ∧
      deployed.bootSpec = "UUID=".toList ++ boot.uuid then
    some {
      subvol := fs.swap
      fstab := deployed.fstab.getD []
      mounted := false
      active := false
      tops := 0
      lid := deployed.lid
      cmdline := [' '].intercalate kargs
      kargs }
  else none

/-- What is on the disk beside the deployment that holds the image: the store, and `tmp`. -/
def residue (d : Target) : Option (Bool × Bool) := d.fs.map fun fs => (fs.store, fs.tmp)

/-- Nothing of the image but its deployment is on the disk. -/
def Swept (d : Target) : Prop := ∀ left ∈ d.residue, left = (false, false)

end Target

variable {t : Attempt} {d₀ : Target} {s : State} {C Q F : State → Prop}

/-! ### What a run holds open, the trap closes -/

/-- What `cleanup` relies on: it takes the mounts off with the root, it closes a container only
where it may have been opened, and it can reach what is to go from the disk. -/
structure Way (t : Attempt) (d₀ : Target) (s : State) : Prop where
  boot : s.session.boot = true → s.session.root = true
  efi : s.session.efi = true → s.session.root = true
  mapper : s.session.mapper = true → t.stdin.isSome = true
  fs : s.session.top = true ∨ s.disk.residue = d₀.residue ∨ s.disk.Swept

namespace Way

/-- A command that mounts nothing and leaves nothing behind is none of the trap's business. -/
theorem of_eq {s' : State} (h : Way t d₀ s) (hsession : s'.session = s.session)
    (hfs : s'.disk.residue = s.disk.residue) : Way t d₀ s' := by
  refine ⟨?_, ?_, ?_, ?_⟩
  · rw [hsession]
    exact h.boot
  · rw [hsession]
    exact h.efi
  · rw [hsession]
    exact h.mapper
  · unfold Target.Swept
    rw [hsession, hfs]
    exact h.fs

/-- Neither is one that writes to a filesystem whose top is mounted. -/
theorem withFs (h : Way t d₀ s) (htop : s.session.top = true) (f : Filesystem → Filesystem) :
    Way t d₀ (s.withFs f) := ⟨h.boot, h.efi, h.mapper, .inl htop⟩

/-- A filesystem just made has nothing of the image on it. -/
theorem of_swept {s' : State} (h : Way t d₀ s) (hsession : s'.session = s.session)
    (hfs : s'.disk.Swept) : Way t d₀ s' := by
  refine ⟨?_, ?_, ?_, .inr (.inr hfs)⟩
  · rw [hsession]
    exact h.boot
  · rw [hsession]
    exact h.efi
  · rw [hsession]
    exact h.mapper

end Way

theorem swept_of_none {d : Target} (h : d.fs = none) : d.Swept := by
  intro left hleft
  rw [Target.residue, h] at hleft
  cases hleft

theorem residue_withFs (s : State) {f : Filesystem → Filesystem}
    (h : ∀ fs, (f fs).store = fs.store ∧ (f fs).tmp = fs.tmp) :
    (s.withFs f).disk.residue = s.disk.residue := by
  unfold State.withFs Target.residue
  rw [Option.map_map]
  exact congrFun (congrArg Option.map (funext fun fs => by simp [h fs])) s.disk.fs

theorem keeps_plain (c : Step) : Script.Keeps (Way t d₀) (t.plain c) :=
  Script.keeps_guarded fun _ h _ => h

theorem keeps_withFs {c : Step} {p : State → Bool} {f : Filesystem → Filesystem} :
    Script.Keeps (Way t d₀) (t.command c (fun s => s.session.top && p s) (·.withFs f)) :=
  Script.keeps_guarded fun _ h hable => h.withFs ((Bool.and_eq_true _ _).mp hable).1 f

theorem keeps_top {c : Step} {f : Filesystem → Filesystem} :
    Script.Keeps (Way t d₀) (t.command c (·.session.top) (·.withFs f)) :=
  Script.keeps_guarded fun _ h htop => h.withFs htop f

theorem keeps_aside {c : Step} {able : State → Bool} {act : State → State}
    (hsession : ∀ s, (act s).session = s.session)
    (hfs : ∀ s, (act s).disk.residue = s.disk.residue) :
    Script.Keeps (Way t d₀) (t.command c able act) :=
  Script.keeps_guarded fun s h _ => h.of_eq (hsession s) (hfs s)

theorem keeps_luksScript (h : t.stdin.isSome = true) : Script.Keeps (Way t d₀) t.luksScript := by
  refine Script.keeps_block ?_
  simp only [List.forall_mem_cons, List.not_mem_nil, false_implies, implies_true, and_true]
  refine ⟨?_, ?_, keeps_plain .settle, keeps_aside (fun _ => rfl) fun _ => rfl⟩
  · exact Script.keeps_guarded fun s hs _ => hs.of_swept rfl (swept_of_none rfl)
  · exact Script.keeps_guarded fun s hs _ => ⟨hs.boot, hs.efi, fun _ => h, hs.fs⟩

theorem keeps_swapScript (mib : ℕ) : Script.Keeps (Way t d₀) (t.swapScript mib) := by
  refine Script.keeps_block ?_
  simp only [List.forall_mem_cons, List.not_mem_nil, false_implies, implies_true, and_true]
  refine ⟨?_, keeps_withFs, keeps_withFs, keeps_plain .chmod, ?_⟩
  · exact keeps_aside (fun _ => rfl) fun _ => rfl
  · exact keeps_aside (fun _ => rfl) fun _ => rfl

theorem keeps_formatScript : Script.Keeps (Way t d₀) t.formatScript := by
  refine Script.keeps_block ?_
  simp only [List.forall_mem_cons, List.not_mem_nil, false_implies, implies_true, and_true]
  refine ⟨keeps_aside (fun _ => rfl) fun _ => rfl, ?sfdisk, keeps_plain .settle,
    keeps_aside (fun _ => rfl) fun _ => rfl, keeps_aside (fun _ => rfl) fun _ => rfl,
    ?luks, ?mkfs, ?top, keeps_top, keeps_top, ?root, keeps_plain .mkdirBoot, ?boot,
    keeps_plain .mkdirEfi, ?efi, ?swap⟩
  case sfdisk => exact Script.keeps_guarded fun s hs _ => hs.of_swept rfl (swept_of_none rfl)
  case luks =>
    split_ifs with h
    · exact keeps_luksScript h
    · exact Script.keeps_done
  case mkfs =>
    refine Script.keeps_guarded fun s hs _ => hs.of_swept rfl fun left hleft => ?_
    exact (Option.mem_some_iff.mp hleft).symm
  case top => exact Script.keeps_guarded fun s hs _ => ⟨hs.boot, hs.efi, hs.mapper, .inl rfl⟩
  case root =>
    exact Script.keeps_guarded fun s hs _ => ⟨fun _ => rfl, fun _ => rfl, hs.mapper, hs.fs⟩
  case boot =>
    refine Script.keeps_guarded fun s hs hable => ?_
    exact ⟨fun _ => ((Bool.and_eq_true _ _).mp hable).1, hs.efi, hs.mapper, hs.fs⟩
  case efi =>
    refine Script.keeps_guarded fun s hs hable => ?_
    exact ⟨hs.boot, fun _ => hs.boot ((Bool.and_eq_true _ _).mp hable).1, hs.mapper, hs.fs⟩
  case swap =>
    cases t.swapMib with
    | none => exact Script.keeps_done
    | some mib => exact keeps_swapScript mib

theorem keeps_storeScript : Script.Keeps (Way t d₀) t.storeScript := by
  refine Script.keeps_block ?_
  simp only [List.forall_mem_cons, List.not_mem_nil, false_implies, implies_true, and_true]
  refine ⟨keeps_plain .mkdirHost, keeps_top, ?bind, keeps_aside (fun _ => rfl) fun _ => rfl,
    keeps_aside (fun _ => rfl) fun _ => rfl, ?conf, keeps_plain .writeConf,
    keeps_aside (fun _ => rfl) fun _ => rfl⟩
  case bind =>
    split_ifs
    · exact Script.keeps_guarded fun s hs _ => ⟨hs.boot, hs.efi, hs.mapper, hs.fs⟩
    · exact Script.keeps_done
  case conf => exact Script.keeps_guarded fun s hs _ => ⟨hs.boot, hs.efi, hs.mapper, hs.fs⟩

theorem keeps_bootc : Script.Keeps (Way t d₀) t.bootc := by
  refine Script.keeps_look fun s => ?_
  cases t.kargs s.vars with
  | none => exact Script.keeps_fail
  | some kargs =>
    cases s.vars.bootUuid with
    | none => exact Script.keeps_fail
    | some bootUuid =>
      exact keeps_aside (fun _ => rfl) fun s => residue_withFs _ fun _ => ⟨rfl, rfl⟩

theorem keeps_swapFstab : Script.Keeps (Way t d₀) t.swapFstab := by
  refine Script.keeps_look fun s => ?_
  cases s.deployment.bind (·.fstab) with
  | none => exact Script.keeps_fail
  | some text =>
    cases s.vars.fsUuid with
    | none => exact Script.keeps_fail
    | some fsUuid =>
      refine Script.keeps_block ?_
      simp only [List.forall_mem_cons, List.not_mem_nil, false_implies, implies_true, and_true]
      refine ⟨?_, keeps_plain .mkdirLid, ?_⟩
      · exact keeps_aside (fun _ => rfl) fun s => residue_withFs s fun _ => ⟨rfl, rfl⟩
      · exact keeps_aside (fun _ => rfl) fun s => residue_withFs s fun _ => ⟨rfl, rfl⟩

theorem keeps_body : Script.Keeps (Way t d₀) t.body := by
  refine Script.keeps_block ?_
  simp only [List.forall_mem_cons, List.not_mem_nil, false_implies, implies_true, and_true]
  refine ⟨?loop, keeps_formatScript, keeps_storeScript, keeps_bootc, ?fstab⟩
  case loop =>
    split_ifs
    · exact Script.keeps_guarded fun s hs _ => ⟨hs.boot, hs.efi, hs.mapper, hs.fs⟩
    · exact Script.keeps_done
  case fstab =>
    split_ifs
    · exact keeps_swapFstab
    · exact Script.keeps_done

/-! ### What the trap leaves -/

/-- Nothing gets in the way of `cleanup`'s own commands. -/
def Attempt.Unwinds (t : Attempt) : Prop := ∀ c, c.unwinds = true → t.works c = true

/-- What `cleanup` makes of a state: the machine as it was, and the disk without the image's
residue where it can be reached. -/
def State.unwound (s : State) : State where
  disk := if s.session.top then ((s.withFs fun fs => { fs with store := false }).withFs fun fs =>
    { fs with tmp := false }).disk else s.disk
  session := .clean
  vars := s.vars

/-- A command of `cleanup` that is not able to act has nothing to do. -/
theorem wp_sweep_command {c : Step} {able : State → Bool} {act : State → State}
    (h : t.Unwinds) (hc : c.unwinds = true) (hidle : able s = false → act s = s)
    (hQ : Q (act s)) :
    (Script.tolerate (t.command c able act)).wp (fun _ => True) Q F s := by
  apply Script.wp_tolerate
  cases hable : able s with
  | false => exact Script.wp_guarded_of_not_able hable ⟨trivial, hidle hable ▸ hQ⟩
  | true => exact Script.wp_guarded_of_able (h c hc) hable ⟨trivial, hQ⟩

theorem store_of_idle (h : s.fsHas (·.store) = false) :
    s.withFs (fun fs => { fs with store := false }) = s := by
  obtain ⟨⟨table, esp, boot, luks, fs⟩, session, vars⟩ := s
  cases fs with
  | none => rfl
  | some fs =>
    obtain ⟨uuid, label, root, store, tmp, swap⟩ := fs
    obtain rfl : store = false := h
    rfl

theorem varTmp_of_idle (h : s.session.varTmp = false) :
    { s with session := { s.session with varTmp := false } } = s := by
  obtain ⟨disk, ⟨loop, mapper, top, root, boot, efi, varTmp, conf, points⟩, vars⟩ := s
  obtain rfl : varTmp = false := h
  rfl

theorem top_of_idle (h : s.session.top = false) :
    { s with session := { s.session with top := false } } = s := by
  obtain ⟨disk, ⟨loop, mapper, top, root, boot, efi, varTmp, conf, points⟩, vars⟩ := s
  obtain rfl : top = false := h
  rfl

theorem mapper_of_idle (h : s.session.mapper = false) :
    { s with session := { s.session with mapper := false } } = s := by
  obtain ⟨disk, ⟨loop, mapper, top, root, boot, efi, varTmp, conf, points⟩, vars⟩ := s
  obtain rfl : mapper = false := h
  rfl

theorem loop_of_idle (h : s.session.loop = false) :
    { s with session := { s.session with loop := false } } = s := by
  obtain ⟨disk, ⟨loop, mapper, top, root, boot, efi, varTmp, conf, points⟩, vars⟩ := s
  obtain rfl : loop = false := h
  rfl

theorem wp_sweep (h : t.Unwinds)
    (hQ : Q ⟨s.unwound.disk, { s.session with varTmp := false, top := false }, s.vars⟩) :
    t.sweep.wp (fun _ => True) Q F s := by
  cases hmounted : s.session.top with
  | true =>
    refine Script.wp_block_cons (wp_sweep_command h rfl (fun hidle => ?_) ?_)
    · rw [hmounted, Bool.true_and] at hidle
      exact store_of_idle hidle
    refine Script.wp_block_cons (wp_sweep_command h rfl varTmp_of_idle ?_)
    refine Script.wp_block_cons (wp_sweep_command h rfl (fun hidle => ?_) ?_)
    · exact nomatch hmounted.symm.trans hidle
    refine Script.wp_block_cons (wp_sweep_command h rfl (fun hidle => nomatch hidle) ?_)
    refine Script.wp_block_cons (wp_sweep_command h rfl (fun hidle => ?_) ?_)
    · exact nomatch hmounted.symm.trans hidle
    rw [State.unwound, if_pos hmounted] at hQ
    exact hQ
  | false =>
    have hunable : (s.session.top && s.fsHas (·.store)) = false := by
      rw [hmounted, Bool.false_and]
    refine Script.wp_block_cons
      (Script.wp_tolerate (Script.wp_guarded_of_not_able hunable ⟨trivial, ?_⟩))
    refine Script.wp_block_cons (wp_sweep_command h rfl varTmp_of_idle ?_)
    refine Script.wp_block_cons
      (Script.wp_tolerate (Script.wp_guarded_of_not_able hmounted ⟨trivial, ?_⟩))
    refine Script.wp_block_cons (wp_sweep_command h rfl (fun hidle => nomatch hidle) ?_)
    refine Script.wp_block_cons (wp_sweep_command h rfl top_of_idle ?_)
    rw [State.unwound, if_neg (hmounted ▸ Bool.false_ne_true)] at hQ
    exact hQ

theorem wp_release (h : t.Unwinds) (htop : s.session.top = false) (hroot : s.session.root = false)
    (hQ : Q { s with
      session := { s.session with loop := false, conf := false, points := false } }) :
    t.release.wp (fun _ => True) Q F s := by
  refine Script.wp_block_cons (wp_sweep_command h rfl (fun hidle => nomatch hidle) ?_)
  refine Script.wp_block_cons (wp_sweep_command h rfl (fun hidle => ?_) ?_)
  · exfalso
    revert hidle
    simp [htop, hroot]
  · exact Script.wp_block_cons (wp_sweep_command h rfl loop_of_idle hQ)

theorem wp_cleanup (h : t.Unwinds) (hs : Way t d₀ s) (hQ : Q s.unwound) :
    t.cleanup.wp (fun _ => True) Q F s := by
  refine Script.wp_block_cons (wp_sweep_command h rfl (fun hidle => ?_) ?_)
  · obtain ⟨disk, ⟨loop, mapper, top, root, boot, efi, varTmp, conf, points⟩, vars⟩ := s
    obtain rfl : root = false := hidle
    obtain rfl : boot = false := Bool.eq_false_iff.mpr fun hboot => nomatch hs.boot hboot
    obtain rfl : efi = false := Bool.eq_false_iff.mpr fun hefi => nomatch hs.efi hefi
    rfl
  refine Script.wp_block_cons (wp_sweep h (Script.wp_block_cons ?_))
  split_ifs with hencrypt
  · refine wp_sweep_command h rfl (fun hidle => mapper_of_idle ?_) ?_
    · simpa using hidle
    · exact Script.wp_block_cons (wp_release h rfl rfl hQ)
  · have hmapper : s.session.mapper = false :=
      Bool.eq_false_iff.mpr fun hmapper => hencrypt (hs.mapper hmapper)
    refine Script.wp_block_cons (wp_release h rfl rfl ?_)
    have hclean : s.unwound =
        { s.unwound with session := { Session.clean with mapper := s.session.mapper } } := by
      rw [hmapper]
      rfl
    rw [hclean] at hQ
    exact hQ

/-! ### What an install that goes through writes -/

/-- The passphrase that arrives is one, and the image has an fstab for the swapfile. -/
structure Attempt.Given (t : Attempt) : Prop where
  passphrase : ∀ text ∈ t.stdin, readLine text ≠ []
  fstab : t.swapMib.isSome = true → t.imageFstab.isSome = true

/-- Nothing stops the install. -/
structure Attempt.Goes (t : Attempt) : Prop extends t.Given where
  works : ∀ c, c.unwinds = false → t.works c = true

/-- A command that is able to act stops the install only where it does not work. -/
theorem wp_step_or {c : Step} {able : State → Bool} {act : State → State} (hable : able s = true)
    (hc : c.unwinds = false) (hF : ¬ t.Goes → F s) (hQ : Q (act s)) :
    (t.command c able act).wp (fun _ => True) Q F s := by
  cases hworks : t.works c with
  | true => exact Script.wp_guarded_of_able hworks hable ⟨trivial, hQ⟩
  | false =>
    refine Script.wp_guarded ⟨trivial, hF fun h => ?_⟩ fun h _ => ?_
    · exact nomatch hworks.symm.trans (h.works c hc)
    · exact nomatch hworks.symm.trans h

theorem wp_step {c : Step} {able : State → Bool} {act : State → State} (hable : able s = true)
    (hc : c.unwinds = false) (hQ : Q (act s)) :
    (t.command c able act).wp (fun _ => True) Q (fun _ => ¬ t.Goes) s :=
  wp_step_or hable hc id hQ

namespace Attempt
variable (t : Attempt)

def passphrase : List Char := (t.stdin.map readLine).getD []

def luks : Option Luks := t.stdin.map fun text => ⟨t.luksUuid, readLine text⟩

def swapfile : Option Swapfile := t.swapMib.map fun mib => ⟨t.offset, mib⟩

/-- The state in which the format ends. -/
def formatted : State where
  disk := {
    table := t.layout.map sfdiskLine
    esp := true
    boot := some ⟨t.bootUuid, none⟩
    luks := t.luks
    fs := some ⟨t.fsUuid, ROOT_LABEL, some none, true, false, t.swapfile.map some⟩ }
  session := ⟨t.file, t.stdin.isSome, true, true, true, true, false, false, true⟩
  vars := {
    passphrase := t.passphrase
    luksUuid := t.luks.map (·.uuid)
    fsUuid := t.swapfile.map fun _ => t.fsUuid
    swapOffset := t.swapfile.map (·.offset)
    bootUuid := none }

end Attempt

/-- The state in which the container is there, or not asked for. -/
def Attempt.opened (t : Attempt) : State where
  disk := ⟨t.layout.map sfdiskLine, true, some ⟨t.bootUuid, none⟩, t.luks, none⟩
  session := ⟨t.file, t.stdin.isSome, false, false, false, false, false, false, true⟩
  vars := ⟨t.passphrase, t.luks.map (·.uuid), none, none, none⟩

theorem wp_luksScript (hQ : Q t.opened) :
    (if t.stdin.isSome then t.luksScript else .done).wp (fun _ => True) Q (fun _ => ¬ t.Goes)
      ⟨⟨t.layout.map sfdiskLine, true, some ⟨t.bootUuid, none⟩, none, none⟩,
        ⟨t.file, false, false, false, false, false, false, false, true⟩,
        ⟨t.passphrase, none, none, none, none⟩⟩ := by
  obtain ⟨layout, stdin, swapMib, updates, file, memory, luksUuid, fsUuid, bootUuid, offset,
    imageKargs, imageFstab, works⟩ := t
  cases stdin with
  | none => exact hQ
  | some text =>
    refine Script.wp_block_cons (wp_step rfl rfl ?_)
    refine Script.wp_block_cons (wp_step (decide_eq_true rfl) rfl ?_)
    refine Script.wp_block_cons (wp_step rfl rfl ?_)
    exact Script.wp_block_cons (wp_step rfl rfl hQ)

theorem reachable_opened : t.opened.reachable = true := by
  obtain ⟨layout, stdin, swapMib, updates, file, memory, luksUuid, fsUuid, bootUuid, offset,
    imageKargs, imageFstab, works⟩ := t
  cases stdin with
  | none => rfl
  | some text => rfl

/-- The filesystem made and mounted. -/
def Attempt.mounted (t : Attempt) : State :=
  { t.opened with
    disk := { t.opened.disk with fs := some ⟨t.fsUuid, ROOT_LABEL, some none, true, false, none⟩ }
    session := ⟨t.file, t.stdin.isSome, true, true, true, true, false, false, true⟩ }

theorem wp_swapScript (hQ : Q t.formatted) :
    (t.swapMib.elim .done t.swapScript).wp (fun _ => True) Q (fun _ => ¬ t.Goes) t.mounted := by
  have hreachable : t.mounted.reachable = true := reachable_opened (t := t)
  obtain ⟨layout, stdin, swapMib, updates, file, memory, luksUuid, fsUuid, bootUuid, offset,
    imageKargs, imageFstab, works⟩ := t
  cases swapMib with
  | none => exact hQ
  | some mib =>
    refine Script.wp_block_cons (wp_step hreachable rfl ?_)
    refine Script.wp_block_cons (wp_step rfl rfl ?_)
    refine Script.wp_block_cons (wp_step rfl rfl ?_)
    refine Script.wp_block_cons (wp_step rfl rfl ?_)
    exact Script.wp_block_cons (wp_step rfl rfl hQ)

theorem wp_formatScript {disk : Target} (hQ : Q t.formatted) :
    t.formatScript.wp (fun _ => True) Q (fun _ => ¬ t.Goes)
      ⟨disk, ⟨t.file, false, false, false, false, false, false, false, true⟩,
        ⟨t.passphrase, none, none, none, none⟩⟩ := by
  have hreachable : t.opened.reachable = true := reachable_opened
  refine Script.wp_block_cons (wp_step rfl rfl ?_)
  refine Script.wp_block_cons (wp_step rfl rfl ?_)
  refine Script.wp_block_cons (wp_step rfl rfl ?_)
  refine Script.wp_block_cons (wp_step rfl rfl ?_)
  refine Script.wp_block_cons (wp_step rfl rfl ?_)
  refine Script.wp_block_cons (wp_luksScript ?_)
  refine Script.wp_block_cons (wp_step hreachable rfl ?_)
  refine Script.wp_block_cons (wp_step ((Bool.and_true _).trans hreachable) rfl ?_)
  refine Script.wp_block_cons (wp_step rfl rfl ?_)
  refine Script.wp_block_cons (wp_step rfl rfl ?_)
  refine Script.wp_block_cons (wp_step ((Bool.and_true _).trans hreachable) rfl ?_)
  refine Script.wp_block_cons (wp_step rfl rfl ?_)
  refine Script.wp_block_cons (wp_step rfl rfl ?_)
  refine Script.wp_block_cons (wp_step rfl rfl ?_)
  refine Script.wp_block_cons (wp_step rfl rfl ?_)
  exact Script.wp_block_cons (wp_swapScript hQ)

/-- The image is in the store, and its number asked for. -/
def Attempt.stored (t : Attempt) : State where
  disk := { t.formatted.disk with
    fs := some ⟨t.fsUuid, ROOT_LABEL, some none, true, true, t.swapfile.map some⟩ }
  session := ⟨t.file, t.stdin.isSome, true, true, true, true, t.memory, true, true⟩
  vars := { t.formatted.vars with bootUuid := some t.bootUuid }

theorem wp_storeScript (hQ : Q t.stored) :
    t.storeScript.wp (fun _ => True) Q (fun _ => ¬ t.Goes) t.formatted := by
  obtain ⟨layout, stdin, swapMib, updates, file, memory, luksUuid, fsUuid, bootUuid, offset,
    imageKargs, imageFstab, works⟩ := t
  refine Script.wp_block_cons (wp_step rfl rfl ?_)
  refine Script.wp_block_cons (wp_step rfl rfl (Script.wp_block_cons ?_))
  cases memory with
  | false =>
    refine Script.wp_block_cons (wp_step rfl rfl ?_)
    refine Script.wp_block_cons (wp_step rfl rfl ?_)
    refine Script.wp_block_cons (wp_step rfl rfl ?_)
    refine Script.wp_block_cons (wp_step rfl rfl ?_)
    exact Script.wp_block_cons (wp_step rfl rfl hQ)
  | true =>
    refine wp_step rfl rfl ?_
    refine Script.wp_block_cons (wp_step rfl rfl ?_)
    refine Script.wp_block_cons (wp_step rfl rfl ?_)
    refine Script.wp_block_cons (wp_step rfl rfl ?_)
    refine Script.wp_block_cons (wp_step rfl rfl ?_)
    exact Script.wp_block_cons (wp_step rfl rfl hQ)

namespace Attempt
variable (t : Attempt)

/-- The arguments of the installed kernel. -/
def installedKargs : List (List Char) :=
  t.imageKargs ++ (ROOT_KARG ++ ROOT_LABEL) :: ROOT_FLAGS ::
    ((t.luks.map fun luks => LUKS_KARG ++ luks.uuid).toList ++
      (t.swapfile.map fun file =>
        Hibernate.kargs t.fsUuid.text (Nat.toDigits 10 file.offset)).getD [])

def deployed : Deployment where
  updates := t.updates
  bootSpec := "UUID=".toList ++ t.bootUuid
  fstab := if t.swapMib.isSome then t.imageFstab.map (· ++ fstabLines t.fsUuid) else t.imageFstab
  lid := t.swapMib.isSome

/-- The disk that an install leaves. -/
def installed : Target where
  table := t.layout.map sfdiskLine
  esp := true
  boot := some ⟨t.bootUuid, some t.installedKargs⟩
  luks := t.luks
  fs := some ⟨t.fsUuid, ROOT_LABEL, some (some t.deployed), false, false, t.swapfile.map some⟩

end Attempt

theorem kargs_stored : t.kargs t.stored.vars = some t.installedKargs := by
  obtain ⟨layout, stdin, swapMib, updates, file, memory, luksUuid, fsUuid, bootUuid, offset,
    imageKargs, imageFstab, works⟩ := t
  cases stdin <;> cases swapMib <;> rfl

/-- The image deployed, and nothing of the swapfile said in it. -/
def Attempt.handed (t : Attempt) : State :=
  { t.stored with
    disk := { t.stored.disk with
      boot := some ⟨t.bootUuid, some t.installedKargs⟩
      fs := some ⟨t.fsUuid, ROOT_LABEL, some (some
        ⟨t.updates, "UUID=".toList ++ t.bootUuid, t.imageFstab, false⟩), true, true,
        t.swapfile.map some⟩ } }

theorem wp_bootc (hQ : Q t.handed) :
    t.bootc.wp (fun _ => True) Q (fun _ => ¬ t.Goes) t.stored := by
  show Script.wp _ (match t.kargs t.stored.vars, t.stored.vars.bootUuid with
    | some kargs, some bootUuid => _
    | _, _ => .fail : Script State) _ _ _
  rw [kargs_stored]
  exact wp_step rfl rfl hQ

/-- The install has gone through, and nothing is taken down yet. -/
def Attempt.done (t : Attempt) : State :=
  { t.stored with
    disk := { t.installed with
      fs := t.installed.fs.map fun fs => { fs with store := true, tmp := true } } }

theorem wp_swapFstab (hQ : (t.swapMib.isSome = true → t.imageFstab.isSome = true) → Q t.done) :
    (if t.swapMib.isSome then t.swapFstab else .done).wp (fun _ => True) Q (fun _ => ¬ t.Goes)
      t.handed := by
  obtain ⟨layout, stdin, swapMib, updates, file, memory, luksUuid, fsUuid, bootUuid, offset,
    imageKargs, imageFstab, works⟩ := t
  cases swapMib with
  | none => exact hQ fun hnone => nomatch hnone
  | some mib =>
    cases imageFstab with
    | none =>
      refine Script.wp_fail (C := fun _ => True) (F := fun _ => ¬ Attempt.Goes _) trivial ?_
      exact fun h => nomatch h.fstab rfl
    | some text =>
      refine Script.wp_block_cons (wp_step rfl rfl ?_)
      refine Script.wp_block_cons (wp_step rfl rfl ?_)
      exact Script.wp_block_cons (wp_step rfl rfl (hQ fun _ => rfl))

theorem wp_body {disk : Target}
    (hQ : (t.swapMib.isSome = true → t.imageFstab.isSome = true) → Q t.done) :
    t.body.wp (fun _ => True) Q (fun _ => ¬ t.Goes)
      ⟨disk, { Session.clean with points := true }, ⟨t.passphrase, none, none, none, none⟩⟩ := by
  have hrest : ∀ disk : Target,
      (Script.block [t.formatScript, t.storeScript, t.bootc,
        if t.swapMib.isSome then t.swapFstab else .done]).wp (fun _ => True) Q (fun _ => ¬ t.Goes)
        ⟨disk, ⟨t.file, false, false, false, false, false, false, false, true⟩,
          ⟨t.passphrase, none, none, none, none⟩⟩ := by
    intro disk
    refine Script.wp_block_cons (wp_formatScript (Script.wp_block_cons (wp_storeScript ?_)))
    exact Script.wp_block_cons (wp_bootc (Script.wp_block_cons (wp_swapFstab hQ)))
  apply Script.wp_block_cons
  cases hfile : t.file with
  | false =>
    have hloop := hrest disk
    rw [hfile] at hloop
    exact hloop
  | true =>
    have hloop := hrest disk
    rw [hfile] at hloop
    exact wp_step rfl rfl hloop

/-- However the script ends, the machine is as it was, and the disk is what it was made into. -/
structure Unwound (d₀ : Target) (s : State) : Prop where
  session : s.session = .clean
  residue : s.disk.residue = d₀.residue ∨ s.disk.Swept

theorem Way.unwound (h : Way t d₀ s) : Unwound d₀ s.unwound := by
  refine ⟨rfl, ?_⟩
  unfold State.unwound
  split_ifs with htop
  · right
    intro left hleft
    cases hfs : s.disk.fs with
    | none =>
      simp [State.withFs, Target.residue, hfs] at hleft
    | some fs =>
      simp [State.withFs, Target.residue, hfs] at hleft
      exact hleft.symm
  · exact h.fs.resolve_left htop

/-- An install that has gone through. -/
structure Through (t : Attempt) (s : State) : Prop extends t.Given where
  disk : s.disk = t.installed
  session : s.session = .clean

/-- From the passphrase on. -/
theorem wp_readied (disk : Target) (h : t.Unwinds)
    (hpassphrase : ∀ text ∈ t.stdin, readLine text ≠ []) :
    (Script.block [
      t.command .mkdirPoints (fun _ => true) fun s =>
        { s with session := { s.session with points := true } },
      .trapped t.body t.cleanup]).wp (fun _ => True) (Through t)
        (fun s => Unwound disk s ∧ ¬ t.Goes)
        ⟨disk, .clean, ⟨t.passphrase, none, none, none, none⟩⟩ := by
  refine Script.wp_block_cons (wp_step_or rfl rfl (fun hstopped => ?_) ?_)
  · exact ⟨⟨rfl, .inl rfl⟩, hstopped⟩
  have hway : Way t disk
      ⟨disk, { Session.clean with points := true }, ⟨t.passphrase, none, none, none, none⟩⟩ :=
    ⟨(fun hboot => nomatch hboot), (fun hefi => nomatch hefi), (fun hmapper => nomatch hmapper),
      .inr (.inl rfl)⟩
  have hbody := Script.wp_and (keeps_body _ hway)
    (wp_body (Q := fun s => s = t.done ∧ t.Given) fun hfstab => ⟨rfl, hpassphrase, hfstab⟩)
  refine Script.wp_block_cons
    (Script.wp_trapped (Script.wp_of_le (fun _ _ => trivial) hbody) ?_ ?_)
  · rintro s ⟨hs, rfl, hgiven⟩
    exact wp_cleanup h hs ⟨hgiven, rfl, rfl⟩
  · rintro s ⟨hs, hstopped⟩
    exact Script.wp_mono (fun s' hs' => ⟨trivial, hs'⟩) (fun _ => id)
      (wp_cleanup h hs ⟨hs.unwound, hstopped⟩)

theorem wp_installScript (hclean : s.session = .clean) (h : t.Unwinds) :
    t.installScript.wp (fun _ => True) (Through t) (fun s' => Unwound s.disk s' ∧ ¬ t.Goes) s := by
  obtain ⟨disk, session, vars⟩ := s
  obtain rfl : session = .clean := hclean
  have hreadied := wp_readied disk h
  unfold Attempt.passphrase at hreadied
  refine Script.wp_block_cons ⟨trivial, Script.wp_block_cons ?_⟩
  unfold Attempt.readPass
  cases hstdin : t.stdin with
  | none =>
    rw [hstdin] at hreadied
    exact hreadied fun text htext => nomatch htext
  | some text =>
    rw [hstdin] at hreadied
    refine Script.wp_block_cons ⟨trivial, Script.wp_block_cons ?_⟩
    change Script.wp _ (if readLine text = [] then .fail else .done) _ _ _
    split_ifs with hempty
    · refine Script.wp_fail trivial ⟨⟨rfl, .inl rfl⟩, fun h => h.passphrase text ?_ hempty⟩
      rw [hstdin]
      rfl
    · refine hreadied fun text' htext' => ?_
      obtain rfl : text = text' := Option.mem_some_iff.mp htext'
      exact hempty

theorem swept_installed : t.installed.Swept :=
  fun _ hleft => (Option.mem_some_iff.mp hleft).symm

/-- An install that nothing stops goes through from whatever disk. -/
theorem ok_of_goes (hclean : s.session = .clean) (h : t.Unwinds) (hgoes : t.Goes) :
    (t.installScript.exec s).2 = true := by
  cases hok : (t.installScript.exec s).2 with
  | true => rfl
  | false => exact absurd hgoes ((Script.wp_sound (wp_installScript hclean h)).2.2 hok).2

theorem through_of_ok (hclean : s.session = .clean) (h : t.Unwinds)
    (hok : (t.installScript.exec s).2 = true) : Through t (t.installScript.final s) :=
  (Script.wp_sound (wp_installScript hclean h)).2.1 hok

/-! ### One install after another -/

/-- An install, and where the power goes in it if it does. -/
structure Event where
  attempt : Attempt
  power : Option ℕ

/-- A machine that comes up again holds nothing open. -/
def Event.step (s : State) (e : Event) : State :=
  match e.power with
  | none => e.attempt.installScript.final s
  | some k => { e.attempt.installScript.cut k s with session := .clean }

theorem clean_step (e : Event) (hclean : s.session = .clean) (h : e.attempt.Unwinds) :
    (e.step s).session = .clean ∧
      (e.power = none → s.disk.Swept → (e.step s).disk.Swept) := by
  obtain ⟨t, power⟩ := e
  cases power with
  | some k => exact ⟨rfl, fun hnone => nomatch hnone⟩
  | none =>
    have hend : t.installScript.wp (fun _ => True)
        (fun s' => s'.session = .clean ∧ (s.disk.Swept → s'.disk.Swept))
        (fun s' => s'.session = .clean ∧ (s.disk.Swept → s'.disk.Swept)) s := by
      refine Script.wp_mono (fun s' hs' => ⟨hs'.session, fun _ => ?_⟩) (fun s' hs' => ?_)
        (wp_installScript hclean h)
      · rw [hs'.disk]
        exact swept_installed
      · refine ⟨hs'.1.session, fun hswept => hs'.1.residue.elim (fun hsame => ?_) id⟩
        unfold Target.Swept
        rw [hsame]
        exact hswept
    exact ⟨(Script.final_of_wp_wp hend).1, fun _ => (Script.final_of_wp_wp hend).2⟩

theorem clean_run (hclean : s.session = .clean) {events : List Event}
    (h : ∀ e ∈ events, e.attempt.Unwinds) :
    (run Event.step s events).session = .clean :=
  run_invariant (P := fun _ e => e.attempt.Unwinds) (I := fun s : State => s.session = .clean)
    (fun _ e hs he => (clean_step e hs he).1) hclean (along_of_forall h)

theorem swept_run (hclean : s.session = .clean) {events : List Event}
    (h : ∀ e ∈ events, e.attempt.Unwinds) (hpower : ∀ e ∈ events, e.power = none)
    (hswept : s.disk.Swept) : (run Event.step s events).disk.Swept := by
  have hstep : ∀ s (e : Event), s.session = .clean ∧ s.disk.Swept →
      e.attempt.Unwinds ∧ e.power = none →
      (e.step s).session = .clean ∧ (e.step s).disk.Swept := by
    intro s e hs he
    have hnext := clean_step e hs.1 he.1
    exact ⟨hnext.1, hnext.2 he.2 hs.2⟩
  exact (run_invariant hstep ⟨hclean, hswept⟩
    (along_of_forall fun e he => ⟨h e he, hpower e he⟩)).2

theorem readLine_eq {text : List Char} (h : '\n' ∉ text) (hnul : '\x00' ∉ text) :
    readLine (text ++ ['\n']) = text := by
  have hall : ∀ c ∈ text, (decide (c ≠ '\n')) = true := by
    intro c hc
    exact decide_eq_true fun heq => h (heq ▸ hc)
  unfold readLine
  rw [List.takeWhile_append_of_pos hall]
  simp only [List.takeWhile_cons, ne_eq, not_true, decide_false, Bool.false_eq_true, if_false,
    List.append_nil]
  rw [List.filter_eq_self]
  exact fun c hc => decide_eq_true fun heq => hnul (heq ▸ hc)

/-- The machine that an installed disk is, before its first boot mounts anything. -/
def Attempt.machine (t : Attempt) : Hibernate.Machine where
  subvol := t.swapfile.map some
  fstab := t.deployed.fstab.getD []
  mounted := false
  active := false
  tops := 0
  lid := t.swapMib.isSome
  cmdline := [' '].intercalate t.installedKargs
  kargs := t.installedKargs

theorem unlocked_installed (typed : List Char) :
    t.installed.unlocked t.installedKargs typed =
      if ∀ luks ∈ t.luks, typed = luks.key then t.installed.fs else none := by
  unfold Target.unlocked
  show (match t.luks with | none => _ | some luks => _) = _
  unfold Attempt.installedKargs
  cases t.luks with
  | none => simp
  | some luks =>
    have hkarg : (LUKS_KARG ++ luks.uuid) ∈ t.imageKargs ++ (ROOT_KARG ++ ROOT_LABEL) ::
        ROOT_FLAGS :: (((some luks).map fun luks => LUKS_KARG ++ luks.uuid).toList ++
          (t.swapfile.map fun file =>
            Hibernate.kargs t.fsUuid.text (Nat.toDigits 10 file.offset)).getD []) := by
      simp
    simp only [hkarg, true_and, Option.mem_some_iff, forall_eq']

theorem start_installed (typed : List Char) :
    t.installed.start typed =
      if ∀ luks ∈ t.luks, typed = luks.key then some t.machine else none := by
  have hroot : (ROOT_KARG ++ ROOT_LABEL) ∈ t.installedKargs := by simp [Attempt.installedKargs]
  have hflags : ROOT_FLAGS ∈ t.installedKargs := by simp [Attempt.installedKargs]
  show ((t.installed.unlocked t.installedKargs typed).bind fun fs => fs.root.join.bind
    fun deployed => if (ROOT_KARG ++ fs.label) ∈ t.installedKargs ∧ ROOT_FLAGS ∈ t.installedKargs ∧
      deployed.bootSpec = "UUID=".toList ++ t.bootUuid then some _ else none) = _
  rw [unlocked_installed]
  split_ifs with htyped
  · show (if (ROOT_KARG ++ ROOT_LABEL) ∈ t.installedKargs ∧ ROOT_FLAGS ∈ t.installedKargs ∧
      "UUID=".toList ++ t.bootUuid = "UUID=".toList ++ t.bootUuid then some _ else none) = _
    rw [if_pos ⟨hroot, hflags, rfl⟩]
    rfl
  · rfl

/-- The machine that an install makes is sound, and with a swapfile it resumes from it. -/
theorem sound_machine (h : t.swapMib = none →
    (Text.lines (t.imageFstab.getD [])).any Hibernate.isOpen = false) :
    Hibernate.Sound t.machine := by
  refine ⟨fun hlisted => ?_, (fun hmounted => nomatch hmounted), fun hactive => nomatch hactive⟩
  cases hswap : t.swapMib with
  | some mib => simp [Hibernate.Machine.file, Attempt.machine, Attempt.swapfile, hswap]
  | none =>
    have hbare := h hswap
    simp only [Hibernate.Machine.listed, Attempt.machine, Attempt.deployed, hswap] at hlisted
    exact absurd (hbare.symm.trans hlisted) Bool.false_ne_true

theorem listed_machine (h : t.swapMib.isSome = true) (himage : t.imageFstab.isSome = true) :
    t.machine.listed = true := by
  obtain ⟨text, htext⟩ := Option.isSome_iff_exists.mp himage
  have hfstab : t.machine.fstab = text ++ fstabLines t.fsUuid := by
    simp [Attempt.machine, Attempt.deployed, h, htext]
  unfold Hibernate.Machine.listed
  rw [hfstab]
  exact Hibernate.listed_append { t.machine with fstab := text } t.fsUuid

/-- What an install makes of hibernating: a machine that is sound whatever is done about it later,
and with a swapfile one that swaps to it at once and is told where it lies. -/
structure Hibernates (t : Attempt) (m : Hibernate.Machine) : Prop where
  sound : ∀ events, Hibernate.Sound (run Hibernate.Event.step m events)
  file : m.file = t.swapfile
  lid : m.lid = t.swapMib.isSome
  active : (Hibernate.boot ⟨true, true⟩ m).active = t.swapMib.isSome
  resume : t.swapMib.isSome = true → Hibernate.resumeFromCmdline m.cmdline =
    (some ("UUID=".toList ++ t.fsUuid.text), some t.offset.val)

theorem resume_machine (h : t.swapMib.isSome = true)
    (huuid : ∀ c ∈ t.fsUuid.text, Text.isWhiteSpace c = false) :
    Hibernate.resumeFromCmdline t.machine.cmdline =
      (some ("UUID=".toList ++ t.fsUuid.text), some t.offset.val) := by
  obtain ⟨mib, hmib⟩ := Option.isSome_iff_exists.mp h
  have hkargs : t.installedKargs =
      (t.imageKargs ++ (ROOT_KARG ++ ROOT_LABEL) :: ROOT_FLAGS ::
        (t.luks.map fun luks => LUKS_KARG ++ luks.uuid).toList) ++
        Hibernate.kargs t.fsUuid.text (Nat.toDigits 10 t.offset.val) := by
    simp [Attempt.installedKargs, Attempt.swapfile, hmib]
  show Hibernate.resumeFromCmdline ([' '].intercalate t.installedKargs) = _
  rw [hkargs]
  exact Hibernate.resumeFromCmdline_kargs t.offset.isLt huuid

theorem hibernates_machine (hgiven : t.Given)
    (hfstab : (Text.lines (t.imageFstab.getD [])).any Hibernate.isOpen = false)
    (huuid : ∀ c ∈ t.fsUuid.text, Text.isWhiteSpace c = false) : Hibernates t t.machine := by
  have hsound : Hibernate.Sound t.machine := sound_machine fun _ => hfstab
  have hfile : t.machine.file = t.swapfile := by
    show (t.swapfile.map some).join = t.swapfile
    cases t.swapfile <;> rfl
  have hsome : t.swapfile.isSome = t.swapMib.isSome := by
    unfold Attempt.swapfile
    cases t.swapMib <;> rfl
  refine ⟨fun events => ?_, hfile, rfl, ?_, fun hswap => resume_machine hswap huuid⟩
  · exact run_invariant (P := fun _ _ => True) (fun _ e hm _ => Hibernate.sound_step e hm) hsound
      fun _ _ => trivial
  · show (true && (true && t.machine.listed && t.machine.subvol.isSome) &&
      t.machine.file.isSome) = _
    rw [hfile, hsome]
    cases hswap : t.swapMib.isSome with
    | false => rw [Bool.and_false]
    | true =>
      have hsubvol : t.machine.subvol.isSome = true := by
        show (t.swapfile.map some).isSome = true
        rw [Option.isSome_map, hsome, hswap]
      rw [listed_machine hswap (hgiven.fstab hswap), hsubvol]
      rfl

/-- An encrypted disk with a swapfile, and a run of the script that nothing gets in the way of. -/
def Attempt.smooth (passphrase : List Char) : Attempt where
  layout := [⟨"EFI-SYSTEM", some 600, "uefi", ""⟩, ⟨"boot", some 2048, "linux", ""⟩,
    ⟨"root", none, "linux", ""⟩]
  stdin := some (passphrase ++ ['\n'])
  swapMib := some 8192
  updates := "ghcr.io/kuma"
  file := false
  memory := true
  luksUuid := "5e1f".toList
  fsUuid := ⟨"86bf".toList, by decide⟩
  bootUuid := "c0de".toList
  offset := 533760
  imageKargs := ["quiet".toList]
  imageFstab := some "LABEL=root / btrfs".toList
  works _ := true

/-- A disk that holds something else. -/
def State.used : State where
  disk := ⟨["label: dos"], false, none, none, none⟩
  session := .clean
  vars := ⟨[], none, none, none, none⟩

theorem unwinds_smooth (passphrase : List Char) : (Attempt.smooth passphrase).Unwinds :=
  fun _ _ => rfl

theorem goes_smooth : (Attempt.smooth "hunter2".toList).Goes :=
  ⟨⟨by decide, fun _ => rfl⟩, fun _ _ => rfl⟩

end Kuma.Install
