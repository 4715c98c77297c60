import Kuma.Hibernate.Fstab
import Kuma.Hibernate.Kargs
import Kuma.Install.Sizes
import Kuma.Lib.Run
import Kuma.Lib.Script
import Kuma.Lib.Splitting
import Kuma.Lib.Words
import Mathlib.Data.Bool.AllAny

/-! Hibernate turned on and off over a machine's whole history. Both verbs run a script and then
edit the kernel arguments; any command may fail, and a run may die after any of them. -/
namespace Kuma.Hibernate
open Kuma.Lib Kuma.Lib.Text

/-- A swapfile: where it begins on the disk, in pages, and its size. -/
structure Swapfile where
  offset : Fin (2 ^ 64)
  mib : ℕ
  deriving DecidableEq

structure Machine where
  /-- the subvolume at the top of the filesystem, and the file in it -/
  subvol : Option (Option Swapfile)
  fstab : List Char
  /-- whether `MOUNT` shows the subvolume -/
  mounted : Bool
  /-- whether the file is swapped to -/
  active : Bool
  /-- the mounts of the filesystem's top on `/run/kuma-swaptop` -/
  tops : ℕ
  lid : Bool
  /-- what the running kernel was told -/
  cmdline : List Char
  /-- what the next one will be -/
  kargs : List (List Char)

namespace Machine

/-- A machine on which nothing was ever set up. -/
def bare (fstab : List Char) (kargs : List (List Char)) : Machine where
  subvol := none
  fstab
  mounted := false
  active := false
  tops := 0
  lid := false
  cmdline := [' '].intercalate kargs
  kargs

def file (m : Machine) : Option Swapfile := m.subvol.join

/-- `Path::new(FILE).exists()` -/
def present (m : Machine) : Bool := m.mounted && m.file.isSome

/-- Whether the fstab asks for the swapfile at boot. -/
def listed (m : Machine) : Bool := (lines m.fstab).any isOpen

/-- The command line of the next kernel. -/
def nextCmdline (m : Machine) : List Char := [' '].intercalate m.kargs

end Machine

/-- The commands that may fail. -/
inductive Command
  | mkdir | mountTop | create | mkswapfile | chmod | mapSwapfile | blkid | append | umountTop
  | rmdir | reload | startMount | startSwap
  | swapoff | stopSwap | stopMount | umount | truncate | write | removeFile | deleteSubvol
  | removeLid
  | findmnt | installLid | setKargs
  deriving DecidableEq

/-- What one run of a verb meets. -/
structure Attempt where
  /-- `--size` -/
  size : Option String
  ramMib : Option ℕ
  /-- what `findmnt` has free, less the reserve -/
  spareMib : ℕ
  /-- where a new file comes to lie -/
  offset : Fin (2 ^ 64)
  fsUuid : FsUuid
  /-- whether `map-swapfile` answers, before and after -/
  asked : Bool
  askedAfter : Bool
  works : Command → Bool

/-- A run that nothing gets in the way of. -/
def Attempt.smooth (offset : Fin (2 ^ 64)) (fsUuid : FsUuid) : Attempt where
  size := none
  ramMib := some 4096
  spareMib := 65536
  offset
  fsUuid
  asked := true
  askedAfter := true
  works _ := true

def Attempt.command (t : Attempt) (c : Command) (able : Machine → Bool)
    (act : Machine → Machine) : Script Machine :=
  .guarded (t.works c) able act

/-- A command that changes nothing here. -/
def Attempt.plain (t : Attempt) (c : Command) : Script Machine := t.command c (fun _ => true) id

section
variable (t : Attempt)

/-! ### The two scripts -/

def mountTop : Script Machine :=
  t.command .mountTop (fun _ => true) fun m => { m with tops := m.tops + 1 }

def umountTop : Script Machine :=
  t.command .umountTop (fun m => 0 < m.tops) fun m => { m with tops := m.tops - 1 }

/-- `rmdir` of a directory that nothing is mounted on -/
def rmdir : Script Machine := t.command .rmdir (fun m => m.tops = 0) id

def cleanup : Script Machine :=
  .block [.tolerate (umountTop t), .tolerate (rmdir t)]

/-- `create_script` -/
def createScript (sizeMib : ℕ) : Script Machine :=
  .block [
    t.command .create (·.subvol.isNone) fun m => { m with subvol := some none },
    t.command .mkswapfile (·.subvol.isSome) fun m =>
      { m with subvol := some (some ⟨t.offset, sizeMib⟩) },
    t.plain .chmod,
    t.plain .mapSwapfile]

/-- `enable_script`, less the labelling, which is tolerated. -/
def enableScript (sizeMib : ℕ) : Script Machine :=
  .block [
    t.plain .mkdir,
    .unwind (.block [
      mountTop t,
      .look fun m => if m.file.isSome then .fail else .done,
      createScript t sizeMib,
      t.plain .blkid,
      t.command .append (fun _ => true) fun m => { m with fstab := m.fstab ++ fstabLines t.fsUuid },
      umountTop t,
      rmdir t]) (cleanup t),
    t.plain .reload,
    t.command .startMount (fun m => m.listed && m.subvol.isSome)
      fun m => { m with mounted := true },
    t.command .startSwap (·.present) fun m => { m with active := true }]

/-- `disable_script`. What is mounted while it is swapped to is busy, and the kernel neither
unlinks such a file nor deletes its subvolume. -/
def disableScript (stripped : List Char) : Script Machine :=
  .block [
    .tolerate (t.command .swapoff (·.active) fun m => { m with active := false }),
    .tolerate (t.command .stopSwap (fun _ => true) fun m => { m with active := false }),
    .tolerate (t.command .stopMount (!·.active) fun m => { m with mounted := false }),
    .tolerate (t.command .umount (!·.active) fun m => { m with mounted := false }),
    t.command .truncate (fun _ => true) fun m => { m with fstab := [] },
    t.command .write (fun _ => true) fun m => { m with fstab := stripped },
    t.plain .reload,
    t.plain .mkdir,
    .unwind (.block [
      mountTop t,
      .look fun m =>
        if m.subvol.isSome then
          .block [
            t.command .removeFile (!·.active) fun m => { m with subvol := some none },
            t.command .deleteSubvol (!·.active) fun m =>
              { m with subvol := none, mounted := false }]
        else .done,
      t.command .removeLid (fun _ => true) fun m => { m with lid := false }]) (cleanup t),
    cleanup t]

/-! ### The two verbs -/

/-- `probe`'s `file_offset` -/
def fileOffset (asked : Bool) (m : Machine) : Option (Fin (2 ^ 64)) :=
  if m.present && asked then m.file.map (·.offset) else none

/-- `default_size_mib` -/
def defaultSizeMib (ramMib : ℕ) : ℕ := (ramMib + 1023) / 1024 * 1024

/-- `objections`: whether there are none. -/
def fits (sizeMib spareMib : ℕ) : Bool := sizeMib ≤ spareMib

/-- The size that `hibernate_cmd` settles on; `none` where it gives up. -/
def sizeMib (m : Machine) : Option ℕ :=
  match fileOffset t.asked m, t.size with
  | some _, some _ => none
  | some _, none => m.file.map (·.mib)
  | none, size =>
    if m.present && m.active then m.file.map (·.mib)
    else match size with
      | some text =>
        match Install.parseSize text with
        | .ok (some mib) => if fits mib.toNat t.spareMib then some mib.toNat else none
        | .ok none => none
        | .error _ => none
      | none => (t.ramMib.map defaultSizeMib).filter (fits · t.spareMib)

/-- The offset is asked of the file again, and the arguments are edited to name it. -/
def pointAt : Script Machine :=
  .look fun m =>
    match fileOffset t.askedAfter m with
    | none => .fail
    | some offset =>
      let edits := kargArguments m.cmdline t.fsUuid.text (Nat.toDigits 10 offset)
      .block [
        t.plain .findmnt,
        t.command .installLid (fun _ => true) fun m => { m with lid := true },
        t.command .setKargs (fun _ => true) fun m => { m with kargs := applyEdits m.kargs edits }]

/-- `hibernate_cmd` with `--yes`: a file that is there is never made again. -/
def hibernateCmd : Script Machine :=
  .look fun m =>
    let existing := fileOffset t.asked m
    if existing.isNone && m.present && !m.active then .fail
    else match sizeMib t m with
      | none => .fail
      | some mib =>
        let repairing := existing.isSome || m.present && m.active
        (if repairing then .done else enableScript t mib).seq (pointAt t)

/-- Nothing that `hibernate_off` looks at is set up. -/
def nothingSetUp (m : Machine) : Bool :=
  !m.present && stripFstab m.fstab == m.fstab && kargRemoval m.cmdline == [] && !m.lid

/-- `hibernate_off` with `--yes`. -/
def hibernateOff : Script Machine :=
  .look fun m =>
    if nothingSetUp m then .done
    else
      let edits := kargRemoval m.cmdline
      (disableScript t (stripFstab m.fstab)).seq
        (if edits = [] then .done
        else t.command .setKargs (fun _ => true) fun m =>
          { m with kargs := applyEdits m.kargs edits })

end

/-- What systemd brings up at a boot. -/
structure Boot where
  mounts : Bool
  swaps : Bool

def boot (b : Boot) (m : Machine) : Machine :=
  let mounted := b.mounts && m.listed && m.subvol.isSome
  { m with
    mounted
    active := b.swaps && mounted && m.file.isSome
    tops := 0
    cmdline := m.nextCmdline }

/-- One thing that happens to a machine. A run may have died after some of its commands. -/
inductive Event
  | on (t : Attempt) (died : Option ℕ)
  | off (t : Attempt) (died : Option ℕ)
  | boot (b : Boot)

def Event.step (m : Machine) : Event → Machine
  | .on t died => (hibernateCmd t).after died m
  | .off t died => (hibernateOff t).after died m
  | .boot b => Hibernate.boot b m

/-- A boot is never asked for a swapfile that is not there, and the kernel never swaps to one. -/
structure Sound (m : Machine) : Prop where
  listed : m.listed = true → m.file.isSome = true
  mounted : m.mounted = true → m.subvol.isSome = true
  active : m.active = true → m.mounted = true ∧ m.file.isSome = true

variable {t : Attempt} {m : Machine} {C Q F : Machine → Prop} {c : Command}
  {able : Machine → Bool} {act : Machine → Machine}

/-! ### One command -/

theorem wp_command (hfailed : C m ∧ F m)
    (hdone : t.works c = true → able m = true → C (act m) ∧ Q (act m)) :
    (t.command c able act).wp C Q F m := Script.wp_guarded hfailed hdone

theorem wp_tolerate_command (hfailed : C m ∧ Q m)
    (hdone : t.works c = true → able m = true → C (act m) ∧ Q (act m)) :
    (Script.tolerate (t.command c able act)).wp C Q F m :=
  Script.wp_tolerate (wp_command hfailed hdone)

theorem wp_plain (h : C m ∧ Q m) (hfailed : F m) : (t.plain c).wp C Q F m :=
  wp_command ⟨h.1, hfailed⟩ fun _ _ => h

/-- What holds however many mounts of the top there are, the unwinding keeps. -/
theorem wp_cleanup (hC : ∀ n, C { m with tops := n }) (hQ : ∀ n, Q { m with tops := n }) :
    (cleanup t).wp C Q F m := by
  refine Script.wp_block_cons (wp_tolerate_command ?_ fun _ _ => ?_)
  · refine ⟨hC m.tops, Script.wp_block_cons (wp_tolerate_command ?_ fun _ _ => ?_)⟩
    · exact ⟨hC m.tops, hQ m.tops⟩
    · exact ⟨hC m.tops, hQ m.tops⟩
  · refine ⟨hC _, Script.wp_block_cons (wp_tolerate_command ?_ fun _ _ => ?_)⟩
    · exact ⟨hC _, hQ _⟩
    · exact ⟨hC _, hQ _⟩

theorem wp_unwind_cleanup {S : Script Machine} {G : Machine → Prop} (h : S.wp C Q G m)
    (hG : ∀ m, G m → ∀ n, C { m with tops := n } ∧ F { m with tops := n }) :
    (S.unwind (cleanup t)).wp C Q F m := by
  apply Script.wp_unwind
  refine Script.wp_mono (fun _ => id) (fun m hm => ?_) h
  apply wp_cleanup
  · exact fun n => (hG m hm n).1
  · exact fun n => Script.wp_fail (hG m hm n).1 (hG m hm n).2

/-! ### A boot finds what its fstab asks for -/

theorem listed_stripFstab {text : List Char} (h : m.fstab = stripFstab text) :
    m.listed = false := by
  unfold Machine.listed
  rw [h, stripFstab_eq]
  have hread : lines (ofLines (stripped text)) = (stripped text).map dropReturn :=
    lines_flatMap fun _ => newline_notMem_stripped
  rw [hread, List.any_eq_false]
  intro line hline
  obtain ⟨piece, hpiece, rfl⟩ := List.mem_map.mp hline
  rw [isOpen_dropReturn, isOpen_stripped hpiece]
  decide

theorem listed_append (m : Machine) (fsUuid : FsUuid) :
    Machine.listed { m with fstab := m.fstab ++ fstabLines fsUuid } = true := by
  unfold Machine.listed
  rw [lines_append_fstabLines, List.any_append, List.map_cons, List.any_cons]
  have hopen : isOpen (dropReturn FSTAB_OPEN) = true := by decide
  rw [hopen]
  simp

namespace Sound

theorem tops (h : Sound m) (n : ℕ) : Sound { m with tops := n } :=
  ⟨h.listed, h.mounted, h.active⟩

theorem inactive (h : Sound m) : Sound { m with active := false } :=
  ⟨h.listed, h.mounted, fun hactive => nomatch hactive⟩

theorem unmounted (h : Sound m) (hactive : m.active = false) : Sound { m with mounted := false } :=
  ⟨h.listed, (fun hmounted => nomatch hmounted), fun h' => nomatch hactive.symm.trans h'⟩

theorem lid (h : Sound m) (lid : Bool) : Sound { m with lid := lid } :=
  ⟨h.listed, h.mounted, h.active⟩

theorem kargs (h : Sound m) (kargs : List (List Char)) : Sound { m with kargs := kargs } :=
  ⟨h.listed, h.mounted, h.active⟩

/-- Without a file the machine has nothing to list, nothing to swap to. -/
theorem of_file_eq_none (h : Sound m) (hfile : m.file.isSome = false) :
    m.listed = false ∧ m.active = false := by
  constructor
  · exact Bool.eq_false_iff.mpr fun hlisted => nomatch hfile.symm.trans (h.listed hlisted)
  · exact Bool.eq_false_iff.mpr fun hactive => nomatch hfile.symm.trans (h.active hactive).2

end Sound

/-! ### Turning it on -/

/-- How far the making of a swapfile has come: nothing is changed, or the subvolume is there and
nothing shows it, or the fstab names the file or it can be seen. -/
inductive Made (m₀ : Machine) : Machine → Prop
  | nothing (n : ℕ) : Made m₀ { m₀ with tops := n }
  | unseen (h : m₀.subvol = none) (n : ℕ) (s : Option Swapfile) :
      Made m₀ { m₀ with tops := n, subvol := some s }
  | seen {m : Machine} (hstart : m₀.subvol = none ∨ m₀.present = true)
      (h : m.listed = true ∨ m.present = true) : Made m₀ m

structure OnWay (m₀ m : Machine) : Prop where
  sound : Sound m
  made : Made m₀ m

variable {m₀ : Machine}

theorem OnWay.tops (h : OnWay m₀ m) (n : ℕ) : OnWay m₀ { m with tops := n } := by
  refine ⟨h.sound.tops n, ?_⟩
  rcases h.made with n' | ⟨hnone, n', s⟩ | ⟨hstart, hseen⟩
  · exact .nothing n
  · exact .unseen hnone n s
  · exact .seen hstart hseen

theorem wp_createScript (h : OnWay m₀ { m₀ with tops := n })
    (hQ : m₀.subvol = none → ∀ s, OnWay m₀ { m₀ with tops := n, subvol := some (some s) } →
      Q { m₀ with tops := n, subvol := some (some s) }) (sizeMib : ℕ) :
    (createScript t sizeMib).wp (OnWay m₀) Q (OnWay m₀) { m₀ with tops := n } := by
  refine Script.wp_block_cons (wp_command ⟨h, h⟩ fun _ hnone => ?_)
  have hgone : m₀.subvol = none := Option.isNone_iff_eq_none.mp hnone
  have hfile : m₀.file.isSome = false := by
    rw [Machine.file, hgone]
    rfl
  obtain ⟨hlisted, hactive⟩ := h.sound.of_file_eq_none hfile
  have hway : ∀ s, OnWay m₀ { m₀ with tops := n, subvol := some s } := by
    intro s
    refine ⟨⟨?_, fun _ => rfl, ?_⟩, .unseen hgone n s⟩
    · exact fun h' => nomatch hlisted.symm.trans h'
    · exact fun h' => nomatch hactive.symm.trans h'
  have hempty := hway none
  have hmade := hway (some ⟨t.offset, sizeMib⟩)
  refine ⟨hempty, Script.wp_block_cons (wp_command ⟨hempty, hempty⟩ fun _ _ => ⟨hmade, ?_⟩)⟩
  refine Script.wp_block_cons (wp_plain ⟨hmade, ?_⟩ hmade)
  exact Script.wp_block_cons (wp_plain ⟨hmade, hQ hgone _ hmade⟩ hmade)

/-- The block is written where the file is. -/
theorem wp_append_fstab (h : OnWay m₀ m) (hnone : m₀.subvol = none) (hfile : m.file.isSome = true)
    (hQ : ∀ m, OnWay m₀ m → m.listed = true → Q m) :
    (Script.block [t.plain .blkid, t.command .append (fun _ => true) fun m =>
      { m with fstab := m.fstab ++ fstabLines t.fsUuid }, umountTop t, rmdir t]).wp
        (OnWay m₀) Q (OnWay m₀) m := by
  refine Script.wp_block_cons (wp_plain ⟨h, ?_⟩ h)
  refine Script.wp_block_cons (wp_command ⟨h, h⟩ fun _ _ => ?_)
  have hlisted := listed_append m t.fsUuid
  have hwritten : OnWay m₀ { m with fstab := m.fstab ++ fstabLines t.fsUuid } :=
    ⟨⟨fun _ => hfile, h.sound.mounted, h.sound.active⟩,
      .seen (.inl hnone) (.inl hlisted)⟩
  refine ⟨hwritten, Script.wp_block_cons (wp_command ⟨hwritten, hwritten⟩ fun _ _ => ?_)⟩
  have hfree := hwritten.tops (m.tops - 1)
  refine ⟨hfree, Script.wp_block_cons (wp_command ⟨hfree, hfree⟩ fun _ _ => ?_)⟩
  exact ⟨hfree, hQ _ hfree hlisted⟩

theorem wp_start (h : OnWay m₀ m) (hnone : m₀.subvol = none) (hlisted : m.listed = true)
    (hQ : ∀ m, OnWay m₀ m → m.listed = true → Q m) :
    (Script.block [
      t.plain .reload,
      t.command .startMount (fun m => m.listed && m.subvol.isSome) fun m =>
        { m with mounted := true },
      t.command .startSwap (·.present) fun m => { m with active := true }]).wp
        (OnWay m₀) Q (OnWay m₀) m := by
  refine Script.wp_block_cons (wp_plain ⟨h, ?_⟩ h)
  refine Script.wp_block_cons (wp_command ⟨h, h⟩ fun _ hable => ?_)
  have hsubvol : m.subvol.isSome = true := ((Bool.and_eq_true _ _).mp hable).2
  have hmounted : OnWay m₀ { m with mounted := true } :=
    ⟨⟨h.sound.listed, fun _ => hsubvol, fun hactive => ⟨rfl, (h.sound.active hactive).2⟩⟩,
      .seen (.inl hnone) (.inl hlisted)⟩
  refine ⟨hmounted, Script.wp_block_cons
    (wp_command ⟨hmounted, hmounted⟩ fun _ hpresent => ?_)⟩
  have hswap : OnWay m₀ { m with mounted := true, active := true } :=
    ⟨⟨h.sound.listed, fun _ => hsubvol, fun _ => (Bool.and_eq_true _ _).mp hpresent⟩,
      .seen (.inl hnone) (.inl hlisted)⟩
  exact ⟨hswap, hQ _ hswap hlisted⟩

theorem wp_enableScript (h : Sound m) (hQ : ∀ m', OnWay m m' → m.subvol = none → Q m')
    (sizeMib : ℕ) : (enableScript t sizeMib).wp (OnWay m) Q (OnWay m) m := by
  have hway : ∀ n, OnWay m { m with tops := n } := fun n => ⟨h.tops n, .nothing n⟩
  refine Script.wp_block_cons (wp_plain ⟨hway m.tops, ?_⟩ (hway m.tops))
  refine Script.wp_block_cons
    (wp_unwind_cleanup (G := OnWay m) ?_ fun m' hm' n => ⟨hm'.tops n, hm'.tops n⟩)
  refine Script.wp_block_cons
    (wp_command ⟨hway m.tops, hway m.tops⟩ fun _ _ => ⟨hway (m.tops + 1), ?_⟩)
  refine Script.wp_block_cons ?_
  change Script.wp (OnWay m) (if m.file.isSome then .fail else .done) _ _ _
  split_ifs
  · exact Script.wp_fail (hway _) (hway _)
  · refine Script.wp_block_cons (wp_createScript (hway _) (fun hnone s hm' => ?_) sizeMib)
    refine wp_append_fstab hm' hnone rfl fun m' hm' hlisted => ?_
    exact wp_start hm' hnone hlisted fun m' hm' _ => hQ m' hm' hnone

/-- The next kernel is pointed at the file, and the lid at hibernating into it. -/
structure Pointed (t : Attempt) (m₀ m : Machine) : Prop extends OnWay m₀ m where
  lid : m.lid = true
  kargs : ∃ f args, m.file = some f ∧
    m.kargs = args ++ Hibernate.kargs t.fsUuid.text (Nat.toDigits 10 f.offset)

theorem fileOffset_eq_some {asked : Bool} {offset : Fin (2 ^ 64)}
    (h : fileOffset asked m = some offset) :
    m.present = true ∧ ∃ f, m.file = some f ∧ f.offset = offset := by
  unfold fileOffset at h
  split_ifs at h with hasked
  exact ⟨((Bool.and_eq_true _ _).mp hasked).1, Option.map_eq_some_iff.mp h⟩

theorem wp_pointAt (h : OnWay m₀ m) (hstart : m₀.subvol = none ∨ m = m₀) :
    (pointAt t).wp (OnWay m₀) (Pointed t m₀) (OnWay m₀) m := by
  unfold pointAt
  show Script.wp (OnWay m₀) (match fileOffset t.askedAfter m with
    | none => .fail
    | some offset => _ : Script Machine) _ _ _
  cases hoffset : fileOffset t.askedAfter m with
  | none => exact Script.wp_fail h h
  | some offset =>
    obtain ⟨hpresent, f, hfile, hsame⟩ := fileOffset_eq_some hoffset
    have hfound : m₀.subvol = none ∨ m₀.present = true :=
      hstart.imp_right fun hm : m = m₀ => hm ▸ hpresent
    refine Script.wp_block_cons (wp_plain ⟨h, ?_⟩ h)
    refine Script.wp_block_cons (wp_command ⟨h, h⟩ fun _ _ => ?_)
    have hlid : OnWay m₀ { m with lid := true } := ⟨h.sound.lid true, .seen hfound (.inr hpresent)⟩
    refine ⟨hlid, Script.wp_block_cons (wp_command ⟨hlid, hlid⟩ fun _ _ => ?_)⟩
    have hsound := hlid.sound.kargs (applyEdits m.kargs
      (kargArguments m.cmdline t.fsUuid.text (Nat.toDigits 10 offset)))
    have hend : OnWay m₀ _ := ⟨hsound, .seen hfound (.inr hpresent)⟩
    refine ⟨hend, hend, rfl, f,
      m.kargs.filter (· ∉ currentKargs m.cmdline), hfile, ?_⟩
    rw [hsame]
    exact applyEdits_kargArguments

theorem wp_hibernateCmd (h : Sound m) :
    (hibernateCmd t).wp (OnWay m) (Pointed t m) (OnWay m) m := by
  have hstart : OnWay m m := ⟨h, .nothing m.tops⟩
  unfold hibernateCmd
  show Script.wp (OnWay m) (if _ then .fail else match sizeMib t m with
    | none => .fail
    | some mib => _ : Script Machine) _ _ _
  split_ifs
  · exact Script.wp_fail hstart hstart
  · cases sizeMib t m with
    | none => exact Script.wp_fail hstart hstart
    | some mib =>
      apply Script.wp_seq
      show Script.wp (OnWay m) (if _ then .done else enableScript t mib) _ _ _
      split_ifs
      · exact wp_pointAt hstart (.inr rfl)
      · exact wp_enableScript h (fun m' hm' hnone => wp_pointAt hm' (.inl hnone)) mib

/-- Whatever of it goes through, turning swap off leaves the machine as it was but for what is
mounted and swapped to. -/
theorem wp_quiet {rest : List (Script Machine)} (h : Sound m) (hrest : ∀ active mounted,
    Sound { m with active := active, mounted := mounted } →
      (Script.block rest).wp Sound Q F { m with active := active, mounted := mounted }) :
    (Script.block (
      .tolerate (t.command .swapoff (·.active) fun m => { m with active := false }) ::
      .tolerate (t.command .stopSwap (fun _ => true) fun m => { m with active := false }) ::
      .tolerate (t.command .stopMount (!·.active) fun m => { m with mounted := false }) ::
      .tolerate (t.command .umount (!·.active) fun m => { m with mounted := false }) ::
      rest)).wp Sound Q F m := by
  have humount : ∀ active mounted, Sound { m with active := active, mounted := mounted } →
      (Script.block (.tolerate (t.command .umount (!·.active) fun m =>
        { m with mounted := false }) :: rest)).wp Sound Q F
          { m with active := active, mounted := mounted } := by
    intro active mounted hs
    refine Script.wp_block_cons (wp_tolerate_command ⟨hs, hrest _ _ hs⟩ fun _ hidle => ?_)
    have hout := hs.unmounted ((Bool.not_eq_true' _).mp hidle)
    exact ⟨hout, hrest _ _ hout⟩
  have hstop : ∀ active, Sound { m with active := active } → (Script.block (
      .tolerate (t.command .stopMount (!·.active) fun m => { m with mounted := false }) ::
      .tolerate (t.command .umount (!·.active) fun m => { m with mounted := false }) ::
      rest)).wp Sound Q F { m with active := active } := by
    intro active hs
    refine Script.wp_block_cons (wp_tolerate_command ⟨hs, humount _ _ hs⟩ fun _ hidle => ?_)
    have hout := hs.unmounted ((Bool.not_eq_true' _).mp hidle)
    exact ⟨hout, humount _ _ hout⟩
  have hswap : ∀ active, Sound { m with active := active } → (Script.block (
      .tolerate (t.command .stopSwap (fun _ => true) fun m => { m with active := false }) ::
      .tolerate (t.command .stopMount (!·.active) fun m => { m with mounted := false }) ::
      .tolerate (t.command .umount (!·.active) fun m => { m with mounted := false }) ::
      rest)).wp Sound Q F { m with active := active } := by
    intro active hs
    refine Script.wp_block_cons (wp_tolerate_command ⟨hs, hstop _ hs⟩ fun _ _ => ?_)
    exact ⟨hs.inactive, hstop _ hs.inactive⟩
  refine Script.wp_block_cons (wp_tolerate_command ⟨h, hswap _ h⟩ fun _ _ => ?_)
  exact ⟨h.inactive, hswap _ h.inactive⟩

/-- The file and its subvolume go, where neither is in use. -/
theorem wp_remove (h : Sound m) (hlisted : m.listed = false)
    (hQ : Sound { m with subvol := none, mounted := false } →
      Q { m with subvol := none, mounted := false }) :
    (Script.block [
      t.command .removeFile (!·.active) fun m => { m with subvol := some none },
      t.command .deleteSubvol (!·.active) fun m =>
        { m with subvol := none, mounted := false }]).wp Sound Q Sound m := by
  refine Script.wp_block_cons (wp_command ⟨h, h⟩ fun _ hidle => ?_)
  have hactive : m.active = false := Bool.not_eq_true' _ |>.mp hidle
  have hempty : Sound { m with subvol := some none } :=
    ⟨(fun h' => nomatch hlisted.symm.trans h'), fun _ => rfl,
      fun h' => nomatch hactive.symm.trans h'⟩
  refine ⟨hempty, Script.wp_block_cons (wp_command ⟨hempty, hempty⟩ fun _ _ => ?_)⟩
  have hgone : Sound { m with subvol := none, mounted := false } :=
    ⟨(fun h' => nomatch hlisted.symm.trans h'), (fun h' => nomatch h'),
      fun h' => nomatch hactive.symm.trans h'⟩
  exact ⟨hgone, hQ hgone⟩

/-- What turning it off leaves, all of it gone but the kernel arguments. -/
structure Removed (m : Machine) (kargs : List (List Char)) (m' : Machine) : Prop where
  sound : Sound m'
  subvol : m'.subvol = none
  fstab : m'.fstab = stripFstab m.fstab
  lid : m'.lid = false
  kargs : m'.kargs = kargs

theorem wp_disableScript (h : Sound m) :
    (disableScript t (stripFstab m.fstab)).wp Sound (Removed m m.kargs) Sound m := by
  refine wp_quiet h fun active mounted hs => ?_
  have hbare : ∀ text, text = [] ∨ text = stripFstab m.fstab →
      Sound { m with active := active, mounted := mounted, fstab := text } := by
    intro text htext
    have hlisted : Machine.listed { m with fstab := text } = false := by
      rcases htext with rfl | rfl
      · rfl
      · exact listed_stripFstab rfl
    exact ⟨(fun h' => nomatch hlisted.symm.trans h'), hs.mounted, hs.active⟩
  refine Script.wp_block_cons (wp_command ⟨hs, hs⟩ fun _ _ => ⟨hbare _ (.inl rfl), ?_⟩)
  have hcut := hbare [] (.inl rfl)
  refine Script.wp_block_cons (wp_command ⟨hcut, hcut⟩ fun _ _ => ⟨hbare _ (.inr rfl), ?_⟩)
  have hfull := hbare _ (.inr rfl)
  refine Script.wp_block_cons (wp_plain ⟨hfull, ?_⟩ hfull)
  refine Script.wp_block_cons (wp_plain ⟨hfull, ?_⟩ hfull)
  refine Script.wp_block_cons
    (wp_unwind_cleanup (G := Sound) ?_ fun m hm n => ⟨hm.tops n, hm.tops n⟩)
  have htop := hfull.tops (m.tops + 1)
  have hlisted : Machine.listed { m with fstab := stripFstab m.fstab } = false :=
    listed_stripFstab rfl
  have hend : ∀ m', Sound m' → m'.subvol = none → m'.fstab = stripFstab m.fstab →
      m'.kargs = m.kargs →
      (Script.block [t.command .removeLid (fun _ => true) fun m => { m with lid := false }]).wp
        Sound ((Script.block [cleanup t]).wp Sound (Removed m m.kargs) Sound) Sound m' := by
    intro m' hm' hsubvol hfstab hkargs
    refine Script.wp_block_cons (wp_command ⟨hm', hm'⟩ fun _ _ => ⟨hm'.lid false, ?_⟩)
    refine Script.wp_block_cons (wp_cleanup (fun n => (hm'.lid false).tops n) fun n => ?_)
    exact ⟨(hm'.lid false).tops n, hsubvol, hfstab, rfl, hkargs⟩
  refine Script.wp_block_cons (wp_command ⟨hfull, hfull⟩ fun _ _ => ⟨htop, ?_⟩)
  refine Script.wp_block_cons ?_
  change Script.wp Sound (if m.subvol.isSome then _ else .done) _ _ _
  split_ifs with hsubvol
  · exact wp_remove htop hlisted fun hgone => hend _ hgone rfl rfl rfl
  · exact hend _ htop (Option.not_isSome_iff_eq_none.mp hsubvol) rfl rfl

/-- What `hibernate_off` leaves: what it found, where it saw nothing, and else nothing. -/
def Off (m m' : Machine) : Prop :=
  if nothingSetUp m then m' = m
  else Removed m (applyEdits m.kargs (kargRemoval m.cmdline)) m'

theorem wp_hibernateOff (h : Sound m) : (hibernateOff t).wp Sound (Off m) Sound m := by
  unfold hibernateOff Off
  show Script.wp Sound (if nothingSetUp m then .done else _) _ _ _
  split_ifs with hidle
  · rfl
  · refine Script.wp_seq (Script.wp_mono (fun m' hm' => ?_) (fun _ => id) (wp_disableScript h))
    split_ifs with hedits
    · refine ⟨hm'.sound, hm'.subvol, hm'.fstab, hm'.lid, ?_⟩
      rw [hm'.kargs, hedits]
      rfl
    · refine wp_command ⟨hm'.sound, hm'.sound⟩ fun _ _ => ⟨hm'.sound.kargs _, ?_⟩
      refine ⟨hm'.sound.kargs _, hm'.subvol, hm'.fstab, hm'.lid, ?_⟩
      rw [hm'.kargs]

/-! ### Any history -/

theorem sound_boot (b : Boot) (h : Sound m) : Sound (boot b m) := by
  refine ⟨h.listed, fun hmounted => ?_, fun hactive => ?_⟩
  · exact ((Bool.and_eq_true _ _).mp hmounted).2
  · obtain ⟨hmounted, hfile⟩ := (Bool.and_eq_true _ _).mp hactive
    exact ⟨((Bool.and_eq_true _ _).mp hmounted).2, hfile⟩

theorem sound_step (e : Event) (h : Sound m) : Sound (e.step m) := by
  cases e with
  | on t died =>
    have hon : (hibernateCmd t).wp Sound Sound Sound m :=
      Script.wp_mono (fun _ hm' => hm'.sound) (fun _ hm' => hm'.sound)
        (Script.wp_of_le (fun _ hm' => hm'.sound) (wp_hibernateCmd h))
    exact Script.after_of_wp hon h died
  | off t died =>
    refine Script.after_of_wp (Script.wp_mono (fun m' hm' => ?_) (fun _ => id) (wp_hibernateOff h))
      h died
    unfold Off at hm'
    split_ifs at hm'
    · exact hm' ▸ h
    · exact hm'.sound
  | boot b => exact sound_boot b h

/-- However often hibernate is turned on and off, and wherever a run fails or dies, an fstab that
asks for the swapfile finds it at the next boot. -/
theorem sound_run (h : Sound m) (events : List Event) : Sound (run Event.step m events) :=
  run_invariant (P := fun _ _ => True) (fun _ e hm _ => sound_step e hm) h fun _ _ => trivial

theorem sound_bare {fstab : List Char} {kargs : List (List Char)}
    (h : (Machine.bare fstab kargs).listed = false) : Sound (.bare fstab kargs) :=
  ⟨(fun hlisted => nomatch h.symm.trans hlisted), (fun hmounted => nomatch hmounted),
    fun hactive => nomatch hactive⟩

theorem sound_run_bare : Sound (run Event.step (.bare [] []) [
    .on (.smooth 5 ⟨"86bf".toList, by decide⟩) (some 7), .boot ⟨true, true⟩,
    .off (.smooth 5 ⟨"86bf".toList, by decide⟩) (some 5)]) :=
  sound_run (sound_bare rfl) _

/-! ### What turning it off cannot see -/

/-- No subvolume, nothing that asks for one, and the lid as it was. -/
structure Gone (m : Machine) : Prop where
  subvol : m.subvol = none
  mounted : m.mounted = false
  active : m.active = false
  listed : m.listed = false
  lid : m.lid = false

theorem Removed.gone {kargs : List (List Char)} {m' : Machine} (h : Removed m kargs m') :
    Gone m' := by
  have hsubvol : m'.subvol.isSome = false := by
    rw [h.subvol]
    rfl
  have hfile : m'.file.isSome = false := by
    rw [Machine.file, h.subvol]
    rfl
  refine ⟨h.subvol, ?_, (h.sound.of_file_eq_none hfile).2, listed_stripFstab h.fstab, h.lid⟩
  exact Bool.eq_false_iff.mpr fun hmounted => nomatch hsubvol.symm.trans (h.sound.mounted hmounted)

theorem nothingSetUp_iff : nothingSetUp m = true ↔ m.present = false ∧
    stripFstab m.fstab = m.fstab ∧ kargRemoval m.cmdline = [] ∧ m.lid = false := by
  unfold nothingSetUp
  simp [and_assoc]

theorem listed_of_nothingSetUp (h : nothingSetUp m = true) : m.listed = false := by
  obtain ⟨-, hfstab, -, -⟩ := nothingSetUp_iff.mp h
  exact listed_stripFstab hfstab.symm

theorem gone_of_off (h : Sound m) (hok : ((hibernateOff t).exec m).2 = true)
    (hseen : nothingSetUp m = true → m.subvol = none) : Gone ((hibernateOff t).final m) := by
  have hoff := (Script.wp_sound (wp_hibernateOff h)).2.1 hok
  unfold Off at hoff
  split_ifs at hoff with hidle
  · have hsubvol := hseen hidle
    have hfile : m.file.isSome = false := by
      rw [Machine.file, hsubvol]
      rfl
    obtain ⟨-, -, -, hlid⟩ := nothingSetUp_iff.mp hidle
    obtain ⟨hlisted, hactive⟩ := h.of_file_eq_none hfile
    rw [hoff]
    refine ⟨hsubvol, ?_, hactive, hlisted, hlid⟩
    refine Bool.eq_false_iff.mpr fun hmounted => ?_
    have hsome := h.mounted hmounted
    rw [hsubvol] at hsome
    cases hsome
  · exact hoff.gone

/-- A run that turns it off and goes through leaves nothing, but where it sees nothing set up: a
subvolume that is not mounted is not looked for. -/
theorem off_gone_iff (h : Sound m) (hok : ((hibernateOff t).exec m).2 = true) :
    Gone ((hibernateOff t).final m) ↔ ¬ (nothingSetUp m = true ∧ m.subvol.isSome = true) := by
  constructor
  · rintro hgone ⟨hidle, hsubvol⟩
    have hoff := (Script.wp_sound (wp_hibernateOff h)).2.1 hok
    unfold Off at hoff
    rw [if_pos hidle] at hoff
    rw [← hoff, hgone.subvol] at hsubvol
    cases hsubvol
  · intro hnot
    refine gone_of_off h hok fun hidle => ?_
    exact Option.not_isSome_iff_eq_none.mp fun hsome => hnot ⟨hidle, hsome⟩

theorem off_gone_bare :
    Gone ((hibernateOff (.smooth 5 ⟨[], by decide⟩)).final (.bare [] [])) ↔
      ¬ (nothingSetUp (.bare [] []) = true ∧ (Machine.bare [] []).subvol.isSome = true) :=
  off_gone_iff (sound_bare rfl) (by decide)

/-- Nothing that is looked at speaks of hibernate, now or after a boot. -/
structure Unseen (m : Machine) : Prop where
  idle : nothingSetUp m = true
  mounted : m.mounted = false
  active : m.active = false
  next : kargRemoval m.nextCmdline = []

theorem Unseen.sound (h : Unseen m) : Sound m :=
  ⟨(fun hlisted => nomatch (listed_of_nothingSetUp h.idle).symm.trans hlisted),
    (fun hmounted => nomatch h.mounted.symm.trans hmounted),
    fun hactive => nomatch h.active.symm.trans hactive⟩

/-- Only the mounts of the top and what stands in the subvolume may change unseen. -/
theorem Unseen.of_eq (h : Unseen m) (n : ℕ) (subvol : Option (Option Swapfile)) :
    Unseen { m with tops := n, subvol := subvol } := by
  obtain ⟨-, hfstab, hcmdline, hlid⟩ := nothingSetUp_iff.mp h.idle
  refine ⟨nothingSetUp_iff.mpr ⟨?_, hfstab, hcmdline, hlid⟩, h.mounted, h.active, h.next⟩
  simp [Machine.present, h.mounted]

theorem Unseen.boot (h : Unseen m) (b : Boot) : Unseen (boot b m) := by
  obtain ⟨-, hfstab, -, hlid⟩ := nothingSetUp_iff.mp h.idle
  have hmounted : (Hibernate.boot b m).mounted = false := by
    simp [Hibernate.boot, listed_of_nothingSetUp h.idle]
  refine ⟨nothingSetUp_iff.mpr ⟨?_, hfstab, h.next, hlid⟩, hmounted, ?_, h.next⟩
  · simp [Machine.present, hmounted]
  · simp [Hibernate.boot, listed_of_nothingSetUp h.idle]

/-- An unseen subvolume is neither used nor taken away. -/
theorem unseen_step (e : Event) (h : Unseen m) (hsubvol : m.subvol.isSome = true) :
    Unseen (e.step m) ∧ (e.step m).subvol = m.subvol := by
  cases e with
  | on t died =>
    let Same (m' : Machine) : Prop := Unseen m' ∧ m'.subvol = m.subvol
    have hsame : ∀ m', OnWay m m' → Same m' := by
      rintro m' ⟨-, n | ⟨hnone, n, s⟩ | ⟨hstart, hseen⟩⟩
      · exact ⟨h.of_eq n m.subvol, rfl⟩
      · rw [hnone] at hsubvol
        cases hsubvol
      · exfalso
        obtain ⟨hpresent, -⟩ := nothingSetUp_iff.mp h.idle
        rcases hstart with hnone | hfound
        · rw [hnone] at hsubvol
          cases hsubvol
        · exact nomatch hpresent.symm.trans hfound
    have hon : (hibernateCmd t).wp (OnWay m) (OnWay m) (OnWay m) m :=
      Script.wp_mono (fun _ hm' => hm'.toOnWay) (fun _ => id) (wp_hibernateCmd h.sound)
    exact hsame _ (Script.after_of_wp hon ⟨h.sound, .nothing m.tops⟩ died)
  | off t died =>
    have hdone : (hibernateOff t).exec m = ([], true) := by
      unfold hibernateOff
      show Script.exec (if nothingSetUp m then .done else _) m = _
      rw [if_pos h.idle]
      rfl
    have hafter : Event.step m (.off t died) = m := by
      cases died with
      | none =>
        show (hibernateOff t).final m = m
        rw [Script.final, hdone]
        rfl
      | some k =>
        show (hibernateOff t).cut k m = m
        rw [Script.cut, hdone]
        simp
    rw [hafter]
    exact ⟨h, rfl⟩
  | boot b => exact ⟨h.boot b, rfl⟩

theorem unseen_run (h : Unseen m) (hsubvol : m.subvol.isSome = true) (events : List Event) :
    Unseen (run Event.step m events) ∧ (run Event.step m events).subvol = m.subvol := by
  let Same (m' : Machine) : Prop := Unseen m' ∧ m'.subvol = m.subvol
  have hstep : ∀ m' (e : Event), Same m' → True → Same (e.step m') := by
    rintro m' e ⟨hm', hsame⟩ -
    obtain ⟨hnext, hkept⟩ := unseen_step e hm' (hsame ▸ hsubvol)
    exact ⟨hnext, hkept.trans hsame⟩
  exact run_invariant (P := fun _ _ => True) hstep ⟨h, rfl⟩ fun _ _ => trivial

/-- Hibernate turned on for the first time, with whatever end: a run that turns it off and goes
through leaves nothing, or the first died with a subvolume made and nothing naming it, and no
history of the two verbs takes that subvolume away. -/
theorem on_off_cases (h : Unseen m) (hnone : m.subvol = none) (t t' : Attempt)
    (died : Option ℕ) (hok : ((hibernateOff t').exec ((hibernateCmd t).after died m)).2 = true) :
    Gone ((hibernateOff t').final ((hibernateCmd t).after died m)) ∨
      ((hibernateCmd t).after died m).subvol.isSome = true ∧ ∀ events,
        (run Event.step ((hibernateCmd t).after died m) events).subvol =
            ((hibernateCmd t).after died m).subvol ∧
          (run Event.step ((hibernateCmd t).after died m) events).present = false := by
  have hon : (hibernateCmd t).wp (OnWay m) (OnWay m) (OnWay m) m :=
    Script.wp_mono (fun _ hm' => hm'.toOnWay) (fun _ => id) (wp_hibernateCmd h.sound)
  have hway := Script.after_of_wp hon ⟨h.sound, .nothing m.tops⟩ died
  have hgone := gone_of_off hway.sound hok
  generalize (hibernateCmd t).after died m = m' at hway hgone
  rcases hway with ⟨-, n | ⟨-, n, s⟩ | ⟨-, hseen⟩⟩
  · exact .inl (hgone fun _ => hnone)
  · refine .inr ⟨rfl, fun events => ?_⟩
    have hkept := unseen_run (h.of_eq n (some s)) rfl events
    exact ⟨hkept.2, (nothingSetUp_iff.mp hkept.1.idle).1⟩
  · refine .inl (hgone fun hidle => ?_)
    rcases hseen with hlisted | hpresent
    · exact nomatch (listed_of_nothingSetUp hidle).symm.trans hlisted
    · exact nomatch (nothingSetUp_iff.mp hidle).1.symm.trans hpresent

/-- A machine that has no room for the file keeps the subvolume for good. -/
theorem on_off_full :
    let full : Attempt := { Attempt.smooth 5 ⟨[], by decide⟩ with works := (· ≠ .mkswapfile) }
    let m := (hibernateCmd full).after none (.bare [] [])
    m.subvol = some none ∧ (Gone ((hibernateOff (.smooth 5 ⟨[], by decide⟩)).final m) ∨
      m.subvol.isSome = true ∧ ∀ events, (run Event.step m events).subvol = m.subvol ∧
        (run Event.step m events).present = false) :=
  ⟨by decide, on_off_cases ⟨by decide, rfl, rfl, by decide⟩ rfl _ _ none (by decide)⟩

/-! ### What the next kernel reads -/

/-- The last pair of arguments is the one that is read. -/
theorem resumeFromCmdline_kargs {args : List (List Char)} {fsUuid : List Char} {n : ℕ}
    (hn : n < 2 ^ 64) (hword : ∀ c ∈ fsUuid, isWhiteSpace c = false) :
    resumeFromCmdline ([' '].intercalate (args ++ kargs fsUuid (Nat.toDigits 10 n))) =
      (some ("UUID=".toList ++ fsUuid), some n) := by
  have hdigit : ∀ c ∈ Nat.toDigits 10 n, isWhiteSpace c = false := by
    intro c hc
    apply isWhiteSpace_of_isAlphanum
    rw [Char.isAlphanum, Nat.isDigit_of_mem_toDigits (by omega) (by omega) hc, Bool.or_true]
  have hkey : ∀ (key : List Char) {value : List Char}, key ≠ [] →
      (∀ c ∈ key, isWhiteSpace c = false) → (∀ c ∈ value, isWhiteSpace c = false) →
        words (key ++ value) = [key ++ value] := by
    intro key value hne hkey hvalue
    refine words_singleton (by simp [hne]) fun c hc => ?_
    exact (List.mem_append.mp hc).elim (hkey c) (hvalue c)
  have hresume := hkey (RESUME ++ "UUID=".toList) (by decide)
    (List.all_iff_forall_prop.mp (by decide)) hword
  have hoffset := hkey RESUME_OFFSET (by decide) (List.all_iff_forall_prop.mp (by decide)) hdigit
  have hread : words ([' '].intercalate (args ++ kargs fsUuid (Nat.toDigits 10 n))) =
      args.flatMap words ++ kargs fsUuid (Nat.toDigits 10 n) := by
    rw [words_intercalate, List.flatMap_append, kargs, List.flatMap_cons, List.flatMap_cons,
      List.flatMap_nil, hresume, hoffset]
    rfl
  have hvalues : ∀ {key value : List Char} (front : List (List Char)),
      valuesOf key (kargs fsUuid (Nat.toDigits 10 n)) = [value] →
        (valuesOf key (front ++ kargs fsUuid (Nat.toDigits 10 n))).getLast? = some value := by
    intro key value front hlast
    unfold valuesOf at hlast ⊢
    rw [List.filterMap_append, hlast, List.getLast?_concat]
  have huuid : valuesOf RESUME (kargs fsUuid (Nat.toDigits 10 n)) =
      ["UUID=".toList ++ fsUuid] := rfl
  have hpage : valuesOf RESUME_OFFSET (kargs fsUuid (Nat.toDigits 10 n)) =
      [Nat.toDigits 10 n] := rfl
  unfold resumeFromCmdline
  rw [hread, foldl_resumeStep, hvalues _ huuid, hvalues _ hpage]
  exact congrArg _ (parseUnsigned_toDigits hn)

/-- A run that turns hibernate on and goes through leaves a next boot that resumes from the
swapfile where it lies, whatever arguments about resuming there were before. -/
theorem on_resume (h : Sound m) (hok : ((hibernateCmd t).exec m).2 = true)
    (hword : ∀ c ∈ t.fsUuid.text, isWhiteSpace c = false) (b : Boot) :
    ∃ f, (boot b ((hibernateCmd t).final m)).file = some f ∧
      (boot b ((hibernateCmd t).final m)).lid = true ∧
      resumeFromCmdline (boot b ((hibernateCmd t).final m)).cmdline =
        (some ("UUID=".toList ++ t.fsUuid.text), some f.offset.val) := by
  obtain ⟨f, args, hfile, hkargs⟩ :=
    ((Script.wp_sound (wp_hibernateCmd h)).2.1 hok).kargs
  refine ⟨f, hfile, ((Script.wp_sound (wp_hibernateCmd h)).2.1 hok).lid, ?_⟩
  show resumeFromCmdline ([' '].intercalate ((hibernateCmd t).final m).kargs) = _
  rw [hkargs]
  exact resumeFromCmdline_kargs f.offset.isLt hword

theorem on_resume_bare :
    let m := boot ⟨true, true⟩ ((hibernateCmd (.smooth 5 ⟨"86bf".toList, by decide⟩)).final
      (.bare [] ["ro".toList]))
    ∃ f, m.file = some f ∧ m.lid = true ∧
      resumeFromCmdline m.cmdline = (some ("UUID=".toList ++ "86bf".toList), some f.offset.val) :=
  on_resume (sound_bare rfl) (by decide) (List.all_iff_forall_prop.mp (by decide)) _

end Kuma.Hibernate
