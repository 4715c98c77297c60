import Kuma.Lib.Text

/-! What stops an install from writing to a disk: a path that is no device, a mountpoint that
`lsblk` lists under it, and a line of the mount table whose source is taken for a partition of
it. A mountpoint is reported once. -/
namespace Kuma.Install
open Kuma.Lib.Text

/-- A reason not to write to this disk. -/
inductive Objection
  | notDevice (disk : List Char)
  | inUse (disk mount : List Char)
  | mounted (source disk target : List Char)
  deriving DecidableEq

/-- How an objection is worded. -/
def Objection.text : Objection → String
  | .notDevice disk => s!"{String.ofList disk} is not a device path"
  | .inUse disk mount =>
    s!"something on {String.ofList disk} is in use at {String.ofList mount}"
  | .mounted source disk target =>
    s!"{String.ofList source} from {String.ofList disk} is mounted at {String.ofList target}"

/-- The mountpoint an objection reports. -/
def Objection.target : Objection → Option (List Char)
  | .notDevice _ => none
  | .inUse _ mount => some mount
  | .mounted _ _ target => some target

/-- What `disk_objections` has found so far: the mountpoints it has seen, and its answer. -/
structure Report where
  seen : List (List Char)
  out : List Objection

/-- One more reason, unless its mountpoint was reported before. -/
def Report.insert (report : Report) (target : List Char) (objection : Objection) : Report :=
  if target ∈ report.seen then report
  else ⟨target :: report.seen, report.out ++ [objection]⟩

/-- `is_partition`: the source is the disk, or what follows the disk's path in it is digits,
after a `p` or without one. -/
def isPartition (disk source : List Char) : Bool :=
  source == disk || (stripPrefix disk source).any fun rest =>
    let rest := (stripPrefix ['p'] rest).getD rest
    !rest.isEmpty && rest.all Char.isDigit

/-- The source and the target of a line of the mount table. -/
def mountFields (line : List Char) : Option (List Char × List Char) :=
  match words line with
  | source :: target :: _ => some (source, target)
  | _ => none

/-- The mountpoints that `lsblk` listed. -/
def lsblkMounts (text : List Char) : List (List Char) :=
  ((lines text).map trim).filter (· ≠ [])

def lsblkStep (disk : List Char) (report : Report) (mount : List Char) : Report :=
  report.insert mount (.inUse disk mount)

def mountStep (disk : List Char) (report : Report) (line : List Char) : Report :=
  match mountFields line with
  | none => report
  | some (source, target) =>
    if isPartition disk source then report.insert target (.mounted source disk target)
    else report

/-- The report before the mount table is read. -/
def lsblkReport (disk lsblk : List Char) (toFile : Bool) : Report :=
  (lsblkMounts lsblk).foldl (lsblkStep disk)
    ⟨[], if !toFile && (stripPrefix "/dev/".toList disk).isNone then [.notDevice disk] else []⟩

/-- The report after some lines of the mount table. -/
def reportAfter (disk lsblk : List Char) (toFile : Bool) (table : List (List Char)) : Report :=
  table.foldl (mountStep disk) (lsblkReport disk lsblk toFile)

def diskObjections (disk mounts lsblk : List Char) (toFile : Bool) : List Objection :=
  (reportAfter disk lsblk toFile (lines mounts)).out

/-! ### The kernel's naming -/

/-- A partition's number. -/
def IsNumber (ds : List Char) : Prop := ds ≠ [] ∧ ∀ d ∈ ds, d.isDigit = true

/-- The path ends in a digit. -/
def EndsInDigit (disk : List Char) : Prop := ∃ d ∈ disk.getLast?, d.isDigit = true

/-- A partition of the disk: a `p` stands before the number when the disk ends in a digit. -/
def PartitionOf (disk source : List Char) : Prop :=
  ∃ ds, IsNumber ds ∧
    (EndsInDigit disk ∧ source = disk ++ 'p' :: ds ∨ ¬ EndsInDigit disk ∧ source = disk ++ ds)

/-- The other scheme's name, which no partition of this disk has. -/
def LooksLikePartitionOf (disk source : List Char) : Prop :=
  ∃ ds, IsNumber ds ∧
    (EndsInDigit disk ∧ source = disk ++ ds ∨ ¬ EndsInDigit disk ∧ source = disk ++ 'p' :: ds)

/-- The source is on the disk. -/
def OnDisk (disk source : List Char) : Prop := source = disk ∨ PartitionOf disk source

variable {disk source target lsblk mounts line : List Char} {toFile : Bool}
  {table before after : List (List Char)} {report : Report} {ds : List Char}

theorem IsNumber.ne_p (h : IsNumber ds) (rest : List Char) : ds ≠ 'p' :: rest := by
  intro hp
  have hdigit := h.2 'p' (by rw [hp]; exact List.mem_cons_self)
  have hletter : ('p' : Char).isDigit = false := rfl
  rw [hletter] at hdigit
  cases hdigit

theorem isNumber_iff : (!ds.isEmpty && ds.all Char.isDigit) = true ↔ IsNumber ds := by
  unfold IsNumber
  cases ds <;> simp

/-- The test takes both schemes at once. -/
theorem isPartition_iff :
    isPartition disk source = true ↔
      source = disk ∨ ∃ ds, IsNumber ds ∧ (source = disk ++ ds ∨ source = disk ++ 'p' :: ds) := by
  unfold isPartition
  rw [Bool.or_eq_true, beq_iff_eq, Option.any_eq_true]
  apply or_congr_right
  constructor
  · rintro ⟨rest, hrest, hnumber⟩
    have hsource := stripPrefix_eq_some.mp hrest
    refine ⟨(stripPrefix ['p'] rest).getD rest, isNumber_iff.mp hnumber, ?_⟩
    cases hp : stripPrefix ['p'] rest with
    | none => exact .inl hsource
    | some number =>
      rw [stripPrefix_eq_some.mp hp] at hsource
      exact .inr hsource
  · rintro ⟨ds, hds, hsource | hsource⟩
    · refine ⟨ds, stripPrefix_eq_some.mpr hsource, ?_⟩
      have hp : stripPrefix ['p'] ds = none := by
        cases hp : stripPrefix ['p'] ds with
        | none => rfl
        | some rest => exact absurd (stripPrefix_eq_some.mp hp) (hds.ne_p rest)
      rw [hp]
      exact isNumber_iff.mpr hds
    · refine ⟨'p' :: ds, stripPrefix_eq_some.mpr hsource, ?_⟩
      have hp : stripPrefix ['p'] ('p' :: ds) = some ds := stripPrefix_eq_some.mpr rfl
      rw [hp]
      exact isNumber_iff.mpr hds

theorem isPartition_iff_onDisk :
    isPartition disk source = true ↔ OnDisk disk source ∨ LooksLikePartitionOf disk source := by
  rw [isPartition_iff]
  constructor
  · rintro (hdisk | ⟨ds, hds, hsource⟩)
    · exact .inl (.inl hdisk)
    · by_cases hend : EndsInDigit disk
      · rcases hsource with hsource | hsource
        · exact .inr ⟨ds, hds, .inl ⟨hend, hsource⟩⟩
        · exact .inl (.inr ⟨ds, hds, .inl ⟨hend, hsource⟩⟩)
      · rcases hsource with hsource | hsource
        · exact .inl (.inr ⟨ds, hds, .inr ⟨hend, hsource⟩⟩)
        · exact .inr ⟨ds, hds, .inr ⟨hend, hsource⟩⟩
  · rintro ((hdisk | ⟨ds, hds, h⟩) | ⟨ds, hds, h⟩)
    · exact .inl hdisk
    · exact .inr ⟨ds, hds, h.elim (fun h => .inr h.2) (fun h => .inl h.2)⟩
    · exact .inr ⟨ds, hds, h.elim (fun h => .inl h.2) (fun h => .inr h.2)⟩

/-- The two schemes share no name. -/
theorem LooksLikePartitionOf.not_onDisk (h : LooksLikePartitionOf disk source) :
    ¬ OnDisk disk source := by
  obtain ⟨ds, hds, h⟩ := h
  rintro (hdisk | ⟨number, hnumber, hpart⟩)
  · rcases h with ⟨-, rfl⟩ | ⟨-, rfl⟩
    · exact hds.1 (List.append_right_eq_self.mp hdisk)
    · exact List.cons_ne_nil _ _ (List.append_right_eq_self.mp hdisk)
  · rcases h with ⟨hend, rfl⟩ | ⟨hend, rfl⟩
    · rcases hpart with ⟨-, hsame⟩ | ⟨hend', -⟩
      · exact hds.ne_p number (List.append_cancel_left hsame)
      · exact hend' hend
    · rcases hpart with ⟨hend', -⟩ | ⟨-, hsame⟩
      · exact hend hend'
      · exact hnumber.ne_p ds (List.append_cancel_left hsame).symm

/-! ### What the report holds -/

/-- An objection of the report names this mountpoint. -/
def Reported (report : Report) (target : List Char) : Prop :=
  ∃ objection ∈ report.out, objection.target = some target

/-- The seen set is read off the objections. -/
def Report.Agrees (report : Report) : Prop :=
  ∀ target, target ∈ report.seen ↔ Reported report target

theorem mem_seen_insert {objection : Objection} {t : List Char} :
    t ∈ (report.insert target objection).seen ↔ t = target ∨ t ∈ report.seen := by
  unfold Report.insert
  split_ifs with hseen
  · constructor
    · exact .inr
    · rintro (rfl | h)
      · exact hseen
      · exact h
  · exact List.mem_cons

theorem Report.Agrees.insert {objection : Objection} (h : report.Agrees)
    (htarget : objection.target = some target) : (report.insert target objection).Agrees := by
  unfold Report.insert
  split_ifs with hseen
  · exact h
  · intro t
    have hold := h t
    unfold Reported at hold ⊢
    simp only [List.mem_cons, List.mem_append, List.not_mem_nil, or_false, hold]
    constructor
    · rintro (rfl | ⟨o, ho, hot⟩)
      · exact ⟨objection, .inr rfl, htarget⟩
      · exact ⟨o, .inl ho, hot⟩
    · rintro ⟨o, ho | rfl, hot⟩
      · exact .inr ⟨o, ho, hot⟩
      · exact .inl (Option.some.inj (hot.symm.trans htarget))

theorem Report.Agrees.mountStep (h : report.Agrees) : (mountStep disk report line).Agrees := by
  unfold Install.mountStep
  split
  · exact h
  · split_ifs
    · exact h.insert rfl
    · exact h

theorem agrees_lsblkReport : (lsblkReport disk lsblk toFile).Agrees := by
  unfold lsblkReport
  refine List.foldlRecOn _ _ ?_ ?_
  · intro target
    unfold Reported
    constructor
    · intro h
      cases h
    · rintro ⟨o, ho, htarget⟩
      split_ifs at ho
      · rw [List.mem_singleton.mp ho] at htarget
        cases htarget
      · cases ho
  · intro report h mount _
    exact h.insert rfl

theorem agrees_reportAfter : (reportAfter disk lsblk toFile table).Agrees := by
  unfold reportAfter
  refine List.foldlRecOn _ _ agrees_lsblkReport ?_
  intro report h line _
  exact h.mountStep

theorem reportAfter_snoc :
    reportAfter disk lsblk toFile (table ++ [line]) =
      mountStep disk (reportAfter disk lsblk toFile table) line := by
  unfold reportAfter
  rw [List.foldl_append]
  rfl

theorem mem_seen_lsblkReport :
    target ∈ (lsblkReport disk lsblk toFile).seen ↔ target ∈ lsblkMounts lsblk := by
  have hfold : ∀ (mounts : List (List Char)) (report : Report),
      target ∈ (mounts.foldl (lsblkStep disk) report).seen ↔
        target ∈ mounts ∨ target ∈ report.seen := by
    intro mounts
    induction mounts with
    | nil =>
      intro report
      simp
    | cons mount mounts ih =>
      intro report
      rw [List.foldl_cons, ih, lsblkStep, mem_seen_insert, List.mem_cons]
      tauto
  unfold lsblkReport
  rw [hfold]
  simp

theorem mem_seen_mountStep :
    target ∈ (mountStep disk report line).seen ↔
      target ∈ report.seen ∨
        ∃ source, mountFields line = some (source, target) ∧ isPartition disk source = true := by
  unfold mountStep
  cases hfields : mountFields line with
  | none => simp
  | some fields =>
    obtain ⟨source, t⟩ := fields
    simp only [Option.some.injEq, Prod.mk.injEq]
    split_ifs with hpart
    · rw [mem_seen_insert]
      constructor
      · rintro (rfl | h)
        · exact .inr ⟨source, ⟨rfl, rfl⟩, hpart⟩
        · exact .inl h
      · rintro (h | ⟨-, ⟨-, rfl⟩, -⟩)
        · exact .inr h
        · exact .inl rfl
    · constructor
      · exact .inl
      · rintro (h | ⟨s, ⟨rfl, -⟩, hs⟩)
        · exact h
        · exact absurd hs hpart

/-- A mountpoint is seen when `lsblk` lists it, or a line taken for the disk's has it. -/
theorem mem_seen_reportAfter :
    target ∈ (reportAfter disk lsblk toFile table).seen ↔
      target ∈ lsblkMounts lsblk ∨ ∃ line ∈ table, ∃ source,
        mountFields line = some (source, target) ∧ isPartition disk source = true := by
  induction table using List.reverseRecOn with
  | nil =>
    rw [show reportAfter disk lsblk toFile [] = lsblkReport disk lsblk toFile from rfl,
      mem_seen_lsblkReport]
    simp
  | append_singleton table line ih =>
    rw [reportAfter_snoc, mem_seen_mountStep, ih]
    simp only [List.mem_append, List.mem_singleton]
    constructor
    · rintro ((h | ⟨l, hl, h⟩) | h)
      · exact .inl h
      · exact .inr ⟨l, .inl hl, h⟩
      · exact .inr ⟨line, .inr rfl, h⟩
    · rintro (h | ⟨l, hl | rfl, h⟩)
      · exact .inl (.inl h)
      · exact .inl (.inr ⟨l, hl, h⟩)
      · exact .inr h

/-- The line adds its objection to what the lines before it left. -/
def NamesLine (disk lsblk : List Char) (toFile : Bool) (before : List (List Char))
    (line source target : List Char) : Prop :=
  (reportAfter disk lsblk toFile (before ++ [line])).out =
    (reportAfter disk lsblk toFile before).out ++ [.mounted source disk target]

theorem namesLine_iff (hfields : mountFields line = some (source, target)) :
    NamesLine disk lsblk toFile before line source target ↔
      isPartition disk source = true ∧ target ∉ (reportAfter disk lsblk toFile before).seen := by
  unfold NamesLine
  rw [reportAfter_snoc]
  unfold mountStep
  simp only [hfields]
  split_ifs with hpart
  · unfold Report.insert
    split_ifs with hseen <;> simp [hpart, hseen]
  · simp [hpart]

/-! ### Which disks are judged rightly -/

/-- Every line of the table is named when its source is on the disk and its target was not
reported before it, and only then. -/
def ObjectionsExact (disk mounts lsblk : List Char) (toFile : Bool) : Prop :=
  ∀ before line after source target, lines mounts = before ++ line :: after →
    mountFields line = some (source, target) →
    (NamesLine disk lsblk toFile before line source target ↔
      OnDisk disk source ∧ ¬ Reported (reportAfter disk lsblk toFile before) target)

/-- A mountpoint is reported on a good ground: `lsblk` lists it, or an earlier line of the
table that is on the disk has it. -/
def RightlyReported (disk lsblk : List Char) (before : List (List Char)) (target : List Char) :
    Prop :=
  target ∈ lsblkMounts lsblk ∨
    ∃ line ∈ before, ∃ source, mountFields line = some (source, target) ∧ OnDisk disk source

theorem rightlyReported_of_exact (h : ObjectionsExact disk mounts lsblk toFile)
    (hlines : lines mounts = before ++ line :: after)
    (hfields : mountFields line = some (source, target))
    (hlooks : LooksLikePartitionOf disk source) :
    RightlyReported disk lsblk before target := by
  -- on the lines before: the line that reported the target may be misread itself
  induction hn : before.length using Nat.strong_induction_on
    generalizing before line after source with
  | _ n ih =>
    have hnot : ¬ NamesLine disk lsblk toFile before line source target := by
      intro hnamed
      exact hlooks.not_onDisk ((h _ _ _ _ _ hlines hfields).mp hnamed).1
    rw [namesLine_iff hfields] at hnot
    have hseen : target ∈ (reportAfter disk lsblk toFile before).seen := by
      by_contra hunseen
      exact hnot ⟨isPartition_iff_onDisk.mpr (.inr hlooks), hunseen⟩
    rcases mem_seen_reportAfter.mp hseen with hlsblk | ⟨earlier, hmem, s, hs, hpart⟩
    · exact .inl hlsblk
    · rcases isPartition_iff_onDisk.mp hpart with hon | hlooks'
      · exact .inr ⟨earlier, hmem, s, hs, hon⟩
      · obtain ⟨first, rest, rfl⟩ := List.append_of_mem hmem
        have hlines' : lines mounts = first ++ earlier :: (rest ++ line :: after) := by
          rw [hlines, List.append_assoc, List.cons_append]
        have hlt : first.length < n := by
          rw [List.length_append, List.length_cons] at hn
          omega
        rcases ih first.length hlt hlines' hs hlooks' rfl with hlsblk | ⟨l, hl, s', h'⟩
        · exact .inl hlsblk
        · exact .inr ⟨l, List.mem_append_left _ hl, s', h'⟩

/-- The objections are exact when every line whose source only looks like a partition of the
disk has a mountpoint that is reported on a good ground before it. -/
theorem objections_exact_iff (disk mounts lsblk : List Char) (toFile : Bool) :
    ObjectionsExact disk mounts lsblk toFile ↔
      ∀ before line after source target, lines mounts = before ++ line :: after →
        mountFields line = some (source, target) → LooksLikePartitionOf disk source →
        RightlyReported disk lsblk before target := by
  constructor
  · intro h before line after source target hlines hfields hlooks
    exact rightlyReported_of_exact h hlines hfields hlooks
  · intro h before line after source target hlines hfields
    rw [namesLine_iff hfields, ← agrees_reportAfter target, isPartition_iff_onDisk]
    constructor
    · rintro ⟨hon | hlooks, hunseen⟩
      · exact ⟨hon, hunseen⟩
      · have hgood := h _ _ _ _ _ hlines hfields hlooks
        have hseen : target ∈ (reportAfter disk lsblk toFile before).seen := by
          refine mem_seen_reportAfter.mpr (hgood.imp_right ?_)
          rintro ⟨l, hl, s, hs, hon⟩
          exact ⟨l, hl, s, hs, isPartition_iff_onDisk.mpr (.inl hon)⟩
        exact absurd hseen hunseen
    · rintro ⟨hon, hunseen⟩
      exact ⟨.inl hon, hunseen⟩

/-- The tenth namespace of a controller is taken for a partition of the first. -/
theorem diskObjections_namespace_ten :
    diskObjections "/dev/nvme0n1".toList "/dev/nvme0n10 /srv ext4 rw 0 0\n".toList [] false =
      [.mounted "/dev/nvme0n10".toList "/dev/nvme0n1".toList "/srv".toList] ∧
    ¬ ObjectionsExact "/dev/nvme0n1".toList "/dev/nvme0n10 /srv ext4 rw 0 0\n".toList []
      false := by
  constructor
  · decide
  · intro h
    have hexact := h [] "/dev/nvme0n10 /srv ext4 rw 0 0".toList [] "/dev/nvme0n10".toList
      "/srv".toList (by decide) (by decide)
    have hnames : NamesLine "/dev/nvme0n1".toList [] false []
        "/dev/nvme0n10 /srv ext4 rw 0 0".toList "/dev/nvme0n10".toList "/srv".toList := by
      unfold NamesLine
      decide
    have hlooks : LooksLikePartitionOf "/dev/nvme0n1".toList "/dev/nvme0n10".toList :=
      ⟨['0'], isNumber_iff.mp (by decide), .inl ⟨⟨'1', by decide, by decide⟩, by decide⟩⟩
    exact hlooks.not_onDisk (hexact.mp hnames).1

end Kuma.Install
