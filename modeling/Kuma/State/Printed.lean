import Kuma.State.Quoting
import Kuma.Snapshot.Restore

/-! The commands that are printed for somebody to paste: each must come to the arguments that
were meant, the declaration among them. -/
namespace Kuma.State
open Kuma.Lib Kuma.Lib.Text Kuma.Lib.CommandLine

/-- The verbs that resolve a declaration. -/
def CONFIG_VERBS : List (List Char) :=
  ["add", "backup", "build", "capture", "check", "clean", "diff", "generate", "iso", "remove",
    "snapshot", "update"].map String.toList

/-- A path as the file system has it. -/
structure OsPath where
  bytes : List UInt8
  whole : 0 ∉ bytes

/-- `Path::display` -/
def OsPath.display (path : OsPath) : List Char := Utf8.lossy path.bytes

def OsPath.IsUtf8 (path : OsPath) : Prop := ∃ text, Utf8.bytes text = path.bytes

/-- What a command can be given as a text. -/
structure Argument where
  text : List Char
  whole : '\x00' ∉ text

/-- A snapshot that the machine has. -/
structure SnapshotId where
  name : List Char
  known : Snapshot.isSnapshotId name = some true

/-- The flag that `set_config_flag` keeps. -/
def configFlag (explicit : Option OsPath) : Option (List Char) :=
  explicit.map fun path => " --config ".toList ++ shellQuote path.display

def applyConfigFlag (cmd : List Char) (flag : Option (List Char)) : List Char :=
  match flag with
  | none => cmd
  | some flag =>
    match (stripPrefix "kuma ".toList cmd).bind fun rest => (words rest).head? with
    | some verb => if CONFIG_VERBS.contains verb then cmd ++ flag else cmd
    | none => cmd

/-- The actions that name a path: to restore it from a snapshot, to write it back from a backup,
and to edit the declaration. -/
inductive Affordance
  | restore (path : Argument) (chosen : Option SnapshotId)
  | write (path : Argument) (chosen : Option Argument)
  | edit (declaration : OsPath)

def fromFlag (chosen : Option SnapshotId) : List Char :=
  match chosen with
  | some id => " --from ".toList ++ id.name
  | none => []

namespace Affordance

def cmd : Affordance → List Char
  | restore path chosen =>
    "kuma snapshot --restore ".toList ++ path.text ++ fromFlag chosen ++ " --yes".toList
  | write path _ => "sudo kuma backup --restore ".toList ++ shellQuote path.text ++ " --yes".toList
  | edit declaration => "$EDITOR ".toList ++ declaration.display

/-- `Action::new` -/
def printed (a : Affordance) (explicit : Option OsPath) : List Char :=
  applyConfigFlag a.cmd (configFlag explicit)

end Affordance

def EDITOR : Word := bare "$EDITOR".toList

/-- The arguments for a snapshot and for the declaration, where one is named. -/
def fromArgs (chosen : Option (List Char)) : List (List UInt8) :=
  match chosen with
  | some id => [Utf8.bytes "--from".toList, Utf8.bytes id]
  | none => []

def configArgs (explicit : Option OsPath) : List (List UInt8) :=
  match explicit with
  | some path => [Utf8.bytes "--config".toList, path.bytes]
  | none => []

/-- The arguments that are meant. The editor is whatever the variable comes to. -/
def Affordance.meant (expand : Expansion) (explicit : Option OsPath) :
    Affordance → List (List UInt8)
  | restore path chosen =>
    ["kuma".toList, "snapshot".toList, "--restore".toList, path.text].map Utf8.bytes ++
      fromArgs (chosen.map SnapshotId.name) ++ Utf8.bytes "--yes".toList :: configArgs explicit
  | write path chosen =>
    ["sudo".toList, "kuma".toList, "backup".toList, "--restore".toList, path.text].map Utf8.bytes ++
      fromArgs (chosen.map Argument.text) ++ Utf8.bytes "--yes".toList :: configArgs explicit
  | edit declaration => (fields expand EDITOR).map Utf8.bytes ++ [declaration.bytes]

/-- What a program is started with. -/
def argv (expand : Expansion) (line : List Char) : Option (List (List UInt8)) :=
  (read expand line).map (List.map Utf8.bytes)

namespace Affordance

/-- The command comes to what was meant. -/
def Meant (expand : Expansion) (explicit : Option OsPath) (a : Affordance) : Prop :=
  argv expand (a.printed explicit) = some (a.meant expand explicit)

/-- Words and quotes alone change nothing: the path stands for itself, or nothing but the path
was to be passed on. -/
def Kept (explicit : Option OsPath) : Affordance → Prop
  | restore path _ => Plain path.text ∧ ∀ config ∈ explicit, config.IsUtf8
  | write _ chosen => chosen = none ∧ explicit = none
  | edit declaration => Plain declaration.display ∧ declaration.IsUtf8

/-- Nor does an expansion. -/
def Inert : Affordance → Prop
  | restore path _ => isActive (bare path.text) = false
  | write _ _ => True
  | edit declaration => isActive (bare declaration.display) = false

end Affordance

/-! ### A line whose words are meant as bytes -/

section Bytes
variable {p before : List Char} {ys : List (List Char)} {ws : List Word} {v : List (List UInt8)}

theorem nul_notMem {text : List Char} (h : 0 ∉ Utf8.bytes text) : '\x00' ∉ text := fun hmem =>
  h (List.mem_flatMap.mpr ⟨'\x00', hmem, by decide⟩)

/-- Bytes that are the words of a text are displayed as it, and as no other. -/
theorem eq_map_bytes {l : List (List Char)} (hv : v.map Utf8.lossy = l) :
    v = l.map Utf8.bytes ↔ ∀ b ∈ v, ∃ text, Utf8.bytes text = b := by
  constructor
  · intro h b hb
    rw [h] at hb
    obtain ⟨text, -, rfl⟩ := List.mem_map.mp hb
    exact ⟨text, rfl⟩
  · intro h
    subst hv
    rw [List.map_map]
    refine (List.map_id v).symm.trans (List.map_congr_left fun b hb => ?_)
    obtain ⟨text, rfl⟩ := h b hb
    exact (congrArg Utf8.bytes (Utf8.lossy_bytes text)).symm

theorem argv_eq_some {expand : Expansion} {line : List Char} :
    argv expand line = some v ↔ ∃ l, read expand line = some l ∧ l.map Utf8.bytes = v :=
  Option.map_eq_some_iff

/-- What is printed for the words meant, among others. -/
theorem argv_iff_read (expand : Expansion) (hv : v.map Utf8.lossy = p :: ys) (line : List Char)
    (us : List (List Char)) : argv expand line = some (us.map Utf8.bytes ++ v) ↔
      read expand line = some (us ++ p :: ys) ∧ ∀ b ∈ v, ∃ text, Utf8.bytes text = b := by
  rw [argv_eq_some, ← eq_map_bytes hv]
  constructor
  · rintro ⟨l, hl, hbytes⟩
    obtain ⟨l₁, l₂, rfl, h₁, h₂⟩ := List.map_eq_append_iff.mp hbytes
    have hus : l₁ = us := List.map_injective_iff.mpr Utf8.bytes_injective h₁
    have hrest : l₂ = p :: ys := by
      rw [← hv, ← h₂, List.map_map]
      exact ((List.map_congr_left fun text _ => Utf8.lossy_bytes text).trans
        (List.map_id l₂)).symm
    rw [hus, hrest] at hl
    exact ⟨hl, hrest ▸ h₂.symm⟩
  · rintro ⟨hl, hbytes⟩
    exact ⟨_, hl, by rw [List.map_append, hbytes]⟩

variable (hbefore : scanAll .gap before = some (ws.map .word, .gap))
  (hv : v.map Utf8.lossy = p :: ys) (hwhole : ∀ text, Utf8.bytes text ∈ v → '\x00' ∉ text)

include hv hwhole in
theorem whole_of_utf8 (h : ∀ b ∈ v, ∃ text, Utf8.bytes text = b) : ∀ y ∈ ys, '\x00' ∉ y := by
  intro y hy
  refine hwhole y ?_
  rw [(eq_map_bytes hv).mpr h]
  exact List.mem_map_of_mem (List.mem_cons_of_mem p hy)

include hbefore hv hwhole in
theorem argv_asWritten_iff :
    argv asWritten (before ++ (p ++ tail shellQuote ys)) =
      some ((ws.flatMap (fields asWritten)).map Utf8.bytes ++ v) ↔
    Plain p ∧ ∀ b ∈ v, ∃ text, Utf8.bytes text = b := by
  rw [argv_iff_read asWritten hv, flatMap_asWritten]
  exact and_congr_left fun h =>
    read_asWritten_iff quotes_shellQuote hbefore (whole_of_utf8 hv hwhole h)

include hbefore hv hwhole in
theorem argv_iff :
    (∀ expand, argv expand (before ++ (p ++ tail shellQuote ys)) =
      some ((ws.flatMap (fields expand)).map Utf8.bytes ++ v)) ↔
    (Plain p ∧ ∀ b ∈ v, ∃ text, Utf8.bytes text = b) ∧ isActive (bare p) = false := by
  constructor
  · intro h
    have hutf8 := ((argv_iff_read asWritten hv _ _).mp (h asWritten)).2
    have hread := (read_iff quotes_shellQuote hbefore (whole_of_utf8 hv hwhole hutf8)).mp
      fun expand => ((argv_iff_read expand hv _ _).mp (h expand)).1
    exact ⟨⟨hread.1, hutf8⟩, hread.2⟩
  · rintro ⟨⟨hplain, hutf8⟩, hactive⟩ expand
    rw [argv_iff_read expand hv]
    exact ⟨(read_iff quotes_shellQuote hbefore (whole_of_utf8 hv hwhole hutf8)).mpr
      ⟨hplain, hactive⟩ expand, hutf8⟩

end Bytes

/-! ### The actions -/

theorem shellQuote_of_bare {text : List Char} (hne : text ≠ []) (h : ∀ c ∈ text, isBare c = true) :
    shellQuote text = text := by
  have hbare : (!text.isEmpty && text.all isBare) = true := by
    rw [Bool.and_eq_true, Bool.not_eq_true', List.isEmpty_eq_false_iff, List.all_eq_true]
    exact ⟨hne, h⟩
  unfold shellQuote
  dsimp only
  rw [if_pos hbare]

theorem isBare_of_place {i : ℕ} {c : Char} (h : Snapshot.place i c = true) : isBare c = true := by
  have hdigit : Containerfile.isDigit c = true → isBare c = true := by
    intro hc
    simp only [Containerfile.isDigit, Bool.and_eq_true, decide_eq_true_eq] at hc
    have halnum : c.isAlphanum = true := by
      simp only [Char.isAlphanum, Char.isDigit, Bool.or_eq_true, Bool.and_eq_true,
        decide_eq_true_eq]
      exact Or.inr hc
    rw [isBare, halnum, Bool.true_or]
  unfold Snapshot.place at h
  split at h
  · rw [beq_iff_eq.mp h]
    decide
  · rw [beq_iff_eq.mp h]
    decide
  · rw [beq_iff_eq.mp h]
    decide
  · exact hdigit h

theorem isBare_name (id : SnapshotId) : id.name ≠ [] ∧ ∀ c ∈ id.name, isBare c = true := by
  have hstamp := id.known
  rw [Snapshot.isSnapshotId_eq, Option.some.injEq, Snapshot.isStamp_eq, Bool.and_eq_true,
    beq_iff_eq] at hstamp
  obtain ⟨hlength, hall⟩ := hstamp
  refine ⟨fun hnil => ?_, fun c hc => ?_⟩
  · rw [hnil] at hlength
    cases hlength
  · obtain ⟨i, hi⟩ := List.mem_iff_getElem?.mp hc
    exact isBare_of_place
      (List.all_eq_true.mp hall (c, i) (List.mk_mem_zipIdx_iff_getElem?.mpr hi))

/-- The name of a snapshot needs no quotes. -/
theorem shellQuote_name (id : SnapshotId) : shellQuote id.name = id.name :=
  shellQuote_of_bare (isBare_name id).1 (isBare_name id).2

theorem SnapshotId.whole (id : SnapshotId) : '\x00' ∉ id.name := fun h =>
  absurd ((isBare_name id).2 _ h) (by decide)

/-- The words that are printed for these arguments. -/
def fromWords (chosen : Option (List Char)) : List (List Char) :=
  match chosen with
  | some id => ["--from".toList, id]
  | none => []

def configWords (explicit : Option OsPath) : List (List Char) :=
  match explicit with
  | some path => ["--config".toList, path.display]
  | none => []

theorem lossy_fromArgs (chosen : Option (List Char)) :
    (fromArgs chosen).map Utf8.lossy = fromWords chosen := by
  cases chosen with
  | none => rfl
  | some id => simp [fromArgs, fromWords]

theorem lossy_configArgs (explicit : Option OsPath) :
    (configArgs explicit).map Utf8.lossy = configWords explicit := by
  cases explicit with
  | none => rfl
  | some path => simp [configArgs, configWords, OsPath.display]

/-- Only a command of kuma itself gets the flag, and only for such a verb. -/
theorem applyConfigFlag_verb {verb : List Char} (hverb : verb ∈ CONFIG_VERBS) (rest : List Char)
    (explicit : Option OsPath) :
    applyConfigFlag ("kuma ".toList ++ verb ++ ' ' :: rest) (configFlag explicit) =
      "kuma ".toList ++ verb ++ ' ' :: rest ++ tail shellQuote (configWords explicit) := by
  have hall : ∀ verb ∈ CONFIG_VERBS, verb ≠ [] ∧ (verb.all fun c => !isWhiteSpace c) = true := by
    decide
  obtain ⟨hne, hplain⟩ := hall verb hverb
  have hchars : ∀ c ∈ verb, isWhiteSpace c = false := by
    intro c hc
    simpa using List.all_eq_true.mp hplain c hc
  have hwords : (words (verb ++ ' ' :: rest)).head? = some verb := by
    unfold words
    rw [List.splitOnP_append_cons_of_forall_mem hchars ' ' (by decide),
      List.filter_cons_of_pos (by simpa using hne), List.head?_cons]
  have hstrip : stripPrefix "kuma ".toList ("kuma ".toList ++ verb ++ ' ' :: rest) =
      some (verb ++ ' ' :: rest) :=
    stripPrefix_eq_some.mpr (List.append_assoc _ _ _)
  cases explicit with
  | none => simp [applyConfigFlag, configFlag, configWords, tail]
  | some path =>
    have htail : tail shellQuote (configWords (some path)) =
        " --config ".toList ++ shellQuote path.display := by
      have hflag : shellQuote "--config".toList = "--config".toList := by decide
      show ' ' :: shellQuote "--config".toList ++ (' ' :: shellQuote path.display ++ []) = _
      rw [hflag, List.append_nil]
      rfl
    simp only [applyConfigFlag, configFlag, Option.map_some, hstrip, Option.bind_some, hwords,
      htail]
    rw [if_pos (List.contains_iff_mem.mpr hverb)]

theorem applyConfigFlag_other {cmd : List Char} (h : stripPrefix "kuma ".toList cmd = none)
    (flag : Option (List Char)) : applyConfigFlag cmd flag = cmd := by
  cases flag with
  | none => rfl
  | some flag => simp only [applyConfigFlag, h, Option.bind_none]

/-- What is before the path. -/
def RESTORE : List Char := "kuma snapshot --restore ".toList

theorem printed_restore (path : Argument) (chosen : Option SnapshotId)
    (explicit : Option OsPath) :
    (Affordance.restore path chosen).printed explicit = RESTORE ++ (path.text ++
      tail shellQuote (fromWords (chosen.map SnapshotId.name) ++
        "--yes".toList :: configWords explicit)) := by
  have hfrom : shellQuote "--from".toList = "--from".toList := by decide
  have hyes : shellQuote "--yes".toList = "--yes".toList := by decide
  have htail : tail shellQuote (fromWords (chosen.map SnapshotId.name) ++
      "--yes".toList :: configWords explicit) =
        fromFlag chosen ++ (" --yes".toList ++ tail shellQuote (configWords explicit)) := by
    cases chosen with
    | none =>
      show ' ' :: shellQuote "--yes".toList ++ tail shellQuote (configWords explicit) = _
      rw [hyes]
      rfl
    | some id =>
      show ' ' :: shellQuote "--from".toList ++ (' ' :: shellQuote id.name ++
        (' ' :: shellQuote "--yes".toList ++ tail shellQuote (configWords explicit))) = _
      rw [hfrom, hyes, shellQuote_name]
      exact (List.append_assoc " --from".toList (' ' :: id.name) _).symm
  have hverb : "snapshot".toList ∈ CONFIG_VERBS := by decide
  rw [htail]
  refine (applyConfigFlag_verb hverb ("--restore ".toList ++ path.text ++ fromFlag chosen ++
    " --yes".toList) explicit).trans ?_
  show RESTORE ++ (path.text ++ fromFlag chosen ++ " --yes".toList) ++ _ = _
  simp only [List.append_assoc]

theorem printed_edit (declaration : OsPath) (explicit : Option OsPath) :
    (Affordance.edit declaration).printed explicit =
      "$EDITOR ".toList ++ (declaration.display ++ tail shellQuote []) := by
  have hother : stripPrefix "kuma ".toList ("$EDITOR ".toList ++ declaration.display) = none := rfl
  exact (applyConfigFlag_other hother _).trans (congrArg _ (List.append_nil _).symm)

theorem printed_write (path : Argument) (chosen : Option Argument) (explicit : Option OsPath) :
    (Affordance.write path chosen).printed explicit = shellQuote "sudo".toList ++
      tail shellQuote ["kuma".toList, "backup".toList, "--restore".toList, path.text,
        "--yes".toList] := by
  have hother : stripPrefix "kuma ".toList ("sudo kuma backup --restore ".toList ++
      shellQuote path.text ++ " --yes".toList) = none := rfl
  refine (applyConfigFlag_other hother _).trans ?_
  have hbare : ∀ word ∈ ["sudo".toList, "kuma".toList, "backup".toList, "--restore".toList,
      "--yes".toList], shellQuote word = word := by decide
  have hwords : tail shellQuote ["kuma".toList, "backup".toList, "--restore".toList, path.text,
      "--yes".toList] = " kuma backup --restore".toList ++ (' ' :: shellQuote path.text ++
        " --yes".toList) := by
    simp only [tail, List.flatMap_cons, List.flatMap_nil, hbare "kuma".toList (by decide),
      hbare "backup".toList (by decide), hbare "--restore".toList (by decide),
      hbare "--yes".toList (by decide), List.append_nil]
    rfl
  have hfront : "sudo kuma backup --restore ".toList =
      "sudo".toList ++ (" kuma backup --restore".toList ++ [' ']) := rfl
  rw [hwords, hbare "sudo".toList (by decide), hfront]
  simp only [List.append_assoc, List.cons_append, List.nil_append]

theorem OsPath.whole_of_bytes {path : OsPath} {text : List Char}
    (h : Utf8.bytes text = path.bytes) : '\x00' ∉ text :=
  nul_notMem (h ▸ path.whole)

/-! ### What the commands come to -/

namespace Affordance
variable {path : Argument} {chosen : Option SnapshotId} {explicit : Option OsPath}

/-- The arguments from the path on. -/
def restoreArgs (path : Argument) (chosen : Option SnapshotId) (explicit : Option OsPath) :
    List (List UInt8) :=
  Utf8.bytes path.text :: (fromArgs (chosen.map SnapshotId.name) ++
    Utf8.bytes "--yes".toList :: configArgs explicit)

theorem lossy_restoreArgs (path : Argument) (chosen : Option SnapshotId)
    (explicit : Option OsPath) : (restoreArgs path chosen explicit).map Utf8.lossy =
      path.text :: (fromWords (chosen.map SnapshotId.name) ++
        "--yes".toList :: configWords explicit) := by
  simp only [restoreArgs, List.map_cons, List.map_append, Utf8.lossy_bytes, lossy_fromArgs,
    lossy_configArgs]

theorem mem_restoreArgs {b : List UInt8} (h : b ∈ restoreArgs path chosen explicit) :
    (∃ text, '\x00' ∉ text ∧ Utf8.bytes text = b) ∨ ∃ config ∈ explicit, b = config.bytes := by
  have hword : ∀ text, '\x00' ∉ text → b = Utf8.bytes text →
      (∃ text, '\x00' ∉ text ∧ Utf8.bytes text = b) ∨ ∃ config ∈ explicit, b = config.bytes :=
    fun text hwhole hb => Or.inl ⟨text, hwhole, hb.symm⟩
  rcases List.mem_cons.mp h with hb | h
  · exact hword path.text path.whole hb
  · rcases List.mem_append.mp h with h | h
    · cases chosen with
      | none => exact absurd h List.not_mem_nil
      | some id =>
        rcases List.mem_cons.mp h with hb | h
        · exact hword "--from".toList (by decide) hb
        · exact hword id.name id.whole (List.mem_singleton.mp h)
    · rcases List.mem_cons.mp h with hb | h
      · exact hword "--yes".toList (by decide) hb
      · cases explicit with
        | none => exact absurd h List.not_mem_nil
        | some config =>
          rcases List.mem_cons.mp h with hb | h
          · exact hword "--config".toList (by decide) hb
          · exact Or.inr ⟨config, rfl, List.mem_singleton.mp h⟩

theorem whole_restoreArgs {text : List Char}
    (h : Utf8.bytes text ∈ restoreArgs path chosen explicit) : '\x00' ∉ text := by
  rcases mem_restoreArgs h with ⟨other, hwhole, hother⟩ | ⟨config, -, hconfig⟩
  · exact Utf8.bytes_injective hother ▸ hwhole
  · exact OsPath.whole_of_bytes hconfig

theorem utf8_restoreArgs : (∀ b ∈ restoreArgs path chosen explicit, ∃ text, Utf8.bytes text = b) ↔
    ∀ config ∈ explicit, config.IsUtf8 := by
  constructor
  · rintro h config rfl
    refine h config.bytes (List.mem_cons_of_mem _ (List.mem_append_right _ ?_))
    exact List.mem_cons_of_mem _ (List.mem_cons_of_mem _ List.mem_cons_self)
  · intro h b hb
    rcases mem_restoreArgs hb with ⟨text, -, htext⟩ | ⟨config, hconfig, rfl⟩
    · exact ⟨text, htext⟩
    · exact h config hconfig

theorem scanAll_restore : scanAll .gap RESTORE = some
    (([bare "kuma".toList, bare "snapshot".toList, bare "--restore".toList]).map .word, .gap) :=
  rfl

theorem meant_restore (expand : Expansion) : (restore path chosen).meant expand explicit =
    (([bare "kuma".toList, bare "snapshot".toList, bare "--restore".toList]).flatMap
      (fields expand)).map Utf8.bytes ++ restoreArgs path chosen explicit := by
  have hfields : ([bare "kuma".toList, bare "snapshot".toList, bare "--restore".toList]).flatMap
      (fields expand) = ["kuma".toList, "snapshot".toList, "--restore".toList] := by
    rw [flatMap_fields (by decide +kernel)]
    simp only [List.map_cons, List.map_nil, text_bare]
  rw [hfields]
  rfl

theorem restore_iff (path : Argument) (chosen : Option SnapshotId) (explicit : Option OsPath) :
    (Meant asWritten explicit (restore path chosen) ↔ (restore path chosen).Kept explicit) ∧
    ((∀ expand, Meant expand explicit (restore path chosen)) ↔
      (restore path chosen).Kept explicit ∧ (restore path chosen).Inert) := by
  unfold Meant
  simp only [printed_restore, meant_restore]
  constructor
  · rw [argv_asWritten_iff scanAll_restore (lossy_restoreArgs path chosen explicit)
      fun text => whole_restoreArgs, utf8_restoreArgs]
    rfl
  · rw [argv_iff scanAll_restore (lossy_restoreArgs path chosen explicit)
      fun text => whole_restoreArgs, utf8_restoreArgs]
    rfl

theorem scanAll_edit : scanAll .gap "$EDITOR ".toList = some (([EDITOR]).map .word, .gap) :=
  rfl

theorem edit_iff (declaration : OsPath) (explicit : Option OsPath) :
    (Meant asWritten explicit (edit declaration) ↔ (edit declaration).Kept explicit) ∧
    ((∀ expand, Meant expand explicit (edit declaration)) ↔
      (edit declaration).Kept explicit ∧ (edit declaration).Inert) := by
  have hlossy : ([declaration.bytes]).map Utf8.lossy = [declaration.display] := rfl
  have hwhole : ∀ text, Utf8.bytes text ∈ [declaration.bytes] → '\x00' ∉ text := fun text h =>
    OsPath.whole_of_bytes (List.mem_singleton.mp h)
  have hmeant : ∀ expand, (edit declaration).meant expand explicit =
      (([EDITOR]).flatMap (fields expand)).map Utf8.bytes ++ [declaration.bytes] := fun expand => by
    rw [List.flatMap_singleton]
    rfl
  have hutf8 : (∀ b ∈ [declaration.bytes], ∃ text, Utf8.bytes text = b) ↔ declaration.IsUtf8 :=
    List.forall_mem_singleton
  unfold Meant
  simp only [printed_edit, hmeant]
  constructor
  · rw [argv_asWritten_iff scanAll_edit hlossy hwhole, hutf8]
    rfl
  · rw [argv_iff scanAll_edit hlossy hwhole, hutf8]
    rfl

/-- The path is passed on whole, and nothing else is. -/
theorem write_iff (expand : Expansion) (path : Argument) (chosen : Option Argument)
    (explicit : Option OsPath) : Meant expand explicit (write path chosen) ↔
      (write path chosen).Kept explicit := by
  have hread : read expand ((write path chosen).printed explicit) =
      some ["sudo".toList, "kuma".toList, "backup".toList, "--restore".toList, path.text,
        "--yes".toList] := by
    have hwhole : ∀ word ∈ ["sudo".toList, "kuma".toList, "backup".toList, "--restore".toList,
        "--yes".toList], '\x00' ∉ word := by decide
    rw [printed_write]
    refine read_quoted quotes_shellQuote (fun z hz => ?_) expand
    by_cases hpath : z = path.text
    · exact hpath ▸ path.whole
    · refine hwhole z ?_
      simp only [List.mem_cons, List.not_mem_nil, or_false, hpath, false_or] at hz ⊢
      exact hz
  unfold Meant argv
  rw [hread, Option.map_some, Option.some.injEq]
  constructor
  · intro h
    have hlength := congrArg List.length h
    cases chosen with
    | some id =>
      simp only [meant, fromArgs, Option.map_some, List.length_map, List.length_append,
        List.length_cons, List.length_nil] at hlength
      omega
    | none =>
      cases explicit with
      | some config =>
        simp only [meant, fromArgs, configArgs, Option.map_none, List.length_map,
          List.length_append, List.length_cons, List.length_nil] at hlength
        omega
      | none => exact ⟨rfl, rfl⟩
  · rintro ⟨rfl, rfl⟩
    rfl

end Affordance

open Affordance

/-- What is printed is what was meant, as it is written and whatever is expanded, exactly if
the path needs no quotes; and a backup's, if nothing beside the path was named. -/
theorem meant_iff (a : Affordance) (explicit : Option OsPath) :
    (Meant asWritten explicit a ↔ a.Kept explicit) ∧
    ((∀ expand, Meant expand explicit a) ↔ a.Kept explicit ∧ a.Inert) := by
  cases a with
  | restore path chosen => exact restore_iff path chosen explicit
  | write path chosen =>
    refine ⟨write_iff asWritten path chosen explicit, ?_⟩
    exact ⟨fun h => ⟨(write_iff asWritten path chosen explicit).mp (h asWritten), trivial⟩,
      fun h expand => (write_iff expand path chosen explicit).mpr h.1⟩
  | edit declaration => exact edit_iff declaration explicit

/-- A file whose name has a blank, and a declaration that was named. -/
def NOTES : Argument := ⟨"/var/home/you/my notes.md".toList, by decide⟩

def DECLARATION : OsPath := ⟨Utf8.bytes "/etc/kuma.toml".toList, by decide +kernel⟩

/-- The path of a restore is printed as two words, and a backup's command forgets which backup and
which declaration. -/
theorem not_meant_notes :
    (Snapshot.relativeToTarget "/var/home".toList NOTES.text = .ok "you/my notes.md".toList ∧
      ¬Meant asWritten none (restore NOTES none)) ∧
    ¬Meant asWritten none (write NOTES (some ⟨"4bba301e".toList, by decide⟩)) ∧
    ¬Meant asWritten (some DECLARATION) (write NOTES none) := by
  refine ⟨⟨by decide +kernel, fun h => ?_⟩, fun h => ?_, fun h => ?_⟩
  · have hplain := ((restore_iff NOTES none none).1.mp h).1.chars ' ' (by decide)
    exact absurd hplain (by decide)
  · have hnone := ((write_iff asWritten NOTES _ none).mp h).1
    cases hnone
  · have hnone := ((write_iff asWritten NOTES none _).mp h).2
    cases hnone

end Kuma.State
