import Kuma.Lib.Text
import Kuma.Lib.SortedMap
import Mathlib.Data.Bool.AllAny
import Mathlib.Data.List.Perm.Basic
import Mathlib.Data.List.Count
import Mathlib.Data.List.Lex
import Mathlib.Data.Char

/-! What a built image contains, as `rpm -qa` lists it and as the lock records it: one version for
each name. -/
namespace Kuma.Lockfile
open Kuma.Lib Kuma.Lib.Text

/-- What can stand in a tag of a package: no blank, and no sign that marks off a section. -/
def isTagChar (c : Char) : Bool := !isWhiteSpace c && c != '@'

/-- An installed package. No architecture has a dot in its name. -/
structure Package where
  name : List Char
  evr : List Char
  arch : List Char
  named : name ≠ []
  built : arch ≠ []
  name_chars : ∀ c ∈ name, isTagChar c = true
  evr_chars : ∀ c ∈ evr, isTagChar c = true
  arch_chars : ∀ c ∈ arch, isTagChar c = true ∧ c ≠ '.'
  deriving DecidableEq

/-- `%{EVR}.%{ARCH}` -/
def Package.version (p : Package) : List Char := p.evr ++ '.' :: p.arch

/-- `%{NAME} %{EVR}.%{ARCH}` -/
def Package.line (p : Package) : List Char := p.name ++ ' ' :: p.version

/-- The output of `rpm -qa`. -/
def listing (packages : List Package) : List Char := ofLines (packages.map Package.line)

def parseRpmQuery (out : List Char) : SortedMap (List Char) (List Char) :=
  .ofList ((lines out).filterMap fun line => splitOnce ' ' (trim line))

/-- The base an image was built from. -/
structure Base where
  reference : List Char
  digest : List Char

structure Lock where
  base : Base
  rpm : SortedMap (List Char) (List Char)

/-- What `record` takes down of a build. -/
def record (base : Base) (packages : List Package) : Lock :=
  ⟨base, parseRpmQuery (listing packages)⟩

structure LockDiff where
  baseFrom : List Char
  baseTo : List Char
  /-- name, old version, new version -/
  changed : List (List Char × List Char × List Char)
  added : List (List Char)
  removed : List (List Char)

def LockDiff.isEmpty (d : LockDiff) : Bool :=
  d.baseFrom == d.baseTo && d.changed.isEmpty && d.added.isEmpty && d.removed.isEmpty

def diff (old new : Lock) : LockDiff where
  baseFrom := old.base.digest
  baseTo := new.base.digest
  changed := new.rpm.entries.filterMap fun e =>
    match old.rpm.get e.1 with
    | some before => if before ≠ e.2 then some (e.1, before, e.2) else none
    | none => none
  added := (new.rpm.entries.filter fun e => (old.rpm.get e.1).isNone).map Prod.fst
  removed := old.rpm.keys.filter fun name => (new.rpm.get name).isNone

/-- The names that a difference reports. -/
def LockDiff.reported (d : LockDiff) : List (List Char) :=
  d.changed.map Prod.fst ++ d.added ++ d.removed

variable {p q : Package} {packages A B : List Package} {name : List Char} {old new : Lock}

/-! ### A listing, read back -/

theorem notMem_of_isTagChar {c : Char} {text : List Char} (hc : isTagChar c = false)
    (h : ∀ d ∈ text, isTagChar d = true) : c ∉ text := fun hmem => by
  rw [h c hmem] at hc
  cases hc

theorem isWhiteSpace_of_isTagChar {c : Char} (h : isTagChar c = true) :
    isWhiteSpace c = false := by
  simp only [isTagChar, Bool.and_eq_true, Bool.not_eq_true'] at h
  exact h.1

theorem mem_version {c : Char} (h : c ∈ p.version) : isTagChar c = true := by
  rcases List.mem_append.mp h with h | h
  · exact p.evr_chars c h
  · rcases List.mem_cons.mp h with rfl | h
    · decide
    · exact (p.arch_chars c h).1

/-- The versions of a package's name tell its builds apart. -/
theorem version_inj (h : p.version = q.version) : p.evr = q.evr ∧ p.arch = q.arch := by
  have hdot : ∀ p : Package, '.' ∉ p.arch.reverse := fun p hmem =>
    (p.arch_chars '.' (List.mem_reverse.mp hmem)).2 rfl
  -- the last dot is the one before the architecture
  have hsplit : ∀ p : Package, splitOnce '.' p.version.reverse =
      some (p.arch.reverse, p.evr.reverse) := by
    intro p
    have hreverse : p.version.reverse = p.arch.reverse ++ '.' :: p.evr.reverse := by
      simp [Package.version]
    rw [hreverse, splitOnce_append (hdot p)]
  have hp := hsplit p
  rw [h, hsplit q] at hp
  obtain ⟨harch, hevr⟩ := Prod.mk.inj (Option.some.inj hp)
  exact ⟨(List.reverse_inj.mp hevr).symm, (List.reverse_inj.mp harch).symm⟩

theorem eq_of_version (hname : p.name = q.name) (hversion : p.version = q.version) : p = q := by
  obtain ⟨hevr, harch⟩ := version_inj hversion
  cases p
  cases q
  cases hname
  cases hevr
  cases harch
  rfl

theorem trim_line (p : Package) : trim p.line = p.line := by
  obtain ⟨c, name, hname⟩ := List.exists_cons_of_ne_nil p.named
  obtain ⟨arch, last, harch⟩ := (List.eq_nil_or_concat' p.arch).resolve_left p.built
  have hfirst : isWhiteSpace c = false :=
    isWhiteSpace_of_isTagChar (p.name_chars c (by rw [hname]; exact List.mem_cons_self))
  have hlast : isWhiteSpace last = false :=
    isWhiteSpace_of_isTagChar (p.arch_chars last (by simp [harch])).1
  have hline : p.line = c :: (name ++ ' ' :: p.evr ++ '.' :: arch ++ [last]) := by
    simp [Package.line, Package.version, hname, harch]
  rw [hline, trim_cons hfirst, ← List.cons_append, trimEnd_append hlast]
  rfl

theorem splitOnce_line (p : Package) : splitOnce ' ' (trim p.line) = some (p.name, p.version) := by
  rw [trim_line]
  exact splitOnce_append (notMem_of_isTagChar (by decide) p.name_chars)

theorem newline_notMem_line (p : Package) : '\n' ∉ p.line := by
  intro h
  rcases List.mem_append.mp h with h | h
  · exact absurd (p.name_chars _ h) (by decide)
  · rcases List.mem_cons.mp h with h | h
    · exact absurd h (by decide)
    · exact absurd (mem_version h) (by decide)

theorem parse_lines (packages : List Package) :
    (lines (listing packages)).filterMap (fun line => splitOnce ' ' (trim line)) =
      packages.map fun p => (p.name, p.version) := by
  have hbare : ∀ line ∈ packages.map Package.line, '\n' ∉ line := by
    intro line hline
    obtain ⟨p, -, rfl⟩ := List.mem_map.mp hline
    exact newline_notMem_line p
  unfold listing ofLines
  rw [lines_flatMap hbare, List.filterMap_map, List.filterMap_map, ← List.filterMap_eq_map]
  refine List.filterMap_congr fun p _ => ?_
  show splitOnce ' ' (trim (dropReturn p.line)) = some (p.name, p.version)
  rw [trim_dropReturn, splitOnce_line]

/-- The packages of a name. -/
def named (name : List Char) (packages : List Package) : List Package :=
  packages.filter fun p => p.name = name

/-- The one that a map by name keeps of them. -/
def lastOf (name : List Char) (packages : List Package) : Option Package :=
  (named name packages).getLast?

theorem get_parseRpmQuery (packages : List Package) (name : List Char) :
    (parseRpmQuery (listing packages)).get name = (lastOf name packages).map Package.version := by
  unfold parseRpmQuery lastOf named
  rw [parse_lines, SortedMap.get_ofList, List.filter_map, List.getLast?_map, Option.map_map]
  refine congrArg (fun l => Option.map Package.version (List.getLast? l)) ?_
  exact List.filter_congr fun p _ => by simp

/-! ### What a difference reports -/

theorem mem_reported :
    name ∈ (diff old new).reported ↔ old.rpm.get name ≠ new.rpm.get name := by
  have hchanged : name ∈ (diff old new).changed.map Prod.fst ↔
      ∃ before after, old.rpm.get name = some before ∧ new.rpm.get name = some after ∧
        before ≠ after := by
    constructor
    · intro h
      obtain ⟨move, hmove, rfl⟩ := List.mem_map.mp h
      obtain ⟨e, he, hmatch⟩ := List.mem_filterMap.mp hmove
      split at hmatch
      · next before hbefore =>
        split_ifs at hmatch with hne
        obtain rfl := Option.some.inj hmatch
        exact ⟨before, e.2, hbefore, SortedMap.get_eq_some.mpr he, hne⟩
      · cases hmatch
    · rintro ⟨before, after, hbefore, hafter, hne⟩
      refine List.mem_map.mpr ⟨(name, before, after), List.mem_filterMap.mpr ?_, rfl⟩
      refine ⟨(name, after), SortedMap.get_eq_some.mp hafter, ?_⟩
      simp only [hbefore]
      exact if_pos hne
  have hadded : name ∈ (diff old new).added ↔
      old.rpm.get name = none ∧ ∃ after, new.rpm.get name = some after := by
    simp only [diff, List.mem_map, List.mem_filter, Option.isNone_iff_eq_none]
    constructor
    · rintro ⟨e, ⟨he, hnone⟩, rfl⟩
      exact ⟨hnone, e.2, SortedMap.get_eq_some.mpr he⟩
    · rintro ⟨hnone, after, hafter⟩
      exact ⟨(name, after), ⟨SortedMap.get_eq_some.mp hafter, hnone⟩, rfl⟩
  have hremoved : name ∈ (diff old new).removed ↔
      (∃ before, old.rpm.get name = some before) ∧ new.rpm.get name = none := by
    simp [diff, SortedMap.mem_keys]
  simp only [LockDiff.reported, List.mem_append, hchanged, hadded, hremoved]
  cases old.rpm.get name with
  | none =>
    cases new.rpm.get name with
    | none => simp
    | some after => simp
  | some before =>
    cases new.rpm.get name with
    | none => simp
    | some after => simp

theorem isEmpty_diff_iff (h : old.base.digest = new.base.digest) :
    (diff old new).isEmpty = true ↔ ∀ name, old.rpm.get name = new.rpm.get name := by
  have hreported : (diff old new).isEmpty = true ↔ (diff old new).reported = [] := by
    simp [LockDiff.isEmpty, LockDiff.reported, diff, h, and_assoc]
  rw [hreported, List.eq_nil_iff_forall_not_mem]
  refine forall_congr' fun name => ?_
  rw [mem_reported, not_not]

/-- A lock tells two listings apart: an empty difference is one of equal listings, and what
differs is reported. -/
structure Faithful (old new : Lock) (A B : List Package) : Prop where
  empty : (diff old new).isEmpty = true ↔ A.Perm B
  reported : ∀ p, A.count p ≠ B.count p → p.name ∈ (diff old new).reported

/-- What two listings have beside the last package of each name. -/
structure Distinguished (A B : List Package) : Prop where
  shadowed : ∀ name, lastOf name A = lastOf name B →
    (named name A).dropLast.Perm (named name B).dropLast
  ordered : A.Perm B → ∀ name, lastOf name A = lastOf name B

theorem lastOf_name (h : p ∈ lastOf name packages) : p ∈ packages ∧ p.name = name := by
  have hmem := List.mem_filter.mp (List.mem_of_getLast? h)
  exact ⟨hmem.1, of_decide_eq_true hmem.2⟩

theorem get_eq_iff : (parseRpmQuery (listing A)).get name = (parseRpmQuery (listing B)).get name ↔
    lastOf name A = lastOf name B := by
  rw [get_parseRpmQuery, get_parseRpmQuery]
  constructor
  · intro h
    cases hA : lastOf name A with
    | none =>
      rw [hA] at h
      exact (Option.map_eq_none_iff.mp h.symm).symm
    | some p =>
      rw [hA] at h
      obtain ⟨q, hB, hversion⟩ := Option.map_eq_some_iff.mp h.symm
      have hname := (lastOf_name hA).2.trans (lastOf_name hB).2.symm
      rw [hB, eq_of_version hname hversion.symm]
  · exact congrArg _

/-- The packages of a name are told apart by their last one and those before it. -/
theorem named_perm (hlast : lastOf name A = lastOf name B) :
    (named name A).Perm (named name B) ↔
      (named name A).dropLast.Perm (named name B).dropLast := by
  unfold lastOf at hlast
  rcases List.eq_nil_or_concat' (named name A) with hA | ⟨initA, p, hA⟩
  · rw [hA] at hlast ⊢
    rw [List.getLast?_eq_none_iff.mp hlast.symm]
    rfl
  · rw [hA, List.getLast?_concat] at hlast
    obtain ⟨initB, hB⟩ := List.getLast?_eq_some_iff.mp hlast.symm
    rw [hA, hB, List.dropLast_concat, List.dropLast_concat, List.perm_append_right_iff]

theorem count_named (p : Package) : (named p.name packages).count p = packages.count p :=
  List.count_filter (by simp)

theorem faithful_iff {base base' : Base} (h : base.digest = base'.digest) (A B : List Package) :
    Faithful (record base A) (record base' B) A B ↔ Distinguished A B := by
  have hempty : (diff (record base A) (record base' B)).isEmpty = true ↔
      ∀ name, lastOf name A = lastOf name B := by
    have hdigest : (record base A).base.digest = (record base' B).base.digest := h
    rw [isEmpty_diff_iff hdigest]
    exact forall_congr' fun name => get_eq_iff
  have hreported : ∀ name, name ∈ (diff (record base A) (record base' B)).reported ↔
      lastOf name A ≠ lastOf name B := fun name => by
    rw [mem_reported]
    exact not_congr get_eq_iff
  constructor
  · intro hfaithful
    refine ⟨fun name hlast => (named_perm hlast).mp ?_, fun hperm => ?_⟩
    on_goal 2 => exact hempty.mp (hfaithful.empty.mpr hperm)
    refine List.perm_iff_count.mpr fun p => ?_
    by_cases hname : p.name = name
    · subst hname
      rw [count_named, count_named]
      by_contra hcount
      exact (hreported p.name).mp (hfaithful.reported p hcount) hlast
    · have hzero : ∀ packages, (named name packages).count p = 0 := fun packages =>
        List.count_eq_zero.mpr fun hmem => hname (of_decide_eq_true (List.mem_filter.mp hmem).2)
      rw [hzero, hzero]
  · intro hdistinguished
    have hcount : ∀ p, lastOf p.name A = lastOf p.name B → A.count p = B.count p := by
      intro p hlast
      have hperm := (named_perm hlast).mpr (hdistinguished.shadowed p.name hlast)
      rw [← count_named p, hperm.count_eq, count_named]
    refine ⟨hempty.trans ⟨fun hall => ?_, hdistinguished.ordered⟩, fun p hdiffers => ?_⟩
    · exact List.perm_iff_count.mpr fun p => hcount p (hall p.name)
    · rw [hreported]
      exact fun hlast => hdiffers (hcount p hlast)

theorem length_named_le (h : (packages.map Package.name).Nodup) :
    (named name packages).length ≤ 1 := by
  have hcount : (packages.map Package.name).count name = (named name packages).length := by
    rw [List.count_eq_countP, List.countP_map, named, List.countP_eq_length_filter]
    exact congrArg List.length (List.filter_congr fun p _ => beq_eq_decide _ _)
  rw [← hcount]
  exact List.nodup_iff_count_le_one.mp h name

/-- Listings with one package a name are told apart. -/
theorem distinguished_of_nodup (hA : (A.map Package.name).Nodup)
    (hB : (B.map Package.name).Nodup) : Distinguished A B := by
  have hdrop : ∀ packages : List Package, (packages.map Package.name).Nodup → ∀ name,
      (named name packages).dropLast = [] := by
    intro packages h name
    have hle : (named name packages).length ≤ 1 := length_named_le h
    rw [← List.length_eq_zero_iff, List.length_dropLast]
    omega
  refine ⟨fun name _ => ?_, fun hperm name => ?_⟩
  · rw [hdrop A hA name, hdrop B hB name]
  · have hnamed : (named name A).Perm (named name B) := hperm.filter _
    have hle : (named name A).length ≤ 1 := length_named_le hA
    unfold lastOf
    match hlist : named name A, hle with
    | [], _ => rw [hlist] at hnamed; rw [hnamed.symm.eq_nil]
    | [p], _ => rw [hlist] at hnamed; rw [List.perm_singleton.mp hnamed.symm]

/-- A build of the kernel, of which several are installed side by side. -/
def kernel (evr : List Char) (h : ∀ c ∈ evr, isTagChar c = true) : Package where
  name := "kernel".toList
  evr := evr
  arch := "x86_64".toList
  named := by decide
  built := by decide
  name_chars := List.all_iff_forall_prop.mp (by decide)
  evr_chars := h
  arch_chars := List.all_iff_forall_prop.mp (by decide)

def OLDER : Package :=
  kernel "7.1.7-200.fc44".toList (List.all_iff_forall_prop.mp (by decide +kernel))

def NEWER : Package :=
  kernel "7.1.8-200.fc44".toList (List.all_iff_forall_prop.mp (by decide +kernel))

def BASE : Base := ⟨"localhost/kuma-base:m0".toList, "sha256:0".toList⟩

theorem faithful_update : Faithful (record BASE [OLDER]) (record BASE [NEWER]) [OLDER] [NEWER] :=
  (faithful_iff rfl [OLDER] [NEWER]).mpr (distinguished_of_nodup (by decide) (by decide))

/-- The older of two kernels is gone, and no difference is reported. -/
theorem not_faithful_kernels : (diff (record BASE [OLDER, NEWER]) (record BASE [NEWER])).isEmpty ∧
    ¬Faithful (record BASE [OLDER, NEWER]) (record BASE [NEWER]) [OLDER, NEWER] [NEWER] := by
  have hempty : (diff (record BASE [OLDER, NEWER]) (record BASE [NEWER])).isEmpty = true := by
    decide +kernel
  refine ⟨hempty, fun h => ?_⟩
  have hlength := (h.empty.mp hempty).length_eq
  exact absurd hlength (by decide)

end Kuma.Lockfile
