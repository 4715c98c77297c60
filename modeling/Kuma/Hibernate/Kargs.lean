import Kuma.Lib.Text
import Mathlib.Algebra.Ring.Nat

/-! The kernel arguments that turn a swapfile into a resume source. What a command line says
now is read with the last value winning, and deleted by that value before the new pair is
appended. -/
namespace Kuma.Hibernate
open Kuma.Lib.Text

def RESUME : List Char := "resume=".toList
def RESUME_OFFSET : List Char := "resume_offset=".toList
def DELETE : List Char := "--delete-if-present=".toList
def APPEND : List Char := "--append=".toList

/-- One argument of `resume_from_cmdline`'s loop: an offset that does not parse is none. -/
def resumeStep (state : Option (List Char) × Option ℕ) (arg : List Char) :
    Option (List Char) × Option ℕ :=
  match stripPrefix RESUME_OFFSET arg with
  | some value => (state.1, parseUnsigned (2 ^ 64) value)
  | none =>
    match stripPrefix RESUME arg with
    | some value => (some value, state.2)
    | none => state

/-- `resume_from_cmdline`: what the kernel was told about resuming. -/
def resumeFromCmdline (cmdline : List Char) : Option (List Char) × Option ℕ :=
  (words cmdline).foldl resumeStep (none, none)

def kargs (fsUuid offset : List Char) : List (List Char) :=
  [RESUME ++ "UUID=".toList ++ fsUuid, RESUME_OFFSET ++ offset]

/-- The arguments a command line has now, spelled out of what was read of it. -/
def currentKargs (current : List Char) : List (List Char) :=
  let (resume, offset) := resumeFromCmdline current
  (resume.map (RESUME ++ ·)).toList ++ (offset.map (RESUME_OFFSET ++ Nat.toDigits 10 ·)).toList

def kargArguments (current fsUuid offset : List Char) : List (List Char) :=
  "kargs".toList ::
    ((currentKargs current).map (DELETE ++ ·) ++ (kargs fsUuid offset).map (APPEND ++ ·))

/-- Empty when there is nothing to delete. -/
def kargRemoval (current : List Char) : List (List Char) :=
  let args := "kargs".toList :: (currentKargs current).map (DELETE ++ ·)
  if args.length = 1 then [] else args

/-- What `rpm-ostree` does to a list of kernel arguments for one argument of its own. -/
def applyEdit (args : List (List Char)) (edit : List Char) : List (List Char) :=
  match stripPrefix DELETE edit with
  | some karg => args.filter (· ≠ karg)
  | none =>
    match stripPrefix APPEND edit with
    | some karg => args ++ [karg]
    | none => args

def applyEdits (args edits : List (List Char)) : List (List Char) := edits.foldl applyEdit args

/-- The arguments with this key. -/
def named (key : List Char) (args : List (List Char)) : List (List Char) :=
  args.filter fun arg => (stripPrefix key arg).isSome

/-- The arguments that say nothing about resuming. -/
def others (args : List (List Char)) : List (List Char) :=
  args.filter fun arg => (stripPrefix RESUME arg).isNone && (stripPrefix RESUME_OFFSET arg).isNone

/-- The values of the arguments with this key. -/
def valuesOf (key : List Char) (args : List (List Char)) : List (List Char) :=
  args.filterMap (stripPrefix key)

variable {current fsUuid offset key value arg : List Char} {args ks : List (List Char)}

/-! ### What the edits do -/

theorem stripPrefix_append : stripPrefix key (key ++ value) = some value :=
  stripPrefix_eq_some.mpr rfl

theorem applyEdits_append (edits edits' : List (List Char)) :
    applyEdits args (edits ++ edits') = applyEdits (applyEdits args edits) edits' :=
  List.foldl_append

theorem applyEdits_delete (ks args : List (List Char)) :
    applyEdits args (ks.map (DELETE ++ ·)) = args.filter (· ∉ ks) := by
  induction ks generalizing args with
  | nil => simp [applyEdits]
  | cons k ks ih =>
    have hstep : applyEdit args (DELETE ++ k) = args.filter (· ≠ k) := by
      unfold applyEdit
      rw [stripPrefix_append]
    have hrest : applyEdits args ((k :: ks).map (DELETE ++ ·)) =
        applyEdits (applyEdit args (DELETE ++ k)) (ks.map (DELETE ++ ·)) := rfl
    rw [hrest, hstep, ih, List.filter_filter]
    apply List.filter_congr
    intro a _
    simp [Bool.and_comm]

theorem applyEdits_append_kargs (ks args : List (List Char)) :
    applyEdits args (ks.map (APPEND ++ ·)) = args ++ ks := by
  induction ks generalizing args with
  | nil => simp [applyEdits]
  | cons k ks ih =>
    have hdelete : stripPrefix DELETE (APPEND ++ k) = none := rfl
    have hstep : applyEdit args (APPEND ++ k) = args ++ [k] := by
      unfold applyEdit
      rw [hdelete, stripPrefix_append]
    have hrest : applyEdits args ((k :: ks).map (APPEND ++ ·)) =
        applyEdits (applyEdit args (APPEND ++ k)) (ks.map (APPEND ++ ·)) := rfl
    rw [hrest, hstep, ih, List.append_assoc]
    rfl

theorem applyEdits_kargArguments :
    applyEdits args (kargArguments current fsUuid offset) =
      args.filter (· ∉ currentKargs current) ++ kargs fsUuid offset := by
  have hverb : applyEdits args (kargArguments current fsUuid offset) =
      applyEdits args ((currentKargs current).map (DELETE ++ ·) ++
        (kargs fsUuid offset).map (APPEND ++ ·)) := rfl
  rw [hverb, applyEdits_append, applyEdits_delete, applyEdits_append_kargs]

theorem kargRemoval_eq_nil_iff : kargRemoval current = [] ↔ currentKargs current = [] := by
  unfold kargRemoval
  cases currentKargs current <;> simp

theorem applyEdits_kargRemoval :
    applyEdits args (kargRemoval current) = args.filter (· ∉ currentKargs current) := by
  by_cases hnone : currentKargs current = []
  · rw [kargRemoval_eq_nil_iff.mpr hnone, hnone]
    simp [applyEdits]
  · have hremoval : kargRemoval current =
        "kargs".toList :: (currentKargs current).map (DELETE ++ ·) := by
      unfold kargRemoval
      simp [hnone]
    rw [hremoval, ← applyEdits_delete]
    rfl

/-! ### What is read -/

/-- Both values are the last ones. -/
theorem foldl_resumeStep (args : List (List Char)) :
    args.foldl resumeStep (none, none) =
      ((valuesOf RESUME args).getLast?,
        (valuesOf RESUME_OFFSET args).getLast?.bind (parseUnsigned (2 ^ 64))) := by
  induction args using List.reverseRecOn with
  | nil => rfl
  | append_singleton args arg ih =>
    rw [List.foldl_append, ih]
    unfold valuesOf
    rw [List.filterMap_append, List.filterMap_append, List.getLast?_append,
      List.getLast?_append]
    simp only [List.foldl_cons, List.foldl_nil, List.filterMap_cons, List.filterMap_nil]
    unfold resumeStep
    cases hoffset : stripPrefix RESUME_OFFSET arg with
    | some value =>
      have hresume : stripPrefix RESUME arg = none := by
        rw [stripPrefix_eq_some.mp hoffset]
        rfl
      simp [hresume]
    | none =>
      cases hresume : stripPrefix RESUME arg <;> simp

theorem mem_currentKargs_resume :
    RESUME ++ value ∈ currentKargs current ↔
      (valuesOf RESUME (words current)).getLast? = some value := by
  have hoffset : ∀ n, RESUME ++ value ≠ RESUME_OFFSET ++ Nat.toDigits 10 n := by
    intro n hsame
    have hnone : stripPrefix RESUME (RESUME_OFFSET ++ Nat.toDigits 10 n) = none := rfl
    rw [← hsame, stripPrefix_append] at hnone
    cases hnone
  unfold currentKargs resumeFromCmdline
  rw [foldl_resumeStep]
  simp only [List.mem_append, Option.mem_toList, Option.map_eq_some_iff,
    List.append_cancel_left_eq, exists_eq_right]
  constructor
  · rintro (h | ⟨n, -, hsame⟩)
    · exact h
    · exact absurd hsame.symm (hoffset n)
  · exact .inl

theorem mem_currentKargs_offset :
    RESUME_OFFSET ++ value ∈ currentKargs current ↔
      ∃ n, (valuesOf RESUME_OFFSET (words current)).getLast?.bind (parseUnsigned (2 ^ 64)) =
        some n ∧ Nat.toDigits 10 n = value := by
  have hresume : ∀ v, RESUME ++ v ≠ RESUME_OFFSET ++ value := by
    intro v hsame
    have hnone : stripPrefix RESUME (RESUME_OFFSET ++ value) = none := rfl
    rw [← hsame, stripPrefix_append] at hnone
    cases hnone
  unfold currentKargs resumeFromCmdline
  rw [foldl_resumeStep]
  simp only [List.mem_append, Option.mem_toList, Option.map_eq_some_iff,
    List.append_cancel_left_eq]
  constructor
  · rintro (⟨v, -, hsame⟩ | h)
    · exact absurd hsame (hresume v)
    · exact h
  · exact .inr

/-! ### When the replacement is exact -/

/-- The arguments after the edits: one pair, the one asked for, and none of the old ones; the
removal leaves none at all, and is no work exactly when there was nothing to remove. -/
structure KargsExact (current fsUuid offset : List Char) : Prop where
  resume : named RESUME (applyEdits (words current) (kargArguments current fsUuid offset)) =
    [RESUME ++ "UUID=".toList ++ fsUuid]
  resume_offset :
    named RESUME_OFFSET (applyEdits (words current) (kargArguments current fsUuid offset)) =
      [RESUME_OFFSET ++ offset]
  kept : others (applyEdits (words current) (kargArguments current fsUuid offset)) =
    others (words current)
  removed : applyEdits (words current) (kargRemoval current) = others (words current)
  removal_nil : kargRemoval current = [] ↔
    named RESUME (words current) = [] ∧ named RESUME_OFFSET (words current) = []

/-- The command line repeats neither argument with another value, and spells its offset as the
kernel prints one. -/
structure Replaceable (current : List Char) : Prop where
  resume : ∀ v ∈ valuesOf RESUME (words current), ∀ w ∈ valuesOf RESUME (words current), v = w
  resume_offset : ∃ n < 2 ^ 64,
    ∀ v ∈ valuesOf RESUME_OFFSET (words current), v = Nat.toDigits 10 n

/-- Every argument with the key is deleted. -/
def Cleared (key current : List Char) : Prop :=
  ∀ v ∈ valuesOf key (words current), key ++ v ∈ currentKargs current

theorem mem_valuesOf : value ∈ valuesOf key args ↔ key ++ value ∈ args := by
  unfold valuesOf
  rw [List.mem_filterMap]
  constructor
  · rintro ⟨a, ha, hvalue⟩
    rw [← stripPrefix_eq_some.mp hvalue]
    exact ha
  · intro h
    exact ⟨key ++ value, h, stripPrefix_append⟩

theorem named_eq_nil_iff : named key args = [] ↔ valuesOf key args = [] := by
  unfold named valuesOf
  rw [List.filter_eq_nil_iff, List.filterMap_eq_nil_iff]
  apply forall₂_congr
  intro a _
  cases stripPrefix key a <;> simp

theorem named_filter_eq_nil_iff :
    named key ((words current).filter (· ∉ currentKargs current)) = [] ↔ Cleared key current := by
  rw [named_eq_nil_iff, List.eq_nil_iff_forall_not_mem]
  unfold Cleared
  apply forall_congr'
  intro v
  rw [mem_valuesOf, mem_valuesOf, List.mem_filter]
  simp

theorem cleared_resume_iff :
    Cleared RESUME current ↔ ∀ v ∈ valuesOf RESUME (words current),
      ∀ w ∈ valuesOf RESUME (words current), v = w := by
  unfold Cleared
  simp only [mem_currentKargs_resume]
  constructor
  · intro h v hv w hw
    have hsame := (h v hv).symm.trans (h w hw)
    exact Option.some.inj hsame
  · intro h v hv
    have hne : valuesOf RESUME (words current) ≠ [] := List.ne_nil_of_mem hv
    rw [List.getLast?_eq_some_getLast hne, h v hv _ (List.getLast_mem hne)]

theorem cleared_offset_iff :
    Cleared RESUME_OFFSET current ↔ ∃ n < 2 ^ 64,
      ∀ v ∈ valuesOf RESUME_OFFSET (words current), v = Nat.toDigits 10 n := by
  unfold Cleared
  simp only [mem_currentKargs_offset]
  constructor
  · intro h
    rcases List.eq_nil_or_concat' (valuesOf RESUME_OFFSET (words current)) with hnil | ⟨_, v, hv⟩
    · refine ⟨0, by omega, ?_⟩
      rw [hnil]
      intro v hv
      cases hv
    · have hmem : v ∈ valuesOf RESUME_OFFSET (words current) := by
        rw [hv]
        exact List.mem_concat_self
      obtain ⟨n, hn, -⟩ := h v hmem
      obtain ⟨text, -, htext⟩ := Option.bind_eq_some_iff.mp hn
      refine ⟨n, parseUnsigned_lt htext, ?_⟩
      intro w hw
      obtain ⟨m, hm, hspelled⟩ := h w hw
      rw [← hspelled, Option.some.inj (hm.symm.trans hn)]
  · rintro ⟨n, hlt, hall⟩ v hv
    have hne : valuesOf RESUME_OFFSET (words current) ≠ [] := List.ne_nil_of_mem hv
    refine ⟨n, ?_, (hall v hv).symm⟩
    rw [List.getLast?_eq_some_getLast hne, hall _ (List.getLast_mem hne)]
    exact parseUnsigned_toDigits hlt

theorem replaceable_iff :
    Replaceable current ↔ Cleared RESUME current ∧ Cleared RESUME_OFFSET current := by
  rw [cleared_resume_iff, cleared_offset_iff]
  constructor
  · intro h
    exact ⟨h.resume, h.resume_offset⟩
  · rintro ⟨hresume, hoffset⟩
    exact ⟨hresume, hoffset⟩

theorem named_append (args args' : List (List Char)) :
    named key (args ++ args') = named key args ++ named key args' := List.filter_append ..

theorem others_append (args args' : List (List Char)) :
    others (args ++ args') = others args ++ others args' := List.filter_append ..

theorem named_resume_kargs :
    named RESUME (kargs fsUuid offset) = [RESUME ++ "UUID=".toList ++ fsUuid] := rfl

theorem named_offset_kargs :
    named RESUME_OFFSET (kargs fsUuid offset) = [RESUME_OFFSET ++ offset] := rfl

theorem others_kargs : others (kargs fsUuid offset) = [] := rfl

/-- Only arguments about resuming are deleted. -/
theorem others_filter_currentKargs :
    others (args.filter (· ∉ currentKargs current)) = others args := by
  unfold others
  rw [List.filter_filter]
  apply List.filter_congr
  intro a _
  rw [Bool.and_eq_left_iff_imp]
  intro hother
  rw [decide_eq_true_eq]
  intro hmem
  unfold currentKargs at hmem
  simp only [List.mem_append, Option.mem_toList, Option.map_eq_some_iff] at hmem
  rcases hmem with ⟨v, -, rfl⟩ | ⟨n, -, rfl⟩ <;> simp [stripPrefix_append] at hother

theorem others_of_named_eq_nil (hresume : named RESUME args = [])
    (hoffset : named RESUME_OFFSET args = []) : others args = args := by
  unfold named at hresume hoffset
  rw [List.filter_eq_nil_iff] at hresume hoffset
  unfold others
  rw [List.filter_eq_self]
  intro a ha
  simp [Option.not_isSome_iff_eq_none.mp (hresume a ha),
    Option.not_isSome_iff_eq_none.mp (hoffset a ha)]

theorem named_resume_others : named RESUME (others args) = [] := by
  unfold named others
  simp only [List.filter_eq_nil_iff, List.mem_filter, Bool.and_eq_true, Option.isNone_iff_eq_none]
  rintro a ⟨-, hresume, -⟩
  simp [hresume]

theorem named_offset_others : named RESUME_OFFSET (others args) = [] := by
  unfold named others
  simp only [List.filter_eq_nil_iff, List.mem_filter, Bool.and_eq_true, Option.isNone_iff_eq_none]
  rintro a ⟨-, -, hoffset⟩
  simp [hoffset]

theorem currentKargs_eq_nil_iff (hresume : Cleared RESUME current)
    (hoffset : Cleared RESUME_OFFSET current) :
    currentKargs current = [] ↔
      named RESUME (words current) = [] ∧ named RESUME_OFFSET (words current) = [] := by
  rw [named_eq_nil_iff, named_eq_nil_iff]
  constructor
  · intro hnil
    unfold Cleared at hresume hoffset
    rw [hnil] at hresume hoffset
    exact ⟨List.eq_nil_iff_forall_not_mem.mpr fun v hv => List.not_mem_nil (hresume v hv),
      List.eq_nil_iff_forall_not_mem.mpr fun v hv => List.not_mem_nil (hoffset v hv)⟩
  · rintro ⟨hresume, hoffset⟩
    unfold currentKargs resumeFromCmdline
    rw [foldl_resumeStep, hresume, hoffset]
    rfl

/-- The edits replace exactly on the command lines that repeat neither argument with another
value and spell the offset canonically. -/
theorem kargs_exact_iff (current fsUuid offset : List Char) :
    KargsExact current fsUuid offset ↔ Replaceable current := by
  rw [replaceable_iff]
  constructor
  · intro h
    have hleft := h.removed
    rw [applyEdits_kargRemoval] at hleft
    rw [← named_filter_eq_nil_iff, ← named_filter_eq_nil_iff, hleft]
    exact ⟨named_resume_others, named_offset_others⟩
  · rintro ⟨hresume, hoffset⟩
    have hresume' := named_filter_eq_nil_iff.mpr hresume
    have hoffset' := named_filter_eq_nil_iff.mpr hoffset
    constructor
    · rw [applyEdits_kargArguments, named_append, hresume', named_resume_kargs, List.nil_append]
    · rw [applyEdits_kargArguments, named_append, hoffset', named_offset_kargs, List.nil_append]
    · rw [applyEdits_kargArguments, others_append, others_filter_currentKargs, others_kargs,
        List.append_nil]
    · rw [applyEdits_kargRemoval, ← others_of_named_eq_nil hresume' hoffset',
        others_filter_currentKargs]
    · rw [kargRemoval_eq_nil_iff]
      exact currentKargs_eq_nil_iff hresume hoffset

/-- An offset with a leading zero is deleted under another spelling, and stays. -/
theorem kargArguments_leading_zero :
    applyEdits (words "ro resume=UUID=86bf resume_offset=0111".toList)
        (kargArguments "ro resume=UUID=86bf resume_offset=0111".toList "86bf".toList
          "222".toList) =
      ["ro", "resume_offset=0111", "resume=UUID=86bf", "resume_offset=222"].map String.toList ∧
    ¬ KargsExact "ro resume=UUID=86bf resume_offset=0111".toList "86bf".toList "222".toList := by
  have hafter : applyEdits (words "ro resume=UUID=86bf resume_offset=0111".toList)
      (kargArguments "ro resume=UUID=86bf resume_offset=0111".toList "86bf".toList
        "222".toList) =
      ["ro", "resume_offset=0111", "resume=UUID=86bf", "resume_offset=222"].map String.toList := by
    decide
  refine ⟨hafter, ?_⟩
  intro h
  have htwo := h.resume_offset
  rw [hafter] at htwo
  revert htwo
  decide

end Kuma.Hibernate
