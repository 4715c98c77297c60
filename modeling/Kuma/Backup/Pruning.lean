import Kuma.Containerfile.Snapshot
import Kuma.Lib.Script
import Mathlib.Data.List.DropRight

/-! A run of `kuma-backup`, command by command, and the file that says when it last pruned. The
shell truncates that file before `date` writes it, so a run that is cut off can leave any first
part of the number, and none of it. -/
namespace Kuma.Backup
open Kuma.Lib Kuma.Lib.Text

inductive Restic
  | catConfig
  | backup
  | forget
  | prune
  deriving DecidableEq

/-- The files in `/var/lib/kuma`: `backup-pruned` and `backup-last`. -/
inductive File
  | pruned
  | stamp
  deriving DecidableEq

abbrev Disk := File → Option (List Char)

/-- What `date -u +%s` can print. -/
abbrev Epoch := Fin (2 ^ 63)

/-- What one run finds, beside the files it keeps itself. -/
structure Night where
  /-- whether the unit has been given a password, or a file with one -/
  credential : Bool
  /-- the names in `$target/.snapshots` -/
  store : List (List Char)
  works : Restic → Bool
  /-- the clock when the prune stamp is compared, when it is written, and at the end -/
  checked : Epoch
  prunedAt : Epoch
  stampedAt : Epoch
  /-- the last of these as `date -u +%Y-%m-%dT%H:%M:%SZ` has it -/
  readable : List Char

/-- A run on its way. -/
structure Progress where
  disk : Disk
  ran : List Restic

namespace Progress

def put (f : File) (text : List Char) (s : Progress) : Progress :=
  { s with disk := Function.update s.disk f (some text) }

def run (c : Restic) (s : Progress) : Progress := { s with ran := s.ran ++ [c] }

@[simp] theorem put_disk (f : File) (text : List Char) (s : Progress) :
    (s.put f text).disk = Function.update s.disk f (some text) := rfl

@[simp] theorem put_ran (f : File) (text : List Char) (s : Progress) :
    (s.put f text).ran = s.ran := rfl

@[simp] theorem run_disk (c : Restic) (s : Progress) : (s.run c).disk = s.disk := rfl

@[simp] theorem run_ran (c : Restic) (s : Progress) : (s.run c).ran = s.ran ++ [c] := rfl

@[simp] theorem put_put (f : File) (text text' : List Char) (s : Progress) :
    (s.put f text).put f text' = s.put f text' := by
  simp [put]

end Progress

/-- `date -u +%s`, with its newline. -/
def epochLine (epoch : Epoch) : List Char := Nat.toDigits 10 epoch ++ ['\n']

/-- `printf '%s %s\n'` -/
def stampLine (n : Night) : List Char :=
  Nat.toDigits 10 n.stampedAt ++ ' ' :: n.readable ++ ['\n']

/-- `ls -1 | grep -E | sort -r | head -1` -/
def newest (store : List (List Char)) : Option (List Char) :=
  ((store.filter (Containerfile.isStamp ·)).insertionSort (· ≥ ·)).head?

/-- `$(cat "$file")` has no newline at its end. -/
def captured (text : List Char) : List Char := text.rdropWhile (· = '\n')

/-- A constant of the shell's arithmetic: a zero in front makes it octal. -/
def constant : List Char → Option ℕ
  | '0' :: ds =>
    if ds.all fun c => '0' ≤ c && c ≤ '7' then
      some (ds.foldl (fun n c => 8 * n + (c.toNat - 48)) 0)
    else none
  | ds => digits ds

/-- `[ ! -f "$pruned" ] || [ "$(( now - then ))" -ge 604800 ]`. Without an operand behind its
minus the arithmetic is a syntax error, and the condition has no status at all. -/
def due (pruned : Option (List Char)) (now : Epoch) : Option Bool :=
  match pruned with
  | none => some true
  | some text => (constant (captured text)).map fun since : ℕ => 604800 ≤ (now : ℤ) - since

/-- A restic command, which `set -e` does not forgive. -/
def restic (n : Night) (c : Restic) : Script Progress := .command fun s => (s.run c, n.works c)

def append (f : File) (c : Char) : Script Progress :=
  .command fun s => (s.put f ((s.disk f).getD [] ++ [c]), true)

/-- `command > "$file"`: the file is empty before the command has written anything. -/
def redirect (f : File) (text : List Char) : Script Progress :=
  (Script.command fun s => (s.put f [], true)).seq (.each (append f) text)

/-- What is done about pruning. The shell drops a command whose arithmetic fails, here the whole
`if`, and goes on with the one after it. -/
def pruneIfDue (n : Night) : Script Progress :=
  .look fun s =>
    match due (s.disk .pruned) n.checked with
    | some true => (restic n .prune).seq (redirect .pruned (epochLine n.prunedAt))
    | some false => .done
    | none => .done

/-- `BACKUP_SCRIPT`. The three guards exit 0. What is neither restic's nor a write to the two
files is left out: where such a command fails the run ends as one that is cut off there. -/
def backupScript (n : Night) : Script Progress :=
  if !n.credential then .done
  else if (newest n.store).isNone then .done
  else if !n.works .catConfig then restic n .catConfig |>.tolerate
  else (restic n .catConfig).seq ((restic n .backup).seq ((restic n .forget).seq
    ((pruneIfDue n).seq (redirect .stamp (stampLine n)))))

/-- One run. A run that is cut off ends after some number of commands, each character of a write
counted as one, and what was not on the disk yet is lost. -/
inductive Event
  | whole (n : Night)
  | cut (n : Night) (commands : ℕ) (kept : File → Option ℕ)

/-- What is left of the files when only so much of each was on the disk. -/
def lose (kept : File → Option ℕ) (disk : Disk) : Disk :=
  fun f => (kept f).bind fun k => (disk f).map (·.take k)

def Event.step (disk : Disk) : Event → Disk
  | .whole n => ((backupScript n).final ⟨disk, []⟩).disk
  | .cut n commands kept => lose kept ((backupScript n).cut commands ⟨disk, []⟩).disk

/-- The guards let the run through to restic, and restic succeeds. -/
structure Night.Ready (n : Night) : Prop where
  credential : n.credential = true
  snapshot : (newest n.store).isSome = true
  works : ∀ c, n.works c = true

/-- The file has in decimal a time less than a week before the given one. -/
def PrunedSince (pruned : Option (List Char)) (now : Epoch) : Prop :=
  ∃ text ∈ pruned, ∃ since ∈ digits (captured text), (now : ℤ) - since < 604800

/-- A whole run writes its stamp, and prunes unless the file says that it has. -/
structure Completes (disk : Disk) (n : Night) : Prop where
  stamp : ((backupScript n).final ⟨disk, []⟩).disk .stamp = some (stampLine n)
  prunes : ¬PrunedSince (disk .pruned) n.checked →
    Restic.prune ∈ ((backupScript n).final ⟨disk, []⟩).ran

/-- Every run of a sequence that is not cut off completes. -/
def NeverWedged (disk : Disk) (events : List Event) : Prop :=
  Along Event.step (fun disk event => ∀ n, event = .whole n → n.Ready → Completes disk n)
    disk events

/-- A first part of a number that `date` wrote, or no file. -/
def Torn (pruned : Option (List Char)) : Prop :=
  ∀ text ∈ pruned, ∃ epoch : Epoch, text <+: epochLine epoch

variable {disk : Disk} {n : Night} {C Q F : Progress → Prop} {s : Progress} {f : File}
  {text : List Char} {now : Epoch}

/-! ### What a run does -/

/-- Every first part of the text is on the disk at some time, and the text in the end. -/
theorem wp_redirect (hcut : ∀ part, part <+: text → C (s.put f part)) (hend : Q (s.put f text)) :
    (redirect f text).wp C Q F s := by
  let I (rest : List Char) (s' : Progress) : Prop :=
    ∃ part, part ++ rest = text ∧ s' = s.put f part
  have hstart : I text (s.put f []) := ⟨[], rfl, rfl⟩
  have hround : ∀ c rest s', I (c :: rest) s' → (append f c).wp C (I rest) F s' := by
    rintro c rest _ ⟨part, hpart, rfl⟩
    have hnext : (s.put f part).put f (((s.put f part).disk f).getD [] ++ [c]) =
        s.put f (part ++ [c]) := by
      simp
    have htext : (part ++ [c]) ++ rest = text := by
      rw [← hpart, List.append_assoc]
      rfl
    show C ((s.put f part).put f _) ∧ I rest ((s.put f part).put f _)
    rw [hnext]
    exact ⟨hcut _ ⟨rest, htext⟩, part ++ [c], htext, rfl⟩
  refine ⟨hcut [] List.nil_prefix, ?_⟩
  refine Script.wp_mono ?_ (fun _ => id) (Script.wp_each hround hstart)
  rintro _ ⟨part, hpart, rfl⟩
  rw [List.append_nil] at hpart
  exact hpart ▸ hend

theorem wp_restic {c : Restic} (hcut : C (s.run c)) (hend : n.works c = true → Q (s.run c))
    (hfailed : n.works c = false → F (s.run c)) : (restic n c).wp C Q F s := by
  refine ⟨hcut, ?_⟩
  show if n.works c = true then Q (s.run c) else F (s.run c)
  split_ifs with hworks
  · exact hend hworks
  · exact hfailed (Bool.eq_false_iff.mpr hworks)

theorem wp_pruneIfDue (hidle : due (s.disk .pruned) n.checked ≠ some true → Q s)
    (hprune : due (s.disk .pruned) n.checked = some true →
      ((restic n .prune).seq (redirect .pruned (epochLine n.prunedAt))).wp C Q F s) :
    (pruneIfDue n).wp C Q F s := by
  show (match due (s.disk .pruned) n.checked with
    | some true => (restic n .prune).seq (redirect .pruned (epochLine n.prunedAt))
    | some false => .done
    | none => .done : Script Progress).wp C Q F s
  split
  · next hdue => exact hprune hdue
  · next hdue => exact hidle (by rw [hdue]; decide)
  · next hdue => exact hidle (by rw [hdue]; decide)

/-- What a run that meets no obstacle has done in the end. -/
def completed (disk : Disk) (n : Night) : Progress :=
  let forgotten : Progress := ⟨disk, [.catConfig, .backup, .forget]⟩
  (if due (disk .pruned) n.checked = some true then
    (forgotten.run .prune).put .pruned (epochLine n.prunedAt)
  else forgotten).put .stamp (stampLine n)

theorem final_backupScript (h : n.Ready) :
    (backupScript n).final ⟨disk, []⟩ = completed disk n := by
  have hstore : (newest n.store).isNone = false := by
    rw [← Option.not_isSome, h.snapshot]
    rfl
  have hfailed : ∀ {c : Restic} {P : Prop}, n.works c = false → P := fun {c} _ hc =>
    absurd (h.works c) (by rw [hc]; exact Bool.false_ne_true)
  have hrun : (backupScript n).wp (fun _ => True) (· = completed disk n) (fun _ => False)
      ⟨disk, []⟩ := by
    unfold backupScript completed
    simp only [h.credential, hstore, h.works, Bool.not_true, Bool.false_eq_true, if_false]
    refine Script.wp_seq (wp_restic trivial (fun _ => ?_) hfailed)
    refine Script.wp_seq (wp_restic trivial (fun _ => ?_) hfailed)
    refine Script.wp_seq (wp_restic trivial (fun _ => ?_) hfailed)
    refine Script.wp_seq (wp_pruneIfDue (fun hdue => ?_) fun hdue => ?_)
    · change due (disk .pruned) n.checked ≠ some true at hdue
      refine wp_redirect (fun _ _ => trivial) ?_
      rw [if_neg hdue]
      rfl
    · change due (disk .pruned) n.checked = some true at hdue
      refine Script.wp_seq (wp_restic trivial (fun _ => ?_) hfailed)
      refine wp_redirect (fun _ _ => trivial) ?_
      refine wp_redirect (fun _ _ => trivial) ?_
      rw [if_pos hdue]
      rfl
  exact Script.final_of_wp hrun

/-- A run leaves a first part of a number at every moment. -/
theorem wp_torn (h : Torn (disk .pruned)) :
    (backupScript n).wp (fun s => Torn (s.disk .pruned)) (fun s => Torn (s.disk .pruned))
      (fun s => Torn (s.disk .pruned)) ⟨disk, []⟩ := by
  unfold backupScript
  split_ifs with hcredential hstore hprobe
  · exact h
  · exact h
  · exact Script.wp_tolerate (wp_restic h (fun _ => h) fun _ => h)
  · refine Script.wp_seq (wp_restic h (fun _ => ?_) fun _ => h)
    refine Script.wp_seq (wp_restic h (fun _ => ?_) fun _ => h)
    refine Script.wp_seq (wp_restic h (fun _ => ?_) fun _ => h)
    have hstamp : ∀ s : Progress, Torn (s.disk .pruned) →
        (redirect .stamp (stampLine n)).wp (fun s => Torn (s.disk .pruned))
          (fun s => Torn (s.disk .pruned)) (fun s => Torn (s.disk .pruned)) s := by
      intro s hs
      have hkept : ∀ part, Torn ((s.put .stamp part).disk .pruned) := fun part => by
        simpa using hs
      exact wp_redirect (fun part _ => hkept part) (hkept _)
    have hwritten : ∀ (s : Progress) (part : List Char), part <+: epochLine n.prunedAt →
        Torn ((s.put .pruned part).disk .pruned) := by
      intro s part hpart text htext
      rw [Progress.put_disk, Function.update_self] at htext
      obtain rfl := Option.some.inj htext
      exact ⟨n.prunedAt, hpart⟩
    refine Script.wp_seq (wp_pruneIfDue (fun _ => hstamp _ h) fun _ => ?_)
    refine Script.wp_seq (wp_restic h (fun _ => ?_) fun _ => h)
    refine wp_redirect (hwritten _) ?_
    exact hstamp _ (hwritten _ _ List.prefix_rfl)

theorem torn_none : Torn none := fun text htext => absurd htext (Option.not_mem_none text)

theorem Torn.lose {kept : File → Option ℕ} (h : Torn (disk .pruned)) :
    Torn (lose kept disk .pruned) := by
  intro text htext
  obtain ⟨k, -, htext⟩ := Option.bind_eq_some_iff.mp htext
  obtain ⟨whole, hwhole, rfl⟩ := Option.map_eq_some_iff.mp htext
  obtain ⟨epoch, hepoch⟩ := h whole hwhole
  exact ⟨epoch, (List.take_prefix k whole).trans hepoch⟩

theorem Torn.step (event : Event) (h : Torn (disk .pruned)) :
    Torn (event.step disk .pruned) := by
  cases event with
  | whole n =>
    obtain ⟨-, hok, hfailed⟩ := Script.wp_sound (wp_torn (n := n) h)
    cases hstatus : ((backupScript n).exec ⟨disk, []⟩).2 with
    | true => exact hok hstatus
    | false => exact hfailed hstatus
  | cut n commands kept => exact Torn.lose (Script.cut_of_wp (wp_torn h) h commands)

/-! ### What the file says -/

/-- A number has a zero in front only when it is zero. -/
theorem zero_of_head {epoch : ℕ} {ds : List Char} (h : Nat.toDigits 10 epoch = '0' :: ds) :
    ds = [] := by
  induction epoch using Nat.strong_induction_on generalizing ds with
  | _ epoch ih =>
    rcases lt_or_ge epoch 10 with hlt | hge
    · rw [Nat.toDigits_of_lt_base hlt] at h
      exact (List.cons.inj h).2.symm
    · exfalso
      rw [Nat.toDigits_of_base_le (by omega) hge] at h
      obtain ⟨c, cs, hcs⟩ :=
        List.exists_cons_of_ne_nil (Nat.toDigits_ne_nil (b := 10) (n := epoch / 10))
      rw [hcs, List.cons_append] at h
      obtain ⟨rfl, -⟩ := List.cons.inj h
      obtain rfl := ih (epoch / 10) (by omega) hcs
      have hvalue : epoch / 10 = 0 := by
        have hback := @Nat.ofDigitChars_ten_toDigits (epoch / 10)
        rw [hcs] at hback
        exact hback.symm
      omega

/-- Of a number that was cut short a number is read, if only a digit was left. -/
theorem constant_of_prefix {epoch : Epoch} (h : text <+: epochLine epoch) (hne : text ≠ []) :
    ∃ since, digits (captured text) = some since ∧ constant (captured text) = some since := by
  -- the newline is not captured, so that digits are left of the whole line too
  have hpart : captured text <+: Nat.toDigits 10 epoch ∧ captured text ≠ [] := by
    have hdigit : ∀ c ∈ Nat.toDigits 10 (epoch : ℕ), c ≠ '\n' := by
      rintro _ hc rfl
      exact absurd (Nat.isDigit_of_mem_toDigits (by omega) (by omega) hc) (by decide)
    have hbare : ∀ ds, ds <+: Nat.toDigits 10 (epoch : ℕ) → captured ds = ds := by
      intro ds hds
      refine List.rdropWhile_eq_self_iff.mpr fun hds' => ?_
      simpa using hdigit _ (hds.subset (List.getLast_mem hds'))
    rcases List.prefix_concat_iff.mp h with rfl | hdigits
    · have hline : captured (Nat.toDigits 10 (epoch : ℕ) ++ ['\n']) = Nat.toDigits 10 epoch := by
        refine (List.rdropWhile_concat_pos _ _ _ (by decide)).trans ?_
        exact hbare _ List.prefix_rfl
      rw [hline]
      exact ⟨List.prefix_rfl, Nat.toDigits_ne_nil⟩
    · rw [hbare _ hdigits]
      exact ⟨hdigits, hne⟩
  obtain ⟨hbegins, hsome⟩ := hpart
  obtain ⟨c, cs, hcs⟩ := List.exists_cons_of_ne_nil hsome
  rw [hcs] at hbegins ⊢
  have hall : (c :: cs).all Char.isDigit = true := List.all_eq_true.mpr fun d hd =>
    Nat.isDigit_of_mem_toDigits (by omega) (by omega) (hbegins.subset hd)
  have hvalue : digits (c :: cs) = some ((c :: cs).foldl (fun n c => 10 * n + (c.toNat - 48)) 0) :=
    if_pos hall
  refine ⟨_, hvalue, ?_⟩
  by_cases hzero : c = '0'
  · subst hzero
    obtain ⟨rest, hrest⟩ := hbegins
    have hdigits : Nat.toDigits 10 epoch = '0' :: (cs ++ rest) := hrest.symm
    have hnil : cs ++ rest = [] := zero_of_head hdigits
    obtain rfl := (List.append_eq_nil_iff.mp hnil).1
    rfl
  · rw [← hvalue]
    unfold constant
    split
    · next heq => exact absurd (List.cons.inj heq).1 hzero
    · rfl

/-- Pruning is due when the file does not say otherwise. -/
theorem due_iff (h : Torn (disk .pruned)) (hne : disk .pruned ≠ some []) :
    due (disk .pruned) now = some true ↔ ¬PrunedSince (disk .pruned) now := by
  cases hfile : disk .pruned with
  | none =>
    refine iff_of_true rfl ?_
    rintro ⟨text, htext, -⟩
    cases htext
  | some text =>
    have htext : text ≠ [] := fun hnil => hne (hnil ▸ hfile)
    obtain ⟨epoch, hepoch⟩ := h text hfile
    obtain ⟨since, hdigits, hconstant⟩ := constant_of_prefix hepoch htext
    have hdue : due (some text) now = some (decide (604800 ≤ (now : ℤ) - since)) := by
      simp only [due, hconstant, Option.map_some]
    have hsince : PrunedSince (some text) now ↔ (now : ℤ) - since < 604800 := by
      simp [PrunedSince, hdigits]
    rw [hdue, hsince, Option.some_inj, decide_eq_true_eq]
    omega

theorem not_prunedSince_empty : ¬PrunedSince (some []) now := by
  rintro ⟨text, htext, since, hsince, -⟩
  obtain rfl := Option.some.inj htext
  cases hsince

/-- A ready run completes exactly when it does not find an empty file. -/
theorem completes_iff (h : n.Ready) (htorn : Torn (disk .pruned)) :
    Completes disk n ↔ disk .pruned ≠ some [] := by
  have hfinal : (backupScript n).final ⟨disk, []⟩ = completed disk n := final_backupScript h
  constructor
  · intro hcompletes hempty
    have hprune := hcompletes.prunes (by rw [hempty]; exact not_prunedSince_empty)
    have hidle : due (some []) n.checked ≠ some true := nofun
    rw [hfinal, completed, hempty, if_neg hidle] at hprune
    exact absurd hprune (by simp)
  · intro hne
    refine ⟨?_, fun hsince => ?_⟩
    · rw [hfinal]
      simp [completed]
    · rw [hfinal, completed, if_pos ((due_iff htorn hne).mpr hsince)]
      simp

/-- Once the file is empty, whole runs leave it empty for good. -/
theorem wedged (hempty : disk .pruned = some []) (nights : List Night)
    (hready : ∀ n ∈ nights, n.Ready) :
    Kuma.Lib.run Event.step disk (nights.map .whole) .pruned = some [] := by
  induction nights generalizing disk with
  | nil => exact hempty
  | cons n nights ih =>
    have hnext : (Event.whole n).step disk .pruned = some [] := by
      show ((backupScript n).final ⟨disk, []⟩).disk .pruned = some []
      rw [final_backupScript (hready n List.mem_cons_self), completed, hempty]
      simpa [due, captured, constant, digits] using hempty
    exact ih hnext fun m hm => hready m (List.mem_cons_of_mem n hm)

/-- Every run of a sequence completes exactly when none that is let through finds the file
empty, whatever the cuts between them have left. -/
theorem neverWedged_iff (h : Torn (disk .pruned)) (events : List Event) :
    NeverWedged disk events ↔ Along Event.step (fun disk event =>
      ∀ n, event = .whole n → n.Ready → disk .pruned ≠ some []) disk events := by
  have hsteps : Along Event.step (fun disk _ => Torn (disk .pruned)) disk events := by
    refine along_invariant (P := fun _ _ => True) (fun disk event hs _ => hs.step event) h ?_
    exact fun _ _ => trivial
  constructor
  · intro hall x hx n hn hready
    exact (completes_iff hready (hsteps x hx)).mp (hall x hx n hn hready)
  · intro hall x hx n hn hready
    exact (completes_iff hready (hsteps x hx)).mpr (hall x hx n hn hready)

/-- A night on a machine that has been set up, at a second of 2027. -/
def seeded : Night :=
  ⟨true, ["2027-01-15T020000".toList], fun _ => true, 1800000000, 1800000060, 1800000070,
    "2027-01-15T08:01:10Z".toList⟩

theorem seeded_ready : seeded.Ready :=
  ⟨rfl, by decide +kernel, fun _ => rfl⟩

/-- A first run, one that is cut off early, and another whole one. -/
theorem neverWedged_seeded : NeverWedged (fun _ => none)
    [.whole seeded, .cut seeded 2 fun _ => some 80, .whole seeded] := by
  refine (neverWedged_iff torn_none _).mpr ?_
  refine along_cons.mpr ⟨fun _ _ _ => by decide, ?_⟩
  refine along_cons.mpr ⟨fun _ h => Event.noConfusion h, ?_⟩
  refine along_cons.mpr ⟨fun _ _ _ => by decide +kernel, ?_⟩
  exact along_nil _

/-- The first run is cut off when the shell has made the file and `date` has not written it. -/
theorem not_neverWedged_cut : ¬NeverWedged (fun _ => none)
    [.cut seeded 5 fun _ => some 80, .whole seeded] := by
  intro h
  have hcompletes := (along_cons.mp (along_cons.mp h).2).1 seeded rfl seeded_ready
  have hempty : (Event.cut seeded 5 fun _ => some 80).step (fun _ => none) .pruned = some [] := by
    decide +kernel
  have hsince := hcompletes.prunes (by rw [hempty]; exact not_prunedSince_empty)
  rw [final_backupScript seeded_ready, completed, hempty] at hsince
  exact absurd hsince (by decide +kernel)

end Kuma.Backup
