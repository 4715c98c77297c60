import Mathlib.Data.List.Sort
import Mathlib.Data.Finset.Dedup
import Kuma.Lib.Retention
import Kuma.Lib.FixedWidth
import Kuma.Lib.Text
import Kuma.Lib.Run
import Kuma.Config.Validate

/-! `kuma-snapshot`: a read-only snapshot of the declared subvolume, and the pruning of the store
to the declared retention. The script sees names; the retention is about times. -/
namespace Kuma.Containerfile

open Lib Lib.FixedWidth Lib.Retention
open Kuma.Config (Snapshots)

/-- What `date` reads off the clock, in a year that its four digits hold. -/
structure Stamp where
  year : Fin 10000
  month : Fin 13
  day : Fin 32
  hour : Fin 24
  minute : Fin 60
  second : Fin 61

namespace Stamp

def date (t : Stamp) : List ℕ := [t.year, t.month, t.day]

def time (t : Stamp) : List ℕ := [t.hour, t.minute, t.second]

/-- `%Y-%m-%d`. -/
def DATE : Format := [(4, ['-']), (2, ['-']), (2, [])]

/-- `%H%M%S`. -/
def TIME : Format := [(2, []), (2, []), (2, [])]

def dayText (t : Stamp) : List Char := spell DATE t.date

/-- `$(date +%Y-%m-%dT%H%M%S)`. -/
def name (t : Stamp) : List Char := t.dayText ++ 'T' :: spell TIME t.time

def fields (t : Stamp) : List ℕ := t.date ++ t.time

theorem fields_injective : Function.Injective fields := by
  intro s t h
  obtain ⟨sy, sm, sd, sh, si, ss⟩ := s
  obtain ⟨ty, tm, td, th, ti, ts⟩ := t
  simp only [fields, date, time, List.cons_append, List.nil_append, List.cons.injEq, and_true] at h
  obtain ⟨hy, hm, hd, hh, hi, hs⟩ := h
  rw [Fin.ext hy, Fin.ext hm, Fin.ext hd, Fin.ext hh, Fin.ext hi, Fin.ext hs]

/-- The order of the calendar and the clock. -/
instance : LinearOrder Stamp := LinearOrder.lift' fields fields_injective

theorem lt_iff_fields {s t : Stamp} : s < t ↔ s.fields < t.fields := Iff.rfl

theorem fits_date (t : Stamp) : Fits DATE t.date := by
  have hmonth := t.month.isLt
  have hday := t.day.isLt
  exact ⟨t.year.isLt, by omega, by omega, trivial⟩

theorem fits_time (t : Stamp) : Fits TIME t.time := by
  have hhour := t.hour.isLt
  have hminute := t.minute.isLt
  have hsecond := t.second.isLt
  exact ⟨by omega, by omega, by omega, trivial⟩

/-- What is earlier is on an earlier date, or at an earlier time of the same. -/
theorem date_lt_or_eq {s t : Stamp} (h : s < t) :
    s.date < t.date ∨ s.date = t.date ∧ s.time < t.time :=
  lt_or_eq_of_append_lt (show s.date.length = t.date.length from rfl) (lt_iff_fields.mp h)

theorem date_monotone : Monotone date := by
  intro s t hst
  rcases hst.lt_or_eq with hlt | rfl
  · rcases date_lt_or_eq hlt with hdate | ⟨hdate, -⟩
    · exact hdate.le
    · exact hdate.le
  · exact le_rfl

theorem dayText_injective {s t : Stamp} (h : s.dayText = t.dayText) : s.date = t.date :=
  spell_injective s.fits_date t.fits_date h

/-- The names are in the order of the times. -/
theorem name_lt {s t : Stamp} (h : s < t) : s.name < t.name := by
  have hlen : s.dayText.length = t.dayText.length := length_spell s.fits_date t.fits_date
  rcases date_lt_or_eq h with hdate | ⟨hdate, htime⟩
  · exact append_lt_append hlen (spell_lt s.fits_date t.fits_date hdate)
  · have htext : s.dayText = t.dayText := congrArg (spell DATE) hdate
    rw [name, name, htext]
    refine append_lt_append_right (List.cons_lt_cons_iff.mpr (.inr ⟨rfl, ?_⟩))
    exact spell_lt s.fits_time t.fits_time htime

theorem name_strictMono : StrictMono name := fun _ _ => name_lt

theorem notMem_name {c : Char} (hc : ¬('0' ≤ c ∧ c ≤ '9')) (hdash : c ≠ '-') (hT : c ≠ 'T')
    (t : Stamp) : c ∉ t.name := by
  have hmarks : ∀ field ∈ DATE ++ TIME, c ∉ field.2 := by
    simp [DATE, TIME, hdash]
  intro h
  rcases List.mem_append.mp h with h | h
  · rcases of_mem_spell h with h | ⟨field, hfield, h⟩
    · exact hc h
    · exact hmarks field (List.mem_append_left TIME hfield) h
  · rcases List.mem_cons.mp h with h | h
    · exact hT h
    · rcases of_mem_spell h with h | ⟨field, hfield, h⟩
      · exact hc h
      · exact hmarks field (List.mem_append_right DATE hfield) h

end Stamp

def isDigit (c : Char) : Bool := '0' ≤ c && c ≤ '9'

/-- `^[0-9]\x7b4\x7d-[0-9]\x7b2\x7d-[0-9]\x7b2\x7dT[0-9]\x7b6\x7d$`, place by place. -/
def shape : List (Char → Bool) :=
  List.replicate 4 isDigit ++ (· == '-') :: List.replicate 2 isDigit ++
    (· == '-') :: List.replicate 2 isDigit ++ (· == 'T') :: List.replicate 6 isDigit

/-- `grep -E`, one character for each place. -/
def fits : List (Char → Bool) → List Char → Bool
  | [], [] => true
  | p :: ps, c :: cs => p c && fits ps cs
  | _, _ => false

/-- The names this script writes. -/
def isStamp (line : List Char) : Bool := fits shape line

/-- `$\x7bsnap%%T*\x7d`. -/
def dayOf (snap : List Char) : List Char := snap.takeWhile (· ≠ 'T')

inductive Kind where
  | subvolume
  | directory
  | file
  deriving DecidableEq

/-- What is found in `$target/.snapshots`. -/
structure Entry where
  name : List Char
  kind : Kind
  deriving DecidableEq

/-- What a run meets: the file system of the target, whether it is a subvolume, and the time. -/
structure Tick where
  fstype : String
  isSubvolume : Bool
  now : Stamp

/-- `ls -1`, a line for each name, or several for a name with newlines. -/
def listing (store : List Entry) : List (List Char) :=
  ((store.map Entry.name).filter (·.head? ≠ some '.')).flatMap (Text.split '\n')

/-- `mapfile -t all`. -/
def all (store : List Entry) : List (List Char) :=
  ((listing store).filter (isStamp ·)).insertionSort (· ≥ ·)

structure Pruning where
  store : List Entry
  recent : ℕ
  days : ℕ
  daySeen : List (List Char)

/-- `btrfs subvolume delete`. -/
def subvolumeDelete (store : List Entry) (snap : List Char) : Option (List Entry) :=
  if ⟨snap, .subvolume⟩ ∈ store then some (store.filter (· ≠ ⟨snap, .subvolume⟩)) else none

/-- The body of the loop, which ends the script if the deletion fails. -/
def Pruning.next (snapshots : Snapshots) (s : Pruning) (snap : List Char) : Option Pruning :=
  let day := dayOf snap
  if s.recent < snapshots.keepRecent.toNat then
    some { s with recent := s.recent + 1, daySeen := day :: s.daySeen }
  else if day ∉ s.daySeen ∧ s.days < snapshots.keepDaily.toNat then
    some { s with days := s.days + 1, daySeen := day :: s.daySeen }
  else (subvolumeDelete s.store snap).map fun store => { s with store }

def Pruning.loop (snapshots : Snapshots) : Pruning → List (List Char) → Pruning
  | s, [] => s
  | s, snap :: rest =>
    match s.next snapshots snap with
    | some s' => loop snapshots s' rest
    | none => s

def prune (snapshots : Snapshots) (store : List Entry) : List Entry :=
  (Pruning.loop snapshots ⟨store, 0, 0, []⟩ (all store)).store

/-- `btrfs subvolume snapshot -r`, which goes inside a directory that has the name already. -/
def subvolumeSnapshot (store : List Entry) (name : List Char) : Option (List Entry) :=
  match store.find? (·.name = name) with
  | none => some (store ++ [⟨name, .subvolume⟩])
  | some ⟨_, .directory⟩ => some store
  | some _ => none

/-- `snapshot_script`. -/
def snapshotScript (snapshots : Snapshots) (store : List Entry) (tick : Tick) : List Entry :=
  if tick.fstype ≠ "btrfs" then store
  else if tick.isSubvolume = false then store
  else match subvolumeSnapshot store tick.now.name with
    | none => store
    | some store => prune snapshots store

/-- Snapshots as the store holds them. -/
def Stamp.entry (t : Stamp) : Entry := ⟨t.name, .subvolume⟩

/-- A store of nothing but snapshots. -/
def shelf (taken : List Stamp) : List Entry := taken.map Stamp.entry

theorem Stamp.entry_injective : Function.Injective Stamp.entry := fun _ _ h =>
  Stamp.name_strictMono.injective (congrArg Entry.name h)

theorem mem_shelf {t : Stamp} {taken : List Stamp} : t.entry ∈ shelf taken ↔ t ∈ taken :=
  List.mem_map_of_injective Stamp.entry_injective

/-- The places of a name, one by one. -/
theorem fits_append {ps qs : List (Char → Bool)} {a b : List Char} (ha : fits ps a = true)
    (hb : fits qs b = true) : fits (ps ++ qs) (a ++ b) = true := by
  induction ps generalizing a with
  | nil =>
    obtain _ | ⟨c, a⟩ := a
    · exact hb
    · exact absurd ha Bool.false_ne_true
  | cons p ps ih =>
    obtain _ | ⟨c, a⟩ := a
    · exact absurd ha Bool.false_ne_true
    · rw [fits, Bool.and_eq_true] at ha
      rw [List.cons_append, List.cons_append, fits, Bool.and_eq_true]
      exact ⟨ha.1, ih ha.2⟩

theorem fits_padded (w n : ℕ) : fits (List.replicate w isDigit) (padded w n) = true := by
  have hall : ∀ text : List Char, (∀ c ∈ text, '0' ≤ c ∧ c ≤ '9') →
      fits (List.replicate text.length isDigit) text = true := by
    intro text
    induction text with
    | nil => exact fun _ => rfl
    | cons c text ih =>
      intro h
      have hc := h c List.mem_cons_self
      rw [List.length_cons, List.replicate_succ, fits, ih fun d hd => h d (.tail c hd)]
      simp [isDigit, hc]
  have h := hall (padded w n) fun c hc => isDigit_of_mem_padded hc
  rwa [length_padded] at h

/-- What a format admits, place by place. -/
def places (format : Format) : List (Char → Bool) :=
  format.flatMap fun field => List.replicate field.1 isDigit ++ field.2.map fun c => (· == c)

theorem fits_spell {format : Format} {ns : List ℕ} (h : Fits format ns) :
    fits (places format) (spell format ns) = true := by
  have hmark : ∀ mark : List Char, fits (mark.map fun c => (· == c)) mark = true := by
    intro mark
    induction mark with
    | nil => rfl
    | cons c mark ih => simp [fits, ih]
  induction format generalizing ns with
  | nil =>
    obtain _ | ⟨n, ns⟩ := ns
    · rfl
    · exact h.elim
  | cons field format ih =>
    obtain _ | ⟨n, ns⟩ := ns
    · exact h.elim
    · exact fits_append (fits_append (fits_padded field.1 n) (hmark field.2)) (ih h.2)

example : Stamp.name ⟨2026, 7, 24, 9, 5, 0⟩ = "2026-07-24T090500".toList := by decide

/-- The script considers what it writes. -/
theorem isStamp_name (t : Stamp) : isStamp t.name = true := by
  have hshape : shape = places Stamp.DATE ++ [(· == 'T')] ++ places Stamp.TIME := rfl
  have hname : t.name = t.dayText ++ ['T'] ++ spell Stamp.TIME t.time := by
    rw [Stamp.name, List.append_assoc, List.singleton_append]
  rw [isStamp, hshape, hname]
  exact fits_append (fits_append (fits_spell t.fits_date) rfl) (fits_spell t.fits_time)

theorem dayOf_name (t : Stamp) : dayOf t.name = t.dayText := by
  have hdate : 'T' ∉ t.dayText := by
    intro h
    rcases of_mem_spell h with ⟨-, hle⟩ | ⟨field, hfield, hT⟩
    · exact absurd hle (by decide)
    · simp [Stamp.DATE] at hfield
      rcases hfield with rfl | rfl | rfl <;> simp at hT
  rw [dayOf, Stamp.name, List.takeWhile_append_of_pos, List.takeWhile_cons_of_neg (by simp),
    List.append_nil]
  intro c hc
  simp only [decide_eq_true_eq]
  rintro rfl
  exact hdate hc

/-- Of a store of nothing but snapshots all are listed, newest first. -/
theorem all_shelf (taken : List Stamp) :
    all (shelf taken) = (taken.insertionSort (· ≥ ·)).map Stamp.name := by
  have hlisting : listing (shelf taken) = taken.map Stamp.name := by
    have hdot : ((shelf taken).map Entry.name).filter (·.head? ≠ some '.') =
        taken.map Stamp.name := by
      rw [shelf, List.map_map, List.filter_eq_self.mpr]
      · rfl
      · intro name hname
        obtain ⟨t, -, rfl⟩ := List.mem_map.mp hname
        simp only [ne_eq, decide_eq_true_eq]
        intro h
        exact Stamp.notMem_name (by decide) (by decide) (by decide) t (List.mem_of_head? h)
    have hline : ∀ t : Stamp, Text.split '\n' t.name = [t.name] := fun t =>
      Text.split_of_notMem (Stamp.notMem_name (by decide) (by decide) (by decide) t)
    rw [listing, hdot, List.flatMap_map, List.map_eq_flatMap]
    exact List.flatMap_congr fun t _ => hline t
  rw [all, hlisting, List.filter_eq_self.mpr]
  · have hgreater : ∀ s ∈ taken, ∀ t ∈ taken, s ≥ t ↔ s.name ≥ t.name := fun s _ t _ =>
      Stamp.name_strictMono.le_iff_le.symm
    exact (List.map_insertionSort (· ≥ ·) (· ≥ ·) Stamp.name taken hgreater).symm
  · intro name hname
    obtain ⟨t, -, rfl⟩ := List.mem_map.mp hname
    exact isStamp_name t

/-- The script gets past its guards. -/
def Tick.proceeds (tick : Tick) : Bool := tick.fstype == "btrfs" && tick.isSubvolume

/-- All the snapshots ever taken. -/
def taken (ticks : List Tick) : List Stamp := (ticks.filter (·.proceeds)).map Tick.now

section
variable {snapshots : Snapshots} {shelved : List Stamp} {P : Finset Stamp} {s : Pruning} {x : Stamp}

/-- The declared retention, of times. -/
def keeps (snapshots : Snapshots) (P : Finset Stamp) : Finset Stamp :=
  retained snapshots.keepRecent.toNat snapshots.keepDaily.toNat Stamp.date P

/-- What is left of what was taken, once the loop has seen `P`. -/
def left (snapshots : Snapshots) (shelved : List Stamp) (P : Finset Stamp) : List Stamp :=
  shelved.filter fun t => t ∉ P ∨ t ∈ keeps snapshots P

/-- What the loop has done once it has seen `P`: it knows the retention of what it has seen, and
has deleted the rest of it. -/
structure Seen (snapshots : Snapshots) (shelved : List Stamp) (P : Finset Stamp) (s : Pruning) :
    Prop where
  recent : s.recent = min snapshots.keepRecent.toNat P.card
  days : s.days = min snapshots.keepDaily.toNat
    (further snapshots.keepRecent.toNat Stamp.date P).card
  daySeen : ∀ t : Stamp, t.dayText ∈ s.daySeen ↔ ∃ y ∈ keeps snapshots P, y.date = t.date
  store : s.store = shelf (left snapshots shelved P)

theorem mem_cons_dayOf {t : Stamp} {seen : List (List Char)} :
    t.dayText ∈ dayOf x.name :: seen ↔ x.date = t.date ∨ t.dayText ∈ seen := by
  have htext : t.dayText = x.dayText ↔ x.date = t.date :=
    ⟨fun h => (Stamp.dayText_injective h).symm, fun h => (congrArg (spell Stamp.DATE) h).symm⟩
  rw [List.mem_cons, dayOf_name, htext]

theorem left_of_kept (hx : x ∉ P)
    (hkeep : keeps snapshots (insert x P) = insert x (keeps snapshots P)) :
    left snapshots shelved (insert x P) = left snapshots shelved P := by
  refine List.filter_congr fun t _ => ?_
  rw [hkeep]
  by_cases htx : t = x
  · subst htx
    simp [hx]
  · simp [htx]

theorem left_of_dropped (hx : x ∉ P) (hkeep : keeps snapshots (insert x P) = keeps snapshots P) :
    left snapshots shelved (insert x P) = (left snapshots shelved P).filter (· ≠ x) := by
  have hnot : x ∉ keeps snapshots P := fun h => hx (retained_subset h)
  rw [left, left, List.filter_filter, hkeep]
  refine List.filter_congr fun t _ => ?_
  by_cases htx : t = x
  · subst htx
    simp [hx, hnot]
  · simp [htx]

theorem subvolumeDelete_shelf (hx : x ∈ shelved) :
    subvolumeDelete (shelf shelved) x.name = some (shelf (shelved.filter (· ≠ x))) := by
  have hthere : (⟨x.name, .subvolume⟩ : Entry) ∈ shelf shelved := mem_shelf.mpr hx
  rw [subvolumeDelete, if_pos hthere, shelf, List.filter_map]
  congr 2
  refine List.filter_congr fun t _ => ?_
  have hname : t.entry = x.entry ↔ t = x := Stamp.entry_injective.eq_iff
  simpa [Stamp.entry] using hname

/-- Among the recent. -/
theorem Seen.next_recent (hs : Seen snapshots shelved P s) (hx : ∀ y ∈ P, x < y)
    (hroom : s.recent < snapshots.keepRecent.toNat) :
    ∃ s', s.next snapshots x.name = some s' ∧ Seen snapshots shelved (insert x P) s' := by
  have hnew := notMem_of_below hx
  have hcard : (insert x P).card = P.card + 1 := Finset.card_insert_of_notMem hnew
  have hrecent := hs.recent
  have hall : keeps snapshots P = P := retained_eq_self (by omega)
  have hkeep : keeps snapshots (insert x P) = insert x (keeps snapshots P) := by
    rw [hall]
    exact retained_eq_self (by omega)
  have hfurther : further snapshots.keepRecent.toNat Stamp.date P = ∅ :=
    further_eq_empty (by omega)
  have hfurther' : further snapshots.keepRecent.toNat Stamp.date (insert x P) = ∅ :=
    further_eq_empty (by omega)
  refine ⟨{ s with recent := s.recent + 1, daySeen := dayOf x.name :: s.daySeen },
    if_pos hroom, ?_⟩
  constructor
  · show s.recent + 1 = _
    omega
  · show s.days = _
    rw [hs.days, hfurther, hfurther']
  · intro t
    rw [mem_cons_dayOf, hs.daySeen, hkeep, Finset.exists_mem_insert]
  · show s.store = _
    rw [hs.store, left_of_kept hnew hkeep]

/-- The newest of a further day, while there is a slot for it. -/
theorem Seen.next_daily (hs : Seen snapshots shelved P s) (hx : ∀ y ∈ P, x < y)
    (hroom : ¬ s.recent < snapshots.keepRecent.toNat)
    (hday : dayOf x.name ∉ s.daySeen ∧ s.days < snapshots.keepDaily.toNat) :
    ∃ s', s.next snapshots x.name = some s' ∧ Seen snapshots shelved (insert x P) s' := by
  have hnew := notMem_of_below hx
  have hcard : (insert x P).card = P.card + 1 := Finset.card_insert_of_notMem hnew
  have hrecent := hs.recent
  have hdays := hs.days
  have hfull : ¬ P.card < snapshots.keepRecent.toNat := by omega
  have hunseen : ∀ y ∈ keeps snapshots P, y.date ≠ x.date := by
    intro y hy hyday
    rw [dayOf_name, hs.daySeen] at hday
    exact hday.1 ⟨y, hy, hyday⟩
  have hslot : (further snapshots.keepRecent.toNat Stamp.date P).card <
      snapshots.keepDaily.toNat := by omega
  have hfresh : ∀ y ∈ P, y.date ≠ x.date := by
    intro y hy hyday
    have hle := full_of_unretained hy hyday hunseen
    omega
  obtain ⟨hmore, hretained⟩ := retained_insert_fresh (K := snapshots.keepDaily.toNat)
    Stamp.date_monotone hx hfull hfresh
  rw [if_pos hslot] at hretained
  have hkeep : keeps snapshots (insert x P) = insert x (keeps snapshots P) := hretained
  refine ⟨{ s with days := s.days + 1, daySeen := dayOf x.name :: s.daySeen }, ?_, ?_⟩
  · rw [Pruning.next, if_neg hroom, if_pos hday]
  constructor
  · show s.recent = _
    omega
  · show s.days + 1 = _
    omega
  · intro t
    rw [mem_cons_dayOf, hs.daySeen, hkeep, Finset.exists_mem_insert]
  · show s.store = _
    rw [hs.store, left_of_kept hnew hkeep]

/-- The rest is deleted. -/
theorem Seen.next_dropped (hs : Seen snapshots shelved P s) (htaken : x ∈ shelved)
    (hx : ∀ y ∈ P, x < y) (hroom : ¬ s.recent < snapshots.keepRecent.toNat)
    (hday : ¬ (dayOf x.name ∉ s.daySeen ∧ s.days < snapshots.keepDaily.toNat)) :
    ∃ s', s.next snapshots x.name = some s' ∧ Seen snapshots shelved (insert x P) s' := by
  have hnew := notMem_of_below hx
  have hcard : (insert x P).card = P.card + 1 := Finset.card_insert_of_notMem hnew
  have hrecent := hs.recent
  have hdays := hs.days
  have hfull : ¬ P.card < snapshots.keepRecent.toNat := by omega
  have hsame : min snapshots.keepDaily.toNat
      (further snapshots.keepRecent.toNat Stamp.date (insert x P)).card = s.days ∧
      keeps snapshots (insert x P) = keeps snapshots P := by
    by_cases hknown : ∃ y ∈ P, y.date = x.date
    · obtain ⟨y, hy, hyday⟩ := hknown
      obtain ⟨hfurther, hkeep⟩ := retained_insert_known (K := snapshots.keepDaily.toNat)
        hx hfull hy hyday
      exact ⟨hfurther ▸ hdays.symm, hkeep⟩
    -- on a day the loop has not met, only the want of a slot makes it delete
    have hfresh : ∀ y ∈ P, y.date ≠ x.date := fun y hy hyday => hknown ⟨y, hy, hyday⟩
    have hunseen : dayOf x.name ∉ s.daySeen := by
      rw [dayOf_name, hs.daySeen]
      rintro ⟨y, hy, hyday⟩
      exact hfresh y (retained_subset hy) hyday
    have hspent : ¬ s.days < snapshots.keepDaily.toNat := fun h => hday ⟨hunseen, h⟩
    obtain ⟨hmore, hkeep⟩ := retained_insert_fresh (K := snapshots.keepDaily.toNat)
      Stamp.date_monotone hx hfull hfresh
    rw [if_neg (by omega)] at hkeep
    exact ⟨by omega, hkeep⟩
  obtain ⟨hfurther, hkeep⟩ := hsame
  have hthere : x ∈ left snapshots shelved P := List.mem_filter.mpr ⟨htaken, by simp [hnew]⟩
  refine ⟨{ s with store := shelf ((left snapshots shelved P).filter (· ≠ x)) }, ?_, ?_⟩
  · rw [Pruning.next, if_neg hroom, if_neg hday, hs.store]
    exact congrArg (Option.map _) (subvolumeDelete_shelf hthere)
  constructor
  · show s.recent = _
    omega
  · exact hfurther.symm
  · intro t
    rw [hkeep]
    exact hs.daySeen t
  · show shelf _ = _
    rw [left_of_dropped hnew hkeep]

theorem Seen.next (hs : Seen snapshots shelved P s) (htaken : x ∈ shelved) (hx : ∀ y ∈ P, x < y) :
    ∃ s', s.next snapshots x.name = some s' ∧ Seen snapshots shelved (insert x P) s' := by
  by_cases hroom : s.recent < snapshots.keepRecent.toNat
  · exact hs.next_recent hx hroom
  by_cases hday : dayOf x.name ∉ s.daySeen ∧ s.days < snapshots.keepDaily.toNat
  · exact hs.next_daily hx hroom hday
  · exact hs.next_dropped htaken hx hroom hday

/-- The loop over what is older than all it has seen. -/
theorem Seen.loop {rest : List Stamp} (hs : Seen snapshots shelved P s)
    (hsorted : rest.Pairwise (· > ·)) (htaken : ∀ x ∈ rest, x ∈ shelved)
    (hx : ∀ x ∈ rest, ∀ y ∈ P, x < y) :
    Seen snapshots shelved (P ∪ rest.toFinset) (s.loop snapshots (rest.map Stamp.name)) := by
  induction rest generalizing P s with
  | nil =>
    rw [List.toFinset_nil, Finset.union_empty]
    exact hs
  | cons x rest ih =>
    obtain ⟨hbelow, hsorted⟩ := List.pairwise_cons.mp hsorted
    obtain ⟨s', hnext, hs'⟩ := hs.next (htaken x List.mem_cons_self) (hx x List.mem_cons_self)
    have hrest := ih hs' hsorted (fun z hz => htaken z (.tail x hz)) fun z hz y hy => by
      rcases Finset.mem_insert.mp hy with rfl | hy
      · exact hbelow z hz
      · exact hx z (.tail x hz) y hy
    have hset : P ∪ (x :: rest).toFinset = insert x P ∪ rest.toFinset := by
      rw [List.toFinset_cons, Finset.union_insert, Finset.insert_union]
    rw [List.map_cons, Pruning.loop, hnext, hset]
    exact hrest

/-- Pruning leaves what the retention says. -/
theorem prune_shelf (shelved : List Stamp) (hnodup : shelved.Nodup) :
    prune snapshots (shelf shelved) =
      shelf (shelved.filter (· ∈ keeps snapshots shelved.toFinset)) := by
  have hstart : Seen snapshots shelved ∅ ⟨shelf shelved, 0, 0, []⟩ := by
    have hnone : keeps snapshots ∅ = ∅ := Finset.subset_empty.mp retained_subset
    constructor
    · simp
    · simp [further]
    · simp [hnone]
    · simp [left]
  have hsorted : (shelved.insertionSort (· ≥ ·)).Pairwise (· > ·) := by
    have hge := List.pairwise_insertionSort (· ≥ ·) shelved
    have hne : (shelved.insertionSort (· ≥ ·)).Nodup :=
      (List.perm_insertionSort (· ≥ ·) shelved).nodup_iff.mpr hnodup
    exact (hge.and hne).imp fun h => lt_of_le_of_ne h.1 h.2.symm
  have hend := hstart.loop hsorted (fun x hx => (List.mem_insertionSort _).mp hx)
    fun x _ y hy => absurd hy (Finset.notMem_empty y)
  have hall : ∅ ∪ (shelved.insertionSort (· ≥ ·)).toFinset = shelved.toFinset := by
    rw [Finset.empty_union]
    exact List.toFinset_eq_of_perm _ _ (List.perm_insertionSort (· ≥ ·) shelved)
  rw [prune, all_shelf, hend.store, hall]
  apply congrArg shelf
  refine List.filter_congr fun t ht => ?_
  simp [ht]

theorem subvolumeSnapshot_shelf (hx : x ∉ shelved) :
    subvolumeSnapshot (shelf shelved) x.name = some (shelf (shelved ++ [x])) := by
  have hnone : (shelf shelved).find? (·.name = x.name) = none := by
    rw [List.find?_eq_none]
    intro e he
    obtain ⟨t, ht, rfl⟩ := List.mem_map.mp he
    simp only [decide_eq_true_eq]
    intro hname
    have heq : t = x := Stamp.name_strictMono.injective hname
    exact hx (heq ▸ ht)
  rw [subvolumeSnapshot, hnone, shelf, shelf, List.map_append]
  rfl

theorem snapshotScript_shelf {tick : Tick} (hx : tick.now ∉ shelved) (hnodup : shelved.Nodup) :
    snapshotScript snapshots (shelf shelved) tick = if tick.proceeds then
      shelf ((shelved ++ [tick.now]).filter (· ∈ keeps snapshots (shelved ++ [tick.now]).toFinset))
    else shelf shelved := by
  have hnodup' : (shelved ++ [tick.now]).Nodup := by
    rw [List.nodup_append]
    refine ⟨hnodup, List.nodup_singleton tick.now, fun a ha b hb => ?_⟩
    obtain rfl := List.mem_singleton.mp hb
    exact fun h => hx (h ▸ ha)
  have hproceeds : tick.proceeds = true ↔ tick.fstype = "btrfs" ∧ tick.isSubvolume = true := by
    simp [Tick.proceeds]
  rw [snapshotScript]
  by_cases hfs : tick.fstype = "btrfs"
  · by_cases hsub : tick.isSubvolume = true
    · rw [if_neg (not_not.mpr hfs), if_neg (by simp [hsub]), subvolumeSnapshot_shelf hx,
        if_pos (hproceeds.mpr ⟨hfs, hsub⟩)]
      exact prune_shelf (shelved ++ [tick.now]) hnodup'
    · rw [if_neg (not_not.mpr hfs), if_pos (by simpa using hsub),
        if_neg fun h => hsub (hproceeds.mp h).2]
  · rw [if_pos hfs, if_neg fun h => hfs (hproceeds.mp h).1]

end

/-- What of all the snapshots ever taken the retention is to keep. -/
def kept (snapshots : Snapshots) (ticks : List Tick) : List Stamp :=
  (taken ticks).filter (· ∈ keeps snapshots (taken ticks).toFinset)

section
variable {snapshots : Snapshots} {ticks : List Tick} {tick : Tick}

theorem taken_append : taken (ticks ++ [tick]) =
    if tick.proceeds then taken ticks ++ [tick.now] else taken ticks := by
  rw [taken, List.filter_append, List.map_append]
  split_ifs with h <;> simp [h, taken]

theorem taken_lt (hup : (ticks ++ [tick]).Pairwise (·.now < ·.now)) :
    ∀ t ∈ taken ticks, t < tick.now := by
  intro t ht
  obtain ⟨earlier, hearlier, rfl⟩ := List.mem_map.mp ht
  exact (List.pairwise_append.mp hup).2.2 earlier (List.mem_of_mem_filter hearlier) tick
    (List.mem_singleton_self tick)

theorem nodup_taken (hup : ticks.Pairwise (·.now < ·.now)) : (taken ticks).Nodup := by
  refine List.pairwise_map.mpr ((hup.filter _).imp fun hlt => ?_)
  exact hlt.ne

theorem toFinset_append_singleton (l : List Stamp) (t : Stamp) :
    (l ++ [t]).toFinset = insert t l.toFinset := by
  rw [List.toFinset_append, Finset.union_comm]
  rfl

theorem toFinset_filter_keeps (l : List Stamp) :
    (l.filter (· ∈ keeps snapshots l.toFinset)).toFinset = keeps snapshots l.toFinset := by
  ext t
  simp only [List.mem_toFinset, List.mem_filter, decide_eq_true_eq, and_iff_right_iff_imp]
  exact fun h => List.mem_toFinset.mp (retained_subset h)

/-- To select after each run is to select from all that was taken. -/
theorem kept_append (hup : (ticks ++ [tick]).Pairwise (·.now < ·.now)) :
    kept snapshots (ticks ++ [tick]) = if tick.proceeds then
      (kept snapshots ticks ++ [tick.now]).filter
        (· ∈ keeps snapshots (kept snapshots ticks ++ [tick.now]).toFinset)
    else kept snapshots ticks := by
  have hlt := taken_lt hup
  have hltset : ∀ t ∈ (taken ticks).toFinset, t < tick.now := fun t ht =>
    hlt t (List.mem_toFinset.mp ht)
  have hset : (kept snapshots ticks).toFinset = keeps snapshots (taken ticks).toFinset :=
    toFinset_filter_keeps (taken ticks)
  have hkeep : keeps snapshots (insert tick.now (keeps snapshots (taken ticks).toFinset)) =
      keeps snapshots (insert tick.now (taken ticks).toFinset) :=
    retained_insert_retained Stamp.date_monotone hltset
  have hunfold : kept snapshots (ticks ++ [tick]) = (taken (ticks ++ [tick])).filter
      (· ∈ keeps snapshots (taken (ticks ++ [tick])).toFinset) := rfl
  rw [hunfold, taken_append]
  split_ifs with hproceeds
  · rw [toFinset_append_singleton, toFinset_append_singleton, hset, hkeep, List.filter_append,
      List.filter_append, kept, List.filter_filter]
    apply congrArg (· ++ _)
    refine List.filter_congr fun t ht => ?_
    by_cases hmem : t ∈ keeps snapshots (insert tick.now (taken ticks).toFinset)
    · have hbefore := retained_insert_subset Stamp.date_monotone hltset hmem
      have hold : t ∈ keeps snapshots (taken ticks).toFinset :=
        (Finset.mem_insert.mp hbefore).resolve_left (hlt t ht).ne
      simp [hmem, hold]
    · simp [hmem]
  · rfl

/-- After every run the store holds what the retention says of all that was ever taken. -/
theorem run_snapshotScript (snapshots : Snapshots) (hup : ticks.Pairwise (·.now < ·.now)) :
    Lib.run (snapshotScript snapshots) [] ticks = shelf (kept snapshots ticks) := by
  induction ticks using List.reverseRecOn with
  | nil => rfl
  | append_singleton ticks tick ih =>
    have hearlier := (List.pairwise_append.mp hup).1
    have hnew : tick.now ∉ kept snapshots ticks := fun h =>
      lt_irrefl _ (taken_lt hup tick.now (List.mem_of_mem_filter h))
    have hnodup : (kept snapshots ticks).Nodup := (nodup_taken hearlier).filter _
    rw [Lib.run_append, ih hearlier, Lib.run_cons, Lib.run_nil, snapshotScript_shelf hnew hnodup,
      kept_append hup]
    split_ifs <;> rfl

/-- The newest survives the run that takes it. -/
theorem newest_mem_kept (hup : (ticks ++ [tick]).Pairwise (·.now < ·.now))
    (hproceeds : tick.proceeds = true)
    (hkeep : snapshots.keepRecent.toNat ≠ 0 ∨ snapshots.keepDaily.toNat ≠ 0) :
    tick.now ∈ kept snapshots (ticks ++ [tick]) := by
  have htaken : taken (ticks ++ [tick]) = taken ticks ++ [tick.now] := by
    rw [taken_append, if_pos hproceeds]
  rw [kept, htaken, List.mem_filter, decide_eq_true_eq, toFinset_append_singleton]
  exact ⟨List.mem_append_right _ (List.mem_singleton_self _),
    newest_mem_retained Stamp.date_monotone
      (fun t ht => taken_lt hup t (List.mem_toFinset.mp ht)) hkeep⟩

end

/-- Whatever else is in the store stays there. -/
theorem Pruning.mem_loop {snapshots : Snapshots} {names : List (List Char)} {s : Pruning}
    {e : Entry} (he : e ∈ s.store) (hname : e.name ∉ names) :
    e ∈ (s.loop snapshots names).store := by
  induction names generalizing s with
  | nil => exact he
  | cons snap names ih =>
    rw [List.mem_cons, not_or] at hname
    rw [Pruning.loop]
    cases hnext : s.next snapshots snap with
    | none => exact he
    | some s' =>
      refine ih ?_ hname.2
      rw [Pruning.next] at hnext
      split_ifs at hnext
      · obtain rfl := Option.some.inj hnext
        exact he
      · obtain rfl := Option.some.inj hnext
        exact he
      · obtain ⟨store, hstore, rfl⟩ := Option.map_eq_some_iff.mp hnext
        rw [subvolumeDelete] at hstore
        split_ifs at hstore
        obtain rfl := Option.some.inj hstore
        refine List.mem_filter.mpr ⟨he, ?_⟩
        simp only [ne_eq, decide_eq_true_eq]
        rintro rfl
        exact hname.1 rfl

theorem mem_prune {snapshots : Snapshots} {store : List Entry} {e : Entry} (he : e ∈ store)
    (hname : isStamp e.name = false) : e ∈ prune snapshots store := by
  refine Pruning.mem_loop he ?_
  rw [all, List.mem_insertionSort, List.mem_filter]
  rintro ⟨-, hstamp⟩
  rw [hname] at hstamp
  exact Bool.false_ne_true hstamp

/-- The script deletes no name but those it writes. -/
theorem mem_snapshotScript {snapshots : Snapshots} {store : List Entry} {tick : Tick} {e : Entry}
    (he : e ∈ store) (hname : isStamp e.name = false) :
    e ∈ snapshotScript snapshots store tick := by
  rw [snapshotScript]
  split_ifs
  · exact he
  · exact he
  · cases htaken : subvolumeSnapshot store tick.now.name with
    | none => exact he
    | some store' =>
      refine mem_prune ?_ hname
      rw [subvolumeSnapshot] at htaken
      split at htaken
      · obtain rfl := Option.some.inj htaken
        exact List.mem_append_left _ he
      · obtain rfl := Option.some.inj htaken
        exact he
      · exact absurd htaken (Option.some_ne_none _).symm

/-- A validated retention does not keep nothing. -/
theorem keeps_something {config : Config} (hen : config.snapshots.enable = true)
    (hvalid : config.validate = .ok ()) :
    config.snapshots.keepRecent.toNat ≠ 0 ∨ config.snapshots.keepDaily.toNat ≠ 0 := by
  have hsnapshots := (Config.validated hvalid).snapshots
  rw [Snapshots.validate, if_pos hen] at hsnapshots
  obtain ⟨-, -, h⟩ := bind_eq_ok.mp hsnapshots
  obtain ⟨-, -, h⟩ := bind_eq_ok.mp h
  obtain ⟨-, -, h⟩ := bind_eq_ok.mp h
  by_contra hnone
  rw [not_or, not_not, not_not] at hnone
  exact Config.refuseIf_eq_ok.mp h ⟨UInt32.toNat_inj.mp hnone.1, UInt32.toNat_inj.mp hnone.2⟩

/-- Pruning run by run is pruning all history at once: after any runs at increasing times the store
holds the newest `keep_recent` of all the snapshots ever taken and the newest of each of
`keep_daily` further days. -/
theorem retention_forgets_nothing {config : Config} (hen : config.snapshots.enable = true)
    (hvalid : config.validate = .ok ()) {ticks : List Tick}
    (hup : ticks.Pairwise (·.now < ·.now)) :
    let store := Lib.run (snapshotScript config.snapshots) [] ticks
    let history := taken ticks
    store = shelf (history.filter (· ∈ retained config.snapshots.keepRecent.toNat
      config.snapshots.keepDaily.toNat Stamp.date history.toFinset)) ∧
    store = prune config.snapshots (shelf history) ∧
    prune config.snapshots store = store ∧
    (∀ tick ∈ ticks.getLast?, tick.proceeds = true → tick.now.entry ∈ store) ∧
    ∀ (held : List Entry) (tick : Tick), ∀ e ∈ held,
      e ∉ snapshotScript config.snapshots held tick → isStamp e.name = true := by
  have hstore := run_snapshotScript config.snapshots hup
  have hnodup := nodup_taken hup
  refine ⟨hstore, ?_, ?_, ?_, ?_⟩
  · rw [hstore, prune_shelf _ hnodup]
    rfl
  · have hset : (kept config.snapshots ticks).toFinset =
        keeps config.snapshots (taken ticks).toFinset := toFinset_filter_keeps (taken ticks)
    have hagain : keeps config.snapshots (keeps config.snapshots (taken ticks).toFinset) =
        keeps config.snapshots (taken ticks).toFinset := retained_retained
    have hkept : (kept config.snapshots ticks).Nodup := hnodup.filter _
    rw [hstore, prune_shelf _ hkept, hset, hagain, kept, List.filter_filter]
    simp
  · intro tick hlast hproceeds
    obtain ⟨earlier, rfl⟩ := List.getLast?_eq_some_iff.mp hlast
    rw [hstore, mem_shelf]
    exact newest_mem_kept hup hproceeds (keeps_something hen hvalid)
  · intro held tick e he hgone
    by_contra hname
    exact hgone (mem_snapshotScript he (Bool.eq_false_iff.mpr hname))

/-- A declaration of hourly snapshots, the rest as it comes. -/
def hourly : Config :=
  { Config.default with snapshots := { Config.Snapshots.default with enable := true } }

/-- Two runs an hour apart. -/
def morning : List Tick :=
  [⟨"btrfs", true, ⟨2026, 7, 24, 9, 0, 0⟩⟩, ⟨"btrfs", true, ⟨2026, 7, 24, 10, 0, 0⟩⟩]

theorem retention_forgets_nothing_morning :
    Lib.run (snapshotScript hourly.snapshots) [] morning =
      prune hourly.snapshots (shelf (taken morning)) := by
  have hen : hourly.snapshots.enable = true := rfl
  have hvalid : hourly.validate = .ok () := rfl
  have hup : morning.Pairwise (·.now < ·.now) := by decide
  exact (retention_forgets_nothing hen hvalid hup).2.1

end Kuma.Containerfile
