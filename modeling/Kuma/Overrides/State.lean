import Kuma.Overrides.Declared
import Mathlib.Data.List.Sort

/-! The state file: the keys kuma owns, one a line under its app. -/
namespace Kuma.Overrides
open Kuma.Lib Kuma.Lib.Text

/-- What kuma owns of each app, in the order of their names. -/
abbrev Owned := List (String × List Chars)

namespace Owned

def ids (app : String) (owned : Owned) : List Chars :=
  ((owned.find? (·.1 = app)).map Prod.snd).getD []

def record (app : String) (id : Chars) (owned : Owned) : Owned :=
  if owned.any (·.1 = app) then
    owned.map fun entry => if entry.1 = app then (entry.1, entry.2 ++ [id]) else entry
  else owned.orderedInsert (fun a b => a.1 ≤ b.1) (app, [id])

/-- A line that is not made of three fields is passed over. -/
def readLine (owned : Owned) (line : Chars) : Owned :=
  match splitOnce '\t' line with
  | none => owned
  | some (app, rest) =>
    match splitOnce '\t' rest with
    | none => owned
    | some key => owned.record (String.ofList app) (ownedId key)

def read (text : Chars) : Owned := (Text.lines text).foldl readLine []

def write (owned : Owned) : Chars :=
  (owned.flatMap fun entry => entry.2.map fun id => entry.1.toList ++ '\t' :: id).flatMap
    (· ++ ['\n'])

/-- What the state file can hold: fields without its separators. -/
def Recordable (app : String) (id : Chars) : Prop :=
  '\t' ∉ app.toList ∧ '\n' ∉ app.toList ∧
    ∃ key : Key, id = ownedId key ∧ '\t' ∉ key.1 ∧ '\n' ∉ id ∧ id.getLast? ≠ some '\r'

section
variable {app other : String} {id : Chars} {owned : Owned}

theorem ids_cons {entry : String × List Chars} : ids app (entry :: owned) =
    if entry.1 = app then entry.2 else ids app owned := by
  rw [ids, List.find?_cons]
  by_cases happ : entry.1 = app
  · simp [happ]
  · simp [happ, ids]

theorem ids_orderedInsert (h : ∀ entry ∈ owned, entry.1 ≠ app) :
    ids other (owned.orderedInsert (fun a b => a.1 ≤ b.1) (app, [id])) =
      if app = other then [id] else ids other owned := by
  induction owned with
  | nil => exact ids_cons
  | cons entry owned ih =>
    have hentry := h entry List.mem_cons_self
    have hrest := ih fun e he => h e (List.mem_cons_of_mem _ he)
    rw [List.orderedInsert]
    split_ifs with hle hother hother
    · rw [ids_cons, if_pos hother]
    · rw [ids_cons, if_neg hother]
    · rw [ids_cons, hrest, if_pos hother, if_neg (hother ▸ hentry)]
    · rw [ids_cons, hrest, if_neg hother, ids_cons]

theorem ids_extend : ids other (owned.map fun entry =>
    if entry.1 = app then (entry.1, entry.2 ++ [id]) else entry) =
      if app = other ∧ owned.any (·.1 = app) then ids other owned ++ [id] else ids other owned := by
  induction owned with
  | nil => simp [ids]
  | cons entry owned ih =>
    rw [List.map_cons, ids_cons, ih, ids_cons, List.any_cons]
    by_cases hentry : entry.1 = app
    · by_cases hother : app = other
      · simp [hentry, hother]
      · simp [hentry, hother]
    · have hany : decide (entry.1 = app) = false := decide_eq_false hentry
      rw [if_neg hentry, hany, Bool.false_or]
      by_cases hother : entry.1 = other
      · have hne : app ≠ other := fun heq => hentry (hother.trans heq.symm)
        simp only [if_pos hother, hne, false_and, if_false]
      · simp only [if_neg hother]

theorem ne_of_not_any (h : ¬ owned.any (·.1 = app) = true) : ∀ entry ∈ owned, entry.1 ≠ app := by
  intro entry hentry heq
  exact h (List.any_eq_true.mpr ⟨entry, hentry, by simpa using heq⟩)

theorem ids_record : ids other (record app id owned) =
    if app = other then ids other owned ++ [id] else ids other owned := by
  unfold record
  split_ifs with hany hother hother
  · rw [ids_extend, if_pos ⟨hother, hany⟩]
  · rw [ids_extend, if_neg fun h => hother h.1]
  · have hnone := ne_of_not_any hany
    have hids : ids other owned = [] := by
      rw [ids, List.find?_eq_none.mpr (by simpa [← hother] using hnone)]
      rfl
    rw [ids_orderedInsert hnone, if_pos hother, hids, List.nil_append]
  · rw [ids_orderedInsert (ne_of_not_any hany), if_neg hother]

theorem readLine_of_recordable (h : Recordable app id) :
    readLine owned (app.toList ++ '\t' :: id) = owned.record app id := by
  obtain ⟨htab, -, key, rfl, hkey, -⟩ := h
  have happ : splitOnce '\t' (app.toList ++ '\t' :: ownedId key) =
      some (app.toList, ownedId key) := splitOnce_append htab
  have hid : splitOnce '\t' (ownedId key) = some key := splitOnce_append hkey
  rw [readLine, happ]
  dsimp only
  rw [hid, String.ofList_toList]

theorem ids_foldl {pairs : List (String × Chars)} :
    ids other (pairs.foldl (fun owned pair => record pair.1 pair.2 owned) owned) =
      ids other owned ++ (pairs.filter (·.1 = other)).map Prod.snd := by
  induction pairs generalizing owned with
  | nil => simp
  | cons pair pairs ih =>
    rw [List.foldl_cons, ih, ids_record, List.filter_cons]
    by_cases hpair : pair.1 = other
    · simp [hpair]
    · simp [hpair]

theorem ids_of_not_mem (h : other ∉ owned.map Prod.fst) : ids other owned = [] := by
  have hnone : ∀ entry ∈ owned, ¬ decide (entry.1 = other) = true := by
    intro entry hentry heq
    exact h (List.mem_map.mpr ⟨entry, hentry, by simpa using heq⟩)
  rw [ids, List.find?_eq_none.mpr hnone]
  rfl

/-- The lines of one app are its keys. -/
theorem filter_pairs (hnodup : (owned.map Prod.fst).Nodup) :
    ((owned.flatMap fun entry => entry.2.map fun id => (entry.1, id)).filter
      (·.1 = other)).map Prod.snd = ids other owned := by
  induction owned with
  | nil => rfl
  | cons entry owned ih =>
    rw [List.map_cons, List.nodup_cons] at hnodup
    rw [List.flatMap_cons, List.filter_append, List.map_append, ih hnodup.2, ids_cons,
      List.filter_map]
    by_cases hentry : entry.1 = other
    · rw [if_pos hentry, ids_of_not_mem (hentry ▸ hnodup.1)]
      simp [Function.comp_def, hentry]
    · rw [if_neg hentry]
      simp [Function.comp_def, hentry]

theorem read_write (h : ∀ entry ∈ owned, ∀ id ∈ entry.2, Recordable entry.1 id) :
    read (write owned) = (owned.flatMap fun entry => entry.2.map fun id => (entry.1, id)).foldl
      (fun owned pair => record pair.1 pair.2 owned) [] := by
  have hlines : ∀ line ∈ owned.flatMap fun entry => entry.2.map fun id =>
      entry.1.toList ++ '\t' :: id, '\n' ∉ line ∧ dropReturn line = line := by
    intro line hline
    obtain ⟨entry, hentry, hmem⟩ := List.mem_flatMap.mp hline
    obtain ⟨id, hid, rfl⟩ := List.mem_map.mp hmem
    obtain ⟨-, happ, key, rfl, -, hnewline, hreturn⟩ := h entry hentry id hid
    have hlast : (entry.1.toList ++ '\t' :: ownedId key).getLast? = (ownedId key).getLast? := by
      simp [ownedId, List.getLast?_append, List.getLast?_cons]
    refine ⟨by simp [happ, hnewline], ?_⟩
    rw [dropReturn, if_neg (by rwa [hlast])]
  have hpairs : ∀ pairs : List (String × Chars), (∀ pair ∈ pairs, Recordable pair.1 pair.2) →
      ∀ owned, (pairs.map fun pair => pair.1.toList ++ '\t' :: pair.2).foldl readLine owned =
        pairs.foldl (fun owned pair => record pair.1 pair.2 owned) owned := by
    intro pairs hrecordable
    induction pairs with
    | nil => exact fun _ => rfl
    | cons pair pairs ih =>
      intro owned
      rw [List.map_cons, List.foldl_cons, List.foldl_cons,
        readLine_of_recordable (hrecordable pair List.mem_cons_self)]
      exact ih (fun p hp => hrecordable p (List.mem_cons_of_mem _ hp)) _
  have hmap : (owned.flatMap fun entry => entry.2.map fun id => entry.1.toList ++ '\t' :: id) =
      (owned.flatMap fun entry => entry.2.map fun id => (entry.1, id)).map
        fun pair => pair.1.toList ++ '\t' :: pair.2 := by
    rw [List.map_flatMap]
    simp [Function.comp_def]
  rw [read, write, lines_flatMap fun line hline => (hlines line hline).1,
    List.map_congr_left fun line hline => (hlines line hline).2, List.map_id', hmap]
  apply hpairs
  intro pair hpair
  obtain ⟨entry, hentry, hmem⟩ := List.mem_flatMap.mp hpair
  obtain ⟨id, hid, rfl⟩ := List.mem_map.mp hmem
  exact h entry hentry id hid

/-- Reading what was written. -/
theorem ids_read_write (hnodup : (owned.map Prod.fst).Nodup)
    (h : ∀ entry ∈ owned, ∀ id ∈ entry.2, Recordable entry.1 id) :
    ids other (read (write owned)) = ids other owned := by
  rw [read_write h, ids_foldl, filter_pairs hnodup]
  rfl

end
end Owned
end Kuma.Overrides
