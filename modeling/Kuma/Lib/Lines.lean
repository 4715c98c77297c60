import Mathlib.Data.List.Basic

/-! Texts as lines: a list written one name a line, and read back line by line. -/
namespace Kuma.Lib.Lines

/-- A list written one name a line; no names, no text. -/
def unlines (names : List String) : String :=
  let text := "\n".intercalate names
  if text = "" then text else text.push '\n'

/-- The lines of a text that end in a newline. -/
def completeLines (text : String) : List String :=
  (text.toList.splitOn '\n').dropLast.map String.ofList

def isBlank (c : Char) : Bool := c == ' ' || c == '\t'

/-- What `read -r` makes of a line: the blanks around it are not part of the word. -/
def trimBlanks (line : String) : String :=
  String.ofList ((line.toList.dropWhile isBlank).reverse.dropWhile isBlank).reverse

/-- The words a `while read -r` loop goes over. -/
def readLines (text : String) : List String := (completeLines text).map trimBlanks

/-- What can stand alone on a line. -/
def IsLine (name : String) : Prop := name ≠ "" ∧ '\n' ∉ name.toList

variable {names names' : List String}

/-- No piece of a split holds the separator. -/
theorem notMem_of_mem_splitOn {α : Type} [BEq α] [LawfulBEq α] {a : α} {l piece : List α}
    (h : piece ∈ l.splitOn a) : a ∉ piece := by
  induction l generalizing piece with
  | nil =>
    have hnil : piece = [] := by simpa using h
    simp [hnil]
  | cons x l ih =>
    rw [List.splitOn_cons_eq_if_modifyHead] at h
    split_ifs at h with hx
    · rcases List.mem_cons.mp h with rfl | h
      · simp
      · exact ih h
    · obtain ⟨head, rest, hsplit⟩ := List.exists_cons_of_ne_nil (List.splitOn_ne_nil a l)
      rw [hsplit, List.modifyHead_cons] at h
      rcases List.mem_cons.mp h with rfl | h
      · have hhead : a ∉ head := ih (by simp [hsplit])
        simp only [List.mem_cons, not_or]
        refine ⟨fun heq => hx (by simp [heq]), hhead⟩
      · exact ih (by simp [hsplit, h])

theorem unlines_of_ne_nil (h : ∀ n ∈ names, IsLine n) (hne : names ≠ []) :
    unlines names = "\n".intercalate (names ++ [""]) := by
  have htext : "\n".intercalate names ≠ "" := by
    obtain ⟨n, rest, rfl⟩ := List.exists_cons_of_ne_nil hne
    have hn := (h n List.mem_cons_self).1
    cases rest with
    | nil => simpa using hn
    | cons m rest => simp
  rw [String.intercalate_append_of_ne_nil hne (by simp), ← String.toList_inj]
  simp [unlines, htext]

theorem splitOn_unlines (h : ∀ n ∈ names, IsLine n) :
    (unlines names).toList.splitOn '\n' = (names ++ [""]).map String.toList := by
  by_cases hne : names = []
  · subst hne
    rfl
  · have hline : ∀ l ∈ (names ++ [""]).map String.toList, '\n' ∉ l := by
      simp only [List.mem_map, List.mem_append, List.mem_singleton]
      rintro l ⟨n, hn | rfl, rfl⟩
      · exact (h n hn).2
      · simp
    have htext : (unlines names).toList =
        ['\n'].intercalate ((names ++ [""]).map String.toList) := by
      rw [unlines_of_ne_nil h hne, String.toList_intercalate]
      rfl
    rw [htext, List.splitOn_intercalate '\n' hline (by simp)]

/-- Reading back what was written. -/
theorem completeLines_unlines (h : ∀ n ∈ names, IsLine n) :
    completeLines (unlines names) = names := by
  rw [completeLines, splitOn_unlines h]
  simp [Function.comp_def]

theorem trimBlanks_of_not_blank {line : String} (h : ∀ c ∈ line.toList, isBlank c = false) :
    trimBlanks line = line := by
  have hdrop : ∀ l : List Char, (∀ c ∈ l, isBlank c = false) → l.dropWhile isBlank = l := by
    intro l hl
    cases l with
    | nil => rfl
    | cons c l => simp [hl c List.mem_cons_self]
  rw [trimBlanks, hdrop _ h, hdrop _ fun c hc => h c (List.mem_reverse.mp hc)]
  simp

example : completeLines (unlines ["a", "b"]) = ["a", "b"] := by decide +kernel
end Kuma.Lib.Lines
