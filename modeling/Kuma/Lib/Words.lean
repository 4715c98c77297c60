import Kuma.Lib.Text

/-! Texts of words that single blanks part. -/
namespace Kuma.Lib.Text

theorem words_append_space (text rest : List Char) :
    words (text ++ ' ' :: rest) = words text ++ words rest := by
  have hspace : isWhiteSpace ' ' = true := by decide
  unfold words
  rw [List.splitOnP_append_cons _ _ hspace, List.filter_append]

theorem words_singleton {word : List Char} (hne : word ≠ [])
    (hword : ∀ c ∈ word, isWhiteSpace c = false) : words word = [word] := by
  unfold words
  rw [List.splitOnP_eq_singleton hword]
  simp [hne]

/-- Joined arguments are read one by one. -/
theorem words_intercalate (args : List (List Char)) :
    words ([' '].intercalate args) = args.flatMap words := by
  induction args with
  | nil => rfl
  | cons arg args ih =>
    cases args with
    | nil => simp
    | cons next args =>
      rw [List.intercalate_cons_cons, List.append_assoc, List.singleton_append,
        words_append_space, ih]
      rfl

/-! Lines over texts that end theirs. -/

theorem lines_append_of_terminated {a : List Char} (h : Terminated a) (b : List Char) :
    lines (a ++ b) = lines a ++ lines b := by
  rw [lines_eq_map_segments, segments_append h, List.map_append, ← lines_eq_map_segments,
    ← lines_eq_map_segments]

theorem lines_line {line : List Char} (h : '\n' ∉ line) :
    lines (line ++ ['\n']) = [dropReturn line] := lines_append h

end Kuma.Lib.Text
