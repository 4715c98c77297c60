import Kuma.Lib.Text

/-! Texts split and put together again: the pieces between separators, and sections that a longer
separator marks off. -/
namespace Kuma.Lib.Text

/-- `str::split` on a longer separator: while characters are skipped they are part of one. -/
def splitStrFrom (sep : List Char) : ℕ → List Char → List (List Char)
  | _, [] => [[]]
  | k + 1, _ :: cs => splitStrFrom sep k cs
  | 0, c :: cs =>
    if sep.isPrefixOf (c :: cs) then [] :: splitStrFrom sep (sep.length - 1) cs
    else match splitStrFrom sep 0 cs with
      | [] => [[c]]
      | piece :: pieces => (c :: piece) :: pieces

def splitStr (sep text : List Char) : List (List Char) := splitStrFrom sep 0 text

/-- `str::rsplit_once` on one character. -/
def rsplitOnce (c : Char) (text : List Char) : Option (List Char × List Char) :=
  (splitOnce c text.reverse).map fun p => (p.2.reverse, p.1.reverse)

variable {c : Char} {sep text rest : List Char} {pieces : List (List Char)}

theorem rsplitOnce_append (h : c ∉ rest) (text : List Char) :
    rsplitOnce c (text ++ c :: rest) = some (text, rest) := by
  have hrest : c ∉ rest.reverse := fun hmem => h (List.mem_reverse.mp hmem)
  rw [rsplitOnce, List.reverse_append, List.reverse_cons, List.append_assoc,
    List.singleton_append, splitOnce_append hrest, Option.map_some, List.reverse_reverse,
    List.reverse_reverse]

theorem rsplitOnce_of_notMem (h : c ∉ text) : rsplitOnce c text = none := by
  have hnone : splitOnce c text.reverse = none :=
    splitOnce_eq_none.mpr fun hmem => h (List.mem_reverse.mp hmem)
  rw [rsplitOnce, hnone, Option.map_none]

theorem head?_split (c : Char) (text : List Char) :
    (split c text).head? = some (text.takeWhile (· ≠ c)) := by
  obtain ⟨piece, pieces, hsplit⟩ := List.exists_cons_of_ne_nil (split_ne_nil c text)
  have hhead : (split c text).headD [] = text.takeWhile (· ≠ c) := headD_split []
  rw [hsplit] at hhead ⊢
  exact congrArg some hhead

theorem length_split (c : Char) (text : List Char) :
    (split c text).length = text.count c + 1 := by
  induction text with
  | nil => rfl
  | cons x text ih =>
    obtain ⟨piece, pieces, hsplit⟩ := List.exists_cons_of_ne_nil (split_ne_nil c text)
    rw [hsplit, List.length_cons] at ih
    rw [split, hsplit]
    split_ifs with hx
    · rw [hx, List.count_cons_self, List.length_cons, List.length_cons, ih]
    · rw [List.count_cons_of_ne hx, List.length_cons, ih]

theorem intercalate_split (c : Char) (text : List Char) :
    [c].intercalate (split c text) = text := by
  induction text with
  | nil => rfl
  | cons x text ih =>
    obtain ⟨piece, pieces, hsplit⟩ := List.exists_cons_of_ne_nil (split_ne_nil c text)
    rw [hsplit] at ih
    rw [split, hsplit]
    split_ifs with hx
    · rw [List.intercalate_cons_cons, ih, hx]
      rfl
    · cases pieces with
      | nil => exact congrArg (x :: ·) ih
      | cons next pieces =>
        rw [List.intercalate_cons_cons] at ih
        rw [List.intercalate_cons_cons, ← ih]
        rfl

/-- Pieces without the separator are read back. -/
theorem split_intercalate (hne : pieces ≠ []) (h : ∀ piece ∈ pieces, c ∉ piece) :
    split c ([c].intercalate pieces) = pieces := by
  induction pieces with
  | nil => exact absurd rfl hne
  | cons piece pieces ih =>
    have hpiece := h piece List.mem_cons_self
    cases pieces with
    | nil =>
      rw [List.intercalate_singleton]
      exact split_of_notMem hpiece
    | cons next pieces =>
      have hrest := ih (List.cons_ne_nil next pieces) fun p hp => h p (List.mem_cons_of_mem _ hp)
      have hjoin : [c].intercalate (piece :: next :: pieces) =
          piece ++ c :: [c].intercalate (next :: pieces) := by
        rw [List.intercalate_cons_cons, List.append_assoc]
        rfl
      rw [hjoin, split_append hpiece, hrest]

/-- Joined pieces end in the last one, behind a separator or alone. -/
theorem intercalate_eq_append_getLast (c : Char) (hne : pieces ≠ []) :
    ∃ front, [c].intercalate pieces = front ++ pieces.getLast hne ∧
      (front = [] ∨ ∃ before, front = before ++ [c]) := by
  induction pieces with
  | nil => exact absurd rfl hne
  | cons piece pieces ih =>
    cases pieces with
    | nil => exact ⟨[], List.intercalate_singleton, .inl rfl⟩
    | cons next pieces =>
      obtain ⟨front, hjoin, hfront⟩ := ih (List.cons_ne_nil next pieces)
      refine ⟨piece ++ [c] ++ front, ?_, .inr ?_⟩
      · rw [List.intercalate_cons_cons, hjoin, List.getLast_cons (List.cons_ne_nil next pieces)]
        simp only [List.append_assoc]
      · rcases hfront with rfl | ⟨before, rfl⟩
        · exact ⟨piece, List.append_nil _⟩
        · exact ⟨piece ++ [c] ++ before, (List.append_assoc _ _ _).symm⟩

/-- The last pieces are the end of the text. -/
theorem intercalate_drop_suffix (c : Char) (pieces : List (List Char)) (n : ℕ) :
    [c].intercalate (pieces.drop n) <:+ [c].intercalate pieces := by
  induction pieces generalizing n with
  | nil =>
    cases n with
    | zero => exact List.suffix_refl _
    | succ n => exact List.suffix_refl _
  | cons piece pieces ih =>
    cases n with
    | zero => exact List.suffix_refl _
    | succ n =>
      refine (ih n).trans ?_
      cases pieces with
      | nil => exact List.nil_suffix
      | cons next pieces =>
        rw [List.intercalate_cons_cons]
        exact List.suffix_append _ _

/-- What is joined holds the pieces' characters and separators. -/
theorem mem_intercalate {x : Char} (h : x ∈ [c].intercalate pieces) :
    x = c ∨ ∃ piece ∈ pieces, x ∈ piece := by
  induction pieces with
  | nil => cases h
  | cons piece pieces ih =>
    cases pieces with
    | nil =>
      rw [List.intercalate_singleton] at h
      exact .inr ⟨piece, List.mem_cons_self, h⟩
    | cons next pieces =>
      rw [List.intercalate_cons_cons, List.append_assoc, List.mem_append, List.mem_append,
        List.mem_singleton] at h
      rcases h with h | h | h
      · exact .inr ⟨piece, List.mem_cons_self, h⟩
      · exact .inl h
      · rcases ih h with hsep | ⟨other, hother, hmem⟩
        · exact .inl hsep
        · exact .inr ⟨other, List.mem_cons_of_mem piece hother, hmem⟩

theorem splitStrFrom_skip (skipped rest : List Char) :
    splitStrFrom sep skipped.length (skipped ++ rest) = splitStr sep rest := by
  induction skipped with
  | nil => rfl
  | cons c cs ih => exact ih

theorem splitStr_sep (hsep : sep ≠ []) (rest : List Char) :
    splitStr sep (sep ++ rest) = [] :: splitStr sep rest := by
  obtain ⟨c, cs, rfl⟩ := List.exists_cons_of_ne_nil hsep
  have hprefix : (c :: cs).isPrefixOf (c :: (cs ++ rest)) = true :=
    List.isPrefixOf_iff_prefix.mpr ⟨rest, rfl⟩
  show splitStrFrom (c :: cs) 0 (c :: (cs ++ rest)) = _
  rw [splitStrFrom, if_pos hprefix]
  exact congrArg _ (splitStrFrom_skip cs rest)

theorem splitStr_cons {c d : Char} (h : d ≠ c) (text : List Char) {piece : List Char}
    {pieces : List (List Char)} (hsplit : splitStr (c :: sep) text = piece :: pieces) :
    splitStr (c :: sep) (d :: text) = (d :: piece) :: pieces := by
  have hprefix : ¬(c :: sep).isPrefixOf (d :: text) = true := fun hpre =>
    h (List.cons_prefix_cons.mp (List.isPrefixOf_iff_prefix.mp hpre)).1.symm
  unfold splitStr at hsplit ⊢
  rw [splitStrFrom, if_neg hprefix, hsplit]

theorem splitStr_append {c : Char} {body : List Char} (h : c ∉ body) (rest : List Char) :
    splitStr (c :: sep) (body ++ c :: sep ++ rest) = body :: splitStr (c :: sep) rest := by
  induction body with
  | nil => exact splitStr_sep (List.cons_ne_nil c sep) rest
  | cons d body ih =>
    have hd : d ≠ c := fun he => h (he ▸ List.mem_cons_self)
    exact splitStr_cons hd _ (ih fun hmem => h (List.mem_cons_of_mem d hmem))

theorem splitStr_of_notMem {c : Char} {body : List Char} (h : c ∉ body) :
    splitStr (c :: sep) body = [body] := by
  induction body with
  | nil => rfl
  | cons d body ih =>
    have hd : d ≠ c := fun he => h (he ▸ List.mem_cons_self)
    exact splitStr_cons hd body (ih fun hmem => h (List.mem_cons_of_mem d hmem))

/-- Sections that do not have the first character of the marker are read back. -/
theorem splitStr_sections {c : Char} {head : List Char} {bodies : List (List Char)}
    (hhead : c ∉ head) (h : ∀ body ∈ bodies, c ∉ body) :
    splitStr (c :: sep) (head ++ bodies.flatMap ((c :: sep) ++ ·)) = head :: bodies := by
  induction bodies generalizing head with
  | nil =>
    rw [List.flatMap_nil, List.append_nil]
    exact splitStr_of_notMem hhead
  | cons body bodies ih =>
    rw [List.flatMap_cons, List.append_assoc, ← List.append_assoc, splitStr_append hhead]
    exact congrArg _ (ih (h body List.mem_cons_self)
      fun b hb => h b (List.mem_cons_of_mem body hb))

end Kuma.Lib.Text
