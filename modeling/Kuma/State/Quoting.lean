import Kuma.Lib.CommandLine
import Kuma.Lib.Sourcing
import Mathlib.Data.Bool.AllAny

/-! How a text is put into one word of a command line. -/
namespace Kuma.State
open Kuma.Lib Kuma.Lib.Text Kuma.Lib.CommandLine
open Kuma.Lib.Shell (quoteEscape quoteEscape_cons)

/-- What is left without quotes. -/
def isBare (c : Char) : Bool := c.isAlphanum || "._/-@+:,=".toList.contains c

def shellQuote (text : List Char) : List Char :=
  let bare := !text.isEmpty && text.all isBare
  if bare then text else '\'' :: quoteEscape text ++ ['\'']

variable {s y : List Char} {c : Char}

theorem not_isBare : ∀ c ∈ BLANKS ++ OPERATORS ++ REFUSED ++ ACTIVE ++ ['\'', '"', '\\', '#'],
    isBare c = false := List.all_iff_forall_prop.mp (by decide)

theorem isPlain_of_isBare (h : isBare c = true) : isPlain c = true := by
  have hnot : c ∉ BLANKS ++ OPERATORS ++ REFUSED ++ ['\'', '"', '\\'] := by
    intro hmem
    have hmore : c ∈ BLANKS ++ OPERATORS ++ REFUSED ++ ACTIVE ++ ['\'', '"', '\\', '#'] := by
      simp only [List.mem_append, List.mem_cons] at hmem ⊢
      tauto
    rw [not_isBare c hmore] at h
    cases h
  unfold isPlain
  rw [Bool.not_eq_true', ← Bool.not_eq_true, List.contains_iff_mem]
  exact hnot

theorem plain_of_bare (hne : s ≠ []) (h : ∀ c ∈ s, isBare c = true) : Plain s := by
  have hother : ∀ d, isBare d = false → d ∉ s := fun d hd hmem => by
    rw [h d hmem] at hd
    cases hd
  refine ⟨hne, fun hhash => ?_, fun c hc => isPlain_of_isBare (h c hc), ?_⟩
  · exact hother '#' (by decide) (List.mem_of_mem_head? hhash)
  · refine List.Pairwise.isChain (List.pairwise_iff_forall_sublist.mpr fun hsub hbrace => ?_)
    exact hother '$' (by decide) (hbrace.1 ▸ hsub.subset List.mem_cons_self)

theorem inert_of_bare (h : ∀ c ∈ s, isBare c = true) : isActive (bare s) = false := by
  rw [← Bool.not_eq_true, isActive, List.any_eq_true]
  rintro ⟨p, hp, hactive⟩
  obtain ⟨c, hc, rfl⟩ := List.mem_map.mp hp
  have hmem : c ∈ ACTIVE := List.contains_iff_mem.mp hactive
  have hfalse : isBare c = false := not_isBare c (by
    simp only [List.mem_append]
    exact Or.inl (Or.inr hmem))
  rw [h c hc] at hfalse
  cases hfalse

theorem scanAll_single (w : Word) (h : '\x00' ∉ s) (rest : List Char) :
    scanAll (.single w) (quoteEscape s ++ rest) =
      scanAll (.single (w ++ s.map (·, .literal))) rest := by
  induction s generalizing w with
  | nil =>
    rw [List.map_nil, List.append_nil]
    rfl
  | cons c s ih =>
    have hwhole : w ++ (c :: s).map (·, Mark.literal) =
        w ++ [(c, .literal)] ++ s.map (·, .literal) := by simp
    have hnul : '\x00' ∉ s := fun hmem => h (List.mem_cons_of_mem c hmem)
    have hc : c ≠ '\x00' := fun he => h (he ▸ List.mem_cons_self)
    rw [hwhole, ← ih (w ++ [(c, Mark.literal)]) hnul, quoteEscape_cons]
    by_cases hquote : c = '\''
    · -- the quotes are closed, a quote is escaped, and they are opened again
      subst hquote
      have hclose : next '\'' (.single w) = some ([], .word w) := rfl
      have hslash : next '\\' (.word w) = some ([], .escaped (some w)) := by
        simp [next, opens, BLANKS, OPERATORS]
      have hescaped : next '\'' (.escaped (some w)) =
          some ([], .word (w ++ [('\'', .literal)])) := rfl
      have hopen : next '\'' (.word (w ++ [('\'', .literal)])) =
          some ([], .single (w ++ [('\'', .literal)])) := by
        simp [next, opens, enter, BLANKS, OPERATORS, REFUSED]
      have hline : ['\'', '\\', '\'', '\''] ++ quoteEscape s ++ rest =
          '\'' :: '\\' :: '\'' :: '\'' :: (quoteEscape s ++ rest) := rfl
      rw [if_pos rfl, hline, scanAll_step hclose, scanAll_step hslash, scanAll_step hescaped,
        scanAll_step hopen]
    · have hkept : next c (.single w) = some ([], .single (w ++ [(c, .literal)])) := by
        simp only [next, if_neg hc, if_neg hquote]
      rw [if_neg hquote, List.append_assoc, List.singleton_append, scanAll_step hkept]

/-- One word in any place, and nothing is expanded in it. -/
theorem scanAll_shellQuote (h : '\x00' ∉ s) : ∃ w, scanAll .gap (shellQuote s) =
    some ([], .word w) ∧ text w = s ∧ isActive w = false := by
  unfold shellQuote
  dsimp only
  split_ifs with hbare
  · rw [Bool.and_eq_true, Bool.not_eq_true', List.isEmpty_eq_false_iff, List.all_eq_true] at hbare
    obtain ⟨hne, hall⟩ := hbare
    exact ⟨bare s, scanAll_plain (plain_of_bare hne hall), text_bare s, inert_of_bare hall⟩
  · refine ⟨s.map (·, .literal), ?_, ?_, ?_⟩
    · have hopen : next '\'' .gap = some ([], .single []) := rfl
      have hclose : next '\'' (.single (s.map (·, .literal))) =
          some ([], .word (s.map (·, .literal))) := rfl
      rw [List.cons_append, scanAll_step hopen, scanAll_single [] h, List.nil_append,
        scanAll_step hclose]
      rfl
    · simp [text, Function.comp_def]
    · simp [isActive]

/-- Quotes add no blank. -/
theorem blanks_quoteEscape (s : List Char) :
    (quoteEscape s).countP (· ∈ BLANKS) = s.countP (· ∈ BLANKS) := by
  induction s with
  | nil => rfl
  | cons c s ih =>
    show _ = ([c] ++ s).countP (· ∈ BLANKS)
    rw [quoteEscape_cons, List.countP_append, List.countP_append, ih]
    by_cases hquote : c = '\''
    · rw [if_pos hquote, hquote]
      rfl
    · rw [if_neg hquote]

theorem quotes_shellQuote : Quotes shellQuote where
  scan y h := scanAll_shellQuote h
  blanks y := by
    unfold shellQuote
    dsimp only
    split_ifs
    · rfl
    · rw [List.countP_append, List.countP_cons_of_neg (by decide), blanks_quoteEscape]
      rfl

/-- A quoted text is one word equal to it in any place of a line, with nothing to expand in it,
and quoted texts with blanks between them are read back. -/
theorem shellQuote_spec :
    (∀ s, '\x00' ∉ s → ∃ w, text w = s ∧ isActive w = false ∧
      ∀ before ts after, scanAll .gap before = some (ts, .gap) →
        (∀ c ∈ after.head?, c ∈ BLANKS ∨ c ∈ OPERATORS) →
        tokens (before ++ shellQuote s ++ after) =
          (tokens after).map fun ts' => ts ++ .word w :: ts') ∧
    ∀ l : List (List Char), (∀ s ∈ l, '\x00' ∉ s) → ∀ expand,
      read expand ([' '].intercalate (l.map shellQuote)) = some l := by
  refine ⟨fun s h => ?_, fun l h expand => ?_⟩
  · obtain ⟨w, hscan, htext, hactive⟩ := scanAll_shellQuote h
    refine ⟨w, htext, hactive, fun before ts after hbefore hafter => ?_⟩
    rw [tokens, List.append_assoc, tokensFrom_append_of_scanAll hbefore,
      tokensFrom_append_of_scanAll hscan, tokensFrom_word hactive hafter, Option.map_map,
      Option.map_map]
    rfl
  · cases l with
    | nil => rfl
    | cons y ys =>
      rw [intercalate_map]
      exact read_quoted quotes_shellQuote h expand

theorem shellQuote_its : ∀ expand, read expand ([' '].intercalate
    ((["/tmp/it's.toml".toList, [], "--yes".toList]).map shellQuote)) =
      some ["/tmp/it's.toml".toList, [], "--yes".toList] :=
  shellQuote_spec.2 ["/tmp/it's.toml".toList, [], "--yes".toList] (by decide)

end Kuma.State
