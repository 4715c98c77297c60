import Mathlib.Data.List.Lex
import Mathlib.Data.Char
import Mathlib.Algebra.Ring.Nat
import Mathlib.Order.Lattice

/-! Decimal numerals of a fixed width, and texts composed of them: the order of the texts is the
order of what they spell, field by field. -/
namespace Kuma.Lib.FixedWidth

section
variable {α : Type*} [LinearOrder α] {a b u v : List α}

/-- Of texts of one length the first difference decides, whatever follows. -/
theorem append_lt_append (hlen : a.length = b.length) (h : a < b) : a ++ u < b ++ v := by
  induction a generalizing b with
  | nil =>
    obtain rfl := List.eq_nil_of_length_eq_zero hlen.symm
    exact absurd h (lt_irrefl _)
  | cons x a ih =>
    obtain _ | ⟨y, b⟩ := b
    · exact absurd hlen (Nat.succ_ne_zero a.length)
    · rw [List.cons_append, List.cons_append, List.cons_lt_cons_iff]
      rcases List.cons_lt_cons_iff.mp h with hlt | ⟨heq, hlt⟩
      · exact .inl hlt
      · exact .inr ⟨heq, ih (Nat.succ.inj hlen) hlt⟩

theorem append_lt_append_right (h : u < v) : a ++ u < a ++ v := by
  induction a with
  | nil => exact h
  | cons x a ih => exact List.cons_lt_cons_iff.mpr (.inr ⟨rfl, ih⟩)

/-- What comes first comes first in its beginning, or has the same beginning. -/
theorem lt_or_eq_of_append_lt (hlen : a.length = b.length) (h : a ++ u < b ++ v) :
    a < b ∨ a = b ∧ u < v := by
  rcases lt_trichotomy a b with hlt | heq | hgt
  · exact .inl hlt
  · subst heq
    rcases lt_trichotomy u v with hlt | rfl | hgt
    · exact .inr ⟨rfl, hlt⟩
    · exact absurd h (lt_irrefl _)
    · exact absurd h (append_lt_append_right hgt).not_gt
  · exact absurd h (append_lt_append hlen.symm hgt).not_gt

end

/-- The last `w` decimal digits of a number, with zeros in front. -/
def padded : ℕ → ℕ → List Char
  | 0, _ => []
  | w + 1, n => padded w (n / 10) ++ [(n % 10).digitChar]

@[simp] theorem length_padded (w n : ℕ) : (padded w n).length = w := by
  induction w generalizing n with
  | zero => rfl
  | succ w ih => simp [padded, ih]

theorem padded_zero (w : ℕ) : padded w 0 = List.replicate w '0' := by
  induction w with
  | zero => rfl
  | succ w ih =>
    rw [padded, List.replicate_succ', Nat.zero_div, ih]
    rfl

/-- A numeral that fits is padded with zeros. -/
theorem padded_eq_leftpad {w n : ℕ} (hw : 0 < w) (hn : n < 10 ^ w) :
    padded w n = (Nat.toDigits 10 n).leftpad w '0' := by
  induction w generalizing n with
  | zero => exact absurd hw (lt_irrefl 0)
  | succ w ih =>
    rw [padded, Nat.toDigits_eq_if (by decide)]
    split_ifs with hsmall
    · rw [Nat.div_eq_of_lt hsmall, Nat.mod_eq_of_lt hsmall, padded_zero]
      rfl
    · have hw' : 0 < w := by
        by_contra hzero
        obtain rfl : w = 0 := by omega
        omega
      have hn' : n / 10 < 10 ^ w := by
        rw [Nat.pow_succ] at hn
        omega
      rw [ih hw' hn', List.leftpad, List.leftpad, List.append_assoc, List.length_append,
        List.length_singleton, Nat.add_sub_add_right]

/-- A numeral is read back. -/
theorem ofDigitChars_padded {w n : ℕ} (hn : n < 10 ^ w) :
    Nat.ofDigitChars 10 (padded w n) 0 = n := by
  induction w generalizing n with
  | zero =>
    have hzero : n = 0 := by omega
    rw [hzero]
    rfl
  | succ w ih =>
    have hn' : n / 10 < 10 ^ w := by
      rw [Nat.pow_succ] at hn
      omega
    rw [padded, Nat.ofDigitChars_append, ih hn',
      Nat.ofDigitChars_cons_digitChar_of_lt_ten (Nat.mod_lt n (by decide)), Nat.ofDigitChars_nil,
      Nat.div_add_mod]

theorem digitChar_lt {m n : ℕ} (hmn : m < n) (hn : n < 10) : m.digitChar < n.digitChar := by
  have hall : ∀ n < 10, ∀ m < n, m.digitChar < n.digitChar := by decide
  exact hall n hn m hmn

theorem padded_lt {w m n : ℕ} (hmn : m < n) (hn : n < 10 ^ w) : padded w m < padded w n := by
  induction w generalizing m n with
  | zero => omega
  | succ w ih =>
    rw [padded, padded]
    have hdiv : n / 10 < 10 ^ w := by
      rw [Nat.pow_succ] at hn
      omega
    rcases (Nat.div_le_div_right hmn.le : m / 10 ≤ n / 10).lt_or_eq with hlt | heq
    · exact append_lt_append (by simp) (ih hlt hdiv)
    · rw [heq]
      refine append_lt_append_right (List.cons_lt_cons_iff.mpr (.inl ?_))
      exact digitChar_lt (by omega) (Nat.mod_lt n (by omega))

theorem isDigit_of_mem_padded {w n : ℕ} {c : Char} (h : c ∈ padded w n) :
    '0' ≤ c ∧ c ≤ '9' := by
  induction w generalizing n with
  | zero => exact absurd h List.not_mem_nil
  | succ w ih =>
    rcases List.mem_append.mp h with h | h
    · exact ih h
    · have hall : ∀ d < 10, '0' ≤ d.digitChar ∧ d.digitChar ≤ '9' := by decide
      rw [List.mem_singleton.mp h]
      exact hall (n % 10) (Nat.mod_lt n (by omega))

/-- A format: each field's width, and what is written after it. -/
abbrev Format := List (ℕ × List Char)

/-- The fields as the format spells them. -/
def spell : Format → List ℕ → List Char
  | (w, mark) :: format, n :: ns => padded w n ++ mark ++ spell format ns
  | _, _ => []

/-- One number for each field, and each within its width. -/
def Fits : Format → List ℕ → Prop
  | [], [] => True
  | (w, _) :: format, n :: ns => n < 10 ^ w ∧ Fits format ns
  | _, _ => False

section
variable {format : Format} {ms ns : List ℕ}

theorem length_spell (hm : Fits format ms) (hn : Fits format ns) :
    (spell format ms).length = (spell format ns).length := by
  induction format generalizing ms ns with
  | nil => rfl
  | cons field format ih =>
    obtain _ | ⟨m, ms⟩ := ms
    · exact hm.elim
    obtain _ | ⟨n, ns⟩ := ns
    · exact hn.elim
    simp [spell, ih hm.2 hn.2]

theorem spell_lt (hm : Fits format ms) (hn : Fits format ns) (h : ms < ns) :
    spell format ms < spell format ns := by
  induction format generalizing ms ns with
  | nil =>
    obtain _ | ⟨m, ms⟩ := ms
    · obtain _ | ⟨n, ns⟩ := ns
      · exact absurd h (lt_irrefl _)
      · exact hn.elim
    · exact hm.elim
  | cons field format ih =>
    obtain _ | ⟨m, ms⟩ := ms
    · exact hm.elim
    obtain _ | ⟨n, ns⟩ := ns
    · exact hn.elim
    rw [spell, spell, List.append_assoc, List.append_assoc]
    rcases List.cons_lt_cons_iff.mp h with hlt | ⟨rfl, hlt⟩
    · exact append_lt_append (by simp) (padded_lt hlt hn.1)
    · exact append_lt_append_right (append_lt_append_right (ih hm.2 hn.2 hlt))

theorem spell_injective (hm : Fits format ms) (hn : Fits format ns)
    (h : spell format ms = spell format ns) : ms = ns := by
  rcases lt_trichotomy ms ns with hlt | heq | hgt
  · exact absurd h (spell_lt hm hn hlt).ne
  · exact heq
  · exact absurd h (spell_lt hn hm hgt).ne'

/-- What a spelling holds beside digits stands in its format. -/
theorem of_mem_spell {c : Char} (h : c ∈ spell format ns) :
    '0' ≤ c ∧ c ≤ '9' ∨ ∃ field ∈ format, c ∈ field.2 := by
  induction format generalizing ns with
  | nil => exact absurd h List.not_mem_nil
  | cons field format ih =>
    obtain _ | ⟨n, ns⟩ := ns
    · exact absurd h List.not_mem_nil
    rw [spell, List.mem_append, List.mem_append] at h
    rcases h with (h | h) | h
    · exact .inl (isDigit_of_mem_padded h)
    · exact .inr ⟨field, List.mem_cons_self, h⟩
    · rcases ih h with hdigit | ⟨other, hother, hc⟩
      · exact .inl hdigit
      · exact .inr ⟨other, List.mem_cons_of_mem field hother, hc⟩

end

end Kuma.Lib.FixedWidth
