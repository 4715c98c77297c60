import Mathlib.Data.List.Basic

/-! Texts in quotes, as Rust's `Debug` writes them. The writing is a code without common
beginnings, so that whatever follows the closing quote the text can be read back. -/
namespace Kuma.Lib.Escape

section
variable {α β : Type*} {code : α → List β} {stop : β}

/-- A sequence of codes before a stop is read in one way only, if a code is and none begins
like the stop. -/
theorem flatMap_append_inj (hcode : ∀ {a b : α} {x y : List β},
    code a ++ x = code b ++ y → a = b ∧ x = y)
    (hstop : ∀ {a : α} {x y : List β}, code a ++ x ≠ stop :: y) {as bs : List α} {s t : List β}
    (h : as.flatMap code ++ stop :: s = bs.flatMap code ++ stop :: t) : as = bs ∧ s = t := by
  induction as generalizing bs with
  | nil =>
    cases bs with
    | nil => exact ⟨rfl, List.tail_eq_of_cons_eq h⟩
    | cons b bs =>
      rw [List.flatMap_cons, List.append_assoc] at h
      exact absurd h.symm hstop
  | cons a as ih =>
    cases bs with
    | nil =>
      rw [List.flatMap_cons, List.append_assoc] at h
      exact absurd h hstop
    | cons b bs =>
      rw [List.flatMap_cons, List.flatMap_cons, List.append_assoc, List.append_assoc] at h
      obtain ⟨rfl, hrest⟩ := hcode h
      obtain ⟨rfl, hst⟩ := ih hrest
      exact ⟨rfl, hst⟩

/-- Two texts that stop at the same sign stop at the same place. -/
theorem append_stop_inj {l l' x y : List β} (hl : stop ∉ l) (hl' : stop ∉ l')
    (h : l ++ stop :: x = l' ++ stop :: y) : l = l' ∧ x = y := by
  induction l generalizing l' with
  | nil =>
    cases l' with
    | nil => exact ⟨rfl, List.tail_eq_of_cons_eq h⟩
    | cons c l' =>
      have hc : stop = c := List.head_eq_of_cons_eq h
      exact absurd (hc ▸ List.mem_cons_self) hl'
  | cons b l ih =>
    cases l' with
    | nil =>
      have hb : b = stop := List.head_eq_of_cons_eq h
      exact absurd (hb ▸ List.mem_cons_self) hl
    | cons c l' =>
      rw [List.mem_cons, not_or] at hl hl'
      obtain ⟨rfl, hrest⟩ := ih hl.2 hl'.2 (List.tail_eq_of_cons_eq h)
      exact ⟨by rw [List.head_eq_of_cons_eq h], hrest⟩

end

/-- A number in lowercase hexadecimal digits. -/
def hexDigits (n : ℕ) : List Char := Nat.toDigits 16 n

theorem hexDigits_of_lt {n : ℕ} (h : n < 16) : hexDigits n = [n.digitChar] :=
  Nat.toDigits_of_lt_base h

theorem hexDigits_of_le {n : ℕ} (h : 16 ≤ n) :
    hexDigits n = hexDigits (n / 16) ++ [(n % 16).digitChar] :=
  Nat.toDigits_of_base_le (by omega) h

theorem digitChar_inj {m n : ℕ} (hm : m < 16) (hn : n < 16) (h : m.digitChar = n.digitChar) :
    m = n := by
  have hall : ∀ m < 16, ∀ n < 16, m.digitChar = n.digitChar → m = n := by decide
  exact hall m hm n hn h

theorem brace_notMem_hexDigits (n : ℕ) : '\x7d' ∉ hexDigits n := by
  have hdigit : ∀ d < 16, '\x7d' ≠ d.digitChar := by decide
  induction n using Nat.strongRecOn with
  | _ n ih =>
    rcases Nat.lt_or_ge n 16 with hlt | hle
    · rw [hexDigits_of_lt hlt, List.mem_singleton]
      exact hdigit n hlt
    · rw [hexDigits_of_le hle, List.mem_append, List.mem_singleton, not_or]
      constructor
      · exact ih (n / 16) (by omega)
      · exact hdigit (n % 16) (by omega)

theorem hexDigits_ne_nil (n : ℕ) : hexDigits n ≠ [] := Nat.toDigits_ne_nil

theorem hexDigits_inj {m n : ℕ} (h : hexDigits m = hexDigits n) : m = n := by
  induction m using Nat.strongRecOn generalizing n with
  | _ m ih =>
    rcases Nat.lt_or_ge m 16 with hm | hm
    · rcases Nat.lt_or_ge n 16 with hn | hn
      · rw [hexDigits_of_lt hm, hexDigits_of_lt hn] at h
        exact digitChar_inj hm hn (List.singleton_inj.mp h)
      · rw [hexDigits_of_lt hm, hexDigits_of_le hn] at h
        have hlength := congrArg List.length h
        have hpos := List.length_pos_of_ne_nil (hexDigits_ne_nil (n / 16))
        simp only [List.length_append, List.length_singleton] at hlength
        omega
    · rcases Nat.lt_or_ge n 16 with hn | hn
      · rw [hexDigits_of_le hm, hexDigits_of_lt hn] at h
        have hlength := congrArg List.length h
        have hpos := List.length_pos_of_ne_nil (hexDigits_ne_nil (m / 16))
        simp only [List.length_append, List.length_singleton] at hlength
        omega
      · rw [hexDigits_of_le hm, hexDigits_of_le hn] at h
        obtain ⟨hhigh, hlow⟩ := List.append_inj' h rfl
        have hquot := ih (m / 16) (by omega) hhigh
        have hrem := digitChar_inj (Nat.mod_lt m (by omega)) (Nat.mod_lt n (by omega))
          (List.singleton_inj.mp hlow)
        omega

/-- The characters that a backslash and a letter stand for. -/
def short : List (Char × Char) :=
  [('\x00', '0'), ('\t', 't'), ('\n', 'n'), ('\r', 'r'), ('"', '"'), ('\\', '\\')]

theorem mem_short_of_lookup {c letter : Char} (h : short.lookup c = some letter) :
    (c, letter) ∈ short := by
  obtain ⟨before, after, hshort, -⟩ := List.lookup_eq_some_iff.mp h
  rw [hshort]
  exact List.mem_append_right before List.mem_cons_self

theorem short_inj {p q : Char × Char} (hp : p ∈ short) (hq : q ∈ short) (h : p.2 = q.2) :
    p.1 = q.1 := by
  have hall : (short.all fun p => short.all fun q => p.2 != q.2 || p.1 == q.1) = true := by decide
  have hpq := List.all_eq_true.mp (List.all_eq_true.mp hall p hp) q hq
  simpa [h] using hpq

/-- One character as `Debug` writes it. Which characters it does not print as they are, beyond
these, Unicode's tables say. -/
def escape (unprintable : Char → Bool) (c : Char) : List Char :=
  match short.lookup c with
  | some letter => ['\\', letter]
  | none =>
    if unprintable c then ['\\', 'u', '\x7b'] ++ hexDigits c.toNat ++ ['\x7d'] else [c]

/-- `format!("{text:?}")`. -/
def debug (unprintable : Char → Bool) (text : List Char) : List Char :=
  '"' :: text.flatMap (escape unprintable) ++ ['"']

section
variable {unprintable : Char → Bool} {a b : Char} {x y : List Char}

/-- The three ways a character is written. -/
theorem escape_cases (unprintable : Char → Bool) (c : Char) :
    (∃ letter, (c, letter) ∈ short ∧ escape unprintable c = ['\\', letter]) ∨
    (escape unprintable c = '\\' :: 'u' :: '\x7b' :: (hexDigits c.toNat ++ ['\x7d'])) ∨
    (c ≠ '\\' ∧ c ≠ '"' ∧ escape unprintable c = [c]) := by
  unfold escape
  cases hlookup : short.lookup c with
  | some letter => exact .inl ⟨letter, mem_short_of_lookup hlookup, rfl⟩
  | none =>
    right
    by_cases hc : unprintable c = true
    · exact .inl (by simp [hc])
    · right
      have hplain : ∀ q : Char, (short.lookup q).isSome → c ≠ q := by
        intro q hq heq
        rw [← heq, hlookup] at hq
        cases hq
      exact ⟨hplain '\\' (by decide), hplain '"' (by decide), by simp [hc]⟩

/-- How a character is written tells it from every other, whatever follows. -/
theorem escape_append_inj (h : escape unprintable a ++ x = escape unprintable b ++ y) :
    a = b ∧ x = y := by
  have hletter : ∀ p ∈ short, p.2 ≠ 'u' := by
    have hall : (short.all fun p => p.2 != 'u') = true := by decide
    intro p hp
    simpa using List.all_eq_true.mp hall p hp
  rcases escape_cases unprintable a with ⟨la, hla, ha⟩ | ha | ⟨hbs, -, ha⟩ <;>
    rcases escape_cases unprintable b with ⟨lb, hlb, hb⟩ | hb | ⟨hbs', -, hb⟩ <;>
    rw [ha, hb] at h <;> simp only [List.cons_append, List.nil_append, List.cons.injEq] at h
  · exact ⟨short_inj hla hlb h.2.1, h.2.2⟩
  · exact absurd h.2.1 (hletter _ hla)
  · exact absurd h.1.symm hbs'
  · exact absurd h.2.1.symm (hletter _ hlb)
  · have hdigits := h.2.2.2
    rw [List.append_assoc, List.append_assoc] at hdigits
    obtain ⟨hnumber, hrest⟩ :=
      append_stop_inj (brace_notMem_hexDigits _) (brace_notMem_hexDigits _) hdigits
    exact ⟨Char.toNat_inj.mp (hexDigits_inj hnumber), hrest⟩
  · exact absurd h.1.symm hbs'
  · exact absurd h.1 hbs
  · exact absurd h.1 hbs
  · exact h

theorem escape_append_ne : escape unprintable a ++ x ≠ '"' :: y := by
  rcases escape_cases unprintable a with ⟨letter, -, ha⟩ | ha | ⟨-, hne, ha⟩
  · simp [ha]
  · simp [ha]
  · simp [ha, hne]

/-- A quoted text is read back from whatever it begins. -/
theorem debug_append_inj {s t text text' : List Char}
    (h : debug unprintable text ++ s = debug unprintable text' ++ t) : text = text' ∧ s = t := by
  simp only [debug, List.cons_append, List.append_assoc, List.nil_append, List.cons.injEq,
    true_and] at h
  exact flatMap_append_inj escape_append_inj escape_append_ne h

end
end Kuma.Lib.Escape
