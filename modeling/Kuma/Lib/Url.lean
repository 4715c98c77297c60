import Mathlib.Data.List.Basic
import Mathlib.Data.List.DropRight

/-! The authority of a URL and the host it names, as RFC 3986 reads them. -/
namespace Kuma.Lib.Url

/-- What follows `://`, up to the first of `/`, `?` and `#`. -/
def authority (rest : List Char) : List Char :=
  rest.takeWhile fun c => !(['/', '?', '#'].contains c)

/-- The authority without its userinfo, which ends at the last `@`. -/
def hostPort (authority : List Char) : List Char := authority.rtakeWhile (· ≠ '@')

/-- The host: a bracketed literal unwrapped, or what stands before the port. -/
def host (hostPort : List Char) : List Char :=
  if hostPort.head? = some '[' then hostPort.tail.takeWhile (· ≠ ']')
  else hostPort.takeWhile (· ≠ ':')

/-- The spellings of a host: bare or in brackets, alone or before a port. -/
def Spells (name hostPort : List Char) : Prop :=
  (hostPort.head? ≠ some '[' ∧ ':' ∉ name ∧
    (hostPort = name ∨ ∃ port, hostPort = name ++ ':' :: port)) ∨
  (']' ∉ name ∧ (hostPort = '[' :: name ∨ ∃ port, hostPort = '[' :: name ++ ']' :: port))

section
variable {c : Char} {l name text : List Char}

theorem takeWhile_ne_eq_iff :
    l.takeWhile (· ≠ c) = name ↔ c ∉ name ∧ (l = name ∨ ∃ t, l = name ++ c :: t) := by
  constructor
  · intro h
    constructor
    · intro hmem
      rw [← h] at hmem
      have hne := List.mem_takeWhile_imp hmem
      simp at hne
    · have hsplit := List.takeWhile_append_dropWhile (p := (· ≠ c)) (l := l)
      rw [h] at hsplit
      cases hdrop : l.dropWhile (· ≠ c) with
      | nil => exact .inl (by rw [← hsplit, hdrop, List.append_nil])
      | cons x t =>
        have hx := List.head?_dropWhile_not (· ≠ c) l
        rw [hdrop] at hx
        obtain rfl : x = c := by simpa using hx
        exact .inr ⟨t, by rw [← hsplit, hdrop]⟩
  · intro h
    obtain ⟨hmem, hl⟩ := h
    have hall : ∀ x ∈ name, decide (x ≠ c) = true := by
      intro x hx
      exact decide_eq_true fun heq => hmem (heq ▸ hx)
    rcases hl with rfl | ⟨t, rfl⟩
    · exact List.takeWhile_eq_self_iff.mpr hall
    · rw [List.takeWhile_append_of_pos hall, List.takeWhile_cons_of_neg (by simp),
        List.append_nil]

/-- A host is read off exactly its spellings. -/
theorem host_eq_iff : host text = name ↔ Spells name text := by
  unfold host Spells
  by_cases hopen : text.head? = some '['
  · obtain ⟨t, rfl⟩ : ∃ t, text = '[' :: t := by
      obtain ⟨t, ht⟩ := List.head?_eq_some_iff.mp hopen
      exact ⟨t, ht⟩
    rw [if_pos hopen, List.tail_cons, takeWhile_ne_eq_iff]
    simp
  · rw [if_neg hopen, takeWhile_ne_eq_iff]
    constructor
    · intro h
      exact .inl ⟨hopen, h⟩
    · intro h
      rcases h with h | ⟨-, hbracket⟩
      · exact h.2
      · exfalso
        apply hopen
        rcases hbracket with rfl | ⟨port, rfl⟩
        · rfl
        · rfl

/-- Without a userinfo the whole authority is read. -/
theorem hostPort_of_notMem (h : '@' ∉ text) : hostPort text = text := by
  refine List.rtakeWhile_eq_self_iff.mpr fun x hx => ?_
  exact decide_eq_true fun heq => h (heq ▸ hx)

/-- What stands behind the last `@`. -/
theorem hostPort_append_cons (h : '@' ∉ name) : hostPort (text ++ '@' :: name) = name := by
  have hall : ∀ x ∈ name.reverse, decide (x ≠ '@') = true := by
    intro x hx
    exact decide_eq_true fun heq => h (heq ▸ List.mem_reverse.mp hx)
  rw [hostPort, List.rtakeWhile, List.reverse_append, List.reverse_cons, List.append_assoc,
    List.takeWhile_append_of_pos hall, List.singleton_append,
    List.takeWhile_cons_of_neg (by simp), List.append_nil, List.reverse_reverse]

/-- Nothing before an `@` is read. -/
theorem hostPort_append (h : '@' ∈ text) : hostPort (name ++ text) = hostPort text := by
  have hstops : (text.reverse.takeWhile (· ≠ '@')).length ≠ text.reverse.length := by
    intro hlength
    have hwhole := (List.takeWhile_prefix (· ≠ '@')).eq_of_length hlength
    have hat := List.mem_takeWhile_imp (hwhole ▸ List.mem_reverse.mpr h)
    exact absurd hat (by decide)
  rw [hostPort, List.rtakeWhile, List.reverse_append, List.takeWhile_append, if_neg hstops]
  rfl

/-- A text that runs into a port, a path or its end begins the authority with it. -/
theorem authority_append (hname : ∀ c ∈ name, c ∉ ['/', '?', '#']) :
    authority (name ++ text) = name ++ authority text := by
  refine List.takeWhile_append_of_pos fun c hc => ?_
  simp [hname c hc]

theorem authority_takeWhile : authority (text.takeWhile (· ≠ '/')) = authority text := by
  unfold authority
  rw [List.takeWhile_takeWhile]
  congr 1
  funext c
  by_cases hc : c = '/' <;> simp [hc]

theorem authority_cons_colon : authority (':' :: text) = ':' :: authority text := by
  simp [authority]

end
end Kuma.Lib.Url
