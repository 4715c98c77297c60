import Mathlib.Data.List.Basic

/-! A text as the bytes it takes, and slices of it by byte: a slice that ends inside a character
has no value. -/
namespace Kuma.Lib.Utf8

def bytes (text : List Char) : List UInt8 := text.flatMap String.utf8EncodeChar

/-- The characters that take the first `n` bytes. -/
def sliceTo : ℕ → List Char → Option (List Char)
  | 0, _ => some []
  | _ + 1, [] => none
  | n + 1, c :: cs =>
    if c.utf8Size ≤ n + 1 then (sliceTo (n + 1 - c.utf8Size) cs).map (c :: ·) else none

def isAscii (c : Char) : Bool := c.toNat < 128

variable {c : Char} {text : List Char} {n : ℕ} {b : UInt8}

theorem bytes_cons (c : Char) (text : List Char) :
    bytes (c :: text) = String.utf8EncodeChar c ++ bytes text := List.flatMap_cons

/-- A byte that is not the first of its character is no character of its own. -/
theorem continuation_of_getElem? {i : ℕ} (hi : i ≠ 0)
    (h : (String.utf8EncodeChar c)[i]? = some b) : 128 ≤ b.toNat := by
  have hcont : ∀ v : ℕ, 128 ≤ (UInt8.ofNat (v % 64 + 128)).toNat := by
    intro v
    rw [UInt8.toNat_ofNat']
    omega
  obtain ⟨j, rfl⟩ := Nat.exists_eq_succ_of_ne_zero hi
  simp only [String.utf8EncodeChar] at h
  split_ifs at h
  · cases h
  · match j, h with
    | 0, h => exact Option.some.inj h ▸ hcont _
  · match j, h with
    | 0, h => exact Option.some.inj h ▸ hcont _
    | 1, h => exact Option.some.inj h ▸ hcont _
  · match j, h with
    | 0, h => exact Option.some.inj h ▸ hcont _
    | 1, h => exact Option.some.inj h ▸ hcont _
    | 2, h => exact Option.some.inj h ▸ hcont _

/-- A slice ends between characters where a character of one byte stands behind it. -/
theorem exists_sliceTo (h : (bytes text)[n]? = some b) (hb : b.toNat < 128) :
    ∃ part, sliceTo n text = some part := by
  induction text generalizing n with
  | nil => cases h
  | cons c text ih =>
    cases n with
    | zero => exact ⟨[], rfl⟩
    | succ n =>
      rw [bytes_cons] at h
      rcases Nat.lt_or_ge (n + 1) c.utf8Size with hlt | hge
      · rw [List.getElem?_append_left (by rw [String.length_utf8EncodeChar]; exact hlt)] at h
        have hcont := continuation_of_getElem? (Nat.succ_ne_zero n) h
        omega
      · rw [List.getElem?_append_right (by rw [String.length_utf8EncodeChar]; exact hge),
          String.length_utf8EncodeChar] at h
        obtain ⟨part, hpart⟩ := ih h
        exact ⟨c :: part, by rw [sliceTo, if_pos hge, hpart]; rfl⟩

theorem utf8Size_of_isAscii (h : isAscii c = true) : c.utf8Size = 1 := by
  unfold isAscii at h
  rw [decide_eq_true_eq] at h
  refine Char.utf8Size_eq_one_iff.mpr (UInt32.le_iff_toNat_le.mpr ?_)
  show c.toNat ≤ 127
  omega

theorem bytes_of_ascii (h : ∀ c ∈ text, isAscii c = true) :
    bytes text = text.map fun c => c.val.toUInt8 := by
  induction text with
  | nil => rfl
  | cons c text ih =>
    rw [bytes_cons, String.utf8EncodeChar_eq_singleton (utf8Size_of_isAscii (h c List.mem_cons_self)),
      ih fun d hd => h d (List.mem_cons_of_mem c hd)]
    rfl

theorem sliceTo_of_ascii (h : ∀ c ∈ text, isAscii c = true) (hn : n ≤ text.length) :
    sliceTo n text = some (text.take n) := by
  induction text generalizing n with
  | nil =>
    obtain rfl : n = 0 := Nat.le_zero.mp hn
    rfl
  | cons c text ih =>
    cases n with
    | zero => rfl
    | succ n =>
      have hsize := utf8Size_of_isAscii (h c List.mem_cons_self)
      have hrest := ih (fun d hd => h d (List.mem_cons_of_mem c hd)) (Nat.le_of_succ_le_succ hn)
      rw [sliceTo, hsize, if_pos (by omega), Nat.add_sub_cancel, hrest]
      rfl

/-- A byte that goes on with a character after its first byte. -/
def isContinuation (b : UInt8) : Bool := 0x80 ≤ b && b < 0xC0

/-- Whether the second byte of a character of three or four bytes may follow the first. -/
def goesOn (first second : UInt8) : Bool :=
  isContinuation second &&
    ((first == 0xE0 && 0xA0 ≤ second) || (0xE1 ≤ first && first ≤ 0xEC) ||
      (first == 0xED && second ≤ 0x9F) || first == 0xEE || first == 0xEF ||
      (first == 0xF0 && 0x90 ≤ second) || (0xF1 ≤ first && first ≤ 0xF3) ||
      (first == 0xF4 && second ≤ 0x8F))

/-- How many bytes are taken for the beginning of one character that does not come. -/
def broken : List UInt8 → ℕ
  | first :: second :: third :: _ =>
    if goesOn first second then if first ≥ 0xF0 && isContinuation third then 3 else 2 else 1
  | [first, second] => if goesOn first second then 2 else 1
  | _ => 1

def lossyFrom : ℕ → List UInt8 → List Char
  | 0, _ => []
  | _, [] => []
  | n + 1, b :: bs =>
    match (b :: bs).toByteArray.utf8DecodeChar? 0 with
    | some c => c :: lossyFrom n ((b :: bs).drop c.utf8Size)
    | none => Char.ofNat 0xFFFD :: lossyFrom n ((b :: bs).drop (broken (b :: bs)))

/-- `String::from_utf8_lossy` -/
def lossy (bs : List UInt8) : List Char := lossyFrom bs.length bs

theorem lossyFrom_bytes {n : ℕ} (text : List Char) (h : (bytes text).length ≤ n) :
    lossyFrom n (bytes text) = text := by
  induction text generalizing n with
  | nil =>
    cases n with
    | zero => rfl
    | succ n => rfl
  | cons c text ih =>
    have hlength := String.length_utf8EncodeChar c
    have hpos := c.utf8Size_pos
    rw [bytes_cons, List.length_append] at h
    obtain ⟨b, bs, hb⟩ : ∃ b bs, String.utf8EncodeChar c = b :: bs :=
      List.exists_cons_of_length_pos (by omega)
    have hdecode : (bytes (c :: text)).toByteArray.utf8DecodeChar? 0 = some c := by
      rw [bytes_cons, List.toByteArray_append]
      exact ByteArray.utf8DecodeChar?_utf8EncodeChar_append
    have hdrop : (bytes (c :: text)).drop c.utf8Size = bytes text := by
      rw [bytes_cons, ← hlength, List.drop_left]
    obtain ⟨m, rfl⟩ : ∃ m, n = m + 1 := Nat.exists_eq_succ_of_ne_zero (by omega)
    have hcons : bytes (c :: text) = b :: (bs ++ bytes text) := by
      rw [bytes_cons, hb, List.cons_append]
    rw [hcons] at hdecode hdrop ⊢
    rw [lossyFrom, hdecode]
    dsimp only
    rw [hdrop, ih (by omega)]

@[simp] theorem lossy_bytes (text : List Char) : lossy (bytes text) = text :=
  lossyFrom_bytes text (Nat.le_refl _)

theorem bytes_injective : Function.Injective bytes := Function.LeftInverse.injective lossy_bytes

end Kuma.Lib.Utf8
