import Kuma.Nostr.Percent

/-! Which values `percent_decode` reads, against what a query may hold: the integer parser takes
a sign for a digit. -/
namespace Kuma.Nostr

def isHexDigit (b : UInt8) : Bool := (hexDigit b).isSome

def digitValue (b : UInt8) : UInt8 := (hexDigit b).getD 0

/-- A byte that is no escape. -/
def unescaped (b : UInt8) : UInt8 := if b = 0x2B then 0x20 else b

/-- Every percent sign is followed by two hexadecimal digits. -/
def WellFormed (bytes : List UInt8) : Prop :=
  ∀ start rest, bytes = start ++ 0x25 :: rest →
    ∃ a b rest', rest = a :: b :: rest' ∧ isHexDigit a = true ∧ isHexDigit b = true

/-- The bytes that a well-formed value stands for. -/
def decoded : List UInt8 → List UInt8
  | c :: a :: b :: rest =>
    if c = 0x25 then (16 * digitValue a + digitValue b) :: decoded rest
    else unescaped c :: decoded (a :: b :: rest)
  | short => short.map unescaped

/-- The value with a zero for the sign in every `%+h`. -/
def spelled : List UInt8 → List UInt8
  | c :: a :: b :: rest =>
    if c = 0x25 ∧ a = 0x2B ∧ isHexDigit b = true then 0x25 :: 0x30 :: b :: spelled rest
    else c :: spelled (a :: b :: rest)
  | short => short

/-- What the bytes say, if they are UTF-8. -/
def IsText (bytes : List UInt8) (text : String) : Prop := utf8Bytes text = bytes

/-- A value is read if it is well formed and stands for a text, and as that text. -/
structure ReadsExactly (value : String) : Prop where
  accepts : (∃ text, percentDecode value = .ok text) ↔
    WellFormed (utf8Bytes value) ∧ ∃ text, IsText (decoded (utf8Bytes value)) text
  decodes : ∀ text, percentDecode value = .ok text → IsText (decoded (utf8Bytes value)) text

variable {a b c : UInt8} {rest bytes out : List UInt8}

/-! ### Values, piece by piece -/

theorem isHexDigit_percent : isHexDigit 0x25 = false := rfl

theorem isHexDigit_plus : isHexDigit 0x2B = false := rfl

theorem ne_percent_of_isHexDigit (h : isHexDigit a = true) : a ≠ 0x25 := by
  rintro rfl
  rw [isHexDigit_percent] at h
  cases h

theorem ne_plus_of_isHexDigit (h : isHexDigit a = true) : a ≠ 0x2B := by
  rintro rfl
  rw [isHexDigit_plus] at h
  cases h

theorem wellFormed_nil : WellFormed [] := fun start _ h =>
  absurd h.symm (List.append_ne_nil_of_right_ne_nil start (List.cons_ne_nil _ _))

theorem wellFormed_cons (h : c ≠ 0x25) : WellFormed (c :: rest) ↔ WellFormed rest := by
  constructor
  · intro hwell start rest' hsplit
    exact hwell (c :: start) rest' (by rw [hsplit, List.cons_append])
  · intro hwell start rest' hsplit
    cases start with
    | nil => exact absurd (List.cons.inj hsplit).1 h
    | cons d start => exact hwell start rest' (List.cons.inj hsplit).2

theorem wellFormed_escape : WellFormed (0x25 :: rest) ↔ ∃ a b rest', rest = a :: b :: rest' ∧
    isHexDigit a = true ∧ isHexDigit b = true ∧ WellFormed rest' := by
  constructor
  · intro hwell
    obtain ⟨a, b, rest', rfl, ha, hb⟩ := hwell [] rest rfl
    refine ⟨a, b, rest', rfl, ha, hb, fun start rest'' hsplit => ?_⟩
    exact hwell (0x25 :: a :: b :: start) rest'' (by rw [hsplit]; rfl)
  · rintro ⟨a, b, rest', rfl, ha, hb, hwell⟩ start rest'' hsplit
    match start, hsplit with
    | [], hsplit =>
      obtain rfl := (List.cons.inj hsplit).2
      exact ⟨a, b, rest', rfl, ha, hb⟩
    | [_], hsplit =>
      exact absurd (List.cons.inj (List.cons.inj hsplit).2).1 (ne_percent_of_isHexDigit ha)
    | [_, _], hsplit =>
      exact absurd (List.cons.inj (List.cons.inj (List.cons.inj hsplit).2).2).1
        (ne_percent_of_isHexDigit hb)
    | _ :: _ :: _ :: start, hsplit =>
      exact hwell start rest'' (List.cons.inj (List.cons.inj (List.cons.inj hsplit).2).2).2

theorem decoded_cons (h : c ≠ 0x25) (rest : List UInt8) :
    decoded (c :: rest) = unescaped c :: decoded rest := by
  match rest with
  | [] => rfl
  | [_] => rfl
  | _ :: _ :: _ => rw [decoded, if_neg h]

theorem decoded_escape (a b : UInt8) (rest : List UInt8) :
    decoded (0x25 :: a :: b :: rest) = (16 * digitValue a + digitValue b) :: decoded rest :=
  if_pos rfl

theorem spelled_cons (h : c ≠ 0x25) (rest : List UInt8) :
    spelled (c :: rest) = c :: spelled rest := by
  match rest with
  | [] => rfl
  | [_] => rfl
  | _ :: _ :: _ => rw [spelled, if_neg fun hescape => h hescape.1]

theorem spelled_plus (h : isHexDigit b = true) (rest : List UInt8) :
    spelled (0x25 :: 0x2B :: b :: rest) = 0x25 :: 0x30 :: b :: spelled rest :=
  if_pos ⟨rfl, rfl, h⟩

theorem spelled_escape (ha : isHexDigit a = true) (hb : isHexDigit b = true)
    (rest : List UInt8) : spelled (0x25 :: a :: b :: rest) = 0x25 :: a :: b :: spelled rest := by
  rw [spelled, if_neg fun hplus => ne_plus_of_isHexDigit ha hplus.2.1,
    spelled_cons (ne_percent_of_isHexDigit ha), spelled_cons (ne_percent_of_isHexDigit hb)]

theorem head_spelled (bytes : List UInt8) : (spelled bytes).head? = bytes.head? := by
  match bytes with
  | [] => rfl
  | [_] => rfl
  | [_, _] => rfl
  | c :: a :: b :: rest =>
    rw [spelled]
    split_ifs with h
    · rw [h.1]
      rfl
    · rfl

/-- A well-formed value has no sign to spell. -/
theorem spelled_of_wellFormed (h : WellFormed bytes) : spelled bytes = bytes := by
  induction hn : bytes.length using Nat.strong_induction_on generalizing bytes with
  | _ n ih =>
    cases bytes with
    | nil => rfl
    | cons c rest =>
      by_cases hc : c = 0x25
      · subst hc
        obtain ⟨a, b, rest', rfl, ha, hb, hwell⟩ := wellFormed_escape.mp h
        rw [List.length_cons, List.length_cons, List.length_cons] at hn
        rw [spelled_escape ha hb, ih rest'.length (by omega) hwell rfl]
      · rw [List.length_cons] at hn
        rw [spelled_cons hc, ih rest.length (by omega) ((wellFormed_cons hc).mp h) rfl]

theorem hexByte_of_isHexDigit (ha : isHexDigit a = true) (hb : isHexDigit b = true) :
    hexByte a b = some (16 * digitValue a + digitValue b) := by
  obtain ⟨hi, hhi⟩ := Option.isSome_iff_exists.mp ha
  obtain ⟨lo, hlo⟩ := Option.isSome_iff_exists.mp hb
  simp [hexByte, ne_plus_of_isHexDigit ha, digitValue, hhi, hlo]

theorem hexByte_plus (hb : isHexDigit b = true) : hexByte 0x2B b = some (digitValue b) := by
  obtain ⟨lo, hlo⟩ := Option.isSome_iff_exists.mp hb
  simp [hexByte, digitValue, hlo]

theorem hexByte_isSome (h : (hexByte a b).isSome = true) :
    (a = 0x2B ∨ isHexDigit a = true) ∧ isHexDigit b = true := by
  unfold hexByte at h
  split_ifs at h with hplus
  · exact ⟨Or.inl hplus, h⟩
  · cases ha : hexDigit a with
    | none =>
      rw [ha] at h
      cases h
    | some hi =>
      cases hb : hexDigit b with
      | none =>
        rw [ha, hb] at h
        cases h
      | some lo => exact ⟨Or.inr (by rw [isHexDigit, ha]; rfl), by rw [isHexDigit, hb]; rfl⟩

/-! ### The decoder -/

theorem percentDecodeBytes_cons (h : c ≠ 0x25) (rest : List UInt8) :
    percentDecodeBytes (c :: rest) = (percentDecodeBytes rest).map (unescaped c :: ·) := by
  rw [percentDecodeBytes.eq_def]
  by_cases hplus : c = 0x2B
  · simp [hplus, unescaped]
  · simp [hplus, h, unescaped]

theorem percentDecodeBytes_escape (a b : UInt8) (rest : List UInt8) :
    percentDecodeBytes (0x25 :: a :: b :: rest) =
      (hexByte a b).bind fun byte => (percentDecodeBytes rest).map (byte :: ·) := by
  rw [percentDecodeBytes.eq_def]
  rfl

theorem not_wellFormed_spelled (h : hexByte a b = none) (rest : List UInt8) :
    ¬WellFormed (spelled (0x25 :: a :: b :: rest)) := by
  have hnone : ¬(hexByte a b).isSome = true := by simp [h]
  have hplus : ¬((0x25 : UInt8) = 0x25 ∧ a = 0x2B ∧ isHexDigit b = true) := by
    rintro ⟨-, rfl, hb⟩
    exact hnone (by rw [hexByte_plus hb]; rfl)
  rw [spelled, if_neg hplus, wellFormed_escape]
  rintro ⟨a', b', rest', hsplit, ha, hb, -⟩
  have hfirst : a' = a := by
    have hhead := head_spelled (a :: b :: rest)
    rw [hsplit] at hhead
    exact Option.some.inj hhead
  subst hfirst
  rw [spelled_cons (ne_percent_of_isHexDigit ha)] at hsplit
  have hsecond : b' = b := by
    have hhead := head_spelled (b :: rest)
    rw [(List.cons.inj hsplit).2] at hhead
    exact Option.some.inj hhead
  subst hsecond
  exact hnone (by rw [hexByte_of_isHexDigit ha hb]; rfl)

/-- What is read for an escape is a sign's zero, or a digit, and a digit. -/
theorem spelled_of_hexByte {byte : UInt8} (h : hexByte a b = some byte) :
    ∃ a', isHexDigit a' = true ∧ isHexDigit b = true ∧
      byte = 16 * digitValue a' + digitValue b ∧
      ∀ rest, spelled (0x25 :: a :: b :: rest) = 0x25 :: a' :: b :: spelled rest := by
  obtain ⟨ha, hb⟩ := hexByte_isSome (by rw [h]; rfl)
  rcases ha with rfl | ha
  · rw [hexByte_plus hb] at h
    have hzero : 16 * digitValue 0x30 + digitValue b = digitValue b := by
      have hdigit : digitValue 0x30 = 0 := rfl
      rw [hdigit]
      simp
    exact ⟨0x30, rfl, hb, (Option.some.inj h).symm.trans hzero.symm, spelled_plus hb⟩
  · rw [hexByte_of_isHexDigit ha hb] at h
    exact ⟨a, ha, hb, (Option.some.inj h).symm, spelled_escape ha hb⟩

/-- The decoder reads what is well formed once a sign is spelled as a zero. -/
theorem percentDecodeBytes_eq_some : percentDecodeBytes bytes = some out ↔
    WellFormed (spelled bytes) ∧ decoded (spelled bytes) = out := by
  induction hn : bytes.length using Nat.strong_induction_on generalizing bytes out with
  | _ n ih =>
    match bytes, hn with
    | [], _ =>
      show some [] = some out ↔ WellFormed [] ∧ [] = out
      rw [Option.some.injEq]
      exact ⟨fun h => ⟨wellFormed_nil, h⟩, And.right⟩
    | c :: rest, hn =>
      rw [List.length_cons] at hn
      by_cases hc : c = 0x25
      · subst hc
        match rest, hn with
        | [], _ =>
          refine iff_of_false nofun fun h => ?_
          obtain ⟨_, _, _, hsplit, -⟩ := wellFormed_escape.mp h.1
          cases hsplit
        | [_], _ =>
          refine iff_of_false nofun fun h => ?_
          obtain ⟨_, _, _, hsplit, -⟩ := wellFormed_escape.mp h.1
          cases hsplit
        | a :: b :: rest, hn =>
          rw [List.length_cons, List.length_cons] at hn
          have hrest : ∀ out, percentDecodeBytes rest = some out ↔
              WellFormed (spelled rest) ∧ decoded (spelled rest) = out :=
            fun out => ih rest.length (by omega) rfl
          rw [percentDecodeBytes_escape]
          cases hbyte : hexByte a b with
          | none => exact iff_of_false nofun fun h => not_wellFormed_spelled hbyte rest h.1
          | some byte =>
            obtain ⟨a', ha, hb, rfl, hspelled⟩ := spelled_of_hexByte hbyte
            rw [hspelled, wellFormed_escape, decoded_escape, Option.bind_some,
              Option.map_eq_some_iff]
            constructor
            · rintro ⟨o, ho, rfl⟩
              obtain ⟨hwell, rfl⟩ := (hrest o).mp ho
              exact ⟨⟨a', b, _, rfl, ha, hb, hwell⟩, rfl⟩
            · rintro ⟨⟨_, _, rest', hsplit, -, -, hwell⟩, rfl⟩
              have hsame : spelled rest = rest' :=
                (List.cons.inj (List.cons.inj hsplit).2).2
              exact ⟨_, (hrest _).mpr ⟨hsame ▸ hwell, rfl⟩, rfl⟩
      · have hrest : ∀ out, percentDecodeBytes rest = some out ↔
            WellFormed (spelled rest) ∧ decoded (spelled rest) = out :=
          fun out => ih rest.length (by omega) rfl
        rw [percentDecodeBytes_cons hc, spelled_cons hc, wellFormed_cons hc, decoded_cons hc,
          Option.map_eq_some_iff]
        constructor
        · rintro ⟨o, ho, rfl⟩
          obtain ⟨hwell, rfl⟩ := (hrest o).mp ho
          exact ⟨hwell, rfl⟩
        · rintro ⟨hwell, rfl⟩
          exact ⟨_, (hrest _).mpr ⟨hwell, rfl⟩, rfl⟩

theorem fromUTF8_eq_some {text : String} :
    String.fromUTF8? ⟨bytes.toArray⟩ = some text ↔ IsText bytes text := by
  constructor
  · intro h
    unfold String.fromUTF8? at h
    split_ifs at h with hvalid
    obtain rfl := Option.some.inj h
    simp [IsText, utf8Bytes, String.fromUTF8]
  · rintro rfl
    exact fromUTF8_utf8Bytes text

theorem percentDecode_eq_ok {value text : String} : percentDecode value = .ok text ↔
    WellFormed (spelled (utf8Bytes value)) ∧ IsText (decoded (spelled (utf8Bytes value))) text := by
  have hbind : percentDecode value = .ok text ↔ (percentDecodeBytes (utf8Bytes value)).bind
      (fun out => String.fromUTF8? ⟨out.toArray⟩) = some text := by
    unfold percentDecode
    split
    · next other hother => rw [hother, Except.ok.injEq, Option.some.injEq]
    · next hnone => rw [hnone]; exact iff_of_false nofun nofun
  rw [hbind, Option.bind_eq_some_iff]
  constructor
  · rintro ⟨out, hout, htext⟩
    obtain ⟨hwell, rfl⟩ := percentDecodeBytes_eq_some.mp hout
    exact ⟨hwell, fromUTF8_eq_some.mp htext⟩
  · rintro ⟨hwell, htext⟩
    exact ⟨_, percentDecodeBytes_eq_some.mpr ⟨hwell, rfl⟩, fromUTF8_eq_some.mpr htext⟩

/-- A value without a sign in an escape, or one that is refused even when the sign is spelled. -/
def Unsigned (value : String) : Prop :=
  spelled (utf8Bytes value) = utf8Bytes value ∨
    ¬(WellFormed (spelled (utf8Bytes value)) ∧
      ∃ text, IsText (decoded (spelled (utf8Bytes value))) text)

theorem readsExactly_iff (value : String) : ReadsExactly value ↔ Unsigned value := by
  constructor
  · intro h
    refine or_iff_not_imp_right.mpr fun hread => ?_
    obtain ⟨hwell, text, htext⟩ := not_not.mp hread
    have hok : ∃ text, percentDecode value = .ok text :=
      ⟨text, percentDecode_eq_ok.mpr ⟨hwell, htext⟩⟩
    exact spelled_of_wellFormed (h.accepts.mp hok).1
  · rintro (hsame | hrefused)
    · refine ⟨?_, fun text htext => ?_⟩
      · simp only [percentDecode_eq_ok, hsame, exists_and_left]
      · rw [percentDecode_eq_ok, hsame] at htext
        exact htext.2
    · have hnone : ∀ text, ¬percentDecode value = .ok text := fun text htext =>
        hrefused ((percentDecode_eq_ok.mp htext).imp_right fun h => ⟨text, h⟩)
      refine ⟨iff_of_false (fun ⟨text, htext⟩ => hnone text htext) fun ⟨hwell, htext⟩ => ?_,
        fun text htext => absurd htext (hnone text)⟩
      rw [spelled_of_wellFormed hwell] at hrefused
      exact hrefused ⟨hwell, htext⟩

/-- Values are read exactly but for signs in escapes, and what the URI writes is read back, bytes
that are no text among them. -/
theorem percentDecode_spec (value : String) :
    (ReadsExactly value ↔ Unsigned value) ∧
    (∀ text, percentDecode (percentEncode text) = .ok text) ∧
    ∀ bytes, percentDecodeBytes ((bytes.flatMap encodeByte).map asciiByte) = some bytes :=
  ⟨readsExactly_iff value, percentDecode_percentEncode, percentDecodeBytes_encode⟩

/-- A sign is taken for a digit. -/
theorem not_readsExactly_sign : percentDecode "%+5" = .ok "\x05" ∧ ¬ReadsExactly "%+5" := by
  have hread : percentDecode "%+5" = .ok "\x05" := by decide +kernel
  refine ⟨hread, fun h => ?_⟩
  have hwell := (h.accepts.mp ⟨_, hread⟩).1
  have hsame := spelled_of_wellFormed hwell
  exact absurd hsame (by decide +kernel)

end Kuma.Nostr
