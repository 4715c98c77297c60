import Kuma.Lib.Text
import Mathlib.Data.Int.Notation

/-! JSON values as `serde_json::Value` holds them, and the reads the daemon makes of them.
The parser itself is a third party; whatever it makes of a text is one of these. -/
namespace Kuma.Nostr

/-- `serde_json::Number`: a `u64`, a negative `i64`, or a float kept as its text. -/
inductive Number
  | posInt (n : UInt64)
  | negInt (n : ℤ)
  | float (text : String)

inductive Json
  | null
  | bool (b : Bool)
  | number (n : Number)
  | string (s : String)
  | array (items : List Json)
  | object (fields : List (String × Json))

/-- `Number::as_u64`. -/
def Number.asU64 : Number → Option UInt64
  | .posInt n => some n
  | _ => none

namespace Json

/-- `Value::get` by a key: nothing unless the value is an object that has it. -/
def get? (key : String) : Json → Option Json
  | .object fields => fields.lookup key
  | _ => none

def asStr : Json → Option String
  | .string s => some s
  | _ => none

def asU64 : Json → Option UInt64
  | .number n => n.asU64
  | _ => none

/-- `value[key].as_str()`: a missing key reads as null. -/
def strAt (value : Json) (key : String) : Option String := (value.get? key).bind asStr

/-- `from_value::<Vec<String>>`. -/
def strings : Json → Option (List String)
  | .array items => items.mapM asStr
  | _ => none

/-- `from_value::<Vec<Vec<String>>>`. -/
def stringLists : Json → Option (List (List String))
  | .array items => items.mapM strings
  | _ => none

end Json

/-- `s.parse::<u16>()`. -/
def parseU16 (s : String) : Option UInt16 :=
  (Kuma.Lib.Text.parseUnsigned UInt16.size s.toList).map UInt16.ofNat

/-- `s.parse::<u64>()`. -/
def parseU64 (s : String) : Option UInt64 :=
  (Kuma.Lib.Text.parseUnsigned UInt64.size s.toList).map UInt64.ofNat

/-- What parses as a `u16` parses as a `u64`, to the same number. -/
theorem parseU64_of_parseU16 {s : String} {k : UInt16} (h : parseU16 s = some k) :
    parseU64 s = some k.toUInt64 := by
  obtain ⟨n, hn, rfl⟩ := Option.map_eq_some_iff.mp h
  have hlt : n < 65536 := Kuma.Lib.Text.parseUnsigned_lt hn
  refine Option.map_eq_some_iff.mpr ⟨n, Kuma.Lib.Text.parseUnsigned_mono (by decide) hn, ?_⟩
  apply UInt64.toNat_inj.mp
  rw [UInt16.toNat_toUInt64, UInt64.toNat_ofNat', UInt16.toNat_ofNat']
  omega

end Kuma.Nostr
