import Mathlib.Data.List.AList

/-! Hash maps as association lists without repeated keys, with `retain`. Iteration order
plays no part in any operation here. -/
namespace Kuma.Lib

abbrev HashMap (K V : Type) := AList (fun _ : K => V)

namespace HashMap

variable {K V : Type}

/-- Keep the entries `p` accepts. -/
def retain (p : K → V → Bool) (m : HashMap K V) : HashMap K V where
  entries := m.entries.filter fun e => p e.1 e.2
  nodupKeys := m.nodupKeys.sublist List.filter_sublist

def values (m : HashMap K V) : List V := m.entries.map fun e => e.2

def size (m : HashMap K V) : ℕ := m.entries.length

variable [DecidableEq K]

theorem lookup_eq_some_iff {m : HashMap K V} {k : K} {v : V} :
    m.lookup k = some v ↔ (⟨k, v⟩ : Sigma fun _ : K => V) ∈ m.entries := by
  rw [← Option.mem_def]
  exact AList.mem_lookup_iff

/-- A key survives a `retain` exactly when the predicate accepts its value. -/
theorem lookup_retain (p : K → V → Bool) (m : HashMap K V) (k : K) :
    (m.retain p).lookup k = (m.lookup k).filter (p k) := by
  ext v
  simp only [lookup_eq_some_iff, Option.filter_eq_some_iff, retain, List.mem_filter]

end HashMap
end Kuma.Lib
