import Mathlib.Order.Lattice
import Mathlib.Data.List.Nodup

/-! Maps by sorted key, as `std::collections::BTreeMap`: they are run through in the order of the
keys, and of several values for one key the last one put there stays. -/
namespace Kuma.Lib

structure SortedMap (K V : Type) [LinearOrder K] where
  entries : List (K × V)
  sorted : entries.Pairwise fun e e' => e.1 < e'.1

namespace SortedMap

variable {K V : Type} [LinearOrder K]

def empty : SortedMap K V := ⟨[], List.Pairwise.nil⟩

def insert (m : SortedMap K V) (k : K) (v : V) : SortedMap K V where
  entries := (m.entries.filter fun e => e.1 < k) ++ (k, v) :: m.entries.filter fun e => k < e.1
  sorted := by
    refine List.pairwise_append.mpr ⟨m.sorted.filter _, ?_, ?_⟩
    · refine List.pairwise_cons.mpr ⟨fun e he => ?_, m.sorted.filter _⟩
      exact of_decide_eq_true (List.mem_filter.mp he).2
    · intro e he e' he'
      have hlt := of_decide_eq_true (List.mem_filter.mp he).2
      rcases List.mem_cons.mp he' with rfl | he'
      · exact hlt
      · exact hlt.trans (of_decide_eq_true (List.mem_filter.mp he').2)

def get (m : SortedMap K V) (k : K) : Option V := (m.entries.find? fun e => e.1 = k).map Prod.snd

def keys (m : SortedMap K V) : List K := m.entries.map Prod.fst

/-- `collect` -/
def ofList (l : List (K × V)) : SortedMap K V := l.foldl (fun m e => m.insert e.1 e.2) empty

variable {m : SortedMap K V} {k k' : K} {v v' : V} {l : List (K × V)}

theorem nodup_keys (m : SortedMap K V) : m.keys.Nodup := by
  unfold keys
  rw [List.Nodup, List.pairwise_map]
  exact m.sorted.imp fun hlt => hlt.ne

theorem eq_of_mem (h : (k, v) ∈ m.entries) (h' : (k, v') ∈ m.entries) : v = v' :=
  (Prod.mk.inj (List.inj_on_of_nodup_map m.nodup_keys h h' rfl)).2

theorem get_eq_some : m.get k = some v ↔ (k, v) ∈ m.entries := by
  unfold get
  rw [Option.map_eq_some_iff]
  constructor
  · rintro ⟨⟨k', v'⟩, hfind, rfl⟩
    have hk : k' = k := by simpa using List.find?_some hfind
    exact hk ▸ List.mem_of_find?_eq_some hfind
  · intro h
    have hsome : (m.entries.find? fun e => e.1 = k).isSome :=
      List.find?_isSome.mpr ⟨(k, v), h, decide_eq_true rfl⟩
    obtain ⟨⟨k', v'⟩, hfind⟩ := Option.isSome_iff_exists.mp hsome
    have hk : k' = k := by simpa using List.find?_some hfind
    subst hk
    exact ⟨(k', v'), hfind, eq_of_mem (List.mem_of_find?_eq_some hfind) h⟩

theorem mem_keys : k ∈ m.keys ↔ ∃ v, m.get k = some v := by
  simp only [keys, List.mem_map, Prod.exists, get_eq_some]
  constructor
  · rintro ⟨k', v, h, rfl⟩
    exact ⟨v, h⟩
  · rintro ⟨v, h⟩
    exact ⟨k, v, h, rfl⟩

@[simp] theorem get_empty (k : K) : (empty : SortedMap K V).get k = none := rfl

theorem get_insert (m : SortedMap K V) (k : K) (v : V) (k' : K) :
    (m.insert k v).get k' = if k' = k then some v else m.get k' := by
  ext w
  rw [get_eq_some]
  split_ifs with hk
  · subst hk
    simp [insert, eq_comm]
  · rw [get_eq_some]
    have hlt : (k', w) ∈ m.entries ∧ (k' < k ∨ k < k') ↔ (k', w) ∈ m.entries :=
      and_iff_left (lt_or_gt_of_ne hk)
    rw [and_or_left] at hlt
    simpa [insert, hk] using hlt

theorem get_foldl (l : List (K × V)) (m : SortedMap K V) (k : K) :
    (l.foldl (fun m e => m.insert e.1 e.2) m).get k =
      (((l.filter fun e => e.1 = k).getLast?).map Prod.snd).or (m.get k) := by
  induction l generalizing m with
  | nil => rfl
  | cons e l ih =>
    rw [List.foldl_cons, ih, get_insert]
    by_cases hk : e.1 = k
    · rw [List.filter_cons_of_pos (by simpa using hk), if_pos hk.symm]
      cases hlast : (l.filter fun e => e.1 = k).getLast? with
      | none =>
        rw [List.getLast?_eq_none_iff] at hlast
        simp [hlast]
      | some e' => simp [List.getLast?_cons, hlast]
    · rw [List.filter_cons_of_neg (by simpa using hk), if_neg (Ne.symm hk)]

/-- The last value for a key is the one that is kept. -/
theorem get_ofList (l : List (K × V)) (k : K) :
    (ofList l).get k = ((l.filter fun e => e.1 = k).getLast?).map Prod.snd := by
  rw [ofList, get_foldl]
  simp

end SortedMap
end Kuma.Lib
