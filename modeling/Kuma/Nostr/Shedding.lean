import Kuma.Lib.Rank
import Kuma.Nostr.Admission

/-! What a full replay map sheds when nothing in it has expired. The entries go by their expiry,
and those of one second go together. -/
namespace Kuma.Nostr
open Kuma.Lib
open Kuma.Lib (HashMap)

variable {K V : Type} {expiry : V → ℕ} {now t : ℕ} {m m' : HashMap K V}

/-- Nothing has expired. -/
def Live (expiry : V → ℕ) (now : ℕ) (m : HashMap K V) : Prop :=
  ∀ e ∈ m.entries, now < expiry e.2

/-- Room is made in order, and not more of it than an eighth. -/
structure Orderly (expiry : V → ℕ) (m m' : HashMap K V) : Prop where
  soonest : ∀ e ∈ m.entries, e ∉ m'.entries → ∀ e' ∈ m'.entries, expiry e.2 ≤ expiry e'.2
  one : m'.size < m.size
  eighth : m.size ≤ m'.size + (m.size + 7) / 8
  kept : 0 < m'.size

/-- By some second exactly one entry more than an eighth, rounded down, expires; and an eighth
has to be rounded. -/
def Uneven (expiry : V → ℕ) (m : HashMap K V) : Prop :=
  ¬8 ∣ m.size ∧ ∃ t, (m.values.map expiry).countP (· ≤ t) = m.size / 8 + 1

theorem length_expiries (expiry : V → ℕ) (m : HashMap K V) :
    (m.values.map expiry).length = m.size := by
  simp [HashMap.values, HashMap.size]

/-- A live map at its bound is cut at one expiry. -/
theorem shed_of_live (hsize : replayCacheMax ≤ m.size) (hlive : Live expiry now m) :
    shed expiry now m = m.retain fun _ v => decide (shedCutoff expiry m < expiry v) := by
  have hretain : (m.retain fun _ v => decide (now < expiry v)) = m := by
    refine AList.ext ?_
    exact List.filter_eq_self.mpr fun e he => decide_eq_true (hlive e he)
  unfold shed
  simp only [hretain, if_neg (Nat.not_lt.mpr hsize)]

theorem size_retain_add (expiry : V → ℕ) (c : ℕ) (m : HashMap K V) :
    (m.retain fun _ v => decide (c < expiry v)).size + (m.values.map expiry).countP (· ≤ c) =
      m.size := by
  have hkept : (m.retain fun _ v => decide (c < expiry v)).size =
      m.entries.countP fun e => decide (c < expiry e.2) :=
    (List.countP_eq_length_filter).symm
  have hshed : (m.values.map expiry).countP (· ≤ c) =
      m.entries.countP fun e => decide ¬decide (c < expiry e.2) = true := by
    rw [HashMap.values, List.map_map, List.countP_map]
    refine List.countP_congr fun e _ => ?_
    simp
  rw [hkept, hshed]
  exact (List.length_eq_countP_add_countP _).symm

/-- The entries at or before the cutoff are more than an eighth. -/
theorem shedCutoff_le_iff (hpos : 0 < m.size) :
    shedCutoff expiry m ≤ t ↔ m.size / 8 < (m.values.map expiry).countP (· ≤ t) := by
  have hlength := length_expiries expiry m
  unfold shedCutoff
  simp only [List.length_mergeSort, hlength]
  exact Rank.getD_mergeSort_le_iff (by omega) 0

/-- The cutoff takes more than an eighth. -/
theorem lt_countP_shedCutoff (expiry : V → ℕ) (hpos : 0 < m.size) :
    m.size / 8 < (m.values.map expiry).countP (· ≤ shedCutoff expiry m) :=
  (shedCutoff_le_iff hpos).mp (le_refl _)

theorem orderly_iff (hsize : replayCacheMax ≤ m.size) (hlive : Live expiry now m) :
    Orderly expiry m (shed expiry now m) ↔ Uneven expiry m := by
  have hmax : replayCacheMax = 5000 := rfl
  have hpos : 0 < m.size := by omega
  have hsplit := size_retain_add expiry (shedCutoff expiry m) m
  have hcut := lt_countP_shedCutoff expiry hpos
  rw [shed_of_live hsize hlive]
  constructor
  · intro h
    have heighth := h.eighth
    refine ⟨?_, shedCutoff expiry m, ?_⟩
    · omega
    · omega
  · rintro ⟨hodd, t, ht⟩
    have hle : shedCutoff expiry m ≤ t := (shedCutoff_le_iff hpos).mpr (by omega)
    have hmono : (m.values.map expiry).countP (· ≤ shedCutoff expiry m) ≤
        (m.values.map expiry).countP (· ≤ t) := by
      refine List.countP_mono_left fun e _ h => ?_
      rw [decide_eq_true_eq] at h ⊢
      exact h.trans hle
    refine ⟨fun e he hgone e' he' => ?_, by omega, by omega, by omega⟩
    have hlate : shedCutoff expiry m < expiry e'.2 :=
      of_decide_eq_true (List.mem_filter.mp he').2
    have hearly : ¬shedCutoff expiry m < expiry e.2 := fun hlt =>
      hgone (List.mem_filter.mpr ⟨he, decide_eq_true hlt⟩)
    omega

/-- A map within its bound has room for one more afterwards. -/
theorem size_shed_lt (expiry : V → ℕ) (now : ℕ) (h : m.size ≤ replayCacheMax) :
    (shed expiry now m).size < replayCacheMax := by
  have hlive : (m.retain fun _ v => decide (now < expiry v)).size ≤ m.size :=
    List.length_filter_le _ _
  unfold shed
  dsimp only
  split_ifs with hfull hroom
  · exact hfull
  · exact hroom
  · have hmax : replayCacheMax = 5000 := rfl
    have hsplit := size_retain_add expiry
      (shedCutoff expiry (m.retain fun _ v => decide (now < expiry v)))
      (m.retain fun _ v => decide (now < expiry v))
    have hpos : 0 < (m.retain fun _ v => decide (now < expiry v)).size := by omega
    have hcut := lt_countP_shedCutoff expiry hpos
    omega

theorem size_insert_le [DecidableEq K] (k : K) (v : V) (m : HashMap K V) :
    HashMap.size (m.insert k v) ≤ m.size + 1 := by
  unfold HashMap.size
  rw [AList.entries_insert, List.length_cons]
  exact Nat.succ_le_succ (List.kerase_sublist k m.entries).length_le

namespace Replay
variable {N : Crate} {r : Replay N}

/-- Both maps hold no more than the bound. -/
def Bounded (r : Replay N) : Prop :=
  r.seen.size ≤ replayCacheMax ∧ r.watermark.size ≤ replayCacheMax

theorem bounded_mark (h : r.Bounded) (now : ℕ) (event : N.Event) : (r.mark now event).Bounded := by
  have hseen := size_shed_lt id now h.1
  have hmark := size_shed_lt Prod.snd now h.2
  have hentry : ∀ entry, HashMap.size ((r.makeRoom now).watermark.insert event.pubkey entry) ≤
      replayCacheMax := fun entry => (size_insert_le _ _ _).trans hmark
  refine ⟨(size_insert_le _ _ _).trans hseen, ?_⟩
  unfold mark
  dsimp only
  split
  · split_ifs
    · exact hmark.le
    · exact hentry _
  · exact hentry _

theorem bounded_admitStep (h : r.Bounded) (delivery : Delivery N) :
    (admitStep r delivery).Bounded := by
  unfold admitStep
  cases hadmit : (r.admit_ delivery.1 delivery.2).2 with
  | false => rwa [admit_refused hadmit]
  | true =>
    rw [admit_admitted hadmit]
    exact bounded_mark h delivery.1 delivery.2

theorem bounded_run (deliveries : List (Delivery N)) (h : r.Bounded) :
    (run admitStep r deliveries).Bounded := by
  have hstep : ∀ (r : Replay N) (delivery : Delivery N), r.Bounded → True →
      (admitStep r delivery).Bounded := fun r delivery hr _ => bounded_admitStep hr delivery
  exact run_invariant hstep h (along_of_forall fun _ _ => trivial)

end Replay

open Replay

/-- Room is made in order exactly where the expiries are uneven, in either map; and no delivery
takes a map past its bound. -/
theorem shedding_iff (N : Crate) :
    (∀ (r : Replay N) (now : ℕ),
      (replayCacheMax ≤ r.seen.size → Live id now r.seen →
        (Orderly id r.seen (r.makeRoom now).seen ↔ Uneven id r.seen)) ∧
      (replayCacheMax ≤ r.watermark.size → Live Prod.snd now r.watermark →
        (Orderly Prod.snd r.watermark (r.makeRoom now).watermark ↔
          Uneven Prod.snd r.watermark))) ∧
    ∀ deliveries : List (Delivery N), (run admitStep Replay.empty deliveries).Bounded :=
  ⟨fun _ _ => ⟨orderly_iff, orderly_iff⟩, fun deliveries => bounded_run deliveries
    ⟨Nat.zero_le _, Nat.zero_le _⟩⟩

/-- Eight divides the bound itself, and of a map that is exactly full one entry too many goes. -/
theorem not_uneven_full (h : m.size = replayCacheMax) : ¬Uneven expiry m := by
  rintro ⟨hodd, -⟩
  rw [h] at hodd
  exact hodd (by decide)

/-- Entries of one second go together: nothing is left. -/
theorem size_shed_same (hsize : replayCacheMax ≤ m.size) (hlive : Live expiry now m)
    (hsame : ∀ expires ∈ m.values.map expiry, expires = t) : (shed expiry now m).size = 0 := by
  have hmax : replayCacheMax = 5000 := rfl
  have hsplit := size_retain_add expiry (shedCutoff expiry m) m
  have hpos : 0 < m.size := by omega
  have hcut := lt_countP_shedCutoff expiry hpos
  have hle : t ≤ shedCutoff expiry m := by
    obtain ⟨expires, hmem, hexpires⟩ := List.countP_pos_iff.mp (Nat.zero_lt_of_lt hcut)
    exact hsame expires hmem ▸ of_decide_eq_true hexpires
  have hall : (m.values.map expiry).countP (· ≤ shedCutoff expiry m) =
      (m.values.map expiry).length :=
    List.countP_eq_length.mpr fun expires hmem => decide_eq_true (hsame expires hmem ▸ hle)
  rw [length_expiries] at hall
  rw [shed_of_live hsize hlive]
  omega

/-- So many ids, each with the expiry of its place. -/
def ids (expires : ℕ → ℕ) (n : ℕ) : HashMap String ℕ where
  entries := (List.range n).map fun i => ⟨String.ofList (List.replicate i '0'), expires i⟩
  nodupKeys := by
    have hkeys : ((List.range n).map fun i => (⟨String.ofList (List.replicate i '0'), expires i⟩ :
        Sigma fun _ : String => ℕ)).keys =
          (List.range n).map fun i => String.ofList (List.replicate i '0') := by
      simp [List.keys]
    rw [List.NodupKeys, hkeys]
    refine List.Nodup.map (fun i j h => ?_) List.nodup_range
    have hlength := congrArg List.length (String.ofList_injective h)
    simpa using hlength

theorem size_ids (expires : ℕ → ℕ) (n : ℕ) : (ids expires n).size = n := by
  simp [ids, HashMap.size]

theorem expiries_ids (expires : ℕ → ℕ) (n : ℕ) :
    (ids expires n).values.map id = (List.range n).map expires := by
  simp [ids, HashMap.values]

theorem live_ids {expires : ℕ → ℕ} (h : ∀ i, now < expires i) (n : ℕ) :
    Live id now (ids expires n) := by
  intro e he
  obtain ⟨i, -, rfl⟩ := List.mem_map.mp he
  exact h i

/-- A flood within one second empties the cache, and a full one in which every second is different
loses one entry too many. -/
theorem not_orderly_full :
    ((shed id 0 (ids (fun _ => dedupTtlSecs) replayCacheMax)).size = 0 ∧
      ¬Orderly id (ids (fun _ => dedupTtlSecs) replayCacheMax)
        (shed id 0 (ids (fun _ => dedupTtlSecs) replayCacheMax))) ∧
    ¬Orderly id (ids (· + 1) replayCacheMax) (shed id 0 (ids (· + 1) replayCacheMax)) := by
  have hflood : Live id 0 (ids (fun _ => dedupTtlSecs) replayCacheMax) :=
    live_ids (fun _ => by decide) _
  have hfull : ∀ expires, replayCacheMax ≤ (ids expires replayCacheMax).size := fun expires =>
    (size_ids expires replayCacheMax).ge
  refine ⟨⟨?_, fun h => ?_⟩, fun h => ?_⟩
  · refine size_shed_same (hfull _) hflood (t := dedupTtlSecs) fun expires hmem => ?_
    rw [expiries_ids] at hmem
    exact (List.mem_map.mp hmem).elim fun _ h => h.2.symm
  · exact not_uneven_full (size_ids _ _) ((orderly_iff (hfull _) hflood).mp h)
  · exact not_uneven_full (size_ids _ _)
      ((orderly_iff (hfull _) (live_ids (fun _ => Nat.succ_pos _) _)).mp h)

/-- With one entry more, and no two of one second, room is made in order. -/
theorem orderly_ladder : Orderly id (ids (· + 1) (replayCacheMax + 1))
    (Replay.makeRoom (⟨ids (· + 1) (replayCacheMax + 1), ∅⟩ : Replay (Crate.plain [])) 0).seen := by
  refine (((shedding_iff (Crate.plain [])).1 ⟨ids (· + 1) (replayCacheMax + 1), ∅⟩ 0).1 ?_ ?_).mpr ?_
  · exact (size_ids _ _).ge.trans' (Nat.le_succ _)
  · exact live_ids (fun _ => Nat.succ_pos _) _
  · have hcount : ∀ n, ((List.range n).map (· + 1)).countP (· ≤ 626) = min n 626 := by
      intro n
      induction n with
      | zero => rfl
      | succ n ih =>
        rw [List.range_succ, List.map_append, List.countP_append, ih, List.map_singleton,
          List.countP_singleton]
        simp only [decide_eq_true_eq]
        split_ifs
        · omega
        · omega
    refine ⟨by rw [size_ids]; decide, 626, ?_⟩
    rw [expiries_ids, hcount, size_ids]
    rfl

end Kuma.Nostr
