import Kuma.Lib.HashMap
import Kuma.Nostr.Crate
import Mathlib.Data.List.Sort

/-! The replay gates a request passes before any cryptography runs. -/
namespace Kuma.Nostr
open Kuma.Lib (HashMap)

def dedupTtlSecs : ℕ := 600
def freshnessWindowSecs : UInt64 := 600
def futureDriftSecs : ℕ := 120
def watermarkSlackSecs : ℕ := 60
def replayCacheMax : ℕ := 5000

/-- `seen` maps an event id to its expiry, `watermark` a sender to its newest `createdAt`
and that mark's expiry. -/
structure Replay (N : Crate) where
  seen : HashMap String ℕ
  watermark : HashMap N.PublicKey (ℕ × ℕ)

/-- The sum is the `u64` sum, which wraps for a `createdAt` at the end of time. -/
def isFresh (now : ℕ) (createdAt : UInt64) : Bool :=
  !(decide ((createdAt + freshnessWindowSecs).toNat < now) ||
    decide (now + futureDriftSecs < createdAt.toNat))

/-- The expiry at and below which a full map sheds its live entries. -/
def shedCutoff {K V : Type} (expiry : V → ℕ) (m : HashMap K V) : ℕ :=
  let expiries := (m.values.map expiry).mergeSort
  expiries.getD (expiries.length / 8) 0

/-- Room in one map: expired entries first, then the soonest-expiring eighth. -/
def shed {K V : Type} (expiry : V → ℕ) (now : ℕ) (m : HashMap K V) : HashMap K V :=
  if m.size < replayCacheMax then m
  else
    let live := m.retain fun _ v => decide (now < expiry v)
    if live.size < replayCacheMax then live
    else live.retain fun _ v => decide (shedCutoff expiry live < expiry v)

namespace Replay

variable {N : Crate}

def empty : Replay N := ⟨∅, ∅⟩

def seenBefore (r : Replay N) (now : ℕ) (event : N.Event) : Bool :=
  (r.seen.lookup event.id).any fun expires => decide (now < expires)

/-- Backwards in its own sender's time, under a mark that still lives. -/
def travelsBack (r : Replay N) (now : ℕ) (event : N.Event) : Bool :=
  (r.watermark.lookup event.pubkey).any fun (newest, expires) =>
    decide (now < expires) && decide (event.createdAt.toNat + watermarkSlackSecs < newest)

def makeRoom (r : Replay N) (now : ℕ) : Replay N where
  seen := shed id now r.seen
  watermark := shed Prod.snd now r.watermark

/-- The mark an admitted event leaves. A live mark ahead of the event stays. -/
def mark (r : Replay N) (now : ℕ) (event : N.Event) : Replay N :=
  let r := r.makeRoom now
  let entry := (event.createdAt.toNat, now + dedupTtlSecs)
  { seen := r.seen.insert event.id (now + dedupTtlSecs)
    watermark := match r.watermark.lookup event.pubkey with
      | some (newest, expires) =>
        if now < expires ∧ event.createdAt.toNat < newest then r.watermark
        else r.watermark.insert event.pubkey entry
      | none => r.watermark.insert event.pubkey entry }

/-- Whether this is a first, fresh sighting of the event. -/
def admit_ (r : Replay N) (now : ℕ) (event : N.Event) : Replay N × Bool :=
  if r.seenBefore now event then (r, false)
  else if !isFresh now event.createdAt then (r, false)
  else if r.travelsBack now event then (r, false)
  else (r.mark now event, true)

/-- The gates other than the dedup cache. -/
def isPlausible (r : Replay N) (now : ℕ) (event : N.Event) : Bool :=
  isFresh now event.createdAt && !r.travelsBack now event

theorem admit_snd (r : Replay N) (now : ℕ) (event : N.Event) :
    (r.admit_ now event).2 = (!r.seenBefore now event && r.isPlausible now event) := by
  unfold admit_ isPlausible
  cases r.seenBefore now event <;> cases isFresh now event.createdAt <;>
    cases r.travelsBack now event <;> rfl

theorem admit_refused {r : Replay N} {now : ℕ} {event : N.Event}
    (h : (r.admit_ now event).2 = false) : (r.admit_ now event).1 = r := by
  unfold admit_ at h ⊢
  split_ifs at h ⊢
  all_goals rfl

theorem admit_admitted {r : Replay N} {now : ℕ} {event : N.Event}
    (h : (r.admit_ now event).2 = true) : (r.admit_ now event).1 = r.mark now event := by
  unfold admit_ at h ⊢
  split_ifs at h ⊢
  all_goals rfl

theorem mark_seen_self (r : Replay N) (now : ℕ) (event : N.Event) :
    (r.mark now event).seen.lookup event.id = some (now + dedupTtlSecs) :=
  AList.lookup_insert _

theorem seenBefore_of_some {r : Replay N} {now expires : ℕ} {event : N.Event} {i : String}
    (hi : event.id = i) (h : r.seen.lookup i = some expires) :
    r.seenBefore now event = decide (now < expires) := by
  subst hi
  simp [seenBefore, h]

theorem seenBefore_of_none {r : Replay N} {now : ℕ} {event : N.Event} {i : String}
    (hi : event.id = i) (h : r.seen.lookup i = none) : r.seenBefore now event = false := by
  subst hi
  simp [seenBefore, h]

/-- An admitted event is seen from that moment on. -/
theorem seenBefore_mark (r : Replay N) (now : ℕ) (event : N.Event) :
    (r.mark now event).seenBefore now event = true := by
  simp [seenBefore, mark_seen_self, dedupTtlSecs]

theorem mark_seen_of_ne (r : Replay N) (now : ℕ) {event : N.Event} {i : String}
    (h : i ≠ event.id) :
    (r.mark now event).seen.lookup i = (shed id now r.seen).lookup i :=
  AList.lookup_insert_ne h

/-- A fresh event is at most two minutes ahead of the clock and ten minutes behind it,
wrapped sum or not. -/
theorem bounds_of_isFresh {now : ℕ} {createdAt : UInt64} (h : isFresh now createdAt = true) :
    createdAt.toNat ≤ now + 120 ∧ now ≤ createdAt.toNat + 600 := by
  have hc := createdAt.toNat_lt
  have h600 : (600 : UInt64).toNat = 600 := rfl
  simp only [isFresh, Bool.not_eq_true', Bool.or_eq_false_iff, UInt64.toNat_add,
    freshnessWindowSecs, futureDriftSecs, h600] at h
  have hstale := of_decide_eq_false h.1
  have hfuture := of_decide_eq_false h.2
  omega

end Replay
end Kuma.Nostr
