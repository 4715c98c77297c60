import Kuma.Lib.Run
import Kuma.Nostr.Planning

/-! Events that fail verification. The bunker reads an event's fields without verifying it,
so a forged event has effects exactly when it passes the gates before the decryption. -/
namespace Kuma.Nostr.Bunker
open Kuma.Lib Kuma.Nostr

variable {N : Crate}

/-- An event with the moment the worker takes it up. -/
abbrev Arrival (N : Crate) := Env N × N.Event

def planStep (b : Bunker N) (arrival : Arrival N) : Bunker N := (b.plan arrival.1 arrival.2).1

def genuine (arrival : Arrival N) : Bool := N.verify arrival.2

/-- What becomes of the verifying events among the arrivals. -/
def genuinePlans (b : Bunker N) (arrivals : List (Arrival N)) : List (Plan N) :=
  ((visits planStep b arrivals).filter fun visit => genuine visit.2).map fun visit =>
    (visit.1.plan visit.2.1 visit.2.2).2

/-- Only authentic events have effects: a forged one is noise, and deleting the forged ones
changes nobody's plan. -/
structure OnlyGenuineMatters (b : Bunker N) (arrivals : List (Arrival N)) : Prop where
  noise : Along planStep (fun b arrival =>
    genuine arrival = false → b.plan arrival.1 arrival.2 = (b, .ignore)) b arrivals
  deletable : genuinePlans b (arrivals.filter genuine) = genuinePlans b arrivals

/-- The gates before the decryption refuse the event. -/
def Refused (b : Bunker N) (arrival : Arrival N) : Prop :=
  b.addressed arrival.2 = false ∨ b.replay.seenBefore arrival.1.unixNow arrival.2 = true ∨
    b.replay.isPlausible arrival.1.unixNow arrival.2 = false

instance (b : Bunker N) (arrival : Arrival N) : Decidable (Refused b arrival) := by
  unfold Refused
  infer_instance

theorem refused_iff {b : Bunker N} {arrival : Arrival N} :
    Refused b arrival ↔ b.addressed arrival.2 = false ∨
      (b.replay.admit_ arrival.1.unixNow arrival.2).2 = false := by
  simp [Refused, Replay.admit_snd, or_iff_not_imp_left]

/-- An event is noise exactly when those gates refuse it: past them it leaves its mark. -/
theorem plan_eq_ignore_iff {b : Bunker N} {arrival : Arrival N} :
    b.plan arrival.1 arrival.2 = (b, .ignore) ↔ Refused b arrival := by
  rw [refused_iff]
  constructor
  · intro h
    have hplan := plan_planned arrival.1 b arrival.2
    rw [h] at hplan
    generalize hb : (b, Plan.ignore).1 = b' at hplan
    cases hplan with
    | refused gate => exact gate
    | dispatched addressed fresh _ outcome =>
      have hreplay : b.replay = b.replay.mark arrival.1.unixNow arrival.2 :=
        (congrArg Bunker.replay hb).trans outcome.replay
      have hseen := b.replay.seenBefore_mark arrival.1.unixNow arrival.2
      rw [← hreplay] at hseen
      simp [Replay.admit_snd, hseen] at fresh
  · rintro (h | h)
    · simp [plan, h]
    · have hreplay := Replay.admit_refused h
      simp [plan, h, hreplay]

theorem onlyGenuineMatters_iff (b : Bunker N) (arrivals : List (Arrival N)) :
    OnlyGenuineMatters b arrivals ↔
      Along planStep (fun b arrival => genuine arrival = false → Refused b arrival) b arrivals := by
  constructor
  · intro h
    exact h.noise.mono fun b arrival hn hg => plan_eq_ignore_iff.mp (hn hg)
  · intro h
    have hnoise := h.mono fun b arrival hr hg => plan_eq_ignore_iff.mpr (hr hg)
    refine ⟨hnoise, ?_⟩
    have hidle := hnoise.mono (Q := fun b arrival => genuine arrival = false →
      planStep b arrival = b) fun b arrival hn hg => congrArg Prod.fst (hn hg)
    simp [genuinePlans, visits_filter hidle]

private def ping : String × Json × Option Message := Crate.plainRequest "1" .ping "ping" []

/-- Anyone's event under an app's key, with the id of the app's own event on its way. -/
private def forgedPing : Arrival (Crate.plain [ping]) :=
  (.plain [ping] 1000, ⟨"id", "app", 1000, 24133, ["pub-key"], "noise", false⟩)

private def genuinePing : Arrival (Crate.plain [ping]) :=
  (.plain [ping] 1001, ⟨"id", "app", 1001, 24133, ["pub-key"], ping.1, true⟩)

/-- The app's own ping, unanswered because the forgery went before it. -/
theorem not_onlyGenuineMatters_forgedPing :
    ¬ OnlyGenuineMatters (Bunker.new "key" []) [forgedPing, genuinePing] := by
  intro h
  have hspeaks := congrArg (List.map Plan.speaks) h.deletable
  revert hspeaks
  decide +kernel

end Kuma.Nostr.Bunker
