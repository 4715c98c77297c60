import Kuma.Nostr.Admission
import Kuma.Nostr.Authentic
import Kuma.Nostr.Steps

/-! One request across the verbs. The dedup entry lives in the bunker, so it keeps a request
from a second answer for as long as that bunker does. -/
namespace Kuma.Nostr.System
open Kuma.Lib

variable {N : Crate} {env : Env N} {s : System N} {a : Action N} {event : N.Event}

/-- Taking up an event sheds no entry for the id. -/
def Retains (event : N.Event) (s : System N) : Action N → Prop
  | .recv env other => ∀ b ∈ s.daemon.bunker, ¬ b.Refused (env, other) →
      (shed id env.unixNow b.replay.seen).lookup event.id = b.replay.seen.lookup event.id
  | .restart _ => False
  | _ => True

/-- The bunker, if one is armed, still holds the event's entry. -/
def Remembers (event : N.Event) (moment : ℕ) (s : System N) : Prop :=
  s.poisoned = false → ∀ b, s.daemon.bunker = some b → b.replay.SeenUntil event.id moment

/-- No verb but an arming touches the replay gates. -/
theorem replay_of_handled {d d' : Daemon N} {request : Request} {response : Response}
    (h : Daemon.Handled env d request d' response) (harm : d.opening env request = none)
    {b' : Bunker N} (hb' : d'.bunker = some b') :
    ∃ b, d.bunker = some b ∧ b'.replay = b.replay := by
  cases h.outlined with
  | kept change reshuffles _ bunker _ =>
    obtain ⟨b, hb, rfl⟩ := Option.map_eq_some_iff.mp (bunker.symm.trans hb')
    exact ⟨b, hb, reshuffles.replay b⟩
  | minted label b vault secret uri armed _ =>
    cases hb'
    exact ⟨b, armed, rfl⟩
  | closed _ _ _ bunker _ => cases bunker.symm.trans hb'
  | armed vault key how _ _ _ _ => cases how.symm.trans harm

/-- Planning another event keeps the entry, within the conditions. -/
theorem plan_remembers {b : Bunker N} {moment : ℕ} {other : N.Event}
    (hb : b.replay.SeenUntil event.id moment)
    (hretains : ¬ b.Refused (env, other) →
      (shed id env.unixNow b.replay.seen).lookup event.id = b.replay.seen.lookup event.id) :
    (b.plan env other).1.replay.SeenUntil event.id moment := by
  obtain ⟨expires, hlook, hle⟩ := hb
  rcases (Bunker.plan_planned env b other).replay with ⟨hkept, -⟩ | ⟨haddressed, hadmit, hmark⟩
  · exact ⟨expires, by rw [hkept, hlook], hle⟩
  · by_cases hid : other.id = event.id
    · -- the same id again: its entry had run out, and the new one runs longer
      have hlate : moment ≤ env.unixNow := Replay.le_of_admitted ⟨expires, hlook, hle⟩ hid hadmit
      refine ⟨_, ?_, hlate.trans (Nat.le_add_right _ dedupTtlSecs)⟩
      rw [hmark, ← hid, Replay.mark_seen_self]
    · refine ⟨expires, ?_, hle⟩
      have hopen : ¬ b.Refused (env, other) := by
        rw [Bunker.refused_iff]
        simp [haddressed, hadmit]
      rw [hmark, Replay.mark_seen_of_ne _ _ (Ne.symm hid), hretains hopen, hlook]

theorem step_remembers {moment : ℕ} (s : System N) (a : Action N) (hs : Remembers event moment s)
    (ha : s.arms a = false ∧ Retains event s a) : Remembers event moment (s.step a) := by
  intro hp' b' hb'
  obtain ⟨harm, hretains⟩ := ha
  have hstep := step_stepped hp'
  generalize s.step a = s' at hstep hb'
  cases hstep with
  | restarted env => exact absurd hretains id
  | answered env verb running called handled =>
    have hopening : s.daemon.opening env verb = none := by simpa [arms, called] using harm
    obtain ⟨b, hb, hreplay⟩ := replay_of_handled handled hopening hb'
    exact hreplay ▸ hs running b hb
  | unchanged running _ => exact hs running b' hb'
  | locked env _ _ => cases hb'
  | planned env other b running _ armed =>
    cases hb'
    exact plan_remembers (hs running b armed) (hretains b armed)
  | beaten env running => exact hs running b' (beat_framed.bunker ▸ hb')

/-- An event that was answered left its entry. -/
theorem remembers_of_planned {p : Plan N} (h : s.planned env event = some p)
    (hspeaks : p.speaks = true) :
    Remembers event (env.unixNow + dedupTtlSecs) (s.step (.recv env event)) := by
  obtain ⟨b, -, -, -, hplan, hstep⟩ := planned_eq_some h
  intro _ b' hb'
  rw [hstep] at hb'
  cases hb'
  rcases (Bunker.plan_planned env b event).replay with
    ⟨-, hignore⟩ | ⟨-, -, hmark⟩
  · rw [← hplan, hignore] at hspeaks
    cases hspeaks
  · exact ⟨_, by rw [hmark, Replay.mark_seen_self], le_rfl⟩

theorem answered_once_per_bunker (s : System N) (env env' : Env N) (event : N.Event)
    (as : List (Action N)) (p p' : Plan N) (hfirst : s.planned env event = some p)
    (hkept : Along step (fun s a => s.arms a = false ∧ Retains event s a)
      (s.step (.recv env event)) as)
    (hsecond : (run step (s.step (.recv env event)) as).planned env' event = some p')
    (hsoon : env'.unixNow < env.unixNow + dedupTtlSecs) :
    ¬ (p.speaks = true ∧ p'.speaks = true) := by
  rintro ⟨hspeaks, hspeaks'⟩
  have hremembers := run_invariant step_remembers (remembers_of_planned hfirst hspeaks) hkept
  obtain ⟨b, -, hp, hb, hplan, -⟩ := planned_eq_some hsecond
  obtain ⟨expires, hlook, hle⟩ := hremembers hp b hb
  have hseen : b.replay.seenBefore env'.unixNow event = true := by
    rw [Replay.seenBefore_of_some rfl hlook]
    exact decide_eq_true (Nat.lt_of_lt_of_le hsoon hle)
  have hignore := Bunker.plan_eq_ignore_iff.mpr
    (.inr (.inl hseen) : b.Refused (env', event))
  rw [← hplan, hignore] at hspeaks'
  cases hspeaks'

private def texts : List (String × Json × Option Message) :=
  [Crate.plainRequest "1" .ping "ping" []]

private def pingEvent : (Crate.plain texts).Event :=
  ⟨"id", "app", 1000, 24133, ["pub-key"], (Crate.plainRequest "1" .ping "ping" []).1, true⟩

/-- A process that set its vault up under a key. -/
private def unlocked : System (Crate.plain texts) :=
  (start ⟨none, [], none, none, 0⟩).step (.verb (.plain texts 990) (.setup (.import_ "key" none)))

theorem answered_once_per_bunker_mint :
    ∃ p p', unlocked.planned (.plain texts 1000) pingEvent = some p ∧
      (run step (unlocked.step (.recv (.plain texts 1000) pingEvent))
        [.beat (.plain texts 1001), .verb (.plain texts 1002) (.mint none)]).planned
          (.plain texts 1003) pingEvent = some p' ∧ ¬ (p.speaks = true ∧ p'.speaks = true) := by
  have hfirst : (unlocked.planned (.plain texts 1000) pingEvent).isSome := by decide +kernel
  have hsecond : ((run step (unlocked.step (.recv (.plain texts 1000) pingEvent))
      [.beat (.plain texts 1001), .verb (.plain texts 1002) (.mint none)]).planned
        (.plain texts 1003) pingEvent).isSome := by decide +kernel
  obtain ⟨p, hp⟩ := Option.isSome_iff_exists.mp hfirst
  obtain ⟨p', hp'⟩ := Option.isSome_iff_exists.mp hsecond
  have hkept : Along step (fun s a => s.arms a = false ∧ Retains pingEvent s a)
      (unlocked.step (.recv (.plain texts 1000) pingEvent))
      [.beat (.plain texts 1001), .verb (.plain texts 1002) (.mint none)] :=
    along_cons.mpr ⟨⟨rfl, trivial⟩, along_cons.mpr ⟨⟨rfl, trivial⟩, along_nil _⟩⟩
  exact ⟨p, p', hp, hp', answered_once_per_bunker unlocked _ _ pingEvent _ p p' hp hkept hp'
    (by decide)⟩

/-- A Rotate between two deliveries a few seconds apart: both are answered. -/
theorem answered_twice_across_rotate :
    (unlocked.planned (.plain texts 1000) pingEvent).any Plan.speaks = true ∧
    ((run step (unlocked.step (.recv (.plain texts 1000) pingEvent))
      [.beat (.plain texts 1001), .verb (.plain texts 1002) .rotate]).planned
        (.plain texts 1003) pingEvent).any Plan.speaks = true := by
  decide +kernel

end Kuma.Nostr.System
