import Kuma.Lib.Run
import Kuma.Nostr.Pool

/-! One relay thread: `one_relay` and the `connect_and_serve` it calls, a step for each call that
the thread makes. What the socket answers is an input, and so are the events the pool queues and
the stop flag, which may come between any two steps. -/
namespace Kuma.Nostr
open Kuma.Lib

/-- Where the thread stands: the call or the test that it makes next. -/
inductive Phase
  | entering
  | connecting
  | configuring
  | subscribing
  | beating
  | draining
  | sending
  | reading
  | ponging
  | pinging
  | failed
  | returned
  deriving DecidableEq

/-- What a read returns. A timeout is the loop's heartbeat; any other error ends the connection. -/
inductive Incoming
  | text
  | ping
  | pong
  | other
  | timeout
  | failed
  deriving DecidableEq

/-- What the socket answers to the next call: whether a connect or a send goes through, and what a
read returns. -/
structure Answer where
  ok : Bool
  incoming : Incoming

/-- How a road probes a quiet wire. -/
structure Timing where
  beatsPerPing : ℕ
  maxUnanswered : ℕ

def Timing.default : Timing := ⟨30, 2⟩

/-- Seconds. -/
def backoffMax : ℕ := 60
def backoffStart : ℕ := 1

/-- `wire` is what the sends that returned `Ok` carried, and `handed` all that the channel took. -/
structure RelayThread (N : Crate) where
  phase : Phase
  stop : Bool
  backoff : ℕ
  queue : List (N.Event × Fan N)
  drained : List N.Event
  beatsSincePing : ℕ
  unanswered : ℕ
  reported : List RelayState
  wire : List N.Event
  handed : List N.Event

/-- What happens next to a thread. -/
inductive Turn (N : Crate)
  | queue (item : N.Event × Fan N)
  | stop
  | thread (answer : Answer)

namespace RelayThread

variable {N : Crate} {s : RelayThread N} {timing : Timing} {answer : Answer} {turn : Turn N}
  {turns : List (Turn N)}

def started : RelayThread N := ⟨.entering, false, backoffStart, [], [], 0, 0, [], [], []⟩

/-- `connect_and_serve` returned an error: the socket and the batch drained for it are gone. -/
def fail (s : RelayThread N) : RelayThread N :=
  { s with phase := .failed, drained := [], reported := s.reported ++ [.disconnected] }

/-- A call whose error ends the connection. -/
def call (s : RelayThread N) (answer : Answer) (next : RelayThread N) : RelayThread N :=
  if answer.ok then next else s.fail

def readFrame (timing : Timing) (s : RelayThread N) : Incoming → RelayThread N
  | .text | .pong | .other => { s with phase := .beating, unanswered := 0 }
  | .ping => { s with phase := .ponging, unanswered := 0 }
  | .timeout =>
    if timing.beatsPerPing ≤ s.beatsSincePing + 1 then
      if timing.maxUnanswered < s.unanswered + 1 then s.fail
      else { s with phase := .pinging, beatsSincePing := 0, unanswered := s.unanswered + 1 }
    else { s with phase := .beating, beatsSincePing := s.beatsSincePing + 1 }
  | .failed => s.fail

/-- The thread's own next step. -/
def advance (timing : Timing) (s : RelayThread N) (answer : Answer) : RelayThread N :=
  match s.phase with
  | .entering => { s with phase := if s.stop then .returned else .connecting }
  | .connecting => s.call answer { s with phase := .configuring }
  | .configuring => s.call answer { s with phase := .subscribing }
  | .subscribing =>
    s.call answer { s with
      phase := .beating, beatsSincePing := 0, unanswered := 0
      reported := s.reported ++ [.connected] }
  | .beating => { s with phase := if s.stop then .returned else .draining, drained := [] }
  | .draining =>
    match s.queue with
    | [] => { s with phase := .sending }
    | (event, _fan) :: queue => { s with queue, drained := s.drained ++ [event] }
  | .sending =>
    match s.drained with
    | [] => { s with phase := .reading }
    | event :: drained => s.call answer { s with drained, wire := s.wire ++ [event] }
  | .reading => s.readFrame timing answer.incoming
  | .ponging | .pinging => s.call answer { s with phase := .beating }
  | .failed =>
    if s.stop then { s with phase := .returned }
    else { s with phase := .entering, backoff := min (s.backoff * 2) backoffMax }
  | .returned => s

/-- A thread that returned has dropped the channel's other end, and takes nothing. -/
def step (timing : Timing) (s : RelayThread N) : Turn N → RelayThread N
  | .queue item =>
    if s.phase = .returned then s
    else { s with queue := s.queue ++ [item], handed := s.handed ++ [item.1] }
  | .stop => { s with stop := true }
  | .thread answer => s.advance timing answer

/-- The events that the turns of a run queue. -/
def queuedIn (turns : List (Turn N)) : List N.Event :=
  turns.filterMap fun
    | .queue item => some item.1
    | _ => none

/-- The send of a drained event returns an error. -/
def refuses (s : RelayThread N) : Turn N → Bool
  | .thread answer => s.phase == .sending && !s.drained.isEmpty && !answer.ok
  | _ => false

/-- All that was handed over is on the wire or waits, in the order it came. -/
def Conserved (s : RelayThread N) : Prop :=
  s.wire ++ s.drained ++ s.queue.map Prod.fst = s.handed

/-- What holds of a thread at any time: a batch is open only while it is drained and sent, and
only the stop flag ends the thread. -/
structure Sound (s : RelayThread N) : Prop where
  batch : s.drained ≠ [] → s.phase = .draining ∨ s.phase = .sending
  returned : s.phase = .returned → s.stop = true

theorem sound_fail (s : RelayThread N) : s.fail.Sound := ⟨fun h => absurd rfl h, nofun⟩

theorem sound_call {next : RelayThread N} (h : next.Sound) : (s.call answer next).Sound := by
  unfold call
  split_ifs
  · exact h
  · exact sound_fail s

/-- Outside the two phases of a batch there is none. -/
theorem Sound.drained_eq_nil (h : s.Sound) (hdraining : s.phase ≠ .draining)
    (hsending : s.phase ≠ .sending) : s.drained = [] := by
  by_contra hbatch
  exact (h.batch hbatch).elim hdraining hsending

theorem sound_of_empty (hbatch : s.drained = []) (hphase : s.phase = .returned → s.stop = true) :
    s.Sound := ⟨fun h => absurd hbatch h, hphase⟩

theorem Sound.readFrame (hbatch : s.drained = []) (incoming : Incoming) :
    (s.readFrame timing incoming).Sound := by
  cases incoming with
  | text | ping | pong | other => exact sound_of_empty hbatch nofun
  | timeout =>
    unfold RelayThread.readFrame
    simp only
    split_ifs
    · exact sound_fail s
    · exact sound_of_empty hbatch nofun
    · exact sound_of_empty hbatch nofun
  | failed => exact sound_fail s

theorem Sound.advance (h : s.Sound) : (s.advance timing answer).Sound := by
  have hidle := h.drained_eq_nil
  unfold RelayThread.advance
  cases hphase : s.phase with
  | entering =>
    refine sound_of_empty (hidle (by simp [hphase]) (by simp [hphase])) fun hreturned => ?_
    by_contra hstop
    simp [hstop] at hreturned
  | connecting | configuring | subscribing | ponging | pinging =>
    exact sound_call (sound_of_empty (hidle (by simp [hphase]) (by simp [hphase])) nofun)
  | beating =>
    refine sound_of_empty rfl fun hreturned => ?_
    by_contra hstop
    simp [hstop] at hreturned
  | draining =>
    simp only
    split
    · exact ⟨fun _ => .inr rfl, nofun⟩
    · exact ⟨fun _ => .inl rfl, nofun⟩
  | sending =>
    simp only
    split
    · next hdrained => exact sound_of_empty hdrained nofun
    · exact sound_call ⟨fun _ => .inr rfl, nofun⟩
  | reading => exact Sound.readFrame (hidle (by simp [hphase]) (by simp [hphase])) _
  | failed =>
    have hbatch := hidle (by simp [hphase]) (by simp [hphase])
    simp only
    split_ifs with hstop
    · exact sound_of_empty hbatch fun _ => hstop
    · exact sound_of_empty hbatch nofun
  | returned => exact h

theorem Sound.step (h : s.Sound) (turn : Turn N) : (s.step timing turn).Sound := by
  cases turn with
  | queue item =>
    unfold RelayThread.step
    simp only
    split_ifs with hreturned
    · exact h
    · exact ⟨h.batch, h.returned⟩
  | stop => exact ⟨h.batch, fun _ => rfl⟩
  | thread answer => exact h.advance

/-- With no batch open an error loses nothing. -/
theorem conserved_fail (hbatch : s.drained = []) : s.fail.Conserved ↔ s.Conserved := by
  unfold Conserved fail
  rw [hbatch]

theorem conserved_call {next : RelayThread N} (hbatch : s.drained = [])
    (hnext : next.Conserved ↔ s.Conserved) : (s.call answer next).Conserved ↔ s.Conserved := by
  unfold call
  split_ifs
  · exact hnext
  · exact conserved_fail hbatch

theorem conserved_readFrame (hbatch : s.drained = []) (incoming : Incoming) :
    (s.readFrame timing incoming).Conserved ↔ s.Conserved := by
  cases incoming with
  | text | ping | pong | other => exact Iff.rfl
  | timeout =>
    unfold readFrame
    simp only
    split_ifs
    · exact conserved_fail hbatch
    · exact Iff.rfl
    · exact Iff.rfl
  | failed => exact conserved_fail hbatch

/-- Outside the two phases of a batch a step moves no event. -/
theorem conserved_advance_idle (hbatch : s.drained = []) (hdraining : s.phase ≠ .draining)
    (hsending : s.phase ≠ .sending) : (s.advance timing answer).Conserved ↔ s.Conserved := by
  unfold advance
  cases hphase : s.phase with
  | connecting | configuring | subscribing | ponging | pinging =>
    exact conserved_call hbatch Iff.rfl
  | reading => exact conserved_readFrame hbatch _
  | draining => exact absurd hphase hdraining
  | sending => exact absurd hphase hsending
  | beating =>
    unfold Conserved
    rw [hbatch]
  | failed =>
    simp only
    split_ifs
    · exact Iff.rfl
    · exact Iff.rfl
  | entering | returned => exact Iff.rfl

theorem conserved_advance_draining (hphase : s.phase = .draining) :
    (s.advance timing answer).Conserved ↔ s.Conserved := by
  unfold advance
  simp only [hphase]
  split
  · exact Iff.rfl
  · next hqueue =>
    unfold Conserved
    simp [hqueue]

/-- A batch loses what is left of it when one of its sends is refused. -/
theorem conserved_advance_sending (hphase : s.phase = .sending) (h : s.Conserved) :
    (s.advance timing answer).Conserved ↔ s.refuses (.thread answer) = false := by
  unfold Conserved at h
  unfold advance refuses
  simp only [hphase, beq_self_eq_true, Bool.true_and]
  cases hdrained : s.drained with
  | nil =>
    rw [hdrained] at h
    simp only [List.isEmpty_nil, Bool.not_true, Bool.false_and, iff_true]
    simpa [Conserved, hdrained] using h
  | cons event drained =>
    rw [hdrained] at h
    simp only [List.isEmpty_cons, Bool.not_false, Bool.true_and, Bool.not_eq_false']
    unfold call
    split_ifs with hok
    · simpa [Conserved, hok] using h
    · simp only [hok, Bool.false_eq_true, iff_false]
      intro hlost
      have hlengths := congrArg List.length (hlost.trans h.symm)
      simp [fail] at hlengths
      omega

/-- A step of the thread loses events exactly when it is the refused send of one. -/
theorem conserved_advance (hsound : s.Sound) (h : s.Conserved) :
    (s.advance timing answer).Conserved ↔ s.refuses (.thread answer) = false := by
  by_cases hsending : s.phase = .sending
  · exact conserved_advance_sending hsending h
  · have hcalm : s.refuses (.thread answer) = false := by simp [refuses, hsending]
    simp only [hcalm, iff_true]
    by_cases hdraining : s.phase = .draining
    · exact (conserved_advance_draining hdraining).mpr h
    · have hbatch := hsound.drained_eq_nil hdraining hsending
      exact (conserved_advance_idle hbatch hdraining hsending).mpr h

theorem advance_stop : (s.advance timing answer).stop = s.stop := by
  unfold advance call readFrame fail
  repeat' split
  all_goals rfl

theorem advance_handed : (s.advance timing answer).handed = s.handed := by
  unfold advance call readFrame fail
  repeat' split
  all_goals rfl

/-- Until the stop flag is set, a step keeps every event in its place exactly when it is not the
refused send of one. -/
theorem conserved_step (hsound : s.Sound) (h : s.stop = false → s.Conserved) (turn : Turn N) :
    ((s.step timing turn).stop = false → (s.step timing turn).Conserved) ↔
      (s.stop = false → s.refuses turn = false) := by
  cases turn with
  | queue item =>
    simp only [refuses, implies_true, iff_true]
    unfold step
    simp only
    split_ifs with hreturned
    · exact h
    · intro hrunning
      have hkept := h hrunning
      unfold Conserved at hkept ⊢
      simp [← hkept]
  | stop => simp [step, refuses]
  | thread answer =>
    change ((s.advance timing answer).stop = false → (s.advance timing answer).Conserved) ↔ _
    rw [advance_stop]
    exact imp_congr_right fun hrunning => conserved_advance hsound (h hrunning)

/-- Until the stop flag is set the channel takes everything. -/
theorem handed_run (hsound : s.Sound) (h : (run (step timing) s turns).stop = false) :
    (run (step timing) s turns).handed = s.handed ++ queuedIn turns ∧ s.stop = false := by
  induction turns generalizing s with
  | nil => exact ⟨(List.append_nil _).symm, h⟩
  | cons turn turns ih =>
    obtain ⟨hrest, hrunning⟩ := ih (hsound.step turn) h
    rw [run_cons, hrest]
    cases turn with
    | queue item =>
      unfold step at hrunning ⊢
      simp only at hrunning ⊢
      split_ifs at hrunning ⊢ with hreturned
      · rw [hsound.returned hreturned] at hrunning
        cases hrunning
      · exact ⟨by simp [queuedIn], hrunning⟩
    | stop => cases hrunning
    | thread answer =>
      change (s.advance timing answer).stop = false at hrunning
      rw [advance_stop] at hrunning
      refine ⟨?_, hrunning⟩
      change (s.advance timing answer).handed ++ _ = _
      rw [advance_handed]
      rfl

/-- Until the stop flag is set, all that was queued is on the wire or waits its turn, in the order
in which it was queued, exactly as long as no send of a queued event returns an error. -/
theorem never_lost_iff (timing : Timing) (turns : List (Turn N)) :
    (∀ pre, pre <+: turns → let s := run (step timing) started pre
      s.stop = false → s.wire ++ s.drained ++ s.queue.map Prod.fst = queuedIn pre) ↔
    Along (step timing) (fun s turn => s.stop = false → s.refuses turn = false) started turns := by
  have hstarted : (started : RelayThread N).Sound := ⟨fun h => absurd rfl h, nofun⟩
  have hsound : Along (step timing) (fun (s : RelayThread N) _ => s.Sound) started turns :=
    along_invariant (P := fun _ _ => True) (fun s turn h _ => h.step turn) hstarted
      fun _ _ => trivial
  have hempty : (started : RelayThread N).Conserved := rfl
  have hkept : Along (step timing) (fun s turn => s.stop = false → s.refuses turn = false)
      started turns ↔ ∀ pre, pre <+: turns → (run (step timing) started pre).stop = false →
        (run (step timing) started pre).Conserved :=
    along_iff_invariant (I := fun s : RelayThread N => s.stop = false → s.Conserved)
      (fun s turn h hs => conserved_step hs h turn) (fun _ => hempty) hsound
  rw [hkept]
  refine forall₂_congr fun pre _ => imp_congr_right fun hrunning => ?_
  rw [Conserved, (handed_run hstarted hrunning).1]
  rfl

/-- A batch of two whose first send is refused: the connection fails, and the thread that goes on
to the next one has neither. -/
theorem batch_is_lost :
    let event (id : String) : (Crate.plain []).Event := ⟨id, "pub", 0, 24133, ["app"], "", true⟩
    let goes : Turn (Crate.plain []) := .thread ⟨true, .timeout⟩
    let turns : List (Turn (Crate.plain [])) :=
      [.queue (event "a", .own), .queue (event "b", .own)] ++ List.replicate 8 goes ++
        [.thread ⟨false, .timeout⟩, goes]
    let s := run (step .default) started turns
    s.stop = false ∧ s.phase = .entering ∧
      s.wire ++ s.drained ++ s.queue.map Prod.fst ≠ queuedIn turns := by
  intro event goes turns s
  refine ⟨rfl, rfl, fun h => ?_⟩
  have hlengths := congrArg List.length h
  revert hlengths
  decide +kernel

end RelayThread
end Kuma.Nostr
