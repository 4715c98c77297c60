import Kuma.Nostr.Cards
import Kuma.Nostr.Deciding

/-! The windows of the calls that wait on one card. Each call has its own, but the first to
close takes the card with it, and every other waiter's channel with the card. -/
namespace Kuma.Nostr
open Kuma.Lib

variable {N : Crate}

/-- The answer a verb gives, and to which card. -/
def EngineVerb.answers : EngineVerb → Option (String × Decision)
  | .approve id _ => some (id, .allow)
  | .deny id => some (id, .deny "denied")
  | _ => none

/-- The deadline of a call that waits on a card. -/
def DecidePc.deadlineOn (id : String) : DecidePc → Option ℕ
  | .waiting card _ deadline => if card = id then some deadline else none
  | _ => none

namespace DecidingAction

def answers : DecidingAction N → Option (String × Decision)
  | .verb _ v => v.answers
  | _ => none

/-- The instant of an action; a new call takes none. -/
def instant : DecidingAction N → Option ℕ
  | .call _ _ _ => none
  | .advance env _ => some env.instant
  | .verb env _ => some env.instant

end DecidingAction

/-- What an onlooker notes of one call from its arrival on a card. -/
structure Story where
  /-- the card, and when the call came to wait on it -/
  arrived : Option (String × ℕ)
  /-- when the card was answered, and how -/
  answered : Option (ℕ × Decision)
  /-- when the call gave up waiting -/
  closed : Option ℕ
  /-- what the log got when the card was taken -/
  entry : Option LogEntry
  deriving DecidableEq

def Story.blank : Story := ⟨none, none, none, none⟩

/-- One step of a story: the engine before and after, and where the call stands after. -/
def Story.next (before after : Engine N) (clock : ℕ) (answer : Option (String × Decision))
    (pc : DecidePc) (story : Story) : Story :=
  match story.arrived with
  | none =>
    match pc with
    | .waiting id _ _ => { story with arrived := some (id, clock) }
    | _ => story
  | some (id, _) =>
    let taken := (before.card id).isSome && (after.card id).isNone
    { story with
      answered := if taken then
          (answer.filter fun given => given.1 = id).map fun given => (clock, given.2)
        else story.answered
      closed := match pc with
        | .expired _ => story.closed.or (some clock)
        | _ => story.closed
      entry := if taken then added before.inner.log after.inner.log else story.entry }

/-- The engine under concurrent decisions, the calls' stories, and the last instant seen. -/
structure Timed (N : Crate) where
  deciding : Deciding N
  story : ℕ → Story
  clock : ℕ

namespace Timed

def step (s : Timed N) (a : DecidingAction N) : Timed N :=
  let after := s.deciding.step a
  let clock := a.instant.getD s.clock
  { deciding := after
    story := fun i =>
      match after.calls[i]? with
      | none => s.story i
      | some c => (s.story i).next s.deciding.engine after.engine clock a.answers c.pc
    clock := clock }

def start (stateDir : Option StateDir) : Timed N := ⟨.start stateDir, fun _ => .blank, 0⟩

/-- Watching changes nothing. -/
theorem run_deciding (s : Timed N) (as : List (DecidingAction N)) :
    (run step s as).deciding = run Deciding.step s.deciding as := by
  induction as generalizing s with
  | nil => rfl
  | cons a as ih => exact ih (s.step a)

/-- The clock of `Instant` does not go back. -/
def Timely (s : Timed N) (a : DecidingAction N) : Prop := ∀ t ∈ a.instant, s.clock ≤ t

/-- The card that an action takes back unanswered. -/
def takesBack (s : Timed N) : DecidingAction N → Option String
  | .advance _ i =>
    match (s.deciding.calls[i]?).map DecideCall.pc with
    | some (.expired id) => if (s.deciding.engine.card id).isSome then some id else none
    | _ => none
  | _ => none

/-- Nobody else waits on a card that is taken back, and an answer finds every window of its
card open. -/
def Unshared (s : Timed N) (a : DecidingAction N) : Prop :=
  (∀ id ∈ s.takesBack a, ∀ c ∈ s.deciding.calls, c.pc.deadlineOn id = none) ∧
  ∀ given ∈ a.answers, ∀ t ∈ a.instant, ∀ c ∈ s.deciding.calls,
    ∀ deadline ∈ c.pc.deadlineOn given.1, t < deadline

instance (s : Timed N) (a : DecidingAction N) : Decidable (Timely s a) := by
  unfold Timely
  infer_instance

instance (s : Timed N) (a : DecidingAction N) : Decidable (Unshared s a) := by
  unfold Unshared
  infer_instance

end Timed

/-- The log names the ask of a call. -/
def Story.Covers (story : Story) (c : DecideCall N) : Prop :=
  ∃ entry, story.entry = some entry ∧ entry.app = N.hex c.app ∧
    entry.method = c.method.debug ∧ entry.summary = summarize N c.method c.params

/-- What a call of a card may return: the answer its own window saw, or that the window passed
without one. -/
def Story.Settles (story : Story) (arrival : ℕ) (decision : Decision) : Prop :=
  (∃ t, story.answered = some (t, decision) ∧ t < arrival + promptTtl) ∨
  (decision = .deny "the ask timed out unanswered" ∧
    (∃ t, story.closed = some t ∧ arrival + promptTtl ≤ t) ∧
    ∀ t given, story.answered = some (t, given) → arrival + promptTtl ≤ t)

/-- A call that waits, behind its card or behind its answer. -/
def Waits (e : Engine N) (c : DecideCall N) (story : Story) (id : String)
    (ticket deadline : ℕ) : Prop :=
  (∃ p, e.card id = some p ∧ p.app = c.app ∧ p.method = c.method ∧ p.params = c.params ∧
    ticket ∈ p.responders ∧ e.channels[ticket]? = some ⟨none, true⟩ ∧ story.answered = none) ∨
  (e.card id = none ∧ story.Covers c ∧ ∃ t decision, story.answered = some (t, decision) ∧
    t < deadline ∧ e.channels[ticket]? = some ⟨some decision, true⟩)

/-- Its channel has been made. -/
theorem Waits.ticket_lt {e : Engine N} {c : DecideCall N} {story : Story} {id : String}
    {ticket deadline : ℕ} (h : Waits e c story id ticket deadline) :
    ticket < e.channels.length := by
  rcases h with ⟨p, -, -, -, -, -, hopen, -⟩ | ⟨-, -, t, decision, -, -, hsent⟩
  · exact (List.getElem?_eq_some_iff.mp hopen).1
  · exact (List.getElem?_eq_some_iff.mp hsent).1

/-- A call that gave up waiting, its card still there or already gone. -/
def GaveUp (e : Engine N) (c : DecideCall N) (story : Story) (id : String)
    (deadline : ℕ) : Prop :=
  (∃ t, story.closed = some t ∧ deadline ≤ t) ∧
  ((∃ p, e.card id = some p ∧ p.app = c.app ∧ p.method = c.method ∧ p.params = c.params ∧
    story.answered = none) ∨
  (e.card id = none ∧ story.Covers c ∧
    ∀ t given, story.answered = some (t, given) → deadline ≤ t))

/-- What the story of a call is, by where the call stands. -/
def Told (e : Engine N) (clock : ℕ) (c : DecideCall N) (story : Story) : Prop :=
  match c.pc with
  | .called | .paired | .asking => story = .blank
  | .waiting id ticket deadline => ∃ arrival, story.arrived = some (id, arrival) ∧
    story.closed = none ∧ deadline = arrival + promptTtl ∧ e.Numbered id ∧
    (∀ other p, e.card other = some p → ticket ∈ p.responders → other = id) ∧
    Waits e c story id ticket deadline
  | .expired id => ∃ arrival, story.arrived = some (id, arrival) ∧ e.Numbered id ∧
    GaveUp e c story id (arrival + promptTtl) ∧ ∀ t ∈ story.closed, t ≤ clock
  | .returned decision => story = .blank ∨ ∃ id arrival, story.arrived = some (id, arrival) ∧
    e.Numbered id ∧ e.card id = none ∧ story.Covers c ∧ story.Settles arrival decision
  | .panicked => True

section
variable {e e' : Engine N} {clock clock' arrival : ℕ} {c : DecideCall N} {story : Story}
  {id : String} {answer : Option (String × Decision)} {pc : DecidePc}

theorem Story.next_blank (h : ∀ id ticket deadline, pc ≠ .waiting id ticket deadline) :
    Story.blank.next e e' clock answer pc = .blank := by
  cases pc with
  | waiting id ticket deadline => exact absurd rfl (h id ticket deadline)
  | _ => rfl

/-- While its card is neither laid nor taken, nothing is noted but the end of the wait. -/
theorem Story.next_of_isSome_eq (harrived : story.arrived = some (id, arrival))
    (h : (e'.card id).isSome = (e.card id).isSome) :
    story.next e e' clock answer pc = { story with
      closed := match pc with
        | .expired _ => story.closed.or (some clock)
        | _ => story.closed } := by
  have htaken : ((e.card id).isSome && (e'.card id).isNone) = false := by
    rw [← h]
    cases e'.card id <;> rfl
  simp only [Story.next, harrived, htaken, Bool.false_eq_true, if_false]

/-- The step that takes a card. -/
theorem Story.next_of_taken (harrived : story.arrived = some (id, arrival))
    (h : (e.card id).isSome) (h' : e'.card id = none) (clock : ℕ)
    (answer : Option (String × Decision)) (pc : DecidePc) :
    (story.next e e' clock answer pc).arrived = some (id, arrival) ∧
    (story.next e e' clock answer pc).answered =
      (answer.filter fun given => given.1 = id).map (fun given => (clock, given.2)) ∧
    (story.next e e' clock answer pc).closed = (match pc with
      | .expired _ => story.closed.or (some clock)
      | _ => story.closed) ∧
    (story.next e e' clock answer pc).entry = added e.inner.log e'.inner.log := by
  simp [Story.next, harrived, h, h']

/-- A step that leaves the call's card and its channel alone leaves its story as it is. -/
theorem Told.kept (h : Told e clock c story)
    (hkept : ∀ id arrival, e.Numbered id → story.arrived = some (id, arrival) → e.Kept e' id)
    (hnumbered : ∀ id, e.Numbered id → e'.Numbered id) (hnew : e.CollectsNew e')
    (hclock : clock ≤ clock')
    (hchannel : ∀ id ticket deadline, c.pc = .waiting id ticket deadline →
      e'.channels[ticket]? = e.channels[ticket]?) :
    Told e' clock' c (story.next e e' clock' answer c.pc) := by
  obtain ⟨app, method, params, pc⟩ := c
  cases pc with
  | called =>
    obtain rfl : story = .blank := h
    exact rfl
  | paired =>
    obtain rfl : story = .blank := h
    exact rfl
  | asking =>
    obtain rfl : story = .blank := h
    exact rfl
  | waiting id ticket deadline =>
    obtain ⟨arrival, harrived, hclosed, hdeadline, hid, hown, hwaits⟩ := h
    have hk := hkept id arrival hid harrived
    have hsame := hchannel id ticket deadline rfl
    have hown' : ∀ other p, e'.card other = some p → ticket ∈ p.responders → other = id := by
      intro other p hp ht
      obtain ⟨q, hq, hticket⟩ := hnew other p ticket hp ht hwaits.ticket_lt
      exact hown other q hq hticket
    rw [Story.next_of_isSome_eq harrived hk.isSome]
    refine ⟨arrival, harrived, hclosed, hdeadline, hnumbered id hid, hown', ?_⟩
    rcases hwaits with ⟨p, hp, happ, hmethod, hparams, hticket, hopen, hanswered⟩ |
      ⟨hgone, hcovers, t, decision, hanswered, ht, hsent⟩
    · obtain ⟨p', hp', happ', hmethod', hparams', hmore⟩ := hk.stays p hp
      exact .inl ⟨p', hp', happ'.trans happ, hmethod'.trans hmethod, hparams'.trans hparams,
        hmore ticket hticket, hsame.trans hopen, hanswered⟩
    · exact .inr ⟨hk.gone hgone, hcovers, t, decision, hanswered, ht, hsame.trans hsent⟩
  | expired id =>
    obtain ⟨arrival, harrived, hid, ⟨⟨t, hclosed, ht⟩, hcard⟩, hle⟩ := h
    have hk := hkept id arrival hid harrived
    have hnext : story.next e e' clock' answer (.expired id) = story := by
      rw [Story.next_of_isSome_eq harrived hk.isSome]
      cases story
      simp only at hclosed
      rw [hclosed]
      rfl
    rw [hnext]
    refine ⟨arrival, harrived, hnumbered id hid, ⟨⟨t, hclosed, ht⟩, ?_⟩, ?_⟩
    · rcases hcard with ⟨p, hp, happ, hmethod, hparams, hanswered⟩ | ⟨hgone, hcovers, hlate⟩
      · obtain ⟨p', hp', happ', hmethod', hparams', -⟩ := hk.stays p hp
        exact .inl ⟨p', hp', happ'.trans happ, hmethod'.trans hmethod, hparams'.trans hparams,
          hanswered⟩
      · exact .inr ⟨hk.gone hgone, hcovers, hlate⟩
    · intro t' ht'
      exact (hle t' ht').trans hclock
  | returned decision =>
    rcases h with rfl | ⟨id, arrival, harrived, hid, hgone, hcovers, hsettles⟩
    · exact .inl rfl
    · have hk := hkept id arrival hid harrived
      rw [Story.next_of_isSome_eq harrived hk.isSome]
      exact .inr ⟨id, arrival, harrived, hnumbered id hid, hk.gone hgone, hcovers, hsettles⟩
  | panicked => trivial

/-- The calls, when the queue is left alone. -/
theorem Told.aside (h : Told e clock c story) (haside : e.Aside e') (hclock : clock ≤ clock') :
    Told e' clock' c (story.next e e' clock' answer c.pc) := by
  refine h.kept (fun id _ _ _ => Engine.kept_of_card_eq (haside.card id)) ?_
    (Engine.collectsNew_of_fewer fun id p hp => (haside.card id).symm.trans hp) hclock ?_
  · rintro id ⟨now, n, hid, hn⟩
    exact ⟨now, n, hid, haside.nextId.symm ▸ hn⟩
  · intro id ticket deadline _
    rw [haside.channels]

/-- The step that takes a card leaves a word in the log for everyone who came to it, and its
answer, if it is one, with everyone who still waits. -/
theorem Told.taken (h : Told e clock c story) {p : Prompt N} {at_ : ℕ} {verdict : String}
    (hp : e.card id = some p) (hself : e'.card id = none)
    (hrest : ∀ other, other ≠ id → e'.card other = e.card other)
    (hnext : e'.inner.nextId = e.inner.nextId) (hclock : clock ≤ clock')
    (hadded : added e.inner.log e'.inner.log = some ⟨at_, N.hex p.app, p.method.debug,
      summarize N p.method p.params, verdict⟩)
    (hchannel : ∀ other ticket deadline, c.pc = .waiting other ticket deadline → other ≠ id →
      e'.channels[ticket]? = e.channels[ticket]?)
    (hanswer : ∀ ticket deadline, c.pc = .waiting id ticket deadline → ticket ∈ p.responders →
      e.channels[ticket]? = some ⟨none, true⟩ → ∃ decision, answer = some (id, decision) ∧
        clock' < deadline ∧ e'.channels[ticket]? = some ⟨some decision, true⟩) :
    Told e' clock' c (story.next e e' clock' answer c.pc) := by
  have hnumbered : ∀ other, e.Numbered other → e'.Numbered other := by
    rintro other ⟨now, n, hother, hn⟩
    exact ⟨now, n, hother, hnext.symm ▸ hn⟩
  have hfewer : ∀ other q, e'.card other = some q → e.card other = some q := by
    intro other q hq
    by_cases hne : other = id
    · rw [hne, hself] at hq
      cases hq
    · rwa [hrest other hne] at hq
  by_cases hother : ∀ arrival, story.arrived ≠ some (id, arrival)
  · -- a call of another card, or of none yet
    refine h.kept ?_ hnumbered (Engine.collectsNew_of_fewer hfewer) hclock ?_
    · intro other arrival _ harrived
      have hne : other ≠ id := by
        rintro rfl
        exact hother arrival harrived
      exact Engine.kept_of_card_eq (hrest other hne)
    · intro other ticket deadline hpc
      refine hchannel other ticket deadline hpc ?_
      rintro rfl
      unfold Told at h
      rw [hpc] at h
      obtain ⟨arrival, harrived, -⟩ := h
      exact hother arrival harrived
  · obtain ⟨arrival, harrived⟩ : ∃ arrival, story.arrived = some (id, arrival) := by
      simpa using hother
    have hstory : story ≠ .blank := by
      rintro rfl
      cases harrived
    have hsome : (e.card id).isSome := by
      rw [hp]
      rfl
    obtain ⟨app, method, params, pc⟩ := c
    obtain ⟨h₁, h₂, h₃, h₄⟩ := Story.next_of_taken harrived hsome hself clock' answer pc
    have hcovers : ∀ q, e.card id = some q → q.app = app → q.method = method →
        q.params = params →
          (story.next e e' clock' answer pc).Covers ⟨app, method, params, pc⟩ := by
      rintro q hq rfl rfl rfl
      obtain rfl : p = q := by
        rw [hp] at hq
        exact Option.some.inj hq
      exact ⟨_, h₄.trans hadded, rfl, rfl, rfl⟩
    cases pc with
    | called => exact absurd h hstory
    | paired => exact absurd h hstory
    | asking => exact absurd h hstory
    | waiting id' ticket deadline =>
      obtain ⟨arrival', harrived', hclosed, hdeadline, hid, hown, hwaits⟩ := h
      obtain ⟨rfl, rfl⟩ : id' = id ∧ arrival' = arrival := by
        rw [harrived] at harrived'
        cases harrived'
        exact ⟨rfl, rfl⟩
      rcases hwaits with ⟨q, hq, happ, hmethod, hparams, hticket, hopen, -⟩ | ⟨hgone, -⟩
      · obtain rfl : p = q := by
          rw [hp] at hq
          exact Option.some.inj hq
        obtain ⟨decision, rfl, hlt, hsent⟩ := hanswer ticket deadline rfl hticket hopen
        refine ⟨arrival', h₁, h₃.trans hclosed, hdeadline, hnumbered id' hid,
          fun other q hq => hown other q (hfewer other q hq),
          .inr ⟨hself, hcovers p hp happ hmethod hparams, clock', decision, ?_, hlt, hsent⟩⟩
        simp [h₂]
      · rw [hp] at hgone
        cases hgone
    | expired id' =>
      obtain ⟨arrival', harrived', hid, ⟨⟨t, hclosed, ht⟩, hcard⟩, hle⟩ := h
      obtain ⟨rfl, rfl⟩ : id' = id ∧ arrival' = arrival := by
        rw [harrived] at harrived'
        cases harrived'
        exact ⟨rfl, rfl⟩
      have hstill : (story.next e e' clock' answer (.expired id')).closed = some t := by
        rw [h₃, hclosed]
        rfl
      have htclock := hle t hclosed
      rcases hcard with ⟨q, hq, happ, hmethod, hparams, -⟩ | ⟨hgone, -⟩
      · refine ⟨arrival', h₁, hnumbered id' hid, ⟨⟨t, hstill, ht⟩,
          .inr ⟨hself, hcovers q hq happ hmethod hparams, ?_⟩⟩, ?_⟩
        · -- an answer after the window closed comes after the deadline
          intro t' given hgiven
          rw [h₂] at hgiven
          obtain ⟨given', -, hgiven⟩ := Option.map_eq_some_iff.mp hgiven
          cases hgiven
          omega
        · intro t' ht'
          rw [hstill] at ht'
          cases ht'
          omega
      · rw [hp] at hgone
        cases hgone
    | returned decision =>
      rcases h with rfl | ⟨id', arrival', harrived', -, hgone, -⟩
      · exact absurd rfl hstory
      · obtain rfl : id' = id := by
          rw [harrived] at harrived'
          cases harrived'
          rfl
        rw [hp] at hgone
        cases hgone
    | panicked => trivial

theorem told_blank (h : ∀ id ticket deadline, c.pc ≠ .waiting id ticket deadline)
    (h' : ∀ id, c.pc ≠ .expired id) : Told e clock c .blank := by
  obtain ⟨app, method, params, pc⟩ := c
  cases pc with
  | waiting id ticket deadline => exact absurd rfl (h id ticket deadline)
  | expired id => exact absurd rfl (h' id)
  | returned decision => exact .inl rfl
  | panicked => trivial
  | _ => exact rfl

end

/-- A verb that answers no card leaves the cards alone. -/
theorem EngineVerb.call_aside {env : Env N} {e e' : Engine N} {verb : EngineVerb}
    (h : verb.call env e = some e') (hanswers : verb.answers = none) : e.Aside e' := by
  cases verb with
  | revoke app =>
    obtain ⟨result, hr, rfl⟩ := Option.map_eq_some_iff.mp h
    exact Engine.aside_revoke hr
  | delete app =>
    obtain ⟨result, hr, rfl⟩ := Option.map_eq_some_iff.mp h
    exact Engine.aside_remove hr
  | logout app =>
    obtain ⟨result, hr, rfl⟩ := Option.map_eq_some_iff.mp h
    exact Engine.aside_remove hr
  | rename app name =>
    obtain ⟨result, hr, rfl⟩ := Option.map_eq_some_iff.mp h
    exact Engine.aside_rename hr
  | setLevel app level =>
    obtain ⟨result, hr, rfl⟩ := Option.map_eq_some_iff.mp h
    exact Engine.aside_setLevel hr
  | approve id remember => cases hanswers
  | deny id => cases hanswers

namespace Timed

/-- What holds along a run in which no window closes over another. -/
structure Windows (s : Timed N) : Prop where
  filed : s.deciding.engine.Filed
  blank : ∀ i, s.deciding.calls[i]? = none → s.story i = .blank
  told : ∀ i c, s.deciding.calls[i]? = some c → Told s.deciding.engine s.clock c (s.story i)
  /-- a channel is one call's -/
  single : ∀ (i j : ℕ) (c c' : DecideCall N) (id id' : String) (ticket d d' : ℕ),
    s.deciding.calls[i]? = some c → s.deciding.calls[j]? = some c' →
    c.pc = .waiting id ticket d → c'.pc = .waiting id' ticket d' → i = j

/-- A waiting call's channel has been made. -/
theorem Windows.ticket_lt {s : Timed N} (hs : Windows s) {i : ℕ} {c : DecideCall N} {id : String}
    {ticket deadline : ℕ} (hi : s.deciding.calls[i]? = some c)
    (hpc : c.pc = .waiting id ticket deadline) : ticket < s.deciding.engine.channels.length := by
  have htold := hs.told i c hi
  unfold Told at htold
  rw [hpc] at htold
  obtain ⟨arrival, -, -, -, -, -, hwaits⟩ := htold
  exact hwaits.ticket_lt

theorem getElem?_calls_advance {s : Deciding N} {env : Env N} {i : ℕ} {c : DecideCall N}
    (hi : s.calls[i]? = some c) {e' : Engine N} {pc' : DecidePc}
    (hadvance : s.engine.advance env c.app c.method c.params c.pc = (e', pc')) (j : ℕ) :
    (s.step (.advance env i)).calls[j]? =
      if j = i then some { c with pc := pc' } else s.calls[j]? := by
  have hlt : i < s.calls.length := (List.getElem?_eq_some_iff.mp hi).1
  simp only [Deciding.step, hi, hadvance]
  by_cases hj : j = i
  · rw [hj, if_pos rfl, List.getElem?_set_self hlt]
  · rw [if_neg hj, List.getElem?_set_ne (Ne.symm hj)]

/-- A step of one call keeps the windows when it keeps its own story and everyone else's. -/
theorem windows_advance {s : Timed N} (hs : Windows s) {env : Env N} {i : ℕ} {c : DecideCall N}
    (hi : s.deciding.calls[i]? = some c) {e' : Engine N} {pc' : DecidePc}
    (hadvance : s.deciding.engine.advance env c.app c.method c.params c.pc = (e', pc'))
    (hfiled : e'.Filed)
    (hself : Told e' env.instant { c with pc := pc' }
      ((s.story i).next s.deciding.engine e' env.instant none pc'))
    (hothers : ∀ j c', j ≠ i → s.deciding.calls[j]? = some c' → Told e' env.instant c'
      ((s.story j).next s.deciding.engine e' env.instant none c'.pc))
    (hsingle : ∀ id ticket d, pc' = .waiting id ticket d → ∀ j c' id' d', j ≠ i →
      s.deciding.calls[j]? = some c' → c'.pc ≠ .waiting id' ticket d') :
    Windows (s.step (.advance env i)) := by
  have hcalls := getElem?_calls_advance hi hadvance
  have hengine : (s.deciding.step (.advance env i)).engine = e' := by
    simp only [Deciding.step, hi, hadvance]
  constructor
  · exact hengine ▸ hfiled
  · intro j hj
    have hcall := hcalls j
    change (s.deciding.step (.advance env i)).calls[j]? = none at hj
    simp only [step, hj]
    rw [hj] at hcall
    split_ifs at hcall with hji
    exact hs.blank j hcall.symm
  · intro j c' hj
    have hcall := hcalls j
    change (s.deciding.step (.advance env i)).calls[j]? = some c' at hj
    simp only [step, hj, hengine]
    rw [hj] at hcall
    split_ifs at hcall with hji
    · obtain rfl := Option.some.inj hcall
      rw [hji]
      exact hself
    · exact hothers j c' hji hcall.symm
  · intro j k c₁ c₂ id id' ticket d d' hj hk hpc hpc'
    have hcallj := hcalls j
    have hcallk := hcalls k
    change (s.deciding.step (.advance env i)).calls[j]? = some c₁ at hj
    change (s.deciding.step (.advance env i)).calls[k]? = some c₂ at hk
    rw [hj] at hcallj
    rw [hk] at hcallk
    split_ifs at hcallj with hji
    · split_ifs at hcallk with hki
      · rw [hji, hki]
      · obtain rfl := Option.some.inj hcallj
        exact absurd hpc' (hsingle id ticket d hpc k c₂ id' d' hki hcallk.symm)
    · split_ifs at hcallk with hki
      · obtain rfl := Option.some.inj hcallk
        exact absurd hpc (hsingle id' ticket d' hpc' j c₁ id d hji hcallj.symm)
      · exact hs.single j k c₁ c₂ id id' ticket d d' hcallj.symm hcallk.symm hpc hpc'

theorem windows_advance_aside {s : Timed N} (hs : Windows s) {env : Env N} {i : ℕ}
    {c : DecideCall N} (hi : s.deciding.calls[i]? = some c) (hclock : s.clock ≤ env.instant)
    {e' : Engine N} {pc' : DecidePc}
    (hadvance : s.deciding.engine.advance env c.app c.method c.params c.pc = (e', pc'))
    (haside : s.deciding.engine.Aside e')
    (hself : Told e' env.instant { c with pc := pc' }
      ((s.story i).next s.deciding.engine e' env.instant none pc'))
    (hwaits : ∀ id ticket d, pc' = .waiting id ticket d → c.pc = .waiting id ticket d) :
    Windows (s.step (.advance env i)) := by
  refine windows_advance hs hi hadvance (haside.filed hs.filed) hself ?_ ?_
  · intro j c' _ hj
    exact (hs.told j c' hj).aside haside hclock
  · intro id ticket d hpc' j c' id' d' hji hj hpc
    exact hji (hs.single j i c' c id' id ticket d' d hj hi hpc (hwaits id ticket d hpc'))

/-- The sections before the ask. -/
theorem windows_unasked {s : Timed N} (hs : Windows s) {env : Env N} {i : ℕ}
    {c : DecideCall N} (hi : s.deciding.calls[i]? = some c) (hclock : s.clock ≤ env.instant)
    {e' : Engine N} {pc' : DecidePc}
    (hadvance : s.deciding.engine.advance env c.app c.method c.params c.pc = (e', pc'))
    (haside : s.deciding.engine.Aside e') (hblank : s.story i = .blank)
    (hwaiting : ∀ id ticket d, pc' ≠ .waiting id ticket d) (hexpired : ∀ id, pc' ≠ .expired id) :
    Windows (s.step (.advance env i)) := by
  refine windows_advance_aside hs hi hclock hadvance haside ?_ ?_
  · rw [hblank, Story.next_blank hwaiting]
    exact told_blank hwaiting hexpired
  · intro id ticket d hpc'
    exact absurd hpc' (hwaiting id ticket d)

/-- A section that finds the lock poisoned, or nothing left to do. -/
theorem windows_panicked {s : Timed N} (hs : Windows s) {env : Env N} {i : ℕ}
    {c : DecideCall N} (hi : s.deciding.calls[i]? = some c) (hclock : s.clock ≤ env.instant)
    (hadvance : s.deciding.engine.advance env c.app c.method c.params c.pc =
      (s.deciding.engine, .panicked)) :
    Windows (s.step (.advance env i)) := by
  refine windows_advance_aside hs hi hclock hadvance (.refl _) trivial ?_
  intro id ticket d hpc'
  cases hpc'

theorem windows_same {s : Timed N} (hs : Windows s) {env : Env N} {i : ℕ}
    {c : DecideCall N} (hi : s.deciding.calls[i]? = some c) (hclock : s.clock ≤ env.instant)
    (hadvance : s.deciding.engine.advance env c.app c.method c.params c.pc =
      (s.deciding.engine, c.pc)) :
    Windows (s.step (.advance env i)) := by
  refine windows_advance_aside hs hi hclock hadvance (.refl _) ?_ ?_
  · exact (hs.told i c hi).aside (.refl _) hclock
  · intro id ticket d hpc'
    exact hpc'

/-- The ask: a card, and a channel that nobody else has. -/
theorem windows_asking {s : Timed N} (hs : Windows s) {env : Env N} {i : ℕ}
    {c : DecideCall N} (hi : s.deciding.calls[i]? = some c) (hclock : s.clock ≤ env.instant)
    (hpc : c.pc = .asking) : Windows (s.step (.advance env i)) := by
  have hblank : s.story i = .blank := by
    have htold := hs.told i c hi
    unfold Told at htold
    rwa [hpc] at htold
  cases hpoisoned : s.deciding.engine.poisoned with
  | true =>
    refine windows_panicked hs hi hclock ?_
    simp [Engine.advance, hpc, hpoisoned]
  | false =>
    obtain ⟨id, p, hwaiting, hchannels, hcard, happ, hmethod, hparams, hticket, hfiled, hnext,
      hnew, hkept⟩ := Engine.register_spec hs.filed env c.app c.method c.params
    have hadvance : s.deciding.engine.advance env c.app c.method c.params c.pc =
        s.deciding.engine.register env c.app c.method c.params := by
      simp [Engine.advance, hpc, hpoisoned]
    generalize s.deciding.engine.register env c.app c.method c.params = laid at *
    obtain ⟨e', pc'⟩ := laid
    simp only at hwaiting hchannels hcard hfiled hnext hnew hkept
    subst hwaiting
    have hold : ∀ ticket : ℕ, ticket < s.deciding.engine.channels.length →
        e'.channels[ticket]? = s.deciding.engine.channels[ticket]? := by
      intro ticket hlt
      rw [hchannels, List.getElem?_append_left hlt]
    refine windows_advance hs hi hadvance hfiled ?_ ?_ ?_
    · rw [hblank]
      refine ⟨env.instant, rfl, rfl, rfl, hfiled.numbered id p hcard,
        fun other q hq ht => hfiled.apart other id q p hq hcard _ ht hticket,
        .inl ⟨p, hcard, happ, hmethod, hparams, hticket, ?_, rfl⟩⟩
      rw [hchannels, List.getElem?_append_right le_rfl, Nat.sub_self]
      rfl
    · intro j c' _ hj
      refine (hs.told j c' hj).kept (fun id _ hid _ => hkept id hid) ?_ hnew hclock ?_
      · rintro other ⟨now, n, hother, hn⟩
        exact ⟨now, n, hother, hn.trans hnext⟩
      · intro id' ticket deadline hpc'
        exact hold ticket (hs.ticket_lt hj hpc')
    · intro id' ticket d hpc' j c' id'' d' _ hj hwaits
      cases hpc'
      exact absurd (hs.ticket_lt hj hwaits) (Nat.lt_irrefl _)

/-- The sending half of a channel lives while the card that collected it does. -/
theorem senderAlive_of_card {e : Engine N} {id : String} {p : Prompt N} {ticket : ℕ}
    (h : e.card id = some p) (ht : ticket ∈ p.responders) : e.senderAlive ticket = true := by
  refine List.any_eq_true.mpr ⟨(id, p), Register.mem_of_lookup h, ?_⟩
  simpa using ht

/-- The wait: the answer is there, or the window is over, or neither yet. -/
theorem windows_waiting {s : Timed N} (hs : Windows s) {env : Env N} {i : ℕ}
    {c : DecideCall N} (hi : s.deciding.calls[i]? = some c) (hclock : s.clock ≤ env.instant)
    {id : String} {ticket deadline : ℕ} (hpc : c.pc = .waiting id ticket deadline) :
    Windows (s.step (.advance env i)) := by
  have htold := hs.told i c hi
  unfold Told at htold
  rw [hpc] at htold
  obtain ⟨arrival, harrived, hclosed, rfl, hid, -, hwaits⟩ := htold
  have hadvance : s.deciding.engine.advance env c.app c.method c.params c.pc =
      s.deciding.engine.wait env id ticket (arrival + promptTtl) := by
    rw [hpc]
    rfl
  rcases hwaits with ⟨p, hcard, happ, hmethod, hparams, hticket, hopen, hanswered⟩ |
    ⟨hgone, hcovers, t, decision, hanswered, ht, hsent⟩
  · have halive := senderAlive_of_card hcard hticket
    by_cases hover : arrival + promptTtl ≤ env.instant
    · -- the window closes: the channel with it, the card not yet
      have hclose : s.deciding.engine.wait env id ticket (arrival + promptTtl) =
          (s.deciding.engine.closing ticket, .expired id) := by
        simp [Engine.wait, Engine.closing, hopen, halive, hover]
      have hcards : ∀ other, (s.deciding.engine.closing ticket).card other =
          s.deciding.engine.card other := fun _ => rfl
      have hfiled : (s.deciding.engine.closing ticket).Filed :=
        hs.filed.fewer hs.filed.distinct (fun other q hq => hq) List.length_set rfl
      refine windows_advance hs hi (hadvance.trans hclose) hfiled ?_ ?_ ?_
      · rw [Story.next_of_isSome_eq harrived (congrArg Option.isSome (hcards id))]
        refine ⟨arrival, harrived, hid, ⟨⟨env.instant, by simp [hclosed], hover⟩,
          .inl ⟨p, hcard, happ, hmethod, hparams, hanswered⟩⟩, ?_⟩
        intro t ht
        simp only [hclosed, Option.none_or, Option.mem_def, Option.some.injEq] at ht
        exact ht.symm.le
      · intro j c' hji hj
        refine (hs.told j c' hj).kept (fun other _ _ _ => Engine.kept_of_card_eq (hcards other))
          (fun _ hother => hother)
          (Engine.collectsNew_of_fewer fun other q hq => (hcards other).symm.trans hq) hclock ?_
        intro id' ticket' d' hpc'
        have hne : ticket ≠ ticket' := by
          rintro rfl
          exact hji (hs.single j i c' c id' id ticket d' _ hj hi hpc' hpc)
        exact List.getElem?_set_ne hne
      · intro id' ticket' d' hpc'
        cases hpc'
    · have hstay : s.deciding.engine.wait env id ticket (arrival + promptTtl) =
          (s.deciding.engine, c.pc) := by
        simp [Engine.wait, hopen, halive, hover, hpc]
      exact windows_same hs hi hclock (hadvance.trans hstay)
  · have hreturn : s.deciding.engine.wait env id ticket (arrival + promptTtl) =
        (s.deciding.engine, .returned decision) := by
      simp [Engine.wait, hsent]
    refine windows_advance_aside hs hi hclock (hadvance.trans hreturn) (.refl _) ?_ ?_
    · rw [Story.next_of_isSome_eq harrived rfl]
      exact .inr ⟨id, arrival, harrived, hid, hgone, hcovers, .inl ⟨t, hanswered, ht⟩⟩
    · intro id' ticket' d' hpc'
      cases hpc'

/-- The end of a wait: the card is taken back with nobody else on it, or was gone. -/
theorem windows_expired {s : Timed N} (hs : Windows s) {env : Env N} {i : ℕ}
    {c : DecideCall N} (hi : s.deciding.calls[i]? = some c) (hclock : s.clock ≤ env.instant)
    {id : String} (hpc : c.pc = .expired id) (hunshared : Unshared s (.advance env i)) :
    Windows (s.step (.advance env i)) := by
  have htold := hs.told i c hi
  unfold Told at htold
  rw [hpc] at htold
  obtain ⟨arrival, harrived, hid, ⟨hclosed, hcard⟩, hle⟩ := htold
  cases hpoisoned : s.deciding.engine.poisoned with
  | true =>
    refine windows_panicked hs hi hclock ?_
    simp [Engine.advance, hpc, hpoisoned]
  | false =>
    have hadvance : s.deciding.engine.advance env c.app c.method c.params c.pc =
        s.deciding.engine.expire env c.app c.method c.params id := by
      simp [Engine.advance, hpc, hpoisoned]
    rcases hcard with ⟨p, hp, happ, hmethod, hparams, hanswered⟩ | ⟨hgone, hcovers, hlate⟩
    · have hpcs : (s.deciding.engine.expire env c.app c.method c.params id).2 =
          .returned (.deny "the ask timed out unanswered") := by
        unfold Engine.expire
        split <;> rfl
      obtain ⟨hself, hrest, hchannels, hnext, hfiled, hadded⟩ :=
        Engine.expire_spec hs.filed hp env c.app c.method c.params
      generalize s.deciding.engine.expire env c.app c.method c.params id = taken at *
      obtain ⟨e', pc'⟩ := taken
      simp only at hpcs hself hrest hchannels hnext hfiled hadded
      subst hpcs
      have halone : ∀ c' ∈ s.deciding.calls, c'.pc.deadlineOn id = none := by
        refine hunshared.1 id ?_
        simp [takesBack, hi, hpc, hp]
      have hnumbered : ∀ other, s.deciding.engine.Numbered other → e'.Numbered other := by
        rintro other ⟨now, n, hother, hn⟩
        exact ⟨now, n, hother, hnext.symm ▸ hn⟩
      refine windows_advance hs hi hadvance hfiled ?_ ?_ ?_
      · obtain ⟨h₁, h₂, h₃, h₄⟩ := Story.next_of_taken harrived
          (Option.isSome_of_eq_some hp) hself env.instant none
          (.returned (.deny "the ask timed out unanswered"))
        refine .inr ⟨id, arrival, h₁, hnumbered id hid, hself,
          ⟨_, h₄.trans hadded, rfl, rfl, rfl⟩, .inr ⟨rfl, ?_, ?_⟩⟩
        · rw [h₃]
          exact hclosed
        · intro t given hgiven
          rw [h₂] at hgiven
          cases hgiven
      · intro j c' hji hj
        have hentry := hadded
        rw [← happ, ← hmethod, ← hparams] at hentry
        refine (hs.told j c' hj).taken hp hself hrest hnext hclock hentry ?_ ?_
        · intro other ticket deadline _ _
          rw [hchannels]
        · intro ticket deadline hwaits
          have hnone := halone c' (List.mem_of_getElem? hj)
          simp [hwaits, DecidePc.deadlineOn] at hnone
      · intro id' ticket' d' hpc'
        cases hpc'
    · have hreturn : s.deciding.engine.expire env c.app c.method c.params id =
          (s.deciding.engine, .returned (.deny "the ask timed out unanswered")) := by
        have hqueued :
            (s.deciding.engine.inner.prompts.any fun entry => entry.1 == id) = false := by
          rw [Register.any_eq_isSome_lookup, ← Engine.card, hgone]
          rfl
        simp [Engine.expire, hqueued]
      refine windows_advance_aside hs hi hclock (hadvance.trans hreturn) (.refl _) ?_ ?_
      · rw [Story.next_of_isSome_eq harrived rfl]
        exact .inr ⟨id, arrival, harrived, hid, hgone, hcovers, .inr ⟨rfl, hclosed, hlate⟩⟩
      · intro id' ticket' d' hpc'
        cases hpc'

theorem windows_verb {s : Timed N} (hs : Windows s) (env : Env N) (verb : EngineVerb)
    {e' : Engine N} (he : (verb.call env s.deciding.engine).getD s.deciding.engine = e')
    (hfiled : e'.Filed)
    (htold : ∀ c story, Told s.deciding.engine s.clock c story → c ∈ s.deciding.calls →
      Told e' env.instant c (story.next s.deciding.engine e' env.instant verb.answers c.pc)) :
    Windows (s.step (.verb env verb)) := by
  have hengine : (s.deciding.step (.verb env verb)).engine = e' := he
  constructor
  · exact hengine ▸ hfiled
  · intro i hi
    change s.deciding.calls[i]? = none at hi
    simp only [step, Deciding.step, hi]
    exact hs.blank i hi
  · intro i c hi
    change s.deciding.calls[i]? = some c at hi
    simp only [step, Deciding.step, hi, he]
    exact htold c (s.story i) (hs.told i c hi) (List.mem_of_getElem? hi)
  · exact hs.single

/-- An answer: everyone on its card gets it, in time. -/
theorem windows_answer {s : Timed N} (hs : Windows s) {env : Env N} {verb : EngineVerb}
    {given : String × Decision} (hanswers : verb.answers = some given) {e' : Engine N}
    (he : verb.call env s.deciding.engine = some e') (hclock : s.clock ≤ env.instant)
    (hunshared : Unshared s (.verb env verb)) : Windows (s.step (.verb env verb)) := by
  obtain ⟨id, decision⟩ := given
  obtain ⟨remember, result, hanswer⟩ : ∃ remember result,
      s.deciding.engine.answer env id decision remember = some (e', result) := by
    cases verb with
    | approve id' remember =>
      cases hanswers
      obtain ⟨result, hr, rfl⟩ := Option.map_eq_some_iff.mp he
      exact ⟨remember, result.2, hr⟩
    | deny id' =>
      cases hanswers
      obtain ⟨result, hr, rfl⟩ := Option.map_eq_some_iff.mp he
      exact ⟨none, result.2, hr⟩
    | _ => cases hanswers
  have hget : (verb.call env s.deciding.engine).getD s.deciding.engine = e' := by
    rw [he]
    rfl
  rcases Engine.answer_spec hs.filed hanswer with ⟨-, rfl⟩ |
    ⟨p, hp, hself, hrest, hchannels, hnext, hfiled, verdict, hadded⟩
  · exact windows_verb hs env verb hget hs.filed
      (fun c story htold _ => htold.aside (.refl _) hclock)
  · refine windows_verb hs env verb hget hfiled ?_
    intro c story htold hc
    refine htold.taken hp hself hrest hnext hclock hadded ?_ ?_
    · -- a call of another card has its channel to itself
      intro other ticket deadline hpc hne
      unfold Told at htold
      rw [hpc] at htold
      obtain ⟨arrival, -, -, -, -, hown, -⟩ := htold
      have hnot : ticket ∉ p.responders := fun h => hne (hown id p hp h).symm
      rw [hchannels, Engine.getElem?_sendAll]
      simp [hnot]
    · intro ticket deadline hpc hticket hopen
      refine ⟨decision, hanswers, ?_, ?_⟩
      · have hdeadline : deadline ∈ c.pc.deadlineOn id := by simp [hpc, DecidePc.deadlineOn]
        exact hunshared.2 (id, decision) hanswers env.instant rfl c hc deadline hdeadline
      · rw [hchannels, Engine.getElem?_sendAll, hopen]
        simp [hticket]

/-- A new call stands at its beginning. -/
theorem windows_call {s : Timed N} (hs : Windows s) (who : N.PublicKey) (method : Method)
    (params : List String) : Windows (s.step (.call who method params)) := by
  have hcases : ∀ {i : ℕ} {c : DecideCall N},
      (s.deciding.calls ++ [⟨who, method, params, .called⟩])[i]? = some c →
        s.deciding.calls[i]? = some c ∨
          (s.deciding.calls[i]? = none ∧ c = ⟨who, method, params, .called⟩) := by
    intro i c hi
    rcases Nat.lt_or_ge i s.deciding.calls.length with hlt | hge
    · rw [List.getElem?_append_left hlt] at hi
      exact .inl hi
    · rw [List.getElem?_append_right hge] at hi
      exact .inr ⟨List.getElem?_eq_none hge,
        List.mem_singleton.mp (List.mem_of_getElem? hi)⟩
  constructor
  · exact hs.filed
  · intro i hi
    change (s.deciding.calls ++ [⟨who, method, params, .called⟩])[i]? = none at hi
    simp only [step, Deciding.step, hi]
    refine hs.blank i (List.getElem?_eq_none ?_)
    have hlength := List.getElem?_eq_none_iff.mp hi
    rw [List.length_append] at hlength
    omega
  · intro i c hi
    change (s.deciding.calls ++ [⟨who, method, params, .called⟩])[i]? = some c at hi
    simp only [step, Deciding.step, hi]
    rcases hcases hi with hold | ⟨hnone, rfl⟩
    · exact (hs.told i c hold).aside (.refl _) le_rfl
    · rw [hs.blank i hnone]
      exact rfl
  · intro i j c c' id id' ticket d d' hi hj hpc hpc'
    rcases hcases hi with hold | ⟨-, rfl⟩
    · rcases hcases hj with hold' | ⟨-, rfl⟩
      · exact hs.single i j c c' id id' ticket d d' hold hold' hpc hpc'
      · cases hpc'
    · cases hpc

/-- Nobody advances. -/
theorem windows_nobody {s : Timed N} (hs : Windows s) {env : Env N} {i : ℕ}
    (hclock : s.clock ≤ env.instant) (hi : s.deciding.calls[i]? = none) :
    Windows (s.step (.advance env i)) := by
  have hsame : s.deciding.step (.advance env i) = s.deciding := by
    simp only [Deciding.step, hi]
  constructor
  · simp only [step, hsame]
    exact hs.filed
  · intro j hj
    simp only [step, hsame] at hj ⊢
    rw [hj]
    exact hs.blank j hj
  · intro j c hj
    simp only [step, hsame] at hj ⊢
    rw [hj]
    exact (hs.told j c hj).aside (.refl _) hclock
  · simp only [step, hsame]
    exact hs.single

theorem windows_step {s : Timed N} (hs : Windows s) {a : DecidingAction N} (ha : Timely s a)
    (hunshared : Unshared s a) : Windows (s.step a) := by
  cases a with
  | call who method params => exact windows_call hs who method params
  | advance env i =>
    have hclock : s.clock ≤ env.instant := ha env.instant rfl
    cases hi : s.deciding.calls[i]? with
    | none => exact windows_nobody hs hclock hi
    | some c =>
      have htold := hs.told i c hi
      cases hpc : c.pc with
      | called =>
        have hblank : s.story i = .blank := by
          unfold Told at htold
          rwa [hpc] at htold
        cases hpair : s.deciding.engine.pair env c.app with
        | none =>
          refine windows_panicked hs hi hclock ?_
          simp [Engine.advance, hpc, hpair]
        | some e' =>
          have hadvance : s.deciding.engine.advance env c.app c.method c.params c.pc =
              (e', .paired) := by
            simp [Engine.advance, hpc, hpair]
          apply windows_unasked hs hi hclock hadvance (Engine.aside_pair hpair) hblank
          · intro _ _ _ h
            cases h
          · intro _ h
            cases h
      | paired =>
        have hblank : s.story i = .blank := by
          unfold Told at htold
          rwa [hpc] at htold
        cases hpoisoned : s.deciding.engine.poisoned with
        | true =>
          refine windows_panicked hs hi hclock ?_
          simp [Engine.advance, hpc, hpoisoned]
        | false =>
          have hadvance : s.deciding.engine.advance env c.app c.method c.params c.pc =
              s.deciding.engine.judge env c.app c.method c.params := by
            simp [Engine.advance, hpc, hpoisoned]
          exact windows_unasked hs hi hclock hadvance Engine.aside_judge hblank
            Engine.judge_unasked.1 Engine.judge_unasked.2
      | asking => exact windows_asking hs hi hclock hpc
      | waiting id ticket deadline => exact windows_waiting hs hi hclock hpc
      | expired id => exact windows_expired hs hi hclock hpc hunshared
      | returned decision =>
        refine windows_same hs hi hclock ?_
        rw [hpc]
        rfl
      | panicked =>
        refine windows_same hs hi hclock ?_
        rw [hpc]
        rfl
  | verb env verb =>
    have hclock : s.clock ≤ env.instant := ha env.instant rfl
    cases he : verb.call env s.deciding.engine with
    | none =>
      have hget : (verb.call env s.deciding.engine).getD s.deciding.engine =
          s.deciding.engine := by
        rw [he]
        rfl
      exact windows_verb hs env verb hget hs.filed
        (fun c story htold _ => htold.aside (.refl _) hclock)
    | some e' =>
      have hget : (verb.call env s.deciding.engine).getD s.deciding.engine = e' := by
        rw [he]
        rfl
      cases hanswers : verb.answers with
      | none =>
        have haside := EngineVerb.call_aside he hanswers
        exact windows_verb hs env verb hget (haside.filed hs.filed)
          (fun c story htold _ => htold.aside haside hclock)
      | some given => exact windows_answer hs hanswers he hclock hunshared

theorem windows_start (stateDir : Option StateDir) : Windows (start stateDir : Timed N) := by
  have hcards : ∀ id p, (start stateDir : Timed N).deciding.engine.card id ≠ some p :=
    fun _ _ h => nomatch h
  constructor
  · constructor
    · exact List.nodup_nil
    · exact fun id p hp => absurd hp (hcards id p)
    · exact fun id p hp => absurd hp (hcards id p)
    · exact fun id p hp => absurd hp (hcards id p)
    · exact fun id other p q hp => absurd hp (hcards id p)
  · intro i _
    rfl
  · intro i c hi
    cases hi
  · intro i j c c' id id' ticket d d' hi
    cases hi

theorem windows_run (stateDir : Option StateDir) {as : List (DecidingAction N)}
    (hclock : Along step Timely (start stateDir) as)
    (hunshared : Along step Unshared (start stateDir) as) :
    Windows (run step (start stateDir) as) :=
  run_invariant (I := Windows) (fun _ _ hs ha => windows_step hs ha.1 ha.2) (windows_start stateDir)
    (hclock.and hunshared)

/-- Where a call stands after one of its sections. -/
theorem pc_advance {s : Deciding N} {env : Env N} {i : ℕ} {c : DecideCall N}
    (hi : s.calls[i]? = some c) {e' : Engine N} {pc' : DecidePc}
    (hadvance : s.engine.advance env c.app c.method c.params c.pc = (e', pc')) :
    (s.step (.advance env i)).calls[i]? = some { c with pc := pc' } ∧
      (s.step (.advance env i)).engine = e' := by
  have hcalls := getElem?_calls_advance hi hadvance i
  rw [if_pos rfl] at hcalls
  refine ⟨hcalls, ?_⟩
  simp only [Deciding.step, hi, hadvance]

theorem returned_advance {s : Deciding N} (env : Env N) {i : ℕ} {c : DecideCall N}
    {decision : Decision} (hi : s.calls[i]? = some c) (hpc : c.pc = .returned decision) :
    ((s.step (.advance env i)).calls[i]?).map DecideCall.pc = some (.returned decision) := by
  have hadvance : s.engine.advance env c.app c.method c.params c.pc =
      (s.engine, .returned decision) := by
    rw [hpc]
    rfl
  rw [(pc_advance hi hadvance).1]
  rfl

/-- A call that gave up waiting returns. -/
theorem expired_advance {s : Deciding N} (env : Env N) {i : ℕ} {c : DecideCall N}
    {id : String} (hi : s.calls[i]? = some c) (hpc : c.pc = .expired id)
    (hpoisoned : s.engine.poisoned = false) :
    ((s.step (.advance env i)).calls[i]?).map DecideCall.pc =
      some (.returned (.deny "the ask timed out unanswered")) := by
  have hreturns : (s.engine.advance env c.app c.method c.params c.pc).2 =
      .returned (.deny "the ask timed out unanswered") := by
    rw [hpc]
    simp only [Engine.advance, hpoisoned, Bool.false_eq_true, if_false, Engine.expire]
    split <;> rfl
  have hadvance : s.engine.advance env c.app c.method c.params c.pc =
      ((s.engine.advance env c.app c.method c.params c.pc).1,
        .returned (.deny "the ask timed out unanswered")) := by
    rw [← hreturns]
  rw [(pc_advance hi hadvance).1]
  rfl

/-- In a run where no window closes over another waiter and no answer finds one closed, each
call of a card returns the answer that its own window saw, or that its own window passed; and
one that has its answer, or whose window is over, returns within two of its sections. -/
theorem each_its_own_window (stateDir : Option StateDir) (as : List (DecidingAction N))
    (hclock : Along step Timely (start stateDir) as)
    (hunshared : Along step Unshared (start stateDir) as) {i : ℕ} {c : DecideCall N}
    {id : String} {arrival : ℕ}
    (hi : (run step (start stateDir) as).deciding.calls[i]? = some c)
    (harrived : ((run step (start stateDir) as).story i).arrived = some (id, arrival)) :
    let s := run step (start stateDir) as
    (∀ decision, c.pc = .returned decision →
      (s.story i).Settles arrival decision ∧ (s.story i).Covers c) ∧
    (s.deciding.engine.poisoned = false → c.pc ≠ .panicked → ∀ env,
      (s.story i).answered.isSome ∨ arrival + promptTtl ≤ env.instant →
      ∃ decision, ((run Deciding.step s.deciding [.advance env i, .advance env i]).calls[i]?).map
        DecideCall.pc = some (.returned decision)) := by
  have htold := (windows_run stateDir hclock hunshared).told i c hi
  generalize run step (start stateDir) as = s at hi harrived htold ⊢
  have hstory : s.story i ≠ .blank := by
    intro hblank
    rw [hblank] at harrived
    cases harrived
  unfold Told at htold
  refine ⟨fun decision hpc => ?_, fun hpoisoned hpanicked env hready => ?_⟩
  · rw [hpc] at htold
    rcases htold with hblank | ⟨id', arrival', harrived', -, -, hcovers, hsettles⟩
    · exact absurd hblank hstory
    · rw [harrived] at harrived'
      cases harrived'
      exact ⟨hsettles, hcovers⟩
  · rw [run_cons, run_cons, run_nil]
    cases hpc : c.pc with
    | called =>
      rw [hpc] at htold
      exact absurd htold hstory
    | paired =>
      rw [hpc] at htold
      exact absurd htold hstory
    | asking =>
      rw [hpc] at htold
      exact absurd htold hstory
    | waiting id' ticket deadline =>
      rw [hpc] at htold
      obtain ⟨arrival', harrived', -, rfl, -, -, hwaits⟩ := htold
      rw [harrived] at harrived'
      cases harrived'
      rcases hwaits with ⟨p, hcard, -, -, -, hticket, hopen, hanswered⟩ |
        ⟨-, -, t, decision, -, -, hsent⟩
      · have hover : arrival + promptTtl ≤ env.instant := by
          simpa [hanswered] using hready
        have hclose : s.deciding.engine.advance env c.app c.method c.params c.pc =
            (s.deciding.engine.closing ticket, .expired id) := by
          simp [hpc, Engine.advance, Engine.wait, Engine.closing, hopen,
            senderAlive_of_card hcard hticket, hover]
        obtain ⟨hnext, hengine⟩ := pc_advance hi hclose
        exact ⟨_, expired_advance env hnext rfl (hengine ▸ hpoisoned)⟩
      · have hreturn : s.deciding.engine.advance env c.app c.method c.params c.pc =
            (s.deciding.engine, .returned decision) := by
          simp [hpc, Engine.advance, Engine.wait, hsent]
        exact ⟨decision, returned_advance env (pc_advance hi hreturn).1 rfl⟩
    | expired id' =>
      have hreturns := expired_advance env hi hpc hpoisoned
      obtain ⟨c', hc', hpc'⟩ := Option.map_eq_some_iff.mp hreturns
      exact ⟨_, returned_advance env hc' hpc'⟩
    | returned decision =>
      obtain ⟨c', hc', hpc'⟩ := Option.map_eq_some_iff.mp (returned_advance env hi hpc)
      exact ⟨decision, returned_advance env hc' hpc'⟩
    | panicked => exact absurd hpc hpanicked

/-- One app on record, at the level that asks. -/
private def askApp : StateDir where
  apps := some [⟨"app", .ask, 0, none, none, none, none, none, 0, none⟩]
  log := none

private def second (now : ℕ) : Env (Crate.plain []) := .plain [] now

/-- An ask, and the same one ten seconds later. -/
private def retried : List (DecidingAction (Crate.plain [])) :=
  [.call "app" .getPublicKey [], .advance (second 100) 0, .advance (second 100) 0,
    .advance (second 100) 0, .call "app" .getPublicKey [], .advance (second 110) 1,
    .advance (second 110) 1, .advance (second 110) 1]

/-- Both wait, and one answer serves them. -/
private def answered : List (DecidingAction (Crate.plain [])) :=
  retried ++ [.verb (second 300) (.approve "100-0001" none), .advance (second 301) 0,
    .advance (second 301) 1]

theorem each_its_own_window_answered :
    ((run step (start (some askApp)) answered).story 1).Settles 110000000000 .allow ∧
    ((run step (start (some askApp)) answered).story 1).Covers
      (⟨"app", .getPublicKey, [], .returned .allow⟩ : DecideCall (Crate.plain [])) := by
  have hclock : Along step Timely (start (some askApp)) answered := by decide +kernel
  have hunshared : Along step Unshared (start (some askApp)) answered := by decide +kernel
  have hi : (run step (start (some askApp)) answered).deciding.calls[1]? =
      some ⟨"app", .getPublicKey, [], .returned .allow⟩ := rfl
  have harrived : ((run step (start (some askApp)) answered).story 1).arrived =
      some ("100-0001", 110000000000) := by decide +kernel
  exact (each_its_own_window (some askApp) answered hclock hunshared hi harrived).1 .allow rfl

/-- Nobody answers: the first window closes at its end, and the other waiter, ten seconds of
its own left, is told that the prompt was dropped. -/
theorem first_window_closes_all :
    ¬ ∀ (as : List (DecidingAction (Crate.plain []))) (i : ℕ) (c : DecideCall (Crate.plain []))
      (id : String) (arrival : ℕ) (decision : Decision),
      Along step Timely (start (some askApp)) as →
      (run step (start (some askApp)) as).deciding.calls[i]? = some c →
      ((run step (start (some askApp)) as).story i).arrived = some (id, arrival) →
      c.pc = .returned decision →
      ((run step (start (some askApp)) as).story i).Settles arrival decision := by
  intro h
  have hsettles := h (retried ++ [.advance (second 400) 0, .advance (second 400) 0,
      .advance (second 401) 1]) 1
    ⟨"app", .getPublicKey, [], .returned (.deny "the prompt was dropped")⟩ "100-0001" 110000000000
    (.deny "the prompt was dropped") (by decide +kernel) rfl (by decide +kernel) rfl
  rcases hsettles with ⟨t, hanswered, -⟩ | ⟨hdecision, -⟩
  · revert hanswered
    have hnone : ((run step (start (some askApp)) (retried ++ [.advance (second 400) 0,
        .advance (second 400) 0, .advance (second 401) 1])).story 1).answered = none := by
      decide +kernel
    rw [hnone]
    exact fun h => nomatch h
  · revert hdecision
    decide

end Timed
end Kuma.Nostr
