import Mathlib.Logic.Function.Basic
import Kuma.Lib.Run
import Kuma.Relay.Filter
import Kuma.Relay.RateLimiter

/-! The relay at work: a thread for each connection, each a sequence of turns at the shared store,
the budgets, the map of subscriptions and the map of outbound queues. A run is any order of
turns. -/
namespace Kuma.Relay

open Nostr (Crate Json)

inductive Frame (N : Crate)
  | ok (id : String) (accepted : Bool) (reason : String)
  | event (sub : String) (event : N.Event)
  | eose (sub : String)
  | closed (sub reason : String)

/-- Where a connection's thread stands. -/
inductive Thread (N : Crate)
  | absent
  | reading
  | admitted (event : N.Event) (now : UInt64)
  | budgeted (event : N.Event) (now : UInt64)
  | inserted (event : N.Event)
  | acknowledged (event : N.Event)
  | replaying (sub : String) (filter : RelayFilter N) (rest : List N.Event)
  | caughtUp (sub : String) (filter : RelayFilter N)
  | leaving
  | gone

/-- The shared state, where each thread stands, and what each socket has sent. `held` is no part of
the program: it records what the store took in, in order. -/
structure Server (N : Crate) where
  store : EventStore N
  limiters : N.PublicKey → RateLimiter
  subscriptions : ℕ → List (String × RelayFilter N)
  outbound : ℕ → Option (List (Frame N))
  thread : ℕ → Thread N
  socket : ℕ → List (Frame N)
  held : List N.Event

/-- One turn of a thread, or of the evictor; `sent` says whether a send succeeds. -/
inductive Action (N : Crate)
  | connect (c : ℕ)
  | drain (c : ℕ) (sent : Bool)
  | event (c : ℕ) (event : N.Event) (now : UInt64) (sent : Bool)
  | budget (c : ℕ) (sent : Bool)
  | insert (c : ℕ) (sent : Bool)
  | acknowledge (c : ℕ) (sent : Bool)
  | broadcast (c : ℕ)
  | req (c : ℕ) (sub : String) (value : Json) (now : UInt64) (sent : Bool)
  | replay (c : ℕ) (sent : Bool)
  | eose (c : ℕ) (sent : Bool)
  | register (c : ℕ)
  | close (c : ℕ) (sub : String)
  | hangUp (c : ℕ)
  | leave (c : ℕ)
  | evict (now : UInt64)

variable {N : Crate}

/-- Whose turn it is. -/
def Action.actor : Action N → Option ℕ
  | .connect c | .drain c _ | .event c _ _ _ | .budget c _ | .insert c _ | .acknowledge c _
  | .broadcast c | .req c _ _ _ _ | .replay c _ | .eose c _ | .register c | .close c _
  | .hangUp c | .leave c => some c
  | .evict _ => none

/-- What the sender is told of a rejection. -/
def Rejected.reason : Rejected → String
  | kind k => "this relay carries only kinds 24133 and 24135, not " ++ toString k.toNat
  | timestamp => "the event is outside the timestamp window"
  | signature => "invalid: the signature does not verify"
  | duplicate => ""

/-- A duplicate answers true: the event is held. -/
def refusal (event : N.Event) (reason : String) : Frame N :=
  if reason.isEmpty then .ok event.id true "duplicate" else .ok event.id false reason

namespace Server

def goOn (s : Server N) (c : ℕ) (t : Thread N) : Server N :=
  { s with thread := Function.update s.thread c t }

/-- `socket.send(frame)?`. -/
def send (s : Server N) (c : ℕ) (frame : Frame N) (sent : Bool) (t : Thread N) : Server N :=
  if sent then
    { s with
      socket := Function.update s.socket c (s.socket c ++ [frame])
      thread := Function.update s.thread c t }
  else s.goOn c .leaving

/-- Nobody has connected yet. -/
def start (config : RelayConfig) : Server N where
  store := ⟨[], config⟩
  limiters _ := ⟨[], config.rateLimit⟩
  subscriptions _ := []
  outbound _ := none
  thread _ := .absent
  socket _ := []
  held := []

/-- A connection's share of a broadcast. -/
def frames (s : Server N) (event : N.Event) (d : ℕ) : List (Frame N) :=
  (broadcast [(d, s.subscriptions d)] event).map fun share => .event share.2 event

/-- `serve_connection`, turn by turn. -/
def step (s : Server N) : Action N → Server N
  | .connect c =>
    match s.thread c with
    | .absent => { s.goOn c .reading with outbound := Function.update s.outbound c (some []) }
    | _ => s
  | .drain c sent =>
    match s.thread c, s.outbound c with
    | .reading, some (frame :: rest) =>
      { s with outbound := Function.update s.outbound c (some rest) }.send c frame sent .reading
    | _, _ => s
  | .event c event now sent =>
    match s.thread c with
    | .reading =>
      match s.store.admission event now with
      | .error rejected => s.send c (refusal event rejected.reason) sent .reading
      | .ok () => s.goOn c (.admitted event now)
    | _ => s
  | .budget c sent =>
    match s.thread c with
    | .admitted event now =>
      let turn := (s.limiters event.pubkey).admits now
      let s := { s with limiters := Function.update s.limiters event.pubkey turn.2 }
      if turn.1 then s.goOn c (.budgeted event now)
      else s.send c (refusal event "rate-limited: too many events, slow down") sent .reading
    | _ => s
  | .insert c sent =>
    match s.thread c with
    | .budgeted event now =>
      match s.store.insert event now with
      | .error rejected => s.send c (refusal event rejected.reason) sent .reading
      | .ok store => { s.goOn c (.inserted event) with store, held := s.held ++ [event] }
    | _ => s
  | .acknowledge c sent =>
    match s.thread c with
    | .inserted event => s.send c (.ok event.id true "") sent (.acknowledged event)
    | _ => s
  | .broadcast c =>
    match s.thread c with
    | .acknowledged event =>
      { s.goOn c .reading with outbound := fun d => (s.outbound d).map (· ++ s.frames event d) }
    | _ => s
  | .req c sub value now sent =>
    match s.thread c with
    | .reading =>
      match answer s.store now (.fromJson N value) with
      | .error reason => s.send c (.closed sub reason) sent .reading
      | .ok (replay, store) =>
        { s.goOn c (.replaying sub (.fromJson N value) replay) with store }
    | _ => s
  | .replay c sent =>
    match s.thread c with
    | .replaying sub filter (event :: rest) =>
      s.send c (.event sub event) sent (.replaying sub filter rest)
    | _ => s
  | .eose c sent =>
    match s.thread c with
    | .replaying sub filter [] => s.send c (.eose sub) sent (.caughtUp sub filter)
    | _ => s
  | .register c =>
    match s.thread c with
    | .caughtUp sub filter =>
      { s.goOn c .reading with
        subscriptions :=
          Function.update s.subscriptions c (s.subscriptions c ++ [(sub, filter)]) }
    | _ => s
  | .close c sub =>
    match s.thread c with
    | .reading =>
      { s with
        subscriptions :=
          Function.update s.subscriptions c ((s.subscriptions c).filter (·.1 ≠ sub)) }
    | _ => s
  | .hangUp c =>
    match s.thread c with
    | .reading => s.goOn c .leaving
    | _ => s
  | .leave c =>
    match s.thread c with
    | .leaving =>
      { s.goOn c .gone with
        subscriptions := Function.update s.subscriptions c []
        outbound := Function.update s.outbound c none }
    | _ => s
  | .evict now => { s with store := s.store.evict now }

section
variable {s : Server N} {c d : ℕ} {frame frame' : Frame N} {sent : Bool} {t : Thread N}
  {a : Action N}

@[simp] theorem goOn_thread : (s.goOn c t).thread = Function.update s.thread c t := rfl

@[simp] theorem goOn_socket : (s.goOn c t).socket = s.socket := rfl

@[simp] theorem goOn_outbound : (s.goOn c t).outbound = s.outbound := rfl

@[simp] theorem goOn_subscriptions : (s.goOn c t).subscriptions = s.subscriptions := rfl

@[simp] theorem goOn_held : (s.goOn c t).held = s.held := rfl

@[simp] theorem send_outbound : (s.send c frame sent t).outbound = s.outbound := by
  cases sent <;> rfl

@[simp] theorem send_subscriptions : (s.send c frame sent t).subscriptions = s.subscriptions := by
  cases sent <;> rfl

@[simp] theorem send_held : (s.send c frame sent t).held = s.held := by
  cases sent <;> rfl

@[simp] theorem send_thread : (s.send c frame sent t).thread =
    Function.update s.thread c (if sent then t else .leaving) := by
  cases sent <;> rfl

theorem mem_send_socket (h : frame ∈ s.socket c) : frame ∈ (s.send d frame' sent t).socket c := by
  cases sent with
  | false => exact h
  | true =>
    by_cases hcd : c = d
    · subst hcd
      simp [send, h]
    · simp [send, hcd, h]

theorem self_mem_send_socket : frame ∈ (s.send c frame true t).socket c := by
  simp [send]

/-- A thread moves in its own turns only. -/
theorem step_thread_of_ne (h : a.actor ≠ some d) : (s.step a).thread d = s.thread d := by
  cases a <;> simp only [Action.actor, ne_eq, Option.some.injEq] at h <;> simp only [step] <;>
    (try split) <;> (try split) <;> simp [Function.update_of_ne (Ne.symm h)]

/-- What a socket has sent it has sent. -/
theorem mem_step_socket (h : frame ∈ s.socket c) : frame ∈ (s.step a).socket c := by
  cases a <;> simp only [step] <;> (try split) <;> (try split) <;>
    first | exact h | exact mem_send_socket h

/-- The store takes in what a thread has the budget for, and the thread goes on to say so. -/
theorem step_held : (s.step a).held = s.held ∨ ∃ d event,
    (s.step a).held = s.held ++ [event] ∧ (s.step a).thread d = .inserted event := by
  cases a with
  | insert d sent =>
    simp only [step]
    split
    · split
      · exact .inl send_held
      · exact .inr ⟨d, _, rfl, Function.update_self ..⟩
    · exact .inl rfl
  | evict now => exact .inl rfl
  | _ => left; simp only [step]; split <;> (try split) <;> simp

/-- A subscription lasts until it is closed, or its connection left. -/
theorem mem_step_subscriptions {sub : String} {filter : RelayFilter N}
    (h : (sub, filter) ∈ s.subscriptions c) (hclose : a = .close c sub → s.thread c ≠ .reading)
    (hstays : s.thread c ≠ .leaving) : (sub, filter) ∈ (s.step a).subscriptions c := by
  cases a with
  | register d =>
    simp only [step]
    split
    · by_cases hcd : c = d
      · subst hcd
        simp [h]
      · simp [hcd, h]
    · exact h
  | close d other =>
    simp only [step]
    split
    · rename_i hreading
      by_cases hcd : c = d
      · subst hcd
        have hother : sub ≠ other := by
          rintro rfl
          exact hclose rfl hreading
        simp [h, hother]
      · simp [hcd, h]
    · exact h
  | leave d =>
    simp only [step]
    split
    · rename_i hleaving
      have hcd : c ≠ d := by
        rintro rfl
        exact hstays hleaving
      simp [hcd, h]
    · exact h
  | evict now => exact h
  | _ => simp only [step]; split <;> (try split) <;> simpa using h

/-- The frame went out on the socket, or waits in the queue. -/
def Reached (s : Server N) (c : ℕ) (frame : Frame N) : Prop :=
  frame ∈ s.socket c ∨ ∃ queue, s.outbound c = some queue ∧ frame ∈ queue

/-- The connection is served. -/
structure Online (s : Server N) (c : ℕ) : Prop where
  present : s.thread c ≠ .absent
  stays : s.thread c ≠ .leaving
  here : s.thread c ≠ .gone
  queue : (s.outbound c).isSome

/-- What has reached a connection has reached it. -/
theorem Reached.step (h : s.Reached c frame) (honline : s.Online c)
    (hstays : (s.step a).thread c ≠ .leaving) : (s.step a).Reached c frame := by
  rcases h with h | ⟨queue, hqueue, hmem⟩
  · exact .inl (mem_step_socket h)
  cases a with
  | connect d =>
    have hcd : c ≠ d ∨ s.thread d ≠ .absent := by
      by_cases hcd : c = d
      · exact .inr (hcd ▸ honline.present)
      · exact .inl hcd
    refine .inr ⟨queue, ?_, hmem⟩
    simp only [Server.step]
    split
    · rename_i habsent
      have hcd := hcd.resolve_right (not_not.mpr habsent)
      simp [hcd, hqueue]
    · exact hqueue
  | drain d sent =>
    simp only [Server.step] at hstays ⊢
    split at hstays
    · rename_i first rest hreading hfirst
      by_cases hcd : c = d
      · subst hcd
        cases sent with
        | false => exact absurd (by simp) hstays
        | true =>
          rw [hqueue] at hfirst
          obtain rfl := Option.some.inj hfirst
          rcases List.mem_cons.mp hmem with rfl | hmem
          · exact .inl self_mem_send_socket
          · exact .inr ⟨rest, by simp, hmem⟩
      · exact .inr ⟨queue, by simp [hcd, hqueue], hmem⟩
    · exact .inr ⟨queue, hqueue, hmem⟩
  | broadcast d =>
    simp only [Server.step]
    split
    · exact .inr ⟨_, by simp [hqueue]; rfl, List.mem_append_left _ hmem⟩
    · exact .inr ⟨queue, hqueue, hmem⟩
  | leave d =>
    refine .inr ⟨queue, ?_, hmem⟩
    simp only [Server.step]
    split
    · rename_i hleaving
      have hcd : c ≠ d := by
        rintro rfl
        exact honline.stays hleaving
      simp [hcd, hqueue]
    · exact hqueue
  | evict now => exact .inr ⟨queue, hqueue, hmem⟩
  | _ =>
    refine .inr ⟨queue, ?_, hmem⟩
    simp only [Server.step]; split <;> (try split) <;> simpa using hqueue

theorem thread_of_present (h : s.thread c ≠ .absent) (hstays : s.thread c ≠ .leaving)
    (hhere : s.thread c ≠ .gone) :
    (s.step a).thread c ≠ .absent ∧ (s.step a).thread c ≠ .gone := by
  by_cases hactor : a.actor = some c
  swap
  · rw [step_thread_of_ne hactor]
    exact ⟨h, hhere⟩
  cases a with
  | evict now => cases hactor
  | connect d | leave d =>
    obtain rfl := Option.some.inj hactor
    simp only [Server.step]
    exact ⟨h, hhere⟩
  | _ =>
    obtain rfl := Option.some.inj hactor
    simp only [Server.step]
    split <;> (try split) <;> simp_all <;> split <;> simp

/-- A queue lasts until its connection is left. -/
theorem queue_step (hqueue : (s.outbound c).isSome)
    (hleave : a = .leave c → s.thread c ≠ .leaving) : ((s.step a).outbound c).isSome := by
  cases a with
  | connect d =>
    simp only [Server.step]
    split
    · by_cases hcd : c = d
      · subst hcd
        simp
      · simpa [hcd] using hqueue
    · exact hqueue
  | drain d sent =>
    simp only [Server.step]
    split
    · by_cases hcd : c = d
      · subst hcd
        simp
      · simpa [hcd] using hqueue
    · exact hqueue
  | broadcast d =>
    simp only [Server.step]
    split
    · simpa using hqueue
    · exact hqueue
  | leave d =>
    simp only [Server.step]
    split
    · rename_i hleaving
      have hcd : c ≠ d := by
        rintro rfl
        exact hleave rfl hleaving
      simpa [hcd] using hqueue
    · exact hqueue
  | evict now => exact hqueue
  | _ =>
    simp only [Server.step]; split <;> (try split) <;> simpa using hqueue

theorem Online.step (honline : s.Online c) (hstays : (s.step a).thread c ≠ .leaving) :
    (s.step a).Online c := by
  obtain ⟨hpresent, hhere⟩ := thread_of_present honline.present honline.stays honline.here
  exact ⟨hpresent, hstays, hhere, queue_step honline.queue fun _ => honline.stays⟩

theorem thread_of_absent (h : s.thread c = .absent) (hconnect : a ≠ .connect c) :
    (s.step a).thread c = .absent := by
  by_cases hactor : a.actor = some c
  swap
  · exact (step_thread_of_ne hactor).trans h
  cases a with
  | connect d =>
    obtain rfl : d = c := Option.some.inj hactor
    exact absurd rfl hconnect
  | evict now => cases hactor
  | _ =>
    obtain rfl := Option.some.inj hactor
    simp [Server.step, h]

theorem thread_of_gone (h : s.thread c = .gone) : (s.step a).thread c = .gone := by
  by_cases hactor : a.actor = some c
  swap
  · exact (step_thread_of_ne hactor).trans h
  cases a with
  | evict now => cases hactor
  | _ =>
    obtain rfl := Option.some.inj hactor
    simp [Server.step, h]

/-- Whoever is connected has a queue. -/
def Queued (s : Server N) : Prop :=
  ∀ c, s.thread c = .absent ∨ s.thread c = .gone ∨ (s.outbound c).isSome

theorem Queued.step (h : s.Queued) : (s.step a).Queued := by
  intro c
  rcases h c with habsent | hgone | hqueue
  · by_cases hconnect : a = .connect c
    · subst hconnect
      exact .inr (.inr (by simp [Server.step, habsent]))
    · exact .inl (thread_of_absent habsent hconnect)
  · exact .inr (.inl (thread_of_gone hgone))
  · by_cases hleave : a = .leave c ∧ s.thread c = .leaving
    · obtain ⟨rfl, hleaving⟩ := hleave
      exact .inr (.inl (by simp [Server.step, hleaving]))
    · exact .inr (.inr (queue_step hqueue fun ha hleaving => hleave ⟨ha, hleaving⟩))

theorem queued_run (config : RelayConfig) (actions : List (Action N)) :
    (Lib.run Server.step (start config) actions).Queued := by
  have hstart : (start (N := N) config).Queued := fun c => .inl rfl
  exact Lib.run_invariant (P := fun _ _ => True) (fun s a hs _ => hs.step) hstart
    (fun _ _ => trivial)

/-- An event taken in is acknowledged next, unless that send fails. -/
theorem thread_of_inserted {event : N.Event} (h : s.thread d = .inserted event)
    (hsent : a ≠ .acknowledge d false) :
    (s.step a).thread d = .inserted event ∨ (s.step a).thread d = .acknowledged event := by
  by_cases hactor : a.actor = some d
  swap
  · exact .inl ((step_thread_of_ne hactor).trans h)
  cases a with
  | acknowledge e sent =>
    obtain rfl : e = d := Option.some.inj hactor
    cases sent with
    | false => exact absurd rfl hsent
    | true => exact .inr (by simp [Server.step, h])
  | evict now => cases hactor
  | _ =>
    obtain rfl := Option.some.inj hactor
    exact .inl (by simp [Server.step, h])

/-- An event acknowledged is broadcast next. -/
theorem thread_of_acknowledged {event : N.Event} (h : s.thread d = .acknowledged event)
    (hactor : a ≠ .broadcast d) : (s.step a).thread d = .acknowledged event := by
  by_cases hactor : a.actor = some d
  swap
  · exact (step_thread_of_ne hactor).trans h
  cases a with
  | broadcast e =>
    obtain rfl : e = d := Option.some.inj hactor
    exact absurd rfl ‹_›
  | evict now => cases hactor
  | _ =>
    obtain rfl := Option.some.inj hactor
    simp [Server.step, h]

theorem reached_of_broadcast {event : N.Event} {sub : String} {filter : RelayFilter N}
    (h : s.thread d = .acknowledged event) (hsub : (sub, filter) ∈ s.subscriptions c)
    (hmatch : filter.matchesEvent event = true) (honline : s.Online c) :
    (s.step (.broadcast d)).Reached c (.event sub event) := by
  obtain ⟨queue, hqueue⟩ := Option.isSome_iff_exists.mp honline.queue
  have hframe : Frame.event sub event ∈ s.frames event c :=
    List.mem_map.mpr ⟨(c, sub), by simp [Relay.broadcast]; exact ⟨filter, hsub, hmatch⟩, rfl⟩
  refine .inr ⟨queue ++ s.frames event c, ?_, List.mem_append_right _ hframe⟩
  simp [Server.step, h, hqueue]

end

section
variable {s : Server N} {c : ℕ} {sub : String} {filter : RelayFilter N} {replay : List N.Event}
  {mark : ℕ} {a : Action N}

/-- The subscription outlasts the turn: it is not closed, and its connection stays. -/
def Outlasts (c : ℕ) (sub : String) (s : Server N) (a : Action N) : Prop :=
  (a = .close c sub → s.thread c ≠ .reading) ∧ (s.step a).thread c ≠ .leaving

/-- Of the events that came since the query took its replay, the turn neither drops one, by a send
to its sender that fails, nor broadcasts one before the subscription is registered. -/
def Heeds (c : ℕ) (sub : String) (filter : RelayFilter N) (replay : List N.Event) (mark : ℕ)
    (s : Server N) (a : Action N) : Prop :=
  ∀ d event, event ∈ s.held.drop mark → filter.matchesEvent event = true → event ∉ replay →
    (s.thread d = .inserted event → a ≠ .acknowledge d false) ∧
    (s.thread d = .acknowledged event → a = .broadcast d → (sub, filter) ∈ s.subscriptions c)

/-- On its way to where the broadcast is. -/
def Underway (s : Server N) (event : N.Event) : Prop :=
  ∃ d, s.thread d = .inserted event ∨ s.thread d = .acknowledged event

/-- Where a subscription stands after its query: its replay goes out, or has gone out; and what
came since is in the replay, has reached the subscriber, or is underway. -/
structure Follows (c : ℕ) (sub : String) (filter : RelayFilter N) (replay : List N.Event)
    (mark : ℕ) (s : Server N) : Prop where
  online : s.Online c
  replayed : (∃ rest, s.thread c = .replaying sub filter rest ∧
      ∀ event ∈ replay, event ∈ rest ∨ s.Reached c (.event sub event)) ∨
    (s.thread c = .caughtUp sub filter ∨ (sub, filter) ∈ s.subscriptions c) ∧
      ∀ event ∈ replay, s.Reached c (.event sub event)
  later : ∀ event ∈ s.held.drop mark, filter.matchesEvent event = true → event ∈ replay ∨
    s.Reached c (.event sub event) ∨ s.Underway event
  marked : mark ≤ s.held.length

theorem Underway.step {event : N.Event} (h : s.Underway event) (honline : s.Online c)
    (hmatch : filter.matchesEvent event = true)
    (hdrop : ∀ d, s.thread d = .inserted event → a ≠ .acknowledge d false)
    (hregistered : ∀ d, s.thread d = .acknowledged event → a = .broadcast d →
      (sub, filter) ∈ s.subscriptions c) :
    (s.step a).Reached c (.event sub event) ∨ (s.step a).Underway event := by
  obtain ⟨d, hinserted | hacknowledged⟩ := h
  · exact .inr ⟨d, thread_of_inserted hinserted (hdrop d hinserted)⟩
  · by_cases hbroadcast : a = .broadcast d
    · have hsub := hregistered d hacknowledged hbroadcast
      subst hbroadcast
      exact .inl (reached_of_broadcast hacknowledged hsub hmatch honline)
    · exact .inr ⟨d, .inr (thread_of_acknowledged hacknowledged hbroadcast)⟩

/-- A replay goes out event by event, and ends with the frame that says so. -/
theorem replayed_step {rest : List N.Event} (hthread : s.thread c = .replaying sub filter rest)
    (honline : s.Online c) (hrest : ∀ event ∈ replay, event ∈ rest ∨ s.Reached c (.event sub event))
    (hstays : (s.step a).thread c ≠ .leaving) :
    (∃ rest, (s.step a).thread c = .replaying sub filter rest ∧
      ∀ event ∈ replay, event ∈ rest ∨ (s.step a).Reached c (.event sub event)) ∨
    ((s.step a).thread c = .caughtUp sub filter ∧
      ∀ event ∈ replay, (s.step a).Reached c (.event sub event)) := by
  have hkeep : ∀ event, s.Reached c (.event sub event) → (s.step a).Reached c (.event sub event) :=
    fun event h => h.step honline hstays
  have hstill : (s.step a).thread c = .replaying sub filter rest →
      ∃ rest, (s.step a).thread c = .replaying sub filter rest ∧
        ∀ event ∈ replay, event ∈ rest ∨ (s.step a).Reached c (.event sub event) :=
    fun h => ⟨rest, h, fun event hmem => (hrest event hmem).imp_right (hkeep event)⟩
  by_cases hactor : a.actor = some c
  swap
  · exact .inl (hstill ((step_thread_of_ne hactor).trans hthread))
  cases a with
  | replay d sent =>
    obtain rfl : d = c := Option.some.inj hactor
    cases rest with
    | nil => exact .inl (hstill (by simp [Server.step, hthread]))
    | cons first rest =>
      have hstep : s.step (.replay d sent) =
          s.send d (.event sub first) sent (.replaying sub filter rest) := by
        simp [Server.step, hthread]
      cases sent with
      | false => exact absurd (by simp [hstep]) hstays
      | true =>
        refine .inl ⟨rest, by simp [hstep], fun event hmem => ?_⟩
        rcases hrest event hmem with hrest | hreached
        · rcases List.mem_cons.mp hrest with rfl | hrest
          · exact .inr (.inl (hstep ▸ self_mem_send_socket))
          · exact .inl hrest
        · exact .inr (hkeep event hreached)
  | eose d sent =>
    obtain rfl : d = c := Option.some.inj hactor
    cases rest with
    | cons first rest => exact .inl (hstill (by simp [Server.step, hthread]))
    | nil =>
      have hstep : s.step (.eose d sent) = s.send d (.eose sub) sent (.caughtUp sub filter) := by
        simp [Server.step, hthread]
      cases sent with
      | false => exact absurd (by simp [hstep]) hstays
      | true =>
        refine .inr ⟨by simp [hstep], fun event hmem => hkeep event ?_⟩
        exact (hrest event hmem).resolve_left List.not_mem_nil
  | evict now => cases hactor
  | _ =>
    obtain rfl := Option.some.inj hactor
    exact .inl (hstill (by simp [Server.step, hthread]))

theorem caughtUp_step (hthread : s.thread c = .caughtUp sub filter) :
    (s.step a).thread c = .caughtUp sub filter ∨ (sub, filter) ∈ (s.step a).subscriptions c := by
  by_cases hactor : a.actor = some c
  swap
  · exact .inl ((step_thread_of_ne hactor).trans hthread)
  cases a with
  | register d =>
    obtain rfl : d = c := Option.some.inj hactor
    exact .inr (by simp [Server.step, hthread])
  | evict now => cases hactor
  | _ =>
    obtain rfl := Option.some.inj hactor
    exact .inl (by simp [Server.step, hthread])

theorem Follows.step (h : s.Follows c sub filter replay mark) (houtlasts : s.Outlasts c sub a)
    (hheeds : s.Heeds c sub filter replay mark a) :
    (s.step a).Follows c sub filter replay mark := by
  obtain ⟨honline, hreplayed, hlater, hmarked⟩ := h
  obtain ⟨hclose, hstays⟩ := houtlasts
  constructor
  · exact honline.step hstays
  · rcases hreplayed with ⟨rest, hthread, hrest⟩ | ⟨hstage, hreached⟩
    · rcases replayed_step hthread honline hrest hstays with h | ⟨h, hall⟩
      · exact .inl h
      · exact .inr ⟨.inl h, hall⟩
    · refine .inr ⟨?_, fun event hmem => (hreached event hmem).step honline hstays⟩
      rcases hstage with hthread | hsub
      · exact caughtUp_step hthread
      · exact .inr (mem_step_subscriptions hsub hclose honline.stays)
  · intro event hmem hmatch
    -- what was there before is carried over, what came in this turn is underway
    have hold : event ∈ s.held.drop mark → event ∈ replay ∨
        (s.step a).Reached c (.event sub event) ∨ (s.step a).Underway event := by
      intro hmem
      by_cases hreplay : event ∈ replay
      · exact .inl hreplay
      right
      rcases (hlater event hmem hmatch).resolve_left hreplay with hreached | hunderway
      · exact .inl (hreached.step honline hstays)
      · exact hunderway.step honline hmatch
          (fun d => (hheeds d event hmem hmatch hreplay).1)
          fun d => (hheeds d event hmem hmatch hreplay).2
    rcases step_held (s := s) (a := a) with hheld | ⟨d, new, hheld, hthread⟩
    · rw [hheld] at hmem
      exact hold hmem
    · rw [hheld, List.drop_append_of_le_length hmarked, List.mem_append] at hmem
      rcases hmem with hmem | hmem
      · exact hold hmem
      · obtain rfl := List.mem_singleton.mp hmem
        exact .inr (.inr ⟨d, .inl hthread⟩)
  · rcases step_held (s := s) (a := a) with hheld | ⟨d, new, hheld, -⟩
    · rwa [hheld]
    · rw [hheld, List.length_append]
      omega

theorem Follows.run {actions : List (Action N)} (h : s.Follows c sub filter replay mark)
    (houtlasts : Lib.Along Server.step (Outlasts c sub) s actions)
    (hheeds : Lib.Along Server.step (Heeds c sub filter replay mark) s actions) :
    (Lib.run Server.step s actions).Follows c sub filter replay mark :=
  Lib.run_invariant (fun _ _ hs hP => hs.step hP.1 hP.2) h (houtlasts.and hheeds)

/-- Not sent yet, but where only sending is left: in what is still to be replayed, with a thread
that is about to broadcast it, or in the queue. -/
def Coming (s : Server N) (c : ℕ) (sub : String) (event : N.Event) : Prop :=
  (∃ filter rest, s.thread c = .replaying sub filter rest ∧ event ∈ rest) ∨ s.Underway event ∨
    ∃ queue, s.outbound c = some queue ∧ .event sub event ∈ queue

theorem Reached.sent_or_coming {event : N.Event} (h : s.Reached c (.event sub event)) :
    .event sub event ∈ s.socket c ∨ s.Coming c sub event :=
  h.imp_right fun hqueue => .inr (.inr hqueue)

theorem Follows.sent_or_coming (h : s.Follows c sub filter replay mark) {event : N.Event}
    (hdue : event ∈ replay ∨ event ∈ s.held.drop mark ∧ filter.matchesEvent event = true) :
    .event sub event ∈ s.socket c ∨ s.Coming c sub event := by
  have hreplayed : event ∈ replay → .event sub event ∈ s.socket c ∨ s.Coming c sub event := by
    intro hmem
    rcases h.replayed with ⟨rest, hthread, hrest⟩ | ⟨-, hall⟩
    · rcases hrest event hmem with hrest | hreached
      · exact .inr (.inl ⟨filter, rest, hthread, hrest⟩)
      · exact hreached.sent_or_coming
    · exact (hall event hmem).sent_or_coming
  rcases hdue with hmem | ⟨hmem, hmatch⟩
  · exact hreplayed hmem
  · rcases h.later event hmem hmatch with hmem | hreached | hunderway
    · exact hreplayed hmem
    · exact hreached.sent_or_coming
    · exact .inr (.inr (.inl hunderway))

/-- The query starts a subscription off. -/
theorem follows_req {value : Json} {now : UInt64} {sent : Bool} {swept : EventStore N}
    (hqueued : s.Queued) (hreading : s.thread c = .reading)
    (hanswer : answer s.store now (.fromJson N value) = .ok (replay, swept)) :
    (s.step (.req c sub value now sent)).Follows c sub (.fromJson N value) replay
      s.held.length := by
  have hqueue : (s.outbound c).isSome := by
    rcases hqueued c with habsent | hgone | hqueue
    · rw [hreading] at habsent
      cases habsent
    · rw [hreading] at hgone
      cases hgone
    · exact hqueue
  have hstep : s.step (.req c sub value now sent) =
      { s.goOn c (.replaying sub (.fromJson N value) replay) with store := swept } := by
    simp [Server.step, hreading, hanswer]
  rw [hstep]
  constructor
  · constructor <;> simp [hqueue]
  · exact .inl ⟨replay, by simp, fun event hmem => .inl hmem⟩
  · intro event hmem
    simp at hmem
  · simp

/-- Between query and registration nothing that came is broadcast, and no send to a sender fails:
then every event that was held, or came since, is sent to the subscriber or is about to be, as
long as the subscription lasts. -/
theorem sent_or_coming_of_heeds {config : RelayConfig} {before after : List (Action N)} {c : ℕ}
    {sub : String} {value : Json} {now : UInt64} {sent : Bool} {replay : List N.Event}
    {swept : EventStore N}
    (hreading : (Lib.run step (start config) before).thread c = .reading)
    (hanswer : answer (Lib.run step (start config) before).store now (.fromJson N value) =
      .ok (replay, swept))
    (houtlasts : Lib.Along step (Outlasts c sub)
      (Lib.run step (start config) (before ++ [.req c sub value now sent])) after)
    (hheeds : Lib.Along step (Heeds c sub (.fromJson N value) replay
        (Lib.run step (start config) before).held.length)
      (Lib.run step (start config) (before ++ [.req c sub value now sent])) after) :
    let s₀ := Lib.run step (start config) before
    let s := Lib.run step (start config) (before ++ .req c sub value now sent :: after)
    ∀ event : N.Event, (event ∈ replay ∨ event ∈ s.held.drop s₀.held.length ∧
        (RelayFilter.fromJson N value).matchesEvent event = true) →
      .event sub event ∈ s.socket c ∨ s.Coming c sub event := by
  intro s₀ s event hdue
  rw [Lib.run_append, Lib.run_cons, Lib.run_nil] at houtlasts hheeds
  have hstart : (s₀.step (.req c sub value now sent)).Follows c sub (.fromJson N value) replay
      s₀.held.length := follows_req (queued_run config before) hreading hanswer
  have hs : s = Lib.run step (s₀.step (.req c sub value now sent)) after := by
    show Lib.run step (start config) (before ++ .req c sub value now sent :: after) = _
    rw [Lib.run_append, Lib.run_cons]
  have hend := hstart.run houtlasts hheeds
  rw [← hs] at hend
  exact hend.sent_or_coming hdue

end

/-- A request addressed to the bunker, from somebody. -/
def request : (Crate.plain []).Event :=
  (⟨"e1", "mallory", 1000, 24133, ["bunker"], "", true⟩ : Nostr.Event String (List String) Bool)

/-- Two connections, of which the first subscribes. -/
def pair : List (Action (Crate.plain [])) := [.connect 1, .connect 2]

def subscribe : Action (Crate.plain []) := .req 1 "s" bunkerFilter 1000 true

def registering : List (Action (Crate.plain [])) := [.eose 1 true, .register 1]

/-- The second publishes the request. -/
def publishing : List (Action (Crate.plain [])) :=
  [.event 2 request 1000 true, .budget 2 true, .insert 2 true, .acknowledge 2 true, .broadcast 2]

theorem sent_or_coming_registered :
    .event "s" request ∈ (Lib.run step (start .default)
      (pair ++ subscribe :: (registering ++ publishing))).socket 1 ∨
    (Lib.run step (start .default) (pair ++ subscribe :: (registering ++ publishing))).Coming 1 "s"
      request := by
  have houtlasts : Lib.Along step (Outlasts 1 "s")
      (Lib.run step (start .default) (pair ++ [subscribe])) (registering ++ publishing) := by
    simp only [publishing, registering, List.cons_append, List.nil_append]
    iterate 7
      refine Lib.along_cons.mpr ⟨⟨nofun, fun h => ?_⟩, ?_⟩
      · cases h
    exact Lib.along_nil _
  have hheeds : Lib.Along step (Heeds 1 "s" (.fromJson (Crate.plain []) bunkerFilter) []
        (Lib.run step (start .default) pair).held.length)
      (Lib.run step (start .default) (pair ++ [subscribe])) (registering ++ publishing) := by
    simp only [publishing, registering, List.cons_append, List.nil_append]
    iterate 6
      refine Lib.along_cons.mpr ⟨fun d event _ _ _ => ⟨fun _ => nofun, fun _ => nofun⟩, ?_⟩
    exact Lib.along_cons.mpr ⟨fun d event _ _ _ =>
      ⟨fun _ => nofun, fun _ _ => List.mem_singleton_self _⟩, Lib.along_nil _⟩
  have hreading : (Lib.run step (start .default) pair).thread 1 = .reading := rfl
  have hanswer : answer (Lib.run step (start .default) pair).store 1000
      (.fromJson (Crate.plain []) bunkerFilter) = .ok ([], ⟨[], .default⟩) := rfl
  exact sent_or_coming_of_heeds hreading hanswer houtlasts hheeds request
    (.inr ⟨List.mem_singleton_self request, rfl⟩)

/-- What comes between query and registration never arrives. -/
theorem lost_between :
    ¬ ∀ (before after : List (Action (Crate.plain []))) (c : ℕ) (sub : String) (value : Json)
      (now : UInt64) (sent : Bool) (replay : List (Crate.plain []).Event)
      (swept : EventStore (Crate.plain [])),
      (Lib.run step (start .default) before).thread c = .reading →
      answer (Lib.run step (start .default) before).store now (.fromJson _ value) =
        .ok (replay, swept) →
      Lib.Along step (Outlasts c sub)
        (Lib.run step (start .default) (before ++ [.req c sub value now sent])) after →
      ∀ event, event ∈ replay ∨
          event ∈ (Lib.run step (start .default)
            (before ++ .req c sub value now sent :: after)).held.drop
              (Lib.run step (start .default) before).held.length ∧
          (RelayFilter.fromJson _ value).matchesEvent event = true →
        .event sub event ∈ (Lib.run step (start .default)
          (before ++ .req c sub value now sent :: after)).socket c ∨
        (Lib.run step (start .default)
          (before ++ .req c sub value now sent :: after)).Coming c sub event := by
  intro h
  have houtlasts : Lib.Along step (Outlasts 1 "s")
      (Lib.run step (start .default) (pair ++ [subscribe])) (publishing ++ registering) := by
    simp only [publishing, registering, List.cons_append, List.nil_append]
    iterate 7
      refine Lib.along_cons.mpr ⟨⟨nofun, fun h => ?_⟩, ?_⟩
      · cases h
    exact Lib.along_nil _
  have hsent := h pair (publishing ++ registering) 1 "s" bunkerFilter 1000 true [] _ rfl rfl
    houtlasts request (.inr ⟨List.mem_singleton_self request, rfl⟩)
  let s := Lib.run step (start .default) (pair ++ subscribe :: (publishing ++ registering))
  have hsocket : s.socket 1 = [.eose "s"] := rfl
  have hqueue : s.outbound 1 = some [] := rfl
  have hthread : s.thread 1 = .reading := rfl
  have hthreads : ∀ d, s.thread d = .reading ∨ s.thread d = .absent := by
    intro d
    match d with
    | 0 => exact .inr rfl
    | 1 => exact .inl rfl
    | 2 => exact .inl rfl
    | d + 3 => exact .inr rfl
  rcases hsent with hsent | ⟨filter, rest, hreplaying, -⟩ | ⟨d, hd⟩ | ⟨queue, hqueue', hmem⟩
  · cases List.mem_singleton.mp (hsocket ▸ hsent)
  · cases hthread.symm.trans hreplaying
  · rcases hthreads d with hreads | habsent <;> rcases hd with hd | hd
    · cases hreads.symm.trans hd
    · cases hreads.symm.trans hd
    · cases habsent.symm.trans hd
    · cases habsent.symm.trans hd
  · obtain rfl := Option.some.inj (hqueue.symm.trans hqueue')
    exact List.not_mem_nil hmem

end Server
end Kuma.Relay
