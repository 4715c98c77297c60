import Kuma.Lib.Run
import Kuma.Relay.Filter

/-! What the relay holds over its whole life. A held event is remembered for its retention; when
that is twice the accept window, an event that was forgotten is too old to come back. -/
namespace Kuma.Relay

open Lib
open Nostr (Crate)

variable {N : Crate}

/-- An event offered to the store, or the eviction beat. -/
inductive StoreMove (N : Crate)
  | insert (event : N.Event)
  | evict

namespace EventStore

def new (config : RelayConfig) : EventStore N := ⟨[], config⟩

/-- A move at a second of the relay's clock; what the door refuses changes nothing. -/
def moved (store : EventStore N) (move : UInt64 × StoreMove N) : EventStore N :=
  match move.2 with
  | .insert event => (store.insert event move.1).toOption.getD store
  | .evict => store.evict move.1

/-- The move is an event of this id, and the store takes it in. -/
def takesIn (id : String) (visit : EventStore N × UInt64 × StoreMove N) : Bool :=
  match visit.2.2 with
  | .insert event => event.id == id && (visit.1.insert event visit.2.1).toOption.isSome
  | .evict => false

end EventStore

/-- The id of an event that verifies is the hash of the rest of it. -/
def IdsBind (N : Crate) : Prop :=
  ∀ event event' : N.Event, N.verify event = true → N.verify event' = true →
    event.id = event'.id → event.createdAt = event'.createdAt

namespace EventStore

section
variable {store store' : EventStore N} {event : N.Event} {now : UInt64} {id : String}

/-- What an event that is taken in has passed. -/
theorem insert_eq_ok (h : store.insert event now = .ok store') :
    N.verify event = true ∧ event.kind ∈ CARRIED_KINDS ∧
      (∀ stored ∈ store.events, stored.event.id ≠ event.id) ∧
      now.toNat - store.config.acceptWindowSecs.toNat < event.createdAt.toNat ∧
      event.createdAt.toNat < now.toNat + store.config.acceptWindowSecs.toNat ∧
      store' = { store with events := store.events ++ [⟨event, now⟩] } := by
  obtain ⟨⟨⟩, hadmission, h⟩ := bind_eq_ok.mp h
  unfold admission at hadmission
  simp only at hadmission
  split_ifs at hadmission with hverify hkind hwindow
  split_ifs at h with hheld
  obtain ⟨hpast, hfuture⟩ := hwindow
  have hpast := UInt64.lt_iff_toNat_lt.mp hpast
  have hfuture := UInt64.lt_iff_toNat_lt.mp hfuture
  rw [toNat_saturatingSub] at hpast
  rw [UInt64.toNat_add] at hfuture
  have hmod := Nat.mod_le (now.toNat + store.config.acceptWindowSecs.toNat) (2 ^ 64)
  refine ⟨by simpa using hverify, hkind, ?_, hpast, by omega, (Except.ok.inj h).symm⟩
  intro stored hstored hid
  exact hheld (List.any_eq_true.mpr ⟨stored, hstored, by simpa using hid⟩)

/-- A move drops nothing but what has outlived its retention, and adds nothing but an event that was
taken in. -/
theorem moved_cases (store : EventStore N) (move : UInt64 × StoreMove N) :
    (∃ event, move.2 = .insert event ∧ store.insert event move.1 = .ok (store.moved move)) ∨
    (∃ event error, move.2 = .insert event ∧ store.insert event move.1 = .error error ∧
      store.moved move = store) ∨
    move.2 = .evict ∧ store.moved move = store.evict move.1 := by
  obtain ⟨now, move⟩ := move
  cases move with
  | evict => exact .inr (.inr ⟨rfl, rfl⟩)
  | insert event =>
    cases hinsert : store.insert event now with
    | ok store' => exact .inl ⟨event, rfl, by simp [moved, hinsert, Except.toOption]⟩
    | error e =>
      exact .inr (.inl ⟨event, e, rfl, hinsert, by simp [moved, hinsert, Except.toOption]⟩)

theorem moved_config (store : EventStore N) (move : UInt64 × StoreMove N) :
    (store.moved move).config = store.config := by
  rcases store.moved_cases move with ⟨event, -, hinsert⟩ | ⟨event, error, -, -, hsame⟩ | ⟨-, hevict⟩
  · rw [(insert_eq_ok hinsert).2.2.2.2.2]
  · rw [hsame]
  · rw [hevict]
    rfl

/-- A held event stays, or its retention is over. -/
theorem mem_moved {first : Stored N} {move : UInt64 × StoreMove N} (h : first ∈ store.events)
    (hafter : first.receivedAt.toNat ≤ move.1.toNat) : first ∈ (store.moved move).events ∨
      first.receivedAt.toNat + store.config.ttlSecs.toNat ≤ move.1.toNat := by
  rcases store.moved_cases move with ⟨event, -, hinsert⟩ | ⟨event, error, -, -, hsame⟩ | ⟨-, hevict⟩
  · left
    rw [(insert_eq_ok hinsert).2.2.2.2.2]
    exact List.mem_append_left _ h
  · left
    rw [hsame]
    exact h
  · by_cases hlive : saturatingSub move.1 first.receivedAt < store.config.ttlSecs
    · left
      rw [hevict]
      exact List.mem_filter.mpr ⟨h, by simpa using hlive⟩
    · right
      have hage := UInt64.le_iff_toNat_le.mp (UInt64.not_lt.mp hlive)
      rw [toNat_saturatingSub] at hage
      omega

/-- The store holds events that verify, of kinds it carries, and none of them twice. -/
structure Sound (store : EventStore N) : Prop where
  distinct : (store.events.map (·.event.id)).Nodup
  carried : ∀ stored ∈ store.events, stored.event.kind ∈ CARRIED_KINDS
  verified : ∀ stored ∈ store.events, N.verify stored.event = true

theorem Sound.moved (h : store.Sound) (move : UInt64 × StoreMove N) : (store.moved move).Sound := by
  rcases store.moved_cases move with ⟨event, -, hinsert⟩ | ⟨event, error, -, -, hsame⟩ | ⟨-, hevict⟩
  · obtain ⟨hverify, hkind, hnew, -, -, heq⟩ := insert_eq_ok hinsert
    rw [heq]
    constructor
    · have hfresh : event.id ∉ store.events.map (·.event.id) := by
        intro hmem
        obtain ⟨stored, hstored, hid⟩ := List.mem_map.mp hmem
        exact hnew stored hstored hid
      have hconcat := h.distinct.concat hfresh
      rw [List.concat_eq_append] at hconcat
      rwa [List.map_append, List.map_singleton]
    · intro stored hstored
      rcases List.mem_append.mp hstored with hold | hnew
      · exact h.carried stored hold
      · rw [List.mem_singleton.mp hnew]
        exact hkind
    · intro stored hstored
      rcases List.mem_append.mp hstored with hold | hnew
      · exact h.verified stored hold
      · rw [List.mem_singleton.mp hnew]
        exact hverify
  · rw [hsame]
    exact h
  · rw [hevict]
    constructor
    · exact h.distinct.sublist (List.filter_sublist.map _)
    · exact fun stored hstored => h.carried stored (List.mem_of_mem_filter hstored)
    · exact fun stored hstored => h.verified stored (List.mem_of_mem_filter hstored)

/-- The clock of the moves to come does not go back, and forgetting takes two windows. -/
structure Timely (store : EventStore N) (moves : List (UInt64 × StoreMove N)) : Prop where
  clock : (moves.map fun move => move.1.toNat).Pairwise (· ≤ ·)
  retention : 2 * store.config.acceptWindowSecs.toNat ≤ store.config.ttlSecs.toNat

/-- The id was taken in: it is still held, or what is to come is past its retention. -/
def Spent (id : String) (store : EventStore N) (moves : List (UInt64 × StoreMove N)) : Prop :=
  store.Timely moves ∧ ∃ first : Stored N, first.event.id = id ∧ N.verify first.event = true ∧
    first.event.createdAt.toNat < first.receivedAt.toNat + store.config.acceptWindowSecs.toNat ∧
    (∀ move ∈ moves, first.receivedAt.toNat ≤ move.1.toNat) ∧
    (first ∈ store.events ∨
      ∀ move ∈ moves, first.receivedAt.toNat + store.config.ttlSecs.toNat ≤ move.1.toNat)

theorem Timely.tail {move : UInt64 × StoreMove N} {moves : List (UInt64 × StoreMove N)}
    (h : store.Timely (move :: moves)) : (store.moved move).Timely moves ∧
      ∀ later ∈ moves, move.1.toNat ≤ later.1.toNat := by
  obtain ⟨hfirst, hclock⟩ := List.pairwise_cons.mp h.clock
  have hretention := h.retention
  rw [← store.moved_config move] at hretention
  exact ⟨⟨hclock, hretention⟩, fun later hlater => hfirst _ (List.mem_map_of_mem hlater)⟩

theorem takesIn_eq_true {move : UInt64 × StoreMove N} (h : takesIn id (store, move) = true) :
    ∃ event, event.id = id ∧ move.2 = .insert event ∧
      store.insert event move.1 = .ok (store.moved move) := by
  obtain ⟨now, move⟩ := move
  cases move with
  | evict => cases h
  | insert event =>
    obtain ⟨hid, hok⟩ := Bool.and_eq_true_iff.mp h
    obtain ⟨store', hstore'⟩ := Option.isSome_iff_exists.mp hok
    have hinsert : store.insert event now = .ok store' := toOption_eq_some.mp hstore'
    have hmoved : store.moved (now, .insert event) = store' := by
      simp [moved, hinsert, Except.toOption]
    rw [hmoved]
    exact ⟨event, beq_iff_eq.mp hid, rfl, hinsert⟩

theorem spent_of_takesIn {move : UInt64 × StoreMove N} {moves : List (UInt64 × StoreMove N)}
    (h : store.Timely (move :: moves)) (htakes : takesIn id (store, move) = true) :
    (store.moved move).Spent id moves := by
  obtain ⟨event, hid, -, hinsert⟩ := takesIn_eq_true htakes
  obtain ⟨hverify, -, -, -, hfuture, heq⟩ := insert_eq_ok hinsert
  obtain ⟨htail, hlater⟩ := h.tail
  refine ⟨htail, ⟨event, move.1⟩, hid, hverify, ?_, hlater, .inl ?_⟩
  · rw [store.moved_config]
    exact hfuture
  · rw [heq]
    exact List.mem_append_right _ (List.mem_singleton_self _)

/-- What was taken in is not taken in again. -/
theorem Spent.next (hids : IdsBind N) {move : UInt64 × StoreMove N}
    {moves : List (UInt64 × StoreMove N)} (h : store.Spent id (move :: moves)) :
    takesIn id (store, move) = false ∧ (store.moved move).Spent id moves := by
  obtain ⟨htimely, first, hid, hverify, hcreated, hafter, hheld⟩ := h
  have hmove := hafter move List.mem_cons_self
  constructor
  · by_contra htakes
    obtain ⟨event, hevent, -, hinsert⟩ := takesIn_eq_true (Bool.not_eq_false _ ▸ htakes)
    obtain ⟨hverify', -, hnew, hpast, -, -⟩ := insert_eq_ok hinsert
    have hsame := hids first.event event hverify hverify' (hid.trans hevent.symm)
    rcases hheld with hheld | hover
    · exact hnew first hheld (hid.trans hevent.symm)
    · have hretention := htimely.retention
      have hover := hover move List.mem_cons_self
      rw [← hsame] at hpast
      omega
  · obtain ⟨htail, hlater⟩ := htimely.tail
    refine ⟨htail, first, hid, hverify, ?_, ?_, ?_⟩
    · rw [store.moved_config]
      exact hcreated
    · exact fun later hmem => hafter later (List.mem_cons_of_mem _ hmem)
    · rw [store.moved_config]
      rcases hheld with hheld | hover
      · rcases mem_moved hheld hmove with hstays | hover
        · exact .inl hstays
        · exact .inr fun later hmem => hover.trans (hlater later hmem)
      · exact .inr fun later hmem => hover later (List.mem_cons_of_mem _ hmem)

end

/-- When the retention is at least two accept windows, the store takes an id in at most once over
its whole life, and holds only verified events of the kinds it carries, none of them twice. -/
theorem taken_in_once (hids : IdsBind N) {config : RelayConfig}
    (hretention : 2 * config.acceptWindowSecs.toNat ≤ config.ttlSecs.toNat)
    {moves : List (UInt64 × StoreMove N)}
    (hclock : (moves.map fun move => move.1.toNat).Pairwise (· ≤ ·)) :
    (∀ id, (visits moved (new config) moves).countP (takesIn id) ≤ 1) ∧
      ∀ pre, pre <+: moves → (run moved (new config) pre).Sound := by
  constructor
  · intro id
    have htimely : (new config : EventStore N).Timely moves := ⟨hclock, hretention⟩
    have hbefore : ∀ (store : EventStore N) move moves, store.Timely (move :: moves) →
        takesIn id (store, move) = false → (store.moved move).Timely moves :=
      fun _ _ _ h _ => h.tail.1
    have htaken : ∀ (store : EventStore N) move moves, store.Timely (move :: moves) →
        takesIn id (store, move) = true → (store.moved move).Spent id moves :=
      fun _ _ _ h htakes => spent_of_takesIn h htakes
    have hafter : ∀ (store : EventStore N) move moves, store.Spent id (move :: moves) →
        takesIn id (store, move) = false ∧ (store.moved move).Spent id moves :=
      fun _ _ _ h => h.next hids
    exact countP_visits_le_one hbefore htaken hafter htimely
  · intro pre _
    have hempty : (new config : EventStore N).Sound :=
      ⟨List.nodup_nil, fun _ h => absurd h List.not_mem_nil, fun _ h => absurd h List.not_mem_nil⟩
    exact run_invariant (P := fun _ _ => True) (fun _ move h _ => h.moved move) hempty
      fun _ _ => trivial

/-- A surface on which an event's id spells its moment. -/
private def spelling : Crate :=
  { Crate.plain [] with
    verify := fun event => event.sig && event.id == toString event.createdAt.toNat }

private theorem idsBind_spelling : IdsBind spelling := by
  intro event event' hverify hverify' hid
  have hspell := beq_iff_eq.mp (Bool.and_eq_true_iff.mp hverify).2
  have hspell' := beq_iff_eq.mp (Bool.and_eq_true_iff.mp hverify').2
  rw [hspell, hspell', Nat.toString_eq_ofList_toDigits, Nat.toString_eq_ofList_toDigits] at hid
  have hdigits := congrArg (fun s => Nat.ofDigitChars 10 s.toList 0) hid
  simp only [String.toList_ofList, Nat.ofDigitChars_ten_toDigits] at hdigits
  exact UInt64.toNat_inj.mp hdigits

/-- An event is taken in, outlives its retention and comes back. -/
theorem taken_in_once_forgotten :
    let event : spelling.Event := ⟨"1000", "app", 1000, 24133, [], "", true⟩
    (visits moved (new .default)
      [(1000, .insert event), (1600, .evict), (1600, .insert event)]).countP
        (takesIn "1000") ≤ 1 := by
  intro event
  have hretention : 2 * RelayConfig.default.acceptWindowSecs.toNat ≤
      RelayConfig.default.ttlSecs.toNat := by decide
  exact (taken_in_once idsBind_spelling hretention (by decide)).1 "1000"

end EventStore
end Kuma.Relay
