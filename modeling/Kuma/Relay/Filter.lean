import Mathlib.Data.List.Sort
import Mathlib.Data.Set.Finite.Basic
import Kuma.Lib.Fallible
import Kuma.Lib.Saturating
import Kuma.Nostr.Crate

/-! The relay's filters and its event store, and what a filter object means by the protocol: every
list it carries must hold the event's own entry, and every bound must admit its time. -/
namespace Kuma.Relay

open Nostr (Crate Json Number)
open Lib (saturatingSub toNat_saturatingSub)

def CARRIED_KINDS : List UInt16 := [24133, 24135]

def MAX_LIMIT : ℕ := 100

/-- The door's numbers. -/
structure RelayConfig where
  ttlSecs : UInt64
  acceptWindowSecs : UInt64
  rateLimit : ℕ

def RelayConfig.default : RelayConfig := ⟨10 * 60, 60, 100⟩

inductive Rejected
  | kind (k : UInt16)
  | timestamp
  | signature
  | duplicate
  deriving DecidableEq

structure RelayFilter (N : Crate) where
  kinds : List UInt16
  p : List N.PublicKey
  authors : List N.PublicKey
  ids : List String
  since : Option UInt64
  «until» : Option UInt64
  limit : Option UInt64

/-- A held event, with the relay's clock at its arrival. -/
structure Stored (N : Crate) where
  event : N.Event
  receivedAt : UInt64

structure EventStore (N : Crate) where
  events : List (Stored N)
  config : RelayConfig

/-- `get(key).and_then(as_array)`. -/
def arrayAt (value : Json) (key : String) : Option (List Json) :=
  match value.get? key with
  | some (.array items) => some items
  | _ => none

/-- The strings of a list. -/
def readStrings (items : List Json) : List String := items.filterMap Json.asStr

/-- The kinds of a list, as the cast leaves them. -/
def readKinds (items : List Json) : List UInt16 :=
  items.filterMap fun v => v.asU64.map UInt64.toUInt16

variable {N : Crate}

/-- The keys of a list that parse. -/
def readKeys (N : Crate) (items : List Json) : List N.PublicKey :=
  (readStrings items).filterMap fun s => (N.parsePublicKey s).toOption

namespace RelayFilter

/-- `RelayFilter::from_json`. -/
def fromJson (N : Crate) (value : Json) : RelayFilter N where
  kinds := ((arrayAt value "kinds").map readKinds).getD []
  p := ((arrayAt value "#p").map (readKeys N)).getD []
  authors := ((arrayAt value "authors").map (readKeys N)).getD []
  ids := ((arrayAt value "ids").map readStrings).getD []
  since := (value.get? "since").bind Json.asU64
  «until» := (value.get? "until").bind Json.asU64
  limit := (value.get? "limit").bind Json.asU64

/-- `RelayFilter::reject_reason`. -/
def rejectReason (filter : RelayFilter N) : Option String :=
  let matchesNip46 := filter.kinds.isEmpty || filter.kinds.any fun k => k == 24133 || k == 24135
  let isScoped := !filter.authors.isEmpty || !filter.p.isEmpty || !filter.ids.isEmpty
  if matchesNip46 && !isScoped then
    some "blocked: NIP-46 queries must be scoped by authors, #p, or ids"
  else none

/-- `RelayFilter::matches`. -/
def matchesEvent (filter : RelayFilter N) (event : N.Event) : Bool :=
  if !filter.kinds.isEmpty && !(filter.kinds.contains event.kind) then false
  else if !filter.p.isEmpty && !(filter.p.any fun p => (N.tagKeys event.tags).any (· == p)) then
    false
  else if filter.since.any (event.createdAt < ·) then false
  else if filter.until.any (event.createdAt > ·) then false
  else true

end RelayFilter

namespace EventStore

variable (store : EventStore N)

/-- `EventStore::admission`. -/
def admission (event : N.Event) (now : UInt64) : Except Rejected Unit :=
  if N.verify event = false then .error .signature
  else if event.kind ∉ CARRIED_KINDS then .error (.kind event.kind)
  else
    let window := store.config.acceptWindowSecs
    if saturatingSub now window < event.createdAt ∧ event.createdAt < now + window then .ok ()
    else .error .timestamp

/-- `EventStore::insert`, which answers that the event is fresh. -/
def insert (event : N.Event) (now : UInt64) : Except Rejected (EventStore N) := do
  store.admission event now
  if store.events.any (·.event.id == event.id) then .error .duplicate
  else .ok { store with events := store.events ++ [⟨event, now⟩] }

/-- `EventStore::evict`. -/
def evict (now : UInt64) : EventStore N :=
  { store with events := store.events.filter fun stored =>
      saturatingSub now stored.receivedAt < store.config.ttlSecs }

/-- `EventStore::query`: the newest of the events that match, newest first. -/
def query (filter : RelayFilter N) : List N.Event :=
  let matched := ((store.events.filter fun stored => filter.matchesEvent stored.event).map
    (·.event)).insertionSort fun a b => b.createdAt ≤ a.createdAt
  matched.take (min ((filter.limit.map UInt64.toNat).getD MAX_LIMIT) MAX_LIMIT)

/-- The store carries signing traffic only. -/
def CarriesOnly : Prop := ∀ stored ∈ store.events, stored.event.kind ∈ CARRIED_KINDS

end EventStore

/-- The part of a `REQ` that the store answers: the refusal, or the replay and the swept store. -/
def answer (store : EventStore N) (now : UInt64) (filter : RelayFilter N) :
    Except String (List N.Event × EventStore N) :=
  match filter.rejectReason with
  | some reason => .error reason
  | none => .ok ((store.evict now).query filter, store.evict now)

/-- `broadcast`: the subscriptions whose filter the event answers, with their connections. -/
def broadcast (subscriptions : List (ℕ × List (String × RelayFilter N))) (event : N.Event) :
    List (ℕ × String) :=
  subscriptions.flatMap fun conn =>
    (conn.2.filter fun sub => sub.2.matchesEvent event).map fun sub => (conn.1, sub.1)

section
variable {filter : RelayFilter N} {event : N.Event} {store swept : EventStore N} {now : UInt64}
  {replay : List N.Event}

theorem RelayFilter.matchesEvent_iff : filter.matchesEvent event = true ↔
    (filter.kinds = [] ∨ event.kind ∈ filter.kinds) ∧
    (filter.p = [] ∨ ∃ key ∈ filter.p, key ∈ N.tagKeys event.tags) ∧
    (∀ t ∈ filter.since, t ≤ event.createdAt) ∧ ∀ t ∈ filter.until, event.createdAt ≤ t := by
  have hkinds : (!filter.kinds.isEmpty && !(filter.kinds.contains event.kind)) = true ↔
      ¬(filter.kinds = [] ∨ event.kind ∈ filter.kinds) := by simp
  have hp : (!filter.p.isEmpty &&
      !(filter.p.any fun p => (N.tagKeys event.tags).any (· == p))) = true ↔
      ¬(filter.p = [] ∨ ∃ key ∈ filter.p, key ∈ N.tagKeys event.tags) := by simp
  have hsince : (filter.since.any (event.createdAt < ·)) = true ↔
      ¬ ∀ t ∈ filter.since, t ≤ event.createdAt := by
    cases filter.since <;> simp
  have huntil : (filter.until.any (event.createdAt > ·)) = true ↔
      ¬ ∀ t ∈ filter.until, event.createdAt ≤ t := by
    cases filter.until <;> simp
  rw [matchesEvent, if_congr hkinds rfl rfl, if_congr hp rfl rfl, if_congr hsince rfl rfl,
    if_congr huntil rfl rfl]
  by_cases h₁ : filter.kinds = [] ∨ event.kind ∈ filter.kinds
  swap
  · rw [if_pos h₁]
    exact iff_of_false Bool.false_ne_true fun h => h₁ h.1
  by_cases h₂ : filter.p = [] ∨ ∃ key ∈ filter.p, key ∈ N.tagKeys event.tags
  swap
  · rw [if_neg (not_not.mpr h₁), if_pos h₂]
    exact iff_of_false Bool.false_ne_true fun h => h₂ h.2.1
  by_cases h₃ : ∀ t ∈ filter.since, t ≤ event.createdAt
  swap
  · rw [if_neg (not_not.mpr h₁), if_neg (not_not.mpr h₂), if_pos h₃]
    exact iff_of_false Bool.false_ne_true fun h => h₃ h.2.2.1
  by_cases h₄ : ∀ t ∈ filter.until, event.createdAt ≤ t
  swap
  · rw [if_neg (not_not.mpr h₁), if_neg (not_not.mpr h₂), if_neg (not_not.mpr h₃), if_pos h₄]
    exact iff_of_false Bool.false_ne_true fun h => h₄ h.2.2.2
  rw [if_neg (not_not.mpr h₁), if_neg (not_not.mpr h₂), if_neg (not_not.mpr h₃),
    if_neg (not_not.mpr h₄)]
  exact iff_of_true rfl ⟨h₁, h₂, h₃, h₄⟩

theorem EventStore.mem_query (h : event ∈ store.query filter) :
    filter.matchesEvent event = true ∧ ∃ stored ∈ store.events, stored.event = event := by
  have hmem := (List.mem_insertionSort _).mp (List.mem_of_mem_take h)
  obtain ⟨stored, hstored, rfl⟩ := List.mem_map.mp hmem
  obtain ⟨hheld, hmatch⟩ := List.mem_filter.mp hstored
  exact ⟨hmatch, stored, hheld, rfl⟩

theorem EventStore.CarriesOnly.evict (h : store.CarriesOnly) : (store.evict now).CarriesOnly :=
  fun stored hstored => h stored (List.mem_of_mem_filter hstored)

/-- What the door lets in is signing traffic. -/
theorem EventStore.kind_of_insert (h : store.insert event now = .ok swept) :
    event.kind ∈ CARRIED_KINDS := by
  obtain ⟨⟨⟩, hadmission, -⟩ := Lib.bind_eq_ok.mp h
  unfold admission at hadmission
  by_contra hkind
  rw [if_pos hkind] at hadmission
  split_ifs at hadmission

theorem EventStore.events_of_insert (h : store.insert event now = .ok swept) :
    swept.events = store.events ++ [⟨event, now⟩] := by
  obtain ⟨-, -, h⟩ := Lib.bind_eq_ok.mp h
  split_ifs at h
  obtain rfl := Except.ok.inj h
  rfl

theorem EventStore.CarriesOnly.insert (h : store.CarriesOnly)
    (hinsert : store.insert event now = .ok swept) : swept.CarriesOnly := by
  intro stored hstored
  rw [events_of_insert hinsert, List.mem_append, List.mem_singleton] at hstored
  rcases hstored with hstored | rfl
  · exact h stored hstored
  · exact kind_of_insert hinsert

theorem answer_eq_ok : answer store now filter = .ok (replay, swept) ↔
    filter.rejectReason = none ∧ (store.evict now).query filter = replay ∧
      store.evict now = swept := by
  rw [answer]
  cases filter.rejectReason <;> simp

end

/-- A lower bound on an event's time; a negative one is below every time. -/
def notBefore (t : UInt64) : Json → Prop
  | .number (.posInt n) => n ≤ t
  | _ => True

/-- An upper bound on an event's time. -/
def notAfter (t : UInt64) : Json → Prop
  | .number (.posInt n) => t ≤ n
  | .number (.negInt _) => False
  | _ => True

/-- The event meets every constraint the object carries. -/
structure Satisfies (value : Json) (event : N.Event) : Prop where
  kinds : ∀ items, arrayAt value "kinds" = some items →
    event.kind.toUInt64 ∈ items.filterMap Json.asU64
  authors : ∀ items, arrayAt value "authors" = some items → event.pubkey ∈ readKeys N items
  ids : ∀ items, arrayAt value "ids" = some items → event.id ∈ readStrings items
  p : ∀ items, arrayAt value "#p" = some items →
    ∃ key ∈ readKeys N items, key ∈ N.tagKeys event.tags
  since : ∀ bound, value.get? "since" = some bound → notBefore event.createdAt bound
  «until» : ∀ bound, value.get? "until" = some bound → notAfter event.createdAt bound

/-- The event reaches the subscription of the object: in the replay, out of a store of signing
traffic, or when it comes in. -/
inductive Delivered (value : Json) (event : N.Event) : Prop
  | replayed (store swept : EventStore N) (now : UInt64) (replay : List N.Event)
      (hcarries : store.CarriesOnly)
      (hanswer : answer store now (.fromJson N value) = .ok (replay, swept))
      (hmem : event ∈ replay)
  | live (conn : ℕ) (sub : String) (hkind : event.kind ∈ CARRIED_KINDS)
      (hopen : (RelayFilter.fromJson N value).rejectReason = none)
      (hmem : (conn, sub) ∈ broadcast [(conn, [(sub, .fromJson N value)])] event)

/-- The filter can match none of what the relay carries. -/
def Barren (value : Json) : Prop :=
  (∃ items, arrayAt value "kinds" = some items ∧ readKinds items ≠ [] ∧
    ∀ k ∈ CARRIED_KINDS, k ∉ readKinds items) ∨
  ∃ since upTo, (value.get? "since").bind Json.asU64 = some since ∧
    (value.get? "until").bind Json.asU64 = some upTo ∧ upTo < since

/-- The lists and bounds of the object are such that the filter heeds them: no list of ids, no list
of authors that leaves a key out, no kind that the cast makes another one of, no list without an
entry to read, no negative upper bound. -/
structure Heeded (N : Crate) (value : Json) : Prop where
  kinds : ∀ items, arrayAt value "kinds" = some items → ∀ k ∈ CARRIED_KINDS,
    (readKinds items = [] ∨ k ∈ readKinds items) → k.toUInt64 ∈ items.filterMap Json.asU64
  authors : ∀ items, arrayAt value "authors" = some items → ∀ key, key ∈ readKeys N items
  ids : arrayAt value "ids" = none
  p : ∀ items, arrayAt value "#p" = some items → readKeys N items ≠ []
  «until» : ∀ n, value.get? "until" ≠ some (.number (.negInt n))

section
variable {value : Json} {event : N.Event}

theorem kinds_fromJson {items : List Json} (h : arrayAt value "kinds" = some items) :
    (RelayFilter.fromJson N value).kinds = readKinds items := by
  simp [RelayFilter.fromJson, h]

theorem p_fromJson {items : List Json} (h : arrayAt value "#p" = some items) :
    (RelayFilter.fromJson N value).p = readKeys N items := by
  simp [RelayFilter.fromJson, h]

theorem delivered_iff : Delivered value event ↔ event.kind ∈ CARRIED_KINDS ∧
    (RelayFilter.fromJson N value).rejectReason = none ∧
    (RelayFilter.fromJson N value).matchesEvent event = true := by
  constructor
  · rintro (⟨store, swept, now, replay, hcarries, hanswer, hmem⟩ | ⟨conn, sub, hkind, hopen, hmem⟩)
    · obtain ⟨hopen, rfl, -⟩ := answer_eq_ok.mp hanswer
      obtain ⟨hmatch, stored, hstored, rfl⟩ := EventStore.mem_query hmem
      exact ⟨hcarries.evict stored hstored, hopen, hmatch⟩
    · refine ⟨hkind, hopen, ?_⟩
      simpa [broadcast] using hmem
  · rintro ⟨hkind, hopen, hmatch⟩
    exact .live 1 "" hkind hopen (by simp [broadcast, hmatch])

/-- What is delivered of a heeded object meets its constraints. -/
theorem Heeded.satisfies (hheeded : Heeded N value) (h : Delivered value event) :
    Satisfies value event := by
  obtain ⟨hkind, -, hmatch⟩ := delivered_iff.mp h
  obtain ⟨hkinds, hp, hsince, huntil⟩ := RelayFilter.matchesEvent_iff.mp hmatch
  constructor
  · intro items hitems
    rw [kinds_fromJson hitems] at hkinds
    exact hheeded.kinds items hitems event.kind hkind hkinds
  · intro items hitems
    exact hheeded.authors items hitems event.pubkey
  · intro items hitems
    rw [hheeded.ids] at hitems
    cases hitems
  · intro items hitems
    rw [p_fromJson hitems] at hp
    exact hp.resolve_left (hheeded.p items hitems)
  · intro bound hbound
    match bound with
    | .number (.posInt n) => exact hsince n (by simp [RelayFilter.fromJson, hbound]; rfl)
    | .number (.negInt _) | .number (.float _) | .null | .bool _ | .string _ | .array _
    | .object _ => trivial
  · intro bound hbound
    match bound with
    | .number (.posInt n) => exact huntil n (by simp [RelayFilter.fromJson, hbound]; rfl)
    | .number (.negInt n) => exact hheeded.until n hbound
    | .number (.float _) | .null | .bool _ | .string _ | .array _ | .object _ => trivial

/-- A filter that is neither refused nor barren reaches events of every author and every id. -/
theorem exists_delivered (hany : Nonempty N.Event)
    (htags : ∀ key, ∃ tags, key ∈ N.tagKeys tags)
    (hopen : (RelayFilter.fromJson N value).rejectReason = none) (hbarren : ¬ Barren value)
    {k : UInt16} (hk : k ∈ CARRIED_KINDS)
    (hadmits : (RelayFilter.fromJson N value).kinds = [] ∨
      k ∈ (RelayFilter.fromJson N value).kinds) (key : Option N.PublicKey) (id : String) :
    ∃ event : N.Event, Delivered value event ∧ event.kind = k ∧ event.id = id ∧
      ∀ pk ∈ key, event.pubkey = pk := by
  obtain ⟨e₀⟩ := hany
  have htagged : ∃ tags, (RelayFilter.fromJson N value).p = [] ∨
      ∃ key ∈ (RelayFilter.fromJson N value).p, key ∈ N.tagKeys tags := by
    match hp : (RelayFilter.fromJson N value).p with
    | [] => exact ⟨e₀.tags, .inl rfl⟩
    | p :: ps =>
      obtain ⟨tags, hmem⟩ := htags p
      exact ⟨tags, .inr ⟨p, List.mem_cons_self, hmem⟩⟩
  obtain ⟨tags, htagged⟩ := htagged
  let event : N.Event := { e₀ with
    id, kind := k, tags, pubkey := key.getD e₀.pubkey,
    createdAt := ((RelayFilter.fromJson N value).since).getD 0 }
  refine ⟨event, delivered_iff.mpr ⟨hk, hopen, ?_⟩, rfl, rfl, fun pk hpk => ?_⟩
  · refine RelayFilter.matchesEvent_iff.mpr ⟨hadmits, htagged, fun t ht => ?_, fun t ht => ?_⟩
    · show t ≤ ((RelayFilter.fromJson N value).since).getD 0
      rw [Option.mem_def.mp ht]
      exact UInt64.le_refl t
    · show ((RelayFilter.fromJson N value).since).getD 0 ≤ t
      cases hsince : (RelayFilter.fromJson N value).since with
      | none => exact UInt64.zero_le
      | some since =>
        by_contra hlt
        exact hbarren (.inr ⟨since, t, hsince, ht, UInt64.not_le.mp hlt⟩)
  · show key.getD e₀.pubkey = pk
    rw [Option.mem_def.mp hpk]
    rfl

/-- Nothing is delivered of a barren object. -/
theorem Barren.not_delivered (hbarren : Barren value) : ¬ Delivered value event := by
  intro h
  obtain ⟨hkind, -, hmatch⟩ := delivered_iff.mp h
  obtain ⟨hkinds, -, hsince, huntil⟩ := RelayFilter.matchesEvent_iff.mp hmatch
  rcases hbarren with ⟨items, hitems, hread, hnone⟩ | ⟨since, upTo, hs, hu, hlt⟩
  · rw [kinds_fromJson hitems] at hkinds
    exact hnone event.kind hkind (hkinds.resolve_left hread)
  · have hle := UInt64.le_trans (hsince since hs) (huntil upTo hu)
    exact UInt64.not_le.mpr hlt hle

/-- A filter that is not barren admits a kind the relay carries. -/
theorem exists_admitted (hbarren : ¬ Barren value) : ∃ k ∈ CARRIED_KINDS,
    (RelayFilter.fromJson N value).kinds = [] ∨ k ∈ (RelayFilter.fromJson N value).kinds := by
  cases hitems : arrayAt value "kinds" with
  | none => exact ⟨24133, List.mem_cons_self, .inl (by simp [RelayFilter.fromJson, hitems])⟩
  | some items =>
    rw [kinds_fromJson hitems]
    by_contra hnone
    have hread : readKinds items ≠ [] := fun h => hnone ⟨24133, List.mem_cons_self, .inl h⟩
    exact hbarren (.inl ⟨items, hitems, hread, fun k hk hmem => hnone ⟨k, hk, .inr hmem⟩⟩)

theorem exists_string_notMem (l : List String) : ∃ s, s ∉ l := by
  have hinfinite : Infinite String := by
    refine Infinite.of_injective (fun n : ℕ => String.ofList (List.replicate n 'a')) ?_
    intro m n h
    have hlists := congrArg String.toList h
    rw [String.toList_ofList, String.toList_ofList] at hlists
    have hlengths := congrArg List.length hlists
    rwa [List.length_replicate, List.length_replicate] at hlengths
  obtain ⟨s, hs⟩ := Infinite.exists_notMem_finset l.toFinset
  exact ⟨s, fun h => hs (List.mem_toFinset.mpr h)⟩

/-- Of an object that is let in, what is delivered meets its constraints exactly if it is heeded,
or barren. -/
theorem delivered_satisfies_iff (hany : Nonempty N.Event)
    (htags : ∀ key, ∃ tags, key ∈ N.tagKeys tags)
    (hopen : (RelayFilter.fromJson N value).rejectReason = none) :
    (∀ event : N.Event, Delivered value event → Satisfies value event) ↔
      Barren value ∨ Heeded N value := by
  constructor
  swap
  · rintro (hbarren | hheeded) event h
    · exact absurd h hbarren.not_delivered
    · exact hheeded.satisfies h
  intro hall
  by_cases hbarren : Barren value
  · exact .inl hbarren
  right
  obtain ⟨k, hk, hadmits⟩ := exists_admitted (N := N) hbarren
  -- each field is what the constraint asks of some event that the filter reaches
  constructor
  · intro items hitems kind hkind hread
    rw [← kinds_fromJson hitems] at hread
    obtain ⟨event, hevent, rfl, -⟩ :=
      exists_delivered hany htags hopen hbarren hkind hread none ""
    exact (hall event hevent).kinds items hitems
  · intro items hitems key
    obtain ⟨event, hevent, -, -, hauthor⟩ :=
      exists_delivered hany htags hopen hbarren hk hadmits (some key) ""
    exact hauthor key rfl ▸ (hall event hevent).authors items hitems
  · cases hitems : arrayAt value "ids" with
    | none => rfl
    | some items =>
      obtain ⟨id, hid⟩ := exists_string_notMem (readStrings items)
      obtain ⟨event, hevent, -, rfl, -⟩ :=
        exists_delivered hany htags hopen hbarren hk hadmits none id
      exact absurd ((hall event hevent).ids items hitems) hid
  · intro items hitems hnone
    obtain ⟨event, hevent, -⟩ := exists_delivered hany htags hopen hbarren hk hadmits none ""
    obtain ⟨key, hkey, -⟩ := (hall event hevent).p items hitems
    rw [hnone] at hkey
    exact List.not_mem_nil hkey
  · intro n hbound
    obtain ⟨event, hevent, -⟩ := exists_delivered hany htags hopen hbarren hk hadmits none ""
    exact (hall event hevent).until _ hbound

end

/-- `{"kinds":[24133],"#p":["bunker"]}`. -/
def bunkerFilter : Json :=
  .object [("kinds", .array [.number (.posInt 24133)]), ("#p", .array [.string "bunker"])]

theorem delivered_satisfies_bunker :
    (∀ event : (Crate.plain []).Event,
      Delivered bunkerFilter event → Satisfies bunkerFilter event) ↔
      Barren bunkerFilter ∨ Heeded (Crate.plain []) bunkerFilter := by
  have hany : Nonempty (Crate.plain []).Event :=
    ⟨(⟨"", "", 0, 24133, [], "", true⟩ : Nostr.Event String (List String) Bool)⟩
  have htags : ∀ key : String, ∃ tags, key ∈ (Crate.plain []).tagKeys tags :=
    fun key => ⟨[key], List.mem_singleton_self key⟩
  exact delivered_satisfies_iff hany htags rfl

/-- `{"kinds":[24133],"authors":["alice"]}`. -/
def authorsFilter : Json :=
  .object [("kinds", .array [.number (.posInt 24133)]), ("authors", .array [.string "alice"])]

/-- A filter scoped by an author receives another's events. -/
theorem authors_unheeded :
    ¬ ∀ (value : Json) (event : (Crate.plain []).Event),
      (RelayFilter.fromJson (Crate.plain []) value).rejectReason = none →
      Delivered value event → Satisfies value event := by
  intro h
  let event : (Crate.plain []).Event :=
    (⟨"e1", "mallory", 0, 24133, ["bunker"], "", true⟩ : Nostr.Event String (List String) Bool)
  have hdelivered : Delivered authorsFilter event := by
    refine .live 1 "all" (by decide) rfl ?_
    have hmatch : (RelayFilter.fromJson (Crate.plain []) authorsFilter).matchesEvent event = true :=
      rfl
    simp [broadcast, hmatch]
  have hauthors := (h authorsFilter event rfl hdelivered).authors [.string "alice"] rfl
  have hlisted : "mallory" ∈ ["alice"] := hauthors
  revert hlisted
  decide

end Kuma.Relay
