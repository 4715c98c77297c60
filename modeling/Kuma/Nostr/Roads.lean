import Kuma.Nostr.Steps

/-! The roads of one app. The pool holds the declared set and, for an app that presented a
`nostrconnect://` URI, the app's own relays beside it; an arming spawns the declared set
alone. -/
namespace Kuma.Nostr
open Kuma.Lib

variable {N : Crate}

namespace RelayPool

/-- The URLs an app's answers go out on and its requests come in on. -/
def urlsFor (pool : RelayPool N) (app : N.PublicKey) : Set String :=
  {url | ∃ road ∈ pool.roads, road.carries (.app app) = true ∧ road.url = url}

/-- The relays the pool holds for one app. -/
def ownOf (pool : RelayPool N) (app : N.PublicKey) : List String :=
  (pool.appUrls.lookup app).getD []

/-- The books say which roads there are. -/
structure Booked (relays : List String) (pool : RelayPool N) : Prop where
  declared : ∀ url, url ∈ pool.ownUrls ↔ url ∈ relays
  own : ∀ url, (∃ road ∈ pool.roads, road.own = true ∧ road.url = url) ↔ url ∈ relays
  apps : ∀ app url, (∃ road ∈ pool.roads, road.app = some app ∧ road.url = url) ↔
    url ∈ pool.ownOf app
  apart : ∀ road ∈ pool.roads, road.own = true → road.app = none

variable {relays : List String} {pool : RelayPool N} {key app : N.PublicKey} {url : String}

/-- What an app's roads reach, by the books. -/
theorem Booked.mem_urlsFor (h : pool.Booked relays) :
    url ∈ pool.urlsFor app ↔ url ∈ relays ∨ url ∈ pool.ownOf app := by
  rw [← h.own url, ← h.apps app url]
  constructor
  · intro ⟨road, hroad, hcarries, hurl⟩
    have hside : road.own = true ∨ road.app = some app := by
      simpa [Road.carries] using hcarries
    rcases hside with hown | happ
    · exact .inl ⟨road, hroad, hown, hurl⟩
    · exact .inr ⟨road, hroad, happ, hurl⟩
  · rintro (⟨road, hroad, hown, hurl⟩ | ⟨road, hroad, happ, hurl⟩)
    · exact ⟨road, hroad, by simp [Road.carries, hown], hurl⟩
    · exact ⟨road, hroad, by simp [Road.carries, happ], hurl⟩

theorem booked_empty : (⟨[], [], ∅⟩ : RelayPool N).Booked [] := by
  constructor
  · intro url
    rfl
  · intro url
    simp
  · intro app url
    simp [ownOf]
  · intro road hroad
    cases hroad

theorem spawnOwn_booked (h : pool.Booked relays) :
    (spawnOwn key pool url).Booked (relays ++ [url]) := by
  unfold spawnOwn
  split_ifs with hknown
  · -- a declared URL said twice has one road
    have hmem : ∀ other, other ∈ relays ++ [url] ↔ other ∈ relays := by
      intro other
      have hurl := (h.declared url).mp hknown
      simp only [List.mem_append, List.mem_singleton]
      exact ⟨fun hor => hor.elim id fun he => he ▸ hurl, .inl⟩
    exact ⟨fun other => (h.declared other).trans (hmem other).symm,
      fun other => (h.own other).trans (hmem other).symm, h.apps, h.apart⟩
  · constructor
    · intro other
      simp only [List.mem_append, List.mem_singleton, h.declared other]
    · intro other
      have hown := h.own other
      simp only [List.mem_append, List.mem_singleton, ← hown]
      constructor
      · rintro ⟨road, hroad | rfl, hside, hurl⟩
        · exact .inl ⟨road, hroad, hside, hurl⟩
        · exact .inr hurl.symm
      · rintro (⟨road, hroad, hside, hurl⟩ | rfl)
        · exact ⟨road, .inl hroad, hside, hurl⟩
        · exact ⟨_, .inr rfl, rfl, rfl⟩
    · intro app other
      have happs := h.apps app other
      change _ ↔ other ∈ pool.ownOf app
      rw [← happs]
      constructor
      · rintro ⟨road, hroad, hside, hurl⟩
        rcases List.mem_append.mp hroad with hold | hnew
        · exact ⟨road, hold, hside, hurl⟩
        · rw [List.mem_singleton.mp hnew] at hside
          cases hside
      · rintro ⟨road, hroad, hside, hurl⟩
        exact ⟨road, List.mem_append_left _ hroad, hside, hurl⟩
    · intro road hroad hside
      rcases List.mem_append.mp hroad with hold | hnew
      · exact h.apart road hold hside
      · rw [List.mem_singleton.mp hnew]

theorem spawn_booked (relays : List String) (key : N.PublicKey) :
    (spawn relays key).Booked relays := by
  have hfold : ∀ (more done : List String) (pool : RelayPool N), pool.Booked done →
      (more.foldl (spawnOwn key) pool).Booked (done ++ more) := by
    intro more
    induction more with
    | nil =>
      intro done pool h
      rwa [List.append_nil]
    | cons url more ih =>
      intro done pool h
      have hrest := ih (done ++ [url]) (spawnOwn key pool url) (spawnOwn_booked h)
      rwa [List.append_assoc] at hrest
  exact hfold relays [] ⟨[], [], ∅⟩ booked_empty

/-- A fresh pool holds no relay for an app alone. -/
theorem ownOf_spawn : (spawn relays key).ownOf app = [] := by
  have hfold : ∀ (pool : RelayPool N), pool.appUrls = ∅ →
      (relays.foldl (spawnOwn key) pool).appUrls = ∅ := by
    induction relays with
    | nil => exact fun pool h => h
    | cons url relays ih =>
      intro pool h
      refine ih _ ?_
      unfold spawnOwn
      split_ifs <;> exact h
  unfold ownOf spawn
  rw [hfold ⟨[], [], ∅⟩ rfl]
  rfl

theorem subscribeRelay_booked (h : pool.Booked relays) :
    (subscribeRelay app key pool url).Booked relays := by
  unfold subscribeRelay
  simp only
  split_ifs with hknown
  · exact h
  · constructor
    · exact h.declared
    · intro other
      rw [← h.own other]
      constructor
      · rintro ⟨road, hroad, hside, hurl⟩
        rcases List.mem_append.mp hroad with hold | hnew
        · exact ⟨road, hold, hside, hurl⟩
        · rw [List.mem_singleton.mp hnew] at hside
          cases hside
      · rintro ⟨road, hroad, hside, hurl⟩
        exact ⟨road, List.mem_append_left _ hroad, hside, hurl⟩
    · intro who other
      have happs := h.apps who other
      have hroads : (∃ road ∈ pool.roads ++ [⟨url, key, false, some app, []⟩],
          road.app = some who ∧ road.url = other) ↔
            other ∈ pool.ownOf who ∨ (app = who ∧ url = other) := by
        rw [← happs]
        constructor
        · rintro ⟨road, hroad, hside, hurl⟩
          rcases List.mem_append.mp hroad with hold | hnew
          · exact .inl ⟨road, hold, hside, hurl⟩
          · rw [List.mem_singleton.mp hnew] at hside hurl
            exact .inr ⟨Option.some.inj hside, hurl⟩
        · rintro (⟨road, hroad, hside, hurl⟩ | ⟨rfl, rfl⟩)
          · exact ⟨road, List.mem_append_left _ hroad, hside, hurl⟩
          · exact ⟨_, List.mem_append_right _ List.mem_cons_self, rfl, rfl⟩
      rw [hroads]
      by_cases hwho : app = who
      · subst hwho
        have hlook : (pool.appUrls.insert app (pool.ownOf app ++ [url])).lookup app =
            some (pool.ownOf app ++ [url]) := AList.lookup_insert _
        change _ ↔ other ∈ ((pool.appUrls.insert app (pool.ownOf app ++ [url])).lookup app).getD []
        rw [hlook, Option.getD_some, List.mem_append, List.mem_singleton]
        simp only [true_and, eq_comm]
      · have hlook : (pool.appUrls.insert app (pool.ownOf app ++ [url])).lookup who =
            pool.appUrls.lookup who := AList.lookup_insert_ne (Ne.symm hwho)
        change _ ↔ other ∈ ((pool.appUrls.insert app (pool.ownOf app ++ [url])).lookup who).getD []
        rw [hlook]
        simp only [hwho, false_and, or_false]
        rfl
    · intro road hroad hside
      rcases List.mem_append.mp hroad with hold | hnew
      · exact h.apart road hold hside
      · rw [List.mem_singleton.mp hnew] at hside
        cases hside

theorem subscribeRelays_booked (h : pool.Booked relays) (urls : List String) :
    (subscribeRelays app urls key pool).Booked relays := by
  unfold subscribeRelays
  induction urls generalizing pool with
  | nil => exact h
  | cons url urls ih => exact ih (subscribeRelay_booked h)

theorem dropApp_booked (h : pool.Booked relays) : (dropApp app pool).Booked relays := by
  constructor
  · exact h.declared
  · intro url
    rw [← h.own url]
    constructor
    · rintro ⟨road, hroad, hside, hurl⟩
      exact ⟨road, (List.mem_filter.mp hroad).1, hside, hurl⟩
    · rintro ⟨road, hroad, hside, hurl⟩
      -- a declared road is nobody's own
      have hnone := h.apart road hroad hside
      exact ⟨road, List.mem_filter.mpr ⟨hroad, by simp [hnone]⟩, hside, hurl⟩
  · intro who url
    have happs := h.apps who url
    by_cases hwho : who = app
    · have hgone : (dropApp app pool).ownOf who = [] := by
        rw [hwho]
        change ((pool.appUrls.erase app).lookup app).getD [] = []
        rw [AList.lookup_erase]
        rfl
      rw [hgone]
      constructor
      · rintro ⟨road, hroad, hside, -⟩
        have hkept := (List.mem_filter.mp hroad).2
        simp [hside, hwho] at hkept
      · intro hmem
        cases hmem
    · have hsame : (dropApp app pool).ownOf who = pool.ownOf who := by
        change ((pool.appUrls.erase app).lookup who).getD [] = _
        rw [AList.lookup_erase_ne hwho]
        rfl
      rw [hsame, ← happs]
      constructor
      · rintro ⟨road, hroad, hside, hurl⟩
        exact ⟨road, (List.mem_filter.mp hroad).1, hside, hurl⟩
      · rintro ⟨road, hroad, hside, hurl⟩
        exact ⟨road, List.mem_filter.mpr ⟨hroad, by simp [hside, hwho]⟩, hside, hurl⟩
  · intro road hroad
    exact h.apart road (List.mem_filter.mp hroad).1

/-- A sent event changes nothing but queues. -/
theorem send_booked (h : pool.Booked relays) (event : N.Event) (fan : Fan N) :
    (pool.send event fan).1.Booked relays := by
  unfold send
  split_ifs
  · exact h
  · have hroads : ∀ P : Road N → Prop, (∀ road queue, P { road with queue } ↔ P road) →
        ((∃ road ∈ pool.roads.map fun road => if road.carries fan then
          { road with queue := road.queue ++ [(event, fan)] } else road, P road) ↔
          ∃ road ∈ pool.roads, P road) := by
      intro P hP
      constructor
      · rintro ⟨road, hroad, hsent⟩
        obtain ⟨old, hold, rfl⟩ := List.mem_map.mp hroad
        split_ifs at hsent
        · exact ⟨old, hold, (hP old _).mp hsent⟩
        · exact ⟨old, hold, hsent⟩
      · rintro ⟨road, hroad, hsent⟩
        refine ⟨_, List.mem_map_of_mem hroad, ?_⟩
        split_ifs
        · exact (hP road _).mpr hsent
        · exact hsent
    constructor
    · exact h.declared
    · intro url
      rw [hroads _ fun road queue => Iff.rfl]
      exact h.own url
    · intro app url
      rw [hroads _ fun road queue => Iff.rfl]
      exact h.apps app url
    · intro road hroad hside
      obtain ⟨old, hold, rfl⟩ := List.mem_map.mp hroad
      split_ifs at hside ⊢
      · exact h.apart old hold hside
      · exact h.apart old hold hside

theorem publishOnlyTo_booked (h : pool.Booked relays) (event : N.Event) (app : N.PublicKey) :
    (pool.publishOnlyTo event app).1.Booked relays := by
  unfold publishOnlyTo
  split_ifs
  · exact send_booked h event _
  · exact send_booked h event _

end RelayPool

namespace Daemon

/-- The daemon's relays are the declared ones, and its pool is booked over them. -/
structure Booked (relays : List String) (d : Daemon N) : Prop where
  declared : d.relays = relays
  roads : ∀ pool, d.pool = some pool → pool.Booked relays

variable {env : Env N} {d d' : Daemon N} {relays : List String} {key : N.SecretKey}

/-- Whatever else a call does, the relays and the pool are all the books are about. -/
theorem Booked.of_eq (h : d.Booked relays) (hrelays : d'.relays = d.relays)
    (hpool : d'.pool = d.pool) : d'.Booked relays := by
  refine ⟨hrelays.trans h.declared, fun pool hp => ?_⟩
  rw [hpool] at hp
  exact h.roads pool hp

theorem Booked.down (h : d.Booked relays) (hrelays : d'.relays = d.relays)
    (hpool : d'.pool = none) : d'.Booked relays := by
  refine ⟨hrelays.trans h.declared, fun pool hp => ?_⟩
  rw [hpool] at hp
  cases hp

theorem Booked.map (h : d.Booked relays) {change : RelayPool N → RelayPool N}
    (hchange : ∀ pool, pool.Booked relays → (change pool).Booked relays)
    (hrelays : d'.relays = d.relays) (hpool : d'.pool = d.pool.map change) : d'.Booked relays := by
  refine ⟨hrelays.trans h.declared, fun pool hp => ?_⟩
  rw [hpool] at hp
  obtain ⟨old, hold, rfl⟩ := Option.map_eq_some_iff.mp hp
  exact hchange old (h.roads old hold)

/-- An arming spawns the declared set, whether or not it panics on the engine afterwards. -/
theorem armBunker_pool (d : Daemon N) (key : N.SecretKey) :
    (d.armBunker key).1.pool = some (RelayPool.spawn d.relays (N.publicKey key)) ∧
      (d.armBunker key).1.relays = d.relays := by
  unfold armBunker
  simp only [teardownBunker]
  cases d.engine.apps with
  | none => exact ⟨rfl, rfl⟩
  | some apps =>
    simp only
    rw [foldl_seedRecord _ rfl]
    exact ⟨rfl, rfl⟩

theorem armBunker_booked (h : d.relays = relays) (key : N.SecretKey) :
    (d.armBunker key).1.Booked relays := by
  obtain ⟨hpool, hrelays⟩ := armBunker_pool d key
  refine ⟨hrelays.trans h, fun pool hp => ?_⟩
  rw [hpool] at hp
  cases hp
  rw [h]
  exact RelayPool.spawn_booked relays _

theorem onLive_booked (h : d.Booked relays) {app : String}
    {change : Bunker N → N.PublicKey → Bunker N} {roads : N.PublicKey → RelayPool N → RelayPool N}
    (hroads : ∀ pubkey pool, pool.Booked relays → (roads pubkey pool).Booked relays) :
    (d.onLive app change roads).Booked relays := by
  unfold onLive
  split
  · exact h.map (hroads _) rfl rfl
  · exact h

theorem onEngine_booked (h : d.Booked relays) {α : Type} {call : Option (Engine N × α)}
    {answer : α → Response} : (d.onEngine call answer).1.Booked relays := by
  unfold onEngine
  split
  · exact h
  · exact h.of_eq rfl rfl

theorem connect_booked (h : d.Booked relays) (env : Env N) (uri : String) :
    (d.connect env uri).1.Booked relays := by
  unfold connect
  cases d.bunker with
  | none => exact h
  | some bunker =>
    simp only
    cases (bunker.startHandshake env uri).2 with
    | error e => exact h.of_eq rfl rfl
    | ok sent =>
      obtain ⟨handshake, parts⟩ := sent
      have hjoined : ∀ pool : RelayPool N, pool.Booked relays →
          (RelayPool.subscribeRelays parts.clientPubkey parts.relays bunker.publicKey
            pool).Booked relays := fun pool hp => RelayPool.subscribeRelays_booked hp _
      simp only
      cases d.engine.pairWithMetadata env parts.clientPubkey parts.name none parts.perms
          parts.url with
      | none => exact h.map hjoined rfl rfl
      | some engine =>
        cases hpool : d.pool with
        | none => exact h.down rfl rfl
        | some pool =>
          refine ⟨h.declared, fun sent hsent => ?_⟩
          obtain rfl := Option.some.inj hsent
          exact RelayPool.publishOnlyTo_booked (hjoined pool (h.roads pool hpool)) _ _

theorem status_booked (h : d.Booked relays) (env : Env N) : (d.status env).1.Booked relays := by
  unfold status
  split
  · exact h
  · exact h.of_eq rfl rfl

theorem setup_booked (h : d.Booked relays) (env : Env N) (mode : SetupMode) :
    (d.setup env mode).1.Booked relays := by
  unfold setup
  split
  · exact h
  · split
    · exact h
    · refine armBunker_booked ?_ _
      exact h.declared

theorem unlock_booked (h : d.Booked relays) (env : Env N) : (d.unlock env).1.Booked relays := by
  unfold unlock
  split
  · exact h
  · split
    · exact h.of_eq rfl rfl
    · refine armBunker_booked ?_ _
      exact h.declared

theorem rotate_booked (h : d.Booked relays) (env : Env N) : (d.rotate env).1.Booked relays := by
  unfold rotate
  split
  · exact h
  · split
    · exact h
    · refine armBunker_booked ?_ _
      exact h.declared

theorem approve_booked (h : d.Booked relays) (env : Env N) (id : String)
    (rememberHours : Option ℕ) : (d.approve env id rememberHours).1.Booked relays := by
  unfold approve
  split_ifs
  · exact h
  · exact onEngine_booked h

theorem revoke_booked (h : d.Booked relays) (env : Env N) (app : String) :
    (d.revoke env app).1.Booked relays := by
  unfold revoke
  split
  · exact h
  · simp only
    split_ifs
    · refine onLive_booked ?_ fun _ _ hp => RelayPool.dropApp_booked hp
      exact h.of_eq rfl rfl
    · exact h.of_eq rfl rfl

theorem unrevoke_booked (h : d.Booked relays) (env : Env N) (app : String) :
    (d.unrevoke env app).1.Booked relays := by
  unfold unrevoke
  split
  · exact h
  · simp only
    split_ifs
    · refine onLive_booked ?_ fun _ _ hp => hp
      exact h.of_eq rfl rfl
    · exact h.of_eq rfl rfl

theorem delete_booked (h : d.Booked relays) (env : Env N) (app : String) :
    (d.delete env app).1.Booked relays := by
  unfold delete
  split
  · exact h
  · simp only
    split_ifs
    · refine onLive_booked ?_ fun _ _ hp => RelayPool.dropApp_booked hp
      exact h.of_eq rfl rfl
    · exact h.of_eq rfl rfl

theorem mint_booked (h : d.Booked relays) (env : Env N) (label : Option String) :
    (d.mint env label).1.Booked relays := by
  unfold mint
  split
  · exact h
  · split
    · exact h
    · exact h.of_eq rfl rfl

/-- Every verb keeps the books, answered or not. -/
theorem handle_booked (h : d.Booked relays) (env : Env N) (request : Request) :
    (d.handle env request).1.Booked relays := by
  cases request with
  | ping | prompts | log | apps => exact h
  | touch => exact h.of_eq rfl rfl
  | status => exact status_booked h env
  | setup mode => exact setup_booked h env mode
  | unlock => exact unlock_booked h env
  | rotate => exact rotate_booked h env
  | lock => exact h.down rfl rfl
  | destroy confirm =>
    cases confirm with
    | false => exact h
    | true => exact h.down rfl rfl
  | approve id rememberHours => exact approve_booked h env id rememberHours
  | deny id => exact onEngine_booked h
  | level app level => exact onEngine_booked h
  | label app name => exact onEngine_booked h
  | revoke app => exact revoke_booked h env app
  | unrevoke app => exact unrevoke_booked h env app
  | delete app => exact delete_booked h env app
  | connect uri => exact connect_booked h env uri
  | mint label => exact mint_booked h env label

theorem publish_booked (h : d.Booked relays) (event : N.Event) :
    (d.publish event).1.Booked relays := by
  unfold publish
  split
  · exact h
  · next pool hpool =>
    refine ⟨h.declared, fun sent hsent => ?_⟩
    obtain rfl := Option.some.inj hsent
    split
    · exact RelayPool.send_booked (h.roads pool hpool) _ _
    · exact RelayPool.send_booked (h.roads pool hpool) _ _

/-- What an opening leaves of the pool. -/
theorem pool_of_opening {request : Request} {vault : Vault N}
    (h : d.opening env request = some (vault, key)) : (d.handle env request).1.pool =
      some (RelayPool.spawn d.relays (N.publicKey key)) := by
  cases request with
  | setup mode =>
    obtain ⟨key', hk, h⟩ := Option.bind_eq_some_iff.mp h
    obtain ⟨vault', hv, h⟩ := Option.bind_eq_some_iff.mp h
    cases h
    simp [handle, setup, toOption_eq_some.mp hk, toOption_eq_some.mp hv, armBunker_pool]
  | unlock =>
    obtain ⟨vault', hv, h⟩ := Option.bind_eq_some_iff.mp h
    obtain ⟨key', hkey, h⟩ := Option.bind_eq_some_iff.mp h
    cases h
    simp [handle, unlock, touch, toOption_eq_some.mp hv, hkey, armBunker_pool]
  | rotate =>
    obtain ⟨key', hkey, h⟩ := Option.bind_eq_some_iff.mp h
    obtain ⟨rotated, hv, h⟩ := Option.bind_eq_some_iff.mp h
    cases h
    simp [handle, rotate, toOption_eq_some.mp hv, hkey, armBunker_pool]
  | _ => cases h

end Daemon

namespace System

variable {relays : List String}

theorem booked_of_eq {s s' : System N} (h : s.daemon.Booked relays)
    (hdaemon : s'.daemon = s.daemon) : s'.daemon.Booked relays := hdaemon ▸ h

theorem beat_booked {s : System N} (h : s.daemon.Booked relays) (env : Env N) :
    (s.beat env).daemon.Booked relays := by
  have hcall : ∀ call next, (s.workerCall call next).daemon.Booked relays := by
    intro call next
    cases call with
    | none => exact h
    | some engine => exact h.of_eq rfl rfl
  unfold beat
  split
  · exact h
  · exact h
  · exact hcall _ _
  · split_ifs
    · exact h
    · refine h.of_eq ?_ burn_pool
      unfold Daemon.burn
      split <;> rfl
  · split_ifs
    · exact h
    · exact Daemon.publish_booked h _
  · exact hcall _ _
  · exact hcall _ _
  · exact hcall _ _
  · split_ifs
    · exact h
    · split <;> exact h
  · exact h
  · exact h.of_eq rfl rfl

theorem step_booked (s : System N) (a : Action N) (h : s.daemon.Booked relays) :
    (s.step a).daemon.Booked relays := by
  cases a with
  | verb env request =>
    unfold step
    split_ifs
    · exact h
    · exact Daemon.handle_booked h env request
  | startup env =>
    unfold step
    split_ifs
    · exact h
    · exact Daemon.unlock_booked h env
  | watchdog env =>
    simp only [step]
    split_ifs
    · exact h
    · unfold Daemon.watchdog
      split_ifs
      · exact h.down rfl rfl
      · exact h
  | recv env event =>
    rcases recv_daemon s env event with hsame | ⟨b, -, -, -, hplanned⟩
    · exact booked_of_eq h hsame
    · change (s.recv env event).daemon.Booked relays
      rw [hplanned]
      exact h.of_eq rfl rfl
  | beat env => exact beat_booked h env
  | restart env => exact h.down rfl rfl

theorem run_booked (boot : Boot) (as : List (Action N)) :
    (run step (start boot) as).daemon.Booked boot.relays := by
  have hstart : (start boot : System N).daemon.Booked boot.relays :=
    ⟨rfl, fun pool hp => nomatch hp⟩
  exact run_invariant (P := fun _ _ => True) (I := fun s : System N => s.daemon.Booked boot.relays)
    (s := start boot) (fun s a hs _ => step_booked s a hs) hstart fun _ _ => trivial

end System

/-- The ways to an armed bunker that an app is not to notice. -/
inductive Rearming (N : Crate)
  | lockUnlock (env env' : Env N)
  | rotate (env : Env N)
  | restart (env env' : Env N)

namespace Rearming

/-- The state in which the arming verb finds the process. -/
def before (s : System N) : Rearming N → System N
  | .lockUnlock env _ => s.step (.verb env .lock)
  | .rotate _ => s
  | .restart env _ => s.step (.restart env)

/-- The verb that arms. -/
def last : Rearming N → Action N
  | .lockUnlock _ env => .verb env .unlock
  | .rotate env => .verb env .rotate
  | .restart _ env => .startup env

def after (s : System N) (r : Rearming N) : System N := (r.before s).step r.last

/-- The arming goes through. -/
def Arms (s : System N) (r : Rearming N) : Prop :=
  (r.before s).poisoned = false ∧ (r.before s).arms r.last = true

instance (s : System N) (r : Rearming N) : Decidable (r.Arms s) := by
  unfold Arms
  infer_instance

variable {s : System N} {r : Rearming N} {relays : List String}

theorem before_booked (h : s.daemon.Booked relays) (r : Rearming N) :
    (r.before s).daemon.Booked relays := by
  cases r with
  | lockUnlock env env' => exact System.step_booked s _ h
  | rotate env => exact h
  | restart env env' => exact System.step_booked s _ h

/-- After an arming every app has the declared roads and no others. -/
theorem urlsFor_after (h : s.daemon.Booked relays) (harms : r.Arms s) :
    ∃ pool, (r.after s).daemon.pool = some pool ∧
      ∀ app url, url ∈ pool.urlsFor app ↔ url ∈ relays := by
  obtain ⟨hpoisoned, harms⟩ := harms
  have hbefore := before_booked h r
  unfold System.arms at harms
  cases hrequest : r.last.request with
  | none =>
    rw [hrequest] at harms
    cases harms
  | some asked =>
    obtain ⟨env, request⟩ := asked
    rw [hrequest] at harms
    obtain ⟨⟨vault, key⟩, hopening⟩ := Option.isSome_iff_exists.mp harms
    have hpool := Daemon.pool_of_opening hopening
    rw [hbefore.declared] at hpool
    refine ⟨.spawn relays (N.publicKey key), ?_, fun app url => ?_⟩
    · rw [after, System.step_of_request hrequest hpoisoned]
      exact hpool
    · rw [(RelayPool.spawn_booked relays _).mem_urlsFor, RelayPool.ownOf_spawn]
      simp

/-- Across an arming, an app's roads reach the same relays exactly when the pool held none of
the app's own beyond the declared ones. -/
theorem unseen_iff (boot : Boot) (as : List (Action N)) (r : Rearming N) (app : N.PublicKey)
    {pool : RelayPool N} (hpool : (run System.step (System.start boot) as).daemon.pool = some pool)
    (harms : r.Arms (run System.step (System.start boot) as)) :
    (∃ pool', (r.after (run System.step (System.start boot) as)).daemon.pool = some pool' ∧
      pool'.urlsFor app = pool.urlsFor app) ↔ ∀ url ∈ pool.ownOf app, url ∈ boot.relays := by
  have hbooked := System.run_booked boot as
  have hpoolBooked := hbooked.roads pool hpool
  obtain ⟨pool', hpool', hurls⟩ := urlsFor_after hbooked harms
  constructor
  · rintro ⟨after, hafter, hsame⟩ url hown
    obtain rfl : pool' = after := by
      rw [hpool'] at hafter
      exact Option.some.inj hafter
    have hbefore : url ∈ pool.urlsFor app := hpoolBooked.mem_urlsFor.mpr (.inr hown)
    rw [← hsame] at hbefore
    exact (hurls app url).mp hbefore
  · intro hown
    refine ⟨pool', hpool', Set.ext fun url => ?_⟩
    rw [hurls, hpoolBooked.mem_urlsFor]
    constructor
    · exact .inl
    · rintro (hdeclared | hmem)
      · exact hdeclared
      · exact hown url hmem

private def declaredBoot : Boot := ⟨none, ["wss://declared"], none, none, 0⟩

/-- A vault set up, and an app that presented a URI with one relay. -/
private def presented (relay : String) : List (Action (Crate.plain [])) :=
  [.verb (.plain [] 990) (.setup (.import_ "key" none)),
    .verb (.plain [] 991) (.connect ("nostrconnect://app?relay=" ++ relay ++ "&secret=s"))]

theorem unseen_declared :
    ∃ pool pool' : RelayPool (Crate.plain []),
      (run System.step (System.start declaredBoot) (presented "wss://declared")).daemon.pool =
        some pool ∧
      (after (run System.step (System.start declaredBoot) (presented "wss://declared"))
        (.lockUnlock (.plain [] 992) (.plain [] 993))).daemon.pool = some pool' ∧
      pool'.urlsFor "app" = pool.urlsFor "app" := by
  have hsome : (run System.step (System.start declaredBoot)
      (presented "wss://declared")).daemon.pool.isSome := by decide +kernel
  obtain ⟨pool, hpool⟩ := Option.isSome_iff_exists.mp hsome
  have hown : ∀ pool ∈ (run System.step (System.start declaredBoot)
      (presented "wss://declared")).daemon.pool, pool.ownOf "app" = [] := by decide +kernel
  have harms : Arms (run System.step (System.start declaredBoot) (presented "wss://declared"))
      (.lockUnlock (.plain [] 992) (.plain [] 993)) := by decide +kernel
  obtain ⟨pool', hpool', hsame⟩ := (unseen_iff declaredBoot (presented "wss://declared")
    (.lockUnlock (.plain [] 992) (.plain [] 993)) "app" hpool harms).mpr
      (by simp [hown pool hpool])
  exact ⟨pool, pool', hpool, hpool', hsame⟩

/-- An app in good standing, on a relay of its own: a Lock and an Unlock take the road away. -/
theorem rearming_drops_own_relay :
    ¬ ∀ (boot : Boot) (as : List (Action (Crate.plain []))) (r : Rearming (Crate.plain []))
      (app : String) (pool : RelayPool (Crate.plain [])),
      (run System.step (System.start boot) as).daemon.engine.registry.lookup app = some false →
      (run System.step (System.start boot) as).daemon.pool = some pool →
      r.Arms (run System.step (System.start boot) as) →
      ∃ pool', (r.after (run System.step (System.start boot) as)).daemon.pool = some pool' ∧
        pool'.urlsFor app = pool.urlsFor app := by
  intro h
  have hsome : (run System.step (System.start declaredBoot)
      (presented "wss://app.example")).daemon.pool.isSome := by decide +kernel
  obtain ⟨pool, hpool⟩ := Option.isSome_iff_exists.mp hsome
  have hown : ∀ pool ∈ (run System.step (System.start declaredBoot)
      (presented "wss://app.example")).daemon.pool, "wss://app.example" ∈ pool.ownOf "app" := by
    decide +kernel
  have harms : Arms (run System.step (System.start declaredBoot) (presented "wss://app.example"))
      (.lockUnlock (.plain [] 992) (.plain [] 993)) := by decide +kernel
  obtain ⟨after, hafter, hsame⟩ := h declaredBoot (presented "wss://app.example")
    (.lockUnlock (.plain [] 992) (.plain [] 993)) "app" pool (by decide +kernel) hpool harms
  have hbooked := System.run_booked declaredBoot (presented "wss://app.example")
  obtain ⟨pool', hpool', hurls⟩ := urlsFor_after hbooked harms
  obtain rfl : pool' = after := by
    rw [hpool'] at hafter
    exact Option.some.inj hafter
  have hbefore : "wss://app.example" ∈ pool.urlsFor "app" :=
    (hbooked.roads pool hpool).mem_urlsFor.mpr (.inr (hown pool hpool))
  rw [← hsame] at hbefore
  have hdeclared := (hurls "app" "wss://app.example").mp hbefore
  revert hdeclared
  decide

end Rearming
end Kuma.Nostr
