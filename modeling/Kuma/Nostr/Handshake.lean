import Kuma.Lib.Run
import Kuma.Nostr.Roads
import Mathlib.Data.List.Nodup

/-! Where the handshake of a `nostrconnect://` pairing goes. A relay of the URI that the declared
set runs already gets no road of the client's own, and the fan that carries the handshake is chosen
by whether the client has any. -/
namespace Kuma.Nostr.RelayPool
open Kuma.Lib

variable {N : Crate} {pool : RelayPool N} {key app : N.PublicKey} {url : String}
  {declared urls : List String}

/-- What the daemon does with a pool between its arming and its teardown. -/
inductive Move (N : Crate)
  | subscribe (app : N.PublicKey) (relays : List String) (bunkerPubkey : N.PublicKey)
  | drop (app : N.PublicKey)
  | send (event : N.Event) (fan : Fan N)

def moved (pool : RelayPool N) : Move N → RelayPool N
  | .subscribe app relays bunkerPubkey => subscribeRelays app relays bunkerPubkey pool
  | .drop app => dropApp app pool
  | .send event fan => (pool.send event fan).1

/-- What the roads at one URL were handed between two states of the book. -/
def handed (before after : RelayPool N) (url : String) : List (N.Event × Fan N) :=
  ((before.roads.zip after.roads).filter fun pair => pair.2.url == url).flatMap fun pair =>
    pair.2.queue.drop pair.1.queue.length

/-- The roads stand in the book as the URLs do, and no URL stands there twice for one party. -/
structure Listed (pool : RelayPool N) : Prop where
  own : (pool.roads.filter Road.own).map Road.url = pool.ownUrls
  apps : ∀ app, (pool.roads.filter fun road => road.app == some app).map Road.url = pool.ownOf app
  ownOnce : pool.ownUrls.Nodup
  appOnce : ∀ app, (pool.ownOf app).Nodup
  apart : ∀ app, ∀ url ∈ pool.ownOf app, url ∉ pool.ownUrls

theorem spawnOwn_listed (key : N.PublicKey) (url : String) (h : pool.Listed)
    (hfresh : ∀ app, pool.ownOf app = []) :
    (spawnOwn key pool url).Listed ∧ ∀ app, (spawnOwn key pool url).ownOf app = [] := by
  unfold spawnOwn
  split_ifs with hknown
  · exact ⟨h, hfresh⟩
  · refine ⟨⟨?_, fun app => ?_, ?_, h.appOnce, fun app other hother => ?_⟩, hfresh⟩
    · simp [← h.own]
    · have happs := h.apps app
      change _ = pool.ownOf app
      simpa using happs
    · exact List.nodup_append.mpr ⟨h.ownOnce, List.nodup_singleton url,
        fun a ha b hb => by rw [List.mem_singleton.mp hb]; exact fun hab => hknown (hab ▸ ha)⟩
    · change other ∈ pool.ownOf app at hother
      rw [hfresh app] at hother
      cases hother

theorem spawn_listed (declared : List String) (key : N.PublicKey) :
    (spawn declared key).Listed := by
  have hfold : ∀ pool : RelayPool N, pool.Listed → (∀ app, pool.ownOf app = []) →
      (declared.foldl (spawnOwn key) pool).Listed := by
    induction declared with
    | nil => exact fun pool h _ => h
    | cons url declared ih =>
      intro pool h hfresh
      obtain ⟨hnext, hfresh⟩ := spawnOwn_listed key url h hfresh
      exact ih _ hnext hfresh
  refine hfold ⟨[], [], ∅⟩ ⟨rfl, fun app => rfl, .nil, fun app => .nil, ?_⟩ fun app => rfl
  intro app url hurl
  cases hurl

theorem ownOf_insert_self (roads : List (Road N)) (list : List String) :
    ownOf { pool with roads, appUrls := pool.appUrls.insert app list } app = list := by
  unfold ownOf
  rw [AList.lookup_insert, Option.getD_some]

theorem ownOf_insert_of_ne {who : N.PublicKey} (roads : List (Road N)) (list : List String)
    (hwho : who ≠ app) :
    ownOf { pool with roads, appUrls := pool.appUrls.insert app list } who = pool.ownOf who := by
  unfold ownOf
  rw [AList.lookup_insert_ne hwho]

theorem subscribeRelay_listed (h : pool.Listed) : (subscribeRelay app key pool url).Listed := by
  unfold subscribeRelay
  simp only
  split_ifs with hknown
  · exact h
  · obtain ⟨hforeign, hnew⟩ := not_or.mp hknown
    have hlists : ∀ (roads : List (Road N)) who,
        ownOf { pool with
          roads, appUrls := pool.appUrls.insert app (pool.ownOf app ++ [url]) } who =
          if who = app then pool.ownOf app ++ [url] else pool.ownOf who := by
      intro roads who
      split_ifs with hwho
      · rw [hwho, ownOf_insert_self]
      · rw [ownOf_insert_of_ne _ _ hwho]
    refine ⟨?_, fun who => ?_, h.ownOnce, fun who => ?_, fun who => ?_⟩
    · simpa using h.own
    · have happs := h.apps who
      rw [← ownOf, hlists]
      split_ifs with hwho
      · subst hwho
        simp [← happs]
      · simpa [Ne.symm hwho] using happs
    · rw [← ownOf, hlists]
      split_ifs with hwho
      · refine List.nodup_append.mpr ⟨h.appOnce app, List.nodup_singleton url, ?_⟩
        intro a ha b hb hab
        rw [List.mem_singleton.mp hb] at hab
        exact hnew (hab ▸ ha)
      · exact h.appOnce who
    · rw [← ownOf, hlists]
      split_ifs with hwho
      · intro other hother
        rcases List.mem_append.mp hother with hold | hfirst
        · exact h.apart app other hold
        · rw [List.mem_singleton.mp hfirst]
          exact hforeign
      · exact h.apart who

theorem subscribeRelays_listed (h : pool.Listed) (urls : List String) :
    (subscribeRelays app urls key pool).Listed := by
  unfold subscribeRelays
  induction urls generalizing pool with
  | nil => exact h
  | cons url urls ih => exact ih (subscribeRelay_listed h)

theorem ownOf_dropApp (who : N.PublicKey) :
    (dropApp app pool).ownOf who = if who = app then [] else pool.ownOf who := by
  unfold ownOf dropApp
  split_ifs with hwho
  · rw [hwho, AList.lookup_erase]
    rfl
  · rw [AList.lookup_erase_ne hwho]

theorem dropApp_listed (h : pool.Listed) (hbooked : pool.Booked declared) :
    (dropApp app pool).Listed := by
  have hsplit : ∀ p : Road N → Bool,
      (∀ road ∈ pool.roads, p road = true → road.app ≠ some app) →
      (dropApp app pool).roads.filter p = pool.roads.filter p := by
    intro p hp
    change (pool.roads.filter _).filter p = _
    rw [List.filter_filter]
    refine List.filter_congr fun road hmem => ?_
    cases hroad : p road with
    | false => rfl
    | true => simpa using hp road hmem hroad
  refine ⟨?_, fun who => ?_, h.ownOnce, fun who => ?_, fun who other hother => ?_⟩
  · -- a declared road is nobody's own
    rw [hsplit Road.own, h.own]
    · rfl
    · intro road hmem hroad
      rw [hbooked.apart road hmem hroad]
      exact nofun
  · rw [ownOf_dropApp]
    split_ifs with hwho
    · simp [dropApp, List.filter_filter, hwho]
    · rw [hsplit, h.apps]
      intro road _ hroad
      rw [beq_iff_eq.mp hroad]
      exact fun heq => hwho (Option.some.inj heq)
  · rw [ownOf_dropApp]
    split_ifs
    · exact .nil
    · exact h.appOnce who
  · rw [ownOf_dropApp] at hother
    split_ifs at hother
    · cases hother
    · exact h.apart who other hother

/-- A sent event changes nothing but queues. -/
theorem send_filter (pool : RelayPool N) (event : N.Event) (fan : Fan N) {p : Road N → Bool}
    (hp : ∀ road queue, p { road with queue } = p road) :
    ((pool.send event fan).1.roads.filter p).map Road.url =
      (pool.roads.filter p).map Road.url := by
  unfold send
  split_ifs
  · rfl
  · rw [List.filter_map, List.map_map]
    have hsame : ∀ road : Road N, (p ∘ fun road => if road.carries fan then
        { road with queue := road.queue ++ [(event, fan)] } else road) road = p road := by
      intro road
      simp only [Function.comp_apply]
      split_ifs
      · exact hp road _
      · rfl
    rw [funext hsame]
    refine List.map_congr_left fun road _ => ?_
    simp only [Function.comp_apply]
    split_ifs <;> rfl

theorem send_listed (h : pool.Listed) (event : N.Event) (fan : Fan N) :
    (pool.send event fan).1.Listed := by
  have hbooks : (pool.send event fan).1.ownUrls = pool.ownUrls ∧
      ∀ app, (pool.send event fan).1.ownOf app = pool.ownOf app := by
    unfold send
    split_ifs <;> exact ⟨rfl, fun _ => rfl⟩
  obtain ⟨hown, happs⟩ := hbooks
  refine ⟨?_, fun app => ?_, ?_, fun app => ?_, fun app => ?_⟩
  · rw [send_filter pool event fan fun _ _ => rfl, hown, h.own]
  · rw [send_filter pool event fan fun _ _ => rfl, happs, h.apps]
  · rw [hown]
    exact h.ownOnce
  · rw [happs]
    exact h.appOnce app
  · rw [happs, hown]
    exact h.apart app

theorem moved_listed (h : pool.Listed) (hbooked : pool.Booked declared) (move : Move N) :
    (pool.moved move).Listed ∧ (pool.moved move).Booked declared := by
  cases move with
  | subscribe app relays bunkerPubkey =>
    exact ⟨subscribeRelays_listed h relays, subscribeRelays_booked hbooked relays⟩
  | drop app => exact ⟨dropApp_listed h hbooked, dropApp_booked hbooked⟩
  | send event fan => exact ⟨send_listed h event fan, send_booked hbooked event fan⟩

/-- Every pool of a daemon over the declared set is listed and booked. -/
theorem run_listed (declared : List String) (key : N.PublicKey) (moves : List (Move N)) :
    (run moved (spawn declared key) moves).Listed ∧
      (run moved (spawn declared key) moves).Booked declared :=
  run_invariant (P := fun _ _ => True)
    (I := fun pool : RelayPool N => pool.Listed ∧ pool.Booked declared)
    (fun _ move h _ => moved_listed h.1 h.2 move)
    ⟨spawn_listed declared key, spawn_booked declared key⟩ fun _ _ => trivial

theorem handed_send (pool : RelayPool N) (event : N.Event) (fan : Fan N) (url : String) :
    handed pool (pool.send event fan).1 url = List.replicate
      (((pool.roads.filter fun road => road.carries fan).map Road.url).count url) (event, fan) := by
  have hroads : ∀ roads : List (Road N), ((roads.zip (roads.map fun road => if road.carries fan then
      { road with queue := road.queue ++ [(event, fan)] } else road)).filter
        fun pair => pair.2.url == url).flatMap (fun pair => pair.2.queue.drop pair.1.queue.length) =
      List.replicate (((roads.filter fun road => road.carries fan).map Road.url).count url)
        (event, fan) := by
    intro roads
    induction roads with
    | nil => rfl
    | cons road roads ih =>
      by_cases hcarries : road.carries fan = true
      · by_cases hurl : road.url = url
        · simp [hcarries, hurl, ih, List.replicate_succ]
        · simp [hcarries, hurl, ih]
      · by_cases hurl : road.url = url
        · simp [hcarries, hurl, ih]
        · simp [hcarries, hurl, ih]
  unfold handed send
  split_ifs with hgone
  · rw [List.isEmpty_iff.mp hgone]
    rfl
  · exact hroads pool.roads

/-- A send goes once down each road that the fan names. -/
theorem handed_of_nodup {roads : List String} (event : N.Event) (fan : Fan N)
    (hroads : (pool.roads.filter fun road => road.carries fan).map Road.url = roads)
    (honce : roads.Nodup) (url : String) :
    (handed pool (pool.send event fan).1 url).map Prod.fst =
      if url ∈ roads then [event] else [] := by
  rw [handed_send, hroads, List.map_replicate]
  split_ifs with hmem
  · rw [List.count_eq_one_of_mem honce hmem]
    rfl
  · rw [List.count_eq_zero_of_not_mem hmem]
    rfl

theorem mem_ownOf_subscribeRelay (pool : RelayPool N) (app key : N.PublicKey) (first : String) :
    (subscribeRelay app key pool first).ownUrls = pool.ownUrls ∧
      ∀ url, url ∈ (subscribeRelay app key pool first).ownOf app ↔
        url ∈ pool.ownOf app ∨ url = first ∧ first ∉ pool.ownUrls := by
  unfold subscribeRelay
  simp only
  split_ifs with hknown
  · refine ⟨rfl, fun url => ⟨.inl, ?_⟩⟩
    rintro (hurl | ⟨rfl, hforeign⟩)
    · exact hurl
    · exact hknown.resolve_left hforeign
  · refine ⟨rfl, fun url => ?_⟩
    rw [ownOf_insert_self, List.mem_append, List.mem_singleton]
    simp [(not_or.mp hknown).1, ownOf]

theorem mem_ownOf_subscribeRelays (pool : RelayPool N) (app key : N.PublicKey)
    (urls : List String) :
    (subscribeRelays app urls key pool).ownUrls = pool.ownUrls ∧
      ∀ url, url ∈ (subscribeRelays app urls key pool).ownOf app ↔
        url ∈ pool.ownOf app ∨ url ∈ urls ∧ url ∉ pool.ownUrls := by
  unfold subscribeRelays
  induction urls generalizing pool with
  | nil => exact ⟨rfl, by simp⟩
  | cons first urls ih =>
    obtain ⟨hown, happs⟩ := ih (subscribeRelay app key pool first)
    have hfirst := mem_ownOf_subscribeRelay pool app key first
    rw [List.foldl_cons, hown, hfirst.1]
    refine ⟨rfl, fun url => ?_⟩
    rw [happs url, hfirst.2 url, hfirst.1, List.mem_cons]
    constructor
    · rintro ((hurl | ⟨rfl, hforeign⟩) | ⟨hurl, hforeign⟩)
      · exact .inl hurl
      · exact .inr ⟨.inl rfl, hforeign⟩
      · exact .inr ⟨.inr hurl, hforeign⟩
    · rintro (hurl | ⟨rfl | hurl, hforeign⟩)
      · exact .inl (.inl hurl)
      · exact .inl (.inr ⟨rfl, hforeign⟩)
      · exact .inr ⟨hurl, hforeign⟩

/-- The handshake goes down the client's own roads, or the declared ones when it has none. -/
theorem handed_publishOnlyTo (h : pool.Listed) (event : N.Event) (app : N.PublicKey)
    (url : String) :
    (handed pool (pool.publishOnlyTo event app).1 url).map Prod.fst =
      if url ∈ (if pool.ownOf app = [] then pool.ownUrls else pool.ownOf app) then [event]
      else [] := by
  have hfan : ((pool.appUrls.lookup app).any fun urls => !urls.isEmpty) = true ↔
      pool.ownOf app ≠ [] := by
    unfold ownOf
    cases pool.appUrls.lookup app with
    | none => simp
    | some urls => simp
  unfold publishOnlyTo
  by_cases hempty : pool.ownOf app = []
  · rw [if_neg (fun hany => hfan.mp hany hempty), if_pos hempty]
    exact handed_of_nodup event .own h.own h.ownOnce url
  · rw [if_pos (hfan.mpr hempty), if_neg hempty]
    exact handed_of_nodup event (.onlyApp app) (h.apps app) (h.appOnce app) url

/-- What the client's earlier relays and its URI's relays have to be beside the declared set. -/
def NothingElse (declared earlier relays : List String) : Prop :=
  (∀ url ∈ earlier, url ∈ relays) ∧
    if earlier = [] ∧ ∀ url ∈ relays, url ∈ declared then ∀ url ∈ declared, url ∈ relays
    else ∀ url ∈ relays, url ∉ declared

/-- The URLs that the fan names are the URI's own exactly under that condition, from what a
subscription makes of the client's list. -/
theorem reaches_iff_nothingElse {ours own earlier relays : List String}
    (hours : ∀ url, url ∈ ours ↔ url ∈ declared)
    (hown : ∀ url, url ∈ own ↔ url ∈ earlier ∨ url ∈ relays ∧ url ∉ declared)
    (hapart : ∀ url ∈ earlier, url ∉ declared) :
    (∀ url, url ∈ (if own = [] then ours else own) ↔ url ∈ relays) ↔
      NothingElse declared earlier relays := by
  have hempty : own = [] ↔ earlier = [] ∧ ∀ url ∈ relays, url ∈ declared := by
    rw [List.eq_nil_iff_forall_not_mem, List.eq_nil_iff_forall_not_mem, ← forall_and]
    refine forall_congr' fun url => ?_
    rw [hown url, not_or, not_and, not_not]
  rw [NothingElse]
  by_cases hnone : own = []
  · -- the plain fan
    rw [if_pos hnone, if_pos (hempty.mp hnone), (hempty.mp hnone).1]
    simp only [hours, List.not_mem_nil, false_implies, implies_true, true_and]
    have hknown := (hempty.mp hnone).2
    exact ⟨fun h url => (h url).mp, fun h url => ⟨h url, hknown url⟩⟩
  · rw [if_neg hnone, if_neg fun h => hnone (hempty.mpr h)]
    constructor
    · intro h
      refine ⟨fun url hurl => (h url).mp ((hown url).mpr (.inl hurl)), fun url hurl => ?_⟩
      rcases (hown url).mp ((h url).mpr hurl) with hold | hnew
      · exact hapart url hold
      · exact hnew.2
    · rintro ⟨hearlier, hforeign⟩ url
      rw [hown url]
      constructor
      · rintro (hold | hnew)
        · exact hearlier url hold
        · exact hnew.1
      · exact fun hurl => .inr ⟨hurl, hforeign url hurl⟩

/-- The handshake is handed once to each relay of the client's URI and to nothing else exactly when
the URI names the relays the client already had, and with them either all of the declared set and
no other relay, or no declared relay at all. -/
theorem handshake_on_clients_roads_iff (declared : List String) (key key' app : N.PublicKey)
    (moves : List (Move N)) (relays : List String) (handshake : N.Event) :
    let pool := run moved (spawn declared key) moves
    let subscribed := subscribeRelays app relays key' pool
    (∀ url, (handed subscribed (subscribed.publishOnlyTo handshake app).1 url).map Prod.fst =
        if url ∈ relays then [handshake] else []) ↔
      NothingElse declared (pool.ownOf app) relays := by
  intro pool subscribed
  obtain ⟨hlisted, hbooked⟩ : pool.Listed ∧ pool.Booked declared := run_listed declared key moves
  have hsubscribed : subscribed.Listed := subscribeRelays_listed hlisted relays
  obtain ⟨hown, happs⟩ := mem_ownOf_subscribeRelays pool app key' relays
  have hdeclared : ∀ url, url ∈ subscribed.ownUrls ↔ url ∈ declared := by
    intro url
    rw [hown]
    exact hbooked.declared url
  have hapart : ∀ url ∈ pool.ownOf app, url ∉ declared := by
    intro url hurl hmem
    exact hlisted.apart app url hurl ((hbooked.declared url).mpr hmem)
  simp only [hbooked.declared] at happs
  have hsame : (∀ url, (handed subscribed (subscribed.publishOnlyTo handshake app).1 url).map
        Prod.fst = if url ∈ relays then [handshake] else []) ↔
      ∀ url, url ∈ (if subscribed.ownOf app = [] then subscribed.ownUrls
        else subscribed.ownOf app) ↔ url ∈ relays := by
    refine forall_congr' fun url => ?_
    rw [handed_publishOnlyTo hsubscribed]
    by_cases hleft : url ∈ (if subscribed.ownOf app = [] then subscribed.ownUrls
        else subscribed.ownOf app)
    · by_cases hright : url ∈ relays <;> simp [hleft, hright]
    · by_cases hright : url ∈ relays <;> simp [hleft, hright]
  exact hsame.trans (reaches_iff_nothingElse hdeclared happs hapart)

/-- Of a declared relay and a foreign one the handshake reaches the foreign one alone; of one
declared relay it reaches the other declared one too. -/
theorem handshake_misses_declared :
    let pool : RelayPool (Crate.plain []) := spawn ["wss://ours", "wss://spare"] "pub-bunker"
    let handshake : (Crate.plain []).Event := ⟨"h", "pub-bunker", 0, 24133, ["app"], "", true⟩
    let sent (relays : List String) (url : String) : List (Crate.plain []).Event :=
      let subscribed := subscribeRelays "app" relays "pub-bunker" pool
      (handed subscribed (subscribed.publishOnlyTo handshake "app").1 url).map Prod.fst
    sent ["wss://ours", "wss://theirs"] "wss://ours" = [] ∧
      sent ["wss://ours"] "wss://spare" = [handshake] ∧
      ¬∀ relays url, sent relays url = if url ∈ relays then [handshake] else [] := by
  intro pool handshake sent
  have hmissed : sent ["wss://ours", "wss://theirs"] "wss://ours" = [] :=
    List.length_eq_zero_iff.mp (by decide +kernel)
  refine ⟨hmissed, rfl, fun h => ?_⟩
  have hsent := h ["wss://ours", "wss://theirs"] "wss://ours"
  rw [hmissed, if_pos List.mem_cons_self] at hsent
  cases hsent

end Kuma.Nostr.RelayPool
