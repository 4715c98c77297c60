import Kuma.Lockfile.Builds

/-! Machines over any history of builds, updates and cleans, with everyone else's podman in
between: what a lock says of the image it was taken from, and who moves the pin. -/
namespace Kuma.Lockfile
open Kuma.Lib Kuma.Lib.Text

/-- What happens to a machine. -/
inductive Event
  | build (att : Attempt)
  | update (att : Attempt)
  | clean (att : Attempt) (building : Bool)
  /-- another declaration -/
  | declare (config : Config)
  /-- somebody else's podman -/
  | outside (storage : Storage)

def Event.Honest (names : List Char → List Char) : Event → Prop
  | .build att | .update att | .clean att _ => att.Honest names
  | .declare _ => True
  | .outside storage => storage.Honest names

section
variable (sha256 : List Char → Sum) (tag : List Char)

def Machine.step (m : Machine) : Event → Machine
  | .build att => (Lockfile.build sha256 tag att m).1
  | .update att => (Lockfile.update sha256 tag att m).1
  | .clean att building => Lockfile.clean sha256 att building m
  | .declare config => { m with config }
  | .outside storage => { m with storage }

/-- How a verb that builds ended. -/
def Machine.ends (m : Machine) : Event → Built
  | .build att => (Lockfile.build sha256 tag att m).2
  | .update att => (Lockfile.update sha256 tag att m).2
  | _ => .failed

end

/-- The tag names an image that was built on what the digest names. -/
def BuiltOn (names : List Char → List Char) (tag : List Char) (s : Storage)
    (digest : List Char) : Prop :=
  ∃ id image, s.inspect tag = some (id, image) ∧ image.base = some (names digest)

/-- The lock tells the truth about the image that the tag names. -/
structure Recorded (names : List Char → List Char) (sha256 : List Char → Sum) (tag : List Char)
    (m : Machine) (lock : LockFile) : Prop where
  file : m.lock = some (.ok lock)
  reference : lock.base.reference = baseRef sha256 m.config
  image : ∃ id image, m.storage.inspect tag = some (id, image) ∧
    image.base = some (names lock.base.digest) ∧
    lock.rpm = parseRpmQuery (listing image.packages)

variable {names : List Char → List Char} {sha256 : List Char → Sum} {tag : List Char}
  {att : Attempt} {m m' : Machine} {s s' : Storage} {lock : LockFile} {built : Built}
  {base digest reference t id : List Char} {pinned resolved : Option (List Char)}

/-- The repository is what stands before the digest. -/
theorem at_notMem_beforeTag {text : List Char} (start : ℕ) (last : List Char) (h : '@' ∉ text) :
    '@' ∉ (match splitOnce ':' last with
      | some (repo, _) => text.take (start + repo.length)
      | none => text) := by
  split
  · exact fun hmem => h (List.mem_of_mem_take hmem)
  · exact h

theorem at_notMem_repoName (reference : List Char) : '@' ∉ repoName reference := by
  unfold repoName
  dsimp only
  refine at_notMem_beforeTag _ _ ?_
  split
  · next repo _ hsplit => exact (splitOnce_eq_some hsplit).2
  · next hsplit => exact splitOnce_eq_none.mp hsplit

theorem splitOnce_pinnedRef (reference digest : List Char) :
    splitOnce '@' (pinnedRef reference digest) = some (repoName reference, digest) :=
  splitOnce_append (at_notMem_repoName reference)

variable (sha256) in
theorem at_notMem_contentTag (config : Config) : '@' ∉ contentTag sha256 config := by
  have hminted := isContentTag_contentTag sha256 config
  unfold isContentTag at hminted
  split at hminted
  · next hex hstrip =>
    rw [stripPrefix_eq_some.mp hstrip, List.mem_append, not_or]
    refine ⟨by decide, fun hmem => ?_⟩
    have hdigit := List.all_eq_true.mp (Bool.and_eq_true_iff.mp hminted).2 '@' hmem
    cases hdigit
  · cases hminted

/-! ### Reading the lock back -/

theorem forConfig_of_ok (hfile : m.lock = some (.ok lock))
    (hschema : lock.schemaVersion = CURRENT_SCHEMA) (hdigest : isDigest lock.base.digest = true) :
    forConfig m = some lock := by
  simp [forConfig, hfile, load, hschema, hdigest, Except.toOption]

theorem forConfig_congr (h : m'.lock = m.lock) : forConfig m' = forConfig m := by
  unfold forConfig
  rw [h]

theorem isDigest_of_forConfig (h : forConfig m = some lock) :
    isDigest lock.base.digest = true := by
  unfold forConfig at h
  split at h
  · cases h
  · exact isDigest_of_load (toOption_eq_some.mp h)

/-! ### One build -/

theorem fromLine_declared {config : Config} {declared : String}
    (h : config.system.base = some declared) (digest : List Char) :
    fromLine sha256 config (some digest) = pinnedRef declared.toList digest := by
  simp [fromLine, h]

theorem fromLine_composed {config : Config} (h : config.system.base = none)
    (pinned : Option (List Char)) : fromLine sha256 config pinned = baseRef sha256 config := by
  simp [fromLine, h]

theorem fromLine_unpinned (config : Config) :
    fromLine sha256 config none = baseRef sha256 config := by
  unfold fromLine
  split
  · next hpinned => cases hpinned
  · rfl

/-- The digest that a build goes by names the base that the image has. -/
theorem Storage.Raised.names_eq {config : Config}
    (h : Raised names tag att (fromLine sha256 config pinned) s s' base)
    (hapart : baseRef sha256 config ≠ tag)
    (hresolve : resolved = pinned ∨ pinned = none ∧
      ∀ d, resolved = some d → baseDigest s' (baseRef sha256 config) = some d)
    (hheld : config.system.base = none → ∀ d, pinned = some d →
      s.find (baseRef sha256 config) = some (names d))
    (hdigest : resolved = some digest) : names digest = base := by
  rcases hresolve with rfl | ⟨rfl, hread⟩
  · subst hdigest
    cases hbase : config.system.base with
    | some declared =>
      rw [fromLine_declared hbase] at h
      exact h.digest _ digest (splitOnce_pinnedRef _ _)
    | none =>
      rw [fromLine_composed hbase] at h
      exact h.first _ (hheld hbase digest rfl)
  · have hfind := h.honest.baseDigest_names (hread digest hdigest)
    rw [fromLine_unpinned] at h
    by_cases hat : '@' ∈ baseRef sha256 config
    · obtain ⟨⟨repo, d⟩, hsplit⟩ := Option.ne_none_iff_exists'.mp
        fun hnone => splitOnce_eq_none.mp hnone hat
      rw [← h.honest.find_digest hsplit hfind, h.digest repo d hsplit]
    · rw [h.honest.find_tag hat, h.tagged hapart hat] at hfind
      exact (Option.some.inj hfind).symm

theorem Storage.Raised.inspect (h : Raised names tag att reference s s' base) (htag : '@' ∉ tag) :
    ∃ id image, s'.inspect tag = some (id, image) ∧ image.base = some base := by
  obtain ⟨id, image, hlookup, himage, hbase⟩ := h.tip
  refine ⟨id, image, ?_, hbase⟩
  rw [Storage.inspect, h.honest.find_tag htag, hlookup]
  simp [himage]

theorem Noted.storage {declared : List Char} (h : Noted tag att declared resolved m m' built) :
    m'.storage = m.storage ∧ m'.config = m.config := by
  cases h <;> exact ⟨rfl, rfl⟩

/-- A lock that a build hands back says what the build came to. -/
theorem Ended.recorded (h : Ended names sha256 tag att pinned m m' (.locked lock))
    (hapart : baseRef sha256 m.config ≠ tag)
    (hheld : m.config.system.base = none → ∀ d, pinned = some d →
      m.storage.find (baseRef sha256 m.config) = some (names d))
    (htag : '@' ∉ tag) : Recorded names sha256 tag m' lock := by
  cases h with
  | @built s' base resolved _ _ raised resolve noted =>
    cases noted with
    | @whole digest id image _ hresolved tip hbase schema rpm =>
      have hnames := raised.names_eq hapart resolve hheld hresolved
      obtain ⟨id', image', htip, hbuilt⟩ := raised.inspect htag
      cases htip.symm.trans tip
      exact ⟨rfl, by rw [hbase], id, image, tip, by rw [hbase, hnames, hbuilt], rpm⟩

variable (sha256) in
/-- What a build that found its base settled makes of the machine. -/
theorem buildImagePinned_cases (hs : m.storage.Honest names) (ha : att.Honest names)
    (htag : '@' ∉ tag) (pin : Pin) :
    buildImagePinned sha256 tag att pin m = (m, .failed) ∨
    (∃ s', s'.Honest names ∧ m.storage.Moves [COMPOSE_ENV, baseRef sha256 m.config] s' ∧
      buildImagePinned sha256 tag att pin m = ({ m with storage := s' }, .failed)) ∨
    ∃ s' pinned, s'.Honest names ∧
      m.storage.Moves [COMPOSE_ENV, baseRef sha256 m.config] s' ∧
      (m.config.system.base.isSome → s' = m.storage ∧ pinned = startingPin sha256 m pin) ∧
      (m.config.system.base = none → ∀ d, pinned = some d →
        s'.find (baseRef sha256 m.config) = some (names d)) ∧
      Ended names sha256 tag att pinned { m with storage := s' }
        (buildImagePinned sha256 tag att pin m).1 (buildImagePinned sha256 tag att pin m).2 := by
  unfold buildImagePinned
  split
  · exact .inl rfl
  · cases hloads : att.loads with
    | false => exact .inl rfl
    | true =>
      simp only [Bool.not_true, Bool.false_eq_true, if_false]
      refine .inr ?_
      cases hbase : m.config.system.base with
      | some declared =>
        refine .inr ⟨m.storage, startingPin sha256 m pin, hs, .refl _ _, fun _ => ⟨rfl, rfl⟩,
          nofun, ?_⟩
        exact buildFrom_ended hs ha htag _
      | none =>
        have hplain : '@' ∉ baseRef sha256 m.config := by
          rw [baseRef, hbase]
          exact at_notMem_contentTag sha256 m.config
        obtain ⟨hhonest, hmoves, hheld⟩ :=
          Storage.settle_spec hs ha pin hplain (startingPin sha256 m pin)
        dsimp only
        split
        · exact .inl ⟨_, hhonest, hmoves, rfl⟩
        · next pinned hsettled =>
          refine .inr ⟨_, pinned, hhonest, hmoves, nofun, fun _ d hd => ?_, ?_⟩
          · obtain ⟨-, hsame, hread⟩ := hheld d (hsettled.trans (by rw [hd]))
            rw [hsame]
            exact hs.baseDigest_names hread
          · exact buildFrom_ended (m := { m with storage := _ }) hhonest ha htag _

/-! ### What moves, and what goes -/

theorem Storage.Honest.lookup_of_at (h : s.Honest names) (hat : '@' ∈ t) :
    s.tags.lookup t = none := by
  cases hlookup : s.tags.lookup t with
  | none => rfl
  | some id => exact absurd hat (h.plain t id hlookup)

variable (sha256) in
theorem fromLine_cases (config : Config) (pinned : Option (List Char)) :
    fromLine sha256 config pinned = baseRef sha256 config ∨
      '@' ∈ fromLine sha256 config pinned := by
  unfold fromLine
  split
  · exact .inr (by simp [pinnedRef])
  · exact .inl rfl

/-- A build moves its own tag and the base's. A digest is nobody's tag. -/
theorem Ended.storage (h : Ended names sha256 tag att pinned m m' built)
    (hs : m.storage.Honest names) : m'.storage.Honest names ∧ m'.config = m.config ∧
      m.storage.Moves [baseRef sha256 m.config, tag] m'.storage := by
  have hdrop : ∀ {s' : Storage}, s'.Honest names →
      m.storage.Moves [fromLine sha256 m.config pinned, tag] s' →
      m.storage.Moves [baseRef sha256 m.config, tag] s' := by
    intro s' hs' hmoves t ht
    rw [List.mem_cons, List.mem_singleton, not_or] at ht
    by_cases hline : t = fromLine sha256 m.config pinned
    · rcases fromLine_cases sha256 m.config pinned with hsame | hat
      · exact absurd (hline.trans hsame) ht.1
      · rw [← hline] at hat
        rw [hs.lookup_of_at hat, hs'.lookup_of_at hat]
    · exact hmoves t (by simp [hline, ht.2])
  cases h with
  | failed honest moves _ => exact ⟨honest, rfl, hdrop honest moves⟩
  | built raised resolve noted =>
    obtain ⟨hstorage, hconfig⟩ := noted.storage
    rw [hstorage, hconfig]
    exact ⟨raised.honest, rfl, hdrop raised.honest raised.moves⟩

variable (sha256) in
theorem buildImagePinned_storage (hs : m.storage.Honest names) (ha : att.Honest names)
    (htag : '@' ∉ tag) (pin : Pin) :
    (buildImagePinned sha256 tag att pin m).1.storage.Honest names ∧
      (buildImagePinned sha256 tag att pin m).1.config = m.config ∧
      m.storage.Moves [COMPOSE_ENV, baseRef sha256 m.config, tag]
        (buildImagePinned sha256 tag att pin m).1.storage := by
  rcases buildImagePinned_cases sha256 hs ha htag pin with
    hsame | ⟨s', hs', hmoves, hsame⟩ | ⟨s', pinned, hs', hmoves, -, -, hended⟩
  · rw [hsame]
    exact ⟨hs, rfl, .refl _ _⟩
  · rw [hsame]
    exact ⟨hs', rfl, hmoves.weaken (by simp)⟩
  · obtain ⟨hhonest, hconfig, hbuilt⟩ := hended.storage hs'
    exact ⟨hhonest, hconfig, (hmoves.weaken (by simp)).trans (hbuilt.weaken (by simp))⟩

theorem pulledRef_cases (config : Config) :
    pulledRef config ∈ [COMPOSE_ENV, baseRef sha256 config] := by
  cases hbase : config.system.base <;> simp [pulledRef, baseRef, hbase]

theorem pull_spec (hs : s.Honest names) (ha : att.Honest names) (reference : List Char) :
    (s.pull att reference).1.Honest names ∧ s.Moves [reference] (s.pull att reference).1 := by
  unfold Storage.pull
  split
  · next id image hserved =>
    exact ⟨hs.add (ha.served _ id image hserved).1, .add _ _ _ _⟩
  · exact ⟨hs, .refl _ _⟩

variable (sha256 tag) in
/-- What `update` starts its build from. -/
theorem update_cases (hs : m.storage.Honest names) (ha : att.Honest names) :
    update sha256 tag att m = (m, .failed) ∨
    ∃ s', s'.Honest names ∧ m.storage.Moves [COMPOSE_ENV, baseRef sha256 m.config] s' ∧
      (update sha256 tag att m = ({ m with storage := s' }, .failed) ∨
        update sha256 tag att m =
          buildImagePinned sha256 tag att .refresh { m with storage := s' }) := by
  unfold update
  split
  · exact .inl rfl
  · cases hloads : att.loads with
    | false => exact .inl rfl
    | true =>
      obtain ⟨hhonest, hmoves⟩ := pull_spec hs ha (pulledRef m.config)
      have hsub : [pulledRef m.config] ⊆ [COMPOSE_ENV, baseRef sha256 m.config] :=
        fun t ht => List.mem_singleton.mp ht ▸ pulledRef_cases m.config
      simp only [Bool.not_true, Bool.false_eq_true, if_false]
      refine .inr ⟨_, hhonest, hmoves.weaken hsub, ?_⟩
      split
      · exact .inr rfl
      · exact .inl rfl

/-- A tag and its image are left as they are. -/
structure Storage.Spares (t : List Char) (s s' : Storage) : Prop where
  tag : s'.tags.lookup t = s.tags.lookup t
  image : ∀ id, s.tags.lookup t = some id → s'.images.lookup id = s.images.lookup id

namespace Storage

theorem Spares.refl (t : List Char) (s : Storage) : s.Spares t s := ⟨rfl, fun _ _ => rfl⟩

theorem Spares.trans {s'' : Storage} (h : s.Spares t s') (h' : s'.Spares t s'') :
    s.Spares t s'' :=
  ⟨h'.tag.trans h.tag, fun id hid => (h'.image id (h.tag.trans hid)).trans (h.image id hid)⟩

theorem rmi_honest (hs : s.Honest names) (t : List Char) : (s.rmi t).Honest names := by
  unfold rmi
  split
  · exact hs
  · dsimp only
    split_ifs with htagged
    · exact hs.eraseTag
    · exact hs.eraseTag.eraseImage (by simpa using htagged)

/-- Removing a tag leaves every other one its image. -/
theorem rmi_spares (s : Storage) {t' : List Char} (hne : t ≠ t') : s.Spares t (s.rmi t') := by
  unfold rmi
  split
  · exact .refl t s
  · next id hid =>
    dsimp only
    have hkept : ∀ id', s.tags.lookup t = some id' →
        ({ s with tags := s.tags.erase t' } : Storage).tagged id' = true :=
      fun id' h => tagged_of_lookup ((AList.lookup_erase_ne hne).trans h)
    split_ifs with htagged
    · exact ⟨AList.lookup_erase_ne hne, fun _ _ => rfl⟩
    · refine ⟨AList.lookup_erase_ne hne, fun id' h => AList.lookup_erase_ne fun hid' => ?_⟩
      exact htagged (hid' ▸ hkept id' h)

theorem foldl_rmi (hs : s.Honest names) (removes : List Char → Bool) (stale : List (List Char)) :
    (stale.foldl (fun s t => if removes t then s.rmi t else s) s).Honest names ∧
      ∀ t, t ∉ stale →
        s.Spares t (stale.foldl (fun s t => if removes t then s.rmi t else s) s) := by
  induction stale generalizing s with
  | nil => exact ⟨hs, fun t _ => .refl t s⟩
  | cons x xs ih =>
    have hnext : (if removes x then s.rmi x else s).Honest names := by
      split_ifs
      · exact rmi_honest hs x
      · exact hs
    obtain ⟨hhonest, hspares⟩ := ih hnext
    refine ⟨hhonest, fun t ht => ?_⟩
    rw [List.mem_cons, not_or] at ht
    refine Spares.trans ?_ (hspares t ht.2)
    split_ifs
    · exact rmi_spares s ht.1
    · exact .refl t s

end Storage

/-- The tags that a clean may take. -/
def Cleaned (sha256 : List Char → Sum) (m : Machine) (t : List Char) : Prop :=
  t = LIVE_TAG ∨ isContentTag t = true ∧ t ≠ contentTag sha256 m.config ∧
    ∀ lock, forConfig m = some lock → t ≠ lock.base.reference

theorem prune_spec (hs : s.Honest names) (att : Attempt) :
    (s.prune att).Honest names ∧ ∀ t, s.Spares t (s.prune att) := by
  have hkeep : ∀ t id, s.tags.lookup t = some id → ∀ image : Image,
      (s.tagged id || !att.removes id) = true :=
    fun t id h _ => Bool.or_eq_true_iff.mpr (.inl (Storage.tagged_of_lookup h))
  refine ⟨hs.retain hkeep, fun t => ⟨rfl, fun id hid => ?_⟩⟩
  obtain ⟨image, himage⟩ := Option.isSome_iff_exists.mp (hs.stored t id hid)
  rw [Storage.prune, HashMap.lookup_retain, himage, Option.filter_some,
    if_pos (hkeep t id hid image)]

variable (sha256) in
theorem pruneBases_spec (hs : s.Honest names) (att : Attempt) :
    (pruneBases sha256 att m s).Honest names ∧
      ∀ t, ¬ Cleaned sha256 m t → s.Spares t (pruneBases sha256 att m s) := by
  unfold pruneBases
  split
  · exact ⟨hs, fun t _ => .refl t s⟩
  · split_ifs
    · exact ⟨hs, fun t _ => .refl t s⟩
    · obtain ⟨hhonest, hspares⟩ := Storage.foldl_rmi hs att.removes (staleBaseTags
        (ofLines (s.tags.keys.filter fun t => ("localhost/kuma-base:".toList).isPrefixOf t))
        (contentTag sha256 m.config :: (forConfig m).toList.map fun lock => lock.base.reference))
      refine ⟨hhonest, fun t ht => hspares t fun hstale => ht (.inr ?_)⟩
      obtain ⟨hminted, hkept⟩ := mem_staleBaseTags hstale
      rw [List.mem_cons, not_or] at hkept
      refine ⟨hminted, hkept.1, fun lock hlock hsame => hkept.2 ?_⟩
      exact List.mem_map.mpr ⟨lock, Option.mem_toList.mpr hlock, hsame.symm⟩

variable (sha256) in
theorem clean_spec (hs : m.storage.Honest names) (att : Attempt) (building : Bool) :
    (clean sha256 att building m).storage.Honest names ∧
      (clean sha256 att building m).config = m.config ∧
      (clean sha256 att building m).lock = m.lock ∧
      ∀ t, ¬ Cleaned sha256 m t → m.storage.Spares t (clean sha256 att building m).storage := by
  unfold clean
  cases building with
  | true => exact ⟨hs, rfl, rfl, fun t _ => .refl t _⟩
  | false =>
    obtain ⟨hpruned, hspared⟩ := prune_spec hs att
    obtain ⟨hbased, hspared'⟩ := pruneBases_spec sha256 (m := m) hpruned att
    simp only [Bool.false_eq_true, if_false]
    refine ⟨?_, trivial, trivial, fun t ht => ((hspared t).trans (hspared' t ht)).trans ?_⟩
    · split_ifs
      · exact Storage.rmi_honest hbased LIVE_TAG
      · exact hbased
    · split_ifs
      · exact Storage.rmi_spares _ fun h => ht (.inl h)
      · exact .refl t _

/-! ### Histories -/

/-- The tags that an event may move. -/
def Moving (sha256 : List Char → Sum) (tag : List Char) (m : Machine) : Event → List Char → Prop
  | .build _, t | .update _, t => t ∈ [COMPOSE_ENV, baseRef sha256 m.config, tag]
  | .clean _ _, t => Cleaned sha256 m t
  | .declare _, _ => False
  | .outside _, _ => True

variable {e : Event}

theorem update_storage (hs : m.storage.Honest names) (ha : att.Honest names) (htag : '@' ∉ tag) :
    (update sha256 tag att m).1.storage.Honest names ∧
      m.storage.Moves [COMPOSE_ENV, baseRef sha256 m.config, tag]
        (update sha256 tag att m).1.storage := by
  rcases update_cases sha256 tag hs ha with
    hsame | ⟨s', hs', hmoves, hsame | hbuilds⟩
  · rw [hsame]
    exact ⟨hs, .refl _ _⟩
  · rw [hsame]
    exact ⟨hs', hmoves.weaken (by simp)⟩
  · obtain ⟨hhonest, -, hbuilt⟩ := buildImagePinned_storage sha256
      (m := { m with storage := s' }) hs' ha htag .refresh
    rw [hbuilds]
    exact ⟨hhonest, (hmoves.weaken (by simp)).trans hbuilt⟩

variable (sha256) in
theorem step_storage (hs : m.storage.Honest names) (he : e.Honest names) (htag : '@' ∉ tag) :
    (m.step sha256 tag e).storage.Honest names ∧ ∀ t, ¬ Moving sha256 tag m e t →
      (m.step sha256 tag e).storage.tags.lookup t = m.storage.tags.lookup t := by
  cases e with
  | build att =>
    obtain ⟨hhonest, -, hmoves⟩ := buildImagePinned_storage sha256 hs he htag .follow
    exact ⟨hhonest, hmoves⟩
  | update att => exact update_storage hs he htag
  | clean att building =>
    obtain ⟨hhonest, -, -, hspares⟩ := clean_spec sha256 hs att building
    exact ⟨hhonest, fun t ht => (hspares t ht).tag⟩
  | declare config => exact ⟨hs, fun _ _ => rfl⟩
  | outside storage => exact ⟨he, fun _ ht => absurd trivial ht⟩

theorem buildImagePinned_recorded (hs : m.storage.Honest names) (ha : att.Honest names)
    (htag : '@' ∉ tag) (hapart : baseRef sha256 m.config ≠ tag) (pin : Pin)
    (h : (buildImagePinned sha256 tag att pin m).2 = .locked lock) :
    Recorded names sha256 tag (buildImagePinned sha256 tag att pin m).1 lock := by
  rcases buildImagePinned_cases sha256 hs ha htag pin with
    hsame | ⟨s', hs', hmoves, hsame⟩ | ⟨s', pinned, hs', -, -, hheld, hended⟩
  · rw [hsame] at h
    cases h
  · rw [hsame] at h
    cases h
  · rw [h] at hended
    exact hended.recorded hapart hheld htag

theorem step_recorded (hs : m.storage.Honest names) (he : e.Honest names) (htag : '@' ∉ tag)
    (hapart : baseRef sha256 m.config ≠ tag) (h : m.ends sha256 tag e = .locked lock) :
    Recorded names sha256 tag (m.step sha256 tag e) lock := by
  cases e with
  | build att => exact buildImagePinned_recorded hs he htag hapart .follow h
  | update att =>
    simp only [Machine.ends, Machine.step] at h ⊢
    rcases update_cases sha256 tag hs he with
      hsame | ⟨s', hs', -, hsame | hbuilds⟩
    · rw [hsame] at h
      cases h
    · rw [hsame] at h
      cases h
    · rw [hbuilds] at h ⊢
      exact buildImagePinned_recorded (m := { m with storage := s' }) hs' he htag hapart
        .refresh h
  | _ => cases h

/-- A declared base, and a lock that pins it. -/
structure Pinned (declared : String) (pin : Base) (m : Machine) : Prop where
  base : m.config.system.base = some declared
  lock : ∃ lock, forConfig m = some lock ∧ lock.base = pin
  reference : pin.reference = declared.toList

/-- What leaves a pin alone: builds that do not lose the lock's file, and what is no verb of
kuma's that builds. -/
def Event.Keeps : Event → Prop
  | .build att => att.write ≠ .torn none
  | .clean _ _ | .outside _ => True
  | .update _ | .declare _ => False

theorem Noted.keeps {declared : List Char} {pin : Base}
    (h : Noted tag att declared (some pin.digest) m m' built)
    (hlock : ∃ lock, forConfig m = some lock ∧ lock.base = pin)
    (hreference : pin.reference = declared) (htorn : att.write ≠ .torn none) :
    ∃ lock, forConfig m' = some lock ∧ lock.base = pin := by
  obtain ⟨lock, hload, rfl⟩ := hlock
  have hdigest := isDigest_of_forConfig hload
  have hkeeps : ∀ {digest : List Char} {lock' : LockFile},
      some lock.base.digest = some digest → lock'.base = ⟨declared, digest⟩ →
      lock'.schemaVersion = CURRENT_SCHEMA →
      ∃ lock'', forConfig { m with lock := some (.ok lock') } = some lock'' ∧
        lock''.base = lock.base := by
    intro digest lock' hresolve hbase hschema
    obtain rfl := Option.some.inj hresolve
    have hsame : lock'.base = lock.base := by rw [hbase, ← hreference]
    exact ⟨lock', forConfig_of_ok rfl hschema (by rwa [hsame]), hsame⟩
  cases h with
  | kept => exact ⟨lock, hload, rfl⟩
  | whole resolve _ base schema _ => exact hkeeps resolve base schema
  | cut resolve base schema => exact hkeeps resolve base schema
  | lost torn => exact absurd torn htorn

theorem startingPin_of_pinned {pin : Base} (hlock : ∃ lock, forConfig m = some lock ∧
    lock.base = pin) (hreference : pin.reference = baseRef sha256 m.config) :
    startingPin sha256 m .follow = some pin.digest := by
  obtain ⟨lock, hload, rfl⟩ := hlock
  simp [startingPin, hload, hreference]

/-- A build that goes by the pin is on the pinned base, and hands the pin on. -/
theorem Ended.keeps {pin : Base} (h : Ended names sha256 tag att (some pin.digest) m m' built)
    (hlock : ∃ lock, forConfig m = some lock ∧ lock.base = pin)
    (hreference : pin.reference = baseRef sha256 m.config) (htag : '@' ∉ tag)
    (htorn : att.write ≠ .torn none)
    (hheld : m.config.system.base = none →
      m.storage.find (baseRef sha256 m.config) = some (names pin.digest)) :
    (∃ lock, forConfig m' = some lock ∧ lock.base = pin) ∧
      (built ≠ .failed → BuiltOn names tag m'.storage pin.digest) := by
  cases h with
  | failed => exact ⟨hlock, fun hne => absurd rfl hne⟩
  | @built s' base resolved _ _ raised resolve noted =>
    obtain rfl : resolved = some pin.digest := resolve.resolve_right fun h => nomatch h.1
    have hnames : names pin.digest = base := by
      cases hbase : m.config.system.base with
      | some declared =>
        rw [fromLine_declared hbase] at raised
        exact raised.digest _ _ (splitOnce_pinnedRef _ _)
      | none =>
        rw [fromLine_composed hbase] at raised
        exact raised.first _ (hheld hbase)
    obtain ⟨id, image, htip, hbuilt⟩ := raised.inspect htag
    refine ⟨noted.keeps (m := { m with storage := s' }) hlock hreference htorn, fun _ => ?_⟩
    rw [noted.storage.1, BuiltOn, hnames]
    exact ⟨id, image, htip, hbuilt⟩

variable (sha256) in
theorem Pinned.build {declared : String} {pin : Base} (h : Pinned declared pin m)
    (hs : m.storage.Honest names) (ha : att.Honest names) (htag : '@' ∉ tag)
    (htorn : att.write ≠ .torn none) :
    Pinned declared pin (Lockfile.build sha256 tag att m).1 ∧
      ((Lockfile.build sha256 tag att m).2 ≠ .failed →
        BuiltOn names tag (Lockfile.build sha256 tag att m).1.storage pin.digest) := by
  have href : pin.reference = baseRef sha256 m.config := by rw [h.reference, baseRef, h.base]
  rw [Lockfile.build]
  rcases buildImagePinned_cases sha256 hs ha htag .follow with
    hsame | ⟨s', hs', hmoves, hsame⟩ | ⟨s', pinned, hs', -, hsettled, -, hended⟩
  · rw [hsame]
    exact ⟨h, fun hne => absurd rfl hne⟩
  · rw [hsame]
    exact ⟨⟨h.base, h.lock, h.reference⟩, fun hne => absurd rfl hne⟩
  · obtain ⟨rfl, rfl⟩ := hsettled (by rw [h.base]; rfl)
    rw [startingPin_of_pinned h.lock href] at hended
    obtain ⟨hlock, hbuilt⟩ := hended.keeps h.lock href htag htorn
      fun hnone => by cases hnone.symm.trans h.base
    have hconfig := (hended.storage hs).2.1
    exact ⟨⟨by rw [hconfig]; exact h.base, hlock, h.reference⟩, hbuilt⟩

theorem step_pinned {declared : String} {pin : Base} (h : Pinned declared pin m)
    (hs : m.storage.Honest names) (he : e.Honest names) (hkeeps : e.Keeps) (htag : '@' ∉ tag) :
    Pinned declared pin (m.step sha256 tag e) ∧
      ∀ att, e = .build att → m.ends sha256 tag e ≠ .failed →
        BuiltOn names tag (m.step sha256 tag e).storage pin.digest := by
  cases e with
  | build att =>
    obtain ⟨hnext, hbuilt⟩ := h.build sha256 hs he htag hkeeps
    exact ⟨hnext, fun _ _ => hbuilt⟩
  | clean att building =>
    obtain ⟨-, hconfig, hlock, -⟩ := clean_spec sha256 hs att building
    refine ⟨⟨?_, ?_, h.reference⟩, fun _ hbuild => by cases hbuild⟩
    · rw [Machine.step, hconfig, h.base]
    · rw [Machine.step, forConfig_congr hlock]
      exact h.lock
  | outside storage => exact ⟨⟨h.base, h.lock, h.reference⟩, fun _ hbuild => by cases hbuild⟩
  | update | declare => cases hkeeps

/-- Over a declared base whose lock can be read, nothing but an update, another declaration or a
lock cut short moves the pin: wherever tags move, whatever is pruned and pulled, each build is on
the image that the lock names. -/
theorem pinned_run (names : List Char → List Char) (sha256 : List Char → Sum) (tag : List Char)
    (htag : '@' ∉ tag) (declared : String) (pin : Base) (m : Machine)
    (hm : Pinned declared pin m) (hs : m.storage.Honest names) (es : List Event)
    (hes : ∀ e ∈ es, e.Honest names ∧ e.Keeps) :
    Pinned declared pin (run (Machine.step sha256 tag) m es) ∧
    Along (Machine.step sha256 tag) (fun m e => ∀ att, e = .build att →
      m.ends sha256 tag e ≠ .failed →
        BuiltOn names tag (m.step sha256 tag e).storage pin.digest) m es := by
  have hstep : ∀ (m : Machine) (e : Event),
      Pinned declared pin m ∧ m.storage.Honest names → e.Honest names ∧ e.Keeps →
      Pinned declared pin (m.step sha256 tag e) ∧ (m.step sha256 tag e).storage.Honest names :=
    fun m e hm he =>
      ⟨(step_pinned hm.1 hm.2 he.1 he.2 htag).1, (step_storage sha256 hm.2 he.1 htag).1⟩
  have halong : Along (Machine.step sha256 tag) _ m es := along_of_forall hes
  refine ⟨(run_invariant (I := fun m => Pinned declared pin m ∧ m.storage.Honest names) hstep
    ⟨hm, hs⟩ halong).1, ?_⟩
  have hinvariant := along_invariant (I := fun m => Pinned declared pin m ∧
    m.storage.Honest names) hstep ⟨hm, hs⟩ halong
  refine (hinvariant.and halong).mono fun m e h => ?_
  exact (step_pinned h.1.1 h.1.2 h.2.1 h.2.2 htag).2

/-! ### Composed bases -/

/-- A composed base that is in storage under its tag, and a lock that pins it. -/
structure Standing (sha256 : List Char → Sum) (pin : Base) (m : Machine) : Prop where
  base : m.config.system.base = none
  lock : ∃ lock, forConfig m = some lock ∧ lock.base = pin
  reference : pin.reference = contentTag sha256 m.config
  stored : baseDigest m.storage (contentTag sha256 m.config) = some pin.digest

/-- What leaves it standing: cleans, and builds that find it and come to an image of their own. -/
def Event.Stands (names : List Char → List Char) (pin : Base) : Event → Prop
  | .build att => att.write ≠ .torn none ∧ att.exists_ = true ∧ att.held = true ∧
    ∀ image, att.built ≠ some (names pin.digest, image)
  | .clean _ _ => True
  | _ => False

theorem LIVE_TAG_ne_contentTag (config : Config) : LIVE_TAG ≠ contentTag sha256 config := by
  intro h
  have hlive : isContentTag LIVE_TAG = false := by decide
  rw [h, isContentTag_contentTag sha256] at hlive
  cases hlive

/-- The digest of a base is read again where its tag and its image are as they were. -/
theorem baseDigest_congr (hs : s.Honest names) (hs' : s'.Honest names)
    (hplain : '@' ∉ reference) (hread : baseDigest s reference = some digest)
    (htags : s'.tags.lookup reference = s.tags.lookup reference)
    (himages : ∀ id, s.tags.lookup reference = some id →
      s'.images.lookup id = s.images.lookup id) :
    baseDigest s' reference = some digest := by
  have hfind := hs.baseDigest_names hread
  have hlookup := (hs.find_tag hplain).symm.trans hfind
  have hfind' := ((hs'.find_tag hplain).trans htags).trans hlookup
  have hsame : s'.inspect reference = s.inspect reference := by
    simp [Storage.inspect, hfind, hfind', himages _ hlookup]
  rw [baseDigest, hsame]
  exact hread

theorem Standing.settle {pin : Base} (h : Standing sha256 pin m) (hexists : att.exists_ = true)
    (hheld : att.held = true) :
    m.storage.settle att .follow (baseRef sha256 m.config) (some pin.digest) =
      (m.storage, some (some pin.digest)) := by
  have href : baseRef sha256 m.config = contentTag sha256 m.config := by rw [baseRef, h.base]
  have hthere : (m.storage.inspect (contentTag sha256 m.config)).isSome := by
    obtain ⟨tip, hinspect, -⟩ := Option.bind_eq_some_iff.mp h.stored
    rw [hinspect]
    rfl
  simp [Storage.settle, href, hexists, hheld, hthere, h.stored]

/-- A build that goes by the pin leaves the base standing. -/
theorem Ended.stands {pin : Base} (h : Ended names sha256 tag att (some pin.digest) m m' built)
    (hm : Standing sha256 pin m) (hs : m.storage.Honest names)
    (hapart : contentTag sha256 m.config ≠ tag)
    (hown : ∀ image, att.built ≠ some (names pin.digest, image)) :
    baseDigest m'.storage (contentTag sha256 m.config) = some pin.digest := by
  have href : baseRef sha256 m.config = contentTag sha256 m.config := by rw [baseRef, hm.base]
  have hplain := at_notMem_contentTag sha256 m.config
  have hfind := hs.baseDigest_names hm.stored
  have hlookup := (hs.find_tag hplain).symm.trans hfind
  cases h with
  | failed _ _ unfetched =>
    rw [fromLine_composed hm.base, href] at unfetched
    rw [unfetched (by rw [hfind]; rfl)]
    exact hm.stored
  | built raised resolve noted =>
    rw [fromLine_composed hm.base, href] at raised
    rw [noted.storage.1]
    refine baseDigest_congr hs raised.honest hplain hm.stored ?_ fun id hid => ?_
    · rw [raised.tagged hapart hplain, hlookup, raised.first _ hfind]
    · refine raised.frame (by rw [hfind]; rfl) _ id hapart hid ?_
      obtain rfl := Option.some.inj (hlookup.symm.trans hid)
      exact hown

theorem Standing.build {pin : Base} (h : Standing sha256 pin m) (hs : m.storage.Honest names)
    (ha : att.Honest names) (htag : '@' ∉ tag) (hapart : contentTag sha256 m.config ≠ tag)
    (hstands : Event.Stands names pin (.build att)) :
    Standing sha256 pin (Lockfile.build sha256 tag att m).1 ∧
      (Lockfile.build sha256 tag att m).1.config = m.config ∧
      ((Lockfile.build sha256 tag att m).2 ≠ .failed →
        BuiltOn names tag (Lockfile.build sha256 tag att m).1.storage pin.digest) := by
  obtain ⟨htorn, hexists, hheld, hown⟩ := hstands
  have href : pin.reference = baseRef sha256 m.config := by rw [h.reference, baseRef, h.base]
  unfold Lockfile.build buildImagePinned
  split
  · exact ⟨h, rfl, fun hne => absurd rfl hne⟩
  · cases hloads : att.loads with
    | false => exact ⟨h, rfl, fun hne => absurd rfl hne⟩
    | true =>
      simp only [Bool.not_true, Bool.false_eq_true, if_false, h.base,
        startingPin_of_pinned h.lock href, h.settle hexists hheld]
      have hended := @buildFrom_ended names att sha256 tag m hs ha htag (some pin.digest)
      obtain ⟨hlock, hbuilt⟩ := hended.keeps h.lock href htag htorn fun _ => by
        rw [← href, h.reference]
        exact hs.baseDigest_names h.stored
      have hconfig := (hended.storage hs).2.1
      have hstored := hended.stands h hs hapart hown
      exact ⟨⟨by rw [hconfig, h.base], hlock, by rw [hconfig, h.reference],
        by rw [hconfig]; exact hstored⟩, hconfig, hbuilt⟩

theorem step_standing {pin : Base} (h : Standing sha256 pin m) (hs : m.storage.Honest names)
    (he : e.Honest names) (htag : '@' ∉ tag) (hapart : contentTag sha256 m.config ≠ tag)
    (hstands : e.Stands names pin) :
    Standing sha256 pin (m.step sha256 tag e) ∧ (m.step sha256 tag e).config = m.config ∧
      ∀ att, e = .build att → m.ends sha256 tag e ≠ .failed →
        BuiltOn names tag (m.step sha256 tag e).storage pin.digest := by
  cases e with
  | build att =>
    obtain ⟨hnext, hconfig, hbuilt⟩ := h.build hs he htag hapart hstands
    exact ⟨hnext, hconfig, fun _ _ => hbuilt⟩
  | clean att building =>
    obtain ⟨hhonest, hconfig, hlock, hspares⟩ := clean_spec sha256 hs att building
    have hkept : ¬ Cleaned sha256 m (contentTag sha256 m.config) := by
      rintro (hlive | ⟨-, hne, -⟩)
      · exact LIVE_TAG_ne_contentTag m.config hlive.symm
      · exact hne rfl
    obtain ⟨htags, himages⟩ := hspares _ hkept
    refine ⟨⟨?_, ?_, ?_, ?_⟩, hconfig, fun _ hbuild => by cases hbuild⟩
    · rw [Machine.step, hconfig, h.base]
    · rw [Machine.step, forConfig_congr hlock]
      exact h.lock
    · rw [Machine.step, hconfig, h.reference]
    · rw [Machine.step, hconfig]
      have hplain := at_notMem_contentTag sha256 m.config
      exact baseDigest_congr hs hhonest hplain h.stored htags himages
  | update | declare | outside => cases hstands

private def digestOf (c : Char) : List Char := "sha256:".toList ++ List.replicate 64 c

private def idOf (digest : List Char) : List Char :=
  if digest = digestOf '3' then "base".toList
  else if digest = digestOf '4' then "moved".toList
  else "built".toList

private theorem isWord_digestOf (n : Fin 10) : IsWord (digestOf (Nat.digitChar n)) := by
  refine ⟨List.cons_ne_nil _ _, fun x hx => ?_⟩
  rcases List.mem_append.mp hx with hx | hx
  · have hprefix : ∀ c ∈ "sha256:".toList, isWhiteSpace c = false :=
      List.all_iff_forall_prop.mp (by decide)
    exact hprefix x hx
  · have hdigit : ∀ n : Fin 10, isWhiteSpace (Nat.digitChar n) = false := by decide
    rw [List.eq_of_mem_replicate hx, hdigit]

/-- What a registry knows the image by. -/
private def entryOf (n : Fin 10) : List Char :=
  "localhost:5000/kuma".toList ++ '@' :: digestOf (Nat.digitChar n)

private theorem isWord_entryOf (n : Fin 10) : ∀ entry ∈ [entryOf n], IsWord entry := by
  intro entry hentry
  obtain rfl := List.mem_singleton.mp hentry
  refine ⟨List.append_ne_nil_of_right_ne_nil _ (List.cons_ne_nil _ _), fun x hx => ?_⟩
  rcases List.mem_append.mp hx with hx | hx
  · have hrepo : ∀ c ∈ "localhost:5000/kuma".toList, isWhiteSpace c = false :=
      List.all_iff_forall_prop.mp (by decide)
    exact hrepo x hx
  · rcases List.mem_cons.mp hx with rfl | hx
    · rfl
    · exact (isWord_digestOf n).2 x hx

/-- An image with one digest, that a registry knows it by as well. -/
private def imageOf (n : Fin 10) : Image where
  manifest := digestOf (Nat.digitChar n)
  repoDigests := [entryOf n]
  packages := []
  base := none
  manifest_word := isWord_digestOf n
  repoDigests_word := isWord_entryOf n

private theorem imageOf_truthful (n : Fin 10) :
    Truthful idOf (idOf (digestOf (Nat.digitChar n))) (imageOf n) := by
  refine ⟨rfl, fun entry hentry => ?_⟩
  obtain rfl := List.mem_singleton.mp hentry
  exact ⟨_, digestOf (Nat.digitChar n), splitOnce_append (by decide), rfl⟩

private theorem ids : idOf (digestOf '3') = "base".toList ∧ idOf (digestOf '4') = "moved".toList ∧
    idOf (digestOf '5') = "built".toList := by decide

private def bare : Storage := ⟨∅, ∅⟩

private theorem bare_honest : bare.Honest idOf := by
  constructor <;> intros <;> simp_all [bare]

/-- Everything goes through. A registry serves the base for its digest, and for its tag what the
tag has moved to. -/
private def fair : Attempt where
  loads := true
  context := true
  exists_ := true
  held := true
  served reference :=
    if reference = entryOf 3 then some ("base".toList, imageOf 3)
    else if '@' ∉ reference then some ("moved".toList, imageOf 4)
    else none
  composed := some ("base".toList, imageOf 3)
  tags := true
  built := some ("built".toList, imageOf 5)
  removes _ := true
  resolves := true
  queries := true
  now := "2026-02-02T02:40:00Z".toList
  write := .whole

private theorem fair_honest : fair.Honest idOf := by
  have hbase : Truthful idOf "base".toList (imageOf 3) := ids.1 ▸ imageOf_truthful 3
  have hmoved : Truthful idOf "moved".toList (imageOf 4) := ids.2.1 ▸ imageOf_truthful 4
  have hbuilt : Truthful idOf "built".toList (imageOf 5) := ids.2.2 ▸ imageOf_truthful 5
  refine ⟨fun reference id image h => ?_, ?_, ?_⟩
  · simp only [fair] at h
    split_ifs at h with hdigest hplain
    · cases h
      exact ⟨hbase, fun _ => hdigest ▸ List.mem_singleton_self _⟩
    · cases h
      exact ⟨hmoved, fun hat => absurd hat hplain⟩
  · rintro id image ⟨⟩
    exact hbase
  · rintro id image ⟨⟩
    exact hbuilt

private def mirrored : Machine := ⟨MIRRORED_CONFIG, some (.ok MIRRORED_LOCK), bare⟩

private def latest : List Char := "localhost/kuma:latest".toList

private def flatSum (_ : List Char) : Sum := ⟨List.replicate 32 7, rfl⟩

theorem pinned_run_mirrored :
    BuiltOn idOf latest (mirrored.step flatSum latest (.build fair)).storage (digestOf '3') := by
  have hrun := (pinned_run idOf flatSum latest (by decide) "localhost:5000/kuma:44"
    MIRRORED_LOCK.base mirrored ⟨rfl, ⟨MIRRORED_LOCK, by rfl, rfl⟩, rfl⟩ bare_honest
    [.build fair] fun e he => by
      obtain rfl := List.mem_singleton.mp he
      exact ⟨fair_honest, fun htorn => Write.noConfusion htorn⟩).2
  exact (along_cons.mp hrun).1 fair rfl (by rintro ⟨⟩)

/-- A declaration without a base, over a lock for its composed base. -/
private def composed : Machine where
  config := Config.default
  lock := some (.ok
    { MIRRORED_LOCK with base := ⟨contentTag flatSum Config.default, digestOf '3'⟩ })
  storage :=
    { images := AList.singleton "base".toList (imageOf 3)
      tags := AList.singleton (contentTag flatSum Config.default) "base".toList }

private theorem composed_honest : composed.storage.Honest idOf := by
  refine ⟨fun id image h => ?_, fun t id h => ?_, fun t id h => ?_⟩
  · cases List.mem_singleton.mp (HashMap.lookup_eq_some_iff.mp h)
    exact ids.1 ▸ imageOf_truthful 3
  · cases List.mem_singleton.mp (HashMap.lookup_eq_some_iff.mp h)
    exact at_notMem_contentTag _ _
  · cases List.mem_singleton.mp (HashMap.lookup_eq_some_iff.mp h)
    rfl

private theorem built_ne_base : "built".toList ≠ idOf (digestOf '3') := by decide

end Kuma.Lockfile
