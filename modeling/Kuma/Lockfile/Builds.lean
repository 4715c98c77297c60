import Kuma.Lib.HashMap
import Kuma.Lib.Run
import Kuma.Lockfile.Compose
import Kuma.Lockfile.Pin

/-! Builds over the life of a machine: podman's storage, the declaration with its lock, and the
verbs that read and write them. Any command may fail, and between two verbs anyone may use
podman. -/
namespace Kuma.Lockfile
open Kuma.Lib Kuma.Lib.Text

/-- What podman prints as one field of a line. -/
def IsWord (text : List Char) : Prop := text ≠ [] ∧ ∀ c ∈ text, isWhiteSpace c = false

/-- What podman knows of an image, and the image that its `FROM` line came to. -/
structure Image where
  manifest : List Char
  repoDigests : List (List Char)
  packages : List Package
  base : Option (List Char)
  manifest_word : IsWord manifest
  repoDigests_word : ∀ entry ∈ repoDigests, IsWord entry

/-- podman's storage: images by their ids, and the ids that tags name. -/
structure Storage where
  images : HashMap (List Char) Image
  tags : HashMap (List Char) (List Char)

namespace Storage

/-- The id that a reference names: a tag's, or that of an image known by this digest. -/
def find (s : Storage) (reference : List Char) : Option (List Char) :=
  (s.tags.lookup reference).or
    ((s.images.entries.find? fun e => reference ∈ e.2.repoDigests).map fun e => e.1)

/-- `podman image inspect` -/
def inspect (s : Storage) (reference : List Char) : Option (List Char × Image) := do
  let id ← s.find reference
  let image ← s.images.lookup id
  return (id, image)

def tagged (s : Storage) (id : List Char) : Bool := s.tags.entries.any fun e => e.2 == id

/-- An image that nobody tagged. -/
def hasNoTags (s : Storage) (id : List Char) : Bool := (s.images.lookup id).isSome && !s.tagged id

/-- What a registry served for a reference. A digest is no tag. -/
def add (s : Storage) (reference id : List Char) (image : Image) : Storage where
  images := s.images.insert id image
  tags := if '@' ∈ reference then s.tags else s.tags.insert reference id

/-- `podman rmi` of a tag. The image goes with its last one. -/
def rmi (s : Storage) (tag : List Char) : Storage :=
  match s.tags.lookup tag with
  | none => s
  | some id =>
    let untagged := { s with tags := s.tags.erase tag }
    if untagged.tagged id then untagged else { untagged with images := s.images.erase id }

end Storage

/-! ### The digest of a base -/

/-- `{{.Digest}}{{range .RepoDigests}}\n{{.}}{{end}}` -/
def Image.digests (image : Image) : List Char :=
  image.manifest ++ image.repoDigests.flatMap ('\n' :: ·)

/-- The digest that a registry means by the reference: the index's, where podman knows it. -/
def indexDigest (repoDigests : List (List Char)) (manifest reference : List Char) : List Char :=
  ((((repoDigests.filterMap (splitOnce '@')).filter fun e => e.1 == repoName reference).map
    Prod.snd).find? (· ≠ manifest)).getD manifest

/-- What is made of podman's answer. -/
def readDigests (reference out : List Char) : Option (List Char) :=
  match ((lines out).map trim).filter (· ≠ []) with
  | [] => none
  | manifest :: repoDigests =>
    if (stripPrefix "sha256:".toList manifest).isSome then
      some (indexDigest repoDigests manifest reference)
    else none

def baseDigest (s : Storage) (reference : List Char) : Option (List Char) := do
  let (_, image) ← s.inspect reference
  readDigests reference image.digests

/-! ### One build -/

/-- Whether a build honors the lock's digest or goes looking for what the tag names now. -/
inductive Pin
  | follow
  | refresh
  deriving DecidableEq

/-- How the writing of a lock ends. A file that is cut short reads as nothing, or as the lock
with fewer packages: the base comes first. -/
inductive Write
  | whole
  | untouched
  | torn (rpm : Option (SortedMap (List Char) (List Char)))

/-- What the commands of one verb meet. -/
structure Attempt where
  /-- the declaration can be read -/
  loads : Bool
  /-- the build context can be written -/
  context : Bool
  /-- `podman image exists` answers -/
  exists_ : Bool
  /-- the digest that a pin is held against can be read -/
  held : Bool
  /-- what a registry serves for a reference -/
  served : List Char → Option (List Char × Image)
  /-- what a compose comes to -/
  composed : Option (List Char × Image)
  tags : Bool
  /-- what a build comes to -/
  built : Option (List Char × Image)
  /-- images and tags that podman lets go -/
  removes : List Char → Bool
  /-- the digest of the base can be read -/
  resolves : Bool
  /-- the packages of the image can be read -/
  queries : Bool
  now : List Char
  write : Write

/-- A machine: its declaration, and the lock beside it as toml reads it. -/
structure Machine where
  config : Config
  lock : Option (Except (List Char) LockFile)
  storage : Storage

/-- How a build ended. -/
inductive Built
  | failed
  | unlocked
  | locked (lock : LockFile)

def COMPOSE_ENV : List Char := "quay.io/fedora/fedora-bootc:44".toList

def LIVE_TAG : List Char := "localhost/kuma-live:latest".toList

section
variable (sha256 : List Char → Sum) (tag : List Char) (att : Attempt)

/-- `Config::base_ref` -/
def baseRef (config : Config) : List Char :=
  match config.system.base with
  | some base => base.toList
  | none => contentTag sha256 config

/-- `lock::for_config` -/
def forConfig (m : Machine) : Option LockFile :=
  match m.lock with
  | none => none
  | some contents => (load (fun _ => contents) (some [])).toOption

namespace Storage

/-- The image behind a `FROM` line, fetched where podman does not have it. -/
def fetch (s : Storage) (reference : List Char) : Storage × Option (List Char) :=
  match s.find reference with
  | some id => (s, some id)
  | none =>
    match att.served reference with
    | some (id, image) => (s.add reference id image, some id)
    | none => (s, none)

/-- `podman pull` -/
def pull (s : Storage) (reference : List Char) : Storage × Bool :=
  match att.served reference with
  | some (id, image) => (s.add reference id image, true)
  | none => (s, false)

def compose (s : Storage) (tag : List Char) : Storage × Bool :=
  let env := s.fetch att COMPOSE_ENV
  match env.2, att.composed with
  | some _, some (id, image) =>
    let pulled := { env.1 with images := env.1.images.insert id image }
    if att.tags then ({ pulled with tags := pulled.tags.insert tag id }, true) else (pulled, false)
  | _, _ => (env.1, false)

/-- `podman build --tag tag` over a `FROM` line. -/
def build (s : Storage) (reference : List Char) : Storage × Bool :=
  let fetched := s.fetch att reference
  match fetched.2, att.built with
  | some base, some (id, image) =>
    ({ images := fetched.1.images.insert id { image with base := some base },
       tags := fetched.1.tags.insert tag id }, true)
  | _, _ => (fetched.1, false)

/-- The previous build goes, where the tag moved off it and no other holds it. -/
def reclaim (s : Storage) (before : Option (List Char)) : Storage :=
  match before, s.inspect tag with
  | some before, some (after, _) =>
    if before ≠ after ∧ s.hasNoTags before ∧ att.removes before then
      { s with images := s.images.erase before }
    else s
  | _, _ => s

/-- A composed base that the pin can be held against, or a fresh one, and the digest that is
left of the pin. -/
def settle (s : Storage) (pin : Pin) (declared : List Char) (pinned : Option (List Char)) :
    Storage × Option (Option (List Char)) :=
  let fresh :=
    let composed := s.compose att declared
    (composed.1, if composed.2 then some none else none)
  let present := att.exists_ && (s.inspect declared).isSome
  match pin, pinned, present with
  | .refresh, _, _ => fresh
  | .follow, some digest, true =>
    if att.held && baseDigest s declared == some digest then (s, some (some digest))
    else (s, some none)
  | .follow, none, true => (s, some none)
  | .follow, _, false => fresh

end Storage

/-- `lock::record` -/
def recordBuild (m : Machine) (declared digest : List Char) : Machine × Built :=
  match m.storage.inspect tag with
  | some (_, image) =>
    if !att.queries then (m, .unlocked)
    else
      let lock : LockFile :=
        { record ⟨declared, digest⟩ image.packages with
          schemaVersion := CURRENT_SCHEMA
          lockedAt := att.now }
      match att.write with
      | .whole => ({ m with lock := some (.ok lock) }, .locked lock)
      | .untouched => (m, .unlocked)
      | .torn none => ({ m with lock := some (.error []) }, .unlocked)
      | .torn (some rpm) => ({ m with lock := some (.ok { lock with rpm }) }, .unlocked)
  | none => (m, .unlocked)

/-- The digest that a build starts out with. -/
def startingPin (m : Machine) (pin : Pin) : Option (List Char) :=
  (((forConfig m).filter fun _ => pin = .follow).filter fun lock =>
    lock.base.reference = baseRef sha256 m.config).map fun lock => lock.base.digest

/-- What the Containerfile builds from. A composed base is never named by its digest. -/
def fromLine (config : Config) (pinned : Option (List Char)) : List Char :=
  match config.system.base, pinned with
  | some base, some digest => pinnedRef base.toList digest
  | _, _ => baseRef sha256 config

/-- The part of a build that comes after its base is settled. -/
def buildFrom (m : Machine) (pinned : Option (List Char)) : Machine × Built :=
  let declared := baseRef sha256 m.config
  if !att.context then (m, .failed)
  else
    let previous := (m.storage.inspect tag).map Prod.fst
    let built := m.storage.build tag att (fromLine sha256 m.config pinned)
    if !built.2 then ({ m with storage := built.1 }, .failed)
    else
      let m := { m with storage := built.1.reclaim tag att previous }
      let resolved := match pinned with
        | some digest => some digest
        | none => if att.resolves then baseDigest m.storage declared else none
      match resolved with
      | some digest => recordBuild tag att m declared digest
      | none => (m, .unlocked)

def buildImagePinned (pin : Pin) (m : Machine) : Machine × Built :=
  match m.config.validate with
  | .error _ => (m, .failed)
  | .ok _ =>
    if !att.loads then (m, .failed)
    else
      let pinned := startingPin sha256 m pin
      match m.config.system.base with
      | some _ => buildFrom sha256 tag att m pinned
      | none =>
        let settled := m.storage.settle att pin (baseRef sha256 m.config) pinned
        match settled.2 with
        | none => ({ m with storage := settled.1 }, .failed)
        | some pinned => buildFrom sha256 tag att { m with storage := settled.1 } pinned

/-- `kuma build` -/
def build (m : Machine) : Machine × Built := buildImagePinned sha256 tag att .follow m

/-- What an update pulls. A composed base comes out of the environment it is composed in. -/
def pulledRef (config : Config) : List Char :=
  match config.system.base with
  | some base => base.toList
  | none => COMPOSE_ENV

/-- `kuma update`, up to where it stages. -/
def update (m : Machine) : Machine × Built :=
  match m.config.validate with
  | .error _ => (m, .failed)
  | .ok _ =>
    if !att.loads then (m, .failed)
    else
      let pulled := m.storage.pull att (pulledRef m.config)
      let m := { m with storage := pulled.1 }
      if pulled.2 then buildImagePinned sha256 tag att .refresh m else (m, .failed)

/-- `podman image prune`: of the images that no tag holds, those that podman lets go. -/
def Storage.prune (s : Storage) : Storage :=
  { s with images := s.images.retain fun id _ => s.tagged id || !att.removes id }

/-- Composed bases go that neither the declaration nor its lock names. Without a declaration to
read, none do. -/
def pruneBases (m : Machine) (s : Storage) : Storage :=
  match m.config.validate with
  | .error _ => s
  | .ok _ =>
    if !att.loads then s
    else
      let keep := contentTag sha256 m.config ::
        (forConfig m).toList.map fun lock => lock.base.reference
      let listed := ofLines (s.tags.keys.filter fun t =>
        ("localhost/kuma-base:".toList).isPrefixOf t)
      (staleBaseTags listed keep).foldl (fun s t => if att.removes t then s.rmi t else s) s

/-- The part of `kuma clean` that removes images, unless a build appears to run. -/
def clean (building : Bool) (m : Machine) : Machine :=
  if building then m
  else
    let based := pruneBases sha256 att m (m.storage.prune att)
    { m with storage := if att.removes LIVE_TAG then based.rmi LIVE_TAG else based }

end

/-! ### What digests name -/

/-- Digests are sums of contents, so each names one image, here and in every registry. -/
structure Truthful (names : List Char → List Char) (id : List Char) (image : Image) : Prop where
  manifest : names image.manifest = id
  repoDigests : ∀ entry ∈ image.repoDigests, ∃ repo digest,
    splitOnce '@' entry = some (repo, digest) ∧ names digest = id

/-- No digest lies, and no tag dangles. -/
structure Storage.Honest (names : List Char → List Char) (s : Storage) : Prop where
  images : ∀ id image, s.images.lookup id = some image → Truthful names id image
  plain : ∀ t id, s.tags.lookup t = some id → '@' ∉ t
  stored : ∀ t id, s.tags.lookup t = some id → (s.images.lookup id).isSome

/-- What is asked for by its digest is that image, and known by that digest from then on. -/
structure Attempt.Honest (names : List Char → List Char) (att : Attempt) : Prop where
  served : ∀ reference id image, att.served reference = some (id, image) →
    Truthful names id image ∧ ('@' ∈ reference → reference ∈ image.repoDigests)
  composed : ∀ id image, att.composed = some (id, image) → Truthful names id image
  built : ∀ id image, att.built = some (id, image) → Truthful names id image

section
variable {names : List Char → List Char} {s : Storage} {reference digest id t : List Char}
  {image : Image} {att : Attempt}

theorem IsWord.newline {text : List Char} (h : IsWord text) : '\n' ∉ text := by
  intro hmem
  have hspace := h.2 '\n' hmem
  cases hspace

/-- A word is read back as it was printed. -/
theorem IsWord.read {text : List Char} (h : IsWord text) : trim (dropReturn text) = text := by
  rw [trim_dropReturn, trim_of_not_whiteSpace h.2]

theorem lines_words {word : List Char} {words : List (List Char)} (hword : IsWord word)
    (hwords : ∀ w ∈ words, IsWord w) :
    (lines (word ++ words.flatMap ('\n' :: ·))).map trim = word :: words := by
  induction words generalizing word with
  | nil =>
    rw [List.flatMap_nil, List.append_nil, lines_of_notMem hword.newline, if_neg hword.1]
    simp [trim_of_not_whiteSpace hword.2]
  | cons w words ih =>
    obtain ⟨hw, hrest⟩ := List.forall_mem_cons.mp hwords
    rw [List.flatMap_cons, List.cons_append, lines_append hword.newline, List.map_cons,
      hword.read, ih hw hrest]

/-- What podman prints of an image is read as it was meant. -/
theorem readDigests_digests (image : Image) (reference : List Char) :
    readDigests reference image.digests =
      if (stripPrefix "sha256:".toList image.manifest).isSome then
        some (indexDigest image.repoDigests image.manifest reference)
      else none := by
  have hwords := lines_words image.manifest_word image.repoDigests_word
  have hne : ∀ w ∈ image.manifest :: image.repoDigests, decide (w ≠ []) = true := by
    intro w hw
    refine decide_eq_true ?_
    rcases List.mem_cons.mp hw with rfl | hw
    · exact image.manifest_word.1
    · exact (image.repoDigests_word w hw).1
  rw [readDigests, Image.digests, hwords, List.filter_eq_self.mpr hne]

/-- The index's digest or the manifest's: either names the image. -/
theorem Truthful.indexDigest (h : Truthful names id image) (reference : List Char) :
    names (indexDigest image.repoDigests image.manifest reference) = id := by
  unfold Lockfile.indexDigest
  cases hfind : ((((image.repoDigests.filterMap (splitOnce '@')).filter
      fun e => e.1 == repoName reference).map Prod.snd).find? (· ≠ image.manifest)) with
  | none => exact h.manifest
  | some digest =>
    obtain ⟨⟨repo, d⟩, hmem, rfl⟩ := List.mem_map.mp (List.mem_of_find?_eq_some hfind)
    obtain ⟨entry, hentry, hsplit⟩ := List.mem_filterMap.mp (List.mem_filter.mp hmem).1
    obtain ⟨repo', digest', hsplit', hnames⟩ := h.repoDigests entry hentry
    cases hsplit.symm.trans hsplit'
    exact hnames

namespace Storage

theorem find_cases (h : s.find reference = some id) : s.tags.lookup reference = some id ∨
    ∃ image, s.images.lookup id = some image ∧ reference ∈ image.repoDigests := by
  rcases Option.or_eq_some_iff.mp h with htag | ⟨-, hdigest⟩
  · exact .inl htag
  · obtain ⟨⟨id', image⟩, hfind, rfl⟩ := Option.map_eq_some_iff.mp hdigest
    have hmem := List.mem_of_find?_eq_some hfind
    have hknown := List.find?_some hfind
    exact .inr ⟨image, HashMap.lookup_eq_some_iff.mpr hmem, by simpa using hknown⟩

theorem tagged_of_lookup (h : s.tags.lookup t = some id) : s.tagged id = true := by
  refine List.any_eq_true.mpr ⟨⟨t, id⟩, HashMap.lookup_eq_some_iff.mp h, ?_⟩
  simp

theorem find_isSome (hlookup : s.images.lookup id = some image)
    (hmem : reference ∈ image.repoDigests) : (s.find reference).isSome := by
  unfold find
  cases s.tags.lookup reference with
  | some _ => rfl
  | none =>
    rw [Option.none_or, Option.isSome_map, List.find?_isSome]
    exact ⟨⟨id, image⟩, HashMap.lookup_eq_some_iff.mp hlookup, by simpa using hmem⟩

namespace Honest

variable (hs : s.Honest names)
include hs

/-- What is found by a digest is what the digest names. -/
theorem find_digest {repo : List Char} (hsplit : splitOnce '@' reference = some (repo, digest))
    (h : s.find reference = some id) : names digest = id := by
  rcases find_cases h with htag | ⟨image, hlookup, hmem⟩
  · have hnone := splitOnce_eq_none.mpr (hs.plain reference id htag)
    cases hnone.symm.trans hsplit
  · obtain ⟨repo', digest', hsplit', hnames⟩ := (hs.images id image hlookup).repoDigests _ hmem
    cases hsplit.symm.trans hsplit'
    exact hnames

/-- What is not known by a digest is found by its tag. -/
theorem find_tag (hplain : '@' ∉ reference) : s.find reference = s.tags.lookup reference := by
  unfold find
  cases htag : s.tags.lookup reference with
  | some _ => rfl
  | none =>
    rw [Option.none_or, Option.map_eq_none_iff, List.find?_eq_none]
    rintro ⟨id, image⟩ hmem hknown
    have hlookup := HashMap.lookup_eq_some_iff.mpr hmem
    obtain ⟨repo, digest, hsplit, -⟩ := (hs.images id image hlookup).repoDigests reference
      (by simpa using hknown)
    exact absurd (splitOnce_eq_none.mpr hplain) (by simp [hsplit])

/-- The digest that is read of a base names it. -/
theorem baseDigest_names (h : baseDigest s reference = some digest) :
    s.find reference = some (names digest) := by
  obtain ⟨⟨id, image⟩, hinspect, hread⟩ := Option.bind_eq_some_iff.mp h
  obtain ⟨id', hfind, hlooked⟩ := Option.bind_eq_some_iff.mp hinspect
  obtain ⟨image', hlookup, hsame⟩ := Option.bind_eq_some_iff.mp hlooked
  cases hsame
  dsimp only at hread
  rw [readDigests_digests] at hread
  split_ifs at hread
  cases hread
  rw [(hs.images id image hlookup).indexDigest, hfind]

theorem insertImage (himage : Truthful names id image) :
    ({ s with images := s.images.insert id image } : Storage).Honest names where
  images := by
    intro id' image' h
    by_cases hid : id' = id
    · subst hid
      rw [AList.lookup_insert] at h
      exact Option.some.inj h ▸ himage
    · rw [AList.lookup_insert_ne hid] at h
      exact hs.images id' image' h
  plain := hs.plain
  stored := by
    intro t id' h
    by_cases hid : id' = id
    · rw [hid, AList.lookup_insert]
      rfl
    · rw [AList.lookup_insert_ne hid]
      exact hs.stored t id' h

theorem insertTag (hplain : '@' ∉ t) (hstored : (s.images.lookup id).isSome) :
    ({ s with tags := s.tags.insert t id } : Storage).Honest names where
  images := hs.images
  plain := by
    intro t' id' h
    by_cases ht : t' = t
    · exact ht ▸ hplain
    · rw [AList.lookup_insert_ne ht] at h
      exact hs.plain t' id' h
  stored := by
    intro t' id' h
    by_cases ht : t' = t
    · subst ht
      rw [AList.lookup_insert] at h
      exact Option.some.inj h ▸ hstored
    · rw [AList.lookup_insert_ne ht] at h
      exact hs.stored t' id' h

theorem eraseTag : ({ s with tags := s.tags.erase t } : Storage).Honest names where
  images := hs.images
  plain := by
    intro t' id' h
    by_cases ht : t' = t
    · rw [ht, AList.lookup_erase] at h
      cases h
    · rw [AList.lookup_erase_ne ht] at h
      exact hs.plain t' id' h
  stored := by
    intro t' id' h
    by_cases ht : t' = t
    · rw [ht, AList.lookup_erase] at h
      cases h
    · rw [AList.lookup_erase_ne ht] at h
      exact hs.stored t' id' h

/-- Images go that no tag holds. -/
theorem retain {keep : List Char → Image → Bool}
    (hkeep : ∀ t id, s.tags.lookup t = some id → ∀ image, keep id image = true) :
    ({ s with images := s.images.retain keep } : Storage).Honest names where
  images := by
    intro id' image' h
    rw [HashMap.lookup_retain] at h
    exact hs.images id' image' (Option.filter_eq_some_iff.mp h).1
  plain := hs.plain
  stored := by
    intro t id' h
    obtain ⟨image', hlookup⟩ := Option.isSome_iff_exists.mp (hs.stored t id' h)
    rw [HashMap.lookup_retain, hlookup, Option.filter_some, hkeep t id' h image']
    rfl

theorem eraseImage (huntagged : s.tagged id = false) :
    ({ s with images := s.images.erase id } : Storage).Honest names where
  images := by
    intro id' image' h
    by_cases hid : id' = id
    · rw [hid, AList.lookup_erase] at h
      cases h
    · rw [AList.lookup_erase_ne hid] at h
      exact hs.images id' image' h
  plain := hs.plain
  stored := by
    intro t id' h
    have hid : id' ≠ id := fun hid => by
      cases huntagged.symm.trans (tagged_of_lookup (hid ▸ h : s.tags.lookup t = some id))
    rw [AList.lookup_erase_ne hid]
    exact hs.stored t id' h

theorem add (himage : Truthful names id image) : (s.add reference id image).Honest names := by
  unfold Storage.add
  split_ifs with hplain
  · exact hs.insertImage himage
  · exact (hs.insertImage himage).insertTag hplain (by rw [AList.lookup_insert]; rfl)

end Honest

/-- Tags outside the list stay where they are. -/
def Moves (moved : List (List Char)) (s s' : Storage) : Prop :=
  ∀ t, t ∉ moved → s'.tags.lookup t = s.tags.lookup t

namespace Moves

variable {s' s'' : Storage} {moved moved' : List (List Char)}

theorem refl (moved : List (List Char)) (s : Storage) : s.Moves moved s := fun _ _ => rfl

theorem trans (h : s.Moves moved s') (h' : s'.Moves moved s'') : s.Moves moved s'' :=
  fun t ht => (h' t ht).trans (h t ht)

theorem weaken (h : s.Moves moved s') (hsub : moved ⊆ moved') : s.Moves moved' s' :=
  fun t ht => h t fun hmem => ht (hsub hmem)

theorem insertTag (s : Storage) (t id : List Char) :
    s.Moves [t] { s with tags := s.tags.insert t id } :=
  fun _ ht => AList.lookup_insert_ne (List.ne_of_not_mem_cons ht)

theorem add (s : Storage) (reference id : List Char) (image : Image) :
    s.Moves [reference] (s.add reference id image) := by
  intro t ht
  unfold Storage.add
  split_ifs
  · rfl
  · exact AList.lookup_insert_ne (List.ne_of_not_mem_cons ht)

end Moves

/-! ### What the commands of a build do -/

section
variable (hs : s.Honest names) (ha : att.Honest names)
include hs ha

theorem fetch_honest (reference : List Char) : (s.fetch att reference).1.Honest names := by
  unfold fetch
  split
  · exact hs
  · split
    · next id image hserved => exact hs.add (ha.served _ id image hserved).1
    · exact hs

/-- What was fetched is there to be found. -/
theorem fetch_find (h : (s.fetch att reference).2 = some id) :
    (s.fetch att reference).1.find reference = some id := by
  unfold fetch at h ⊢
  cases hfind : s.find reference with
  | some id' =>
    simp only [hfind, Option.some.injEq] at h ⊢
    exact h
  | none =>
    cases hserved : att.served reference with
    | none => simp [hfind, hserved] at h
    | some served =>
      obtain ⟨id', image⟩ := served
      simp only [hfind, hserved, Option.some.injEq] at h ⊢
      subst h
      obtain ⟨htruthful, hknown⟩ := ha.served reference id' image hserved
      have hadded : (s.add reference id' image).Honest names := hs.add htruthful
      by_cases hat : '@' ∈ reference
      · have hlookup : (s.add reference id' image).images.lookup id' = some image :=
          AList.lookup_insert _
        obtain ⟨id'', hid''⟩ := Option.isSome_iff_exists.mp (find_isSome hlookup (hknown hat))
        obtain ⟨repo, digest, hsplit, hnames⟩ := htruthful.repoDigests reference (hknown hat)
        rw [hid'', ← hadded.find_digest hsplit hid'', hnames]
      · rw [hadded.find_tag hat, add, if_neg hat, AList.lookup_insert]

end

theorem fetch_moves (s : Storage) (att : Attempt) (reference : List Char) :
    s.Moves [reference] (s.fetch att reference).1 := by
  unfold fetch
  split
  · exact .refl _ _
  · split
    · exact .add _ _ _ _
    · exact .refl _ _

/-- What is there is not fetched. -/
theorem fetch_of_find (h : s.find reference = some id) : s.fetch att reference = (s, some id) := by
  rw [fetch, h]

/-- What stands after a build that came to an image. -/
structure Raised (names : List Char → List Char) (tag : List Char) (att : Attempt)
    (reference : List Char) (s s' : Storage) (base : List Char) : Prop where
  honest : s'.Honest names
  moves : s.Moves [reference, tag] s'
  tip : ∃ id image, s'.tags.lookup tag = some id ∧ s'.images.lookup id = some image ∧
    image.base = some base
  /-- the base is the one that was there -/
  first : ∀ id, s.find reference = some id → id = base
  /-- or the one that the digest names -/
  digest : ∀ repo d, splitOnce '@' reference = some (repo, d) → names d = base
  tagged : reference ≠ tag → '@' ∉ reference → s'.tags.lookup reference = some base
  /-- where nothing was fetched, an image that another tag holds is as it was -/
  frame : (s.find reference).isSome → ∀ t id, t ≠ tag → s.tags.lookup t = some id →
    (∀ image, att.built ≠ some (id, image)) → s'.images.lookup id = s.images.lookup id

section
variable {tag : List Char} (hs : s.Honest names) (ha : att.Honest names)
include hs ha

theorem build_failed (reference : List Char) (h : (s.build tag att reference).2 = false) :
    (s.build tag att reference).1.Honest names ∧
      s.Moves [reference] (s.build tag att reference).1 ∧
      ((s.find reference).isSome → (s.build tag att reference).1 = s) := by
  unfold build at h ⊢
  dsimp only at h ⊢
  split at h
  · cases h
  · refine ⟨fetch_honest hs ha reference, fetch_moves s att reference, fun hthere => ?_⟩
    obtain ⟨id, hid⟩ := Option.isSome_iff_exists.mp hthere
    rw [fetch_of_find hid]

theorem build_raised (htag : '@' ∉ tag) (reference : List Char)
    (h : (s.build tag att reference).2 = true) :
    ∃ base, Raised names tag att reference s (s.build tag att reference).1 base := by
  unfold build at h ⊢
  dsimp only at h ⊢
  cases hfetched : (s.fetch att reference).2 with
  | none => simp [hfetched] at h
  | some base =>
    cases hbuilt : att.built with
    | none => simp [hfetched, hbuilt] at h
    | some built =>
      obtain ⟨id, image⟩ := built
      have hhonest := fetch_honest hs ha reference
      have hfind := fetch_find hs ha hfetched
      have himage : Truthful names id { image with base := some base } :=
        ⟨(ha.built id image hbuilt).manifest, (ha.built id image hbuilt).repoDigests⟩
      refine ⟨base, ?_⟩
      exact {
        honest := (hhonest.insertImage himage).insertTag htag (by rw [AList.lookup_insert]; rfl)
        moves := by
          have hfetch := (fetch_moves s att reference).weaken
            (List.cons_subset_cons reference (List.nil_subset [tag]))
          refine hfetch.trans fun t ht => ?_
          exact AList.lookup_insert_ne fun h => ht (by simp [h])
        tip := ⟨id, _, AList.lookup_insert _, AList.lookup_insert _, rfl⟩
        first := by
          intro id' hid'
          rw [fetch_of_find hid'] at hfetched
          exact Option.some.inj hfetched
        digest := fun repo d hsplit => hhonest.find_digest hsplit hfind
        tagged := by
          intro hne hat
          rw [hhonest.find_tag hat] at hfind
          exact (AList.lookup_insert_ne hne).trans hfind
        frame := by
          intro hthere t id' _ _ hother
          obtain ⟨id'', hid''⟩ := Option.isSome_iff_exists.mp hthere
          have hne : id' ≠ id := fun hid => hother image (hid ▸ hbuilt)
          rw [fetch_of_find hid'', AList.lookup_insert_ne hne] }

theorem compose_honest (t : List Char) (hplain : '@' ∉ t) :
    (s.compose att t).1.Honest names := by
  have henv := fetch_honest hs ha COMPOSE_ENV
  unfold compose
  dsimp only
  split
  · next id image _ hcomposed =>
    have hpulled := henv.insertImage (ha.composed id image hcomposed)
    split
    · exact hpulled.insertTag hplain (by rw [AList.lookup_insert]; rfl)
    · exact hpulled
  · exact henv

end

theorem compose_moves (s : Storage) (att : Attempt) (t : List Char) :
    s.Moves [COMPOSE_ENV, t] (s.compose att t).1 := by
  have henv := (fetch_moves s att COMPOSE_ENV).weaken
    (List.cons_subset_cons COMPOSE_ENV (List.nil_subset [t]))
  unfold compose
  dsimp only
  split
  · split
    · exact henv.trans fun t' ht' => AList.lookup_insert_ne fun h => ht' (by simp [h])
    · exact henv
  · exact henv

/-- Reclaiming takes an image that no tag holds, and not the new one. -/
theorem reclaim_cases (s : Storage) (tag : List Char) (att : Attempt)
    (before : Option (List Char)) : s.reclaim tag att before = s ∨
    ∃ id, s.tagged id = false ∧ s.find tag ≠ some id ∧
      s.reclaim tag att before = { s with images := s.images.erase id } := by
  unfold reclaim
  split
  · next id after image hinspect =>
    split_ifs with h
    · obtain ⟨hne, hstranded, -⟩ := h
      have huntagged := (Bool.and_eq_true_iff.mp hstranded).2
      refine .inr ⟨id, by simpa using huntagged, fun hfind => hne ?_, rfl⟩
      obtain ⟨id', hfind', hrest⟩ := Option.bind_eq_some_iff.mp hinspect
      obtain ⟨image', -, hsame⟩ := Option.bind_eq_some_iff.mp hrest
      cases hsame
      exact Option.some.inj (hfind.symm.trans hfind')
    · exact .inl rfl
  · exact .inl rfl

theorem Raised.reclaim {tag base : List Char} {s' : Storage} (hs : s.Honest names)
    (htag : '@' ∉ tag) (h : Raised names tag att reference s s' base)
    (before : Option (List Char)) :
    Raised names tag att reference s (s'.reclaim tag att before) base := by
  rcases reclaim_cases s' tag att before with hsame | ⟨id, huntagged, htip, herased⟩
  · rw [hsame]
    exact h
  · rw [herased]
    obtain ⟨tip, image, hlookup, himage, hbase⟩ := h.tip
    have hne : tip ≠ id := by
      rintro rfl
      exact htip ((h.honest.find_tag htag).trans hlookup)
    exact {
      honest := h.honest.eraseImage huntagged
      moves := h.moves
      tip := ⟨tip, image, hlookup, (AList.lookup_erase_ne hne).trans himage, hbase⟩
      first := h.first
      digest := h.digest
      tagged := h.tagged
      frame := by
        intro hthere t id' ht hid' hother
        have hkept : s'.tags.lookup t = some id' := by
          by_cases href : t = reference
          · subst href
            have hat := hs.plain t id' hid'
            rw [h.tagged ht hat, h.first id' ((hs.find_tag hat).trans hid')]
          · exact (h.moves t (by simp [href, ht])).trans hid'
        have hne : id' ≠ id := by
          rintro rfl
          cases huntagged.symm.trans (tagged_of_lookup hkept)
        exact (AList.lookup_erase_ne hne).trans (h.frame hthere t id' ht hid' hother) }

theorem settle_spec (hs : s.Honest names) (ha : att.Honest names) (pin : Pin)
    {declared : List Char} (hplain : '@' ∉ declared) (pinned : Option (List Char)) :
    (s.settle att pin declared pinned).1.Honest names ∧
      s.Moves [COMPOSE_ENV, declared] (s.settle att pin declared pinned).1 ∧
      ∀ d, (s.settle att pin declared pinned).2 = some (some d) →
        pinned = some d ∧ (s.settle att pin declared pinned).1 = s ∧
          baseDigest s declared = some d := by
  have hcomposed := compose_honest hs ha declared hplain
  have hmoves := compose_moves s att declared
  have hfresh : ∀ d : List Char, (if (s.compose att declared).2 then some none else none) ≠
      some (some d) := by
    intro d
    split_ifs <;> simp
  unfold settle
  dsimp only
  split
  · exact ⟨hcomposed, hmoves, fun d h => absurd h (hfresh d)⟩
  · next digest _ =>
    split_ifs with hheld
    · have hbase := (Bool.and_eq_true_iff.mp hheld).2
      refine ⟨hs, .refl _ _, fun d h => ?_⟩
      cases h
      exact ⟨rfl, rfl, by simpa using hbase⟩
    · exact ⟨hs, .refl _ _, fun d h => by cases h⟩
  · exact ⟨hs, .refl _ _, fun d h => by cases h⟩
  · exact ⟨hcomposed, hmoves, fun d h => absurd h (hfresh d)⟩

end Storage

/-! ### How a build can end -/

/-- What is made of the lock by a build that came to an image. -/
inductive Noted (tag : List Char) (att : Attempt) (declared : List Char)
    (resolved : Option (List Char)) (m : Machine) : Machine → Built → Prop
  | kept : Noted tag att declared resolved m m .unlocked
  | whole {digest id : List Char} {image : Image} {lock : LockFile}
      (resolve : resolved = some digest) (tip : m.storage.inspect tag = some (id, image))
      (base : lock.base = ⟨declared, digest⟩) (schema : lock.schemaVersion = CURRENT_SCHEMA)
      (rpm : lock.rpm = parseRpmQuery (listing image.packages)) :
      Noted tag att declared resolved m { m with lock := some (.ok lock) } (.locked lock)
  | cut {digest : List Char} {lock : LockFile} (resolve : resolved = some digest)
      (base : lock.base = ⟨declared, digest⟩) (schema : lock.schemaVersion = CURRENT_SCHEMA) :
      Noted tag att declared resolved m { m with lock := some (.ok lock) } .unlocked
  | lost (torn : att.write = .torn none) :
      Noted tag att declared resolved m { m with lock := some (.error []) } .unlocked

theorem recordBuild_noted (tag : List Char) (att : Attempt) (m : Machine)
    (declared digest : List Char) : Noted tag att declared (some digest) m
      (recordBuild tag att m declared digest).1 (recordBuild tag att m declared digest).2 := by
  unfold recordBuild
  cases htip : m.storage.inspect tag with
  | none => exact .kept
  | some tip =>
    obtain ⟨id, image⟩ := tip
    dsimp only
    split_ifs
    · exact .kept
    · cases hwrite : att.write with
      | whole => exact .whole rfl htip rfl rfl rfl
      | untouched => exact .kept
      | torn rpm =>
        cases rpm with
        | none => exact .lost hwrite
        | some rpm => exact .cut rfl rfl rfl

/-- Everything that a build can have done, from where its base is settled. -/
inductive Ended (names : List Char → List Char) (sha256 : List Char → Sum) (tag : List Char)
    (att : Attempt) (pinned : Option (List Char)) (m : Machine) : Machine → Built → Prop
  | failed {s' : Storage} (honest : s'.Honest names)
      (moves : m.storage.Moves [fromLine sha256 m.config pinned, tag] s')
      (unfetched : (m.storage.find (fromLine sha256 m.config pinned)).isSome → s' = m.storage) :
      Ended names sha256 tag att pinned m { m with storage := s' } .failed
  | built {s' : Storage} {base : List Char} {resolved : Option (List Char)} {m' : Machine}
      {built : Built}
      (raised : Storage.Raised names tag att (fromLine sha256 m.config pinned) m.storage s' base)
      (resolve : resolved = pinned ∨ pinned = none ∧
        ∀ d, resolved = some d → baseDigest s' (baseRef sha256 m.config) = some d)
      (noted : Noted tag att (baseRef sha256 m.config) resolved { m with storage := s' } m' built) :
      Ended names sha256 tag att pinned m m' built

theorem buildFrom_ended {sha256 : List Char → Sum} {tag : List Char} {m : Machine}
    (hs : m.storage.Honest names) (ha : att.Honest names) (htag : '@' ∉ tag)
    (pinned : Option (List Char)) : Ended names sha256 tag att pinned m
      (buildFrom sha256 tag att m pinned).1 (buildFrom sha256 tag att m pinned).2 := by
  unfold buildFrom
  dsimp only
  cases hcontext : att.context with
  | false => exact .failed hs (.refl _ _) fun _ => rfl
  | true =>
    cases hbuilt : (m.storage.build tag att (fromLine sha256 m.config pinned)).2 with
    | false =>
      obtain ⟨hhonest, hmoves, hsame⟩ := Storage.build_failed hs ha _ hbuilt
      exact .failed hhonest (hmoves.weaken (List.cons_subset_cons _ (List.nil_subset _))) hsame
    | true =>
      obtain ⟨base, hraised⟩ := Storage.build_raised hs ha htag _ hbuilt
      have hreclaimed := hraised.reclaim hs htag ((m.storage.inspect tag).map Prod.fst)
      simp only [Bool.not_true, Bool.false_eq_true, if_false]
      cases pinned with
      | some digest => exact .built hreclaimed (.inl rfl) (recordBuild_noted tag att _ _ digest)
      | none =>
        dsimp only
        split
        · next digest hdigest =>
          refine .built hreclaimed (.inr ⟨rfl, fun d hd => ?_⟩)
            (recordBuild_noted tag att _ _ digest)
          obtain rfl := Option.some.inj hd
          split_ifs at hdigest
          exact hdigest
        · exact .built hreclaimed (.inl rfl) .kept

end

end Kuma.Lockfile
