import Kuma.Config.Validate
import Kuma.Lib.Splitting
import Kuma.Lockfile.Packages

/-! The reference that a lock pins a declared base to: the repository that the declaration names,
and the digest that was recorded. -/
namespace Kuma.Lockfile
open Kuma.Lib Kuma.Lib.Text

def CURRENT_SCHEMA : UInt32 := 1

/-- All that a lock is read from. -/
structure LockFile extends Lock where
  schemaVersion : UInt32
  lockedAt : List Char

/-- Why there is no lock to use. -/
inductive LoadFault
  | absent
  | schema (version : UInt32)
  | digest (digest : List Char)
  | unreadable (err : List Char)

/-- `u8::is_ascii_hexdigit` -/
def isAsciiHexdigit (c : Char) : Bool :=
  c.isDigit || ('a' ≤ c && c ≤ 'f') || ('A' ≤ c && c ≤ 'F')

/-- `sha256:` and exactly 64 hexadecimal digits in lower case. -/
def isDigest (value : List Char) : Bool :=
  match stripPrefix "sha256:".toList value with
  | some hex => hex.length == 64 && hex.all fun c => isAsciiHexdigit c && !c.isUpper
  | none => false

/-- `Lock::load`, with what it complains of. The file is the text that can be read of it, and
`toml` reads it. -/
def load (toml : List Char → Except (List Char) LockFile) (file : Option (List Char)) :
    Except LoadFault LockFile :=
  match file with
  | none => .error .absent
  | some text =>
    match toml text with
    | .ok lock =>
      if lock.schemaVersion ≠ CURRENT_SCHEMA then .error (.schema lock.schemaVersion)
      else if !isDigest lock.base.digest then .error (.digest lock.base.digest)
      else .ok lock
    | .error err => .error (.unreadable err)

/-- `quay.io/fedora/fedora-bootc:44` without the tag. Bytes are counted where this counts
characters, and both end with the repository. -/
def repoName (reference : List Char) : List Char :=
  let reference := match splitOnce '@' reference with
    | some (repo, _) => repo
    | none => reference
  let (start, last) := match rsplitOnce '/' reference with
    | some (before, last) => (before.length + 1, last)
    | none => (0, reference)
  match splitOnce ':' last with
  | some (repo, _) => reference.take (start + repo.length)
  | none => reference

def pinnedRef (reference digest : List Char) : List Char := repoName reference ++ '@' :: digest

/-- The pin for a declared base, unless the lock was taken for another. -/
def Lock.pinFor (lock : Lock) (declared : List Char) : Option (List Char) :=
  if lock.base.reference = declared then some (pinnedRef declared lock.base.digest) else none

/-! ### References -/

/-- A piece of a reference. It holds no delimiter. -/
structure Piece where
  text : List Char
  ne_nil : text ≠ []
  plain : ∀ c ∈ text, c ∉ [':', '/', '@']

structure Digest where
  algorithm : Piece
  hex : Piece

def Digest.text (digest : Digest) : List Char := digest.algorithm.text ++ ':' :: digest.hex.text

/-- `[host[:port]/]path[:tag][@algorithm:hex]` -/
structure Reference where
  registry : Option (Piece × Option Piece)
  path : List Piece
  path_ne_nil : path ≠ []
  tag : Option Piece
  digest : Option Digest

namespace Reference

/-- The host with its port, up to the slash behind them. -/
def host (r : Reference) : List Char :=
  match r.registry with
  | none => []
  | some (host, none) => host.text ++ ['/']
  | some (host, some port) => host.text ++ ':' :: port.text ++ ['/']

/-- `[host[:port]/]path` -/
def name (r : Reference) : List Char := r.host ++ ['/'].intercalate (r.path.map Piece.text)

def tagText (r : Reference) : List Char := (r.tag.map (':' :: ·.text)).getD []

def digestText (r : Reference) : List Char := (r.digest.map ('@' :: ·.text)).getD []

def text (r : Reference) : List Char := r.name ++ (r.tagText ++ r.digestText)

/-- The same repository at a digest. -/
def pinnedAt (r : Reference) (digest : Digest) : Reference :=
  { r with tag := none, digest := some digest }

end Reference

/-- A pin of this reference, at any digest, is a reference to its repository. -/
structure SameRepository (r : Reference) : Prop where
  repo : repoName r.text = r.name
  pinned : ∀ digest, pinnedRef r.text digest.text = (r.pinnedAt digest).text
  ats : ∀ digest : Digest, (pinnedRef r.text digest.text).count '@' = 1
  untagged : ∀ digest (other : Reference), other.text = pinnedRef r.text digest → other.tag = none
  idempotent : ∀ digest digest',
    pinnedRef (pinnedRef r.text digest) digest' = pinnedRef r.text digest'

variable {r : Reference} {c : Char} {text : List Char}

theorem Piece.notMem (piece : Piece) (hc : c ∈ [':', '/', '@']) : c ∉ piece.text :=
  fun hmem => piece.plain c hmem hc

namespace Reference

theorem host_cases (r : Reference) :
    '@' ∉ r.host ∧ (r.host = [] ∨ ∃ before, r.host = before ++ ['/']) := by
  unfold host
  split
  · exact ⟨List.not_mem_nil, .inl rfl⟩
  · next host _ =>
    have hat := host.notMem (c := '@') (by decide)
    exact ⟨by simp [hat], .inr ⟨host.text, rfl⟩⟩
  · next host port _ =>
    have hat := host.notMem (c := '@') (by decide)
    have hat' := port.notMem (c := '@') (by decide)
    exact ⟨by simp [hat, hat'], .inr ⟨host.text ++ ':' :: port.text, rfl⟩⟩

theorem at_notMem_name (r : Reference) : '@' ∉ r.name := by
  intro hmem
  rcases List.mem_append.mp hmem with hmem | hmem
  · exact r.host_cases.1 hmem
  · rcases mem_intercalate hmem with hslash | ⟨piece, hpiece, hmem⟩
    · exact absurd hslash (by decide)
    · obtain ⟨piece, -, rfl⟩ := List.mem_map.mp hpiece
      exact piece.notMem (by decide) hmem

/-- The name ends in a piece, behind a slash or alone. -/
theorem exists_last (r : Reference) : ∃ (front : List Char) (last : Piece),
    r.name = front ++ last.text ∧ (front = [] ∨ ∃ before, front = before ++ ['/']) := by
  have hne : r.path.map Piece.text ≠ [] := fun h => r.path_ne_nil (List.map_eq_nil_iff.mp h)
  obtain ⟨front, hjoin, hfront⟩ := intercalate_eq_append_getLast '/' hne
  refine ⟨r.host ++ front, r.path.getLast r.path_ne_nil, ?_, ?_⟩
  · rw [name, hjoin, List.getLast_map, List.append_assoc]
  · rcases hfront with rfl | ⟨before, rfl⟩
    · rw [List.append_nil]
      exact r.host_cases.2
    · exact .inr ⟨r.host ++ before, (List.append_assoc _ _ _).symm⟩

theorem notMem_tagText (hc : c ∈ ['/', '@']) : c ∉ r.tagText := by
  unfold tagText
  cases r.tag with
  | none => exact List.not_mem_nil
  | some tag =>
    intro hmem
    rcases List.mem_cons.mp hmem with rfl | hmem
    · exact absurd hc (by decide)
    · exact tag.notMem (List.mem_cons_of_mem ':' hc) hmem

end Reference

/-! ### The repository of a reference -/

/-- A digest is taken off. -/
theorem repoName_digest (h : '@' ∉ text) (digest : List Char) :
    repoName (text ++ '@' :: digest) = repoName text := by
  unfold repoName
  rw [splitOnce_append h, splitOnce_eq_none.mpr h]

theorem at_notMem_tagged (r : Reference) : '@' ∉ r.name ++ r.tagText := by
  intro hmem
  rcases List.mem_append.mp hmem with hmem | hmem
  · exact r.at_notMem_name hmem
  · exact Reference.notMem_tagText (by decide) hmem

theorem tagText_cases (r : Reference) :
    r.tagText = [] ∨ ∃ tag : Piece, r.tagText = ':' :: tag.text := by
  unfold Reference.tagText
  cases r.tag with
  | none => exact .inl rfl
  | some tag => exact .inr ⟨tag, rfl⟩

/-- A tag is taken off the last piece, and nothing off a port. -/
theorem repoName_tag (r : Reference) : repoName (r.name ++ r.tagText) = r.name := by
  obtain ⟨front, last, hname, hfront⟩ := r.exists_last
  have hat : splitOnce '@' (r.name ++ r.tagText) = none :=
    splitOnce_eq_none.mpr (at_notMem_tagged r)
  have hslash : '/' ∉ last.text ++ r.tagText := by
    intro hmem
    rcases List.mem_append.mp hmem with hmem | hmem
    · exact last.notMem (by decide) hmem
    · exact Reference.notMem_tagText (by decide) hmem
  have hlast : (match rsplitOnce '/' (r.name ++ r.tagText) with
      | some (before, last) => (before.length + 1, last)
      | none => (0, r.name ++ r.tagText)) = (front.length, last.text ++ r.tagText) := by
    rw [hname, List.append_assoc]
    rcases hfront with rfl | ⟨before, rfl⟩
    · rw [List.nil_append, rsplitOnce_of_notMem hslash]
      rfl
    · rw [List.append_assoc, List.singleton_append, rsplitOnce_append hslash,
        List.length_append]
      rfl
  have hcolon : ':' ∉ last.text := last.notMem (by decide)
  simp only [repoName, hat, hlast]
  rcases tagText_cases r with htag | ⟨tag, htag⟩
  · rw [htag, List.append_nil, List.append_nil, splitOnce_eq_none.mpr hcolon]
  · rw [htag, splitOnce_append hcolon]
    show (r.name ++ ':' :: tag.text).take (front.length + last.text.length) = r.name
    rw [hname, ← List.length_append, List.take_left]

theorem repoName_text (r : Reference) : repoName r.text = r.name := by
  rw [Reference.text, ← List.append_assoc, Reference.digestText]
  cases r.digest with
  | none =>
    show repoName (r.name ++ r.tagText ++ []) = r.name
    rw [List.append_nil, repoName_tag]
  | some digest =>
    show repoName (r.name ++ r.tagText ++ '@' :: digest.text) = r.name
    rw [repoName_digest (at_notMem_tagged r), repoName_tag]

/-- The name of a repository is its own. -/
theorem repoName_name (r : Reference) : repoName r.name = r.name := by
  have huntagged := repoName_tag { r with tag := none }
  exact (congrArg repoName (List.append_nil r.name)).symm.trans huntagged

theorem sameRepository (r : Reference) : SameRepository r where
  repo := repoName_text r
  pinned := by
    intro digest
    rw [pinnedRef, repoName_text]
    rfl
  ats := by
    intro digest
    have hname : r.name.count '@' = 0 := List.count_eq_zero.mpr r.at_notMem_name
    have halgorithm : digest.algorithm.text.count '@' = 0 :=
      List.count_eq_zero.mpr (digest.algorithm.notMem (by decide))
    have hhex : digest.hex.text.count '@' = 0 :=
      List.count_eq_zero.mpr (digest.hex.notMem (by decide))
    rw [pinnedRef, repoName_text, Digest.text, List.count_append, List.count_cons_self,
      List.count_append, List.count_cons_of_ne (by decide), hname, halgorithm, hhex]
  untagged := by
    intro digest other hother
    have hrepo : other.name = r.name := by
      have hpinned := repoName_digest r.at_notMem_name digest
      rw [← repoName_text other, hother, pinnedRef, repoName_text, hpinned, repoName_name]
    rw [pinnedRef, repoName_text, Reference.text, hrepo] at hother
    have hrest := List.append_cancel_left hother
    cases htag : other.tag with
    | none => rfl
    | some tag =>
      rw [Reference.tagText, htag] at hrest
      exact absurd (List.cons.inj hrest).1 (by decide)
  idempotent := by
    intro digest digest'
    have hpinned := repoName_digest r.at_notMem_name digest
    rw [pinnedRef, pinnedRef, pinnedRef, repoName_text, hpinned, repoName_name]

/-! ### Pins -/

/-- What is written on one line. -/
def SingleLine (text : List Char) : Prop := '\n' ∉ text ∧ '\r' ∉ text

/-- Whatever it is given, the name is read off its start. -/
theorem mem_of_mem_repoName {reference : List Char} (h : c ∈ repoName reference) :
    c ∈ reference := by
  have htagged : ∀ (text : List Char) (start : ℕ) (last : List Char),
      c ∈ (match splitOnce ':' last with
        | some (repo, _) => text.take (start + repo.length)
        | none => text) → c ∈ text := by
    intro text start last hmem
    cases hsplit : splitOnce ':' last with
    | none =>
      rw [hsplit] at hmem
      exact hmem
    | some p =>
      rw [hsplit] at hmem
      exact List.mem_of_mem_take hmem
  unfold repoName at h
  dsimp only at h
  cases hsplit : splitOnce '@' reference with
  | none =>
    rw [hsplit] at h
    exact htagged reference _ _ h
  | some p =>
    rw [hsplit] at h
    rw [(splitOnce_eq_some hsplit).1]
    exact List.mem_append_left _ (htagged p.1 _ _ h)

theorem isDigest_of_load {toml : List Char → Except (List Char) LockFile}
    {file : Option (List Char)} {lock : LockFile} (h : load toml file = .ok lock) :
    isDigest lock.base.digest = true := by
  unfold load at h
  split at h
  · cases h
  · split at h
    · split_ifs at h with hschema hdigest
      cases h
      simpa using hdigest
    · cases h

theorem isAlphanum_of_isAsciiHexdigit (h : isAsciiHexdigit c = true) : c.isAlphanum = true := by
  simp only [isAsciiHexdigit, Bool.or_eq_true, Bool.and_eq_true, decide_eq_true_eq] at h
  rcases h with (hdigit | ⟨hlo, hhi⟩) | ⟨hlo, hhi⟩
  · exact Bool.or_eq_true_iff.mpr (.inr hdigit)
  · have hz : c ≤ 'z' := hhi.trans (by decide)
    have hlower : c.isLower = true :=
      Bool.and_eq_true_iff.mpr ⟨decide_eq_true hlo, decide_eq_true hz⟩
    exact Bool.or_eq_true_iff.mpr (.inl (Bool.or_eq_true_iff.mpr (.inr hlower)))
  · have hz : c ≤ 'Z' := hhi.trans (by decide)
    have hupper : c.isUpper = true := decide_eq_true ⟨hlo, hz⟩
    exact Bool.or_eq_true_iff.mpr (.inl (Bool.or_eq_true_iff.mpr (.inl hupper)))

/-- A piece of letters and digits. -/
def Piece.ofAlphanum (text : List Char) (hne : text ≠ [])
    (h : ∀ c ∈ text, c.isAlphanum = true) : Piece where
  text := text
  ne_nil := hne
  plain := by
    intro c hc hdelimiter
    have hnot : ∀ c ∈ [':', '/', '@'], c.isAlphanum = false :=
      List.all_iff_forall_prop.mp (by decide)
    have halnum := h c hc
    rw [hnot c hdelimiter] at halnum
    cases halnum

/-- The digest of a lock is one of the grammar. -/
theorem exists_digest_of_isDigest {value : List Char} (h : isDigest value = true) :
    ∃ digest : Digest, digest.text = value ∧
      ∀ c ∈ value, c.isAlphanum = true ∨ c = ':' := by
  unfold isDigest at h
  split at h
  · next hex hvalue =>
    obtain ⟨hlength, hall⟩ := Bool.and_eq_true_iff.mp h
    have hhex : ∀ c ∈ hex, c.isAlphanum = true := by
      intro c hc
      have hdigit := List.all_eq_true.mp hall c hc
      exact isAlphanum_of_isAsciiHexdigit (Bool.and_eq_true_iff.mp hdigit).1
    have hne : hex ≠ [] := by
      rintro rfl
      cases hlength
    have hsha : ∀ c ∈ "sha256".toList, c.isAlphanum = true :=
      List.all_eq_true.mp (by decide)
    refine ⟨⟨.ofAlphanum "sha256".toList (by decide) hsha, .ofAlphanum hex hne hhex⟩, ?_, ?_⟩
    · rw [stripPrefix_eq_some.mp hvalue]
      rfl
    · intro c hc
      rw [stripPrefix_eq_some.mp hvalue] at hc
      rcases List.mem_append.mp hc with hc | hc
      · have hprefix : ("sha256:".toList.all fun c => c.isAlphanum || c == ':') = true := by decide
        simpa using List.all_eq_true.mp hprefix c hc
      · exact .inl (hhex c hc)
  · cases h

/-- The characters of a base that is declared. -/
theorem base_chars {config : Config} (hvalid : config.validate = .ok ()) {base : String}
    (hbase : config.system.base = some base) : ∀ c ∈ base.toList,
      c.isAlphanum = true ∨ c ∈ ['/', ':', '.', '-', '_', '@'] := by
  have hsystem := (Config.validated hvalid).system
  obtain ⟨⟨⟩, hnamed, -⟩ := bind_eq_ok.mp hsystem
  have hname := forM_eq_ok.mp hnamed base (Option.mem_toList.mpr hbase)
  exact (Sync.chars_of_validateName (mapError_eq_ok.mp hname)).2

/-- `localhost:5000/kuma:44` -/
def MIRRORED : Reference where
  registry := some (⟨"localhost".toList, by decide, List.all_iff_forall_prop.mp (by decide)⟩,
    some ⟨"5000".toList, by decide, List.all_iff_forall_prop.mp (by decide)⟩)
  path := [⟨"kuma".toList, by decide, List.all_iff_forall_prop.mp (by decide)⟩]
  path_ne_nil := List.cons_ne_nil _ _
  tag := some ⟨"44".toList, by decide, List.all_iff_forall_prop.mp (by decide)⟩
  digest := none

/-- A declaration of that base, and a lock that was taken for it. -/
def MIRRORED_CONFIG : Config :=
  { Config.default with
    system := { Config.System.default with base := some "localhost:5000/kuma:44" } }

def MIRRORED_LOCK : LockFile where
  base := ⟨"localhost:5000/kuma:44".toList, "sha256:".toList ++ List.replicate 64 '3'⟩
  rpm := .empty
  schemaVersion := 1
  lockedAt := "2026-02-02T02:40:00Z".toList

/-- That lock, written out. -/
def MIRRORED_TOML : List Char :=
  "schema_version = 1\nlocked_at = \"2026-02-02T02:40:00Z\"\n\n[base]\n".toList ++
    "ref = \"localhost:5000/kuma:44\"\ndigest = \"sha256:".toList ++ List.replicate 64 '3' ++
    "\"\n\n[resolved.rpm]\n".toList

end Kuma.Lockfile
