import Kuma.Lib.Path
import Kuma.Lib.Utf8
import Kuma.Lib.Escape
import Kuma.Lib.Fallible
import Kuma.Containerfile.Snapshot

/-! `kuma snapshot --restore`: which names in the store are snapshots, what a path is inside the
target, and which snapshot it is copied from. -/
namespace Kuma.Snapshot
open Kuma.Lib Kuma.Lib.Text
open Kuma.Lib.Path (Component comps join)
open Kuma.Containerfile (isDigit isStamp)

/-- What `is_snapshot_id` asks of one character of a name. -/
def place : ℕ → Char → Bool
  | 4 => (· == '-')
  | 7 => (· == '-')
  | 10 => (· == 'T')
  | _ => isDigit

/-- `is_snapshot_id`. An index out of range and a slice that ends inside a character have no
value. -/
def isSnapshotId (name : List Char) : Option Bool :=
  let bytes := Utf8.bytes name
  if bytes.length ≠ 17 then some false
  else bytes[10]?.bind fun b =>
    if b ≠ 0x54 then some false
    else (Utf8.sliceTo 10 name).bind fun date =>
      if (split '-' date).length ≠ 3 then some false
      else some (name.zipIdx.all fun p => place p.2 p.1)

/-- The snapshots among the names of the store, newest first. -/
def ids (names : List (List Char)) : List (List Char) :=
  (names.filter fun name => isSnapshotId name == some true).insertionSort (· ≥ ·)

/-- What there is at a path: nothing, an entry that cannot be followed to its end (a link that
leads nowhere, or where this user may not look), or a file or directory. -/
inductive Found
  | nothing
  | broken
  | there
  deriving DecidableEq

/-- The machine's files, by the components of their paths. -/
abbrev Files := List Component → Found

/-- `Path::exists` -/
def pathExists (files : Files) (path : List Char) : Bool := files (comps path) == .there

def store (target : List Char) : List Char := join target ".snapshots".toList

/-- Why a path is not restored. -/
inductive Refusal
  | notAbsolute (path target : List Char)
  | climbs (path : List Char)
  | outside (path target : List Char)
  | whole (target : List Char)
  | noSnapshots (store : List Char)
  | unknown (id : List Char)
  | notIn (path id : List Char)
  | inNone (path : List Char) (count : ℕ)
  deriving DecidableEq

def Refusal.message (unprintable : Char → Bool) : Refusal → List Char
  | .notAbsolute path target => path ++ (" is not an absolute path; name the file as it lives on " ++
      "the machine, e.g. ").toList ++ target ++ "/you/notes.md".toList
  | .climbs path => path ++ " contains `..`; name the path without it".toList
  | .outside path target => path ++ " is outside ".toList ++ target ++
      ", which is the only subvolume this declaration snapshots".toList
  | .whole target => target ++
      " is the subvolume itself; restore a path inside it, not the whole thing".toList
  | .noSnapshots store => "no snapshots in ".toList ++ store ++
      " to restore from (run `kuma snapshot` for why)".toList
  | .unknown id => "no snapshot ".toList ++ Escape.debug unprintable id ++
      "; `kuma snapshot` lists the ones this machine has".toList
  | .notIn path id => path ++ " is not in snapshot ".toList ++ id
  | .inNone path count => path ++ " is in none of the ".toList ++ Nat.toDigits 10 count ++
      " snapshots on this machine".toList

def relativeToTarget (target path : List Char) : Except Refusal (List Char) :=
  if !Path.isAbsolute path then .error (.notAbsolute path target)
  else if (comps path).contains .parentDir then .error (.climbs path)
  else match Path.stripPrefix path target with
    | none => .error (.outside path target)
    | some relative => if relative = [] then .error (.whole target) else .ok relative

def sourceIn (files : Files) (store id relative : List Char) : Option (List Char) :=
  let candidate := join (join store id) relative
  if pathExists files candidate then some candidate else none

/-- What a restore copies, and where to. -/
structure Restore where
  id : List Char
  source : List Char
  destination : List Char
  overwrites : Bool
  deriving DecidableEq

/-- The snapshots that may be restored from. -/
def searched (store : List Char) (ids : List (List Char)) (chosen : Option (List Char)) :
    Except Refusal (List (List Char)) :=
  if ids = [] then .error (.noSnapshots store)
  else match chosen with
    | some id =>
      if ids.any (· == id) then .ok (ids.filter (· == id)) else .error (.unknown id)
    | none => .ok ids

def restorePath (target : List Char) (files : Files) (ids : List (List Char)) (path : List Char)
    (chosen : Option (List Char)) : Except Refusal Restore := do
  let relative ← relativeToTarget target path
  let search ← searched (store target) ids chosen
  match search.findSome? fun id => (sourceIn files (store target) id relative).map (id, ·) with
  | some (id, source) =>
    let destination := join target relative
    .ok ⟨id, source, destination, pathExists files destination⟩
  | none =>
    match chosen with
    | some id => .error (.notIn path id)
    | none => .error (.inNone path ids.length)

/-- `kuma snapshot --restore <path> [--from <id>]`, over the names in the store. -/
def restore (target : List Char) (files : Files) (names : List (List Char)) (path : List Char)
    (chosen : Option (List Char)) : Except Refusal Restore :=
  restorePath target files (ids names) path chosen

variable {name path target relative : List Char} {files : Files} {names : List (List Char)}
  {chosen : Option (List Char)} {result : Restore} {c : Char}

/-! ### The names of snapshots -/

theorem fits_range (k n : ℕ) (name : List Char) :
    Containerfile.fits ((List.range' k n).map place) name =
      (name.length == n && (name.zipIdx k).all fun p => place p.2 p.1) := by
  induction n generalizing k name with
  | zero => cases name <;> rfl
  | succ n ih =>
    cases name with
    | nil => rfl
    | cons c name =>
      rw [List.range'_succ, List.map_cons, Containerfile.fits, ih, List.length_cons,
        List.zipIdx_cons, List.all_cons]
      simp only [Nat.add_right_cancel_iff, Bool.beq_eq_decide_eq]
      exact Bool.and_left_comm _ _ _

theorem isStamp_eq (name : List Char) :
    isStamp name = (name.length == 17 && name.zipIdx.all fun p => place p.2 p.1) :=
  fits_range 0 17 name

theorem isAscii_of_place {i : ℕ} (h : place i c = true) : Utf8.isAscii c = true := by
  have hdigit : ∀ c, isDigit c = true → Utf8.isAscii c = true := by
    intro c hc
    simp only [isDigit, Bool.and_eq_true, decide_eq_true_eq] at hc
    have hle : c.toNat ≤ '9'.toNat := hc.2
    have hnine : '9'.toNat = 57 := rfl
    simp only [Utf8.isAscii, decide_eq_true_eq]
    omega
  unfold place at h
  split at h
  · rw [beq_iff_eq.mp h]
    decide
  · rw [beq_iff_eq.mp h]
    decide
  · rw [beq_iff_eq.mp h]
    decide
  · exact hdigit c h

theorem isAscii_of_all (h : (name.zipIdx.all fun p => place p.2 p.1) = true) :
    ∀ c ∈ name, Utf8.isAscii c = true := by
  intro c hc
  obtain ⟨i, hi⟩ := List.mem_iff_getElem?.mp hc
  exact isAscii_of_place (List.all_eq_true.mp h (c, i) (List.mk_mem_zipIdx_iff_getElem?.mpr hi))

theorem count_dashes (hlength : name.length = 17)
    (hall : (name.zipIdx.all fun p => place p.2 p.1) = true) :
    name[10]? = some 'T' ∧ (name.take 10).count '-' = 2 := by
  have hplace : ∀ i c, name[i]? = some c → place i c = true := fun i c hi =>
    List.all_eq_true.mp hall (c, i) (List.mk_mem_zipIdx_iff_getElem?.mpr hi)
  have hdigit : ∀ c, isDigit c = true → c ≠ '-' := by
    rintro _ hc rfl
    cases hc
  match name, hlength with
  | [c₀, c₁, c₂, c₃, c₄, c₅, c₆, c₇, c₈, c₉, c₁₀, _, _, _, _, _, _], _ =>
    obtain rfl : c₄ = '-' := beq_iff_eq.mp (hplace 4 c₄ rfl)
    obtain rfl : c₇ = '-' := beq_iff_eq.mp (hplace 7 c₇ rfl)
    obtain rfl : c₁₀ = 'T' := beq_iff_eq.mp (hplace 10 c₁₀ rfl)
    refine ⟨rfl, ?_⟩
    simp [hdigit c₀ (hplace 0 c₀ rfl), hdigit c₁ (hplace 1 c₁ rfl), hdigit c₂ (hplace 2 c₂ rfl),
      hdigit c₃ (hplace 3 c₃ rfl), hdigit c₅ (hplace 5 c₅ rfl), hdigit c₆ (hplace 6 c₆ rfl),
      hdigit c₈ (hplace 8 c₈ rfl), hdigit c₉ (hplace 9 c₉ rfl)]

/-- The checks of a name of seventeen bytes. -/
theorem isSnapshotId_of_byte {b : UInt8} (hsize : (Utf8.bytes name).length = 17)
    (hbyte : (Utf8.bytes name)[10]? = some b) : isSnapshotId name =
      if b ≠ 0x54 then some false
      else (Utf8.sliceTo 10 name).bind fun date =>
        if (split '-' date).length ≠ 3 then some false
        else some (name.zipIdx.all fun p => place p.2 p.1) := by
  simp only [isSnapshotId, hsize, ne_eq, not_true_eq_false, if_false, hbyte, Option.bind_some]

/-- A name in the form of a snapshot's passes every check. -/
theorem isSnapshotId_of_isStamp (h : isStamp name = true) : isSnapshotId name = some true := by
  rw [isStamp_eq, Bool.and_eq_true, beq_iff_eq] at h
  obtain ⟨hlength, hall⟩ := h
  obtain ⟨hT, hdashes⟩ := count_dashes hlength hall
  have hascii := isAscii_of_all hall
  have hbytes := Utf8.bytes_of_ascii hascii
  have hdate : Utf8.sliceTo 10 name = some (name.take 10) :=
    Utf8.sliceTo_of_ascii hascii (by omega)
  have hcount : (split '-' (name.take 10)).length = 3 := by rw [length_split, hdashes]
  have hsize : (Utf8.bytes name).length = 17 := by rw [hbytes, List.length_map, hlength]
  have hbyte : (Utf8.bytes name)[10]? = some 0x54 := by
    rw [hbytes, List.getElem?_map, hT]
    rfl
  rw [isSnapshotId_of_byte hsize hbyte, hdate]
  simp [hcount, hall]

/-- A name of another form fails one of the checks, and fails no index or slice before it. -/
theorem isSnapshotId_of_not_isStamp (h : isStamp name = false) :
    isSnapshotId name = some false := by
  by_cases hsize : (Utf8.bytes name).length = 17
  · have hsome : 10 < (Utf8.bytes name).length := by omega
    have hb := List.getElem?_eq_getElem hsome
    rw [isSnapshotId_of_byte hsize hb]
    by_cases hT : (Utf8.bytes name)[10] = 0x54
    · obtain ⟨date, hdate⟩ := Utf8.exists_sliceTo hb (by rw [hT]; decide)
      rw [if_neg (not_not.mpr hT), hdate, Option.bind_some]
      by_cases hcount : (split '-' date).length = 3
      · rw [if_neg (not_not.mpr hcount)]
        refine congrArg some (Bool.eq_false_iff.mpr fun hall => ?_)
        have hlength : name.length = 17 := by
          rw [Utf8.bytes_of_ascii (isAscii_of_all hall), List.length_map] at hsize
          exact hsize
        rw [isStamp_eq, hall, hlength] at h
        cases h
      · rw [if_pos hcount]
    · rw [if_pos hT]
  · simp only [isSnapshotId, hsize, ne_eq, not_false_eq_true, if_true]

/-- `is_snapshot_id` is the pattern of the script, and never slices inside a character. -/
theorem isSnapshotId_eq (name : List Char) : isSnapshotId name = some (isStamp name) := by
  cases hstamp : isStamp name with
  | true => exact isSnapshotId_of_isStamp hstamp
  | false => exact isSnapshotId_of_not_isStamp hstamp

theorem mem_ids {id : List Char} : id ∈ ids names ↔ id ∈ names ∧ isStamp id = true := by
  simp [ids, isSnapshotId_eq]

/-! ### Paths -/

/-- The name of a snapshot is one component, and no place of its own. -/
theorem comps_of_isStamp {id : List Char} (h : isStamp id = true) :
    Path.Plain id ∧ comps id = [.normal id] := by
  rw [isStamp_eq, Bool.and_eq_true, beq_iff_eq] at h
  have hchars : ∀ c ∈ id, c ≠ '/' ∧ c ≠ '.' := by
    intro c hc
    obtain ⟨i, hi⟩ := List.mem_iff_getElem?.mp hc
    have hplace : place i c = true :=
      List.all_eq_true.mp h.2 (c, i) (List.mk_mem_zipIdx_iff_getElem?.mpr hi)
    have hneither : ∀ i, place i '/' = false ∧ place i '.' = false := by
      intro i
      unfold place
      split <;> decide
    constructor
    · rintro rfl
      rw [(hneither i).1] at hplace
      cases hplace
    · rintro rfl
      rw [(hneither i).2] at hplace
      cases hplace
  have hslash : '/' ∉ id := fun hmem => (hchars '/' hmem).1 rfl
  have hdot : '.' ∉ id := fun hmem => (hchars '.' hmem).2 rfl
  have hplain : Path.Plain id := by
    constructor
    · refine Bool.eq_false_iff.mpr fun habsolute => hslash ?_
      exact List.mem_of_head? (beq_iff_eq.mp habsolute)
    · refine Bool.eq_false_iff.mpr fun hcur => hdot ?_
      rcases Path.includesCurDir_iff.mp hcur with rfl | ⟨rest, rfl⟩
      · exact List.mem_cons_self
      · exact List.mem_cons_self
  refine ⟨hplain, ?_⟩
  have hparse : Path.parseSingle id = some (.normal id) := by
    unfold Path.parseSingle
    split
    · cases h.1
    · cases h.1
    · cases h.1
    · rfl
  rw [hplain.comps, Path.body, split_of_notMem hslash, List.filterMap_cons_some hparse]
  rfl

/-- Where a path would be in a snapshot. -/
def placeIn (target path id : List Char) : List Component :=
  comps target ++ [.normal ".snapshots".toList, .normal id] ++
    (comps path).drop (comps target).length

theorem relativeToTarget_spec (htarget : target ≠ [])
    (h : relativeToTarget target path = .ok relative) :
    relative ≠ [] ∧ Path.Plain relative ∧ comps path = comps target ++ comps relative ∧
      .parentDir ∉ comps relative := by
  unfold relativeToTarget at h
  split_ifs at h with habsolute hclimbs
  split at h
  · cases h
  · next rest hrest =>
    split_ifs at h with hne
    obtain rfl := Except.ok.inj h
    obtain ⟨hplain, hcomps⟩ := Path.stripPrefix_spec htarget hrest
    refine ⟨hne, hplain, hcomps, fun hmem => hclimbs ?_⟩
    rw [List.contains_iff_mem, hcomps]
    exact List.mem_append_right _ hmem

theorem sourceIn_eq_some {store id source : List Char} :
    sourceIn files store id relative = some source ↔
      source = join (join store id) relative ∧ files (comps source) = .there := by
  unfold sourceIn pathExists
  constructor
  · intro h
    dsimp only at h
    split_ifs at h with hthere
    obtain rfl := Option.some.inj h
    exact ⟨rfl, beq_iff_eq.mp hthere⟩
  · rintro ⟨rfl, hthere⟩
    exact if_pos (beq_iff_eq.mpr hthere)

theorem searched_eq_ok {store : List Char} {ids search : List (List Char)}
    (h : searched store ids chosen = .ok search) :
    (∀ id ∈ search, id ∈ ids ∧ ∀ named ∈ chosen, id = named) ∧ (chosen = none → search = ids) := by
  unfold searched at h
  split_ifs at h
  cases chosen with
  | none =>
    obtain rfl := Except.ok.inj h
    exact ⟨fun id hid => ⟨hid, fun named hnamed => absurd hnamed (Option.not_mem_none named)⟩,
      fun _ => rfl⟩
  | some named =>
    dsimp only at h
    split_ifs at h
    obtain rfl := Except.ok.inj h
    refine ⟨fun id hid => ?_, fun hnone => nomatch hnone⟩
    obtain ⟨hmem, hnamed⟩ := List.mem_filter.mp hid
    refine ⟨hmem, fun other hother => ?_⟩
    rw [← Option.some.inj hother]
    exact beq_iff_eq.mp hnamed

/-- In a list with the newest first, what is newer than one of them stands before it. -/
theorem mem_before {before after : List (List Char)} {found newer : List Char}
    (h : ids names = before ++ found :: after) (hnewer : newer ∈ ids names)
    (hlt : found < newer) : newer ∈ before := by
  have hsorted : (before ++ found :: after).Pairwise (· ≥ ·) :=
    h ▸ List.pairwise_insertionSort (· ≥ ·) _
  rw [h] at hnewer
  rcases List.mem_append.mp hnewer with hbefore | hrest
  · exact hbefore
  · exfalso
    rcases List.mem_cons.mp hrest with rfl | hafter
    · exact lt_irrefl _ hlt
    · have hle := (List.pairwise_cons.mp (List.pairwise_append.mp hsorted).2.1).1 newer hafter
      exact absurd hlt (not_lt.mpr hle)

/-- What a restore that is accepted has found. -/
theorem restore_eq_ok (h : restore target files names path chosen = .ok result) :
    ∃ relative, relativeToTarget target path = .ok relative ∧
      result.id ∈ ids names ∧ result.source = join (join (store target) result.id) relative ∧
      files (comps result.source) = .there ∧ result.destination = join target relative ∧
      (∀ id ∈ chosen, result.id = id) ∧
      (chosen = none → ∀ newer ∈ ids names, result.id < newer →
        files (comps (join (join (store target) newer) relative)) ≠ .there) := by
  unfold restore restorePath at h
  obtain ⟨relative, hrelative, h⟩ := bind_eq_ok.mp h
  obtain ⟨search, hsearch, h⟩ := bind_eq_ok.mp h
  obtain ⟨hsearched, hall⟩ := searched_eq_ok hsearch
  split at h
  · next id source hfound =>
    obtain rfl := Except.ok.inj h
    obtain ⟨before, found, after, hsplit, hsource, hbefore⟩ :=
      List.findSome?_eq_some_iff.mp hfound
    obtain ⟨candidate, hcandidate, hpair⟩ := Option.map_eq_some_iff.mp hsource
    obtain ⟨rfl, rfl⟩ := Prod.mk.inj hpair
    obtain ⟨hjoin, hthere⟩ := sourceIn_eq_some.mp hcandidate
    obtain ⟨hmem, hnamed⟩ := hsearched found (by simp [hsplit])
    refine ⟨relative, hrelative, hmem, hjoin, hthere, rfl, hnamed, fun hnone newer hnewer hlt => ?_⟩
    rw [hall hnone] at hsplit
    intro hexists
    have hnewest := hbefore newer (mem_before hsplit hnewer hlt)
    rw [Option.map_eq_none_iff] at hnewest
    have hsome := sourceIn_eq_some.mpr ⟨rfl, hexists⟩
    rw [hnewest] at hsome
    cases hsome
  · split at h
    · cases h
    · cases h

/-! ### What is restored, and where to -/

/-- The copy is from inside the snapshot to the same place inside the target. -/
structure Stays (target path : List Char) (result : Restore) (rest : List Component) : Prop where
  nonempty : rest ≠ []
  descends : .parentDir ∉ rest
  source : comps result.source =
    comps target ++ [.normal ".snapshots".toList, .normal result.id] ++ rest
  destination : comps result.destination = comps target ++ rest
  path : comps path = comps target ++ rest

/-- What is accepted is what was asked for, of the newest snapshot that holds it. -/
structure Restores (target : List Char) (files : Files) (names : List (List Char))
    (path : List Char) (chosen : Option (List Char)) (result : Restore) : Prop where
  snapshot : result.id ∈ names ∧ isStamp result.id = true
  stays : ∃ rest, Stays target path result rest
  named : ∀ id ∈ chosen, result.id = id
  holds : files (placeIn target path result.id) ≠ .nothing
  newest : chosen = none → ∀ newer ∈ names, isStamp newer = true → result.id < newer →
    files (placeIn target path newer) = .nothing

/-- No snapshot has a broken entry at the path that is newer than all in which the path can be
followed. -/
def NoneBroken (target : List Char) (files : Files) (names : List (List Char))
    (path : List Char) : Prop :=
  ∀ broken ∈ names, isStamp broken = true → files (placeIn target path broken) = .broken →
    ∃ better ∈ names, isStamp better = true ∧ broken < better ∧
      files (placeIn target path better) = .there

/-- A path of a snapshot, by its components. -/
theorem comps_candidate {id : List Char} (hid : isStamp id = true)
    (hrelative : Path.Plain relative) (hpath : comps path = comps target ++ comps relative) :
    comps (join (join (store target) id) relative) = placeIn target path id ∧
      (comps path).drop (comps target).length = comps relative := by
  obtain ⟨hplain, hcomps⟩ := comps_of_isStamp hid
  have hstore : comps (store target) = comps target ++ [.normal ".snapshots".toList] :=
    Path.comps_join ⟨by decide, by decide⟩ target
  have hdrop : (comps path).drop (comps target).length = comps relative := by
    rw [hpath, List.drop_left]
  refine ⟨?_, hdrop⟩
  rw [Path.comps_join hrelative, Path.comps_join hplain, hstore, hcomps, placeIn, hdrop]
  simp

/-- Without a target the path itself is copied over itself. -/
theorem not_stays_of_empty (h : restore [] files names path chosen = .ok result)
    (rest : List Component) : ¬Stays [] path result rest := by
  obtain ⟨relative, hrelative, -, hsource, -⟩ := restore_eq_ok h
  intro hstays
  have hstrip : Path.isAbsolute path = true ∧ Path.stripPrefix path [] = some relative := by
    unfold relativeToTarget at hrelative
    split_ifs at hrelative with hnot
    split at hrelative
    · cases hrelative
    · next rest' hrest =>
      split_ifs at hrelative
      exact ⟨by simpa using hnot, Except.ok.inj hrelative ▸ hrest⟩
  obtain ⟨relative', hrelative', habsolute⟩ := Path.stripPrefix_nil hstrip.1
  obtain rfl := Option.some.inj (hstrip.2.symm.trans hrelative')
  have hjoin : ∀ base, join base relative = relative := fun base => by
    unfold join
    rw [if_pos habsolute]
  have hcomps := hstays.source
  obtain ⟨tail, rfl⟩ := List.head?_eq_some_iff.mp (beq_iff_eq.mp habsolute)
  rw [hsource, hjoin, Path.comps_root] at hcomps
  cases hcomps

/-- A restore that is accepted does what was asked exactly when there is a target, and no broken
entry is newer than what is restored; the names it goes by are those of the script. -/
theorem restores_iff (h : restore target files names path chosen = .ok result) :
    (Restores target files names path chosen result ∧
      ∀ name, isSnapshotId name = some (isStamp name)) ↔
      target ≠ [] ∧ (chosen = none → NoneBroken target files names path) := by
  by_cases htarget : target = []
  · subst htarget
    refine iff_of_false (fun hrestores => ?_) (fun hcond => hcond.1 rfl)
    obtain ⟨rest, hstays⟩ := hrestores.1.stays
    exact not_stays_of_empty h rest hstays
  · obtain ⟨relative, hrelative, hid, hsource, hthere, hdestination, hnamed, hnewest⟩ :=
      restore_eq_ok h
    obtain ⟨hne, hplain, hpath, hdescends⟩ := relativeToTarget_spec htarget hrelative
    obtain ⟨hname, hstamp⟩ := mem_ids.mp hid
    obtain ⟨hplace, hdrop⟩ := comps_candidate hstamp hplain hpath
    rw [hsource, hplace] at hthere
    constructor
    · rintro ⟨hrestores, -⟩
      refine ⟨htarget, fun hnone broken hbroken hbrokenStamp hfound => ?_⟩
      refine ⟨result.id, hname, hstamp, ?_, hthere⟩
      rcases lt_trichotomy broken result.id with hlt | rfl | hgt
      · exact hlt
      · rw [hthere] at hfound
        cases hfound
      · rw [hrestores.newest hnone broken hbroken hbrokenStamp hgt] at hfound
        cases hfound
    · rintro ⟨-, hcond⟩
      refine ⟨⟨⟨hname, hstamp⟩, ⟨comps relative, ?_⟩, hnamed, ?_, ?_⟩, isSnapshotId_eq⟩
      · refine ⟨mt Path.comps_eq_nil.mp hne, hdescends, ?_, ?_, hpath⟩
        · rw [hsource, hplace, placeIn, hdrop]
        · rw [hdestination, Path.comps_join hplain]
      · rw [hthere]
        decide
      · intro hnone newer hnewer hnewerStamp hlt
        have hnot : ∀ id ∈ names, isStamp id = true → result.id < id →
            files (placeIn target path id) ≠ .there := by
          intro id hmem hidStamp hidlt
          rw [← (comps_candidate hidStamp hplain hpath).1]
          exact hnewest hnone id (mem_ids.mpr ⟨hmem, hidStamp⟩) hidlt
        cases hfound : files (placeIn target path newer) with
        | nothing => rfl
        | there => exact absurd hfound (hnot newer hnewer hnewerStamp hlt)
        | broken =>
          obtain ⟨better, hbetter, hbetterStamp, hbetterlt, hbetterFound⟩ :=
            hcond hnone newer hnewer hnewerStamp hfound
          exact absurd hbetterFound (hnot better hbetter hbetterStamp (hlt.trans hbetterlt))

/-- A declaration that turns snapshots on names a target. -/
theorem target_ne_nil {config : Kuma.Config} (hvalid : config.validate = .ok ())
    (henable : config.snapshots.enable = true) : config.snapshots.target.toList ≠ [] := by
  have hsnapshots := (Config.validated hvalid).snapshots
  unfold Config.Snapshots.validate at hsnapshots
  rw [if_pos henable] at hsnapshots
  obtain ⟨htarget, -⟩ := seq_eq_ok.mp hsnapshots
  have hhead := Config.refuseIf_eq_ok.mp htarget
  intro hnil
  rw [hnil] at hhead
  exact hhead (.inl (by decide))

def FRIDAY : List Char := "2026-08-07T090000".toList
def SATURDAY : List Char := "2026-08-08T134347".toList
def NOTES : List Char := "/var/home/you/notes.md".toList

/-- The file is in Friday's snapshot, and as given on Saturday. -/
def since (saturday : Found) : Files := fun place =>
  if place.contains (.normal SATURDAY) then saturday
  else if place.contains (.normal FRIDAY) then .there else .nothing

theorem restore_since (saturday : Found) (h : saturday ≠ .there) :
    restore "/var/home".toList (since saturday) [FRIDAY, "lost".toList, SATURDAY] NOTES none =
      .ok ⟨FRIDAY, "/var/home/.snapshots/2026-08-07T090000/you/notes.md".toList, NOTES, false⟩ := by
  cases saturday with
  | nothing => decide +kernel
  | broken => decide +kernel
  | there => exact absurd rfl h

theorem restores_friday : Restores "/var/home".toList (since .nothing)
    [FRIDAY, "lost".toList, SATURDAY] NOTES none
    ⟨FRIDAY, "/var/home/.snapshots/2026-08-07T090000/you/notes.md".toList, NOTES, false⟩ := by
  refine ((restores_iff (restore_since .nothing (by decide))).mpr ⟨by decide, fun _ => ?_⟩).1
  unfold NoneBroken
  decide +kernel

/-- On Saturday the notes were a link that leads nowhere now, and Friday's are restored; and of a
declaration without a target a file is copied over itself. -/
theorem not_restores_saturday :
    (restore "/var/home".toList (since .broken) [FRIDAY, "lost".toList, SATURDAY] NOTES none =
      .ok ⟨FRIDAY, "/var/home/.snapshots/2026-08-07T090000/you/notes.md".toList, NOTES, false⟩ ∧
      ¬Restores "/var/home".toList (since .broken) [FRIDAY, "lost".toList, SATURDAY] NOTES none
        ⟨FRIDAY, "/var/home/.snapshots/2026-08-07T090000/you/notes.md".toList, NOTES, false⟩) ∧
    (restore [] (fun _ => .there) [FRIDAY] NOTES none = .ok ⟨FRIDAY, NOTES, NOTES, true⟩ ∧
      ¬Restores [] (fun _ => .there) [FRIDAY] NOTES none ⟨FRIDAY, NOTES, NOTES, true⟩) := by
  have hempty : restore [] (fun _ => .there) [FRIDAY] NOTES none =
      .ok ⟨FRIDAY, NOTES, NOTES, true⟩ := by decide +kernel
  refine ⟨⟨restore_since .broken (by decide), fun h => ?_⟩, hempty, fun h => ?_⟩
  · have hnewest := h.newest rfl SATURDAY (by decide) (by decide +kernel) (by decide +kernel)
    exact absurd hnewest (by decide +kernel)
  · obtain ⟨rest, hstays⟩ := h.stays
    exact not_stays_of_empty hempty rest hstays

end Kuma.Snapshot
