import Kuma.Lib.Splitting
import Mathlib.Data.List.DropRight

/-! The lexical operations of `std::path` on Unix: a path is read as its components, a beginning
is taken off it and another path is put behind it, and no file is looked at. -/
namespace Kuma.Lib.Path
open Text

inductive Component
  | rootDir
  | curDir
  | parentDir
  | normal (name : List Char)
  deriving DecidableEq

/-- What stands between two separators. An empty piece and a lone dot are no component. -/
def parseSingle : List Char → Option Component
  | [] => none
  | ['.'] => none
  | ['.', '.'] => some .parentDir
  | name => some (.normal name)

def isSkipped (piece : List Char) : Bool := (parseSingle piece).isNone

/-- A lone dot is a component where a relative path begins with it. -/
def includesCurDir (text : List Char) : Bool := text == ['.'] || ['.', '/'].isPrefixOf text

/-- A place in a path: the beginning while it is not read yet, and the pieces after it. -/
structure Components where
  start : Option Component
  pieces : List (List Char)
  bare : ∀ piece ∈ pieces, '/' ∉ piece

def components : List Char → Components
  | '/' :: rest => ⟨some .rootDir, split '/' rest, fun _ => notMem_split⟩
  | text =>
    if includesCurDir text then ⟨some .curDir, split '/' text.tail, fun _ => notMem_split⟩
    else ⟨none, split '/' text, fun _ => notMem_split⟩

/-- The next component among the pieces, and the pieces behind it. -/
def nextPiece : List (List Char) → Option (Component × List (List Char))
  | [] => none
  | piece :: rest =>
    match parseSingle piece with
    | some c => some (c, rest)
    | none => nextPiece rest

theorem mem_of_nextPiece {pieces rest : List (List Char)} {c : Component} {piece : List Char}
    (h : nextPiece pieces = some (c, rest)) (hmem : piece ∈ rest) : piece ∈ pieces := by
  induction pieces with
  | nil => cases h
  | cons first pieces ih =>
    unfold nextPiece at h
    split at h
    · obtain ⟨-, rfl⟩ := Prod.mk.inj (Option.some.inj h)
      exact List.mem_cons_of_mem first hmem
    · exact List.mem_cons_of_mem first (ih h)

namespace Components

def next (it : Components) : Option (Component × Components) :=
  match it.start with
  | some c => some (c, { it with start := none })
  | none =>
    match h : nextPiece it.pieces with
    | none => none
    | some (c, rest) =>
      some (c, ⟨none, rest, fun piece hpiece => it.bare piece (mem_of_nextPiece h hpiece)⟩)

def startText (it : Components) : List Char :=
  match it.start with
  | some .rootDir => ['/']
  | some .curDir => ['.']
  | _ => []

/-- `as_path`: what has not been read, without pieces that are no component at its ends. -/
def asPath (it : Components) : List Char :=
  match it.start with
  | none => ['/'].intercalate ((it.pieces.dropWhile isSkipped).rdropWhile isSkipped)
  | some _ => it.startText ++ ['/'].intercalate (it.pieces.rdropWhile isSkipped)

def toList (it : Components) : List Component :=
  it.start.toList ++ it.pieces.filterMap parseSingle

/-- `iter_after` -/
def after (it : Components) : List Component → Option Components
  | [] => some it
  | y :: ys =>
    match it.next with
    | some (x, rest) => if x = y then after rest ys else none
    | none => none

end Components

def stripPrefix (path base : List Char) : Option (List Char) :=
  ((components path).after (components base).toList).map Components.asPath

def isAbsolute (path : List Char) : Bool := path.head? == some '/'

/-- An absolute path replaces what it is put behind. -/
def join (path rest : List Char) : List Char :=
  if isAbsolute rest then rest
  else if path = [] ∨ path.getLast? = some '/' then path ++ rest
  else path ++ '/' :: rest

/-- The components of a path. -/
def comps (path : List Char) : List Component := (components path).toList

/-- The components of a path that goes on. -/
def body (text : List Char) : List Component := (split '/' text).filterMap parseSingle

variable {it it' : Components} {c : Component} {ys : List Component} {a b path rest : List Char}

/-! ### Reading on -/

theorem nextPiece_spec (pieces : List (List Char)) :
    pieces.filterMap parseSingle = match nextPiece pieces with
      | some (c, rest) => c :: rest.filterMap parseSingle
      | none => [] := by
  induction pieces with
  | nil => rfl
  | cons piece pieces ih =>
    unfold nextPiece
    cases hpiece : parseSingle piece with
    | some c => rw [List.filterMap_cons_some hpiece]
    | none => rw [List.filterMap_cons_none hpiece, ih]

theorem toList_of_next (h : it.next = some (c, it')) :
    it.toList = c :: it'.toList ∧ it'.start = none := by
  unfold Components.next at h
  split at h
  · next first hstart =>
    obtain ⟨rfl, rfl⟩ := Prod.mk.inj (Option.some.inj h)
    simp [Components.toList, hstart]
  · next hstart =>
    have hspec := nextPiece_spec it.pieces
    split at h
    · cases h
    · next c' rest hnext =>
      obtain ⟨rfl, rfl⟩ := Prod.mk.inj (Option.some.inj h)
      rw [hnext] at hspec
      simp [Components.toList, hstart, hspec]

/-- What stands behind a beginning that was taken off. -/
theorem after_eq_some (h : it.after ys = some it') :
    it.toList = ys ++ it'.toList ∧ (ys ≠ [] → it'.start = none) := by
  induction ys generalizing it with
  | nil =>
    obtain rfl := Option.some.inj h
    exact ⟨rfl, fun hne => absurd rfl hne⟩
  | cons y ys ih =>
    unfold Components.after at h
    split at h
    · next x rest hnext =>
      split_ifs at h with hx
      obtain ⟨htoList, hstart⟩ := toList_of_next hnext
      obtain ⟨hrest, hlater⟩ := ih h
      refine ⟨by rw [htoList, hrest, hx]; rfl, fun _ => ?_⟩
      cases ys with
      | nil =>
        obtain rfl := Option.some.inj h
        exact hstart
      | cons y' ys => exact hlater (List.cons_ne_nil y' ys)
    · cases h

/-! ### The components of a text -/

theorem comps_root (rest : List Char) : comps ('/' :: rest) = .rootDir :: body rest := rfl

theorem comps_cur (h : includesCurDir path = true) : comps path = .curDir :: body path.tail := by
  unfold comps components
  split
  · cases h
  · rw [if_pos h]
    rfl

theorem comps_relative (hroot : isAbsolute path = false) (hcur : includesCurDir path = false) :
    comps path = body path := by
  unfold comps components
  split
  · cases hroot
  · rw [if_neg (by rw [hcur]; decide)]
    rfl

theorem body_append_slash (a b : List Char) : body (a ++ '/' :: b) = body a ++ body b := by
  unfold body
  rw [split_append_split, List.filterMap_append]

theorem body_append (h : a = [] ∨ a.getLast? = some '/') (b : List Char) :
    body (a ++ b) = body a ++ body b := by
  rcases h with rfl | h
  · rfl
  · obtain ⟨init, rfl⟩ := List.getLast?_eq_some_iff.mp h
    have hinit : body (init ++ ['/']) = body init := by
      rw [body_append_slash]
      simp [body, split, parseSingle]
    rw [hinit, List.append_assoc]
    exact body_append_slash init b

theorem includesCurDir_iff :
    includesCurDir path = true ↔ path = ['.'] ∨ ∃ rest, path = '.' :: '/' :: rest := by
  unfold includesCurDir
  rw [Bool.or_eq_true, beq_iff_eq, List.isPrefixOf_iff_prefix]
  refine or_congr_right ?_
  constructor
  · rintro ⟨rest, rfl⟩
    exact ⟨rest, rfl⟩
  · rintro ⟨rest, rfl⟩
    exact ⟨rest, rfl⟩

/-- A relative path that begins with a name, or an empty one. -/
structure Plain (path : List Char) : Prop where
  relative : isAbsolute path = false
  named : includesCurDir path = false

theorem Plain.comps (h : Plain path) : comps path = body path :=
  comps_relative h.relative h.named

theorem includesCurDir_append {x : List Char} (hne : a ≠ [])
    (hx : a = ['.'] → x.head? = some '/') : includesCurDir (a ++ x) = includesCurDir a := by
  rw [Bool.eq_iff_iff, includesCurDir_iff, includesCurDir_iff]
  constructor
  · rintro (h | ⟨rest, h⟩)
    · left
      obtain ⟨c, a, rfl⟩ := List.exists_cons_of_ne_nil hne
      obtain ⟨rfl, hnil⟩ := List.cons.inj h
      rw [(List.append_eq_nil_iff.mp hnil).1]
    · match a, hne with
      | [c], _ =>
        obtain ⟨rfl, -⟩ := List.cons.inj h
        exact .inl rfl
      | c :: d :: rest', _ =>
        obtain ⟨rfl, hd⟩ := List.cons.inj h
        obtain ⟨rfl, -⟩ := List.cons.inj hd
        exact .inr ⟨rest', rfl⟩
  · rintro (rfl | ⟨rest, rfl⟩)
    · obtain ⟨rest, rfl⟩ := List.head?_eq_some_iff.mp (hx rfl)
      exact .inr ⟨rest, rfl⟩
    · exact .inr ⟨rest ++ x, rfl⟩

/-- What goes on behind a path, where it goes on behind the rest of it too. -/
theorem comps_append {x : List Char} (hne : a ≠ []) (hx : a = ['.'] → x.head? = some '/')
    (hwhole : body (a ++ x) = body a ++ body b)
    (htail : body (a.tail ++ x) = body a.tail ++ body b) : comps (a ++ x) = comps a ++ body b := by
  obtain ⟨c, r, rfl⟩ := List.exists_cons_of_ne_nil hne
  by_cases hroot : c = '/'
  · subst hroot
    rw [List.cons_append, comps_root, comps_root]
    exact congrArg _ htail
  · have hrelative : ∀ text, isAbsolute (c :: text) = false := fun text => by
      simpa [isAbsolute] using hroot
    have hcur := includesCurDir_append hne hx
    cases hdot : includesCurDir (c :: r) with
    | true =>
      rw [comps_cur hdot, comps_cur (hcur.trans hdot)]
      exact congrArg _ htail
    | false =>
      rw [comps_relative (hrelative r) hdot]
      exact (comps_relative (hrelative (r ++ x)) (hcur.trans hdot)).trans hwhole

/-- What is put behind a path follows its components. -/
theorem comps_join (hb : Plain b) (a : List Char) : comps (join a b) = comps a ++ comps b := by
  rw [hb.comps]
  unfold join
  rw [hb.relative, if_neg Bool.false_ne_true]
  split_ifs with hend
  · rcases hend with rfl | hend
    · exact hb.comps
    · have hne : a ≠ [] := by
        rintro rfl
        cases hend
      refine comps_append hne ?_ (body_append (.inr hend) b) (body_append ?_ b)
      · rintro rfl
        cases hend
      · obtain ⟨c, r, rfl⟩ := List.exists_cons_of_ne_nil hne
        cases r with
        | nil => exact .inl rfl
        | cons d r => exact .inr hend
  · rw [not_or] at hend
    exact comps_append hend.1 (fun _ => rfl) (body_append_slash a b) (body_append_slash a.tail b)

/-! ### The text of what has not been read -/

/-- The pieces that are left when those that are no component have been taken off both ends. -/
def trimmed (pieces : List (List Char)) : List (List Char) :=
  (pieces.dropWhile isSkipped).rdropWhile isSkipped

theorem filterMap_dropWhile (pieces : List (List Char)) :
    (pieces.dropWhile isSkipped).filterMap parseSingle = pieces.filterMap parseSingle := by
  induction pieces with
  | nil => rfl
  | cons piece pieces ih =>
    cases hpiece : parseSingle piece with
    | some c => rw [List.dropWhile_cons_of_neg (by simp [isSkipped, hpiece])]
    | none =>
      rw [List.dropWhile_cons_of_pos (by simp [isSkipped, hpiece]), ih,
        List.filterMap_cons_none hpiece]

theorem filterMap_trimmed (pieces : List (List Char)) :
    (trimmed pieces).filterMap parseSingle = pieces.filterMap parseSingle := by
  unfold trimmed
  rw [List.rdropWhile, List.filterMap_reverse, filterMap_dropWhile, List.filterMap_reverse,
    List.reverse_reverse, filterMap_dropWhile]

theorem isSkipped_head_trimmed {pieces ps : List (List Char)} {p : List Char}
    (h : trimmed pieces = p :: ps) : isSkipped p = false := by
  obtain ⟨ps', hps'⟩ : ∃ ps', pieces.dropWhile isSkipped = p :: ps' := by
    obtain ⟨tail, htail⟩ := List.rdropWhile_prefix isSkipped (pieces.dropWhile isSkipped)
    exact ⟨ps ++ tail, by rw [← htail]; exact congrArg (· ++ tail) h⟩
  have hhead := List.head?_dropWhile_not isSkipped pieces
  rw [hps'] at hhead
  simpa using hhead

/-- The text of what is left once a beginning has been read. -/
theorem asPath_spec (h : it.start = none) :
    Plain it.asPath ∧ comps it.asPath = it.toList := by
  have htext : it.asPath = ['/'].intercalate (trimmed it.pieces) := by
    simp only [Components.asPath, h, trimmed]
  have htoList : it.toList = (trimmed it.pieces).filterMap parseSingle := by
    rw [filterMap_trimmed]
    simp [Components.toList, h]
  have hbare : ∀ piece ∈ trimmed it.pieces, '/' ∉ piece := fun piece hpiece =>
    it.bare piece ((List.dropWhile_sublist _).subset ((List.rdropWhile_prefix _ _).subset hpiece))
  rw [htext, htoList]
  cases hpieces : trimmed it.pieces with
  | nil => exact ⟨⟨rfl, rfl⟩, rfl⟩
  | cons p ps =>
    rw [hpieces] at hbare
    have hsplit := split_intercalate (List.cons_ne_nil p ps) hbare
    have hskip := isSkipped_head_trimmed hpieces
    have hplain : Plain (['/'].intercalate (p :: ps)) := by
      constructor
      · refine Bool.eq_false_iff.mpr fun habsolute => ?_
        obtain ⟨rest, hrest⟩ := List.head?_eq_some_iff.mp (beq_iff_eq.mp habsolute)
        rw [hrest] at hsplit
        obtain ⟨rfl, -⟩ := List.cons.inj hsplit
        cases hskip
      · refine Bool.eq_false_iff.mpr fun hcur => ?_
        have hdot : p = ['.'] := by
          rcases includesCurDir_iff.mp hcur with hrest | ⟨rest, hrest⟩
          · rw [hrest] at hsplit
            exact (List.cons.inj hsplit).1.symm
          · rw [hrest] at hsplit
            exact (List.cons.inj hsplit).1.symm
        rw [hdot] at hskip
        cases hskip
    refine ⟨hplain, ?_⟩
    rw [hplain.comps, body, hsplit]

/-! ### Beginnings -/

theorem comps_eq_nil : comps path = [] ↔ path = [] := by
  constructor
  · intro h
    have hroot : isAbsolute path = false := by
      refine Bool.eq_false_iff.mpr fun habsolute => ?_
      obtain ⟨rest, rfl⟩ := List.head?_eq_some_iff.mp (beq_iff_eq.mp habsolute)
      cases h
    have hcur : includesCurDir path = false := by
      refine Bool.eq_false_iff.mpr fun hcur => ?_
      rw [comps_cur hcur] at h
      cases h
    rw [comps_relative hroot hcur] at h
    cases path with
    | nil => rfl
    | cons c path =>
      -- the first piece is neither empty nor a dot
      obtain ⟨piece, pieces, hsplit⟩ := List.exists_cons_of_ne_nil (split_ne_nil '/' path)
      have hc : c ≠ '/' := by simpa [isAbsolute] using hroot
      rw [body, split, if_neg hc, hsplit] at h
      cases hpiece : parseSingle (c :: piece) with
      | some first =>
        rw [List.filterMap_cons_some hpiece] at h
        cases h
      | none =>
        have hdot : c = '.' ∧ piece = [] := by
          unfold parseSingle at hpiece
          split at hpiece <;> simp_all
        obtain ⟨rfl, rfl⟩ := hdot
        exfalso
        have hnot := Bool.eq_false_iff.mp hcur
        apply hnot
        rw [includesCurDir_iff]
        cases path with
        | nil => exact .inl rfl
        | cons d path =>
          by_cases hd : d = '/'
          · exact .inr ⟨path, by rw [hd]⟩
          · obtain ⟨p, ps, hp⟩ := List.exists_cons_of_ne_nil (split_ne_nil '/' path)
            rw [split, if_neg hd, hp] at hsplit
            cases hsplit
  · rintro rfl
    rfl

/-- What is left of a path once its beginning has been taken off. -/
theorem stripPrefix_spec (hne : b ≠ []) (h : stripPrefix a b = some rest) :
    Plain rest ∧ comps a = comps b ++ comps rest := by
  obtain ⟨it, hit, rfl⟩ := Option.map_eq_some_iff.mp h
  obtain ⟨hcomps, hstart⟩ := after_eq_some hit
  obtain ⟨hplain, hasPath⟩ := asPath_spec (hstart (mt comps_eq_nil.mp hne))
  exact ⟨hplain, by rw [hasPath]; exact hcomps⟩

/-- Nothing is taken off an absolute path, but pieces at its end. -/
theorem stripPrefix_nil (h : isAbsolute a = true) :
    ∃ rest, stripPrefix a [] = some rest ∧ isAbsolute rest = true := by
  obtain ⟨tail, rfl⟩ := List.head?_eq_some_iff.mp (beq_iff_eq.mp h)
  exact ⟨_, rfl, rfl⟩

end Kuma.Lib.Path
