import Kuma.Overrides.LastWins

/-! The lines of a file that kuma does not own, and what a convergence leaves of them. -/
namespace Kuma.Overrides
open Kuma.Lib Kuma.Lib.Text KeyFile

/-- The lines of a text as they stand, returns and all. -/
def rawLines (text : Chars) : List Chars :=
  let pieces := split '\n' text
  pieces.dropLast ++ (pieces.getLast?.filter (· ≠ [])).toList

/-- A group as it stands in a text: the line that opens it, if one does, and its lines. -/
structure Section where
  opener : Option Chars
  name : Chars
  lines : List Chars

def sectionsFrom (s : Section) : List Chars → List Section
  | [] => [s]
  | line :: lines =>
    match header (trim line) with
    | some name => s :: sectionsFrom ⟨some line, name, []⟩ lines
    | none => sectionsFrom { s with lines := s.lines ++ [line] } lines

def sections (text : Chars) : List Section := sectionsFrom ⟨none, [], []⟩ (rawLines text)

/-- A line as kuma writes it: a header is its bare name, a pair has no space around its parts,
and there is no return at the end. -/
def Plain (line : Chars) : Prop :=
  match header (trim line) with
  | some name => name ≠ [] ∧ line = '[' :: name ++ [']']
  | none => (readLine line).text = line ∧ line.getLast? ≠ some '\r'

instance : DecidablePred Plain := fun line => by
  unfold Plain
  split <;> infer_instance

section
variable (live : Chars) (wanted : List (Key × Chars)) (previously : List Chars)

/-- A key that is wanted, or that was set before. -/
def Owns (key : Key) : Prop :=
  key ∈ wanted.map Prod.fst ∨ ∃ id ∈ previously, splitOnce '\t' id = some key

instance (key : Key) : Decidable (Owns wanted previously key) :=
  inferInstanceAs (Decidable (_ ∨ ∃ id ∈ previously, _))

/-- A line of a group that is no assignment of an owned key. -/
def isForeign (name : Chars) : Line → Bool
  | .pair key _ => !decide (Owns wanted previously (name, key))
  | .raw _ => true

/-- Whether a group holds more than blank lines once kuma has taken its keys back. Kuma takes
nothing from a group that repeats a name. -/
def holds (met : List Chars) (s : Section) : Bool :=
  if s.name ∈ met then s.lines.any fun line => counts (readLine line)
  else keepsHeader live wanted previously s.name

/-- Kuma's own removal emptied the group. -/
def emptied (met : List Chars) (s : Section) : Bool :=
  s.lines.any (fun line => counts (readLine line)) && !holds live wanted previously met s

/-- The lines of a group that kuma does not own. -/
def foreignOf (met : List Chars) (s : Section) : List Chars :=
  (if emptied live wanted previously met s then [] else s.opener.toList) ++
    s.lines.filter fun line => isForeign wanted previously s.name (readLine line)

/-- The lines of the groups of a kind that kuma does not own. -/
def foreignFrom (kind : List Chars → Section → Bool) (met : List Chars) :
    List Section → List Chars
  | [] => []
  | s :: rest =>
    (if kind met s then foreignOf live wanted previously met s else []) ++
      foreignFrom kind (s.name :: met) rest

/-- Every line that kuma does not own, but for the headers of the groups that it emptied. -/
def foreignLines : List Chars :=
  foreignFrom live wanted previously (fun _ _ => true) [] (sections live)

/-- Some group holds more than blank lines. -/
def leaves (met : List Chars) : List Section → Bool
  | [] => false
  | s :: rest => holds live wanted previously met s || leaves (s.name :: met) rest

/-- A group stands in the file that comes out: more than blank lines does, and the group holds
more than them or has no header. -/
def stays (met : List Chars) (s : Section) : Bool :=
  (wanted ≠ [] || leaves live wanted previously [] (sections live)) &&
    (s.name = [] || holds live wanted previously met s)

/-- The lines that kuma does not own of the groups that stay. -/
def stayingLines : List Chars :=
  foreignFrom live wanted previously (stays live wanted previously) [] (sections live)

end

/-- A line and what is read of it. -/
def ReadAs (line : Chars) (l : Line) : Prop :=
  header (trim line) = none ∧ (l = readLine line ∨ l = readLine (dropReturn line))

/-- A group as it stands and as it is read. -/
structure Section.Reads (s : Section) (group : Group) : Prop where
  name : group.name = s.name
  opener : ∀ line ∈ s.opener, header (trim line) = some s.name
  lines : List.Forall₂ ReadAs s.lines group.lines

/-- A file with the same lines that kuma does not own in the first group of each name, and with
new groups at its end. -/
inductive Carried (foreign : Chars → Line → Bool) : List Chars → KeyFile → KeyFile → Prop
  | grown {met : List Chars} {file : KeyFile} : Carried foreign met [] file
  | again {met : List Chars} {group : Group} {file file' : KeyFile} (hmet : group.name ∈ met)
      (hrest : Carried foreign (group.name :: met) file file') :
      Carried foreign met (group :: file) (group :: file')
  | first {met : List Chars} {group : Group} {lines : List Line} {file file' : KeyFile}
      (hmet : group.name ∉ met)
      (hlines : lines.filter (foreign group.name) = group.lines.filter (foreign group.name))
      (hrest : Carried foreign (group.name :: met) file file') :
      Carried foreign met (group :: file) (⟨group.name, lines⟩ :: file')

section
variable {live : Chars} {wanted : List (Key × Chars)} {previously : List Chars}
  {line : Chars} {l : Line} {group : Group} {file file' : KeyFile} {met : List Chars}
  {foreign : Chars → Line → Bool} {key : Key} {value : Chars}

theorem readLine_dropReturn : readLine (dropReturn line) =
    match readLine line with
    | .pair key value => .pair key value
    | .raw _ => .raw (dropReturn line) := by
  unfold readLine
  rw [trim_dropReturn]
  split
  · split_ifs <;> rfl
  · rfl

theorem ReadAs.counts (h : ReadAs line l) : counts l = counts (readLine line) := by
  rcases h.2 with rfl | rfl
  · rfl
  · rw [readLine_dropReturn]
    cases hread : readLine line with
    | pair key value => rfl
    | raw raw =>
      obtain rfl := raw_of_readLine hread
      simp only [KeyFile.counts, trim_dropReturn]

theorem ReadAs.isForeign {name : Chars} (h : ReadAs line l) :
    isForeign wanted previously name l = isForeign wanted previously name (readLine line) := by
  rcases h.2 with rfl | rfl
  · rfl
  · rw [readLine_dropReturn]
    cases readLine line <;> rfl

/-- A plain line is written as it stood. -/
theorem ReadAs.text (h : ReadAs line l) (hplain : Plain line) : l.text = line := by
  rw [Plain, h.1] at hplain
  have hdrop : dropReturn line = line := by rw [dropReturn, if_neg hplain.2]
  rcases h.2 with rfl | rfl
  · exact hplain.1
  · rw [hdrop]
    exact hplain.1

theorem rawLines_reads (text : Chars) :
    List.Forall₂ (fun line read => read = line ∨ read = dropReturn line) (rawLines text)
      (Text.lines text) := by
  unfold rawLines Text.lines
  apply List.rel_append
  · rw [List.forall₂_map_right_iff]
    exact List.forall₂_same.mpr fun line _ => .inr rfl
  · exact List.forall₂_same.mpr fun line _ => .inl rfl

theorem sectionsFrom_reads {s : Section} {lines read : List Chars} (hs : s.Reads group)
    (h : List.Forall₂ (fun line read => read = line ∨ read = dropReturn line) lines read) :
    List.Forall₂ Section.Reads (sectionsFrom s lines) (parseFrom group read) := by
  induction h generalizing s group with
  | nil => exact .cons hs .nil
  | @cons line read lines rest hline hrest ih =>
    have htrim : trim read = trim line := by
      rcases hline with rfl | rfl
      · rfl
      · exact trim_dropReturn _
    rw [sectionsFrom, parseFrom, htrim]
    cases hheader : header (trim line) with
    | some name =>
      exact .cons hs (ih ⟨rfl, fun l hl => Option.some.inj hl ▸ hheader, .nil⟩)
    | none =>
      have hread : ReadAs line (readLine read) := by
        refine ⟨hheader, ?_⟩
        rcases hline with rfl | rfl
        · exact .inl rfl
        · exact .inr rfl
      exact ih ⟨hs.name, hs.opener, List.rel_append hs.lines (.cons hread .nil)⟩

/-- A text as it stands, and as the converger reads it. -/
theorem sections_reads (text : Chars) :
    List.Forall₂ Section.Reads (sections text) (parse text) := by
  have htop : Section.Reads ⟨none, [], []⟩ ⟨[], []⟩ := ⟨rfl, fun _ h => (nomatch h), .nil⟩
  exact sectionsFrom_reads htop (rawLines_reads text)

theorem Carried.refl (foreign : Chars → Line → Bool) (met : List Chars) (file : KeyFile) :
    Carried foreign met file file := by
  induction file generalizing met with
  | nil => exact .grown
  | cons group file ih =>
    by_cases hmet : group.name ∈ met
    · exact .again hmet (ih _)
    · exact .first hmet rfl (ih _)

theorem filter_setLine {keep : Line → Bool} {k : Chars} {lines : List Line}
    (h : ∀ v, keep (.pair k v) = false) :
    (setLine k value lines).filter keep = lines.filter keep := by
  induction lines with
  | nil => simp [setLine, h]
  | cons line lines ih =>
    cases line with
    | raw raw => rw [setLine, List.filter_cons, List.filter_cons, ih]
    | pair k' v' =>
      rw [setLine]
      split_ifs with hk
      · subst hk
        rw [List.filter_cons_of_neg (by simp [h]), List.filter_cons_of_neg (by simp [h])]
      · rw [List.filter_cons, List.filter_cons, ih]

/-- No edit of an owned key touches another line. -/
theorem Carried.set (h : Carried foreign met file file') (hkey : key.1 ∉ met)
    (hforeign : ∀ v, foreign key.1 (.pair key.2 v) = false) :
    Carried foreign met file (set key value file') := by
  induction h with
  | grown => exact .grown
  | @again met group file file' hmet hrest ih =>
    have hne : group.name ≠ key.1 := fun hsame => hkey (hsame ▸ hmet)
    rw [KeyFile.set, if_neg hne]
    refine .again hmet (ih ?_)
    rw [List.mem_cons, not_or]
    exact ⟨Ne.symm hne, hkey⟩
  | @first met group lines file file' hmet hlines hrest ih =>
    rw [KeyFile.set]
    split_ifs with hsame
    · refine .first hmet ?_ hrest
      rw [← hlines]
      apply filter_setLine
      rw [hsame]
      exact hforeign
    · refine .first hmet hlines (ih ?_)
      rw [List.mem_cons, not_or]
      exact ⟨Ne.symm hsame, hkey⟩

theorem Carried.remove (h : Carried foreign met file file') (hkey : key.1 ∉ met)
    (hforeign : ∀ v, foreign key.1 (.pair key.2 v) = false) :
    Carried foreign met file (remove key file') := by
  induction h with
  | grown => exact .grown
  | @again met group file file' hmet hrest ih =>
    have hne : group.name ≠ key.1 := fun hsame => hkey (hsame ▸ hmet)
    rw [KeyFile.remove, if_neg hne]
    refine .again hmet (ih ?_)
    rw [List.mem_cons, not_or]
    exact ⟨Ne.symm hne, hkey⟩
  | @first met group lines file file' hmet hlines hrest ih =>
    rw [KeyFile.remove]
    split_ifs with hsame
    · refine .first hmet ?_ hrest
      rw [← hlines, List.filter_filter]
      apply List.filter_congr
      intro line _
      cases line with
      | raw raw => simp [isPair]
      | pair k v =>
        by_cases hk : k = key.2
        · have hnone : foreign group.name (.pair k v) = false := by
            change group.name = key.1 at hsame
            rw [hsame, hk]
            exact hforeign v
          rw [hnone, Bool.false_and]
        · simp [isPair, hk]
    · refine .first hmet hlines (ih ?_)
      rw [List.mem_cons, not_or]
      exact ⟨Ne.symm hsame, hkey⟩

theorem carried_edited : Carried (isForeign wanted previously) [] (parse live)
    (edited live wanted previously) := by
  have hnot : ∀ {key : Key}, Owns wanted previously key →
      ∀ v, isForeign wanted previously key.1 (.pair key.2 v) = false := by
    intro key hkey v
    simp [isForeign, hkey]
  have hset : ∀ {file : KeyFile} {entries : List (Key × Chars)}, entries ⊆ wanted →
      Carried (isForeign wanted previously) [] (parse live) file →
        Carried (isForeign wanted previously) [] (parse live) (setKeys file entries).1 := by
    intro file entries hsub hfile
    induction entries generalizing file with
    | nil => exact hfile
    | cons entry entries ih =>
      have howns : Owns wanted previously entry.1 :=
        .inl (List.mem_map_of_mem (hsub List.mem_cons_self))
      exact ih (fun e he => hsub (List.mem_cons_of_mem _ he))
        (hfile.set List.not_mem_nil (hnot howns))
  refine removeKeys_rule (I := Carried (isForeign wanted previously) [] (parse live))
    (hset (List.Subset.refl _) (.refl _ _ _)) fun id hid _ key hkey file hfile => ?_
  have howns : Owns wanted previously key := .inr ⟨id, hid, hkey⟩
  exact hfile.remove List.not_mem_nil (hnot howns)

/-- The plain lines of a group that nobody owns are among those it is written with. -/
theorem plain_sublist {name : Chars} {lines : List Chars} {ls ls' : List Line}
    (h : List.Forall₂ ReadAs lines ls)
    (hsame : ls'.filter (isForeign wanted previously name) =
      ls.filter (isForeign wanted previously name)) :
    ((lines.filter fun line => isForeign wanted previously name (readLine line)).filter
      fun line => Plain line).Sublist (ls'.map Line.text) := by
  have hread : ((lines.filter fun line =>
      isForeign wanted previously name (readLine line)).filter fun line => Plain line).Sublist
        ((ls.filter (isForeign wanted previously name)).map Line.text) := by
    clear hsame
    induction h with
    | nil => exact List.Sublist.refl _
    | @cons line l lines ls hline hrest ih =>
      have hforeign : isForeign wanted previously name l =
          isForeign wanted previously name (readLine line) := hline.isForeign
      rw [List.filter_cons, List.filter_cons, hforeign]
      split_ifs
      · rw [List.filter_cons, List.map_cons]
        split_ifs with hplain
        · rw [hline.text (by simpa using hplain)]
          exact ih.cons_cons _
        · exact ih.cons _
      · exact ih
  rw [← hsame] at hread
  exact hread.trans (List.filter_sublist.map _)

/-- The lines that stay of one group, in the group that is written. -/
theorem foreignOf_sublist {s : Section} {lines : List Line} (hreads : s.Reads group)
    (hsame : lines.filter (isForeign wanted previously s.name) =
      group.lines.filter (isForeign wanted previously s.name))
    (hkeeps : s.name = [] ∨ lines.any counts = true) :
    ((foreignOf live wanted previously met s).filter fun line => Plain line).Sublist
      (renderGroup ⟨s.name, lines⟩) := by
  have hlines := plain_sublist hreads.lines hsame
  have hopener : ∀ line ∈ (if emptied live wanted previously met s then []
      else s.opener.toList), Plain line → s.name ≠ [] ∧ line = '[' :: s.name ++ [']'] := by
    intro line hline hplain
    have hmem : line ∈ s.opener := by
      split_ifs at hline
      · exact absurd hline List.not_mem_nil
      · exact Option.mem_toList.mp hline
    rw [Plain, hreads.opener line hmem] at hplain
    exact hplain
  have hfirst : ((if emptied live wanted previously met s then []
      else s.opener.toList).filter fun line => Plain line).Sublist
        (if s.name = [] then [] else ['[' :: s.name ++ [']']]) := by
    have hlength : (if emptied live wanted previously met s then []
        else s.opener.toList).length ≤ 1 := by
      split_ifs
      · exact Nat.zero_le 1
      · cases s.opener <;> simp
    revert hopener hlength
    generalize (if emptied live wanted previously met s then [] else s.opener.toList) = opener
    intro hopener hlength
    cases opener with
    | nil => exact List.nil_sublist _
    | cons line rest =>
      obtain rfl : rest = [] := by
        rw [List.length_cons] at hlength
        exact List.length_eq_zero_iff.mp (by omega)
      by_cases hplain : Plain line
      · obtain ⟨hname, rfl⟩ := hopener line List.mem_cons_self hplain
        rw [if_neg hname]
        exact List.filter_sublist
      · rw [List.filter_cons_of_neg (by simpa using hplain)]
        exact List.nil_sublist _
  rw [foreignOf, List.filter_append]
  refine (hfirst.append hlines).trans ?_
  rw [renderGroup]
  rcases hkeeps with hname | hcounts
  · rw [if_pos hname, if_pos hname]
    exact List.Sublist.refl _
  · split_ifs
    · exact List.Sublist.refl _
    · exact List.Sublist.refl _

theorem any_counts {lines : List Chars} {ls : List Line} (h : List.Forall₂ ReadAs lines ls) :
    ls.any counts = lines.any fun line => counts (readLine line) := by
  induction h with
  | nil => rfl
  | cons hline _ ih => rw [List.any_cons, List.any_cons, hline.counts, ih]

/-- The lines that stay are written, and where some do the file is not blank. -/
structure Stand (live : Chars) (wanted : List (Key × Chars)) (previously : List Chars)
    (kind : List Chars → Section → Bool) (met : List Chars) (ss : List Section)
    (file : KeyFile) : Prop where
  written : ((foreignFrom live wanted previously kind met ss).filter fun line =>
    Plain line).Sublist (file.flatMap renderGroup)
  counted : leaves live wanted previously met ss = true → ∃ group ∈ file, group.lines.any counts

theorem Stand.cons {kind : List Chars → Section → Bool} {ss : List Section} {s : Section}
    {lines : List Line} (h : Stand live wanted previously kind (s.name :: met) ss file)
    (hreads : s.Reads group)
    (hsame : lines.filter (isForeign wanted previously s.name) =
      group.lines.filter (isForeign wanted previously s.name))
    (hkind : kind met s = true → s.name = [] ∨ holds live wanted previously met s = true)
    (hholds : lines.any counts = holds live wanted previously met s) :
    Stand live wanted previously kind met (s :: ss) (⟨s.name, lines⟩ :: file) := by
  constructor
  · rw [foreignFrom, List.filter_append, List.flatMap_cons]
    refine List.Sublist.append ?_ h.written
    split_ifs with hstays
    · apply foreignOf_sublist hreads hsame
      rw [hholds]
      exact hkind hstays
    · exact List.nil_sublist _
  · intro hleaves
    rw [leaves, Bool.or_eq_true] at hleaves
    rcases hleaves with hhere | hlater
    · exact ⟨_, List.mem_cons_self, hholds.trans hhere⟩
    · obtain ⟨g, hg, hcounts⟩ := h.counted hlater
      exact ⟨g, List.mem_cons_of_mem _ hg, hcounts⟩

theorem Carried.stand {kind : List Chars → Section → Bool} {ss : List Section}
    (h : Carried (isForeign wanted previously) met file file')
    (hreads : List.Forall₂ Section.Reads ss file)
    (hkind : ∀ met s, kind met s = true → s.name = [] ∨
      holds live wanted previously met s = true)
    (hkeeps : ∀ name ∉ met, ∀ g ∈ KeyFile.first name file',
      g.lines.any counts = keepsHeader live wanted previously name) :
    Stand live wanted previously kind met ss file' := by
  have hrest : ∀ {met : List Chars} {g : Group} {file' : KeyFile},
      (∀ name ∉ met, ∀ g' ∈ KeyFile.first name (g :: file'),
        g'.lines.any counts = keepsHeader live wanted previously name) →
      ∀ name ∉ g.name :: met, ∀ g' ∈ KeyFile.first name file',
        g'.lines.any counts = keepsHeader live wanted previously name := by
    intro met g file' h name hname g' hg'
    rw [List.mem_cons, not_or] at hname
    apply h name hname.2 g'
    unfold KeyFile.first at hg' ⊢
    rwa [List.find?_cons_of_neg (by simpa using Ne.symm hname.1)]
  induction h generalizing ss with
  | grown =>
    cases hreads
    exact ⟨List.nil_sublist _, fun hnone => nomatch hnone⟩
  | @again met group file file' hmet hcarried ih =>
    cases hreads with
    | @cons s _ ss _ hs hss =>
      obtain ⟨name, lines⟩ := group
      obtain rfl : name = s.name := hs.name
      refine (ih hss (hrest hkeeps)).cons hs rfl (hkind met s) ?_
      rw [holds, if_pos hmet]
      exact any_counts hs.lines
  | @first met group lines file file' hmet hlines hcarried ih =>
    cases hreads with
    | @cons s _ ss _ hs hss =>
      obtain ⟨name, old⟩ := group
      obtain rfl : name = s.name := hs.name
      have hlater := @hrest met ⟨s.name, lines⟩ file' hkeeps
      refine (ih hss hlater).cons hs hlines (hkind met s) ?_
      rw [holds, if_neg hmet]
      apply hkeeps s.name hmet ⟨s.name, lines⟩
      simp [KeyFile.first]

theorem trim_of_blank {text : Chars} (h : ∀ c ∈ text, isWhiteSpace c = true) : trim text = [] := by
  have hnone : text.dropWhile isWhiteSpace = [] := List.dropWhile_eq_nil_iff.mpr h
  rw [trim_eq, hnone]
  rfl

/-- A file that comes out blank has no line left that counts. -/
theorem counts_of_blank (h : trim file.render = []) :
    ∀ group ∈ file, group.lines.any counts = false := by
  intro group hgroup
  by_contra hcounts
  have hcounts : group.lines.any counts = true := by simpa using hcounts
  obtain ⟨line, hline, hcount⟩ := List.any_eq_true.mp hcounts
  have hmem : line.text ∈ renderGroup group := by
    have hlines : line.text ∈ group.lines.map Line.text := List.mem_map_of_mem hline
    unfold renderGroup
    split_ifs
    · exact hlines
    · exact List.mem_cons_of_mem _ hlines
  have hblank : ∀ c ∈ line.text, isWhiteSpace c = true := by
    intro c hc
    apply isWhiteSpace_of_trim_eq_nil h
    exact List.mem_flatMap.mpr ⟨line.text, List.mem_flatMap.mpr ⟨group, hgroup, hmem⟩,
      List.mem_append_left _ hc⟩
  cases line with
  | pair key value =>
    have hequals : '=' ∈ (Line.pair key value).text := by simp [Line.text]
    exact absurd (hblank _ hequals) (by decide)
  | raw raw =>
    have hnone : trim raw = [] := trim_of_blank hblank
    simp [counts, hnone] at hcount

theorem newline_notMem_rawLines {text : Chars} (h : line ∈ rawLines text) : '\n' ∉ line := by
  have hpiece : line ∈ split '\n' text := by
    unfold rawLines at h
    rcases List.mem_append.mp h with h | h
    · exact List.dropLast_subset _ h
    · exact List.mem_of_getLast? (Option.filter_eq_some_iff.mp (Option.mem_toList.mp h)).1
  exact notMem_split hpiece

theorem rawLines_append (text rest : Chars) :
    rawLines (text ++ '\n' :: rest) = split '\n' text ++ rawLines rest := by
  obtain ⟨pieces, last, hsplit⟩ := (List.eq_nil_or_concat' (split '\n' rest)).resolve_left
    (split_ne_nil _ _)
  unfold rawLines
  rw [split_append_split, hsplit]
  simp [← List.append_assoc]

/-- Lines among those that a text is made of are among its lines. -/
theorem sublist_rawLines {lines texts : List Chars} (h : lines.Sublist texts)
    (hlines : ∀ line ∈ lines, '\n' ∉ line) :
    lines.Sublist (rawLines (texts.flatMap (· ++ ['\n']))) := by
  have hcons : ∀ (text : Chars) (texts : List Chars),
      rawLines ((text :: texts).flatMap (· ++ ['\n'])) =
        split '\n' text ++ rawLines (texts.flatMap (· ++ ['\n'])) := by
    intro text texts
    rw [List.flatMap_cons, List.append_assoc, List.singleton_append, rawLines_append]
  induction h with
  | slnil => exact List.nil_sublist _
  | cons text _ ih =>
    rw [hcons]
    exact (ih hlines).trans (List.sublist_append_right _ _)
  | cons_cons text _ ih =>
    have hrest := ih fun line hline => hlines line (List.mem_cons_of_mem _ hline)
    rw [hcons, split_of_notMem (hlines text List.mem_cons_self)]
    exact hrest.cons_cons text

theorem newline_notMem_sectionsFrom {s : Section} {lines : List Chars}
    (hs : ∀ line ∈ s.opener.toList ++ s.lines, '\n' ∉ line) (hlines : ∀ line ∈ lines, '\n' ∉ line) :
    ∀ s' ∈ sectionsFrom s lines, ∀ line ∈ s'.opener.toList ++ s'.lines, '\n' ∉ line := by
  induction lines generalizing s with
  | nil =>
    intro s' hs'
    rw [List.mem_singleton.mp hs']
    exact hs
  | cons line lines ih =>
    have hline := hlines line List.mem_cons_self
    have hrest : ∀ l ∈ lines, '\n' ∉ l := fun l hl => hlines l (List.mem_cons_of_mem _ hl)
    rw [sectionsFrom]
    cases header (trim line) with
    | some name =>
      intro s' hs'
      rcases List.mem_cons.mp hs' with rfl | hs'
      · exact hs
      · have hopened : ∀ l ∈ (some line).toList ++ [], '\n' ∉ l := by simpa using hline
        exact ih hopened hrest s' hs'
    | none =>
      apply ih _ hrest
      intro l hl
      rw [← List.append_assoc] at hl
      rcases List.mem_append.mp hl with hold | hnew
      · exact hs l hold
      · rw [List.mem_singleton.mp hnew]
        exact hline

/-- What nobody owns of a text is made of lines of it. -/
theorem newline_notMem_foreignFrom {kind : List Chars → Section → Bool} {ss : List Section}
    (h : ∀ s ∈ ss, ∀ line ∈ s.opener.toList ++ s.lines, '\n' ∉ line) :
    ∀ line ∈ foreignFrom live wanted previously kind met ss, '\n' ∉ line := by
  induction ss generalizing met with
  | nil => exact fun _ hline => absurd hline List.not_mem_nil
  | cons s ss ih =>
    intro line hline
    rw [foreignFrom] at hline
    rcases List.mem_append.mp hline with hhere | hlater
    · apply h s List.mem_cons_self line
      split_ifs at hhere
      · rw [foreignOf] at hhere
        rcases List.mem_append.mp hhere with hopener | hmem
        · split_ifs at hopener
          · cases hopener
          · exact List.mem_append_left _ hopener
        · exact List.mem_append_right _ (List.mem_of_mem_filter hmem)
      · cases hhere
    · exact ih (fun s' hs' => h s' (List.mem_cons_of_mem _ hs')) line hlater

theorem foreignFrom_false {kind : List Chars → Section → Bool} {ss : List Section}
    (h : ∀ met s, kind met s = false) :
    foreignFrom live wanted previously kind met ss = [] := by
  induction ss generalizing met with
  | nil => rfl
  | cons s ss ih =>
    rw [foreignFrom, ih, h]
    rfl

end

/-- The plain lines that kuma does not own of the groups that stay come out as they were, in the
same order. -/
theorem stayingLines_survive (live : Chars) (wanted : List (Key × Chars))
    (previously : List Chars) :
    ((stayingLines live wanted previously).filter fun line => Plain line).Sublist
      (rawLines (converge live wanted previously).1) := by
  have hstand : Stand live wanted previously (stays live wanted previously) []
      (sections live) (edited live wanted previously) := by
    apply carried_edited.stand (sections_reads live)
    · intro met s hstays
      rw [stays, Bool.and_eq_true, Bool.or_eq_true, Bool.or_eq_true, decide_eq_true_eq,
        decide_eq_true_eq] at hstays
      exact hstays.2
    · exact fun name _ group hgroup => counts_edited hgroup
  have hout : (converge live wanted previously).1 =
      if trim (edited live wanted previously).render = [] then []
      else (edited live wanted previously).render := rfl
  rw [hout]
  by_cases hblank : trim (edited live wanted previously).render = []
  · have hnone : ∀ met s, stays live wanted previously met s = false := by
      have hwanted : wanted = [] := wanted_of_blank hblank
      have hleaves : leaves live wanted previously [] (sections live) = false := by
        by_contra hleaves
        obtain ⟨group, hgroup, hcounts⟩ := hstand.counted (by simpa using hleaves)
        rw [counts_of_blank hblank group hgroup] at hcounts
        cases hcounts
      intro met s
      rw [stays, hleaves, hwanted]
      rfl
    rw [if_pos hblank, stayingLines, foreignFrom_false hnone]
    exact List.nil_sublist _
  · rw [if_neg hblank]
    apply sublist_rawLines hstand.written
    intro line hline
    apply newline_notMem_foreignFrom _ line (List.mem_of_mem_filter hline)
    apply newline_notMem_sectionsFrom
    · exact fun l hl => absurd hl List.not_mem_nil
    · exact fun l hl => newline_notMem_rawLines hl

/-- A comment, a foreign pair and a later group stay beside a key that is set and one that is
taken back. -/
example : stayingLines "# mine\n[Context]\nshared=ipc;\nsockets=x11;\n\n[Else]\nk=v\n".toList
    (wantsDevices "dri;") ["Context\tsockets".toList] =
      ["# mine".toList, "[Context]".toList, "shared=ipc;".toList, [], "[Else]".toList,
        "k=v".toList] := by decide +kernel

/-- A group that kuma emptied goes with its blank lines. -/
theorem not_foreignLines_survive :
    ¬ (foreignLines "[Context]\nfilesystems=host;\n\n[Environment]\nA=1\n".toList []
        ["Context\tfilesystems".toList]).Sublist
      (rawLines (converge "[Context]\nfilesystems=host;\n\n[Environment]\nA=1\n".toList []
        ["Context\tfilesystems".toList]).1) := by
  decide +kernel

end Kuma.Overrides
