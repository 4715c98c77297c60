import Kuma.Lib.Splitting
import Kuma.Lockfile.Packages
import Mathlib.Data.List.Sort
import Mathlib.Data.List.Dedup

/-! What an update would move: six answers of one shell run, told apart by a marker and joined by
the names of packages. -/
namespace Kuma.Updates
open Kuma.Lib Kuma.Lib.Text Kuma.Lockfile

def SEVERITIES : List String := ["critical", "important", "moderate", "low"]

def MARK : List Char := "@@kuma@@".toList

/-- One package with a newer version: its name, `from`, `to` and the worst advisory. -/
structure Move where
  name : List Char
  old : List Char
  new : List Char
  severity : Option String
  deriving DecidableEq

def rank (severity : Option String) : ℕ :=
  match severity with
  | some sev => (SEVERITIES.findIdx? (· == sev)).getD SEVERITIES.length
  | none => SEVERITIES.length

/-- The order in which moves are listed. -/
def Before (m m' : Move) : Prop :=
  rank m.severity < rank m'.severity ∨ rank m.severity = rank m'.severity ∧ m.name ≤ m'.name

instance (m m' : Move) : Decidable (Before m m') := inferInstanceAs (Decidable (_ ∨ _))

/-- The names that a section lists. -/
def sectionNames (text : List Char) : List (List Char) :=
  ((lines text).map trim).filter (· ≠ [])

/-- The worst severity of which the section names the package. -/
def severityOf (flagged : List (List (List Char))) (name : List Char) : Option String :=
  ((SEVERITIES.zip flagged).find? fun p => p.2.contains name).map Prod.fst

def parse (out : List Char) : List Move :=
  let sections := splitStr MARK out
  let upgrades := parseRpmQuery (sections.getD 0 [])
  let flagged := (List.range SEVERITIES.length).map fun i => sectionNames (sections.getD (i + 1) [])
  let installed := parseRpmQuery (sections.getD (SEVERITIES.length + 1) [])
  let moves := upgrades.entries.filterMap fun e =>
    (installed.get e.1).map fun old => ⟨e.1, old, e.2, severityOf flagged e.1⟩
  moves.insertionSort Before

def securityCount (moves : List Move) : ℕ := moves.countP (·.severity.isSome)

def bySeverity (moves : List Move) : SortedMap ℕ (String × ℕ) :=
  moves.foldl (fun counts m =>
    match m.severity with
    | some severity =>
      let entry := (counts.get (rank (some severity))).getD (severity, 0)
      counts.insert (rank (some severity)) (entry.1, entry.2 + 1)
    | none => counts) .empty

def severityAt (i : Fin 4) : String := SEVERITIES.get i

/-- What the queries of a run answer. -/
structure Answer where
  upgrades : List Package
  flagged : Fin 4 → List Package
  installed : List Package

namespace Answer

/-- What follows one marker. Nothing is asked of an empty list of upgrades. -/
def guarded (a : Answer) (body : List Char) : List Char :=
  MARK ++ '\n' :: if a.upgrades = [] then [] else body

/-- The output of the script. -/
def output (a : Answer) : List Char :=
  (if a.upgrades = [] then ['\n'] else listing a.upgrades) ++
    (List.finRange 4).flatMap (fun i => a.guarded (ofLines ((a.flagged i).map Package.name))) ++
    a.guarded (listing a.installed)

/-- The package of an upgrade is installed, for the same architecture at another version. -/
def isUpgrade (a : Answer) (u : Package) : Bool :=
  a.installed.any fun i => i.name = u.name && i.arch = u.arch && i.evr != u.evr

/-- The worst severity for which a package is named. -/
def worst (a : Answer) (name : List Char) : Option String :=
  ((List.finRange 4).find? fun i => (a.flagged i).any fun p => p.name = name).map severityAt

/-- An installed package of the name and architecture of `u`, and none of these is newer. -/
structure Newest (le : List Char → List Char → Prop) (a : Answer) (u i : Package) : Prop where
  installed : i ∈ a.installed
  name : i.name = u.name
  arch : i.arch = u.arch
  last : ∀ j ∈ a.installed, j.name = u.name → j.arch = u.arch → le j.evr i.evr

/-- The upgrades that an advisory names, each once. -/
def flaggedUpgrades (a : Answer) : List Package :=
  (a.upgrades.filter fun u => a.isUpgrade u && (a.worst u.name).isSome).dedup

end Answer

def tally (severity : String) (n : ℕ) : Option (String × ℕ) :=
  if n = 0 then none else some (severity, n)

/-- What the report promises of an answer. -/
structure Reports (le : List Char → List Char → Prop) (a : Answer) : Prop where
  move : ∀ u ∈ a.upgrades, a.isUpgrade u = true → ∃ i, a.Newest le u i ∧
    ((parse a.output).filter fun m => m.name = u.name ∧ m.new = u.version) =
      [⟨u.name, i.version, u.version, a.worst u.name⟩]
  sorted : (parse a.output).Pairwise Before
  security : securityCount (parse a.output) = a.flaggedUpgrades.length
  severities : ∀ k, (bySeverity (parse a.output)).get k = SEVERITIES[k]?.bind fun severity =>
    tally severity (a.flaggedUpgrades.countP fun u => a.worst u.name = some severity)

/-- The last line of a name, where it has several, is the one to report. -/
structure Clear (le : List Char → List Char → Prop) (a : Answer) : Prop where
  last : ∀ u ∈ a.upgrades, a.isUpgrade u = true → lastOf u.name a.upgrades = some u ∧
    ∃ i, lastOf u.name a.installed = some i ∧ a.Newest le u i
  real : ∀ name u i, lastOf name a.upgrades = some u → lastOf name a.installed = some i →
    (a.worst name).isSome = true → a.isUpgrade u = true

variable {a : Answer} {m m' : Move} {name : List Char}

/-! ### The sections of the output -/

/-- The body of a section: a line end after the marker, and what was asked for. -/
def Answer.section (a : Answer) (body : List Char) : List Char :=
  '\n' :: if a.upgrades = [] then [] else body

theorem at_notMem_ofLines {lines : List (List Char)} (h : ∀ line ∈ lines, '@' ∉ line) :
    '@' ∉ ofLines lines := by
  intro hmem
  obtain ⟨line, hline, hc⟩ := List.mem_flatMap.mp hmem
  rcases List.mem_append.mp hc with hc | hc
  · exact h line hline hc
  · exact absurd (List.mem_singleton.mp hc) (by decide)

theorem at_notMem_name (p : Package) : '@' ∉ p.name :=
  notMem_of_isTagChar (by decide) p.name_chars

theorem at_notMem_listing (packages : List Package) : '@' ∉ listing packages := by
  refine at_notMem_ofLines fun line hline => ?_
  obtain ⟨p, -, rfl⟩ := List.mem_map.mp hline
  intro hc
  rcases List.mem_append.mp hc with hc | hc
  · exact at_notMem_name p hc
  · rcases List.mem_cons.mp hc with hc | hc
    · exact absurd hc (by decide)
    · exact absurd (mem_version hc) (by decide)

theorem at_notMem_section {body : List Char} (h : '@' ∉ body) : '@' ∉ a.section body := by
  intro hc
  rcases List.mem_cons.mp hc with hc | hc
  · exact absurd hc (by decide)
  · split_ifs at hc
    · exact absurd hc List.not_mem_nil
    · exact h hc

/-- The names of one severity, line by line. -/
def Answer.names (a : Answer) (i : Fin 4) : List (List Char) := (a.flagged i).map Package.name

theorem splitStr_output (a : Answer) :
    splitStr MARK a.output =
      (if a.upgrades = [] then ['\n'] else listing a.upgrades) ::
        ((List.finRange 4).map (fun i => a.section (ofLines (a.names i))) ++
          [a.section (listing a.installed)]) := by
  have houtput : a.output = (if a.upgrades = [] then ['\n'] else listing a.upgrades) ++
      ((List.finRange 4).map (fun i => a.section (ofLines (a.names i))) ++
        [a.section (listing a.installed)]).flatMap (MARK ++ ·) := by
    rw [Answer.output, List.flatMap_append, List.flatMap_map, List.append_assoc,
      List.flatMap_singleton]
    rfl
  rw [houtput]
  refine splitStr_sections ?_ fun body hbody => ?_
  · split_ifs
    · decide
    · exact at_notMem_listing a.upgrades
  · rcases List.mem_append.mp hbody with hbody | hbody
    · obtain ⟨i, -, rfl⟩ := List.mem_map.mp hbody
      refine at_notMem_section (at_notMem_ofLines fun line hline => ?_)
      obtain ⟨p, -, rfl⟩ := List.mem_map.mp hline
      exact at_notMem_name p
    · rw [List.mem_singleton.mp hbody]
      exact at_notMem_section (at_notMem_listing a.installed)

theorem parseRpmQuery_newline (text : List Char) :
    parseRpmQuery ('\n' :: text) = parseRpmQuery text := by
  have hlines : lines ('\n' :: text) = [] :: lines text :=
    lines_append (a := []) List.not_mem_nil
  unfold parseRpmQuery
  rw [hlines, List.filterMap_cons_none rfl]

theorem parseRpmQuery_upgrades (a : Answer) :
    parseRpmQuery (if a.upgrades = [] then ['\n'] else listing a.upgrades) =
      parseRpmQuery (listing a.upgrades) := by
  split_ifs with h
  · rw [h, parseRpmQuery_newline]
    rfl
  · rfl

/-- Where something moves, every query is run. -/
theorem section_of_ne (h : a.upgrades ≠ []) (body : List Char) :
    a.section body = '\n' :: body := by
  rw [Answer.section, if_neg h]

theorem trim_dropReturn_name (p : Package) : trim (dropReturn p.name) = p.name := by
  rw [trim_dropReturn]
  exact trim_of_not_whiteSpace fun c hc => isWhiteSpace_of_isTagChar (p.name_chars c hc)

theorem sectionNames_names (a : Answer) (i : Fin 4) :
    sectionNames ('\n' :: ofLines (a.names i)) = a.names i := by
  have hbare : ∀ name ∈ a.names i, '\n' ∉ name := by
    intro name hname
    obtain ⟨p, -, rfl⟩ := List.mem_map.mp hname
    exact notMem_of_isTagChar (by decide) p.name_chars
  have hlines : lines ('\n' :: ofLines (a.names i)) =
      [] :: (a.names i).map dropReturn := by
    refine (lines_append (a := []) List.not_mem_nil).trans ?_
    unfold ofLines
    rw [lines_flatMap hbare]
    rfl
  have htrim : (a.names i).map (trim ∘ dropReturn) = a.names i := by
    unfold Answer.names
    rw [List.map_map]
    exact List.map_congr_left fun p _ => trim_dropReturn_name p
  have hne : ∀ name ∈ a.names i, name ≠ [] := by
    intro name hname
    obtain ⟨p, -, rfl⟩ := List.mem_map.mp hname
    exact p.named
  unfold sectionNames
  rw [hlines, List.map_cons, List.map_map, List.filter_cons_of_neg (by decide), htrim]
  exact List.filter_eq_self.mpr fun name hname => decide_eq_true (hne name hname)

theorem severityOf_names (a : Answer) (name : List Char) :
    severityOf ((List.finRange 4).map a.names) name = a.worst name := by
  have hzip : SEVERITIES.zip ((List.finRange 4).map a.names) =
      (List.finRange 4).map fun i => (severityAt i, a.names i) := rfl
  have hnames : ∀ i, (a.names i).contains name = (a.flagged i).any fun p => p.name = name := by
    intro i
    rw [Bool.eq_iff_iff, List.contains_iff_mem, Answer.names, List.mem_map, List.any_eq_true]
    exact exists_congr fun p => and_congr_right fun _ => (decide_eq_true_iff).symm
  unfold severityOf Answer.worst
  rw [hzip, List.find?_map, Option.map_map]
  exact congrArg (fun f => ((List.finRange 4).find? f).map severityAt) (funext hnames)

/-- The moves in the order of their names. -/
def Answer.moves (a : Answer) : List Move :=
  (parseRpmQuery (listing a.upgrades)).entries.filterMap fun e =>
    ((parseRpmQuery (listing a.installed)).get e.1).map fun old =>
      ⟨e.1, old, e.2, a.worst e.1⟩

theorem parse_output (a : Answer) : parse a.output = a.moves.insertionSort Before := by
  have hflagged : (List.range SEVERITIES.length).map (fun i =>
      sectionNames ((splitStr MARK a.output).getD (i + 1) [])) =
        (List.finRange 4).map fun i => sectionNames (a.section (ofLines (a.names i))) := by
    rw [splitStr_output]
    rfl
  have hinstalled : (splitStr MARK a.output).getD (SEVERITIES.length + 1) [] =
      a.section (listing a.installed) := by
    rw [splitStr_output]
    rfl
  have hupgrades : parseRpmQuery ((splitStr MARK a.output).getD 0 []) =
      parseRpmQuery (listing a.upgrades) := by
    rw [splitStr_output]
    exact parseRpmQuery_upgrades a
  unfold parse Answer.moves
  simp only [hflagged, hinstalled, hupgrades]
  by_cases h : a.upgrades = []
  · rw [h]
    rfl
  · have hnames : (List.finRange 4).map (fun i => sectionNames (a.section (ofLines (a.names i)))) =
        (List.finRange 4).map a.names := by
      refine List.map_congr_left fun i _ => ?_
      rw [section_of_ne h, sectionNames_names]
    rw [section_of_ne h, parseRpmQuery_newline]
    simp only [hnames, severityOf_names]

/-! ### The moves of an answer -/

theorem mem_parse : m ∈ parse a.output ↔ ∃ u i, lastOf m.name a.upgrades = some u ∧
    lastOf m.name a.installed = some i ∧
      m = ⟨m.name, i.version, u.version, a.worst m.name⟩ := by
  rw [parse_output, List.mem_insertionSort, Answer.moves, List.mem_filterMap]
  constructor
  · rintro ⟨⟨name, new⟩, he, hm⟩
    obtain ⟨old, hold, rfl⟩ := Option.map_eq_some_iff.mp hm
    rw [← SortedMap.get_eq_some, get_parseRpmQuery] at he
    rw [get_parseRpmQuery] at hold
    obtain ⟨u, hu, rfl⟩ := Option.map_eq_some_iff.mp he
    obtain ⟨i, hi, rfl⟩ := Option.map_eq_some_iff.mp hold
    exact ⟨u, i, hu, hi, rfl⟩
  · rintro ⟨u, i, hu, hi, hm⟩
    refine ⟨(m.name, u.version), ?_, ?_⟩
    · rw [← SortedMap.get_eq_some, get_parseRpmQuery, hu]
      rfl
    · rw [get_parseRpmQuery, hi, hm]
      rfl

/-- A map holds a name once. -/
theorem nodup_names (a : Answer) : ((parse a.output).map Move.name).Nodup := by
  have hperm : (parse a.output).Perm a.moves := by
    rw [parse_output]
    exact List.perm_insertionSort Before a.moves
  rw [(hperm.map Move.name).nodup_iff, List.Nodup, List.pairwise_map]
  refine (parseRpmQuery (listing a.upgrades)).sorted.filterMap _ fun e e' hlt m hm m' hm' => ?_
  obtain ⟨old, -, rfl⟩ := Option.map_eq_some_iff.mp hm
  obtain ⟨old', -, rfl⟩ := Option.map_eq_some_iff.mp hm'
  exact hlt.ne

instance : IsTrans Move Before where
  trans m₁ m₂ m₃ h h' := by
    rcases h with h | ⟨hrank, hname⟩
    · rcases h' with h' | ⟨hrank', -⟩
      · exact Or.inl (h.trans h')
      · exact Or.inl (hrank' ▸ h)
    · rcases h' with h' | ⟨hrank', hname'⟩
      · exact Or.inl (hrank.trans_lt h')
      · exact Or.inr ⟨hrank.trans hrank', hname.trans hname'⟩

instance : Std.Total Before where
  total m m' := by
    rcases lt_trichotomy (rank m.severity) (rank m'.severity) with h | h | h
    · exact Or.inl (Or.inl h)
    · exact (le_total m.name m'.name).imp (fun hle => Or.inr ⟨h, hle⟩)
        fun hle => Or.inr ⟨h.symm, hle⟩
    · exact Or.inr (Or.inl h)

theorem sorted_parse (a : Answer) : (parse a.output).Pairwise Before := by
  rw [parse_output]
  exact List.pairwise_insertionSort Before a.moves

theorem severity_of_mem (h : m ∈ parse a.output) : m.severity = a.worst m.name := by
  obtain ⟨u, i, -, -, hm⟩ := mem_parse.mp h
  rw [hm]

theorem worst_mem {severity : String} (h : a.worst name = some severity) :
    severity ∈ SEVERITIES := by
  obtain ⟨i, -, rfl⟩ := Option.map_eq_some_iff.mp h
  exact List.get_mem SEVERITIES i

theorem filter_eq_singleton (h : m ∈ parse a.output) :
    ((parse a.output).filter fun m' => m'.name = m.name ∧ m'.new = m.new) = [m] := by
  have hnodup : (parse a.output).Nodup := (nodup_names a).of_map _
  refine List.perm_singleton.mp ((List.perm_ext_iff_of_nodup (hnodup.filter _)
    (List.nodup_singleton m)).mpr fun m' => ?_)
  rw [List.mem_filter, List.mem_singleton, decide_eq_true_iff]
  constructor
  · rintro ⟨hmem, hname, -⟩
    exact List.inj_on_of_nodup_map (nodup_names a) hmem h hname
  · rintro rfl
    exact ⟨h, rfl, rfl⟩

/-! ### What is counted -/

theorem tally_succ (severity : String) (n : ℕ) :
    tally severity (n + 1) =
      some ((((tally severity n).getD (severity, 0)).1,
        ((tally severity n).getD (severity, 0)).2 + 1)) := by
  cases n with
  | zero => rfl
  | succ n => rfl

theorem getElem_rank {severity : String} (h : severity ∈ SEVERITIES) :
    SEVERITIES[rank (some severity)]? = some severity := by
  have hall : ∀ s ∈ SEVERITIES, SEVERITIES[rank (some s)]? = some s := by decide +kernel
  exact hall severity h

theorem rank_getElem {k : ℕ} {severity : String} (h : SEVERITIES[k]? = some severity) :
    rank (some severity) = k := by
  have hall : ∀ i : Fin 4, rank (some (severityAt i)) = i := by decide +kernel
  obtain ⟨hk, rfl⟩ := List.getElem?_eq_some_iff.mp h
  exact hall ⟨k, hk⟩

theorem get_bySeverity (moves : List Move)
    (h : ∀ m ∈ moves, ∀ severity ∈ m.severity, severity ∈ SEVERITIES) (k : ℕ) :
    (bySeverity moves).get k = SEVERITIES[k]?.bind fun severity =>
      tally severity (moves.countP fun m => m.severity = some severity) := by
  induction moves using List.reverseRecOn with
  | nil =>
    show none = _
    cases SEVERITIES[k]? with
    | none => rfl
    | some severity => rfl
  | append_singleton moves m ih =>
    have hmoves := ih fun m' hm' => h m' (List.mem_append_left _ hm')
    have hcount : ∀ severity, (moves ++ [m]).countP (fun m => m.severity = some severity) =
        moves.countP (fun m => m.severity = some severity) +
          if m.severity = some severity then 1 else 0 := by
      intro severity
      rw [List.countP_append, List.countP_singleton]
      simp
    have hfold : bySeverity (moves ++ [m]) = match m.severity with
        | some severity =>
          (bySeverity moves).insert (rank (some severity))
            ((((bySeverity moves).get (rank (some severity))).getD (severity, 0)).1,
              (((bySeverity moves).get (rank (some severity))).getD (severity, 0)).2 + 1)
        | none => bySeverity moves := by
      unfold bySeverity
      rw [List.foldl_append]
      rfl
    cases hsev : m.severity with
    | none =>
      simp only [hfold, hcount, hsev, hmoves]
      rfl
    | some severity =>
      have hmem : severity ∈ SEVERITIES :=
        h m (List.mem_append_right _ List.mem_cons_self) severity hsev
      simp only [hfold, hcount, hsev]
      rw [SortedMap.get_insert]
      split_ifs with hk
      · subst hk
        rw [hmoves, getElem_rank hmem, Option.bind_some, Option.bind_some, if_pos rfl, tally_succ]
      · rw [hmoves]
        cases hget : SEVERITIES[k]? with
        | none => rfl
        | some severity' =>
          have hne : ¬some severity = some severity' := fun he =>
            hk (by rw [Option.some.inj he]; exact (rank_getElem hget).symm)
          rw [Option.bind_some, Option.bind_some, if_neg hne]
          rfl

/-- The upgrades whose lines are the last of their names, and so are the installed ones. -/
def Answer.Followed (a : Answer) : Prop :=
  ∀ u ∈ a.upgrades, a.isUpgrade u = true →
    lastOf u.name a.upgrades = some u ∧ ∃ i, lastOf u.name a.installed = some i

def Answer.movedNames (a : Answer) : List (List Char) :=
  ((parse a.output).filter fun m => m.severity.isSome).map Move.name

def Answer.flaggedNames (a : Answer) : List (List Char) := a.flaggedUpgrades.map Package.name

theorem mem_movedNames : name ∈ a.movedNames ↔ ∃ u i, lastOf name a.upgrades = some u ∧
    lastOf name a.installed = some i ∧ (a.worst name).isSome = true := by
  unfold Answer.movedNames
  rw [List.mem_map]
  constructor
  · rintro ⟨m, hm, rfl⟩
    obtain ⟨hmem, hsome⟩ := List.mem_filter.mp hm
    obtain ⟨u, i, hu, hi, -⟩ := mem_parse.mp hmem
    exact ⟨u, i, hu, hi, severity_of_mem hmem ▸ hsome⟩
  · rintro ⟨u, i, hu, hi, hsome⟩
    refine ⟨⟨name, i.version, u.version, a.worst name⟩, List.mem_filter.mpr ⟨?_, hsome⟩, rfl⟩
    exact mem_parse.mpr ⟨u, i, hu, hi, rfl⟩

theorem mem_flaggedUpgrades {u : Package} : u ∈ a.flaggedUpgrades ↔
    u ∈ a.upgrades ∧ a.isUpgrade u = true ∧ (a.worst u.name).isSome = true := by
  rw [Answer.flaggedUpgrades, List.mem_dedup, List.mem_filter, Bool.and_eq_true]

theorem nodup_flaggedNames (h : a.Followed) : a.flaggedNames.Nodup := by
  refine List.Nodup.map_on (fun u hu v hv hname => ?_) (List.nodup_dedup _)
  obtain ⟨hu, hmoves, -⟩ := mem_flaggedUpgrades.mp hu
  obtain ⟨hv, hmoves', -⟩ := mem_flaggedUpgrades.mp hv
  have hlast := (h u hu hmoves).1
  rw [hname, (h v hv hmoves').1] at hlast
  exact (Option.some.inj hlast).symm

theorem flaggedNames_subset (h : a.Followed) : a.flaggedNames ⊆ a.movedNames := by
  intro name hname
  obtain ⟨u, hu, rfl⟩ := List.mem_map.mp hname
  obtain ⟨hmem, hmoves, hsome⟩ := mem_flaggedUpgrades.mp hu
  obtain ⟨hlast, i, hi⟩ := h u hmem hmoves
  exact mem_movedNames.mpr ⟨u, i, hlast, hi, hsome⟩

theorem nodup_movedNames (a : Answer) : a.movedNames.Nodup :=
  (nodup_names a).sublist (List.filter_sublist.map Move.name)

/-- As many flagged upgrades as flagged moves: none of the moves is something else. -/
theorem perm_names_iff (h : a.Followed) : a.flaggedNames.length = a.movedNames.length ↔
    a.flaggedNames.Perm a.movedNames := by
  refine ⟨fun hlength => ?_, List.Perm.length_eq⟩
  have hsub := List.subperm_of_subset (nodup_flaggedNames h) (flaggedNames_subset h)
  exact hsub.perm_of_length_le hlength.ge

theorem perm_iff_real (h : a.Followed) : a.flaggedNames.Perm a.movedNames ↔
    ∀ name u i, lastOf name a.upgrades = some u → lastOf name a.installed = some i →
      (a.worst name).isSome = true → a.isUpgrade u = true := by
  constructor
  · intro hperm name u i hu hi hsome
    have hmem := hperm.mem_iff.mpr (mem_movedNames.mpr ⟨u, i, hu, hi, hsome⟩)
    obtain ⟨v, hv, rfl⟩ := List.mem_map.mp hmem
    obtain ⟨hv, hmoves, -⟩ := mem_flaggedUpgrades.mp hv
    have hlast := (h v hv hmoves).1
    rw [hu] at hlast
    exact Option.some.inj hlast ▸ hmoves
  · intro hreal
    refine (List.perm_ext_iff_of_nodup (nodup_flaggedNames h) (nodup_movedNames a)).mpr
      fun name => ⟨fun hname => flaggedNames_subset h hname, fun hname => ?_⟩
    obtain ⟨u, i, hu, hi, hsome⟩ := mem_movedNames.mp hname
    obtain ⟨hmem, rfl⟩ := lastOf_name hu
    exact List.mem_map.mpr
      ⟨u, mem_flaggedUpgrades.mpr ⟨hmem, hreal u.name u i hu hi hsome, hsome⟩, rfl⟩

theorem securityCount_parse (a : Answer) :
    securityCount (parse a.output) = a.movedNames.length := by
  unfold securityCount Answer.movedNames
  rw [List.countP_eq_length_filter, List.length_map]

theorem length_flaggedNames (a : Answer) : a.flaggedNames.length = a.flaggedUpgrades.length :=
  List.length_map _

theorem countP_moved (a : Answer) (severity : String) :
    (parse a.output).countP (fun m => m.severity = some severity) =
      a.movedNames.countP fun name => a.worst name = some severity := by
  unfold Answer.movedNames
  rw [List.countP_map, List.countP_filter]
  refine List.countP_congr fun m hm => ?_
  rw [severity_of_mem hm]
  by_cases hworst : a.worst m.name = some severity
  · simp [hworst]
  · simp [hworst]

theorem countP_flagged (a : Answer) (severity : String) :
    a.flaggedUpgrades.countP (fun u => a.worst u.name = some severity) =
      a.flaggedNames.countP fun name => a.worst name = some severity := by
  unfold Answer.flaggedNames
  rw [List.countP_map]
  rfl

/-! ### The report -/

variable {le : List Char → List Char → Prop}

theorem Clear.followed (h : Clear le a) : a.Followed := fun u hu hmoves =>
  (h.last u hu hmoves).imp_right fun ⟨i, hi, _⟩ => ⟨i, hi⟩

theorem Clear.reports (h : Clear le a) : Reports le a := by
  have hperm : a.flaggedNames.Perm a.movedNames := (perm_iff_real h.followed).mpr h.real
  refine ⟨fun u hu hmoves => ?_, sorted_parse a, ?_, fun k => ?_⟩
  · obtain ⟨hlast, i, hi, hnewest⟩ := h.last u hu hmoves
    have hmem : (⟨u.name, i.version, u.version, a.worst u.name⟩ : Move) ∈ parse a.output :=
      mem_parse.mpr ⟨u, i, hlast, hi, rfl⟩
    have hone := filter_eq_singleton hmem
    exact ⟨i, hnewest, hone⟩
  · rw [securityCount_parse, ← length_flaggedNames]
    exact hperm.length_eq.symm
  · have hlisted : ∀ m ∈ parse a.output, ∀ severity ∈ m.severity, severity ∈ SEVERITIES :=
      fun m hm severity hsev => worst_mem ((severity_of_mem hm).symm.trans hsev)
    rw [get_bySeverity _ hlisted]
    refine congrArg _ (funext fun severity => ?_)
    rw [countP_moved, countP_flagged, hperm.countP_eq]

theorem Reports.last (h : Reports le a) (u : Package) (hu : u ∈ a.upgrades)
    (hmoves : a.isUpgrade u = true) : lastOf u.name a.upgrades = some u ∧
      ∃ i, lastOf u.name a.installed = some i ∧ a.Newest le u i := by
  obtain ⟨i, hnewest, hfilter⟩ := h.move u hu hmoves
  have hmem : (⟨u.name, i.version, u.version, a.worst u.name⟩ : Move) ∈ parse a.output :=
    List.mem_of_mem_filter (hfilter ▸ List.mem_singleton_self _)
  obtain ⟨v, j, hv, hj, hm⟩ := mem_parse.mp hmem
  simp only [Move.mk.injEq, true_and, and_true] at hm
  obtain ⟨hold, hnew⟩ := hm
  obtain rfl := eq_of_version (lastOf_name hv).2.symm hnew
  obtain rfl := eq_of_version (hnewest.name.trans (lastOf_name hj).2.symm) hold
  exact ⟨hv, i, hj, hnewest⟩

theorem reports_iff (le : List Char → List Char → Prop) (a : Answer) :
    Reports le a ↔ Clear le a := by
  refine ⟨fun h => ?_, Clear.reports⟩
  have hfollowed : a.Followed := fun u hu hmoves =>
    (h.last u hu hmoves).imp_right fun ⟨i, hi, _⟩ => ⟨i, hi⟩
  refine ⟨h.last, (perm_iff_real hfollowed).mp ((perm_names_iff hfollowed).mp ?_)⟩
  rw [length_flaggedNames, ← securityCount_parse, h.security]

/-- One package a name, for one architecture: nothing is shadowed. -/
theorem clear_of_nodup (hrefl : ∀ evr, le evr evr) (hupgrades : (a.upgrades.map Package.name).Nodup)
    (hinstalled : (a.installed.map Package.name).Nodup)
    (harch : ∀ u ∈ a.upgrades, ∀ i ∈ a.installed, i.name = u.name →
      i.arch = u.arch ∧ i.evr ≠ u.evr) : Clear le a := by
  have hlast : ∀ {packages : List Package}, (packages.map Package.name).Nodup →
      ∀ p ∈ packages, lastOf p.name packages = some p := by
    intro packages hnodup p hp
    obtain ⟨q, hq⟩ : ∃ q, lastOf p.name packages = some q := by
      refine Option.ne_none_iff_exists'.mp fun hnone => ?_
      have hnil := List.getLast?_eq_none_iff.mp hnone
      exact List.ne_nil_of_mem (List.mem_filter.mpr ⟨hp, decide_eq_true rfl⟩) hnil
    obtain ⟨hmem, hname⟩ := lastOf_name hq
    rw [hq, List.inj_on_of_nodup_map hnodup hmem hp hname]
  have hsame : ∀ u ∈ a.upgrades, a.isUpgrade u = true ↔ ∃ i ∈ a.installed, i.name = u.name := by
    intro u hu
    simp only [Answer.isUpgrade, List.any_eq_true, Bool.and_eq_true, decide_eq_true_iff,
      bne_iff_ne]
    refine exists_congr fun i => and_congr_right fun hi => ⟨fun h => h.1.1, fun hname => ?_⟩
    exact ⟨⟨hname, (harch u hu i hi hname).1⟩, (harch u hu i hi hname).2⟩
  refine ⟨fun u hu hmoves => ⟨hlast hupgrades u hu, ?_⟩, fun name u i hu hi _ => ?_⟩
  · obtain ⟨i, hi, hname⟩ := (hsame u hu).mp hmoves
    refine ⟨i, hname ▸ hlast hinstalled i hi, hi, hname, (harch u hu i hi hname).1, ?_⟩
    intro j hj hjname _
    rw [List.inj_on_of_nodup_map hinstalled hj hi (hjname.trans hname.symm)]
    exact hrefl i.evr
  · obtain ⟨hmem, hname⟩ := lastOf_name hu
    obtain ⟨hinstalled, hiname⟩ := lastOf_name hi
    exact (hsame u hmem).mpr ⟨i, hinstalled, hiname.trans hname.symm⟩

/-- A library that is installed for two architectures. -/
def glibc (evr arch : List Char) (hevr : ∀ c ∈ evr, isTagChar c = true) (hbuilt : arch ≠ [])
    (harch : ∀ c ∈ arch, isTagChar c = true ∧ c ≠ '.') : Package where
  name := "glibc".toList
  evr := evr
  arch := arch
  named := by decide
  built := hbuilt
  name_chars := List.all_iff_forall_prop.mp (by decide)
  evr_chars := hevr
  arch_chars := harch

def SMALL (evr : List Char) (h : ∀ c ∈ evr, isTagChar c = true) : Package :=
  glibc evr "i686".toList h (by decide) (List.all_iff_forall_prop.mp (by decide))

theorem wide_ne_nil : "x86_64".toList ≠ [] := by decide

theorem isTagChar_wide : ∀ c ∈ "x86_64".toList, isTagChar c = true ∧ c ≠ '.' :=
  List.all_iff_forall_prop.mp (by decide)

def WIDE (evr : List Char) (h : ∀ c ∈ evr, isTagChar c = true) : Package :=
  glibc evr "x86_64".toList h wide_ne_nil isTagChar_wide

theorem isTagChar_newer : ∀ c ∈ "2.43-2".toList, isTagChar c = true :=
  List.all_iff_forall_prop.mp (by decide)

theorem isTagChar_older : ∀ c ∈ "2.43-1".toList, isTagChar c = true :=
  List.all_iff_forall_prop.mp (by decide)

def MULTILIB : Answer where
  upgrades := [SMALL "2.43-2".toList isTagChar_newer, WIDE "2.43-2".toList isTagChar_newer]
  flagged := fun i =>
    if i = 0 then [SMALL "2.43-2".toList isTagChar_newer, WIDE "2.43-2".toList isTagChar_newer] else []
  installed := [SMALL "2.43-1".toList isTagChar_older, WIDE "2.43-1".toList isTagChar_older]

/-- Of a critical upgrade for two architectures, one move is reported. -/
theorem not_reports_multilib : (parse MULTILIB.output).length = 1 ∧
    MULTILIB.flaggedUpgrades.length = 2 ∧ ∀ le, ¬Reports le MULTILIB := by
  refine ⟨by decide +kernel, by decide +kernel, fun le h => ?_⟩
  have hlast := (h.last (SMALL "2.43-2".toList isTagChar_newer) List.mem_cons_self (by decide)).1
  exact absurd hlast (by decide)

end Kuma.Updates
