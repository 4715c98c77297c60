import Kuma.BootEntries.Titles
import Kuma.Lib.Register

/-! A pass over all boot entries: the titles that disagree are listed once, then written entry
by entry, and a write that fails stops none of the others. -/
namespace Kuma.BootEntries
open Kuma.Lib Kuma.Lib.Text

/-- The entry files by path, in the order of their names. -/
abbrev Files := Register String (List Char)

/-- A directory has each name once. -/
structure Entries where
  files : Files
  distinct : (files.map Prod.fst).Nodup

structure Retitle where
  entry : String
  fromTitle : List Char
  toTitle : List Char
  deriving DecidableEq

/-- What disagrees in one entry. -/
def disagreement (sysroot : Sysroot) (entry : String) (body : List Char) : Option Retitle :=
  (wanted sysroot body).bind fun w => if w.1 = w.2 then none else some ⟨entry, w.1, w.2⟩

def stale (sysroot : Sysroot) (files : Files) : List Retitle :=
  files.filterMap fun file => disagreement sysroot file.1 file.2

/-- What a pass has done: the files, what moved, and the first entry that could not be
written. -/
structure Pass where
  files : Files
  moved : List Retitle
  failed : Option String

/-- One write, where the ones to some entries fail. -/
def passStep (fails : String → Bool) (pass : Pass) (retitle : Retitle) : Pass :=
  match if fails retitle.entry then none else pass.files.lookup retitle.entry with
  | some body =>
    { pass with
      files := pass.files.assign retitle.entry (writeTitle body retitle.toTitle)
      moved := pass.moved ++ [retitle] }
  | none => { pass with failed := pass.failed.or (some retitle.entry) }

/-- `apply`: the files it leaves, and its answer. -/
def apply (sysroot : Sysroot) (fails : String → Bool) (files : Files) :
    Files × Except String (List Retitle) :=
  let pass := (stale sysroot files).foldl (passStep fails) ⟨files, [], none⟩
  (pass.files, match pass.failed with | some entry => .error entry | none => .ok pass.moved)

/-- What a pass makes of one entry that it can write. -/
def retitled (sysroot : Sysroot) (entry : String) (body : List Char) : List Char :=
  match disagreement sysroot entry body with
  | some retitle => writeTitle body retitle.toTitle
  | none => body

variable {sysroot : Sysroot} {fails : String → Bool} {files : Files} {pass : Pass}
  {entry : String} {body current title : List Char} {retitle : Retitle}

theorem entry_disagreement (h : disagreement sysroot entry body = some retitle) :
    retitle.entry = entry := by
  obtain ⟨w, -, hw⟩ := Option.bind_eq_some_iff.mp h
  split_ifs at hw
  cases hw
  rfl

theorem disagreement_eq_some (h : wanted sysroot body = some (current, title))
    (hne : current ≠ title) :
    disagreement sysroot entry body = some ⟨entry, current, title⟩ := by
  unfold disagreement
  rw [h, Option.bind_some, if_neg hne]

theorem disagreement_eq_none_iff :
    disagreement sysroot entry body = none ↔
      ∀ current title, wanted sysroot body = some (current, title) → current = title := by
  unfold disagreement
  rw [Option.bind_eq_none_iff]
  constructor
  · intro h current title hwanted
    by_contra hne
    have hnone := h (current, title) hwanted
    rw [if_neg hne] at hnone
    cases hnone
  · rintro h ⟨current, title⟩ hwanted
    rw [if_pos (h current title hwanted)]

/-- In a directory the entry that is found for a path is the one the path has. -/
theorem find_stale (h : (files.map Prod.fst).Nodup) (entry : String) :
    (stale sysroot files).find? (fun retitle => retitle.entry = entry) =
      (files.lookup entry).bind (disagreement sysroot entry) := by
  induction files with
  | nil => rfl
  | cons file files ih =>
    rw [List.map_cons, List.nodup_cons] at h
    have hrest := ih h.2
    unfold stale at hrest ⊢
    rw [List.filterMap_cons, Register.lookup_cons]
    by_cases hfile : file.1 = entry
    · have hnone : files.lookup entry = none := by
        rw [List.lookup_eq_none_iff]
        intro other hother
        have hne : entry ≠ other.1 := by
          rintro rfl
          exact h.1 (hfile ▸ List.mem_map_of_mem hother)
        simpa using hne
      rw [if_pos hfile, Option.bind_some, ← hfile]
      cases hdis : disagreement sysroot file.1 file.2 with
      | none =>
        simp only
        rw [hfile, hrest, hnone]
        rfl
      | some retitle =>
        simp only
        rw [List.find?_cons_of_pos]
        simpa using entry_disagreement hdis
    · rw [if_neg hfile]
      cases hdis : disagreement sysroot file.1 file.2 with
      | none => exact hrest
      | some retitle =>
        simp only
        rw [List.find?_cons_of_neg, hrest]
        rw [entry_disagreement hdis]
        simpa using hfile

theorem entries_stale_sublist (sysroot : Sysroot) (files : Files) :
    ((stale sysroot files).map Retitle.entry).Sublist (files.map Prod.fst) := by
  induction files with
  | nil => exact List.Sublist.refl []
  | cons file files ih =>
    unfold stale at ih ⊢
    rw [List.filterMap_cons, List.map_cons]
    cases hdis : disagreement sysroot file.1 file.2 with
    | none => exact ih.cons file.1
    | some retitle =>
      simp only [List.map_cons]
      rw [entry_disagreement hdis]
      exact ih.cons_cons file.1

/-! ### A pass, entry by entry -/

theorem lookup_passStep_of_ne (h : entry ≠ retitle.entry) :
    (passStep fails pass retitle).files.lookup entry = pass.files.lookup entry := by
  unfold passStep
  split
  · exact Register.lookup_assign_of_ne h
  · rfl

theorem lookup_passStep_self :
    (passStep fails pass retitle).files.lookup retitle.entry =
      (pass.files.lookup retitle.entry).map fun body =>
        if fails retitle.entry then body else writeTitle body retitle.toTitle := by
  unfold passStep
  cases hfails : fails retitle.entry with
  | true => simp
  | false =>
    cases hbody : pass.files.lookup retitle.entry with
    | none => simp [hbody]
    | some body => simp [hbody]

/-- The writes of a list of distinct entries, each on its own. -/
theorem lookup_foldl_passStep (retitles : List Retitle) (pass : Pass)
    (h : (retitles.map Retitle.entry).Nodup) (entry : String) :
    (retitles.foldl (passStep fails) pass).files.lookup entry =
      match retitles.find? fun retitle => retitle.entry = entry with
      | none => pass.files.lookup entry
      | some retitle => (pass.files.lookup entry).map fun body =>
          if fails entry then body else writeTitle body retitle.toTitle := by
  induction retitles generalizing pass with
  | nil => rfl
  | cons retitle retitles ih =>
    rw [List.map_cons, List.nodup_cons] at h
    rw [List.foldl_cons, ih _ h.2]
    by_cases hentry : retitle.entry = entry
    · have hnone : retitles.find? (fun retitle => retitle.entry = entry) = none := by
        rw [List.find?_eq_none]
        intro other hother
        have hne : other.entry ≠ entry := by
          intro hsame
          exact h.1 (hentry ▸ hsame ▸ List.mem_map_of_mem hother)
        simpa using hne
      have hfound : (retitle :: retitles).find? (fun retitle => retitle.entry = entry) =
          some retitle := List.find?_cons_of_pos (by simpa using hentry)
      rw [hnone, hfound, ← hentry]
      exact lookup_passStep_self
    · have hskip : (retitle :: retitles).find? (fun retitle => retitle.entry = entry) =
          retitles.find? (fun retitle => retitle.entry = entry) :=
        List.find?_cons_of_neg (by simpa using hentry)
      rw [hskip, lookup_passStep_of_ne (Ne.symm hentry)]

/-- Each entry is rewritten by what it says itself, or is left where its write fails. -/
theorem lookup_apply (h : (files.map Prod.fst).Nodup) (entry : String) :
    (apply sysroot fails files).1.lookup entry =
      (files.lookup entry).map fun body =>
        if fails entry then body else retitled sysroot entry body := by
  have hpass : (apply sysroot fails files).1 =
      ((stale sysroot files).foldl (passStep fails) ⟨files, [], none⟩).files := rfl
  have hdistinct := h.sublist (entries_stale_sublist sysroot files)
  rw [hpass, lookup_foldl_passStep _ _ hdistinct, find_stale h]
  unfold retitled
  cases hbody : files.lookup entry with
  | none => rfl
  | some body =>
    cases hdis : disagreement sysroot entry body with
    | none => simp [hdis]
    | some retitle => simp [hdis]

theorem keys_apply (sysroot : Sysroot) (fails : String → Bool) (files : Files) :
    (apply sysroot fails files).1.map Prod.fst = files.map Prod.fst := by
  have hfold : ∀ (retitles : List Retitle) (pass : Pass),
      (retitles.foldl (passStep fails) pass).files.map Prod.fst = pass.files.map Prod.fst := by
    intro retitles
    induction retitles with
    | nil => exact fun _ => rfl
    | cons retitle retitles ih =>
      intro pass
      rw [List.foldl_cons, ih]
      unfold passStep
      split
      · exact Register.keys_assign
      · rfl
  exact hfold _ _

theorem mem_iff_lookup (h : (files.map Prod.fst).Nodup) :
    (entry, body) ∈ files ↔ files.lookup entry = some body := by
  constructor
  · intro hmem
    induction files with
    | nil => cases hmem
    | cons file files ih =>
      rw [List.map_cons, List.nodup_cons] at h
      rw [Register.lookup_cons]
      rcases List.mem_cons.mp hmem with rfl | hmem
      · exact if_pos rfl
      · have hne : ¬ file.1 = entry := by
          intro hsame
          have hkey : entry ∈ files.map Prod.fst := List.mem_map.mpr ⟨_, hmem, rfl⟩
          exact h.1 (hsame ▸ hkey)
        rw [if_neg hne]
        exact ih h.2 hmem
  · exact Register.mem_of_lookup

theorem stale_eq_nil_iff (h : (files.map Prod.fst).Nodup) :
    stale sysroot files = [] ↔
      ∀ entry body, files.lookup entry = some body → disagreement sysroot entry body = none := by
  unfold stale
  rw [List.filterMap_eq_nil_iff]
  constructor
  · intro hnone entry body hbody
    exact hnone _ ((mem_iff_lookup h).mpr hbody)
  · rintro hnone ⟨entry, body⟩ hmem
    exact hnone entry body ((mem_iff_lookup h).mp hmem)

/-! ### What a pass answers -/

/-- A pass fails on nothing when no entry that it has to write fails. -/
theorem failed_foldl_passStep (fails : String → Bool) (retitles : List Retitle) (pass : Pass)
    (h : ∀ retitle ∈ retitles, (pass.files.lookup retitle.entry).isSome) :
    (retitles.foldl (passStep fails) pass).failed = none ↔
      pass.failed = none ∧ ∀ retitle ∈ retitles, fails retitle.entry = false := by
  induction retitles generalizing pass with
  | nil => simp
  | cons retitle retitles ih =>
    have hkeep : ∀ entry, ((passStep fails pass retitle).files.lookup entry).isSome =
        (pass.files.lookup entry).isSome := by
      intro entry
      by_cases hentry : entry = retitle.entry
      · rw [hentry, lookup_passStep_self, Option.isSome_map]
      · rw [lookup_passStep_of_ne hentry]
    obtain ⟨body, hbody⟩ := Option.isSome_iff_exists.mp (h retitle List.mem_cons_self)
    rw [List.foldl_cons, ih, List.forall_mem_cons, ← and_assoc]
    · apply and_congr_left'
      unfold passStep
      cases hfails : fails retitle.entry with
      | true => simp
      | false => simp [hbody]
    · intro other hother
      rw [hkeep]
      exact h other (List.mem_cons_of_mem _ hother)

theorem moved_foldl_passStep (fails : String → Bool) (retitles : List Retitle) (pass : Pass)
    (h : ∀ retitle ∈ retitles,
      (pass.files.lookup retitle.entry).isSome ∧ fails retitle.entry = false) :
    (retitles.foldl (passStep fails) pass).moved = pass.moved ++ retitles := by
  induction retitles generalizing pass with
  | nil => simp
  | cons retitle retitles ih =>
    obtain ⟨hsome, hworks⟩ := h retitle List.mem_cons_self
    obtain ⟨body, hbody⟩ := Option.isSome_iff_exists.mp hsome
    have hstep : passStep fails pass retitle =
        { pass with
          files := pass.files.assign retitle.entry (writeTitle body retitle.toTitle)
          moved := pass.moved ++ [retitle] } := by
      unfold passStep
      simp [hworks, hbody]
    rw [List.foldl_cons, ih, hstep, List.append_assoc, List.singleton_append]
    intro other hother
    obtain ⟨hsome, hworks⟩ := h other (List.mem_cons_of_mem _ hother)
    refine ⟨?_, hworks⟩
    by_cases hentry : other.entry = retitle.entry
    · rw [hentry, lookup_passStep_self, hbody]
      rfl
    · rw [lookup_passStep_of_ne hentry]
      exact hsome

theorem mem_stale_iff (h : (files.map Prod.fst).Nodup) :
    retitle ∈ stale sysroot files ↔ ∃ body, files.lookup retitle.entry = some body ∧
      disagreement sysroot retitle.entry body = some retitle := by
  unfold stale
  rw [List.mem_filterMap]
  constructor
  · rintro ⟨⟨entry, body⟩, hmem, hdis⟩
    obtain rfl := entry_disagreement hdis
    exact ⟨body, (mem_iff_lookup h).mp hmem, hdis⟩
  · rintro ⟨body, hbody, hdis⟩
    exact ⟨_, (mem_iff_lookup h).mpr hbody, hdis⟩

/-- A pass succeeds when it can write all that is stale, and then that is what moved. -/
theorem apply_ok_iff {moved : List Retitle} (h : (files.map Prod.fst).Nodup) :
    (apply sysroot fails files).2 = .ok moved ↔
      moved = stale sysroot files ∧
        ∀ retitle ∈ stale sysroot files, fails retitle.entry = false := by
  have hsome : ∀ retitle ∈ stale sysroot files, (files.lookup retitle.entry).isSome := by
    intro retitle hretitle
    obtain ⟨body, hbody, -⟩ := (mem_stale_iff h).mp hretitle
    rw [hbody]
    rfl
  have hfailed := failed_foldl_passStep fails _ ⟨files, [], none⟩ hsome
  simp only [true_and] at hfailed
  unfold apply
  simp only
  constructor
  · intro hok
    have hnone : ((stale sysroot files).foldl (passStep fails) ⟨files, [], none⟩).failed =
        none := by
      split at hok
      · cases hok
      · assumption
    have hworks := hfailed.mp hnone
    have hmoved := moved_foldl_passStep fails _ ⟨files, [], none⟩ fun retitle hretitle =>
      ⟨hsome retitle hretitle, hworks retitle hretitle⟩
    rw [hnone, hmoved] at hok
    exact ⟨(Except.ok.inj hok).symm, hworks⟩
  · rintro ⟨rfl, hworks⟩
    have hmoved := moved_foldl_passStep fails _ ⟨files, [], none⟩ fun retitle hretitle =>
      ⟨hsome retitle hretitle, hworks retitle hretitle⟩
    rw [hfailed.mpr hworks, hmoved]
    rfl

/-! ### Titles that converge -/

/-- What a pass is for: once it succeeds nothing is stale and a second one moves nothing, it
writes titles alone, each the name of the entry's own deployment with the slot where there was
one, it leaves what is no deployment's entry, and what it cannot write stops nothing else. -/
structure TitlesConverge (sysroot : Sysroot) (files : Files) : Prop where
  settles : ∀ fails moved, (apply sysroot fails files).2 = .ok moved →
    stale sysroot (apply sysroot fails files).1 = []
  still : ∀ fails moved, (apply sysroot fails files).2 = .ok moved →
    ∀ fails', apply sysroot fails' (apply sysroot fails files).1 =
      ((apply sysroot fails files).1, .ok [])
  onlyTitle : ∀ fails, ∀ retitle ∈ stale sysroot files, fails retitle.entry = false →
    ∃ body body', files.lookup retitle.entry = some body ∧
      (apply sysroot fails files).1.lookup retitle.entry = some body' ∧
      OnlyTitle body body' retitle.toTitle
  named : ∀ retitle ∈ stale sysroot files, ∃ body options karg pretty,
    files.lookup retitle.entry = some body ∧ field body TITLE = some retitle.fromTitle ∧
    field body OPTIONS = some options ∧ ostreeKarg options = some karg ∧
    deploymentName sysroot karg = some pretty ∧
    if (suffixIndex retitle.fromTitle).isSome then
      ∃ index, kargIndex karg = some index ∧ retitle.toTitle = withSlot pretty index
    else retitle.toTitle = pretty
  untouched : ∀ fails entry body, files.lookup entry = some body →
    (field body OPTIONS).bind ostreeKarg = none →
    (∀ retitle ∈ stale sysroot files, retitle.entry ≠ entry) ∧
      (apply sysroot fails files).1.lookup entry = some body
  others : ∀ fails entry, fails entry = false →
    (apply sysroot fails files).1.lookup entry =
      (apply sysroot (fun _ => false) files).1.lookup entry

/-- An entry that a rewriting gets right: what is written of its title reads as it was meant,
and its other lines are as a rewriting leaves them. -/
def Settled (sysroot : Sysroot) (body : List Char) : Prop :=
  ∀ current options karg pretty title, field body TITLE = some current →
    field body OPTIONS = some options → ostreeKarg options = some karg →
    deploymentName sysroot karg = some pretty → titleFor karg pretty current = some title →
    current ≠ title → ReadsBack karg pretty current ∧ OthersKept body title

theorem disagreement_eq_some_iff :
    disagreement sysroot entry body = some retitle ↔ retitle.entry = entry ∧
      wanted sysroot body = some (retitle.fromTitle, retitle.toTitle) ∧
      retitle.fromTitle ≠ retitle.toTitle := by
  constructor
  · intro h
    have hentry := entry_disagreement h
    obtain ⟨w, hwanted, hw⟩ := Option.bind_eq_some_iff.mp h
    split_ifs at hw with hne
    obtain rfl := Option.some.inj hw
    exact ⟨hentry, hwanted, hne⟩
  · rintro ⟨rfl, hwanted, hne⟩
    exact disagreement_eq_some hwanted hne

/-- An entry agrees after its rewriting when what is written reads as it was meant. -/
theorem disagreement_retitled {options karg pretty : List Char}
    (hcurrent : field body TITLE = some current) (hoptions : field body OPTIONS = some options)
    (hkarg : ostreeKarg options = some karg) (hpretty : deploymentName sysroot karg = some pretty)
    (htitle : titleFor karg pretty current = some title) (hne : current ≠ title) :
    disagreement sysroot entry (retitled sysroot entry body) = none ↔
      ReadsBack karg pretty current := by
  have hwanted : wanted sysroot body = some (current, title) :=
    wanted_eq_some.mpr ⟨options, karg, pretty, hcurrent, hoptions, hkarg, hpretty, htitle⟩
  have hbody : retitled sysroot entry body = writeTitle body title := by
    unfold retitled
    rw [disagreement_eq_some hwanted hne]
  rw [hbody, disagreement_eq_none_iff,
    wanted_writeTitle hcurrent hoptions hkarg hpretty htitle,
    ← readsBack_iff (deploymentName_spec hpretty).1 htitle]
  constructor
  · intro hall again hagain
    exact hall (trim title) again (by rw [hagain, Option.map_some])
  · intro hall current' again hread
    obtain ⟨again', hagain, hpair⟩ := Option.map_eq_some_iff.mp hread
    cases hpair
    exact hall again hagain

theorem retitled_eq_self (h : disagreement sysroot entry body = none) :
    retitled sysroot entry body = body := by
  unfold retitled
  rw [h]

/-- What a pass that succeeds leaves in an entry. -/
theorem lookup_apply_of_ok {moved : List Retitle} (h : (files.map Prod.fst).Nodup)
    (hok : (apply sysroot fails files).2 = .ok moved) (entry : String) :
    (apply sysroot fails files).1.lookup entry =
      (files.lookup entry).map (retitled sysroot entry) := by
  rw [lookup_apply h]
  cases hbody : files.lookup entry with
  | none => rfl
  | some body =>
    cases hdis : disagreement sysroot entry body with
    | none => simp [retitled_eq_self hdis]
    | some retitle =>
      obtain rfl := entry_disagreement hdis
      have hworks := ((apply_ok_iff h).mp hok).2 retitle ((mem_stale_iff h).mpr ⟨body, hbody, hdis⟩)
      simp [hworks]

theorem apply_of_stale_nil (h : stale sysroot files = []) :
    apply sysroot fails files = (files, .ok []) := by
  unfold apply
  rw [h]
  rfl

theorem mem_stale_of_wanted (h : (files.map Prod.fst).Nodup)
    (hbody : files.lookup entry = some body) (hwanted : wanted sysroot body = some (current, title))
    (hne : current ≠ title) : ⟨entry, current, title⟩ ∈ stale sysroot files :=
  (mem_stale_iff h).mpr ⟨body, hbody, disagreement_eq_some hwanted hne⟩

/-- A stale entry and what a pass that can write it makes of it. -/
theorem lookup_apply_stale (fails : String → Bool) (h : (files.map Prod.fst).Nodup)
    (hretitle : retitle ∈ stale sysroot files) (hworks : fails retitle.entry = false) :
    ∃ body, files.lookup retitle.entry = some body ∧
      wanted sysroot body = some (retitle.fromTitle, retitle.toTitle) ∧
      (apply sysroot fails files).1.lookup retitle.entry =
        some (writeTitle body retitle.toTitle) := by
  obtain ⟨body, hbody, hdis⟩ := (mem_stale_iff h).mp hretitle
  refine ⟨body, hbody, (disagreement_eq_some_iff.mp hdis).2.1, ?_⟩
  rw [lookup_apply h, hbody, Option.map_some, hworks, if_neg Bool.false_ne_true]
  unfold retitled
  rw [hdis]

theorem settled_of_converge (h : (files.map Prod.fst).Nodup)
    (hconverge : TitlesConverge sysroot files) (hbody : files.lookup entry = some body) :
    Settled sysroot body := by
  intro current options karg pretty title hcurrent hoptions hkarg hpretty htitle hne
  have hwanted : wanted sysroot body = some (current, title) :=
    wanted_eq_some.mpr ⟨options, karg, pretty, hcurrent, hoptions, hkarg, hpretty, htitle⟩
  have hstale := mem_stale_of_wanted h hbody hwanted hne
  constructor
  · have hok : (apply sysroot (fun _ => false) files).2 = .ok (stale sysroot files) :=
      (apply_ok_iff h).mpr ⟨rfl, fun _ _ => rfl⟩
    have hnone := hconverge.settles _ _ hok
    rw [stale_eq_nil_iff (by rw [keys_apply]; exact h)] at hnone
    have hafter := lookup_apply_of_ok h hok entry
    rw [hbody, Option.map_some] at hafter
    exact (disagreement_retitled hcurrent hoptions hkarg hpretty htitle hne).mp
      (hnone entry _ hafter)
  · obtain ⟨body₁, body', hbody₁, hbody', honly⟩ :=
      hconverge.onlyTitle (fun _ => false) _ hstale rfl
    obtain ⟨body₂, hbody₂, -, hafter⟩ := lookup_apply_stale (fun _ => false) h hstale rfl
    simp only at hbody₁ hbody₂ hafter hbody'
    rw [hbody] at hbody₁ hbody₂
    cases hbody₁
    cases hbody₂
    rw [hafter] at hbody'
    cases hbody'
    have hline := newline_notMem_titleFor (deploymentName_spec hpretty).2 htitle
    exact (onlyTitle_writeTitle_iff hline).mp honly

/-- Once a pass succeeds nothing is stale, where every stale entry reads back. -/
theorem stale_apply {moved : List Retitle} (h : (files.map Prod.fst).Nodup)
    (hsettled : ∀ entry body, files.lookup entry = some body → Settled sysroot body)
    (hok : (apply sysroot fails files).2 = .ok moved) :
    stale sysroot (apply sysroot fails files).1 = [] := by
  rw [stale_eq_nil_iff (by rw [keys_apply]; exact h)]
  intro entry body' hafter
  rw [lookup_apply_of_ok h hok] at hafter
  obtain ⟨body, hbody, rfl⟩ := Option.map_eq_some_iff.mp hafter
  cases hdis : disagreement sysroot entry body with
  | none =>
    rw [retitled_eq_self hdis]
    exact hdis
  | some retitle =>
    obtain ⟨-, hwanted, hne⟩ := disagreement_eq_some_iff.mp hdis
    obtain ⟨options, karg, pretty, hcurrent, hoptions, hkarg, hpretty, htitle⟩ :=
      wanted_eq_some.mp hwanted
    exact (disagreement_retitled hcurrent hoptions hkarg hpretty htitle hne).mpr
      (hsettled entry body hbody _ _ _ _ _ hcurrent hoptions hkarg hpretty htitle hne).1

/-- A title that is written is the deployment's name, with the slot where there was one. -/
theorem title_of_titleFor {karg pretty : List Char}
    (h : titleFor karg pretty current = some title) :
    if (suffixIndex current).isSome then
      ∃ index, kargIndex karg = some index ∧ title = withSlot pretty index
    else title = pretty := by
  unfold titleFor at h
  cases hsuffix : suffixIndex current with
  | some slot =>
    simp only [hsuffix] at h
    obtain ⟨index, hindex, hslot⟩ := Option.map_eq_some_iff.mp h
    simpa using ⟨index, hindex, hslot.symm⟩
  | none =>
    simp only [hsuffix] at h
    simpa using (Option.some.inj h).symm

/-- What has no deployment has nothing to disagree with. -/
theorem disagreement_of_no_karg (sysroot : Sysroot) (entry : String)
    (h : (field body OPTIONS).bind ostreeKarg = none) :
    disagreement sysroot entry body = none := by
  rw [disagreement_eq_none_iff]
  intro current title hwanted
  obtain ⟨options, karg, pretty, -, hoptions, hkarg, -⟩ := wanted_eq_some.mp hwanted
  rw [hoptions, Option.bind_some, hkarg] at h
  cases h

theorem converge_of_settled (h : (files.map Prod.fst).Nodup)
    (hsettled : ∀ entry body, files.lookup entry = some body → Settled sysroot body) :
    TitlesConverge sysroot files := by
  refine ⟨?settles, ?still, ?onlyTitle, ?named, ?untouched, ?others⟩
  case settles =>
    intro fails moved hok
    exact stale_apply h hsettled hok
  case still =>
    intro fails moved hok fails'
    exact apply_of_stale_nil (stale_apply h hsettled hok)
  case onlyTitle =>
    intro fails retitle hretitle hworks
    obtain ⟨body, hbody, hwanted, hafter⟩ := lookup_apply_stale fails h hretitle hworks
    obtain ⟨options, karg, pretty, hcurrent, hoptions, hkarg, hpretty, htitle⟩ :=
      wanted_eq_some.mp hwanted
    obtain ⟨_, _, hdis⟩ := (mem_stale_iff h).mp hretitle
    have hne := (disagreement_eq_some_iff.mp hdis).2.2
    have hline := newline_notMem_titleFor (deploymentName_spec hpretty).2 htitle
    refine ⟨body, _, hbody, hafter, (onlyTitle_writeTitle_iff hline).mpr ?_⟩
    exact (hsettled _ body hbody _ _ _ _ _ hcurrent hoptions hkarg hpretty htitle hne).2
  case named =>
    intro retitle hretitle
    obtain ⟨body, hbody, hdis⟩ := (mem_stale_iff h).mp hretitle
    obtain ⟨options, karg, pretty, hcurrent, hoptions, hkarg, hpretty, htitle⟩ :=
      wanted_eq_some.mp (disagreement_eq_some_iff.mp hdis).2.1
    exact ⟨body, options, karg, pretty, hbody, hcurrent, hoptions, hkarg, hpretty,
      title_of_titleFor htitle⟩
  case untouched =>
    intro fails entry body hbody hnone
    have hdis := disagreement_of_no_karg sysroot entry hnone
    constructor
    · rintro retitle hretitle rfl
      obtain ⟨body₁, hbody₁, hdis₁⟩ := (mem_stale_iff h).mp hretitle
      rw [hbody] at hbody₁
      cases hbody₁
      rw [hdis] at hdis₁
      cases hdis₁
    · rw [lookup_apply h, hbody, Option.map_some, retitled_eq_self hdis, ite_self]
  case others =>
    intro fails entry hworks
    rw [lookup_apply h, lookup_apply h, hworks]

/-- Titles converge exactly where every stale entry is one that a rewriting gets right. -/
theorem converge_iff (sysroot : Sysroot) (entries : Entries) :
    TitlesConverge sysroot entries.files ↔
      ∀ entry body, entries.files.lookup entry = some body → Settled sysroot body := by
  constructor
  · intro hconverge entry body hbody
    exact settled_of_converge entries.distinct hconverge hbody
  · exact converge_of_settled entries.distinct

/-- The deployment of one slot, which calls itself by a name with a blank at its end. -/
def blankEnded : Sysroot := fun dir rel =>
  if dir = "boot/0".toList ∧ rel = "usr/lib/os-release".toList then
    some "PRETTY_NAME=\"kumaOS 12 \"\n".toList
  else none

/-- A name that ends in a blank is read back without it: the entry is stale for good. -/
theorem not_converge_blank_ended :
    ¬ TitlesConverge blankEnded
      [("a.conf", "title kumaOS 11\noptions ostree=/boot/0\n".toList)] := by
  intro hconverge
  have hstale := hconverge.settles (fun _ => false) _ rfl
  revert hstale
  repeat rw [String.toList_ofList]
  decide

end Kuma.BootEntries
