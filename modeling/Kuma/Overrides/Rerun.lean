import Kuma.Overrides.Fixpoint
import Kuma.Overrides.Ownership
import Mathlib.Data.String.Basic

/-! A run over a store that a run went through. -/
namespace Kuma.Overrides
open Kuma.Lib Kuma.Lib.Text KeyFile

namespace Owned

section
variable {app : String} {id : Chars} {owned : Owned}

theorem record_of_lt (h : ∀ entry ∈ owned, entry.1 < app) :
    record app id owned = owned ++ [(app, [id])] := by
  have hnone : ¬ owned.any (·.1 = app) = true := by
    intro hany
    obtain ⟨entry, hentry, heq⟩ := List.any_eq_true.mp hany
    exact (h entry hentry).ne (by simpa using heq)
  rw [record, if_neg hnone]
  induction owned with
  | nil => rfl
  | cons entry owned ih =>
    have hentry : ¬ app ≤ entry.1 := not_le.mpr (h entry List.mem_cons_self)
    have hrest : ∀ e ∈ owned, e.1 < app := fun e he => h e (List.mem_cons_of_mem _ he)
    rw [List.orderedInsert, if_neg hentry, ih hrest fun hany => hnone (by simp [hany])]
    rfl

theorem record_last {ids : List Chars} (h : ∀ entry ∈ owned, entry.1 < app) :
    record app id (owned ++ [(app, ids)]) = owned ++ [(app, ids ++ [id])] := by
  have hany : (owned ++ [(app, ids)]).any (·.1 = app) = true := by simp
  have hsame : (owned.map fun entry =>
      if entry.1 = app then (entry.1, entry.2 ++ [id]) else entry) = owned := by
    have hentry : ∀ entry ∈ owned,
        (if entry.1 = app then (entry.1, entry.2 ++ [id]) else entry) = entry :=
      fun entry hentry => if_neg (h entry hentry).ne
    rw [List.map_congr_left hentry, List.map_id']
  rw [record, if_pos hany, List.map_append, hsame]
  simp

/-- What is in order and has no app without keys is read as it was. -/
theorem read_write_self (hsorted : (owned.map Prod.fst).Pairwise (· < ·))
    (hkeys : ∀ entry ∈ owned, entry.2 ≠ [])
    (h : ∀ entry ∈ owned, ∀ id ∈ entry.2, Recordable entry.1 id) :
    read (write owned) = owned := by
  have happ : ∀ (app : String) (more ids : List Chars) (before : Owned),
      (∀ entry ∈ before, entry.1 < app) →
      (more.map fun id => (app, id)).foldl (fun owned pair => record pair.1 pair.2 owned)
        (before ++ [(app, ids)]) = before ++ [(app, ids ++ more)] := by
    intro app more
    induction more with
    | nil => intro ids before _; simp
    | cons id more ih =>
      intro ids before hbefore
      rw [List.map_cons, List.foldl_cons, record_last hbefore, ih _ _ hbefore,
        List.append_assoc]
      rfl
  have hall : ∀ (owned before : Owned), ((before ++ owned).map Prod.fst).Pairwise (· < ·) →
      (∀ entry ∈ owned, entry.2 ≠ []) →
      (owned.flatMap fun entry => entry.2.map fun id => (entry.1, id)).foldl
        (fun owned pair => record pair.1 pair.2 owned) before = before ++ owned := by
    intro owned
    induction owned with
    | nil => intro before _ _; simp
    | cons entry owned ih =>
      intro before hsorted hkeys
      obtain ⟨app, ids⟩ := entry
      have hbefore : ∀ entry ∈ before, entry.1 < app := by
        intro entry hentry
        rw [List.map_append, List.pairwise_append] at hsorted
        exact hsorted.2.2 _ (List.mem_map_of_mem hentry) _ List.mem_cons_self
      obtain ⟨id, more, hids⟩ := List.exists_cons_of_ne_nil (hkeys _ List.mem_cons_self)
      dsimp only at hids
      subst hids
      have hnext : ((before ++ [(app, id :: more)] ++ owned).map Prod.fst).Pairwise (· < ·) := by
        simpa using hsorted
      have hrest : ∀ e ∈ owned, e.2 ≠ [] := fun e he => hkeys e (List.mem_cons_of_mem _ he)
      rw [List.flatMap_cons, List.foldl_append, List.map_cons, List.foldl_cons,
        record_of_lt hbefore, happ app more [id] before hbefore, List.singleton_append,
        ih _ hnext hrest, List.append_assoc]
      rfl
  rw [read_write h, hall owned [] hsorted hkeys, List.nil_append]

end
end Owned

namespace Store

/-- A file that holds what a run made of it. -/
def Holds (out : Chars) (content : Option Bytes) : Prop :=
  (content.bind Bytes.readToString).getD [] = out ∧ (out = [] → content = none)

/-- What holds between two turns: the apps that had theirs have what the run made of them. -/
structure Turning (s₀ : Store) (rest : List String) (s : Store) : Prop where
  frame : s = { s₀ with files := s.files, wrote := s.wrote }
  nodup : rest.Nodup
  waiting : ∀ app ∈ rest, s.files app = s₀.files app
  turned : ∀ app ∈ s₀.apps, app ∉ rest →
    Holds (s₀.converged s₀.readState app).1 (s.files app)

section
variable {s₀ s : Store} {app : String} {r r' : Attempt}

/-- One app's turn, if it succeeds. -/
theorem wp_convergeApp_holds {previous : Owned} {Q : Store → Prop}
    (hidle : Holds (s.converged previous app).1 (s.files app) → Q s)
    (hput : ∀ content set, Holds (s.converged previous app).1 content →
      Q (s.put app content set)) :
    (convergeApp r previous app).wp (fun _ => True) Q (fun _ => True) s := by
  rw [convergeApp, Script.wp]
  dsimp only
  by_cases hempty : (s.converged previous app).1 = []
  · rw [if_pos hempty]
    by_cases hthere : (s.files app).isSome = true
    · rw [if_pos hthere, Script.wp]
      refine ⟨trivial, ?_⟩
      cases r.remove app with
      | true => exact hput none [] ⟨hempty.symm, fun _ => rfl⟩
      | false => exact trivial
    · rw [if_neg hthere, Script.wp]
      have hfile : s.files app = none := by simpa using hthere
      apply hidle
      rw [hfile, hempty]
      exact ⟨rfl, fun _ => rfl⟩
  · rw [if_neg hempty]
    by_cases hdiffers :
        (s.converged previous app).1 ≠ ((s.files app).bind Bytes.readToString).getD []
    · rw [if_pos hdiffers, Script.wp]
      refine ⟨trivial, ?_⟩
      cases r.write app with
      | refused => exact trivial
      | torn n bytes => exact trivial
      | whole =>
        apply hput
        refine ⟨?_, fun hnone => absurd hnone hempty⟩
        rw [Option.bind_some, Bytes.readToString_ofText, Option.getD_some]
    · rw [if_neg hdiffers, Script.wp]
      apply hidle
      exact ⟨(not_not.mp hdiffers).symm, fun hnone => absurd hnone hempty⟩

theorem Turning.turn {rest : List String} (h : Turning s₀ (app :: rest) s) :
    (convergeApp r s₀.readState app).wp (fun _ => True) (Turning s₀ rest) (fun _ => True) s := by
  have hfile : s.files app = s₀.files app := h.waiting app List.mem_cons_self
  have himage : s.image = s₀.image := by rw [h.frame]
  have hconverged : s.converged s₀.readState app = s₀.converged s₀.readState app := by
    rw [converged, hfile, himage]
    rfl
  obtain ⟨hfirst, hnodup⟩ := List.nodup_cons.mp h.nodup
  apply wp_convergeApp_holds
  · intro hholds
    rw [hconverged] at hholds
    refine ⟨h.frame, hnodup, fun other hother => h.waiting other (List.mem_cons_of_mem _ hother),
      fun other hin hother => ?_⟩
    by_cases hsame : other = app
    · subst hsame
      exact hholds
    · exact h.turned other hin fun hmem => (List.mem_cons.mp hmem).elim hsame hother
  · intro content set hholds
    rw [hconverged] at hholds
    refine ⟨?_, hnodup, fun other hother => ?_, fun other hin hother => ?_⟩
    · rw [h.frame]
      rfl
    · have hne : other ≠ app := fun heq => hfirst (heq ▸ hother)
      rw [put]
      dsimp only
      rw [Function.update_of_ne hne]
      exact h.waiting other (List.mem_cons_of_mem _ hother)
    · rw [put]
      dsimp only
      by_cases hsame : other = app
      · subst hsame
        rw [Function.update_self]
        exact hholds
      · rw [Function.update_of_ne hsame]
        exact h.turned other hin fun hmem => (List.mem_cons.mp hmem).elim hsame hother

theorem sorted_apps : s.apps.Pairwise (· < ·) := by
  have hle : s.apps.Pairwise (· ≤ ·) := List.pairwise_insertionSort _ _
  exact (hle.and nodup_apps).imp fun h => lt_of_le_of_ne h.1 h.2

theorem sorted_owned : (s.owned.map Prod.fst).Pairwise (· < ·) :=
  sorted_apps.sublist owned_sublist

theorem mem_owned_iff {entry : String × List Chars} : entry ∈ s.owned ↔
    entry.2 = (s.image.wanted entry.1).map (fun e => ownedId e.1) ∧ entry.2 ≠ [] := by
  constructor
  · intro h
    obtain ⟨app, -, happ⟩ := List.mem_filterMap.mp h
    dsimp only at happ
    split_ifs at happ with hnone
    obtain rfl := Option.some.inj happ
    exact ⟨rfl, hnone⟩
  · rintro ⟨hids, hne⟩
    obtain ⟨app, ids⟩ := entry
    dsimp only at hids hne
    subst hids
    have hwanted : s.image.wanted app ≠ [] := fun hnone => hne (by rw [hnone]; rfl)
    obtain ⟨e, he⟩ := List.exists_mem_of_ne_nil _ hwanted
    have hin : app ∈ s.apps := mem_apps.mpr (.inr (Image.mem_baked_of_wanted he))
    refine List.mem_filterMap.mpr ⟨app, hin, ?_⟩
    dsimp only
    rw [if_neg hne]

/-- What kuma comes to own is the image's alone. -/
theorem owned_congr (h : s.image = s₀.image) : s.owned = s₀.owned := by
  have hnodup : ∀ s : Store, s.owned.Nodup := fun s => nodup_owned.of_map
  have hperm : s.owned.Perm s₀.owned := by
    rw [List.perm_ext_iff_of_nodup (hnodup s) (hnodup s₀)]
    intro entry
    rw [mem_owned_iff, mem_owned_iff, h]
  have hsorted : ∀ s : Store, s.owned.Pairwise (fun a b => a.1 < b.1) :=
    fun s => List.pairwise_map.mp sorted_owned
  refine hperm.eq_of_pairwise (fun a b _ _ hab hba => ?_) (hsorted s) (hsorted s₀)
  exact absurd (hab.trans hba) (lt_irrefl _)

theorem read_write_owned : Owned.read s.owned.write = s.owned := by
  apply Owned.read_write_self sorted_owned
  · exact fun entry hentry => (mem_owned_iff.mp hentry).2
  · intro entry hentry id hid
    rw [mem_owned hentry] at hid
    obtain ⟨e, he, rfl⟩ := List.mem_map.mp hid
    exact Image.wanted_recordable he

/-- A store that a run went through. -/
structure Through (s₀ s : Store) : Prop where
  turning : Turning s₀ [] { s with state := s₀.state }
  state : s.readState = s₀.owned

theorem wp_convergeStore_through :
    (convergeStore r).wp (fun _ => True) (Through s₀) (fun _ => True) s₀ := by
  have hstart : Turning s₀ s₀.apps s₀ :=
    ⟨rfl, nodup_apps, fun _ _ => rfl, fun app hin hout => absurd hin hout⟩
  rw [convergeStore, Script.wp, Script.wp]
  refine Script.wp_mono (fun s hs => ?_) (fun _ => id)
    (Script.wp_each (fun app rest s hs => hs.turn) hstart)
  have hstate : s.state = s₀.state := by rw [hs.frame]
  have hsame : { s with state := s₀.state } = s := by rw [← hstate]
  split_ifs with hmoved
  · rw [writeState, Script.wp]
    refine ⟨trivial, ?_⟩
    cases r.state with
    | refused => exact trivial
    | torn n bytes => exact trivial
    | whole =>
      refine ⟨by rwa [hsame], ?_⟩
      rw [readState, Option.bind_some, Bytes.readToString_ofText, Option.map_some,
        Option.getD_some, read_write_owned]
  · rw [Script.wp]
    refine ⟨by rwa [hsame], ?_⟩
    have hread : s.readState = s₀.readState := by rw [readState, hstate]; rfl
    rw [hread, not_not.mp hmoved]

theorem Through.image (h : Through s₀ s) : s.image = s₀.image := by
  simpa using congrArg Store.image h.turning.frame

theorem Through.apps (h : Through s₀ s) (happ : app ∈ s.apps) : app ∈ s₀.apps := by
  rcases mem_apps.mp happ with hstate | hbaked
  · rw [h.state] at hstate
    exact owned_sublist.subset hstate
  · rw [h.image] at hbaked
    exact mem_apps.mpr (.inr hbaked)

/-- What a run makes of an app that a run went through. -/
theorem Through.converged (h : Through s₀ s) (happ : app ∈ s.apps)
    (hreturn : '\r' ∉ ((s₀.files app).bind Bytes.readToString).getD [])
    (hdistinct : ((s₀.image.wanted app).map Prod.fst).Nodup) :
    Holds (s.converged s.readState app).1 (s.files app) ∧
      (s.converged s.readState app).2.1 = ⟨[], []⟩ := by
  have hholds : Holds (s₀.converged s₀.readState app).1 (s.files app) :=
    h.turning.turned app (h.apps happ) List.not_mem_nil
  have hids : s.readState.ids app = (s₀.converged s₀.readState app).2.2 := by
    rw [h.state, ids_owned]
    rfl
  have hagain : s.converged s.readState app =
      ((s₀.converged s₀.readState app).1, ⟨[], []⟩, (s₀.converged s₀.readState app).2.2) := by
    rw [Store.converged, hholds.1, h.image, hids]
    apply converge_converge hreturn hdistinct
    intro entry hentry
    have hwritable := Image.wanted_writable entry hentry
    exact ⟨hwritable.2.1, hwritable.2.2⟩
  rw [hagain]
  exact ⟨hholds, rfl⟩

/-- A run over what a run left runs no command and reports nothing. -/
theorem Through.idle (h : Through s₀ s)
    (hreturn : ∀ app ∈ s₀.apps, '\r' ∉ ((s₀.files app).bind Bytes.readToString).getD [])
    (hdistinct : ∀ app ∈ s₀.apps, ((s₀.image.wanted app).map Prod.fst).Nodup) :
    (convergeStore r').exec s = ([], true) ∧ s.report = [] := by
  have howned : s.owned = s.readState := by rw [h.state, owned_congr h.image]
  have hconverged : ∀ app ∈ s.apps, Holds (s.converged s.readState app).1 (s.files app) ∧
      (s.converged s.readState app).2.1 = ⟨[], []⟩ := by
    intro app happ
    have hin := h.apps happ
    exact h.converged happ (hreturn app hin) (hdistinct app hin)
  have hturn : ∀ app ∈ s.apps, (convergeApp r' s.readState app).exec s = ([], true) := by
    intro app happ
    obtain ⟨⟨hlive, hnone⟩, -⟩ := hconverged app happ
    rw [convergeApp, Script.exec]
    dsimp only
    by_cases hempty : (s.converged s.readState app).1 = []
    · rw [if_pos hempty, hnone hempty]
      rfl
    · rw [if_neg hempty, if_neg (not_not.mpr hlive.symm)]
      rfl
  constructor
  · have hloop : (Script.each (convergeApp r' s.readState) s.apps).exec s = ([], true) :=
      Script.exec_each_of_idle hturn
    have hok : ((Script.each (convergeApp r' s.readState) s.apps).exec s).2 = true := by rw [hloop]
    have hfinal : (Script.each (convergeApp r' s.readState) s.apps).final s = s := by
      rw [Script.final, hloop]
      rfl
    rw [convergeStore, Script.exec, Script.exec_seq_of_ok hok, hfinal, hloop,
      if_neg (not_not.mpr howned)]
    rfl
  · rw [report, List.filterMap_eq_nil_iff]
    intro app happ
    dsimp only
    rw [(hconverged app happ).2]
    rfl

end
end Store

/-- An entry that is read as itself once it is written, with nothing else in the file. -/
def Survives (entry : Key × Chars) : Prop :=
  entries (parse (render [⟨entry.1.1, [.pair entry.1.2 entry.2]⟩])) = [entry]

instance (entry : Key × Chars) : Decidable (Survives entry) :=
  inferInstanceAs (Decidable (_ = _))

/-- Convergence is idempotent: what it wrote it leaves as it is, and a run over a store that a
run went through writes nothing and reports nothing. -/
theorem converge_idempotent :
    (∀ (live : Chars) (wanted : List (Key × Chars)) (previously : List Chars), '\r' ∉ live →
      (wanted.map Prod.fst).Nodup → (∀ entry ∈ wanted, Survives entry) →
      converge (converge live wanted previously).1 wanted (converge live wanted previously).2.2 =
        ((converge live wanted previously).1, ⟨[], []⟩, (converge live wanted previously).2.2)) ∧
    ∀ (s : Store) (r r' : Attempt),
      (∀ app ∈ s.apps, '\r' ∉ ((s.files app).bind Bytes.readToString).getD []) →
      (∀ app ∈ s.apps, ((s.image.wanted app).map Prod.fst).Nodup) →
      ((convergeStore r).exec s).2 = true →
      (convergeStore r').exec ((convergeStore r).final s) = ([], true) ∧
        ((convergeStore r).final s).report = [] := by
  constructor
  · intro live wanted previously hreturn hnodup hsurvive
    apply converge_converge hreturn hnodup
    intro entry hentry
    apply kept_of_mem_entries
    rw [hsurvive entry hentry]
    exact List.mem_singleton_self entry
  · intro s r r' hreturn hdistinct hok
    have hthrough : Store.Through s ((convergeStore r).final s) :=
      (Script.wp_sound Store.wp_convergeStore_through).2.1 hok
    exact hthrough.idle hreturn hdistinct

/-- A table of one context list, over a file that a person keeps. -/
private def declaredSockets : AppOverride := ⟨.system, ["x11"], [], [], [], [], [], [], [], []⟩

private def keptByHand : Chars := "# mine\n\n[Context]\nshared = ipc\nsockets = wayland;\n".toList

private def declaredStore : Store where
  image := ⟨[("org.example.App", declaredSockets)], by decide +kernel, true⟩
  files := fun app =>
    if app = "org.example.App" then some (Bytes.ofText keptByHand) else none
  state := none
  named := []
  wrote := fun _ _ => none
  died := false

theorem converge_idempotent_sockets :
    converge (converge keptByHand [((CONTEXT, "sockets".toList), "x11;".toList)] []).1
        [((CONTEXT, "sockets".toList), "x11;".toList)] ["Context\tsockets".toList] =
      ("# mine\n\n[Context]\nshared= ipc\nsockets=x11;\n".toList, ⟨[], []⟩,
        ["Context\tsockets".toList]) ∧
    ∀ r', (convergeStore r').exec
      ((convergeStore ⟨fun _ => .whole, fun _ => true, .whole⟩).final declaredStore) =
        ([], true) := by
  obtain ⟨hconverge, hstore⟩ := converge_idempotent
  constructor
  · have hfixed := hconverge keptByHand [((CONTEXT, "sockets".toList), "x11;".toList)] []
      (by decide +kernel) (by decide) (by decide +kernel)
    have hout : converge keptByHand [((CONTEXT, "sockets".toList), "x11;".toList)] [] =
        ("# mine\n\n[Context]\nshared= ipc\nsockets=x11;\n".toList,
          ⟨["Context\tsockets".toList], []⟩, ["Context\tsockets".toList]) := by decide +kernel
    rw [hout] at hfixed ⊢
    exact hfixed
  · intro r'
    exact (hstore declaredStore _ r' (by decide +kernel) (by decide +kernel)
      (by decide +kernel)).1

end Kuma.Overrides
