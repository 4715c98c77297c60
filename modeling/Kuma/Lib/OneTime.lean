import Kuma.Lib.Run
import Mathlib.Data.List.Nodup

/-! One-time tokens in three places: a store, a mirror of the store, and the live list they
are spent from. A spent token leaves the live list at once and the store later; until then
it is owed. Tokens are spent once as long as no copy is made over an owed one. -/
namespace Kuma.Lib.OneTime

variable {T : Type*}

structure Books (T : Type*) where
  stock : List T
  mirror : List T
  live : List T
  owed : Option T

/-- What one step does to the books, with the tokens it may draw and the one it spends. -/
inductive Step (fresh : List T) : Books T → Option T → Books T → Prop
  /-- nothing is copied, and a debt goes with its stored token -/
  | wane {B B' : Books T} (stock : B'.stock.Sublist B.stock)
      (mirror : B'.mirror = B.mirror ∧ B'.stock = B.stock ∨ B'.mirror = B'.stock ∨ B'.mirror = [])
      (live : B'.live.Sublist B.live)
      (owed : B'.owed = B.owed ∨ B'.owed = none ∧ ∀ t, B.owed = some t → t ∉ B'.stock) :
      Step fresh B none B'
  /-- the store is written anew, and the mirror with it -/
  | restock {B : Books T} (kept new live : List T) (old : kept.Sublist B.stock)
      (drawn : new.Sublist fresh) (copied : live.Sublist (kept ++ new))
      (settled : ∀ t, B.owed = some t → t ∉ kept) :
      Step fresh B none ⟨kept ++ new, kept ++ new, live, B.owed⟩
  /-- the live list is made anew from the mirror -/
  | rearm {B : Books T} (live : List T) (copied : live.Sublist B.mirror)
      (settled : ∀ t, B.owed = some t → t ∉ B.stock) : Step fresh B none { B with live }
  | spend {B : Books T} (t : T) (live : List T) (clear : B.owed = none)
      (spent : B.live.Perm (t :: live)) : Step fresh B (some t) { B with live, owed := some t }

/-- Nothing is listed twice, and nothing listed is still to be drawn. -/
structure Sound (B : Books T) (future : List T) : Prop where
  stock : (B.stock ++ future).Nodup
  mirror : B.mirror.Nodup
  mirrored : B.mirror ⊆ B.stock
  live : (B.live ++ future).Nodup
  owed : ∀ t, B.owed = some t → t ∉ future

/-- A token that is gone: where it is still stored, the removal is on its way. -/
structure Spent (t : T) (B : Books T) (future : List T) : Prop where
  live : t ∉ B.live
  future : t ∉ future
  stock : t ∈ B.stock → B.owed = some t

variable {B B' : Books T} {fresh future : List T} {t : T} {spent : Option T}

theorem Step.refl (fresh : List T) (B : Books T) : Step fresh B none B :=
  .wane (.refl _) (.inl ⟨rfl, rfl⟩) (.refl _) (.inl rfl)

theorem nodup_of_drawn {l kept new : List T} (h : (l ++ (fresh ++ future)).Nodup)
    (hkept : kept.Sublist l) (hnew : new.Sublist fresh) : ((kept ++ new) ++ future).Nodup := by
  rw [← List.append_assoc] at h
  exact h.sublist ((hkept.append hnew).append (.refl future))

theorem nodup_of_waned {l kept : List T} (h : (l ++ (fresh ++ future)).Nodup)
    (hkept : kept.Sublist l) : (kept ++ future).Nodup := by
  simpa using nodup_of_drawn h hkept (List.nil_sublist fresh)

theorem Sound.step (h : Sound B (fresh ++ future)) (hs : Step fresh B spent B') :
    Sound B' future := by
  have howed : ∀ t, B.owed = some t → t ∉ future := fun t ht hmem =>
    h.owed t ht (List.mem_append_right _ hmem)
  cases hs with
  | wane stock mirror live owed =>
    have hstock := nodup_of_waned h.stock stock
    have hdebt : ∀ t, B'.owed = some t → t ∉ future := by
      intro t ht
      rcases owed with heq | ⟨hnone, -⟩
      · exact howed t (heq ▸ ht)
      · cases hnone.symm.trans ht
    rcases mirror with ⟨hmirror, heq⟩ | hmirror | hmirror
    · exact ⟨hstock, hmirror ▸ h.mirror, by rw [hmirror, heq]; exact h.mirrored,
        nodup_of_waned h.live live, hdebt⟩
    · exact ⟨hstock, hmirror ▸ hstock.of_append_left, hmirror ▸ List.Subset.refl _,
        nodup_of_waned h.live live, hdebt⟩
    · exact ⟨hstock, hmirror ▸ List.nodup_nil, by rw [hmirror]; exact List.nil_subset _,
        nodup_of_waned h.live live, hdebt⟩
  | restock kept new live old drawn copied _ =>
    have hstock := nodup_of_drawn h.stock old drawn
    exact ⟨hstock, hstock.of_append_left, List.Subset.refl _,
      hstock.sublist (copied.append (.refl future)), howed⟩
  | rearm live copied _ =>
    refine ⟨nodup_of_waned h.stock (.refl _), h.mirror, h.mirrored, ?_, howed⟩
    have hstock := List.nodup_append.mp (nodup_of_waned h.stock (.refl _))
    refine List.nodup_append.mpr ⟨h.mirror.sublist copied, hstock.2.1, fun t ht t' ht' => ?_⟩
    exact hstock.2.2 t (h.mirrored (copied.subset ht)) t' ht'
  | spend t live clear spent =>
    have hlive : ((t :: live) ++ future).Nodup :=
      (spent.append_right future).nodup (nodup_of_waned h.live (.refl _))
    refine ⟨nodup_of_waned h.stock (.refl _), h.mirror, h.mirrored,
      (List.nodup_cons.mp hlive).2, ?_⟩
    rintro t' ⟨⟩ hmem
    exact (List.nodup_cons.mp hlive).1 (List.mem_append_right _ hmem)

/-- What is spent is gone. -/
theorem Spent.of_spend (h : Sound B (fresh ++ future)) (hs : Step fresh B (some t) B') :
    Spent t B' future := by
  cases hs with
  | spend t live clear spent =>
    have hlive : ((t :: live) ++ future).Nodup :=
      (spent.append_right future).nodup (nodup_of_waned h.live (.refl _))
    have hnot := (List.nodup_cons.mp hlive).1
    exact ⟨fun hmem => hnot (List.mem_append_left _ hmem),
      fun hmem => hnot (List.mem_append_right _ hmem), fun _ => rfl⟩

/-- What is gone stays gone. -/
theorem Spent.step (h : Spent t B (fresh ++ future)) (hsound : Sound B (fresh ++ future))
    (hs : Step fresh B spent B') : spent ≠ some t ∧ Spent t B' future := by
  have hfresh : t ∉ fresh := fun hmem => h.future (List.mem_append_left _ hmem)
  have hfuture : t ∉ future := fun hmem => h.future (List.mem_append_right _ hmem)
  cases hs with
  | wane stock mirror live owed =>
    refine ⟨nofun, fun hmem => h.live (live.subset hmem), hfuture, fun hmem => ?_⟩
    have hold := h.stock (stock.subset hmem)
    rcases owed with heq | ⟨-, hsettled⟩
    · rw [heq, hold]
    · exact absurd hmem (hsettled t hold)
  | restock kept new live old drawn copied settled =>
    have hkept : t ∉ kept := fun hmem => settled t (h.stock (old.subset hmem)) hmem
    have hnot : t ∉ kept ++ new := fun hmem =>
      (List.mem_append.mp hmem).elim hkept fun hnew => hfresh (drawn.subset hnew)
    exact ⟨nofun, fun hmem => hnot (copied.subset hmem), hfuture, fun hmem => absurd hmem hnot⟩
  | rearm live copied settled =>
    refine ⟨nofun, fun hmem => ?_, hfuture, h.stock⟩
    have hstock := hsound.mirrored (copied.subset hmem)
    exact settled t (h.stock hstock) hstock
  | spend t' live clear spent =>
    have hne : t' ≠ t := fun heq => h.live (spent.mem_iff.mpr (heq ▸ List.mem_cons_self))
    refine ⟨fun heq => hne (Option.some.inj heq), fun hmem => ?_, hfuture, fun hmem => ?_⟩
    · exact h.live (spent.mem_iff.mpr (List.mem_cons_of_mem _ hmem))
    · cases clear.symm.trans (h.stock hmem)

section
variable [DecidableEq T] {σ α : Type*} {step : σ → α → σ} {books : σ → Books T} {draws : α → List T}
  {spends : σ → α → Option T} {I : σ → Prop} {P : σ → α → Prop}

/-- A system whose guarded steps are steps of its books spends every token at most once, and
no spent token is ever live again. -/
theorem spent_at_most_once (hI : ∀ s a, I s → P s a → I (step s a))
    (hstep : ∀ s a, I s → P s a → Step (draws a) (books s) (spends s a) (books (step s a)))
    {s : σ} {as : List α} (h0 : I s) (hP : Along step P s as)
    (hsound : Sound (books s) (as.flatMap draws)) (t : T) :
    (visits step s as).countP (fun x => spends x.1 x.2 = some t) ≤ 1 ∧
    ∀ pre a post, as = pre ++ a :: post → spends (run step s pre) a = some t →
      t ∉ (books (run step s as)).live := by
  let Before : σ → List α → Prop := fun s as =>
    I s ∧ Along step P s as ∧ Sound (books s) (as.flatMap draws)
  let After : σ → List α → Prop := fun s as => Before s as ∧ Spent t (books s) (as.flatMap draws)
  have hbefore : ∀ s a as, Before s (a :: as) → Before (step s a) as := by
    rintro s a as ⟨hs, hP, hsound⟩
    obtain ⟨ha, has⟩ := along_cons.mp hP
    rw [List.flatMap_cons] at hsound
    exact ⟨hI s a hs ha, has, hsound.step (hstep s a hs ha)⟩
  have hhit : ∀ s a as, Before s (a :: as) → spends s a = some t → After (step s a) as := by
    intro s a as h hspends
    obtain ⟨hs, hP, hsound⟩ := id h
    rw [List.flatMap_cons] at hsound
    have hsteps := hstep s a hs (along_cons.mp hP).1
    rw [hspends] at hsteps
    exact ⟨hbefore s a as h, .of_spend hsound hsteps⟩
  have hafter : ∀ s a as, After s (a :: as) → spends s a ≠ some t ∧ After (step s a) as := by
    rintro s a as ⟨h, hspent⟩
    obtain ⟨hs, hP, hsound⟩ := id h
    rw [List.flatMap_cons] at hsound hspent
    obtain ⟨hne, hspent⟩ := hspent.step hsound (hstep s a hs (along_cons.mp hP).1)
    exact ⟨hne, hbefore s a as h, hspent⟩
  have hstart : Before s as := ⟨h0, hP, hsound⟩
  constructor
  · refine countP_visits_le_one (fun s a as h _ => hbefore s a as h)
      (fun s a as h hspends => hhit s a as h (by simpa using hspends)) (fun s a as h => ?_) hstart
    obtain ⟨hne, hrest⟩ := hafter s a as h
    exact ⟨by simpa using hne, hrest⟩
  · rintro pre a post rfl hspends
    have hspent := hhit _ a post (run_remaining hbefore hstart) hspends
    have hend : After (run step (step (run step s pre) a) post) [] :=
      run_remaining (fun s a as h => (hafter s a as h).2) (by simpa using hspent)
    rw [run_append, run_cons]
    exact hend.2.live

end
end Kuma.Lib.OneTime
