import Mathlib.Data.Option.Basic

/-! Inversion of computations that may fail: a sequence went through exactly when both of
its halves did. -/
namespace Kuma.Lib

variable {ε ε' α β : Type}

theorem bind_eq_ok {x : Except ε α} {f : α → Except ε β} {b : β} :
    (x >>= f) = .ok b ↔ ∃ a, x = .ok a ∧ f a = .ok b := by
  cases x with
  | error e =>
    constructor
    · intro h
      cases h
    · rintro ⟨a, ha, -⟩
      cases ha
  | ok a =>
    constructor
    · intro h
      exact ⟨a, rfl, h⟩
    · rintro ⟨a', ha, h⟩
      cases ha
      exact h

/-- Steps that hand nothing on. -/
theorem seq_eq_ok {x : Except ε PUnit} {f : PUnit → Except ε β} {b : β} :
    (x >>= f) = .ok b ↔ x = .ok () ∧ f () = .ok b := by
  rw [bind_eq_ok]
  constructor
  · rintro ⟨⟨⟩, hx, hf⟩
    exact ⟨hx, hf⟩
  · exact fun h => ⟨(), h⟩

theorem bind_eq_error {x : Except ε α} {f : α → Except ε β} {e : ε} :
    (x >>= f) = .error e ↔ x = .error e ∨ ∃ a, x = .ok a ∧ f a = .error e := by
  cases x with
  | error e' =>
    constructor
    · intro h
      cases h
      exact .inl rfl
    · rintro (h | ⟨a, ha, -⟩)
      · cases h
        rfl
      · cases ha
  | ok a =>
    constructor
    · intro h
      exact .inr ⟨a, rfl, h⟩
    · rintro (h | ⟨a', ha, h⟩)
      · cases h
      · cases ha
        exact h

theorem mapError_eq_error {x : Except ε α} {f : ε → ε'} {e : ε'} :
    x.mapError f = .error e ↔ ∃ e', x = .error e' ∧ f e' = e := by
  cases x <;> simp [Except.mapError]

theorem mapError_eq_ok {x : Except ε α} {f : ε → ε'} {a : α} :
    x.mapError f = .ok a ↔ x = .ok a := by
  cases x <;> simp [Except.mapError]

theorem map_eq_ok {x : Except ε α} {f : α → β} {b : β} :
    x.map f = .ok b ↔ ∃ a, x = .ok a ∧ f a = b := by
  cases x <;> simp [Except.map]

theorem toOption_eq_some {x : Except ε α} {a : α} : x.toOption = some a ↔ x = .ok a := by
  cases x <;> simp [Except.toOption]

/-- A loop went through exactly when every round of it did. -/
theorem forM_eq_ok {f : α → Except ε PUnit} {xs : List α} :
    xs.forM f = .ok () ↔ ∀ x ∈ xs, f x = .ok () := by
  induction xs with
  | nil => simp [List.forM, pure, Except.pure]
  | cons x xs ih =>
    change (f x >>= fun _ => xs.forM f) = .ok () ↔ _
    rw [bind_eq_ok]
    constructor
    · rintro ⟨a, hx, hxs⟩ y hy
      rcases List.mem_cons.mp hy with rfl | hy
      · exact hx
      · exact ih.mp hxs y hy
    · intro h
      exact ⟨(), h x List.mem_cons_self, ih.mpr fun y hy => h y (List.mem_cons_of_mem _ hy)⟩

/-- A loop that failed failed in some round. -/
theorem forM_eq_error {f : α → Except ε Unit} {xs : List α} {e : ε} (h : xs.forM f = .error e) :
    ∃ x ∈ xs, f x = .error e := by
  induction xs with
  | nil => cases h
  | cons x xs ih =>
    change (f x >>= fun _ => xs.forM f) = .error e at h
    rcases bind_eq_error.mp h with hx | ⟨_, -, hxs⟩
    · exact ⟨x, List.mem_cons_self, hx⟩
    · obtain ⟨y, hy, hfail⟩ := ih hxs
      exact ⟨y, List.mem_cons_of_mem x hy, hfail⟩

/-- A chain of steps none of which disturbs what a later one needs: it goes through exactly when
every step could be taken at the start. -/
theorem exists_foldlM {σ : Type} {f : σ → α → Except ε σ} {ready : σ → α → Prop} {s : σ}
    {xs : List α} (hready : ∀ x ∈ xs, ∀ s, (∃ s', f s x = .ok s') ↔ ready s x)
    (hkeep : xs.Pairwise fun x y => ∀ s s', f s x = .ok s' → (ready s' y ↔ ready s y)) :
    (∃ s', xs.foldlM f s = .ok s') ↔ ∀ x ∈ xs, ready s x := by
  induction xs generalizing s with
  | nil => exact ⟨fun _ => List.forall_mem_nil _, fun _ => ⟨s, rfl⟩⟩
  | cons x xs ih =>
    obtain ⟨hx, hxs⟩ := List.pairwise_cons.mp hkeep
    have hrest : ∀ s', f s x = .ok s' →
        ((∃ s'', xs.foldlM f s' = .ok s'') ↔ ∀ y ∈ xs, ready s y) := by
      intro s' hs'
      rw [ih (fun y hy => hready y (List.mem_cons_of_mem _ hy)) hxs]
      exact forall₂_congr fun y hy => hx y hy s s' hs'
    simp only [List.foldlM_cons, bind_eq_ok]
    rw [List.forall_mem_cons, ← hready x List.mem_cons_self]
    constructor
    · rintro ⟨s'', s', hs', hs''⟩
      exact ⟨⟨s', hs'⟩, (hrest s' hs').mp ⟨s'', hs''⟩⟩
    · rintro ⟨⟨s', hs'⟩, hall⟩
      obtain ⟨s'', hs''⟩ := (hrest s' hs').mpr hall
      exact ⟨s'', s', hs', hs''⟩

/-- A list is read whole, or not at all. -/
theorem mapM_eq_some {f : α → Option β} {xs : List α} {ys : List β} :
    xs.mapM f = some ys ↔ xs.map f = ys.map some := by
  induction xs generalizing ys with
  | nil => cases ys <;> simp
  | cons x xs ih =>
    rw [List.mapM_cons, Option.bind_eq_bind, Option.bind_eq_some_iff, List.map_cons]
    constructor
    · rintro ⟨y, hy, h⟩
      obtain ⟨zs, hzs, h⟩ := Option.bind_eq_some_iff.mp h
      obtain rfl := Option.some.inj h
      rw [List.map_cons, hy, ih.mp hzs]
    · intro h
      obtain ⟨y, zs, rfl, hy, hzs⟩ := List.map_eq_cons_iff.mp h.symm
      rw [← hy, ih.mpr hzs.symm]
      exact ⟨y, rfl, rfl⟩

theorem mem_of_mapM {f : α → Option β} {xs : List α} {ys : List β} (h : xs.mapM f = some ys)
    {y : β} : y ∈ ys ↔ ∃ x ∈ xs, f x = some y := by
  rw [← List.mem_map, mapM_eq_some.mp h, List.mem_map]
  simp

theorem exists_mapM {f : α → Option β} {xs : List α} :
    (∃ ys, xs.mapM f = some ys) ↔ ∀ x ∈ xs, ∃ y, f x = some y := by
  constructor
  · rintro ⟨ys, h⟩ x hx
    have hmem : f x ∈ ys.map some := by
      rw [← mapM_eq_some.mp h]
      exact List.mem_map_of_mem hx
    obtain ⟨y, -, hy⟩ := List.mem_map.mp hmem
    exact ⟨y, hy.symm⟩
  · intro h
    induction xs with
    | nil => exact ⟨[], rfl⟩
    | cons x xs ih =>
      obtain ⟨y, hy⟩ := h x List.mem_cons_self
      obtain ⟨ys, hys⟩ := ih fun x' hx' => h x' (List.mem_cons_of_mem _ hx')
      refine ⟨y :: ys, mapM_eq_some.mpr ?_⟩
      rw [List.map_cons, List.map_cons, hy, mapM_eq_some.mp hys]

end Kuma.Lib
