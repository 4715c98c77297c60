import Mathlib.Data.Finset.Max
import Mathlib.Data.Finset.Card
import Mathlib.Data.Finset.Image

/-! Retention in two tiers over a linear order: the newest few, and the newest of each of a few
further days. What the selection rejects has no say in what it keeps, so that pruning time after
time comes to pruning once. -/
namespace Kuma.Lib.Retention

variable {α δ : Type*} [LinearOrder α] [LinearOrder δ]

/-- The greatest `n` of a set. -/
def top (n : ℕ) (X : Finset α) : Finset α := X.filter fun x => (X.filter (x < ·)).card < n

section
variable {n : ℕ} {X S : Finset α} {a x y : α}

theorem mem_top : x ∈ top n X ↔ x ∈ X ∧ (X.filter (x < ·)).card < n := Finset.mem_filter

theorem top_subset : top n X ⊆ X := Finset.filter_subset _ X

theorem mem_top_of_le (hx : x ∈ top n X) (hy : y ∈ X) (hxy : x ≤ y) : y ∈ top n X := by
  have hsub : X.filter (y < ·) ⊆ X.filter (x < ·) := by
    intro z hz
    rw [Finset.mem_filter] at hz ⊢
    exact ⟨hz.1, hxy.trans_lt hz.2⟩
  have hcard := Finset.card_le_card hsub
  have hlt := (mem_top.mp hx).2
  exact mem_top.mpr ⟨hy, by omega⟩

/-- A least element more is one of the greatest while there is room. -/
theorem top_insert_below (ha : ∀ x ∈ X, a < x) :
    top n (insert a X) = if X.card < n then insert a (top n X) else top n X := by
  have hnew : a ∉ X := fun h => lt_irrefl a (ha a h)
  have hbelow : (insert a X).filter (a < ·) = X := by
    ext z
    simp only [Finset.mem_filter, Finset.mem_insert]
    constructor
    · rintro ⟨rfl | hz, hlt⟩
      · exact absurd hlt (lt_irrefl z)
      · exact hz
    · intro hz
      exact ⟨.inr hz, ha z hz⟩
  have hold : ∀ x ∈ X, (insert a X).filter (x < ·) = X.filter (x < ·) := by
    intro x hx
    rw [Finset.filter_insert, if_neg (ha x hx).not_gt]
  ext x
  by_cases hxa : x = a
  · subst hxa
    rw [mem_top, hbelow]
    split_ifs with hroom
    · simp [hroom]
    · simp [hroom, mem_top, hnew]
  · have hmem : x ∈ top n (insert a X) ↔ x ∈ top n X := by
      rw [mem_top, mem_top, Finset.mem_insert]
      constructor
      · rintro ⟨h | hx, hlt⟩
        · exact absurd h hxa
        · exact ⟨hx, hold x hx ▸ hlt⟩
      · rintro ⟨hx, hlt⟩
        exact ⟨.inr hx, (hold x hx).symm ▸ hlt⟩
    rw [hmem]
    split_ifs
    · simp [hxa]
    · rfl

theorem card_top (n : ℕ) (X : Finset α) : (top n X).card = min n X.card := by
  induction X using Finset.induction_on_min with
  | empty => simp [top]
  | insert a X ha ih =>
    have hnew : a ∉ X := fun h => lt_irrefl a (ha a h)
    rw [top_insert_below ha, Finset.card_insert_of_notMem hnew]
    split_ifs with hroom
    · rw [Finset.card_insert_of_notMem fun h => hnew (top_subset h), ih]
      omega
    · rw [ih]
      omega

/-- The greatest of a set are the greatest of whatever lies between them and the set. -/
theorem top_of_between (htop : top n X ⊆ S) (hsub : S ⊆ X) : top n S = top n X := by
  ext x
  constructor
  · intro hx
    obtain ⟨hxS, hlt⟩ := mem_top.mp hx
    by_contra hnot
    -- then there are `n` above it in `X`, and the greatest `n` of those are in `S`
    have hmany : n ≤ (X.filter (x < ·)).card := by
      by_contra hfew
      exact hnot (mem_top.mpr ⟨hsub hxS, by omega⟩)
    have habove : top n (X.filter (x < ·)) ⊆ S.filter (x < ·) := by
      intro y hy
      obtain ⟨hyX, hcard⟩ := mem_top.mp hy
      obtain ⟨hyX, hxy⟩ := Finset.mem_filter.mp hyX
      have hsame : (X.filter (x < ·)).filter (y < ·) = X.filter (y < ·) := by
        ext z
        simp only [Finset.mem_filter]
        constructor
        · rintro ⟨⟨hz, -⟩, hyz⟩
          exact ⟨hz, hyz⟩
        · rintro ⟨hz, hyz⟩
          exact ⟨⟨hz, hxy.trans hyz⟩, hyz⟩
      rw [hsame] at hcard
      exact Finset.mem_filter.mpr ⟨htop (mem_top.mpr ⟨hyX, hcard⟩), hxy⟩
    have hcard := Finset.card_le_card habove
    rw [card_top] at hcard
    omega
  · intro hx
    obtain ⟨hxX, hlt⟩ := mem_top.mp hx
    have hcard := Finset.card_le_card (Finset.filter_subset_filter (x < ·) hsub)
    exact mem_top.mpr ⟨htop hx, by omega⟩

/-- What is among the greatest beside one more was so without it. -/
theorem mem_top_of_insert (hx : x ∈ top n (insert a X)) (hne : x ≠ a) : x ∈ top n X := by
  obtain ⟨hmem, hlt⟩ := mem_top.mp hx
  have hxX : x ∈ X := (Finset.mem_insert.mp hmem).resolve_left hne
  have hcard := Finset.card_le_card
    (Finset.filter_subset_filter (x < ·) (Finset.subset_insert a X))
  exact mem_top.mpr ⟨hxX, by omega⟩

theorem top_eq_self (h : X.card ≤ n) : top n X = X := by
  refine Finset.eq_of_subset_of_card_le top_subset ?_
  rw [card_top]
  omega

theorem top_zero (X : Finset α) : top 0 X = ∅ := by
  have hcard := card_top 0 X
  rw [Nat.zero_min] at hcard
  exact Finset.card_eq_zero.mp hcard

end

variable (R K : ℕ) (day : α → δ)

/-- The days that the recent tier does not touch. -/
def further (X : Finset α) : Finset δ := X.image day \ (top R X).image day

/-- The newest of each of the `K` most recent further days. -/
def daily (X : Finset α) : Finset α :=
  X.filter fun x => day x ∈ top K (further R day X) ∧ ∀ y ∈ X, day y = day x → y ≤ x

/-- Both tiers. -/
def retained (X : Finset α) : Finset α := top R X ∪ daily R K day X

variable {R K day} {X S : Finset α} {d : δ} {t x : α}

theorem mem_further : d ∈ further R day X ↔
    (∃ x ∈ X, day x = d) ∧ ∀ x ∈ top R X, day x ≠ d := by
  simp [further]

theorem mem_daily : x ∈ daily R K day X ↔ x ∈ X ∧ day x ∈ top K (further R day X) ∧
    ∀ y ∈ X, day y = day x → y ≤ x := Finset.mem_filter

theorem mem_retained : x ∈ retained R K day X ↔ x ∈ top R X ∨ x ∈ daily R K day X :=
  Finset.mem_union

theorem retained_subset : retained R K day X ⊆ X := by
  intro x hx
  rcases mem_retained.mp hx with htop | hdaily
  · exact top_subset htop
  · exact (mem_daily.mp hdaily).1

/-- A day has a newest. -/
theorem exists_newest (day : α → δ) (hx : x ∈ X) :
    ∃ z ∈ X, day z = day x ∧ ∀ y ∈ X, day y = day x → y ≤ z := by
  have hne : (X.filter fun y => day y = day x).Nonempty :=
    ⟨x, Finset.mem_filter.mpr ⟨hx, rfl⟩⟩
  obtain ⟨z, hz, hmax⟩ := Finset.exists_max_image _ id hne
  obtain ⟨hzX, hday⟩ := Finset.mem_filter.mp hz
  exact ⟨z, hzX, hday, fun y hy hyday => hmax y (Finset.mem_filter.mpr ⟨hy, hyday⟩)⟩

/-- The newest of a day that the second tier counts is retained. -/
theorem exists_daily (hd : d ∈ top K (further R day X)) :
    ∃ z ∈ daily R K day X, day z = d ∧ ∀ y ∈ X, day y = d → y ≤ z := by
  obtain ⟨⟨x, hx, rfl⟩, -⟩ := mem_further.mp (top_subset hd)
  obtain ⟨z, hz, hday, hmax⟩ := exists_newest day hx
  exact ⟨z, mem_daily.mpr ⟨hz, hday.symm ▸ hd, fun y hy hyz => hmax y hy (hyz.trans hday)⟩, hday,
    hmax⟩

/-- The rejected have no say: the selection from whatever lies between the retained and the set
is the same. -/
theorem retained_of_between (hkept : retained R K day X ⊆ S) (hsub : S ⊆ X) :
    retained R K day S = retained R K day X := by
  have htop : top R S = top R X :=
    top_of_between (fun x hx => hkept (mem_retained.mpr (.inl hx))) hsub
  have hfurther : further R day S ⊆ further R day X := by
    intro d hd
    obtain ⟨⟨x, hx, hday⟩, htouched⟩ := mem_further.mp hd
    exact mem_further.mpr ⟨⟨x, hsub hx, hday⟩, htop ▸ htouched⟩
  have hdays : top K (further R day S) = top K (further R day X) := by
    refine top_of_between (fun d hd => ?_) hfurther
    obtain ⟨z, hz, hday, -⟩ := exists_daily hd
    have huntouched := (mem_further.mp (top_subset hd)).2
    exact mem_further.mpr ⟨⟨z, hkept (mem_retained.mpr (.inr hz)), hday⟩, htop ▸ huntouched⟩
  have hdaily : daily R K day S = daily R K day X := by
    ext x
    rw [mem_daily, mem_daily, hdays]
    constructor
    · rintro ⟨hx, hday, hmax⟩
      refine ⟨hsub hx, hday, fun y hy hyday => ?_⟩
      obtain ⟨z, hz, hzday, hzmax⟩ := exists_daily hday
      exact (hzmax y hy hyday).trans (hmax z (hkept (mem_retained.mpr (.inr hz))) hzday)
    · rintro ⟨hx, hday, hmax⟩
      have hxkept : x ∈ retained R K day X :=
        mem_retained.mpr (.inr (mem_daily.mpr ⟨hx, hday, hmax⟩))
      exact ⟨hkept hxkept, hday, fun y hy => hmax y (hsub hy)⟩
  rw [retained, retained, htop, hdaily]

/-- To select again changes nothing. -/
theorem retained_retained : retained R K day (retained R K day X) = retained R K day X :=
  retained_of_between subset_rfl retained_subset

/-- What is retained beside a newer one was retained before it came. -/
theorem retained_insert_subset (hday : Monotone day) (ht : ∀ x ∈ X, x < t) :
    retained R K day (insert t X) ⊆ insert t (retained R K day X) := by
  intro x hx
  rw [Finset.mem_insert]
  by_cases hxt : x = t
  · exact .inl hxt
  right
  rcases mem_retained.mp hx with htop | hdaily
  · exact mem_retained.mpr (.inl (mem_top_of_insert htop hxt))
  · obtain ⟨hxX, hdays, hmax⟩ := mem_daily.mp hdaily
    have hxX : x ∈ X := (Finset.mem_insert.mp hxX).resolve_left hxt
    by_cases hrecent : x ∈ top R X
    · exact mem_retained.mpr (.inl hrecent)
    refine mem_retained.mpr (.inr (mem_daily.mpr ⟨hxX, ?_,
      fun y hy => hmax y (Finset.mem_insert_of_mem hy)⟩))
    obtain ⟨hfurther, hcard⟩ := mem_top.mp hdays
    have huntouched : day x ∈ further R day X := by
      refine mem_further.mpr ⟨⟨x, hxX, rfl⟩, fun y hy hyday => hrecent ?_⟩
      have hyx : y ≤ x := hmax y (Finset.mem_insert_of_mem (top_subset hy)) hyday
      exact mem_top_of_le hy hxX hyx
    -- a further day beyond this one was further before, too: the newcomer touches only a day
    -- that the newest of all was on
    have hmore : (further R day X).filter (day x < ·) ⊆
        (further R day (insert t X)).filter (day x < ·) := by
      intro d hd
      obtain ⟨hd, hlt⟩ := Finset.mem_filter.mp hd
      obtain ⟨⟨y, hy, hyday⟩, hnone⟩ := mem_further.mp hd
      refine Finset.mem_filter.mpr ⟨mem_further.mpr ⟨⟨y, Finset.mem_insert_of_mem hy, hyday⟩, ?_⟩,
        hlt⟩
      intro z hz hzday
      by_cases hzt : z = t
      · subst hzt
        have hpos : 0 < R := by
          have hlt := (mem_top.mp hz).2
          omega
        obtain ⟨m, hm, hmmax⟩ := Finset.exists_max_image X id ⟨y, hy⟩
        have hmtop : m ∈ top R X := by
          refine mem_top.mpr ⟨hm, ?_⟩
          have hempty : X.filter (m < ·) = ∅ :=
            Finset.filter_eq_empty_iff.mpr fun w hw => (hmmax w hw).not_gt
          rw [hempty, Finset.card_empty]
          exact hpos
        refine hnone m hmtop (le_antisymm ?_ ?_)
        · rw [← hzday]
          exact hday (ht m hm).le
        · rw [← hyday]
          exact hday (hmmax y hy)
      · exact hnone z (mem_top_of_insert hz hzt) hzday
    have hle := Finset.card_le_card hmore
    exact mem_top.mpr ⟨huntouched, by omega⟩

/-- Selecting each time a newer one comes is selecting from all of them. -/
theorem retained_insert_retained (hday : Monotone day) (ht : ∀ x ∈ X, x < t) :
    retained R K day (insert t (retained R K day X)) = retained R K day (insert t X) :=
  retained_of_between (retained_insert_subset hday ht)
    (Finset.insert_subset_insert t retained_subset)

/-- The newest is retained, unless nothing is. -/
theorem newest_mem_retained (hday : Monotone day) (ht : ∀ x ∈ X, x < t) (hkeep : R ≠ 0 ∨ K ≠ 0) :
    t ∈ retained R K day (insert t X) := by
  have hnewest : ∀ y ∈ insert t X, y ≤ t := by
    intro y hy
    rcases Finset.mem_insert.mp hy with rfl | hy
    · exact le_rfl
    · exact (ht y hy).le
  have hself : t ∈ insert t X := Finset.mem_insert_self t X
  by_cases hR : R = 0
  · subst hR
    have hK : 0 < K := by omega
    have hfurther : day t ∈ further 0 day (insert t X) := by
      refine mem_further.mpr ⟨⟨t, hself, rfl⟩, fun x hx => ?_⟩
      rw [top_zero] at hx
      exact absurd hx (Finset.notMem_empty x)
    have hempty : (further 0 day (insert t X)).filter (day t < ·) = ∅ := by
      refine Finset.filter_eq_empty_iff.mpr fun d hd => ?_
      obtain ⟨⟨y, hy, rfl⟩, -⟩ := mem_further.mp hd
      exact (hday (hnewest y hy)).not_gt
    refine mem_retained.mpr (.inr (mem_daily.mpr ⟨hself, mem_top.mpr ⟨hfurther, ?_⟩,
      fun y hy _ => hnewest y hy⟩))
    rw [hempty, Finset.card_empty]
    exact hK
  · refine mem_retained.mpr (.inl (mem_top.mpr ⟨hself, ?_⟩))
    have hempty : (insert t X).filter (t < ·) = ∅ :=
      Finset.filter_eq_empty_iff.mpr fun y hy => (hnewest y hy).not_gt
    rw [hempty, Finset.card_empty]
    omega

theorem retained_eq_self (h : X.card ≤ R) : retained R K day X = X := by
  refine Finset.Subset.antisymm retained_subset fun y hy => ?_
  rw [mem_retained, top_eq_self h]
  exact .inl hy

theorem further_eq_empty (h : X.card ≤ R) : further R day X = ∅ := by
  rw [further, top_eq_self h, Finset.sdiff_self]

theorem notMem_of_below (hx : ∀ y ∈ X, x < y) : x ∉ X := fun h => lt_irrefl x (hx x h)

theorem top_insert_full (hx : ∀ y ∈ X, x < y) (hfull : ¬ X.card < R) :
    top R (insert x X) = top R X := by
  rw [top_insert_below hx, if_neg hfull]

/-- An older one of a day that is there already changes nothing. -/
theorem retained_insert_known (hx : ∀ y ∈ X, x < y) (hfull : ¬ X.card < R) {y : α} (hy : y ∈ X)
    (hyday : day y = day x) :
    further R day (insert x X) = further R day X ∧
      retained R K day (insert x X) = retained R K day X := by
  have hknown : day x ∈ X.image day := hyday ▸ Finset.mem_image_of_mem day hy
  have htop := top_insert_full hx hfull
  have hfurther : further R day (insert x X) = further R day X := by
    rw [further, further, htop, Finset.image_insert, Finset.insert_eq_of_mem hknown]
  refine ⟨hfurther, ?_⟩
  have hdaily : daily R K day (insert x X) = daily R K day X := by
    ext z
    rw [mem_daily, mem_daily, hfurther]
    constructor
    · rintro ⟨hz, hdays, hmax⟩
      have hzx : z ≠ x := by
        rintro rfl
        exact (hx y hy).not_ge (hmax y (Finset.mem_insert_of_mem hy) hyday)
      exact ⟨(Finset.mem_insert.mp hz).resolve_left hzx, hdays,
        fun w hw => hmax w (Finset.mem_insert_of_mem hw)⟩
    · rintro ⟨hz, hdays, hmax⟩
      refine ⟨Finset.mem_insert_of_mem hz, hdays, fun w hw hwday => ?_⟩
      rcases Finset.mem_insert.mp hw with rfl | hw
      · exact (hx z hz).le
      · exact hmax w hw hwday
  rw [retained, retained, htop, hdaily]

/-- An older one of a new day opens that day, behind all the others. -/
theorem retained_insert_fresh (hday : Monotone day) (hx : ∀ y ∈ X, x < y)
    (hfull : ¬ X.card < R) (hnew : ∀ y ∈ X, day y ≠ day x) :
    (further R day (insert x X)).card = (further R day X).card + 1 ∧
      retained R K day (insert x X) = if (further R day X).card < K then
        insert x (retained R K day X) else retained R K day X := by
  have htop := top_insert_full hx hfull
  have hfresh : day x ∉ X.image day := by
    intro h
    obtain ⟨y, hy, hyday⟩ := Finset.mem_image.mp h
    exact hnew y hy hyday
  have huncounted : day x ∉ further R day X := fun h => hfresh (Finset.mem_sdiff.mp h).1
  have huntouched : day x ∉ (top R X).image day := fun h =>
    hfresh (Finset.image_subset_image top_subset h)
  have hfurther : further R day (insert x X) = insert (day x) (further R day X) := by
    rw [further, further, htop, Finset.image_insert, Finset.insert_sdiff_of_notMem _ huntouched]
  have hbelow : ∀ d ∈ further R day X, day x < d := by
    intro d hd
    obtain ⟨⟨y, hy, rfl⟩, -⟩ := mem_further.mp hd
    exact lt_of_le_of_ne (hday (hx y hy).le) (hnew y hy).symm
  have hdays := top_insert_below (n := K) hbelow
  rw [← hfurther] at hdays
  have hxX := notMem_of_below hx
  -- the days of the others stay as they were
  have hsame : ∀ z ∈ X, (day z ∈ top K (further R day (insert x X)) ↔
      day z ∈ top K (further R day X)) := by
    intro z hz
    have hne := hnew z hz
    rw [hdays]
    split_ifs
    · simp [hne]
    · rfl
  have hold : ∀ z ∈ X, (z ∈ daily R K day (insert x X) ↔ z ∈ daily R K day X) := by
    intro z hz
    rw [mem_daily, mem_daily, hsame z hz]
    constructor
    · rintro ⟨-, hd, hmax⟩
      exact ⟨hz, hd, fun w hw => hmax w (Finset.mem_insert_of_mem hw)⟩
    · rintro ⟨-, hd, hmax⟩
      refine ⟨Finset.mem_insert_of_mem hz, hd, fun w hw hwday => ?_⟩
      rcases Finset.mem_insert.mp hw with rfl | hw
      · exact (hx z hz).le
      · exact hmax w hw hwday
  have hself : x ∈ daily R K day (insert x X) ↔ (further R day X).card < K := by
    rw [mem_daily, hdays]
    constructor
    · rintro ⟨-, hd, -⟩
      by_contra hK
      rw [if_neg hK] at hd
      exact huncounted (top_subset hd)
    · intro hK
      rw [if_pos hK]
      refine ⟨Finset.mem_insert_self x X, Finset.mem_insert_self _ _, fun w hw hwday => ?_⟩
      rcases Finset.mem_insert.mp hw with rfl | hw
      · exact le_rfl
      · exact absurd hwday (hnew w hw)
  constructor
  · rw [hfurther, Finset.card_insert_of_notMem huncounted]
  · ext z
    by_cases hzx : z = x
    · subst hzx
      have hnot : z ∉ retained R K day X := fun h => hxX (retained_subset h)
      have hntop : z ∉ top R X := fun h => hxX (top_subset h)
      rw [mem_retained, htop, hself]
      split_ifs with hK
      · simp [hK]
      · simp [hK, hnot, hntop]
    · have hmem : z ∈ retained R K day (insert x X) ↔ z ∈ retained R K day X := by
        rw [mem_retained, mem_retained, htop]
        refine or_congr_right ?_
        constructor
        · intro hz
          have hzX := (Finset.mem_insert.mp (mem_daily.mp hz).1).resolve_left hzx
          exact (hold z hzX).mp hz
        · intro hz
          exact (hold z (mem_daily.mp hz).1).mpr hz
      rw [hmem]
      split_ifs
      · simp [hzx]
      · rfl

/-- A day that is there and has nothing retained found no room. -/
theorem full_of_unretained {y : α} (hy : y ∈ X) (hyday : day y = d)
    (hnone : ∀ z ∈ retained R K day X, day z ≠ d) : K ≤ (further R day X).card := by
  have hfurther : d ∈ further R day X :=
    mem_further.mpr ⟨⟨y, hy, hyday⟩, fun z hz => hnone z (mem_retained.mpr (.inl hz))⟩
  by_contra hK
  have htop : d ∈ top K (further R day X) := by
    rw [top_eq_self (by omega)]
    exact hfurther
  obtain ⟨z, hz, hzday, -⟩ := exists_daily htop
  exact hnone z (mem_retained.mpr (.inr hz)) hzday

end Kuma.Lib.Retention
