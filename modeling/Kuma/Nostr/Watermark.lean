import Kuma.Nostr.Admission

/-! A sender's own time. The watermark holds the newest moment the sender has reached and lives for
ten minutes from when that was admitted; an event admitted behind it extends nothing. -/
namespace Kuma.Nostr.Replay
open Kuma.Lib

variable {N : Crate} {r : Replay N} {event : N.Event} {deliveries : List (Delivery N)}

/-- Of two admissions from one sender, ten minutes of the clock apart at most, the second is not
behind the first by more than the slack. -/
def Forward (early late : Replay N × Delivery N) : Prop :=
  (early.1.admit_ early.2.1 early.2.2).2 = true → (late.1.admit_ late.2.1 late.2.2).2 = true →
    late.2.2.pubkey = early.2.2.pubkey → late.2.1 < early.2.1 + dedupTtlSecs →
      early.2.2.createdAt.toNat ≤ late.2.2.createdAt.toNat + watermarkSlackSecs

/-- An event that passes the gates behind a living mark is not far ahead of the moment at which the
mark was set, or the mark outlives it. -/
def CloseBehind (r : Replay N) (delivery : Delivery N) : Prop :=
  r.seenBefore delivery.1 delivery.2 = false → r.isPlausible delivery.1 delivery.2 = true →
    ∀ mark ∈ r.watermark.lookup delivery.2.pubkey,
      delivery.1 < mark.2 → delivery.2.createdAt.toNat < mark.1 →
        delivery.1 + dedupTtlSecs ≤ mark.2 ∨
          delivery.2.createdAt.toNat + dedupTtlSecs ≤ mark.2 + watermarkSlackSecs

/-- What an admitted event leaves behind it: a mark ahead of it that lives long enough, or moments
so late that nothing fresh is behind it. -/
def Guarded (app : N.PublicKey) (created moment : ℕ) (r : Replay N) (later : List (Delivery N)) :
    Prop :=
  (∃ mark ∈ r.watermark.lookup app, created ≤ mark.1 ∧
    (moment + dedupTtlSecs ≤ mark.2 ∨ created + dedupTtlSecs ≤ mark.2 + watermarkSlackSecs)) ∨
  ∀ delivery ∈ later, moment + dedupTtlSecs ≤ delivery.1 ∨
    created + dedupTtlSecs ≤ delivery.1 + watermarkSlackSecs

theorem admitted_iff (r : Replay N) (delivery : Delivery N) :
    (r.admit_ delivery.1 delivery.2).2 = true ↔
      r.seenBefore delivery.1 delivery.2 = false ∧ r.isPlausible delivery.1 delivery.2 = true := by
  rw [admit_snd, Bool.and_eq_true, Bool.not_eq_true']

/-- An admitted event is not behind a living mark by more than the slack, and not stale. -/
theorem bounds_of_admitted {delivery : Delivery N}
    (h : (r.admit_ delivery.1 delivery.2).2 = true) :
    delivery.1 ≤ delivery.2.createdAt.toNat + dedupTtlSecs ∧
      ∀ mark ∈ r.watermark.lookup delivery.2.pubkey, delivery.1 < mark.2 →
        mark.1 ≤ delivery.2.createdAt.toNat + watermarkSlackSecs := by
  have hplausible := ((admitted_iff r delivery).mp h).2
  obtain ⟨hfresh, hforth⟩ := Bool.and_eq_true_iff.mp hplausible
  refine ⟨(bounds_of_isFresh hfresh).2, fun mark hmark hlive => ?_⟩
  by_contra hbehind
  have hback : r.travelsBack delivery.1 delivery.2 = true := by
    rw [travelsBack, Option.mem_def.mp hmark]
    simp only [Option.any_some, Bool.and_eq_true, decide_eq_true_eq]
    exact ⟨hlive, by omega⟩
  rw [hback] at hforth
  cases hforth

theorem guarded_of_admitted {delivery : Delivery N} {later : List (Delivery N)} (hr : Roomy r)
    (hclose : r.CloseBehind delivery) (h : (r.admit_ delivery.1 delivery.2).2 = true) :
    Guarded delivery.2.pubkey delivery.2.createdAt.toNat delivery.1 (admitStep r delivery)
      later := by
  left
  obtain ⟨hunseen, hplausible⟩ := (admitted_iff r delivery).mp h
  rw [admitStep, admit_admitted h]
  refine ⟨_, mark_watermark_self hr _ _, ?_⟩
  cases hmark : r.watermark.lookup delivery.2.pubkey with
  | none => exact ⟨le_rfl, .inl le_rfl⟩
  | some mark =>
    obtain ⟨newest, expires⟩ := mark
    rw [marked]
    split_ifs with hbehind
    · exact ⟨hbehind.2.le, hclose hunseen hplausible (newest, expires) hmark hbehind.1 hbehind.2⟩
    · exact ⟨le_rfl, .inl le_rfl⟩

/-- The guard stays up whatever is delivered. -/
theorem Guarded.next {app : N.PublicKey} {created moment : ℕ} {delivery : Delivery N}
    {later : List (Delivery N)} (hr : Roomy r) (hmoment : moment ≤ delivery.1)
    (hclock : ∀ d ∈ later, delivery.1 ≤ d.1)
    (h : Guarded app created moment r (delivery :: later)) :
    Guarded app created moment (admitStep r delivery) later := by
  rcases h with ⟨mark, hmark, hahead, hlong⟩ | hover
  swap
  · exact .inr fun d hd => hover d (List.mem_cons_of_mem _ hd)
  unfold admitStep
  cases hadmitted : (r.admit_ delivery.1 delivery.2).2 with
  | false =>
    rw [admit_refused hadmitted]
    exact .inl ⟨mark, hmark, hahead, hlong⟩
  | true =>
    rw [admit_admitted hadmitted]
    by_cases happ : app = delivery.2.pubkey
    · subst happ
      obtain ⟨newest, expires⟩ := mark
      by_cases hlive : delivery.1 < expires
      · left
        refine ⟨_, mark_watermark_self hr _ _, ?_⟩
        rw [Option.mem_def.mp hmark, marked]
        split_ifs with hbehind
        · exact ⟨hahead, hlong⟩
        · have hnewer : newest ≤ delivery.2.createdAt.toNat := by
            by_contra hlt
            exact hbehind ⟨hlive, by omega⟩
          exact ⟨hahead.trans hnewer, .inl (by omega)⟩
      · -- the mark is dead, and what is still to come is as late as its end
        right
        intro d hd
        have hlate := hclock d hd
        simp only at hlong
        omega
    · left
      refine ⟨mark, ?_, hahead, hlong⟩
      rw [mark_watermark_of_ne hr _ happ]
      exact hmark

/-- Under the guard nothing is admitted from behind. -/
theorem Guarded.forward {app : N.PublicKey} {created moment : ℕ} {delivery : Delivery N}
    {later : List (Delivery N)} (h : Guarded app created moment r (delivery :: later))
    (hadmitted : (r.admit_ delivery.1 delivery.2).2 = true) (happ : delivery.2.pubkey = app)
    (hwithin : delivery.1 < moment + dedupTtlSecs) :
    created ≤ delivery.2.createdAt.toNat + watermarkSlackSecs := by
  obtain ⟨hfresh, hmarked⟩ := bounds_of_admitted hadmitted
  rcases h with ⟨mark, hmark, hahead, hlong⟩ | hover
  · by_cases hlive : delivery.1 < mark.2
    · exact hahead.trans (hmarked mark (happ ▸ hmark) hlive)
    · omega
  · have hlate := hover delivery List.mem_cons_self
    omega

theorem Guarded.forward_later {app : N.PublicKey} {created moment : ℕ}
    (hroom : Along admitStep (fun r _ => Roomy r) r deliveries)
    (hclock : deliveries.Pairwise fun d d' => d.1 ≤ d'.1)
    (hmoment : ∀ d ∈ deliveries, moment ≤ d.1) (h : Guarded app created moment r deliveries) :
    ∀ late ∈ visits admitStep r deliveries, (late.1.admit_ late.2.1 late.2.2).2 = true →
      late.2.2.pubkey = app → late.2.1 < moment + dedupTtlSecs →
        created ≤ late.2.2.createdAt.toNat + watermarkSlackSecs := by
  induction deliveries generalizing r with
  | nil =>
    intro late hlate
    cases hlate
  | cons d ds ih =>
    obtain ⟨hr, hroom⟩ := along_cons.mp hroom
    obtain ⟨hfirst, hclock⟩ := List.pairwise_cons.mp hclock
    intro late hlate hadmitted happ hwithin
    rcases List.mem_cons.mp hlate with rfl | hlater
    · exact h.forward hadmitted happ hwithin
    · have hnext := h.next hr (hmoment d List.mem_cons_self) hfirst
      have hmoment' : ∀ d ∈ ds, moment ≤ d.1 := fun d hd => hmoment d (List.mem_cons_of_mem _ hd)
      exact ih hroom hclock hmoment' hnext late hlater hadmitted happ hwithin

/-- In a run that sheds nothing and admits no event far ahead of a mark that it does not renew, no
sender goes back behind what it sent in the ten minutes before. -/
theorem sender_goes_forward (hroom : Along admitStep (fun r _ => Roomy r) r deliveries)
    (hclock : deliveries.Pairwise fun d d' => d.1 ≤ d'.1)
    (hclose : Along admitStep CloseBehind r deliveries) :
    (visits admitStep r deliveries).Pairwise Forward := by
  induction deliveries generalizing r with
  | nil => exact .nil
  | cons d ds ih =>
    obtain ⟨hr, hroom⟩ := along_cons.mp hroom
    obtain ⟨hd, hclose⟩ := along_cons.mp hclose
    obtain ⟨hfirst, hclock⟩ := List.pairwise_cons.mp hclock
    refine List.pairwise_cons.mpr ⟨fun late hlate hearly => ?_, ih hroom hclock hclose⟩
    have hguard : Guarded d.2.pubkey d.2.createdAt.toNat d.1 (admitStep r d) ds :=
      guarded_of_admitted hr hd hearly
    exact hguard.forward_later hroom hclock hfirst late hlate

/-- An event of one app, named by its id and its moment. -/
private def sent (id : String) (created : UInt64) : (Crate.plain []).Event :=
  ⟨id, "app", created, 24133, [], "", true⟩

/-- The last may be as far behind the second as it likes, for the mark it would meet lives on. -/
theorem sender_goes_forward_close :
    let deliveries : List (Delivery (Crate.plain [])) :=
      [(1000, sent "a" 1050), (1500, sent "b" 1045), (1599, sent "c" 1020), (1600, sent "d" 1000)]
    Along admitStep CloseBehind .empty deliveries ∧
      (visits admitStep .empty deliveries).Pairwise Forward := by
  intro deliveries
  have hclose : Along admitStep CloseBehind .empty deliveries := by
    unfold CloseBehind
    decide +kernel
  exact ⟨hclose, sender_goes_forward (by decide +kernel) (by decide +kernel) hclose⟩

/-- The second was two minutes ahead of the clock, passed behind a mark about to die and set none
of its own: the third is admitted a second later, 119 seconds behind it. -/
theorem sender_goes_backwards :
    let deliveries : List (Delivery (Crate.plain [])) :=
      [(1000, sent "a" 1120), (1599, sent "b" 1119), (1600, sent "c" 1000)]
    Along admitStep (fun r _ => Roomy r) .empty deliveries ∧
      (deliveries.Pairwise fun d d' => d.1 ≤ d'.1) ∧
      ¬(visits admitStep .empty deliveries).Pairwise Forward := by
  refine ⟨by decide +kernel, by decide +kernel, ?_⟩
  unfold Forward
  decide +kernel

end Kuma.Nostr.Replay
