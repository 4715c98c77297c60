import Kuma.Lib.Run
import Kuma.Nostr.Replay

/-! How often one event gets past the replay gates. The dedup entry runs out ten minutes
after the event was seen; whether anything else refuses it from then on is up to the
freshness test and the watermark. -/
namespace Kuma.Nostr.Replay
open Kuma.Lib

variable {N : Crate} {r : Replay N} {event : N.Event} {deliveries : List (ℕ × N.Event)}

/-- An event handed to the gates at a moment of the wall clock. -/
abbrev Delivery (N : Crate) := ℕ × N.Event

def admitStep (r : Replay N) (delivery : Delivery N) : Replay N :=
  (r.admit_ delivery.1 delivery.2).1

/-- One event, as the gates can tell: its id, its sender and its moment. -/
def sameEvent (event event' : N.Event) : Bool :=
  event'.id == event.id && event'.pubkey == event.pubkey && event'.createdAt == event.createdAt

/-- A delivery of the event that is admitted. -/
def admits (event : N.Event) (visit : Replay N × Delivery N) : Bool :=
  sameEvent event visit.2.2 && (visit.1.admit_ visit.2.1 visit.2.2).2

/-- A delivery of the event that neither the freshness test nor the watermark refuses. -/
def passes (event : N.Event) (visit : Replay N × Delivery N) : Bool :=
  sameEvent event visit.2.2 && visit.1.isPlausible visit.2.1 visit.2.2

/-- Both maps have room, so that nothing live is shed. -/
def Roomy (r : Replay N) : Prop :=
  r.seen.size < replayCacheMax ∧ r.watermark.size < replayCacheMax

instance (r : Replay N) : Decidable (Roomy r) := by
  unfold Roomy
  infer_instance

/-- No two deliveries a dedup lifetime apart both pass the other two gates. -/
def NoGap (event : N.Event) (r : Replay N) (deliveries : List (Delivery N)) : Prop :=
  (visits admitStep r deliveries).Pairwise fun early late =>
    passes event early = true → passes event late = true → late.2.1 < early.2.1 + dedupTtlSecs

/-- The deliveries that carry the event's id are deliveries of the event. -/
def IdNames (event : N.Event) (deliveries : List (Delivery N)) : Prop :=
  ∀ delivery ∈ deliveries, delivery.2.id = event.id → sameEvent event delivery.2 = true

theorem sameEvent_id {event event' : N.Event} (h : sameEvent event event' = true) :
    event'.id = event.id := by
  simp only [sameEvent, Bool.and_eq_true, beq_iff_eq] at h
  exact h.1.1

theorem shed_of_lt {K V : Type} {expiry : V → ℕ} {now : ℕ} {m : HashMap K V}
    (h : m.size < replayCacheMax) : shed expiry now m = m := by
  simp [shed, h]

/-- The mark that an event finds, or leaves. -/
def marked (now : ℕ) (event : N.Event) : Option (ℕ × ℕ) → ℕ × ℕ
  | some (newest, expires) =>
    if now < expires ∧ event.createdAt.toNat < newest then (newest, expires)
    else (event.createdAt.toNat, now + dedupTtlSecs)
  | none => (event.createdAt.toNat, now + dedupTtlSecs)

theorem mark_watermark_self (hr : Roomy r) (now : ℕ) (event : N.Event) :
    (r.mark now event).watermark.lookup event.pubkey =
      some (marked now event (r.watermark.lookup event.pubkey)) := by
  have hroom : (r.makeRoom now).watermark = r.watermark := shed_of_lt hr.2
  simp only [mark, hroom]
  cases hmark : r.watermark.lookup event.pubkey with
  | none => exact AList.lookup_insert _
  | some mark =>
    simp only [marked]
    split_ifs
    · exact hmark
    · exact AList.lookup_insert _

theorem mark_watermark_of_ne (hr : Roomy r) (now : ℕ) {app : N.PublicKey}
    (hne : app ≠ event.pubkey) :
    (r.mark now event).watermark.lookup app = r.watermark.lookup app := by
  have hroom : (r.makeRoom now).watermark = r.watermark := shed_of_lt hr.2
  simp only [mark, hroom]
  split
  · split_ifs
    · rfl
    · exact AList.lookup_insert_ne hne
  · exact AList.lookup_insert_ne hne

/-- With room, another id's admission leaves this id's entry alone. -/
theorem admitStep_seen_of_ne {delivery : Delivery N} {i : String} (hr : Roomy r)
    (h : delivery.2.id ≠ i) : (admitStep r delivery).seen.lookup i = r.seen.lookup i := by
  unfold admitStep
  cases ha : (r.admit_ delivery.1 delivery.2).2 with
  | false => rw [admit_refused ha]
  | true => rw [admit_admitted ha, mark_seen_of_ne r _ h.symm, shed_of_lt hr.1]

theorem admitStep_seen_of_refused {delivery : Delivery N} {i : String}
    (h : (r.admit_ delivery.1 delivery.2).2 = false) :
    (admitStep r delivery).seen.lookup i = r.seen.lookup i := by
  unfold admitStep
  rw [admit_refused h]

theorem admitStep_seen_self {delivery : Delivery N}
    (h : (r.admit_ delivery.1 delivery.2).2 = true) :
    (admitStep r delivery).seen.lookup delivery.2.id = some (delivery.1 + dedupTtlSecs) := by
  unfold admitStep
  rw [admit_admitted h]
  exact mark_seen_self r _ _

/-- The id's entry runs at least until a moment. -/
def SeenUntil (i : String) (moment : ℕ) (r : Replay N) : Prop :=
  ∃ expires, r.seen.lookup i = some expires ∧ moment ≤ expires

theorem seenUntil_step {i : String} {moment : ℕ} {delivery : Delivery N}
    (h : SeenUntil i moment r) (hr : Roomy r) (hnow : moment ≤ delivery.1 + dedupTtlSecs) :
    SeenUntil i moment (admitStep r delivery) := by
  by_cases hi : delivery.2.id = i
  · cases ha : (r.admit_ delivery.1 delivery.2).2 with
    | false => simpa [SeenUntil, admitStep_seen_of_refused ha] using h
    | true => exact ⟨_, hi ▸ admitStep_seen_self ha, hnow⟩
  · simpa [SeenUntil, admitStep_seen_of_ne hr hi] using h

/-- An event admitted again is admitted after its entry ran out. -/
theorem le_of_admitted {i : String} {moment now : ℕ} (h : SeenUntil i moment r)
    (hi : event.id = i) (ha : (r.admit_ now event).2 = true) : moment ≤ now := by
  obtain ⟨expires, hlook, hle⟩ := h
  have hunseen : expires ≤ now := by
    simp only [admit_snd, Bool.and_eq_true, seenBefore_of_some hi hlook] at ha
    simpa using ha.1
  exact hle.trans hunseen

/-- Two admissions of one event are a dedup lifetime apart. -/
theorem admissions_apart (event : N.Event)
    (hroom : Along admitStep (fun r _ => Roomy r) r deliveries)
    (hclock : deliveries.Pairwise fun d d' => d.1 ≤ d'.1) :
    (visits admitStep r deliveries).Pairwise fun early late =>
      admits event early = true → admits event late = true →
        early.2.1 + dedupTtlSecs ≤ late.2.1 := by
  induction deliveries generalizing r with
  | nil => exact .nil
  | cons d ds ih =>
    obtain ⟨-, hroom⟩ := along_cons.mp hroom
    obtain ⟨hfirst, hclock⟩ := List.pairwise_cons.mp hclock
    refine List.pairwise_cons.mpr ⟨fun late hlate hd hl => ?_, ih hroom hclock⟩
    simp only [admits, Bool.and_eq_true] at hd hl
    have hentry : SeenUntil event.id (d.1 + dedupTtlSecs) (admitStep r d) :=
      ⟨_, sameEvent_id hd.1 ▸ admitStep_seen_self hd.2, le_rfl⟩
    have hall := along_invariant
      (fun s a hs (hP : Roomy s ∧ d.1 ≤ a.1) =>
        seenUntil_step hs hP.1 (Nat.add_le_add_right hP.2 _))
      hentry (hroom.and (along_of_forall hfirst))
    exact le_of_admitted (hall late hlate) (sameEvent_id hl.1) hl.2

/-- While nothing admits the event again, whatever passes is inside its entry's lifetime. -/
theorem lt_of_passes {expires : ℕ} (hlook : r.seen.lookup event.id = some expires)
    (hroom : Along admitStep (fun r _ => Roomy r) r deliveries) (hid : IdNames event deliveries)
    (hnone : (visits admitStep r deliveries).countP (admits event) = 0) :
    ∀ visit ∈ visits admitStep r deliveries, passes event visit = true →
      visit.2.1 < expires := by
  induction deliveries generalizing r with
  | nil => simp [visits]
  | cons d ds ih =>
    obtain ⟨hr, hroom⟩ := along_cons.mp hroom
    have hd : admits event (r, d) = false := by
      cases hh : admits event (r, d) with
      | false => rfl
      | true => simp [visits, hh] at hnone
    have hds : (visits admitStep (admitStep r d) ds).countP (admits event) = 0 := by
      simpa [visits, hd] using hnone
    have hid' : IdNames event ds := fun x hx => hid x (List.mem_cons_of_mem _ hx)
    have hkeep : (admitStep r d).seen.lookup event.id = some expires := by
      by_cases hi : d.2.id = event.id
      · have hsame := hid d List.mem_cons_self hi
        have href : (r.admit_ d.1 d.2).2 = false := by simpa [admits, hsame] using hd
        rw [admitStep_seen_of_refused href, hlook]
      · rw [admitStep_seen_of_ne hr hi, hlook]
    intro visit hvisit hpass
    rcases List.mem_cons.mp hvisit with rfl | hlater
    · simp only [passes, Bool.and_eq_true] at hpass
      have href : (r.admit_ d.1 d.2).2 = false := by simpa [admits, hpass.1] using hd
      simpa [admit_snd, hpass.2, seenBefore_of_some (sameEvent_id hpass.1) hlook] using href
    · exact ih hkeep hroom hid' hds visit hlater hpass

theorem noGap_of_admitted_once (hlook : r.seen.lookup event.id = none)
    (hroom : Along admitStep (fun r _ => Roomy r) r deliveries)
    (hclock : deliveries.Pairwise fun d d' => d.1 ≤ d'.1) (hid : IdNames event deliveries)
    (honce : (visits admitStep r deliveries).countP (admits event) ≤ 1) :
    NoGap event r deliveries := by
  induction deliveries generalizing r with
  | nil => exact .nil
  | cons d ds ih =>
    obtain ⟨hr, hroom⟩ := along_cons.mp hroom
    obtain ⟨hfirst, hclock⟩ := List.pairwise_cons.mp hclock
    have hid' : IdNames event ds := fun x hx => hid x (List.mem_cons_of_mem _ hx)
    cases hd : admits event (r, d) with
    | true =>
      -- the first admission: what passes later is inside the entry it leaves
      have hnone : (visits admitStep (admitStep r d) ds).countP (admits event) = 0 := by
        simpa [visits, hd] using honce
      simp only [admits, Bool.and_eq_true] at hd
      have hentry := sameEvent_id hd.1 ▸ admitStep_seen_self hd.2
      have hlt := lt_of_passes hentry hroom hid' hnone
      refine List.pairwise_cons.mpr ⟨fun late hlate _ hl => hlt late hlate hl, ?_⟩
      refine List.Pairwise.imp_of_mem (R := fun _ _ => True)
        (fun {early late} hearly hlate _ _ hl => ?_) (List.pairwise_of_forall fun _ _ => trivial)
      have hnow : d.1 ≤ early.2.1 := along_of_forall hfirst early hearly
      exact Nat.lt_of_lt_of_le (hlt late hlate hl) (Nat.add_le_add_right hnow _)
    | false =>
      have honce' : (visits admitStep (admitStep r d) ds).countP (admits event) ≤ 1 := by
        simpa [visits, hd] using honce
      have hkeep : (admitStep r d).seen.lookup event.id = none := by
        by_cases hi : d.2.id = event.id
        · have hsame := hid d List.mem_cons_self hi
          have href : (r.admit_ d.1 d.2).2 = false := by simpa [admits, hsame] using hd
          rw [admitStep_seen_of_refused href, hlook]
        · rw [admitStep_seen_of_ne hr hi, hlook]
      refine List.pairwise_cons.mpr ⟨fun late _ hpass _ => ?_, ih hkeep hroom hclock hid' honce'⟩
      -- an unseen event that passes would have been admitted
      simp only [passes, Bool.and_eq_true] at hpass
      have hunseen : r.seenBefore d.1 d.2 = false :=
        seenBefore_of_none (sameEvent_id hpass.1) hlook
      simp [admits, hpass.1, admit_snd, hpass.2, hunseen] at hd

/-- An event first delivered after its own moment leaves no gap: it goes stale before its
entry runs out. -/
theorem noGap_of_past (hpast : ∀ d ∈ deliveries, event.createdAt.toNat < d.1) :
    NoGap event r deliveries := by
  refine List.Pairwise.imp_of_mem (R := fun _ _ => True)
    (fun {early late} hearly _ _ _ hl => ?_) (List.pairwise_of_forall fun _ _ => trivial)
  have hafter : event.createdAt.toNat < early.2.1 :=
    along_of_forall hpast early hearly
  simp only [passes, isPlausible, sameEvent, Bool.and_eq_true, beq_iff_eq] at hl
  have hfresh := (bounds_of_isFresh hl.2.1).2
  rw [hl.1.2] at hfresh
  simp only [dedupTtlSecs]
  omega

theorem admitted_at_most_once_iff (event : N.Event)
    (hroom : Along admitStep (fun r _ => Roomy r) .empty deliveries)
    (hclock : deliveries.Pairwise fun d d' => d.1 ≤ d'.1) :
    (NoGap event .empty deliveries →
      (visits admitStep .empty deliveries).countP (admits event) ≤ 1) ∧
    (IdNames event deliveries →
      ((visits admitStep .empty deliveries).countP (admits event) ≤ 1 ↔
        NoGap event .empty deliveries)) := by
  have hforward : NoGap event .empty deliveries →
      (visits admitStep .empty deliveries).countP (admits event) ≤ 1 := by
    intro hgap
    refine countP_le_one_iff.mpr (hgap.and (admissions_apart event hroom hclock) |>.imp ?_)
    intro early late ⟨hnear, hfar⟩ he hl
    have hpass : ∀ visit, admits event visit = true → passes event visit = true := by
      intro visit h
      simp only [admits, admit_snd, Bool.and_eq_true] at h
      simp [passes, h.1, h.2.2]
    have := hnear (hpass _ he) (hpass _ hl)
    have := hfar he hl
    omega
  exact ⟨hforward, fun hid =>
    ⟨fun honce => noGap_of_admitted_once rfl hroom hclock hid honce, hforward⟩⟩

private def note : (Crate.plain []).Event := ⟨"id", "app", 1000, 24133, ["pub-key"], "", true⟩

theorem admitted_at_most_once_note :
    (visits admitStep .empty [(1001, note), (1300, note)]).countP (admits note) ≤ 1 := by
  have hroom : Along admitStep (fun r _ => Roomy r) .empty [(1001, note), (1300, note)] :=
    along_cons.mpr ⟨by decide +kernel, along_cons.mpr ⟨by decide +kernel, along_nil _⟩⟩
  have hgap : NoGap note .empty [(1001, note), (1300, note)] :=
    List.pairwise_cons.mpr ⟨by intro late hlate _ _; simp [visits] at hlate; subst hlate; decide,
      List.pairwise_singleton _ _⟩
  exact (admitted_at_most_once_iff note hroom (by simp)).1 hgap

/-- Ten minutes to the second after its own moment a note is fresh again and unseen. -/
theorem admitted_twice_note :
    Along admitStep (fun r _ => Roomy r) .empty [(1000, note), (1600, note)] ∧
    [(1000, note), (1600, note)].Pairwise (fun d d' => d.1 ≤ d'.1) ∧
    (visits admitStep .empty [(1000, note), (1600, note)]).countP (admits note) = 2 :=
  ⟨along_cons.mpr ⟨by decide +kernel, along_cons.mpr ⟨by decide +kernel, along_nil _⟩⟩,
    by simp, by decide +kernel⟩

end Kuma.Nostr.Replay
