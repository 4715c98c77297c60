import Kuma.Lib.Escape
import Kuma.Nostr.Registry

/-! The queue of cards behind the engine's mutex: its numbering, and what each section that
touches it does to a card, to the channels and to the log. -/
namespace Kuma.Nostr
open Kuma.Lib

theorem dash_notMem_toDigits (n : ℕ) : '-' ∉ Nat.toDigits 10 n := by
  intro h
  have hdigit := Nat.isDigit_of_mem_toDigits (by omega) (by omega) h
  revert hdigit
  decide

/-- Cards of two numbers have two ids, whenever they were laid. -/
theorem promptId_inj {now now' n n' : ℕ} (h : promptId now n = promptId now' n') : n = n' := by
  have hdash : "-".toList = ['-'] := rfl
  have hchars := congrArg String.toList h
  simp only [promptId, Nat.toString_eq_ofList_toDigits, String.toList_append,
    String.toList_ofList, hdash, List.append_assoc, List.cons_append, List.nil_append] at hchars
  obtain ⟨-, hpadded⟩ :=
    Escape.append_stop_inj (dash_notMem_toDigits now) (dash_notMem_toDigits now') hchars
  have hvalue := congrArg (fun cs => Nat.ofDigitChars 10 cs 0) hpadded
  simpa only [Nat.ofDigitChars_append, Nat.ofDigitChars_replicate_zero, Nat.mul_zero,
    Nat.ofDigitChars_ten_toDigits] using hvalue

/-- The log's cap. -/
def capped (log : List LogEntry) : List LogEntry := log.drop (log.length - logCap)

/-- The entry that made one log of another. -/
def added (before after : List LogEntry) : Option LogEntry :=
  after.getLast?.filter fun entry => decide (after = capped (before ++ [entry]))

theorem added_capped (log : List LogEntry) (entry : LogEntry) :
    added log (capped (log ++ [entry])) = some entry := by
  have hlast : (capped (log ++ [entry])).getLast? = some entry := by
    have hcap : 0 < logCap := by decide
    have hlength : (log ++ [entry]).length - logCap ≤ log.length := by
      rw [List.length_append, List.length_singleton]
      omega
    rw [capped, List.drop_append_of_le_length hlength, List.getLast?_append]
    rfl
  rw [added, hlast]
  simp

namespace Engine

variable {N : Crate} {env : Env N} {e e' : Engine N} {id other : String} {p : Prompt N}

/-- The card of an id. -/
def card (e : Engine N) (id : String) : Option (Prompt N) := e.inner.prompts.lookup id

/-- An id that some card has had. -/
def Numbered (e : Engine N) (id : String) : Prop :=
  ∃ now n, id = promptId now n ∧ n ≤ e.inner.nextId

/-- What the sections rely on among the cards. -/
structure Filed (e : Engine N) : Prop where
  distinct : (e.inner.prompts.map Prod.fst).Nodup
  numbered : ∀ id p, e.card id = some p → e.Numbered id
  summed : ∀ id p, e.card id = some p → p.summary = summarize N p.method p.params
  held : ∀ id p, e.card id = some p → ∀ t ∈ p.responders, t < e.channels.length
  apart : ∀ id other p q, e.card id = some p → e.card other = some q →
    ∀ t ∈ p.responders, t ∈ q.responders → id = other

/-- A card that was there still is, for the same ask and the same waiters at least; one that was
gone still is. -/
structure Kept (e e' : Engine N) (id : String) : Prop where
  gone : e.card id = none → e'.card id = none
  stays : ∀ p, e.card id = some p → ∃ p', e'.card id = some p' ∧ p'.app = p.app ∧
    p'.method = p.method ∧ p'.params = p.params ∧ ∀ t ∈ p.responders, t ∈ p'.responders

theorem kept_of_card_eq (h : e'.card id = e.card id) : e.Kept e' id :=
  ⟨fun hnone => h.trans hnone, fun p hp => ⟨p, h.trans hp, rfl, rfl, rfl, fun _ ht => ht⟩⟩

theorem Kept.isSome (h : e.Kept e' id) : (e'.card id).isSome = (e.card id).isSome := by
  cases hc : e.card id with
  | none => rw [h.gone hc]
  | some p =>
    obtain ⟨p', hp', -⟩ := h.stays p hc
    rw [hp']
    rfl

/-- No card collects a channel that was made before but not for it. -/
def CollectsNew (e e' : Engine N) : Prop :=
  ∀ id p t, e'.card id = some p → t ∈ p.responders → t < e.channels.length →
    ∃ q, e.card id = some q ∧ t ∈ q.responders

theorem collectsNew_of_fewer (h : ∀ id p, e'.card id = some p → e.card id = some p) :
    e.CollectsNew e' := fun id p _ hp ht _ => ⟨p, h id p hp, ht⟩

/-- What a section outside the queue leaves as it was. -/
structure Aside (e e' : Engine N) : Prop where
  prompts : e'.inner.prompts = e.inner.prompts
  channels : e'.channels = e.channels
  nextId : e'.inner.nextId = e.inner.nextId

theorem Aside.refl (e : Engine N) : e.Aside e := ⟨rfl, rfl, rfl⟩

theorem Aside.trans {e'' : Engine N} (h : e.Aside e') (h' : e'.Aside e'') : e.Aside e'' :=
  ⟨h'.prompts.trans h.prompts, h'.channels.trans h.channels, h'.nextId.trans h.nextId⟩

theorem Aside.card (h : e.Aside e') (id : String) : e'.card id = e.card id := by
  rw [Engine.card, Engine.card, h.prompts]

/-- The cards stay in order while some of them go. -/
theorem Filed.fewer (h : e.Filed) (hdistinct : (e'.inner.prompts.map Prod.fst).Nodup)
    (hcards : ∀ id p, e'.card id = some p → e.card id = some p)
    (hlength : e'.channels.length = e.channels.length)
    (hnext : e'.inner.nextId = e.inner.nextId) : e'.Filed := by
  constructor
  · exact hdistinct
  · intro id p hp
    obtain ⟨now, n, hid, hn⟩ := h.numbered id p (hcards id p hp)
    exact ⟨now, n, hid, hnext.symm ▸ hn⟩
  · intro id p hp
    exact h.summed id p (hcards id p hp)
  · intro id p hp
    rw [hlength]
    exact h.held id p (hcards id p hp)
  · intro id other p q hp hq
    exact h.apart id other p q (hcards id p hp) (hcards other q hq)

theorem Aside.filed (h : e.Aside e') (hfiled : e.Filed) : e'.Filed := by
  refine hfiled.fewer ?_ ?_ ?_ h.nextId
  · rw [h.prompts]
    exact hfiled.distinct
  · intro id p hp
    rwa [h.card] at hp
  · rw [h.channels]

/-- Taking one card out. -/
theorem Filed.struck (h : e.Filed) (id : String)
    (hprompts : e'.inner.prompts = Register.strike id e.inner.prompts)
    (hlength : e'.channels.length = e.channels.length)
    (hnext : e'.inner.nextId = e.inner.nextId) :
    e'.card id = none ∧ (∀ other, other ≠ id → e'.card other = e.card other) ∧ e'.Filed := by
  have hself : e'.card id = none := by
    rw [card, hprompts, Register.lookup_strike_self]
  have hothers : ∀ other, other ≠ id → e'.card other = e.card other := by
    intro other hne
    rw [card, card, hprompts, Register.lookup_strike_of_ne hne]
  refine ⟨hself, hothers, h.fewer ?_ ?_ hlength hnext⟩
  · rw [hprompts]
    exact h.distinct.sublist (List.filter_sublist.map Prod.fst)
  · intro other p hp
    by_cases hne : other = id
    · rw [hne, hself] at hp
      cases hp
    · rwa [hothers other hne] at hp

/-- A card that is new, or that one more waits on. -/
theorem Filed.grown (h : e.Filed) (hdistinct : (e'.inner.prompts.map Prod.fst).Nodup)
    (hself : e'.card id = some p)
    (hothers : ∀ other, other ≠ id → e'.card other = e.card other)
    (hlength : e'.channels.length = e.channels.length + 1)
    (hnext : e.inner.nextId ≤ e'.inner.nextId) (hnumbered : e'.Numbered id)
    (hsummed : p.summary = summarize N p.method p.params)
    (hresponders : ∀ t ∈ p.responders, t = e.channels.length ∨
      ∃ q, e.card id = some q ∧ t ∈ q.responders) : e'.Filed := by
  have hheld : ∀ t ∈ p.responders, t < e'.channels.length := by
    intro t ht
    rcases hresponders t ht with rfl | ⟨q, hq, ht⟩
    · omega
    · have hlt := h.held id q hq t ht
      omega
  -- a ticket of this card is on no other card
  have halone : ∀ other q, other ≠ id → e.card other = some q →
      ∀ t ∈ p.responders, t ∉ q.responders := by
    intro other q hne hq t ht htq
    rcases hresponders t ht with rfl | ⟨q', hq', ht'⟩
    · exact absurd (h.held other q hq _ htq) (by omega)
    · exact hne (h.apart id other q' q hq' hq t ht' htq).symm
  constructor
  · exact hdistinct
  · intro other q hq
    by_cases hne : other = id
    · exact hne ▸ hnumbered
    · rw [hothers other hne] at hq
      obtain ⟨now, n, hid, hn⟩ := h.numbered other q hq
      exact ⟨now, n, hid, by omega⟩
  · intro other q hq
    by_cases hne : other = id
    · obtain rfl : p = q := by
        rw [hne, hself] at hq
        exact Option.some.inj hq
      exact hsummed
    · rw [hothers other hne] at hq
      exact h.summed other q hq
  · intro other q hq t ht
    by_cases hne : other = id
    · obtain rfl : p = q := by
        rw [hne, hself] at hq
        exact Option.some.inj hq
      exact hheld t ht
    · rw [hothers other hne] at hq
      have hlt := h.held other q hq t ht
      omega
  · intro one other q q' hq hq' t ht ht'
    by_cases hone : one = id
    · by_cases hother : other = id
      · rw [hone, hother]
      · obtain rfl : p = q := by
          rw [hone, hself] at hq
          exact Option.some.inj hq
        rw [hothers other hother] at hq'
        exact absurd ht' (halone other q' hother hq' t ht)
    · rw [hothers one hone] at hq
      by_cases hother : other = id
      · obtain rfl : p = q' := by
          rw [hother, hself] at hq'
          exact Option.some.inj hq'
        exact absurd ht (halone one q hone hq t ht')
      · rw [hothers other hother] at hq'
        exact h.apart one other q q' hq hq' t ht ht'

theorem aside_recordLog (env : Env N) (e : Engine N) (app method summary verdict : String) :
    e.Aside (e.recordLog env app method summary verdict) := by
  constructor <;> simp only [recordLog, persistLog]

theorem aside_persistApps (env : Env N) (e : Engine N) : e.Aside (e.persistApps env) :=
  ⟨rfl, rfl, rfl⟩

theorem log_recordLog (env : Env N) (e : Engine N) (app method summary verdict : String) :
    (e.recordLog env app method summary verdict).inner.log =
      capped (e.inner.log ++ [⟨env.unixNow, app, method, summary, verdict⟩]) := by
  simp only [recordLog, persistLog, capped]

theorem aside_withApps (e : Engine N) (apps : List Paired) : e.Aside (e.withApps apps) :=
  ⟨rfl, rfl, rfl⟩

theorem aside_withRemembered (e : Engine N) (remembered : HashMap String ℕ) :
    e.Aside (e.withRemembered remembered) := ⟨rfl, rfl, rfl⟩

theorem aside_pair {who : N.PublicKey} (h : e.pair env who = some e') : e.Aside e' := by
  obtain ⟨p, -, rfl⟩ | ⟨-, p, -, -, rfl⟩ := pairWithMetadata_cases h
  · exact aside_withApps ..
  · exact ((aside_withApps ..).trans (aside_recordLog ..)).trans (aside_persistApps ..)

theorem aside_revoke {app : String} {result : Engine N × Bool}
    (h : e.revoke env app = some result) : e.Aside result.1 := by
  obtain ⟨-, hsame, -⟩ | ⟨p, marked, -, -, hmarked, hresult⟩ := revoke_cases h
  · exact hsame ▸ .refl e
  · have hmark : e.Aside marked :=
      hmarked ▸ (aside_withApps ..).trans (aside_withRemembered ..)
    rw [hresult]
    split_ifs
    · exact (hmark.trans (aside_recordLog ..)).trans (aside_persistApps ..)
    · exact hmark.trans (aside_persistApps ..)

theorem aside_remove {app method summary : String} {result : Engine N × Bool}
    (h : e.remove env app method summary = some result) : e.Aside result.1 := by
  have hgone : e.Aside (e.removeApp app).1 :=
    (aside_withApps ..).trans (aside_withRemembered ..)
  rw [(remove_cases h).2]
  split_ifs
  · exact (hgone.trans (aside_recordLog ..)).trans (aside_persistApps ..)
  · exact hgone

theorem aside_rename {app name : String} {result : Engine N × Bool}
    (h : e.rename env app name = some result) : e.Aside result.1 := by
  obtain ⟨-, hsame, -⟩ | ⟨-, -, hresult⟩ := rename_cases h
  · exact hsame ▸ .refl e
  · rw [hresult]
    exact ((aside_withApps ..).trans (aside_recordLog ..)).trans (aside_persistApps ..)

theorem aside_setLevel {app : String} {level : Level} {result : Engine N × Except String Unit}
    (h : e.setLevel env app level = some result) : e.Aside result.1 := by
  obtain ⟨-, hsame, -⟩ | ⟨-, -, hresult⟩ := setLevel_cases h
  · exact hsame ▸ .refl e
  · rw [hresult]
    exact (aside_withApps ..).trans (aside_persistApps ..)

section
variable {who : N.PublicKey} {method : Method} {params : List String}

theorem aside_judge : e.Aside (e.judge env who method params).1 := by
  cases hf : findApp (N.hex who) e.inner.apps with
  | none =>
    have hgone : e.judge env who method params = ({ e with poisoned := true }, .panicked) := by
      simp [judge, hf]
    rw [hgone]
    exact ⟨rfl, rfl, rfl⟩
  | some paired =>
    simp only [judge, hf]
    cases e.standingVerdict env.unixNow paired who method params with
    | none => exact aside_withApps ..
    | some verdict =>
      exact ((aside_withApps ..).trans (aside_recordLog ..)).trans (aside_persistApps ..)

theorem judge_unasked :
    (∀ id ticket d, (e.judge env who method params).2 ≠ .waiting id ticket d) ∧
      ∀ id, (e.judge env who method params).2 ≠ .expired id := by
  unfold judge
  grind

/-- The card that an ask lays for itself. -/
def laidCard (who : N.PublicKey) (method : Method) (params : List String) (ticket : ℕ) :
    Prompt N where
  app := who
  method := method
  params := params
  summary := summarize N method params
  responders := [ticket]

/-- An ask joins the card of an identical one or lays its own, and waits there. -/
theorem register_spec (hfiled : e.Filed) (env : Env N) (who : N.PublicKey) (method : Method)
    (params : List String) :
    let laid := e.register env who method params
    ∃ id p, laid.2 = .waiting id e.channels.length (env.instant + promptTtl) ∧
      laid.1.channels = e.channels ++ [⟨none, true⟩] ∧
      laid.1.card id = some p ∧ p.app = who ∧ p.method = method ∧ p.params = params ∧
      e.channels.length ∈ p.responders ∧ laid.1.Filed ∧
      e.inner.nextId ≤ laid.1.inner.nextId ∧ e.CollectsNew laid.1 ∧
      ∀ other, e.Numbered other → e.Kept laid.1 other := by
  cases hfind : e.inner.prompts.findIdx? (identicalAsk who method params) with
  | some i =>
    obtain ⟨hi, hask, -⟩ := List.findIdx?_eq_some_iff_getElem.mp hfind
    obtain ⟨⟨id, p⟩, hentry⟩ : ∃ entry, e.inner.prompts[i]? = some entry :=
      ⟨_, List.getElem?_eq_getElem hi⟩
    have hget : e.inner.prompts[i] = (id, p) := by
      rw [List.getElem?_eq_getElem hi] at hentry
      exact Option.some.inj hentry
    obtain ⟨⟨happ, hmethod⟩, hparams⟩ :
        (p.app = who ∧ p.method = method) ∧ p.params = params := by
      simpa [identicalAsk, hget] using hask
    have hp : e.card id = some p :=
      Register.lookup_of_mem hfiled.distinct (List.mem_of_getElem? hentry)
    have hlaid : e.register env who method params =
        ({ e with
            inner := { e.inner with prompts := e.inner.prompts.modify i fun entry =>
              (entry.1, { entry.2 with
                responders := entry.2.responders ++ [e.channels.length] }) }
            channels := e.channels ++ [⟨none, true⟩] },
          .waiting id e.channels.length (env.instant + promptTtl)) := by
      simp [register, hfind, hentry]
    obtain ⟨hself, hothers⟩ := Register.lookup_modify (f := fun p : Prompt N =>
      { p with responders := p.responders ++ [e.channels.length] }) hfiled.distinct hentry
    rw [hlaid]
    have hnumbered := hfiled.numbered id p hp
    refine ⟨id, _, rfl, rfl, hself, happ, hmethod, hparams, ?_, ?_, le_rfl, ?_, ?_⟩
    · exact List.mem_append_right _ List.mem_cons_self
    · refine hfiled.grown ?_ hself hothers List.length_append le_rfl hnumbered
        (hfiled.summed id p hp) ?_
      · have hkeys := Register.keys_modify (r := e.inner.prompts) (i := i)
          (f := fun p : Prompt N => { p with responders := p.responders ++ [e.channels.length] })
        exact hkeys ▸ hfiled.distinct
      · intro t ht
        rcases List.mem_append.mp ht with hold | hnew
        · exact .inr ⟨p, hp, hold⟩
        · exact .inl (List.mem_singleton.mp hnew)
    · intro other q t hq ht hlt
      by_cases hne : other = id
      · have hq' : some { p with responders := p.responders ++ [e.channels.length] } = some q := by
          rw [← hq, hne]
          exact hself.symm
        obtain rfl := Option.some.inj hq'
        rcases List.mem_append.mp ht with hold | hnew
        · exact ⟨p, hne ▸ hp, hold⟩
        · rw [List.mem_singleton.mp hnew] at hlt
          exact absurd hlt (Nat.lt_irrefl _)
      · exact ⟨q, (hothers other hne).symm.trans hq, ht⟩
    · intro other _
      by_cases hne : other = id
      · subst hne
        refine ⟨fun hnone => ?_, fun q hq => ?_⟩
        · rw [hp] at hnone
          cases hnone
        · obtain rfl : p = q := by
            rw [hp] at hq
            exact Option.some.inj hq
          exact ⟨_, hself, rfl, rfl, rfl, fun t ht => List.mem_append_left _ ht⟩
      · exact kept_of_card_eq (hothers other hne)
  | none =>
    have hfresh : ∀ other, e.Numbered other →
        other ≠ promptId env.unixNow (e.inner.nextId + 1) := by
      rintro other ⟨now, n, rfl, hn⟩ heq
      have hnumber := promptId_inj heq
      omega
    have hnone : e.card (promptId env.unixNow (e.inner.nextId + 1)) = none := by
      cases hc : e.card (promptId env.unixNow (e.inner.nextId + 1)) with
      | none => rfl
      | some p => exact absurd rfl (hfresh _ (hfiled.numbered _ p hc))
    have hlaid : e.register env who method params =
        ({ e with
            inner := { e.inner with
              prompts := e.inner.prompts ++ [(promptId env.unixNow (e.inner.nextId + 1),
                laidCard who method params e.channels.length)]
              nextId := e.inner.nextId + 1 }
            channels := e.channels ++ [⟨none, true⟩] },
          .waiting (promptId env.unixNow (e.inner.nextId + 1)) e.channels.length
            (env.instant + promptTtl)) := by
      simp [register, hfind, laidCard]
    rw [hlaid]
    have hself := Register.lookup_append_of_none hnone
      (promptId env.unixNow (e.inner.nextId + 1), laidCard who method params e.channels.length)
    rw [if_pos rfl] at hself
    have hothers : ∀ other, other ≠ promptId env.unixNow (e.inner.nextId + 1) →
        List.lookup other (e.inner.prompts ++ [(promptId env.unixNow (e.inner.nextId + 1),
          laidCard who method params e.channels.length)]) = e.card other := by
      intro other hne
      cases hc : e.card other with
      | none => rw [Register.lookup_append_of_none hc, if_neg hne.symm]
      | some p => exact Register.lookup_append_of_some hc _
    refine ⟨_, _, rfl, rfl, hself, rfl, rfl, rfl, List.mem_cons_self, ?_, Nat.le_succ _, ?_, ?_⟩
    · refine hfiled.grown ?_ hself hothers List.length_append (Nat.le_succ _)
        ⟨_, _, rfl, le_rfl⟩ rfl ?_
      · have hnew : promptId env.unixNow (e.inner.nextId + 1) ∉ e.inner.prompts.map Prod.fst := by
          rw [Register.mem_keys_iff]
          change ¬ (e.card _).isSome = true
          rw [hnone]
          exact Bool.false_ne_true
        change ((e.inner.prompts ++ [_]).map Prod.fst).Nodup
        rw [List.map_append]
        exact hfiled.distinct.append (List.nodup_singleton _)
          (List.disjoint_singleton.mpr hnew)
      · intro t ht
        exact .inl (List.mem_singleton.mp ht)
    · intro other q t hq ht hlt
      by_cases hne : other = promptId env.unixNow (e.inner.nextId + 1)
      · have hq' : some (laidCard who method params e.channels.length) = some q := by
          rw [← hq, hne]
          exact hself.symm
        obtain rfl := Option.some.inj hq'
        rw [List.mem_singleton.mp ht] at hlt
        exact absurd hlt (Nat.lt_irrefl _)
      · exact ⟨q, (hothers other hne).symm.trans hq, ht⟩
    · intro other hnumbered
      exact kept_of_card_eq (hothers other (hfresh other hnumbered))

/-- A channel nothing was sent into, its receiver gone. -/
def closing (e : Engine N) (ticket : ℕ) : Engine N :=
  { e with channels := e.channels.set ticket ⟨none, false⟩ }

/-- The one card of an expiry goes, and the log says so. -/
theorem expire_spec (hfiled : e.Filed) (h : e.card id = some p) (env : Env N)
    (who : N.PublicKey) (method : Method) (params : List String) :
    let taken := (e.expire env who method params id).1
    taken.card id = none ∧ (∀ other, other ≠ id → taken.card other = e.card other) ∧
      taken.channels = e.channels ∧ taken.inner.nextId = e.inner.nextId ∧ taken.Filed ∧
      added e.inner.log taken.inner.log =
        some ⟨env.unixNow, N.hex who, method.debug, summarize N method params,
          "expired unanswered"⟩ := by
  have hqueued : (e.inner.prompts.any fun entry => entry.1 == id) = true := by
    rw [Register.any_eq_isSome_lookup, ← card, h]
    rfl
  intro taken
  have htaken : taken = ({ e with
      inner := { e.inner with
        prompts := Register.strike id e.inner.prompts } } : Engine N).recordLog env (N.hex who)
        method.debug (summarize N method params) "expired unanswered" := by
    simp only [taken, expire, hqueued, if_true]
    rfl
  have haside := aside_recordLog env { e with
    inner := { e.inner with prompts := Register.strike id e.inner.prompts } } (N.hex who)
      method.debug (summarize N method params) "expired unanswered"
  rw [← htaken] at haside
  obtain ⟨hself, hothers, htakenFiled⟩ :=
    hfiled.struck id haside.prompts (congrArg List.length haside.channels) haside.nextId
  refine ⟨hself, hothers, haside.channels, haside.nextId, htakenFiled, ?_⟩
  rw [htaken, log_recordLog]
  exact added_capped _ _

end

/-- An answer reaches every channel of the card that still has a receiver. -/
theorem getElem?_sendAll (channels : List Oneshot) (decision : Decision) (tickets : List ℕ)
    (t : ℕ) : (sendAll channels decision tickets).1[t]? =
      (channels[t]?).map fun c =>
        if t ∈ tickets ∧ c.open_ then { c with sent := some decision } else c := by
  induction tickets generalizing channels with
  | nil => simp [sendAll]
  | cons ticket tickets ih =>
    simp only [sendAll, ih]
    unfold send
    cases hc : channels[ticket]? with
    | none =>
      by_cases ht : t = ticket
      · simp [ht, hc]
      · simp [ht]
    | some c =>
      by_cases ht : t = ticket
      · subst ht
        by_cases hopen : c.open_ = true
        · obtain ⟨hlt, hget⟩ := List.getElem?_eq_some_iff.mp hc
          simp [hopen, hlt, hget]
        · simp [hopen, hc]
      · by_cases hopen : c.open_ = true
        · simp [hopen, ht, List.getElem?_set_ne (Ne.symm ht)]
        · simp [hopen, ht]

theorem length_sendAll (channels : List Oneshot) (decision : Decision) (tickets : List ℕ) :
    (sendAll channels decision tickets).1.length = channels.length := by
  induction tickets generalizing channels with
  | nil => rfl
  | cons ticket tickets ih =>
    have hsend : (send channels ticket decision).1.length = channels.length := by
      unfold send
      split
      · split_ifs
        · exact List.length_set
        · rfl
      · rfl
    simp only [sendAll, ih, hsend]

/-- An answered card is gone, with a word in the log and to everyone who waits on it. -/
theorem answer_spec (hfiled : e.Filed) {decision : Decision} {remember : Option ℕ}
    {result : Except String Unit} (h : e.answer env id decision remember = some (e', result)) :
    (e.card id = none ∧ e' = e) ∨ ∃ p, e.card id = some p ∧ e'.card id = none ∧
      (∀ other, other ≠ id → e'.card other = e.card other) ∧
      e'.channels = (sendAll e.channels decision p.responders).1 ∧
      e'.inner.nextId = e.inner.nextId ∧ e'.Filed ∧ ∃ verdict,
        added e.inner.log e'.inner.log = some ⟨env.unixNow, N.hex p.app, p.method.debug,
          summarize N p.method p.params, verdict⟩ := by
  obtain ⟨inner, hlock, h⟩ := Option.bind_eq_some_iff.mp h
  obtain ⟨-, rfl⟩ := lock_eq_some hlock
  have hfind : (e.inner.prompts.find? fun p => p.1 == id) = (e.card id).map fun p => (id, p) :=
    Register.find?_eq_lookup
  cases hc : e.card id with
  | none =>
    left
    simp only [hfind, hc, Option.map_none, Option.pure_def, Option.some.injEq, Prod.mk.injEq] at h
    exact ⟨rfl, h.1.symm⟩
  | some p =>
    right
    simp only [hfind, hc, Option.map_some, Option.pure_def, Option.some.injEq, Prod.mk.injEq] at h
    obtain ⟨rfl, -⟩ := h
    generalize hverdict : (if (sendAll e.channels decision p.responders).2 = true then
      verdictOf decision else "an answer came after the window closed") = verdict
    have haside (remembered : HashMap String ℕ) := aside_recordLog env { e with
      inner := { e.inner with
        prompts := e.inner.prompts.eraseP fun p => p.1 == id, remembered }
      channels := (sendAll e.channels decision p.responders).1 } (N.hex p.app) p.method.debug
        p.summary verdict
    have hstruck (remembered : HashMap String ℕ) := hfiled.struck id
      ((haside remembered).prompts.trans (Register.eraseP_eq_strike hfiled.distinct))
      ((congrArg List.length (haside remembered).channels).trans (length_sendAll ..))
      (haside remembered).nextId
    refine ⟨p, rfl, (hstruck _).1, (hstruck _).2.1, (haside _).channels, (haside _).nextId,
      (hstruck _).2.2, verdict, ?_⟩
    rw [log_recordLog, hfiled.summed id p hc]
    exact added_capped _ _

end Engine
end Kuma.Nostr
