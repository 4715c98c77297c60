import Kuma.Nostr.Gate

/-! Which kinds sign unattended at Basic, over every kind an event may carry. The check keeps
sixteen bits of a kind that may have sixty-four. -/
namespace Kuma.Nostr

/-- The safe list names the kind as the number it is. -/
def Vouched (kind : UInt64) : Prop := ∃ safe ∈ safeKinds, kind.toNat = safe.toNat

variable {N : Crate}

/-- An ask to sign goes unasked at Basic only for a kind that the list names; any other is
marked on its card, and waits for the person. -/
structure FailsClosed (N : Crate) (params : List String) (kind : UInt64) : Prop where
  vouched : isSensitive N .signEvent params = false → Vouched kind
  shown : ¬ Vouched kind → ∀ (id : String) (prompt : Prompt N),
    prompt.method = .signEvent → prompt.params = params → (prompt.view id).sensitive = true
  asked : ¬ Vouched kind → ∀ (env : Env N) (e : Engine N) (app : N.PublicKey) (paired : Paired),
    findApp (N.hex app) e.inner.apps = some paired → paired.level = .basic →
    e.trustedHere env.unixNow app .signEvent = false →
    (e.judge env app .signEvent params).2 = .asking

theorem vouched_iff {kind : UInt64} :
    Vouched kind ↔ kind.toNat < 65536 ∧ kind.toUInt16 ∈ safeKinds := by
  have hcut : kind.toUInt16.toNat = kind.toNat % 65536 := UInt64.toNat_toUInt16 kind
  constructor
  · intro h
    obtain ⟨safe, hsafe, heq⟩ := h
    have hlt : safe.toNat < 65536 := safe.toNat_lt
    have hsame : kind.toUInt16 = safe := by
      apply UInt16.toNat_inj.mp
      omega
    constructor
    · omega
    · rw [hsame]
      exact hsafe
  · intro h
    refine ⟨kind.toUInt16, h.2, ?_⟩
    have hlt := h.1
    omega

section
variable {params : List String} {kind : UInt64}

theorem isSensitive_signEvent (h : params.head?.bind (eventKind N) = some kind) :
    isSensitive N .signEvent params = !safeKinds.contains kind.toUInt16 := by
  simp only [isSensitive, h]

/-- A sensitive ask without a standing answer waits at Basic. -/
theorem Engine.judge_basic {env : Env N} {e : Engine N} {app : N.PublicKey} {method : Method}
    {paired : Paired} (hfound : findApp (N.hex app) e.inner.apps = some paired)
    (hlevel : paired.level = .basic) (htrusted : e.trustedHere env.unixNow app method = false)
    (hsensitive : isSensitive N method params = true) :
    (e.judge env app method params).2 = .asking := by
  have hverdict : e.standingVerdict env.unixNow paired app method params = none := by
    simp [standingVerdict, hlevel, htrusted, hsensitive]
  simp only [judge, hfound, hverdict]

/-- The safe list fails closed on the kinds of sixteen bits, and on every longer one whose low
sixteen bits are no safe kind. -/
theorem fails_closed_iff (h : params.head?.bind (eventKind N) = some kind) :
    FailsClosed N params kind ↔ kind.toNat < 65536 ∨ kind.toUInt16 ∉ safeKinds := by
  have hcheck := isSensitive_signEvent h
  constructor
  · intro hclosed
    by_cases hmem : kind.toUInt16 ∈ safeKinds
    · have hplain : isSensitive N .signEvent params = false := by
        rw [hcheck, List.contains_iff_mem.mpr hmem]
        rfl
      exact .inl (vouched_iff.mp (hclosed.vouched hplain)).1
    · exact .inr hmem
  · intro hkind
    have hsensitive : ¬ Vouched kind → isSensitive N .signEvent params = true := by
      intro hnot
      have hmem : kind.toUInt16 ∉ safeKinds := by
        intro hmem
        rcases hkind with hlt | hnotin
        · exact hnot (vouched_iff.mpr ⟨hlt, hmem⟩)
        · exact hnotin hmem
      simp [hcheck, hmem]
    constructor
    · intro hplain
      by_contra hnot
      rw [hsensitive hnot] at hplain
      cases hplain
    · intro hnot id prompt hmethod hparams
      have hview : (prompt.view id).sensitive = isSensitive N prompt.method prompt.params := rfl
      rw [hview, hmethod, hparams]
      exact hsensitive hnot
    · intro hnot env e app paired hfound hlevel htrusted
      exact Engine.judge_basic hfound hlevel htrusted (hsensitive hnot)

end

/-- The text of an event of some kind, beside what it reads as. -/
private def kindText (kind : UInt64) : String × Json × Option Message :=
  ("\x7b\"kind\":" ++ toString kind.toNat ++ "\x7d", .object [("kind", .number (.posInt kind))],
    none)

theorem fails_closed_note :
    FailsClosed (Crate.plain [kindText 1]) [(kindText 1).1] 1 :=
  (fails_closed_iff (by decide +kernel)).mpr (.inl (by decide))

/-- Kind 65537 passes for a note. -/
theorem fails_open_beyond_sixteen_bits :
    [(kindText 65537).1].head?.bind (eventKind (Crate.plain [kindText 65537])) = some 65537 ∧
    ¬ FailsClosed (Crate.plain [kindText 65537]) [(kindText 65537).1] 65537 := by
  constructor
  · decide +kernel
  · intro hclosed
    have hplain : isSensitive (Crate.plain [kindText 65537]) .signEvent [(kindText 65537).1] =
        false := by decide +kernel
    have hvouched := vouched_iff.mp (hclosed.vouched hplain)
    revert hvouched
    decide

end Kuma.Nostr
