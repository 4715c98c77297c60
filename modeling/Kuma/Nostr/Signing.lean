import Kuma.Nostr.Gate

/-! What is signed is what was judged: the signer and the gate read the kind and the content
of a `sign_event` with different code, and agree on everything that gets signed. -/
namespace Kuma.Nostr

variable {N : Crate} {env : Env N} {b : Bunker N} {params : List String} {signed : N.Event}

/-- The signer's kind is the gate's, at the wider integer type. -/
theorem eventKind_of_signerKind {json : String} {parsed : Json} {kind : UInt16}
    (hparse : N.parseJson json = .ok parsed) (h : Bunker.signerKind parsed = some kind) :
    eventKind N json = some kind.toUInt64 := by
  unfold Bunker.signerKind at h
  split at h
  · rename_i n hget
    obtain ⟨k, hk, hcut⟩ := Option.bind_eq_some_iff.mp h
    split_ifs at hcut with hlt
    obtain rfl := Option.some.inj hcut
    have hwide : k.toUInt16.toUInt64 = k := by
      apply UInt64.toNat_inj.mp
      rw [UInt16.toNat_toUInt64, UInt64.toNat_toUInt16]
      exact Nat.mod_eq_of_lt hlt
    simp [eventKind, hparse, hget, Except.toOption, hk, hwide]
  · rename_i s hget
    simp [eventKind, hparse, hget, Except.toOption, parseU64_of_parseU16 h]
  · cases h

/-- An event that comes out signed was read from the first param, kind and content. -/
theorem signEvent_signed (hN : N.SigningKeepsBody)
    (h : b.signEvent env params = .withResult (.signEvent signed)) :
    ∃ json parsed, params.head? = some json ∧ N.parseJson json = .ok parsed ∧
      Bunker.signerKind parsed = some signed.kind ∧
      signed.content = ((parsed.get? "content").bind Json.asStr).getD "" := by
  unfold Bunker.signEvent at h
  split at h
  · cases h
  · rename_i json hjson
    split at h
    · cases h
    · rename_i parsed hparse
      split at h
      · cases h
      · rename_i kind hkind
        dsimp only at h
        split at h
        · cases h
        · split at h
          · rename_i hsign
            cases h
            obtain ⟨hk, hc⟩ := hN _ _ _ _ hsign
            exact ⟨json, parsed, hjson, hparse, hk ▸ hkind, hc⟩
          · cases h

/-- The cut to sixteen bits undoes the widening. -/
theorem isSensitive_eq_false_iff {json : String} {kind : UInt16} (hjson : params.head? = some json)
    (hkind : eventKind N json = some kind.toUInt64) :
    isSensitive N .signEvent params = false ↔ kind ∈ safeKinds := by
  simp [isSensitive, hjson, hkind]

/-- At Basic with no live grant, what is not sensitive alone is allowed unasked. -/
theorem isSensitive_of_basic {e : Engine N} {app : N.PublicKey} {method : Method}
    {paired : Paired} {decision : Decision}
    (hfind : findApp (N.hex app) e.inner.apps = some paired) (hlevel : paired.level = .basic)
    (hgrant : e.trustedHere env.unixNow app method = false)
    (h : (e.advance env app method params .paired).2 = .returned decision) :
    isSensitive N method params = false := by
  cases hs : isSensitive N method params with
  | false => rfl
  | true =>
    have hask : e.standingVerdict env.unixNow paired app method params = none := by
      simp [Engine.standingVerdict, hlevel, hgrant, hs]
    cases hp : e.poisoned with
    | false => simp [Engine.advance, Engine.judge, hfind, hask, hp] at h
    | true => simp [Engine.advance, hp] at h

theorem signed_as_judged (hN : N.SigningKeepsBody)
    (h : b.run env .signEvent params = .withResult (.signEvent signed)) :
    (∃ json, params.head? = some json ∧ eventKind N json = some signed.kind.toUInt64) ∧
    (∀ (id : String) (prompt : Prompt N), prompt.method = .signEvent → prompt.params = params →
      (prompt.view id).content = some signed.content ∨
        (prompt.view id).content = none ∧ signed.content = "") ∧
    (isSensitive N .signEvent params = false ↔ signed.kind ∈ safeKinds) ∧
    ∀ (env : Env N) (e : Engine N) (app : N.PublicKey) (paired : Paired) (decision : Decision),
      findApp (N.hex app) e.inner.apps = some paired → paired.level = .basic →
      e.trustedHere env.unixNow app .signEvent = false →
      (e.advance env app .signEvent params .paired).2 = .returned decision →
      signed.kind ∈ safeKinds := by
  obtain ⟨json, parsed, hjson, hparse, hkind, hcontent⟩ := signEvent_signed hN h
  have hgate := eventKind_of_signerKind hparse hkind
  have hsafe := isSensitive_eq_false_iff hjson hgate
  refine ⟨⟨json, hjson, hgate⟩, ?_, hsafe, ?_⟩
  · intro id prompt hmethod hparams
    have hview : (prompt.view id).content = (parsed.get? "content").bind Json.asStr := by
      simp [Prompt.view, hmethod, hparams, hjson, eventContent, hparse, Except.toOption]
    rw [hview, hcontent]
    cases (parsed.get? "content").bind Json.asStr <;> simp
  · intro env e app paired decision hfind hlevel hgrant hallow
    exact hsafe.mp (isSensitive_of_basic hfind hlevel hgrant hallow)

private def noteText : String := "\x7b\"kind\":\"1\",\"content\":\"hi\"\x7d"

private def noteTexts : List (String × Json × Option Message) :=
  [(noteText, .object [("kind", .string "1"), ("content", .string "hi")], none)]

theorem signed_as_judged_note :
    (Bunker.new "key" []).run (Env.plain noteTexts 7) .signEvent [noteText] =
      .withResult (.signEvent ⟨"signed", "pub-key", 7, 1, [], "hi", true⟩) ∧
    isSensitive (Crate.plain noteTexts) .signEvent [noteText] = false := by
  have hrun : (Bunker.new "key" []).run (Env.plain noteTexts 7) .signEvent [noteText] =
      .withResult (.signEvent ⟨"signed", "pub-key", 7, 1, [], "hi", true⟩) := rfl
  have hjudged := signed_as_judged (Crate.plain_signingKeepsBody noteTexts) hrun
  exact ⟨hrun, hjudged.2.2.1.mpr (by decide)⟩

end Kuma.Nostr
