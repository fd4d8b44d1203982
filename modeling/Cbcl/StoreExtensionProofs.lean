import Cbcl.RepeatTableProofs

/-!
# Growing stores

A store grows by full messages and by evidence on its two shelves.  `KeepsEvidence S S'` says
that nothing is lost and that all pieces of evidence about one hash, in either store, tell
the same story.  Under it the two readings of evidence only gain answers:

    predecessorType_mono : a type known in S is the type in S'
    metadata_mono        : metadata known in S is the metadata in S'

A store may also answer from materialized positions without holding the messages they cover, so
`Extends S S'` asks in addition that both stores have the same ones.

`Grows S S' t D` keeps just these answers, on a set of hashes closed under citation; it is
what the proofs about verdicts use.
-/

namespace CbclStoreExtension

open CbclMessage CbclProtocol CbclEnvelope CbclStore CbclRepeat CbclRepeatTable CbclWorklist

/-- A piece of evidence about a hash. -/
inductive Evidence where
  | full (m : Message)
  | redacted (e : RedactedEnvelope)
  | opened (o : OpenedEnvelope)

namespace Evidence

/-- The performative a piece of evidence discloses; a payload without a simple message
    discloses that there is none, a sealed field discloses nothing. -/
def performative : Evidence → Option (Option String)
  | full m => some ((m.innermostSimple.bind Message.performative).map Performative.name)
  | redacted e => some (some e.header.performative)
  | opened o => o.performative.map some

/-- The causal reference a piece of evidence discloses. -/
def cause : Evidence → Option (Option CausedBy)
  | full m => some (m.innermostSimple.bind Message.causedBy)
  | redacted e => some e.header.caused_by
  | opened o => o.causalReference

/-- Whether a store holds a piece of evidence for a hash. -/
def NamedBy (S : MessageStore) (h : ContentHash) (t : ThreadId) : Evidence → Prop
  | full m => S.lookupInThread h t = some m
  | redacted e => S.envelopeInThread h t = some e
  | opened o => S.openedInThread h t = some o

/-- Two pieces of evidence agree on what both disclose. -/
structure Agree (a b : Evidence) : Prop where
  performative : ∀ p q, a.performative = some p → b.performative = some q → p = q
  cause : ∀ c c', a.cause = some c → b.cause = some c' → c = c'

end Evidence

/-- Full messages are kept, shelves only gain entries, and all evidence about one hash in either
    store agrees. -/
structure KeepsEvidence (S S' : MessageStore) : Prop where
  lookup : ∀ h t m, S.lookupInThread h t = some m → S'.lookupInThread h t = some m
  envelope : ∀ h t e, S.envelopeInThread h t = some e → S'.envelopeInThread h t = some e
  opened : ∀ h t o, S.openedInThread h t = some o → S'.openedInThread h t = some o
  agree : ∀ h t a b, (Evidence.NamedBy S h t a ∨ Evidence.NamedBy S' h t a) →
    (Evidence.NamedBy S h t b ∨ Evidence.NamedBy S' h t b) → Evidence.Agree a b

/-- **Store extension**: evidence is kept, and the position cache is the same one. -/
structure Extends (S S' : MessageStore) : Prop extends KeepsEvidence S S' where
  cache : S.materializedPositions = S'.materializedPositions

variable {S S' : MessageStore}

/-- A full message whose performative is disclosed types as it. -/
theorem fullType_of_performative {m : Message} {p : String}
    (h : (m.innermostSimple.bind Message.performative).map Performative.name = some p) :
    fullType m = p := by
  unfold fullType
  rw [h]
  rfl

/-- The metadata of a full message is what it discloses. -/
theorem fullMetadata_of_disclosed {m : Message} {p : String} {c : Option CausedBy}
    (hp : (m.innermostSimple.bind Message.performative).map Performative.name = some p)
    (hc : m.innermostSimple.bind Message.causedBy = c) : fullMetadata m = some (p, c) := by
  unfold fullMetadata
  cases hs : m.innermostSimple with
  | none => rw [hs] at hp; exact nomatch hp
  | some simple =>
      rw [hs] at hp hc
      simp only [Option.bind_some] at hp hc
      cases hq : simple.performative with
      | none => rw [hq] at hp; exact nomatch hp
      | some q =>
          rw [hq] at hp
          injection hp with hp
          simp [hq, hp, hc]

/-- **A known type stays the type.** -/
theorem predecessorType_mono (ext : KeepsEvidence S S') {h : ContentHash} {t : ThreadId}
    {p : String} (hp : predecessorType S h t = some p) : predecessorType S' h t = some p := by
  unfold predecessorType at hp ⊢
  cases hl : S.lookupInThread h t with
  | some m =>
      rw [hl] at hp
      rw [ext.lookup h t m hl]
      exact hp
  | none =>
      rw [hl] at hp
      -- the evidence `S` typed the hash by, and that it discloses `p`
      have hev : ∃ a, Evidence.NamedBy S h t a ∧ a.performative = some (some p) := by
        cases he : S.envelopeInThread h t with
        | some e =>
            rw [he] at hp
            injection hp with hp
            exact ⟨.redacted e, he, by rw [← hp]; rfl⟩
        | none =>
            rw [he] at hp
            obtain ⟨o, ho, hop⟩ := Option.bind_eq_some_iff.mp hp
            exact ⟨.opened o, ho, by simp [Evidence.performative, hop]⟩
      obtain ⟨a, ha, hap⟩ := hev
      cases hl' : S'.lookupInThread h t with
      | some m =>
          have hagree := (ext.agree h t a (.full m) (Or.inl ha) (Or.inr hl')).performative
            _ _ hap rfl
          simp only [fullType_of_performative hagree.symm]
      | none =>
          cases he' : S'.envelopeInThread h t with
          | some e =>
              have hagree := (ext.agree h t a (.redacted e) (Or.inl ha) (Or.inr he')).performative
                _ _ hap rfl
              exact hagree.symm
          | none =>
              cases he : S.envelopeInThread h t with
              | some e => rw [ext.envelope h t e he] at he'; exact nomatch he'
              | none =>
                  rw [he] at hp
                  obtain ⟨o, ho, hop⟩ := Option.bind_eq_some_iff.mp hp
                  show (S'.openedInThread h t).bind _ = some p
                  rw [ext.opened h t o ho, Option.bind_some, hop]

/-- **Known metadata stays the metadata.** -/
theorem metadata_mono (ext : KeepsEvidence S S') {h : ContentHash} {t : ThreadId}
    {data : String × Option CausedBy} (hm : metadata S h t = some data) :
    metadata S' h t = some data := by
  obtain ⟨p, c⟩ := data
  unfold metadata at hm ⊢
  cases hl : S.lookupInThread h t with
  | some m =>
      rw [hl] at hm
      rw [ext.lookup h t m hl]
      exact hm
  | none =>
      rw [hl] at hm
      have hev : ∃ a, Evidence.NamedBy S h t a ∧ a.performative = some (some p) ∧
          a.cause = some c := by
        cases he : S.envelopeInThread h t with
        | some e =>
            rw [he] at hm
            simp only [Option.some.injEq, Prod.mk.injEq] at hm
            exact ⟨.redacted e, he, by rw [← hm.1]; rfl, by rw [← hm.2]; rfl⟩
        | none =>
            rw [he] at hm
            simp only [Option.bind_eq_bind, Option.pure_def, Option.bind_eq_some_iff,
              Option.some.injEq, Prod.mk.injEq] at hm
            obtain ⟨o, ho, q, hq, c', hc', rfl, rfl⟩ := hm
            exact ⟨.opened o, ho, by simp [Evidence.performative, hq], hc'⟩
      obtain ⟨a, ha, hap, hac⟩ := hev
      cases hl' : S'.lookupInThread h t with
      | some m =>
          have hagree := ext.agree h t a (.full m) (Or.inl ha) (Or.inr hl')
          exact fullMetadata_of_disclosed (hagree.performative _ _ hap rfl).symm
            (hagree.cause _ _ hac rfl).symm
      | none =>
          cases he' : S'.envelopeInThread h t with
          | some e =>
              have hagree := ext.agree h t a (.redacted e) (Or.inl ha) (Or.inr he')
              have h1 := hagree.performative _ _ hap rfl
              have h2 := hagree.cause _ _ hac rfl
              injection h1 with h1
              simp only [← h1, ← h2]
          | none =>
              cases he : S.envelopeInThread h t with
              | some e => rw [ext.envelope h t e he] at he'; exact nomatch he'
              | none =>
                  rw [he] at hm
                  simp only [Option.bind_eq_bind, Option.pure_def, Option.bind_eq_some_iff,
                    Option.some.injEq, Prod.mk.injEq] at hm
                  obtain ⟨o, ho, q, hq, c', hc', rfl, rfl⟩ := hm
                  simp [ext.opened h t o ho, hq, hc']

-- ── The closure ────

/-- The closure is what the starting hashes reach. -/
theorem mem_referencedClosure_iff {S : MessageStore} {t : ThreadId}
    {cache : Option MaterializedPositions} {hashes : List String} {h : String} :
    h ∈ referencedClosure S t cache hashes ↔
      ∃ x ∈ hashes, Reaches (closureSuccessors S t cache) x h := by
  rw [referencedClosure, mem_closure_iff closureSuccessors_support]
  simp only [List.mem_reverse]

/-- **What growth means to a verifier**: on a set of hashes closed under citation, the larger
    store answers every question the smaller one answers, in the same way. -/
structure Grows (S S' : MessageStore) (t : ThreadId) (D : ContentHash → Prop) : Prop where
  type : ∀ k p, D k → predecessorType S k t = some p → predecessorType S' k t = some p
  data : ∀ k d, D k → metadata S k t = some d → metadata S' k t = some d
  lookup : ∀ k m, D k → S.lookupInThread k t = some m → S'.lookupInThread k t = some m
  closed : ∀ k, D k → ∀ verb cause, metadata S k t = some (verb, cause) →
    ∀ c ∈ citedHashes cause, D c
  cache : S.materializedPositions = S'.materializedPositions

/-- An extension grows everywhere. -/
theorem Extends.grows (ext : Extends S S') (t : ThreadId) : Grows S S' t fun _ => True :=
  ⟨fun _ _ _ => predecessorType_mono ext.toKeepsEvidence,
    fun _ _ _ => metadata_mono ext.toKeepsEvidence,
    fun k m _ => ext.lookup k t m, fun _ _ _ _ _ _ _ => trivial, ext.cache⟩

/-- Two causal references cite alike: they are one, or two lists of the same hashes. -/
def SameCitations (c c' : Option CausedBy) : Prop :=
  c = c' ∨ ∃ hs hs', c = some (.multiple hs) ∧ c' = some (.multiple hs') ∧ ∀ h, h ∈ hs ↔ h ∈ hs'

theorem SameCitations.cited {c c' : Option CausedBy} (h : SameCitations c c') (k : ContentHash) :
    k ∈ citedHashes c ↔ k ∈ citedHashes c' := by
  rcases h with rfl | ⟨hs, hs', rfl, rfl, hmem⟩
  · exact Iff.rfl
  · exact hmem k

theorem SameCitations.symm {c c' : Option CausedBy} (h : SameCitations c c') :
    SameCitations c' c := by
  rcases h with rfl | ⟨hs, hs', rfl, rfl, hmem⟩
  · exact Or.inl rfl
  · exact Or.inr ⟨hs', hs, rfl, rfl, fun h => (hmem h).symm⟩

theorem SameCitations.trans {c c' c'' : Option CausedBy} (h : SameCitations c c')
    (h' : SameCitations c' c'') : SameCitations c c'' := by
  rcases h with rfl | ⟨hs, hs', rfl, rfl, hmem⟩
  · exact h'
  · rcases h' with rfl | ⟨hs₁, hs'', heq, rfl, hmem'⟩
    · exact Or.inr ⟨hs, hs', rfl, rfl, hmem⟩
    · injection heq with heq
      injection heq with heq
      subst heq
      exact Or.inr ⟨hs, hs'', rfl, rfl, fun h => (hmem h).trans (hmem' h)⟩

/-- **What a causal verdict needs of a second store**: it knows the types the first one knows, and
    metadata with the same citations. -/
structure Answers (S S' : MessageStore) (t : ThreadId) (D : ContentHash → Prop) : Prop where
  type : ∀ k p, D k → predecessorType S k t = some p → predecessorType S' k t = some p
  data : ∀ k verb cause, D k → metadata S k t = some (verb, cause) →
    ∃ cause', metadata S' k t = some (verb, cause') ∧ SameCitations cause cause'
  closed : ∀ k, D k → ∀ verb cause, metadata S k t = some (verb, cause) →
    ∀ c ∈ citedHashes cause, D c
  cache : S.materializedPositions = S'.materializedPositions

theorem Grows.answers {t : ThreadId} {D : ContentHash → Prop} (grow : Grows S S' t D) :
    Answers S S' t D :=
  ⟨grow.type, fun k _ cause hk hm => ⟨cause, grow.data k _ hk hm, Or.inl rfl⟩, grow.closed,
    grow.cache⟩

/-- The closure of hashes of the set stays inside it and only gains hashes. -/
theorem Answers.closure {t : ThreadId} {D : ContentHash → Prop} (ans : Answers S S' t D)
    {cache : Option MaterializedPositions} {hashes : List String} (hD : ∀ h ∈ hashes, D h)
    {k : String} (hk : k ∈ referencedClosure S t cache hashes) :
    D k ∧ k ∈ referencedClosure S' t cache hashes := by
  rw [mem_referencedClosure_iff] at hk
  obtain ⟨x, hx, hreach⟩ := hk
  induction hreach with
  | refl => exact ⟨hD x hx, mem_referencedClosure_of_mem hx⟩
  | @tail a b _ hstep ih =>
      obtain ⟨ha, hin⟩ := ih
      unfold closureSuccessors at hstep
      cases hc : cachedFact cache a with
      | some fact => rw [hc] at hstep; exact nomatch hstep
      | none =>
          rw [hc] at hstep
          cases hm : metadata S a t with
          | none => rw [hm] at hstep; exact nomatch hstep
          | some d =>
              obtain ⟨verb, cause⟩ := d
              rw [hm] at hstep
              obtain ⟨cause', hm', hsame⟩ := ans.data a verb cause ha hm
              exact ⟨ans.closed a ha verb cause hm b hstep,
                cited_mem_referencedClosure hin hc hm' b ((hsame.cited b).mp hstep)⟩

/-- Both stores give a resolution the same cache. -/
theorem Answers.usedCache {t : ThreadId} {D : ContentHash → Prop} (ans : Answers S S' t D)
    (protocol : CausalProtocol) (root : Option ContentHash) :
    usedCache S protocol t root = usedCache S' protocol t root := by
  unfold CbclRepeatTable.usedCache
  rw [ans.cache]

end CbclStoreExtension
