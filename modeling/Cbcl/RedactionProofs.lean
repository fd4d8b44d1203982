import Cbcl.EquivocationModel
import Cbcl.ShelvesProofs
import Cbcl.VerdictStabilityProofs

/-!
# Redaction does not change a verdict

A message of a store may be replaced by its redacted envelope or by its opened envelope over
the header fields (`envelope.rs`).  Each form shows the performative, the thread and the causal
reference; an opened list of references comes back sorted.  A causal verdict reads nothing
else, and it reads a list of references as a set, so over every mixture of the three forms it
is of the same class as over the full messages, along repeated ancestries too.
-/

namespace CbclRedaction

open CbclMessage CbclProtocol CbclCanonical CbclRecogniser CbclTypedAddr CbclEnvelope CbclStore
open CbclStoreExtension CbclThreadedStore CbclShelves CbclEquivocation CbclVerifier
open CbclVerdictShape CbclVerdictStability

-- ── Honest envelopes ────

section Envelopes

variable (sha256 : Octets → Digest)

/-- The header fields an envelope discloses. -/
def HEADER_FIELDS : List FieldId := [.performative, .«from», .«to», .causedBy, .thread]

/-- The redacted envelope of a message and its signature. -/
def redact (message : Message) (signature : Octets) : Except MemberDefect RedactedEnvelope := do
  let header ← attestationHeaderFor sha256 message
  return ⟨header, signature⟩

/-- Sign a typed root. -/
def signAttestationV3 (suite : SignatureSuite) (root : String) (signer : Signer) :
    Except AttestError Octets :=
  match suite with
  | .ed25519 => .ok (signer.sign (attestationV3Preimage suite root))
  | .other s => .error (.unknownSuite s)

/-- The opened envelope of a message over some fields. -/
def buildOpened (msg : Message) (fields : List FieldId) (suite : SignatureSuite)
    (signer : Signer) : Except AttestError OpenedEnvelope := do
  let root := typedRoot sha256 msg
  let signature ← signAttestationV3 suite root signer
  return ⟨root, suite, signature, fields.map (openField sha256 msg)⟩

end Envelopes

/-- Evidence that stands for a message: the message itself, its redacted envelope, or its opened
    envelope over the header fields. -/
inductive StandsFor (sha256 : Octets → Digest) (m : Message) : Evidence → Prop
  | full : StandsFor sha256 m (.full m)
  | redacted (e : RedactedEnvelope) (signature : Octets)
      (hok : redact sha256 m signature = .ok e) : StandsFor sha256 m (.redacted e)
  | opened (o : OpenedEnvelope) (suite : SignatureSuite) (signer : Signer)
      (hok : buildOpened sha256 m HEADER_FIELDS suite signer = .ok o) :
      StandsFor sha256 m (.opened o)

/-- A causal reference made of `begin` or of content hashes; a list is not empty. -/
def RefOk : Option CausedBy → Prop
  | none => True
  | some .begin => True
  | some (.single h) => isContentHash h = true
  | some (.multiple hs) => hs ≠ [] ∧ ∀ h ∈ hs, isContentHash h = true

-- ── What the forms show ────

theorem causedRefHash_symbol {h : String} (hh : isContentHash h = true) :
    causedRefHash (.atom (.symbol h)) = some h := by
  show (if isContentHash h = true then some h else none) = some h
  rw [if_pos hh]

/-- A well-formed reference reads back from its spelling, a list of hashes in order. -/
theorem parseCausedRef_of_refOk {cb : CausedBy} (hok : RefOk (some cb)) :
    ∃ cb', parseCausedRef (causedBySexpr cb) = some cb' ∧ SameCitations (some cb) (some cb') := by
  cases cb with
  | begin => exact ⟨.begin, rfl, Or.inl rfl⟩
  | single h =>
      have hne : h ≠ BEGIN_KEYWORD := by
        rintro rfl
        exact absurd (show isContentHash BEGIN_KEYWORD = true from hok) (by decide)
      refine ⟨.single h, ?_, Or.inl rfl⟩
      show (if h = BEGIN_KEYWORD then some CausedBy.begin else _) = _
      rw [if_neg hne, causedRefHash_symbol hok]
      rfl
  | multiple hs =>
      obtain ⟨hne, hall⟩ := hok
      have hmap : (symbols hs).mapM causedRefHash = some hs := by
        clear hne
        unfold symbols
        induction hs with
        | nil => rfl
        | cons h hs ih =>
            rw [List.map_cons, List.mapM_cons, causedRefHash_symbol (hall h (List.mem_cons_self ..)),
              ih fun k hk => hall k (List.mem_cons_of_mem _ hk)]
            rfl
      refine ⟨.multiple (hs.insertionSort (· ≤ ·)), ?_, Or.inr ⟨_, _, rfl, rfl, fun h => ?_⟩⟩
      · obtain ⟨h, rest, rfl⟩ := List.exists_cons_of_ne_nil hne
        show ((symbols (h :: rest)).mapM causedRefHash).map _ = _
        rw [hmap]
        rfl
      · exact (List.perm_insertionSort (· ≤ ·) hs).mem_iff.symm

section Forms

variable {sha256 : Octets → Digest} {m : Message} {a : Evidence}

/-- The header of a redacted envelope shows the message. -/
theorem redact_shows {signature : Octets} {e : RedactedEnvelope}
    (h : redact sha256 m signature = .ok e) :
    e.header.content_hash = typedRoot sha256 m ∧ e.header.performative = headName m ∧
      some e.header.thread = m.thread ∧ e.header.caused_by = m.causedBy := by
  obtain ⟨header, hheader, heq⟩ := CbclExcept.bind_ok_iff.mp h
  obtain rfl : e = ⟨header, signature⟩ := (Except.ok.inj heq).symm
  cases m with
  | simple performative recipient content params thread sender caused_by =>
      cases sender with
      | none => exact nomatch hheader
      | some spelling =>
          cases hparse : KeyId.parse spelling with
          | error e =>
              simp only [attestationHeaderFor, hparse] at hheader
              exact nomatch hheader
          | ok k =>
              cases thread with
              | none =>
                  simp only [attestationHeaderFor, hparse] at hheader
                  exact nomatch hheader
              | some t =>
                  simp only [attestationHeaderFor, hparse] at hheader
                  obtain ⟨_, hk, hheader⟩ := CbclExcept.bind_ok_iff.mp hheader
                  obtain ⟨keys, -, hheader⟩ := CbclExcept.bind_ok_iff.mp hheader
                  rw [← Except.ok.inj hheader]
                  exact ⟨rfl, rfl, rfl, rfl⟩
  | metaDef => exact nomatch hheader
  | dialect => exact nomatch hheader
  | wrapped => exact nomatch hheader

/-- An opened envelope over the header fields opens each of them as the message has it. -/
theorem buildOpened_shows {suite : SignatureSuite} {signer : Signer} {o : OpenedEnvelope}
    (h : buildOpened sha256 m HEADER_FIELDS suite signer = .ok o) :
    o.root = typedRoot sha256 m ∧
      ∀ f ∈ HEADER_FIELDS, o.opening f = some (openField sha256 m f) := by
  obtain ⟨signature, -, heq⟩ := CbclExcept.bind_ok_iff.mp h
  obtain rfl := (Except.ok.inj heq).symm
  refine ⟨rfl, fun f hf => ?_⟩
  unfold HEADER_FIELDS at hf
  simp only [List.mem_cons, List.not_mem_nil, or_false] at hf
  rcases hf with rfl | rfl | rfl | rfl | rfl
  all_goals rfl

/-- **Every form shows the message**: its address, its thread, its performative, and the same
    citations. -/
theorem StandsFor.shows (hform : StandsFor sha256 m a) (hsimple : isSimple m = true)
    (hthread : m.thread.isSome = true) (href : RefOk m.causedBy) :
    address sha256 a = typedRoot sha256 m ∧ threadOf a = m.thread ∧
      a.performative = some (some (headName m)) ∧
        ∃ c, a.cause = some c ∧ SameCitations m.causedBy c := by
  cases hform with
  | full =>
      cases m with
      | simple => exact ⟨rfl, rfl, rfl, _, rfl, Or.inl rfl⟩
      | metaDef => exact nomatch hsimple
      | dialect => exact nomatch hsimple
      | wrapped => exact nomatch hsimple
  | redacted e signature hok =>
      obtain ⟨hroot, hperf, hth, hcause⟩ := redact_shows hok
      refine ⟨hroot, hth, ?_, e.header.caused_by, rfl, Or.inl hcause.symm⟩
      rw [← hperf]
      rfl
  | opened o suite signer hok =>
      obtain ⟨hroot, hopen⟩ := buildOpened_shows hok
      have hperf := hopen .performative (by decide)
      have hth := hopen .thread (by decide)
      have hcb := hopen .causedBy (by decide)
      obtain ⟨t, ht⟩ := Option.isSome_iff_exists.mp hthread
      refine ⟨hroot, ?_, ?_, ?_⟩
      · simp [threadOf, openedThread, hth, openField, fieldSexpr_thread, ht, opt]
      · simp [Evidence.performative, OpenedEnvelope.performative, hperf, openField,
          fieldSexpr_performative]
      · cases hcause : m.causedBy with
        | none =>
            refine ⟨none, ?_, Or.inl rfl⟩
            simp [Evidence.cause, OpenedEnvelope.causalReference, hcb, openField,
              fieldSexpr_causedBy, hcause, opt]
        | some cb =>
            rw [hcause] at href
            obtain ⟨cb', hparse, hsame⟩ := parseCausedRef_of_refOk href
            refine ⟨some cb', ?_, hsame⟩
            simp [Evidence.cause, OpenedEnvelope.causalReference, hcb, openField,
              fieldSexpr_causedBy, hcause, opt, hparse]

end Forms

-- ── Stores of forms ────

/-- What the readers find gives the metadata, if all they find is of one verb and cites alike. -/
theorem metadata_of_named {S : MessageStore} {k : ContentHash} {t : ThreadId} {p : String}
    {cause : Option CausedBy} {a : Evidence} (ha : Evidence.NamedBy S k t a)
    (hall : ∀ b, Evidence.NamedBy S k t b → b.performative = some (some p) ∧
      ∃ c, b.cause = some c ∧ SameCitations cause c) :
    ∃ c, metadata S k t = some (p, c) ∧ SameCitations cause c := by
  unfold metadata
  cases hl : S.lookupInThread k t with
  | some m =>
      obtain ⟨hp, c, hc, hsame⟩ := hall (.full m) hl
      refine ⟨c, ?_, hsame⟩
      exact fullMetadata_of_disclosed (Option.some.inj hp) (Option.some.inj hc)
  | none =>
      cases he : S.envelopeInThread k t with
      | some e =>
          obtain ⟨hp, c, hc, hsame⟩ := hall (.redacted e) he
          refine ⟨c, ?_, hsame⟩
          show some (e.header.performative, e.header.caused_by) = _
          rw [Option.some.inj (Option.some.inj hp), Option.some.inj hc]
      | none =>
          cases a with
          | full m => exact absurd (hl.symm.trans ha) (by simp)
          | redacted e => exact absurd (he.symm.trans ha) (by simp)
          | opened o =>
              obtain ⟨hp, c, hc, hsame⟩ := hall (.opened o) ha
              obtain ⟨q, hq, hqp⟩ := Option.map_eq_some_iff.mp hp
              injection hqp with hqp
              refine ⟨c, ?_, hsame⟩
              show ((S.openedInThread k t).bind _) = _
              rw [show S.openedInThread k t = some o from ha, Option.bind_some, hq, hqp,
                show o.causalReference = some c from hc]
              rfl

/-- Where the readers find nothing there is neither type nor metadata. -/
theorem unnamed {S : MessageStore} {k : ContentHash} {t : ThreadId}
    (hno : ∀ a, ¬ Evidence.NamedBy S k t a) :
    predecessorType S k t = none ∧ metadata S k t = none := by
  have hl : S.lookupInThread k t = none :=
    Option.eq_none_iff_forall_ne_some.mpr fun m hm => hno (.full m) hm
  have he : S.envelopeInThread k t = none :=
    Option.eq_none_iff_forall_ne_some.mpr fun e he => hno (.redacted e) he
  have ho : S.openedInThread k t = none :=
    Option.eq_none_iff_forall_ne_some.mpr fun o ho => hno (.opened o) ho
  unfold predecessorType metadata
  rw [hl, he, ho]
  exact ⟨rfl, rfl⟩

/-- Evidence about some messages: each piece stands for one of them, and each of them has one. -/
structure Forms (sha256 : Octets → Digest) (ms : List Message) (evs : List Evidence) : Prop where
  sound : ∀ a ∈ evs, ∃ m ∈ ms, StandsFor sha256 m a
  complete : ∀ m ∈ ms, ∃ a ∈ evs, StandsFor sha256 m a

/-- Messages a store can hold: simple ones with a thread, under distinct addresses, with
    well-formed references. -/
structure Storable (sha256 : Octets → Digest) (ms : List Message) : Prop where
  simple : ∀ m ∈ ms, isSimple m = true
  threaded : ∀ m ∈ ms, m.thread.isSome = true
  refs : ∀ m ∈ ms, RefOk m.causedBy
  distinct : (ms.map (typedRoot sha256)).Nodup

section Stores

variable {sha256 : Octets → Digest} {ms : List Message} {evs : List Evidence}
  {s : ThreadedMessageStore}

/-- **What a store of forms says about a message it holds**, and about nothing else. -/
theorem Forms.reads (hms : Storable sha256 ms) (hforms : Forms sha256 ms evs)
    (run : Run sha256 evs s) (k : ContentHash) (t : ThreadId) :
    (∃ m ∈ ms, typedRoot sha256 m = k ∧ m.thread = some t ∧
        ∃ c, metadata s.toStore k t = some (headName m, c) ∧ SameCitations m.causedBy c) ∨
      ((¬ ∃ m ∈ ms, typedRoot sha256 m = k ∧ m.thread = some t) ∧
        predecessorType s.toStore k t = none ∧ metadata s.toStore k t = none) := by
  -- what stands under a hash stands for the message of that address
  have hnamed : ∀ b, Evidence.NamedBy s.toStore k t b →
      ∃ m ∈ ms, StandsFor sha256 m b ∧ typedRoot sha256 m = k ∧ m.thread = some t := by
    intro b hb
    obtain ⟨hshelved, hth⟩ := run.namedBy_iff.mp hb
    obtain ⟨hmem, haddr⟩ := run.shelved hshelved
    obtain ⟨m, hm, hform⟩ := hforms.sound b hmem
    obtain ⟨hroot, hthread, -⟩ :=
      hform.shows (hms.simple m hm) (hms.threaded m hm) (hms.refs m hm)
    exact ⟨m, hm, hform, by rw [haddr, hroot], by rw [← hthread, hth]⟩
  by_cases hheld : ∃ m ∈ ms, typedRoot sha256 m = k ∧ m.thread = some t
  · obtain ⟨m, hm, hk, ht⟩ := hheld
    left
    refine ⟨m, hm, hk, ht, ?_⟩
    obtain ⟨a, ha, hform⟩ := hforms.complete m hm
    have hunique : ∀ m' ∈ ms, typedRoot sha256 m' = k → m' = m := fun m' hm' hk' =>
      List.inj_on_of_nodup_map hms.distinct hm' hm (hk'.trans hk.symm)
    obtain ⟨hroot, -, -⟩ := hform.shows (hms.simple m hm) (hms.threaded m hm) (hms.refs m hm)
    obtain ⟨b, -, hb⟩ := run.filed ha
    rw [hroot, hk] at hb
    have hbform : StandsFor sha256 m b := by
      obtain ⟨hmem, haddr⟩ := run.shelved hb
      obtain ⟨m', hm', hform'⟩ := hforms.sound b hmem
      obtain ⟨hroot', -, -⟩ :=
        hform'.shows (hms.simple m' hm') (hms.threaded m' hm') (hms.refs m' hm')
      rw [← hunique m' hm' (by rw [haddr, hroot'])]
      exact hform'
    obtain ⟨-, hbthread, -⟩ :=
      hbform.shows (hms.simple m hm) (hms.threaded m hm) (hms.refs m hm)
    refine metadata_of_named (run.namedBy_iff.mpr ⟨hb, by rw [hbthread, ht]⟩) fun c hc => ?_
    obtain ⟨m', hm', hform', hk', -⟩ := hnamed c hc
    rw [hunique m' hm' hk'] at hform'
    obtain ⟨-, -, hperf, hcause⟩ :=
      hform'.shows (hms.simple m hm) (hms.threaded m hm) (hms.refs m hm)
    exact ⟨hperf, hcause⟩
  · right
    refine ⟨hheld, unnamed fun b hb => ?_⟩
    obtain ⟨m, hm, -, hk, ht⟩ := hnamed b hb
    exact hheld ⟨m, hm, hk, ht⟩

/-- Two stores of forms of the same messages answer alike. -/
theorem Forms.answers (hms : Storable sha256 ms) {evs' : List Evidence}
    {s' : ThreadedMessageStore} (hforms : Forms sha256 ms evs) (hforms' : Forms sha256 ms evs')
    (run : Run sha256 evs s) (run' : Run sha256 evs' s') (t : ThreadId) :
    Answers s.toStore s'.toStore t fun _ => True where
  type := by
    intro k p _ hp
    rcases hforms.reads hms run k t with ⟨m, hm, hk, ht, c, hdata, -⟩ | ⟨-, hnone, -⟩
    · rw [predecessorType_of_metadata hdata] at hp
      rcases hforms'.reads hms run' k t with ⟨m', hm', hk', -, c', hdata', -⟩ | ⟨hno, -, -⟩
      · rw [predecessorType_of_metadata hdata', ← hp,
          List.inj_on_of_nodup_map hms.distinct hm' hm (hk'.trans hk.symm)]
      · exact absurd ⟨m, hm, hk, ht⟩ hno
    · rw [hnone] at hp
      cases hp
  data := by
    intro k verb cause _ hdata
    rcases hforms.reads hms run k t with ⟨m, hm, hk, ht, c, hdata₁, hsame⟩ | ⟨-, -, hnone⟩
    · rw [hdata₁] at hdata
      injection hdata with hdata
      injection hdata with hverb hcause
      subst hverb hcause
      rcases hforms'.reads hms run' k t with ⟨m', hm', hk', -, c', hdata', hsame'⟩ | ⟨hno, -, -⟩
      · obtain rfl := List.inj_on_of_nodup_map hms.distinct hm' hm (hk'.trans hk.symm)
        exact ⟨c', hdata', hsame.symm.trans hsame'⟩
      · exact absurd ⟨m, hm, hk, ht⟩ hno
    · rw [hnone] at hdata
      cases hdata
  closed := fun _ _ _ _ _ _ _ => trivial
  cache := rfl

end Stores

-- ── Verdicts ────

/-- The class of a verdict. -/
inductive VerdictClass where
  | valid
  | violation
  | unknown
deriving DecidableEq

/-- A verdict without its details. -/
def classOf : VerificationResult → VerdictClass
  | .valid => .valid
  | .violation _ => .violation
  | .unknown => .unknown

theorem classOf_eq_of_le {v v' : VerificationResult} (h : VerificationResult.Le v v')
    (h' : VerificationResult.Le v' v) : classOf v = classOf v' := by
  cases v with
  | valid => rw [le_valid h rfl]
  | violation w =>
      obtain ⟨w', hw'⟩ := le_violation h ⟨w, rfl⟩
      rw [hw']
      rfl
  | unknown =>
      cases v' with
      | valid => exact absurd (le_valid h' rfl) (by simp)
      | violation w' => exact absurd (le_violation h' ⟨w', rfl⟩) not_violation_unknown
      | unknown => rfl

/-- **Redaction does not change a verdict**: over a store of simple messages, and over every store
    of forms of the same messages, causal verification gives verdicts of one class, for every
    performative, causal reference, protocol and thread. -/
theorem redaction_keeps_verdicts (sha256 : Octets → Digest) {ms : List Message}
    (href : ∀ m ∈ ms, RefOk m.causedBy) (hdistinct : (ms.map (typedRoot sha256)).Nodup)
    {evs : List Evidence} (hforms : Forms sha256 ms evs) {s s' : ThreadedMessageStore}
    (run : Run sha256 (ms.map .full) s) (run' : Run sha256 evs s') (performative : String)
    (caused_by : Option CausedBy) (protocol : CausalProtocol) (thread : ThreadId) :
    classOf (verifyCausal performative caused_by s.toStore protocol thread)
      = classOf (verifyCausal performative caused_by s'.toStore protocol thread) := by
  have hms : Storable sha256 ms :=
    ⟨fun m hm => (run.checked (List.mem_map_of_mem hm)).1,
      fun m hm => (run.checked (List.mem_map_of_mem hm)).2, href, hdistinct⟩
  have hfull : Forms sha256 ms (ms.map .full) := by
    refine ⟨fun a ha => ?_, fun m hm => ⟨.full m, List.mem_map_of_mem hm, .full⟩⟩
    obtain ⟨m, hm, rfl⟩ := List.mem_map.mp ha
    exact ⟨m, hm, .full⟩
  exact classOf_eq_of_le
    (verifyCausal_mono (hfull.answers hms hforms run run' thread) performative protocol
      fun _ _ => trivial)
    (verifyCausal_mono (hforms.answers hms hfull run' run thread) performative protocol
      fun _ _ => trivial)

/-- The opened envelope of a message with a thread, signed under the default suite, is
    accepted. -/
theorem exists_accepts_built (sha256 : Octets → Digest) (code : Octets → Octets) {m : Message}
    {t : String} (hthread : m.thread = some t) (s : ThreadedMessageStore) :
    ∃ o s', buildOpened sha256 m HEADER_FIELDS .ed25519 (keyed code) = .ok o ∧
      Accepts sha256 s (.opened o) s' := by
  obtain ⟨o, ho⟩ : ∃ o, buildOpened sha256 m HEADER_FIELDS .ed25519 (keyed code) = .ok o :=
    ⟨_, rfl⟩
  have hopen : o.openings = HEADER_FIELDS.map (openField sha256 m) := by
    rw [← Except.ok.inj ho]
  have hverify : verifyOpened sha256 o (keyed code) = .ok () := by
    have hsig : verifyAttestationV3 o.suite o.root o.signature (keyed code) = .ok () := by
      rw [← Except.ok.inj ho]
      exact verifyV3_keyed code _
    have hfind : o.openings.find? (fun op => !verifyOpening sha256 o.root op.field op.value op)
        = none := by
      rw [List.find?_eq_none, hopen]
      intro op hop
      obtain ⟨f, -, rfl⟩ := List.mem_map.mp hop
      rw [(buildOpened_shows ho).1, Bool.not_eq_true, Bool.not_eq_false']
      exact verifyOpening_openField m f
    unfold verifyOpened
    rw [hsig]
    dsimp only
    rw [hfind]
  have hth : (openedThread o).isSome = true := by
    simp [openedThread, (buildOpened_shows ho).2 .thread (by decide), openField,
      fieldSexpr_thread, hthread, opt]
  obtain ⟨s', hs'⟩ := @exists_accepts_opened sha256 s o (keyed code) hverify hth
  exact ⟨o, s', ho, hs'⟩

/-- A store of the greeting and a store of its opened envelope. -/
theorem redaction_keeps_verdicts_greeting :
    ∃ o s s', buildOpened CbclSha256.sha256 greeting HEADER_FIELDS .ed25519 (keyed aliceCode)
        = .ok o ∧ Run CbclSha256.sha256 [.full greeting] s ∧
      Run CbclSha256.sha256 [.opened o] s' ∧
      ∀ performative caused_by protocol thread,
        classOf (verifyCausal performative caused_by s.toStore protocol thread)
          = classOf (verifyCausal performative caused_by s'.toStore protocol thread) := by
  have step : Accepts CbclSha256.sha256 ThreadedMessageStore.new (.full greeting) _ :=
    .message greeting "t" rfl rfl
  have run := Run.snoc _ _ _ _ Run.nil step
  obtain ⟨o, s', ho, step'⟩ :=
    exists_accepts_built CbclSha256.sha256 aliceCode (m := greeting) rfl ThreadedMessageStore.new
  have run' := Run.snoc _ _ _ _ Run.nil step'
  refine ⟨o, _, s', ho, run, run', ?_⟩
  refine @redaction_keeps_verdicts CbclSha256.sha256 [greeting] ?_ (List.nodup_singleton _)
    [.opened o] ⟨fun a ha => ?_, fun m hm => ?_⟩ _ s' run run'
  · intro m hm
    rw [List.mem_singleton.mp hm]
    trivial
  · rw [List.mem_singleton.mp ha]
    exact ⟨greeting, List.mem_singleton_self _, .opened o .ed25519 (keyed aliceCode) ho⟩
  · rw [List.mem_singleton.mp hm]
    exact ⟨.opened o, List.mem_singleton_self _, .opened o .ed25519 (keyed aliceCode) ho⟩

end CbclRedaction
