import Cbcl.EquivocationProofs
import Cbcl.ProtocolParserModel

/-!
# Double discharge of repeated steps

The expansion of `(repeat k …)` names the copies of a step, and the predicate collects its choice
points and obligations under those names.  Messages carry the verb without an index, and which copy
one inhabits is established by its ancestry alone.  So copies are never seen in conflict as copies:
the predicate is right about them as long as no two messages of a key carry verbs that may meet at
one copy or in one choice.
-/

namespace CbclEquivocation

open CbclMessage CbclProtocol CbclCanonical CbclStore CbclThreadedStore CbclBundle CbclDialect
open CbclEnvelope CbclRepeat CbclWorklist CbclShelves
open ThreadedMessageStore

-- ── Steps and copies ────

/-- A stored message resolves as valid at a step of the expanded protocol. -/
def Inhabits (s : ThreadedMessageStore) (thread : ThreadId) (cp : CausalProtocol)
    (root : Option ContentHash) (h : ContentHash) (step : String) : Prop :=
  step ∈ cp.steps ∧ (Resolution.new s.toStore cp thread root [h]).at h step = .valid

/-- Some step of the expanded protocol is a copy of a verb. -/
def IsRepeated (cp : CausalProtocol) (verb : String) : Prop :=
  ∃ step ∈ cp.steps, isCopyName step = true ∧ repeatBaseName step = verb

/-- Two distinct stored messages of a key are valid at one copy, or at two copies that are members
    of one `any` set. -/
def DischargesTwice (s : ThreadedMessageStore) (thread : ThreadId) (cp : CausalProtocol)
    (root : Option ContentHash) (key : KeyId) : Prop :=
  ∃ h₁ m₁ h₂ m₂ p q x y, h₁ ≠ h₂ ∧ (h₁, m₁) ∈ s.messages thread ∧ (h₂, m₂) ∈ s.messages thread ∧
    SentBy key m₁ p ∧ SentBy key m₂ q ∧ Inhabits s thread cp root h₁ x ∧
    Inhabits s thread cp root h₂ y ∧ isCopyName x = true ∧ isCopyName y = true ∧
    (x = y ∨ OneChoice cp x y)

/-- The stored messages of a key can be assigned to copies they are valid at, to pairwise different
    ones of which no two are members of one `any` set. -/
def PlacedAtCopies (s : ThreadedMessageStore) (thread : ThreadId) (cp : CausalProtocol)
    (root : Option ContentHash) (key : KeyId) : Prop :=
  ∃ place : ContentHash → String,
    (∀ h m p, (h, m) ∈ s.messages thread → SentBy key m p →
      Inhabits s thread cp root h (place h) ∧ isCopyName (place h) = true) ∧
    ∀ h₁ m₁ h₂ m₂ p q, (h₁, m₁) ∈ s.messages thread → (h₂, m₂) ∈ s.messages thread →
      SentBy key m₁ p → SentBy key m₂ q → h₁ ≠ h₂ →
        place h₁ ≠ place h₂ ∧ ¬ OneChoice cp (place h₁) (place h₂)

/-- Verbs of which one has copies, and which are the same or have steps in one `any` set. -/
def MeetAtCopies (cp : CausalProtocol) (p q : String) : Prop :=
  (IsRepeated cp p ∨ IsRepeated cp q) ∧
    (p = q ∨ ∃ x y, repeatBaseName x = p ∧ repeatBaseName y = q ∧ OneChoice cp x y)

section Copies

variable {s : ThreadedMessageStore} {thread : ThreadId} {cp : CausalProtocol}
  {root : Option ContentHash} {key : KeyId}

/-- The type of a stored message is the verb it was sent with. -/
theorem predecessorType_of_sent {h : ContentHash} {m : Message} {p : String}
    (hm : (h, m) ∈ s.messages thread) (hsent : SentBy key m p) :
    predecessorType s.toStore h thread = some p := by
  obtain ⟨simple, spelling, perf, hsimple, -, -, hperf, rfl⟩ := hsent
  have hl : s.toStore.lookupInThread h thread = some m := lookupInThread_iff.mpr hm
  unfold predecessorType fullType
  rw [hl]
  dsimp only
  rw [hsimple, Option.bind_some, hperf]
  rfl

/-- A message inhabits copies of its own verb only. -/
theorem base_of_inhabits {h : ContentHash} {m : Message} {p x : String}
    (hm : (h, m) ∈ s.messages thread) (hsent : SentBy key m p)
    (hx : Inhabits s thread cp root h x) : repeatBaseName x = p := by
  obtain ⟨hstore, -, hthread, -, hcache, -⟩ :=
    CbclRepeatTable.new_spec s.toStore cp thread root [h]
  have hnone : cachedFact (Resolution.new s.toStore cp thread root [h]).materialized h = none := by
    rw [hcache]
    rfl
  have hkind : (Resolution.new s.toStore cp thread root [h]).kind h = some p := by
    unfold Resolution.kind
    rw [hnone, hstore, hthread]
    exact predecessorType_of_sent hm hsent
  by_contra hne
  exact nomatch (CbclRepeatTable.at_of_kind_ne hnone hkind (Ne.symm hne)).symm.trans hx.2

/-- The verb of a step has no index left. -/
theorem repeatBaseName_idem (x : String) :
    repeatBaseName (repeatBaseName x) = repeatBaseName x := by
  unfold repeatBaseName
  rw [String.toList_ofList, List.takeWhile_idem]

/-- Over acyclic citations the predicate answers exactly for verbs in conflict as they are sent. -/
theorem isSome_iff_conflict {sha256 : Octets → CbclTypedAddr.Digest} {dialect : Dialect}
    (grows : Grows sha256 ThreadedMessageStore.new s) (acyclic : Acyclic s thread) :
    (equivocation key thread s dialect).isSome ↔
      StoresConflict s thread key dialect OpposedSteps :=
  equivocation_isSome_iff.trans (exists_conflictingPair_iff fun _ _ =>
    mem_threadMessages_of_acyclic (grows.keeps.2 referencesKept_new) acyclic)

end Copies

/-- What is asked of the predicate over a store: it answers for a key that discharges a copy twice,
    and it does not for a key whose messages are at copies of their own. -/
structure DetectsCopies (s : ThreadedMessageStore) (thread : ThreadId) (cp : CausalProtocol)
    (root : Option ContentHash) (key : KeyId) (dialect : Dialect) : Prop where
  detects : DischargesTwice s thread cp root key → (equivocation key thread s dialect).isSome
  clears : PlacedAtCopies s thread cp root key → equivocation key thread s dialect = none

section Detection

variable {s : ThreadedMessageStore} {thread : ThreadId} {cp : CausalProtocol}
  {root : Option ContentHash} {key : KeyId} {dialect : Dialect}

/-- Who discharges a copy twice has sent verbs that meet at copies. -/
theorem meet_of_dischargesTwice (protocol : dialect.causal_protocol = some cp)
    (h : DischargesTwice s thread cp root key) :
    StoresConflict s thread key dialect MeetAtCopies := by
  obtain ⟨h₁, m₁, h₂, m₂, p, q, x, y, hne, hm₁, hm₂, hp, hq, hx, hy, hcopy, -, hrivals⟩ := h
  have hbx : repeatBaseName x = p := base_of_inhabits hm₁ hp hx
  have hby : repeatBaseName y = q := base_of_inhabits hm₂ hq hy
  refine ⟨h₁, m₁, h₂, m₂, cp, p, q, hne, hm₁, hm₂, protocol, hp, hq,
    .inl ⟨x, hx.1, hcopy, hbx⟩, ?_⟩
  rcases hrivals with rfl | hchoice
  · exact .inl (hbx.symm.trans hby)
  · exact .inr ⟨x, y, hbx, hby, hchoice⟩

/-- Verbs that are opposed as they are sent meet at copies, once the messages are at copies. -/
theorem meet_of_opposed (protocol : dialect.causal_protocol = some cp)
    (hplaced : PlacedAtCopies s thread cp root key)
    (hconflict : StoresConflict s thread key dialect OpposedSteps) :
    StoresConflict s thread key dialect MeetAtCopies := by
  obtain ⟨place, hplace, -⟩ := hplaced
  obtain ⟨h₁, m₁, h₂, m₂, cp', p, q, hne, hm₁, hm₂, hcp, hp, hq, -, -, hopposed⟩ := hconflict
  obtain rfl : cp' = cp := Option.some.inj (hcp.symm.trans protocol)
  obtain ⟨hx, hcopy⟩ := hplace h₁ m₁ p hm₁ hp
  have hbx : repeatBaseName (place h₁) = p := base_of_inhabits hm₁ hp hx
  have hby : repeatBaseName (place h₂) = q := base_of_inhabits hm₂ hq (hplace h₂ m₂ q hm₂ hq).1
  refine ⟨h₁, m₁, h₂, m₂, cp', p, q, hne, hm₁, hm₂, hcp, hp, hq,
    .inl ⟨place h₁, hx.1, hcopy, hbx⟩, ?_⟩
  rcases hopposed with ⟨heq, -⟩ | hchoice
  · exact .inl heq
  · -- the verbs are alternatives under their own names
    refine .inr ⟨p, q, ?_, ?_, hchoice⟩
    · rw [← hbx, repeatBaseName_idem]
    · rw [← hby, repeatBaseName_idem]

/-- **When double discharge is detected**: over every store with acyclic citations, for every key of
    which no two messages carry verbs that meet at copies. -/
theorem detectsCopies_of_apart (sha256 : Octets → CbclTypedAddr.Digest) (key : KeyId)
    (thread : ThreadId) (root : Option ContentHash)
    (protocol : dialect.causal_protocol = some cp)
    (grows : Grows sha256 ThreadedMessageStore.new s) (acyclic : Acyclic s thread)
    (apart : ¬ StoresConflict s thread key dialect MeetAtCopies) :
    DetectsCopies s thread cp root key dialect where
  detects := fun htwice => absurd (meet_of_dischargesTwice protocol htwice) apart
  clears := fun hplaced => by
    rw [← Option.not_isSome_iff_eq_none, isSome_iff_conflict grows acyclic]
    exact fun hconflict => apart (meet_of_opposed protocol hplaced hconflict)

end Detection

-- ── Two bids ────

/-- `(protocol (then begin (repeat 2 bid)))`. -/
def bidForm : SExpr :=
  .list [.atom (.symbol "protocol"),
    .list [.atom (.symbol "then"), .atom (.symbol "begin"),
      .list [.atom (.symbol "repeat"), .atom (.num 2), .atom (.symbol "bid")]]]

/-- Its expansion: `bid#1` after `begin`, and `bid#2` after `bid#1`. -/
def bidProtocol : CausalProtocol :=
  ⟨(((∅ : BTreeMap String StepDecl).insert "begin" ⟨"begin", [], [.single "bid#1"]⟩).insert "bid#1"
    ⟨"bid#1", [.single "begin"], [.single "bid#2"]⟩).insert "bid#2"
      ⟨"bid#2", [.single "bid#1"], []⟩⟩

/-- A dialect with that protocol. -/
def bidDialect : Dialect := { baseDialect with causal_protocol := some bidProtocol }

/-- A first bid of `@alice`. -/
def firstBid (content : String) : Message :=
  .simple (.custom "bid") none (.atom (.str content)) [] (some "t") (some "@alice") (some .begin)

theorem sentBy_firstBid (content : String) : SentBy alice (firstBid content) "bid" :=
  ⟨firstBid content, "@alice", .custom "bid", rfl, rfl, rfl, rfl, rfl⟩

/-- What is computed of two bids at one copy. -/
theorem twoBids_runs :
    (CbclProtocolParser.parseProtocol bidForm).toOption = some bidProtocol ∧
    (∀ h ∈ ["a", "b"], "bid#1" ∈ bidProtocol.steps ∧
      (Resolution.new (twoMessages (firstBid "one") (firstBid "two")).toStore bidProtocol "t" none
        [h]).at h "bid#1" = .valid) ∧
    (equivocation alice "t" (twoMessages (firstBid "one") (firstBid "two"))
      bidDialect).isSome = false := by
  decide

/-- Where only `b` cites, and only `a`, citations are acyclic. -/
theorem acyclic_of_two {s : ThreadedMessageStore} {thread : ThreadId}
    (h : ∀ x, ∀ y ∈ citations s.toStore thread x, x = "b" ∧ y = "a") : Acyclic s thread := by
  intro x hx
  obtain ⟨y, hstep, hback⟩ := Relation.TransGen.head'_iff.mp hx
  obtain ⟨rfl, rfl⟩ := h x y hstep
  rcases Relation.ReflTransGen.cases_head hback with heq | ⟨z, hz, -⟩
  · exact absurd heq (by decide)
  · exact absurd (h "a" z hz).1 (by decide)

/-- The citations of a stored message are its own. -/
theorem citations_twoMessages {m m' : Message} {x y : ContentHash}
    (hy : y ∈ citations (twoMessages m m').toStore "t" x) :
    x = "a" ∧ y ∈ citedHashes m.causedBy ∨ x = "b" ∧ y ∈ citedHashes m'.causedBy := by
  unfold citations at hy
  cases hl : (twoMessages m m').toStore.lookupInThread x "t" with
  | none => rw [hl] at hy; exact nomatch hy
  | some found =>
      have hm : (x, found) ∈ (twoMessages m m').messages "t" := lookupInThread_iff.mp hl
      rw [hl, Option.map_some] at hy
      rw [twoMessages_messages] at hm
      rcases List.mem_cons.mp hm with heq | hm
      · injection heq with hx hfound
        exact .inl ⟨hx, hfound ▸ hy⟩
      · injection List.mem_singleton.mp hm with hx hfound
        exact .inr ⟨hx, hfound ▸ hy⟩

theorem acyclic_twoBids : Acyclic (twoMessages (firstBid "one") (firstBid "two")) "t" := by
  refine acyclic_of_two fun x y hy => ?_
  rcases citations_twoMessages hy with ⟨-, hy⟩ | ⟨-, hy⟩
  · exact nomatch hy
  · exact nomatch hy

/-- **Two bids at one copy go undetected**: both are valid at `bid#1`, and the protocol names no
    `bid` without an index. -/
theorem twoBids_undetected :
    (CbclProtocolParser.parseProtocol bidForm).toOption = some bidProtocol ∧
    Grows CbclSha256.sha256 ThreadedMessageStore.new
      (twoMessages (firstBid "one") (firstBid "two")) ∧
    Acyclic (twoMessages (firstBid "one") (firstBid "two")) "t" ∧
    DischargesTwice (twoMessages (firstBid "one") (firstBid "two")) "t" bidProtocol none alice ∧
    equivocation alice "t" (twoMessages (firstBid "one") (firstBid "two")) bidDialect = none := by
  obtain ⟨hform, hin, hnone⟩ := twoBids_runs
  refine ⟨hform, grows_twoMessages _ _ _, acyclic_twoBids,
    ⟨"a", firstBid "one", "b", firstBid "two", "bid", "bid", "bid#1", "bid#1", by decide, ?_, ?_,
      sentBy_firstBid _, sentBy_firstBid _, hin "a" (by decide), hin "b" (by decide), by decide,
      by decide, .inl rfl⟩, Option.isSome_eq_false_iff.mp hnone |> Option.isNone_iff_eq_none.mp⟩
  · rw [twoMessages_messages]
    exact List.mem_cons_self ..
  · rw [twoMessages_messages]
    exact List.mem_cons_of_mem _ (List.mem_singleton_self _)

-- ── Two verbs in turn ────

/-- `(protocol (then begin (repeat 2 bid raise)))`. -/
def turnForm : SExpr :=
  .list [.atom (.symbol "protocol"),
    .list [.atom (.symbol "then"), .atom (.symbol "begin"),
      .list [.atom (.symbol "repeat"), .atom (.num 2), .atom (.symbol "bid"),
        .atom (.symbol "raise")]]]

/-- Its expansion: `bid#1`, `raise#1`, `bid#2` and `raise#2` after each other. -/
def turnProtocol : CausalProtocol :=
  ⟨(((((∅ : BTreeMap String StepDecl).insert "begin" ⟨"begin", [], [.single "bid#1"]⟩).insert
    "bid#1" ⟨"bid#1", [.single "begin"], [.single "raise#1"]⟩).insert
    "raise#1" ⟨"raise#1", [.single "bid#1"], [.single "bid#2"]⟩).insert
    "bid#2" ⟨"bid#2", [.single "raise#1"], [.single "raise#2"]⟩).insert
    "raise#2" ⟨"raise#2", [.single "bid#2"], []⟩⟩

/-- A dialect with that protocol. -/
def turnDialect : Dialect := { baseDialect with causal_protocol := some turnProtocol }

/-- A raise of `@alice` that follows the message `a`. -/
def nextRaise (content : String) : Message :=
  .simple (.custom "raise") none (.atom (.str content)) [] (some "t") (some "@alice")
    (some (.single "a"))

/-- What is computed of a bid and a raise in turn. -/
theorem inTurn_runs :
    (CbclProtocolParser.parseProtocol turnForm).toOption = some turnProtocol ∧
    ("bid#1" ∈ turnProtocol.steps ∧ (Resolution.new
      (twoMessages (firstBid "one") (nextRaise "two")).toStore turnProtocol "t" none
        ["a"]).at "a" "bid#1" = .valid) ∧
    ("raise#1" ∈ turnProtocol.steps ∧ (Resolution.new
      (twoMessages (firstBid "one") (nextRaise "two")).toStore turnProtocol "t" none
        ["b"]).at "b" "raise#1" = .valid) ∧
    ∀ r ∈ nodeRefs turnProtocol, r ∈ ["begin", "bid#1", "raise#1", "bid#2", "raise#2"].map
      NodeRef.single := by
  decide

theorem acyclic_inTurn : Acyclic (twoMessages (firstBid "one") (nextRaise "two")) "t" := by
  refine acyclic_of_two fun x y hy => ?_
  rcases citations_twoMessages hy with ⟨-, hy⟩ | ⟨hx, hy⟩
  · exact nomatch hy
  · exact ⟨hx, List.mem_singleton.mp hy⟩

/-- The bid is at the first hash and the raise at the second. -/
theorem sent_inTurn {h : ContentHash} {m : Message} {p : String}
    (hm : (h, m) ∈ (twoMessages (firstBid "one") (nextRaise "two")).messages "t")
    (hsent : SentBy alice m p) : h = "a" ∧ p = "bid" ∨ h = "b" ∧ p = "raise" := by
  obtain ⟨simple, spelling, perf, hsimple, -, -, hperf, rfl⟩ := hsent
  rw [twoMessages_messages] at hm
  rcases List.mem_cons.mp hm with heq | hm
  · injection heq with hh hm
    rw [hm] at hsimple
    rw [← Option.some.inj hsimple] at hperf
    rw [← Option.some.inj hperf]
    exact .inl ⟨hh, rfl⟩
  · injection List.mem_singleton.mp hm with hh hm
    rw [hm] at hsimple
    rw [← Option.some.inj hsimple] at hperf
    rw [← Option.some.inj hperf]
    exact .inr ⟨hh, rfl⟩

/-- The protocol of bids and raises has no choice. -/
theorem turnProtocol_choiceless (p q : String) : ¬ OneChoice turnProtocol p q := by
  rintro ⟨-, set, hset, -⟩
  obtain ⟨name, -, hname⟩ := List.mem_map.mp (inTurn_runs.2.2.2 _ hset)
  exact nomatch hname

/-- The two messages carry different verbs. -/
theorem apart_inTurn : ¬ StoresConflict (twoMessages (firstBid "one") (nextRaise "two")) "t" alice
    turnDialect MeetAtCopies := by
  rintro ⟨h₁, m₁, h₂, m₂, cp, p, q, hne, hm₁, hm₂, hcp, hp, hq, -, hmeet⟩
  obtain rfl : turnProtocol = cp := Option.some.inj hcp
  rcases hmeet with rfl | ⟨x, y, -, -, hchoice⟩
  · rcases sent_inTurn hm₁ hp with ⟨rfl, rfl⟩ | ⟨rfl, rfl⟩
    · rcases sent_inTurn hm₂ hq with ⟨rfl, -⟩ | ⟨-, heq⟩
      · exact hne rfl
      · exact absurd heq (by decide)
    · rcases sent_inTurn hm₂ hq with ⟨-, heq⟩ | ⟨rfl, -⟩
      · exact absurd heq (by decide)
      · exact hne rfl
  · exact turnProtocol_choiceless x y hchoice

/-- The bid is placed at `bid#1` and the raise at `raise#1`. -/
theorem placed_inTurn : PlacedAtCopies (twoMessages (firstBid "one") (nextRaise "two")) "t"
    turnProtocol none alice := by
  obtain ⟨-, hbid, hraise, -⟩ := inTurn_runs
  refine ⟨fun h => if h = "a" then "bid#1" else "raise#1", ?_, ?_⟩
  · intro h m p hm hp
    rcases sent_inTurn hm hp with ⟨rfl, -⟩ | ⟨rfl, -⟩
    · exact ⟨hbid, by decide⟩
    · exact ⟨hraise, by decide⟩
  · intro h₁ m₁ h₂ m₂ p q hm₁ hm₂ hp hq hne
    refine ⟨?_, turnProtocol_choiceless _ _⟩
    rcases sent_inTurn hm₁ hp with ⟨rfl, -⟩ | ⟨rfl, -⟩
    · rcases sent_inTurn hm₂ hq with ⟨rfl, -⟩ | ⟨rfl, -⟩
      · exact absurd rfl hne
      · decide
    · rcases sent_inTurn hm₂ hq with ⟨rfl, -⟩ | ⟨rfl, -⟩
      · decide
      · exact absurd rfl hne

/-- A bid and a raise in turn are at copies of their own, and nobody is accused. -/
theorem inTurn_cleared :
    (CbclProtocolParser.parseProtocol turnForm).toOption = some turnProtocol ∧
    PlacedAtCopies (twoMessages (firstBid "one") (nextRaise "two")) "t" turnProtocol none alice ∧
    DetectsCopies (twoMessages (firstBid "one") (nextRaise "two")) "t" turnProtocol none alice
      turnDialect ∧
    equivocation alice "t" (twoMessages (firstBid "one") (nextRaise "two")) turnDialect = none := by
  have hdetects : DetectsCopies (twoMessages (firstBid "one") (nextRaise "two")) "t" turnProtocol
      none alice turnDialect := detectsCopies_of_apart CbclSha256.sha256 alice "t" none rfl
    (grows_twoMessages _ _ _) acyclic_inTurn apart_inTurn
  exact ⟨inTurn_runs.1, placed_inTurn, hdetects, hdetects.clears placed_inTurn⟩

end CbclEquivocation
