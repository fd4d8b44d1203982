import Cbcl.ExportConfluenceProofs
import Cbcl.RoleCheckProofs

/-!
# Whoever observes a message observes its past

Where the role check of a dialect passes, an endpoint of a message is an endpoint of everything the
message follows from.  A valid message cites only messages of types its step declares, the check
makes the endpoints of a step endpoints of each declared predecessor, and the copies of a step
inherit its endpoints; so the endpoints of a message are endpoints of the whole chain of citations
behind it, up to the root.
-/

namespace CbclRolePast

open CbclMessage CbclProtocol CbclStore CbclVerifier CbclRepeat CbclRole CbclRoleCheck
open CbclExports CbclVerdictShape

-- ── Citations ────

/-- A cited message is of a type that some copy of the citing step declares. -/
def Declares (protocol : CausalProtocol) (store : MessageStore) (thread : ThreadId) (verb : String)
    (h : ContentHash) : Prop :=
  ∃ decl, IsCopyOf protocol verb decl ∧ ∃ p ∈ namesOf decl.predecessors,
    predecessorType store h thread = some (repeatBaseName p)

/-- The predecessors of every step are steps, or `begin`. -/
def PredecessorsDeclared (protocol : CausalProtocol) : Prop :=
  ∀ step, CbclRoleCheck.IsStep protocol step → ∀ p ∈ namesOf step.predecessors,
    p = BEGIN_KEYWORD ∨ p ∈ protocol.steps

theorem mem_steps_of_get {protocol : CausalProtocol} {name : String} {step : StepDecl}
    (h : protocol.steps[name]? = some step) : CbclRoleCheck.IsStep protocol step := by
  unfold CbclRoleCheck.IsStep
  rw [values_eq]
  exact List.mem_map.mpr ⟨(name, step), Std.ExtTreeMap.mem_toList_iff_getElem?_eq_some.mpr h, rfl⟩

section Cited

variable {verb : String} {cause : Option CausedBy} {store : MessageStore}
  {protocol : CausalProtocol} {thread : ThreadId}

theorem mem_namesOf_single {decl : StepDecl} {p : String}
    (h : p ∈ allowedSinglePredecessors decl) : p ∈ namesOf decl.predecessors := by
  obtain ⟨nr, hnr, hp⟩ := List.mem_flatMap.mp h
  refine List.mem_flatMap.mpr ⟨nr, hnr, ?_⟩
  cases nr with
  | single s => exact hp
  | any set => exact hp
  | all set => exact absurd hp List.not_mem_nil

theorem mem_namesOf_all {decl : StepDecl} {all : BTreeSet String} {p : String}
    (hall : firstAll decl = some all) (h : p ∈ all) : p ∈ namesOf decl.predecessors := by
  obtain ⟨nr, hnr, heq⟩ := List.exists_of_findSome?_eq_some hall
  refine List.mem_flatMap.mpr ⟨nr, hnr, ?_⟩
  cases nr with
  | single s => cases heq
  | any set => cases heq
  | all set =>
      cases heq
      exact Std.ExtTreeSet.mem_toList.mpr h

/-- A reference that inhabits a step without a cache is of the base type of the step. -/
theorem type_of_at {rt : Option ContentHash} {hashes : List String} {h step : String}
    (hcache : store.materializedPositions = none)
    (hat : (Resolution.new store protocol thread rt hashes).at h step = .valid) :
    predecessorType store h thread = some (repeatBaseName step) := by
  obtain ⟨hstore, -, hthread, -, hmat, -⟩ :=
    CbclRepeatTable.new_spec store protocol thread rt hashes
  have hnone : (Resolution.new store protocol thread rt hashes).materialized = none := by
    rw [hmat, CbclRepeatTable.usedCache, hcache]
    rfl
  have hkind : (Resolution.new store protocol thread rt hashes).kind h
      = predecessorType store h thread := by
    unfold Resolution.kind
    rw [hnone, hstore, hthread]
    rfl
  unfold Resolution.at at hat
  rw [hkind, hnone] at hat
  cases hp : predecessorType store h thread with
  | none =>
      rw [hp] at hat
      cases hat
  | some found =>
      rw [hp] at hat
      by_cases hne : found ≠ repeatBaseName step
      · exact absurd ((if_pos hne).symm.trans hat)
          fun h => not_violation_valid (h ▸ isViolation_wrong _ _)
      · rw [not_not.mp hne]

/-- What a valid verb of a protocol with copies cites is declared, or the root. -/
theorem declares_of_repeat {root : ContentHash} (hcache : store.materializedPositions = none)
    (hstep : CbclExports.IsStep protocol verb)
    (hvalid : CbclRepeat.verify verb cause store protocol thread (some root) = .valid) :
    ∀ h ∈ citedHashes cause, (cause = some (.single h) ∧ Resolution.namesRoot h root = true) ∨
      Declares protocol store thread verb h := by
  intro h hh
  obtain ⟨name, hname, hbase⟩ := hstep
  unfold CbclRepeat.verify at hvalid
  rw [if_pos (List.any_eq_true.mpr ⟨name, Std.ExtTreeMap.mem_keys.mpr hname,
    decide_eq_true hbase⟩)] at hvalid
  obtain ⟨decl, hcopy, hdecl⟩ := verify_valid_iff.mp hvalid
  obtain ⟨-, hprotocol, -, hroot, -⟩ :=
    CbclRepeatTable.new_spec store protocol thread (some root) (citedHashes cause)
  rw [hprotocol] at hcopy
  rw [CbclStateProgress.step_valid_iff, hroot] at hdecl
  rcases cause with _ | (_ | g | gs)
  · cases hh
  · cases hh
  · obtain rfl := List.mem_singleton.mp hh
    by_cases hnames : Resolution.namesRoot h root = true
    · exact Or.inl ⟨rfl, hnames⟩
    · have hkept : Resolution.rewriteRoot (some root) (some (.single h)) = some (.single h) :=
        if_neg hnames
      rw [hkept] at hdecl
      rcases hdecl with ⟨hno, -⟩ | ⟨hno, -⟩ | ⟨g, hg, p, hp, hat⟩ | ⟨_, _, hno, -⟩
      · cases hno
      · cases hno
      · obtain rfl := CausedBy.single.inj (Option.some.inj hg)
        exact Or.inr ⟨decl, hcopy, p, mem_namesOf_single hp, type_of_at hcache hat⟩
      · cases hno
  · have hkept : Resolution.rewriteRoot (some root) (some (.multiple gs))
        = some (.multiple gs) := rfl
    rw [hkept] at hdecl
    rcases hdecl with ⟨hno, -⟩ | ⟨hno, -⟩ | ⟨_, hno, -⟩ | ⟨gs', all, hgs, hfirst, hall, -⟩
    · cases hno
    · cases hno
    · cases hno
    · obtain rfl := CausedBy.multiple.inj (Option.some.inj hgs)
      obtain ⟨p, hp, hat⟩ := hall h hh
      exact Or.inr ⟨decl, hcopy, p,
        mem_namesOf_all hfirst (Std.ExtTreeSet.mem_toList.mp hp), type_of_at hcache hat⟩

/-- What a valid step of a protocol without copies cites is of a type the step names. -/
theorem named_of_step {step : StepDecl}
    (hvalid : verifyStep step verb cause store thread = .valid) :
    ∀ h ∈ citedHashes cause, ∃ p ∈ namesOf step.predecessors,
      predecessorType store h thread = some p := by
  intro h hh
  rcases cause with _ | (_ | g | gs)
  · cases hh
  · cases hh
  · obtain rfl := List.mem_singleton.mp hh
    obtain ⟨p, hp, hallowed⟩ := verifySingle_valid_iff.mp hvalid
    exact ⟨p, mem_namesOf_single hallowed, hp⟩
  · replace hvalid : verifyFanIn store thread verb (firstAll step) gs = .valid := hvalid
    cases hall : firstAll step with
    | none =>
        rw [hall] at hvalid
        cases hvalid
    | some all =>
        rw [hall] at hvalid
        rcases verifyFanIn_cases store thread verb all gs with
          ⟨-, hv⟩ | ⟨-, -, hv⟩ | ⟨hknown, -⟩ | ⟨hknown, -⟩
        · exact absurd (hvalid ▸ hv) not_violation_valid
        · rw [hvalid] at hv
          cases hv
        · obtain ⟨p, hp, hmem⟩ := hknown h hh
          exact ⟨p, mem_namesOf_all hall hmem, hp⟩
        · obtain ⟨p, hp, hmem⟩ := hknown h hh
          exact ⟨p, mem_namesOf_all hall hmem, hp⟩

/-- Names of steps of a protocol without copies are plain. -/
theorem plain_of_mem (hrep : ¬ hasRepeat protocol = true) {name : String}
    (hname : name ∈ protocol.steps) : repeatBaseName name = name := by
  refine repeatBaseName_plain ?_
  cases hcopy : isCopyName name with
  | false => rfl
  | true =>
      exact absurd (List.any_eq_true.mpr ⟨name, Std.ExtTreeMap.mem_keys.mpr hname, hcopy⟩) hrep

/-- What a message that is valid for its role cites is declared, or the root. -/
theorem declares_of_rolePredecessors {d : CbclRole.Dialect} {root : ContentHash}
    (hcache : store.materializedPositions = none) (hcp : d.causal_protocol = some protocol)
    (hdeclared : PredecessorsDeclared protocol) (hstep : CbclExports.IsStep protocol verb)
    (hbegin : verb ≠ BEGIN_KEYWORD)
    (hvalid : rolePredecessors verb cause d store thread root = .valid) :
    ∀ h ∈ citedHashes cause, (cause = some (.single h) ∧ Resolution.namesRoot h root = true) ∨
      Declares protocol store thread verb h := by
  intro h hh
  unfold rolePredecessors at hvalid
  rw [hcp] at hvalid
  dsimp only at hvalid
  by_cases hrep : hasRepeat protocol = true
  · rw [if_pos hrep] at hvalid
    exact declares_of_repeat hcache hstep hvalid h hh
  · rw [if_neg hrep] at hvalid
    unfold verifyCausal at hvalid
    obtain ⟨name, hname, hbase⟩ := hstep
    rw [plain_of_mem hrep hname] at hbase
    subst hbase
    rw [if_neg hrep] at hvalid
    obtain ⟨step, hget⟩ := Option.isSome_iff_exists.mp
      (Std.ExtTreeMap.mem_iff_isSome_getElem?.mp hname)
    rw [hget] at hvalid
    have hdeclares : h ∈ citedHashes (cause.map (rewriteRootReferences · root)) →
        Declares protocol store thread name h := by
      intro hcited
      obtain ⟨p, hp, htype⟩ := named_of_step hvalid h hcited
      refine ⟨step, ⟨name, hget, hbegin, plain_of_mem hrep hname⟩, p, hp, ?_⟩
      have hplain : repeatBaseName p = p := by
        rcases hdeclared step (mem_steps_of_get hget) p hp with rfl | hmem
        · exact repeatBaseName_plain (by decide)
        · exact plain_of_mem hrep hmem
      rw [hplain]
      exact htype
    rcases cause with _ | (_ | g | gs)
    · cases hh
    · cases hh
    · obtain rfl := List.mem_singleton.mp hh
      by_cases hroot : h = root
      · left
        refine ⟨rfl, ?_⟩
        unfold Resolution.namesRoot
        rw [hroot]
        simp
      · refine Or.inr (hdeclares ?_)
        rw [Option.map_some, rewriteRootReferences, if_neg hroot]
        exact List.mem_singleton_self h
    · exact Or.inr (hdeclares hh)

end Cited

-- ── The past of a message ────

/-- A role is an endpoint of the messages of a verb. -/
def Observes (d : CbclRole.Dialect) (role verb : String) : Prop :=
  ∃ ann, d.annotations[verb]? = some ann ∧ role ∈ endpoints ann

/-- A stored message cites a hash, other than as the root of the thread. -/
def Cites (store : MessageStore) (thread : ThreadId) (root a b : ContentHash) : Prop :=
  ∃ verb cause, metadata store a thread = some (verb, cause) ∧ b ∈ citedHashes cause ∧
    ¬ (cause = some (.single b) ∧ Resolution.namesRoot b root = true)

/-- A thread of valid messages. -/
structure ValidThread (d : CbclRole.Dialect) (protocol : CausalProtocol) (store : MessageStore)
    (thread : ThreadId) (root : ContentHash) : Prop where
  protocol_eq : d.causal_protocol = some protocol
  keyed : ∀ (name : String) (step : StepDecl), protocol.steps[name]? = some step →
    step.performative = name
  declared : PredecessorsDeclared protocol
  uncached : store.materializedPositions = none
  /-- No message carries the name of the root marker. -/
  unmarked : ∀ h, predecessorType store h thread ≠ some BEGIN_KEYWORD
  valid : ∀ h verb cause, metadata store h thread = some (verb, cause) →
    CbclExports.IsStep protocol verb →
      rolePredecessors verb cause d store thread root = .valid

section Past

variable {d : CbclRole.Dialect} {protocol : CausalProtocol} {store : MessageStore}
  {thread : ThreadId} {root : ContentHash}

/-- **One citation back.**  An endpoint of a message is an endpoint of what it cites. -/
theorem ValidThread.cited (h : ValidThread d protocol store thread root)
    (hsound : RolesSound d protocol) {role a b verb : String}
    (hcites : Cites store thread root a b) (htype : predecessorType store a thread = some verb)
    (hstep : CbclExports.IsStep protocol verb) (hobserves : Observes d role verb) :
    ∃ verb', predecessorType store b thread = some verb' ∧ CbclExports.IsStep protocol verb' ∧
      Observes d role verb' := by
  obtain ⟨verb₀, cause, hmeta, hb, hroot⟩ := hcites
  obtain rfl : verb = verb₀ :=
    Option.some.inj (htype.symm.trans (predecessorType_of_metadata hmeta))
  have hmarker : verb ≠ BEGIN_KEYWORD := fun heq => h.unmarked a (heq ▸ htype)
  obtain ⟨decl, ⟨name, hget, hbegin, hbase⟩, p, hp, htypeb⟩ :=
    (declares_of_rolePredecessors h.uncached h.protocol_eq h.declared hstep hmarker
      (h.valid a verb cause hmeta hstep) b hb).resolve_left hroot
  have hdecl := mem_steps_of_get hget
  have hname : decl.performative = name := h.keyed name decl hget
  have hpb : p ≠ BEGIN_KEYWORD := by
    rintro rfl
    rw [repeatBaseName_plain (by decide)] at htypeb
    exact h.unmarked b htypeb
  have hpm : p ∈ protocol.steps := (h.declared decl hdecl p hp).resolve_left hpb
  obtain ⟨ann, hann, hrole⟩ := hobserves
  obtain ⟨pann, hpann⟩ := hsound.annotated p hpm hpb
  have hlocal := hsound.local_endpoints decl hdecl (hname ▸ hbegin) p hp hpb ann pann
    (by unfold inherited; rw [hname, hbase]; exact hann) hpann role hrole
  exact ⟨repeatBaseName p, htypeb, ⟨p, hpm, rfl⟩, pann, hpann, hlocal⟩

/-- **Whoever observes a message observes its past.**  In a thread of valid messages of a dialect
    that passes the role check, an endpoint of a message is an endpoint of every message that a
    chain of citations leads back to. -/
theorem ValidThread.past_observed (h : ValidThread d protocol store thread root)
    (hclean : r6Violations d = []) (hroles : d.roles ≠ []) {role a b verb : String}
    (hchain : Relation.ReflTransGen (Cites store thread root) a b)
    (htype : predecessorType store a thread = some verb)
    (hstep : CbclExports.IsStep protocol verb) (hobserves : Observes d role verb) :
    ∃ verb', predecessorType store b thread = some verb' ∧ CbclExports.IsStep protocol verb' ∧
      Observes d role verb' := by
  have hsound : RolesSound d protocol := by
    obtain ⟨cp, hcp, hsound⟩ := (r6Violations_eq_nil_of_roles hroles).mp hclean
    obtain rfl : cp = protocol := Option.some.inj (hcp.symm.trans h.protocol_eq)
    exact hsound
  induction hchain with
  | refl => exact ⟨verb, htype, hstep, hobserves⟩
  | tail _ hcites ih =>
      obtain ⟨verb', htype', hstep', hobserves'⟩ := ih
      exact h.cited hsound hcites htype' hstep' hobserves'

end Past

-- ── An auction ────

/-- An auction: a seller offers, a bidder bids on the offer. -/
def auctionProtocol : CausalProtocol where
  steps := (((∅ : BTreeMap String StepDecl).insert "begin"
    ⟨"begin", [], [.single "offer"]⟩).insert "offer"
    ⟨"offer", [.single "begin"], [.single "bid"]⟩).insert "bid" ⟨"bid", [.single "offer"], []⟩

/-- The roles of the auction. -/
def auction : CbclRole.Dialect :=
  ⟨"auction", [⟨"offer", some ⟨"seller", (∅ : BTreeSet String).insert "bidder"⟩⟩,
    ⟨"bid", some ⟨"bidder", (∅ : BTreeSet String).insert "seller"⟩⟩], none, some auctionProtocol,
    [⟨"seller", .singleton⟩, ⟨"bidder", .singleton⟩], .reject⟩

/-- A message of the auction. -/
def auctionMessage (verb : String) (cause : CausedBy) : Message :=
  .simple (.custom verb) none (.list []) [] (some "t") none (some cause)

/-- The store of an offer and a bid on it. -/
def auctionStore : MessageStore :=
  ((CbclThreadedStore.ThreadedMessageStore.new.append "first" "t"
    (auctionMessage "offer" .begin)).2.append "second" "t"
      (auctionMessage "bid" (.single "first"))).2.toStore

/-- What the two messages are, and what the protocol declares. -/
theorem auction_runs :
    (∀ e ∈ auctionProtocol.steps.toList, e.2.performative = e.1 ∧
      ∀ p ∈ namesOf e.2.predecessors, p = BEGIN_KEYWORD ∨ p ∈ auctionProtocol.steps) ∧
    (∀ h ∈ auctionStore.hashes, predecessorType auctionStore h "t" ≠ some BEGIN_KEYWORD ∧
      (metadata auctionStore h "t").all fun m =>
        rolePredecessors m.1 m.2 auction auctionStore "t" "root" = .valid) ∧
    predecessorType auctionStore "second" "t" = some "bid" ∧
    metadata auctionStore "second" "t" = some ("bid", some (.single "first")) ∧
    r6Violations auction = [] := by
  decide +kernel

theorem auction_valid : ValidThread auction auctionProtocol auctionStore "t" "root" := by
  obtain ⟨hsteps, hstore, -⟩ := auction_runs
  have hentry : ∀ {name : String} {step : StepDecl}, auctionProtocol.steps[name]? = some step →
      (name, step) ∈ auctionProtocol.steps.toList := fun h =>
    Std.ExtTreeMap.mem_toList_iff_getElem?_eq_some.mpr h
  refine ⟨rfl, fun name step h => (hsteps _ (hentry h)).1, fun step hstep => ?_, rfl,
    fun h => ?_, fun h verb cause hmeta _ => ?_⟩
  · unfold CbclRoleCheck.IsStep at hstep
    rw [values_eq] at hstep
    obtain ⟨e, he, rfl⟩ := List.mem_map.mp hstep
    exact (hsteps e he).2
  · by_cases hin : h ∈ auctionStore.hashes
    · exact (hstore h hin).1
    · obtain ⟨hl, he, ho⟩ := auctionStore.finite h "t" hin
      unfold predecessorType
      rw [hl, he, ho]
      decide
  · by_cases hin : h ∈ auctionStore.hashes
    · have hall := (hstore h hin).2
      rw [hmeta] at hall
      simpa using hall
    · rw [metadata_eq_none_of_not_mem hin] at hmeta
      cases hmeta

/-- The seller observes the offer behind the bid. -/
theorem past_observed_auction :
    ∃ verb', predecessorType auctionStore "first" "t" = some verb' ∧
      CbclExports.IsStep auctionProtocol verb' ∧ Observes auction "seller" verb' := by
  obtain ⟨-, -, htype, hmeta, hclean⟩ := auction_runs
  have hcites : Cites auctionStore "t" "root" "second" "first" :=
    ⟨"bid", some (.single "first"), hmeta, List.mem_singleton_self _, by decide⟩
  exact auction_valid.past_observed hclean (by decide) (Relation.ReflTransGen.single hcites) htype
    ⟨"bid", by decide, by decide⟩ ⟨⟨"bidder", (∅ : BTreeSet String).insert "seller"⟩, by decide,
      by decide⟩

end CbclRolePast
