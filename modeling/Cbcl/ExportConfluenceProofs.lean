import Cbcl.OfferProofs
import Cbcl.RegistryProofs
import Cbcl.RoleAuthorityProofs
import Cbcl.StateProgressProofs
import Cbcl.VerdictStabilityProofs

/-!
# Confluence of the admission export

A consumer offers acts to `admit` over the acts accepted so far and offers pending ones again
until nothing changes.  The verdict over a larger accepted set keeps every decision, with one
exception: in a dialect with roles an act without predecessors is judged before the root is
accepted, as if it were the root.  Where no act is offered so, every order of offers ends with
the same accepted acts.
-/

namespace CbclExports

open CbclMessage CbclProtocol CbclStore CbclThreadedStore CbclAct CbclShape CbclStateShape
open CbclVerifier CbclDialect CbclVerdictShape CbclRepeat CbclStoreExtension CbclOffers
open CbclRole hiding Dialect PerformativeDef

-- ── Stores of acts ────

/-- Acts as a store of one thread. -/
def storeOf (thread : ThreadId) (acts : List Act) : ThreadedMessageStore :=
  acts.foldl (fun s a => (s.append a.address thread a.message).2) .new

theorem storeOf_append_singleton (thread : ThreadId) (acts : List Act) (a : Act) :
    storeOf thread (acts ++ [a])
      = ((storeOf thread acts).append a.address thread a.message).2 := by
  unfold storeOf
  rw [List.foldl_append]
  rfl

/-- A store of acts has no shelves. -/
theorem shelves_storeOf (thread : ThreadId) (acts : List Act) :
    (storeOf thread acts).envelopes = ∅ ∧ (storeOf thread acts).opened = ∅ := by
  induction acts using List.reverseRecOn with
  | nil => exact ⟨rfl, rfl⟩
  | append_singleton acts a ih =>
      rw [storeOf_append_singleton]
      obtain ⟨henv, hopen⟩ :=
        (storeOf thread acts).shelves_append a.address thread a.message
      exact ⟨henv.trans ih.1, hopen.trans ih.2⟩

/-- A store of acts of distinct addresses indexes and returns each under its address. -/
theorem storeOf_spec (thread : ThreadId) (acts : List Act)
    (hnodup : (acts.map (·.address)).Nodup) :
    (∀ h, h ∈ (storeOf thread acts).index ↔ ∃ a ∈ acts, a.address = h) ∧
      ∀ h t m, (storeOf thread acts).lookupInThread h t = some m ↔
        t = thread ∧ ∃ a ∈ acts, a.address = h ∧ a.message = m := by
  induction acts using List.reverseRecOn with
  | nil =>
      refine ⟨fun h => ⟨fun hh => ?_, by rintro ⟨_, ⟨⟩, _⟩⟩, fun h t m =>
        ⟨fun hl => ?_, by rintro ⟨_, _, ⟨⟩, _⟩⟩⟩
      · exact absurd hh (Std.ExtTreeMap.not_mem_empty)
      · exact absurd (ThreadedMessageStore.mem_index_of_lookup hl) (Std.ExtTreeMap.not_mem_empty)
  | append_singleton acts a ih =>
      rw [List.map_append, List.nodup_append] at hnodup
      obtain ⟨hold, -, hnew⟩ := hnodup
      obtain ⟨hindex, hlookup⟩ := ih hold
      have hfresh : a.address ∉ (storeOf thread acts).index := by
        rw [hindex]
        rintro ⟨b, hb, heq⟩
        exact hnew _ (List.mem_map_of_mem hb) _ (List.mem_singleton_self _) heq
      rw [storeOf_append_singleton]
      refine ⟨fun h => ?_, fun h t m => ?_⟩
      · rw [ThreadedMessageStore.mem_index_append hfresh, hindex]
        simp only [List.mem_append, List.mem_singleton, or_and_right, exists_or, exists_eq_left]
        rw [or_comm, eq_comm]
      · rw [ThreadedMessageStore.lookupInThread_append hfresh]
        by_cases hh : h = a.address
        · rw [if_pos hh]
          constructor
          · intro hm
            by_cases ht : t = thread
            · rw [if_pos ht] at hm
              exact ⟨ht, a, List.mem_append_right _ (List.mem_singleton_self a), hh.symm,
                Option.some.inj hm⟩
            · rw [if_neg ht] at hm
              cases hm
          · rintro ⟨ht, b, hb, hbh, rfl⟩
            rw [if_pos ht]
            rcases List.mem_append.mp hb with hb | hb
            · exact absurd (hbh.trans hh) (hnew _ (List.mem_map_of_mem hb) _
                (List.mem_singleton_self _))
            · rw [List.mem_singleton.mp hb]
        · rw [if_neg hh, hlookup]
          refine and_congr_right fun _ => ⟨?_, ?_⟩
          · rintro ⟨b, hb, hrest⟩
            exact ⟨b, List.mem_append_left _ hb, hrest⟩
          · rintro ⟨b, hb, hbh, hbm⟩
            rcases List.mem_append.mp hb with hb | hb
            · exact ⟨b, hb, hbh, hbm⟩
            · rw [List.mem_singleton.mp hb] at hbh
              exact absurd hbh.symm hh

/-- What a store of acts indexes is the address of an act. -/
theorem mem_index_storeOf {thread : ThreadId} {acts : List Act} {h : ContentHash}
    (hh : h ∈ (storeOf thread acts).index) : ∃ a ∈ acts, a.address = h := by
  induction acts using List.reverseRecOn with
  | nil => exact absurd hh Std.ExtTreeMap.not_mem_empty
  | append_singleton acts a ih =>
      have hold : h ∈ (storeOf thread acts).index → ∃ b ∈ acts ++ [a], b.address = h := fun hmem => by
        obtain ⟨b, hb, hbh⟩ := ih hmem
        exact ⟨b, List.mem_append_left _ hb, hbh⟩
      rw [storeOf_append_singleton] at hh
      by_cases hfresh : a.address ∈ (storeOf thread acts).index
      · rw [ThreadedMessageStore.append, dif_pos hfresh] at hh
        exact hold hh
      · rcases (ThreadedMessageStore.mem_index_append hfresh h).mp hh with rfl | hmem
        · exact ⟨a, List.mem_append_right _ (List.mem_singleton_self a), rfl⟩
        · exact hold hmem

/-- A known type in a store of acts is an act's. -/
theorem stored_of_type {thread : ThreadId} {acts : List Act} {h : ContentHash} {t : ThreadId}
    {p : String} (hp : predecessorType (storeOf thread acts).toStore h t = some p) :
    ∃ a ∈ acts, a.address = h := by
  obtain ⟨henv, hopen⟩ := shelves_storeOf thread acts
  cases hl : (storeOf thread acts).lookupInThread h t with
  | some m => exact mem_index_storeOf (ThreadedMessageStore.mem_index_of_lookup hl)
  | none =>
      have hlook : (storeOf thread acts).toStore.lookupInThread h t = none := hl
      unfold predecessorType at hp
      rw [hlook] at hp
      simp [ThreadedMessageStore.toStore, ThreadedMessageStore.envelopeInThread,
        ThreadedMessageStore.openedInThread, henv, hopen] at hp

/-- More acts extend a store of acts. -/
theorem extends_storeOf {thread : ThreadId} {acts acts' : List Act}
    (hnodup : (acts.map (·.address)).Nodup) (hnodup' : (acts'.map (·.address)).Nodup)
    (hsub : acts ⊆ acts') :
    Extends (storeOf thread acts).toStore (storeOf thread acts').toStore := by
  obtain ⟨-, hlookup⟩ := storeOf_spec thread acts hnodup
  obtain ⟨-, hlookup'⟩ := storeOf_spec thread acts' hnodup'
  obtain ⟨henv, hopen⟩ := shelves_storeOf thread acts
  obtain ⟨henv', hopen'⟩ := shelves_storeOf thread acts'
  refine CbclVerdictStability.extends_of_lookup henv hopen henv' hopen' ?_
  intro h t m hm
  obtain ⟨ht, a, ha, hrest⟩ := (hlookup h t m).mp hm
  exact (hlookup' h t m).mpr ⟨ht, a, hsub ha, hrest⟩

-- ── Roots ────

/-- A cast-bearing act without predecessors. -/
def IsRoot (a : Act) : Prop := a.predecessors = [] ∧ a.message.wrapperType = some .withRoles

theorem mem_of_leastAct {acts : List Act} {a : Act} (h : leastAct acts = some a) : a ∈ acts := by
  cases acts with
  | nil => exact nomatch h
  | cons b rest =>
      rw [← Option.some.inj h]
      clear h
      induction rest using List.reverseRecOn with
      | nil => exact List.mem_singleton_self b
      | append_singleton rest c ih =>
          rw [List.foldl_append]
          show (if _ then c else _) ∈ _
          split
          · exact List.mem_cons_of_mem _ (List.mem_append_right _ (List.mem_singleton_self c))
          · rw [← List.cons_append]
            exact List.mem_append_left _ ih

/-- The root of some acts is one of them. -/
theorem root_some {acts : List Act} {r : Act} (h : root acts = some r) : r ∈ acts ∧ IsRoot r := by
  obtain ⟨hmem, hroot⟩ := List.mem_filter.mp (mem_of_leastAct h)
  rw [Bool.and_eq_true, List.isEmpty_iff, decide_eq_true_iff] at hroot
  exact ⟨hmem, hroot⟩

/-- Acts with a root have one. -/
theorem root_ne_none {acts : List Act} {r : Act} (hmem : r ∈ acts) (hroot : IsRoot r) :
    root acts ≠ none := by
  have hin : r ∈ acts.filter fun a =>
      a.predecessors.isEmpty && a.message.wrapperType = some .withRoles := by
    rw [List.mem_filter, Bool.and_eq_true, List.isEmpty_iff, decide_eq_true_iff]
    exact ⟨hmem, hroot⟩
  unfold root leastAct
  split
  · rename_i hnil
    rw [hnil] at hin
    exact nomatch hin
  · exact nofun

/-- Among acts with at most one root, a root is theirs. -/
theorem root_eq {acts : List Act} (hunique : ∀ a ∈ acts, ∀ b ∈ acts, IsRoot a → IsRoot b → a = b)
    {r : Act} (hmem : r ∈ acts) (hroot : IsRoot r) : root acts = some r := by
  cases h : root acts with
  | none => exact absurd h (root_ne_none hmem hroot)
  | some r' =>
      obtain ⟨hmem', hroot'⟩ := root_some h
      rw [hunique r' hmem' r hmem hroot' hroot]

-- ── The causal stage ────

/-- The causal stage of admission over the accepted acts. -/
def causalStage (d : Dialect) (protocol : CausalProtocol) (thread : ThreadId)
    (accepted : List Act) (act : Act) : Except String VerificationResult :=
  match Instance.new d thread accepted with
  | .error e => .error e
  | .ok inst =>
      causalVerdict d protocol thread inst (inst.store.append act.address thread act.message).2 act

/-- What a consumer does with an admission verdict. -/
def Admission.judgement : Admission → Judgement
  | .accepted => .accept
  | .pending => .defer
  | .rejected _ => .refuse

/-- What a consumer does with a causal verdict. -/
def stageJudgement : Except String VerificationResult → Judgement
  | .ok .valid => .accept
  | .ok .unknown => .defer
  | .ok (.violation _) => .refuse
  | .error _ => .refuse

/-- Admission as the judge of a consumer. -/
def judge (d : Dialect) (thread : ThreadId) (accepted : List Act) (act : Act) : Judgement :=
  (admitAct d thread accepted act).judgement

/-- The shape stage refuses an act whatever is accepted, or the causal stage decides. -/
theorem judge_cases (d : Dialect) (thread : ThreadId) (act : Act) :
    (∀ accepted, judge d thread accepted act = .refuse) ∨
    ∃ protocol, d.causal_protocol = some protocol ∧ ∀ accepted, judge d thread accepted act
      = stageJudgement (causalStage d protocol thread accepted act) := by
  unfold judge admitAct
  cases hp : d.causal_protocol with
  | none => exact Or.inl fun _ => rfl
  | some protocol =>
      dsimp only
      cases hstate : verifyStateShape d act.message with
      | error v => exact Or.inl fun _ => rfl
      | ok u =>
          dsimp only
          cases hshape : brokenShape d act with
          | some v => exact Or.inl fun _ => rfl
          | none =>
              refine Or.inr ⟨protocol, rfl, fun accepted => ?_⟩
              unfold causalStage
              cases Instance.new d thread accepted with
              | error e => rfl
              | ok inst =>
                  dsimp only
                  cases causalVerdict d protocol thread inst
                      (inst.store.append act.address thread act.message).2 act with
                  | error e => rfl
                  | ok v => cases v <;> rfl

/-- More knowledge keeps a decision. -/
theorem stageJudgement_le {v v' : VerificationResult} (hle : VerificationResult.Le v v')
    (hdecided : stageJudgement (.ok v) ≠ .defer) :
    stageJudgement (.ok v') = stageJudgement (.ok v) := by
  cases v with
  | unknown => exact absurd rfl hdecided
  | valid => rw [le_valid hle rfl]
  | violation e =>
      obtain ⟨e', rfl⟩ := le_violation hle ⟨e, rfl⟩
      rfl

section Stage

variable {d : Dialect} {protocol : CausalProtocol} {thread : ThreadId} {accepted : List Act}
  {act : Act}

/-- Without roles the causal stage is the predecessor check. -/
theorem causalStage_plain (hroles : d.roles = []) :
    causalStage d protocol thread accepted act = .ok (verifyCausal act.verb act.simple.causedBy
      (storeOf thread (accepted ++ [act])).toStore protocol thread) := by
  have hempty : d.roles.isEmpty = true := by rw [hroles]; rfl
  unfold causalStage Instance.new
  rw [if_pos hempty]
  unfold causalVerdict
  dsimp only
  rw [if_pos hempty, storeOf_append_singleton]
  rfl

/-- Under an accepted root the causal stage is role-local verification. -/
theorem causalStage_rooted (hroles : d.roles ≠ []) {r : Act} {c : Cast}
    (hroot : root accepted = some r) (hcast : castOf d r.message = .ok c) :
    causalStage d protocol thread accepted act = .ok (verifyCausalForRole act.message
      ⟨"", some act.signer⟩ d.roleLayer c (storeOf thread (accepted ++ [act])).toStore thread
        r.address) := by
  obtain ⟨op, hinst⟩ := @instance_new_root d thread accepted r c hroles hroot hcast
  unfold causalStage
  rw [hinst, storeOf_append_singleton]
  rfl

/-- Without a root the causal stage waits, or judges the act as the root. -/
theorem causalStage_rootless (hroles : d.roles ≠ []) (hroot : root accepted = none) :
    causalStage d protocol thread accepted act =
      if act.predecessors.isEmpty then
        match castOf d act.message with
        | .ok ownCast => .ok (verifyCausalForRole act.message ⟨"", some act.signer⟩ d.roleLayer
            ownCast (storeOf thread (accepted ++ [act])).toStore thread act.address)
        | .error e => .error ("root: " ++ e)
      else .ok .unknown := by
  have hne : ¬ d.roles.isEmpty = true := by simpa using hroles
  unfold causalStage Instance.new
  rw [if_neg hne, hroot]
  unfold causalVerdict
  dsimp only
  rw [if_neg hne, storeOf_append_singleton]
  rfl

end Stage

-- ── Decisions last ────

/-- Acts a consumer may offer: received messages of distinct addresses, at most one a root, none
    of which cites itself. -/
structure Offerable (contentHash : Message → String) (acts : List Act) : Prop where
  built : ∀ a ∈ acts, ∃ message signer, Act.fromMessage contentHash message signer = .ok a
  distinct : ∀ a ∈ acts, ∀ b ∈ acts, a.address = b.address → a = b
  oneRoot : ∀ a ∈ acts, ∀ b ∈ acts, IsRoot a → IsRoot b → a = b
  noLoop : ∀ a ∈ acts, a.address ∉ a.predecessors

/-- In a dialect with roles, an act without predecessors is offered over an accepted root or is
    the root. -/
def RootFirst (d : Dialect) (accepted : List Act) (act : Act) : Prop :=
  d.roles ≠ [] → root accepted = none → act.predecessors = [] →
    act.message.wrapperType = some .withRoles

section Lasting

variable {contentHash : Message → String} {acts : List Act} (ok : Offerable contentHash acts)
  {d : Dialect} {thread : ThreadId}
include ok

/-- The addresses of a delivery and an act that is not accepted in it are distinct. -/
theorem Offerable.nodup {offers : List Act} (hsub : offers ⊆ acts) {a : Act} (ha : a ∈ acts)
    (hnew : a ∉ (deliver (judge d thread) offers).accepted) :
    (((deliver (judge d thread) offers).accepted ++ [a]).map (·.address)).Nodup := by
  have hmem : ∀ x ∈ (deliver (judge d thread) offers).accepted ++ [a], x ∈ acts := by
    intro x hx
    rcases List.mem_append.mp hx with hx | hx
    · exact hsub (offered_of_accepted hx)
    · rw [List.mem_singleton.mp hx]
      exact ha
  have hnodup : ((deliver (judge d thread) offers).accepted ++ [a]).Nodup :=
    List.nodup_append.mpr ⟨(deliver_disjoint offers).2, List.nodup_singleton a,
      fun x hx y hy hxy => hnew (List.mem_singleton.mp hy ▸ hxy ▸ hx)⟩
  exact hnodup.map_on fun x hx y hy => ok.distinct x (hmem x hx) y (hmem y hy)

/-- A root is accepted under a cast. -/
theorem Offerable.castOf_root (hroles : d.roles ≠ []) {offers : List Act} (hsub : offers ⊆ acts)
    {r : Act} (hr : r ∈ (deliver (judge d thread) offers).accepted) (hroot : IsRoot r) :
    ∃ c, castOf d r.message = .ok c := by
  obtain ⟨before, after, rfl, hnew, hjudge⟩ := accepted_source hr
  have hbefore : root (deliver (judge d thread) before).accepted = none := by
    cases h : root (deliver (judge d thread) before).accepted with
    | none => rfl
    | some r' =>
        obtain ⟨hmem, hroot'⟩ := root_some h
        have hacts : r' ∈ acts := hsub (List.mem_append_left _ (offered_of_accepted hmem))
        rw [ok.oneRoot r' hacts r (hsub (offered_of_accepted hr)) hroot' hroot] at hmem
        exact absurd hmem hnew
  rcases judge_cases d thread r with hrefuse | ⟨protocol, -, hstage⟩
  · rw [hrefuse] at hjudge
    exact nomatch hjudge
  · rw [hstage, causalStage_rootless hroles hbefore, hroot.1] at hjudge
    cases hcast : castOf d r.message with
    | ok c => exact ⟨c, rfl⟩
    | error e =>
        rw [hcast] at hjudge
        exact nomatch hjudge

omit ok in
/-- A cast wrapper that names predecessors is refused under any cast. -/
theorem wrapper_violation {message : Message} {signer : String} {a : Act}
    (hact : Act.fromMessage contentHash message signer = .ok a) (hpred : a.predecessors ≠ [])
    (hwrap : a.message.wrapperType = some .withRoles) (endpoint : Endpoint)
    (layer : CbclRole.Dialect) (c : Cast) (store : MessageStore) (rt : ContentHash) :
    IsViolation (verifyCausalForRole a.message endpoint layer c store thread rt) := by
  obtain ⟨simple, -, hsimple, -, hmsg, -, -, hcited⟩ := fromMessage_ok hact
  rw [← hmsg] at hsimple
  unfold verifyCausalForRole
  cases pinMismatch layer c with
  | some reason => exact ⟨_, rfl⟩
  | none =>
      dsimp only
      rw [if_pos hwrap]
      cases hm : a.message with
      | wrapped w params content =>
          have hcontent : content.innermostSimple = some simple := by
            rw [hm] at hsimple
            exact hsimple
          have hbegin : content.innermostSimple.bind Message.causedBy ≠ some .begin := by
            rw [hcontent, Option.bind_some]
            intro hb
            rw [hb] at hcited
            exact hpred hcited
          unfold verifyCastWrapper
          dsimp only
          rw [if_neg hbegin]
          split
          · exact ⟨_, rfl⟩
          · split
            · exact ⟨_, rfl⟩
            · split
              · exact ⟨_, rfl⟩
              · split
                · exact ⟨_, rfl⟩
                · exact ⟨_, rfl⟩
      | simple => rw [hm] at hwrap; exact nomatch hwrap
      | metaDef => rw [hm] at hwrap; exact nomatch hwrap
      | dialect => rw [hm] at hwrap; exact nomatch hwrap

omit ok in
/-- A cast wrapper is judged by its own message and what is stored at the root. -/
theorem wrapper_verdict {a : Act} (hwrap : a.message.wrapperType = some .withRoles)
    {endpoint : Endpoint} {layer : CbclRole.Dialect} {c : Cast} {store store' : MessageStore}
    {rt : ContentHash}
    (hsame : store.lookupInThread rt thread = store'.lookupInThread rt thread) :
    verifyCausalForRole a.message endpoint layer c store thread rt
      = verifyCausalForRole a.message endpoint layer c store' thread rt := by
  unfold verifyCausalForRole
  cases pinMismatch layer c with
  | some reason => rfl
  | none =>
      dsimp only
      rw [if_pos hwrap, if_pos hwrap]
      unfold verifyCastWrapper
      rw [hsame]

/-- **Decisions last.**  Over more accepted acts a decision of admission is the same. -/
theorem Offerable.lasting : Lasting (judge d thread) acts (RootFirst d) := by
  intro offers offers' a hsub hsub' ha hmore hready hdecided
  by_cases hacc : a ∈ (deliver (judge d thread) offers').accepted
  · exact Or.inl hacc
  refine Or.inr ?_
  have hmem : ∀ x ∈ (deliver (judge d thread) offers').accepted, x ∈ acts :=
    fun x hx => hsub' (offered_of_accepted hx)
  have hnew : a ∉ (deliver (judge d thread) offers).accepted := fun h => hacc (hmore h)
  have hnodup := ok.nodup hsub ha hnew
  have hnodup' := ok.nodup hsub' ha hacc
  have hext := @extends_storeOf thread _ _ hnodup hnodup' (by
    intro x hx
    rcases List.mem_append.mp hx with hx | hx
    · exact List.mem_append_left _ (hmore hx)
    · exact List.mem_append_right _ hx)
  have hstable := CbclVerdictStability.verdict_stable hext
  rcases judge_cases d thread a with hrefuse | ⟨protocol, -, hstage⟩
  · rw [hrefuse, hrefuse]
  rw [hstage] at hdecided
  rw [hstage, hstage]
  by_cases hroles : d.roles = []
  · -- no roles: the predecessor check is monotone
    rw [causalStage_plain hroles] at hdecided ⊢
    rw [causalStage_plain hroles]
    exact stageJudgement_le (le_iff.mpr (hstable.1 a.verb a.simple.causedBy protocol thread)) hdecided
  · cases hroot : root (deliver (judge d thread) offers).accepted with
    | some r =>
        -- the same root and cast govern both
        obtain ⟨hr, hisRoot⟩ := root_some hroot
        have hroot' : root (deliver (judge d thread) offers').accepted = some r :=
          root_eq (fun x hx y hy => ok.oneRoot x (hmem x hx) y (hmem y hy)) (hmore hr) hisRoot
        obtain ⟨c, hcast⟩ := ok.castOf_root hroles hsub hr hisRoot
        rw [causalStage_rooted hroles hroot hcast] at hdecided ⊢
        rw [causalStage_rooted hroles hroot' hcast]
        refine stageJudgement_le ?_ hdecided
        by_cases hwrap : a.message.wrapperType = some .withRoles
        · have hpred : a.predecessors ≠ [] := by
            intro hnil
            rw [← ok.oneRoot r (hmem r (hmore hr)) a ha hisRoot ⟨hnil, hwrap⟩] at hacc
            exact hacc (hmore hr)
          obtain ⟨message, signer, hact⟩ := ok.built a ha
          have hviolation := fun store => @wrapper_violation contentHash thread message signer a hact
            hpred hwrap ⟨"", some a.signer⟩ d.roleLayer c store r.address
          exact le_iff.mpr ⟨fun hv => absurd (hv ▸ hviolation _) not_violation_valid,
            fun _ => hviolation _⟩
        · exact le_iff.mpr (hstable.2 a.message _ d.roleLayer c thread r.address hwrap)
    | none =>
        rw [causalStage_rootless hroles hroot] at hdecided ⊢
        by_cases hpred : a.predecessors = []
        · -- the act is the root, so no other root is accepted and its own message decides
          have hisRoot : IsRoot a := ⟨hpred, hready hroles hroot hpred⟩
          have hroot' : root (deliver (judge d thread) offers').accepted = none := by
            cases h : root (deliver (judge d thread) offers').accepted with
            | none => rfl
            | some r =>
                obtain ⟨hr, hr'⟩ := root_some h
                rw [ok.oneRoot r (hmem r hr) a ha hr' hisRoot] at hr
                exact absurd hr hacc
          rw [causalStage_rootless hroles hroot', hpred]
          have hown : ∀ accepted : List Act, ((accepted ++ [a]).map (·.address)).Nodup →
              (storeOf thread (accepted ++ [a])).toStore.lookupInThread a.address thread
                = some a.message := fun accepted hno =>
            ((storeOf_spec thread _ hno).2 _ _ _).mpr ⟨rfl, a,
              List.mem_append_right _ (List.mem_singleton_self a), rfl, rfl⟩
          cases castOf d a.message with
          | error e => rfl
          | ok c =>
              have hsame := @wrapper_verdict thread a hisRoot.2 ⟨"", some a.signer⟩ d.roleLayer c
                _ _ a.address ((hown _ hnodup).trans (hown _ hnodup').symm)
              dsimp only
              rw [hsame]
        · rw [if_neg (by simpa using hpred)] at hdecided
          exact absurd rfl hdecided

end Lasting

-- ── What an accepted step cites ────

/-- A verb of some step of a protocol. -/
def IsStep (protocol : CausalProtocol) (verb : String) : Prop :=
  ∃ name ∈ protocol.steps, repeatBaseName name = verb

/-- A name without a copy index is its own base. -/
theorem repeatBaseName_plain {name : String} (h : isCopyName name = false) :
    repeatBaseName name = name := by
  unfold isCopyName at h
  unfold repeatBaseName
  rw [List.takeWhile_eq_self_iff.mpr ?_, String.ofList_toList]
  intro c hc
  rw [decide_eq_true_iff]
  rintro rfl
  rw [List.contains_iff_mem.mpr hc] at h
  cases h

section Cited

variable {perf : String} {cause : Option CausedBy} {store : MessageStore}
  {protocol : CausalProtocol} {thread : ThreadId}

/-- A reference that inhabits a step without a cache has a known type. -/
theorem known_of_at {rt : Option ContentHash} {hashes : List String} {h step : String}
    (hcache : store.materializedPositions = none)
    (hat : (Resolution.new store protocol thread rt hashes).at h step = .valid) :
    ∃ p, predecessorType store h thread = some p := by
  obtain ⟨hstore, -, hthread, -, hmat, -⟩ :=
    CbclRepeatTable.new_spec store protocol thread rt hashes
  have hnone : (Resolution.new store protocol thread rt hashes).materialized = none := by
    rw [hmat, CbclRepeatTable.usedCache, hcache]
    rfl
  have hkind : (Resolution.new store protocol thread rt hashes).kind h
      = predecessorType store h thread := by
    unfold Resolution.kind
    rw [hnone, hstore, hthread]
    rfl
  cases hp : predecessorType store h thread with
  | some p => exact ⟨p, rfl⟩
  | none =>
      unfold Resolution.at at hat
      rw [hkind, hp, hnone] at hat
      exact nomatch hat

/-- What a valid verb of a protocol with copies cites is known, or the root. -/
theorem known_of_repeat {rt : Option ContentHash} (hcache : store.materializedPositions = none)
    (hstep : IsStep protocol perf)
    (hvalid : CbclRepeat.verify perf cause store protocol thread rt = .valid) :
    ∀ h ∈ citedHashes cause, (∃ r, rt = some r ∧ Resolution.namesRoot h r = true) ∨
      ∃ p, predecessorType store h thread = some p := by
  intro h hh
  obtain ⟨name, hname, hbase⟩ := hstep
  unfold CbclRepeat.verify at hvalid
  rw [if_pos (List.any_eq_true.mpr ⟨name, Std.ExtTreeMap.mem_keys.mpr hname,
    decide_eq_true hbase⟩)] at hvalid
  obtain ⟨decl, -, hdecl⟩ := verify_valid_iff.mp hvalid
  obtain ⟨-, -, -, hroot, -⟩ := CbclRepeatTable.new_spec store protocol thread rt (citedHashes cause)
  rw [CbclStateProgress.step_valid_iff, hroot] at hdecl
  rcases cause with _ | (_ | g | gs)
  · exact nomatch hh
  · exact nomatch hh
  · obtain rfl := List.mem_singleton.mp hh
    by_cases hnames : ∃ r, rt = some r ∧ Resolution.namesRoot h r = true
    · exact Or.inl hnames
    · have hkept : Resolution.rewriteRoot rt (some (.single h)) = some (.single h) := by
        cases rt with
        | none => rfl
        | some r => exact if_neg fun hr => hnames ⟨r, rfl, hr⟩
      rw [hkept] at hdecl
      rcases hdecl with ⟨hno, -⟩ | ⟨hno, -⟩ | ⟨g, hg, p, -, hat⟩ | ⟨_, _, hno, -⟩
      · exact nomatch hno
      · exact nomatch hno
      · obtain rfl := CausedBy.single.inj (Option.some.inj hg)
        exact Or.inr (known_of_at hcache hat)
      · exact nomatch hno
  · have hkept : Resolution.rewriteRoot rt (some (.multiple gs)) = some (.multiple gs) := by
      cases rt <;> rfl
    rw [hkept] at hdecl
    rcases hdecl with ⟨hno, -⟩ | ⟨hno, -⟩ | ⟨_, hno, -⟩ | ⟨gs', all, hgs, -, hall, -⟩
    · exact nomatch hno
    · exact nomatch hno
    · exact nomatch hno
    · obtain rfl := CausedBy.multiple.inj (Option.some.inj hgs)
      obtain ⟨p, -, hat⟩ := hall h hh
      exact Or.inr (known_of_at hcache hat)

/-- What a valid step of a protocol without copies cites is known. -/
theorem known_of_step {step : StepDecl}
    (hvalid : verifyStep step perf cause store thread = .valid) :
    ∀ h ∈ citedHashes cause, ∃ p, predecessorType store h thread = some p := by
  intro h hh
  rcases cause with _ | (_ | g | gs)
  · exact nomatch hh
  · exact nomatch hh
  · obtain rfl := List.mem_singleton.mp hh
    obtain ⟨p, hp, -⟩ := verifySingle_valid_iff.mp hvalid
    exact ⟨p, hp⟩
  · replace hvalid : verifyFanIn store thread perf (firstAll step) gs = .valid := hvalid
    cases hall : firstAll step with
    | none =>
        rw [hall] at hvalid
        exact nomatch hvalid
    | some all =>
        rw [hall] at hvalid
        rcases verifyFanIn_cases store thread perf all gs with
          ⟨-, hv⟩ | ⟨-, -, hv⟩ | ⟨hknown, -⟩ | ⟨hknown, -⟩
        · exact absurd (hvalid ▸ hv) not_violation_valid
        · rw [hvalid] at hv
          exact nomatch hv
        · obtain ⟨p, hp, -⟩ := hknown h hh
          exact ⟨p, hp⟩
        · obtain ⟨p, hp, -⟩ := hknown h hh
          exact ⟨p, hp⟩

/-- What a valid step cites is known. -/
theorem known_of_verifyCausal (hcache : store.materializedPositions = none)
    (hstep : IsStep protocol perf)
    (hvalid : verifyCausal perf cause store protocol thread = .valid) :
    ∀ h ∈ citedHashes cause, ∃ p, predecessorType store h thread = some p := by
  intro h hh
  unfold verifyCausal at hvalid
  by_cases hrep : hasRepeat protocol = true
  · rw [if_pos hrep] at hvalid
    rcases known_of_repeat hcache hstep hvalid h hh with ⟨r, hr, -⟩ | hknown
    · exact nomatch hr
    · exact hknown
  · obtain ⟨name, hname, hbase⟩ := hstep
    have hplain : isCopyName name = false := by
      cases hcopy : isCopyName name with
      | false => rfl
      | true =>
          exact absurd (List.any_eq_true.mpr ⟨name, Std.ExtTreeMap.mem_keys.mpr hname, hcopy⟩) hrep
    rw [repeatBaseName_plain hplain] at hbase
    subst hbase
    rw [if_neg hrep] at hvalid
    obtain ⟨step, hget⟩ := Option.isSome_iff_exists.mp
      (Std.ExtTreeMap.mem_iff_isSome_getElem?.mp hname)
    rw [hget] at hvalid
    exact known_of_step hvalid h hh

/-- What a step that is valid for its role cites is known, or the root. -/
theorem known_of_rolePredecessors {layer : CbclRole.Dialect} {rt : ContentHash}
    (hcache : store.materializedPositions = none) (hcp : layer.causal_protocol = some protocol)
    (hstep : IsStep protocol perf)
    (hvalid : rolePredecessors perf cause layer store thread rt = .valid) :
    ∀ h ∈ citedHashes cause, Resolution.namesRoot h rt = true ∨
      ∃ p, predecessorType store h thread = some p := by
  intro h hh
  unfold rolePredecessors at hvalid
  rw [hcp] at hvalid
  dsimp only at hvalid
  by_cases hrep : hasRepeat protocol = true
  · rw [if_pos hrep] at hvalid
    rcases known_of_repeat hcache hstep hvalid h hh with ⟨r, hr, hnames⟩ | hknown
    · rw [← Option.some.inj hr] at hnames
      exact Or.inl hnames
    · exact Or.inr hknown
  · rw [if_neg hrep] at hvalid
    have hknown := known_of_verifyCausal hcache hstep hvalid
    rcases cause with _ | (_ | g | gs)
    · exact nomatch hh
    · exact nomatch hh
    · obtain rfl := List.mem_singleton.mp hh
      by_cases hroot : h = rt
      · left
        unfold Resolution.namesRoot
        rw [hroot]
        simp
      · refine Or.inr (hknown h ?_)
        rw [Option.map_some, rewriteRootReferences, if_neg hroot]
        exact List.mem_singleton_self h
    · exact Or.inr (hknown h hh)

end Cited

/-- An address is in the wire spelling, so only its own text names it. -/
theorem namesRoot_address {contentHash : Message → String} {message : Message} {signer : String}
    {a : Act} (hact : Act.fromMessage contentHash message signer = .ok a) {h : String}
    (hnames : Resolution.namesRoot h a.address = true) : h = a.address := by
  have haddress : ∃ simple, a.address = wireAddress contentHash simple := by
    unfold Act.fromMessage at hact
    split at hact
    · exact nomatch hact
    · split at hact
      · exact nomatch hact
      · obtain rfl := Except.ok.inj hact
        exact ⟨_, rfl⟩
  have hspelling : stripStart "sha256:" a.address = none := by
    obtain ⟨simple, hwire⟩ := haddress
    rw [hwire]
    unfold wireAddress
    cases hstrip : stripStart "sha256:" (contentHash simple) with
    | none => exact hstrip
    | some hex =>
        cases hno : stripStart "sha256:" ("sha256-" ++ hex) with
        | none => rfl
        | some rest =>
            have hsplit := congrArg String.toList (CbclStateProgress.stripStart_eq_some_iff.mp hno)
            rw [String.toList_append, String.toList_append] at hsplit
            exact absurd (congrArg (fun l => l[6]?) hsplit) (by simp)
  unfold Resolution.namesRoot at hnames
  rw [hspelling] at hnames
  simpa using hnames

/-- A valid payload has valid predecessors. -/
theorem rolePredecessors_of_valid {msg simple : Message} {perf : String}
    {layer : CbclRole.Dialect} {c : Cast} {store : MessageStore} {thread : ThreadId}
    {rt : ContentHash} (hvalid : verifySimple msg simple perf layer c store thread rt = .valid) :
    rolePredecessors perf simple.causedBy layer store thread rt = .valid := by
  unfold verifySimple at hvalid
  dsimp only at hvalid
  split at hvalid
  · exact nomatch hvalid
  · exact (meet_eq_valid_iff.mp (meet_eq_valid_iff.mp hvalid).1).2

/-- A causal stage that succeeds has an instance. -/
theorem causalStage_ok {d : Dialect} {protocol : CausalProtocol} {thread : ThreadId}
    {accepted : List Act} {act : Act} {v : VerificationResult}
    (h : causalStage d protocol thread accepted act = .ok v) :
    d.roles = [] ∨ (d.roles ≠ [] ∧ root accepted = none) ∨
      ∃ r c, d.roles ≠ [] ∧ root accepted = some r ∧ castOf d r.message = .ok c := by
  by_cases hroles : d.roles = []
  · exact Or.inl hroles
  · cases hroot : root accepted with
    | none => exact Or.inr (Or.inl ⟨hroles, rfl⟩)
    | some r =>
        cases hcast : castOf d r.message with
        | ok c => exact Or.inr (Or.inr ⟨r, c, hroles, rfl, hcast⟩)
        | error e =>
            have hne : ¬ d.roles.isEmpty = true := by simpa using hroles
            unfold causalStage Instance.new at h
            rw [if_neg hne, hroot] at h
            dsimp only at h
            rw [hcast] at h
            exact nomatch h

/-- **What an accepted step cites is accepted.** -/
theorem cited_accepted {contentHash : Message → String} {d : Dialect} {thread : ThreadId}
    {offers : List Act}
    (hbuilt : ∀ a ∈ (deliver (judge d thread) offers).accepted, ∃ message signer,
      Act.fromMessage contentHash message signer = .ok a)
    {protocol : CausalProtocol} (hcp : d.causal_protocol = some protocol) {a : Act}
    (ha : a ∈ (deliver (judge d thread) offers).accepted) (hstep : IsStep protocol a.verb)
    {h : String} (hh : h ∈ a.predecessors) :
    ∃ b ∈ (deliver (judge d thread) offers).accepted, b.address = h := by
  obtain ⟨before, after, rfl, -, hjudge⟩ := accepted_source ha
  obtain ⟨message, signer, hact⟩ := hbuilt a ha
  obtain ⟨simple, p, hsimple, hperf, hmsg, -, hverb, hcited⟩ := fromMessage_ok hact
  have hinner : a.message.innermostSimple = some simple := by rw [hmsg]; exact hsimple
  have hown : a.simple = simple := by
    unfold Act.simple
    rw [hinner]
    rfl
  have hsome : a.predecessors ≠ [] := List.ne_nil_of_mem hh
  rw [hcited] at hh
  have hstored : (∃ q, predecessorType (storeOf thread ((deliver (judge d thread) before).accepted
      ++ [a])).toStore h thread = some q) → ∃ b ∈ (deliver (judge d thread) (before ++ a ::
        after)).accepted, b.address = h := by
    rintro ⟨q, hq⟩
    obtain ⟨b, hb, hbh⟩ := stored_of_type hq
    rcases List.mem_append.mp hb with hb | hb
    · exact ⟨b, accepted_subset before _ hb, hbh⟩
    · rw [List.mem_singleton.mp hb] at hbh
      exact ⟨a, ha, hbh⟩
  rcases judge_cases d thread a with hrefuse | ⟨protocol', hcp', hstage⟩
  · rw [hrefuse] at hjudge
    exact nomatch hjudge
  rw [hcp] at hcp'
  obtain rfl := Option.some.inj hcp'
  rw [hstage] at hjudge
  have hvalid : causalStage d protocol thread (deliver (judge d thread) before).accepted a
      = .ok .valid := by
    cases hv : causalStage d protocol thread (deliver (judge d thread) before).accepted a with
    | error e => rw [hv] at hjudge; exact nomatch hjudge
    | ok v =>
        rw [hv] at hjudge
        cases v with
        | valid => rfl
        | unknown => exact nomatch hjudge
        | violation e => exact nomatch hjudge
  rcases causalStage_ok hvalid with hroles | ⟨hroles, hroot⟩ | ⟨r, c, hroles, hroot, hcast⟩
  · rw [causalStage_plain hroles, hown] at hvalid
    exact hstored (known_of_verifyCausal rfl hstep (Except.ok.inj hvalid) h hh)
  · rw [causalStage_rootless hroles hroot, if_neg (by simpa using hsome)] at hvalid
    exact nomatch hvalid
  · obtain ⟨hr, -⟩ := root_some hroot
    rw [causalStage_rooted hroles hroot hcast] at hvalid
    have hv := Except.ok.inj hvalid
    by_cases hwrap : a.message.wrapperType = some .withRoles
    · exact absurd (hv ▸ wrapper_violation hact hsome hwrap _ _ _ _ _) not_violation_valid
    · have hr5 := rolePredecessors_of_valid (verifySimple_of_valid hv hwrap hinner hperf)
      rw [← hverb] at hr5
      rcases known_of_rolePredecessors rfl hcp hstep hr5 h hh with hnames | hknown
      · have hr' := accepted_subset before (a :: after) hr
        obtain ⟨message', signer', hact'⟩ := hbuilt r hr'
        exact ⟨r, hr', (namesRoot_address hact' hnames).symm⟩
      · exact hstored hknown

-- ── Confluence ────

/-- **The admission export is confluent under root-first offers.**  Where no act without
    predecessors is offered before the root of a dialect with roles, any two orders of offers that
    go on until nothing changes accept the same acts, none accepts what another rejects, and what
    an accepted step cites is accepted. -/
theorem admit_confluent {contentHash : Message → String} {acts : List Act}
    (ok : Offerable contentHash acts) {d : Dialect} {thread : ThreadId} {offers offers' : List Act}
    (hsub : offers ⊆ acts) (hsub' : offers' ⊆ acts)
    (hfirst : Timely (judge d thread) (RootFirst d) offers)
    (hfirst' : Timely (judge d thread) (RootFirst d) offers')
    (hquiet : Quiet (judge d thread) acts (deliver (judge d thread) offers))
    (hquiet' : Quiet (judge d thread) acts (deliver (judge d thread) offers')) :
    (∀ a, a ∈ (deliver (judge d thread) offers).accepted ↔
      a ∈ (deliver (judge d thread) offers').accepted) ∧
    (∀ a ∈ (deliver (judge d thread) offers).refused,
      a ∉ (deliver (judge d thread) offers').accepted) ∧
    ∀ protocol, d.causal_protocol = some protocol →
      ∀ a ∈ (deliver (judge d thread) offers).accepted, IsStep protocol a.verb →
        ∀ h ∈ a.predecessors, ∃ b ∈ (deliver (judge d thread) offers).accepted, b.address = h := by
  obtain ⟨hsame, hnever⟩ := quiet_agree ok.lasting hsub hsub' hfirst hfirst' hquiet hquiet'
  refine ⟨hsame, hnever, ?_⟩
  intro protocol hcp a ha hstep h hh
  exact cited_accepted (fun b hb => ok.built b (hsub (offered_of_accepted hb))) hcp ha hstep hh

-- ── A market ────

/-- A dialect in which a seller makes an offer to a buyer. -/
def marketDialect : Dialect :=
  { CbclRegistry.plainDialect "market" [⟨"offer", [], effectTemplate "make-offer",
      some ⟨"seller", (∅ : BTreeSet String).insert "buyer"⟩⟩] with
    causal_protocol := some ⟨((∅ : BTreeMap String StepDecl).insert "begin"
      ⟨"begin", [], [.single "offer"]⟩).insert "offer" ⟨"offer", [.single "begin"], []⟩⟩
    roles := [⟨"seller", .singleton⟩, ⟨"buyer", .singleton⟩] }

/-- The dialect as it is installed. -/
def market : Dialect := CbclRegistry.installed CbclSha256.sha256 marketDialect

/-- The root of a market: Alice sells to Bob. -/
def marketRoot : Act where
  address := "r"
  verb := "open"
  signer := "@alice"
  predecessors := []
  recipients := ∅
  fields := ∅
  message := .wrapped .withRoles
    [.list [.list [.atom (.symbol "seller"), .atom (.symbol "@alice")],
      .list [.atom (.symbol "buyer"), .atom (.symbol "@bob")]]]
    (.wrapped .signed [.atom (.symbol "@alice")]
      (.simple (.custom "open") none (.list []) [] none none (some .begin)))

/-- An offer that follows the root. -/
def rootedOffer : Act where
  address := "a"
  verb := "offer"
  signer := "@alice"
  predecessors := ["r"]
  recipients := (∅ : BTreeSet String).insert "@bob"
  fields := ∅
  message := .wrapped .signed [.atom (.symbol "@alice")]
    (.simple (.custom "offer") (some (.one "@bob")) (.list []) [] none none (some (.single "r")))

/-- Addresses of the market's messages. -/
def marketHash (m : Message) : String :=
  if m.performative = some (.custom "open") then "r" else "a"

theorem offerable_market {offer : Act} (hmessage : Act.fromMessage marketHash offer.message "@alice"
      = .ok offer) (haddress : offer.address = "a")
    (hwrap : offer.message.wrapperType = some .signed) (hloop : "a" ∉ offer.predecessors) :
    Offerable marketHash [marketRoot, offer] := by
  have hroot : Act.fromMessage marketHash marketRoot.message "@alice" = .ok marketRoot := rfl
  have hne : ¬ IsRoot offer := fun h => by
    rw [IsRoot, hwrap] at h
    exact nomatch h.2
  refine ⟨?_, ?_, ?_, ?_⟩
  · intro a ha
    rcases List.mem_pair.mp ha with rfl | rfl
    · exact ⟨_, _, hroot⟩
    · exact ⟨_, _, hmessage⟩
  · intro a ha b hb hab
    rcases List.mem_pair.mp ha with rfl | rfl <;> rcases List.mem_pair.mp hb with rfl | rfl
    · rfl
    · rw [haddress] at hab
      exact absurd hab (by decide)
    · rw [haddress] at hab
      exact absurd hab (by decide)
    · rfl
  · intro a ha b hb hisRoot hisRoot'
    rcases List.mem_pair.mp ha with rfl | rfl <;> rcases List.mem_pair.mp hb with rfl | rfl
    · rfl
    · exact absurd hisRoot' hne
    · exact absurd hisRoot hne
    · rfl
  · intro a ha
    rcases List.mem_pair.mp ha with rfl | rfl
    · exact List.not_mem_nil
    · rw [haddress]
      exact hloop

/-- A rooted offer is accepted after the root, whether it is offered before it or not. -/
theorem admit_confluent_market :
    rootedOffer ∈ (deliver (judge market "t") [marketRoot, rootedOffer]).accepted ↔
      rootedOffer ∈ (deliver (judge market "t") [rootedOffer, marketRoot, rootedOffer]).accepted := by
  have hfirst : ∀ offers : List Act, offers ⊆ [marketRoot, rootedOffer] →
      Timely (judge market "t") (RootFirst market) offers := by
    intro offers hsub before a after heq _ _ hnil
    have ha : a ∈ [marketRoot, rootedOffer] :=
      hsub (heq ▸ List.mem_append_right _ (List.mem_cons_self ..))
    rcases List.mem_pair.mp ha with rfl | rfl
    · rfl
    · exact nomatch hnil
  have hsub : [rootedOffer, marketRoot, rootedOffer] ⊆ [marketRoot, rootedOffer] := by
    intro a ha
    simp only [List.mem_cons, List.not_mem_nil, or_false] at ha ⊢
    tauto
  exact (admit_confluent (offerable_market rfl rfl rfl (by decide)) (List.Subset.refl _) hsub
    (hfirst _ (List.Subset.refl _)) (hfirst _ hsub) (by decide +kernel) (by decide +kernel)).1
      rootedOffer

/-- **Offers before the root are lost.**  An offer that follows `begin` is accepted after the root
    of the market, and rejected for good when it arrives before it. -/
theorem admit_order_matters :
    market ∈ (CbclInstall.performAll CbclSha256.sha256 .new
      [.install marketDialect]).dialects.tail ∧
    Offerable marketHash [marketRoot, offerBy "@alice"] ∧
    Quiet (judge market "t") [marketRoot, offerBy "@alice"]
      (deliver (judge market "t") [marketRoot, offerBy "@alice"]) ∧
    Quiet (judge market "t") [marketRoot, offerBy "@alice"]
      (deliver (judge market "t") [offerBy "@alice", marketRoot]) ∧
    offerBy "@alice" ∈ (deliver (judge market "t") [marketRoot, offerBy "@alice"]).accepted ∧
    offerBy "@alice" ∈ (deliver (judge market "t") [offerBy "@alice", marketRoot]).refused ∧
    offerBy "@alice" ∉ (deliver (judge market "t") [offerBy "@alice", marketRoot]).accepted := by
  refine ⟨?_, offerable_market rfl rfl rfl (by decide), by decide +kernel, by decide +kernel,
    by decide +kernel, by decide +kernel, by decide +kernel⟩
  exact CbclRegistry.installed_mem ⟨by decide +kernel, by decide +kernel, rfl, by decide +kernel,
    by decide +kernel, by decide +kernel⟩ (by decide +kernel)

end CbclExports
