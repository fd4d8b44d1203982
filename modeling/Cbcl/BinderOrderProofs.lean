import Cbcl.ActSetProofs

/-!
# The binder over a set of acts

Hosts that accepted the same acts hold them in different orders, and some more than once.  Where
equal addresses carry equal acts, everything the binder finds before the bookkeeping of a counter is
a function of the set of acts, and so is what it verifies afterwards.  The bookkeeping observes the
counter, and reports the first act at fault in the order of the list.
-/

namespace CbclBinderOrder

open CbclMessage CbclProtocol CbclStore CbclThreadedStore CbclAct CbclShape CbclStateShape
open CbclVerifier CbclDialect CbclRepeat CbclState CbclStateMeaning CbclStateSelection CbclStateFold
open CbclEscrow CbclEscrowSolvency CbclEscrowHistory CbclEscrowObservation CbclExports CbclIntend
open CbclKernelGrowth CbclActSet CbclExcept
open CbclRole hiding Dialect PerformativeDef

variable {contentHash : Message → String} {xs ys : List Act} {clause : StateClause}

-- ── Domains ────

/-- Lists of the same acts are enumerated by the same set. -/
theorem enumerates_same (hkeyed : Keyed xs) (h : SameActs xs ys) :
    Enumerates (dedupByAddress ys) xs.toFinset := by
  have hset : ys.toFinset = xs.toFinset := by
    ext a
    rw [List.mem_toFinset, List.mem_toFinset, h a]
  exact hset ▸ enumerates_dedup (h.keyed hkeyed)

/-- The values a rule allows are read from the set of acts and no field before it. -/
theorem allowedValues_eval {ys' : List Act} {S : Finset Act} (hx : Enumerates xs S)
    (hy : Enumerates ys' S) (domains : Domains) (rule : Rule) (done done' : State)
    (protocol : Option CausalProtocol) :
    allowedValues ((Kernel.mk xs domains).eval contentHash rule done protocol)
      = allowedValues ((Kernel.mk ys' domains).eval contentHash rule done' protocol) := by
  have hnone : ∀ {v w : Value}, allowedValues v = [] → allowedValues w = [] →
      allowedValues v = allowedValues w := fun hv hw => hv.trans hw.symm
  have hmeaning : ∀ {zs : List Act}, Enumerates zs S → ∀ (state : State) (r : Rule),
      readsMessages r = false → (Kernel.mk zs domains).eval contentHash r state protocol
        = ruleMeaning contentHash domains S state protocol r := by
    intro zs hz state r hr
    exact eval_eq hz domains r (fun ht => Bool.noConfusion (hr.symm.trans ht)) state protocol
  cases rule with
  | boundedCounter c => exact hnone rfl rfl
  | progress verb => exact hnone rfl rfl
  | histogram field => exact hnone rfl rfl
  | sum field => exact hnone rfl rfl
  | _ =>
      rw [hmeaning hx done _ rfl, hmeaning hy done' _ rfl]
      rfl

theorem kernelFor_same (contentHash : Message → String) (clause : StateClause)
    (hkeyed : Keyed xs) (h : SameActs xs ys) :
    ∃ domains, kernelFor contentHash clause xs = ⟨dedupByAddress xs, domains⟩ ∧
      kernelFor contentHash clause ys = ⟨dedupByAddress ys, domains⟩ := by
  refine ⟨_, rfl, ?_⟩
  unfold kernelFor
  refine congrArg (Kernel.mk _) (List.map_congr_left fun d _ => ?_)
  obtain ⟨verb, key, field⟩ := d
  dsimp only
  cases clause.ruleOf field with
  | none => rfl
  | some rule =>
      rw [Option.map_some, Option.map_some, Option.getD_some, Option.getD_some]
      rw [allowedValues_eval (enumerates_same hkeyed h) (enumerates_dedup hkeyed) [] rule [] []]

/-- The allowed values of the fields of a state. -/
def allowances (state : State) : List (String × List Value) :=
  state.map fun e => (e.1, allowedValues e.2)

/-- The values the fields of a state allow are a function of the set of acts. -/
theorem allowances_fold (hkeyed : Keyed xs) (h : SameActs xs ys)
    (protocol : Option CausalProtocol) :
    allowances (fold contentHash clause protocol xs)
      = allowances (fold contentHash clause protocol ys) := by
  have hstep : ∀ (rule : Rule) (done done' : State),
      allowedValues (fieldValue contentHash clause protocol xs done rule)
        = allowedValues (fieldValue contentHash clause protocol ys done' rule) := by
    intro rule done done'
    obtain ⟨domains, hx, hy⟩ := kernelFor_same contentHash clause hkeyed h
    cases rule with
    | boundedCounter c =>
        exact (rfl : allowedValues (outcomeValue _) = []).trans
          (rfl : [] = allowedValues (outcomeValue _))
    | _ =>
        unfold fieldValue
        dsimp only
        rw [hx, hy]
        exact allowedValues_eval (enumerates_dedup hkeyed) (enumerates_same hkeyed h) domains _ _ _ _
  have hrun : ∀ (fields : List (String × Rule)) (done done' : State),
      allowances done = allowances done' →
      allowances (fields.foldl (fun done f =>
        done ++ [(f.1, fieldValue contentHash clause protocol xs done f.2)]) done)
      = allowances (fields.foldl (fun done f =>
        done ++ [(f.1, fieldValue contentHash clause protocol ys done f.2)]) done') := by
    intro fields
    induction fields with
    | nil => exact fun _ _ hdone => hdone
    | cons f fields ih =>
        intro done done' hdone
        refine ih _ _ ?_
        unfold allowances at hdone ⊢
        rw [List.map_append, List.map_append, hdone, List.map_singleton, List.map_singleton,
          hstep f.2 done done']
  exact hrun clause.fields [] [] rfl

theorem find_allowances (state : State) (field : String) :
    ((state.find? (·.1 = field)).map fun e => allowedValues e.2).getD []
      = (((allowances state).find? (·.1 = field)).map (·.2)).getD [] := by
  induction state with
  | nil => rfl
  | cons e state ih =>
      unfold allowances at ih ⊢
      rw [List.map_cons]
      by_cases he : e.1 = field
      · rw [List.find?_cons_of_pos (by simpa using he), List.find?_cons_of_pos (by simpa using he)]
        rfl
      · rw [List.find?_cons_of_neg (by simpa using he), List.find?_cons_of_neg (by simpa using he)]
        exact ih

/-- The domain gate is a function of the set of acts. -/
theorem domainGate_same (hkeyed : Keyed xs) (h : SameActs xs ys)
    (protocol : Option CausalProtocol) (verb : String) (fields : BTreeMap String SExpr) :
    domainGate clause (fold contentHash clause protocol xs) verb fields
      = domainGate clause (fold contentHash clause protocol ys) verb fields := by
  unfold domainGate
  simp only [find_allowances, allowances_fold hkeyed h protocol]

-- ── Replaced writes ────

/-- Settled addresses are a function of the set of addresses. -/
theorem settleAddresses_congr (bound : UInt32) {as bs : List String} (h : ∀ x, x ∈ as ↔ x ∈ bs) :
    settleAddresses bound as = settleAddresses bound bs := by
  have hset : as.toFinset = bs.toFinset := by
    ext x
    rw [List.mem_toFinset, List.mem_toFinset, h]
  have hsorted : ∀ cs : List String, (cs.insertionSort (· ≤ ·)).destutter (· ≠ ·)
      = CbclKeyedSort.sortBy id cs.toFinset := fun cs =>
    CbclKeyedSort.destutter_insertionSort (f := id) fun _ _ _ _ heq => heq
  unfold settleAddresses
  rw [hsorted, hsorted, hset]

theorem append_congr (cs : List String) {as bs : List String} (h : ∀ x, x ∈ as ↔ x ∈ bs)
    (x : String) : x ∈ cs ++ as ↔ x ∈ cs ++ bs := by
  rw [List.mem_append, List.mem_append, h]

/-- What one rule replaces is a function of the set of acts. -/
theorem replacedUnder_same (hkeyed : Keyed xs) (h : SameActs xs ys) (bound : UInt32)
    (signer verb : String) (fields : BTreeMap String SExpr) (replaces : Option (List String))
    (rule : Rule) :
    replacedUnder contentHash clause xs bound signer verb fields replaces rule
      = replacedUnder contentHash clause ys bound signer verb fields replaces rule := by
  obtain ⟨domains, hx, hy⟩ := kernelFor_same contentHash clause hkeyed h
  have hcurrent : ∀ v key delete, SameActs ((kernelFor contentHash clause xs).current v key delete)
      ((kernelFor contentHash clause ys).current v key delete) := by
    intro v key delete a
    rw [hx, hy, (enumerates_current (enumerates_dedup hkeyed) domains v key delete).mem,
      (enumerates_current (enumerates_same hkeyed h) domains v key delete).mem]
  have hown : ∀ v, SameActs ((kernelFor contentHash clause xs).currentBySigner v)
      ((kernelFor contentHash clause ys).currentBySigner v) := by
    intro v a
    rw [hx, hy, (enumerates_currentBySigner (enumerates_dedup hkeyed) domains v).mem,
      (enumerates_currentBySigner (enumerates_same hkeyed h) domains v).mem]
  have hkeys : ∀ key v k delete, SameActs
      (((kernelFor contentHash clause xs).current v k delete).filter (sameKey fields key))
      (((kernelFor contentHash clause ys).current v k delete).filter (sameKey fields key)) :=
    fun key v k delete => (hcurrent v k delete).filter _
  unfold replacedUnder
  split
  · rename_i writer _ _
    by_cases hw : writer = verb
    · rw [if_pos hw, if_pos hw]
      dsimp only
      rw [settleAddresses_congr bound (append_congr (replaces.getD [])
        (((hown writer).filter fun a => decide (a.signer = signer)).map (·.address)))]
    · rw [if_neg hw, if_neg hw]
  · cases bindingOf verb rule with
    | none => rfl
    | some binding =>
        obtain ⟨writer, key, delete, deletes⟩ := binding
        dsimp only
        have hwritten := (hkeys key writer key delete).map (·.address)
        have hempty : (((kernelFor contentHash clause xs).current writer key delete).filter
              (sameKey fields key) |>.map (·.address)).isEmpty
            = (((kernelFor contentHash clause ys).current writer key delete).filter
              (sameKey fields key) |>.map (·.address)).isEmpty := by
          rw [List.isEmpty_map, List.isEmpty_map, (hkeys key writer key delete).isEmpty]
        have hdeleted : ∀ x, x ∈ (if deletes = true then [] else (delete.map fun dv =>
              (((kernelFor contentHash clause xs).current dv key (some writer)).filter
                (sameKey fields key)).map (·.address)).getD [])
            ↔ x ∈ (if deletes = true then [] else (delete.map fun dv =>
              (((kernelFor contentHash clause ys).current dv key (some writer)).filter
                (sameKey fields key)).map (·.address)).getD []) := by
          intro x
          split
          · rfl
          · cases delete with
            | none => rw [Option.map_none, Option.map_none]
            | some dv => exact (hkeys key dv key (some writer)).map (·.address) x
        rw [hempty, settleAddresses_congr bound fun x => (List.mem_append.trans
          (or_congr (hwritten x) (hdeleted x))).trans List.mem_append.symm]

/-- The replaced writes are a function of the set of acts. -/
theorem replacedBy_same (hkeyed : Keyed xs) (h : SameActs xs ys) (bound : UInt32)
    (signer verb : String) (fields : BTreeMap String SExpr) :
    CbclIntend.replacedBy contentHash clause xs bound signer verb fields
      = CbclIntend.replacedBy contentHash clause ys bound signer verb fields := by
  have hstep : replacedUnder contentHash clause xs bound signer verb fields
      = replacedUnder contentHash clause ys bound signer verb fields :=
    funext fun replaces => funext fun rule =>
      replacedUnder_same hkeyed h bound signer verb fields replaces rule
  unfold CbclIntend.replacedBy
  rw [hstep]

-- ── Instances ────

/-- The instance of the same acts is the same but for the list. -/
theorem new_same (d : Dialect) (thread : ThreadId) (hkeyed : Keyed xs) (h : SameActs xs ys) :
    Instance.new d thread ys
      = (Instance.new d thread xs).map fun inst => { inst with acts := ys } := by
  have hopener : (d.causal_protocol.bind fun p => CbclExports.opener p ys)
      = d.causal_protocol.bind fun p => CbclExports.opener p xs := by
    cases d.causal_protocol with
    | none => rfl
    | some p => exact (opener_congr p hkeyed h).symm
  unfold Instance.new
  dsimp only
  rw [hopener, ← root_congr hkeyed h]
  split
  · rfl
  · cases root xs with
    | none => rfl
    | some r =>
        dsimp only
        cases castOf d r.message with
        | ok parsed => rfl
        | error e => rfl

section Cause

variable {inst : Instance} (hkeyed : Keyed inst.acts) (h : SameActs inst.acts ys)
  (signer verb : String)
include h

theorem chooseTypedPredecessor_same (allowed : List String) (resolution : Option Resolution) :
    chooseTypedPredecessor { inst with acts := ys } signer allowed resolution
      = chooseTypedPredecessor inst signer allowed resolution :=
  (pickPredecessor_congr signer (h.filter _)).symm

theorem chooseInstances_same (resolution : Resolution) (name : String) :
    chooseInstances { inst with acts := ys } signer resolution name
      = chooseInstances inst signer resolution name := by
  unfold chooseInstances
  dsimp only
  split
  · refine congrArg (fun f : AgentKey → Option String => List.mapM f _) (funext fun who => ?_)
    exact (greatestAddress_congr (h.filter _)).symm
  · rw [chooseTypedPredecessor_same h]

theorem repeatNode_same (resolution : Resolution) (node : NodeRef) :
    repeatNode { inst with acts := ys } signer resolution node
      = repeatNode inst signer resolution node := by
  unfold repeatNode
  have hall : chooseInstances { inst with acts := ys } signer resolution
      = chooseInstances inst signer resolution :=
    funext fun name => chooseInstances_same h signer resolution name
  rw [hall]
  simp only [chooseTypedPredecessor_same h]

theorem chooseNodes_same (nodes : List NodeRef) (fan_in : Bool) :
    chooseNodes { inst with acts := ys } signer fan_in nodes
      = chooseNodes inst signer fan_in nodes := by
  induction nodes generalizing fan_in with
  | nil => rfl
  | cons node nodes ih =>
      cases node with
      | single s => simp only [chooseNodes, chooseTypedPredecessor_same h, ih]
      | any set => simp only [chooseNodes, chooseTypedPredecessor_same h, ih]
      | all set => simp only [chooseNodes, chooseTypedPredecessor_same h, ih]

include hkeyed

/-- The store of an instance is read alike. -/
theorem sameStore_same : SameStore inst.store (Instance.store { inst with acts := ys }) :=
  sameStore_of_acts inst.thread hkeyed h

theorem repeatCause_same :
    repeatCause { inst with acts := ys } signer verb = repeatCause inst signer verb := by
  unfold repeatCause
  cases hprotocol : inst.dialect.causal_protocol with
  | none => rfl
  | some protocol =>
      dsimp only
      rw [← (sameStore_same hkeyed h).toStore, ← resolution_congr _ _ _ _ (h.map (·.address))]
      have hnodes : ∀ resolution, repeatNode { inst with acts := ys } signer resolution
          = repeatNode inst signer resolution := fun resolution =>
        funext fun node => repeatNode_same h signer resolution node
      simp only [hnodes, ← h.any]

/-- The causal reference is a function of the set of acts. -/
theorem causeOf_same (protocol : CausalProtocol) :
    causeOf { inst with acts := ys } protocol signer verb = causeOf inst protocol signer verb := by
  unfold causeOf
  rw [repeatCause_same hkeyed h]
  simp only [chooseNodes_same h]

/-- The verdict on a built message is a function of the set of acts. -/
theorem verdictOf_same (protocol : CausalProtocol) (simple message : Message) :
    verdictOf contentHash { inst with acts := ys } protocol signer verb simple message
      = verdictOf contentHash inst protocol signer verb simple message := by
  have hstore := ((sameStore_same hkeyed h).append (wireAddress contentHash simple) inst.thread
    (signedBy signer message)).toStore
  unfold verdictOf
  dsimp only
  rw [hstore]

end Cause

-- ── Counters ────

/-- Views that are part of each other are one. -/
theorem part_antisymm {v w : View} (h : Part v w) (h' : Part w v) :
    v.all = w.all ∧ v.present = w.present := by
  have hpresent : v.present = w.present := by
    funext k
    exact Bool.eq_iff_iff.mpr ⟨h.present k, h'.present k⟩
  refine ⟨Std.ExtTreeMap.ext_getElem? fun k => ?_, hpresent⟩
  by_cases hk : v.present k = true
  · exact h.facts k hk
  · have hnone : ∀ u : View, u.present k ≠ true → u.all[k]? = none := by
      intro u hu
      cases hget : u.all[k]? with
      | none => rfl
      | some f => exact absurd (u.present_of_fact hget) hu
    rw [hnone v hk, hnone w (hpresent ▸ hk)]

/-- A ready observation is that of every list of the same acts. -/
theorem observe_same {c : CounterRule} {snapshot : Snapshot} (h : SameActs xs ys)
    (hready : observe contentHash c xs = .ready snapshot) :
    observe contentHash c ys = .ready snapshot := by
  obtain ⟨all, hf, hsettle⟩ := observe_ready hready
  obtain ⟨o, ops, hpass, -⟩ := passed_of_ok hsettle
  have hcons : ∀ a ∈ ys, Consistent contentHash a := by
    intro a ha
    exact hf.consistent a ((h a).mpr ha)
  have hsame : ∀ a ∈ ys, ∀ b ∈ ys, a.address = b.address → SameIdentity a b := by
    intro a ha b hb
    exact hf.same ((h a).mpr ha) ((h b).mpr hb)
  obtain ⟨all', hf', hobserve⟩ := observe_filed hpass.profile hcons hsame
  obtain ⟨hfacts, hpresent⟩ := part_antisymm (viewOf_part (c := c) hf hf' fun a ha => (h a).mp ha)
    (viewOf_part hf' hf fun a ha => (h a).mpr ha)
  rw [hobserve, ← hfacts, ← hpresent]
  unfold observeFacts
  rw [hsettle]

theorem observeIn_same {d : Dialect} {thread : ThreadId} {c : CounterRule} {snapshot : Snapshot}
    (h : SameActs xs ys) (hready : observeIn contentHash d thread c xs = .ready snapshot) :
    observeIn contentHash d thread c ys = .ready snapshot := by
  obtain ⟨hcontext, hroots, hobserve⟩ := observeIn_ready_iff.mp hready
  refine observeIn_ready_iff.mpr ⟨fun a ha => hcontext a ((h a).mpr ha),
    fun op hop hv r hr => ?_, observe_same h hobserve⟩
  obtain ⟨hmem, haddr⟩ := mem_openerRoots.mp hr
  exact hroots op ((h op).mpr hop) hv r (mem_openerRoots.mpr ⟨(h r).mpr hmem, haddr⟩)

theorem check_same {c : CounterRule} (candidate : Act) {snapshot : Snapshot}
    (h : SameActs xs ys) (hready : CbclEscrow.check contentHash c xs candidate = .ready snapshot) :
    CbclEscrow.check contentHash c ys candidate = .ready snapshot := by
  have hlonger : SameActs (xs ++ [candidate]) (ys ++ [candidate]) := by
    intro a
    rw [List.mem_append, List.mem_append, h a]
  unfold CbclEscrow.check at hready ⊢
  cases hx : observe contentHash c xs with
  | ready s =>
      rw [hx] at hready
      rw [observe_same h hx]
      exact observe_same hlonger hready
  | pending e => rw [hx] at hready; cases hready
  | fault r e => rw [hx] at hready; cases hready

-- ── Results ────

/-- Two results of the binder are alike: the same message, or the same rejection, or two refusals
    of the counter of the verb, which may name different evidence. -/
def Alike {α : Type} (counter : Bool) (r r' : Except Reject α) : Prop :=
  r = r' ∨ counter = true ∧ ∃ e e', r = .error (.resource e) ∧ r' = .error (.resource e')

section Alike

variable {α β : Type} {counter : Bool}

theorem Alike.refl (r : Except Reject α) : Alike counter r r := Or.inl rfl

/-- Computations that go on alike from a common start are alike. -/
theorem Alike.after (r : Except Reject α) {f f' : α → Except Reject β}
    (hf : ∀ a, Alike counter (f a) (f' a)) : Alike counter (r >>= f) (r >>= f') := by
  cases r with
  | error e => exact Or.inl rfl
  | ok a => exact hf a

/-- Computations that start alike and go on alike are alike. -/
theorem Alike.bind {r r' : Except Reject α} {f f' : α → Except Reject β}
    (h : Alike counter r r') (hf : ∀ a, Alike counter (f a) (f' a)) :
    Alike counter (r >>= f) (r' >>= f') := by
  rcases h with rfl | ⟨hcounter, e, e', rfl, rfl⟩
  · exact Alike.after r hf
  · exact Or.inr ⟨hcounter, e, e', rfl, rfl⟩

end Alike

/-- An observation that is not ready. -/
def Unready (o : Outcome) : Prop := (∃ e, o = .pending e) ∨ ∃ r e, o = .fault r e

/-- Observations that are ready alike are ready with one snapshot, or both are not. -/
theorem ready_or_unready {o o' : Outcome} (h : ∀ s, o = .ready s → o' = .ready s)
    (h' : ∀ s, o' = .ready s → o = .ready s) :
    (∃ s, o = .ready s ∧ o' = .ready s) ∨ Unready o ∧ Unready o' := by
  have hunready : ∀ o : Outcome, (∃ s, o = .ready s) ∨ Unready o := by
    intro o
    cases o with
    | ready s => exact Or.inl ⟨s, rfl⟩
    | pending e => exact Or.inr (Or.inl ⟨e, rfl⟩)
    | fault r e => exact Or.inr (Or.inr ⟨r, e, rfl⟩)
  rcases hunready o with ⟨s, hs⟩ | ho
  · exact Or.inl ⟨s, hs, h s hs⟩
  · rcases hunready o' with ⟨s, hs⟩ | ho'
    · exact Or.inl ⟨s, h' s hs, hs⟩
    · exact Or.inr ⟨ho, ho'⟩

-- ── The binder ────

/-- The bookkeeping of a verb is found alike. -/
theorem bookkeeping_alike (d : Dialect) (thread : ThreadId) (signer verb : String)
    (h : SameActs xs ys) :
    Alike (ruleFor d verb).isSome
      (orReject .resource (bookkeeping contentHash d xs thread signer verb))
      (orReject .resource (bookkeeping contentHash d ys thread signer verb)) := by
  unfold bookkeeping
  cases ruleFor d verb with
  | none => exact Alike.refl _
  | some rule =>
      obtain ⟨name, c⟩ := rule
      dsimp only
      rcases ready_or_unready (fun s => observeIn_same h) (fun s => observeIn_same h.symm)
        with ⟨s, hx, hy⟩ | ⟨hx, hy⟩
      · rw [hx, hy]
        exact Alike.refl _
      · rcases hx with ⟨e, hx⟩ | ⟨r, e, hx⟩ <;> rcases hy with ⟨e', hy⟩ | ⟨r', e', hy⟩ <;>
          rw [hx, hy] <;> exact Or.inr ⟨rfl, _, _, rfl, rfl⟩

/-- The counter's check of a built message ends alike. -/
theorem resourceGate_alike (inst : Instance) (signer verb : String) (message : Message)
    (h : SameActs inst.acts ys) :
    Alike (ruleFor inst.dialect verb).isSome
      (resourceGate contentHash inst signer verb message)
      (resourceGate contentHash { inst with acts := ys } signer verb message) := by
  unfold resourceGate
  dsimp only
  cases ruleFor inst.dialect verb with
  | none => exact Alike.refl _
  | some rule =>
      obtain ⟨name, c⟩ := rule
      dsimp only
      cases Act.fromMessage contentHash message signer with
      | error e => exact Alike.refl _
      | ok candidate =>
          dsimp only
          by_cases hquorum : c.certification.isQuorum = true
          · rw [if_pos hquorum, if_pos hquorum]
            exact Alike.refl _
          · rw [if_neg hquorum, if_neg hquorum]
            rcases ready_or_unready (fun s => observeIn_same h) (fun s => observeIn_same h.symm)
              with ⟨s, hx, hy⟩ | ⟨hx, hy⟩
            · rw [hx, hy]
              dsimp only
              rcases ready_or_unready (fun s => check_same candidate h)
                (fun s => check_same candidate h.symm) with ⟨s', hx', hy'⟩ | ⟨hx', hy'⟩
              · rw [hx', hy']
                exact Alike.refl _
              · rcases hx' with ⟨e, hx'⟩ | ⟨r, e, hx'⟩ <;>
                  rcases hy' with ⟨e', hy'⟩ | ⟨r', e', hy'⟩ <;>
                  rw [hx', hy'] <;> exact Or.inr ⟨rfl, _, _, rfl, rfl⟩
            · rcases hx with ⟨e, hx⟩ | ⟨r, e, hx⟩ <;> rcases hy with ⟨e', hy⟩ | ⟨r', e', hy⟩ <;>
                rw [hx, hy] <;> exact Or.inr ⟨rfl, _, _, rfl, rfl⟩

/-- The binder over an instance answers alike over every list of the same acts. -/
theorem intend_alike (contentHash : Message → String) (inst : Instance)
    (hkeyed : Keyed inst.acts) (h : SameActs inst.acts ys) (signer verb : String)
    (fields : BTreeMap String SExpr) :
    Alike (ruleFor inst.dialect verb).isSome
      (intend contentHash inst signer verb fields)
      (intend contentHash { inst with acts := ys } signer verb fields) := by
  unfold intend
  dsimp only
  cases inst.dialect.state with
  | none => exact Alike.refl _
  | some clause =>
      cases hprotocol : inst.dialect.causal_protocol with
      | none => exact Alike.refl _
      | some protocol =>
          dsimp only
          rw [domainGate_same hkeyed h, replacedBy_same hkeyed h, causeOf_same hkeyed h]
          simp only [verdictOf_same hkeyed h]
          refine Alike.after _ fun _ => Alike.after _ fun _ => Alike.after _ fun _ =>
            Alike.after _ fun _ => Alike.after _ fun _ => Alike.after _ fun recipients =>
            Alike.after _ fun replaces => Alike.after _ fun cause => Alike.after _ fun _ => ?_
          refine Alike.bind (bookkeeping_alike _ _ signer verb h) fun pairs => ?_
          refine Alike.after _ fun _ => Alike.after _ fun _ => Alike.after _ fun _ => ?_
          exact Alike.bind (resourceGate_alike inst signer verb _ h) fun _ => Alike.refl _

/-- Bind an intent over a list of accepted acts. -/
def intendOver (contentHash : Message → String) (d : Dialect) (thread : ThreadId)
    (acts : List Act) (signer : AgentKey) (verb : String) (fields : BTreeMap String SExpr) :
    Except String (Except Reject Message) :=
  (Instance.new d thread acts).map fun inst => intend contentHash inst signer verb fields

/-- **The binder is a function of the accepted set, but for the evidence of a refused counter.**
    Over two lists of the same acts, equal addresses carrying equal acts, an instance is refused
    from both or from neither, and an intent gives the same message or the same rejection, unless
    its verb operates a counter and the counter refuses it over both lists. -/
theorem intendOver_set (contentHash : Message → String) (d : Dialect) (thread : ThreadId)
    (xs ys : List Act) (hkeyed : Keyed xs) (h : SameActs xs ys) (signer : AgentKey)
    (verb : String) (fields : BTreeMap String SExpr) :
    intendOver contentHash d thread xs signer verb fields
        = intendOver contentHash d thread ys signer verb fields ∨
      (ruleFor d verb).isSome = true ∧ ∃ e e',
        intendOver contentHash d thread xs signer verb fields = .ok (.error (.resource e)) ∧
        intendOver contentHash d thread ys signer verb fields = .ok (.error (.resource e')) := by
  unfold intendOver
  rw [new_same d thread hkeyed h]
  cases hnew : Instance.new d thread xs with
  | error e => exact Or.inl rfl
  | ok inst =>
      obtain ⟨hd, -, hacts, -⟩ := instance_new_ok hnew
      rw [← hacts] at hkeyed h
      rcases intend_alike contentHash inst hkeyed h signer verb fields
        with heq | ⟨hcounter, e, e', hx, hy⟩
      · exact Or.inl (congrArg Except.ok heq)
      · refine Or.inr ⟨hd ▸ hcounter, e, e', congrArg Except.ok hx, congrArg Except.ok hy⟩

-- ── A till with two foreign takes ────

/-- A till: its opener is followed by takes. -/
def till : Dialect :=
  { CbclRegistry.plainDialect "till"
      [⟨"open", [], effectTemplate "open", none⟩, ⟨"take", [], effectTemplate "take", none⟩] with
    causal_protocol := some ⟨(((∅ : BTreeMap String StepDecl).insert "begin"
      ⟨"begin", [], [.single "open"]⟩).insert "open"
        ⟨"open", [.single "begin"], [.single "take"]⟩).insert "take" ⟨"take", [.single "open"], []⟩⟩
    state := some ⟨[.field "purse" (.boundedCounter tillRule)]⟩ }

/-- A message of a thread. -/
def tillMessage (verb thread : String) : Message :=
  .simple (.custom verb) (some (.one "@b")) (.list []) [] (some thread) none (some .begin)

/-- A hash that tells messages of different threads apart. -/
def threadHash (m : Message) : String := "sha256:" ++ m.thread.getD ""

/-- The opener of a till and two takes of other threads. -/
def foreignTakes : List Act :=
  [tillMessage "open" "t", tillMessage "take" "u", tillMessage "take" "v"].filterMap fun m =>
    (Act.fromMessage threadHash m "@a").toOption

theorem foreignTakes_keyed : Keyed foreignTakes := by
  unfold Keyed
  decide

theorem foreignTakes_reverse : SameActs foreignTakes foreignTakes.reverse :=
  fun _ => List.mem_reverse.symm

/-- Both lists of a till with takes of other threads refuse a take. -/
theorem intendOver_set_till :
    intendOver threadHash till "t" foreignTakes "@a" "take" ∅
        = intendOver threadHash till "t" foreignTakes.reverse "@a" "take" ∅ ∨
      (ruleFor till "take").isSome = true ∧ ∃ e e',
        intendOver threadHash till "t" foreignTakes "@a" "take" ∅ = .ok (.error (.resource e)) ∧
        intendOver threadHash till "t" foreignTakes.reverse "@a" "take" ∅
          = .ok (.error (.resource e')) :=
  intendOver_set threadHash till "t" foreignTakes foreignTakes.reverse foreignTakes_keyed
    foreignTakes_reverse "@a" "take" ∅

/-- The text of a refusal of the counter. -/
def refusal : Except String (Except Reject Message) → String
  | .ok (.error (.resource e)) => e
  | _ => ""

/-- The refusal of a counter names the act at fault that stands first in the list. -/
theorem refusal_of_order :
    ¬ ∀ (contentHash : Message → String) (d : Dialect) (thread : ThreadId) (xs ys : List Act),
      Keyed xs → SameActs xs ys →
        ∀ (signer : AgentKey) (verb : String) (fields : BTreeMap String SExpr),
          intendOver contentHash d thread xs signer verb fields
            = intendOver contentHash d thread ys signer verb fields := by
  intro hall
  have heq := hall threadHash till "t" foreignTakes foreignTakes.reverse foreignTakes_keyed
    foreignTakes_reverse "@a" "take" ∅
  have hrefusals : refusal (intendOver threadHash till "t" foreignTakes "@a" "take" ∅)
      ≠ refusal (intendOver threadHash till "t" foreignTakes.reverse "@a" "take" ∅) := by
    decide +kernel
  exact hrefusals (congrArg refusal heq)

/-- A take is an operation of the counter of the till. -/
example : (ruleFor till "take").isSome = true := by decide

end CbclBinderOrder
