import Cbcl.EscrowObservationProofs
import Cbcl.ExceptProofs
import Cbcl.ExportConfluenceProofs
import Cbcl.IntendModel
import Cbcl.MessageTextProofs
import Cbcl.RegistryProofs

/-!
# What the intent binder builds

`intend` verifies what it has built over the accepted acts and itself, so its act passes the
shape and causal stages of admission.  Three things escape it: the recogniser reads the
recipient position only if every recipient is an address, it reads a reserved head as another
form, and admission waits for a root where the binder falls back to the role-free check.
-/

namespace CbclIntend

open CbclMessage CbclProtocol CbclStore CbclThreadedStore CbclAct CbclShape CbclStateShape
open CbclVerifier CbclDialect CbclRepeat CbclState CbclEscrow CbclExports CbclText
open CbclMessageText CbclDialectParser CbclExcept CbclEscrowObservation
open CbclRecogniser hiding isAddress
open CbclRole hiding Dialect PerformativeDef

section Binder

variable {contentHash : Message → String} {inst : Instance} {signer : AgentKey} {verb : String}
  {fields : BTreeMap String SExpr} {m : Message}

-- ── Inversion ────

theorem rejectIf_ok_iff {c : Prop} [Decidable c] {reject : Reject} {u : Unit} :
    rejectIf c reject = .ok u ↔ ¬ c := by
  unfold rejectIf
  by_cases h : c
  · simp [h]
  · simp [h]

theorem orReject_ok_iff {ε α : Type} {reject : ε → Reject} {x : Except ε α} {a : α} :
    orReject reject x = .ok a ↔ x = .ok a := by
  cases x <;> simp [orReject]

/-- What the binder found and built when it returns a message. -/
structure Built (contentHash : Message → String) (inst : Instance) (signer : AgentKey)
    (verb : String) (fields : BTreeMap String SExpr) (m : Message) where
  clause : StateClause
  protocol : CausalProtocol
  recipients : BTreeSet String
  replaces : Option (List String)
  cause : CausedBy
  pairs : List (String × SExpr)
  state : inst.dialect.state = some clause
  causal : inst.dialect.causal_protocol = some protocol
  supplied : ∀ k ∈ fields.keys, isForged k = false
  sent : recipientsOf inst verb = .ok recipients
  replaced : replacedBy contentHash clause inst.acts (boundsOf inst.dialect).max_list signer verb
    fields = .ok replaces
  caused : causeOf inst protocol signer verb = .ok cause
  booked : bookkeeping contentHash inst.dialect inst.acts inst.thread signer verb = .ok pairs
  message : m = .dialect inst.dialect.name
    (simpleOf inst signer verb fields recipients pairs replaces cause)
  stateShape : verifyStateShape inst.dialect m = .ok ()
  shapes : checkShapes inst.dialect verb
    (simpleOf inst signer verb fields recipients pairs replaces cause) = .ok ()
  verdict : verdictOf contentHash inst protocol signer verb
    (simpleOf inst signer verb fields recipients pairs replaces cause) m = .valid
  resource : resourceGate contentHash inst signer verb m = .ok ()

/-- What the binder returns it has built. -/
theorem built_of_intend (h : intend contentHash inst signer verb fields = .ok m) :
    Nonempty (Built contentHash inst signer verb fields m) := by
  unfold intend at h
  dsimp only at h
  split at h
  · rename_i clause protocol hstate hcausal
    simp only [bind_ok_iff, rejectIf_ok_iff, orReject_ok_iff, forM_ok_iff] at h
    obtain ⟨-, -, -, -, -, hforged, -, -, -, -, recipients, hsent, replaces, hreplaced, cause,
      hcause, -, -, pairs, hpairs, ⟨⟩, hshape, ⟨⟩, hshapes, -, hverdict, ⟨⟩, hresource, hm⟩ := h
    obtain rfl := Except.ok.inj hm
    exact ⟨⟨clause, protocol, recipients, replaces, cause, pairs, hstate, hcausal,
      fun k hk => by simpa using hforged k hk, hsent, hreplaced, hcause, hpairs, rfl, hshape,
      hshapes, not_not.mp hverdict, hresource⟩⟩
  · exact nomatch h

-- ── Predecessors ────

theorem greatestAddress_mem {acts : List Act} {h : String} (hg : greatestAddress acts = some h) :
    ∃ a ∈ acts, a.address = h := by
  cases acts with
  | nil => exact nomatch hg
  | cons a rest =>
      rw [← Option.some.inj hg]
      clear hg
      induction rest using List.reverseRecOn with
      | nil => exact ⟨a, List.mem_singleton_self a, rfl⟩
      | append_singleton rest b ih =>
          rw [List.foldl_append, List.foldl_cons, List.foldl_nil]
          split
          · obtain ⟨x, hx, heq⟩ := ih
            exact ⟨x, by rw [← List.cons_append]; exact List.mem_append_left _ hx, heq⟩
          · exact ⟨b, by simp, rfl⟩

theorem pickPredecessor_mem {candidates : List Act} {h : String}
    (hp : pickPredecessor signer candidates = some h) : ∃ a ∈ candidates, a.address = h := by
  unfold pickPredecessor at hp
  dsimp only at hp
  split at hp
  · exact greatestAddress_mem hp
  · obtain ⟨a, ha, heq⟩ := greatestAddress_mem hp
    refine ⟨a, ?_, heq⟩
    split at ha
    · exact List.mem_of_mem_filter ha
    · exact List.mem_of_mem_filter (List.mem_of_mem_filter ha)

/-- A chosen predecessor is the address of an accepted act. -/
theorem chooseTypedPredecessor_mem {allowed : List String} {resolution : Option Resolution}
    {h : String} (hc : chooseTypedPredecessor inst signer allowed resolution = some h) :
    ∃ a ∈ inst.acts, a.address = h := by
  obtain ⟨a, ha, heq⟩ := pickPredecessor_mem hc
  exact ⟨a, List.mem_of_mem_filter ha, heq⟩

/-- The members of a successful search per element. -/
theorem mem_mapM_some {α β : Type} {f : α → Option β} : ∀ {xs : List α} {ys : List β},
    xs.mapM f = some ys → ∀ y ∈ ys, ∃ x ∈ xs, f x = some y := by
  intro xs
  induction xs with
  | nil =>
      intro ys h y hy
      rw [← Option.some.inj h] at hy
      exact nomatch hy
  | cons x xs ih =>
      intro ys h y hy
      rw [List.mapM_cons] at h
      simp only [Option.bind_eq_bind, Option.bind_eq_some_iff, Option.pure_def,
        Option.some.injEq] at h
      obtain ⟨z, hz, zs, hzs, rfl⟩ := h
      rcases List.mem_cons.mp hy with rfl | hy
      · exact ⟨x, List.mem_cons_self .., hz⟩
      · obtain ⟨x', hx', hy'⟩ := ih hzs y hy
        exact ⟨x', List.mem_cons_of_mem _ hx', hy'⟩

/-- Chosen instances are addresses of accepted acts. -/
theorem chooseInstances_mem {resolution : Resolution} {name : String} {hs : List String}
    (hc : chooseInstances inst signer resolution name = some hs) :
    ∀ h ∈ hs, ∃ a ∈ inst.acts, a.address = h := by
  intro h hh
  unfold chooseInstances at hc
  split at hc
  · obtain ⟨who, -, hg⟩ := mem_mapM_some hc h hh
    obtain ⟨a, ha, heq⟩ := greatestAddress_mem hg
    exact ⟨a, List.mem_of_mem_filter ha, heq⟩
  · obtain ⟨h', hc', rfl⟩ := Option.map_eq_some_iff.mp hc
    rw [List.mem_singleton.mp hh]
    exact chooseTypedPredecessor_mem hc'

/-- A causal reference in canonical form that names accepted acts only. -/
inductive NamesAccepted (inst : Instance) : CausedBy → Prop
  | single {a : Act} : a ∈ inst.acts → NamesAccepted inst (.single a.address)
  | multiple {hs : List String} : hs ≠ [] → hs.Pairwise (· ≤ ·) →
      (∀ h ∈ hs, ∃ a ∈ inst.acts, a.address = h) → NamesAccepted inst (.multiple hs)

theorem namesAccepted_single {h : String} (hh : ∃ a ∈ inst.acts, a.address = h) :
    NamesAccepted inst (.single h) := by
  obtain ⟨a, ha, rfl⟩ := hh
  exact .single ha

theorem repeatNode_names {resolution : Resolution} {node : NodeRef} {cause : CausedBy}
    (h : repeatNode inst signer resolution node = some cause) : NamesAccepted inst cause := by
  unfold repeatNode at h
  split at h
  · exact nomatch h
  · split at h
    · split at h
      · rename_i groups hgroups
        split at h
        · exact nomatch h
        · rename_i hne
          rw [← Option.some.inj h]
          have hsub := List.destutter_sublist (· ≠ ·) (groups.flatten.insertionSort (· ≤ ·))
          refine .multiple ?_ ((List.pairwise_insertionSort (· ≤ ·) _).sublist hsub) ?_
          · rw [Ne, List.destutter_eq_nil, ← List.isEmpty_iff]
            intro hnil
            refine hne ?_
            rw [List.isEmpty_iff] at hnil ⊢
            exact List.Perm.nil_eq (hnil ▸ List.perm_insertionSort (· ≤ ·) _) |>.symm
          · intro x hx
            have hflat := (List.perm_insertionSort (· ≤ ·) _).mem_iff.mp (hsub.subset hx)
            obtain ⟨group, hgroup, hxg⟩ := List.mem_flatten.mp hflat
            obtain ⟨name, -, hname⟩ := mem_mapM_some hgroups group hgroup
            exact chooseInstances_mem hname x hxg
      · exact nomatch h
    · obtain ⟨h', hc, rfl⟩ := Option.map_eq_some_iff.mp h
      exact namesAccepted_single (chooseTypedPredecessor_mem hc)

/-- The predecessors chosen for the nodes of a step are accepted. -/
theorem chooseNodes_mem : ∀ {nodes : List NodeRef} {fan : Bool} {r : Bool × List String},
    chooseNodes inst signer fan nodes = .ok r → ∀ h ∈ r.2, ∃ a ∈ inst.acts, a.address = h := by
  intro nodes
  induction nodes with
  | nil =>
      intro fan r hr h hh
      rw [← Except.ok.inj hr] at hh
      exact nomatch hh
  | cons node nodes ih =>
      intro fan r hr h hh
      have hone : ∀ {allowed : List String} {p : String},
          chooseTypedPredecessor inst signer allowed none = some p → h ∈ [p] →
            ∃ a ∈ inst.acts, a.address = h := fun hc hmem => by
        rw [List.mem_singleton.mp hmem]
        exact chooseTypedPredecessor_mem hc
      cases node with
      | single s =>
          rw [chooseNodes] at hr
          split at hr
          · rename_i p hp
            rw [← Except.ok.inj hr] at hh
            exact hone hp hh
          · split at hr
            · exact nomatch hr
            · exact ih hr h hh
      | any set =>
          rw [chooseNodes] at hr
          split at hr
          · rename_i p hp
            rw [← Except.ok.inj hr] at hh
            exact hone hp hh
          · exact ih hr h hh
      | all set =>
          rw [chooseNodes] at hr
          split at hr
          · rename_i p ps hps
            rw [← Except.ok.inj hr] at hh
            obtain ⟨s, -, hs⟩ := mem_mapM_some hps h hh
            exact chooseTypedPredecessor_mem hs
          · exact ih hr h hh

/-- **The binder cites accepted acts.** -/
theorem causeOf_names {protocol : CausalProtocol} {cause : CausedBy}
    (h : causeOf inst protocol signer verb = .ok cause) : NamesAccepted inst cause := by
  unfold causeOf at h
  split at h
  · unfold repeatCause at h
    split at h
    · exact nomatch h
    · dsimp only at h
      split at h
      · rename_i found hfound
        rw [← Except.ok.inj h]
        obtain ⟨name, -, hname⟩ := List.exists_of_findSome?_eq_some hfound
        obtain ⟨node, -, hnode⟩ := List.exists_of_findSome?_eq_some hname
        exact repeatNode_names hnode
      · exact nomatch h
  · split at h
    · exact nomatch h
    · exact nomatch h
    · split at h
      · exact nomatch h
      · exact nomatch h
      · rename_i fan p ps hchosen
        have hmem := chooseNodes_mem hchosen
        split at h
        · rw [← Except.ok.inj h]
          refine .multiple ?_ (List.pairwise_insertionSort (· ≤ ·) _) ?_
          · intro hnil
            have hperm := List.perm_insertionSort (· ≤ ·) (p :: ps)
            rw [hnil] at hperm
            exact nomatch hperm.nil_eq
          · intro x hx
            exact hmem x ((List.perm_insertionSort (· ≤ ·) _).mem_iff.mp hx)
        · rw [← Except.ok.inj h]
          exact namesAccepted_single (hmem p (List.mem_cons_self ..))

-- ── Addresses ────

/-- A content hash is spelled `sha256:` and 64 hexadecimal digits. -/
def SpelledInHex (contentHash : Message → String) : Prop :=
  ∀ m, ∃ hex, contentHash m = "sha256:" ++ hex ∧ isHex64 hex = true

theorem isAddress_wire (hhex : SpelledInHex contentHash) (simple : Message) :
    isAddress (wireAddress contentHash simple) = true := by
  obtain ⟨hex, heq, hdigits⟩ := hhex simple
  have hstrip : ∀ lead : String, stripStart lead (lead ++ hex) = some hex := fun lead =>
    CbclStateProgress.stripStart_eq_some_iff.mpr rfl
  unfold isAddress wireAddress
  rw [heq, hstrip]
  dsimp only
  rw [hstrip]
  exact hdigits

/-- An address is a symbol, and not the reserved word. -/
theorem symbol_of_isAddress {s : String} (h : isAddress s = true) :
    SymbolName s ∧ s ≠ BEGIN_KEYWORD := by
  unfold isAddress at h
  cases hs : stripStart "sha256-" s with
  | none => rw [hs] at h; exact nomatch h
  | some hex =>
      rw [hs] at h
      have hdigits : hex.toList.all isSymbolChar = true := by
        have hall : hex.toList.all (fun c => c.isDigit || ('a' ≤ c && c ≤ 'f')) = true :=
          (Bool.and_eq_true _ _ ▸ h : _ ∧ _).2
        rw [List.all_eq_true] at hall ⊢
        intro c hc
        have hclass := hall c hc
        unfold isSymbolChar Char.isAlphanum Char.isAlpha Char.isLower
        rcases Bool.or_eq_true _ _ ▸ hclass with hdigit | hletter
        · simp [hdigit]
        · have hle : 'a' ≤ c ∧ c ≤ 'f' := by simpa using hletter
          have hlast : ('f' : Char).val ≤ 122 := by decide
          have hlower : 97 ≤ c.val ∧ c.val ≤ 122 := ⟨hle.1, UInt32.le_trans hle.2 hlast⟩
          simp [hlower.1, hlower.2]
      have hsplit := CbclStateProgress.stripStart_eq_some_iff.mp hs
      have hlist : s.toList = "sha256-".toList ++ hex.toList := by
        rw [hsplit, String.toList_append]
      constructor
      · unfold SymbolName isSymbolText
        rw [hlist]
        simp only [List.all_append, hdigits, Bool.and_true]
        rfl
      · rintro rfl
        rw [show BEGIN_KEYWORD.toList = 'b' :: "egin".toList from rfl] at hlist
        exact nomatch hlist

-- ── Keyword pairs ────

theorem pairItems_cons (k : String) (v : SExpr) (pairs : List (String × SExpr)) :
    pairItems ((k, v) :: pairs) = .atom (.keyword k) :: v :: pairItems pairs := rfl

/-- Pairs are scanned as pairs. -/
theorem scanFields_pairItems (pairs : List (String × SExpr)) : ∀ out : BTreeMap String SExpr,
    scanFields (pairItems pairs) out = pairs.foldl (fun out (e : String × SExpr) =>
      if e.1 ∈ ROUTING_KEYWORDS then out else out.insert e.1 e.2) out := by
  induction pairs with
  | nil => intro out; rfl
  | cons e pairs ih =>
      intro out
      obtain ⟨k, v⟩ := e
      rw [pairItems_cons, scanFields, List.foldl_cons, ih]

/-- A key that is not among some pairs keeps its value. -/
theorem foldl_pairs_other {k : String} : ∀ (pairs : List (String × SExpr))
    (out : BTreeMap String SExpr), k ∉ pairs.map Prod.fst →
      (pairs.foldl (fun out (e : String × SExpr) =>
        if e.1 ∈ ROUTING_KEYWORDS then out else out.insert e.1 e.2) out)[k]? = out[k]? := by
  intro pairs
  induction pairs with
  | nil => intro out _; rfl
  | cons e pairs ih =>
      intro out hk
      rw [List.map_cons, List.mem_cons, not_or] at hk
      rw [List.foldl_cons, ih _ hk.2]
      split
      · rfl
      · rw [CbclTreeMap.getElem?_insert_eq, if_neg hk.1]

/-- The field of a key among pairs of distinct keys is its value. -/
theorem getElem?_foldl_pairs {k : String} {v : SExpr} (hrouting : k ∉ ROUTING_KEYWORDS) :
    ∀ (pairs : List (String × SExpr)) (out : BTreeMap String SExpr),
      (pairs.map Prod.fst).Nodup → (k, v) ∈ pairs →
        (pairs.foldl (fun out (e : String × SExpr) =>
          if e.1 ∈ ROUTING_KEYWORDS then out else out.insert e.1 e.2) out)[k]? = some v := by
  intro pairs
  induction pairs with
  | nil => intro out _ hmem; exact nomatch hmem
  | cons e pairs ih =>
      intro out hnodup hmem
      rw [List.map_cons, List.nodup_cons] at hnodup
      rw [List.foldl_cons]
      rcases List.mem_cons.mp hmem with rfl | hmem
      · rw [foldl_pairs_other pairs _ hnodup.1, if_neg hrouting,
          CbclTreeMap.getElem?_insert_eq, if_pos rfl]
      · exact ih _ hnodup.2 hmem

theorem pairKeys_pairItems (pairs : List (String × SExpr)) :
    pairKeys (pairItems pairs) = pairs.map Prod.fst := by
  induction pairs with
  | nil => rfl
  | cons e pairs ih =>
      obtain ⟨k, v⟩ := e
      rw [pairItems_cons, pairKeys, ih]
      rfl

/-- Pairs of unreserved keys are well-formed parameters. -/
theorem paramsOk_pairItems {pairs : List (String × SExpr)}
    (h : ∀ e ∈ pairs, e.1 ∉ reservedKeys) : ParamsOk (pairItems pairs) := by
  induction pairs with
  | nil => exact .nil
  | cons e pairs ih =>
      obtain ⟨k, v⟩ := e
      rw [pairItems_cons]
      exact .pair (h _ (List.mem_cons_self ..)) (ih fun e he => h e (List.mem_cons_of_mem _ he))

/-- Pairs of lexically valid keys and values are lexically valid. -/
theorem lexicalItems_pairItems {pairs : List (String × SExpr)}
    (h : ∀ e ∈ pairs, isKeywordText e.1.toList = true ∧ Lexical e.2) :
    LexicalItems (pairItems pairs) := by
  induction pairs with
  | nil => trivial
  | cons e pairs ih =>
      obtain ⟨k, v⟩ := e
      obtain ⟨hk, hv⟩ := h _ (List.mem_cons_self ..)
      exact ⟨hk, hv, ih fun e he => h e (List.mem_cons_of_mem _ he)⟩

-- ── The parts of a built message ────

/-- The symbols of an intent are symbols of the text grammar. -/
structure LexicalIntent (signer : AgentKey) (verb : String) (fields : BTreeMap String SExpr) :
    Prop where
  verb_name : SymbolName verb
  signer_name : SymbolName signer
  field_texts : ∀ (k : String) (v : SExpr), fields[k]? = some v →
    isKeywordText k.toList = true ∧ Lexical v

/-- Bookkeeping is empty, or the two links of a counter operation. -/
theorem bookkeeping_cases {d : Dialect} {acts : List Act} {thread : ThreadId} {who op : String}
    {pairs : List (String × SExpr)} (h : bookkeeping contentHash d acts thread who op = .ok pairs) :
    pairs = [] ∨ ∃ prev deps, (ruleFor d op).isSome ∧
      pairs = [(PREV, .atom (.symbol prev)), (DEPS, addressList deps)] := by
  unfold bookkeeping at h
  split at h
  · exact Or.inl (Except.ok.inj h).symm
  · rename_i c hrule
    split at h
    · split at h
      · exact nomatch h
      · dsimp only at h
        split at h
        · exact nomatch h
        · exact Or.inr ⟨_, _, by rw [hrule]; rfl, (Except.ok.inj h).symm⟩
    · exact nomatch h

/-- The keys of what the binder adds to the supplied fields. -/
def addedKeys : List String := [PREV, DEPS, RESERVED_REPLACES, "from"]

section Parts

variable (b : Built contentHash inst signer verb fields m)

/-- The keyword pairs of a built message. -/
def Built.allPairs : List (String × SExpr) := pairsOf fields b.pairs b.replaces signer

/-- The simple message of a built message. -/
def Built.simple : Message :=
  simpleOf inst signer verb fields b.recipients b.pairs b.replaces b.cause

/-- The pairs of a built message, by origin. -/
theorem Built.mem_allPairs {e : String × SExpr} (he : e ∈ b.allPairs) :
    fields[e.1]? = some e.2 ∨ e ∈ b.pairs ∨
      (∃ addresses, b.replaces = some addresses ∧
        e = (RESERVED_REPLACES, addressList addresses)) ∨
      e = ("from", .atom (.symbol signer)) := by
  unfold Built.allPairs pairsOf addedPairs at he
  simp only [List.mem_append, List.mem_singleton, Option.mem_toList, Option.map_eq_some_iff] at he
  rcases he with he | (he | ⟨addresses, hsome, rfl⟩) | rfl
  · exact Or.inl (Std.ExtTreeMap.mem_toList_iff_getElem?_eq_some.mp he)
  · exact Or.inr (Or.inl he)
  · exact Or.inr (Or.inr (Or.inl ⟨addresses, hsome, rfl⟩))
  · exact Or.inr (Or.inr (Or.inr rfl))

include b in
/-- Supplied keys are none of the keys the binder owns. -/
theorem Built.supplied_free {k : String} (hk : k ∈ fields) :
    k ∉ addedKeys ∧ k ∉ reservedKeys := by
  have hfree := b.supplied k (Std.ExtTreeMap.mem_keys.mpr hk)
  unfold isForged ROUTING_KEYWORDS at hfree
  simp only [Bool.or_eq_false_iff, decide_eq_false_iff_not, List.contains_eq_mem, List.mem_cons,
    List.not_mem_nil, or_false, not_or] at hfree
  unfold addedKeys reservedKeys
  simp only [List.mem_cons, List.not_mem_nil, or_false, not_or]
  tauto

/-- The keys the binder adds, in order. -/
theorem Built.added_sublist :
    ((addedPairs b.pairs b.replaces signer).map Prod.fst).Sublist addedKeys := by
  unfold addedPairs addedKeys
  rcases bookkeeping_cases b.booked with hnil | ⟨prev, deps, -, hpairs⟩
  · rw [hnil]
    cases b.replaces with
    | none => exact .cons _ (.cons _ (.cons _ (.refl _)))
    | some addresses => exact .cons _ (.cons _ (.refl _))
  · rw [hpairs]
    cases b.replaces with
    | none => exact .cons_cons _ (.cons_cons _ (.cons _ (.refl _)))
    | some addresses => exact .refl _

/-- The keys of a built message are distinct. -/
theorem Built.nodup_keys : (b.allPairs.map Prod.fst).Nodup := by
  have hfields : (fields.toList.map Prod.fst).Nodup := by
    rw [Std.ExtTreeMap.map_fst_toList_eq_keys]
    exact CbclTreeMap.nodup_keys fields
  have hnodup : addedKeys.Nodup := by decide
  unfold Built.allPairs pairsOf
  rw [List.map_append, List.nodup_append]
  refine ⟨hfields, hnodup.sublist b.added_sublist, ?_⟩
  intro k hk k' hk' heq
  have hmem : k ∈ fields := by
    rw [Std.ExtTreeMap.map_fst_toList_eq_keys] at hk
    exact Std.ExtTreeMap.mem_keys.mp hk
  exact (b.supplied_free hmem).1 (heq ▸ b.added_sublist.subset hk')

/-- No key of a built message is one the recogniser keeps for itself. -/
theorem Built.unreserved : ∀ e ∈ b.allPairs, e.1 ∉ reservedKeys := by
  intro e he
  rcases List.mem_append.mp he with he | he
  · have hget := Std.ExtTreeMap.mem_toList_iff_getElem?_eq_some.mp he
    refine (b.supplied_free ?_).2
    rw [Std.ExtTreeMap.mem_iff_isSome_getElem?, hget]
    rfl
  · have hmem := b.added_sublist.subset (List.mem_map_of_mem he)
    have hfree : ∀ k ∈ addedKeys, k ∉ reservedKeys := by decide
    exact hfree _ hmem

/-- The field of a built message under a key the recogniser does not keep. -/
theorem Built.field {k : String} {v : SExpr} (he : (k, v) ∈ b.allPairs)
    (hrouting : k ∉ ROUTING_KEYWORDS) : (keywordFields b.simple)[k]? = some v := by
  show (scanFields (pairItems b.allPairs) ∅)[k]? = some v
  rw [scanFields_pairItems]
  exact getElem?_foldl_pairs hrouting b.allPairs ∅ b.nodup_keys he


-- ── Addresses in fields ────

/-- A verb that a rule binds is one of its verbs. -/
theorem bindingOf_verbs {op : String} {rule : Rule} (h : bindingOf op rule ≠ none) :
    op ∈ ruleVerbs rule := by
  unfold bindingOf at h
  unfold ruleVerbs
  cases rule with
  | values w key =>
      by_cases hw : w = op
      · simp [hw]
      · exact absurd (if_neg hw) h
  | valuesPerKey w key value delete =>
      by_cases hw : w = op
      · simp [hw]
      · by_cases hd : delete = some op
        · simp [hd]
        · exact absurd ((if_neg hw).trans (if_neg hd)) h
  | lwwMap w key value clock delete =>
      by_cases hw : w = op
      · simp [hw]
      · by_cases hd : delete = some op
        · simp [hd]
        · exact absurd ((if_neg hw).trans (if_neg hd)) h
  | observedSet add remove key =>
      by_cases hr : remove = op
      · simp [hr]
      · exact absurd (if_neg hr) h
  | _ => exact absurd rfl h

/-- A rule that makes a verb replace something names it. -/
theorem replacedUnder_verbs {clause : StateClause} {acts : List Act} {bound : UInt32}
    {replaces replaces' : Option (List String)} {rule : Rule}
    (h : replacedUnder contentHash clause acts bound signer verb fields replaces rule
      = .ok replaces') : replaces' = replaces ∨ verb ∈ ruleVerbs rule := by
  by_cases hmem : verb ∈ ruleVerbs rule
  · exact Or.inr hmem
  · refine Or.inl ?_
    have hnone : bindingOf verb rule = none := by
      by_contra hne
      exact hmem (bindingOf_verbs hne)
    unfold replacedUnder at h
    split at h
    · rename_i writer _ _
      rw [if_neg (fun hw => hmem (by rw [← hw]; exact List.mem_singleton_self _))] at h
      exact (Except.ok.inj h).symm
    · rw [hnone] at h
      exact (Except.ok.inj h).symm

/-- A verb that replaces is named by the clause. -/
theorem replacedBy_bearing {clause : StateClause} {acts : List Act} {bound : UInt32}
    {addresses : List String}
    (h : replacedBy contentHash clause acts bound signer verb fields = .ok (some addresses)) :
    stateBearing clause verb = true := by
  have hrun : some addresses = none ∨ ∃ rule ∈ clause.fields.map (·.2), verb ∈ ruleVerbs rule := by
    unfold replacedBy at h
    refine foldlM_inv (I := fun (done : List Rule) (r : Option (List String)) =>
      r = none ∨ ∃ rule ∈ done, verb ∈ ruleVerbs rule) ?_ (Or.inl rfl) h
    intro done rule r r' _ hI hstep
    rcases replacedUnder_verbs hstep with rfl | hmem
    · rcases hI with hnone | ⟨rule', hrule', hv⟩
      · exact Or.inl hnone
      · exact Or.inr ⟨rule', List.mem_append_left _ hrule', hv⟩
    · exact Or.inr ⟨rule, List.mem_append_right _ (List.mem_singleton_self rule), hmem⟩
  rcases hrun with hnone | ⟨rule, hrule, hv⟩
  · exact nomatch hnone
  · obtain ⟨e, he, rfl⟩ := List.mem_map.mp hrule
    unfold stateBearing
    rw [Bool.or_eq_true]
    refine Or.inl (List.any_eq_true.mpr ⟨e, he, ?_⟩)
    show (ruleVerbs e.2).contains verb = true
    rw [List.contains_eq_mem]
    exact decide_eq_true hv

/-- A counter operation is named by the clause. -/
theorem bearing_of_ruleFor {d : Dialect} {clause : StateClause} (hstate : d.state = some clause)
    {op : String} (h : (ruleFor d op).isSome = true) : stateBearing clause op = true := by
  obtain ⟨found, hfound⟩ := Option.isSome_iff_exists.mp h
  unfold ruleFor at hfound
  rw [hstate] at hfound
  obtain ⟨e, he, hsome⟩ := List.exists_of_findSome?_eq_some hfound
  unfold stateBearing
  rw [Bool.or_eq_true]
  refine Or.inl (List.any_eq_true.mpr ⟨e, he, ?_⟩)
  obtain ⟨name, rule⟩ := e
  cases rule with
  | boundedCounter c =>
      dsimp only at hsome
      split at hsome
      · rename_i hmem
        show (ruleVerbs (.boundedCounter c)).contains op = true
        rw [List.contains_eq_mem, decide_eq_true_eq] at hmem ⊢
        exact List.mem_append_left _ hmem
      · exact nomatch hsome
  | _ => exact nomatch hsome

/-- The items of a checked `:replaces` list are addresses. -/
theorem addresses_of_replaced : ∀ {addresses seen : List String},
    checkReplacedItems seen (addresses.map fun a => .atom (.symbol a)) = .ok () →
      ∀ a ∈ addresses, isAddress a = true := by
  intro addresses
  induction addresses with
  | nil => intro seen _ a ha; exact nomatch ha
  | cons x addresses ih =>
      intro seen h a ha
      rw [List.map_cons, checkReplacedItems] at h
      dsimp only [text] at h
      split at h
      · exact nomatch h
      · rename_i haddr
        split at h
        · exact nomatch h
        · rcases List.mem_cons.mp ha with rfl | ha
          · simpa using haddr
          · exact ih h a ha

/-- Checked dependencies are addresses. -/
theorem addresses_of_dependencies {prev : String} : ∀ {addresses : List String}
    {last : Option String},
    checkDependencies prev last (addresses.map fun a => .atom (.symbol a)) = .ok () →
      ∀ a ∈ addresses, isAddress a = true := by
  intro addresses
  induction addresses with
  | nil => intro last _ a ha; exact nomatch ha
  | cons x addresses ih =>
      intro last h a ha
      rw [List.map_cons, checkDependencies] at h
      split at h
      · rename_i hok
        rw [Bool.and_eq_true, Bool.and_eq_true] at hok
        rcases List.mem_cons.mp ha with rfl | ha
        · exact hok.1.1
        · exact ih h a ha
      · exact nomatch h

/-- What the state shape of a named verb establishes of its links. -/
theorem links_of_stateShape {d : Dialect} {clause : StateClause} (hstate : d.state = some clause)
    {message simple : Message} {p : Performative} (hinner : message.innermostSimple = some simple)
    (hperf : simple.performative = some p) (hbearing : stateBearing clause p.name = true)
    (h : verifyStateShape d message = .ok ()) :
    checkEscrow d p.name (keywordFields simple) = .ok () ∧
      checkReplaces d clause p.name (keywordFields simple) = .ok () := by
  unfold verifyStateShape at h
  rw [hstate, hinner] at h
  dsimp only at h
  rw [hperf] at h
  dsimp only at h
  rw [hbearing, if_neg (by decide)] at h
  simp only [bind_ok_iff] at h
  obtain ⟨-, -, -, -, -, -, ⟨⟩, hescrow, hreplaces⟩ := h
  exact ⟨hescrow, hreplaces⟩

include b in
theorem Built.innermost : m.innermostSimple = some b.simple :=
  congrArg Message.innermostSimple b.message

include b in
/-- The links a counter operation is given are addresses. -/
theorem Built.booked_addresses {prev : String} {deps : List String}
    (hrule : (ruleFor inst.dialect verb).isSome = true)
    (hpairs : b.pairs = [(PREV, .atom (.symbol prev)), (DEPS, addressList deps)]) :
    isAddress prev = true ∧ ∀ a ∈ deps, isAddress a = true := by
  have hmem : ∀ e ∈ b.pairs, e ∈ b.allPairs := fun e he => by
    unfold Built.allPairs pairsOf addedPairs
    simp [he]
  have hprev := b.field (hmem (PREV, .atom (.symbol prev)) (by rw [hpairs]; simp)) (by decide)
  have hdeps := b.field (hmem (DEPS, addressList deps) (by rw [hpairs]; simp)) (by decide)
  have hlinks := (links_of_stateShape (p := .custom verb) b.state b.innermost rfl
    (bearing_of_ruleFor b.state hrule) b.stateShape).1
  obtain ⟨found, hfound⟩ := Option.isSome_iff_exists.mp hrule
  unfold checkEscrow at hlinks
  rw [show Performative.name (.custom verb) = verb from rfl, hfound, hprev, hdeps] at hlinks
  dsimp only [addressList] at hlinks
  split at hlinks
  · exact nomatch hlinks
  · split at hlinks
    · exact nomatch hlinks
    · rename_i hok
      split at hlinks
      · exact nomatch hlinks
      · exact ⟨by simpa using hok, addresses_of_dependencies hlinks⟩

include b in
/-- The writes an act is made to replace are addresses. -/
theorem Built.replaced_addresses {addresses : List String} (hsome : b.replaces = some addresses) :
    ∀ a ∈ addresses, isAddress a = true := by
  have hbearing : stateBearing b.clause verb = true :=
    replacedBy_bearing (hsome ▸ b.replaced)
  have hmem : (RESERVED_REPLACES, addressList addresses) ∈ b.allPairs := by
    unfold Built.allPairs pairsOf addedPairs
    simp [hsome]
  have hfield := b.field hmem (by decide)
  have hlinks := (links_of_stateShape (p := .custom verb) b.state b.innermost rfl hbearing
    b.stateShape).2
  unfold checkReplaces at hlinks
  rw [hfield] at hlinks
  dsimp only [addressList] at hlinks
  split at hlinks
  · exact nomatch hlinks
  · exact addresses_of_replaced hlinks

-- ── The written form ────

/-- Acts built from messages. -/
def FromMessages (contentHash : Message → String) (acts : List Act) : Prop :=
  ∀ a ∈ acts, ∃ message who, Act.fromMessage contentHash message who = .ok a

theorem lexical_addressList {addresses : List String}
    (h : ∀ a ∈ addresses, isAddress a = true) : Lexical (addressList addresses) :=
  lexicalItems_symbols fun a ha => (symbol_of_isAddress (h a ha)).1

theorem addedKeys_text : ∀ k ∈ addedKeys, isKeywordText k.toList = true := by
  decide

/-- The pairs of a built message are lexically valid. -/
theorem Built.lexical_pairs (hlex : LexicalIntent signer verb fields) :
    ∀ e ∈ b.allPairs, isKeywordText e.1.toList = true ∧ Lexical e.2 := by
  intro e he
  rcases b.mem_allPairs he with hf | hp | ⟨addresses, hsome, rfl⟩ | rfl
  · exact hlex.field_texts _ _ hf
  · rcases bookkeeping_cases b.booked with hnil | ⟨prev, deps, hrule, hpairs⟩
    · rw [hnil] at hp
      exact nomatch hp
    · obtain ⟨hprev, hdeps⟩ := b.booked_addresses hrule hpairs
      rw [hpairs] at hp
      rcases List.mem_pair.mp hp with rfl | rfl
      · exact ⟨addedKeys_text PREV (by simp [addedKeys]), (symbol_of_isAddress hprev).1⟩
      · exact ⟨addedKeys_text DEPS (by simp [addedKeys]), lexical_addressList hdeps⟩
  · exact ⟨addedKeys_text RESERVED_REPLACES (by simp [addedKeys]),
      lexical_addressList (b.replaced_addresses hsome)⟩
  · exact ⟨addedKeys_text "from" (by simp [addedKeys]), hlex.signer_name⟩

/-- The recipient position of a set of recipients. -/
theorem recipientOf_cases (recipients : BTreeSet String) :
    (recipientOf recipients = none ∧ ∀ r, r ∉ recipients) ∨
    (∃ r, recipientOf recipients = some (.one r) ∧ ∀ x, x ∈ recipients ↔ x = r) ∨
    (recipientOf recipients = some (.set recipients) ∧ recipients.toList ≠ []) := by
  unfold recipientOf
  have hmem : ∀ x, x ∈ recipients ↔ x ∈ recipients.toList :=
    fun x => Std.ExtTreeSet.mem_toList.symm
  cases hlist : recipients.toList with
  | nil =>
      refine Or.inl ⟨rfl, fun r hr => ?_⟩
      rw [hmem, hlist] at hr
      exact nomatch hr
  | cons r rest =>
      cases rest with
      | nil =>
          refine Or.inr (Or.inl ⟨r, rfl, fun x => ?_⟩)
          rw [hmem, hlist, List.mem_singleton]
      | cons r' rest => exact Or.inr (Or.inr ⟨rfl, List.cons_ne_nil _ _⟩)

theorem lexicalRecipient_iff {recipients : BTreeSet String} :
    LexicalRecipient (recipientOf recipients) ↔ ∀ r ∈ recipients, SymbolName r := by
  rcases recipientOf_cases recipients with ⟨heq, hnone⟩ | ⟨r, heq, hone⟩ | ⟨heq, -⟩
  · rw [heq]
    exact ⟨fun _ r hr => absurd hr (hnone r), fun _ => trivial⟩
  · rw [heq]
    exact ⟨fun h x hx => (hone x).mp hx ▸ h, fun h => h r ((hone r).mpr rfl)⟩
  · rw [heq]
    exact Iff.rfl

theorem recipientOk_iff {recipients : BTreeSet String} :
    RecipientOk (recipientOf recipients) ↔ ∀ r ∈ recipients, startsAt r = true := by
  rcases recipientOf_cases recipients with ⟨heq, hnone⟩ | ⟨r, heq, hone⟩ | ⟨heq, hne⟩
  · rw [heq]
    exact ⟨fun _ r hr => absurd hr (hnone r), fun _ => trivial⟩
  · rw [heq]
    exact ⟨fun h x hx => (hone x).mp hx ▸ h, fun h => h r ((hone r).mpr rfl)⟩
  · rw [heq]
    exact ⟨fun h => h.2, fun h => ⟨hne, h⟩⟩

/-- A built message is lexically valid if its dialect and recipients are. -/
theorem Built.lexical_iff (hlex : LexicalIntent signer verb fields) :
    LexicalMessage m ↔ SymbolName inst.dialect.name ∧ ∀ r ∈ b.recipients, SymbolName r := by
  have heq : LexicalMessage m ↔ SymbolName inst.dialect.name ∧ SymbolName verb ∧
      LexicalRecipient (recipientOf b.recipients) ∧ Lexical (.list []) ∧
        LexicalItems (pairItems b.allPairs) := by
    conv_lhs => rw [b.message]
    exact Iff.rfl
  rw [heq, lexicalRecipient_iff]
  have hpairs := lexicalItems_pairItems (b.lexical_pairs hlex)
  exact ⟨fun h => ⟨h.1, h.2.2.1⟩, fun h => ⟨h.1, hlex.verb_name, h.2, trivial, hpairs⟩⟩

/-- A causal reference to accepted acts cites addresses. -/
theorem NamesAccepted.cited (hhex : SpelledInHex contentHash)
    (hacts : FromMessages contentHash inst.acts) {cause : CausedBy}
    (h : NamesAccepted inst cause) :
    cause.hashes ≠ [] ∧ ∀ n ∈ cause.hashes, isAddress n = true := by
  have haddress : ∀ a ∈ inst.acts, isAddress a.address = true := by
    intro a ha
    obtain ⟨message, who, hact⟩ := hacts a ha
    rw [(consistent_fromMessage hact).metadata.1]
    exact isAddress_wire hhex a.simple
  cases h with
  | single ha =>
      refine ⟨List.cons_ne_nil _ _, fun n hn => ?_⟩
      rw [List.mem_singleton.mp hn]
      exact haddress _ ha
  | multiple hne _ hnames =>
      refine ⟨hne, fun n hn => ?_⟩
      obtain ⟨a, ha, rfl⟩ := hnames n hn
      exact haddress a ha

theorem NamesAccepted.canonical (hhex : SpelledInHex contentHash)
    (hacts : FromMessages contentHash inst.acts) {cause : CausedBy}
    (h : NamesAccepted inst cause) : CausedByOk (some cause) := by
  have hcited := (h.cited hhex hacts).2
  cases h with
  | single ha => exact (symbol_of_isAddress (hcited _ (List.mem_singleton_self _))).2
  | multiple hne hsorted _ => exact ⟨hne, hsorted⟩

/-- A built message is what the recogniser returns if its verb heads a simple message and its
    recipients are addresses. -/
theorem Built.wellFormed_iff (hhex : SpelledInHex contentHash)
    (hacts : FromMessages contentHash inst.acts) :
    WellFormed m ↔ (SimpleHead verb ∧ coreParse verb = none) ∧
      ∀ r ∈ b.recipients, startsAt r = true := by
  have heq : WellFormed m ↔ SimpleHead verb ∧
      Performative.custom verb = ((coreParse verb).map .core).getD (.custom verb) ∧
        RecipientOk (recipientOf b.recipients) ∧ Positional (.list []) ∧
          ParamsOk (pairItems b.allPairs) ∧ CausedByOk (some b.cause) := by
    conv_lhs => rw [b.message]
    exact Iff.rfl
  have hcustom : Performative.custom verb = ((coreParse verb).map .core).getD (.custom verb) ↔
      coreParse verb = none := by
    cases coreParse verb with
    | none => exact ⟨fun _ => rfl, fun _ => rfl⟩
    | some c => exact ⟨(fun h => nomatch h), (fun h => nomatch h)⟩
  have hempty : Positional (.list []) := ⟨(fun k h => nomatch h), rfl⟩
  rw [heq, hcustom, recipientOk_iff]
  constructor
  · rintro ⟨hhead, hcore, hrecipients, -⟩
    exact ⟨⟨hhead, hcore⟩, hrecipients⟩
  · rintro ⟨⟨hhead, hcore⟩, hrecipients⟩
    exact ⟨hhead, hcore, hrecipients, hempty, paramsOk_pairItems b.unreserved,
      (causeOf_names b.caused).canonical hhex hacts⟩

include b in
/-- **The text of a built message is read back** exactly when the message is lexically valid and
    in the recogniser's form. -/
theorem Built.read_iff (hhex : SpelledInHex contentHash)
    (hacts : FromMessages contentHash inst.acts) :
    ReadAs (canonicalText m) m ↔ LexicalMessage m ∧ WellFormed m := by
  constructor
  · rintro ⟨s, hs, hm⟩
    exact ⟨parseMessage_lexical (lexical_of_parse hs) hm, parseMessage_ok hm⟩
  · rintro ⟨hlexical, hformed⟩
    have hcited : ∀ n ∈ citedNames m, SymbolName n := by
      intro n hn
      unfold citedNames at hn
      rw [b.innermost] at hn
      exact (symbol_of_isAddress (((causeOf_names b.caused).cited hhex hacts).2 n hn)).1
    have hscope : InScope .unscoped m := by
      rw [b.message]
      trivial
    exact ⟨toSExpr m, parse_serialize (lexical_toSExpr hlexical hcited),
      parseMessage_toSExpr_of_inScope hformed hscope⟩

-- ── Admission ────

/-- The act of a built message under its signature. -/
def Built.act : Act where
  address := wireAddress contentHash b.simple
  verb := verb
  signer := signer
  predecessors := citedHashes (some b.cause)
  recipients := b.simple.recipientSet
  fields := keywordFields b.simple
  message := signedBy signer m

theorem Built.signed_innermost : (signedBy signer m).innermostSimple = some b.simple :=
  b.innermost

theorem Built.act_fromMessage :
    Act.fromMessage contentHash (signedBy signer m) signer = .ok b.act := by
  unfold Act.fromMessage
  rw [b.signed_innermost]
  rfl

theorem Built.act_simple : b.act.simple = b.simple := by
  show (Option.getD (signedBy signer m).innermostSimple _) = _
  rw [b.signed_innermost]
  rfl

/-- The shapes of an act are those its binder has checked. -/
theorem Built.act_shapes : verifyStateShape inst.dialect b.act.message = .ok () ∧
    brokenShape inst.dialect b.act = none := by
  constructor
  · have hshape := b.stateShape
    unfold verifyStateShape at hshape ⊢
    rw [b.innermost] at hshape
    rw [show b.act.message.innermostSimple = some b.simple from b.innermost]
    exact hshape
  · have hshapes := b.shapes
    unfold checkShapes at hshapes
    rw [forM_ok_iff] at hshapes
    unfold brokenShape
    rw [List.findSome?_eq_none_iff]
    intro shape hmem
    have hok := hshapes shape hmem
    have hsimple : b.act.simple
        = simpleOf inst signer verb fields b.recipients b.pairs b.replaces b.cause := b.act_simple
    rw [hsimple]
    cases hcheck : shape.check (toSExpr (simpleOf inst signer verb fields b.recipients b.pairs
        b.replaces b.cause)) with
    | ok u => rfl
    | error v =>
        rw [hcheck] at hok
        cases hok

/-- What an instance holds. -/
theorem instance_new_ok {d : Dialect} {thread : ThreadId} {acts : List Act}
    (h : Instance.new d thread acts = .ok inst) :
    inst.dialect = d ∧ inst.thread = thread ∧ inst.acts = acts ∧
      (((d.roles = [] ∨ root acts = none) ∧ inst.root = none ∧ inst.cast = none) ∨
        d.roles ≠ [] ∧ ∃ r c, inst.root = some r ∧ inst.cast = some c) := by
  unfold Instance.new at h
  dsimp only at h
  split at h
  · rename_i hroles
    obtain rfl := Except.ok.inj h
    exact ⟨rfl, rfl, rfl, Or.inl ⟨Or.inl (List.isEmpty_iff.mp hroles), rfl, rfl⟩⟩
  · rename_i hroles
    have hne : d.roles ≠ [] := by simpa using hroles
    split at h
    · rename_i hroot
      obtain rfl := Except.ok.inj h
      exact ⟨rfl, rfl, rfl, Or.inl ⟨Or.inr hroot, rfl, rfl⟩⟩
    · split at h
      · obtain rfl := Except.ok.inj h
        exact ⟨rfl, rfl, rfl, Or.inr ⟨hne, _, _, rfl, rfl⟩⟩
      · exact nomatch h

/-- **A built act is admitted** exactly when admission does not wait for a root. -/
theorem Built.admitted_iff (hhex : SpelledInHex contentHash)
    (hacts : FromMessages contentHash inst.acts)
    (hinst : Instance.new inst.dialect inst.thread inst.acts = .ok inst) :
    admitAct inst.dialect inst.thread inst.acts b.act = .accepted ↔
      inst.dialect.roles = [] ∨ inst.root ≠ none := by
  obtain ⟨-, -, -, hcases⟩ := instance_new_ok hinst
  obtain ⟨hstate, hshape⟩ := b.act_shapes
  have hpred : b.act.predecessors.isEmpty = false := by
    exact List.isEmpty_eq_false_iff.mpr ((causeOf_names b.caused).cited hhex hacts).1
  have hstage : admitAct inst.dialect inst.thread inst.acts b.act = .accepted ↔
      causalVerdict inst.dialect b.protocol inst.thread inst
        (inst.store.append b.act.address inst.thread b.act.message).2 b.act = .ok .valid := by
    rw [admit_accepted_iff]
    constructor
    · rintro ⟨protocol, inst', hcp, -, -, hinst', hverdict⟩
      rw [hinst] at hinst'
      rw [b.causal] at hcp
      obtain rfl := Except.ok.inj hinst'
      obtain rfl := Option.some.inj hcp
      exact hverdict
    · intro hverdict
      exact ⟨b.protocol, inst, b.causal, hstate, hshape, hinst, hverdict⟩
  have hverdict := b.verdict
  rw [hstage]
  unfold verdictOf at hverdict
  unfold causalVerdict
  rcases hcases with ⟨-, hroot, hcast⟩ | ⟨hroles, r, c, hroot, hcast⟩
  · rw [hroot, hcast] at hverdict
    rw [hroot, hcast]
    dsimp only at hverdict ⊢
    by_cases hroles : inst.dialect.roles = []
    · rw [if_pos (List.isEmpty_iff.mpr hroles), b.act_simple]
      exact ⟨fun _ => Or.inl hroles, fun _ => congrArg Except.ok hverdict⟩
    · rw [if_neg (by simpa using hroles), if_neg (by simp [hpred])]
      refine iff_of_false (fun h => nomatch h) ?_
      rintro (hno | hno)
      · exact hroles hno
      · exact hno rfl
  · rw [hroot, hcast] at hverdict
    rw [hroot, hcast]
    exact ⟨fun _ => Or.inr (Option.some_ne_none r), fun _ => congrArg Except.ok hverdict⟩

-- ── Counter operations ────

/-- A built act is in context. -/
theorem Built.act_context : contextFault inst.dialect inst.thread b.act = none := by
  obtain ⟨hstate, hshape⟩ := b.act_shapes
  have hnodup : (pairKeys (params b.act.simple)).Nodup := by
    rw [b.act_simple]
    show (pairKeys (pairItems b.allPairs)).Nodup
    rw [pairKeys_pairItems]
    exact b.nodup_keys
  have hthread : b.act.simple.thread = some inst.thread := by
    rw [b.act_simple]
    rfl
  have hlang : lang b.act.message = some inst.dialect.name := by
    show lang m = _
    exact congrArg lang b.message
  unfold contextFault
  rw [hstate, hshape, if_neg (by decide), if_neg (not_not.mpr hnodup), if_neg]
  rintro (hno | hno)
  · exact hno hthread
  · exact hno hlang

theorem mem_openerRoots {acts : List Act} {op r : Act} :
    r ∈ openerRoots acts op ↔ r ∈ acts ∧ r.address ∈ op.predecessors.map resourceStateId := by
  unfold openerRoots
  rw [List.mem_filter, List.any_eq_true, List.mem_map]
  simp only [decide_eq_true_eq]

/-- A history is ready in context if its operations and roots are in context and it is ready. -/
theorem observeIn_ready_iff {d : Dialect} {thread : ThreadId} {c : CounterRule} {acts : List Act}
    {snapshot : Snapshot} :
    observeIn contentHash d thread c acts = .ready snapshot ↔
      (∀ a ∈ acts, a.verb ∈ c.verbs → contextFault d thread a = none) ∧
      (∀ op ∈ acts, op.verb = c.initial_verb → ∀ r ∈ openerRoots acts op,
        rootFault d thread r = false) ∧
      observe contentHash c acts = .ready snapshot := by
  unfold observeIn
  constructor
  · intro h
    split at h
    · exact nomatch h
    · rename_i hcontext
      split at h
      · exact nomatch h
      · rename_i hroots
        rw [List.findSome?_eq_none_iff] at hcontext
        rw [List.find?_eq_none] at hroots
        refine ⟨fun a ha hv => ?_, fun op hop hv r hr => ?_, h⟩
        · have hmem : a ∈ acts.filter fun a => c.verbs.contains a.verb :=
            List.mem_filter.mpr ⟨ha, by simpa using hv⟩
          exact Option.map_eq_none_iff.mp (hcontext a hmem)
        · have hmem : op ∈ acts.filter fun a => a.verb = c.initial_verb :=
            List.mem_filter.mpr ⟨hop, decide_eq_true hv⟩
          simpa using hroots r (List.mem_flatMap.mpr ⟨op, hmem, hr⟩)
  · rintro ⟨hcontext, hroots, hready⟩
    have hnone : (acts.filter fun a => c.verbs.contains a.verb).findSome? (fun a =>
        (contextFault d thread a).map (·, a.address)) = none := by
      rw [List.findSome?_eq_none_iff]
      intro a ha
      obtain ⟨hmem, hv⟩ := List.mem_filter.mp ha
      rw [hcontext a hmem (by simpa using hv)]
      rfl
    have hfound : ((acts.filter fun a => a.verb = c.initial_verb).flatMap
        (openerRoots acts)).find? (rootFault d thread) = none := by
      rw [List.find?_eq_none]
      intro r hr
      obtain ⟨op, hop, hr⟩ := List.mem_flatMap.mp hr
      obtain ⟨hmem, hv⟩ := List.mem_filter.mp hop
      simpa using hroots op hmem (of_decide_eq_true hv) r hr
    rw [hnone, hfound]
    exact hready

/-- The act of a message and its act under a signature are one identity. -/
theorem Built.same_identity {candidate : Act}
    (h : Act.fromMessage contentHash m signer = .ok candidate) : SameIdentity candidate b.act := by
  obtain ⟨simple, -, hinner, -, hmessage, hsigner, -, -⟩ := fromMessage_ok h
  have hsimple : candidate.simple = b.simple := by
    unfold Act.simple
    rw [hmessage, b.innermost]
    rfl
  refine ⟨hsigner, hsimple.trans b.act_simple.symm, ?_, ?_⟩
  · rw [hmessage]
    rfl
  · rw [hmessage]
    rfl

/-- What the resource gate has observed. -/
theorem resourceGate_ok {name : String} {c : CounterRule}
    (hrule : ruleFor inst.dialect verb = some (name, c))
    (h : resourceGate contentHash inst signer verb m = .ok ()) :
    ∃ candidate before after, Act.fromMessage contentHash m signer = .ok candidate ∧
      observeIn contentHash inst.dialect inst.thread c inst.acts = .ready before ∧
      observe contentHash c (inst.acts ++ [candidate]) = .ready after := by
  unfold resourceGate at h
  rw [hrule] at h
  dsimp only at h
  split at h
  · exact nomatch h
  · rename_i candidate hcandidate
    split at h
    · exact nomatch h
    · split at h
      · rename_i before hbefore
        split at h
        · rename_i after hafter
          unfold check at hafter
          rw [(observeIn_ready_iff.mp hbefore).2.2] at hafter
          exact ⟨candidate, before, after, hcandidate, hbefore, hafter⟩
        · exact nomatch h
      · exact nomatch h

/-- **A counter operation leaves the history ready**, in context. -/
theorem Built.escrow_ready (hhex : SpelledInHex contentHash)
    (hacts : FromMessages contentHash inst.acts) {name : String} {c : CounterRule}
    (hrule : ruleFor inst.dialect verb = some (name, c)) :
    ∃ snapshot, observeIn contentHash inst.dialect inst.thread c (inst.acts ++ [b.act])
      = .ready snapshot := by
  obtain ⟨candidate, before, after, hcandidate, hbefore, hafter⟩ := resourceGate_ok hrule b.resource
  obtain ⟨hcontext, hroots, hold⟩ := observeIn_ready_iff.mp hbefore
  have hconsistent := consistent_fromMessage b.act_fromMessage
  have hready := observe_exchange hconsistent (b.same_identity hcandidate) hafter
  refine ⟨after, observeIn_ready_iff.mpr ⟨fun a ha hv => ?_, fun x hx hv r hr => ?_, hready⟩⟩
  · rcases List.mem_append.mp ha with ha | ha
    · exact hcontext a ha hv
    · rw [List.mem_singleton.mp ha]
      exact b.act_context
  · -- the old opener has the address and the root of every opener
    obtain ⟨op, hop, hopverb, r', hr', hsole⟩ := openers_ready hold
    obtain ⟨_, -, -, r'', -, hsole'⟩ := openers_ready hready
    have hmem : ∀ y ∈ inst.acts, y.address = r'.address → rootFault inst.dialect inst.thread y
        = false := fun y hy hya => by
      refine hroots op hop hopverb y (mem_openerRoots.mpr ⟨hy, ?_⟩)
      rw [(hsole op hop hopverb).2, hya]
      exact List.mem_singleton_self _
    have haddress : r.address = r'.address := by
      have hx' := (hsole' x hx hv).2
      have hop' := (hsole' op (List.mem_append_left _ hop) hopverb).2
      rw [(hsole op hop hopverb).2] at hop'
      have hrx := (mem_openerRoots.mp hr).2
      rw [hx', ← hop'] at hrx
      exact List.mem_singleton.mp hrx
    rcases List.mem_append.mp (mem_openerRoots.mp hr).1 with hra | hra
    · exact hmem r hra haddress
    · -- the new act has predecessors, so its address is not that of a root
      rw [List.mem_singleton.mp hra] at haddress
      obtain ⟨all, hfiled, -⟩ := observe_ready hready
      have hr'mem := List.mem_append_left [b.act] hr'
      have hsame := hfiled.same (by simp : b.act ∈ inst.acts ++ [b.act]) hr'mem haddress
      have hpred : b.act.predecessors = r'.predecessors := by
        rw [hconsistent.metadata.2.2.1, (hfiled.consistent r' hr'mem).metadata.2.2.1, hsame.2.1]
      have hfault := hmem r' hr' rfl
      unfold rootFault at hfault
      simp only [Bool.or_eq_false_iff, Bool.not_eq_false', List.isEmpty_iff] at hfault
      have hnil := hpred.trans hfault.1.2
      exact absurd hnil ((causeOf_names b.caused).cited hhex hacts).1

end Parts

-- ── What the binder builds is admitted ────

/-- Those an act of the verb is sent to: the cast's keys of its `:to` roles, or the recipients of
    the accepted opener. -/
def Addressee (inst : Instance) (verb r : String) : Prop :=
  match inst.cast, inst.dialect.roleLayer.annotationOf verb with
  | some c, some ann => r ∈ expectedRecipientKeys ann c
  | _, _ => ∃ op, inst.opener = some op ∧ r ∈ op.recipients

/-- A thread in which an intent of the verb can be written and is not waited for: the dialect and
    the addressees have names the text grammar reads as such, the verb heads no other form, and a
    dialect with roles has its root. -/
structure Carried (inst : Instance) (verb : String) : Prop where
  dialect_name : SymbolName inst.dialect.name
  addressee_name : ∀ r, Addressee inst verb r → SymbolName r ∧ startsAt r = true
  verb_head : SimpleHead verb ∧ coreParse verb = none
  rooted : inst.dialect.roles = [] ∨ inst.root ≠ none

/-- What an act of the binder is for: its text is read back, and under the signature of its
    signer it has its address, is accepted, and leaves the counter it operates on ready. -/
structure Admitted (contentHash : Message → String) (inst : Instance) (signer : AgentKey)
    (verb : String) (m : Message) : Prop where
  read : ReadAs (canonicalText m) m
  accepted : ∃ act, Act.fromMessage contentHash (signedBy signer m) signer = .ok act ∧
    addressOf contentHash m = some act.address ∧
    admitAct inst.dialect inst.thread inst.acts act = .accepted ∧
    ∀ name c, ruleFor inst.dialect verb = some (name, c) → ∃ snapshot,
      observeIn contentHash inst.dialect inst.thread c (inst.acts ++ [act]) = .ready snapshot

/-- Without a cast or an annotation the opener names the addressees. -/
theorem mem_openerRecipients {opener : Option Act} {recipients : BTreeSet String} {r : String}
    (h : (match opener with
      | some op => Except.ok op.recipients
      | none => Except.error Reject.noOpener) = .ok recipients) :
    r ∈ recipients ↔ ∃ op, opener = some op ∧ r ∈ op.recipients := by
  cases opener with
  | none => cases h
  | some op =>
      rw [← Except.ok.inj h]
      refine ⟨fun hr => ⟨op, rfl, hr⟩, ?_⟩
      rintro ⟨_, heq, hr⟩
      exact Option.some.inj heq ▸ hr

theorem Built.mem_recipients (b : Built contentHash inst signer verb fields m) {r : String} :
    r ∈ b.recipients ↔ Addressee inst verb r := by
  have hsent := b.sent
  unfold recipientsOf at hsent
  unfold Addressee
  cases hcast : inst.cast with
  | none =>
      rw [hcast] at hsent
      exact mem_openerRecipients hsent
  | some c =>
      rw [hcast] at hsent
      cases hann : inst.dialect.roleLayer.annotationOf verb with
      | none =>
          rw [hann] at hsent
          exact mem_openerRecipients hsent
      | some ann =>
          rw [hann] at hsent
          rw [← Except.ok.inj hsent]

/-- **What the intent binder builds is admitted** exactly when its thread can carry it: a message
    the binder returns is read back from its text, its signed act has its address, is accepted and
    leaves its counter ready if and only if the names of the thread are in the text grammar, the
    addressees begin with `@`, the verb heads a simple message, and the root is there. -/
theorem intend_admitted_iff (hhex : SpelledInHex contentHash) {d : Dialect} {thread : ThreadId}
    {accepted : List Act} (hacts : FromMessages contentHash accepted)
    (hinst : Instance.new d thread accepted = .ok inst)
    (hlex : LexicalIntent signer verb fields)
    (h : intend contentHash inst signer verb fields = .ok m) :
    Admitted contentHash inst signer verb m ↔ Carried inst verb := by
  obtain ⟨rfl, rfl, rfl, -⟩ := instance_new_ok hinst
  obtain ⟨b⟩ := built_of_intend h
  have hread := b.read_iff hhex hacts
  rw [b.lexical_iff hlex, b.wellFormed_iff hhex hacts] at hread
  have hadmit := b.admitted_iff hhex hacts hinst
  constructor
  · rintro ⟨htext, act, hact, -, haccepted, -⟩
    obtain rfl := Except.ok.inj (b.act_fromMessage.symm.trans hact)
    obtain ⟨⟨hname, hsymbols⟩, hhead, hstarts⟩ := hread.mp htext
    exact ⟨hname, fun r hr => ⟨hsymbols r (b.mem_recipients.mpr hr),
      hstarts r (b.mem_recipients.mpr hr)⟩, hhead, hadmit.mp haccepted⟩
  · rintro ⟨hname, hnames, hhead, hrooted⟩
    refine ⟨hread.mpr ⟨⟨hname, fun r hr => (hnames r (b.mem_recipients.mp hr)).1⟩, hhead,
      fun r hr => (hnames r (b.mem_recipients.mp hr)).2⟩, b.act, b.act_fromMessage, ?_,
      hadmit.mpr hrooted, fun name c hrule => b.escrow_ready hhex hacts hrule⟩
    unfold addressOf
    rw [b.innermost]
    rfl

end Binder

-- ── An auction ────

/-- A dialect in which a seller makes an offer to a buyer and the buyer bids. -/
def auctionDialect : Dialect :=
  { CbclRegistry.plainDialect "auction"
      [⟨"offer", [], effectTemplate "make-offer",
          some ⟨"seller", (∅ : BTreeSet String).insert "buyer"⟩⟩,
        ⟨"bid", [], effectTemplate "make-bid",
          some ⟨"buyer", (∅ : BTreeSet String).insert "seller"⟩⟩] with
    causal_protocol := some ⟨(((∅ : BTreeMap String StepDecl).insert "begin"
      ⟨"begin", [], [.single "offer"]⟩).insert "offer"
        ⟨"offer", [.single "begin"], [.single "bid"]⟩).insert "bid" ⟨"bid", [.single "offer"], []⟩⟩
    roles := [⟨"seller", .singleton⟩, ⟨"buyer", .singleton⟩]
    state := some ⟨[.field "bids" (.count "bid")]⟩ }

/-- The dialect as it is installed. -/
def auction : Dialect := CbclRegistry.installed CbclSha256.sha256 auctionDialect

/-- Addresses of the auction's messages, by their verb. -/
def auctionHash (m : Message) : String :=
  "sha256:" ++ String.ofList (List.replicate 63 '0' ++
    [if m.performative = some (.custom "open") then '1'
      else if m.performative = some (.custom "offer") then '2' else '3'])

theorem auctionHash_hex : SpelledInHex auctionHash := by
  intro m
  refine ⟨_, rfl, ?_⟩
  split
  · decide
  · split
    · decide
    · decide

/-- Alice sells to Bob. -/
def auctionCast : List SExpr :=
  [.list [.list [.atom (.symbol "seller"), .atom (.symbol "@alice")],
    .list [.atom (.symbol "buyer"), .atom (.symbol "@bob")]]]

/-- The payload of the root. -/
def openSimple : Message :=
  .simple (.custom "open") none (.list []) [] (some "t") none (some .begin)

/-- The root of an auction. -/
def openMessage : Message :=
  .wrapped .withRoles auctionCast
    (.wrapped .signed [.atom (.symbol "@alice")] (.dialect "auction" openSimple))

/-- The payload of an offer. -/
def offerSimple (cause : CausedBy) : Message :=
  .simple (.custom "offer") (some (.one "@bob")) (.list [])
    [.atom (.keyword "from"), .atom (.symbol "@alice")] (some "t") none (some cause)

/-- An offer that follows the root. -/
def offerMessage : Message :=
  .wrapped .signed [.atom (.symbol "@alice")] (.dialect "auction"
    (offerSimple (.single (wireAddress auctionHash openSimple))))

/-- An offer that carries the cast under its signature, and so is no root. -/
def castOffer : Message :=
  .wrapped .signed [.atom (.symbol "@alice")] (.wrapped .withRoles auctionCast
    (.dialect "auction" (offerSimple .begin)))

/-- The accepted acts of an auction in which Alice has sent some messages. -/
def auctionAccepted (messages : List Message) : List Act :=
  (CbclOffers.deliver (judge auction "t") (messages.filterMap fun message =>
    (Act.fromMessage auctionHash message "@alice").toOption)).accepted

/-- A bid that answers an offer. -/
def bidMessage (recipient : String) : Message :=
  .dialect "auction" (.simple (.custom "bid") (some (.one recipient)) (.list [])
    [.atom (.keyword "from"), .atom (.symbol "@bob")] (some "t") none
    (some (.single (wireAddress auctionHash (offerSimple .begin)))))

theorem auction_fromMessages (messages : List Message) :
    FromMessages auctionHash (auctionAccepted messages) := by
  intro a ha
  obtain ⟨message, -, hsome⟩ := List.mem_filterMap.mp (CbclOffers.offered_of_accepted ha)
  refine ⟨message, "@alice", ?_⟩
  cases hact : Act.fromMessage auctionHash message "@alice" with
  | error e => rw [hact] at hsome; exact nomatch hsome
  | ok a' =>
      rw [hact] at hsome
      rw [Option.some.inj hsome]

/-- Bids carry no data. -/
theorem lexical_bid : LexicalIntent "@bob" "bid" ∅ :=
  ⟨by unfold SymbolName; decide, by unfold SymbolName; decide, fun k v hget => by
    rw [Std.ExtTreeMap.getElem?_empty] at hget
    exact nomatch hget⟩

/-- What the binder computes for Bob over the accepted acts: the bid, its recipients and whether
    there is a root. -/
def bidOver (messages : List Message) : Option (Message × List String × Bool) :=
  (Instance.new auction "t" (auctionAccepted messages)).toOption.bind fun inst =>
    (intend auctionHash inst "@bob" "bid" ∅).toOption.bind fun m =>
      (recipientsOf inst "bid").toOption.map fun rs => (m, rs.toList, inst.root.isSome)

theorem bid_built {messages : List Message} {m : Message} {names : List String} {rooted : Bool}
    (h : bidOver messages = some (m, names, rooted)) :
    ∃ inst, Instance.new auction "t" (auctionAccepted messages) = .ok inst ∧
      intend auctionHash inst "@bob" "bid" ∅ = .ok m ∧ inst.root.isSome = rooted ∧
      ∃ rs, recipientsOf inst "bid" = .ok rs ∧ rs.toList = names := by
  obtain ⟨inst, hinst, h⟩ := Option.bind_eq_some_iff.mp h
  obtain ⟨m', hm, h⟩ := Option.bind_eq_some_iff.mp h
  obtain ⟨rs, hrs, h⟩ := Option.map_eq_some_iff.mp h
  simp only [Prod.mk.injEq] at h
  obtain ⟨rfl, hlist, hroot⟩ := h
  exact ⟨inst, toOption_eq_some_iff.mp hinst, toOption_eq_some_iff.mp hm, hroot, rs,
    toOption_eq_some_iff.mp hrs, hlist⟩

/-- Under the root of the auction, Bob's bid to Alice is admitted. -/
theorem bid_admitted :
    ∃ inst, Instance.new auction "t" (auctionAccepted [openMessage, offerMessage]) = .ok inst ∧
      intend auctionHash inst "@bob" "bid" ∅ = .ok (bidMessage "@alice") ∧
      Admitted auctionHash inst "@bob" "bid" (bidMessage "@alice") := by
  have hrun : bidOver [openMessage, offerMessage]
      = some (bidMessage "@alice", ["@alice"], true) := by decide +kernel
  obtain ⟨inst, hinst, hm, hroot, rs, hrs, hlist⟩ := bid_built hrun
  have hhead : SimpleHead "bid" := ⟨by decide, by decide, rfl⟩
  have hrooted : inst.root ≠ none := fun hnone => by
    rw [hnone] at hroot
    exact nomatch hroot
  refine ⟨inst, hinst, hm, (intend_admitted_iff auctionHash_hex (auction_fromMessages _) hinst
    lexical_bid hm).mpr ⟨?_, ?_, ⟨hhead, rfl⟩, Or.inr hrooted⟩⟩
  · rw [(instance_new_ok hinst).1]
    unfold SymbolName
    decide +kernel
  · intro r hr
    obtain ⟨b⟩ := built_of_intend hm
    have hmem := b.mem_recipients.mpr hr
    have hsent := b.sent
    rw [hrs] at hsent
    rw [← Except.ok.inj hsent, ← Std.ExtTreeSet.mem_toList, hlist] at hmem
    rw [List.mem_singleton.mp hmem]
    unfold SymbolName
    exact ⟨by decide, by decide⟩

/-- **A bid without a root is not admitted.**  Over an offer that was accepted on the cast it
    carries itself, the binder returns a bid, and admission leaves it pending. -/
theorem bid_pending :
    auction ∈ (CbclInstall.performAll CbclSha256.sha256 .new
      [.install auctionDialect]).dialects.tail ∧
    tryFrom (toSExpr castOffer) = .ok castOffer ∧
    ∃ inst, Instance.new auction "t" (auctionAccepted [castOffer]) = .ok inst ∧
      LexicalIntent "@bob" "bid" ∅ ∧
      intend auctionHash inst "@bob" "bid" ∅ = .ok (bidMessage "@bob") ∧
      ¬ Admitted auctionHash inst "@bob" "bid" (bidMessage "@bob") := by
  refine ⟨CbclRegistry.installed_mem ⟨by decide +kernel, by decide +kernel, rfl,
    by decide +kernel, by decide +kernel, by decide +kernel⟩ (by decide +kernel), rfl, ?_⟩
  have hrun : bidOver [castOffer] = some (bidMessage "@bob", ["@bob"], false) := by
    decide +kernel
  obtain ⟨inst, hinst, hm, hroot, -⟩ := bid_built hrun
  refine ⟨inst, hinst, lexical_bid, hm, fun h => ?_⟩
  obtain ⟨act, hact, -, haccepted, -⟩ := h.accepted
  obtain ⟨b⟩ := built_of_intend hm
  have hacts := auction_fromMessages [castOffer]
  obtain ⟨hd, ht, ha, -⟩ := instance_new_ok hinst
  rw [← ha] at hacts
  rw [← hd, ← ht, ← ha] at hinst
  obtain rfl := Except.ok.inj (b.act_fromMessage.symm.trans hact)
  rcases (b.admitted_iff auctionHash_hex hacts hinst).mp haccepted with hroles | hrooted
  · rw [hd] at hroles
    exact absurd hroles (by decide +kernel)
  · cases hr : inst.root with
    | none => exact hrooted hr
    | some r =>
        rw [hr] at hroot
        exact nomatch hroot

end CbclIntend
