import Cbcl.ExceptProofs
import Cbcl.ExportsModel
import Cbcl.TreeMapProofs
import Cbcl.VerdictShapeProofs

/-!
# Whose role an admitted act takes

An act carries the signer its host authenticated beside a message that may name keys of its
own in `signed` wrappers.  The admission export judges role conformance by the outermost such
key, never by the authenticated signer.  So role authority follows the signer for exactly the
messages whose outermost named key is the signer's.
-/

namespace CbclExports

open CbclMessage CbclProtocol CbclStore CbclThreadedStore CbclAct CbclShape CbclStateShape
open CbclVerifier CbclDialect CbclVerdictShape CbclRepeat
open CbclRole hiding Dialect PerformativeDef

-- ── What acceptance says ────

section Accepted

variable {d : Dialect} {thread : ThreadId} {accepted : List Act} {act : Act}

/-- The stages an accepted act has passed. -/
theorem admit_accepted_iff :
    admitAct d thread accepted act = .accepted ↔
      ∃ protocol inst, d.causal_protocol = some protocol ∧
        verifyStateShape d act.message = .ok () ∧ brokenShape d act = none ∧
        Instance.new d thread accepted = .ok inst ∧
        causalVerdict d protocol thread inst
          (inst.store.append act.address thread act.message).2 act = .ok .valid := by
  unfold admitAct
  cases hp : d.causal_protocol with
  | none => simp
  | some protocol =>
      cases hstate : verifyStateShape d act.message with
      | error v => simp
      | ok u =>
          cases hshape : brokenShape d act with
          | some v => simp
          | none =>
              cases hinst : Instance.new d thread accepted with
              | error e => simp
              | ok inst =>
                  cases hverdict : causalVerdict d protocol thread inst
                      (inst.store.append act.address thread act.message).2 act with
                  | error e => simp [hverdict]
                  | ok v => cases v <;> simp [hverdict]

/-- The instance of a thread with an accepted root. -/
theorem instance_new_root {rt : Act} {c : Cast} (hroles : d.roles ≠ [])
    (hroot : root accepted = some rt) (hcast : castOf d rt.message = .ok c) :
    ∃ op, Instance.new d thread accepted = .ok ⟨d, thread, accepted, op, some rt, some c⟩ := by
  refine ⟨d.causal_protocol.bind fun p => opener p accepted, ?_⟩
  unfold Instance.new
  rw [if_neg (by simpa using hroles), hroot]
  dsimp only
  rw [hcast]

/-- Under an accepted root an accepted act is valid for its cast. -/
theorem valid_of_accepted {rt : Act} {c : Cast} (hroles : d.roles ≠ [])
    (hroot : root accepted = some rt) (hcast : castOf d rt.message = .ok c)
    (h : admitAct d thread accepted act = .accepted) :
    ∃ store : ThreadedMessageStore, verifyCausalForRole act.message ⟨"", some act.signer⟩
      d.roleLayer c store.toStore thread rt.address = .valid := by
  obtain ⟨protocol, inst, -, -, -, hinst, hverdict⟩ := admit_accepted_iff.mp h
  obtain ⟨op, hnew⟩ := @instance_new_root d thread accepted rt c hroles hroot hcast
  rw [hnew] at hinst
  obtain rfl := (Except.ok.inj hinst).symm
  exact ⟨_, Except.ok.inj hverdict⟩

end Accepted

/-- A message that is valid for its role has a valid payload. -/
theorem verifySimple_of_valid {msg simple : Message} {p : Performative} {endpoint : Endpoint}
    {layer : CbclRole.Dialect} {c : Cast} {store : MessageStore} {thread : ThreadId}
    {rt : ContentHash}
    (hvalid : verifyCausalForRole msg endpoint layer c store thread rt = .valid)
    (hwrap : msg.wrapperType ≠ some .withRoles) (hsimple : msg.innermostSimple = some simple)
    (hperf : simple.performative = some p) :
    verifySimple msg simple p.name layer c store thread rt = .valid := by
  unfold verifyCausalForRole at hvalid
  split at hvalid
  · exact nomatch hvalid
  · rw [if_neg hwrap, hsimple] at hvalid
    dsimp only at hvalid
    rw [hperf] at hvalid
    exact hvalid

/-- A valid annotated message is sent, by its outermost signature, by an occupant. -/
theorem signer_admitted_of_valid {msg simple : Message} {perf : String} {layer : CbclRole.Dialect}
    {c : Cast} {store : MessageStore} {thread : ThreadId} {rt : ContentHash} {ann : RoleAnnotation}
    (hvalid : verifySimple msg simple perf layer c store thread rt = .valid)
    (hann : layer.annotationOf perf = some ann) :
    ∃ key, signerOf msg = some key ∧ c.admits ann.from key = true := by
  unfold verifySimple at hvalid
  rw [hann] at hvalid
  dsimp only at hvalid
  unfold checkConformance at hvalid
  cases hsigner : signerOf msg with
  | none =>
      rw [hsigner] at hvalid
      exact nomatch hvalid
  | some key =>
      refine ⟨key, rfl, ?_⟩
      by_contra hno
      rw [hsigner] at hvalid
      dsimp only at hvalid
      rw [if_pos (by simpa using hno)] at hvalid
      exact nomatch hvalid

/-- Whatever the dialect, the thread and its accepted cast, an act that is accepted takes a role
    its authenticated signer occupies. -/
def AuthorityFollowsSigner (act : Act) : Prop :=
  ∀ (d : Dialect) (thread : ThreadId) (accepted : List Act) (rt : Act) (c : Cast)
    (ann : RoleAnnotation), d.roles ≠ [] → root accepted = some rt →
      castOf d rt.message = .ok c → admitAct d thread accepted act = .accepted →
        d.roleLayer.annotationOf act.verb = some ann → c.admits ann.from act.signer = true

/-- The parts of an act that `fromMessage` derives. -/
theorem fromMessage_ok {contentHash : Message → String} {message : Message} {signer : String}
    {act : Act} (h : Act.fromMessage contentHash message signer = .ok act) :
    ∃ simple p, message.innermostSimple = some simple ∧ simple.performative = some p ∧
      act.message = message ∧ act.signer = signer ∧ act.verb = p.name ∧
        act.predecessors = citedHashes simple.causedBy := by
  unfold Act.fromMessage at h
  cases hs : message.innermostSimple with
  | none => rw [hs] at h; exact nomatch h
  | some simple =>
      rw [hs] at h
      dsimp only at h
      cases hp : simple.performative with
      | none => rw [hp] at h; exact nomatch h
      | some p =>
          rw [hp] at h
          obtain rfl := Except.ok.inj h
          exact ⟨simple, p, rfl, hp, rfl, rfl, rfl, rfl⟩

-- ── A dialect and a cast for any message ────

/-- Keys as symbols. -/
def keySymbols (keys : List String) : List SExpr := keys.map fun k => .atom (.symbol k)

/-- Distinct key symbols are read as the set of the keys. -/
theorem parseKeys_keySymbols (roleName : String) : ∀ (keys : List String)
    (acc : BTreeSet AgentKey), keys.Nodup → (∀ k ∈ keys, k ∉ acc) →
      ∃ set : BTreeSet AgentKey, (keySymbols keys).foldlM (fun keySet key =>
          match key with
          | .atom (.symbol k) =>
              if k ∈ keySet then
                Except.error (R6Violation.malformedCast
                  ("duplicate key '" ++ k ++ "' for role '" ++ roleName ++ "'"))
              else .ok (keySet.insert k)
          | other => .error (.malformedCast ("key must be a symbol, got " ++ other.display))) acc
          = .ok set ∧ ∀ k, k ∈ set ↔ k ∈ keys ∨ k ∈ acc := by
  intro keys
  induction keys with
  | nil => intro acc _ _; exact ⟨acc, rfl, fun k => by simp⟩
  | cons key keys ih =>
      intro acc hnodup hnew
      obtain ⟨hkey, hnodup⟩ := List.nodup_cons.mp hnodup
      have hfree : key ∉ acc := hnew key (List.mem_cons_self ..)
      obtain ⟨set, hset, hmem⟩ := ih (acc.insert key) hnodup fun k hk hc => by
        rcases (CbclTreeMap.mem_insert_iff acc key k).mp hc with rfl | hc
        · exact hkey hk
        · exact hnew k (List.mem_cons_of_mem _ hk) hc
      refine ⟨set, ?_, fun k => ?_⟩
      · rw [keySymbols, List.map_cons, List.foldlM_cons]
        dsimp only
        rw [if_neg hfree]
        exact hset
      · rw [hmem, CbclTreeMap.mem_insert_iff, List.mem_cons]
        tauto

/-- A binding of an indexed role that is not bound yet. -/
theorem parseBinding_indexed {roles : List RoleDecl} {c : Cast} {name : String}
    {keys : List SExpr} {set : BTreeSet AgentKey}
    (hfind : roles.find? (·.name = name) = some ⟨name, .indexed⟩) (hfree : c.binds name = false)
    (hkeys : parseKeys name keys = .ok set) (hne : set.isEmpty = false) :
    parseBinding roles c (.list (.atom (.symbol name) :: keys))
      = .ok { c with indexed := c.indexed.insert name set } := by
  unfold parseBinding
  dsimp only
  rw [hfind]
  dsimp only
  rw [hfree, if_neg Bool.false_ne_true, hkeys]
  show bindRole c ⟨name, .indexed⟩ name set = _
  unfold bindRole
  dsimp only
  rw [hne, if_neg Bool.false_ne_true]

/-- Bindings that are read one after the other and leave no role unbound are a cast. -/
theorem parseCast_ok {items : List SExpr} {roles : List RoleDecl} {c : Cast}
    (hitems : items.foldlM (parseBinding roles) ⟨∅, ∅, none⟩ = .ok c)
    (hbound : ∀ decl ∈ roles, c.binds decl.name = true) :
    parseCast (.list items) roles = .ok c := by
  have hnone : roles.find? (fun decl => !c.binds decl.name) = none := by
    rw [List.find?_eq_none]
    intro decl hdecl
    rw [hbound decl hdecl]
    simp
  refine CbclExcept.bind_ok_iff.mpr ⟨c, hitems, ?_⟩
  rw [hnone]

/-- The keys a role of receivers is bound to: the recipients, or some key when there are none. -/
def receiverKeys (key : String) (recipients : BTreeSet String) : List String :=
  if recipients.isEmpty then [key] else recipients.toList

/-- The `:to` roles of an annotation for some recipients. -/
def receiverRoles (recipients : BTreeSet String) : BTreeSet String :=
  if recipients.isEmpty then ∅ else (∅ : BTreeSet String).insert "receivers"

/-- A dialect of one performative, from `sender` to `receivers`, without steps. -/
def relayDialect (verb : String) (recipients : BTreeSet String) : Dialect :=
  { baseDialect with
    performatives := [⟨verb, [], .list [], some ⟨"sender", receiverRoles recipients⟩⟩]
    causal_protocol := some ⟨∅⟩
    roles := [⟨"sender", .indexed⟩, ⟨"receivers", .indexed⟩] }

/-- The bindings of a cast that puts a key in `sender` and the recipients in `receivers`. -/
def relayBindings (key : String) (recipients : BTreeSet String) : SExpr :=
  .list [.list (.atom (.symbol "sender") :: keySymbols [key]),
    .list (.atom (.symbol "receivers") :: keySymbols (receiverKeys key recipients))]

/-- A root with those bindings, signed by the key. -/
def relayRoot (key : String) (recipients : BTreeSet String) : Act where
  address := ""
  verb := "open"
  signer := key
  predecessors := []
  recipients := ∅
  fields := ∅
  message := .wrapped .withRoles [relayBindings key recipients]
    (.wrapped .signed [.atom (.symbol key)]
      (.simple (.custom "open") none (.list []) [] none none (some .begin)))

/-- What is computed of a cast without bindings, a role and a protocol without steps. -/
theorem relay_runs :
    (Cast.mk ∅ ∅ none).binds "sender" = false ∧
    ((∅ : BTreeSet String).insert "receivers").toList = ["receivers"] ∧ hasRepeat ⟨∅⟩ = false := by
  decide +kernel

/-- A wrapper whose bindings parse carries their cast. -/
theorem castOf_withRoles {d : Dialect} {params : List SExpr} {content : Message} {cast : Cast}
    (h : parseWrapperCast params d.roles = .ok cast) :
    castOf d (.wrapped .withRoles params content) = .ok cast := by
  rw [castOf, h]

/-- The cast of that root binds the two roles. -/
theorem castOf_relayRoot (verb key : String) (recipients : BTreeSet String) :
    ∃ senders receivers : BTreeSet AgentKey,
      castOf (relayDialect verb recipients) (relayRoot key recipients).message
          = .ok ⟨∅, ((∅ : BTreeMap String (BTreeSet AgentKey)).insert "sender" senders).insert
            "receivers" receivers, none⟩ ∧
        (∀ k, k ∈ senders ↔ k = key) ∧
        ∀ k, k ∈ receivers ↔ k ∈ receiverKeys key recipients := by
  have hnodup : (receiverKeys key recipients).Nodup := by
    unfold receiverKeys
    split
    · exact List.nodup_singleton _
    · exact CbclTreeMap.nodup_toList recipients
  obtain ⟨senders, hsenders, hsmem⟩ := parseKeys_keySymbols "sender" [key] ∅
    (List.nodup_singleton _) (fun _ _ => Std.ExtTreeSet.not_mem_empty)
  obtain ⟨receivers, hreceivers, hrmem⟩ := parseKeys_keySymbols "receivers"
    (receiverKeys key recipients) ∅ hnodup (fun _ _ => Std.ExtTreeSet.not_mem_empty)
  have hsmem : ∀ k, k ∈ senders ↔ k = key := fun k => by rw [hsmem]; simp
  have hrmem : ∀ k, k ∈ receivers ↔ k ∈ receiverKeys key recipients := fun k => by
    rw [hrmem]; simp
  have hne : ∀ {set : BTreeSet AgentKey} {k : AgentKey}, k ∈ set → set.isEmpty = false := by
    intro set k hk
    rw [Std.ExtTreeSet.isEmpty_eq_false_iff]
    rintro rfl
    exact Std.ExtTreeSet.not_mem_empty hk
  obtain ⟨k, hk⟩ : ∃ k, k ∈ receiverKeys key recipients := by
    refine List.exists_mem_of_ne_nil _ ?_
    unfold receiverKeys
    split
    · exact List.cons_ne_nil _ _
    · rename_i hempty
      rw [Ne, ← List.isEmpty_iff, Std.ExtTreeSet.isEmpty_toList]
      exact hempty
  refine ⟨senders, receivers, ?_, hsmem, hrmem⟩
  have hfirst := parseBinding_indexed (c := ⟨∅, ∅, none⟩)
    (show (relayDialect verb recipients).roles.find? (·.name = "sender") = some ⟨"sender", .indexed⟩
      from rfl) relay_runs.1 hsenders (hne ((hsmem key).mpr rfl))
  have hbinds : ∀ (m : BTreeMap String (BTreeSet AgentKey)) (name : String),
      (Cast.mk ∅ m none).binds name = true ↔ name ∈ m := by
    intro m name
    unfold Cast.binds
    simp
  have hsecond := parseBinding_indexed
    (c := ⟨∅, (∅ : BTreeMap String (BTreeSet AgentKey)).insert "sender" senders, none⟩)
    (show (relayDialect verb recipients).roles.find? (·.name = "receivers")
      = some ⟨"receivers", .indexed⟩ from rfl)
    (by rw [← Bool.not_eq_true, hbinds, Std.ExtTreeMap.mem_insert]; simp) hreceivers
    (hne ((hrmem k).mpr hk))
  have hparse : parseCast (relayBindings key recipients) (relayDialect verb recipients).roles
      = .ok ⟨∅, ((∅ : BTreeMap String (BTreeSet AgentKey)).insert "sender" senders).insert
          "receivers" receivers, none⟩ := by
    refine parseCast_ok (CbclExcept.bind_ok_iff.mpr ⟨_, hfirst,
      CbclExcept.bind_ok_iff.mpr ⟨_, hsecond, rfl⟩⟩) ?_
    intro decl hdecl
    rw [hbinds, Std.ExtTreeMap.mem_insert, Std.ExtTreeMap.mem_insert]
    rcases List.mem_pair.mp hdecl with rfl | rfl
    · simp
    · simp
  exact castOf_withRoles hparse

/-- The keys that cast expects for the recipients are the recipients. -/
theorem expectedRecipientKeys_relay {key : String} {recipients senders receivers : BTreeSet String}
    (hreceivers : ∀ k, k ∈ receivers ↔ k ∈ receiverKeys key recipients) :
    expectedRecipientKeys ⟨"sender", receiverRoles recipients⟩
      ⟨∅, ((∅ : BTreeMap String (BTreeSet AgentKey)).insert "sender" senders).insert
        "receivers" receivers, none⟩ = recipients := by
  unfold expectedRecipientKeys receiverRoles
  by_cases hempty : recipients.isEmpty
  · dsimp only
    rw [if_pos hempty, Std.ExtTreeSet.isEmpty_iff.mp hempty]
    rfl
  · dsimp only
    rw [if_neg hempty, relay_runs.2.1]
    simp only [List.foldl_cons, List.foldl_nil]
    rw [Std.ExtTreeMap.getElem?_empty, CbclTreeMap.getElem?_insert_eq, if_pos rfl]
    refine Std.ExtTreeSet.ext_mem fun k => ?_
    dsimp only
    rw [CbclTreeMap.mem_foldl_insert, Std.ExtTreeSet.mem_toList, hreceivers]
    unfold receiverKeys
    rw [if_neg hempty, Std.ExtTreeSet.mem_toList]
    simp

/-- A dialect without steps asks for no predecessors. -/
theorem rolePredecessors_relay {verb perf : String} {recipients : BTreeSet String}
    {causedBy : Option CausedBy} {store : MessageStore} {thread : ThreadId} {rt : ContentHash} :
    rolePredecessors perf causedBy (relayDialect verb recipients).roleLayer store thread rt
      = .valid := by
  have hrepeat : hasRepeat ⟨∅⟩ = false := relay_runs.2.2
  have hcp : (relayDialect verb recipients).roleLayer.causal_protocol = some ⟨∅⟩ := rfl
  unfold rolePredecessors
  rw [hcp]
  dsimp only
  rw [hrepeat, if_neg Bool.false_ne_true]
  unfold verifyCausal
  rw [hrepeat, if_neg Bool.false_ne_true, Std.ExtTreeMap.getElem?_empty]

/-- A dialect without steps counts no occupants. -/
theorem repeatOccupantFanin_relay {verb perf : String} {recipients : BTreeSet String}
    {causedBy : Option CausedBy} {c : Cast} {store : MessageStore} {thread : ThreadId}
    {rt : ContentHash} :
    repeatOccupantFanin perf causedBy (relayDialect verb recipients).roleLayer c store thread rt
      = .valid := by
  have hrepeat : hasRepeat ⟨∅⟩ = false := relay_runs.2.2
  have hcp : (relayDialect verb recipients).roleLayer.causal_protocol = some ⟨∅⟩ := rfl
  unfold repeatOccupantFanin
  rw [hcp, Option.filter_some, hrepeat, if_neg Bool.false_ne_true]
  dsimp only
  unfold occupantFanin
  rw [hcp, Option.bind_some, Std.ExtTreeMap.getElem?_empty]

/-- **A key in a wrapper lends its role to another signer.**  Where the outermost named key is not
    the authenticated signer's, some dialect and accepted cast admit the act in the key's role. -/
theorem not_authorityFollowsSigner {contentHash : Message → String} {message : Message}
    {signer key : String} {act : Act} (hact : Act.fromMessage contentHash message signer = .ok act)
    (hwrap : message.wrapperType ≠ some .withRoles) (hkey : signerOf message = some key)
    (hne : key ≠ signer) : ¬ AuthorityFollowsSigner act := by
  obtain ⟨simple, p, hsimple, hperf, hmsg, hsigner, hverb, -⟩ := fromMessage_ok hact
  intro hall
  obtain ⟨senders, receivers, hcast, hsenders, hreceivers⟩ :=
    castOf_relayRoot act.verb key simple.recipientSet
  let d := relayDialect act.verb simple.recipientSet
  let rt := relayRoot key simple.recipientSet
  have hann : d.roleLayer.annotationOf act.verb
      = some ⟨"sender", receiverRoles simple.recipientSet⟩ := by
    simp [d, relayDialect, Dialect.roleLayer, CbclRole.Dialect.annotationOf,
      CbclRole.Dialect.findPerformative]
  have hadmits : ∀ k, Cast.admits ⟨∅, ((∅ : BTreeMap String (BTreeSet AgentKey)).insert "sender"
      senders).insert "receivers" receivers, none⟩ "sender" k = true ↔ k = key := by
    intro k
    rw [← hsenders k]
    unfold Cast.admits
    dsimp only
    rw [Std.ExtTreeMap.getElem?_empty, CbclTreeMap.getElem?_insert_eq, if_neg (by decide),
      CbclTreeMap.getElem?_insert_eq, if_pos rfl]
    simp [Std.ExtTreeSet.contains_iff_mem]
  have hroot : root [rt] = some rt := rfl
  have hvalid : ∀ store : ThreadedMessageStore, verifyCausalForRole act.message
      ⟨"", some act.signer⟩ d.roleLayer ⟨∅, ((∅ : BTreeMap String (BTreeSet AgentKey)).insert
        "sender" senders).insert "receivers" receivers, none⟩ store.toStore "t" rt.address
        = .valid := by
    intro store
    have hconf : checkConformance message simple ⟨"sender", receiverRoles simple.recipientSet⟩
        ⟨∅, ((∅ : BTreeMap String (BTreeSet AgentKey)).insert "sender" senders).insert
          "receivers" receivers, none⟩ = .valid := by
      unfold checkConformance
      rw [hkey]
      dsimp only
      rw [expectedRecipientKeys_relay hreceivers, (hadmits key).mpr rfl]
      simp
    rw [hmsg]
    unfold verifyCausalForRole
    rw [show pinMismatch d.roleLayer _ = none from rfl, if_neg hwrap, hsimple]
    dsimp only
    rw [hperf]
    dsimp only
    unfold verifySimple
    rw [← hverb, hann]
    dsimp only
    rw [hconf]
    have hr5 : rolePredecessors act.verb simple.causedBy d.roleLayer store.toStore "t" rt.address
        = .valid := rolePredecessors_relay
    have hfanin : repeatOccupantFanin act.verb simple.causedBy d.roleLayer
        ⟨∅, ((∅ : BTreeMap String (BTreeSet AgentKey)).insert "sender" senders).insert
          "receivers" receivers, none⟩ store.toStore "t" rt.address = .valid :=
      repeatOccupantFanin_relay
    dsimp only
    rw [hr5, hfanin]
    rfl
  have haccepted : admitAct d "t" [rt] act = .accepted := by
    obtain ⟨op, hinst⟩ := @instance_new_root d "t" [rt] rt _ (by simp [d, relayDialect])
      hroot hcast
    refine admit_accepted_iff.mpr ⟨⟨∅⟩, _, rfl, rfl, ?_, hinst, ?_⟩
    · rfl
    · exact congrArg Except.ok (hvalid _)
  have hbad := hall d "t" [rt] rt _ _ (by simp [d, relayDialect]) hroot hcast haccepted hann
  rw [hadmits, hsigner] at hbad
  exact hne hbad.symm

-- ── Where authority follows the signer ────

/-- **Role authority follows the wrapper.**  Role authority follows the authenticated signer of a
    message that is no cast wrapper exactly when its outermost named key, if it has one, is the
    signer's. -/
theorem authorityFollowsSigner_iff {contentHash : Message → String} {message : Message}
    {signer : String} {act : Act} (hact : Act.fromMessage contentHash message signer = .ok act)
    (hwrap : message.wrapperType ≠ some .withRoles) :
    AuthorityFollowsSigner act ↔ ∀ key, signerOf message = some key → key = signer := by
  constructor
  · intro hfollows key hkey
    by_contra hne
    exact not_authorityFollowsSigner hact hwrap hkey hne hfollows
  · intro hsame d thread accepted rt c ann hroles hroot hcast haccepted hann
    obtain ⟨simple, p, hsimple, hperf, hmsg, hsigner, hverb, -⟩ := fromMessage_ok hact
    obtain ⟨store, hvalid⟩ := valid_of_accepted hroles hroot hcast haccepted
    rw [hmsg] at hvalid
    rw [hverb] at hann
    obtain ⟨key, hkey, hadmits⟩ := signer_admitted_of_valid
      (verifySimple_of_valid hvalid hwrap hsimple hperf) hann
    rw [hsigner, ← hsame key hkey]
    exact hadmits

/-- An offer in a `signed` wrapper of Alice. -/
def signedOffer : Message :=
  .wrapped .signed [.atom (.symbol "@alice")]
    (.simple (.custom "offer") (some (.one "@bob")) (.list []) [] none none (some .begin))

/-- The signed offer as an act of some authenticated signer. -/
def offerBy (signer : String) : Act where
  address := "a"
  verb := "offer"
  signer := signer
  predecessors := []
  recipients := (∅ : BTreeSet String).insert "@bob"
  fields := ∅
  message := signedOffer

/-- Alice's own signed offer takes only roles of Alice. -/
theorem authorityFollowsSigner_alice :
    Act.fromMessage (fun _ => "a") signedOffer "@alice" = .ok (offerBy "@alice") ∧
      AuthorityFollowsSigner (offerBy "@alice") := by
  have hact : Act.fromMessage (fun _ => "a") signedOffer "@alice" = .ok (offerBy "@alice") := rfl
  refine ⟨hact, (authorityFollowsSigner_iff hact (by decide)).mpr ?_⟩
  intro key hkey
  exact (Option.some.inj hkey).symm

/-- The offer that names Alice's key, authenticated as Mallory's, is admitted in Alice's role. -/
theorem mallory_takes_role :
    Act.fromMessage (fun _ => "a") signedOffer "@mallory" = .ok (offerBy "@mallory") ∧
      signedOffer.wrapperType ≠ some .withRoles ∧
        ¬ AuthorityFollowsSigner (offerBy "@mallory") := by
  have hact : Act.fromMessage (fun _ => "a") signedOffer "@mallory" = .ok (offerBy "@mallory") :=
    rfl
  have hwrap : signedOffer.wrapperType ≠ some .withRoles := by decide
  have hne : "@alice" ≠ "@mallory" := by decide
  exact ⟨hact, hwrap, not_authorityFollowsSigner hact hwrap rfl hne⟩

end CbclExports
