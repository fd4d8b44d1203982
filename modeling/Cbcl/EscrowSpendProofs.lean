import Cbcl.EscrowGrowthProofs
import Cbcl.EscrowObservationProofs
import Cbcl.IntendProofs

/-!
# A displayed budget can be spent

`bookkeeping` names the signer's newest operation and the newest of every other account, as the
displayed snapshot has them.  An operation act that carries these links and an amount the
snapshot shows for its owner passes its checks, so the acts with it are observed as one more
operation (`displayed_budget_spendable`).
-/

namespace CbclEscrowSpend

open CbclMessage CbclAct CbclEscrow CbclEscrowTraversal CbclEscrowStage CbclEscrowSolvency
open CbclEscrowHistory CbclEscrowObservation CbclEscrowTips CbclEscrowGrowth CbclTreeMap
open CbclLedger
open CbclIntend (addressList bookkeeping observeIn observeIn_ready_iff SpelledInHex isAddress_wire)

-- ── Operation acts ────

/-- The fact a counter keeps of an act. -/
def factOf (c : CounterRule) (a : Act) : ResourceFact where
  address := a.address
  verb := a.verb
  signer := a.signer
  predecessors := a.predecessors.map resourceStateId
  fields := (a.fields.filter fun k _ => k ∈ keptFields c a.verb).map projectedField
  language := lang a.message
  thread := a.simple.thread
  «from» := rawField a.simple "from"
  bindings := CbclAct.cast a.message

theorem eq_factOf {c : CounterRule} {a : Act} {f : ResourceFact}
    (h : projectUnchecked c a = some f) : f = factOf c a := by
  unfold projectUnchecked at h
  split at h
  · exact nomatch h
  · exact (Option.some.inj h).symm

theorem project_of_verb {c : CounterRule} {a : Act} (h : a.verb ∈ c.verbs) :
    projectUnchecked c a = some (factOf c a) := if_neg fun hno => hno.1 h

/-- A data field of a verb is kept, with links in their wire spelling. -/
theorem factOf_field {c : CounterRule} {a : Act} {k : String}
    (hk : (a.verb, k) ∈ c.dataFields ∨ k = PREV ∨ k = DEPS) :
    (factOf c a).fields[k]? = (a.fields[k]?).map (projectedField k) := by
  have hkept : k ∈ keptFields c a.verb := by
    unfold keptFields
    rw [List.mem_append]
    rcases hk with hk | hk
    · exact Or.inl (List.mem_map.mpr ⟨(a.verb, k), List.mem_filter.mpr ⟨hk, by simp⟩, rfl⟩)
    · right
      rcases hk with rfl | rfl
      · exact List.mem_cons_self
      · exact List.mem_cons_of_mem _ List.mem_cons_self
  show ((a.fields.filter fun k _ => k ∈ keptFields c a.verb).map projectedField)[k]? = _
  rw [Std.ExtTreeMap.getElem?_map, Std.ExtTreeMap.getElem?_filter']
  congr 1
  cases a.fields[k]? with
  | none => rfl
  | some x => exact Option.filter_some_pos (decide_eq_true hkept)

/-- The verb and the fields of an operation are declared by the counter. -/
theorem operationKeys_declared {c : CounterRule} {verb key : String} {kind : Kind}
    {recipient : Option String} (h : operationKeys c verb = some (kind, key, recipient)) :
    verb ∈ c.operationVerbs ∧ (verb, key) ∈ c.dataFields ∧
      ∀ k, recipient = some k → (verb, k) ∈ c.dataFields := by
  unfold operationKeys at h
  unfold CounterRule.operationVerbs CounterRule.dataFields
  split at h
  · rename_i hv
    injection h with h
    injection h with _ h
    injection h with hkey hrec
    subst hv hkey hrec
    exact ⟨by simp, by simp, by rintro _ ⟨⟩⟩
  · split at h
    · rename_i hv
      injection h with h
      injection h with _ h
      injection h with hkey hrec
      subst hv hkey hrec
      exact ⟨by simp, by simp, by rintro _ ⟨⟩⟩
    · split at h
      · rename_i r k htransfer
        obtain ⟨htransfer, hv⟩ := Option.filter_eq_some_iff.mp htransfer
        have hv := of_decide_eq_true hv
        injection h with h
        injection h with _ h
        injection h with hkey hrec
        subst hkey hrec
        rw [htransfer, hv]
        exact ⟨by simp, by simp, fun k hk => by rw [← Option.some.inj hk]; simp⟩
      · rename_i hheadroom
        split at h
        · rename_i hv
          injection h with h
          injection h with _ h
          injection h with hkey hrec
          subst hkey hrec hv
          rw [hheadroom]
          exact ⟨by simp, by simp, fun k hk => by rw [← Option.some.inj hk]; simp⟩
        · cases h
      · cases h

-- ── Spelling ────

/-- What does not start like a native address is left alone. -/
theorem resourceStateId_eq {id : String} (h : ∀ rest, id ≠ "sha256:" ++ rest) :
    resourceStateId id = id := by
  unfold resourceStateId
  cases hs : stripStart "sha256:" id with
  | none => rfl
  | some rest => exact absurd (CbclStateProgress.stripStart_eq_some_iff.mp hs) (h rest)

theorem resourceStateId_address {id : String} (h : isAddress id = true) :
    resourceStateId id = id := by
  refine resourceStateId_eq fun rest heq => ?_
  obtain ⟨hex, hs, -⟩ := (Option.any_eq_true _ _).mp h
  rw [heq, CbclStateProgress.stripStart_eq_some_iff, ← String.toList_inj, String.toList_append,
    String.toList_append] at hs
  simp at hs

theorem number_projectedField (k : String) (x : SExpr) :
    number (projectedField k x) = number x := by
  unfold projectedField
  split
  · unfold projectedLink
    split
    · rfl
    · rfl
    · rfl
  · split
    · cases x with
      | atom a => rfl
      | list xs => rfl
    · rfl

/-- An account key is no link. -/
theorem account_projectedField (k : String) {x : SExpr} {r : String} (h : account x = some r) :
    account (projectedField k x) = some r := by
  obtain ⟨htext, hkey⟩ := Option.filter_eq_some_iff.mp h
  have hsame : resourceStateId r = r := by
    refine resourceStateId_eq fun rest heq => ?_
    rw [heq, String.toList_append] at hkey
    simp at hkey
  have hprojected : projectedField k x = x := by
    unfold projectedField
    split
    · unfold projectedLink
      split
      · rename_i y
        injection htext with htext
        rw [htext, hsame]
      · rename_i y
        injection htext with htext
        rw [htext, hsame]
      · rfl
    · split
      · cases x with
        | atom a => rfl
        | list xs => exact nomatch htext
      · rfl
  rw [hprojected, h]

-- ── Issuers ────

/-- Whether a binding gives an account a role. -/
def bindsRole (role x : String) : SExpr → Bool
  | .list (r :: keys) => text r = some role && keys.any fun key => account key = some x
  | _ => false

theorem readKeys_issuers {c : CounterRule} {root : ResourceFact} {role x : String} :
    ∀ (keys : List SExpr) (acc out : BTreeSet String × BTreeSet String),
      readKeys c root role keys acc = .ok out →
        (x ∈ acc.2 ∨ role = c.issuer ∧ ∃ key ∈ keys, account key = some x) → x ∈ out.2 := by
  intro keys
  induction keys with
  | nil =>
      intro acc out h hx
      rw [← Except.ok.inj h]
      exact hx.resolve_right (by rintro ⟨_, _, ⟨⟩, _⟩)
  | cons y rest ih =>
      rintro ⟨members, issuers⟩ out h hx
      rw [readKeys] at h
      cases hy : account y with
      | none => rw [hy] at h; cases h
      | some k =>
          rw [hy] at h
          refine ih _ out h ?_
          rcases hx with hx | ⟨hrole, key, hkey, haccount⟩
          · left
            show x ∈ if role = c.issuer then issuers.insert k else issuers
            split
            · exact (mem_insert_iff _ _ _).mpr (Or.inr hx)
            · exact hx
          · rcases List.mem_cons.mp hkey with rfl | hrest
            · left
              rw [hy] at haccount
              rw [Option.some.inj haccount]
              show x ∈ if role = c.issuer then issuers.insert x else issuers
              rw [if_pos hrole]
              exact (mem_insert_iff _ _ _).mpr (Or.inl rfl)
            · exact Or.inr ⟨hrole, key, hrest, haccount⟩

/-- The accounts the cast binds to the issuer role are issuers. -/
theorem readCast_issuers {c : CounterRule} {root : ResourceFact}
    {out : BTreeSet String × BTreeSet String} (h : readCast c root = .ok out)
    {bindings : List SExpr} (hb : root.bindings = some bindings) {x : String}
    (hx : bindings.any (bindsRole c.issuer x) = true) : x ∈ out.2 := by
  unfold readCast at h
  rw [hb] at h
  obtain ⟨b, hb, hbind⟩ := List.any_eq_true.mp hx
  have hI := CbclExcept.foldlM_inv (I := fun done (acc : BTreeSet String × BTreeSet String) =>
    ∀ b ∈ done, bindsRole c.issuer x b = true → x ∈ acc.2) ?_ (fun b hb => nomatch hb) h
  · exact hI b hb hbind
  · intro done b acc acc' _ hI hstep b' hb' hbind'
    unfold readBinding at hstep
    cases b with
    | atom a => exact nomatch hstep
    | list xs =>
        dsimp only at hstep
        cases hrole : xs.head?.bind text with
        | none => rw [hrole] at hstep; exact nomatch hstep
        | some role =>
            rw [hrole] at hstep
            refine readKeys_issuers _ acc acc' hstep ?_
            rcases List.mem_append.mp hb' with hold | hnew
            · exact Or.inl (hI b' hold hbind')
            · rw [List.mem_singleton.mp hnew] at hbind'
              cases xs with
              | nil => exact nomatch hrole
              | cons r keys =>
                  obtain ⟨hr, hkeys⟩ := Bool.and_eq_true_iff.mp hbind'
                  have hr : text r = some c.issuer := of_decide_eq_true hr
                  have hrole : text r = some role := hrole
                  obtain ⟨key, hkey, haccount⟩ := List.any_eq_true.mp hkeys
                  refine Or.inr ⟨Option.some.inj (hrole.symm.trans hr), key, hkey, ?_⟩
                  exact of_decide_eq_true haccount

/-- What opening a counter reads. -/
theorem openCounter_read {c : CounterRule} {all : Facts} {present : String → Bool} {o : Opening}
    (h : openCounter c all present = .ok o) :
    (∃ k : String, all[k]? = some o.op) ∧ o.op.verb = c.initial_verb ∧
      ∃ (p : String) (root : ResourceFact), o.op.predecessors = [p] ∧ all[p]? = some root ∧
        ∃ members, readCast c root = .ok (members, o.issuers) := by
  obtain ⟨op, hop, h⟩ := CbclExcept.bind_ok_iff.mp h
  obtain ⟨root, hroot, hopen⟩ := CbclExcept.bind_ok_iff.mp h
  have hsame := (openWith_ok hopen).1
  have hverb : op.verb = c.initial_verb := by
    have hmem : op ∈ (valuesOf all).filter (·.verb = c.initial_verb) := by
      rw [findOpener_only hop]
      exact List.mem_singleton_self op
    exact of_decide_eq_true (List.mem_filter.mp hmem).2
  refine ⟨by rw [hsame]; exact findOpener_mem hop, by rw [hsame]; exact hverb, ?_⟩
  have hcast : ∃ members, readCast c root = .ok (members, o.issuers) := by
    unfold openWith at hopen
    obtain ⟨⟨members, issuers⟩, hcast, hopen⟩ := CbclExcept.bind_ok_iff.mp hopen
    dsimp only at hopen
    split at hopen
    · cases hopen
    · split at hopen
      · cases hopen
      · split at hopen
        · cases hopen
        · obtain ⟨headroom, -, hopen⟩ := CbclExcept.bind_ok_iff.mp hopen
          obtain ⟨_, -, hopen⟩ := CbclExcept.bind_ok_iff.mp hopen
          rw [← Except.ok.inj hopen]
          exact ⟨members, hcast⟩
  unfold findRoot at hroot
  split at hroot
  · rename_i p hp
    split at hroot
    · rename_i g hg
      rw [← Except.ok.inj hroot] at hcast
      exact ⟨p, g, by rw [hsame]; exact hp, hg, hcast⟩
    · split at hroot
      · cases hroot
      · cases hroot
  · cases hroot

-- ── Spending ────

/-- What an operation spends or issues, with the recipient of a transfer. -/
inductive Spending where
  | increment
  | decrement
  | transfer (to_ : String)
  | headroom (to_ : String)

/-- The kind of an operation. -/
def Spending.kind : Spending → Kind
  | .increment => .increment
  | .decrement => .decrement
  | .transfer _ => .transfer
  | .headroom _ => .headroom

/-- The recipient of an operation. -/
def Spending.recipient : Spending → Option String
  | .transfer r | .headroom r => some r
  | _ => none

/-- Add to the balance of an account. -/
def credit (m : BTreeMap String Int) (x : String) (n : Int) : BTreeMap String Int :=
  m.map fun k v => if k = x then v + n else v

/-- A snapshot with one operation of an account applied. -/
def spend (p : Spending) (x : String) (n : Int) (address : String) (s : Snapshot) : Snapshot :=
  let tips := s.tips.insert x address
  match p with
  | .increment =>
      { s with
        value := s.value + n
        rights := credit s.rights x n
        headroom := s.headroom.map fun h => credit h x (-n)
        tips }
  | .decrement =>
      { s with
        value := s.value - n
        rights := credit s.rights x (-n)
        headroom := s.headroom.map fun h => credit h x n
        tips }
  | .transfer r => { s with rights := credit (credit s.rights x (-n)) r n, tips }
  | .headroom r =>
      { s with headroom := s.headroom.map fun h => credit (credit h x (-n)) r n, tips }

/-- The budget a snapshot shows for an operation of an account covers an amount: rights for
    decrements and transfers, headroom, where there is any, for increments and transfers of it. -/
def Covers (s : Snapshot) (p : Spending) (x : String) (n : Int) : Prop :=
  match p with
  | .decrement | .transfer _ => ∃ v, s.rights[x]? = some v ∧ n ≤ v
  | .increment => ∀ h, s.headroom = some h → ∃ v, h[x]? = some v ∧ n ≤ v
  | .headroom _ => ∃ h, s.headroom = some h ∧ ∃ v, h[x]? = some v ∧ n ≤ v

theorem credit_shifted (m : BTreeMap String Int) (x : String) (n : Int) :
    Shifted m (credit m x n) (onAccount x n) := by
  intro k
  unfold credit onAccount
  rw [Std.ExtTreeMap.getElem?_map]
  cases m[k]? with
  | none => rfl
  | some v =>
      show some (if k = x then v + n else v) = some (v + if k = x then n else 0)
      by_cases hk : k = x
      · rw [if_pos hk, if_pos hk]
      · rw [if_neg hk, if_neg hk, add_zero]

/-- An optional balance map is determined by its shift. -/
theorem shiftedOpt_unique {h h' : Option (BTreeMap String Int)} {δ : String → ℤ}
    {g : BTreeMap String Int → BTreeMap String Int} (hg : ∀ m, Shifted m (g m) δ)
    (hs : ShiftedOpt h h' δ) : h' = h.map g := by
  cases h with
  | none =>
      cases h' with
      | none => rfl
      | some b => exact hs.elim
  | some a =>
      cases h' with
      | none => exact hs.elim
      | some b => exact congrArg some (shifted_unique hs (hg a))

/-- **The snapshot after an operation is the one before with the operation applied.** -/
theorem eq_spend_of_after {s s' : Snapshot} {n : Node} (h : After s s' n) {p : Spending}
    (hkind : n.kind = p.kind) (hrecipient : n.recipient = p.recipient) :
    s' = spend p n.act.signer n.amount n.act.address s := by
  obtain ⟨hvalue, hrights, hheadroom, htips, hopener⟩ := h
  obtain ⟨value, rights, headroom, tips, opener⟩ := s'
  dsimp only at hvalue hrights hheadroom htips hopener
  have hmove : ∀ {r}, n.recipient = some r → ∀ m : BTreeMap String Int,
      Shifted m (credit (credit m n.act.signer (-n.amount)) r n.amount) (moveDelta n) := by
    intro r hr m
    have hdelta : moveDelta n = onAccount n.act.signer (-n.amount) + onAccount r n.amount := by
      funext x
      rw [moveDelta, hr]
      rfl
    rw [hdelta]
    exact (credit_shifted m _ _).trans (credit_shifted _ _ _)
  subst hvalue htips hopener
  unfold rightsDelta at hrights
  unfold headroomDelta at hheadroom
  unfold amountIf
  rw [hkind] at hrights hheadroom ⊢
  cases p with
  | increment =>
      rw [shifted_unique hrights (credit_shifted _ _ _),
        shiftedOpt_unique (fun m => credit_shifted m _ _) hheadroom]
      simp [spend, Spending.kind]
  | decrement =>
      rw [shifted_unique hrights (credit_shifted _ _ _),
        shiftedOpt_unique (fun m => credit_shifted m _ _) hheadroom]
      simp [spend, Spending.kind]
  | transfer r =>
      rw [shifted_unique hrights (hmove hrecipient _),
        shiftedOpt_unique (g := id) (fun m => Shifted.refl m) hheadroom]
      simp [spend, Spending.kind]
  | headroom r =>
      rw [shifted_unique hrights (Shifted.refl _),
        shiftedOpt_unique (fun m => hmove hrecipient m) hheadroom]
      simp [spend, Spending.kind]

-- ── The links of bookkeeping ────

/-- The displayed tips of the accounts other than one. -/
def depsOf (s : Snapshot) (signer : String) : List String :=
  (((s.tips.toList.filter (·.1 ≠ signer)).map (·.2)).foldl (·.insert ·)
    (∅ : BTreeSet String)).toList

/-- The fields an operation of an account carries over a displayed snapshot. -/
def linksOf (s : Snapshot) (signer : String) : List (String × SExpr) :=
  [(PREV, .atom (.symbol ((s.tips[signer]?).getD s.opener))),
    (DEPS, addressList (depsOf s signer))]

variable {contentHash : Message → String}

/-- **What `bookkeeping` computes are the links of the displayed snapshot.** -/
theorem bookkeeping_links {d : CbclDialect.Dialect} {acts : List Act} {thread : ThreadId}
    {signer verb name : String} {pairs : List (String × SExpr)} {c : CounterRule} {s : Snapshot}
    (hrule : CbclStateShape.ruleFor d verb = some (name, c))
    (hready : observe contentHash c acts = .ready s)
    (h : bookkeeping contentHash d acts thread signer verb = .ok pairs) :
    pairs = linksOf s signer := by
  unfold bookkeeping at h
  rw [hrule] at h
  dsimp only at h
  cases hin : observeIn contentHash d thread c acts with
  | ready snapshot =>
      have hobserved := (observeIn_ready_iff.mp hin).2.2
      rw [hready] at hobserved
      injection hobserved with hobserved
      subst hobserved
      rw [hin] at h
      dsimp only at h
      split at h
      · exact nomatch h
      · split at h
        · exact nomatch h
        · exact (Except.ok.inj h).symm
  | pending evidence => rw [hin] at h; exact nomatch h
  | fault reason evidence => rw [hin] at h; exact nomatch h

theorem mem_depsOf {s : Snapshot} {signer d : String} :
    d ∈ depsOf s signer ↔ ∃ p : String, p ≠ signer ∧ s.tips[p]? = some d := by
  unfold depsOf
  rw [Std.ExtTreeSet.mem_toList, mem_foldl_insert]
  constructor
  · rintro (hin | hnone)
    · obtain ⟨e, he, rfl⟩ := List.mem_map.mp hin
      obtain ⟨hentry, hne⟩ := List.mem_filter.mp he
      exact ⟨e.1, of_decide_eq_true hne, (mem_toList_iff _ _ _).mp hentry⟩
    · exact absurd hnone Std.ExtTreeSet.not_mem_empty
  · rintro ⟨p, hne, hget⟩
    exact Or.inl (List.mem_map.mpr ⟨(p, d), List.mem_filter.mpr
      ⟨(mem_toList_iff _ _ _).mpr hget, decide_eq_true hne⟩, rfl⟩)

/-- Distinct addresses other than the previous link are read as dependencies. -/
theorem checkDeps_total (f : ResourceFact) (prev : String) : ∀ (ds acc : List String),
    (acc ++ ds).Nodup → (∀ d ∈ ds, isAddress d = true ∧ d ≠ prev) →
      checkDeps f prev (ds.map fun d => .atom (.symbol d)) acc = .ok (acc ++ ds) := by
  intro ds
  induction ds with
  | nil =>
      intro acc _ _
      rw [List.append_nil]
      rfl
  | cons d rest ih =>
      intro acc hnodup hds
      have hfilter : (text (.atom (.symbol d))).filter (fun s => isAddress s ∧ s ≠ prev)
          = some d := Option.filter_some_pos (decide_eq_true (hds d List.mem_cons_self))
      have hnew : d ∉ acc := fun hin =>
        (List.nodup_append.mp hnodup).2.2 d hin d List.mem_cons_self rfl
      have hrest := ih (acc ++ [d]) (by rw [List.append_assoc]; exact hnodup)
        fun x hx => hds x (List.mem_cons_of_mem d hx)
      rw [List.map_cons, checkDeps, hfilter]
      show (if d ∈ acc then _ else _) = _
      rw [if_neg hnew, hrest, List.append_assoc]
      rfl

theorem checkRecipient_ok {o : Opening} {f : ResourceFact} {p : Spending}
    {recipient : Option SExpr} (h : ∀ r, p.recipient = some r →
      recipient.bind account = some r ∧ r ∈ o.initial ∧ r ≠ f.signer) :
    checkRecipient o f p.kind recipient = .ok p.recipient := by
  have hmoves : ∀ r, p.recipient = some r → (recipient.bind account).filter
      (fun r => r ∈ o.initial ∧ r ≠ f.signer) = some r := by
    intro r hr
    obtain ⟨hread, hin⟩ := h r hr
    rw [hread]
    exact Option.filter_some_pos (decide_eq_true hin)
  unfold checkRecipient
  cases p with
  | increment => rfl
  | decrement => rfl
  | transfer r =>
      show (if Kind.transfer = .transfer ∨ Kind.transfer = .headroom then _ else _) = _
      rw [if_pos (Or.inl rfl), hmoves r rfl]
      rfl
  | headroom r =>
      show (if Kind.headroom = .transfer ∨ Kind.headroom = .headroom then _ else _) = _
      rw [if_pos (Or.inr rfl), hmoves r rfl]
      rfl

-- ── Operations of an account ────

/-- The cast the opener names gives an account the issuer role. -/
def Issues (c : CounterRule) (acts : List Act) (s : Snapshot) (x : String) : Prop :=
  ∃ op ∈ acts, op.address = s.opener ∧
    ∃ root ∈ acts, root.address ∈ op.predecessors.map resourceStateId ∧
      ∃ bindings, CbclAct.cast root.message = some bindings ∧
        bindings.any (bindsRole c.issuer x) = true

/-- An act is a new operation of its signer over a displayed snapshot: identity-consistent, in
    the opener's thread and language, `:from` its signer, with a positive amount, by an issuer if
    it increments, to another account if it transfers. -/
structure Operates (contentHash : Message → String) (c : CounterRule) (acts : List Act)
    (s : Snapshot) (a : Act) (p : Spending) (n : Int) : Prop where
  consistent : Consistent contentHash a
  fresh : ∀ b ∈ acts, b.address ≠ a.address
  same_instance : ∃ op ∈ acts, op.address = s.opener ∧ a.simple.thread = op.simple.thread ∧
    lang a.message = lang op.message
  from_signer : (rawField a.simple "from").bind text = some a.signer
  account : a.signer ∈ s.rights
  reads : ∃ key recipient, operationKeys c a.verb = some (p.kind, key, recipient) ∧
    (a.fields[key]?).bind number = some n ∧
    (recipient.bind fun k => a.fields[k]?).bind CbclEscrow.account = p.recipient
  positive : 0 < n
  recipient : ∀ r, p.recipient = some r → r ∈ s.rights ∧ r ≠ a.signer
  issuer : p.kind = .increment → Issues c acts s a.signer

/-- The node of an operation over a displayed snapshot. -/
def nodeOf (c : CounterRule) (s : Snapshot) (a : Act) (p : Spending) (n : Int) : Node where
  act := factOf c a
  prev := (s.tips[a.signer]?).getD s.opener
  deps := depsOf s a.signer
  kind := p.kind
  amount := n
  recipient := p.recipient

/-- **An operation that carries the links of the snapshot passes its checks.** -/
theorem checkNode_operates {c : CounterRule} {acts : List Act} {s : Snapshot} {a : Act}
    {p : Spending} {n : Int} (h : Operates contentHash c acts s a p n) {o : Opening}
    (hinstance : a.simple.thread = o.op.thread ∧ lang a.message = o.op.language)
    (hrights : ∀ x, x ∈ s.rights ↔ x ∈ o.initial)
    (hissuer : p.kind = .increment → a.signer ∈ o.issuers)
    (haddress : isAddress ((s.tips[a.signer]?).getD s.opener) = true ∧
      ∀ d ∈ depsOf s a.signer, isAddress d = true ∧ d ≠ (s.tips[a.signer]?).getD s.opener)
    (hbooked : ∀ field ∈ linksOf s a.signer, a.fields[field.1]? = some field.2) :
    checkNode c o (factOf c a) = .ok (nodeOf c s a p n) := by
  obtain ⟨key, recipient, hkeys, hamount, hrecipient⟩ := h.reads
  obtain ⟨-, hkey, hrec⟩ := operationKeys_declared hkeys
  obtain ⟨x, hx, hnumber⟩ := Option.bind_eq_some_iff.mp hamount
  have hfield : (factOf c a).fields[key]? = some (projectedField key x) := by
    rw [factOf_field (Or.inl hkey), hx]
    rfl
  have hoperation : operation c (factOf c a) = some (p.kind, projectedField key x,
      recipient.bind fun k => (factOf c a).fields[k]?) := by
    unfold operation
    rw [show operationKeys c (factOf c a).verb = _ from hkeys]
    dsimp only
    rw [hfield]
    rfl
  have hpositive : (number (projectedField key x)).filter (0 < ·) = some n := by
    rw [number_projectedField, hnumber]
    exact Option.filter_some_pos (decide_eq_true h.positive)
  have hchecked : checkRecipient o (factOf c a) p.kind
      (recipient.bind fun k => (factOf c a).fields[k]?) = .ok p.recipient := by
    refine checkRecipient_ok fun r hr => ?_
    obtain ⟨hin, hne⟩ := h.recipient r hr
    rw [hr] at hrecipient
    obtain ⟨y, hy, haccount⟩ := Option.bind_eq_some_iff.mp hrecipient
    obtain ⟨k, rfl, hget⟩ := Option.bind_eq_some_iff.mp hy
    refine ⟨?_, (hrights r).mp hin, hne⟩
    rw [Option.bind_some, factOf_field (Or.inl (hrec k rfl)), hget]
    exact account_projectedField k haccount
  have hprev : (factOf c a).fields[PREV]?
      = some (.atom (.symbol ((s.tips[a.signer]?).getD s.opener))) := by
    rw [factOf_field (Or.inr (Or.inl rfl)), hbooked (PREV, _) List.mem_cons_self]
    show some (SExpr.atom (.symbol (resourceStateId _))) = _
    rw [resourceStateId_address haddress.1]
  have hdeps : (factOf c a).fields[DEPS]?
      = some (.list ((depsOf s a.signer).map fun d => .atom (.symbol d))) := by
    rw [factOf_field (Or.inr (Or.inr rfl)),
      hbooked (DEPS, _) (List.mem_cons_of_mem _ List.mem_cons_self)]
    show some (SExpr.list (((depsOf s a.signer).map fun d => SExpr.atom (.symbol d)).map
      projectedLink)) = _
    rw [List.map_map]
    refine congrArg (fun l => some (SExpr.list l)) (List.map_congr_left fun d hd => ?_)
    show SExpr.atom (.symbol (resourceStateId d)) = _
    rw [resourceStateId_address (haddress.2 d hd).1]
  have hlinks := checkDeps_total (factOf c a) ((s.tips[a.signer]?).getD s.opener)
    (depsOf s a.signer) [] (nodup_toList _) haddress.2
  unfold checkNode
  rw [if_neg, if_neg, hoperation]
  · dsimp only
    rw [hpositive]
    dsimp only
    rw [if_neg fun hc => hc.2 (hissuer hc.1), hchecked]
    dsimp only [bind, Except.bind]
    rw [hprev, hdeps, Option.bind_some,
      show text (.atom (.symbol ((s.tips[a.signer]?).getD s.opener))) = some _ from rfl,
      Option.filter_some_pos haddress.1]
    dsimp only
    rw [hlinks]
    rfl
  · exact not_not.mpr h.from_signer
  · rw [not_or, not_or, not_not, not_not, not_not]
    exact ⟨hinstance.1, hinstance.2, (hrights _).mp h.account⟩

-- ── The observation after an operation ────

/-- One more act with a fresh address grows the view by its fact. -/
theorem grown_viewOf {c : CounterRule} {acts : List Act} {a : Act} {all all' : BTreeMap String Act}
    (hf : FiledActs contentHash acts all) (hf' : FiledActs contentHash (acts ++ [a]) all')
    (hfresh : ∀ b ∈ acts, b.address ≠ a.address) (hverb : a.verb ∈ c.verbs) :
    Grown (viewOf c hf) (viewOf c hf') (factOf c a) := by
  have ha : a ∈ acts ++ [a] := List.mem_append_right _ (List.mem_singleton_self a)
  have hpart : Part (viewOf c hf) (viewOf c hf') :=
    viewOf_part hf hf' fun b hb => List.mem_append_left _ hb
  have hpresent : ∀ k, (viewOf c hf').present k = true ↔
      (viewOf c hf).present k = true ∨ k = a.address := by
    intro k
    rw [present_viewOf hf', present_viewOf hf]
    constructor
    · rintro ⟨b, hb, rfl⟩
      rcases List.mem_append.mp hb with hb | hb
      · exact Or.inl ⟨b, hb, rfl⟩
      · rw [List.mem_singleton.mp hb]
        exact Or.inr rfl
    · rintro (⟨b, hb, rfl⟩ | rfl)
      · exact ⟨b, List.mem_append_left _ hb, rfl⟩
      · exact ⟨a, ha, rfl⟩
  refine ⟨?_, hpresent, fun k => ?_⟩
  · rw [Bool.eq_false_iff, Ne, present_viewOf hf]
    rintro ⟨b, hb, hba⟩
    exact hfresh b hb hba
  · show (viewOf c hf').all[k]? = if k = a.address then some (factOf c a) else (viewOf c hf).all[k]?
    by_cases hk : k = a.address
    · rw [if_pos hk, hk, fact_viewOf hf' ha, project_of_verb hverb]
    · rw [if_neg hk]
      by_cases hold : (viewOf c hf).present k = true
      · exact (hpart.facts k hold).symm
      · have hnone : ∀ v : View, v.present k ≠ true → v.all[k]? = none := fun v hv => by
          cases hget : v.all[k]? with
          | none => rfl
          | some g => exact absurd (v.present_of_fact hget) hv
        rw [hnone _ hold, hnone _ fun hnew => ((hpresent k).mp hnew).elim hold hk]

/-- An act under the address of a fact has that fact. -/
theorem eq_factOf_of_address {c : CounterRule} {acts : List Act} {all : BTreeMap String Act}
    (hf : FiledActs contentHash acts all) {b : Act} (hb : b ∈ acts) {f : ResourceFact}
    (hget : (viewOf c hf).all[b.address]? = some f) : f = factOf c b := by
  rw [fact_viewOf hf hb] at hget
  exact eq_factOf hget

/-- The address of a fact is well spelled. -/
theorem isAddress_fact (hhex : SpelledInHex contentHash) {c : CounterRule} {acts : List Act}
    {all : BTreeMap String Act} (hf : FiledActs contentHash acts all) {k : String}
    {f : ResourceFact} (hget : (viewOf c hf).all[k]? = some f) : isAddress k = true := by
  obtain ⟨b, hb, rfl⟩ := (present_viewOf hf).mp ((viewOf c hf).present_of_fact hget)
  rw [(hf.consistent b hb).metadata.1]
  exact isAddress_wire hhex _

/-- One more identity-consistent act with a fresh address is filed with the others. -/
theorem observe_append {c : CounterRule} {acts : List Act} {all : BTreeMap String Act}
    (hprofile : checkProfile c = .ok ()) (hf : FiledActs contentHash acts all) {a : Act}
    (hcons : Consistent contentHash a) (hfresh : ∀ b ∈ acts, b.address ≠ a.address) :
    ∃ (all' : BTreeMap String Act) (hf' : FiledActs contentHash (acts ++ [a]) all'),
      observe contentHash c (acts ++ [a])
        = observeFacts c (viewOf c hf').all (viewOf c hf').present := by
  refine observe_filed hprofile (fun b hb => ?_) fun x hx y hy hxy => ?_
  · rcases List.mem_append.mp hb with hb | hb
    · exact hf.consistent b hb
    · rw [List.mem_singleton.mp hb]
      exact hcons
  · rcases List.mem_append.mp hx with hx | hx
    · rcases List.mem_append.mp hy with hy | hy
      · exact hf.same hx hy hxy
      · rw [List.mem_singleton.mp hy] at hxy
        exact absurd hxy (hfresh x hx)
    · rw [List.mem_singleton.mp hx] at hxy ⊢
      rcases List.mem_append.mp hy with hy | hy
      · exact absurd hxy.symm (hfresh y hy)
      · rw [List.mem_singleton.mp hy]
        exact SameIdentity.refl a

section Displayed

variable {c : CounterRule} {acts : List Act} {all : BTreeMap String Act}
  (hf : FiledActs contentHash acts all) {o : Opening} {ops : Operations}
  (hpass : Passed c (viewOf c hf).all (viewOf c hf).present o ops) {s : Snapshot}
  (hconc : conclude c o ops = .ok s)
include hpass

/-- The opener is one of the facts. -/
theorem opener_fact : (viewOf c hf).all[o.op.address]? = some o.op := by
  obtain ⟨⟨k, hk⟩, -⟩ := openCounter_read hpass.opening
  rw [(viewOf c hf).keyed k o.op hk]
  exact hk

/-- The opener is no operation. -/
theorem opener_not_node (hrule : c.initial_verb ∉ c.operationVerbs) :
    ops.nodes[o.op.address]? = none := by
  obtain ⟨-, hopverb, -⟩ := openCounter_read hpass.opening
  cases hn : ops.nodes[o.op.address]? with
  | none => rfl
  | some m =>
      obtain ⟨f, hget, hfverb, -⟩ := (collect_nodes (viewOf c hf).keyed hpass.collected _ m).mp hn
      rw [opener_fact hf hpass] at hget
      rw [← Option.some.inj hget, hopverb] at hfverb
      exact absurd hfverb hrule

/-- The operations and the opener are among the facts. -/
theorem size_nodes_lt (hnode : ops.nodes[o.op.address]? = none) (hlen : acts.length < 2 ^ 63) :
    ops.nodes.size + 1 < 2 ^ 63 := by
  have hsub : (o.op.address :: ops.nodes.keys).Subperm (viewOf c hf).all.keys := by
    refine (List.nodup_cons.mpr ⟨?_, nodup_keys _⟩).subperm fun x hx => ?_
    · rw [mem_keys_iff, hnode]
      exact fun hc => nomatch hc.choose_spec
    · rw [mem_keys_iff]
      rcases List.mem_cons.mp hx with rfl | hx
      · exact ⟨o.op, opener_fact hf hpass⟩
      · obtain ⟨m, hm⟩ := (mem_keys_iff _ _).mp hx
        obtain ⟨f, hget, -⟩ := (collect_nodes (viewOf c hf).keyed hpass.collected x m).mp hm
        exact ⟨f, hget⟩
  have hle := hsub.length_le
  rw [List.length_cons, Std.ExtTreeMap.length_keys, Std.ExtTreeMap.length_keys] at hle
  exact lt_of_le_of_lt (hle.trans (size_viewOf hf)) hlen

/-- An issuer the acts name is an issuer of the opening. -/
theorem issuer_of_issues (hopener : s.opener = o.op.address) {x : String}
    (h : Issues c acts s x) : x ∈ o.issuers := by
  obtain ⟨op, hop, haddr, rt, hrt, hnamed, bindings, hbindings, hbound⟩ := h
  obtain ⟨-, -, r, root, hroots, hroot, members, hcast⟩ := openCounter_read hpass.opening
  have hfact : o.op = factOf c op := by
    refine eq_factOf_of_address hf hop ?_
    rw [haddr, hopener]
    exact opener_fact hf hpass
  have hpred : rt.address = r := by
    have hroots' : o.op.predecessors = op.predecessors.map resourceStateId := by
      rw [hfact]
      rfl
    rw [← hroots', hroots] at hnamed
    exact List.mem_singleton.mp hnamed
  have hrtfact : root = factOf c rt := by
    refine eq_factOf_of_address hf hrt ?_
    rw [hpred]
    exact hroot
  exact readCast_issuers hcast (hrtfact ▸ hbindings) hbound

variable (hnode : ops.nodes[o.op.address]? = none)
include hconc hnode

/-- The displayed tips are the tips of the operations. -/
theorem tips_iff (p t : String) : s.tips[p]? = some t ↔ IsTip ops.nodes p t := by
  obtain ⟨order, summaries, hj⟩ := hpass.justified
  obtain ⟨-, -, htips, -⟩ := conclude_ok hconc
  rw [htips]
  exact latest_iff (viewOf c hf).keyed hpass.collected
    (fun p x y hx hy => isTip_unique hpass.checked hj hnode hx hy) p t

/-- **The links of the displayed snapshot name every tip.** -/
theorem current_nodeOf (a : Act) (p : Spending) (n : Int) :
    Current o.op.address ops.nodes (nodeOf c s a p n) := by
  have htips := tips_iff hf hpass hconc hnode
  constructor
  · show IsTip ops.nodes a.signer ((s.tips[a.signer]?).getD s.opener) ∨
      (s.tips[a.signer]?).getD s.opener = o.op.address ∧ ∀ t, ¬ IsTip ops.nodes a.signer t
    cases hown : s.tips[a.signer]? with
    | none =>
        refine Or.inr ⟨(conclude_ok hconc).2.2.2, fun t ht => ?_⟩
        rw [(htips _ t).mpr ht] at hown
        exact nomatch hown
    | some t => exact Or.inl ((htips _ t).mp hown)
  · intro d
    show d ∈ depsOf s a.signer ↔ _
    rw [mem_depsOf]
    simp only [htips]
    rfl

/-- The links of the displayed snapshot are distinct addresses. -/
theorem address_nodeOf (hhex : SpelledInHex contentHash) (x : String) :
    isAddress ((s.tips[x]?).getD s.opener) = true ∧
      ∀ d ∈ depsOf s x, isAddress d = true ∧ d ≠ (s.tips[x]?).getD s.opener := by
  have htips := tips_iff hf hpass hconc hnode
  have hopener : s.opener = o.op.address := (conclude_ok hconc).2.2.2
  have htip : ∀ {p t}, IsTip ops.nodes p t → isAddress t = true ∧ t ≠ o.op.address := by
    rintro p t ⟨⟨m, hm, -⟩, -⟩
    obtain ⟨f, hget, -⟩ := (collect_nodes (viewOf c hf).keyed hpass.collected t m).mp hm
    refine ⟨isAddress_fact hhex hf hget, ?_⟩
    rintro rfl
    rw [hnode] at hm
    exact nomatch hm
  cases hown : s.tips[x]? with
  | none =>
      rw [Option.getD_none, hopener]
      refine ⟨isAddress_fact hhex hf (opener_fact hf hpass), fun d hd => ?_⟩
      obtain ⟨q, -, hq⟩ := mem_depsOf.mp hd
      exact htip ((htips _ _).mp hq)
  | some t =>
      have ht := (htips _ t).mp hown
      rw [Option.getD_some]
      refine ⟨(htip ht).1, fun d hd => ?_⟩
      obtain ⟨q, hne, hq⟩ := mem_depsOf.mp hd
      have hd' := (htips _ _).mp hq
      refine ⟨(htip hd').1, ?_⟩
      rintro rfl
      -- one operation has one owner
      obtain ⟨m, hm, howner⟩ := hd'.1
      obtain ⟨m', hm', howner'⟩ := ht.1
      rw [hm] at hm'
      rw [← Option.some.inj hm'] at howner'
      exact hne (howner.symm.trans howner')

end Displayed

/-- A covered amount is at most the displayed rights of what spends rights. -/
theorem Covers.rights {s : Snapshot} {p : Spending} {x : String} {n : Int} (h : Covers s p x n)
    (hkind : p.kind.spendsHeadroom = false) : n ≤ balanceOf s.rights x := by
  have hbalance : (∃ v, s.rights[x]? = some v ∧ n ≤ v) → n ≤ balanceOf s.rights x := by
    rintro ⟨v, hv, hle⟩
    unfold balanceOf
    rw [hv]
    exact hle
  cases p with
  | increment => exact nomatch hkind
  | decrement => exact hbalance h
  | transfer r => exact hbalance h
  | headroom r => exact nomatch hkind

/-- A covered amount is at most the displayed headroom of what spends headroom. -/
theorem Covers.space {s : Snapshot} {p : Spending} {x : String} {n : Int} (h : Covers s p x n)
    (hkind : p.kind.spendsHeadroom = true) {m : BTreeMap String Int} (hm : s.headroom = some m) :
    n ≤ balanceOf m x := by
  have hbalance : (∃ v, m[x]? = some v ∧ n ≤ v) → n ≤ balanceOf m x := by
    rintro ⟨v, hv, hle⟩
    unfold balanceOf
    rw [hv]
    exact hle
  cases p with
  | increment => exact hbalance (h m hm)
  | decrement => exact nomatch hkind
  | transfer r => exact nomatch hkind
  | headroom r =>
      obtain ⟨m', hm', hcover⟩ := h
      rw [hm] at hm'
      obtain rfl := Option.some.inj hm'
      exact hbalance hcover

/-- A covered transfer of headroom has headroom to transfer. -/
theorem Covers.headroom_some {s : Snapshot} {p : Spending} {x : String} {n : Int}
    (h : Covers s p x n) (hkind : p.kind = .headroom) : s.headroom ≠ none := by
  cases p with
  | increment => exact nomatch hkind
  | decrement => exact nomatch hkind
  | transfer r => exact nomatch hkind
  | headroom r =>
      obtain ⟨m', hm', -⟩ := h
      rw [hm']
      exact fun hnone => nomatch hnone

/-- **A displayed budget can be spent by its owner.** -/
theorem displayed_budget_spendable (hhex : SpelledInHex contentHash) {c : CounterRule}
    (hrule : c.initial_verb ∉ c.operationVerbs) (S : ActSlice) {s : Snapshot}
    (hready : observe contentHash c S.acts = .ready s) {a : Act} {p : Spending} {n : Int}
    (h : Operates contentHash c S.acts s a p n)
    (hbooked : ∀ field ∈ linksOf s a.signer, a.fields[field.1]? = some field.2)
    (hcovers : Covers s p a.signer n) :
    observe contentHash c (S.acts ++ [a]) = .ready (spend p a.signer n a.address s) ∧
      ∀ (d : CbclDialect.Dialect) (thread : ThreadId) (name : String)
        (pairs : List (String × SExpr)), CbclStateShape.ruleFor d a.verb = some (name, c) →
          bookkeeping contentHash d S.acts thread a.signer a.verb = .ok pairs →
            pairs = linksOf s a.signer := by
  refine ⟨?_, fun d thread name pairs hrule hpairs => bookkeeping_links hrule hready hpairs⟩
  obtain ⟨all, hf, hsettle⟩ := observe_ready hready
  obtain ⟨o, ops, hpass, hconc⟩ := passed_of_ok hsettle
  obtain ⟨hb, -, -, hopener⟩ := conclude_ok hconc
  obtain ⟨hr, -⟩ := balances_ok hb
  obtain ⟨key, recipient, hkeys, -⟩ := h.reads
  obtain ⟨hverb, -, -⟩ := operationKeys_declared hkeys
  -- the acts with the operation are filed, and their facts are the old ones and one more
  obtain ⟨all', hf', hobserve⟩ := observe_append hpass.profile hf h.consistent h.fresh
  have hgrown := grown_viewOf hf hf' h.fresh (List.mem_append_left [c.initial_verb] hverb)
  -- its checks pass against what the opener fixes
  have hnode := opener_not_node hf hpass hrule
  obtain ⟨op, hop, haddr, hthread, hlang⟩ := h.same_instance
  have hopfact : o.op = factOf c op := by
    refine eq_factOf_of_address hf hop ?_
    rw [haddr, hopener]
    exact opener_fact hf hpass
  have hinstance : a.simple.thread = o.op.thread ∧ lang a.message = o.op.language := by
    rw [hopfact]
    exact ⟨hthread, hlang⟩
  have hchecked := checkNode_operates h hinstance (Shifted.mem hr)
    (fun hkind => issuer_of_issues hf hpass hopener (h.issuer hkind))
    (address_nodeOf hf hpass hconc hnode hhex a.signer) hbooked
  have hne : a.address ≠ o.op.address := by
    intro heq
    obtain ⟨b, hb, hba⟩ := (present_viewOf hf).mp
      ((viewOf c hf).present_of_fact (opener_fact hf hpass))
    exact h.fresh b hb (hba.trans heq.symm)
  obtain ⟨s', hs', hafter⟩ := settle_grown hgrown hpass hconc (initial_size S hf hpass.opening)
    (size_nodes_lt hf hpass hnode S.length_lt) hnode hverb (fun heq => hrule (heq ▸ hverb)) hne
    hchecked (current_nodeOf hf hpass hconc hnode a p n) hcovers.rights
    (fun hkind m hm => hcovers.space hkind hm) hcovers.headroom_some
  rw [hobserve]
  unfold observeFacts
  rw [hs', eq_spend_of_after hafter (p := p) rfl rfl]
  rfl

-- ── A till ────

/-- A hash that tells the messages of a till apart. -/
def purseHash (m : Message) : String :=
  "sha256:" ++ String.ofList (List.replicate 63 '0' ++
    [if m.performative = some (.custom "open") then '1'
      else if m.performative = some (.custom "pass") then '2'
      else if m.performative = some (.custom "take") then '3' else '0'])

theorem purseHash_hex : SpelledInHex purseHash := by
  intro m
  refine ⟨_, rfl, ?_⟩
  split
  · decide
  · split
    · decide
    · split
      · decide
      · decide

/-- A message of the till: its verb, its fields and the act it answers. -/
def purseMessage (verb : String) (fields : List (String × SExpr)) (cause : String) : Message :=
  .simple (.custom verb) none (.list []) (fields.flatMap fun e => [.atom (.keyword e.1), e.2])
    (some "t") none (some (.single cause))

/-- The addresses of the root, the opener and the transfer. -/
def purseAddress (c : Char) : String :=
  "sha256-" ++ String.ofList (List.replicate 63 '0' ++ [c])

/-- The till with its recipients under a keyword that routes nothing. -/
def purseRule : CounterRule := { tillRule with transfer := some ("pass", "dest", "n") }

/-- The root with the cast, the opener, and a transfer from Alice to Bob. -/
def purseMessages : List Message :=
  [.wrapped .withRoles [.list [.list [.atom (.symbol "bank"), .atom (.symbol "@a"),
      .atom (.symbol "@b")]]]
      (.simple (.core .hello) none (.list []) [] (some "t") none (some .begin)),
    purseMessage "open" [("alloc", .list [.list [.atom (.symbol "@a"), .atom (.num 5)],
      .list [.atom (.symbol "@b"), .atom (.num 0)]])] (purseAddress '0'),
    purseMessage "pass" [("dest", .atom (.symbol "@b")), ("n", .atom (.num 2)),
      ("from", .atom (.symbol "@a")), (PREV, .atom (.symbol (purseAddress '1'))),
      (DEPS, .list [])] (purseAddress '1')]

/-- The acts of the till, all signed by Alice. -/
def purseActs : List Act :=
  purseMessages.filterMap fun m => (Act.fromMessage purseHash m "@a").toOption

/-- The till as a slice. -/
def purse : ActSlice := sliceOf purseActs (by decide +kernel) (by decide +kernel)

/-- What the till shows: Alice has kept three of her five, Bob has two. -/
def purseSnapshot : Snapshot where
  value := 5
  rights := ((∅ : BTreeMap String Int).insert "@a" 3).insert "@b" 2
  headroom := none
  tips := (∅ : BTreeMap String String).insert "@a" (purseAddress '2')
  opener := purseAddress '1'

/-- Bob spends what Alice passed to him. -/
def purseTake : Act :=
  let message := purseMessage "take" [("n", .atom (.num 2)), ("from", .atom (.symbol "@b")),
    (PREV, .atom (.symbol (purseAddress '1'))),
    (DEPS, .list [.atom (.symbol (purseAddress '2'))])] (purseAddress '2')
  { address := wireAddress purseHash message
    verb := "take"
    signer := "@b"
    predecessors := citedHashes message.causedBy
    recipients := message.recipientSet
    fields := keywordFields message
    message }

theorem purseTake_operates :
    Operates purseHash purseRule purse.acts purseSnapshot purseTake .decrement 2 where
  consistent := ⟨purseTake, rfl, rfl, rfl, rfl, rfl, rfl⟩
  fresh := by decide +kernel
  same_instance := by decide +kernel
  from_signer := by decide +kernel
  account := by decide +kernel
  reads := ⟨"n", none, by decide +kernel, by decide +kernel, rfl⟩
  positive := by decide
  recipient := fun r h => nomatch h
  issuer := fun h => nomatch h

theorem displayed_budget_spendable_purse :
    observe purseHash purseRule (purse.acts ++ [purseTake])
      = .ready (spend .decrement "@b" 2 purseTake.address purseSnapshot) :=
  (displayed_budget_spendable purseHash_hex (by decide) purse (by decide +kernel)
    purseTake_operates (by decide +kernel) ⟨2, by decide +kernel, by decide⟩).1

/-- The acts of the till: its root, its opener and the transfer. -/
example : purseActs.map (·.verb) = ["hello", "open", "pass"] := by decide

end CbclEscrowSpend
