import Cbcl.EscrowStageProofs
import Cbcl.LedgerProofs

/-!
# Local authorisation implies solvency

Each operation is checked against what its owner's causal past shows.  The proof walks a
justified order and keeps three facts about the operations walked so far:

* the operations of one owner form a single chain, newest first (`Chain`);
* the summary of an operation records exactly the chain that ends in it (`Records`);
* no account is in debt, neither in rights nor in headroom.

Rights and headroom are the same ledger with the roles of increment and decrement exchanged,
so both are proved by one argument over the kinds that gain, lose and move.
-/

namespace CbclEscrowSolvency

open CbclMessage CbclEscrow CbclEscrowTraversal CbclEscrowStage CbclTreeMap CbclKahn CbclLedger

-- ── Flows ────

/-- Which kind of operation adds to a balance, takes from it, or moves it. -/
structure Flow where
  gain : Kind
  loss : Kind
  moved : Kind
  gain_ne_loss : gain ≠ loss
  gain_ne_moved : gain ≠ moved
  loss_ne_moved : loss ≠ moved

/-- Rights grow by increments and shrink by decrements. -/
def rightsFlow : Flow := ⟨.increment, .decrement, .transfer, by decide, by decide, by decide⟩

/-- Headroom grows by decrements and shrinks by increments. -/
def headroomFlow : Flow := ⟨.decrement, .increment, .headroom, by decide, by decide, by decide⟩

/-- The amount of an operation of one kind. -/
def amountIf (k : Kind) (n : Node) : ℤ := if n.kind = k then n.amount else 0

/-- What an operation of one kind sends to an account. -/
def sentIf (k : Kind) (n : Node) (x : String) : ℤ :=
  if n.kind = k ∧ n.recipient = some x then n.amount else 0

/-- What an operation does to a balance. -/
def Flow.delta (f : Flow) (n : Node) (x : String) : ℤ :=
  onAccount n.act.signer (amountIf f.gain n - amountIf f.loss n - amountIf f.moved n) x
    + sentIf f.moved n x

theorem rightsDelta_eq {o : Opening} {n : Node} (h : Sound o n) :
    rightsDelta n = rightsFlow.delta n := by
  funext x
  unfold rightsDelta Flow.delta rightsFlow amountIf sentIf onAccount moveDelta
  cases hk : n.kind with
  | increment => simp
  | decrement => simp
  | transfer =>
      obtain ⟨r, hr, -, -⟩ := h.moves (Or.inl hk)
      simp [hr, onAccount, eq_comm]
  | headroom => simp

theorem headroomDelta_eq {o : Opening} {n : Node} (h : Sound o n) :
    headroomDelta n = headroomFlow.delta n := by
  funext x
  unfold headroomDelta Flow.delta headroomFlow amountIf sentIf onAccount moveDelta
  cases hk : n.kind with
  | increment => simp
  | decrement => simp
  | transfer => simp
  | headroom =>
      obtain ⟨r, hr, -, -⟩ := h.moves (Or.inr hk)
      simp [hr, onAccount, eq_comm]

theorem sentIf_self {o : Opening} {n : Node} (h : Sound o n) (f : Flow) :
    f.moved = .transfer ∨ f.moved = .headroom → sentIf f.moved n n.act.signer = 0 := by
  intro hf
  unfold sentIf
  rw [if_neg]
  rintro ⟨hk, hrec⟩
  obtain ⟨r, hr, -, hne⟩ := h.moves (by rw [hk]; exact hf)
  rw [hr] at hrec
  exact hne (Option.some.inj hrec)

theorem sentIf_nonneg {o : Opening} {n : Node} (h : Sound o n) (k : Kind) (x : String) :
    0 ≤ sentIf k n x := by
  unfold sentIf
  split
  · exact le_of_lt h.positive
  · exact le_refl 0

/-- Others only receive. -/
theorem delta_other {f : Flow} {n : Node} {x : String} (hx : x ≠ n.act.signer) :
    f.delta n x = sentIf f.moved n x := by
  unfold Flow.delta onAccount
  rw [if_neg hx, zero_add]

/-- The owner gains, loses and gives away; it sends nothing to itself. -/
theorem delta_own {o : Opening} {n : Node} (h : Sound o n) (f : Flow)
    (hf : f.moved = .transfer ∨ f.moved = .headroom) :
    f.delta n n.act.signer = amountIf f.gain n - amountIf f.loss n - amountIf f.moved n := by
  unfold Flow.delta onAccount
  rw [if_pos rfl, sentIf_self h f hf, add_zero]

/-- **A covered operation leaves no debt**: what the owner loses or gives away is within its
    balance. -/
theorem delta_covered {o : Opening} {n : Node} (h : Sound o n) (f : Flow)
    (hf : f.moved = .transfer ∨ f.moved = .headroom) {b : ℤ} (hb : 0 ≤ b)
    (hcover : n.kind = f.loss ∨ n.kind = f.moved → n.amount ≤ b) :
    0 ≤ b + f.delta n n.act.signer := by
  have hpos := h.positive
  rw [delta_own h f hf]
  unfold amountIf
  by_cases hgain : n.kind = f.gain
  · rw [if_pos hgain, if_neg (hgain ▸ f.gain_ne_loss), if_neg (hgain ▸ f.gain_ne_moved)]
    omega
  rw [if_neg hgain]
  by_cases hloss : n.kind = f.loss
  · have hcovered := hcover (Or.inl hloss)
    rw [if_pos hloss, if_neg (hloss ▸ f.loss_ne_moved)]
    omega
  rw [if_neg hloss]
  by_cases hmoved : n.kind = f.moved
  · have hcovered := hcover (Or.inr hmoved)
    rw [if_pos hmoved]
    omega
  · rw [if_neg hmoved]
    omega

-- ── Records ────

/-- A quantity of the operation at an address. -/
def part (nodes : BTreeMap String Node) (q : Node → ℤ) (a : String) : ℤ :=
  ((nodes[a]?).map q).getD 0

theorem part_some {nodes : BTreeMap String Node} {q : Node → ℤ} {a : String} {n : Node}
    (h : nodes[a]? = some n) : part nodes q a = q n := by
  unfold part
  rw [h]
  rfl

/-- A summary records some operations of its owner. -/
structure Records (nodes : BTreeMap String Node) (r : Summary) (C : Finset String) : Prop where
  credited : r.credited = ∑ a ∈ C, part nodes (amountIf .increment) a
  debited : r.debited = ∑ a ∈ C, part nodes (amountIf .decrement) a
  sent_rights : ∀ x, balanceOf r.sent_rights x = ∑ a ∈ C, part nodes (sentIf .transfer · x) a
  sent_headroom : ∀ x, balanceOf r.sent_headroom x = ∑ a ∈ C, part nodes (sentIf .headroom · x) a
  out_rights : sumOf r.sent_rights = ∑ a ∈ C, part nodes (amountIf .transfer) a
  out_headroom : sumOf r.sent_headroom = ∑ a ∈ C, part nodes (amountIf .headroom) a

theorem sumOf_eq_sum {m : BTreeMap String Int} {S : Finset String} (h : m.keys.toFinset ⊆ S) :
    sumOf m = ∑ x ∈ S, balanceOf m x := by
  rw [sumOf_eq]
  refine Finset.sum_subset h fun x _ hx => ?_
  unfold balanceOf
  rw [List.mem_toFinset, mem_keys_iff, not_exists] at hx
  cases hv : m[x]? with
  | none => rfl
  | some v => exact absurd hv (hx v)

theorem balanceOf_insert (m : BTreeMap String Int) (k : String) (v : Int) (x : String) :
    balanceOf (m.insert k (balanceOf m k + v)) x = balanceOf m x + onAccount k v x := by
  unfold onAccount
  by_cases hx : x = k
  · rw [if_pos hx, hx]
    unfold balanceOf
    rw [getElem?_insert_eq, if_pos rfl]
    rfl
  · rw [if_neg hx, add_zero]
    unfold balanceOf
    rw [getElem?_insert_eq, if_neg hx]

theorem sumOf_insert (m : BTreeMap String Int) (k : String) (v : Int) :
    sumOf (m.insert k (balanceOf m k + v)) = sumOf m + v := by
  have hsub : m.keys.toFinset ⊆ insert k m.keys.toFinset := Finset.subset_insert _ _
  have hsub' : (m.insert k (balanceOf m k + v)).keys.toFinset ⊆ insert k m.keys.toFinset := by
    intro x hx
    rw [List.mem_toFinset, mem_keys_iff] at hx
    rw [Finset.mem_insert, List.mem_toFinset, mem_keys_iff]
    by_cases hk : x = k
    · exact Or.inl hk
    · rw [getElem?_insert_eq, if_neg hk] at hx
      exact Or.inr hx
  rw [sumOf_eq_sum hsub', sumOf_eq_sum hsub]
  simp only [balanceOf_insert]
  rw [Finset.sum_add_distrib]
  unfold onAccount
  rw [Finset.sum_ite_eq' (insert k m.keys.toFinset) k, if_pos (Finset.mem_insert_self _ _)]

theorem recordSent_ok {sent sent' : BTreeMap String Int} {n : Node}
    (h : recordSent sent n = .ok sent') :
    (∀ x, balanceOf sent' x = balanceOf sent x + if n.recipient = some x then n.amount else 0) ∧
      sumOf sent' = sumOf sent + n.amount := by
  unfold recordSent at h
  cases hr : n.recipient with
  | none => rw [hr] at h; exact nomatch h
  | some r =>
      rw [hr] at h
      obtain ⟨amount, hamount, h⟩ := CbclExcept.bind_ok_iff.mp h
      injection h with h
      have hval : amount = balanceOf sent r + n.amount :=
        (checked_eq_some.mp (orOverflow_ok.mp hamount)).2
      subst h
      rw [hval]
      refine ⟨fun x => ?_, sumOf_insert sent r n.amount⟩
      rw [balanceOf_insert, onAccount]
      by_cases hx : x = r
      · rw [if_pos hx, if_pos (by rw [hx])]
      · rw [if_neg hx, if_neg fun hc => hx (Option.some.inj hc).symm]

theorem Records.default (nodes : BTreeMap String Node) : Records nodes Summary.default ∅ := by
  have hbal : ∀ x, balanceOf (∅ : BTreeMap String Int) x = 0 := by
    intro x
    unfold balanceOf
    rw [Std.ExtTreeMap.getElem?_empty]
    rfl
  have hsum : sumOf (∅ : BTreeMap String Int) = 0 := by
    rw [sumOf_eq]
    exact Finset.sum_eq_zero fun x _ => hbal x
  refine ⟨rfl, rfl, fun x => hbal x, fun x => hbal x, hsum, hsum⟩

/-- What a summary records of one more operation: its amount under its kind, and what it sends. -/
structure Recorded (r next : Summary) (n : Node) : Prop where
  credited : next.credited = r.credited + amountIf .increment n
  debited : next.debited = r.debited + amountIf .decrement n
  sent_rights : ∀ x, balanceOf next.sent_rights x
    = balanceOf r.sent_rights x + sentIf .transfer n x
  sent_headroom : ∀ x, balanceOf next.sent_headroom x
    = balanceOf r.sent_headroom x + sentIf .headroom n x
  out_rights : sumOf next.sent_rights = sumOf r.sent_rights + amountIf .transfer n
  out_headroom : sumOf next.sent_headroom = sumOf r.sent_headroom + amountIf .headroom n

theorem Summary.record_ok {r next : Summary} {n : Node} (h : r.record n = .ok next) :
    Recorded r next n := by
  unfold Summary.record at h
  split at h
  · exact nomatch h
  -- a kind adds to its own part and leaves the others alone
  cases hk : n.kind with
  | increment =>
      rw [hk] at h
      obtain ⟨v, hv, h⟩ := CbclExcept.bind_ok_iff.mp h
      injection h with h
      subst h
      have hval := (checked_eq_some.mp (orOverflow_ok.mp hv)).2
      constructor <;> simp [amountIf, sentIf, hk, hval]
  | decrement =>
      rw [hk] at h
      obtain ⟨v, hv, h⟩ := CbclExcept.bind_ok_iff.mp h
      injection h with h
      subst h
      have hval := (checked_eq_some.mp (orOverflow_ok.mp hv)).2
      constructor <;> simp [amountIf, sentIf, hk, hval]
  | transfer =>
      rw [hk] at h
      obtain ⟨sent, hsent, h⟩ := CbclExcept.bind_ok_iff.mp h
      injection h with h
      subst h
      obtain ⟨hbal, htot⟩ := recordSent_ok hsent
      constructor <;> simp [amountIf, sentIf, hk, hbal, htot]
  | headroom =>
      rw [hk] at h
      obtain ⟨sent, hsent, h⟩ := CbclExcept.bind_ok_iff.mp h
      injection h with h
      subst h
      obtain ⟨hbal, htot⟩ := recordSent_ok hsent
      constructor <;> simp [amountIf, sentIf, hk, hbal, htot]

/-- **Recording an operation extends what is recorded by it.** -/
theorem Records.record {nodes : BTreeMap String Node} {r next : Summary} {C : Finset String}
    (h : Records nodes r C) {a : String} {n : Node} (hn : nodes[a]? = some n) (hfresh : a ∉ C)
    (hrec : r.record n = .ok next) : Records nodes next (insert a C) := by
  have hsum : ∀ q : Node → ℤ, ∑ b ∈ insert a C, part nodes q b
      = ∑ b ∈ C, part nodes q b + q n := by
    intro q
    rw [Finset.sum_insert hfresh, part_some hn, add_comm]
  obtain ⟨hc, hd, hsr, hsh, hor, hoh⟩ := Summary.record_ok hrec
  constructor
  · rw [hsum, hc, h.credited]
  · rw [hsum, hd, h.debited]
  · intro x
    rw [hsum, hsr, h.sent_rights]
  · intro x
    rw [hsum, hsh, h.sent_headroom]
  · rw [hsum, hor, h.out_rights]
  · rw [hsum, hoh, h.out_headroom]

-- ── Local budgets ────

theorem ownBalance_ok {initial credited debited v : Int} {sent : BTreeMap String Int}
    (h : ownBalance initial credited debited sent = .ok v) :
    v = initial + credited - debited - sumOf sent := by
  unfold ownBalance at h
  obtain ⟨outgoing, hout, h⟩ := CbclExcept.bind_ok_iff.mp h
  obtain ⟨w, hw, hv⟩ := Option.bind_eq_some_iff.mp (orOverflow_ok.mp h)
  obtain ⟨u, hu, hw⟩ := Option.bind_eq_some_iff.mp hw
  rw [(checked_eq_some.mp hv).2, (checked_eq_some.mp hw).2, (checked_eq_some.mp hu).2,
    total_eq (orOverflow_ok.mp hout)]

/-- The accounts other than the owner that a tip map names. -/
def others (tips : BTreeMap String String) (owner : String) : Finset String :=
  {p ∈ tips.keys.toFinset | p ≠ owner}

/-- The tip of an account. -/
def tipOf (tips : BTreeMap String String) (p : String) : String := (tips[p]?).getD ""

theorem mem_others {tips : BTreeMap String String} {owner p : String} (h : p ∈ others tips owner) :
    p ≠ owner ∧ tips[p]? = some (tipOf tips p) := by
  obtain ⟨hkey, hne⟩ := Finset.mem_filter.mp h
  obtain ⟨tip, htip⟩ := (mem_keys_iff tips p).mp (List.mem_toFinset.mp hkey)
  refine ⟨hne, ?_⟩
  unfold tipOf
  rw [htip]
  rfl

/-- What the tips in view have sent to an account, as a sum over their owners. -/
theorem sum_incoming (owner : String) (s : Summaries) (sent : Summary → BTreeMap String Int)
    (tips : BTreeMap String String) :
    ((tips.toList.filter (·.1 ≠ owner)).map fun e =>
        balanceOf (sent (summaryOf s e.2)) owner).sum
      = ∑ p ∈ others tips owner, balanceOf (sent (summaryOf s (tipOf tips p))) owner := by
  have hlist : ((tips.toList.filter (·.1 ≠ owner)).map fun e =>
        balanceOf (sent (summaryOf s e.2)) owner)
      = (tips.keys.filter (· ≠ owner)).map fun p =>
        balanceOf (sent (summaryOf s (tipOf tips p))) owner := by
    rw [← Std.ExtTreeMap.map_fst_toList_eq_keys, List.filter_map, List.map_map]
    refine List.map_congr_left fun e he => ?_
    have hget := (mem_toList_iff tips e.1 e.2).mp (List.mem_filter.mp he).1
    show _ = balanceOf (sent (summaryOf s (tipOf tips e.1))) owner
    unfold tipOf
    rw [hget]
    rfl
  rw [hlist, ← List.sum_toFinset _ ((nodup_keys tips).filter _)]
  congr 1
  ext p
  simp [others]

theorem addIncoming_ok {owner : String} {s : Summaries} {sent : Summary → BTreeMap String Int}
    {tips : BTreeMap String String} {b v : Int}
    (h : addIncoming owner s sent tips b = .ok v) :
    v = b + ∑ p ∈ others tips owner, balanceOf (sent (summaryOf s (tipOf tips p))) owner := by
  rw [← sum_incoming]
  have hstep : ∀ (done : List (String × String)) (e : String × String) (w w' : Int),
      e ∈ tips.toList.filter (·.1 ≠ owner) →
      w = b + (done.map fun e => balanceOf (sent (summaryOf s e.2)) owner).sum →
      orOverflow (checkedAdd w (((sent (summaryOf s e.2))[owner]?).getD 0)) = .ok w' →
      w' = b + ((done ++ [e]).map fun e => balanceOf (sent (summaryOf s e.2)) owner).sum := by
    intro done e w w' _ hI hadd
    rw [List.map_append, List.sum_append, (checked_eq_some.mp (orOverflow_ok.mp hadd)).2, hI]
    simp only [List.map_cons, List.map_nil, List.sum_cons, List.sum_nil, balanceOf]
    ring
  exact CbclExcept.foldlM_inv hstep (by simp) h

/-- What an operation can count on: its owner's own balance and what the tips in view have
    sent to it. -/
theorem localBudgets_ok {owner : String} {initial : BTreeMap String Int}
    {headroom : Option (BTreeMap String Int)} {own : Summary} {tips : BTreeMap String String}
    {s : Summaries} {rights : Int} {space : Option Int}
    (h : localBudgets owner initial headroom own tips s = .ok (rights, space)) :
    rights = balanceOf initial owner + own.credited - own.debited - sumOf own.sent_rights
        + ∑ p ∈ others tips owner, balanceOf (summaryOf s (tipOf tips p)).sent_rights owner ∧
      ∀ m, headroom = some m → space = some (balanceOf m owner + own.debited - own.credited
        - sumOf own.sent_headroom
        + ∑ p ∈ others tips owner, balanceOf (summaryOf s (tipOf tips p)).sent_headroom owner) := by
  unfold localBudgets at h
  obtain ⟨r0, hr0, h⟩ := CbclExcept.bind_ok_iff.mp h
  obtain ⟨s0, hs0, h⟩ := CbclExcept.bind_ok_iff.mp h
  obtain ⟨r1, hr1, h⟩ := CbclExcept.bind_ok_iff.mp h
  obtain ⟨s1, hs1, h⟩ := CbclExcept.bind_ok_iff.mp h
  injection h with h
  injection h with hrights hspace
  subst hrights hspace
  refine ⟨?_, fun m hm => ?_⟩
  · rw [addIncoming_ok hr1, ownBalance_ok hr0]
    rfl
  · subst hm
    rw [Option.mapM_some] at hs0
    obtain ⟨v, hv, hs0⟩ := CbclExcept.bind_ok_iff.mp hs0
    injection hs0 with hs0
    subst hs0
    rw [Option.mapM_some] at hs1
    obtain ⟨w, hw, hs1⟩ := CbclExcept.bind_ok_iff.mp hs1
    injection hs1 with hs1
    subst hs1
    rw [addIncoming_ok hw, ownBalance_ok hv]
    rfl

-- ── Chains ────

/-- The operations of an owner from one of them back to the first, newest first. -/
inductive Chain (nodes : BTreeMap String Node) (opener owner : String) : List String → Prop where
  | nil : Chain nodes opener owner []
  | first {a : String} {n : Node} (hn : nodes[a]? = some n) (howner : n.act.signer = owner)
      (hprev : n.prev = opener) : Chain nodes opener owner [a]
  | next {a b : String} {c : List String} {n : Node} (hn : nodes[b]? = some n)
      (howner : n.act.signer = owner) (hprev : n.prev = a) (hne : a ≠ opener)
      (hc : Chain nodes opener owner (a :: c)) : Chain nodes opener owner (b :: a :: c)

/-- A nonempty chain has a first operation. -/
theorem Chain.exists_first {nodes : BTreeMap String Node} {opener owner : String}
    {c : List String} (h : Chain nodes opener owner c) (hne : c ≠ []) :
    ∃ z ∈ c, ∃ n, nodes[z]? = some n ∧ n.act.signer = owner ∧ n.prev = opener := by
  induction h with
  | nil => exact absurd rfl hne
  | @first a n hn howner hprev => exact ⟨a, List.mem_singleton_self a, n, hn, howner, hprev⟩
  | next hn howner hprev hne' hc ih =>
      obtain ⟨z, hz, hn⟩ := ih (by simp)
      exact ⟨z, List.mem_cons_of_mem _ hz, hn⟩

/-- Every operation of a chain but the newest is followed by another one. -/
theorem Chain.exists_next {nodes : BTreeMap String Node} {opener owner t : String}
    {c : List String} (h : Chain nodes opener owner (t :: c)) :
    ∀ y ∈ c, ∃ z ∈ t :: c, ∃ n, nodes[z]? = some n ∧ n.act.signer = owner ∧ n.prev = y := by
  generalize hl : t :: c = l at h
  induction h generalizing t c with
  | nil => exact nomatch hl
  | first hn howner hprev =>
      injection hl with _ hc
      subst hc
      intro y hy
      exact nomatch hy
  | @next a b c' n hn howner hprev hne hc ih =>
      injection hl with _ hc
      subst hc
      intro y hy
      rcases List.mem_cons.mp hy with rfl | hy
      · exact ⟨b, List.mem_cons_self .., n, hn, howner, hprev⟩
      · obtain ⟨z, hz, hn'⟩ := ih rfl y hy
        exact ⟨z, List.mem_cons_of_mem _ hz, hn'⟩

/-- The chain that ends in an operation is determined by it. -/
theorem Chain.unique {nodes : BTreeMap String Node} {opener owner : String} {c : List String}
    (h : Chain nodes opener owner c) : ∀ {t : String} {d d' : List String}, c = t :: d →
      Chain nodes opener owner (t :: d') → d = d' := by
  induction h with
  | nil => intro t d d' heq; exact nomatch heq
  | @first a n hn howner hprev =>
      intro t d d' heq h'
      injection heq with ht hd
      subst ht hd
      cases h' with
      | first => rfl
      | next hn' _ hprev' hne' _ =>
          rw [hn] at hn'
          injection hn' with hn'
          subst hn'
          exact absurd (hprev'.symm.trans hprev) hne'
  | @next a b c n hn howner hprev hne hc ih =>
      intro t d d' heq h'
      injection heq with ht hd
      subst ht hd
      cases h' with
      | first hn' _ hprev' =>
          rw [hn] at hn'
          injection hn' with hn'
          subst hn'
          exact absurd (hprev.symm.trans hprev') hne
      | next hn' _ hprev' _ hc' =>
          rw [hn] at hn'
          injection hn' with hn'
          subst hn'
          have heq : a = _ := hprev.symm.trans hprev'
          subst heq
          rw [ih rfl hc']

-- ── Walking a justified order ────

/-- The owner of the operation at an address. -/
def ownerOf (nodes : BTreeMap String Node) (a : String) : String :=
  ((nodes[a]?).map (·.act.signer)).getD ""

theorem ownerOf_some {nodes : BTreeMap String Node} {a : String} {n : Node}
    (h : nodes[a]? = some n) : ownerOf nodes a = n.act.signer := by
  unfold ownerOf
  rw [h]
  rfl

/-- The operations as a ledger of one flow. -/
def ledger (nodes : BTreeMap String Node) (f : Flow) : Ledger String String where
  owner := ownerOf nodes
  delta a x := part nodes (f.delta · x) a

/-- The links and checks of a set of operations. -/
structure Checked (c : CounterRule) (o : Opening) (ops : Operations) : Prop where
  opened : Opened c o
  filed : Filed c o ops
  linked : ∀ (a : String) (n : Node), ops.nodes[a]? = some n → Linked o.op.address ops.nodes n

/-- What holds of the operations walked so far. -/
structure Walked (o : Opening) (nodes : BTreeMap String Node) (s : Summaries)
    (pre : List String) : Prop where
  /-- the operations of an owner form one chain -/
  latest : ∀ owner, ∃ c, Chain nodes o.op.address owner c ∧
    ∀ a, a ∈ c ↔ a ∈ pre ∧ ownerOf nodes a = owner
  /-- the summary of an operation records the chain that ends in it -/
  records : ∀ a ∈ pre, ∃ c, Chain nodes o.op.address (ownerOf nodes a) (a :: c) ∧
    (∀ b ∈ a :: c, b ∈ pre ∧ ownerOf nodes b = ownerOf nodes a) ∧
    Records nodes (summaryOf s a) (a :: c).toFinset
  /-- no account is in debt -/
  rights : (ledger nodes rightsFlow).Solvent (balanceOf o.initial) pre.toFinset
  headroom : ∀ h, o.headroom = some h →
    (ledger nodes headroomFlow).Solvent (balanceOf h) pre.toFinset

/-- Tips are filed under their owners. -/
theorem tips_owner {o : Opening} {nodes : BTreeMap String Node} {order : List String}
    {s : Summaries} (h : Justified o nodes order s) {a : String} (ha : a ∈ order) :
    Entries (fun p tip => ownerOf nodes tip = p) (summaryOf s a).tips := by
  refine h.ordered.mem_of_closed (P := fun a =>
    Entries (fun p tip => ownerOf nodes tip = p) (summaryOf s a).tips) (fun b hb hpast => ?_) a ha
  obtain ⟨m, hm⟩ := (h.mem_order b).mp hb
  obtain ⟨r, hr, hj⟩ := h.judged b m hm
  obtain ⟨-, -, next, -, -, -, hrec⟩ := judge_ok hj
  rw [summaryOf, hr, hrec]
  refine (seenTips_entries fun d hd => ?_).insert ?_
  · rw [← dependenciesOf_some hm] at hd
    exact hpast d hd
  · rw [h.keyed b m hm, ownerOf_some hm]

section Walk

variable {c : CounterRule} {o : Opening} {ops : Operations} (checked : Checked c o ops)
include checked

theorem giving (f : Flow) (ops' : Finset String) :
    (ledger ops.nodes f).Giving ops' := by
  intro a _ x hx
  show 0 ≤ part ops.nodes (f.delta · x) a
  cases hn : ops.nodes[a]? with
  | none =>
      unfold part
      rw [hn]
      exact le_refl 0
  | some n =>
      have hne : x ≠ n.act.signer := by
        intro heq
        apply hx
        show x = ownerOf ops.nodes a
        rw [ownerOf_some hn, heq]
      rw [part_some hn, delta_other hne]
      exact sentIf_nonneg (checked.filed.sound hn) _ _

/-- The owner's own effects on its balance. -/
theorem sum_own (f : Flow) (hf : f.moved = .transfer ∨ f.moved = .headroom) {x : String}
    {C : Finset String} (hC : ∀ a ∈ C, ∃ n, ops.nodes[a]? = some n ∧ n.act.signer = x) :
    ∑ a ∈ C, part ops.nodes (f.delta · x) a
      = ∑ a ∈ C, part ops.nodes (amountIf f.gain) a - ∑ a ∈ C, part ops.nodes (amountIf f.loss) a
        - ∑ a ∈ C, part ops.nodes (amountIf f.moved) a := by
  rw [← Finset.sum_sub_distrib, ← Finset.sum_sub_distrib]
  refine Finset.sum_congr rfl fun a ha => ?_
  obtain ⟨n, hn, hx⟩ := hC a ha
  rw [part_some hn, part_some hn, part_some hn, part_some hn, ← hx]
  unfold Flow.delta onAccount
  rw [if_pos rfl, sentIf_self (checked.filed.sound hn) f hf, add_zero]

omit checked in
/-- What other owners' operations bring to an account. -/
theorem sum_sent (f : Flow) {x : String} {C : Finset String}
    (hC : ∀ a ∈ C, ∃ n, ops.nodes[a]? = some n ∧ n.act.signer ≠ x) :
    ∑ a ∈ C, part ops.nodes (f.delta · x) a = ∑ a ∈ C, part ops.nodes (sentIf f.moved · x) a := by
  refine Finset.sum_congr rfl fun a ha => ?_
  obtain ⟨n, hn, hx⟩ := hC a ha
  rw [part_some hn, part_some hn]
  exact delta_other (Ne.symm hx)

/-- **A local budget is at most the balance.** -/
theorem budget_le_balance (f : Flow) (hf : f.moved = .transfer ∨ f.moved = .headroom)
    (sent : Summary → BTreeMap String Int) {s : Summaries} {pre : List String}
    (hpre : ∀ a ∈ pre, ∃ n, ops.nodes[a]? = some n)
    (hrecords : ∀ a ∈ pre, ∃ C : Finset String,
      (∀ b ∈ C, b ∈ pre ∧ ownerOf ops.nodes b = ownerOf ops.nodes a) ∧
      ∀ x, balanceOf (sent (summaryOf s a)) x = ∑ b ∈ C, part ops.nodes (sentIf f.moved · x) b)
    (initial : String → ℤ) (x : String) {tips : BTreeMap String String}
    (htips : Entries (fun p tip => tip ∈ pre ∧ ownerOf ops.nodes tip = p) tips)
    {C : Finset String} (hC : ∀ a, a ∈ C ↔ a ∈ pre ∧ ownerOf ops.nodes a = x) :
    initial x + ∑ a ∈ C, part ops.nodes (amountIf f.gain) a
        - ∑ a ∈ C, part ops.nodes (amountIf f.loss) a
        - ∑ a ∈ C, part ops.nodes (amountIf f.moved) a
        + ∑ p ∈ others tips x, balanceOf (sent (summaryOf s (tipOf tips p))) x
      ≤ (ledger ops.nodes f).balance initial pre.toFinset x := by
  classical
  choose! chain hchain using hrecords
  have htip : ∀ p ∈ others tips x, p ≠ x ∧ tipOf tips p ∈ pre ∧
      ownerOf ops.nodes (tipOf tips p) = p := by
    intro p hp
    obtain ⟨hne, hget⟩ := mem_others hp
    exact ⟨hne, htips p _ hget⟩
  have hvisible := Ledger.visible_le_balance initial (giving checked f pre.toFinset) x
    (others tips x) (fun p => chain (tipOf tips p)) (fun p hp => (htip p hp).1) fun p hp a ha => by
      obtain ⟨-, hmem, howner⟩ := htip p hp
      obtain ⟨hin, hown⟩ := (hchain _ hmem).1 a ha
      exact ⟨List.mem_toFinset.mpr hin, hown.trans howner⟩
  have hfilter : ({a ∈ pre.toFinset | (ledger ops.nodes f).owner a = x} : Finset String) = C := by
    ext a
    rw [Finset.mem_filter, List.mem_toFinset, hC]
    rfl
  have hown := sum_own checked f hf (x := x) (C := C) fun a ha => by
    obtain ⟨hin, hx⟩ := (hC a).mp ha
    obtain ⟨n, hn⟩ := hpre a hin
    exact ⟨n, hn, by rw [← ownerOf_some hn]; exact hx⟩
  have hincome : ∑ p ∈ others tips x, ∑ a ∈ chain (tipOf tips p), part ops.nodes (f.delta · x) a
      = ∑ p ∈ others tips x, balanceOf (sent (summaryOf s (tipOf tips p))) x := by
    refine Finset.sum_congr rfl fun p hp => ?_
    obtain ⟨hne, hmem, howner⟩ := htip p hp
    rw [(hchain _ hmem).2 x]
    refine sum_sent f fun a ha => ?_
    obtain ⟨hin, hown⟩ := (hchain _ hmem).1 a ha
    obtain ⟨n, hn⟩ := hpre a hin
    refine ⟨n, hn, ?_⟩
    rw [← ownerOf_some hn, hown, howner]
    exact hne
  rw [hfilter] at hvisible
  have hdelta : ∀ a y, (ledger ops.nodes f).delta a y = part ops.nodes (f.delta · y) a :=
    fun _ _ => rfl
  simp only [hdelta] at hvisible
  rw [hown, hincome] at hvisible
  linarith

/-- The owner's chain before an operation is what its previous link names. -/
theorem chain_before {s : Summaries} {pre : List String} (h : Walked o ops.nodes s pre)
    {a : String} {n : Node} (hn : ops.nodes[a]? = some n) (hfresh : a ∉ pre)
    (hdeps : ∀ d ∈ n.dependencies o.op.address, d ∈ pre) :
    ∃ ch, Chain ops.nodes o.op.address n.act.signer (a :: ch) ∧
      (∀ b, b ∈ ch ↔ b ∈ pre ∧ ownerOf ops.nodes b = n.act.signer) ∧
      Records ops.nodes (ownSummary o.op.address s n) ch.toFinset := by
  obtain ⟨ch, hch, hmem⟩ := h.latest n.act.signer
  -- a second successor of one previous link would be a fork
  have hnofork : ∀ z ∈ ch, ∀ m, ops.nodes[z]? = some m → m.act.signer = n.act.signer →
      m.prev ≠ n.prev := by
    intro z hz m hm howner hprev
    rw [checked.filed.unique hm hn howner hprev] at hz
    exact hfresh ((hmem a).mp hz).1
  by_cases hp : n.prev = o.op.address
  · have hnil : ch = [] := by
      by_contra hne
      obtain ⟨z, hz, m, hm, howner, hprev⟩ := hch.exists_first hne
      exact hnofork z hz m hm howner (hprev.trans hp.symm)
    subst hnil
    refine ⟨[], Chain.first hn rfl hp, hmem, ?_⟩
    unfold ownSummary
    rw [if_pos hp, List.toFinset_nil]
    exact Records.default ops.nodes
  · -- the previous link is an own operation, and the newest one
    have hpre : n.prev ∈ pre := hdeps _ (mem_dependencies.mpr ⟨List.mem_cons_self .., hp⟩)
    obtain ⟨parent, hparent, howner⟩ :=
      (checked.linked a n hn n.prev (List.mem_cons_self ..)).resolve_left hp
    have hprevOwner : ownerOf ops.nodes n.prev = n.act.signer := by
      rw [ownerOf_some hparent]
      exact howner rfl
    have hin : n.prev ∈ ch := (hmem n.prev).mpr ⟨hpre, hprevOwner⟩
    cases ch with
    | nil => exact nomatch hin
    | cons t rest =>
        have hhead : n.prev = t := by
          rcases List.mem_cons.mp hin with heq | htail
          · exact heq
          · obtain ⟨z, hz, m, hm, hown, hprev⟩ := hch.exists_next n.prev htail
            exact absurd hprev (hnofork z hz m hm hown)
        subst hhead
        refine ⟨n.prev :: rest, Chain.next hn rfl rfl hp hch, hmem, ?_⟩
        obtain ⟨d, hd, -, hrec⟩ := h.records n.prev hpre
        rw [hprevOwner] at hd
        rw [hch.unique rfl hd]
        unfold ownSummary
        rw [if_neg hp]
        exact hrec

omit checked in
/-- One more operation goes to the front of its owner's chain. -/
theorem Walked.latest_step {s : Summaries} {pre : List String} (h : Walked o ops.nodes s pre)
    {a : String} {n : Node} (hn : ops.nodes[a]? = some n) {ch : List String}
    (hchain : Chain ops.nodes o.op.address n.act.signer (a :: ch))
    (hch : ∀ b, b ∈ ch ↔ b ∈ pre ∧ ownerOf ops.nodes b = n.act.signer) (owner : String) :
    ∃ c, Chain ops.nodes o.op.address owner c ∧
      ∀ b, b ∈ c ↔ b ∈ pre ++ [a] ∧ ownerOf ops.nodes b = owner := by
  have howner : ownerOf ops.nodes a = n.act.signer := ownerOf_some hn
  by_cases hown : owner = n.act.signer
  · subst hown
    refine ⟨a :: ch, hchain, fun b => ?_⟩
    rw [List.mem_cons, List.mem_append, List.mem_singleton, hch]
    constructor
    · rintro (rfl | ⟨hb, hbo⟩)
      · exact ⟨Or.inr rfl, howner⟩
      · exact ⟨Or.inl hb, hbo⟩
    · rintro ⟨hb | hb, hbo⟩
      · exact Or.inr ⟨hb, hbo⟩
      · exact Or.inl hb
  · obtain ⟨d, hd, hmem⟩ := h.latest owner
    refine ⟨d, hd, fun b => ?_⟩
    rw [hmem, List.mem_append, List.mem_singleton]
    constructor
    · rintro ⟨hb, hbo⟩
      exact ⟨Or.inl hb, hbo⟩
    · rintro ⟨hb | rfl, hbo⟩
      · exact ⟨hb, hbo⟩
      · exact absurd (hbo.symm.trans howner) hown

omit checked in
/-- The summary of one more operation records its chain. -/
theorem Walked.records_step {s : Summaries} {pre : List String} (h : Walked o ops.nodes s pre)
    {a : String} {n : Node} (hn : ops.nodes[a]? = some n) {ch : List String}
    (hchain : Chain ops.nodes o.op.address n.act.signer (a :: ch))
    (hch : ∀ b, b ∈ ch ↔ b ∈ pre ∧ ownerOf ops.nodes b = n.act.signer)
    (hrecords : Records ops.nodes (summaryOf s a) (a :: ch).toFinset) :
    ∀ b ∈ pre ++ [a], ∃ c, Chain ops.nodes o.op.address (ownerOf ops.nodes b) (b :: c) ∧
      (∀ e ∈ b :: c, e ∈ pre ++ [a] ∧ ownerOf ops.nodes e = ownerOf ops.nodes b) ∧
      Records ops.nodes (summaryOf s b) (b :: c).toFinset := by
  intro b hb
  have howner : ownerOf ops.nodes a = n.act.signer := ownerOf_some hn
  rcases List.mem_append.mp hb with hb | hb
  · obtain ⟨d, hd, hmem, hrec⟩ := h.records b hb
    exact ⟨d, hd, fun e he => ⟨List.mem_append_left _ (hmem e he).1, (hmem e he).2⟩, hrec⟩
  · rw [List.mem_singleton.mp hb, howner]
    refine ⟨ch, hchain, fun e he => ?_, hrecords⟩
    rcases List.mem_cons.mp he with rfl | he
    · exact ⟨List.mem_append_right _ (List.mem_singleton_self e), howner⟩
    · exact ⟨List.mem_append_left _ ((hch e).mp he).1, ((hch e).mp he).2⟩

/-- A covered operation leaves every account of a flow solvent. -/
theorem solvent_step (f : Flow) (hf : f.moved = .transfer ∨ f.moved = .headroom)
    {initial : String → ℤ} {pre : List String}
    (h : (ledger ops.nodes f).Solvent initial pre.toFinset) {a : String} {n : Node}
    (hn : ops.nodes[a]? = some n) (hfresh : a ∉ pre)
    (hcover : n.kind = f.loss ∨ n.kind = f.moved →
      n.amount ≤ (ledger ops.nodes f).balance initial pre.toFinset n.act.signer) :
    (ledger ops.nodes f).Solvent initial (pre ++ [a]).toFinset := by
  have hinsert : (pre ++ [a]).toFinset = insert a pre.toFinset := by
    ext b
    simp
  rw [hinsert]
  refine Ledger.solvent_insert h (by rwa [List.mem_toFinset])
    (giving checked f {a} a (Finset.mem_singleton_self a)) ?_
  show 0 ≤ (ledger ops.nodes f).balance _ _ (ownerOf ops.nodes a)
    + part ops.nodes (f.delta · (ownerOf ops.nodes a)) a
  rw [ownerOf_some hn, part_some hn]
  exact delta_covered (checked.filed.sound hn) f hf (h n.act.signer) hcover

omit checked in
/-- What a walked operation has sent is what some operations of its owner sent. -/
theorem Walked.sent {s : Summaries} {pre : List String} (h : Walked o ops.nodes s pre) (k : Kind)
    {sent : Summary → BTreeMap String Int}
    (hsent : ∀ r C, Records ops.nodes r C → ∀ x, balanceOf (sent r) x
      = ∑ b ∈ C, part ops.nodes (sentIf k · x) b) :
    ∀ b ∈ pre, ∃ C : Finset String,
      (∀ d ∈ C, d ∈ pre ∧ ownerOf ops.nodes d = ownerOf ops.nodes b) ∧
      ∀ x, balanceOf (sent (summaryOf s b)) x = ∑ d ∈ C, part ops.nodes (sentIf k · x) d := by
  intro b hb
  obtain ⟨d, -, hd, hrecb⟩ := h.records b hb
  exact ⟨(b :: d).toFinset, fun e he => hd e (List.mem_toFinset.mp he), hsent _ _ hrecb⟩

/-- **One more operation keeps what holds of the walked ones.** -/
theorem Walked.step {s : Summaries} {order pre : List String}
    (justified : Justified o ops.nodes order s) (hsub : ∀ a ∈ pre, a ∈ order)
    (hclosed : ∀ a ∈ pre, ∀ d ∈ dependenciesOf o.op.address ops.nodes a, d ∈ pre)
    (h : Walked o ops.nodes s pre) {a : String} {n : Node} (hn : ops.nodes[a]? = some n)
    (hfresh : a ∉ pre) (hdeps : ∀ d ∈ n.dependencies o.op.address, d ∈ pre) :
    Walked o ops.nodes s (pre ++ [a]) := by
  obtain ⟨ch, hchain, hch, hrec⟩ := chain_before checked h hn hfresh hdeps
  obtain ⟨r, hr, hj⟩ := justified.judged a n hn
  obtain ⟨rights, space, next, hbudgets, hafford, hrecord, hr'⟩ := judge_ok hj
  obtain ⟨hrights, hspace⟩ := localBudgets_ok hbudgets
  have hset : ∀ b, b ∈ ch.toFinset ↔ b ∈ pre ∧ ownerOf ops.nodes b = n.act.signer := by
    intro b
    rw [List.mem_toFinset, hch]
  have hnodes : ∀ b ∈ pre, ∃ m, ops.nodes[b]? = some m :=
    fun b hb => (justified.mem_order b).mp (hsub b hb)
  -- the tips in view are walked operations of the accounts they are filed under
  have htips : Entries (fun p tip => tip ∈ pre ∧ ownerOf ops.nodes tip = p)
      (seenTips o.op.address s n (ownSummary o.op.address s n)) := by
    refine seenTips_entries fun d hd p tip hget => ?_
    obtain ⟨m, hm⟩ := hnodes d (hdeps d hd)
    exact ⟨justified.tips hclosed hm (hdeps d hd) p tip hget,
      tips_owner justified (hsub d (hdeps d hd)) p tip hget⟩
  have hrecords : Records ops.nodes (summaryOf s a) (a :: ch).toFinset := by
    have hsummary : summaryOf s a = r := by rw [summaryOf, hr]; rfl
    have hnew := hrec.record hn (fun hc => hfresh ((hset a).mp hc).1) hrecord
    rw [hsummary, hr', List.toFinset_cons]
    exact ⟨hnew.credited, hnew.debited, hnew.sent_rights, hnew.sent_headroom, hnew.out_rights,
      hnew.out_headroom⟩
  refine ⟨h.latest_step hn hchain hch, h.records_step hn hchain hch hrecords, ?_, fun m hm => ?_⟩
  · -- a debit or a transfer was within the rights in view, which are at most the balance
    refine solvent_step checked rightsFlow (Or.inl rfl) h.rights hn hfresh fun hk => ?_
    have hle := budget_le_balance checked rightsFlow (Or.inl rfl) (·.sent_rights) hnodes
      (h.sent .transfer fun _ _ hr => hr.sent_rights) (balanceOf o.initial) n.act.signer htips hset
    have hwithin : n.amount ≤ rights := hafford rights (by rcases hk with hk | hk <;> rw [hk] <;> rfl)
    rw [hrights, hrec.credited, hrec.debited, hrec.out_rights] at hwithin
    exact hwithin.trans hle
  · -- a credit or a grant of headroom was within the headroom in view
    refine solvent_step checked headroomFlow (Or.inr rfl) (h.headroom m hm) hn hfresh fun hk => ?_
    have hle := budget_le_balance checked headroomFlow (Or.inr rfl) (·.sent_headroom) hnodes
      (h.sent .headroom fun _ _ hr => hr.sent_headroom) (balanceOf m) n.act.signer htips hset
    have hwithin := hafford _ ((by rcases hk with hk | hk <;> rw [hk] <;> rfl :
      (if n.kind.spendsHeadroom then space else some rights) = space).trans (hspace m hm))
    rw [hrec.credited, hrec.debited, hrec.out_headroom] at hwithin
    exact hwithin.trans hle

/-- A justified order can be walked to its end. -/
theorem walked_order {s : Summaries} {order : List String}
    (justified : Justified o ops.nodes order s) : Walked o ops.nodes s order := by
  have hgen : ∀ pre post, order = pre ++ post → Walked o ops.nodes s pre := by
    intro pre
    induction pre using List.reverseRecOn with
    | nil =>
        intro _ _
        refine ⟨fun owner => ⟨[], Chain.nil, fun a => by simp⟩, (fun a ha => nomatch ha), ?_,
          fun h hh => ?_⟩
        · rw [List.toFinset_nil]
          exact Ledger.solvent_empty _ checked.opened.natural.balance
        · rw [List.toFinset_nil]
          exact Ledger.solvent_empty _ (checked.opened.headroom h hh).2.1.balance
    | append_singleton pre a ih =>
        intro post heq
        have heq' : order = pre ++ a :: post := by rw [heq]; simp
        have hmem : ∀ b ∈ pre, b ∈ order := by
          intro b hb
          rw [heq']
          exact List.mem_append_left _ hb
        obtain ⟨n, hn⟩ := (justified.mem_order a).mp (by rw [heq']; simp)
        have hdeps := justified.ordered pre a post heq'
        refine Walked.step checked justified hmem ?_ (ih (a :: post) heq') hn ?_ ?_
        · -- what stands before is closed under dependencies
          intro b hb d hd
          obtain ⟨l, r, hsplit⟩ := List.append_of_mem hb
          have horder := justified.ordered l b (r ++ a :: post) (by rw [heq', hsplit]; simp) d hd
          rw [hsplit]
          exact List.mem_append_left _ horder
        · intro hin
          have hnodup := justified.nodup
          rw [heq', List.nodup_append] at hnodup
          exact hnodup.2.2 a hin a (List.mem_cons_self ..) rfl
        · rw [← dependenciesOf_some hn]
          exact hdeps
  exact hgen order [] (by simp)

/-- The balances of the code are those of the ledger. -/
theorem sumDelta_eq {delta : Node → String → ℤ} {f : Flow}
    (hdelta : ∀ n, Sound o n → delta n = f.delta n) (initial : String → ℤ) (x : String) :
    initial x + sumDelta delta (valuesOf ops.nodes) x
      = (ledger ops.nodes f).balance initial ops.nodes.keys.toFinset x := by
  unfold sumDelta Ledger.balance
  rw [sum_valuesOf ops.nodes (delta · x)]
  congr 1
  refine Finset.sum_congr rfl fun a ha => ?_
  obtain ⟨n, hn⟩ := (mem_keys_iff ops.nodes a).mp (List.mem_toFinset.mp ha)
  show part ops.nodes (delta · x) a = part ops.nodes (f.delta · x) a
  rw [part_some hn, part_some hn, hdelta n (checked.filed.sound hn)]

/-- What one operation creates or destroys, over all accounts: transfers cancel. -/
theorem sum_delta_accounts (f : Flow) (hf : f.moved = .transfer ∨ f.moved = .headroom)
    {a : String} {n : Node} (hn : ops.nodes[a]? = some n) :
    ∑ x ∈ o.initial.keys.toFinset, part ops.nodes (f.delta · x) a
      = amountIf f.gain n - amountIf f.loss n := by
  have hsound := checked.filed.sound hn
  have hmem : ∀ {x}, x ∈ o.initial → x ∈ o.initial.keys.toFinset := by
    intro x hx
    rw [List.mem_toFinset, Std.ExtTreeMap.mem_keys]
    exact hx
  have hpart : ∀ x, part ops.nodes (f.delta · x) a = f.delta n x := fun x => part_some hn
  simp only [hpart]
  unfold Flow.delta
  have hsigner : ∑ x ∈ o.initial.keys.toFinset, onAccount n.act.signer
        (amountIf f.gain n - amountIf f.loss n - amountIf f.moved n) x
      = amountIf f.gain n - amountIf f.loss n - amountIf f.moved n := by
    unfold onAccount
    rw [Finset.sum_ite_eq', if_pos (hmem hsound.owner)]
  have hsent : ∑ x ∈ o.initial.keys.toFinset, sentIf f.moved n x = amountIf f.moved n := by
    unfold sentIf amountIf
    by_cases hk : n.kind = f.moved
    · obtain ⟨r, hr, hin, -⟩ := hsound.moves (by rw [hk]; exact hf)
      simp only [hk, hr, true_and, Option.some.injEq, if_true]
      rw [Finset.sum_ite_eq, if_pos (hmem hin)]
    · simp [hk]
  rw [Finset.sum_add_distrib, hsigner, hsent]
  ring

/-- The total of all operations of a kind. -/
def totalOf (k : Kind) (nodes : BTreeMap String Node) : ℤ :=
  ((valuesOf nodes).map (amountIf k)).sum

/-- The sum of a balance map after all operations. -/
theorem sumOf_shifted {m m' : BTreeMap String Int} (hm : m.keys.toFinset = o.initial.keys.toFinset)
    {delta : Node → String → ℤ} {f : Flow} (hdelta : ∀ n, Sound o n → delta n = f.delta n)
    (hf : f.moved = .transfer ∨ f.moved = .headroom)
    (h : Shifted m m' (sumDelta delta (valuesOf ops.nodes))) :
    sumOf m' = sumOf m + totalOf f.gain ops.nodes - totalOf f.loss ops.nodes := by
  have hbalance : ∀ x ∈ m.keys.toFinset, balanceOf m' x
      = (ledger ops.nodes f).balance (balanceOf m) ops.nodes.keys.toFinset x := by
    intro x hx
    rw [← sumDelta_eq checked hdelta, h.balanceOf]
    rw [← Std.ExtTreeMap.mem_keys]
    exact List.mem_toFinset.mp hx
  rw [sumOf_eq m', h.keys, Finset.sum_congr rfl hbalance, Ledger.sum_balance, ← sumOf_eq m]
  unfold totalOf
  rw [sum_valuesOf, sum_valuesOf, add_sub_assoc, ← Finset.sum_sub_distrib, hm]
  congr 1
  refine Finset.sum_congr rfl fun a ha => ?_
  obtain ⟨n, hn⟩ := (mem_keys_iff ops.nodes a).mp (List.mem_toFinset.mp ha)
  have hsum := sum_delta_accounts checked f hf hn
  have hgain : ((ops.nodes[a]?).map (amountIf f.gain)).getD 0 = amountIf f.gain n := part_some hn
  have hloss : ((ops.nodes[a]?).map (amountIf f.loss)).getD 0 = amountIf f.loss n := part_some hn
  rw [hgain, hloss]
  exact hsum

end Walk

-- ── Solvency ────

/-- Every stage up to and including the traversal has passed. -/
structure Passed (c : CounterRule) (all : Facts) (present : String → Bool) (o : Opening)
    (ops : Operations) : Prop where
  profile : checkProfile c = .ok ()
  opening : openCounter c all present = .ok o
  collected : collect c o all = .ok ops
  links : checkLinks all present o.op.address ops.nodes = .ok ()
  traversed : ∃ summaries, summarize o ops.nodes = .ok summaries ∧
    summaries.size = ops.nodes.size

theorem Passed.checked {c : CounterRule} {all : Facts} {present : String → Bool} {o : Opening}
    {ops : Operations} (h : Passed c all present o ops) : Checked c o ops :=
  ⟨openCounter_ok h.opening, collect_ok h.collected, checkLinks_ok h.links⟩

theorem Passed.justified {c : CounterRule} {all : Facts} {present : String → Bool} {o : Opening}
    {ops : Operations} (h : Passed c all present o ops) :
    ∃ order s, Justified o ops.nodes order s := by
  obtain ⟨s, hs, hsize⟩ := h.traversed
  obtain ⟨order, hj⟩ := summarize_justified h.checked.filed.keyed hs hsize
  exact ⟨order, s, hj⟩

/-- After a passed traversal only the final checks are left. -/
theorem Passed.settle {c : CounterRule} {all : Facts} {present : String → Bool} {o : Opening}
    {ops : Operations} (h : Passed c all present o ops) :
    settle c all present = conclude c o ops := by
  obtain ⟨s, hs, hsize⟩ := h.traversed
  unfold CbclEscrow.settle
  simp only [h.profile, h.opening, h.collected, h.links, hs, hsize, bind, Except.bind, ne_eq,
    not_true_eq_false, if_false]

/-- An observation that is not settled by an early return has passed the traversal. -/
theorem passed_of_ok {c : CounterRule} {all : Facts} {present : String → Bool}
    {snapshot : Snapshot} (h : settle c all present = .ok snapshot) :
    ∃ o ops, Passed c all present o ops ∧ conclude c o ops = .ok snapshot := by
  unfold settle at h
  obtain ⟨_, hprofile, h⟩ := CbclExcept.bind_ok_iff.mp h
  obtain ⟨o, hopen, h⟩ := CbclExcept.bind_ok_iff.mp h
  obtain ⟨ops, hcollect, h⟩ := CbclExcept.bind_ok_iff.mp h
  obtain ⟨_, hlinks, h⟩ := CbclExcept.bind_ok_iff.mp h
  obtain ⟨s, hsum, h⟩ := CbclExcept.bind_ok_iff.mp h
  split at h
  · exact nomatch h
  · rename_i hsize
    exact ⟨o, ops, ⟨hprofile, hopen, hcollect, hlinks, s, hsum, not_not.mp hsize⟩, h⟩

/-- An early return is none of the two final faults. -/
def Early (stop : Stop) : Prop :=
  ∀ evidence, stop ≠ .fault "negative escrow budget" evidence ∧
    stop ≠ .fault "headroom conservation failure" evidence

theorem early_pending (evidence : List String) : Early (.pending evidence) :=
  fun _ => ⟨(fun h => nomatch h), (fun h => nomatch h)⟩

theorem early_fault {reason : String} (h₁ : reason ≠ "negative escrow budget")
    (h₂ : reason ≠ "headroom conservation failure") (evidence : List String) :
    Early (.fault reason evidence) := by
  intro evidence'
  constructor
  · intro h
    injection h with h
    exact h₁ h
  · intro h
    injection h with h
    exact h₂ h

/-- A reason that is none of the two final ones. -/
def Plain (reason : String) : Prop :=
  reason ≠ "negative escrow budget" ∧ reason ≠ "headroom conservation failure"

instance (reason : String) : Decidable (Plain reason) := inferInstanceAs (Decidable (_ ∧ _))

theorem early_of_fault {α : Type} {reason : String} {evidence : List String} {e : Stop}
    (h : (fault reason evidence : Except Stop α) = .error e) (hplain : Plain reason) :
    Early e := by
  injection h with h
  rw [← h]
  exact early_fault hplain.1 hplain.2 evidence

theorem orOverflow_error {α : Type} {x : Option α} {e : String} (h : orOverflow x = .error e) :
    Plain e := by
  cases x with
  | none =>
      injection h with h
      rw [← h]
      decide
  | some a => exact nomatch h

theorem readCast_early {c : CounterRule} {root : ResourceFact} {e : Stop}
    (h : readCast c root = .error e) : Early e := by
  have hkeys : ∀ role xs acc, readKeys c root role xs acc = .error e → Early e := by
    intro role xs
    induction xs with
    | nil => intro acc h; exact nomatch h
    | cons x xs ih =>
        rintro ⟨members, issuers⟩ h
        rw [readKeys] at h
        split at h
        · exact early_of_fault h (by decide)
        · exact ih _ h
  unfold readCast at h
  split at h
  · exact early_of_fault h (by decide)
  · obtain ⟨acc, binding, -, hbind⟩ := CbclExcept.foldlM_error h
    unfold readBinding at hbind
    split at hbind
    · split at hbind
      · exact early_of_fault hbind (by decide)
      · exact hkeys _ _ _ hbind
    · exact early_of_fault hbind (by decide)

theorem openWith_early {c : CounterRule} {op root : ResourceFact} {e : Stop}
    (h : openWith c op root = .error e) : Early e := by
  unfold openWith at h
  rcases CbclExcept.bind_error_iff.mp h with h | ⟨⟨members, issuers⟩, -, h⟩
  · exact readCast_early h
  dsimp only at h
  split at h
  · exact early_of_fault h (by decide)
  split at h
  · rename_i reason hreason
    refine early_of_fault h ?_
    unfold readAllocations at hreason
    split at hreason
    · injection hreason with hreason
      rw [← hreason]
      decide
    · split at hreason
      · injection hreason with hreason
        rw [← hreason]
        decide
      · cases hreason
  split at h
  · exact early_of_fault h (by decide)
  rcases CbclExcept.bind_error_iff.mp h with h | ⟨headroom, -, h⟩
  · unfold readHeadroom at h
    split at h
    · cases h
    · split at h
      · exact early_of_fault h (by decide)
      · split at h
        · cases h
        · exact early_of_fault h (by decide)
  rcases CbclExcept.bind_error_iff.mp h with h | ⟨_, -, h⟩
  · unfold checkCeiling at h
    split at h
    · exact early_of_fault h (by decide)
    · split at h
      · exact early_of_fault h (by decide)
      · cases h
  · cases h

theorem openCounter_early {c : CounterRule} {all : Facts} {present : String → Bool} {e : Stop}
    (h : openCounter c all present = .error e) : Early e := by
  unfold openCounter at h
  rcases CbclExcept.bind_error_iff.mp h with h | ⟨op, -, h⟩
  · unfold findOpener at h
    split at h
    · injection h with h
      rw [← h]
      exact early_pending _
    · exact nomatch h
    · exact early_of_fault h (by decide)
  rcases CbclExcept.bind_error_iff.mp h with h | ⟨root, -, h⟩
  · unfold findRoot at h
    split at h
    · split at h
      · exact nomatch h
      · split at h
        · exact early_of_fault h (by decide)
        · injection h with h
          rw [← h]
          exact early_pending _
    · exact early_of_fault h (by decide)
  exact openWith_early h

theorem checkNode_early {c : CounterRule} {o : Opening} {a : ResourceFact} {e : Stop}
    (h : checkNode c o a = .error e) : Early e := by
  have hdeps : ∀ prev xs deps, checkDeps a prev xs deps = .error e → Early e := by
    intro prev xs
    induction xs with
    | nil => intro deps h; exact nomatch h
    | cons x xs ih =>
        intro deps h
        rw [checkDeps] at h
        split at h
        · exact early_of_fault h (by decide)
        · split at h
          · exact early_of_fault h (by decide)
          · exact ih _ h
  unfold checkNode at h
  split at h
  · exact early_of_fault h (by decide)
  split at h
  · exact early_of_fault h (by decide)
  split at h
  · exact early_of_fault h (by decide)
  split at h
  · exact early_of_fault h (by decide)
  split at h
  · exact early_of_fault h (by decide)
  rcases CbclExcept.bind_error_iff.mp h with h | ⟨r, -, h⟩
  · unfold checkRecipient at h
    split at h
    · split at h
      · exact nomatch h
      · exact early_of_fault h (by decide)
    · exact nomatch h
  split at h
  · exact early_of_fault h (by decide)
  · rcases CbclExcept.bind_error_iff.mp h with h | ⟨deps, -, h⟩
    · exact hdeps _ _ _ h
    · exact nomatch h
  · exact early_of_fault h (by decide)

theorem collect_early {c : CounterRule} {o : Opening} {all : Facts} {e : Stop}
    (h : collect c o all = .error e) : Early e := by
  obtain ⟨ops, a, -, hadd⟩ := CbclExcept.foldlM_error h
  unfold addNode at hadd
  rcases CbclExcept.bind_error_iff.mp hadd with hadd | ⟨n, -, hadd⟩
  · exact checkNode_early hadd
  · split at hadd
    · exact early_of_fault hadd (by decide)
    · exact nomatch hadd

theorem checkLinks_early {all : Facts} {present : String → Bool} {opener : String}
    {nodes : BTreeMap String Node} {e : Stop}
    (h : checkLinks all present opener nodes = .error e) : Early e := by
  unfold checkLinks at h
  rcases CbclExcept.bind_error_iff.mp h with h | ⟨missing, -, h⟩
  · obtain ⟨acc, n, -, hn⟩ := CbclExcept.foldlM_error h
    obtain ⟨acc', dep, -, hdep⟩ := CbclExcept.foldlM_error hn
    unfold checkLink at hdep
    split at hdep
    · exact nomatch hdep
    · split at hdep
      · split at hdep
        · exact early_of_fault hdep (by decide)
        · exact nomatch hdep
      · split at hdep
        · exact early_of_fault hdep (by decide)
        · exact nomatch hdep
  · split at h
    · exact nomatch h
    · injection h with h
      rw [← h]
      exact early_pending _

theorem recordSent_error {sent : BTreeMap String Int} {n : Node} {e : String}
    (h : recordSent sent n = .error e) : Plain e := by
  unfold recordSent at h
  split at h
  · injection h with h
    rw [← h]
    decide
  · rcases CbclExcept.bind_error_iff.mp h with h | ⟨v, -, h⟩
    · exact orOverflow_error h
    · exact nomatch h

theorem record_error {r : Summary} {n : Node} {e : String} (h : r.record n = .error e) :
    Plain e := by
  unfold Summary.record at h
  split at h
  · injection h with h
    rw [← h]
    decide
  · dsimp only at h
    split at h
    · rcases CbclExcept.bind_error_iff.mp h with h | ⟨v, -, h⟩
      · exact orOverflow_error h
      · exact nomatch h
    · rcases CbclExcept.bind_error_iff.mp h with h | ⟨v, -, h⟩
      · exact orOverflow_error h
      · exact nomatch h
    · rcases CbclExcept.bind_error_iff.mp h with h | ⟨v, -, h⟩
      · exact recordSent_error h
      · exact nomatch h
    · rcases CbclExcept.bind_error_iff.mp h with h | ⟨v, -, h⟩
      · exact recordSent_error h
      · exact nomatch h

theorem ownBalance_error {initial credited debited : Int} {sent : BTreeMap String Int}
    {e : String} (h : ownBalance initial credited debited sent = .error e) : Plain e := by
  unfold ownBalance at h
  rcases CbclExcept.bind_error_iff.mp h with h | ⟨v, -, h⟩
  · exact orOverflow_error h
  · exact orOverflow_error h

theorem addIncoming_error {owner : String} {s : Summaries} {sent : Summary → BTreeMap String Int}
    {tips : BTreeMap String String} {b : Int} {e : String}
    (h : addIncoming owner s sent tips b = .error e) : Plain e := by
  obtain ⟨_, _, -, h⟩ := CbclExcept.foldlM_error h
  exact orOverflow_error h

theorem mapM_error {α β : Type} {h : Option β} {g : β → Except String α} {e : String}
    (hm : h.mapM g = .error e) : ∃ v, g v = .error e := by
  cases h with
  | none => exact nomatch hm
  | some v =>
      rw [Option.mapM_some] at hm
      rcases CbclExcept.bind_error_iff.mp hm with hm | ⟨w, -, hm⟩
      · exact ⟨v, hm⟩
      · exact nomatch hm

theorem localBudgets_error {owner : String} {initial : BTreeMap String Int}
    {headroom : Option (BTreeMap String Int)} {own : Summary} {tips : BTreeMap String String}
    {s : Summaries} {e : String}
    (h : localBudgets owner initial headroom own tips s = .error e) : Plain e := by
  unfold localBudgets at h
  rcases CbclExcept.bind_error_iff.mp h with h | ⟨_, -, h⟩
  · exact ownBalance_error h
  rcases CbclExcept.bind_error_iff.mp h with h | ⟨_, -, h⟩
  · obtain ⟨_, h⟩ := mapM_error h
    exact ownBalance_error h
  rcases CbclExcept.bind_error_iff.mp h with h | ⟨_, -, h⟩
  · exact addIncoming_error h
  rcases CbclExcept.bind_error_iff.mp h with h | ⟨_, -, h⟩
  · obtain ⟨_, h⟩ := mapM_error h
    exact addIncoming_error h
  · exact nomatch h

theorem judge_early {o : Opening} {s : Summaries} {n : Node} {e : Stop}
    (h : judge o s n = .error e) : Early e := by
  unfold judge at h
  dsimp only at h
  split at h
  · rename_i hbudget
    exact early_of_fault h (localBudgets_error hbudget)
  · rename_i rights space hbudget
    by_cases hlow : Option.any (fun b => decide (b < n.amount))
        (if n.kind.spendsHeadroom = true then space else some rights) = true
    · rw [if_pos hlow] at h
      refine early_of_fault h ?_
      split
      · decide
      · decide
    · rw [if_neg hlow] at h
      split at h
      · rename_i hrec
        exact early_of_fault h (record_error hrec)
      · exact nomatch h

theorem summarize_early {o : Opening} {nodes : BTreeMap String Node} {e : Stop}
    (h : summarize o nodes = .error e) : Early e := by
  obtain ⟨a, s, hvisit⟩ := traverse_error _ _ _ _ h
  unfold visit at hvisit
  split at hvisit
  · exact nomatch hvisit
  · rcases CbclExcept.bind_error_iff.mp hvisit with hjudge | ⟨_, -, hvisit⟩
    · exact judge_early hjudge
    · exact nomatch hvisit

theorem add_error {m : BTreeMap String Int} {owner : String} {n : Int} {e : String}
    (h : add m owner n = .error e) : Plain e := by
  unfold add at h
  split at h
  · injection h with h
    rw [← h]
    decide
  · rcases CbclExcept.bind_error_iff.mp h with h | ⟨_, -, h⟩
    · exact orOverflow_error h
    · exact nomatch h

theorem move_error {m : BTreeMap String Int} {n : Node} {e : String}
    (h : move m n = .error e) : Plain e := by
  unfold move at h
  rcases CbclExcept.bind_error_iff.mp h with h | ⟨_, -, h⟩
  · exact add_error h
  · split at h
    · injection h with h
      rw [← h]
      decide
    · exact add_error h

theorem apply_error {n : Node} {rights : BTreeMap String Int}
    {headroom : Option (BTreeMap String Int)} {e : String}
    (h : n.apply rights headroom = .error e) : Plain e := by
  unfold Node.apply at h
  split at h
  · rcases CbclExcept.bind_error_iff.mp h with h | ⟨_, -, h⟩
    · obtain ⟨_, h⟩ := mapM_error h
      exact add_error h
    · rcases CbclExcept.bind_error_iff.mp h with h | ⟨_, -, h⟩
      · exact add_error h
      · exact nomatch h
  · rcases CbclExcept.bind_error_iff.mp h with h | ⟨_, -, h⟩
    · exact add_error h
    · rcases CbclExcept.bind_error_iff.mp h with h | ⟨_, -, h⟩
      · obtain ⟨_, h⟩ := mapM_error h
        exact add_error h
      · exact nomatch h
  · rcases CbclExcept.bind_error_iff.mp h with h | ⟨_, -, h⟩
    · exact move_error h
    · exact nomatch h
  · split at h
    · injection h with h
      rw [← h]
      decide
    · rcases CbclExcept.bind_error_iff.mp h with h | ⟨_, -, h⟩
      · exact move_error h
      · exact nomatch h

theorem balances_early {o : Opening} {nodes : BTreeMap String Node} {e : Stop}
    (h : balances o nodes = .error e) : Early e := by
  obtain ⟨⟨rights, headroom⟩, n, -, hstep⟩ := CbclExcept.foldlM_error h
  dsimp only at hstep
  split at hstep
  · rename_i happly
    exact early_of_fault hstep (apply_error happly)
  · exact nomatch hstep

/-- **A failure of an observation comes before the final checks, or from them.** -/
theorem settle_error {c : CounterRule} {all : Facts} {present : String → Bool} {e : Stop}
    (h : settle c all present = .error e) :
    Early e ∨ ∃ o ops, Passed c all present o ops ∧ conclude c o ops = .error e := by
  unfold settle at h
  rcases CbclExcept.bind_error_iff.mp h with h | ⟨_, hprofile, h⟩
  · left
    unfold checkProfile at h
    split at h
    · exact early_of_fault h (by decide)
    · split at h
      · exact early_of_fault h (by decide)
      · exact nomatch h
  rcases CbclExcept.bind_error_iff.mp h with h | ⟨o, hopen, h⟩
  · exact Or.inl (openCounter_early h)
  rcases CbclExcept.bind_error_iff.mp h with h | ⟨ops, hcollect, h⟩
  · exact Or.inl (collect_early h)
  rcases CbclExcept.bind_error_iff.mp h with h | ⟨_, hlinks, h⟩
  · exact Or.inl (checkLinks_early h)
  rcases CbclExcept.bind_error_iff.mp h with h | ⟨s, hsum, h⟩
  · exact Or.inl (summarize_early h)
  split at h
  · exact Or.inl (early_of_fault h (by decide))
  · rename_i hsize
    exact Or.inr ⟨o, ops, ⟨hprofile, hopen, hcollect, hlinks, s, hsum, not_not.mp hsize⟩, h⟩

/-- **After a passed traversal no account is in debt**, whatever the size of the numbers. -/
theorem Passed.solvent {c : CounterRule} {all : Facts} {present : String → Bool} {o : Opening}
    {ops : Operations} (h : Passed c all present o ops) :
    (∀ x, 0 ≤ balanceOf o.initial x + sumDelta rightsDelta (valuesOf ops.nodes) x) ∧
      ∀ m, o.headroom = some m →
        ∀ x, 0 ≤ balanceOf m x + sumDelta headroomDelta (valuesOf ops.nodes) x := by
  obtain ⟨order, s, hj⟩ := h.justified
  have hwalk := walked_order h.checked hj
  have hkeys : order.toFinset = ops.nodes.keys.toFinset := by
    ext a
    rw [List.mem_toFinset, List.mem_toFinset, hj.mem_order, mem_keys_iff]
  refine ⟨fun x => ?_, fun m hm x => ?_⟩
  · rw [sumDelta_eq h.checked (fun _ hs => rightsDelta_eq hs), ← hkeys]
    exact hwalk.rights x
  · rw [sumDelta_eq h.checked (fun _ hs => headroomDelta_eq hs), ← hkeys]
    exact hwalk.headroom m hm x

/-- **The final balances**: nonnegative, and their totals moved by increments and decrements
    only. -/
structure Final (c : CounterRule) (o : Opening) (ops : Operations) (rights : BTreeMap String Int)
    (headroom : Option (BTreeMap String Int)) : Prop where
  rights_nonneg : ∀ (x : String) (v : Int), rights[x]? = some v → 0 ≤ v
  headroom_nonneg : ∀ h, headroom = some h → ∀ (x : String) (v : Int), h[x]? = some v → 0 ≤ v
  value : c.floor.toInt + sumOf rights = c.floor.toInt + sumOf o.initial
    + totalOf .increment ops.nodes - totalOf .decrement ops.nodes
  ceiling : ∀ k, c.ceiling = some k → ∃ h, headroom = some h ∧
    c.floor.toInt + sumOf rights + sumOf h = k.toInt

theorem Passed.final {c : CounterRule} {all : Facts} {present : String → Bool} {o : Opening}
    {ops : Operations} (h : Passed c all present o ops) {rights : BTreeMap String Int}
    {headroom : Option (BTreeMap String Int)} (hb : balances o ops.nodes = .ok (rights, headroom)) :
    Final c o ops rights headroom := by
  obtain ⟨hrights, hspace⟩ := h.solvent
  obtain ⟨hr, hh⟩ := balances_ok hb
  have checked := h.checked
  have hnat : ∀ {m m' : BTreeMap String Int} {δ : String → ℤ}, Shifted m m' δ →
      (∀ x, 0 ≤ balanceOf m x + δ x) → ∀ (x : String) (v : Int), m'[x]? = some v → 0 ≤ v := by
    intro m m' δ hs hnon x v hv
    have hx := hnon x
    rw [hs x] at hv
    obtain ⟨u, hu, rfl⟩ := Option.map_eq_some_iff.mp hv
    unfold balanceOf at hx
    rw [hu] at hx
    exact hx
  have hsum := sumOf_shifted checked rfl (fun _ hs => rightsDelta_eq hs) (f := rightsFlow)
    (Or.inl rfl) hr
  refine ⟨hnat hr hrights, fun m' hm' => ?_, ?_, fun k hk => ?_⟩
  · subst hm'
    cases hoh : o.headroom with
    | none => rw [hoh] at hh; exact hh.elim
    | some m =>
        rw [hoh] at hh
        exact hnat (m := m) hh (hspace m hoh)
  · rw [hsum]
    simp only [rightsFlow]
    ring
  · obtain ⟨m, hm, hceil⟩ := checked.opened.ceiling k hk
    rw [hm] at hh
    cases headroom with
    | none => exact hh.elim
    | some m' =>
        have hh : Shifted m m' _ := hh
        have hkeys : m.keys.toFinset = o.initial.keys.toFinset := by
          rw [(checked.opened.headroom m hm).1]
        have hsum' := sumOf_shifted checked hkeys (fun _ hs => headroomDelta_eq hs)
          (f := headroomFlow) (Or.inr rfl) hh
        refine ⟨m', rfl, ?_⟩
        rw [hsum, hsum', ← hceil]
        simp only [rightsFlow, headroomFlow]
        ring

/-- **The final checks cannot fail.** -/
theorem Passed.conclude_early {c : CounterRule} {all : Facts} {present : String → Bool}
    {o : Opening} {ops : Operations} (h : Passed c all present o ops) {e : Stop}
    (hc : conclude c o ops = .error e) : Early e := by
  unfold conclude at hc
  rcases CbclExcept.bind_error_iff.mp hc with hb | ⟨⟨rights, headroom⟩, hb, hc⟩
  · exact balances_early hb
  · dsimp only at hc
    have final := h.final hb
    split at hc
    · -- no balance is negative
      rename_i hneg
      rcases hneg with hneg | hneg
      · rw [negative_eq_false.mpr final.rights_nonneg] at hneg
        exact nomatch hneg
      · obtain ⟨m, hm, hneg⟩ := (Option.any_eq_true _ _).mp hneg
        rw [negative_eq_false.mpr (final.headroom_nonneg m hm)] at hneg
        exact nomatch hneg
    · split at hc
      · exact early_of_fault hc (by decide)
      · rename_i value hvalue
        obtain ⟨t, ht, hsum⟩ := Option.bind_eq_some_iff.mp hvalue
        have hvalue : value = sumOf rights + c.floor.toInt := by
          rw [(checked_eq_some.mp hsum).2, total_eq ht]
        split at hc
        · -- value and headroom add up to the ceiling, which fits
          rename_i hceil
          obtain ⟨k, hk, hceil⟩ := (Option.any_eq_true _ _).mp hceil
          obtain ⟨m, hm, htotal⟩ := final.ceiling k hk
          have hm_nat : Natural m := final.headroom_nonneg m hm
          have hr_nat : 0 ≤ sumOf rights := Natural.sum_nonneg final.rights_nonneg
          have hk_lt := Int64.toInt_lt k
          have hk_ge := Int64.le_toInt k
          have hf_ge := Int64.le_toInt c.floor
          have hm_total : total m = some (sumOf m) := hm_nat.total (by omega)
          have hadd : checkedAdd value (sumOf m) = some k.toInt := by
            refine checked_eq_some.mpr ⟨⟨by omega, by omega⟩, by omega⟩
          rw [hm, Option.bind_some, hm_total, Option.bind_some, hadd] at hceil
          simp at hceil
        · exact nomatch hc

/-- **Local authorisation implies global solvency.** -/
theorem escrow_solvent (c : CounterRule) (all : Facts) (present : String → Bool) :
    (∀ evidence, observeFacts c all present ≠ .fault "negative escrow budget" evidence) ∧
    (∀ evidence, observeFacts c all present ≠ .fault "headroom conservation failure" evidence) ∧
    (∀ o ops, Passed c all present o ops →
      ((∀ x, 0 ≤ balanceOf o.initial x + sumDelta rightsDelta (valuesOf ops.nodes) x) ∧
        ∀ m, o.headroom = some m →
          ∀ x, 0 ≤ balanceOf m x + sumDelta headroomDelta (valuesOf ops.nodes) x) ∧
      ∀ rights headroom, balances o ops.nodes = .ok (rights, headroom) →
        Final c o ops rights headroom) ∧
    (∀ snapshot, observeFacts c all present = .ready snapshot →
      ∃ o ops, Passed c all present o ops ∧
        balances o ops.nodes = .ok (snapshot.rights, snapshot.headroom) ∧
        snapshot.value = c.floor.toInt + sumOf snapshot.rights) := by
  have hearly : ∀ e, settle c all present = .error e → Early e := by
    intro e he
    rcases settle_error he with h | ⟨o, ops, hpass, hc⟩
    · exact h
    · exact hpass.conclude_early hc
  have hnever : ∀ evidence,
      observeFacts c all present ≠ .fault "negative escrow budget" evidence ∧
        observeFacts c all present ≠ .fault "headroom conservation failure" evidence := by
    intro evidence
    unfold observeFacts
    split
    · exact ⟨(fun h => nomatch h), (fun h => nomatch h)⟩
    · rename_i e he
      have hstop := hearly e he evidence
      cases e with
      | pending => exact ⟨(fun h => nomatch h), (fun h => nomatch h)⟩
      | fault reason ev =>
          refine ⟨fun h => hstop.1 ?_, fun h => hstop.2 ?_⟩
          all_goals
            injection h with h₁ h₂
            rw [h₁, h₂]
  refine ⟨fun evidence => (hnever evidence).1, fun evidence => (hnever evidence).2,
    fun o ops h => ⟨h.solvent, fun _ _ hb => h.final hb⟩, fun snapshot hready => ?_⟩
  have hok : settle c all present = .ok snapshot := by
    unfold observeFacts at hready
    split at hready
    · rename_i s hs
      injection hready with hready
      rw [hs, hready]
    · rename_i e he
      cases e with
      | pending => exact nomatch hready
      | fault => exact nomatch hready
  obtain ⟨o, ops, hpass, hc⟩ := passed_of_ok hok
  refine ⟨o, ops, hpass, ?_⟩
  unfold conclude at hc
  obtain ⟨⟨rights, headroom⟩, hb, hc⟩ := CbclExcept.bind_ok_iff.mp hc
  dsimp only at hc
  split at hc
  · exact nomatch hc
  · split at hc
    · exact nomatch hc
    · rename_i value hvalue
      split at hc
      · exact nomatch hc
      · injection hc with hc
        subst hc
        obtain ⟨t, ht, hsum⟩ := Option.bind_eq_some_iff.mp hvalue
        refine ⟨hb, ?_⟩
        show value = _
        rw [(checked_eq_some.mp hsum).2, total_eq ht, add_comm]

end CbclEscrowSolvency
