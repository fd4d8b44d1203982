import Cbcl.ChargeProofs
import Cbcl.ContextProofs
import Cbcl.DescentProofs
import Cbcl.Sha256Proofs

/-!
# Catching up with an owned version

The plan of a catch-up is found by searching back from the target: parents not seen yet are marked
and remembered with the version they lead to, unless the version leaves the line of the certified
root or does not hold every signed operation of the account.  The adoption check asks for exactly
the same of each version, so the plan is adopted to its end, and where the search finds none no
sequence of adoptions leads to the target.
-/

namespace CbclQuorum

open CbclMessage CbclAct CbclTreeMap CbclExcept CbclStateShape
open CbclEscrow (Ownership)
open CbclCanonical (encode)
open CbclTypedAddr (hex32)

-- ── The version graph of a log ────

/-- What the version graph of a collision-free log satisfies: every entry is filed under its own
    identity, came with an event, and follows known versions of its own account. -/
structure Linked (r : Replica) (log : List Event) : Prop where
  version_id : ∀ (id : String) (v : DagVersion), r.state.versions[id]? = some v →
    r.context.versionId v.manifest = id
  logged : ∀ (id : String) (v : DagVersion), r.state.versions[id]? = some v →
    ∃ e ∈ log, v.manifest ∈ e.manifests
  shape : ∀ (id : String) (v : DagVersion), r.state.versions[id]? = some v →
    ¬ (v.manifest.phase = .owned ∧ r.context.rule.ownership = .collective) ∧
      v.manifest.account ∈ r.context.initial
  parents : ∀ (id : String) (v : DagVersion), r.state.versions[id]? = some v →
    ∀ p ∈ v.manifest.parents, ∃ m, r.manifest? p = some m ∧ m.account = v.manifest.account
  owned_known : ∀ (id : String) (request : OwnedSealRequest), r.state.owned[id]? = some request →
    ∃ v : DagVersion, r.state.versions[id]? = some v

section Links

variable {auth : Authentication} {c : Context} {validator : String} {limits : Limits}
  {r r' : Replica} {log : List Event}

/-- The versions events bring, checked. -/
theorem checked_shape {v : DagVersion} (h : r.checkVersion auth v = .ok ()) :
    (¬ (v.manifest.phase = .owned ∧ r.context.rule.ownership = .collective) ∧
      v.manifest.account ∈ r.context.initial) ∧
    ∀ p ∈ v.manifest.parents, ∃ m, r.manifest? p = some m ∧ m.account = v.manifest.account := by
  unfold Replica.checkVersion at h
  obtain ⟨⟨⟩, hbooks, -⟩ := bind_ok_iff.mp h
  refine ⟨?_, fun p hp => ?_⟩
  · unfold Replica.checkVersionManifest at hbooks
    obtain ⟨⟨⟩, hguard, -⟩ := bind_ok_iff.mp hbooks
    obtain ⟨hphase, haccount, -⟩ := ensure_ok_iff.mp hguard
    exact ⟨hphase, haccount⟩
  · obtain ⟨m, hm, -, haccount, -⟩ := parent_known hbooks hp
    exact ⟨m, hm, haccount⟩

/-- Filing a checked version keeps the graph linked. -/
theorem Linked.file (h : Linked r log) {event : Event} {v : DagVersion}
    (hcontext : r'.context = r.context)
    (hversions : r'.state.versions =
      r.state.versions.insert (r.context.versionId v.manifest) v)
    (hfree : CollisionFree r.context (log ++ [event])) (hevent : v.manifest ∈ event.manifests)
    (hcheck : r.checkVersion auth v = .ok ())
    (howned : ∀ (id : String) (request : OwnedSealRequest), r'.state.owned[id]? = some request →
      r.state.owned[id]? = some request ∨ id = r.context.versionId v.manifest) :
    Linked r' (log ++ [event]) := by
  have hin : event ∈ log ++ [event] := List.mem_append_right _ (List.mem_singleton_self _)
  have hget : ∀ x : String, r'.state.versions[x]? =
      if x = r.context.versionId v.manifest then some v else r.state.versions[x]? := fun x => by
    rw [hversions, getElem?_insert_eq]
  -- an entry that is replaced is replaced by one with the same books
  have hkeep : ∀ (x : String) (m : VersionManifest), r.manifest? x = some m →
      r'.manifest? x = some m := by
    intro x m hm
    unfold Replica.manifest? at hm ⊢
    rw [hget x]
    by_cases hx : x = r.context.versionId v.manifest
    · rw [if_pos hx]
      cases hold : r.state.versions[x]? with
      | some w =>
          rw [hold] at hm
          obtain ⟨e, he, hw⟩ := h.logged x w hold
          have hsame : w.manifest = v.manifest :=
            hfree.manifest_eq (List.mem_append_left _ he) hin hw hevent
              ((h.version_id x w hold).trans hx)
          rw [← hm]
          exact congrArg some hsame.symm
      | none =>
          rw [hold] at hm
          refine absurd ?_ (hfree.not_root hin hevent)
          rw [← hx]
          exact Std.ExtTreeMap.isSome_getElem?_iff_mem.mp (Option.isSome_iff_exists.mpr ⟨m, hm⟩)
    · rw [if_neg hx, hcontext]
      exact hm
  obtain ⟨hshape, hparents⟩ := checked_shape hcheck
  refine ⟨fun id w hw => ?_, fun id w hw => ?_, fun id w hw => ?_, fun id w hw => ?_,
    fun id request hrequest => ?_⟩
  · rw [hget id] at hw
    rw [hcontext]
    split at hw
    · rename_i hid
      rw [← Option.some.inj hw, hid]
    · exact h.version_id id w hw
  · rw [hget id] at hw
    split at hw
    · rw [← Option.some.inj hw]
      exact ⟨event, hin, hevent⟩
    · obtain ⟨e, he, hmem⟩ := h.logged id w hw
      exact ⟨e, List.mem_append_left _ he, hmem⟩
  · rw [hget id] at hw
    rw [hcontext]
    split at hw
    · rw [← Option.some.inj hw]
      exact hshape
    · exact h.shape id w hw
  · intro p hp
    rw [hget id] at hw
    split at hw
    · rw [← Option.some.inj hw] at hp ⊢
      obtain ⟨m, hm, haccount⟩ := hparents p hp
      exact ⟨m, hkeep p m hm, haccount⟩
    · obtain ⟨m, hm, haccount⟩ := h.parents id w hw p hp
      exact ⟨m, hkeep p m hm, haccount⟩
  · rw [hget id]
    split
    · exact ⟨v, rfl⟩
    · rename_i hid
      rcases howned id request hrequest with hold | hid'
      · exact h.owned_known id request hold
      · exact absurd hid' hid

/-- An event that brings no version keeps the graph. -/
theorem Linked.keep (h : Linked r log) (event : Event) (hcontext : r'.context = r.context)
    (hversions : r'.state.versions = r.state.versions)
    (howned : r'.state.owned = r.state.owned) : Linked r' (log ++ [event]) := by
  have hmanifest : ∀ x, r'.manifest? x = r.manifest? x := fun x => by
    unfold Replica.manifest?
    rw [hversions, hcontext]
  refine ⟨?_, ?_, ?_, ?_, ?_⟩
  · rw [hversions, hcontext]
    exact h.version_id
  · rw [hversions]
    intro id v hv
    obtain ⟨e, he, hmem⟩ := h.logged id v hv
    exact ⟨e, List.mem_append_left _ he, hmem⟩
  · rw [hversions, hcontext]
    exact h.shape
  · rw [hversions]
    intro id v hv p hp
    rw [hmanifest]
    exact h.parents id v hv p hp
  · rw [hversions, howned]
    exact h.owned_known

/-- **One step** keeps the version graph linked. -/
theorem Linked.step (h : Linked r log) {event : Event} {u : Update}
    (admits : Admits auth r event u) (hfree : CollisionFree r.context (log ++ [event])) :
    Linked (r.advance u) (log ++ [event]) := by
  have hinsert : ∀ (request : OwnedSealRequest) (id : String) (x : OwnedSealRequest),
      (r.state.owned.insert (r.context.versionId request.version.manifest) request)[id]? = some x →
        r.state.owned[id]? = some x ∨ id = r.context.versionId request.version.manifest := by
    intro request id x hx
    rw [getElem?_insert_eq] at hx
    split at hx
    · rename_i hid
      exact .inr hid
    · exact .inl hx
  have hchecked : ∀ {request : OwnedSealRequest}, r.checkOwned auth request = .ok () →
      r.checkVersion auth request.version = .ok () := by
    intro request hcheck
    unfold Replica.checkOwned at hcheck
    obtain ⟨⟨⟩, -, hcheck⟩ := bind_ok_iff.mp hcheck
    obtain ⟨⟨⟩, hversion, -⟩ := bind_ok_iff.mp hcheck
    exact hversion
  cases admits with
  | proposal checks fresh =>
      exact h.file rfl rfl hfree (List.mem_singleton_self _) (hchecked checks.owned) (hinsert _)
  | sealed checks unsealed active parent held =>
      exact h.file rfl rfl hfree (List.mem_singleton_self _) (hchecked checks.owned) (hinsert _)
  | version check fresh room =>
      exact h.file rfl rfl hfree (List.mem_singleton_self _) check fun _ _ hx => .inl hx
  | adopt => exact h.keep _ rfl rfl rfl
  | candidate => exact h.keep _ rfl rfl rfl
  | certificate => exact h.keep _ rfl rfl rfl
  | sign => exact h.keep _ rfl rfl rfl
  | effect => exact h.keep _ rfl rfl rfl
  | fence => exact h.keep _ rfl rfl rfl
  | release => exact h.keep _ rfl rfl rfl

/-- The version graph of a collision-free log is linked. -/
theorem Reached.linked (h : Reached auth c validator limits r log) :
    CollisionFree c log → Linked r log := by
  induction h with
  | fresh =>
      intro _
      have hnone : ∀ (id : String) (v : DagVersion),
          (State.initial c).versions[id]? = some v → False := fun id v hv => by
        have hv : (∅ : BTreeMap String DagVersion)[id]? = some v := hv
        rw [Std.ExtTreeMap.getElem?_empty] at hv
        exact nomatch hv
      refine ⟨fun id v hv => (hnone id v hv).elim, fun id v hv => (hnone id v hv).elim,
        fun id v hv => (hnone id v hv).elim, fun id v hv => (hnone id v hv).elim,
        fun id request hrequest => ?_⟩
      have hrequest : (∅ : BTreeMap String OwnedSealRequest)[id]? = some request := hrequest
      rw [Std.ExtTreeMap.getElem?_empty] at hrequest
      exact nomatch hrequest
  | step prev prepared ih =>
      intro hfree
      have hcontext := prev.start.1
      refine (ih (hfree.mono fun e he => List.mem_append_left _ he)).step
        (admits_of_prepare prepared) ?_
      rw [hcontext]
      exact hfree
  | again _ _ ih =>
      intro hfree
      exact (ih (hfree.mono fun e he => List.mem_append_left _ he)).keep _ rfl rfl rfl

/-- The charges of a log are those of its signed history. -/
theorem Reached.charged (h : Reached auth c validator limits r log) : r.state.Charged := by
  induction h with
  | fresh => exact charged_initial c
  | step _ prepared ih => exact charged_step ih (admits_of_prepare prepared)
  | again _ _ ih => exact ih

/-- A replay leads to a replica of the whole log. -/
theorem Reached.replay : ∀ (events : List Event) {r r' : Replica} {log : List Event},
    Reached auth c validator limits r log → r.replay auth events = .ok r' →
      Reached auth c validator limits r' (log ++ events) := by
  intro events
  induction events with
  | nil =>
      intro r r' log hr h
      rw [← Except.ok.inj h, List.append_nil]
      exact hr
  | cons event rest ih =>
      intro r r' log hr h
      rw [Replica.replay] at h
      obtain ⟨update, hprepare, h⟩ := bind_ok_iff.mp h
      rw [List.append_cons]
      cases update with
      | none => exact ih (hr.again hprepare) h
      | some u => exact ih (hr.step hprepare) h

/-- **A recovered replica is one of its log**, repeated events included. -/
theorem recover_reached {journal : Journal Event}
    (h : Replica.recover auth c validator limits journal = .ok r) :
    ∃ log, journal.log = some log ∧ Reached auth c validator limits r log := by
  unfold Replica.recover at h
  split at h
  · exact nomatch h
  split at h
  · exact nomatch h
  rename_i log hlog
  split at h
  · exact nomatch h
  rename_i hhead
  refine ⟨log, hlog, ?_⟩
  cases log with
  | nil => exact absurd (.inl nofun) hhead
  | cons first rest =>
      have hfirst : first = .initialized := by
        by_contra hne
        exact hhead (.inl fun heq => hne (Option.some.inj heq))
      rw [hfirst]
      exact Reached.fresh.replay rest h

/-- **Every replica of a run is one of a log**: however the host started, and whatever it called. -/
theorem reached_invariant (auth : Authentication) (c : Context) (validator : String)
    (limits : Limits) : Invariant auth c validator limits fun r =>
      ∃ log, Reached auth c validator limits r log where
  fresh := ⟨_, .fresh⟩
  step := fun h prepared => h.elim fun _ hr => ⟨_, hr.step prepared⟩
  skip := fun h prepared => h.elim fun _ hr => ⟨_, hr.again prepared⟩

/-- A version with a parent is a retained one. -/
theorem version_of_parent {id p : String} {m : VersionManifest} (hm : r.manifest? id = some m)
    (hp : p ∈ m.parents) : ∃ v : DagVersion, r.state.versions[id]? = some v ∧ v.manifest = m := by
  unfold Replica.manifest? at hm
  cases hv : r.state.versions[id]? with
  | some v =>
      rw [hv] at hm
      exact ⟨v, rfl, Option.some.inj hm⟩
  | none =>
      rw [hv] at hm
      obtain ⟨a, b, -, -, rfl⟩ := r.context.root_manifest id m hm
      exact absurd hp Std.ExtTreeSet.not_mem_empty

/-- The parents of a known version are known, and of its account. -/
theorem Linked.parent (h : Linked r log) {id p : String} {m : VersionManifest}
    (hm : r.manifest? id = some m) (hp : p ∈ m.parents) :
    ∃ m', r.manifest? p = some m' ∧ m'.account = m.account := by
  obtain ⟨v, hv, rfl⟩ := version_of_parent hm hp
  exact h.parents id v hv p hp

theorem Linked.closed (h : Linked r log) : Closed r := fun _ _ hm _ hp => by
  obtain ⟨m', hm', -⟩ := h.parent hm hp
  exact ⟨m', hm'⟩

/-- A certified owned root is a retained version. -/
theorem Linked.root_known (h : Linked r log) {account root : String}
    (hroot : r.ownedRoot account = some root) : ∃ m, r.manifest? root = some m := by
  unfold Replica.ownedRoot at hroot
  obtain ⟨⟨id, request⟩, hfind, rfl⟩ := Option.map_eq_some_iff.mp hroot
  have hmem := Std.ExtTreeMap.mem_toList_iff_getElem?_eq_some.mp (List.mem_of_find?_eq_some hfind)
  obtain ⟨v, hv⟩ := h.owned_known id request hmem
  refine ⟨v.manifest, ?_⟩
  unfold Replica.manifest?
  rw [hv]

end Links

-- ── What a version must pass ────

section Passing

variable {r : Replica} {log : List Event} {account root : String}

/-- The search never fails at a known version. -/
theorem mayPass_total (hclosed : Closed r) (hroot : ∃ m, r.manifest? root = some m) {id : String}
    {node : VersionManifest} (hnode : r.manifest? id = some node) :
    ∃ b, r.mayPass account (some root) id node = .ok b := by
  obtain ⟨below, hbelow, -⟩ : ∃ b, r.descends id root = .ok b ∧
      (b = true ↔ CbclWorklist.Reaches (parentsOf r) id root) :=
    descends_spec hclosed ⟨node, hnode⟩
  obtain ⟨above, habove, -⟩ : ∃ b, r.descends root id = .ok b ∧
      (b = true ↔ CbclWorklist.Reaches (parentsOf r) root id) := descends_spec hclosed hroot
  have hline : ∃ b, r.onLine root id = .ok b := by
    unfold Replica.onLine
    rw [hbelow]
    cases below with
    | true => exact ⟨_, rfl⟩
    | false => exact ⟨above, habove⟩
  obtain ⟨line, hline⟩ := hline
  exact ⟨_, bind_ok_iff.mpr ⟨line, hline, rfl⟩⟩

/-- Passing is lying on the line of the root and holding what was signed. -/
theorem mayPass_iff {id : String} {node : VersionManifest} :
    r.mayPass account (some root) id node = .ok true ↔
      r.onLine root id = .ok true ∧ ∀ signed ∈ r.state.signed, ∀ op : Operation,
        r.state.operations[signed]? = some op → op.account = account → signed ∈ node.held := by
  unfold Replica.mayPass
  constructor
  · intro h
    obtain ⟨allowed, hallowed, h⟩ := bind_ok_iff.mp h
    have h : (allowed && !r.state.signed.toList.any fun signed =>
        (r.state.operations[signed]?).any (·.account = account) && !node.held.contains signed) =
          true := Except.ok.inj h
    rw [Bool.and_eq_true, Bool.not_eq_true', List.any_eq_false] at h
    refine ⟨h.1 ▸ hallowed, fun signed hsigned op hop haccount => ?_⟩
    have hany := h.2 signed (Std.ExtTreeSet.mem_toList.mpr hsigned)
    rw [hop] at hany
    by_contra hheld
    refine hany ?_
    rw [Option.any_some, decide_eq_true haccount, Bool.true_and, Bool.not_eq_true',
      ← Bool.not_eq_true, Std.ExtTreeSet.contains_iff_mem]
    exact hheld
  · rintro ⟨hline, hheld⟩
    refine bind_ok_iff.mpr ⟨true, hline, congrArg Except.ok ?_⟩
    rw [Bool.true_and, Bool.not_eq_true', List.any_eq_false]
    intro signed hsigned hany
    rw [Bool.and_eq_true] at hany
    cases hop : r.state.operations[signed]? with
    | none =>
        rw [hop] at hany
        exact nomatch hany.1
    | some op =>
        rw [hop, Option.any_some, decide_eq_true_eq] at hany
        have hmem := hheld signed (Std.ExtTreeSet.mem_toList.mp hsigned) op hop hany.1
        rw [Std.ExtTreeSet.contains_iff_mem.mpr hmem] at hany
        exact nomatch hany.2

/-- What an adoption under a certified root checks of a version is what the search checks. -/
theorem checkContinuation_iff {id : String} {m : VersionManifest}
    (hroot : r.ownedRoot m.account = some root) :
    r.checkContinuation id m = .ok () ↔ r.onLine root id = .ok true := by
  unfold Replica.checkContinuation Replica.onLine
  rw [hroot]
  dsimp only
  cases r.descends id root with
  | error reason => exact ⟨(fun h => nomatch h), fun h => nomatch h⟩
  | ok below =>
      cases below with
      | true => exact ⟨fun _ => rfl, fun _ => rfl⟩
      | false =>
          show ((r.descends root id) >>= fun above =>
            ensure (above = true) "adoption outside certified owned ancestry") = .ok () ↔
              r.descends root id = .ok true
          constructor
          · intro h
            obtain ⟨above, habove, h⟩ := bind_ok_iff.mp h
            rw [habove, ensure_ok_iff.mp h]
          · intro h
            exact bind_ok_iff.mpr ⟨true, h, ensure_ok_iff.mpr rfl⟩

/-- Holding what was signed, as the adoption checks it. -/
theorem holdsSigned_iff (hcharged : r.state.Charged) {m : VersionManifest} {reason : String} :
    r.holdsSigned m reason = .ok () ↔ ∀ signed ∈ r.state.signed, ∀ op : Operation,
      r.state.operations[signed]? = some op → op.account = m.account → signed ∈ m.held := by
  unfold Replica.holdsSigned
  rw [forM_ok_iff]
  constructor
  · intro h signed hsigned op hop haccount
    obtain ⟨op', hop', hensure⟩ := bind_ok_iff.mp (h signed (Std.ExtTreeSet.mem_toList.mpr hsigned))
    obtain rfl : op' = op := Option.some.inj ((op_ok_iff.mp hop').symm.trans hop)
    exact ensure_ok_iff.mp hensure haccount
  · intro h signed hsigned
    have hsigned := Std.ExtTreeSet.mem_toList.mp hsigned
    obtain ⟨op, hop⟩ := hcharged.registered signed hsigned
    exact bind_ok_iff.mpr ⟨op, op_ok_iff.mpr hop, ensure_ok_iff.mpr (h signed hsigned op hop)⟩

end Passing

-- ── Trails ────

/-- What the search has marked, and where each marked version leads: every one but the target leads
    to an earlier one that may be passed and that it is a parent of. -/
inductive Trail (r : Replica) (account target root : String) :
    List String → BTreeMap String String → Prop where
  | start : Trail r account target root [target] ∅
  | mark {seen : List String} {forward : BTreeMap String String} {p id : String}
      {node : VersionManifest} (prev : Trail r account target root seen forward)
      (marked : id ∈ seen) (fresh : p ∉ seen) (known : r.manifest? id = some node)
      (passes : r.mayPass account (some root) id node = .ok true) (parent : p ∈ node.parents) :
      Trail r account target root (p :: seen) (forward.insert p id)

/-- A version may be passed and another is a direct parent of it. -/
def Precedes (r : Replica) (account root parent id : String) : Prop :=
  ∃ node, r.manifest? id = some node ∧ parent ∈ node.parents ∧
    r.mayPass account (some root) id node = .ok true

/-- A path forward: each version follows the one before and may be passed. -/
def Follows (r : Replica) (account root : String) : String → List String → Prop
  | _, [] => True
  | cursor, next :: rest => Precedes r account root cursor next ∧ Follows r account root next rest

section Trails

variable {r : Replica} {account target root : String} {seen : List String}
  {forward : BTreeMap String String}

theorem Trail.target_mem (h : Trail r account target root seen forward) : target ∈ seen := by
  induction h with
  | start => exact List.mem_singleton_self _
  | mark _ _ _ _ _ _ ih => exact List.mem_cons_of_mem _ ih

/-- What leads somewhere is marked. -/
theorem Trail.forward_mem (h : Trail r account target root seen forward) {x : String} :
    x ∈ forward → x ∈ seen := by
  induction h with
  | start => intro hx; exact absurd hx Std.ExtTreeMap.not_mem_empty
  | mark _ _ _ _ _ _ ih =>
      intro hx
      rw [Std.ExtTreeMap.mem_insert, Std.LawfulEqOrd.compare_eq_iff_eq] at hx
      rcases hx with rfl | hx
      · exact List.mem_cons_self ..
      · exact List.mem_cons_of_mem _ (ih hx)

/-- Everything marked but the target leads somewhere. -/
theorem Trail.length_seen (h : Trail r account target root seen forward) :
    seen.length = forward.size + 1 := by
  induction h with
  | start => rfl
  | mark prev _ fresh _ _ _ ih =>
      rw [Std.ExtTreeMap.size_insert, if_neg (fun hx =>
        fresh (prev.forward_mem (Std.ExtTreeMap.contains_iff_mem.mp hx))), List.length_cons, ih]

/-- Reading the path forward from anything marked ends at the target. -/
theorem Trail.forwardPath (hcharged : r.state.Charged)
    (h : Trail r account target root seen forward) :
    ∀ (full : BTreeMap String String), (∀ x ∈ seen, x ≠ target → full[x]? = forward[x]?) →
      ∀ (n : Nat) (cursor : String), seen.length ≤ n → cursor ∈ seen →
        ∃ path, r.forwardPath account target (some root) full n cursor = .ok path ∧
          Follows r account root cursor path ∧ (cursor :: path).getLast? = some target := by
  induction h with
  | start =>
      intro full _ n cursor hn hcursor
      obtain rfl := List.mem_singleton.mp hcursor
      cases n with
      | zero => exact absurd hn (Nat.not_succ_le_zero 0)
      | succ n =>
          refine ⟨[], ?_, trivial, rfl⟩
          rw [Replica.forwardPath]
          exact if_pos rfl
  | @mark seen forward p id node prev marked fresh known passes parent ih =>
      intro full hfull n cursor hn hcursor
      have hold : ∀ x ∈ seen, x ≠ target → full[x]? = forward[x]? := by
        intro x hx htarget
        rw [hfull x (List.mem_cons_of_mem _ hx) htarget, getElem?_insert_eq, if_neg]
        rintro rfl
        exact fresh hx
      rcases List.mem_cons.mp hcursor with rfl | hcursor
      · cases n with
        | zero => exact absurd hn (by simp)
        | succ n =>
            obtain ⟨rest, hrest, hfollows, hlast⟩ :=
              ih full hold n id (by simpa using hn) marked
            have htarget : cursor ≠ target := fun heq => fresh (heq ▸ prev.target_mem)
            have hnext : full[cursor]? = some id := by
              rw [hfull cursor (List.mem_cons_self ..) htarget, getElem?_insert_eq, if_pos rfl]
            obtain ⟨hline, hheld⟩ := mayPass_iff.mp passes
            refine ⟨id :: rest, ?_, ⟨⟨node, known, parent, passes⟩, hfollows⟩, ?_⟩
            · rw [Replica.forwardPath, if_neg htarget, hnext]
              refine bind_ok_iff.mpr ⟨id, rfl, bind_ok_iff.mpr ⟨node, epoch_ok_iff.mpr known,
                bind_ok_iff.mpr ⟨true, hline, bind_ok_iff.mpr ⟨⟨⟩, ensure_ok_iff.mpr rfl,
                  bind_ok_iff.mpr ⟨⟨⟩, forM_ok_iff.mpr fun signed hsigned => ?_,
                    bind_ok_iff.mpr ⟨rest, hrest, rfl⟩⟩⟩⟩⟩⟩
              have hsigned := Std.ExtTreeSet.mem_toList.mp hsigned
              obtain ⟨op, hop⟩ := hcharged.registered signed hsigned
              exact bind_ok_iff.mpr ⟨op, op_ok_iff.mpr hop,
                ensure_ok_iff.mpr (hheld signed hsigned op hop)⟩
            · rw [List.getLast?_cons_cons]
              exact hlast
      · refine ih full hold n cursor ?_ hcursor
        rw [List.length_cons] at hn
        omega

end Trails

-- ── The search ────

/-- All parents of retained versions. -/
def frontier (r : Replica) : List String :=
  (valuesOf r.state.versions).flatMap fun v => v.manifest.parents.toList

/-- How much of the frontier is not marked. -/
def unmarked (r : Replica) (seen : List String) : Nat :=
  ((frontier r).filter (· ∉ seen)).length

/-- The state of the search: what is marked is on a trail, and what has left the stack is not the
    active version and, where it may be passed, has all its parents marked. -/
structure Searching (r : Replica) (account current target root : String) (s : AdoptionSearch) :
    Prop where
  trail : Trail r account target root s.seen s.forward
  todo : ∀ x ∈ s.todo, x ∈ s.seen
  known : ∀ x ∈ s.seen, ∃ m, r.manifest? x = some m
  done : ∀ x ∈ s.seen, x ∉ s.todo → x ≠ current ∧
    ∀ node, r.manifest? x = some node → r.mayPass account (some root) x node = .ok true →
      ∀ p ∈ node.parents, p ∈ s.seen

section Search

variable {r : Replica} {account current target root : String}

theorem unmarked_mark {seen : List String} {p : String} (hp : p ∈ frontier r) (hfresh : p ∉ seen) :
    unmarked r (p :: seen) + 1 ≤ unmarked r seen := by
  have hfilter : (frontier r).filter (· ∉ p :: seen) =
      ((frontier r).filter (· ∉ seen)).filter (· ≠ p) := by
    rw [List.filter_filter]
    refine List.filter_congr fun x _ => ?_
    simp only [List.mem_cons, not_or, ne_eq, Bool.decide_and]
  unfold unmarked
  rw [hfilter]
  refine List.length_filter_lt_length_iff_exists.mpr ⟨p, ?_, by simp⟩
  exact List.mem_filter.mpr ⟨hp, decide_eq_true hfresh⟩

theorem mem_frontier {id p : String} {node : VersionManifest} (hnode : r.manifest? id = some node)
    (hp : p ∈ node.parents) : p ∈ frontier r := by
  obtain ⟨v, hv, rfl⟩ := version_of_parent hnode hp
  exact List.mem_flatMap.mpr ⟨v, (mem_valuesOf_iff _ v).mpr ⟨id, hv⟩,
    Std.ExtTreeSet.mem_toList.mpr hp⟩

/-- What marking parents does to a search. -/
structure Pushed (r : Replica) (account target root : String) (s s' : AdoptionSearch)
    (parents : List String) : Prop where
  trail : Trail r account target root s'.seen s'.forward
  keeps : ∀ x ∈ s.seen, x ∈ s'.seen
  marks : ∀ p ∈ parents, p ∈ s'.seen
  seen : ∀ x ∈ s'.seen, x ∈ s.seen ∨ x ∈ parents ∧ x ∈ s'.todo
  stack : ∀ x ∈ s.todo, x ∈ s'.todo
  todo : ∀ x ∈ s'.todo, x ∈ s.todo ∨ x ∈ s'.seen
  room : s'.todo.length + unmarked r s'.seen ≤ s.todo.length + unmarked r s.seen

/-- Marking the parents of a version that may be passed. -/
theorem pushParents_pushed {id : String} {node : VersionManifest}
    (hnode : r.manifest? id = some node)
    (hpass : r.mayPass account (some root) id node = .ok true) :
    ∀ (parents : List String) (s : AdoptionSearch), (∀ p ∈ parents, p ∈ node.parents) →
      Trail r account target root s.seen s.forward → id ∈ s.seen →
        Pushed r account target root s (Replica.pushParents id s parents) parents := by
  intro parents
  induction parents with
  | nil =>
      intro s _ htrail _
      exact ⟨htrail, fun _ h => h, (fun _ h => nomatch h), fun _ h => .inl h, fun _ h => h,
        fun _ h => .inl h, Nat.le_refl _⟩
  | cons p rest ih =>
      intro s hparents htrail hid
      have hrest : ∀ q ∈ rest, q ∈ node.parents := fun q hq => hparents q (List.mem_cons_of_mem _ hq)
      have hp := hparents p (List.mem_cons_self ..)
      have hstep : Replica.pushParents id s (p :: rest) =
          Replica.pushParents id (if p ∈ s.seen then s
            else ⟨p :: s.todo, p :: s.seen, s.forward.insert p id⟩) rest := rfl
      rw [hstep]
      by_cases hseen : p ∈ s.seen
      · rw [if_pos hseen]
        have h := ih s hrest htrail hid
        refine ⟨h.trail, h.keeps, fun q hq => ?_, fun x hx => ?_, h.stack, h.todo, h.room⟩
        · rcases List.mem_cons.mp hq with rfl | hq
          · exact h.keeps q hseen
          · exact h.marks q hq
        · exact (h.seen x hx).imp_right fun hx => ⟨List.mem_cons_of_mem _ hx.1, hx.2⟩
      · rw [if_neg hseen]
        have h := ih ⟨p :: s.todo, p :: s.seen, s.forward.insert p id⟩ hrest
          (.mark htrail hid hseen hnode hpass hp) (List.mem_cons_of_mem _ hid)
        refine ⟨h.trail, fun x hx => h.keeps x (List.mem_cons_of_mem _ hx), fun q hq => ?_,
          fun x hx => ?_, fun x hx => h.stack x (List.mem_cons_of_mem _ hx), fun x hx => ?_, ?_⟩
        · rcases List.mem_cons.mp hq with rfl | hq
          · exact h.keeps q (List.mem_cons_self ..)
          · exact h.marks q hq
        · rcases h.seen x hx with hx | hx
          · rcases List.mem_cons.mp hx with rfl | hx
            · exact .inr ⟨List.mem_cons_self .., h.stack x (List.mem_cons_self ..)⟩
            · exact .inl hx
          · exact .inr ⟨List.mem_cons_of_mem _ hx.1, hx.2⟩
        · rcases h.todo x hx with hx | hx
          · rcases List.mem_cons.mp hx with rfl | hx
            · exact .inr (h.keeps x (List.mem_cons_self ..))
            · exact .inl hx
          · exact .inr hx
        · have hroom := h.room
          have hmark := unmarked_mark (mem_frontier hnode hp) hseen
          dsimp only [List.length_cons] at hroom
          omega

/-- Popping a version that is not active and may not be passed. -/
theorem Searching.skip {id : String} {todo seen : List String} {forward : BTreeMap String String}
    (h : Searching r account current target root ⟨id :: todo, seen, forward⟩) (hid : id ≠ current)
    {node : VersionManifest} (hnode : r.manifest? id = some node)
    (hpass : r.mayPass account (some root) id node ≠ .ok true) :
    Searching r account current target root ⟨todo, seen, forward⟩ where
  trail := h.trail
  todo := fun x hx => h.todo x (List.mem_cons_of_mem _ hx)
  known := h.known
  done := fun x hx htodo => by
    by_cases hx' : x = id
    · subst hx'
      refine ⟨hid, fun node' hnode' hpass' => ?_⟩
      rw [Option.some.inj (hnode'.symm.trans hnode)] at hpass'
      exact absurd hpass' hpass
    · exact h.done x hx fun hmem => (List.mem_cons.mp hmem).elim hx' htodo

/-- Popping a version that is not active and marking its parents. -/
theorem Searching.pass (hclosed : Closed r) {id : String} {todo seen : List String}
    {forward : BTreeMap String String}
    (h : Searching r account current target root ⟨id :: todo, seen, forward⟩) (hid : id ≠ current)
    {node : VersionManifest} (hnode : r.manifest? id = some node)
    (hpass : r.mayPass account (some root) id node = .ok true) :
    Searching r account current target root
        (Replica.pushParents id ⟨todo, seen, forward⟩ node.parents.toList) ∧
      (Replica.pushParents id ⟨todo, seen, forward⟩ node.parents.toList).todo.length +
          unmarked r (Replica.pushParents id ⟨todo, seen, forward⟩ node.parents.toList).seen ≤
        todo.length + unmarked r seen := by
  have hpushed := pushParents_pushed hnode hpass node.parents.toList
    ⟨todo, seen, forward⟩ (fun p hp => Std.ExtTreeSet.mem_toList.mp hp) h.trail
    (h.todo id (List.mem_cons_self ..))
  refine ⟨⟨hpushed.trail, fun x hx => ?_, fun x hx => ?_, fun x hx htodo => ?_⟩, hpushed.room⟩
  · rcases hpushed.todo x hx with hx | hx
    · exact hpushed.keeps x (h.todo x (List.mem_cons_of_mem _ hx))
    · exact hx
  · rcases hpushed.seen x hx with hx | hx
    · exact h.known x hx
    · exact hclosed id node hnode x (Std.ExtTreeSet.mem_toList.mp hx.1)
  · rcases hpushed.seen x hx with hold | hnew
    · by_cases hx' : x = id
      · subst hx'
        refine ⟨hid, fun node' hnode' _ p hp => ?_⟩
        rw [Option.some.inj (hnode'.symm.trans hnode)] at hp
        exact hpushed.marks p (Std.ExtTreeSet.mem_toList.mpr hp)
      · have hout : x ∉ id :: todo := fun hmem =>
          (List.mem_cons.mp hmem).elim hx' fun hmem => htodo (hpushed.stack x hmem)
        obtain ⟨hcurrent, hexpanded⟩ := h.done x hold hout
        exact ⟨hcurrent, fun node' hnode' hpass' p hp =>
          hpushed.keeps p (hexpanded node' hnode' hpass' p hp)⟩
    · exact absurd hnew.2 htodo

/-- **The search**: with enough steps it either marks the active version on a trail, or has marked
    everything from which passable versions lead to the target. -/
theorem adoptionLoop_spec (hclosed : Closed r) (hroot : ∃ m, r.manifest? root = some m) :
    ∀ (n : Nat) (s : AdoptionSearch), Searching r account current target root s →
      s.todo.length + unmarked r s.seen < n →
        (∃ s', r.adoptionLoop account current (some root) n s = .ok (some s') ∧
          Trail r account target root s'.seen s'.forward ∧ current ∈ s'.seen) ∨
        (∃ s', r.adoptionLoop account current (some root) n s = .ok none ∧
          Searching r account current target root s' ∧ s'.todo = []) := by
  intro n
  induction n with
  | zero => intro s _ hn; exact absurd hn (Nat.not_lt_zero _)
  | succ n ih =>
      intro s h hn
      obtain ⟨todo, seen, forward⟩ := s
      cases todo with
      | nil => exact .inr ⟨⟨[], seen, forward⟩, rfl, h, rfl⟩
      | cons id todo =>
          by_cases hid : id = current
          · refine .inl ⟨⟨id :: todo, seen, forward⟩, if_pos hid, h.trail, ?_⟩
            rw [← hid]
            exact h.todo id (List.mem_cons_self ..)
          · obtain ⟨node, hnode⟩ := h.known id (h.todo id (List.mem_cons_self ..))
            obtain ⟨passes, hpasses⟩ := mayPass_total hclosed hroot hnode
            have hloop : r.adoptionLoop account current (some root) (n + 1)
                ⟨id :: todo, seen, forward⟩ =
                  if passes then r.adoptionLoop account current (some root) n
                    (Replica.pushParents id ⟨todo, seen, forward⟩ node.parents.toList)
                  else r.adoptionLoop account current (some root) n ⟨todo, seen, forward⟩ := by
              rw [Replica.adoptionLoop]
              dsimp only
              rw [if_neg hid, epoch_ok_iff.mpr hnode]
              show (r.mayPass account (some root) id node >>= _) = _
              rw [hpasses]
              rfl
            rw [hloop]
            have hn : todo.length + 1 + unmarked r seen < n + 1 := hn
            cases passes with
            | true =>
                obtain ⟨hsearching, hroom⟩ := h.pass hclosed hid hnode hpasses
                exact ih _ hsearching (by omega)
            | false =>
                refine ih ⟨todo, seen, forward⟩ (h.skip hid hnode ?_)
                  (show todo.length + unmarked r seen < n by omega)
                rw [hpasses]
                exact fun heq => nomatch heq

end Search

-- ── Adopting in turn ────

/-- The replica after the adoptions of a path, if each is accepted in its turn. -/
def Replica.adoptEach (auth : Authentication) (r : Replica) (path : List String) :
    Except String Replica :=
  path.foldlM (fun r id =>
    (r.prepare auth (.adoptVersion id)).map fun u => (u.map r.advance).getD r) r

/-- Adoptions change nothing a version is checked against. -/
structure Moved (r r' : Replica) : Prop where
  context : r'.context = r.context
  operations : r'.state.operations = r.state.operations
  owned : r'.state.owned = r.state.owned
  certificates : r'.state.certificates = r.state.certificates
  versions : r'.state.versions = r.state.versions
  signed : r'.state.signed = r.state.signed

section Adoption

variable {auth : Authentication} {r r' : Replica} {log : List Event} {account root : String}

theorem Moved.refl (r : Replica) : Moved r r := ⟨rfl, rfl, rfl, rfl, rfl, rfl⟩

theorem Moved.adopt (h : Moved r r') (name id : String) : Moved r (r'.advance (.adopt name id)) :=
  ⟨h.context, h.operations, h.owned, h.certificates, h.versions, h.signed⟩

theorem Moved.manifest (h : Moved r r') (x : String) : r'.manifest? x = r.manifest? x := by
  unfold Replica.manifest?
  rw [h.versions, h.context]

theorem Moved.ownedRoot (h : Moved r r') (name : String) : r'.ownedRoot name = r.ownedRoot name := by
  have hhas : r'.has = r.has := by
    funext kind id
    unfold Replica.has
    rw [h.certificates]
  unfold Replica.ownedRoot
  rw [h.owned, hhas]

theorem Moved.descends (h : Moved r r') (version x : String) :
    r'.descends version x = r.descends version x := by
  have hepoch : r'.epoch = r.epoch := by
    funext id
    unfold Replica.epoch
    rw [h.manifest]
  have hloop : ∀ (n : Nat) (todo seen : List String),
      r'.descendLoop x n todo seen = r.descendLoop x n todo seen := by
    intro n
    induction n with
    | zero => intro todo seen; rfl
    | succ n ih =>
        intro todo seen
        cases todo with
        | nil => rfl
        | cons id todo =>
            rw [Replica.descendLoop, Replica.descendLoop, hepoch, ih]
            refine congrArg _ (congrArg _ ?_)
            exact congrArg (r.epoch id >>= ·) (funext fun m => ih _ _)
  unfold Replica.descends Replica.walkBound
  rw [hloop, h.versions]

theorem Moved.onLine (h : Moved r r') (id : String) : r'.onLine root id = r.onLine root id := by
  unfold Replica.onLine
  rw [h.descends, h.descends]

/-- An adoption that changes a replica moves one account to a version that may be passed. -/
theorem precedes_of_adopt (h : Moved r r') {u : Update} {id : String}
    (hprepare : r'.prepare auth (.adoptVersion id) = .ok (some u)) :
    ∃ (v : DagVersion) (current : String), r.state.versions[id]? = some v ∧
      u = .adopt v.manifest.account id ∧ r'.state.active[v.manifest.account]? = some current ∧
      (v.manifest.account = account → r.ownedRoot account = some root →
        Precedes r account root current id) := by
  have hadmits := admits_of_prepare hprepare
  generalize he : Event.adoptVersion id = event at hadmits
  cases hadmits with
  | @adopt id' v known current active moves continues parent held =>
      obtain rfl : id = id' := Event.adoptVersion.inj he
      rw [h.versions] at known
      refine ⟨v, current, known, rfl, active, ?_⟩
      rintro rfl hroot
      refine ⟨v.manifest, ?_, parent, mayPass_iff.mpr ⟨?_, fun signed hsigned op hop => ?_⟩⟩
      · unfold Replica.manifest?
        rw [known]
      · rw [← h.onLine]
        exact (checkContinuation_iff ((h.ownedRoot _).trans hroot)).mp continues
      · obtain ⟨op', hop', hheld⟩ := held signed (h.signed ▸ hsigned)
        rw [h.operations, hop] at hop'
        rw [Option.some.inj hop']
        exact hheld
  | _ => exact nomatch he

/-- Along accepted adoptions an account's active version leads to the one it ends at. -/
theorem leads_of_adoptEach (hroot : r.ownedRoot account = some root) {r'' : Replica} {last : String}
    (hlast : r''.state.active[account]? = some last) :
    ∀ (path : List String) (r' : Replica), Moved r r' → r'.adoptEach auth path = .ok r'' →
      ∃ current, r'.state.active[account]? = some current ∧
        Relation.ReflTransGen (Precedes r account root) current last := by
  intro path
  induction path with
  | nil =>
      intro r' _ h
      rw [Except.ok.inj h]
      exact ⟨last, hlast, .refl⟩
  | cons id rest ih =>
      intro r' hmoved h
      unfold Replica.adoptEach at h
      rw [List.foldlM_cons] at h
      obtain ⟨next, hnext, h⟩ := bind_ok_iff.mp h
      obtain ⟨u, hprepare, rfl⟩ := map_ok_iff.mp hnext
      cases u with
      | none => exact ih r' hmoved h
      | some u =>
          obtain ⟨v, old, hv, rfl, hold, hprecedes⟩ :=
            precedes_of_adopt hmoved hprepare
          obtain ⟨after, hafter, hleads⟩ := ih _ (hmoved.adopt _ _) h
          have hget : (r'.state.active.insert v.manifest.account id)[account]? = some after := hafter
          rw [getElem?_insert_eq] at hget
          by_cases haccount : account = v.manifest.account
          · rw [if_pos haccount] at hget
            rw [← Option.some.inj hget] at hleads
            rw [← haccount] at hold
            exact ⟨old, hold, .head (hprecedes haccount.symm hroot) hleads⟩
          · rw [if_neg haccount] at hget
            exact ⟨after, hget, hleads⟩

theorem adoptEach_context {path : List String} (h : r.adoptEach auth path = .ok r') :
    r'.context = r.context := by
  unfold Replica.adoptEach at h
  refine foldlM_inv (I := fun _ x => x.context = r.context) ?_ rfl h
  intro _ id x y _ hx hround
  obtain ⟨u, -, rfl⟩ := map_ok_iff.mp hround
  cases u with
  | none => exact hx
  | some u => exact hx

/-- The next version of a path is accepted. -/
theorem adopt_next (h : Moved r r') (hcharged : r'.state.Charged)
    (hroot : r.ownedRoot account = some root) {cursor next : String} {node : VersionManifest}
    (hnode : r.manifest? next = some node) (haccount : node.account = account)
    (hparent : cursor ∈ node.parents)
    (hpass : r.mayPass account (some root) next node = .ok true)
    (hactive : r'.state.active[account]? = some cursor) :
    r'.prepare auth (.adoptVersion next) =
      .ok (if cursor = next then none else some (.adopt account next)) := by
  obtain ⟨v, hv, rfl⟩ := version_of_parent hnode hparent
  obtain ⟨hline, hheld⟩ := mayPass_iff.mp hpass
  subst haccount
  show r'.prepareAdopt next = _
  unfold Replica.prepareAdopt
  rw [h.versions, hv]
  dsimp only [orError]
  refine bind_ok_iff.mpr ⟨v, rfl, bind_ok_iff.mpr ⟨cursor, ?_, ?_⟩⟩
  · rw [hactive]
  · by_cases hsame : cursor = next
    · rw [if_pos hsame, if_pos hsame]
      rfl
    · rw [if_neg hsame, if_neg hsame]
      refine bind_ok_iff.mpr ⟨⟨⟩, ?_, bind_ok_iff.mpr ⟨⟨⟩, ensure_ok_iff.mpr hparent,
        bind_ok_iff.mpr ⟨⟨⟩, (holdsSigned_iff hcharged).mpr ?_, rfl⟩⟩⟩
      · refine (checkContinuation_iff ((h.ownedRoot _).trans hroot)).mpr ?_
        rw [h.onLine]
        exact hline
      · rw [h.signed, h.operations]
        exact hheld

/-- A path forward is accepted to its end. -/
theorem adoptEach_follows (hlinked : Linked r log) (hroot : r.ownedRoot account = some root) :
    ∀ (path : List String) (r' : Replica) (cursor : String), Moved r r' → r'.state.Charged →
      r'.state.active[account]? = some cursor →
      (∃ m, r.manifest? cursor = some m ∧ m.account = account) →
      Follows r account root cursor path →
        ∃ r'', r'.adoptEach auth path = .ok r'' ∧
          r''.state.active[account]? = (cursor :: path).getLast? ∧ r''.context = r.context := by
  intro path
  induction path with
  | nil =>
      intro r' cursor hmoved _ hactive _ _
      exact ⟨r', rfl, hactive, hmoved.context⟩
  | cons next rest ih =>
      intro r' cursor hmoved hcharged hactive hknown hfollows
      obtain ⟨⟨node, hnode, hparent, hpass⟩, hfollows⟩ := hfollows
      obtain ⟨m, hm, hmaccount⟩ := hknown
      obtain ⟨m', hm', hsame⟩ := hlinked.parent hnode hparent
      rw [Option.some.inj (hm'.symm.trans hm), hmaccount] at hsame
      have hprepare := @adopt_next auth _ _ _ _ hmoved hcharged hroot _ _ _ hnode hsame.symm hparent
        hpass hactive
      rw [List.getLast?_cons_cons]
      unfold Replica.adoptEach
      rw [List.foldlM_cons, hprepare]
      by_cases hsteps : cursor = next
      · rw [if_pos hsteps]
        exact ih r' next hmoved hcharged (hsteps ▸ hactive) ⟨node, hnode, hsame.symm⟩ hfollows
      · rw [if_neg hsteps] at hprepare ⊢
        refine ih (r'.advance (.adopt account next)) next (hmoved.adopt _ _)
          (charged_step hcharged (admits_of_prepare hprepare)) ?_ ⟨node, hnode, hsame.symm⟩ hfollows
        exact (getElem?_insert_eq _ _ _ _).trans (if_pos rfl)

end Adoption

-- ── Plans ────

section Plans

variable {auth : Authentication} {r : Replica} {log : List Event} {account target root : String}

/-- Everything on a trail belongs to the target's account. -/
theorem Trail.same_account (hlinked : Linked r log) {seen : List String}
    {forward : BTreeMap String String} (h : Trail r account target root seen forward)
    (htarget : ∃ m, r.manifest? target = some m ∧ m.account = account) :
    ∀ x ∈ seen, ∃ m, r.manifest? x = some m ∧ m.account = account := by
  induction h with
  | start =>
      intro x hx
      rw [List.mem_singleton.mp hx]
      exact htarget
  | mark _ marked _ known _ parent ih =>
      intro x hx
      rcases List.mem_cons.mp hx with rfl | hx
      · obtain ⟨m, hm, hsame⟩ := hlinked.parent known parent
        obtain ⟨m', hm', haccount⟩ := ih _ marked
        rw [Option.some.inj (hm'.symm.trans known)] at haccount
        exact ⟨m, hm, hsame.trans haccount⟩
      · exact ih x hx

/-- The search starts at the target. -/
theorem searching_start (current : String) (htarget : ∃ m, r.manifest? target = some m) :
    Searching r account current target root ⟨[target], [target], ∅⟩ where
  trail := .start
  todo := fun _ hx => hx
  known := fun x hx => by
    rw [List.mem_singleton.mp hx]
    exact htarget
  done := fun _ hx htodo => absurd hx htodo

/-- The bound of a walk covers the search. -/
theorem unmarked_lt_walkBound (seen : List String) : 1 + unmarked r seen < r.walkBound := by
  have hle : unmarked r seen ≤ (frontier r).length := List.length_filter_le _ _
  have hlength : (frontier r).length =
      ((valuesOf r.state.versions).map fun v => v.manifest.parents.size).sum := by
    unfold frontier
    rw [List.length_flatMap]
    exact congrArg List.sum (List.map_congr_left fun v _ => Std.ExtTreeSet.length_toList)
  unfold Replica.walkBound
  omega

/-- An exhausted search has marked whatever leads to the target by passable versions, and the
    active version is not among it. -/
theorem not_leads_of_exhausted {current : String} {s : AdoptionSearch}
    (h : Searching r account current target root s) (htodo : s.todo = []) :
    ¬ Relation.ReflTransGen (Precedes r account root) current target := by
  intro hleads
  have hout : ∀ x, x ∉ s.todo := fun x hx => by
    rw [htodo] at hx
    exact nomatch hx
  have hmem : ∀ x, Relation.ReflTransGen (Precedes r account root) x target → x ∈ s.seen := by
    intro x hx
    induction hx using Relation.ReflTransGen.head_induction_on with
    | refl => exact h.trail.target_mem
    | head hstep _ ih =>
        obtain ⟨node, hnode, hparent, hpass⟩ := hstep
        exact (h.done _ ih (hout _)).2 node hnode hpass _ hparent
  exact (h.done current (hmem current hleads) (hout current)).1 rfl

/-- **The plan**: a path forward to the target, or none of any kind. -/
theorem adoptionPath_spec (hlinked : Linked r log) (hcharged : r.state.Charged)
    (hroot : r.ownedRoot account = some root) {m : VersionManifest}
    (hm : r.manifest? target = some m) (haccount : m.account = account) {current : String}
    (hactive : r.activeEpoch account = .ok current) :
    (∃ path, r.adoptionPath target (some root) = .ok path ∧ Follows r account root current path ∧
      (current :: path).getLast? = some target ∧
      ∃ m, r.manifest? current = some m ∧ m.account = account) ∨
    (∃ reason, r.adoptionPath target (some root) = .error reason) ∧
      ¬ Relation.ReflTransGen (Precedes r account root) current target := by
  subst haccount
  unfold Replica.adoptionPath
  rw [epoch_ok_iff.mpr hm]
  dsimp only [bind, Except.bind]
  rw [hactive]
  dsimp only
  by_cases htarget : current = target
  · rw [if_pos htarget]
    exact .inl ⟨[], rfl, trivial, congrArg some htarget, m, htarget ▸ hm, rfl⟩
  · rw [if_neg htarget]
    rcases adoptionLoop_spec hlinked.closed (hlinked.root_known hroot) r.walkBound
        ⟨[target], [target], ∅⟩ (searching_start current ⟨m, hm⟩)
        (unmarked_lt_walkBound [target]) with
      ⟨s, hloop, htrail, hmarked⟩ | ⟨s, hloop, hsearching, htodo⟩
    · obtain ⟨path, hpath, hfollows, hlast⟩ := htrail.forwardPath hcharged s.forward
        (fun _ _ _ => rfl) (s.forward.size + 1) current htrail.length_seen.le hmarked
      rw [hloop]
      exact .inl ⟨path, hpath, hfollows, hlast,
        htrail.same_account hlinked ⟨m, hm, rfl⟩ current hmarked⟩
    · rw [hloop]
      exact .inr ⟨⟨_, rfl⟩, not_leads_of_exhausted hsearching htodo⟩

/-- A target that is not owned has the empty plan. -/
theorem ownedAdoptionPath_of_not_owned {m : VersionManifest} (known : r.manifest? target = some m)
    (h : m.phase ≠ .owned) : r.ownedAdoptionPath target = .ok [] := by
  unfold Replica.ownedAdoptionPath
  rw [epoch_ok_iff.mpr known]
  exact if_pos h

end Plans

/-- The plan of a catch-up: accepted to its end, and missing only where there is none. -/
structure CatchesUp (auth : Authentication) (r : Replica) (target account : String) : Prop where
  sound : ∀ path : List String, r.ownedAdoptionPath target = .ok path →
    ∃ r', r.adoptEach auth path = .ok r' ∧ r'.activeEpoch account = .ok target ∧
      (path.getLast? = some target ∨ path = [])
  complete : ∀ reason root : String, r.ownedAdoptionPath target = .error reason →
    r.ownedRoot account = some root → r.descends target root = .ok true →
      ∀ (path : List String) (r' : Replica), r.adoptEach auth path = .ok r' →
        r'.activeEpoch account ≠ .ok target

/-- **Catch-up planning is sound and complete** for every known version of a collision-free log: the
    plan for an owned target is accepted to its end, and where there is none no sequence of
    adoptions leads to the target; a target that is not owned has the empty plan. -/
theorem catch_up_planning {auth : Authentication} {c : Context} {validator : String}
    {limits : Limits} {r : Replica} {log : List Event}
    (reached : Reached auth c validator limits r log) (free : CollisionFree c log)
    {target : String} {m : VersionManifest} (known : r.manifest? target = some m) :
    (m.phase = .owned → CatchesUp auth r target m.account) ∧
      (m.phase ≠ .owned → r.ownedAdoptionPath target = .ok []) := by
  have hlinked := reached.linked free
  have hcharged := reached.charged
  refine ⟨fun howned => ?_, fun hconcurrent => ?_⟩
  · -- an owned version is retained, and its account is the actor's own
    have hshape : ¬ (m.phase = .owned ∧ r.context.rule.ownership = .collective) ∧
        m.account ∈ r.context.initial := by
      unfold Replica.manifest? at known
      cases hv : r.state.versions[target]? with
      | some v =>
          rw [hv] at known
          rw [← Option.some.inj known]
          exact hlinked.shape target v hv
      | none =>
          rw [hv] at known
          obtain ⟨a, b, -, -, rfl⟩ := r.context.root_manifest target m known
          exact nomatch howned
    have haccount : ∀ r' : Replica, r'.context = r.context → ∀ id : String,
        r'.activeEpoch m.account = .ok id ↔ r'.state.active[m.account]? = some id := by
      intro r' hcontext id
      have hname : r'.context.account m.account = .ok m.account := by
        rw [hcontext]
        unfold Context.account
        rw [if_neg fun h => hshape.1 ⟨howned, h.1⟩, if_pos hshape.2]
      unfold Replica.activeEpoch
      rw [hname]
      exact orError_ok_iff
    have hplan : ∀ root : String, r.ownedRoot m.account = some root →
        r.descends target root = .ok true →
          r.ownedAdoptionPath target = r.adoptionPath target (some root) := by
      intro root hroot hdescends
      unfold Replica.ownedAdoptionPath
      rw [epoch_ok_iff.mpr known]
      show (if m.phase ≠ .owned then _ else _) = _
      rw [if_neg (fun h => h howned), hroot]
      show (r.descends target root >>= _) = _
      rw [hdescends]
      rfl
    refine ⟨fun path hpath => ?_, fun reason root herror hroot hdescends path r' hadopt hends => ?_⟩
    · -- an answer means a certified root the target descends from
      have hchecks : ∃ root, r.ownedRoot m.account = some root ∧
          r.descends target root = .ok true := by
        unfold Replica.ownedAdoptionPath at hpath
        rw [epoch_ok_iff.mpr known] at hpath
        replace hpath := (if_neg (fun h => h howned)).symm.trans hpath
        obtain ⟨root, hroot, hpath⟩ := bind_ok_iff.mp hpath
        obtain ⟨inside, hinside, hpath⟩ := bind_ok_iff.mp hpath
        obtain ⟨⟨⟩, htrue, -⟩ := bind_ok_iff.mp hpath
        rw [ensure_ok_iff.mp htrue] at hinside
        exact ⟨root, orError_ok_iff.mp hroot, hinside⟩
      obtain ⟨root, hroot, hdescends⟩ := hchecks
      rw [hplan root hroot hdescends] at hpath
      have hcurrent : ∃ current, r.activeEpoch m.account = .ok current := by
        unfold Replica.adoptionPath at hpath
        rw [epoch_ok_iff.mpr known] at hpath
        obtain ⟨m', hm', hpath⟩ := bind_ok_iff.mp hpath
        obtain rfl : m = m' := Except.ok.inj hm'
        obtain ⟨current, hcurrent, -⟩ := bind_ok_iff.mp hpath
        exact ⟨current, hcurrent⟩
      obtain ⟨current, hcurrent⟩ := hcurrent
      rcases adoptionPath_spec hlinked hcharged hroot known rfl hcurrent with
        ⟨path', hpath', hfollows, hlast, hknown⟩ | ⟨⟨reason, herror⟩, -⟩
      · obtain rfl : path' = path := Except.ok.inj (hpath'.symm.trans hpath)
        obtain ⟨r', hadopt, hactive, hcontext⟩ := adoptEach_follows hlinked hroot path'
          r current (.refl r) hcharged ((haccount r rfl current).mp hcurrent) hknown hfollows
        refine ⟨r', hadopt, (haccount r' hcontext target).mpr (hactive.trans hlast), ?_⟩
        cases path' with
        | nil => exact .inr rfl
        | cons next rest =>
            rw [List.getLast?_cons_cons] at hlast
            exact .inl hlast
      · exact nomatch hpath.symm.trans herror
    · rw [hplan root hroot hdescends] at herror
      have hmoved : r'.context = r.context := adoptEach_context hadopt
      obtain ⟨current, hcurrent, hleads⟩ := leads_of_adoptEach hroot
        ((haccount r' hmoved target).mp hends) path r (.refl r) hadopt
      rcases adoptionPath_spec hlinked hcharged hroot known rfl
          ((haccount r rfl current).mpr hcurrent) with ⟨path', hpath', -⟩ | ⟨-, hnone⟩
      · exact nomatch hpath'.symm.trans herror
      · exact hnone hleads
  · exact ownedAdoptionPath_of_not_owned known hconcurrent

-- ── One account ────

/-- A counter of accounts that validators certify. -/
def counterRule : CbclEscrow.CounterRule := { CbclEscrowObservation.tillRule with
  certification := .quorumBudget none none
  transfer := some ("pass", "payee", "n") }

/-- Its dialect: tellers open, put, take and pass. -/
def counterDialect : CbclDialect.Dialect :=
  { CbclRegistry.plainDialect "till" (["open", "put", "take", "pass"].map fun verb =>
      ⟨verb, [], CbclDialect.effectTemplate verb, some ⟨"bank", ∅⟩⟩) with
    roles := [⟨"bank", .indexed⟩]
    shapes := [⟨"open", [.require "alloc" (some .list) []]⟩,
      ⟨"put", [.require "n" (some .number) []]⟩, ⟨"take", [.require "n" (some .number) []]⟩,
      ⟨"pass", [.require "payee" (some .string) [], .require "n" (some .number) []]⟩]
    causal_protocol := some ⟨((∅ : BTreeMap String CbclProtocol.StepDecl).insert "begin"
      ⟨"begin", [], [.single "open"]⟩).insert "open" ⟨"open", [.single "begin"], []⟩⟩
    state := some ⟨[.field "budget" (.boundedCounter counterRule)]⟩ }

/-- The root, which casts one teller. -/
def counterRoot : Act where
  address := "sha256-91fb7e4306985cdc0c24536579f9b8bdbb8a7c8a5a22afb5707e53e6838e1df3"
  verb := "hello"
  signer := "@alice"
  predecessors := []
  recipients := ∅
  fields := ∅
  message := .wrapped .withRoles [.list [.list [.atom (.symbol "bank"), .atom (.symbol "@alice")]]]
    (.simple (.core .hello) none (.list []) [] (some "t") none (some .begin))

/-- What the teller's account starts with. -/
def counterAlloc : SExpr := .list [.list [.atom (.symbol "@alice"), .atom (.num 10)]]

/-- The opener. -/
def counterOpener : Act where
  address := "sha256-14e86a75d20c731e9028cba951cc21cd70a030e84ab19cbc5d52bcc449d00966"
  verb := "open"
  signer := "@alice"
  predecessors := [counterRoot.address]
  recipients := ∅
  fields := (∅ : BTreeMap String SExpr).insert "alloc" counterAlloc
  message := .dialect "till" (.simple (.custom "open") none (.list [])
    [.atom (.keyword "alloc"), counterAlloc] (some "t") none (some (.single counterRoot.address)))

/-- The accepted history of the counter. -/
def counterInstance : CbclExports.Instance :=
  ⟨counterDialect, "t", [counterRoot, counterOpener], none, none, none⟩

/-- What is read off that history. -/
def counterFounding : CbclContext.Founding where
  id := "sha256-e1163f36800287f9679a4783ff0194070ff9af8c9600e421104ada12c2bfdb23"
  field := "budget"
  dialect := counterDialect
  thread := "t"
  genesis := ⟨counterRoot, counterOpener⟩
  rule := counterRule
  committee := ⟨["@v"], 0, 1⟩
  endowment := ⟨(∅ : BTreeMap String Resources).insert "@alice" ⟨10, 0⟩,
    (∅ : BTreeSet String).insert "@alice"⟩
  issuers := (∅ : BTreeSet String).insert "@alice"

/-- A host on which these signatures verify. -/
def counterHost : Authentication := ⟨fun _ _ signature => signature = [1], fun _ => true⟩

/-- What is computed of the founding: the hash of its dialect, its identity, and what it reads off
    the history. -/
theorem counter_runs :
    CbclDialectCanonical.dialectHash CbclSha256.sha256 counterDialect
      = "sha256:b0022f50ea16abcbbdff629d90c42cf7eabd72ada246b3c5b69a495ee6686e7e" ∧
    digest CbclSha256.sha256 (CbclContext.contextParts
      "sha256:b0022f50ea16abcbbdff629d90c42cf7eabd72ada246b3c5b69a495ee6686e7e" "t"
        counterFounding.genesis "budget" counterFounding.committee) = counterFounding.id ∧
    (CbclContext.found CbclSha256.sha256 counterHost counterInstance "budget"
      (some ["@v"])).toOption.any (fun f => decide (f.genesis = counterFounding.genesis) &&
        decide (f.rule = counterFounding.rule) && decide (f.committee = counterFounding.committee) &&
        decide (f.endowment.initial = counterFounding.endowment.initial) &&
        decide (f.endowment.actors = counterFounding.endowment.actors) &&
        decide (f.issuers = counterFounding.issuers)) = true := by
  rw [CbclSha256Words.sha256_eq]
  refine ⟨?_, ?_, ?_⟩ <;> decide +kernel

/-- The founding of the counter. -/
theorem counter_found : CbclContext.found CbclSha256.sha256 counterHost counterInstance "budget"
    (some ["@v"]) = .ok counterFounding := by
  obtain ⟨hdialectHash, hcomputed, hany⟩ := counter_runs
  obtain ⟨f, hf, hruns⟩ := (Option.any_eq_true _ _).mp hany
  have hfound := toOption_eq_some_iff.mp hf
  have founded := CbclContext.found_ok_iff.mp hfound
  simp only [Bool.and_eq_true, decide_eq_true_eq] at hruns
  obtain ⟨⟨⟨⟨⟨hgenesis, hrule⟩, hcommittee⟩, hinitial⟩, hactors⟩, hissuers⟩ := hruns
  have hid : f.id = counterFounding.id := by
    rw [founded.identity, hgenesis, hcommittee, ← hcomputed, ← hdialectHash]
    rfl
  have hdialect := founded.dialect
  have hthread := founded.thread
  have hfield := founded.named
  rw [hfound]
  cases f with
  | mk id field dialect thread genesis rule committee endowment issuers =>
  cases endowment with
  | mk initial actors =>
  dsimp only at hgenesis hrule hcommittee hinitial hactors hissuers hid hdialect hthread hfield
  subst hgenesis hrule hcommittee hinitial hactors hissuers hid hdialect hthread hfield
  rfl

/-- A counter of one account, which starts with ten, and one validator. -/
def counterContext : Context :=
  counterFounding.toContext CbclSha256.sha256 (CbclContext.found_ok_iff.mp counter_found).seated
    (CbclContext.found_ok_iff.mp counter_found).endowed

/-- The context is the one of the accepted history. -/
theorem fromInstance_counter : CbclContext.fromInstance CbclSha256.sha256 counterHost
    counterInstance "budget" (some ["@v"]) = .ok counterContext :=
  CbclContext.fromInstance_ok_iff.mpr
    ⟨counterFounding, CbclContext.found_ok_iff.mp counter_found, rfl, rfl⟩

/-- The version after the genesis version, in either phase. -/
def secondManifest (phase : VersionPhase) : VersionManifest :=
  ⟨phase, "@alice", (∅ : BTreeSet String).insert
    (digest CbclSha256.sha256 (rootParts counterContext.id "@alice")), 1, ∅, ∅, ∅, ⟨10, 0⟩⟩

/-- A signed vote on the second version. -/
def secondVote (kind : VoteKind) (phase : VersionPhase) (signer : String) : Vote :=
  ⟨counterContext.id, kind, counterContext.versionId (secondManifest phase), signer, [1]⟩

/-- The second version with its owner's authorization. -/
def secondVersion (phase : VersionPhase) : DagVersion :=
  ⟨secondManifest phase, secondVote .versionRequest phase "@alice"⟩

/-- The replica before any event. -/
def counterReplica : Replica := .fresh counterContext "@v" ⟨8, 8, 8, 1000, 64⟩

/-- The two versions of the counter have different identities. -/
theorem collisionFree_second {log : List Event} {phase : VersionPhase}
    (hlog : ∀ e ∈ log, ∀ m ∈ e.manifests, m = secondManifest phase)
    (hne : counterContext.versionId (secondManifest phase) ≠
      digest CbclSha256.sha256 (rootParts counterContext.id "@alice")) :
    CollisionFree counterContext log := by
  have hinput : ∀ x ∈ identityInputs counterContext log,
      x = encode (.list (rootParts counterContext.id "@alice")) ∨
        x = encode (.list ((secondManifest phase).parts counterContext.id)) := by
    rintro x (⟨a, ha, rfl⟩ | ⟨e, he, m, hm, rfl⟩)
    · have ha : a ∈ (∅ : BTreeMap String Resources).insert "@alice" ⟨10, 0⟩ := ha
      rw [Std.ExtTreeMap.mem_insert, Std.LawfulEqOrd.compare_eq_iff_eq] at ha
      rcases ha with rfl | ha
      · exact .inl rfl
      · exact absurd ha Std.ExtTreeMap.not_mem_empty
    · rw [hlog e he m hm]
      exact .inr rfl
  have hdigest :
      CbclSha256.sha256 (encode (.list ((secondManifest phase).parts counterContext.id))) ≠
        CbclSha256.sha256 (encode (.list (rootParts counterContext.id "@alice"))) := fun heq =>
    hne (congrArg (fun d => "sha256-" ++ hex32 d) heq)
  intro x hx y hy heq
  rcases hinput x hx with rfl | rfl
  · rcases hinput y hy with rfl | rfl
    · rfl
    · exact absurd heq.symm hdigest
  · rcases hinput y hy with rfl | rfl
    · exact absurd heq hdigest
    · rfl

/-- A certified owned root: the request of the account and the seal of the validator. -/
def sealRequest : OwnedSealRequest :=
  ⟨secondVersion .owned, secondVote .ownedSealRequest .owned "@alice"⟩

def sealCertificate : Certificate :=
  ⟨.ownedSeal, counterContext.versionId (secondManifest .owned),
    [secondVote .ownedSeal .owned "@v"]⟩

/-- The events of an account that becomes owned; the certificate comes twice. -/
def sealLog : List Event :=
  [.initialized, .ownedProposal sealRequest, .certificate sealCertificate,
    .certificate sealCertificate]

/-- The replica of an account that has asked to become owned. -/
def proposedReplica : Replica :=
  counterReplica.advance
    (.owned (counterContext.versionId (secondManifest .owned)) sealRequest false)

/-- The replica of an account that has become owned. -/
def certifiedReplica : Replica :=
  proposedReplica.advance
    (.certificate .ownedSeal (counterContext.versionId (secondManifest .owned)) sealCertificate)

/-- The replica of the log, which counts the repeated certificate as well. -/
def sealedReplica : Replica :=
  { certifiedReplica with sequence := certifiedReplica.sequence + 1 }

/-- What is computed of the counter: the three events of the seal, the identities, the plan. -/
theorem seal_runs :
    (counterReplica.prepare counterHost (.ownedProposal sealRequest)).toOption =
      some (some (.owned (counterContext.versionId (secondManifest .owned)) sealRequest false)) ∧
    (proposedReplica.prepare counterHost (.certificate sealCertificate)).toOption =
      some (some (.certificate .ownedSeal (counterContext.versionId (secondManifest .owned))
        sealCertificate)) ∧
    (certifiedReplica.prepare counterHost (.certificate sealCertificate)).toOption = some none ∧
    counterContext.versionId (secondManifest .owned) ≠
      digest CbclSha256.sha256 (rootParts counterContext.id "@alice") ∧
    (sealedReplica.ownedAdoptionPath (counterContext.versionId (secondManifest .owned))).toOption =
      some [counterContext.versionId (secondManifest .owned)] := by
  unfold sealedReplica certifiedReplica proposedReplica sealCertificate sealRequest secondVersion
    secondVote secondManifest counterReplica counterContext
  rw [CbclSha256Words.sha256_eq]
  refine ⟨?_, ?_, ?_, ?_, ?_⟩ <;> decide +kernel

/-- A replay goes on from what an event does. -/
theorem replay_of_prepare {auth : Authentication} {r : Replica} {event : Event} {u : Option Update}
    (h : r.prepare auth event = .ok u) (rest : List Event) :
    r.replay auth (event :: rest) =
      (u.elim { r with sequence := r.sequence + 1 } r.advance).replay auth rest := by
  rw [Replica.replay, h]
  cases u with
  | none => rfl
  | some u => rfl

/-- The log is recovered. -/
theorem recover_sealLog : Replica.recover counterHost counterContext "@v"
    ⟨8, 8, 8, 1000, 64⟩ ⟨some sealLog, []⟩ = .ok sealedReplica := by
  have hseat : ¬ ¬ counterContext.isValidator "@v" = true := not_not.mpr rfl
  have hlog : ¬ (sealLog.head? ≠ some .initialized ∨ sealLog.length > 8) :=
    fun h => h.elim (fun hne => hne rfl) (by decide)
  unfold Replica.recover
  rw [if_neg hseat]
  dsimp only
  rw [if_neg hlog]
  calc counterReplica.replay counterHost [.ownedProposal sealRequest,
        .certificate sealCertificate, .certificate sealCertificate]
      = proposedReplica.replay counterHost
          [.certificate sealCertificate, .certificate sealCertificate] :=
        replay_of_prepare (toOption_eq_some_iff.mp seal_runs.1) _
    _ = certifiedReplica.replay counterHost [.certificate sealCertificate] :=
        replay_of_prepare (toOption_eq_some_iff.mp seal_runs.2.1) _
    _ = sealedReplica.replay counterHost [] :=
        replay_of_prepare (toOption_eq_some_iff.mp seal_runs.2.2.1) _
    _ = .ok sealedReplica := rfl

theorem sealedReplica_reached : Reached counterHost counterContext "@v" ⟨8, 8, 8, 1000, 64⟩
    sealedReplica sealLog := by
  obtain ⟨log, hlog, hreached⟩ := recover_reached recover_sealLog
  rw [← Option.some.inj hlog] at hreached
  exact hreached

theorem collisionFree_sealLog : CollisionFree counterContext sealLog := by
  refine @collisionFree_second _ .owned (fun e he m hm => ?_) seal_runs.2.2.2.1
  rcases List.mem_cons.mp he with rfl | he
  · exact nomatch hm
  · rcases List.mem_cons.mp he with rfl | he
    · exact List.mem_singleton.mp hm
    · rcases List.mem_cons.mp he with rfl | he
      · exact nomatch hm
      · rw [List.mem_singleton.mp he] at hm
        exact nomatch hm

/-- The second version is known where it is retained. -/
theorem manifest_second {r : Replica} {phase : VersionPhase}
    (h : r.state.versions = (∅ : BTreeMap String DagVersion).insert
      (counterContext.versionId (secondManifest phase)) (secondVersion phase)) :
    r.manifest? (counterContext.versionId (secondManifest phase)) = some (secondManifest phase) := by
  unfold Replica.manifest?
  rw [h, Std.ExtTreeMap.getElem?_insert_self]
  rfl

/-- An account of a context built from an accepted history became owned, and catches up with its
    root in one step. -/
theorem catch_up_sealed :
    CbclContext.fromInstance CbclSha256.sha256 counterHost counterInstance "budget"
        (some ["@v"]) = .ok counterContext ∧
      CatchesUp counterHost sealedReplica (counterContext.versionId (secondManifest .owned))
        "@alice" ∧
      sealedReplica.ownedAdoptionPath (counterContext.versionId (secondManifest .owned)) =
        .ok [counterContext.versionId (secondManifest .owned)] :=
  ⟨fromInstance_counter,
    (catch_up_planning sealedReplica_reached collisionFree_sealLog (manifest_second rfl)).1 rfl,
    toOption_eq_some_iff.mp seal_runs.2.2.2.2⟩

/-- The replica that knows a second version, and has not adopted it. -/
def offeredReplica : Replica :=
  counterReplica.advance
    (.version (counterContext.versionId (secondManifest .concurrent)) (secondVersion .concurrent))

/-- What is computed of the offer: its event, the identities and the active version. -/
theorem offer_runs :
    (counterReplica.prepare counterHost (.version (secondVersion .concurrent))).toOption =
      some (some (.version (counterContext.versionId (secondManifest .concurrent))
        (secondVersion .concurrent))) ∧
    counterContext.versionId (secondManifest .concurrent) ≠
      digest CbclSha256.sha256 (rootParts counterContext.id "@alice") ∧
    (offeredReplica.activeEpoch "@alice").toOption =
      some (digest CbclSha256.sha256 (rootParts counterContext.id "@alice")) := by
  unfold offeredReplica secondVersion secondVote secondManifest counterReplica counterContext
  rw [CbclSha256Words.sha256_eq]
  refine ⟨?_, ?_, ?_⟩ <;> decide +kernel

/-- **A target that is not owned**: the plan is the empty list, and leaves the account where it
    was. -/
theorem concurrent_target_not_reached :
    Reached counterHost counterContext "@v" ⟨8, 8, 8, 1000, 64⟩ offeredReplica
      [.initialized, .version (secondVersion .concurrent)] ∧
    CollisionFree counterContext [.initialized, .version (secondVersion .concurrent)] ∧
    offeredReplica.manifest? (counterContext.versionId (secondManifest .concurrent)) =
      some (secondManifest .concurrent) ∧
    ∃ path, offeredReplica.ownedAdoptionPath
        (counterContext.versionId (secondManifest .concurrent)) = .ok path ∧
      ∀ r', offeredReplica.adoptEach counterHost path = .ok r' →
        r'.activeEpoch "@alice" ≠ .ok (counterContext.versionId (secondManifest .concurrent)) := by
  have hreached : Reached counterHost counterContext "@v" ⟨8, 8, 8, 1000, 64⟩ offeredReplica
      ([.initialized] ++ [.version (secondVersion .concurrent)]) :=
    .step .fresh (toOption_eq_some_iff.mp offer_runs.1)
  have hfree : CollisionFree counterContext
      [.initialized, .version (secondVersion .concurrent)] := by
    refine @collisionFree_second _ .concurrent (fun e he m hm => ?_) offer_runs.2.1
    rcases List.mem_cons.mp he with rfl | he
    · exact nomatch hm
    · rw [List.mem_singleton.mp he] at hm
      exact List.mem_singleton.mp hm
  have hknown : offeredReplica.manifest? (counterContext.versionId (secondManifest .concurrent)) =
      some (secondManifest .concurrent) := manifest_second rfl
  refine ⟨hreached, hfree, hknown, [], ?_, fun r' hr' hactive => ?_⟩
  · exact ownedAdoptionPath_of_not_owned hknown VersionPhase.noConfusion
  · -- the account is still at its genesis version
    rw [← Except.ok.inj hr', toOption_eq_some_iff.mp offer_runs.2.2] at hactive
    exact offer_runs.2.1 (Except.ok.inj hactive).symm

end CbclQuorum
