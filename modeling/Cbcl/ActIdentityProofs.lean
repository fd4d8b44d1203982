import Cbcl.QuorumModel
import Cbcl.TreeMapProofs

/-!
# The identity check of an act

`Act::validate_identity` (`state.rs`) compares the metadata of an act with its message without
building a second act: it scans the parameters into borrowed fields, counts and looks them up, and
walks the recipients in order.  It accepts exactly the acts that `Act::from_message` rebuilds.
-/

namespace CbclActIdentity

open CbclMessage CbclAct CbclTreeMap

-- ── The check ────

/-- Whether the predecessors of an act are those its message cites. -/
def predecessorsMatch (predecessors : List String) : Option CausedBy → Bool
  | none | some .begin => predecessors.isEmpty
  | some (.single h) => predecessors = [h]
  | some (.multiple hs) => predecessors = hs

/-- The borrowed fields: while there are two more parameters, a keyword takes the next one. -/
def borrowedFields : List SExpr → BTreeMap String SExpr → BTreeMap String SExpr
  | .atom (.keyword k) :: value :: rest, fields =>
      borrowedFields rest (if ROUTING_KEYWORDS.contains k then fields else fields.insert k value)
  | _ :: value :: rest, fields => borrowedFields (value :: rest) fields
  | _, fields => fields

/-- Whether the fields of an act are the borrowed ones: as many, and each with its value. -/
def fieldsMatch (fields borrowed : BTreeMap String SExpr) : Bool :=
  borrowed.size = fields.size && borrowed.toList.all fun e => fields[e.1]? = some e.2

/-- Check derived metadata against the message. -/
def validateIdentity (contentHash : Message → String) (a : Act) : Except String Unit :=
  match a.message.innermostSimple with
  | none => .error "an act must contain a simple message"
  | some simple =>
      match simple.performative with
      | none => .error "an act must have a performative"
      | some verb =>
          if a.address ≠ wireAddress contentHash simple ∨ a.verb ≠ verb.name ∨
              ¬ predecessorsMatch a.predecessors simple.causedBy ∨
              a.recipients.toList ≠ simple.recipientSet.toList ∨
              ¬ fieldsMatch a.fields (borrowedFields (params simple) ∅) then
            .error "inconsistent act identity"
          else .ok ()

-- ── Its parts ────

theorem predecessorsMatch_iff (predecessors : List String) (cause : Option CausedBy) :
    predecessorsMatch predecessors cause = true ↔ predecessors = citedHashes cause := by
  cases cause with
  | none => exact List.isEmpty_iff
  | some cause =>
      cases cause with
      | «begin» => exact List.isEmpty_iff
      | single h => exact decide_eq_true_iff
      | multiple hs => exact decide_eq_true_iff

/-- The borrowed scan is the owned one. -/
theorem borrowedFields_eq (ps : List SExpr) (fields : BTreeMap String SExpr) :
    borrowedFields ps fields = scanFields ps fields := by
  induction ps, fields using borrowedFields.induct with
  | case1 fields k value rest ih =>
      rw [borrowedFields, scanFields]
      simp only [List.contains_iff_mem] at ih ⊢
      exact ih
  | case2 fields x value rest hx ih =>
      rw [borrowedFields, scanFields, ih]
      · exact fun k _ _ heq _ => hx k heq
      · exact hx
  | case3 ps fields hone htwo =>
      rw [borrowedFields]
      · cases ps with
        | nil => rfl
        | cons x rest =>
            cases rest with
            | nil =>
                rw [scanFields, scanFields]
                exact fun _ _ _ _ hrest => nomatch hrest
            | cons value rest => exact (htwo x value rest rfl).elim
      · exact hone
      · exact htwo

/-- A map with as many entries as another and all of them in it is the other. -/
theorem eq_of_size_of_entries {borrowed fields : BTreeMap String SExpr}
    (hsize : borrowed.size = fields.size)
    (hentries : ∀ e ∈ borrowed.toList, fields[e.1]? = some e.2) : borrowed = fields := by
  have hsub : borrowed.keys ⊆ fields.keys := by
    intro k hk
    obtain ⟨v, hv⟩ := (mem_keys_iff _ _).mp hk
    exact (mem_keys_iff _ _).mpr
      ⟨v, hentries (k, v) (Std.ExtTreeMap.mem_toList_iff_getElem?_eq_some.mpr hv)⟩
  have hperm : borrowed.keys.Perm fields.keys := by
    refine (List.subperm_of_subset (nodup_keys _) hsub).perm_of_length_le ?_
    rw [Std.ExtTreeMap.length_keys, Std.ExtTreeMap.length_keys, hsize]
  refine Std.ExtTreeMap.ext_getElem? fun k => ?_
  cases hget : borrowed[k]? with
  | some v =>
      exact (hentries (k, v) (Std.ExtTreeMap.mem_toList_iff_getElem?_eq_some.mpr hget)).symm
  | none =>
      cases hother : fields[k]? with
      | none => rfl
      | some v =>
          have hin := hperm.mem_iff.mpr ((mem_keys_iff _ _).mpr ⟨v, hother⟩)
          obtain ⟨w, hw⟩ := (mem_keys_iff _ _).mp hin
          rw [hget] at hw
          exact nomatch hw

/-- The fields match exactly if they are the same map. -/
theorem fieldsMatch_iff (fields borrowed : BTreeMap String SExpr) :
    fieldsMatch fields borrowed = true ↔ fields = borrowed := by
  unfold fieldsMatch
  rw [Bool.and_eq_true, decide_eq_true_iff, List.all_eq_true]
  constructor
  · rintro ⟨hsize, hall⟩
    exact (eq_of_size_of_entries hsize fun e he => of_decide_eq_true (hall e he)).symm
  · rintro rfl
    exact ⟨rfl, fun e he =>
      decide_eq_true (Std.ExtTreeMap.mem_toList_iff_getElem?_eq_some.mp he)⟩

/-- Sets with the same elements in order are the same set. -/
theorem toList_inj {s t : BTreeSet String} (h : s.toList = t.toList) : s = t := by
  refine Std.ExtTreeSet.ext_mem fun k => ?_
  rw [← Std.ExtTreeSet.mem_toList, ← Std.ExtTreeSet.mem_toList, h]

-- ── The check is reconstruction ────

variable (contentHash : Message → String)

/-- **The borrowed check says what the rebuilt act would say.** -/
theorem validateIdentity_eq (a : Act) : validateIdentity contentHash a =
    match Act.fromMessage contentHash a.message a.signer with
    | .error e => .error e
    | .ok built => if built = a then .ok () else .error "inconsistent act identity" := by
  unfold validateIdentity Act.fromMessage
  cases a.message.innermostSimple with
  | none => rfl
  | some simple =>
      dsimp only
      cases simple.performative with
      | none => rfl
      | some verb =>
          dsimp only
          have hfields : fieldsMatch a.fields (borrowedFields (params simple) ∅) = true
              ↔ a.fields = keywordFields simple := by
            rw [fieldsMatch_iff, borrowedFields_eq]
            rfl
          have hrecipients : a.recipients.toList = simple.recipientSet.toList
              ↔ a.recipients = simple.recipientSet := ⟨toList_inj, fun h => by rw [h]⟩
          have hbuilt : (⟨wireAddress contentHash simple, verb.name, a.signer,
              citedHashes simple.causedBy, simple.recipientSet, keywordFields simple, a.message⟩ :
                Act) = a ↔
              a.address = wireAddress contentHash simple ∧ a.verb = verb.name ∧
                a.predecessors = citedHashes simple.causedBy ∧
                a.recipients = simple.recipientSet ∧ a.fields = keywordFields simple := by
            obtain ⟨address, v, signer, predecessors, recipients, fields, message⟩ := a
            rw [Act.mk.injEq]
            dsimp only
            tauto
          split
          · rename_i hdiffers
            rw [predecessorsMatch_iff, hfields] at hdiffers
            simp only [ne_eq, hrecipients] at hdiffers
            refine (if_neg fun hsame => ?_).symm
            obtain ⟨haddress, hverb, hpredecessors, hset, hmap⟩ := hbuilt.mp hsame
            rcases hdiffers with h | h | h | h | h
            · exact h haddress
            · exact h hverb
            · exact h hpredecessors
            · exact h hset
            · exact h hmap
          · rename_i hsame
            rw [predecessorsMatch_iff, hfields] at hsame
            simp only [ne_eq, hrecipients, not_or, not_not] at hsame
            exact (if_pos (hbuilt.mpr hsame)).symm

/-- **The identity check accepts exactly the acts that are rebuilt from their messages.** -/
theorem validateIdentity_ok_iff (a : Act) : validateIdentity contentHash a = .ok ()
    ↔ Act.fromMessage contentHash a.message a.signer = .ok a := by
  rw [validateIdentity_eq]
  cases Act.fromMessage contentHash a.message a.signer with
  | error e => exact ⟨(nomatch ·), (nomatch ·)⟩
  | ok built =>
      dsimp only
      split
      · rename_i heq
        exact ⟨fun _ => by rw [heq], fun _ => rfl⟩
      · rename_i hne
        exact ⟨(nomatch ·), fun h => absurd (Except.ok.inj h) hne⟩

end CbclActIdentity
