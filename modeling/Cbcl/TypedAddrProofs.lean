import Cbcl.TypedAddrModel
import Cbcl.CanonicalProofs
import Cbcl.RecogniserProofs
import Cbcl.Sha256Proofs

/-!
# Addresses identify messages, openings bind fields

The tree of a message is a Merkle tree over six tagged fields, so the laws of Merkle trees
apply: one root is one list of fields, and whatever path an opening brings, the value it
opens is the field of the message.  SHA-256 is only assumed to tell apart the octet strings
hashed in the course of it.
-/

namespace CbclTypedAddr

open CbclMessage CbclCanonical CbclRecogniser CbclMerkle

-- ── Framing ────

theorem domainTag_injective {i j : FieldId} (h : i.domainTag = j.domainTag) : i = j := by
  cases i <;> cases j <;> first | rfl | exact absurd h (by decide)

/-- The octets hashed for a preimage. -/
def input : Preimage (FieldId × SExpr) Digest → Octets
  | .leaf (id, value) => leafInput id value
  | .node left right => nodeInput left right

/-- **The framing of preimages is injective**: leaves and nodes start with different octets, a
    leaf determines its tag and value, a node its digests. -/
theorem input_injective : Function.Injective input := by
  intro p q h
  cases p with
  | leaf a =>
      obtain ⟨i, v⟩ := a
      cases q with
      | leaf b =>
          obtain ⟨j, w⟩ := b
          unfold input leafInput at h
          simp only [List.cons_append, List.nil_append, List.append_assoc] at h
          injection h with _ h
          injection h with _ h
          obtain ⟨-, htag, h⟩ := encodeTagged_split h
          obtain ⟨hvalue, -⟩ := encode_split v w _ _ h
          rw [domainTag_injective (octets_injective htag), hvalue]
      | node l r =>
          injection h with h _
          exact absurd h (by decide)
  | node l r =>
      cases q with
      | leaf b =>
          injection h with h _
          exact absurd h (by decide)
      | node l' r' =>
          unfold input nodeInput at h
          simp only [List.cons_append, List.nil_append] at h
          injection h with _ h
          obtain ⟨hl, hr⟩ := List.append_inj h (by simp)
          rw [Vector.toList_inj.mp hl, Vector.toList_inj.mp hr]

section Hashing

variable {sha256 : Octets → Digest}

/-- The digest of a preimage. -/
def digest (sha256 : Octets → Digest) (p : Preimage (FieldId × SExpr) Digest) : Digest :=
  sha256 (input p)

/-- The tree of a message. -/
def messageTree (msg : Message) : HashTree (FieldId × SExpr) :=
  let field := fun id => HashTree.leaf (id, fieldSexpr msg id)
  .node (.node (.node (field .performative) (field .«from»))
    (.node (field .«to») (field .causedBy))) (.node (field .thread) (field .payload))

/-- The source's tree is the Merkle tree of the six fields. -/
theorem buildTree_root (msg : Message) :
    (buildTree sha256 msg).root = (messageTree msg).root (digest sha256) := rfl

/-- The octet strings hashed for a message. -/
def hashedMessage (sha256 : Octets → Digest) (msg : Message) : List Octets :=
  ((messageTree msg).preimages (digest sha256)).map input

/-- The octet strings hashed by verifying an opening. -/
def hashedOpening (sha256 : Octets → Digest) (field : FieldId) (value : SExpr)
    (path : List (Digest × Side)) : List Octets :=
  leafInput field value ::
    (climbPreimages (digest sha256) (leafHash sha256 field value) path).map input

/-- Injectivity on octets is injectivity on preimages. -/
theorem digest_injOn {H : Set Octets} (hinj : Set.InjOn sha256 H) :
    Set.InjOn (digest sha256) {p | input p ∈ H} :=
  fun _ hp _ hq h => input_injective (hinj hp hq h)

-- ── Hexadecimal ────

theorem hexDigit_injective {n m : Nat} (hn : n < 16) (hm : m < 16)
    (h : hexDigit n = hexDigit m) : n = m := by
  have hall : ∀ i j : Fin 16, hexDigit i.val = hexDigit j.val → i = j := by decide
  exact Fin.mk.inj (hall ⟨n, hn⟩ ⟨m, hm⟩ h)

theorem hexDigits_injective : ∀ {as bs : Octets}, hexDigits as = hexDigits bs → as = bs := by
  intro as
  induction as with
  | nil =>
      intro bs h
      cases bs with
      | nil => rfl
      | cons b bs => exact nomatch h
  | cons a as ih =>
      intro bs h
      cases bs with
      | nil => exact nomatch h
      | cons b bs =>
          injection h with hhigh h
          injection h with hlow h
          have ha := a.toNat_lt
          have hb := b.toNat_lt
          have h1 := hexDigit_injective (by omega) (by omega) hhigh
          have h2 := hexDigit_injective (by omega) (by omega) hlow
          have hab : a = b := UInt8.toNat_inj.mp (by omega)
          rw [hab, ih h]

theorem hex32_injective {d e : Digest} (h : hex32 d = hex32 e) : d = e := by
  unfold hex32 at h
  refine Vector.toList_inj.mp (hexDigits_injective ?_)
  rw [← String.toList_ofList (l := hexDigits d.toList), h, String.toList_ofList]

/-- A digest is spelled with sixty-four lowercase digits. -/
theorem isHex64_hex32 (d : Digest) : isHex64 (hex32 d) = true := by
  have hlength : ∀ os : Octets, (hexDigits os).length = 2 * os.length := by
    intro os
    induction os with
    | nil => rfl
    | cons b os ih =>
        show (hexDigits os).length + 1 + 1 = 2 * (os.length + 1)
        omega
  have hdigit : ∀ i : Fin 16, ((hexDigit i.val).isDigit
      || ('a' ≤ hexDigit i.val && hexDigit i.val ≤ 'f')) = true := by decide
  unfold isHex64 hex32
  rw [Bool.and_eq_true, decide_eq_true_eq, ← String.length_toList, String.toList_ofList, hlength,
    Vector.length_toList]
  refine ⟨rfl, List.all_eq_true.mpr fun c hc => ?_⟩
  obtain ⟨b, -, hb⟩ := List.mem_flatMap.mp hc
  have hlt := b.toNat_lt
  rcases List.mem_pair.mp hb with rfl | rfl
  · exact hdigit ⟨b.toNat / 16, by omega⟩
  · exact hdigit ⟨b.toNat % 16, by omega⟩

theorem typedRoot_injective {m m' : Message} (h : typedRoot sha256 m = typedRoot sha256 m') :
    (buildTree sha256 m).root = (buildTree sha256 m').root := by
  unfold typedRoot at h
  have h := congrArg String.toList h
  rw [String.toList_append, String.toList_append] at h
  refine hex32_injective (String.toList_inj.mp ?_)
  exact List.append_cancel_left h

/-- The address of a message, without its scheme. -/
theorem stripStart_typedRoot (m : Message) :
    stripStart "sha256:" (typedRoot sha256 m) = some (hex32 (buildTree sha256 m).root) := by
  unfold stripStart typedRoot
  rw [String.toList_append, if_pos]
  · congr 1
    have hlen : "sha256:".length = "sha256:".toList.length := by decide
    rw [hlen, List.drop_left, String.ofList_toList]
  · rw [List.isPrefixOf_iff_prefix]
    exact List.prefix_append _ _

-- ── Openings ────

/-- Folding a path is climbing the Merkle tree. -/
theorem foldl_foldStep (cur : Digest) (path : List (Digest × Side)) :
    path.foldl (foldStep sha256) cur = climb (digest sha256) cur path := by
  unfold climb
  congr 1
  funext cur step
  unfold foldStep joined
  cases step.2 <;> rfl

theorem verifyOpening_iff {m : Message} {f : FieldId} {v : SExpr} {o : Opening} :
    verifyOpening sha256 (typedRoot sha256 m) f v o = true ↔ o.field = f ∧
      climb (digest sha256) (leafHash sha256 f v) o.path = (messageTree m).root (digest sha256) := by
  unfold verifyOpening
  rw [stripStart_typedRoot, foldl_foldStep]
  by_cases hf : o.field = f
  · rw [if_neg (not_not.mpr hf)]
    dsimp only
    rw [decide_eq_true_eq]
    constructor
    · intro h
      exact ⟨hf, hex32_injective h⟩
    · rintro ⟨-, h⟩
      rw [h, buildTree_root]
  · rw [if_pos hf]
    exact iff_of_false Bool.false_ne_true fun h => hf h.1

/-- The opening of a field verifies against the address of the message. -/
theorem verifyOpening_openField (m : Message) (f : FieldId) :
    verifyOpening sha256 (typedRoot sha256 m) f (openField sha256 m f).value
      (openField sha256 m f) = true := by
  rw [verifyOpening_iff]
  cases f <;> exact ⟨rfl, rfl⟩

/-- A value that verifies for a field is the field of the message. -/
theorem verifyOpening_binds {m : Message} {f : FieldId} {v : SExpr} {opening : Opening}
    (hinj : Set.InjOn sha256 {os | os ∈ hashedMessage sha256 m ∨
      os ∈ hashedOpening sha256 f v opening.path})
    (h : verifyOpening sha256 (typedRoot sha256 m) f v opening = true) : v = fieldSexpr m f := by
  obtain ⟨-, hclimb⟩ := verifyOpening_iff.mp h
  have hmem : (f, v) ∈ (messageTree m).labels := by
    refine climb_label (digest_injOn hinj) (fun p hp => ?_) (a := (f, v)) ?_ (fun p hp => ?_)
      hclimb
    · exact Or.inl (List.mem_map_of_mem hp)
    · exact Or.inr (List.mem_cons_self ..)
    · exact Or.inr (List.mem_cons_of_mem _ (List.mem_map_of_mem hp))
  -- the six labels carry six different fields
  simp only [messageTree, HashTree.labels, List.cons_append, List.nil_append, List.mem_cons,
    List.not_mem_nil, or_false, Prod.mk.injEq] at hmem
  rcases hmem with ⟨rfl, hv⟩ | ⟨rfl, hv⟩ | ⟨rfl, hv⟩ | ⟨rfl, hv⟩ | ⟨rfl, hv⟩ | ⟨rfl, hv⟩
  all_goals exact hv

/-- **Openings are complete and binding.**  The opening of a field verifies against the address
    of the message; and whatever path an opening brings, a value that verifies for a field is
    the field of the message, if SHA-256 tells apart the octet strings hashed here. -/
theorem opening_complete_binding (sha256 : Octets → Digest) (m : Message) (f : FieldId) :
    verifyOpening sha256 (typedRoot sha256 m) f (openField sha256 m f).value
        (openField sha256 m f) = true ∧
      ∀ (v : SExpr) (opening : Opening),
        Set.InjOn sha256 {os | os ∈ hashedMessage sha256 m ∨
          os ∈ hashedOpening sha256 f v opening.path} →
        verifyOpening sha256 (typedRoot sha256 m) f v opening = true → v = fieldSexpr m f :=
  ⟨verifyOpening_openField m f, fun _ _ hinj h => verifyOpening_binds hinj h⟩

/-- Four octet strings hashed for a message, or three. -/
theorem forall_mem_hashed {m : Message} {a b c : Octets} {rest : List Octets} (i j k : Nat)
    (ha : (hashedMessage sha256 m)[i]? = some a) (hb : (hashedMessage sha256 m)[j]? = some b)
    (hc : (hashedMessage sha256 m)[k]? = some c)
    (hrest : ∀ os ∈ rest, os ∈ hashedMessage sha256 m) :
    ∀ os ∈ a :: b :: c :: rest, os ∈ hashedMessage sha256 m := by
  refine List.forall_mem_cons.mpr ⟨List.mem_of_getElem? ha, ?_⟩
  refine List.forall_mem_cons.mpr ⟨List.mem_of_getElem? hb, ?_⟩
  exact List.forall_mem_cons.mpr ⟨List.mem_of_getElem? hc, hrest⟩

/-- Verifying the opening a message produced hashes nothing new. -/
theorem hashedOpening_openField (sha256 : Octets → Digest) (m : Message) (f : FieldId) :
    ∀ os ∈ hashedOpening sha256 f (openField sha256 m f).value (openField sha256 m f).path,
      os ∈ hashedMessage sha256 m := by
  have hroot : ∀ os ∈ [((hashedMessage sha256 m)[0]?).getD []], os ∈ hashedMessage sha256 m :=
    fun os hos => List.mem_of_getElem? (i := 0) (congrArg some (List.mem_singleton.mp hos).symm)
  -- the places of a leaf and of the nodes above it, in the order the tree lists its hashes
  cases f with
  | performative => exact forall_mem_hashed 3 2 1 rfl rfl rfl hroot
  | «from» => exact forall_mem_hashed 4 2 1 rfl rfl rfl hroot
  | «to» => exact forall_mem_hashed 6 5 1 rfl rfl rfl hroot
  | causedBy => exact forall_mem_hashed 7 5 1 rfl rfl rfl hroot
  | thread => exact forall_mem_hashed 9 8 0 rfl rfl rfl (fun os hos => nomatch hos)
  | payload => exact forall_mem_hashed 10 8 0 rfl rfl rfl (fun os hos => nomatch hos)

/-- A greeting to one recipient. -/
def greeting : Message :=
  .simple (.core .tell) (some (.one "@bob")) (.atom (.str "hi")) [] (some "t") (some "@alice") none

/-- SHA-256 tells apart the octet strings hashed for the greeting. -/
theorem greeting_distinct :
    Set.InjOn CbclSha256.sha256 {os | os ∈ hashedMessage CbclSha256.sha256 greeting} := by
  have hnodup : ((hashedMessage CbclSha256.sha256 greeting).map CbclSha256.sha256).Nodup := by
    rw [CbclSha256Words.sha256_eq]
    decide +kernel
  exact fun a ha b hb h => List.inj_on_of_nodup_map hnodup ha hb h

theorem opening_complete_binding_greeting :
    verifyOpening CbclSha256.sha256 (typedRoot CbclSha256.sha256 greeting) .thread
        (.list [.atom (.str "t")]) (openField CbclSha256.sha256 greeting .thread) = true ∧
      SExpr.list [.atom (.str "t")] = fieldSexpr greeting .thread := by
  have hverify := (opening_complete_binding CbclSha256.sha256 greeting .thread).1
  refine ⟨hverify, (opening_complete_binding CbclSha256.sha256 greeting .thread).2 _ _ ?_ hverify⟩
  exact greeting_distinct.mono fun os hos =>
    hos.elim id (hashedOpening_openField CbclSha256.sha256 greeting .thread os)

-- ── Addresses ────

/-- Two messages of one form with the same fields; the recipients count as a set. -/
def SameMessage : Message → Message → Prop
  | .simple p r c ps t sd cb, .simple p' r' c' ps' t' sd' cb' =>
      p.name = p'.name ∧ sd = sd' ∧
        (Message.simple p r c ps t sd cb).recipientSet
          = (Message.simple p' r' c' ps' t' sd' cb').recipientSet ∧
        cb = cb' ∧ t = t' ∧ c = c' ∧ ps = ps'
  | .metaDef d, .metaDef d' => d = d'
  | .dialect n inner, .dialect n' inner' => n = n' ∧ inner = inner'
  | .wrapped w ps content, .wrapped w' ps' content' => w = w' ∧ ps = ps' ∧ content = content'
  | _, _ => False

theorem opt_injective {x y : Option SExpr} (h : opt x = opt y) : x = y := by
  cases x <;> cases y <;> simp_all [opt]

theorem symbols_injective {xs ys : List String} (h : symbols xs = symbols ys) : xs = ys := by
  refine List.map_injective_iff.mpr ?_ h
  intro s t hst
  simpa using hst

theorem toList_injective {rs rs' : BTreeSet String} (h : rs.toList = rs'.toList) : rs = rs' := by
  refine Std.ExtTreeSet.ext_mem fun s => ?_
  rw [← Std.ExtTreeSet.mem_toList, ← Std.ExtTreeSet.mem_toList, h]

/-- Canonical causal references are told apart by their values. -/
theorem causedBySexpr_injective {cb cb' : CausedBy} (h : CausedByOk (some cb))
    (h' : CausedByOk (some cb')) (heq : causedBySexpr cb = causedBySexpr cb') : cb = cb' := by
  have hread := parseCausedBy_sexpr h
  rw [heq, parseCausedBy_sexpr h'] at hread
  injection hread with hread
  exact hread.symm

/-- One address is one list of fields. -/
theorem fields_of_root {m m' : Message}
    (hinj : Set.InjOn sha256 {os | os ∈ hashedMessage sha256 m ∨ os ∈ hashedMessage sha256 m'})
    (h : typedRoot sha256 m = typedRoot sha256 m') (f : FieldId) :
    fieldSexpr m f = fieldSexpr m' f := by
  have htree : messageTree m = messageTree m' := by
    refine HashTree.root_injective (digest_injOn hinj) _ _ (fun p hp => ?_) (fun p hp => ?_) ?_
    · exact Or.inl (List.mem_map_of_mem hp)
    · exact Or.inr (List.mem_map_of_mem hp)
    · rw [← buildTree_root, ← buildTree_root]
      exact typedRoot_injective h
  simp only [messageTree, HashTree.node.injEq, HashTree.leaf.injEq, Prod.mk.injEq, true_and]
    at htree
  obtain ⟨⟨⟨h0, h1⟩, h2, h3⟩, h4, h5⟩ := htree
  cases f with
  | performative => exact h0
  | «from» => exact h1
  | «to» => exact h2
  | causedBy => exact h3
  | thread => exact h4
  | payload => exact h5

/-- The first field of a message names its form, or its performative. -/
def headName : Message → String
  | .simple p .. => p.name
  | .metaDef _ => "meta"
  | .dialect .. => "lang"
  | .wrapped w .. => wrapperName w

theorem fieldSexpr_performative (m : Message) :
    fieldSexpr m .performative = .atom (.symbol (headName m)) := by
  cases m <;> rfl

/-- The fields of simple messages determine them. -/
theorem same_of_fields_simple {p p' : Performative} {r r' : Option Recipients} {c c' : SExpr}
    {ps ps' : List SExpr} {t t' sd sd' : Option String} {cb cb' : Option CausedBy}
    (h : CausedByOk cb) (h' : CausedByOk cb')
    (hfields : ∀ f, fieldSexpr (.simple p r c ps t sd cb) f
      = fieldSexpr (.simple p' r' c' ps' t' sd' cb') f) :
    SameMessage (.simple p r c ps t sd cb) (.simple p' r' c' ps' t' sd' cb') := by
  have hstr : ∀ {x y : Option String},
      opt (x.map fun s => .atom (.str s)) = opt (y.map fun s => .atom (.str s)) → x = y := by
    intro x y hxy
    have hxy := opt_injective hxy
    cases x <;> cases y <;> simp_all
  refine ⟨?_, hstr (hfields .«from»), ?_, ?_, hstr (hfields .thread), ?_⟩
  · have hname := hfields .performative
    rw [fieldSexpr_performative, fieldSexpr_performative] at hname
    injection hname with hname
    injection hname
  · have hto := hfields .«to»
    injection hto with hto
    exact toList_injective (symbols_injective hto)
  · have hcb := opt_injective (hfields .causedBy)
    cases cb with
    | none =>
        cases cb' with
        | none => rfl
        | some x => exact nomatch hcb
    | some x =>
        cases cb' with
        | none => exact nomatch hcb
        | some y =>
            injection hcb with hcb
            rw [causedBySexpr_injective h h' hcb]
  · have hpayload := hfields .payload
    injection hpayload with hpayload
    injection hpayload with hc hps
    exact ⟨hc, hps⟩

/-- A form other than a simple message. -/
def isSimple : Message → Bool
  | .simple .. => true
  | _ => false

theorem fieldSexpr_payload {m : Message} (h : isSimple m = false) :
    fieldSexpr m .payload = .list [toSExpr m] := by
  cases m with
  | simple => exact nomatch h
  | metaDef d => rfl
  | dialect n inner => rfl
  | wrapped w ps content => rfl

theorem SameMessage.refl (m : Message) : SameMessage m m := by
  cases m with
  | simple => exact ⟨rfl, rfl, rfl, rfl, rfl, rfl, rfl⟩
  | metaDef => rfl
  | dialect => exact ⟨rfl, rfl⟩
  | wrapped => exact ⟨rfl, rfl, rfl⟩

/-- A recognised simple message is headed by no other form. -/
theorem headName_ne {m m' : Message} (h : WellFormed m) (hs : isSimple m = true)
    (hs' : isSimple m' = false) : headName m ≠ headName m' := by
  cases m with
  | simple p r c ps t sd cb =>
      obtain ⟨⟨hm, hl, hw⟩, -⟩ := h
      cases m' with
      | simple => exact nomatch hs'
      | metaDef => exact hm
      | dialect => exact hl
      | wrapped w ps' content =>
          intro heq
          change p.name = wrapperName w at heq
          rw [heq, wrapperParse_name] at hw
          exact nomatch hw
  | metaDef => exact nomatch hs
  | dialect => exact nomatch hs
  | wrapped => exact nomatch hs

/-- The fields of well-formed messages determine them. -/
theorem same_of_fields {m m' : Message} (h : WellFormed m) (h' : WellFormed m')
    (hfields : ∀ f, fieldSexpr m f = fieldSexpr m' f) : SameMessage m m' := by
  have hhead : headName m = headName m' := by
    have hperf := hfields .performative
    rw [fieldSexpr_performative, fieldSexpr_performative] at hperf
    injection hperf with hperf
    injection hperf
  cases hs : isSimple m with
  | true =>
      cases hs' : isSimple m' with
      | true =>
          cases m with
          | simple p r c ps t sd cb =>
              cases m' with
              | simple p' r' c' ps' t' sd' cb' =>
                  exact same_of_fields_simple h.2.2.2.2.2 h'.2.2.2.2.2 hfields
              | metaDef => exact nomatch hs'
              | dialect => exact nomatch hs'
              | wrapped => exact nomatch hs'
          | metaDef => exact nomatch hs
          | dialect => exact nomatch hs
          | wrapped => exact nomatch hs
      | false => exact absurd hhead (headName_ne h hs hs')
  | false =>
      cases hs' : isSimple m' with
      | true => exact absurd hhead.symm (headName_ne h' hs' hs)
      | false =>
          have hpayload := hfields .payload
          rw [fieldSexpr_payload hs, fieldSexpr_payload hs'] at hpayload
          injection hpayload with hpayload
          injection hpayload with hpayload
          rw [toSExpr_injective h h' hpayload]
          exact SameMessage.refl m'

/-- Same messages have the same fields. -/
theorem fields_of_same {m m' : Message} (h : SameMessage m m') (f : FieldId) :
    fieldSexpr m f = fieldSexpr m' f := by
  cases m with
  | simple p r c ps t sd cb =>
      cases m' with
      | simple p' r' c' ps' t' sd' cb' =>
          obtain ⟨hp, rfl, hr, rfl, rfl, rfl, rfl⟩ := h
          cases f with
          | performative =>
              show SExpr.atom (.symbol p.name) = .atom (.symbol p'.name)
              rw [hp]
          | «to» =>
              show SExpr.list (symbols (Message.recipientSet _).toList) = .list (symbols _)
              rw [hr]
          | «from» => rfl
          | causedBy => rfl
          | thread => rfl
          | payload => rfl
      | metaDef => exact h.elim
      | dialect => exact h.elim
      | wrapped => exact h.elim
  | metaDef d =>
      cases m' with
      | metaDef d' => rw [show d = d' from h]
      | simple => exact h.elim
      | dialect => exact h.elim
      | wrapped => exact h.elim
  | dialect n inner =>
      cases m' with
      | dialect n' inner' =>
          obtain ⟨rfl, rfl⟩ := h
          rfl
      | simple => exact h.elim
      | metaDef => exact h.elim
      | wrapped => exact h.elim
  | wrapped w ps content =>
      cases m' with
      | wrapped w' ps' content' =>
          obtain ⟨rfl, rfl, rfl⟩ := h
          rfl
      | simple => exact h.elim
      | metaDef => exact h.elim
      | dialect => exact h.elim

/-- The tree is a function of the fields. -/
theorem messageTree_congr {m m' : Message} (h : ∀ f, fieldSexpr m f = fieldSexpr m' f) :
    messageTree m = messageTree m' := by
  unfold messageTree
  simp only [h]

/-- The address is a function of the fields. -/
theorem typedRoot_congr {m m' : Message} (h : ∀ f, fieldSexpr m f = fieldSexpr m' f) :
    typedRoot sha256 m = typedRoot sha256 m' := by
  unfold typedRoot
  rw [buildTree_root, buildTree_root, messageTree_congr h]

/-- **Content addresses identify recognised messages.**  Two messages the recogniser returns,
    in whatever scopes, have one address exactly if they are of one form with the same
    performative name, sender, recipient set, causal reference, thread, content and
    parameters; in particular a simple message shares no address with another form. -/
theorem address_identifies (sha256 : Octets → Digest) {m m' : Message} {scope scope' : LangScope}
    {x x' : SExpr} (h : parseMessage scope x = .ok m) (h' : parseMessage scope' x' = .ok m')
    (hinj : Set.InjOn sha256
      {os | os ∈ hashedMessage sha256 m ∨ os ∈ hashedMessage sha256 m'}) :
    (typedRoot sha256 m = typedRoot sha256 m' ↔ SameMessage m m') ∧
      (isSimple m = true → isSimple m' = false → typedRoot sha256 m ≠ typedRoot sha256 m') := by
  have hwf := parseMessage_ok h
  have hwf' := parseMessage_ok h'
  have hsame : typedRoot sha256 m = typedRoot sha256 m' → SameMessage m m' :=
    fun hroot => same_of_fields hwf hwf' (fields_of_root hinj hroot)
  refine ⟨⟨hsame, fun hm => typedRoot_congr (fields_of_same hm)⟩, fun hs hs' hroot => ?_⟩
  have hname := fields_of_root hinj hroot .performative
  rw [fieldSexpr_performative, fieldSexpr_performative] at hname
  injection hname with hname
  injection hname with hname
  exact headName_ne hwf hs hs' hname

/-- The greeting to a list of one recipient. -/
def greetingList : Message :=
  .simple (.core .tell) (some (.set ((∅ : BTreeSet String).insert "@bob"))) (.atom (.str "hi")) []
    (some "t") (some "@alice") none

theorem address_identifies_greeting :
    typedRoot CbclSha256.sha256 greeting = typedRoot CbclSha256.sha256 greetingList := by
  have hsame : SameMessage greeting greetingList := ⟨rfl, rfl, rfl, rfl, rfl, rfl, rfl⟩
  refine (address_identifies CbclSha256.sha256
    (?_ : parseMessage .unscoped (toSExpr greeting) = .ok greeting)
    (?_ : parseMessage .unscoped (toSExpr greetingList) = .ok greetingList) ?_).1.mpr ?_
  · rfl
  · rfl
  · have htree : messageTree greetingList = messageTree greeting :=
      messageTree_congr fun f => (fields_of_same hsame f).symm
    refine greeting_distinct.mono fun os hos => hos.elim id fun hos => ?_
    unfold hashedMessage at hos ⊢
    rw [htree] at hos
    exact hos
  · exact hsame

end Hashing

end CbclTypedAddr
