import Cbcl.SignedMessageModel
import Cbcl.CodecProofs
import Cbcl.RecogniserProofs

/-!
# Reading authenticated messages back

The bound on a message counts depth by layers and, within a layer, by expressions; the decoder
counts the lists of the record, one more for the layer that holds the expression.  So a message can
pass `authenticate` and be a list too deep to be read back.
-/

namespace CbclSigned

open CbclMessage CbclCanonical CbclCodec CbclRecogniser CbclAct
open CbclText (nodes nodesOf)

mutual
/-- An expression has no more nodes than octets. -/
theorem nodes_le_octets : ∀ x : SExpr, nodes x ≤ (CbclCanonical.encode x).length
  | .atom a => by
      obtain ⟨b, os, hhead, -⟩ := encodeAtom_head a
      rw [nodes, CbclCanonical.encode, hhead]
      exact Nat.le_add_left 1 _
  | .list xs => by
      have hitems := nodesOf_le_octets xs
      rw [nodes, CbclCanonical.encode, List.length_append, List.length_cons]
      omega
/-- The same for the items of a list. -/
theorem nodesOf_le_octets : ∀ xs : List SExpr, nodesOf xs ≤ (encodeItems xs).length
  | [] => Nat.le_refl 0
  | x :: xs => by
      have hx := nodes_le_octets x
      have hxs := nodesOf_le_octets xs
      rw [nodesOf, encodeItems, List.length_append]
      omega
end

/-- An authenticated message has a record within the bound. -/
theorem length_of_authenticate {contentHash : Message → String}
    {verify : String → Octets → Octets → Bool} {m : SignedMessage} {a : Act}
    (h : m.authenticate contentHash verify = .ok a) : (messageBytes m.message).length ≤ MAX_OCTETS := by
  unfold SignedMessage.authenticate at h
  obtain ⟨⟨⟩, -, h⟩ := CbclExcept.bind_ok_iff.mp h
  by_contra hlong
  have hover : m.encode.length > MAX_OCTETS := Nat.lt_of_not_le hlong
  rw [if_pos hover] at h
  exact nomatch h

/-- **The decoder of records**: a recognised message that fits is read back exactly if its
    expression is nested at most 64 deep. -/
theorem decodeMessage_iff {x : SExpr} {m : Message} (hm : tryFrom x = .ok m)
    (hlen : (messageBytes m).length ≤ MAX_OCTETS) :
    decodeMessage (messageBytes m) = .ok m ↔ nesting (toSExpr m) ≤ 64 := by
  have hlong : ¬ (messageBytes m).length > MAX_OCTETS := Nat.not_lt.mpr hlen
  have hmax : MAX_OCTETS < 2 ^ 64 := by decide
  have hread := decodeSexpr_iff (x := toSExpr m) hmax
  unfold decodeMessage
  rw [if_neg hlong]
  constructor
  · intro h
    obtain ⟨y, hy, -⟩ := CbclExcept.bind_ok_iff.mp h
    obtain rfl := decodeSexpr_encode hy
    exact (hread.mp hy).2.2
  · intro hnest
    have hnodes := nodes_le_octets (toSExpr m)
    have hx : decodeSexpr (messageBytes m) MAX_OCTETS = .ok (toSExpr m) := by
      refine hread.mpr ⟨hlen, ?_, hnest⟩
      have hmin : min MAX_OCTETS 1000000 = MAX_OCTETS := by decide
      rw [hmin]
      exact hnodes.trans hlen
    have hagain : tryFrom (toSExpr m) = .ok m := parseMessage_again hm
    refine CbclExcept.bind_ok_iff.mpr ⟨toSExpr m, hx, ?_⟩
    rw [hagain]
    exact if_neg (fun hne => hne rfl)

theorem decode_iff (m : Message) : SignedMessage.decode (SignedMessage.mk m).encode = .ok ⟨m⟩ ↔
    decodeMessage (messageBytes m) = .ok m := by
  show (decodeMessage (messageBytes m)).bind (fun m => .ok (SignedMessage.mk m)) = _ ↔ _
  constructor
  · intro h
    obtain ⟨m', hm', heq⟩ := CbclExcept.bind_ok_iff.mp h
    have hsame : m' = m := congrArg SignedMessage.message (Except.ok.inj heq)
    rw [hm', hsame]
  · intro h
    rw [h]
    rfl

/-- **An authenticated message is read back** exactly if its expression is nested at most 64 deep. -/
theorem authenticated_read_back_iff {contentHash : Message → String}
    {verify : String → Octets → Octets → Bool} {x : SExpr} {m : Message} {a : Act}
    (hm : tryFrom x = .ok m)
    (hauth : (SignedMessage.mk m).authenticate contentHash verify = .ok a) :
    SignedMessage.decode (SignedMessage.mk m).encode = .ok ⟨m⟩ ↔ nesting (toSExpr m) ≤ 64 := by
  rw [decode_iff]
  exact decodeMessage_iff hm (length_of_authenticate hauth)

-- ── A deep message ────

/-- Lists in lists. -/
def nest : Nat → SExpr
  | 0 => .list []
  | n + 1 => .list [nest n]

/-- A note of `@alice`, signed, with a content nested to some depth. -/
def note (n : Nat) : Message :=
  .wrapped .signed [.atom (.symbol "@alice"), .atom (.str "")]
    (.simple (.core .tell) none (nest n) [] none (some "@alice") none)

/-- A host that takes every signature of `@alice`. -/
def verifyAlice (key : String) (_ _ : Octets) : Bool := key = "@alice"

theorem nesting_note (n : Nat) : nesting (toSExpr (note n)) = n + 2 := by
  have hnest : nesting (nest n) = n := by
    induction n with
    | zero => rfl
    | succ n ih =>
        rw [nest, nesting, nestingOf, nestingOf, ih]
        omega
  have htell : nesting (toSExpr (note n))
      = max 1 (max 1 (max 1 (max (max 1 (max (nesting (nest n) + 1) (max 1 (max 1 0))) + 1) 0))) := rfl
  rw [htell, hnest]
  omega

/-- The notes of both depths are recognised, and authenticate. -/
theorem note_authenticates : ∀ n ∈ [62, 63],
    (tryFrom (toSExpr (note n))).toOption = some (note n) ∧
      ((SignedMessage.mk (note n)).authenticate (fun _ => "") verifyAlice).toOption.isSome = true := by
  decide +kernel

theorem exists_note {n : Nat} (hn : n ∈ [62, 63]) :
    tryFrom (toSExpr (note n)) = .ok (note n) ∧
      ∃ a, (SignedMessage.mk (note n)).authenticate (fun _ => "") verifyAlice = .ok a := by
  obtain ⟨hread, hauth⟩ := note_authenticates n hn
  refine ⟨?_, ?_⟩
  · cases h : tryFrom (toSExpr (note n)) with
    | error e =>
        rw [h] at hread
        exact nomatch hread
    | ok m =>
        rw [h] at hread
        rw [Option.some.inj hread]
  · cases h : (SignedMessage.mk (note n)).authenticate (fun _ => "") verifyAlice with
    | error e =>
        rw [h] at hauth
        exact nomatch hauth
    | ok a => exact ⟨a, rfl⟩

/-- A note whose expression is nested 64 deep is read back. -/
theorem note_read_back :
    SignedMessage.decode (SignedMessage.mk (note 62)).encode = .ok ⟨note 62⟩ := by
  obtain ⟨hread, a, hauth⟩ := exists_note (n := 62) (by decide)
  exact (authenticated_read_back_iff hread hauth).mpr (Nat.le_of_eq (nesting_note 62))

/-- **A message can authenticate and be lost**: a note one list deeper has a record that is refused. -/
theorem note_lost : ¬ ∀ (contentHash : Message → String) (verify : String → Octets → Octets → Bool)
    (x : SExpr) (m : Message) (a : Act), tryFrom x = .ok m →
      (SignedMessage.mk m).authenticate contentHash verify = .ok a →
        SignedMessage.decode (SignedMessage.mk m).encode = .ok ⟨m⟩ := by
  intro hclaim
  obtain ⟨hread, a, hauth⟩ := exists_note (n := 63) (by decide)
  have hback := (decode_iff _).mp (hclaim _ _ _ _ _ hread hauth)
  have hdeep := (decodeMessage_iff hread (length_of_authenticate hauth)).mp hback
  rw [nesting_note] at hdeep
  omega

end CbclSigned
