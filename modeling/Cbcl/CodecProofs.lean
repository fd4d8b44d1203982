import Cbcl.CodecModel
import Cbcl.TextProofs

/-!
# What the decoder accepts

`decode_sexpr` reads back the canonical octets of an S-expression exactly if they fit the limit it
is given, if the expressions in it do not outnumber its fuel and if none of them stands deeper than
64 lists.
-/

namespace CbclCodec

open CbclMessage CbclCanonical
open CbclText (nodes nodesOf one_le_nodes)

-- ── Text ────

/-- A character of one octet. -/
theorem decodeChars_one {a : UInt8} (h : a < 0x80) (os : Octets) :
    decodeChars (a :: os) = Char.ofNat a.toNat :: decodeChars os := by
  match os with
  | [] => rfl
  | [b] => exact if_pos h
  | [b, c] => exact if_pos h
  | b :: c :: d :: os => exact if_pos h

/-- A character of two octets. -/
theorem decodeChars_two {a : UInt8} (h : ¬ a < 0x80) (h' : a < 0xe0) (b : UInt8) (os : Octets) :
    decodeChars (a :: b :: os)
      = Char.ofNat ((a.toNat % 32) * 64 + b.toNat % 64) :: decodeChars os := by
  match os with
  | [] => exact if_neg h
  | [c] => exact (if_neg h).trans (if_pos h')
  | c :: d :: os => exact (if_neg h).trans (if_pos h')

/-- A character of three octets. -/
theorem decodeChars_three {a : UInt8} (h : ¬ a < 0x80) (h' : ¬ a < 0xe0) (h'' : a < 0xf0)
    (b c : UInt8) (os : Octets) :
    decodeChars (a :: b :: c :: os)
      = Char.ofNat (((a.toNat % 16) * 64 + b.toNat % 64) * 64 + c.toNat % 64)
        :: decodeChars os := by
  match os with
  | [] => exact (if_neg h).trans (if_neg h')
  | d :: os => exact (if_neg h).trans ((if_neg h').trans (if_pos h''))

theorem decodeChars_four {a : UInt8} (h : ¬ a < 0x80) (h' : ¬ a < 0xe0) (h'' : ¬ a < 0xf0)
    (b c d : UInt8) (os : Octets) :
    decodeChars (a :: b :: c :: d :: os)
      = Char.ofNat ((((a.toNat % 8) * 64 + b.toNat % 64) * 64 + c.toNat % 64) * 64 + d.toNat % 64)
        :: decodeChars os :=
  (if_neg h).trans ((if_neg h').trans (if_neg h''))

/-- One character is decoded from the front of its octets. -/
theorem decodeChars_encodeChar (c : Char) (os : Octets) :
    decodeChars (String.utf8EncodeChar c ++ os) = c :: decodeChars os := by
  have hrange : c.val.toNat < 0x110000 := by
    rcases c.valid with h | h
    · exact Nat.lt_trans h (by decide)
    · exact h.2
  have hback : ∀ n, n = c.val.toNat → Char.ofNat n = c := by
    rintro n rfl
    exact Char.ofNat_toNat c
  have hoctet : ∀ n, (UInt8.ofNat n).toNat = n % 256 := fun n => UInt8.toNat_ofNat'
  have hlt : ∀ n (b : UInt8), UInt8.ofNat n < b ↔ n % 256 < b.toNat := fun n b => by
    rw [UInt8.lt_iff_toNat_lt, hoctet]
  have h80 : (0x80 : UInt8).toNat = 128 := rfl
  have he0 : (0xe0 : UInt8).toNat = 224 := rfl
  have hf0 : (0xf0 : UInt8).toNat = 240 := rfl
  unfold String.utf8EncodeChar
  dsimp only
  generalize c.val.toNat = v at hrange hback ⊢
  split
  · rw [List.singleton_append, decodeChars_one (by rw [hlt, h80]; omega),
      hback _ (by rw [hoctet]; omega)]
  split
  · show decodeChars (_ :: _ :: os) = _
    rw [decodeChars_two (by rw [hlt, h80]; omega) (by rw [hlt, he0]; omega),
      hback _ (by rw [hoctet, hoctet]; omega)]
  split
  · show decodeChars (_ :: _ :: _ :: os) = _
    rw [decodeChars_three (by rw [hlt, h80]; omega) (by rw [hlt, he0]; omega)
      (by rw [hlt, hf0]; omega), hback _ (by rw [hoctet, hoctet, hoctet]; omega)]
  · show decodeChars (_ :: _ :: _ :: _ :: os) = _
    rw [decodeChars_four (by rw [hlt, h80]; omega) (by rw [hlt, he0]; omega)
      (by rw [hlt, hf0]; omega), hback _ (by rw [hoctet, hoctet, hoctet, hoctet]; omega)]

/-- The octets of a list of characters. -/
theorem octets_ofList (cs : List Char) :
    octets (String.ofList cs) = cs.flatMap String.utf8EncodeChar := by
  unfold octets
  rw [String.toByteArray_ofList, List.utf8Encode, List.toList_data_toByteArray]

/-- **UTF-8 is read back.** -/
theorem fromUtf8_octets (s : String) : fromUtf8 (octets s) = some s := by
  have hchars : ∀ cs : List Char, decodeChars (cs.flatMap String.utf8EncodeChar) = cs := by
    intro cs
    induction cs with
    | nil => rfl
    | cons c cs ih => rw [List.flatMap_cons, decodeChars_encodeChar, ih]
  have hdecode : String.ofList (decodeChars (octets s)) = s := by
    have hs := octets_ofList s.toList
    rw [String.ofList_toList] at hs
    rw [hs, hchars, String.ofList_toList]
  unfold fromUtf8
  rw [hdecode]
  exact if_pos rfl

/-- The two readings of a signed number agree. -/
theorem parseI64_eq (s : String) : parseI64 s = CbclText.parseI64 s.toList := by
  have hread : ∀ (sign : Bool) (ds : List Char),
      (if ds = [] ∨ ¬ ds.all Char.isDigit = true then none
      else
        let n : Int := if sign then -(digitsValue ds : Int) else digitsValue ds
        if -2 ^ 63 ≤ n ∧ n < 2 ^ 63 then some (Int64.ofInt n) else none)
        = (CbclText.parseDigits ds).bind fun n =>
            CbclText.toI64 (if sign then -(n : Int) else n) := by
    intro sign ds
    unfold CbclText.parseDigits
    by_cases h : ds = [] ∨ ¬ ds.all Char.isDigit = true
    · have hno : ¬ (ds ≠ [] ∧ ds.all Char.isDigit = true) := by tauto
      rw [if_pos h, if_neg hno]
      rfl
    · have hyes : ds ≠ [] ∧ ds.all Char.isDigit = true := by tauto
      rw [if_neg h, if_pos hyes]
      rfl
  by_cases hminus : ∃ ds, s.toList = '-' :: ds
  · obtain ⟨ds, hs⟩ := hminus
    unfold parseI64
    rw [hs]
    exact hread true ds
  by_cases hplus : ∃ ds, s.toList = '+' :: ds
  · obtain ⟨ds, hs⟩ := hplus
    unfold parseI64
    rw [hs]
    exact hread false ds
  have hplain : CbclText.parseI64 s.toList
      = (CbclText.parseDigits s.toList).bind fun n => CbclText.toI64 (n : Int) := by
    unfold CbclText.parseI64
    split
    · rename_i hs
      exact absurd ⟨_, hs⟩ hminus
    · rename_i hs
      exact absurd ⟨_, hs⟩ hplus
    · rfl
  rw [hplain]
  unfold parseI64
  split
  rename_i sign ds heq
  split at heq
  · rename_i hs
    exact absurd ⟨_, hs⟩ hminus
  · rename_i hs
    exact absurd ⟨_, hs⟩ hplus
  · obtain ⟨rfl, rfl⟩ := Prod.mk.inj heq
    exact hread false s.toList

theorem parseI64_signed (n : Int64) : parseI64 (toString n.toInt) = some n := by
  rw [parseI64_eq, CbclText.parseI64_toString]

-- ── Atoms ────

theorem isDigitOctet_iff (b : UInt8) : isDigitOctet b = true ↔ IsDigit b := by
  unfold isDigitOctet
  rw [Bool.and_eq_true, decide_eq_true_eq, decide_eq_true_eq]
  rfl

/-- A number other than zero has no leading zero. -/
theorem decimal_no_zero {n : Nat} (h : n ≠ 0) : (decimal n).head? ≠ some 48 := by
  have hgen : ∀ fuel n, n < fuel → n ≠ 0 → (decimalLoop fuel n).head? ≠ some 48 := by
    intro fuel
    induction fuel with
    | zero => intro n hlt; omega
    | succ fuel ih =>
        intro n hlt hne
        rw [decimalLoop]
        by_cases hz : n / 10 = 0
        · rw [if_pos hz]
          intro hhead
          have hdigit : digit (n % 10) = 48 := Option.some.inj hhead
          have htoNat := congrArg UInt8.toNat hdigit
          rw [digit_toNat (Nat.mod_lt _ (by omega))] at htoNat
          have h48 : (48 : UInt8).toNat = 48 := rfl
          omega
        · rw [if_neg hz, List.head?_append_of_ne_nil _ (decimalLoop_spec fuel _ (by omega)).2.1]
          exact ih _ (by omega) hz
  exact hgen (n + 1) n (by omega) h

/-- **A tagged atom is read back** from the front of its octets, in a record of addressable
    length. -/
theorem readTagged_tagged {total : Nat} (hlimit : total < 2 ^ 64) {tag : Char} {t : Octets}
    {a : Atom} (r : Octets) (htotal : (encodeTagged tag t ++ r).length ≤ total)
    (hread : readAtom (ascii tag :: t) = .ok a) :
    readTagged total (encodeTagged tag t ++ r) = .ok (a, r) := by
  have hdigits : ∀ b ∈ decimal (t.length + 1), IsDigit b := fun b => isDigit_of_mem_decimal
  have hne := decimal_ne_nil (t.length + 1)
  have hhead := decimal_no_zero (n := t.length + 1) (by omega)
  have hsplit : encodeTagged tag t ++ r
      = decimal (t.length + 1) ++ ascii ':' :: (ascii tag :: t ++ r) := by
    unfold encodeTagged
    simp
  have htake : (encodeTagged tag t ++ r).takeWhile isDigitOctet = decimal (t.length + 1) := by
    rw [hsplit, List.takeWhile_append_of_pos fun b hb => (isDigitOctet_iff b).mpr (hdigits b hb),
      List.takeWhile_cons_of_neg (by decide), List.append_nil]
  have hdrop : (encodeTagged tag t ++ r).drop (decimal (t.length + 1)).length
      = ascii ':' :: (ascii tag :: t ++ r) := by
    rw [hsplit, List.drop_left]
  have hnumber : (decimal (t.length + 1)).foldl (fun n b => 10 * n + (b.toNat - 48)) 0
      = t.length + 1 := (decimalLoop_spec _ _ (Nat.lt_succ_self _)).2.2
  have hrest : (ascii tag :: t ++ r).length = t.length + 1 + r.length := by
    rw [List.length_append, List.length_cons]
  rw [hsplit, List.length_append, List.length_cons, hrest] at htotal
  unfold readTagged
  dsimp only
  rw [htake, hnumber, hdrop, if_neg (by omega)]
  dsimp only
  have hguard : ¬ (decimal (t.length + 1) = [] ∨ ((decimal (t.length + 1)).length > 1 ∧
      (decimal (t.length + 1)).head? = some 48) ∨ ascii ':' ≠ ascii ':') := by
    rintro (hnil | ⟨-, hzero⟩ | hcolon)
    · exact hne hnil
    · exact hhead hzero
    · exact hcolon rfl
  rw [if_neg hguard]
  have hend : ¬ total - (ascii tag :: t ++ r).length + (t.length + 1) ≥ 2 ^ 64 := by
    rw [hrest]
    omega
  have hroom : ¬ (ascii tag :: t ++ r).length < t.length + 1 := by
    rw [hrest]
    omega
  have htaken : (ascii tag :: t ++ r).take (t.length + 1) = ascii tag :: t := List.take_left' rfl
  have hleft : (ascii tag :: t ++ r).drop (t.length + 1) = r := List.drop_left' rfl
  rw [if_neg hend, if_neg hroom, htaken, hleft, hread]
  rfl

theorem readTagged_encode {total : Nat} (hlimit : total < 2 ^ 64) {a : Atom} (r : Octets)
    (htotal : (encodeAtom a ++ r).length ≤ total) :
    readTagged total (encodeAtom a ++ r) = .ok (a, r) := by
  cases a with
  | symbol s =>
      refine readTagged_tagged hlimit r htotal ?_
      rw [readAtom, fromUtf8_octets]
      rfl
  | keyword s =>
      refine readTagged_tagged hlimit r htotal ?_
      rw [readAtom, fromUtf8_octets]
      rfl
  | str s =>
      refine readTagged_tagged hlimit r htotal ?_
      rw [readAtom, fromUtf8_octets]
      rfl
  | num n =>
      rw [encodeAtom, signedDecimal_eq] at htotal ⊢
      refine readTagged_tagged hlimit r htotal ?_
      rw [readAtom, fromUtf8_octets]
      dsimp only
      rw [parseI64_signed]
      rfl
  | bool b =>
      cases b with
      | true =>
          refine readTagged_tagged (t := octets "t") hlimit r htotal ?_
          rw [readAtom, fromUtf8_octets]
          rfl
      | false =>
          refine readTagged_tagged (t := octets "f") hlimit r htotal ?_
          rw [readAtom, fromUtf8_octets]
          rfl

-- ── Expressions ────

mutual
/-- How deep an S-expression is nested: an atom not at all. -/
def nesting : SExpr → Nat
  | .atom _ => 0
  | .list items => nestingOf items
/-- How deep the items of a list stand below it. -/
def nestingOf : List SExpr → Nat
  | [] => 0
  | x :: xs => max (nesting x + 1) (nestingOf xs)
end

/-- A step of the decoder at an opening parenthesis. -/
theorem readSexpr_list {total gas depth fuel : Nat} (hdepth : depth ≤ 64) (hfuel : fuel ≠ 0)
    (os : Octets) : readSexpr total (gas + 1) depth fuel (ascii '(' :: os)
      = (readItems total gas (depth + 1) (fuel - 1) os).map fun (xs, os, fuel) =>
          (.list xs, os, fuel) := by
  rw [readSexpr, if_neg (by omega)]
  exact if_pos rfl

/-- A step of the decoder anywhere else. -/
theorem readSexpr_atom {total gas depth fuel : Nat} (hdepth : depth ≤ 64) (hfuel : fuel ≠ 0)
    {os : Octets} (hhead : os.head? ≠ some (ascii '(')) : readSexpr total (gas + 1) depth fuel os
      = (readTagged total os).map fun (a, os) => (.atom a, os, fuel - 1) := by
  rw [readSexpr, if_neg (by omega), if_neg hhead]

mutual
/-- **Reading an encoding back** takes fuel for every node, and no node deeper than 64. -/
theorem readSexpr_encode {total : Nat} (hlimit : total < 2 ^ 64) :
    ∀ (x : SExpr) (gas depth fuel : Nat) (r : Octets),
    2 * nodes x ≤ gas → nodes x ≤ fuel → depth + nesting x ≤ 64 →
      (encode x ++ r).length ≤ total →
      readSexpr total gas depth fuel (encode x ++ r) = .ok (x, r, fuel - nodes x)
  | .atom a, gas, depth, fuel, r, hgas, hfuel, hdepth, hlen => by
      rw [nodes] at hgas hfuel ⊢
      rw [nesting] at hdepth
      rw [encode] at hlen ⊢
      obtain ⟨g, rfl⟩ : ∃ g, gas = g + 1 := ⟨gas - 1, by omega⟩
      obtain ⟨b, os, hhead, hdig⟩ := encodeAtom_head a
      have hopen : (encodeAtom a ++ r).head? ≠ some (ascii '(') := by
        rw [hhead]
        intro heq
        have hb : b = ascii '(' := Option.some.inj heq
        rw [hb] at hdig
        exact absurd hdig.1 (by decide)
      rw [readSexpr_atom (by omega) (by omega) hopen, readTagged_encode hlimit r hlen]
      rfl
  | .list xs, gas, depth, fuel, r, hgas, hfuel, hdepth, hlen => by
      rw [nodes] at hgas hfuel ⊢
      rw [nesting] at hdepth
      rw [encode] at hlen ⊢
      obtain ⟨g, rfl⟩ : ∃ g, gas = g + 1 := ⟨gas - 1, by omega⟩
      rw [List.cons_append, List.cons_append, List.append_assoc, List.singleton_append] at hlen ⊢
      rw [List.length_cons] at hlen
      rw [readSexpr_list (by omega) (by omega),
        readItems_encode hlimit xs g (depth + 1) (fuel - 1) r (by omega) (by omega) (by omega)
          (by omega)]
      show Except.ok (SExpr.list xs, r, fuel - 1 - nodesOf xs) = _
      rw [Nat.sub_sub]
/-- The same for the items of a list, up to its end. -/
theorem readItems_encode {total : Nat} (hlimit : total < 2 ^ 64) :
    ∀ (xs : List SExpr) (gas depth fuel : Nat) (r : Octets),
    2 * nodesOf xs + 1 ≤ gas → nodesOf xs ≤ fuel → depth + nestingOf xs ≤ 65 →
      (encodeItems xs ++ ascii ')' :: r).length ≤ total →
      readItems total gas depth fuel (encodeItems xs ++ ascii ')' :: r)
        = .ok (xs, r, fuel - nodesOf xs)
  | [], gas, depth, fuel, r, hgas, hfuel, hdepth, hlen => by
      obtain ⟨g, rfl⟩ : ∃ g, gas = g + 1 := ⟨gas - 1, by omega⟩
      rw [encodeItems, readItems, nodesOf]
      exact if_pos rfl
  | x :: xs, gas, depth, fuel, r, hgas, hfuel, hdepth, hlen => by
      rw [nodesOf] at hgas hfuel ⊢
      rw [nestingOf] at hdepth
      rw [encodeItems, List.append_assoc] at hlen ⊢
      have hlater : (encodeItems xs ++ ascii ')' :: r).length ≤ total := by
        rw [List.length_append] at hlen
        omega
      have hone := one_le_nodes x
      obtain ⟨g, rfl⟩ : ∃ g, gas = g + 1 := ⟨gas - 1, by omega⟩
      obtain ⟨b, os, hhead, hclose⟩ := encode_head x
      rw [readItems]
      have hnot : (encode x ++ (encodeItems xs ++ ascii ')' :: r)).head? ≠ some (ascii ')') := by
        rw [hhead]
        exact fun heq => hclose (Option.some.inj heq)
      have hne : encode x ++ (encodeItems xs ++ ascii ')' :: r) ≠ [] := by
        rw [hhead]
        exact List.cons_ne_nil _ _
      rw [if_neg hnot, if_neg hne,
        readSexpr_encode hlimit x g depth fuel _ (by omega) (by omega) (by omega) hlen]
      show (readItems total g depth (fuel - nodes x) (encodeItems xs ++ ascii ')' :: r)).map _ = _
      rw [readItems_encode hlimit xs g depth (fuel - nodes x) r (by omega) (by omega) (by omega)
        hlater]
      show Except.ok (x :: xs, r, fuel - nodes x - nodesOf xs) = _
      rw [Nat.sub_sub]
end

/-- What was read stands no deeper than 64, and has paid for every node. -/
theorem readSexpr_bounds {total : Nat} : ∀ gas : Nat,
    (∀ depth fuel os x r fuel', readSexpr total gas depth fuel os = .ok (x, r, fuel') →
      depth + nesting x ≤ 64 ∧ fuel' + nodes x = fuel) ∧
    ∀ depth fuel os xs r fuel', depth ≤ 65 →
      readItems total gas depth fuel os = .ok (xs, r, fuel') →
      depth + nestingOf xs ≤ 65 ∧ fuel' + nodesOf xs = fuel := by
  intro gas
  induction gas with
  | zero => exact ⟨fun _ _ _ _ _ _ h => (nomatch h), fun _ _ _ _ _ _ _ h => (nomatch h)⟩
  | succ gas ih =>
      refine ⟨fun depth fuel os x r fuel' h => ?_, fun depth fuel os xs r fuel' hdepth h => ?_⟩
      · rw [readSexpr] at h
        by_cases hlimit : depth > 64 ∨ fuel = 0
        · rw [if_pos hlimit] at h
          exact nomatch h
        rw [if_neg hlimit] at h
        by_cases hopen : os.head? = some (ascii '(')
        · rw [if_pos hopen] at h
          obtain ⟨⟨ys, s, f⟩, hys, heq⟩ := CbclExcept.map_ok_iff.mp h
          obtain ⟨rfl, rfl, rfl⟩ : SExpr.list ys = x ∧ s = r ∧ f = fuel' := by simpa using heq
          obtain ⟨hnest, hpaid⟩ := ih.2 _ _ _ _ _ _ (by omega) hys
          rw [nesting, nodes]
          omega
        · rw [if_neg hopen] at h
          obtain ⟨⟨a, s⟩, -, heq⟩ := CbclExcept.map_ok_iff.mp h
          obtain ⟨rfl, rfl, rfl⟩ : SExpr.atom a = x ∧ s = r ∧ fuel - 1 = fuel' := by simpa using heq
          rw [nesting, nodes]
          omega
      · rw [readItems] at h
        by_cases hclose : os.head? = some (ascii ')')
        · rw [if_pos hclose] at h
          obtain ⟨rfl, -, rfl⟩ : [] = xs ∧ os.drop 1 = r ∧ fuel = fuel' := by simpa using h
          rw [nestingOf, nodesOf]
          omega
        rw [if_neg hclose] at h
        by_cases hnil : os = []
        · rw [if_pos hnil] at h
          exact nomatch h
        rw [if_neg hnil] at h
        obtain ⟨⟨y, s, f⟩, hy, h⟩ := CbclExcept.bind_ok_iff.mp h
        obtain ⟨⟨ys, s', f'⟩, hys, heq⟩ := CbclExcept.map_ok_iff.mp h
        obtain ⟨rfl, rfl, rfl⟩ : y :: ys = xs ∧ s' = r ∧ f' = fuel' := by simpa using heq
        obtain ⟨hnest, hpaid⟩ := ih.1 _ _ _ _ _ _ hy
        obtain ⟨hnests, hpaids⟩ := ih.2 _ _ _ _ _ _ hdepth hys
        rw [nestingOf, nodesOf]
        omega

/-- **The decoder accepts an encoding exactly within its limits.** -/
theorem decodeSexpr_iff {x : SExpr} {max : Nat} (hmax : max < 2 ^ 64) :
    decodeSexpr (encode x) max = .ok x ↔
      (encode x).length ≤ max ∧ nodes x ≤ min max 1000000 ∧ nesting x ≤ 64 := by
  unfold decodeSexpr
  dsimp only
  constructor
  · intro h
    by_cases hlong : (encode x).length > max
    · rw [if_pos hlong] at h
      exact nomatch h
    rw [if_neg hlong] at h
    obtain ⟨⟨y, rest, fuel⟩, hread, h⟩ := CbclExcept.bind_ok_iff.mp h
    dsimp only at h
    by_cases hbad : rest ≠ [] ∨ encode y ≠ encode x
    · rw [if_pos hbad] at h
      exact nomatch h
    rw [if_neg hbad] at h
    obtain rfl : y = x := by
      injection h
    obtain ⟨hnest, hpaid⟩ := (readSexpr_bounds _).1 _ _ _ _ _ _ hread
    omega
  · rintro ⟨hlen, hnodes, hnest⟩
    have hread := @readSexpr_encode (encode x).length (by omega) x
      (2 * min max 1000000 + 2) 0 (min max 1000000) [] (by omega) hnodes (by omega)
      (by rw [List.append_nil])
    rw [List.append_nil] at hread
    rw [if_neg (by omega), hread]
    show (if [] ≠ [] ∨ encode x ≠ encode x then _ else _) = _
    rw [if_neg (by simp)]
    rfl

end CbclCodec
