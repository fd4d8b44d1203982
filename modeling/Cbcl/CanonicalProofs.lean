import Cbcl.CanonicalModel

/-!
# The canonical encoding is injective

No encoding is a proper initial part of another: two encodings that start two equal octet
strings are encodings of one S-expression, and what follows them is equal too.  Lengths are
read first, so octets of an atom are never mistaken for structure.
-/

namespace CbclCanonical

open CbclMessage

-- ── Digits ────

/-- An octet is a decimal digit. -/
def IsDigit (b : UInt8) : Prop := ascii '0' ≤ b ∧ b ≤ ascii '9'

/-- The value of a digit octet. -/
def digitValue (b : UInt8) : Nat := b.toNat - 48

/-- The value of a string of digits, most significant first. -/
def decimalValue (os : Octets) : Nat := os.foldl (fun acc b => 10 * acc + digitValue b) 0

theorem digit_toNat {n : Nat} (h : n < 10) : (digit n).toNat = 48 + n := by
  unfold digit
  rw [Nat.toUInt8, UInt8.toNat_ofNat']
  exact Nat.mod_eq_of_lt (by omega)

theorem isDigit_digit {n : Nat} (h : n < 10) : IsDigit (digit n) := by
  unfold IsDigit
  rw [UInt8.le_iff_toNat_le, UInt8.le_iff_toNat_le, digit_toNat h]
  exact ⟨by show 48 ≤ _; omega, by show _ ≤ 57; omega⟩

/-- The digit loop writes digits, at least one, and they spell the number. -/
theorem decimalLoop_spec : ∀ (fuel n : Nat), n < fuel →
    (∀ b ∈ decimalLoop fuel n, IsDigit b) ∧ decimalLoop fuel n ≠ [] ∧
      decimalValue (decimalLoop fuel n) = n := by
  intro fuel
  induction fuel with
  | zero => intro n h; omega
  | succ fuel ih =>
      intro n h
      have hmod : n % 10 < 10 := Nat.mod_lt _ (by omega)
      have hval : digitValue (digit (n % 10)) = n % 10 := by
        unfold digitValue
        rw [digit_toNat hmod]
        omega
      rw [decimalLoop]
      by_cases hz : n / 10 = 0
      · rw [if_pos hz]
        refine ⟨fun b hb => ?_, by simp, ?_⟩
        · rw [List.mem_singleton.mp hb]
          exact isDigit_digit hmod
        · show 10 * 0 + digitValue (digit (n % 10)) = n
          rw [hval]
          omega
      · rw [if_neg hz]
        obtain ⟨hdig, -, hvalue⟩ := ih (n / 10) (by omega)
        refine ⟨fun b hb => ?_, by simp, ?_⟩
        · rcases List.mem_append.mp hb with hb | hb
          · exact hdig b hb
          · rw [List.mem_singleton.mp hb]
            exact isDigit_digit hmod
        · unfold decimalValue at hvalue ⊢
          rw [List.foldl_append, hvalue]
          show 10 * (n / 10) + digitValue (digit (n % 10)) = n
          rw [hval]
          omega

theorem isDigit_of_mem_decimal {n : Nat} {b : UInt8} (h : b ∈ decimal n) : IsDigit b :=
  (decimalLoop_spec (n + 1) n (by omega)).1 b h

theorem decimal_ne_nil (n : Nat) : decimal n ≠ [] := (decimalLoop_spec (n + 1) n (by omega)).2.1

theorem decimal_injective {n m : Nat} (h : decimal n = decimal m) : n = m := by
  have hn := (decimalLoop_spec (n + 1) n (by omega)).2.2
  have hm := (decimalLoop_spec (m + 1) m (by omega)).2.2
  unfold decimal at h
  rw [← hn, h, hm]

/-- Two strings cut at the first octet that fails a test are cut at the same place. -/
theorem split_unique {P : UInt8 → Prop} {sep : UInt8} (hsep : ¬ P sep) : ∀ {as bs r s : Octets},
    (∀ b ∈ as, P b) → (∀ b ∈ bs, P b) → as ++ sep :: r = bs ++ sep :: s → as = bs ∧ r = s := by
  intro as
  induction as with
  | nil =>
      intro bs r s _ hbs h
      cases bs with
      | nil =>
          injection h with _ h
          exact ⟨rfl, h⟩
      | cons b bs =>
          injection h with h _
          exact absurd (h ▸ hbs b (List.mem_cons_self ..)) hsep
  | cons a as ih =>
      intro bs r s has hbs h
      cases bs with
      | nil =>
          injection h with h _
          exact absurd (h ▸ has a (List.mem_cons_self ..)) hsep
      | cons b bs =>
          injection h with h ht
          obtain ⟨h1, h2⟩ := ih (fun x hx => has x (List.mem_cons_of_mem _ hx))
            (fun x hx => hbs x (List.mem_cons_of_mem _ hx)) ht
          exact ⟨by rw [h, h1], h2⟩

-- ── Atoms ────

/-- The octets of a string determine it. -/
theorem octets_injective {s t : String} (h : octets s = octets t) : s = t := by
  unfold octets at h
  refine String.toByteArray_inj.mp (ByteArray.ext ?_)
  exact Array.toList_inj.mp h

theorem signedDecimal_injective {n m : Int} (h : signedDecimal n = signedDecimal m) : n = m := by
  have hminus : ∀ k : Nat, ∀ os, ascii '-' :: os ≠ decimal k := by
    intro k os hc
    have hdig : IsDigit (ascii '-') := isDigit_of_mem_decimal (hc ▸ List.mem_cons_self ..)
    exact absurd hdig.1 (by decide)
  unfold signedDecimal at h
  split at h
  · split at h
    · injection h with _ h
      have habs := decimal_injective h
      omega
    · exact absurd h (hminus _ _)
  · split at h
    · exact absurd h.symm (hminus _ _)
    · have habs := decimal_injective h
      omega

/-- The colon is no digit. -/
theorem colon_not_digit : ¬ IsDigit (ascii ':') := by
  unfold IsDigit
  decide

/-- **A tagged atom is read back from the front of a string.** -/
theorem encodeTagged_split {t t' : Char} {os os' r s : Octets}
    (h : encodeTagged t os ++ r = encodeTagged t' os' ++ s) :
    ascii t = ascii t' ∧ os = os' ∧ r = s := by
  unfold encodeTagged at h
  simp only [List.append_assoc, List.cons_append, List.nil_append] at h
  obtain ⟨hlen, hrest⟩ := split_unique colon_not_digit (fun b hb => isDigit_of_mem_decimal hb)
    (fun b hb => isDigit_of_mem_decimal hb) h
  injection hrest with htag hrest
  have hlen := decimal_injective hlen
  obtain ⟨hos, hrs⟩ := List.append_inj hrest (by omega)
  exact ⟨htag, hos, hrs⟩

/-- Encodings of atoms are read back from the front of a string. -/
theorem encodeAtom_split {a b : Atom} {r s : Octets} (h : encodeAtom a ++ r = encodeAtom b ++ s) :
    a = b ∧ r = s := by
  cases a <;> cases b <;> simp only [encodeAtom, encodeSymbol] at h <;>
    obtain ⟨htag, hos, hrs⟩ := encodeTagged_split h
  case symbol.symbol => exact ⟨by rw [octets_injective hos], hrs⟩
  case str.str => exact ⟨by rw [octets_injective hos], hrs⟩
  case keyword.keyword => exact ⟨by rw [octets_injective hos], hrs⟩
  case num.num => exact ⟨by rw [Int64.toInt_inj.mp (signedDecimal_injective hos)], hrs⟩
  case bool.bool x y =>
    refine ⟨?_, hrs⟩
    cases x <;> cases y
    · rfl
    · exact absurd hos (by decide)
    · exact absurd hos (by decide)
    · rfl
  all_goals exact absurd htag (by decide)

/-- An atom starts with a digit. -/
theorem encodeAtom_head (a : Atom) : ∃ b os, encodeAtom a = b :: os ∧ IsDigit b := by
  have htagged : ∀ t os, ∃ b rest, encodeTagged t os = b :: rest ∧ IsDigit b := by
    intro t os
    cases hd : decimal (os.length + 1) with
    | nil => exact absurd hd (decimal_ne_nil _)
    | cons b rest =>
        refine ⟨b, rest ++ [ascii ':', ascii t] ++ os, ?_, ?_⟩
        · unfold encodeTagged
          rw [hd]
          rfl
        · exact isDigit_of_mem_decimal (hd ▸ List.mem_cons_self ..)
  cases a with
  | symbol s => exact htagged _ _
  | str s => exact htagged _ _
  | num n => exact htagged _ _
  | bool b => exact htagged _ _
  | keyword s => exact htagged _ _

-- ── S-expressions ────

/-- An encoding does not start with a closing parenthesis. -/
theorem encode_head (x : SExpr) : ∃ b os, encode x = b :: os ∧ b ≠ ascii ')' := by
  cases x with
  | atom a =>
      obtain ⟨b, os, h, hdig⟩ := encodeAtom_head a
      refine ⟨b, os, by rw [encode]; exact h, ?_⟩
      rintro rfl
      exact absurd hdig.1 (by decide)
  | list items => exact ⟨ascii '(', encodeItems items ++ [ascii ')'], by rw [encode]; rfl, by decide⟩

mutual
/-- **Encodings are read back from the front of a string**: what follows them is equal too. -/
theorem encode_split : ∀ (x y : SExpr) (r s : Octets), encode x ++ r = encode y ++ s →
    x = y ∧ r = s
  | .atom a, .atom b, r, s, h => by
      rw [encode, encode] at h
      obtain ⟨hab, hrs⟩ := encodeAtom_split h
      exact ⟨by rw [hab], hrs⟩
  | .atom a, .list ys, r, s, h => by
      obtain ⟨b, os, ha, hdig⟩ := encodeAtom_head a
      rw [encode, encode, ha] at h
      injection h with h _
      rw [h] at hdig
      exact absurd hdig.1 (by decide)
  | .list xs, .atom b, r, s, h => by
      obtain ⟨c, os, hb, hdig⟩ := encodeAtom_head b
      rw [encode, encode, hb] at h
      injection h with h _
      rw [← h] at hdig
      exact absurd hdig.1 (by decide)
  | .list xs, .list ys, r, s, h => by
      rw [encode, encode] at h
      simp only [List.cons_append, List.append_assoc] at h
      injection h with _ h
      obtain ⟨hxy, hrs⟩ := encodeItems_split xs ys r s h
      exact ⟨by rw [hxy], hrs⟩
/-- Encodings of items are read back up to the closing parenthesis. -/
theorem encodeItems_split : ∀ (xs ys : List SExpr) (r s : Octets),
    encodeItems xs ++ ascii ')' :: r = encodeItems ys ++ ascii ')' :: s → xs = ys ∧ r = s
  | [], [], r, s, h => by
      injection h with _ h
      exact ⟨rfl, h⟩
  | [], y :: ys, r, s, h => by
      obtain ⟨b, os, hy, hne⟩ := encode_head y
      rw [encodeItems, encodeItems, hy] at h
      injection h with h _
      exact absurd h.symm hne
  | x :: xs, [], r, s, h => by
      obtain ⟨b, os, hx, hne⟩ := encode_head x
      rw [encodeItems, encodeItems, hx] at h
      injection h with h _
      exact absurd h hne
  | x :: xs, y :: ys, r, s, h => by
      rw [encodeItems, encodeItems, List.append_assoc, List.append_assoc] at h
      obtain ⟨hxy, h⟩ := encode_split x y _ _ h
      obtain ⟨hrest, hrs⟩ := encodeItems_split xs ys r s h
      exact ⟨by rw [hxy, hrest], hrs⟩
end

-- ── The reference form ────

theorem octets_append (s t : String) : octets (s ++ t) = octets s ++ octets t := by
  unfold octets
  rw [String.toByteArray_append, ByteArray.data_append, Array.toList_append]

/-- A digit as text is one octet. -/
theorem octets_digit {n : Nat} (h : n < 10) : octets n.repr = [digit n] := by
  interval_cases n <;> rfl

/-- The digit loop writes the digits the formatter writes. -/
theorem decimalLoop_eq : ∀ (fuel n : Nat), n < fuel → decimalLoop fuel n = octets n.repr := by
  intro fuel
  induction fuel with
  | zero => intro n h; omega
  | succ fuel ih =>
      intro n h
      rw [decimalLoop]
      by_cases hz : n / 10 = 0
      · have hlt : n < 10 := by omega
        rw [if_pos hz, Nat.mod_eq_of_lt hlt, octets_digit hlt]
      · rw [if_neg hz, ih (n / 10) (by omega), Nat.repr_eq_repr_append_repr (n := n) (by omega),
          octets_append, octets_digit (Nat.mod_lt _ (by omega))]

theorem decimal_eq (n : Nat) : decimal n = octets (toString n) := decimalLoop_eq (n + 1) n (by omega)

/-- The sign is written as the formatter writes it. -/
theorem signedDecimal_eq (n : Int) : signedDecimal n = octets (toString n) := by
  unfold signedDecimal
  cases n with
  | ofNat k =>
      rw [if_neg (by simp), decimal_eq]
      rfl
  | negSucc k =>
      rw [if_pos (Int.negSucc_lt_zero k), decimal_eq]
      show ascii '-' :: octets (toString (k + 1)) = octets ("-" ++ toString (k + 1))
      rw [octets_append]
      rfl

/-- A tagged atom is the number of its octets, a colon and the octets. -/
theorem encodeTagged_eq (tag : Char) (os : Octets) :
    encodeTagged tag os
      = octets (toString (ascii tag :: os).length ++ ":") ++ ascii tag :: os := by
  unfold encodeTagged
  rw [octets_append, ← decimal_eq, List.length_cons, List.append_assoc, List.append_assoc]
  rfl

theorem encodeAtom_eq (a : Atom) :
    encodeAtom a = octets (toString (atomToOctets a).length ++ ":") ++ atomToOctets a := by
  cases a with
  | symbol s => exact encodeTagged_eq 'S' (octets s)
  | str s => exact encodeTagged_eq 'Q' (octets s)
  | num n =>
      rw [encodeAtom, signedDecimal_eq]
      exact encodeTagged_eq 'N' _
  | bool b =>
      cases b with
      | false => exact encodeTagged_eq 'B' [ascii 'f']
      | true => exact encodeTagged_eq 'B' [ascii 't']
  | keyword s => exact encodeTagged_eq 'K' (octets s)

mutual
/-- The streamed encoding is the reference form. -/
theorem encode_eq_reference : ∀ x : SExpr, encode x = referenceEncode x
  | .atom a => by rw [encode, referenceEncode, encodeAtom_eq]
  | .list items => by rw [encode, referenceEncode, encodeItems_eq_reference items]
/-- The same for the items of a list. -/
theorem encodeItems_eq_reference : ∀ xs : List SExpr, encodeItems xs = referenceEncodeItems xs
  | [] => by rw [encodeItems, referenceEncodeItems]
  | x :: xs => by
      rw [encodeItems, referenceEncodeItems, encode_eq_reference x, encodeItems_eq_reference xs]
end

/-- **The canonical encoding is uniquely decodable**: an S-expression and what follows it are
    read off the octets.  So the encoding is injective, no encoding starts another, and it is
    the reference form. -/
theorem encode_uniquely_decodable :
    (∀ (e₁ e₂ : SExpr) (t₁ t₂ : Octets), encode e₁ ++ t₁ = encode e₂ ++ t₂ → e₁ = e₂ ∧ t₁ = t₂) ∧
      Function.Injective encode ∧
      (∀ e₁ e₂ : SExpr, encode e₁ <+: encode e₂ → e₁ = e₂) ∧
      ∀ e : SExpr, encode e = referenceEncode e := by
  refine ⟨encode_split, ?_, ?_, encode_eq_reference⟩
  · intro e₁ e₂ h
    exact (encode_split e₁ e₂ [] [] (by rw [h])).1
  · rintro e₁ e₂ ⟨t, h⟩
    exact (encode_split e₁ e₂ t [] (by rw [h, List.append_nil])).1

end CbclCanonical
