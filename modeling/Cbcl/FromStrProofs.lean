import Cbcl.FromStrModel
import Cbcl.ExceptProofs

/-!
# When parsing from a string panics

Where an expression starts is said without the parser: `Reads` is what a complete expression is, and
`StartsAt` leads from an expression through the complete items of its lists to another.  The parser
panics exactly if an expression starts at a string with an escaped character of several octets, or
at a `#` that no boolean follows, ten octets before the inside of a character.

Everything else it cuts at a character: the indices of its slices are the lengths of texts in front.
-/

namespace CbclFromStr

open CbclMessage CbclCanonical
open CbclText (byteLength parseI64)

-- ── Octets and slices ────

@[simp] theorem byteLength_nil : byteLength [] = 0 := rfl

@[simp] theorem byteLength_cons (c : Char) (cs : List Char) :
    byteLength (c :: cs) = c.utf8Size + byteLength cs := rfl

@[simp] theorem byteLength_append (cs ds : List Char) :
    byteLength (cs ++ ds) = byteLength cs + byteLength ds := by
  unfold byteLength
  rw [List.map_append, List.sum_append]

theorem asBytes_cons (c : Char) (cs : List Char) :
    asBytes (c :: cs) = String.utf8EncodeChar c ++ asBytes cs := rfl

theorem asBytes_append (cs ds : List Char) : asBytes (cs ++ ds) = asBytes cs ++ asBytes ds :=
  List.flatMap_append

theorem length_asBytes (cs : List Char) : (asBytes cs).length = byteLength cs := by
  induction cs with
  | nil => rfl
  | cons c cs ih => rw [asBytes_cons, List.length_append, String.length_utf8EncodeChar, ih,
      byteLength_cons]

/-- A character of one octet is that octet. -/
theorem encode_ascii {c : Char} (h : c.utf8Size = 1) : String.utf8EncodeChar c = [ascii c] := by
  have hval : c.val.toNat ≤ 0x7f := by
    have hsize := Char.utf8Size_eq_one_iff.mp h
    exact UInt32.le_iff_toNat_le.mp hsize
  unfold String.utf8EncodeChar
  rw [if_pos hval]
  rfl

/-- A character of several octets starts with two that are not ASCII. -/
theorem encode_wide {c : Char} (h : c.utf8Size ≠ 1) : ∃ b b' os,
    String.utf8EncodeChar c = b :: b' :: os ∧ 128 ≤ b.toNat ∧ 128 ≤ b'.toNat := by
  have hval : ¬ c.val.toNat ≤ 0x7f := fun hle =>
    h (Char.utf8Size_eq_one_iff.mpr (UInt32.le_iff_toNat_le.mpr hle))
  have hoctet : ∀ n, (UInt8.ofNat n).toNat = n % 256 := fun n => UInt8.toNat_ofNat'
  unfold String.utf8EncodeChar
  dsimp only
  generalize c.val.toNat = v at hval ⊢
  rw [if_neg hval]
  split
  · exact ⟨_, _, [], rfl, by rw [hoctet]; omega, by rw [hoctet]; omega⟩
  split
  · exact ⟨_, _, [_], rfl, by rw [hoctet]; omega, by rw [hoctet]; omega⟩
  · exact ⟨_, _, [_, _], rfl, by rw [hoctet]; omega, by rw [hoctet]; omega⟩

theorem one_le_utf8Size (c : Char) : 1 ≤ c.utf8Size := c.utf8Size_pos

theorem sliceFrom_cons (c : Char) (cs : List Char) (i : Nat) :
    sliceFrom (c :: cs) (i + 1)
      = if i + 1 < c.utf8Size then .error .panic else sliceFrom cs (i + 1 - c.utf8Size) := rfl

theorem sliceTo_cons (c : Char) (cs : List Char) (i : Nat) :
    sliceTo (c :: cs) (i + 1)
      = if i + 1 < c.utf8Size then .error .panic
        else (sliceTo cs (i + 1 - c.utf8Size)).map (c :: ·) := rfl

/-- **A slice from the end of a text in front.** -/
theorem sliceFrom_append (pre cs : List Char) : sliceFrom (pre ++ cs) (byteLength pre) = .ok cs := by
  induction pre with
  | nil => cases cs <;> rfl
  | cons c pre ih =>
      obtain ⟨k, hk⟩ : ∃ k, c.utf8Size + byteLength pre = k + 1 :=
        ⟨c.utf8Size + byteLength pre - 1, by have := one_le_utf8Size c; omega⟩
      rw [byteLength_cons, hk, List.cons_append, sliceFrom_cons, if_neg (by omega), ← hk,
        Nat.add_sub_cancel_left]
      exact ih

/-- A slice up to the end of a text in front. -/
theorem sliceTo_append (pre cs : List Char) : sliceTo (pre ++ cs) (byteLength pre) = .ok pre := by
  induction pre with
  | nil => cases cs <;> rfl
  | cons c pre ih =>
      obtain ⟨k, hk⟩ : ∃ k, c.utf8Size + byteLength pre = k + 1 :=
        ⟨c.utf8Size + byteLength pre - 1, by have := one_le_utf8Size c; omega⟩
      rw [byteLength_cons, hk, List.cons_append, sliceTo_cons, if_neg (by omega), ← hk,
        Nat.add_sub_cancel_left, ih]
      rfl

/-- A slice from inside a character panics. -/
theorem sliceFrom_inside (pre cs : List Char) {c : Char} {i : Nat} (h0 : 0 < i)
    (h : i < c.utf8Size) : sliceFrom (pre ++ c :: cs) (byteLength pre + i) = .error .panic := by
  induction pre with
  | nil =>
      obtain ⟨k, rfl⟩ := Nat.exists_eq_succ_of_ne_zero h0.ne'
      rw [byteLength_nil, Nat.zero_add, List.nil_append, sliceFrom_cons]
      exact if_pos h
  | cons d pre ih =>
      obtain ⟨k, hk⟩ : ∃ k, d.utf8Size + byteLength pre + i = k + 1 :=
        ⟨d.utf8Size + byteLength pre + i - 1, by omega⟩
      rw [byteLength_cons, hk, List.cons_append, sliceFrom_cons, if_neg (by omega), ← hk, Nat.add_assoc,
        Nat.add_sub_cancel_left]
      exact ih

/-- **A slice up to an index in the text** panics unless a text in front ends there. -/
theorem sliceTo_panic_iff (cs : List Char) (i : Nat) : sliceTo cs i = .error .panic ↔
    ¬ ∃ pre rest, cs = pre ++ rest ∧ byteLength pre = i := by
  constructor
  · rintro h ⟨pre, rest, rfl, rfl⟩
    rw [sliceTo_append] at h
    exact nomatch h
  · intro h
    induction cs generalizing i with
    | nil =>
        cases i with
        | zero => exact absurd ⟨[], [], rfl, rfl⟩ h
        | succ i => rfl
    | cons c cs ih =>
        cases i with
        | zero => exact absurd ⟨[], c :: cs, rfl, rfl⟩ h
        | succ i =>
            rw [sliceTo_cons]
            by_cases hin : i + 1 < c.utf8Size
            · rw [if_pos hin]
            · rw [if_neg hin, ih]
              · rfl
              · rintro ⟨pre, rest, rfl, hpre⟩
                refine h ⟨c :: pre, rest, rfl, ?_⟩
                rw [byteLength_cons, hpre]
                omega

-- ── Strings ────

/-- A text is that of a string up to its closing quote, with what follows it. -/
inductive StringText : List Char → List Char → Prop
  | close (rest : List Char) : StringText ('"' :: rest) rest
  | plain {c : Char} {cs rest : List Char} (hquote : c ≠ '"') (hescape : c ≠ '\\') :
      StringText cs rest → StringText (c :: cs) rest
  | escape {c : Char} {cs rest : List Char} (hc : c.utf8Size = 1) :
      StringText cs rest → StringText ('\\' :: c :: cs) rest

/-- A character of several octets is escaped before the closing quote. -/
inductive StringHazard : List Char → Prop
  | here {c : Char} (cs : List Char) (hc : c.utf8Size ≠ 1) : StringHazard ('\\' :: c :: cs)
  | plain {c : Char} {cs : List Char} (hquote : c ≠ '"') (hescape : c ≠ '\\') :
      StringHazard cs → StringHazard (c :: cs)
  | escape {c : Char} {cs : List Char} (hc : c.utf8Size = 1) :
      StringHazard cs → StringHazard ('\\' :: c :: cs)

theorem getElem?_asBytes (pre cs : List Char) (i : Nat) :
    (asBytes (pre ++ cs))[byteLength pre + i]? = (asBytes cs)[i]? := by
  rw [asBytes_append, ← length_asBytes, List.getElem?_append_right (Nat.le_add_right _ _),
    Nat.add_sub_cancel_left]

theorem ascii_inj {c : Char} {b : Char} (hc : c.utf8Size = 1) (hb : b.utf8Size = 1)
    (h : ascii c = ascii b) : c = b := by
  have hlt : ∀ {d : Char}, d.utf8Size = 1 → d.toNat < 128 := fun hd =>
    Nat.lt_succ_of_le (UInt32.le_iff_toNat_le.mp (Char.utf8Size_eq_one_iff.mp hd))
  have hnat := congrArg UInt8.toNat h
  unfold ascii at hnat
  rw [UInt8.toNat_ofNat', UInt8.toNat_ofNat', Nat.mod_eq_of_lt (by have := hlt hc; omega),
    Nat.mod_eq_of_lt (by have := hlt hb; omega)] at hnat
  exact Char.toNat_inj.mp hnat

/-- The first octet of a character that is neither a quote nor a backslash is neither. -/
theorem head_plain {c : Char} (hquote : c ≠ '"') (hescape : c ≠ '\\') : ∃ b os,
    String.utf8EncodeChar c = b :: os ∧ b ≠ ascii '"' ∧ b ≠ ascii '\\' := by
  by_cases hc : c.utf8Size = 1
  · refine ⟨ascii c, [], encode_ascii hc, fun h => ?_, fun h => ?_⟩
    · exact hquote (ascii_inj hc (by decide) h)
    · exact hescape (ascii_inj hc (by decide) h)
  · obtain ⟨b, b', os, hencode, hb, -⟩ := encode_wide hc
    have hq : (ascii '"').toNat < 128 := by decide
    have he : (ascii '\\').toNat < 128 := by decide
    refine ⟨b, b' :: os, hencode, fun h => ?_, fun h => ?_⟩
    · rw [h] at hb
      omega
    · rw [h] at hb
      omega

section Loop

variable (pre : List Char) (rounds : Nat) (s : List Char)

/-- One round of the loop. -/
theorem stringLoop_succ (input : List Char) (i : Nat) :
    stringLoop input (rounds + 1) i s =
      match (asBytes input)[i]? with
      | none => .error (.error "unterminated string")
      | some b =>
          if b = ascii '"' then do
            let rest ← sliceFrom input (i + 1)
            return (.atom (.str (String.ofList s)), rest)
          else if b = ascii '\\' then
            match (asBytes input)[i + 1]? with
            | none => .error (.error "unterminated string escape")
            | some e => stringLoop input rounds (i + 2) (s ++ escaped e)
          else (do
            let ch ← sliceFrom input i
            match ch with
            | [] => stringLoop input rounds (i + 1) s
            | c :: _ => stringLoop input rounds (i + c.utf8Size) (s ++ [c])) := rfl

theorem stringLoop_end : stringLoop (pre ++ []) rounds (byteLength pre) s
    = .error (.error "unterminated string") := by
  cases rounds with
  | zero => rfl
  | succ rounds =>
      rw [stringLoop_succ]
      have hnone := getElem?_asBytes pre [] 0
      rw [Nat.add_zero] at hnone
      rw [hnone]
      rfl

theorem stringLoop_close (cs : List Char) :
    stringLoop (pre ++ '"' :: cs) (rounds + 1) (byteLength pre) s
      = .ok (.atom (.str (String.ofList s)), cs) := by
  have hbyte := getElem?_asBytes pre ('"' :: cs) 0
  have hslice := sliceFrom_append (pre ++ ['"']) cs
  rw [Nat.add_zero] at hbyte
  rw [byteLength_append, List.append_assoc] at hslice
  rw [stringLoop_succ, hbyte]
  have hslice' : sliceFrom (pre ++ '"' :: cs) (byteLength pre + 1) = .ok cs := hslice
  show (sliceFrom (pre ++ '"' :: cs) (byteLength pre + 1)).bind _ = _
  rw [hslice']
  rfl

theorem stringLoop_plain {c : Char} (hquote : c ≠ '"') (hescape : c ≠ '\\') (cs : List Char) :
    stringLoop (pre ++ c :: cs) (rounds + 1) (byteLength pre) s
      = stringLoop ((pre ++ [c]) ++ cs) rounds (byteLength (pre ++ [c])) (s ++ [c]) := by
  obtain ⟨b, os, hencode, hb, hb'⟩ := head_plain hquote hescape
  have hbyte := getElem?_asBytes pre (c :: cs) 0
  rw [Nat.add_zero, asBytes_cons, hencode] at hbyte
  rw [stringLoop_succ, hbyte]
  dsimp only [List.cons_append, List.getElem?_cons_zero]
  rw [if_neg hb, if_neg hb', sliceFrom_append, byteLength_append, byteLength_cons, byteLength_nil,
    List.append_assoc]
  rfl

theorem stringLoop_cut : ∃ text, stringLoop (pre ++ ['\\']) (rounds + 1) (byteLength pre) s
    = .error (.error text) := by
  have hbyte := getElem?_asBytes pre ['\\'] 0
  have hnext := getElem?_asBytes pre ['\\'] 1
  rw [Nat.add_zero] at hbyte
  refine ⟨"unterminated string escape", ?_⟩
  rw [stringLoop_succ, hbyte, hnext]
  rfl

theorem stringLoop_escape {c : Char} (hc : c.utf8Size = 1) (cs : List Char) :
    stringLoop (pre ++ '\\' :: c :: cs) (rounds + 1) (byteLength pre) s
      = stringLoop ((pre ++ ['\\', c]) ++ cs) rounds (byteLength (pre ++ ['\\', c]))
          (s ++ escaped (ascii c)) := by
  have hbyte := getElem?_asBytes pre ('\\' :: c :: cs) 0
  have hnext := getElem?_asBytes pre ('\\' :: c :: cs) 1
  have hbytes : asBytes ('\\' :: c :: cs) = ascii '\\' :: ascii c :: asBytes cs := by
    rw [asBytes_cons, asBytes_cons, encode_ascii (by decide), encode_ascii hc]
    rfl
  rw [Nat.add_zero, hbytes] at hbyte
  rw [hbytes] at hnext
  have hlen : byteLength (pre ++ ['\\', c]) = byteLength pre + 2 := by
    rw [byteLength_append, byteLength_cons, byteLength_cons, hc]
    rfl
  rw [stringLoop_succ, hbyte, hnext, hlen, List.append_assoc]
  rfl

theorem stringLoop_wide {c : Char} (hc : c.utf8Size ≠ 1) (cs : List Char) :
    stringLoop (pre ++ '\\' :: c :: cs) (rounds + 2) (byteLength pre) s = .error .panic := by
  obtain ⟨b, b', os, hencode, -, hb'⟩ := encode_wide hc
  have hbyte := getElem?_asBytes pre ('\\' :: c :: cs) 0
  have hnext := getElem?_asBytes pre ('\\' :: c :: cs) 1
  have hthird := getElem?_asBytes pre ('\\' :: c :: cs) 2
  have hbytes : asBytes ('\\' :: c :: cs) = ascii '\\' :: b :: b' :: (os ++ asBytes cs) := by
    rw [asBytes_cons, asBytes_cons, encode_ascii (by decide), hencode]
    rfl
  rw [Nat.add_zero, hbytes] at hbyte
  rw [hbytes] at hnext hthird
  have hq : (ascii '"').toNat < 128 := by decide
  have he : (ascii '\\').toNat < 128 := by decide
  have hbq : b' ≠ ascii '"' := fun h => by
    rw [h] at hb'
    omega
  have hbe : b' ≠ ascii '\\' := fun h => by
    rw [h] at hb'
    omega
  have hsize : 1 < c.utf8Size := Nat.lt_of_le_of_ne (one_le_utf8Size c) (Ne.symm hc)
  have hslice := sliceFrom_inside (pre ++ ['\\']) cs Nat.one_pos hsize
  have hlen : byteLength (pre ++ ['\\']) + 1 = byteLength pre + 2 := by
    rw [byteLength_append]
    rfl
  rw [hlen, List.append_assoc] at hslice
  rw [stringLoop_succ, hbyte, hnext]
  dsimp only [List.getElem?_cons_zero, List.getElem?_cons_succ]
  rw [if_neg (by decide), if_pos rfl]
  -- the second round is at the second octet of the character
  rw [stringLoop_succ, hthird]
  dsimp only [List.getElem?_cons_zero, List.getElem?_cons_succ]
  rw [if_neg hbq, if_neg hbe]
  have hslice' : sliceFrom (pre ++ '\\' :: c :: cs) (byteLength pre + 2) = .error .panic := hslice
  rw [hslice']
  rfl

end Loop

/-- **The loop over a string**: it reads the text of a string, and panics at a hazard. -/
theorem stringLoop_spec : ∀ (cs pre : List Char) (rounds : Nat) (s : List Char),
    byteLength cs ≤ rounds →
      (∀ rest, (∃ x, stringLoop (pre ++ cs) rounds (byteLength pre) s = .ok (x, rest)) ↔
        StringText cs rest) ∧
      (stringLoop (pre ++ cs) rounds (byteLength pre) s = .error .panic ↔ StringHazard cs)
  | [], pre, rounds, s, _ => by
      rw [stringLoop_end]
      exact ⟨fun rest => ⟨(fun ⟨_, h⟩ => nomatch h), (nomatch ·)⟩, (nomatch ·), (nomatch ·)⟩
  | c :: cs, pre, rounds, s, hrounds => by
      rw [byteLength_cons] at hrounds
      have hone := one_le_utf8Size c
      obtain ⟨rounds, rfl⟩ : ∃ k, rounds = k + 1 := ⟨rounds - 1, by omega⟩
      by_cases hquote : c = '"'
      · subst hquote
        rw [stringLoop_close]
        refine ⟨fun rest => ⟨?_, ?_⟩, (nomatch ·), ?_⟩
        · rintro ⟨x, h⟩
          obtain ⟨-, rfl⟩ := Prod.mk.inj (Except.ok.inj h)
          exact .close cs
        · intro h
          cases h with
          | close => exact ⟨_, rfl⟩
          | plain hquote => exact absurd rfl hquote
        · intro h
          cases h with
          | plain hquote => exact absurd rfl hquote
      by_cases hescape : c = '\\'
      · subst hescape
        match cs with
        | [] =>
            obtain ⟨text, hcut⟩ := stringLoop_cut pre rounds s
            rw [hcut]
            refine ⟨fun rest => ⟨(fun ⟨_, h⟩ => nomatch h), fun h => ?_⟩, fun h => ?_, fun h => ?_⟩
            · cases h with
              | plain _ hescape => exact absurd rfl hescape
            · exact nomatch h
            · cases h with
              | plain _ hescape => exact absurd rfl hescape
        | e :: cs =>
            have hback : ('\\' : Char).utf8Size = 1 := by decide
            rw [byteLength_cons] at hrounds
            by_cases he : e.utf8Size = 1
            · -- one byte after the backslash: the loop goes on behind it
              rw [stringLoop_escape pre rounds s he]
              obtain ⟨hok, hpanic⟩ := stringLoop_spec cs (pre ++ ['\\', e]) rounds
                (s ++ escaped (ascii e)) (by omega)
              refine ⟨fun rest => (hok rest).trans ⟨.escape he, fun h => ?_⟩,
                hpanic.trans ⟨.escape he, fun h => ?_⟩⟩
              · cases h with
                | plain _ hescape => exact absurd rfl hescape
                | escape _ h => exact h
              · cases h with
                | here _ hwide => exact absurd he hwide
                | plain _ hescape => exact absurd rfl hescape
                | escape _ h => exact h
            · -- a wider character: the next slice begins inside it, which is the hazard
              have hpos := one_le_utf8Size e
              obtain ⟨rounds, rfl⟩ : ∃ k, rounds = k + 1 := ⟨rounds - 1, by omega⟩
              rw [stringLoop_wide pre rounds s he]
              refine ⟨fun rest => ⟨(fun ⟨_, h⟩ => nomatch h), fun h => ?_⟩, fun _ => .here cs he,
                fun _ => rfl⟩
              cases h with
              | plain _ hescape => exact absurd rfl hescape
              | escape hsize _ => exact absurd hsize he
      · rw [stringLoop_plain pre rounds s hquote hescape]
        obtain ⟨hok, hpanic⟩ := stringLoop_spec cs (pre ++ [c]) rounds (s ++ [c]) (by omega)
        refine ⟨fun rest => (hok rest).trans ⟨.plain hquote hescape, fun h => ?_⟩,
          hpanic.trans ⟨.plain hquote hescape, fun h => ?_⟩⟩
        · cases h with
          | close => exact absurd rfl hquote
          | plain _ _ h => exact h
          | escape => exact absurd rfl hescape
        · cases h with
          | here => exact absurd rfl hescape
          | plain _ _ h => exact h
          | escape => exact absurd rfl hescape

-- ── Tokens ────

/-- The characters of a keyword, a number or a symbol. -/
def token (cs : List Char) : List Char := cs.takeWhile fun c => !endsToken c

/-- What follows them. -/
def afterToken (cs : List Char) : List Char := cs.dropWhile fun c => !endsToken c

theorem token_append (cs : List Char) : token cs ++ afterToken cs = cs :=
  List.takeWhile_append_dropWhile

theorem byteLength_eq_zero {cs : List Char} : byteLength cs = 0 ↔ cs = [] := by
  cases cs with
  | nil => exact iff_of_true rfl rfl
  | cons c cs =>
      have hone := one_le_utf8Size c
      refine iff_of_false (fun h => ?_) (List.cons_ne_nil c cs)
      rw [byteLength_cons] at h
      omega

/-- The index at which a token ends is the length of the token. -/
theorem find_endsToken (cs : List Char) :
    (find endsToken cs).getD (asBytes cs).length = byteLength (token cs) := by
  unfold find
  by_cases h : cs.any endsToken = true
  · rw [if_pos h]
    rfl
  · have hall : token cs = cs := by
      refine List.takeWhile_eq_self_iff.mpr fun c hc => ?_
      rw [Bool.not_eq_true'] 
      exact Bool.eq_false_iff.mpr fun hends => h (List.any_eq_true.mpr ⟨c, hc, hends⟩)
    rw [if_neg h, hall, length_asBytes]
    rfl

theorem slices_token (cs : List Char) : sliceTo cs (byteLength (token cs)) = .ok (token cs) ∧
    sliceFrom cs (byteLength (token cs)) = .ok (afterToken cs) := by
  have hto := sliceTo_append (token cs) (afterToken cs)
  have hfrom := sliceFrom_append (token cs) (afterToken cs)
  rw [token_append] at hto hfrom
  exact ⟨hto, hfrom⟩

theorem sliceFrom_one {c : Char} (hc : c.utf8Size = 1) (cs : List Char) :
    sliceFrom (c :: cs) 1 = .ok cs := by
  have h := sliceFrom_append [c] cs
  rw [byteLength_cons, hc] at h
  exact h

/-- A keyword is read up to the end of its token, and never panics. -/
theorem parseKeyword_spec (cs : List Char) :
    (∀ rest, (∃ x, parseKeyword (':' :: cs) = .ok (x, rest)) ↔
      token cs ≠ [] ∧ rest = afterToken cs) ∧
    parseKeyword (':' :: cs) ≠ .error .panic := by
  unfold parseKeyword
  rw [sliceFrom_one (by decide)]
  dsimp only [bind, Except.bind]
  rw [find_endsToken, (slices_token cs).1, (slices_token cs).2]
  by_cases h : byteLength (token cs) = 0
  · rw [if_pos h]
    have hnil := byteLength_eq_zero.mp h
    exact ⟨fun rest => ⟨(fun ⟨_, h⟩ => nomatch h), fun h => absurd hnil h.1⟩, (nomatch ·)⟩
  · rw [if_neg h]
    have hne : token cs ≠ [] := fun hnil => h (byteLength_eq_zero.mpr hnil)
    refine ⟨fun rest => ⟨?_, ?_⟩, (nomatch ·)⟩
    · rintro ⟨x, heq⟩
      obtain ⟨-, rfl⟩ := Prod.mk.inj (Except.ok.inj heq)
      exact ⟨hne, rfl⟩
    · rintro ⟨-, rfl⟩
      exact ⟨_, rfl⟩

/-- So are a number and a symbol. -/
theorem parseNumOrSymbol_spec (cs : List Char) :
    (∀ rest, (∃ x, parseNumOrSymbol cs = .ok (x, rest)) ↔ token cs ≠ [] ∧ rest = afterToken cs) ∧
    parseNumOrSymbol cs ≠ .error .panic := by
  unfold parseNumOrSymbol
  dsimp only
  rw [find_endsToken, (slices_token cs).1, (slices_token cs).2]
  by_cases h : byteLength (token cs) = 0
  · rw [if_pos h]
    have hnil := byteLength_eq_zero.mp h
    exact ⟨fun rest => ⟨(fun ⟨_, h⟩ => nomatch h), fun h => absurd hnil h.1⟩, (nomatch ·)⟩
  · rw [if_neg h]
    have hne : token cs ≠ [] := fun hnil => h (byteLength_eq_zero.mpr hnil)
    dsimp only [bind, Except.bind]
    cases parseI64 (token cs) with
    | none =>
        refine ⟨fun rest => ⟨?_, ?_⟩, (nomatch ·)⟩
        · rintro ⟨x, heq⟩
          obtain ⟨-, rfl⟩ := Prod.mk.inj (Except.ok.inj heq)
          exact ⟨hne, rfl⟩
        · rintro ⟨-, rfl⟩
          exact ⟨_, rfl⟩
    | some n =>
        refine ⟨fun rest => ⟨?_, ?_⟩, (nomatch ·)⟩
        · rintro ⟨x, heq⟩
          obtain ⟨-, rfl⟩ := Prod.mk.inj (Except.ok.inj heq)
          exact ⟨hne, rfl⟩
        · rintro ⟨-, rfl⟩
          exact ⟨_, rfl⟩

/-- No boolean stands in front of a text, and its tenth octet ends inside a character. -/
def BoolHazard (cs : List Char) : Prop :=
  readBool cs = none ∧ 10 < byteLength cs ∧ ¬ ∃ pre rest, cs = pre ++ rest ∧ byteLength pre = 10

theorem parseBool_spec (cs : List Char) :
    (∀ rest, (∃ x, parseBool cs = .ok (x, rest)) ↔ ∃ b, readBool cs = some (b, rest)) ∧
    (parseBool cs = .error .panic ↔ BoolHazard cs) := by
  unfold parseBool BoolHazard
  cases hread : readBool cs with
  | some r =>
      obtain ⟨b, rest⟩ := r
      refine ⟨fun rest' => ⟨?_, ?_⟩, (nomatch ·), fun h => nomatch h.1⟩
      · rintro ⟨x, heq⟩
        obtain ⟨-, rfl⟩ := Prod.mk.inj (Except.ok.inj heq)
        exact ⟨b, rfl⟩
      · rintro ⟨b', heq⟩
        obtain ⟨-, rfl⟩ := Prod.mk.inj (Option.some.inj heq)
        exact ⟨_, rfl⟩
  | none =>
      dsimp only
      rw [length_asBytes]
      have hslice : sliceTo cs (min (byteLength cs) 10) = .error .panic ↔
          10 < byteLength cs ∧ ¬ ∃ pre rest, cs = pre ++ rest ∧ byteLength pre = 10 := by
        rw [sliceTo_panic_iff]
        by_cases hlong : 10 < byteLength cs
        · rw [Nat.min_eq_right hlong.le, and_iff_right hlong]
        · rw [Nat.min_eq_left (Nat.not_lt.mp hlong)]
          exact iff_of_false (fun h => h ⟨cs, [], (List.append_nil cs).symm, rfl⟩) fun h => hlong h.1
      refine ⟨fun rest => ⟨?_, fun ⟨_, h⟩ => nomatch h⟩, ?_⟩
      · rintro ⟨x, heq⟩
        obtain ⟨quoted, -, heq⟩ := CbclExcept.bind_ok_iff.mp heq
        exact nomatch heq
      · rw [and_iff_right rfl, ← hslice, CbclExcept.bind_error_iff]
        constructor
        · rintro (h | ⟨quoted, -, h⟩)
          · exact h
          · exact nomatch h
        · exact Or.inl

-- ── Expressions ────

mutual
/-- A complete expression in front of a text, and what follows it. -/
inductive Reads : List Char → List Char → Prop
  | list {cs r rest : List Char} : ReadsItems cs r → skipWs r = ')' :: rest →
      Reads ('(' :: cs) rest
  | string {cs rest : List Char} : StringText cs rest → Reads ('"' :: cs) rest
  | bool {cs rest : List Char} {b : Bool} : readBool ('#' :: cs) = some (b, rest) →
      Reads ('#' :: cs) rest
  | keyword {cs : List Char} : token cs ≠ [] → Reads (':' :: cs) (afterToken cs)
  | word {c : Char} {cs : List Char} (hc : c ∉ ['(', '"', '#', ':']) : token (c :: cs) ≠ [] →
      Reads (c :: cs) (afterToken (c :: cs))
/-- Complete items in front of a text, and what follows them. -/
inductive ReadsItems : List Char → List Char → Prop
  | nil (cs : List Char) : ReadsItems cs cs
  | cons {cs ds r rest : List Char} {c : Char} : skipWs cs = c :: ds → c ≠ ')' →
      Reads (c :: ds) r → ReadsItems r rest → ReadsItems cs rest
end

/-- From an expression through complete items of its lists to an expression inside it. -/
inductive StartsAt : List Char → List Char → Prop
  | refl (cs : List Char) : StartsAt cs cs
  | item {cs ds r inside : List Char} {c : Char} : ReadsItems cs r → skipWs r = c :: ds → c ≠ ')' →
      StartsAt (c :: ds) inside → StartsAt ('(' :: cs) inside

/-- An expression at which the parser panics. -/
inductive HazardHere : List Char → Prop
  | string {cs : List Char} : StringHazard cs → HazardHere ('"' :: cs)
  | bool {cs : List Char} : BoolHazard ('#' :: cs) → HazardHere ('#' :: cs)

/-- The parser comes to an expression at which it panics. -/
def Hazard (cs : List Char) : Prop := ∃ inside, StartsAt cs inside ∧ HazardHere inside

theorem hazard_list {cs : List Char} : Hazard ('(' :: cs) ↔
    ∃ r c ds, ReadsItems cs r ∧ skipWs r = c :: ds ∧ c ≠ ')' ∧ Hazard (c :: ds) := by
  constructor
  · rintro ⟨inside, hstart, hhere⟩
    cases hstart with
    | refl => exact nomatch hhere
    | item hitems hskip hc hstart => exact ⟨_, _, _, hitems, hskip, hc, inside, hstart, hhere⟩
  · rintro ⟨r, c, ds, hitems, hskip, hc, inside, hstart, hhere⟩
    exact ⟨inside, .item hitems hskip hc hstart, hhere⟩

/-- An expression that is no list hides no other. -/
theorem hazard_atom {c : Char} {cs : List Char} (hc : c ≠ '(') :
    Hazard (c :: cs) ↔ HazardHere (c :: cs) := by
  constructor
  · rintro ⟨inside, hstart, hhere⟩
    cases hstart with
    | refl => exact hhere
    | item => exact absurd rfl hc
  · exact fun hhere => ⟨_, .refl _, hhere⟩

-- ── The parser ────

/-- The first octet of a character is that of an ASCII character only if they are the same. -/
theorem head_byte (c : Char) : ∃ b os, String.utf8EncodeChar c = b :: os ∧
    ∀ d : Char, d.utf8Size = 1 → (b = ascii d ↔ c = d) := by
  by_cases hc : c.utf8Size = 1
  · exact ⟨ascii c, [], encode_ascii hc, fun d hd => ⟨ascii_inj hc hd, fun h => by rw [h]⟩⟩
  · obtain ⟨b, b', os, hencode, hb, -⟩ := encode_wide hc
    refine ⟨b, b' :: os, hencode, fun d hd => iff_of_false (fun h => ?_) fun h => hc (h ▸ hd)⟩
    have hlt : d.toNat < 128 :=
      Nat.lt_succ_of_le (UInt32.le_iff_toNat_le.mp (Char.utf8Size_eq_one_iff.mp hd))
    rw [h] at hb
    unfold ascii at hb
    rw [UInt8.toNat_ofNat', Nat.mod_eq_of_lt (by omega)] at hb
    omega

/-- What `parseOne` does with a character in front. -/
theorem parseOne_cons (bound : Nat) {input : List Char} {c : Char} {cs : List Char}
    (h : skipWs input = c :: cs) : parseOne (bound + 1) input =
      if c = '(' then parseItems bound cs []
      else if c = '"' then parseString (c :: cs)
      else if c = '#' then parseBool (c :: cs)
      else if c = ':' then parseKeyword (c :: cs)
      else parseNumOrSymbol (c :: cs) := by
  obtain ⟨b, os, hencode, hbyte⟩ := head_byte c
  rw [parseOne]
  rw [h, asBytes_cons, hencode, List.cons_append]
  dsimp only
  by_cases hopen : c = '('
  · rw [if_pos ((hbyte '(' (by decide)).mpr hopen), if_pos hopen, hopen, sliceFrom_one (by decide)]
    rfl
  rw [if_neg (fun hb => hopen ((hbyte '(' (by decide)).mp hb)), if_neg hopen]
  by_cases hquote : c = '"'
  · rw [if_pos ((hbyte '"' (by decide)).mpr hquote), if_pos hquote]
  rw [if_neg (fun hb => hquote ((hbyte '"' (by decide)).mp hb)), if_neg hquote]
  by_cases hhash : c = '#'
  · rw [if_pos ((hbyte '#' (by decide)).mpr hhash), if_pos hhash]
  rw [if_neg (fun hb => hhash ((hbyte '#' (by decide)).mp hb)), if_neg hhash]
  by_cases hcolon : c = ':'
  · rw [if_pos ((hbyte ':' (by decide)).mpr hcolon), if_pos hcolon]
  · rw [if_neg (fun hb => hcolon ((hbyte ':' (by decide)).mp hb)), if_neg hcolon]

theorem parseString_spec (cs : List Char) :
    (∀ rest, (∃ x, parseString ('"' :: cs) = .ok (x, rest)) ↔ StringText cs rest) ∧
    (parseString ('"' :: cs) = .error .panic ↔ StringHazard cs) := by
  have hrounds : byteLength cs ≤ (asBytes ('"' :: cs)).length := by
    rw [length_asBytes, byteLength_cons]
    exact Nat.le_add_left _ _
  exact stringLoop_spec cs ['"'] _ [] hrounds

/-- An outcome reads what is an expression in front of a text, and panics where the text leads to a
    hazard. -/
structure ReadsOne (text : List Char) (outcome : Outcome (SExpr × List Char)) : Prop where
  ok : ∀ rest, (∃ x, outcome = .ok (x, rest)) ↔ Reads text rest
  panics : outcome = .error .panic ↔ Hazard text

/-- An outcome reads the rest of a list, and panics where an item leads to a hazard. -/
structure ReadsList (text : List Char) (outcome : Outcome (SExpr × List Char)) : Prop where
  ok : ∀ rest, (∃ x, outcome = .ok (x, rest)) ↔ ∃ r, ReadsItems text r ∧ skipWs r = ')' :: rest
  panics : outcome = .error .panic ↔
    ∃ r c ds, ReadsItems text r ∧ skipWs r = c :: ds ∧ c ≠ ')' ∧ Hazard (c :: ds)

/-- **Atoms**: what is read, and where the parser panics. -/
theorem atom_spec (bound : Nat) {input : List Char} {c : Char} {cs : List Char}
    (h : skipWs input = c :: cs) (hc : c ≠ '(') :
    ReadsOne (c :: cs) (parseOne (bound + 1) input) := by
  suffices hspec : (∀ rest, (∃ x, parseOne (bound + 1) input = .ok (x, rest)) ↔
      Reads (c :: cs) rest) ∧ (parseOne (bound + 1) input = .error .panic ↔ Hazard (c :: cs)) from
    ⟨hspec.1, hspec.2⟩
  rw [parseOne_cons bound h, if_neg hc, hazard_atom hc]
  by_cases hquote : c = '"'
  · subst hquote
    rw [if_pos rfl]
    obtain ⟨hok, hpanic⟩ := parseString_spec cs
    refine ⟨fun rest => (hok rest).trans ⟨.string, fun hr => ?_⟩,
      hpanic.trans ⟨.string, fun hh => ?_⟩⟩
    · cases hr with
      | string htext => exact htext
      | word hnot => exact absurd (by simp) hnot
    · cases hh with
      | string hhazard => exact hhazard
  rw [if_neg hquote]
  by_cases hhash : c = '#'
  · subst hhash
    rw [if_pos rfl]
    obtain ⟨hok, hpanic⟩ := parseBool_spec ('#' :: cs)
    refine ⟨fun rest => (hok rest).trans ⟨fun ⟨_, hb⟩ => .bool hb, fun hr => ?_⟩,
      hpanic.trans ⟨.bool, fun hh => ?_⟩⟩
    · cases hr with
      | bool hb => exact ⟨_, hb⟩
      | word hnot => exact absurd (by simp) hnot
    · cases hh with
      | bool hhazard => exact hhazard
  rw [if_neg hhash]
  have hsafe : ¬ HazardHere (c :: cs) := fun hh => by
    cases hh with
    | string => exact hquote rfl
    | bool => exact hhash rfl
  by_cases hcolon : c = ':'
  · subst hcolon
    rw [if_pos rfl]
    obtain ⟨hok, hpanic⟩ := parseKeyword_spec cs
    refine ⟨fun rest => (hok rest).trans ⟨fun ⟨hne, hrest⟩ => hrest ▸ .keyword hne, fun hr => ?_⟩,
      iff_of_false hpanic hsafe⟩
    cases hr with
    | keyword hne => exact ⟨hne, rfl⟩
    | word hnot => exact absurd (by simp) hnot
  rw [if_neg hcolon]
  obtain ⟨hok, hpanic⟩ := parseNumOrSymbol_spec (c :: cs)
  refine ⟨fun rest => (hok rest).trans ⟨fun ⟨hne, hrest⟩ => ?_, fun hr => ?_⟩,
    iff_of_false hpanic hsafe⟩
  · rw [hrest]
    exact .word (by simp [hc, hquote, hhash, hcolon]) hne
  · cases hr with
    | list => exact absurd rfl hc
    | string => exact absurd rfl hquote
    | bool => exact absurd rfl hhash
    | keyword => exact absurd rfl hcolon
    | word _ hne => exact ⟨hne, rfl⟩

theorem length_of_stringText {cs rest : List Char} (h : StringText cs rest) :
    rest.length < cs.length := by
  induction h with
  | close rest => exact Nat.lt_succ_self _
  | plain _ _ _ ih => exact ih.trans (Nat.lt_succ_self _)
  | escape _ _ ih =>
      simp only [List.length_cons]
      omega

theorem length_of_stripPrefix {pre cs rest : List Char} (h : stripPrefix pre cs = some rest)
    (hpre : pre ≠ []) : rest.length < cs.length := by
  unfold stripPrefix at h
  split at h
  · rename_i hprefix
    obtain ⟨t, rfl⟩ := List.isPrefixOf_iff_prefix.mp hprefix
    rw [← Option.some.inj h, List.drop_left, List.length_append]
    have hpos := List.length_pos_iff.mpr hpre
    omega
  · exact nomatch h

theorem eq_some_of_orElse {α : Type} {x : Option α} {f : Unit → Option α} {a : α}
    (h : x.orElse f = some a) : x = some a ∨ f () = some a := by
  cases x with
  | none => exact Or.inr h
  | some b => exact Or.inl h

theorem length_of_readBool {cs rest : List Char} {b : Bool} (h : readBool cs = some (b, rest)) :
    rest.length < cs.length := by
  have hread : ∀ (short long : String) (v : Bool), short.toList ≠ [] → long.toList ≠ [] →
      ((stripPrefix short.toList cs).bind fun rest =>
        if atDelimiter rest then some (v, rest)
        else (stripPrefix long.toList rest).bind fun rest =>
          if atDelimiter rest then some (v, rest) else none) = some (b, rest) →
      rest.length < cs.length := by
    intro short long v hshort hlong h
    obtain ⟨r, hr, h⟩ := Option.bind_eq_some_iff.mp h
    have hlen := length_of_stripPrefix hr hshort
    split at h
    · obtain ⟨-, rfl⟩ := Prod.mk.inj (Option.some.inj h)
      exact hlen
    · obtain ⟨r', hr', h⟩ := Option.bind_eq_some_iff.mp h
      have hlen' := length_of_stripPrefix hr' hlong
      split at h
      · obtain ⟨-, rfl⟩ := Prod.mk.inj (Option.some.inj h)
        exact hlen'.trans hlen
      · exact nomatch h
  unfold readBool at h
  dsimp only at h
  rcases eq_some_of_orElse h with h | h
  · exact hread _ _ _ (by decide) (by decide) h
  · exact hread _ _ _ (by decide) (by decide) h

theorem length_afterToken {cs : List Char} (h : token cs ≠ []) :
    (afterToken cs).length < cs.length := by
  have hlen := congrArg List.length (token_append cs)
  have hpos := List.length_pos_iff.mpr h
  rw [List.length_append] at hlen
  omega

theorem length_skipWs (cs : List Char) : (skipWs cs).length ≤ cs.length :=
  List.length_dropWhile_le ..

/-- What is read is shorter than the text. -/
theorem parse_length : ∀ bound : Nat,
    (∀ cs x rest, parseOne bound cs = .ok (x, rest) → rest.length < (skipWs cs).length) ∧
    ∀ cs items x rest, parseItems bound cs items = .ok (x, rest) → rest.length < cs.length := by
  intro bound
  induction bound with
  | zero => exact ⟨fun cs x rest h => (nomatch h), fun cs items x rest h => (nomatch h)⟩
  | succ bound ih =>
      refine ⟨fun cs x rest h => ?_, fun cs items x rest h => ?_⟩
      · cases hskip : skipWs cs with
        | nil =>
            rw [parseOne] at h
            rw [hskip] at h
            exact nomatch h
        | cons c ds =>
            by_cases hc : c = '('
            · rw [parseOne_cons bound hskip, if_pos hc] at h
              exact (ih.2 _ _ _ _ h).trans (Nat.lt_succ_self _)
            · have hreads := ((atom_spec bound hskip hc).ok rest).mp ⟨x, h⟩
              cases hreads with
              | list => exact absurd rfl hc
              | string htext => exact (length_of_stringText htext).trans (Nat.lt_succ_self _)
              | bool hb => exact length_of_readBool hb
              | keyword hne => exact (length_afterToken hne).trans (Nat.lt_succ_self _)
              | word _ hne => exact length_afterToken hne
      · rw [parseItems] at h
        dsimp only at h
        have hskip := length_skipWs cs
        split at h
        · exact nomatch h
        split at h
        · rename_i hhead
          obtain ⟨c, ds, hcs⟩ : ∃ c ds, skipWs cs = c :: ds := by
            cases hcs : skipWs cs with
            | nil =>
                rw [hcs] at hhead
                exact nomatch hhead
            | cons c ds => exact ⟨c, ds, rfl⟩
          rw [hcs] at h hhead hskip
          obtain rfl := Option.some.inj hhead
          rw [sliceFrom_one (by decide)] at h
          obtain ⟨-, rfl⟩ := Prod.mk.inj (Except.ok.inj h)
          exact hskip
        · obtain ⟨⟨y, r⟩, hy, h⟩ := CbclExcept.bind_ok_iff.mp h
          have hone := ih.1 _ _ _ hy
          have hrest := ih.2 _ _ _ _ h
          have hskip' := length_skipWs (skipWs cs)
          dsimp only at hrest
          omega

theorem skipWs_skipWs (cs : List Char) : skipWs (skipWs cs) = skipWs cs :=
  List.dropWhile_idempotent _ _

/-- A list whose text ends is not read, and holds no hazard. -/
theorem readsList_end {cs : List Char} (hskip : skipWs cs = []) (reason : String) :
    ReadsList cs (.error (.error reason)) := by
  have hnone : ∀ r, ReadsItems cs r → skipWs r = [] := fun r hitems => by
    cases hitems with
    | nil => exact hskip
    | cons hcons => exact nomatch hskip.symm.trans hcons
  refine ⟨fun rest => ⟨(fun ⟨_, h⟩ => nomatch h), ?_⟩, (nomatch ·), ?_⟩
  · rintro ⟨r, hitems, hr⟩
    exact nomatch (hnone r hitems).symm.trans hr
  · rintro ⟨r, c, ds, hitems, hr, -⟩
    exact nomatch (hnone r hitems).symm.trans hr

/-- A list is read to its bracket. -/
theorem readsList_close {cs ds : List Char} (hskip : skipWs cs = ')' :: ds) (x : SExpr) :
    ReadsList cs (.ok (x, ds)) := by
  have hself : ∀ r, ReadsItems cs r → skipWs r = ')' :: ds := fun r hitems => by
    cases hitems with
    | nil => exact hskip
    | cons hcons hne =>
        injection hskip.symm.trans hcons with hhead
        exact absurd hhead.symm hne
  refine ⟨fun rest => ⟨?_, ?_⟩, (nomatch ·), ?_⟩
  · rintro ⟨x, heq⟩
    obtain ⟨-, rfl⟩ := Prod.mk.inj (Except.ok.inj heq)
    exact ⟨cs, .nil cs, hskip⟩
  · rintro ⟨r, hitems, hr⟩
    obtain ⟨-, rfl⟩ := List.cons.inj ((hself r hitems).symm.trans hr)
    exact ⟨_, rfl⟩
  · rintro ⟨r, d, es, hitems, hr, hne, -⟩
    obtain ⟨rfl, -⟩ := List.cons.inj ((hself r hitems).symm.trans hr)
    exact absurd rfl hne

/-- What complete items are where an item comes first: none, or that item and others. -/
theorem ReadsItems.split {cs ds r : List Char} {c : Char} (h : ReadsItems cs r)
    (hskip : skipWs cs = c :: ds) : r = cs ∨ ∃ r', Reads (c :: ds) r' ∧ ReadsItems r' r := by
  cases h with
  | nil => exact Or.inl rfl
  | cons hcons _ hread hrest =>
      obtain ⟨rfl, rfl⟩ := List.cons.inj (hskip.symm.trans hcons)
      exact Or.inr ⟨_, hread, hrest⟩

/-- Where the next item is not read, the list is not, and it panics with the item. -/
theorem readsList_error {cs ds : List Char} {c : Char} (hskip : skipWs cs = c :: ds) (hc : c ≠ ')')
    {e : Failure} (h : ReadsOne (c :: ds) (.error e)) : ReadsList cs (.error e) := by
  have hnot : ∀ r, ¬ Reads (c :: ds) r := fun r hr => by
    obtain ⟨x, hx⟩ := (h.ok r).mpr hr
    exact nomatch hx
  -- so no items are complete, and nothing but the item can panic
  have honly : ∀ r, ReadsItems cs r → r = cs := fun r hitems =>
    (hitems.split hskip).resolve_right fun ⟨r', hr', _⟩ => hnot r' hr'
  refine ⟨fun rest => ⟨(fun ⟨_, h⟩ => nomatch h), ?_⟩, h.panics.trans ⟨fun hh => ?_, ?_⟩⟩
  · rintro ⟨r, hitems, hr⟩
    rw [honly r hitems, hskip] at hr
    exact absurd (List.cons.inj hr).1 hc
  · exact ⟨cs, c, ds, .nil cs, hskip, hc, hh⟩
  · rintro ⟨r, d, es, hitems, hr, -, hh⟩
    rw [honly r hitems, hskip] at hr
    rw [hr]
    exact hh

/-- Where the next item is read, the list goes on after it. -/
theorem readsList_ok {cs ds r₁ : List Char} {c : Char} (hskip : skipWs cs = c :: ds) (hc : c ≠ ')')
    {x : SExpr} (h : ReadsOne (c :: ds) (.ok (x, r₁))) {outcome : Outcome (SExpr × List Char)}
    (hnext : ReadsList r₁ outcome) : ReadsList cs outcome := by
  have hsafe : ¬ Hazard (c :: ds) := fun hh => nomatch h.panics.mpr hh
  have hread : Reads (c :: ds) r₁ := (h.ok r₁).mp ⟨x, rfl⟩
  have hunique : ∀ r, Reads (c :: ds) r → r = r₁ := fun r hr => by
    obtain ⟨y, hy⟩ := (h.ok r).mpr hr
    exact ((Prod.mk.inj (Except.ok.inj hy)).2).symm
  refine ⟨fun rest => (hnext.ok rest).trans ⟨?_, ?_⟩, hnext.panics.trans ⟨?_, ?_⟩⟩
  · rintro ⟨r, hitems, hr⟩
    exact ⟨r, .cons hskip hc hread hitems, hr⟩
  · rintro ⟨r, hitems, hr⟩
    rcases hitems.split hskip with rfl | ⟨r', hr', hitems'⟩
    · rw [hskip] at hr
      exact absurd (List.cons.inj hr).1 hc
    · rw [hunique r' hr'] at hitems'
      exact ⟨r, hitems', hr⟩
  · rintro ⟨r, d, es, hitems, hr, hne, hh⟩
    exact ⟨r, d, es, .cons hskip hc hread hitems, hr, hne, hh⟩
  · rintro ⟨r, d, es, hitems, hr, hne, hh⟩
    rcases hitems.split hskip with rfl | ⟨r', hr', hitems'⟩
    · rw [hskip] at hr
      exact absurd (hr ▸ hh) hsafe
    · rw [hunique r' hr'] at hitems'
      exact ⟨r, d, es, hitems', hr, hne, hh⟩

/-- **The parser reads exactly what is an expression, and panics exactly where it comes to a
    hazard.**  An expression costs one round more than its items, and the items two rounds for
    every character, so by induction on the rounds twice the length is enough. -/
theorem parse_spec : ∀ bound : Nat,
    (∀ input c cs, skipWs input = c :: cs → 2 * (c :: cs).length + 1 ≤ bound →
      ReadsOne (c :: cs) (parseOne bound input)) ∧
    ∀ cs items, 2 * cs.length + 2 ≤ bound → ReadsList cs (parseItems bound cs items) := by
  intro bound
  induction bound with
  | zero => exact ⟨fun input c cs _ h => by omega, fun cs items h => by omega⟩
  | succ bound ih =>
      refine ⟨fun input c cs hskip h => ?_, fun cs items h => ?_⟩
      · by_cases hc : c = '('
        · subst hc
          rw [parseOne_cons bound hskip, if_pos rfl]
          rw [List.length_cons] at h
          obtain ⟨hok, hpanic⟩ := ih.2 cs [] (by omega)
          refine ⟨fun rest => (hok rest).trans ⟨fun ⟨r, hitems, hr⟩ => .list hitems hr, fun hr => ?_⟩,
            hpanic.trans hazard_list.symm⟩
          cases hr with
          | list hitems hr => exact ⟨_, hitems, hr⟩
          | word hnot => exact absurd (by simp) hnot
        · exact atom_spec bound hskip hc
      · have hlen := length_skipWs cs
        rw [parseItems]
        dsimp only
        cases hskip : skipWs cs with
        | nil =>
            rw [if_pos rfl]
            exact readsList_end hskip _
        | cons c ds =>
            rw [if_neg (List.cons_ne_nil c ds)]
            by_cases hc : c = ')'
            · subst hc
              rw [if_pos (show ((')' :: ds).head? = some ')') from rfl), sliceFrom_one (by decide)]
              exact readsList_close hskip _
            · rw [if_neg (show (c :: ds).head? ≠ some ')' from fun hhead => hc (Option.some.inj hhead))]
              have hagain : skipWs (c :: ds) = c :: ds := by
                rw [← hskip]
                exact skipWs_skipWs cs
              rw [hskip] at hlen
              have hspec := ih.1 (c :: ds) c ds hagain (by omega)
              cases hone : parseOne bound (c :: ds) with
              | error e =>
                  rw [hone] at hspec
                  exact readsList_error hskip hc hspec
              | ok p =>
                  obtain ⟨x, r₁⟩ := p
                  rw [hone] at hspec
                  have hshort := (parse_length bound).1 _ _ _ hone
                  rw [hagain] at hshort
                  exact readsList_ok hskip hc hspec (ih.2 r₁ (items ++ [x]) (by omega))

/-- What is left of a text has no white space in front. -/
theorem skipWs_trim (cs : List Char) : skipWs (trim cs) = trim cs := by
  have hhead : ∀ (ds : List Char) {c : Char} {es : List Char}, skipWs ds = c :: es →
      isWhitespace c = false := fun ds c es h => by
    have hnot := List.head_dropWhile_not isWhitespace (l := ds) (by
      show skipWs ds ≠ []
      rw [h]
      exact List.cons_ne_nil c es)
    have hc : (skipWs ds).head (by rw [h]; exact List.cons_ne_nil c es) = c := by simp [h]
    exact hc ▸ hnot
  unfold trim
  cases hskip : skipWs cs with
  | nil => rfl
  | cons c ds =>
      -- the first character ends the search for white space from behind
      have hc := hhead cs hskip
      have hstop : skipWs (ds.reverse ++ [c]) = skipWs ds.reverse ++ [c] := by
        unfold skipWs
        rw [List.dropWhile_append]
        split
        · rename_i hempty
          rw [List.isEmpty_iff.mp hempty, List.dropWhile_cons, if_neg (by rw [hc]; exact Bool.false_ne_true)]
          rfl
        · rfl
      rw [List.reverse_cons, hstop, List.reverse_append]
      show List.dropWhile isWhitespace (c :: _) = _
      rw [List.dropWhile_cons, if_neg (by rw [hc]; exact Bool.false_ne_true)]
      rfl

/-- **Where parsing from a string panics**: exactly at a text in which the parser comes to an
    expression that is a string with an escaped character of several octets, or that starts with `#`,
    is no boolean, and has its tenth octet inside a character. -/
theorem fromStr_safe_iff (s : String) :
    fromStr s ≠ .error .panic ↔ ¬ (trim s.toList ≠ [] ∧ Hazard (trim s.toList)) := by
  unfold fromStr
  dsimp only
  cases htrim : trim s.toList with
  | nil =>
      rw [if_pos rfl]
      exact iff_of_true (nomatch ·) fun h => h.1 rfl
  | cons c cs =>
      have hskip : skipWs (c :: cs) = c :: cs := by
        rw [← htrim]
        exact skipWs_trim _
      obtain ⟨-, hpanic⟩ := (parse_spec (2 * (c :: cs).length + 1)).1 (c :: cs) c cs hskip
        (Nat.le_refl _)
      rw [if_neg (List.cons_ne_nil c cs), ne_eq, not_iff_not, CbclExcept.bind_error_iff, hpanic]
      constructor
      · rintro (hh | ⟨⟨x, rest⟩, -, h⟩)
        · exact ⟨List.cons_ne_nil c cs, hh⟩
        · dsimp only at h
          split at h
          · exact nomatch h
          · exact nomatch h
      · rintro ⟨-, hh⟩
        exact Or.inl hh

/-- A string in which `é` is escaped, and ten octets that end inside an `é`. -/
theorem fromStr_panics : fromStr "\"\\é\"" = .error .panic ∧ fromStr "#aaaaaaaaé" = .error .panic := by
  decide +kernel

end CbclFromStr
