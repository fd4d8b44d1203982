import Cbcl.CodecProofs
import Cbcl.HlcModel

/-!
# Clocks are ordered evidence

A text is a clock exactly if it is the clock's spelling, spellings are ordered as their clocks, and
a chain of advances goes up past everything it merges.  Width and lowercase digits make the
spelling a numeral of fixed width, so all of it comes down to `CbclFixedWidth`.
-/

namespace CbclHlc

open CbclMessage CbclCanonical CbclFixedWidth

-- ── Digits ────

/-- The octet of a hexadecimal digit. -/
def hexOctet (d : Nat) : UInt8 := if d < 10 then .ofNat (48 + d) else .ofNat (87 + d)

theorem hexValue_hexOctet : ∀ d < 16, hexValue (hexOctet d) = d := by decide

theorem lowerHex_hexOctet : ∀ d < 16, lowerHex (hexOctet d) = true := by decide

theorem hexOctet_lt_iff : ∀ d < 16, ∀ e < 16, hexOctet d < hexOctet e ↔ d < e := by decide

theorem utf8_digitChar : ∀ d < 16, String.utf8EncodeChar (Nat.digitChar d) = [hexOctet d] := by
  decide

theorem lowerHex_digit (c : UInt8) (h : lowerHex c = true) :
    hexValue c < 16 ∧ hexOctet (hexValue c) = c := by
  have hall : ∀ n : Fin 256, lowerHex (.ofNat n) = true →
      hexValue (.ofNat n) < 16 ∧ hexOctet (hexValue (.ofNat n)) = .ofNat n := by decide +kernel
  have hc := hall ⟨c.toNat, c.toNat_lt⟩
  rw [UInt8.ofNat_toNat] at hc
  exact hc h

/-- The number of some places fits them. -/
theorem fromStrRadix_iff {bits w : Nat} (hw : 0 < w) (hbits : 16 ^ w = 2 ^ bits) {digits : Octets}
    (hlen : digits.length = w) (hhex : ∀ c ∈ digits, lowerHex c = true) {n : Nat} :
    fromStrRadix bits digits = some n ↔ n < 16 ^ w ∧ digits = numeral 16 hexOctet w n := by
  have hlt := number_lt lowerHex_digit digits hhex
  have hspell := numeral_number lowerHex_digit digits hhex 0
  rw [Nat.zero_mul, Nat.zero_add, hlen] at hspell
  rw [hlen] at hlt
  have hne : digits ≠ [] := by
    rintro rfl
    exact absurd hlen (Nat.ne_of_lt hw)
  unfold fromStrRadix
  rw [if_pos ⟨hne, hbits ▸ hlt⟩, Option.some.injEq]
  constructor
  · rintro rfl
    exact ⟨hlt, hspell.symm⟩
  · rintro ⟨hn, rfl⟩
    rw [number_numeral hexValue_hexOctet (by decide), Nat.mod_eq_of_lt hn]

theorem lowerHex_numeral (w n : Nat) : ∀ c ∈ numeral 16 hexOctet w n, lowerHex c = true := by
  induction w with
  | zero => exact fun c h => nomatch h
  | succ w ih =>
      intro c hc
      rcases List.mem_cons.mp hc with rfl | hc
      · exact lowerHex_hexOctet _ (Nat.mod_lt _ (by decide))
      · exact ih c hc

-- ── The spelling ────

/-- The padded digits of a number that fits are its numeral. -/
theorem leftpad_toDigits : ∀ (w n : Nat), 0 < w → n < 16 ^ w →
    List.leftpad w '0' (Nat.toDigits 16 n) = numeral 16 Nat.digitChar w n := by
  have hzeros : ∀ w, numeral 16 Nat.digitChar w 0 = List.replicate w '0' := by
    intro w
    induction w with
    | zero => rfl
    | succ w ih =>
        rw [numeral, ih, Nat.zero_div]
        rfl
  intro w
  induction w with
  | zero => exact fun n h => absurd h (lt_irrefl 0)
  | succ w ih =>
      intro n _ hn
      rw [numeral_snoc]
      by_cases hlt : n < 16
      · rw [Nat.toDigits_of_lt_base hlt, Nat.div_eq_of_lt hlt, hzeros, Nat.mod_eq_of_lt hlt]
        rfl
      · have hw : 0 < w := by
          rcases Nat.eq_zero_or_pos w with rfl | hw
          · omega
          · exact hw
        have hdiv : n / 16 < 16 ^ w := Nat.div_lt_of_lt_mul (by rwa [← pow_succ'])
        rw [Nat.toDigits_of_base_le (by decide) (Nat.le_of_not_lt hlt), ← ih _ hw hdiv]
        unfold List.leftpad
        rw [List.length_append, List.length_singleton, Nat.add_sub_add_right, List.append_assoc]

/-- The characters of a spelling. -/
theorem toList_render (h : Hlc) : h.render.toList = "hlc-".toList
    ++ (numeral 16 Nat.digitChar 16 h.physical_ms.toNat
      ++ '-' :: numeral 16 Nat.digitChar 8 h.logical.toNat) := by
  have hphysical := leftpad_toDigits 16 h.physical_ms.toNat (by decide) h.physical_ms.toNat_lt
  have hlogical := leftpad_toDigits 8 h.logical.toNat (by decide) h.logical.toNat_lt
  unfold Hlc.render padHex
  rw [hphysical, hlogical]
  simp only [String.toList_append, String.toList_ofList, List.append_assoc]
  rfl

/-- The octets of a spelling. -/
theorem octets_render (h : Hlc) : octets h.render = octets "hlc-"
    ++ (numeral 16 hexOctet 16 h.physical_ms.toNat
      ++ 45 :: numeral 16 hexOctet 8 h.logical.toNat) := by
  have hnumeral : ∀ w n, (numeral 16 Nat.digitChar w n).flatMap String.utf8EncodeChar
      = numeral 16 hexOctet w n := by
    intro w n
    induction w with
    | zero => rfl
    | succ w ih =>
        rw [numeral, List.flatMap_cons, utf8_digitChar _ (Nat.mod_lt _ (by decide)), ih]
        rfl
  have hrender : h.render = String.ofList h.render.toList := (String.ofList_toList).symm
  rw [hrender, CbclCodec.octets_ofList, toList_render, List.flatMap_append, List.flatMap_append,
    List.flatMap_cons, hnumeral, hnumeral, ← CbclCodec.octets_ofList, String.ofList_toList]
  rfl

/-- A text with the marks in place, as its parts. -/
theorem wire_parts {α : Type} {text lead : List α} {dash : α} (hlead : text.take 4 = lead)
    (hdash : text[20]? = some dash) :
    text = lead ++ ((text.drop 4).take 16 ++ dash :: text.drop 21) := by
  have hat : text.drop 20 = dash :: text.drop 21 := by
    obtain ⟨hlt, hget⟩ := List.getElem?_eq_some_iff.mp hdash
    rw [List.drop_eq_getElem_cons hlt, hget]
  rw [← hat, ← hlead]
  conv_lhs => rw [← List.take_append_drop 4 text, ← List.take_append_drop 16 (text.drop 4),
    List.drop_drop]

/-- **A text is a clock exactly if it is the spelling of the clock.** -/
theorem parse_eq_some_iff (text : String) (h : Hlc) :
    Hlc.parse text = some h ↔ text = h.render := by
  have hspell : octets text = octets h.render ↔ text = h.render :=
    ⟨octets_injective, congrArg octets⟩
  rw [← hspell, octets_render]
  unfold Hlc.parse
  dsimp only
  generalize octets text = bytes
  constructor
  · intro hparse
    split at hparse
    · exact nomatch hparse
    · rename_i hmarks
      rw [not_or, not_or, not_not, not_not, not_not] at hmarks
      obtain ⟨hlen, hlead, hdash⟩ := hmarks
      split at hparse
      · exact nomatch hparse
      · rename_i hhex
        rw [not_or, not_not, not_not] at hhex
        obtain ⟨hp, hl⟩ := hhex
        obtain ⟨p, hphysical, hparse⟩ := Option.bind_eq_some_iff.mp hparse
        obtain ⟨l, hlogical, hparse⟩ := Option.bind_eq_some_iff.mp hparse
        obtain rfl := Option.some.inj hparse
        have hlenp : ((bytes.drop 4).take 16).length = 16 := by
          rw [List.length_take, List.length_drop, hlen]
          decide
        have hlenl : ((bytes.drop 21).take 8).length = 8 := by
          rw [List.length_take, List.length_drop, hlen]
          decide
        obtain ⟨hpl, hpn⟩ := (fromStrRadix_iff (by decide) (by decide) hlenp
          (List.all_eq_true.mp hp)).mp hphysical
        obtain ⟨hll, hln⟩ := (fromStrRadix_iff (by decide) (by decide) hlenl
          (List.all_eq_true.mp hl)).mp hlogical
        have htail : (bytes.drop 21).take 8 = bytes.drop 21 := List.take_of_length_le (by
          rw [List.length_drop, hlen]
          decide)
        rw [UInt64.toNat_ofNat_of_lt' hpl, UInt32.toNat_ofNat_of_lt' hll, ← hpn, ← hln, htail]
        exact wire_parts hlead hdash
  · rintro rfl
    have hlenp := length_numeral 16 hexOctet 16 h.physical_ms.toNat
    have hlenl := length_numeral 16 hexOctet 8 h.logical.toNat
    have hhexp := lowerHex_numeral 16 h.physical_ms.toNat
    have hhexl := lowerHex_numeral 8 h.logical.toNat
    generalize hP : numeral 16 hexOctet 16 h.physical_ms.toNat = P at *
    generalize hL : numeral 16 hexOctet 8 h.logical.toNat = L at *
    have hlead : (octets "hlc-").length = 4 := by decide
    have hlength : (octets "hlc-" ++ (P ++ 45 :: L)).length = WIRE_LEN := by
      rw [List.length_append, List.length_append, List.length_cons, hlead, hlenp, hlenl]
      rfl
    have htake : (octets "hlc-" ++ (P ++ 45 :: L)).take 4 = octets "hlc-" :=
      List.take_left' hlead
    have hdrop : (octets "hlc-" ++ (P ++ 45 :: L)).drop 4 = P ++ 45 :: L := List.drop_left' hlead
    have hdrop' : (octets "hlc-" ++ (P ++ 45 :: L)).drop 21 = L := by
      rw [show (21 : Nat) = 4 + 17 from rfl, ← List.drop_drop, hdrop,
        show (17 : Nat) = 16 + 1 from rfl, ← List.drop_drop, List.drop_left' hlenp]
      rfl
    have hdash : (octets "hlc-" ++ (P ++ 45 :: L))[20]? = some 45 := by
      rw [List.getElem?_append_right (by rw [hlead]; decide), hlead,
        List.getElem?_append_right (by rw [hlenp]), hlenp]
      rfl
    have htakeP : (P ++ 45 :: L).take 16 = P := List.take_left' hlenp
    have htakeL : L.take 8 = L := List.take_of_length_le hlenl.le
    rw [if_neg (by rw [not_or, not_or, not_not, not_not, not_not]; exact ⟨hlength, htake, hdash⟩),
      hdrop, hdrop', htakeP, htakeL, if_neg (by
        rw [not_or, not_not, not_not]
        exact ⟨List.all_eq_true.mpr hhexp, List.all_eq_true.mpr hhexl⟩)]
    have hphysical : fromStrRadix 64 P = some h.physical_ms.toNat :=
      (fromStrRadix_iff (by decide) (by decide) hlenp hhexp).mpr ⟨h.physical_ms.toNat_lt, hP.symm⟩
    have hlogical : fromStrRadix 32 L = some h.logical.toNat :=
      (fromStrRadix_iff (by decide) (by decide) hlenl hhexl).mpr ⟨h.logical.toNat_lt, hL.symm⟩
    rw [hphysical, hlogical]
    show some (⟨.ofNat h.physical_ms.toNat, .ofNat h.logical.toNat⟩ : Hlc) = some h
    rw [UInt64.ofNat_toNat, UInt32.ofNat_toNat]

/-- **Spellings are ordered as their clocks.** -/
theorem octets_render_lt_iff (g h : Hlc) : octets g.render < octets h.render ↔ g < h := by
  have hphysical := numeral_lt_iff hexOctet_lt_iff (Nat.succ_pos 15) 16 g.physical_ms.toNat
    h.physical_ms.toNat g.physical_ms.toNat_lt h.physical_ms.toNat_lt
  have hlogical := numeral_lt_iff hexOctet_lt_iff (Nat.succ_pos 15) 8 g.logical.toNat h.logical.toNat
    g.logical.toNat_lt h.logical.toNat_lt
  have hsame : numeral 16 hexOctet 16 g.physical_ms.toNat = numeral 16 hexOctet 16
      h.physical_ms.toNat ↔ g.physical_ms.toNat = h.physical_ms.toNat := by
    refine ⟨fun heq => ?_, fun heq => by rw [heq]⟩
    have hg : g.physical_ms.toNat < 16 ^ 16 := g.physical_ms.toNat_lt
    have hh : h.physical_ms.toNat < 16 ^ 16 := h.physical_ms.toNat_lt
    have hnumber := congrArg (number 16 hexValue) heq
    rw [number_numeral hexValue_hexOctet (by decide), number_numeral hexValue_hexOctet (by decide),
      Nat.mod_eq_of_lt hg, Nat.mod_eq_of_lt hh] at hnumber
    exact hnumber
  have hkey : g < h ↔ g.key < h.key := Iff.rfl
  rw [octets_render, octets_render, append_lt_append_left_iff, append_lt_append_iff _ _ (by
    rw [length_numeral, length_numeral]), hphysical, hsame, List.cons_lt_cons_iff, hlogical, hkey,
    Prod.Lex.lt_iff]
  show _ ↔ g.physical_ms.toNat < h.physical_ms.toNat
    ∨ g.physical_ms.toNat = h.physical_ms.toNat ∧ g.logical.toNat < h.logical.toNat
  simp

-- ── Advancing ────

theorem lt_iff (g h : Hlc) : g < h ↔ g.physical_ms.toNat < h.physical_ms.toNat
    ∨ g.physical_ms.toNat = h.physical_ms.toNat ∧ g.logical.toNat < h.logical.toNat := by
  have hkey : g < h ↔ g.key < h.key := Iff.rfl
  rw [hkey, Prod.Lex.lt_iff]
  rfl

theorem toNat_max (a b : UInt64) : (max a b).toNat = max a.toNat b.toNat := by
  show (if a ≤ b then b else a).toNat = _
  split
  · rename_i hle
    exact (Nat.max_eq_right (UInt64.le_iff_toNat_le.mp hle)).symm
  · rename_i hle
    rw [UInt64.le_iff_toNat_le] at hle
    exact (Nat.max_eq_left (by omega)).symm

theorem toNat_max' (a b : UInt32) : (max a b).toNat = max a.toNat b.toNat := by
  show (if a ≤ b then b else a).toNat = _
  split
  · rename_i hle
    exact (Nat.max_eq_right (UInt32.le_iff_toNat_le.mp hle)).symm
  · rename_i hle
    rw [UInt32.le_iff_toNat_le] at hle
    exact (Nat.max_eq_left (by omega)).symm

theorem next_eq_some_iff {l m : UInt32} :
    next l = some m ↔ l.toNat ≠ 2 ^ 32 - 1 ∧ m.toNat = l.toNat + 1 := by
  have hlt := l.toNat_lt
  unfold next
  split
  · rename_i hmax
    exact ⟨(nomatch ·), fun h => absurd hmax h.1⟩
  · rename_i hmax
    have hsucc : (l + 1).toNat = l.toNat + 1 := by
      rw [UInt32.toNat_add]
      exact Nat.mod_eq_of_lt (by simp; omega)
    rw [Option.some.injEq]
    constructor
    · rintro rfl
      exact ⟨hmax, hsucc⟩
    · rintro ⟨-, hm⟩
      exact UInt32.toNat_inj.mp (hsucc.trans hm.symm)

theorem next_eq_none_iff {l : UInt32} : next l = none ↔ l.toNat = 2 ^ 32 - 1 := by
  unfold next
  split
  · rename_i hmax
    exact ⟨fun _ => hmax, fun _ => rfl⟩
  · rename_i hmax
    exact ⟨fun h => (nomatch h), fun h => absurd h hmax⟩

/-- The clocks an advance has to exceed. -/
def Seen (self : Hlc) (remote : Option Hlc) (c : Hlc) : Prop := c = self ∨ remote = some c

/-- The chosen time is the latest of all times. -/
theorem chosen_toNat (self : Hlc) (now_ms : UInt64) (remote : Option Hlc) :
    (self.chosen now_ms remote).toNat = max (max self.physical_ms.toNat now_ms.toNat)
      ((remote.map (·.physical_ms.toNat)).getD 0) := by
  unfold Hlc.chosen
  rw [toNat_max, toNat_max]
  cases remote with
  | none => rfl
  | some r => rfl

/-- The counter of an advanced clock: one more than the greatest counter seen at the chosen time,
    zero if none was. -/
theorem advance_cases (self : Hlc) (now_ms : UInt64) (remote : Option Hlc) :
    (∃ l : UInt32, self.advance now_ms remote
        = (next l).map (⟨self.chosen now_ms remote, ·⟩) ∧
      (∃ c, Seen self remote c ∧ c.physical_ms = self.chosen now_ms remote ∧ c.logical = l) ∧
      ∀ c, Seen self remote c → c.physical_ms = self.chosen now_ms remote →
        c.logical.toNat ≤ l.toNat) ∨
    (self.advance now_ms remote = some ⟨self.chosen now_ms remote, 0⟩ ∧
      ∀ c, Seen self remote c → c.physical_ms ≠ self.chosen now_ms remote) := by
  unfold Hlc.advance
  dsimp only
  generalize self.chosen now_ms remote = physical
  cases remote with
  | none =>
      have hseen : ∀ c, Seen self none c → c = self := fun c h => h.elim id fun h => nomatch h
      dsimp only
      by_cases hself : physical = self.physical_ms
      · rw [if_pos hself]
        refine Or.inl ⟨self.logical, rfl, ⟨self, Or.inl rfl, hself.symm, rfl⟩, fun c hc _ => ?_⟩
        rw [hseen c hc]
      · rw [if_neg hself]
        refine Or.inr ⟨rfl, fun c hc heq => hself ?_⟩
        rw [← hseen c hc, heq]
  | some r =>
      have hseen : ∀ c, Seen self (some r) c → c = self ∨ c = r :=
        fun c h => h.imp_right fun h => (Option.some.inj h).symm
      dsimp only
      by_cases hself : physical = self.physical_ms
      · by_cases hr : physical = r.physical_ms
        · rw [if_pos ⟨hself, hr⟩]
          refine Or.inl ⟨max self.logical r.logical, rfl, ?_, fun c hc _ => ?_⟩
          · show ∃ c : Hlc, _ ∧ _ ∧
              c.logical = if self.logical ≤ r.logical then r.logical else self.logical
            split
            · exact ⟨r, Or.inr rfl, hr.symm, rfl⟩
            · exact ⟨self, Or.inl rfl, hself.symm, rfl⟩
          · rw [toNat_max']
            rcases hseen c hc with rfl | rfl
            · exact Nat.le_max_left _ _
            · exact Nat.le_max_right _ _
        · rw [if_neg fun h => hr h.2, if_pos hself]
          refine Or.inl ⟨self.logical, rfl, ⟨self, Or.inl rfl, hself.symm, rfl⟩, fun c hc hp => ?_⟩
          rcases hseen c hc with rfl | rfl
          · exact le_rfl
          · exact absurd hp.symm hr
      · rw [if_neg fun h => hself h.1, if_neg hself]
        by_cases hr : physical = r.physical_ms
        · rw [if_pos hr]
          refine Or.inl ⟨r.logical, rfl, ⟨r, Or.inr rfl, hr.symm, rfl⟩, fun c hc hp => ?_⟩
          rcases hseen c hc with rfl | rfl
          · exact absurd hp.symm hself
          · exact le_rfl
        · rw [if_neg hr]
          refine Or.inr ⟨rfl, fun c hc heq => ?_⟩
          rcases hseen c hc with rfl | rfl
          · exact hself heq.symm
          · exact hr heq.symm

/-- **An advanced clock is past all it has seen and not before its time.** -/
theorem advance_some {self clock : Hlc} {now_ms : UInt64} {remote : Option Hlc}
    (h : self.advance now_ms remote = some clock) :
    (∀ c, Seen self remote c → c < clock) ∧ now_ms ≤ clock.physical_ms := by
  have hchosen := chosen_toNat self now_ms remote
  have hlate : ∀ c, Seen self remote c →
      c.physical_ms.toNat ≤ (self.chosen now_ms remote).toNat := by
    intro c hc
    rw [hchosen]
    rcases hc with rfl | rfl
    · exact (Nat.le_max_left _ _).trans (Nat.le_max_left _ _)
    · exact Nat.le_max_right _ _
  have hphysical : clock.physical_ms = self.chosen now_ms remote := by
    rcases advance_cases self now_ms remote with ⟨l, hadvance, -⟩ | ⟨hadvance, -⟩
    · rw [h] at hadvance
      obtain ⟨m, -, hm⟩ := Option.map_eq_some_iff.mp hadvance.symm
      rw [← hm]
    · rw [h] at hadvance
      rw [Option.some.inj hadvance]
  refine ⟨fun c hc => ?_, ?_⟩
  · rw [lt_iff, hphysical]
    rcases Nat.lt_or_eq_of_le (hlate c hc) with hlt | heq
    · exact Or.inl hlt
    · refine Or.inr ⟨heq, ?_⟩
      have htime := UInt64.toNat_inj.mp heq
      rcases advance_cases self now_ms remote with ⟨l, hadvance, -, hmax⟩ | ⟨-, hnone⟩
      · rw [h] at hadvance
        obtain ⟨m, hnext, rfl⟩ := Option.map_eq_some_iff.mp hadvance.symm
        have hsucc := (next_eq_some_iff.mp hnext).2
        have hle := hmax c hc htime
        show c.logical.toNat < m.toNat
        omega
      · exact absurd htime (hnone c hc)
  · rw [UInt64.le_iff_toNat_le, hphysical, hchosen]
    exact (Nat.le_max_right _ _).trans (Nat.le_max_left _ _)

/-- **An advance is refused only if a counter seen at the chosen time is exhausted.** -/
theorem advance_eq_none_iff (self : Hlc) (now_ms : UInt64) (remote : Option Hlc) :
    self.advance now_ms remote = none ↔ ∃ c, Seen self remote c ∧
      c.physical_ms = self.chosen now_ms remote ∧ c.logical.toNat = 2 ^ 32 - 1 := by
  rcases advance_cases self now_ms remote with
    ⟨l, hadvance, ⟨c, hc, htime, rfl⟩, hmax⟩ | ⟨hadvance, hnone⟩
  · rw [hadvance, Option.map_eq_none_iff, next_eq_none_iff]
    constructor
    · exact fun hfull => ⟨c, hc, htime, hfull⟩
    · rintro ⟨d, hd, hdtime, hfull⟩
      have hle := hmax d hd hdtime
      have hlt := c.logical.toNat_lt
      omega
  · rw [hadvance]
    refine ⟨(nomatch ·), ?_⟩
    rintro ⟨c, hc, htime, -⟩
    exact absurd htime (hnone c hc)

/-- A chain of advances passes one clock for each event, each past the one before and past what
    was merged into it. -/
theorem advances_some {self : Hlc} {events : List (UInt64 × Option Hlc)} {clocks : List Hlc}
    (h : self.advances events = some clocks) :
    (self :: clocks).Pairwise (· < ·) ∧ List.Forall₂ (fun event clock =>
      event.1 ≤ clock.physical_ms ∧ ∀ r ∈ event.2, r < clock) events clocks := by
  induction events generalizing self clocks with
  | nil =>
      obtain rfl := Option.some.inj h
      exact ⟨List.pairwise_singleton _ _, List.Forall₂.nil⟩
  | cons event events ih =>
      obtain ⟨now_ms, remote⟩ := event
      rw [Hlc.advances] at h
      cases hadvance : self.advance now_ms remote with
      | none => rw [hadvance] at h; exact nomatch h
      | some clock =>
          rw [hadvance] at h
          obtain ⟨rest, hrest, rfl⟩ := Option.map_eq_some_iff.mp h
          obtain ⟨hsorted, hmerged⟩ := ih hrest
          obtain ⟨hpast, hnow⟩ := advance_some hadvance
          have hself := hpast self (Or.inl rfl)
          refine ⟨List.pairwise_cons.mpr ⟨fun c hc => ?_, hsorted⟩,
            List.Forall₂.cons ⟨hnow, fun r hr => hpast r (Or.inr hr)⟩ hmerged⟩
          rcases List.mem_cons.mp hc with rfl | hc
          · exact hself
          · exact hself.trans (List.rel_of_pairwise_cons hsorted hc)

/-- **Hybrid logical clocks are ordered evidence.** -/
theorem hlc_ordered_evidence :
    (∀ (text : String) (h : Hlc), Hlc.parse text = some h ↔ text = h.render) ∧
      (∀ g h : Hlc, octets g.render < octets h.render ↔ g < h) ∧
      (∀ (self : Hlc) (events : List (UInt64 × Option Hlc)) (clocks : List Hlc),
        self.advances events = some clocks → (self :: clocks).Pairwise (· < ·) ∧
          List.Forall₂ (fun event clock =>
            event.1 ≤ clock.physical_ms ∧ ∀ r ∈ event.2, r < clock) events clocks) ∧
      ∀ (self : Hlc) (now_ms : UInt64) (remote : Option Hlc),
        self.advance now_ms remote = none ↔ ∃ c, Seen self remote c ∧
          c.physical_ms = self.chosen now_ms remote ∧ c.logical.toNat = 2 ^ 32 - 1 :=
  ⟨parse_eq_some_iff, octets_render_lt_iff, fun _ _ _ h => advances_some h, advance_eq_none_iff⟩

end CbclHlc
