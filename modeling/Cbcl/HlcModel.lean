import Cbcl.CanonicalModel
import Cbcl.FixedWidthProofs

/-!
# Hybrid logical clocks

`Hlc` (`hlc.rs`) is host-supplied clock evidence: physical milliseconds and a logical counter.  Its
one spelling is `hlc-` and two hexadecimal numbers of fixed width; `advance` moves a clock past
itself and what it has seen, and refuses to wrap.
-/

namespace CbclHlc

open CbclMessage CbclCanonical CbclFixedWidth

/-- The length of the spelling: `hlc-`, 16 digits, `-`, 8 digits. -/
def WIRE_LEN : Nat := 29

/-- A hybrid logical clock. -/
structure Hlc where
  physical_ms : UInt64
  logical : UInt32
deriving DecidableEq

/-- A clock as a pair of numbers, physical time first. -/
def Hlc.key (h : Hlc) : Nat ×ₗ Nat := toLex (h.physical_ms.toNat, h.logical.toNat)

theorem Hlc.key_injective : Function.Injective Hlc.key := by
  rintro ⟨p, l⟩ ⟨q, k⟩ h
  obtain ⟨hp, hl⟩ := Prod.mk.inj (toLex.injective h)
  rw [Hlc.mk.injEq]
  exact ⟨UInt64.toNat_inj.mp hp, UInt32.toNat_inj.mp hl⟩

/-- Clocks are ordered by physical time, then by the counter. -/
instance : LinearOrder Hlc := LinearOrder.lift' Hlc.key Hlc.key_injective

-- ── Spelling ────

/-- A lowercase hexadecimal octet. -/
def lowerHex (b : UInt8) : Bool := (48 ≤ b && b ≤ 57) || (97 ≤ b && b ≤ 102)

/-- The value of a lowercase hexadecimal octet. -/
def hexValue (b : UInt8) : Nat := if b ≤ 57 then b.toNat - 48 else b.toNat - 87

/-- `from_str_radix(text, 16)` of some lowercase digits: their number, if it has the bits. -/
def fromStrRadix (bits : Nat) (digits : Octets) : Option Nat :=
  if digits ≠ [] ∧ number 16 hexValue digits < 2 ^ bits then some (number 16 hexValue digits)
  else none

/-- Full recognition, including width, separators and lowercase canonical form. -/
def Hlc.parse (text : String) : Option Hlc :=
  let bytes := octets text
  if bytes.length ≠ WIRE_LEN ∨ bytes.take 4 ≠ octets "hlc-" ∨ bytes[20]? ≠ some 45 then none
  else if ¬ ((bytes.drop 4).take 16).all lowerHex ∨ ¬ ((bytes.drop 21).take 8).all lowerHex then
    none
  else do
    let physical ← fromStrRadix 64 ((bytes.drop 4).take 16)
    let logical ← fromStrRadix 32 ((bytes.drop 21).take 8)
    some ⟨.ofNat physical, .ofNat logical⟩

/-- A number in lowercase hexadecimal, padded with zeros. -/
def padHex (width n : Nat) : String := String.ofList (List.leftpad width '0' (Nat.toDigits 16 n))

/-- The spelling of a clock. -/
def Hlc.render (h : Hlc) : String :=
  "hlc-" ++ padHex 16 h.physical_ms.toNat ++ "-" ++ padHex 8 h.logical.toNat

-- ── Advancing ────

/-- `checked_add(1)`. -/
def next (logical : UInt32) : Option UInt32 :=
  if logical.toNat = 2 ^ 32 - 1 then none else some (logical + 1)

/-- The physical time of an advanced clock. -/
def Hlc.chosen (self : Hlc) (now_ms : UInt64) (remote : Option Hlc) : UInt64 :=
  max (max self.physical_ms now_ms) ((remote.map (·.physical_ms)).getD 0)

/-- Advance for a local event or receipt of remote evidence. -/
def Hlc.advance (self : Hlc) (now_ms : UInt64) (remote : Option Hlc) : Option Hlc :=
  let physical := self.chosen now_ms remote
  let logical := match remote with
    | some r =>
        if physical = self.physical_ms ∧ physical = r.physical_ms then
          next (max self.logical r.logical)
        else if physical = self.physical_ms then next self.logical
        else if physical = r.physical_ms then next r.logical
        else some 0
    | none => if physical = self.physical_ms then next self.logical else some 0
  logical.map fun l => ⟨physical, l⟩

/-- A chain of advances: every clock it passes, while none is refused. -/
def Hlc.advances (self : Hlc) : List (UInt64 × Option Hlc) → Option (List Hlc)
  | [] => some []
  | (now_ms, remote) :: events =>
      match self.advance now_ms remote with
      | none => none
      | some clock => (clock.advances events).map (clock :: ·)

end CbclHlc
