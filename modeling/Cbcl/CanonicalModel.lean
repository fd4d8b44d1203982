import Cbcl.MessageModel

/-!
# Canonical octets

`canonical.rs` writes an S-expression as octets: an atom is `<length>:<tag><octets>` with a
one-letter type tag, a list is its items between parentheses.  The encoder streams to a sink;
the model returns what the sink has received.
-/

namespace CbclCanonical

open CbclMessage

/-- A string of octets. -/
abbrev Octets := List UInt8

/-- The UTF-8 octets of a string. -/
def octets (s : String) : Octets := s.toByteArray.data.toList

/-- The octet of an ASCII character. -/
def ascii (c : Char) : UInt8 := c.toNat.toUInt8

/-- The octet of a decimal digit. -/
def digit (n : Nat) : UInt8 := (48 + n).toUInt8

/-- The digit loop: least significant digit last. -/
def decimalLoop : Nat → Nat → Octets
  | 0, _ => []
  | fuel + 1, n =>
      if n / 10 = 0 then [digit (n % 10)] else decimalLoop fuel (n / 10) ++ [digit (n % 10)]

/-- The decimal digits of a number; zero has one digit. -/
def decimal (n : Nat) : Octets := decimalLoop (n + 1) n

/-- A length, a colon, a tag and the octets; the length counts the tag. -/
def encodeTagged (tag : Char) (os : Octets) : Octets :=
  decimal (os.length + 1) ++ [ascii ':', ascii tag] ++ os

/-- Encode a symbol. -/
def encodeSymbol (s : String) : Octets := encodeTagged 'S' (octets s)

/-- The digits of a signed number. -/
def signedDecimal (n : Int) : Octets :=
  if n < 0 then ascii '-' :: decimal n.natAbs else decimal n.natAbs

/-- Encode an atom. -/
def encodeAtom : Atom → Octets
  | .symbol s => encodeSymbol s
  | .keyword s => encodeTagged 'K' (octets s)
  | .str s => encodeTagged 'Q' (octets s)
  | .bool b => encodeTagged 'B' [ascii (if b then 't' else 'f')]
  | .num n => encodeTagged 'N' (signedDecimal n.toInt)

mutual
/-- Encode an S-expression. -/
def encode : SExpr → Octets
  | .atom a => encodeAtom a
  | .list items => ascii '(' :: encodeItems items ++ [ascii ')']
/-- Encode the items of a list, one after the other. -/
def encodeItems : List SExpr → Octets
  | [] => []
  | x :: xs => encode x ++ encodeItems xs
end

/-- The octets an atom stands for: a type tag, then its text. -/
def atomToOctets : Atom → Octets
  | .symbol s => ascii 'S' :: octets s
  | .keyword k => ascii 'K' :: octets k
  | .str s => ascii 'Q' :: octets s
  | .num n => ascii 'N' :: octets (toString n.toInt)
  | .bool b => if b then octets "Bt" else octets "Bf"

mutual
/-- The encoder before streaming, kept as an oracle: the octets of an atom after their number. -/
def referenceEncode : SExpr → Octets
  | .atom a => octets (toString (atomToOctets a).length ++ ":") ++ atomToOctets a
  | .list items => ascii '(' :: referenceEncodeItems items ++ [ascii ')']
/-- The reference form of the items of a list. -/
def referenceEncodeItems : List SExpr → Octets
  | [] => []
  | x :: xs => referenceEncode x ++ referenceEncodeItems xs
end

end CbclCanonical
