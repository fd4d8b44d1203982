import Cbcl.CanonicalProofs
import Cbcl.ExceptProofs
import Cbcl.TypedAddrModel

/-!
# The records of the checkpoint crate

`codec.rs` writes closed records: four-octet big-endian counts, counted octet strings, typed
canonical S-expressions.  `decode_sexpr` reads an S-expression back within limits on length,
depth and item count, and re-encodes what it has read; a value it accepts is therefore the
value that was written.

SHA-256 is the parameter `sha256`, as for content addresses.
-/

namespace CbclCodec

open CbclMessage CbclCanonical CbclTypedAddr

/-- What the crate's operations fail with. -/
inductive Error where
  | invalid (reason : String)
  | missing (ids : List String)
  | unsupported
  | budget
  | concurrent
  | io (reason : String)
  | disabled
  | cancelled
deriving DecidableEq

/-- The big-endian octets of a number, in a given width. -/
def bigEndian : Nat → Nat → Octets
  | 0, _ => []
  | width + 1, n => bigEndian width (n / 256) ++ [(n % 256).toUInt8]

/-- A count. -/
def putU32 (n : Nat) : Octets := bigEndian 4 (n % 2 ^ 32)

/-- Counted octets. -/
def putBytes (os : Octets) : Octets := putU32 os.length ++ os

/-- A counted string. -/
def putString (s : String) : Octets := putBytes (octets s)

/-- A hash under a domain: both parts are counted. -/
def hash (sha256 : Octets → Digest) (domain : String) (payload : Octets) : Digest :=
  sha256 (putBytes (octets domain) ++ putBytes payload)

/-- The characters some octets spell; malformed octets spell something else. -/
def decodeChars : Octets → List Char
  | [] => []
  | a :: b :: c :: d :: rest =>
      if a < 0x80 then Char.ofNat a.toNat :: decodeChars (b :: c :: d :: rest)
      else if a < 0xe0 then
        Char.ofNat ((a.toNat % 32) * 64 + b.toNat % 64) :: decodeChars (c :: d :: rest)
      else if a < 0xf0 then
        Char.ofNat (((a.toNat % 16) * 64 + b.toNat % 64) * 64 + c.toNat % 64)
          :: decodeChars (d :: rest)
      else
        Char.ofNat ((((a.toNat % 8) * 64 + b.toNat % 64) * 64 + c.toNat % 64) * 64
          + d.toNat % 64) :: decodeChars rest
  | a :: b :: c :: [] =>
      if a < 0x80 then Char.ofNat a.toNat :: decodeChars [b, c]
      else if a < 0xe0 then Char.ofNat ((a.toNat % 32) * 64 + b.toNat % 64) :: decodeChars [c]
      else [Char.ofNat (((a.toNat % 16) * 64 + b.toNat % 64) * 64 + c.toNat % 64)]
  | a :: b :: [] =>
      if a < 0x80 then Char.ofNat a.toNat :: decodeChars [b]
      else [Char.ofNat ((a.toNat % 32) * 64 + b.toNat % 64)]
  | a :: [] => [Char.ofNat a.toNat]

/-- The string of some UTF-8 octets: the one whose octets they are. -/
def fromUtf8 (os : Octets) : Option String :=
  let s := String.ofList (decodeChars os)
  if octets s = os then some s else none

/-- The number some decimal digits spell. -/
def digitsValue (cs : List Char) : Nat := cs.foldl (fun n c => 10 * n + (c.toNat - 48)) 0

/-- Read a signed 64-bit number. -/
def parseI64 (s : String) : Option Int64 :=
  let (negative, digits) := match s.toList with
    | '-' :: ds => (true, ds)
    | '+' :: ds => (false, ds)
    | ds => (false, ds)
  if digits = [] ∨ ¬ digits.all Char.isDigit then none
  else
    let n : Int := if negative then -(digitsValue digits : Int) else digitsValue digits
    if -2 ^ 63 ≤ n ∧ n < 2 ^ 63 then some (Int64.ofInt n) else none

/-- The atom of a tag and its octets. -/
def readAtom : Octets → Except Error Atom
  | [] => .error (.invalid "empty typed atom")
  | tag :: text =>
      match fromUtf8 text with
      | none => .error (.invalid "utf8 atom")
      | some s =>
          if tag = ascii 'S' then .ok (.symbol s)
          else if tag = ascii 'K' then .ok (.keyword s)
          else if tag = ascii 'Q' then .ok (.str s)
          else if tag = ascii 'N' then
            match parseI64 s with
            | some n => .ok (.num n)
            | none => .error (.invalid "number atom")
          else if tag = ascii 'B' then
            if s = "t" then .ok (.bool true)
            else if s = "f" then .ok (.bool false)
            else .error (.invalid "bool atom")
          else .error (.invalid "atom tag")

/-- Whether an octet is a decimal digit. -/
def isDigitOctet (b : UInt8) : Bool := 48 ≤ b && b ≤ 57

/-- Read one atom: a length without a leading zero, a colon, that many octets.  Places are counted
    from the front of the record, which has `total` octets. -/
def readTagged (total : Nat) (os : Octets) : Except Error (Atom × Octets) := do
  let digits := os.takeWhile isDigitOctet
  let n := digits.foldl (fun n b => 10 * n + (b.toNat - 48)) 0
  if n ≥ 2 ^ 64 then throw .budget
  match os.drop digits.length with
  | colon :: rest =>
      if digits = [] ∨ (digits.length > 1 ∧ digits.head? = some 48) ∨ colon ≠ ascii ':' then
        throw (.invalid "atom length")
      if total - rest.length + n ≥ 2 ^ 64 then throw .budget
      if rest.length < n then throw (.invalid "atom truncation")
      return (← readAtom (rest.take n), rest.drop n)
  | [] => throw (.invalid "atom length")

mutual
/-- Read one S-expression.  `gas` bounds the recursion, `fuel` is the source's item count. -/
def readSexpr (total : Nat) : Nat → Nat → Nat → Octets → Except Error (SExpr × Octets × Nat)
  | 0, _, _, _ => .error .budget
  | gas + 1, depth, fuel, os =>
      if depth > 64 ∨ fuel = 0 then .error .budget
      else if os.head? = some (ascii '(') then
        (readItems total gas (depth + 1) (fuel - 1) (os.drop 1)).map fun (xs, os, fuel) =>
          (.list xs, os, fuel)
      else (readTagged total os).map fun (a, os) => (.atom a, os, fuel - 1)
/-- Read the items of a list up to its closing parenthesis. -/
def readItems (total : Nat) : Nat → Nat → Nat → Octets → Except Error (List SExpr × Octets × Nat)
  | 0, _, _, _ => .error .budget
  | gas + 1, depth, fuel, os =>
      if os.head? = some (ascii ')') then .ok ([], os.drop 1, fuel)
      else if os = [] then .error (.invalid "unterminated list")
      else (readSexpr total gas depth fuel os).bind fun (x, os, fuel) =>
        (readItems total gas depth fuel os).map fun (xs, os, fuel) => (x :: xs, os, fuel)
end

/-- Read a whole record as one S-expression; anything but its canonical octets is refused. -/
def decodeSexpr (os : Octets) (max : Nat) : Except Error SExpr := do
  if os.length > max then throw .budget
  let fuel := min max 1000000
  let (x, rest, _) ← readSexpr os.length (2 * fuel + 2) 0 fuel os
  if rest ≠ [] ∨ encode x ≠ os then throw (.invalid "noncanonical typed value")
  return x

/-- A decoded value is the one that was encoded. -/
theorem decodeSexpr_ok {os : Octets} {max : Nat} {x : SExpr}
    (h : decodeSexpr os max = .ok x) : encode x = os := by
  unfold decodeSexpr at h
  split at h
  · exact nomatch h
  · obtain ⟨⟨y, rest, fuel⟩, -, h⟩ := (CbclExcept.bind_ok_iff).mp h
    simp only at h
    split at h
    · exact nomatch h
    next hguard =>
      obtain ⟨-, henc⟩ := not_or.mp hguard
      injection h with h
      rw [← h]
      exact not_not.mp henc

/-- **Writing and reading back**: what decodes from an encoding is the encoded value. -/
theorem decodeSexpr_encode {x y : SExpr} {max : Nat} (h : decodeSexpr (encode x) max = .ok y) :
    y = x := by
  have henc : encode y ++ [] = encode x ++ [] := by
    rw [List.append_nil, List.append_nil]
    exact decodeSexpr_ok h
  exact (CbclCanonical.encode_split y x [] [] henc).1

end CbclCodec
