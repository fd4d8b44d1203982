import Cbcl.CanonicalModel

/-!
# SHA-256

The hash function the source takes from its `sha2` dependency, as FIPS 180-4 defines it.  The
results about addresses hold of any function in its place that tells apart what is hashed;
this one makes them evaluate on concrete messages.
-/

namespace CbclSha256

open CbclCanonical

/-- The round constants. -/
def roundConstants : List UInt32 :=
  [0x428a2f98, 0x71374491, 0xb5c0fbcf, 0xe9b5dba5, 0x3956c25b, 0x59f111f1, 0x923f82a4, 0xab1c5ed5,
   0xd807aa98, 0x12835b01, 0x243185be, 0x550c7dc3, 0x72be5d74, 0x80deb1fe, 0x9bdc06a7, 0xc19bf174,
   0xe49b69c1, 0xefbe4786, 0x0fc19dc6, 0x240ca1cc, 0x2de92c6f, 0x4a7484aa, 0x5cb0a9dc, 0x76f988da,
   0x983e5152, 0xa831c66d, 0xb00327c8, 0xbf597fc7, 0xc6e00bf3, 0xd5a79147, 0x06ca6351, 0x14292967,
   0x27b70a85, 0x2e1b2138, 0x4d2c6dfc, 0x53380d13, 0x650a7354, 0x766a0abb, 0x81c2c92e, 0x92722c85,
   0xa2bfe8a1, 0xa81a664b, 0xc24b8b70, 0xc76c51a3, 0xd192e819, 0xd6990624, 0xf40e3585, 0x106aa070,
   0x19a4c116, 0x1e376c08, 0x2748774c, 0x34b0bcb5, 0x391c0cb3, 0x4ed8aa4a, 0x5b9cca4f, 0x682e6ff3,
   0x748f82ee, 0x78a5636f, 0x84c87814, 0x8cc70208, 0x90befffa, 0xa4506ceb, 0xbef9a3f7, 0xc67178f2]

/-- Rotation to the right. -/
def rotate (x n : UInt32) : UInt32 := (x >>> n) ||| (x <<< (32 - n))

/-- A big-endian word. -/
def word (os : Octets) : UInt32 := os.foldl (fun acc b => acc * 256 + b.toUInt32) 0

/-- Cut a list into pieces of one length. -/
def chunks {α : Type} (size : Nat) : Nat → List α → List (List α)
  | 0, _ => []
  | _ + 1, [] => []
  | fuel + 1, x :: xs => (x :: xs).take size :: chunks size fuel ((x :: xs).drop size)

/-- The message, a one bit, zeros, and the length in bits. -/
def padded (os : Octets) : Octets :=
  os ++ [0x80] ++ List.replicate ((119 - os.length % 64) % 64) 0
    ++ (List.range 8).reverse.map fun i => (os.length * 8 / 256 ^ i % 256).toUInt8

/-- The next word of the schedule from the last sixteen, newest first. -/
def nextWord : List UInt32 → UInt32
  | [_, w2, _, _, _, _, w7, _, _, _, _, _, _, _, w15, w16] =>
      (rotate w2 17 ^^^ rotate w2 19 ^^^ (w2 >>> 10)) + w7
        + (rotate w15 7 ^^^ rotate w15 18 ^^^ (w15 >>> 3)) + w16
  | _ => 0

/-- The eight working variables. -/
structure Chaining where
  a : UInt32
  b : UInt32
  c : UInt32
  d : UInt32
  e : UInt32
  f : UInt32
  g : UInt32
  h : UInt32

/-- One round. -/
def round (s : Chaining) (k w : UInt32) : Chaining :=
  let t1 := s.h + (rotate s.e 6 ^^^ rotate s.e 11 ^^^ rotate s.e 25)
    + ((s.e &&& s.f) ^^^ ((~~~ s.e) &&& s.g)) + k + w
  let t2 := (rotate s.a 2 ^^^ rotate s.a 13 ^^^ rotate s.a 22)
    + ((s.a &&& s.b) ^^^ (s.a &&& s.c) ^^^ (s.b &&& s.c))
  ⟨t1 + t2, s.a, s.b, s.c, s.d + t1, s.e, s.f, s.g⟩

/-- The rounds over a block: its own words first, then the schedule. -/
def rounds : List UInt32 → List UInt32 → List UInt32 → Chaining → Chaining
  | [], _, _, s => s
  | k :: ks, [], window, s =>
      rounds ks [] (nextWord window :: window.take 15) (round s k (nextWord window))
  | k :: ks, w :: ws, window, s => rounds ks ws (w :: window.take 15) (round s k w)

/-- Take in one block. -/
def compress (s : Chaining) (block : Octets) : Chaining :=
  let r := rounds roundConstants ((chunks 4 16 block).map word) [] s
  ⟨s.a + r.a, s.b + r.b, s.c + r.c, s.d + r.d, s.e + r.e, s.f + r.f, s.g + r.g, s.h + r.h⟩

/-- The initial values. -/
def initial : Chaining :=
  ⟨0x6a09e667, 0xbb67ae85, 0x3c6ef372, 0xa54ff53a, 0x510e527f, 0x9b05688c, 0x1f83d9ab, 0x5be0cd19⟩

/-- The octets of a word. -/
def wordOctets (w : UInt32) : Octets :=
  [(w >>> 24).toUInt8, (w >>> 16).toUInt8, (w >>> 8).toUInt8, w.toUInt8]

/-- The octets of the working variables. -/
def Chaining.octets (s : Chaining) : Octets :=
  wordOctets s.a ++ wordOctets s.b ++ wordOctets s.c ++ wordOctets s.d ++ wordOctets s.e
    ++ wordOctets s.f ++ wordOctets s.g ++ wordOctets s.h

/-- SHA-256. -/
def sha256 (os : Octets) : Vector UInt8 32 :=
  ⟨((chunks 64 (os.length + 2) (padded os)).foldl compress initial).octets.toArray, rfl⟩

end CbclSha256
