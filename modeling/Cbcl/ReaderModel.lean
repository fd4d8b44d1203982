import Cbcl.CodecProofs

/-!
# Reading records

The `Reader` of `codec.rs` takes octets from the front of a record: big-endian counts, hashes,
counted octets and strings, each within a limit.  A reader is the octets that are left.  Every
operation is characterised by what it accepts: the octets that writing its result puts there.
-/

namespace CbclCodec

open CbclMessage CbclCanonical CbclTypedAddr

/-- A reader over a record of at most `max` octets. -/
def newReader (os : Octets) (max : Nat) : Except Error Octets :=
  if os.length > max then .error .budget else .ok os

/-- Take some octets. -/
def take (n : Nat) (os : Octets) : Except Error (Octets × Octets) :=
  if os.length < n then .error (.invalid "truncated record") else .ok (os.take n, os.drop n)

/-- The number some big-endian octets spell. -/
def fromBigEndian (os : Octets) : Nat := os.foldl (fun n b => 256 * n + b.toNat) 0

/-- A number of four octets. -/
def readU32 (os : Octets) : Except Error (Nat × Octets) := do
  let (b, os) ← take 4 os
  return (fromBigEndian b, os)

/-- The digest of 32 octets. -/
def digestOf (os : Octets) : Digest := Vector.ofFn fun i : Fin 32 => (os[i.val]?).getD 0

/-- A hash. -/
def readHash (os : Octets) : Except Error (Digest × Octets) := do
  let (b, os) ← take 32 os
  return (digestOf b, os)

/-- A count within a limit. -/
def readCount (max : Nat) (os : Octets) : Except Error (Nat × Octets) := do
  let (n, os) ← readU32 os
  if n > max then .error .budget else .ok (n, os)

/-- Counted octets. -/
def readBytes (max : Nat) (os : Octets) : Except Error (Octets × Octets) := do
  let (n, os) ← readCount max os
  take n os

/-- A counted string. -/
def readString (max : Nat) (os : Octets) : Except Error (String × Octets) := do
  let (b, os) ← readBytes max os
  match fromUtf8 b with
  | none => .error (.invalid "utf8")
  | some s => .ok (s, os)

/-- The end of a record. -/
def finish (os : Octets) : Except Error Unit :=
  if os = [] then .ok () else .error (.invalid "trailing record bytes")

-- ── What is accepted ────

theorem newReader_ok_iff {os r : Octets} {max : Nat} :
    newReader os max = .ok r ↔ os.length ≤ max ∧ r = os := by
  unfold newReader
  split
  · rename_i h
    exact iff_of_false (fun h' => nomatch h') fun h' => Nat.not_lt.mpr h'.1 h
  · rename_i h
    rw [Except.ok.injEq, eq_comm, and_iff_right (Nat.not_lt.mp h)]

theorem take_ok_iff {n : Nat} {os b r : Octets} :
    take n os = .ok (b, r) ↔ os = b ++ r ∧ b.length = n := by
  unfold take
  split
  · rename_i h
    refine iff_of_false (fun h' => nomatch h') ?_
    rintro ⟨rfl, rfl⟩
    rw [List.length_append] at h
    omega
  · rename_i h
    rw [Except.ok.injEq, Prod.mk.injEq]
    constructor
    · rintro ⟨rfl, rfl⟩
      exact ⟨(List.take_append_drop n os).symm, by rw [List.length_take]; omega⟩
    · rintro ⟨rfl, rfl⟩
      exact ⟨List.take_left, List.drop_left⟩

@[simp] theorem length_bigEndian (width n : Nat) : (bigEndian width n).length = width := by
  induction width generalizing n with
  | zero => rfl
  | succ width ih => rw [bigEndian, List.length_append, ih, List.length_singleton]

theorem fromBigEndian_append (os : Octets) (b : UInt8) :
    fromBigEndian (os ++ [b]) = 256 * fromBigEndian os + b.toNat := by
  unfold fromBigEndian
  rw [List.foldl_append]
  rfl

/-- Reading a written number. -/
theorem fromBigEndian_bigEndian (width n : Nat) :
    fromBigEndian (bigEndian width n) = n % 256 ^ width := by
  induction width generalizing n with
  | zero => simp [bigEndian, fromBigEndian, Nat.mod_one]
  | succ width ih =>
      have hoctet : ((n % 256).toUInt8).toNat = n % 256 := by
        show (UInt8.ofNat (n % 256)).toNat = _
        rw [UInt8.toNat_ofNat']
        omega
      rw [bigEndian, fromBigEndian_append, ih, hoctet, Nat.pow_succ', Nat.mod_mul]
      omega

/-- Writing a read number. -/
theorem bigEndian_fromBigEndian (os : Octets) :
    bigEndian os.length (fromBigEndian os) = os := by
  induction os using List.reverseRecOn with
  | nil => rfl
  | append_singleton os b ih =>
      have hb : b.toNat < 256 := b.toNat_lt
      rw [List.length_append, List.length_singleton, bigEndian, fromBigEndian_append,
        show (256 * fromBigEndian os + b.toNat) / 256 = fromBigEndian os from by omega,
        show (256 * fromBigEndian os + b.toNat) % 256 = b.toNat from by omega, ih]
      congr 1
      exact congrArg (fun x => [x]) (UInt8.ofNat_toNat)

theorem fromBigEndian_lt (os : Octets) : fromBigEndian os < 256 ^ os.length := by
  rw [← bigEndian_fromBigEndian os, fromBigEndian_bigEndian, length_bigEndian]
  exact Nat.mod_lt _ (Nat.pow_pos (by decide))

theorem putU32_of_lt {n : Nat} (h : n < 2 ^ 32) : putU32 n = bigEndian 4 n := by
  unfold putU32
  rw [Nat.mod_eq_of_lt h]

@[simp] theorem length_putU32 (n : Nat) : (putU32 n).length = 4 := length_bigEndian _ _

theorem readU32_ok_iff {os r : Octets} {n : Nat} :
    readU32 os = .ok (n, r) ↔ n < 2 ^ 32 ∧ os = putU32 n ++ r := by
  unfold readU32
  rw [CbclExcept.bind_ok_iff]
  constructor
  · rintro ⟨⟨b, rest⟩, htake, h⟩
    obtain ⟨rfl, hlen⟩ := take_ok_iff.mp htake
    injection h with h
    obtain ⟨rfl, rfl⟩ := Prod.mk.inj h
    have hlt : fromBigEndian b < 2 ^ 32 := by
      have h := fromBigEndian_lt b
      rw [hlen] at h
      exact h
    refine ⟨hlt, ?_⟩
    rw [putU32_of_lt hlt, ← hlen, bigEndian_fromBigEndian]
  · rintro ⟨hlt, rfl⟩
    refine ⟨(putU32 n, r), take_ok_iff.mpr ⟨rfl, length_putU32 n⟩, ?_⟩
    show Except.ok (fromBigEndian (putU32 n), r) = _
    rw [putU32_of_lt hlt, fromBigEndian_bigEndian]
    exact congrArg (fun m => Except.ok (m, r)) (Nat.mod_eq_of_lt hlt)

@[simp] theorem digestOf_toList (d : Digest) : digestOf d.toList = d := by
  refine Vector.ext fun i hi => ?_
  unfold digestOf
  rw [Vector.getElem_ofFn]
  simp [hi]

theorem toList_digestOf {os : Octets} (h : os.length = 32) : (digestOf os).toList = os := by
  refine List.ext_getElem? fun i => ?_
  unfold digestOf
  by_cases hi : i < 32
  · simp [hi, h]
  · rw [List.getElem?_eq_none (by simpa using hi), List.getElem?_eq_none (by omega)]

theorem readHash_ok_iff {os r : Octets} {d : Digest} :
    readHash os = .ok (d, r) ↔ os = d.toList ++ r := by
  unfold readHash
  rw [CbclExcept.bind_ok_iff]
  constructor
  · rintro ⟨⟨b, rest⟩, htake, h⟩
    obtain ⟨rfl, hlen⟩ := take_ok_iff.mp htake
    injection h with h
    obtain ⟨rfl, rfl⟩ := Prod.mk.inj h
    rw [toList_digestOf hlen]
  · rintro rfl
    refine ⟨(d.toList, r), take_ok_iff.mpr ⟨rfl, by simp⟩, ?_⟩
    show Except.ok (digestOf d.toList, r) = _
    rw [digestOf_toList]

theorem readCount_ok_iff {os r : Octets} {max n : Nat} :
    readCount max os = .ok (n, r) ↔ n ≤ max ∧ n < 2 ^ 32 ∧ os = putU32 n ++ r := by
  unfold readCount
  rw [CbclExcept.bind_ok_iff]
  constructor
  · rintro ⟨⟨m, rest⟩, hread, h⟩
    obtain ⟨hlt, rfl⟩ := readU32_ok_iff.mp hread
    dsimp only at h
    split at h
    · exact nomatch h
    · rename_i hle
      injection h with h
      obtain ⟨rfl, rfl⟩ := Prod.mk.inj h
      exact ⟨Nat.not_lt.mp hle, hlt, rfl⟩
  · rintro ⟨hle, hlt, rfl⟩
    exact ⟨(n, r), readU32_ok_iff.mpr ⟨hlt, rfl⟩, if_neg (Nat.not_lt.mpr hle)⟩

theorem readBytes_ok_iff {os r b : Octets} {max : Nat} :
    readBytes max os = .ok (b, r) ↔
      b.length ≤ max ∧ b.length < 2 ^ 32 ∧ os = putBytes b ++ r := by
  unfold readBytes putBytes
  rw [CbclExcept.bind_ok_iff]
  constructor
  · rintro ⟨⟨n, rest⟩, hcount, htake⟩
    obtain ⟨hle, hlt, rfl⟩ := readCount_ok_iff.mp hcount
    obtain ⟨rfl, rfl⟩ := take_ok_iff.mp htake
    exact ⟨hle, hlt, (List.append_assoc ..).symm⟩
  · rintro ⟨hle, hlt, rfl⟩
    exact ⟨(b.length, b ++ r), readCount_ok_iff.mpr ⟨hle, hlt, List.append_assoc ..⟩,
      take_ok_iff.mpr ⟨rfl, rfl⟩⟩

theorem fromUtf8_eq_some_iff {os : Octets} {s : String} :
    fromUtf8 os = some s ↔ os = octets s := by
  constructor
  · intro h
    unfold fromUtf8 at h
    dsimp only at h
    split at h
    · rename_i heq
      injection h with h
      rw [← h, heq]
    · exact nomatch h
  · rintro rfl
    exact fromUtf8_octets s

theorem readString_ok_iff {os r : Octets} {s : String} {max : Nat} :
    readString max os = .ok (s, r) ↔
      (octets s).length ≤ max ∧ (octets s).length < 2 ^ 32 ∧ os = putString s ++ r := by
  unfold readString putString
  rw [CbclExcept.bind_ok_iff]
  constructor
  · rintro ⟨⟨b, rest⟩, hread, h⟩
    obtain ⟨hle, hlt, rfl⟩ := readBytes_ok_iff.mp hread
    dsimp only at h
    cases hb : fromUtf8 b with
    | none => rw [hb] at h; exact nomatch h
    | some s' =>
        rw [hb] at h
        injection h with h
        obtain ⟨rfl, rfl⟩ := Prod.mk.inj h
        rw [fromUtf8_eq_some_iff] at hb
        subst hb
        exact ⟨hle, hlt, rfl⟩
  · rintro ⟨hle, hlt, rfl⟩
    refine ⟨(octets s, r), readBytes_ok_iff.mpr ⟨hle, hlt, rfl⟩, ?_⟩
    dsimp only
    rw [fromUtf8_octets]

theorem finish_ok_iff {os : Octets} {u : Unit} : finish os = .ok u ↔ os = [] := by
  unfold finish
  split
  · rename_i h
    exact iff_of_true rfl h
  · rename_i h
    exact iff_of_false (fun h' => nomatch h') h

end CbclCodec
