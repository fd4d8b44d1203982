import Cbcl.Sha256Model
import Mathlib.Algebra.Order.Ring.Nat
import Mathlib.Tactic.Ring
import Mathlib.Tactic.Linarith

/-!
# SHA-256 on natural numbers

The same hash, computed on natural numbers: a message is one number, a block sixteen digits of
it, a word a digit, and a rotation two shifts of the word written twice.  The operations are
those the kernel computes with, so an address evaluates at a fraction of the cost, and
`sha256_eq` says that nothing else changes.
-/

namespace CbclSha256Words

open CbclCanonical CbclSha256

/-- Evaluate a number before it is used. -/
def force {α : Type} (n : Nat) (k : Nat → α) : α :=
  match n with
  | 0 => k (nat_lit 0)
  | n + 1 => k (Nat.succ n)

theorem force_eq {α : Type} (n : Nat) (k : Nat → α) : force n k = k n := by
  cases n with
  | zero => rfl
  | succ n => rfl

/-! ### Words -/

/-- The low word of a number. -/
def low (n : Nat) : Nat := Nat.mod n (nat_lit 4294967296)

/-- The word above the first `i` bits. -/
def wordAt (n i : Nat) : Nat := low (Nat.shiftRight n i)

/-- A word written twice: its rotations are the low words of its shifts. -/
def twice (x : Nat) : Nat := Nat.mul x (nat_lit 4294967297)

/-- Two rotations and a shift, added without carry. -/
def small (x r s t : Nat) : Nat :=
  force (twice x) fun y =>
    Nat.xor (low (Nat.xor (Nat.shiftRight y r) (Nat.shiftRight y s))) (Nat.shiftRight x t)

/-- Three rotations, added without carry. -/
def big (x r s t : Nat) : Nat :=
  force (twice x) fun y =>
    low (Nat.xor (Nat.xor (Nat.shiftRight y r) (Nat.shiftRight y s)) (Nat.shiftRight y t))

/-- A word written twice, shifted, is the word rotated. -/
theorem twice_shift {x : Nat} (hx : x < 2 ^ 32) {n : Nat} (hn : n < 32) :
    low (Nat.shiftRight (twice x) n) = x >>> n ||| x <<< (32 - n) % 2 ^ 32 := by
  show (x * 4294967297) >>> n % 2 ^ 32 = _
  have hsplit : 2 ^ 32 = 2 ^ (32 - n) * 2 ^ n := by rw [← pow_add]; congr 1; omega
  have hquot : (x * 4294967297) >>> n = 2 ^ (32 - n) * x + x / 2 ^ n := by
    rw [Nat.shiftRight_eq_div_pow,
      show x * 4294967297 = x + 2 ^ (32 - n) * x * 2 ^ n by
        rw [mul_right_comm, ← hsplit]; ring,
      Nat.add_mul_div_right _ _ (Nat.two_pow_pos n), Nat.add_comm]
  have hsmall : x / 2 ^ n < 2 ^ (32 - n) := by
    rw [Nat.div_lt_iff_lt_mul (Nat.two_pow_pos n), ← hsplit]
    exact hx
  have hhigh : 2 ^ (32 - n) * x % 2 ^ 32 = 2 ^ (32 - n) * (x % 2 ^ n) := by
    rw [hsplit, Nat.mul_mod_mul_left]
  have hbound : 2 ^ (32 - n) * (x % 2 ^ n) + x / 2 ^ n < 2 ^ 32 := by
    have hrem := Nat.mod_lt x (Nat.two_pow_pos n)
    have hmul : 2 ^ (32 - n) * (x % 2 ^ n + 1) ≤ 2 ^ (32 - n) * 2 ^ n := Nat.mul_le_mul_left _ hrem
    rw [hsplit]
    rw [Nat.mul_add, Nat.mul_one] at hmul
    omega
  rw [hquot, Nat.shiftRight_eq_div_pow, Nat.shiftLeft_eq, Nat.mul_comm x, hhigh, Nat.or_comm,
    ← Nat.two_pow_add_eq_or_of_lt hsmall, Nat.add_mod, hhigh, Nat.mod_eq_of_lt (a := x / 2 ^ n)
      (lt_of_le_of_lt (Nat.div_le_self _ _) hx), Nat.mod_eq_of_lt hbound]

theorem low_xor (m n : Nat) : low (Nat.xor m n) = low m ^^^ low n :=
  Nat.xor_mod_two_pow (n := 32)

/-- A rotation of the source is a shift of the word written twice. -/
theorem rotate_toNat (x n : UInt32) (hpos : 0 < n.toNat) (hn : n.toNat < 32) :
    (rotate x n).toNat = low (Nat.shiftRight (twice x.toNat) n.toNat) := by
  have hle : n ≤ 32 := UInt32.le_iff_toNat_le.mpr (Nat.le_of_lt hn)
  rw [twice_shift x.toNat_lt hn, rotate, UInt32.toNat_or, UInt32.toNat_shiftRight,
    UInt32.toNat_shiftLeft, UInt32.toNat_sub_of_le _ _ hle, Nat.mod_eq_of_lt hn]
  congr 2
  show x.toNat <<< ((32 - n.toNat) % 32) = x.toNat <<< (32 - n.toNat)
  rw [Nat.mod_eq_of_lt (show 32 - n.toNat < 32 by omega)]

/-- The small sums of the source. -/
theorem small_toNat (x r s t : UInt32) (hr : 0 < r.toNat ∧ r.toNat < 32)
    (hs : 0 < s.toNat ∧ s.toNat < 32) (ht : t.toNat < 32) :
    (rotate x r ^^^ rotate x s ^^^ x >>> t).toNat
      = small x.toNat r.toNat s.toNat t.toNat := by
  rw [small, force_eq, low_xor, UInt32.toNat_xor, UInt32.toNat_xor, rotate_toNat x r hr.1 hr.2,
    rotate_toNat x s hs.1 hs.2, UInt32.toNat_shiftRight, Nat.mod_eq_of_lt ht]
  rfl

/-- The big sums of the source. -/
theorem big_toNat (x r s t : UInt32) (hr : 0 < r.toNat ∧ r.toNat < 32)
    (hs : 0 < s.toNat ∧ s.toNat < 32) (ht : 0 < t.toNat ∧ t.toNat < 32) :
    (rotate x r ^^^ rotate x s ^^^ rotate x t).toNat
      = big x.toNat r.toNat s.toNat t.toNat := by
  rw [big, force_eq, low_xor, low_xor, UInt32.toNat_xor, UInt32.toNat_xor,
    rotate_toNat x r hr.1 hr.2, rotate_toNat x s hs.1 hs.2, rotate_toNat x t ht.1 ht.2]

/-! ### Rounds -/

/-- The eight working variables, as numbers. -/
structure Words where
  a : Nat
  b : Nat
  c : Nat
  d : Nat
  e : Nat
  f : Nat
  g : Nat
  h : Nat

/-- The working variables of the source, as numbers. -/
def ofChaining (s : Chaining) : Words :=
  ⟨s.a.toNat, s.b.toNat, s.c.toNat, s.d.toNat, s.e.toNat, s.f.toNat, s.g.toNat, s.h.toNat⟩

/-- The part of a round that enters both new variables. -/
def mixed (e f g h k w : Nat) : Nat :=
  Nat.add (Nat.add (Nat.add (Nat.add h (big e (nat_lit 6) (nat_lit 11) (nat_lit 25)))
    (Nat.xor (Nat.land e f) (Nat.land (Nat.sub (nat_lit 4294967295) e) g))) k) w

/-- The part of a round that enters the first variable. -/
def majority (a b c : Nat) : Nat :=
  Nat.add (big a (nat_lit 2) (nat_lit 13) (nat_lit 22))
    (Nat.xor (Nat.xor (Nat.land a b) (Nat.land a c)) (Nat.land b c))

/-- One round. -/
def roundNat (s : Words) (k w : Nat) : Words :=
  match s with
  | ⟨a, b, c, d, e, f, g, h⟩ =>
      force (mixed e f g h k w) fun t =>
      force (low (Nat.add t (majority a b c))) fun a' =>
      force (low (Nat.add d t)) fun e' => ⟨a', a, b, c, e', e, f, g⟩

theorem low_add (x y : UInt32) : (x + y).toNat = low (x.toNat + y.toNat) := UInt32.toNat_add x y

theorem low_low_add (m n : Nat) : low (low m + n) = low (m + n) := Nat.mod_add_mod m _ n

theorem low_add_low (m n : Nat) : low (m + low n) = low (m + n) := Nat.add_mod_mod m n _

/-- A round of the source. -/
theorem roundNat_ofChaining (s : Chaining) (k w : UInt32) :
    roundNat (ofChaining s) k.toNat w.toNat = ofChaining (CbclSha256.round s k w) := by
  have hbig : ∀ x : UInt32, (rotate x 6 ^^^ rotate x 11 ^^^ rotate x 25).toNat
      = big x.toNat 6 11 25 :=
    fun x => big_toNat x 6 11 25 (by decide) (by decide) (by decide)
  have hbig' : ∀ x : UInt32, (rotate x 2 ^^^ rotate x 13 ^^^ rotate x 22).toNat
      = big x.toNat 2 13 22 :=
    fun x => big_toNat x 2 13 22 (by decide) (by decide) (by decide)
  have hmixed : (s.h + (rotate s.e 6 ^^^ rotate s.e 11 ^^^ rotate s.e 25)
      + ((s.e &&& s.f) ^^^ ((~~~ s.e) &&& s.g)) + k + w).toNat
      = low (mixed s.e.toNat s.f.toNat s.g.toNat s.h.toNat k.toNat w.toNat) := by
    simp only [low_add, low_low_add, hbig, UInt32.toNat_xor, UInt32.toNat_and, UInt32.toNat_not]
    rfl
  have hmajority : ((rotate s.a 2 ^^^ rotate s.a 13 ^^^ rotate s.a 22)
      + ((s.a &&& s.b) ^^^ (s.a &&& s.c) ^^^ (s.b &&& s.c))).toNat
      = low (majority s.a.toNat s.b.toNat s.c.toNat) := by
    simp only [low_add, hbig', UInt32.toNat_xor, UInt32.toNat_and]
    rfl
  have hfirst : (CbclSha256.round s k w).a.toNat
      = low (mixed s.e.toNat s.f.toNat s.g.toNat s.h.toNat k.toNat w.toNat
        + majority s.a.toNat s.b.toNat s.c.toNat) := by
    rw [CbclSha256.round, low_add, hmixed, hmajority, low_low_add, low_add_low]
  have hfifth : (CbclSha256.round s k w).e.toNat
      = low (s.d.toNat + mixed s.e.toNat s.f.toNat s.g.toNat s.h.toNat k.toNat w.toNat) := by
    rw [CbclSha256.round, low_add, hmixed, low_add_low]
  rw [ofChaining, ofChaining, roundNat, force_eq, force_eq, force_eq, hfirst, hfifth]
  rfl

/-- The next word of the schedule, from the last sixteen as one number, the newest lowest. -/
def nextNat (window : Nat) : Nat :=
  force (wordAt window (nat_lit 32)) fun w2 =>
  force (wordAt window (nat_lit 448)) fun w15 =>
    low (Nat.add (Nat.add (Nat.add (small w2 (nat_lit 17) (nat_lit 19) (nat_lit 10))
      (wordAt window (nat_lit 192))) (small w15 (nat_lit 7) (nat_lit 18) (nat_lit 3)))
      (wordAt window (nat_lit 480)))

/-- The rounds over the words of a block. -/
def early : List Nat → List Nat → Words → Words
  | k :: ks, w :: ws, s => force w fun w => early ks ws (roundNat s k w)
  | _, _, s => s

/-- The numbers of sixteen words. -/
def blockSize : Nat := Nat.pow (nat_lit 2) (nat_lit 512)

/-- The rounds over the schedule. -/
def late : List Nat → Nat → Words → Words
  | [], _, s => s
  | k :: ks, window, s =>
      force (nextNat window) fun w =>
      force (Nat.mod (Nat.add (Nat.mul window (nat_lit 4294967296)) w) blockSize) fun window =>
        late ks window (roundNat s k w)

/-- Words as one number, the first lowest. -/
def pack : List UInt32 → Nat
  | [] => 0
  | w :: ws => w.toNat + 2 ^ 32 * pack ws

theorem pack_lt (ws : List UInt32) : pack ws < 2 ^ (32 * ws.length) := by
  induction ws with
  | nil => exact Nat.one_pos
  | cons w ws ih =>
      have hw := w.toNat_lt
      rw [pack, List.length_cons, Nat.mul_succ, pow_add]
      nlinarith [Nat.mul_le_mul_left (2 ^ 32) (Nat.succ_le_of_lt ih)]

theorem pack_append (xs ys : List UInt32) :
    pack (xs ++ ys) = pack xs + 2 ^ (32 * xs.length) * pack ys := by
  induction xs with
  | nil => simp [pack]
  | cons x xs ih =>
      rw [List.cons_append, pack, ih, pack, List.length_cons, Nat.mul_succ, pow_add]
      ring

theorem wordAt_pack (ws : List UInt32) (i : Nat) :
    wordAt (pack ws) (32 * i) = (ws.getD i 0).toNat := by
  induction ws generalizing i with
  | nil => show (0 >>> (32 * i)) % 4294967296 = _; simp
  | cons w ws ih =>
      cases i with
      | zero =>
          show (w.toNat + 2 ^ 32 * pack ws) % 2 ^ 32 = w.toNat
          rw [Nat.add_mul_mod_self_left, Nat.mod_eq_of_lt w.toNat_lt]
      | succ i =>
          rw [List.getD_cons_succ, ← ih i]
          show (w.toNat + 2 ^ 32 * pack ws) >>> (32 * (i + 1)) % 4294967296
            = pack ws >>> (32 * i) % 4294967296
          rw [show 32 * (i + 1) = 32 + 32 * i by ring, Nat.shiftRight_add,
            Nat.shiftRight_eq_div_pow _ 32, Nat.add_mul_div_left _ _ (Nat.two_pow_pos 32),
            Nat.div_eq_of_lt w.toNat_lt, Nat.zero_add]

/-- The word the source adds to the schedule. -/
theorem nextNat_pack {window : List UInt32} (h : window.length = 16) :
    nextNat (pack window) = (nextWord window).toNat := by
  have hlow : ∀ x : UInt32, (rotate x 17 ^^^ rotate x 19 ^^^ x >>> 10).toNat
      = small x.toNat 17 19 10 :=
    fun x => small_toNat x 17 19 10 (by decide) (by decide) (by decide)
  have hlow' : ∀ x : UInt32, (rotate x 7 ^^^ rotate x 18 ^^^ x >>> 3).toNat
      = small x.toNat 7 18 3 :=
    fun x => small_toNat x 7 18 3 (by decide) (by decide) (by decide)
  match window, h with
  | [w1, w2, w3, w4, w5, w6, w7, w8, w9, w10, w11, w12, w13, w14, w15, w16], _ =>
      have h2 := wordAt_pack [w1, w2, w3, w4, w5, w6, w7, w8, w9, w10, w11, w12, w13, w14, w15, w16]
      rw [nextNat, force_eq, force_eq, h2 1, h2 14, h2 6, h2 15]
      simp only [nextWord, low_add, low_low_add, hlow, hlow']
      rfl

/-- The window after a word more. -/
theorem pack_push {window : List UInt32} (h : window.length = 16) (w : UInt32) :
    (pack window * 4294967296 + w.toNat) % blockSize = pack (w :: window.take 15) := by
  have hsplit := pack_append (window.take 15) (window.drop 15)
  have hlen : (window.take 15).length = 15 := by rw [List.length_take, h]; rfl
  have hlt := pack_lt (w :: window.take 15)
  have hsize : blockSize = 2 ^ 32 * 2 ^ (32 * 15) := by decide +kernel
  rw [List.take_append_drop, hlen] at hsplit
  rw [List.length_cons, hlen, Nat.mul_succ, Nat.add_comm, pow_add, ← hsize] at hlt
  have hmul : pack window * 4294967296 + w.toNat
      = pack (w :: window.take 15) + blockSize * pack (window.drop 15) := by
    rw [hsplit, hsize, pack, Nat.add_mul, Nat.mul_assoc (2 ^ 32), Nat.mul_comm _ 4294967296,
      Nat.mul_comm _ 4294967296]
    omega
  rw [hmul, Nat.add_mul_mod_self_left, Nat.mod_eq_of_lt hlt]

/-- The later rounds of the source. -/
theorem late_pack (ks : List UInt32) {window : List UInt32} (h : window.length = 16)
    (s : Chaining) : late (ks.map UInt32.toNat) (pack window) (ofChaining s)
      = ofChaining (rounds ks [] window s) := by
  induction ks generalizing window s with
  | nil => rfl
  | cons k ks ih =>
      have hlen : (nextWord window :: window.take 15).length = 16 := by
        rw [List.length_cons, List.length_take, h]; rfl
      have hpush := pack_push h (nextWord window)
      rw [List.map_cons, late, force_eq, force_eq, nextNat_pack h, roundNat_ofChaining, rounds,
        ← ih hlen, ← hpush]
      rfl

/-- The early rounds of the source, and the window they leave. -/
theorem early_append (ks ks' : List UInt32) {ws window : List UInt32}
    (hlen : ks.length = ws.length) (hwindow : ws.length + window.length ≤ 16) (s : Chaining) :
    ∃ s', early (ks.map UInt32.toNat) (ws.map UInt32.toNat) (ofChaining s) = ofChaining s' ∧
      rounds (ks ++ ks') ws window s = rounds ks' [] (ws.reverse ++ window) s' := by
  induction ks generalizing ws window s with
  | nil =>
      obtain rfl := List.length_eq_zero_iff.mp hlen.symm
      exact ⟨s, rfl, rfl⟩
  | cons k ks ih =>
      match ws, hlen with
      | w :: ws, hlen =>
          rw [List.length_cons] at hwindow
          have htake : window.take 15 = window := List.take_of_length_le (by omega)
          obtain ⟨s', hearly, hrounds⟩ := @ih ws (w :: window)
            (Nat.succ.inj hlen) (by rw [List.length_cons]; omega) (CbclSha256.round s k w)
          refine ⟨s', ?_, ?_⟩
          · rw [List.map_cons, List.map_cons, early, force_eq, roundNat_ofChaining, hearly]
          · rw [List.cons_append, rounds, htake, hrounds, List.reverse_cons, List.append_assoc]
            rfl

/-! ### Blocks -/

/-- Octets as one number, the first highest. -/
def value (os : Octets) : Nat := os.foldl (fun n b => n * 256 + b.toNat) 0

theorem foldl_value (os : Octets) (n : Nat) :
    os.foldl (fun n b => n * 256 + b.toNat) n = n * 256 ^ os.length + value os := by
  induction os generalizing n with
  | nil => simp [value]
  | cons b os ih =>
      rw [value, List.foldl_cons, ih, List.foldl_cons, ih (0 * 256 + b.toNat), List.length_cons,
        pow_succ]
      ring

theorem value_append (xs ys : Octets) :
    value (xs ++ ys) = value xs * 256 ^ ys.length + value ys := by
  rw [value, List.foldl_append, foldl_value]
  rfl

theorem value_lt (os : Octets) : value os < 256 ^ os.length := by
  induction os using List.reverseRecOn with
  | nil => exact Nat.one_pos
  | append_singleton os b ih =>
      have hb := b.toNat_lt
      rw [value_append, List.length_append, pow_add]
      show value os * 256 ^ 1 + (0 * 256 + b.toNat) < 256 ^ os.length * 256 ^ 1
      omega

/-- A word of the source. -/
theorem word_toNat (os : Octets) : (word os).toNat = low (value os) := by
  induction os using List.reverseRecOn with
  | nil => rfl
  | append_singleton os b ih =>
      have hword : word (os ++ [b]) = word os * 256 + b.toUInt32 := by
        rw [word, List.foldl_append]; rfl
      rw [hword, low_add, UInt32.toNat_mul, ih, value_append]
      have hbyte : b.toUInt32.toNat = b.toNat := b.toNat_toUInt32
      have hlast : value [b] = b.toNat := by rw [value]; simp
      rw [hbyte, hlast, show (256 : UInt32).toNat = 256 from rfl, List.length_singleton, pow_one]
      show (value os % 4294967296 * 256 % 4294967296 + b.toNat) % 4294967296
        = (value os * 256 + b.toNat) % 4294967296
      omega

/-- The words of a block. -/
def wordsOf (n : Nat) : List Nat :=
  [wordAt n (nat_lit 480), wordAt n (nat_lit 448), wordAt n (nat_lit 416), wordAt n (nat_lit 384),
   wordAt n (nat_lit 352), wordAt n (nat_lit 320), wordAt n (nat_lit 288), wordAt n (nat_lit 256),
   wordAt n (nat_lit 224), wordAt n (nat_lit 192), wordAt n (nat_lit 160), wordAt n (nat_lit 128),
   wordAt n (nat_lit 96), wordAt n (nat_lit 64), wordAt n (nat_lit 32), wordAt n (nat_lit 0)]

/-- The constants of the early rounds. -/
def earlyConstants : List Nat :=
  [nat_lit 1116352408, nat_lit 1899447441, nat_lit 3049323471, nat_lit 3921009573,
   nat_lit 961987163, nat_lit 1508970993, nat_lit 2453635748, nat_lit 2870763221,
   nat_lit 3624381080, nat_lit 310598401, nat_lit 607225278, nat_lit 1426881987,
   nat_lit 1925078388, nat_lit 2162078206, nat_lit 2614888103, nat_lit 3248222580]

/-- The constants of the later rounds. -/
def lateConstants : List Nat :=
  [nat_lit 3835390401, nat_lit 4022224774, nat_lit 264347078, nat_lit 604807628, nat_lit 770255983,
   nat_lit 1249150122, nat_lit 1555081692, nat_lit 1996064986, nat_lit 2554220882,
   nat_lit 2821834349, nat_lit 2952996808, nat_lit 3210313671, nat_lit 3336571891,
   nat_lit 3584528711, nat_lit 113926993, nat_lit 338241895, nat_lit 666307205, nat_lit 773529912,
   nat_lit 1294757372, nat_lit 1396182291, nat_lit 1695183700, nat_lit 1986661051,
   nat_lit 2177026350, nat_lit 2456956037, nat_lit 2730485921, nat_lit 2820302411,
   nat_lit 3259730800, nat_lit 3345764771, nat_lit 3516065817, nat_lit 3600352804,
   nat_lit 4094571909, nat_lit 275423344, nat_lit 430227734, nat_lit 506948616, nat_lit 659060556,
   nat_lit 883997877, nat_lit 958139571, nat_lit 1322822218, nat_lit 1537002063,
   nat_lit 1747873779, nat_lit 1955562222, nat_lit 2024104815, nat_lit 2227730452,
   nat_lit 2361852424, nat_lit 2428436474, nat_lit 2756734187, nat_lit 3204031479,
   nat_lit 3329325298]

/-- Take in one block. -/
def compressNat (s : Words) (block : Nat) : Words :=
  force block fun block =>
    match s, late lateConstants block (early earlyConstants (wordsOf block) s) with
    | ⟨a, b, c, d, e, f, g, h⟩, ⟨a', b', c', d', e', f', g', h'⟩ =>
        ⟨low (Nat.add a a'), low (Nat.add b b'), low (Nat.add c c'), low (Nat.add d d'),
         low (Nat.add e e'), low (Nat.add f f'), low (Nat.add g g'), low (Nat.add h h')⟩

/-- The words of a block, packed, are the block. -/
theorem pack_chunks (k : Nat) {os : Octets} (h : os.length = 4 * k) :
    ((chunks 4 k os).map word).length = k ∧
      pack ((chunks 4 k os).map word).reverse = value os := by
  induction k generalizing os with
  | zero =>
      obtain rfl := List.length_eq_zero_iff.mp h
      exact ⟨rfl, rfl⟩
  | succ k ih =>
      match os, h with
      | b :: os, h =>
          have hhead : ((b :: os).take 4).length = 4 := by rw [List.length_take, h]; omega
          have htail : ((b :: os).drop 4).length = 4 * k := by rw [List.length_drop, h]; omega
          obtain ⟨hlen, hpack⟩ := ih htail
          have hword : (word ((b :: os).take 4)).toNat = value ((b :: os).take 4) := by
            have hlt := value_lt ((b :: os).take 4)
            rw [hhead] at hlt
            rw [word_toNat]
            exact Nat.mod_eq_of_lt hlt
          have hvalue := value_append ((b :: os).take 4) ((b :: os).drop 4)
          rw [List.take_append_drop, htail] at hvalue
          refine ⟨?_, ?_⟩
          · rw [chunks, List.map_cons, List.length_cons, hlen]
          · rw [chunks, List.map_cons, List.reverse_cons, pack_append, hpack, List.length_reverse,
              hlen, hvalue, pack, pack, hword, show (256 : Nat) = 2 ^ 8 from rfl, ← pow_mul]
            ring_nf

/-- The words of a block of the source. -/
theorem wordsOf_value {os : Octets} (h : os.length = 64) :
    wordsOf (value os) = ((chunks 4 16 os).map word).map UInt32.toNat := by
  obtain ⟨hlen, hpack⟩ := pack_chunks 16 h
  rw [← hpack]
  match (chunks 4 16 os).map word, hlen with
  | [w1, w2, w3, w4, w5, w6, w7, w8, w9, w10, w11, w12, w13, w14, w15, w16], _ =>
      calc wordsOf (pack [w1, w2, w3, w4, w5, w6, w7, w8, w9, w10, w11, w12, w13, w14, w15,
              w16].reverse)
          = (List.range 16).reverse.map fun i => wordAt (pack [w1, w2, w3, w4, w5, w6, w7, w8, w9,
              w10, w11, w12, w13, w14, w15, w16].reverse) (32 * i) := rfl
        _ = [w1, w2, w3, w4, w5, w6, w7, w8, w9, w10, w11, w12, w13, w14, w15, w16].map
              UInt32.toNat := by
            simp only [wordAt_pack]
            rfl

/-- A block of the source. -/
theorem compressNat_value {os : Octets} (h : os.length = 64) (s : Chaining) :
    compressNat (ofChaining s) (value os) = ofChaining (compress s os) := by
  obtain ⟨hlen, hpack⟩ := pack_chunks 16 h
  have hearly : earlyConstants = (roundConstants.take 16).map UInt32.toNat := by decide
  have hlate : lateConstants = (roundConstants.drop 16).map UInt32.toNat := by decide
  obtain ⟨s', hs', hrounds⟩ := @early_append (roundConstants.take 16) (roundConstants.drop 16)
    ((chunks 4 16 os).map word) [] hlen.symm (by rw [hlen]; rfl) s
  rw [List.take_append_drop, List.append_nil] at hrounds
  have hwindow : ((chunks 4 16 os).map word).reverse.length = 16 := by
    rw [List.length_reverse, hlen]
  have hr := late_pack (roundConstants.drop 16) hwindow s'
  rw [hpack, ← hlate, ← hs', ← hearly, ← wordsOf_value h, ← hrounds] at hr
  rw [compressNat, force_eq, hr, compress]
  simp only [ofChaining, UInt32.toNat_add]
  rfl

/-- The blocks of a message, the first highest. -/
def blocksNat (message : Nat) : Nat → Words → Words
  | 0, s => s
  | k + 1, s =>
      blocksNat message k (compressNat s
        (Nat.mod (Nat.shiftRight message (Nat.mul (nat_lit 512) k)) blockSize))

/-- The blocks of the source. -/
theorem blocksNat_value (k : Nat) {fuel : Nat} (hk : k ≤ fuel) {os : Octets}
    (h : os.length = 64 * k) {n : Nat} (hn : n % 256 ^ (64 * k) = value os) (s : Chaining) :
    blocksNat n k (ofChaining s) = ofChaining ((chunks 64 fuel os).foldl compress s) := by
  induction k generalizing fuel os s with
  | zero =>
      obtain rfl := List.length_eq_zero_iff.mp h
      cases fuel with
      | zero => rfl
      | succ fuel => rfl
  | succ k ih =>
      match fuel, os, h with
      | fuel + 1, b :: os, h =>
          have hhead : ((b :: os).take 64).length = 64 := by rw [List.length_take, h]; omega
          have htail : ((b :: os).drop 64).length = 64 * k := by rw [List.length_drop, h]; omega
          have hsplit : n % (256 ^ (64 * k) * 256 ^ 64)
              = value ((b :: os).take 64) * 256 ^ (64 * k) + value ((b :: os).drop 64) := by
            rw [← pow_add, ← Nat.mul_succ, hn, ← htail, ← value_append, List.take_append_drop]
          have hlow : n % 256 ^ (64 * k) = value ((b :: os).drop 64) := by
            have hlt := value_lt ((b :: os).drop 64)
            rw [← Nat.mod_mod_of_dvd n (Dvd.intro _ rfl), hsplit, Nat.mul_add_mod_self_right,
              Nat.mod_eq_of_lt (htail ▸ hlt)]
          have hhigh : Nat.mod (Nat.shiftRight n (Nat.mul 512 k)) blockSize
              = value ((b :: os).take 64) := by
            have hlt := value_lt ((b :: os).drop 64)
            have hsize : blockSize = 256 ^ 64 := by decide +kernel
            have hpow : 2 ^ (512 * k) = 256 ^ (64 * k) := by
              rw [show (256 : Nat) = 2 ^ 8 from rfl, ← pow_mul]
              ring_nf
            show n >>> (512 * k) % blockSize = _
            rw [hsize, Nat.shiftRight_eq_div_pow, hpow, ← Nat.mod_mul_right_div_self, hsplit,
              Nat.mul_comm, Nat.mul_add_div (Nat.pow_pos (by decide)),
              Nat.div_eq_of_lt (htail ▸ hlt), Nat.add_zero]
          rw [blocksNat, hhigh, compressNat_value hhead, ih (Nat.le_of_succ_le_succ hk) htail hlow, chunks,
            List.foldl_cons]

/-! ### Messages -/

/-- The octets of a message as a number, after those already read. -/
def octetsNat : Octets → Nat → Nat
  | [], n => n
  | b :: os, n => force (Nat.add (Nat.mul n (nat_lit 256)) b.toNat) fun n => octetsNat os n

/-- A message of some length, padded. -/
def paddedNat (n length : Nat) : Nat :=
  Nat.add (Nat.mul (Nat.add (Nat.mul n (nat_lit 256)) (nat_lit 128))
    (Nat.pow (nat_lit 256) (Nat.add (nat_lit 8)
      (Nat.mod (Nat.sub (nat_lit 119) (Nat.mod length (nat_lit 64))) (nat_lit 64)))))
    (Nat.mod (Nat.mul length (nat_lit 8)) (Nat.pow (nat_lit 256) (nat_lit 8)))

theorem octetsNat_eq (os : Octets) (n : Nat) :
    octetsNat os n = os.foldl (fun n b => n * 256 + b.toNat) n := by
  induction os generalizing n with
  | nil => rfl
  | cons b os ih => rw [octetsNat, force_eq, ih]; rfl

theorem value_zeros (k : Nat) : value (List.replicate k 0) = 0 := by
  induction k with
  | zero => rfl
  | succ k ih => rw [List.replicate_succ, ← List.singleton_append, value_append, ih]; simp [value]

/-- A number written out in octets. -/
theorem value_digits (n k : Nat) :
    value ((List.range k).reverse.map fun i => (n / 256 ^ i % 256).toUInt8) = n % 256 ^ k := by
  induction k with
  | zero => show 0 = n % 1; omega
  | succ k ih =>
      have hdigit : (n / 256 ^ k % 256).toUInt8.toNat = n / 256 ^ k % 256 :=
        Nat.mod_eq_of_lt (Nat.mod_lt _ (by decide))
      rw [List.range_succ, List.reverse_append, List.map_append, value_append, ih,
        List.length_map, List.length_reverse, List.length_range, Nat.mod_pow_succ]
      show (0 * 256 + (n / 256 ^ k % 256).toUInt8.toNat) * 256 ^ k + n % 256 ^ k = _
      rw [hdigit]
      ring

/-- The padded message of the source. -/
theorem value_padded (os : Octets) : value (padded os) = paddedNat (value os) os.length := by
  have hlen : ((List.range 8).reverse.map
      fun i => (os.length * 8 / 256 ^ i % 256).toUInt8).length = 8 := rfl
  rw [padded, value_append, value_digits, hlen, value_append, value_zeros, List.length_replicate,
    value_append, Nat.add_zero, Nat.mul_assoc, ← pow_add, Nat.add_comm _ 8]
  rfl

theorem length_padded (os : Octets) : (padded os).length = 64 * ((os.length + 72) / 64) := by
  simp only [padded, List.length_append, List.length_replicate, List.length_map,
    List.length_reverse, List.length_range, List.length_singleton]
  omega

/-- The octets of a word. -/
def wordOctetsNat (w : Nat) : Octets :=
  force w fun w => [(Nat.shiftRight w (nat_lit 24)).toUInt8, (Nat.shiftRight w (nat_lit 16)).toUInt8,
    (Nat.shiftRight w (nat_lit 8)).toUInt8, w.toUInt8]

/-- The octets of the working variables. -/
def Words.octets (s : Words) : Octets :=
  wordOctetsNat s.a ++ wordOctetsNat s.b ++ wordOctetsNat s.c ++ wordOctetsNat s.d
    ++ wordOctetsNat s.e ++ wordOctetsNat s.f ++ wordOctetsNat s.g ++ wordOctetsNat s.h

/-- The working variables after a message. -/
def wordsNat (os : Octets) : Words :=
  force os.length fun length =>
  force (paddedNat (octetsNat os (nat_lit 0)) length) fun message =>
    blocksNat message (Nat.div (Nat.add length (nat_lit 72)) (nat_lit 64)) (ofChaining initial)

theorem wordOctetsNat_toNat (w : UInt32) : wordOctetsNat w.toNat = wordOctets w := by
  rw [wordOctetsNat, force_eq]
  rfl

theorem octets_ofChaining (s : Chaining) : (ofChaining s).octets = s.octets := by
  simp only [Words.octets, ofChaining, wordOctetsNat_toNat]
  rfl

/-- **THE SAME HASH** on natural numbers. -/
theorem octets_wordsNat (os : Octets) : (wordsNat os).octets
    = ((chunks 64 (os.length + 2) (padded os)).foldl compress initial).octets := by
  have hvalue : paddedNat (octetsNat os 0) os.length = value (padded os) := by
    rw [value_padded, octetsNat_eq]
    rfl
  have hlt := value_lt (padded os)
  rw [length_padded] at hlt
  have hblocks := @blocksNat_value ((os.length + 72) / 64) (os.length + 2) (by omega) _
    (length_padded os) _ (Nat.mod_eq_of_lt hlt) initial
  rw [wordsNat, force_eq, force_eq, hvalue, ← octets_ofChaining, ← hblocks]
  rfl

/-- SHA-256, on natural numbers. -/
def sha256Nat (os : Octets) : Vector UInt8 32 :=
  ⟨(wordsNat os).octets.toArray, by rw [octets_wordsNat]; rfl⟩

/-- **EVALUATION** of the hash of the source: the computation on natural numbers in its place. -/
theorem sha256_eq : sha256 = sha256Nat := by
  funext os
  exact Vector.toArray_inj.mp (congrArg List.toArray (octets_wordsNat os).symm)

end CbclSha256Words
