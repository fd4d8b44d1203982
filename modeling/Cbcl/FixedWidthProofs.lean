import Mathlib.Data.List.Basic
import Mathlib.Order.Basic
import Mathlib.Tactic.Ring

/-!
# Numerals of a fixed width

Digits of a base are spelled by a strictly increasing map into an ordered alphabet.  The numeral of
`n` in `w` places is its digits, most significant first; reading is a left fold.  Writing and
reading are inverse on the numbers below `b ^ w` and the words of length `w` over the digits, and
the lexicographic order of numerals is the order of their numbers.
-/

namespace CbclFixedWidth

variable {α : Type} (b : Nat) (digit : Nat → α) (value : α → Nat)

/-- The numeral of a number in some places, most significant first. -/
def numeral : Nat → Nat → List α
  | 0, _ => []
  | w + 1, n => digit (n / b ^ w % b) :: numeral w n

/-- The number a word spells. -/
def number (word : List α) : Nat := word.foldl (fun n c => b * n + value c) 0

theorem length_numeral (w n : Nat) : (numeral b digit w n).length = w := by
  induction w with
  | zero => rfl
  | succ w ih => rw [numeral, List.length_cons, ih]

/-- Reading is linear in what was read before. -/
theorem foldl_number (word : List α) (m : Nat) :
    word.foldl (fun n c => b * n + value c) m = m * b ^ word.length + number b value word := by
  induction word generalizing m with
  | nil => simp [number]
  | cons c word ih =>
      unfold number
      rw [List.foldl_cons, List.foldl_cons, ih, ih (b * 0 + value c), List.length_cons, pow_succ]
      ring

theorem number_cons (c : α) (word : List α) :
    number b value (c :: word) = value c * b ^ word.length + number b value word := by
  unfold number
  rw [List.foldl_cons, foldl_number b value word (b * 0 + value c), Nat.mul_zero, Nat.zero_add]
  rfl

variable {b digit value}

/-- The last place of a numeral is the last digit of its number. -/
theorem numeral_snoc (w n : Nat) :
    numeral b digit (w + 1) n = numeral b digit w (n / b) ++ [digit (n % b)] := by
  induction w with
  | zero => simp [numeral]
  | succ w ih =>
      rw [numeral, ih, numeral, Nat.div_div_eq_div_mul, ← pow_succ', List.cons_append]

section Reading

variable (hback : ∀ d < b, value (digit d) = d)
include hback

/-- Reading a numeral gives the number up to the places there are. -/
theorem number_numeral (hb : 0 < b) (w n : Nat) :
    number b value (numeral b digit w n) = n % b ^ w := by
  induction w with
  | zero => rw [pow_zero, Nat.mod_one]; rfl
  | succ w ih =>
      rw [numeral, number_cons, ih, length_numeral, hback _ (Nat.mod_lt _ hb), pow_succ,
        Nat.mod_mul]
      ring

end Reading

section Writing

variable {ok : α → Prop} (hok : ∀ c, ok c → value c < b ∧ digit (value c) = c)
include hok

/-- A word over the digits is a number below its places. -/
theorem number_lt (word : List α) (h : ∀ c ∈ word, ok c) :
    number b value word < b ^ word.length := by
  induction word with
  | nil => exact Nat.one_pos
  | cons c word ih =>
      have hrest := ih fun x hx => h x (List.mem_cons_of_mem _ hx)
      have hc := (hok c (h c List.mem_cons_self)).1
      rw [number_cons, List.length_cons, pow_succ]
      calc value c * b ^ word.length + number b value word
        _ < value c * b ^ word.length + b ^ word.length := Nat.add_lt_add_left hrest _
        _ = (value c + 1) * b ^ word.length := by ring
        _ ≤ b * b ^ word.length := Nat.mul_le_mul_right _ hc
        _ = b ^ word.length * b := Nat.mul_comm _ _

/-- A word over the digits is the numeral of its number. -/
theorem numeral_number (word : List α) (h : ∀ c ∈ word, ok c) (m : Nat) :
    numeral b digit word.length (m * b ^ word.length + number b value word) = word := by
  induction word generalizing m with
  | nil => rfl
  | cons c word ih =>
      have hword : ∀ x ∈ word, ok x := fun x hx => h x (List.mem_cons_of_mem _ hx)
      obtain ⟨hc, hspell⟩ := hok c (h c List.mem_cons_self)
      have hlt := number_lt hok word hword
      have hplaces : m * b ^ (c :: word).length + number b value (c :: word)
          = (m * b + value c) * b ^ word.length + number b value word := by
        rw [number_cons, List.length_cons, pow_succ]
        ring
      rw [hplaces, List.length_cons, numeral, ih hword]
      have hdigit : ((m * b + value c) * b ^ word.length + number b value word) / b ^ word.length % b
          = value c := by
        rw [Nat.mul_comm, Nat.mul_add_div (by omega), Nat.div_eq_of_lt hlt, Nat.add_zero,
          Nat.mul_comm m b, Nat.mul_add_mod, Nat.mod_eq_of_lt hc]
      rw [hdigit, hspell]

end Writing

/-- **Numerals are ordered as their numbers.** -/
theorem numeral_lt_iff [LT α] [Std.Irrefl (· < · : α → α → Prop)]
    (hmono : ∀ d < b, ∀ e < b, digit d < digit e ↔ d < e)
    (hb : 0 < b) : ∀ (w m n : Nat), m < b ^ w → n < b ^ w →
      (numeral b digit w m < numeral b digit w n ↔ m < n) := by
  have hnumeral : ∀ (w n : Nat), numeral b digit w n = numeral b digit w (n % b ^ w) := by
    intro w n
    have hgen : ∀ v ≤ w, numeral b digit v n = numeral b digit v (n % b ^ w) := by
      intro v
      induction v with
      | zero => exact fun _ => rfl
      | succ v ih =>
          intro hv
          obtain ⟨k, hk⟩ := Nat.exists_eq_add_of_le hv
          rw [numeral, numeral, ih (by omega), hk, add_assoc, pow_add, pow_add, pow_one,
            Nat.mod_mul_right_div_self, Nat.mod_mul_right_mod]
    exact hgen w le_rfl
  have hinj : ∀ d < b, ∀ e < b, digit d = digit e ↔ d = e := by
    intro d hd e he
    refine ⟨fun heq => ?_, congrArg digit⟩
    rcases Nat.lt_trichotomy d e with hlt | heq' | hgt
    · exact absurd ((hmono d hd e he).mpr hlt) (heq ▸ Std.Irrefl.irrefl _)
    · exact heq'
    · exact absurd ((hmono e he d hd).mpr hgt) (heq ▸ Std.Irrefl.irrefl _)
  intro w
  induction w with
  | zero =>
      intro m n hm hn
      rw [pow_zero] at hm hn
      simp only [numeral, List.lt_irrefl, false_iff]
      omega
  | succ w ih =>
      intro m n hm hn
      have hpow : 0 < b ^ w := Nat.pow_pos hb
      have hdm : m / b ^ w < b := Nat.div_lt_of_lt_mul (by rwa [← pow_succ])
      have hdn : n / b ^ w < b := Nat.div_lt_of_lt_mul (by rwa [← pow_succ])
      have hrest := ih (m % b ^ w) (n % b ^ w) (Nat.mod_lt _ hpow) (Nat.mod_lt _ hpow)
      rw [← hnumeral, ← hnumeral] at hrest
      rw [numeral, numeral, List.cons_lt_cons_iff, Nat.mod_eq_of_lt hdm, Nat.mod_eq_of_lt hdn,
        hmono _ hdm _ hdn, hinj _ hdm _ hdn, hrest]
      have hm' := Nat.div_add_mod m (b ^ w)
      have hn' := Nat.div_add_mod n (b ^ w)
      have hmr := Nat.mod_lt m hpow
      have hnr := Nat.mod_lt n hpow
      have hle := fun h : m ≤ n => Nat.div_le_div_right (c := b ^ w) h
      generalize m % b ^ w = r at *
      generalize n % b ^ w = s at *
      generalize m / b ^ w = p at *
      generalize n / b ^ w = q at *
      constructor
      · rintro (hlt | ⟨heq, hlt⟩)
        · have hnext : b ^ w * (p + 1) ≤ b ^ w * q := Nat.mul_le_mul_left _ hlt
          rw [Nat.mul_add, Nat.mul_one] at hnext
          omega
        · rw [heq] at hm'
          omega
      · intro hlt
        rcases Nat.lt_or_eq_of_le (hle hlt.le) with hlt' | heq
        · exact Or.inl hlt'
        · refine Or.inr ⟨heq, ?_⟩
          rw [heq] at hm'
          omega

/-- Words that start with as many letters each are ordered by these first. -/
theorem append_lt_append_iff [LT α] [Std.Irrefl (· < · : α → α → Prop)] : ∀ {u v : List α} (x y : List α),
    u.length = v.length → (u ++ x < v ++ y ↔ u < v ∨ u = v ∧ x < y) := by
  intro u
  induction u with
  | nil =>
      intro v x y hlen
      have hv : v = [] := List.eq_nil_of_length_eq_zero hlen.symm
      subst hv
      simp
  | cons a u ih =>
      intro v x y hlen
      cases v with
      | nil => exact absurd hlen (by simp)
      | cons c v =>
          have hrest := ih x y (Nat.succ.inj hlen)
          rw [List.cons_append, List.cons_append, List.cons_lt_cons_iff, hrest,
            List.cons_lt_cons_iff, List.cons.injEq]
          tauto

/-- Words with a common start are ordered by the rest. -/
theorem append_lt_append_left_iff [LT α] [Std.Irrefl (· < · : α → α → Prop)] (u x y : List α) :
    u ++ x < u ++ y ↔ x < y := by
  rw [append_lt_append_iff x y rfl]
  simp [List.lt_irrefl]

end CbclFixedWidth
