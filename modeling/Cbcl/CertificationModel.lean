import Cbcl.MessageModel

/-!
# Certification profiles and committees

A counter is certified by its host or by a quorum (`certification.rs`).  A committee has
exactly `3f + 1` distinct validators and a quorum of `2f + 1`.
-/

namespace CbclCertification

open CbclMessage

/-- How a counter's operations become final. -/
inductive Certification where
  | hostGate
  | quorumBudget (validators : Option (List String)) (faults : Option UInt32)
deriving DecidableEq

/-- A resolved committee. -/
structure Committee where
  validators : List String
  faults : UInt32
  quorum : Nat
deriving DecidableEq

/-- Whether a certification asks for a quorum. -/
def Certification.isQuorum : Certification → Bool
  | .quorumBudget .. => true
  | .hostGate => false

/-- Characters of a key symbol beyond letters and digits. -/
def keyPunctuation : List Char := "_-./!?+*<>=@".toList

/-- A whole `@key` symbol. -/
def isKeySymbol (k : String) : Bool :=
  k.toList.head? = some '@' && k.length ≥ 2 &&
    k.toList.all fun c => c.isAlphanum || keyPunctuation.contains c

/-- A validator roster, sorted and without duplicates. -/
def roster (keys : List String) : Except String (List String) :=
  if keys = [] then .error "validator roster must not be empty"
  else if keys.any (fun k => !isKeySymbol k) then
    .error "validators must be whole @key symbols"
  else if ¬ (keys.insertionSort (· ≤ ·)).Nodup then .error "duplicate validator"
  else .ok (keys.insertionSort (· ≤ ·))

/-- A committee of exactly `3f + 1` validators; the fault bound defaults to the largest. -/
def Committee.new (validators : List String) (faults : Option UInt32) :
    Except String Committee := do
  let validators ← roster validators
  let f ← match faults with
    | some f => .ok f
    | none =>
        if (validators.length - 1) / 3 < UInt32.size then
          .ok (UInt32.ofNat ((validators.length - 1) / 3))
        else .error "committee too large"
  if f.toNat * 3 + 1 ≠ validators.length then
    .error "quorum-budget requires exactly 3f+1 validators"
  else .ok ⟨validators, f, 2 * f.toNat + 1⟩

/-- Resolve a certification against the trusted instance roster. -/
def Certification.resolve (certification : Certification) (inst : Option (List String)) :
    Except String Committee :=
  match certification with
  | .hostGate => .error "counter uses host-gate certification"
  | .quorumBudget validators faults =>
      match validators.or inst with
      | none => .error "quorum-budget requires a pinned instance validator roster"
      | some keys => do
          let c ← Committee.new keys faults
          match validators, inst with
          | some _, some bound =>
              if (← roster bound) ≠ c.validators then
                .error "instance validator roster differs from dialect"
              else .ok c
          | _, _ => .ok c

end CbclCertification
