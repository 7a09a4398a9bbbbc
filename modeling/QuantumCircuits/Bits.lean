import QuantumCircuits.Operand.Basic

/-!
# Bits

Binary digits of whole numbers: the reflected code in which neighbours differ in one digit, the
upper and lower parts of a number, and labels that count digits from the most significant one.
-/

namespace QuantumCircuits

variable {α : Type} [Scalar α]

open Scalar

/-- The code of a number in which consecutive numbers differ in one digit. -/
def grayNat (n : Nat) : Nat := n ^^^ (n >>> 1)

/-- The same for all whole numbers; a negative number shares the code of its complement. -/
def grayCode (i : Int) : Int := if 0 ≤ i then grayNat i.toNat else grayNat (-i - 1).toNat

/-- A number without its lowest `s` digits; only the sign is left beyond the last digit. -/
def shifted (k : Int) (s : Nat) : Int :=
  if k.natAbs.log2 < s then (if k < 0 then -1 else 0) else k >>> s

def bitAt (k s : Int) : Outcome Int :=
  if s < 0 then .error (.unfit .value) else .ok (shifted k s.toNat % 2)

def leastExponent : Int := -1074

/-- A number without its lowest `s` digits; digits behind the point make it a real number. -/
def upperPart (k s : Int) : Outcome (Operand α) := do
  if 0 ≤ s then return .int (shifted k s.toNat)
  let _ : α ← Operand.realOfInt k
  if s < leastExponent then Operand.refuse .division
  .ok (.real (ofInt (k * 2 ^ (-s).toNat)))

def lowerPart (k s : Int) : Outcome (Operand α) := do
  let upper : Operand α ← upperPart k s
  match upper with
  | .real x => .ok (.real (ofInt k - x * twoPow s))
  | _ => .ok (.int (k - shifted k s.toNat * 2 ^ s.toNat))

/-- The binary digits of a number, the most significant first, at least one. -/
def binaryDigits (n : Nat) : List Nat :=
  if n < 2 then [n] else binaryDigits (n / 2) ++ [n % 2]
termination_by n
decreasing_by omega

def lastDigits (n digits : Int) : Outcome (List Nat) :=
  if n < 0 then .error (.unfit .value)
  else
    let ds := binaryDigits n.toNat
    let padded := List.replicate (digits.toNat - ds.length) 0 ++ ds
    if digits ≤ 0 then .ok (padded.drop (-digits).toNat)
    else .ok (padded.drop (padded.length - digits.toNat))

def qubitsByLabel (labels : List Int) (qubits : Operand α) (n : Int) :
    Outcome (List (Operand α)) :=
  labels.mapM fun l => qubits.item (n - l - 1)

end QuantumCircuits
