import QuantumCircuits.Circuit.Rearrange

/-!
# Synthesis — Fourier

The Fourier transform on qubits, as turns by smaller and smaller angles; an approximation leaves the
smallest ones out.
-/

namespace QuantumCircuits.Fourier

variable {α : Type} [Scalar α]

open Scalar

/-- How many turns qubit `j` of `n` gets at a degree of approximation. -/
def turnCount (n degree j : Nat) : Nat := j - (degree - (n - j - 1))

def stage (n degree j : Nat) : Plan α Unit := do
  Plan.on .h (.int j)
  let count := turnCount n degree j
  ((List.range count).map fun i => j - 1 - i).forM fun k =>
    Plan.controlledTurn .phase (.real (pi * twoPow ((k : Int) - j))) (.int j) (.int k)

def plan (n degree : Nat) (swapping : Bool) : Plan α Unit := do
  (List.range n).reverse.forM (stage n degree)
  if swapping then
    (List.range (n / 2)).forM fun i =>
      Plan.call (.of .swap .plain) [.int i, .int (n - i - 1 : Nat)]

def apply (qubits : Operand α) (swapping : Bool) (degree : Operand α) (inverse : Bool) :
    Change (Circuit α) Unit := do
  if !degree.isInt then Change.fail .degreeType
  let d := degree.toInt?.getD 0
  if d < 0 then Change.fail .degreeNegative
  let qubits := qubits.listed
  let n ← Change.ofOutcome qubits.length
  let c ← Change.ofOutcome (Circuit.new (← get).framework (.int n))
  let c ← Change.ofOutcome (c.after do
    Circuit.follow (plan n d.toNat swapping)
    if inverse then Circuit.horizontalReverse true)
  Circuit.add c qubits

end QuantumCircuits.Fourier
