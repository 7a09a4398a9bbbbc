import QuantumCircuits.Circuit.Rearrange

/-!
# Synthesis — Four controls

The negation under four controls, with a relative negation under three of them undone by the
reversal of its own circuit; and whole circuits for chains.
-/

namespace QuantumCircuits.ControlledX

variable {α : Type} [Scalar α]

def c4x (controls target : Operand α) : Change (Circuit α) Unit := do
  let k ← Change.ofOutcome controls.length
  if k < 4 then Circuit.follow (c3x controls target)
  else if k = 4 then
    let third ← Change.ofOutcome (controls.item 3)
    Circuit.follow do
      Plan.on .h target
      Plan.call (.of .s .controlled) [third, target]
      Plan.on .h target
    let others ← Change.ofOutcome controls.dropLast
    let last ← Change.ofOutcome (controls.item (-1))
    Circuit.follow (rc3x others last)
    Circuit.follow do
      Plan.on .h target
      Plan.call (.of .sdg .controlled) [third, target]
      Plan.on .h target
    let empty := Circuit.empty (← get).framework 4
    let inverse ← Change.ofOutcome (empty.after do
      Circuit.follow (rc3x others last)
      Circuit.horizontalReverse true)
    Circuit.add inverse controls
    Circuit.follow (c3sx others target)
  else Change.fail (.controlCount "C4X" "1, 2, 3 or 4" k)

/-- The negation of a name; the others are the one under up to four controls. -/
def named (name : String) (controls target : Operand α) : Change (Circuit α) Unit :=
  match name with
  | "CCX" => Circuit.follow (ccx controls target)
  | "RCCX" => Circuit.follow (rccx controls target)
  | "C3X" => Circuit.follow (c3x controls target)
  | "C3SX" => Circuit.follow (c3sx controls target)
  | "RC3X" => Circuit.follow (rc3x controls target)
  | _ => c4x controls target

end QuantumCircuits.ControlledX

namespace QuantumCircuits.Chain

variable {α : Type} [Scalar α]

/-- How many ancillas a number of controls needs, for any number. -/
def ancillas (controls : Operand α) : Outcome (Operand α) :=
  match controls.toInt? with
  | some k => .ok (.int (max 0 (k - 2)))
  | none => match controls.toReal? with
    | some x => .ok (if Scalar.lt 0.0 (x - 2.0) then .real (x - 2.0) else .int 0)
    | none => .error (.unfit .type)

/-- The circuit of the negation under a number of controls, its ancillas behind the target. -/
def circuit (f : Framework) (controls : Operand α) : Outcome (Circuit α) := do
  let extra ← ancillas controls
  let c ← Circuit.new f (← (← controls.sum extra).sum (.int 1))
  let k := (controls.toInt?.getD 0).toNat
  let n := c.numQubits
  let numbers (start stop : Nat) : Operand α :=
    .list ((List.range (stop - start)).map fun (i : Nat) => .int (start + i : Nat))
  c.after (Circuit.follow (plan n (numbers 0 k) (.int k) (numbers (k + 1) n)))

end QuantumCircuits.Chain
