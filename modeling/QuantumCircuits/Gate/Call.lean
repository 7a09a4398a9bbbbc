import QuantumCircuits.Gate.Name
import QuantumCircuits.Operand.Basic

/-!
# Gate — Call

A gate together with its operands.  `Gate.bind` matches named operands with the gate's signature,
and `Plan` is the sequence of calls that a gate stands for, up to the first fault.
-/

namespace QuantumCircuits

variable {α : Type} [Scalar α]

abbrev Operands (α : Type) := List (Key × Operand α)

/-- A gate with its operands; the control state is kept apart, since it is not part of the gate. -/
structure Call (α : Type) where
  gate : Gate
  operands : Operands α
  controlState : Operand α
deriving Inhabited, Repr

namespace Call

def get (c : Call α) (k : Key) : Operand α := (c.operands.lookup k).getD .none

end Call

namespace Gate

/-- The operand for a key of the signature; only a control state may be left out. -/
def pick (args : Operands α) (k : Key) : Outcome (Operand α) :=
  match args.lookup k with
  | some x => .ok x
  | none => if k = .controlState then .ok .none else .error (.unfit .type)

/-- The call of a gate with named operands, which have to be those of its signature. -/
def bind (g : Gate) (args : Operands α) : Outcome (Call α) := do
  if args.any fun (k, _) => !(g.signature.contains k) then .error (.unfit .type)
  let operands ← g.signature.mapM fun k => do .ok (k, ← pick args k)
  .ok
    { gate := g
      operands := operands.filter fun (k, _) => k ≠ .controlState
      controlState := (operands.lookup .controlState).getD .none }

end Gate

abbrev Plan (α : Type) := Change (Array (Call α))

namespace Plan

def outcome {β : Type} (p : Plan α β) : Array (Call α) × Outcome β :=
  let (r, cs) := Change.perform p #[]
  (cs, r)

def callUnder (state : Operand α) (g : Gate) (xs : List (Operand α)) : Plan α Unit :=
  modify (·.push ⟨g, (g.signature.filter (· ≠ .controlState)).zip xs, state⟩)

def call (g : Gate) (xs : List (Operand α)) : Plan α Unit := callUnder .none g xs

def get {β : Type} (x : Outcome β) : Plan α β := Change.ofOutcome x

def fail {β : Type} (f : Fault) : Plan α β := Change.fail f

def skip : Plan α Unit := pure ()

end Plan

end QuantumCircuits

/-! ### Shorthand

Short forms of the calls that gates are most often composed of.
-/

namespace QuantumCircuits.Plan

variable {α : Type} [Scalar α]

open Scalar

def on (b : Base) (q : Operand α) : Plan α Unit := call (.of b .plain) [q]

def turn (b : Base) (t q : Operand α) : Plan α Unit := call (.of b .plain) [t, q]

def turnBy (b : Base) (t : α) (q : Operand α) : Plan α Unit := turn b (.real t) q

def u3 (t p l : Operand α) (q : Operand α) : Plan α Unit :=
  call (.of .u3 .plain) [.list [t, p, l], q]

def cx (c t : Operand α) : Plan α Unit := call (.of .x .controlled) [c, t]

def controlledTurn (b : Base) (a c t : Operand α) : Plan α Unit := call (.of b .controlled) [a, c, t]

def under (b : Base) (cs ts : Operand α) : Plan α Unit := call (.of b .multi) [cs, ts]

def turnUnder (b : Base) (a cs ts : Operand α) : Plan α Unit := call (.of b .multi) [a, cs, ts]

def globalPhase (t : Operand α) : Plan α Unit := call .globalPhase [t]

end QuantumCircuits.Plan

/-! ### Checks

The checks that a call passes before it is logged.  `validate` goes through the operands in order:
qubit operands have to be whole numbers in range, angles have to be numbers, and a call all of whose
angles are zero turns out to be no operation, for which the answer is `none`.
-/

namespace QuantumCircuits

variable {α : Type} [Scalar α]

open Scalar

def angleTolerance : α := 1e-10

def fullTurn : α := 2.0 * pi

/-- An angle counts as zero when it or its remainder after full turns is within the tolerance. -/
def isZeroAngle (x : α) : Bool :=
  le (abs x) angleTolerance || le (abs (remainder x fullTurn)) angleTolerance

namespace Operand

def indexText : Operand α → String
  | .bool b => if b then "True" else "False"
  | .int i | .int64 i => toString i
  | _ => ""

end Operand

/-- A qubit index of a circuit on `n` qubits; a negative one counts from the end. -/
def checkIndex (n : Nat) (x : Operand α) : Outcome (Operand α) :=
  if !x.isInt then .error (.indexType x.shownType)
  else
    let i := x.toInt?.getD 0
    if (n : Int) ≤ i ∨ i < -(n : Int) then .error (.indexRange x.indexText (n - 1))
    else .ok (if 0 ≤ i then x else .int (n + i))

def checkQubits (n : Nat) : Operand α → Outcome (Operand α)
  | .list [x] => checkIndex n x
  | .list xs => do .ok (.list (← xs.mapM (checkIndex n)))
  | x => checkIndex n x

def checkAngle (x : Operand α) : Outcome (Operand α) :=
  match x with
  | .int _ | .bool _ | .real _ => do .ok (if isZeroAngle (← x.toReal) then .real 0.0 else x)
  | x => .error (.angleType x.shownType)

def Operand.isZero (x : Operand α) : Bool :=
  match x.toReal? with
  | some t => eq t 0.0
  | Option.none => false

def checkAngles : Operand α → Outcome (Option (Operand α))
  | .list xs => do
    let ys ← xs.mapM checkAngle
    .ok (if ys.all Operand.isZero then none else some (.list ys))
  | x => do
    let y ← checkAngle x
    .ok (if y.isZero then none else some y)

def Operand.indices : Operand α → List (Operand α)
  | .list xs => xs
  | x => [x]

def sameIndex (x y : Operand α) : Bool := x.toInt? == y.toInt?

def distinctIndices : List (Operand α) → Bool
  | [] => true
  | x :: xs => !(xs.any (sameIndex x)) && distinctIndices xs

def indicesText (xs : List (Operand α)) : String :=
  "[" ++ ", ".intercalate (xs.map Operand.indexText) ++ "]"

def validateFrom (n : Nat) : Operands α → List (Operand α) → Operands α →
    Outcome (Option (Operands α))
  | [], qubits, done =>
    if distinctIndices qubits then .ok (some done.reverse)
    else .error (.duplicateQubits (indicesText qubits))
  | (k, x) :: rest, qubits, done => do
    let v ← x.toPlain
    if k.isQubit then
      let w ← checkQubits n v
      validateFrom n rest (qubits ++ w.indices) ((k, w) :: done)
    else match v with
      | .none => validateFrom n rest qubits ((k, .none) :: done)
      | v =>
        if k.isAngle then
          match ← checkAngles v with
          | none => .ok none
          | some w => validateFrom n rest qubits ((k, w) :: done)
        else validateFrom n rest qubits ((k, v) :: done)

/-- The operands as they are logged, or `none` when the call is no operation. -/
def validate (n : Nat) (operands : Operands α) : Outcome (Option (Operands α)) :=
  validateFrom n operands [] []

end QuantumCircuits
