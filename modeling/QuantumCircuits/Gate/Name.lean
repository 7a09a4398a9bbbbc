/-!
# Gate — Name

The gates a circuit can be asked for.  Most of them come in three forms, plain, controlled and
multi-controlled, so `Gate` is built from a `Base` gate and its `Reach`; `Gate.signature` lists the
operands of a call in order.
-/

/-! ### Names of operands

The names under which a gate call takes its operands.  `Key.isQubit` holds of the names of qubit
operands and `Key.isAngle` of the names of angles; these are the operands that are checked.
-/

namespace QuantumCircuits

/-- The name of an operand. -/
inductive Key where
  | qubitIndex | qubitIndices
  | controlIndex | controlIndices
  | targetIndex | targetIndices
  | firstQubit | secondQubit
  | firstTarget | secondTarget
  | angle | angles | power | globalShift
  | controlState
  /-- The entries that a diagonal gate is given. -/
  | diagonalEntries
  /-- The diagonal that a reversal conjugates. -/
  | diagonal
  /-- The matrices that a reversal conjugates. -/
  | gates
  | rotationAxis
  | other (name : String)
deriving Inhabited, DecidableEq, Repr

namespace Key

def text : Key → String
  | .qubitIndex => "qubit_index"
  | .qubitIndices => "qubit_indices"
  | .controlIndex => "control_index"
  | .controlIndices => "control_indices"
  | .targetIndex => "target_index"
  | .targetIndices => "target_indices"
  | .firstQubit => "first_qubit_index"
  | .secondQubit => "second_qubit_index"
  | .firstTarget => "first_target_index"
  | .secondTarget => "second_target_index"
  | .angle => "angle"
  | .angles => "angles"
  | .power => "power"
  | .globalShift => "global_shift"
  | .controlState => "control_state"
  | .diagonalEntries => "diagnoal"
  | .diagonal => "diagonal"
  | .gates => "gates"
  | .rotationAxis => "rotation_axis"
  | .other s => s

def known : List Key :=
  [.qubitIndex, .qubitIndices, .controlIndex, .controlIndices, .targetIndex, .targetIndices,
    .firstQubit, .secondQubit, .firstTarget, .secondTarget, .angle, .angles, .power, .globalShift,
    .controlState, .diagonalEntries, .diagonal, .gates, .rotationAxis]

def ofText (s : String) : Key := (known.find? fun k => k.text == s).getD (.other s)

def isQubit : Key → Bool
  | .qubitIndex | .qubitIndices | .controlIndex | .controlIndices | .targetIndex | .targetIndices
  | .firstQubit | .secondQubit | .firstTarget | .secondTarget => true
  | _ => false

def isAngle : Key → Bool
  | .angle | .angles => true
  | _ => false

/-- The name that an operand gets when its gate is put under control. -/
def underControl? : Key → Option Key
  | .qubitIndices | .targetIndex | .targetIndices => some .targetIndices
  | .controlIndex | .controlIndices => some .controlIndices
  | .firstQubit | .firstTarget => some .firstTarget
  | .secondQubit | .secondTarget => some .secondTarget
  | _ => none

end Key

/-! ### Name -/

/-- An axis of rotation. -/
inductive Axis where
  | x | y | z
deriving Inhabited, DecidableEq, Repr

/-- The gates that come plain, controlled and multi-controlled. -/
inductive Base where
  | x | y | z | h | s | sdg | t | tdg
  | rx | ry | rz | phase
  | xPow | yPow | zPow
  | u3
  | rxx | ryy | rzz | swap
deriving Inhabited, DecidableEq, Repr

/-- How a base gate is controlled: not at all, by one qubit, or by a list of qubits. -/
inductive Reach where
  | plain | controlled | multi
deriving Inhabited, DecidableEq, Repr

/-- The gates. -/
inductive Gate where
  | identity
  | of (b : Base) (r : Reach)
  /-- A rotation by the angle that the control qubits select. -/
  | ucr (a : Axis)
  /-- The same, about an axis that is an operand. -/
  | pauliMultiplexor
  | diagonal
  | globalPhase
  | measure
  | reset
  /-- A gate composed by a user. -/
  | custom
deriving Inhabited, DecidableEq, Repr

def Axis.text : Axis → String
  | .x => "X"
  | .y => "Y"
  | .z => "Z"

namespace Base

def name : Base → String
  | .x => "X"
  | .y => "Y"
  | .z => "Z"
  | .h => "H"
  | .s => "S"
  | .sdg => "Sdg"
  | .t => "T"
  | .tdg => "Tdg"
  | .rx => "RX"
  | .ry => "RY"
  | .rz => "RZ"
  | .phase => "Phase"
  | .xPow => "XPow"
  | .yPow => "YPow"
  | .zPow => "ZPow"
  | .u3 => "U3"
  | .rxx => "RXX"
  | .ryy => "RYY"
  | .rzz => "RZZ"
  | .swap => "SWAP"

def all : List Base :=
  [.x, .y, .z, .h, .s, .sdg, .t, .tdg, .rx, .ry, .rz, .phase, .xPow, .yPow, .zPow, .u3, .rxx, .ryy,
    .rzz, .swap]

def onTwo : Base → Bool
  | .rxx | .ryy | .rzz | .swap => true
  | _ => false

def parameters : Base → List Key
  | .rx | .ry | .rz | .phase | .rxx | .ryy | .rzz => [.angle]
  | .xPow | .yPow | .zPow => [.power, .globalShift]
  | .u3 => [.angles]
  | _ => []

/-- The gate that undoes it, for the fixed gates that are not their own inverses. -/
def flip? : Base → Option Base
  | .s => some .sdg
  | .sdg => some .s
  | .t => some .tdg
  | .tdg => some .t
  | _ => none

def isInvolution : Base → Bool
  | .x | .y | .z | .h | .swap => true
  | _ => false

end Base

namespace Reach

def mark : Reach → String
  | .plain => ""
  | .controlled => "C"
  | .multi => "MC"

def all : List Reach := [.plain, .controlled, .multi]

end Reach

namespace Gate

def name : Gate → String
  | .identity => "Identity"
  | .of b r => r.mark ++ b.name
  | .ucr a => "UCR" ++ a.text
  | .pauliMultiplexor => "PauliMultiplexor"
  | .diagonal => "Diagonal"
  | .globalPhase => "GlobalPhase"
  | .measure => "measure"
  | .reset => "reset_qubit"
  | .custom => "custom_gate"

def all : List Gate :=
  [.identity, .ucr .x, .ucr .y, .ucr .z, .pauliMultiplexor, .diagonal, .globalPhase, .measure,
    .reset, .custom] ++ Base.all.flatMap fun b => Reach.all.map (.of b)

def ofName? (s : String) : Option Gate := all.find? fun g => g.name == s

def signature : Gate → List Key
  | .identity | .measure | .reset | .custom => [.qubitIndices]
  | .of b r =>
    b.parameters ++ match r, b.onTwo with
      | .plain, false => [.qubitIndices]
      | .plain, true => [.firstQubit, .secondQubit]
      | .controlled, false => [.controlIndex, .targetIndex, .controlState]
      | .controlled, true => [.controlIndex, .firstTarget, .secondTarget, .controlState]
      | .multi, false => [.controlIndices, .targetIndices, .controlState]
      | .multi, true => [.controlIndices, .firstTarget, .secondTarget, .controlState]
  | .ucr _ => [.angles, .controlIndices, .targetIndex, .controlState]
  | .pauliMultiplexor => [.angles, .rotationAxis, .controlIndices, .targetIndex]
  | .diagonal => [.diagonalEntries, .qubitIndices]
  | .globalPhase => [.angle]

/-- Gates that leave no entry of their own in the log: they only stand for other gates. -/
def isTransparent : Gate → Bool
  | .pauliMultiplexor => true
  | .of b .controlled => b.onTwo
  | _ => false

/-- The name of the gate under control: one mark more, until the gate is multi-controlled. -/
def nameUnderControl (s : String) : Option String :=
  match s.toList with
  | [] => none
  | 'C' :: _ => some ("M" ++ s)
  | 'M' :: _ => some s
  | _ => some ("MC" ++ s)

end Gate

end QuantumCircuits
