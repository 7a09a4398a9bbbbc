import QuantumCircuits.Operand.Notation

/-!
# Framework — Foreign

Circuits of other frameworks.  What the library knows of such a circuit are the instructions it has
sent there and what the framework has said about it: a phase, a depth and a list of gates.
-/

/-! ### Kinds of circuit

The kinds of circuit, and the gates that frameworks have of their own.
-/

namespace QuantumCircuits

/-- The kinds of circuit. -/
inductive Framework where
  | reference | alternate
  | qiskit | cirq | pennylane | tket
deriving DecidableEq, Repr

namespace Framework

def className : Framework → String
  | .reference => "RefCircuit"
  | .alternate => "AltCircuit"
  | .qiskit => "QiskitCircuit"
  | .cirq => "CirqCircuit"
  | .pennylane => "PennylaneCircuit"
  | .tket => "TKETCircuit"

def all : List Framework := [.reference, .alternate, .qiskit, .cirq, .pennylane, .tket]

def ofName? (s : String) : Option Framework := all.find? fun f => f.className == s

def isReference : Framework → Bool
  | .reference | .alternate => true
  | _ => false

end Framework

/-- The gates that frameworks have of their own. -/
inductive Native where
  | i | x | y | z | h | s | sdg | t | tdg | rx | ry | rz | phase | u3
deriving DecidableEq, Repr

namespace Native

def name : Native → String
  | .i => "I"
  | .x => "X"
  | .y => "Y"
  | .z => "Z"
  | .h => "H"
  | .s => "S"
  | .sdg => "Sdg"
  | .t => "T"
  | .tdg => "Tdg"
  | .rx => "RX"
  | .ry => "RY"
  | .rz => "RZ"
  | .phase => "Phase"
  | .u3 => "U3"

def all : List Native :=
  [.i, .x, .y, .z, .h, .s, .sdg, .t, .tdg, .rx, .ry, .rz, .phase, .u3]

def ofName? (s : String) : Option Native := all.find? fun g => g.name == s

def angleCount : Native → Nat
  | .rx | .ry | .rz | .phase => 1
  | .u3 => 3
  | _ => 0

end Native

/-! ### Foreign -/

/-- An instruction for another framework. -/
inductive Instruction (α : Type) where
  | gate (g : Native) (angles : Operand α) (controls : List (Operand α)) (target : Operand α)
  | phase (angle : Operand α)
  | measure (qubits : List (Operand α))
  | reset (qubit : Operand α)
  /-- A unitary on the first qubits. -/
  | unitary (data : Tensor α) (numQubits : Nat)
  | saveUnitary
  | draw

/-- A gate that a framework has named. -/
structure ForeignGate (α : Type) where
  name : String
  params : List (Operand α)
  qubits : List (Operand α)
  /-- Further properties, by name. -/
  details : List (String × Operand α)

/-- A circuit of another framework. -/
structure Foreign (α : Type) where
  framework : Framework
  numQubits : Nat
  /-- The instructions that were sent. -/
  calls : Array (Instruction α)
  phase : Operand α
  depth : Operand α
  gates : List (ForeignGate α)

namespace Foreign

variable {α : Type} [Scalar α]

/-- What a framework's circuit starts with: some need an identity on every qubit to know of it. -/
def opening (f : Framework) (n : Nat) : List (Instruction α) :=
  match f with
  | .cirq => (List.range n).map fun (q : Nat) => .gate .i (.list []) [] (.int q)
  | _ => []

def empty (f : Framework) (n : Nat) : Foreign α := ⟨f, n, (opening f n).toArray, .int 0, .int 0, []⟩

def push (c : Foreign α) (i : Instruction α) : Foreign α := { c with calls := c.calls.push i }

end Foreign

/-! ### Term

How circuits of other frameworks are written down.  A value that is only passed on is a term: a bare
name, a call, or a call of something that is a term itself.  Each framework has its own way to say an
instruction: gates by name, gates by their matrix, angles in radians or in half turns.
-/

variable {α : Type} [Scalar α]

open Scalar

namespace Datum

def named (s : String) : Datum α := .record [("name", .text s)]

def callFields (s : String) (args : List (Datum α)) (options : List (String × Datum α)) :
    List (String × Datum α) :=
  [("call", .text s)] ++ (if args.isEmpty then [] else [("args", .list args)])
    ++ (if options.isEmpty then [] else [("kwargs", .record options)])

def call (s : String) (args : List (Datum α)) (options : List (String × Datum α)) : Datum α :=
  .record (callFields s args options)

def callOn (term : Datum α) (s : String) (args : List (Datum α)) : Datum α :=
  .record (callFields s args [] ++ [("of", term)])

end Datum

namespace Instruction

def angleAt (angles : Operand α) (i : Nat) : Operand α := (angles.item i).toOption.getD .none

def realAngle (angles : Operand α) (i : Nat) : α := (angleAt angles i).toReal?.getD 0.0

def halfTurns (angles : Operand α) (i : Nat) : Datum α := .real (realAngle angles i / pi)

def angleOptions (angles : Operand α) (names : List String) : List (String × Datum α) :=
  names.zipIdx.map fun (s, i) => (s, .real (realAngle angles i))

def phaseOf (t : Operand α) : α := t.toReal?.getD 0.0

/-! ### Gates and angles in one call -/

def qiskitGate (g : Native) (angles : Operand α) : Datum α :=
  match g with
  | .u3 => .call "U3Gate" [] (angleOptions angles ["theta", "phi", "lam"])
  | _ => .call (g.name ++ "Gate") ((List.range g.angleCount).map fun i => (angleAt angles i).toDatum) []

def qiskitCalls : Instruction α → List (Datum α)
  | .gate g angles controls t =>
    let term := qiskitGate g angles
    let term := if controls.isEmpty then term else term.callOn "control" [.nat controls.length]
    [.call "append" [term, .list ((controls ++ [t]).map Operand.toDatum)] []]
  | .phase _ => []
  | .measure qs =>
    let qs := .list (qs.map Operand.toDatum)
    [.call "measure" [qs, qs] []]
  | .reset q => [.call "reset" [q.toDatum] []]
  | .unitary data n => [.call "unitary" [data.toDatum, .list ((List.range n).map .nat)] []]
  | .saveUnitary => [.call "save_unitary" [] []]
  | .draw => [.call "draw" [] [("output", .text "mpl")]]

/-! ### Gates applied to qubit objects -/

def cirqQubit (q : Operand α) : Datum α := .record [("qubit", q.toDatum)]

def cirqU3 (angles : Operand α) : Datum α :=
  .record [("U3", angles.toRealDatum), ("num_qubits", .int 1),
    ("unitary", (Mat.u3 (realAngle angles 0) (realAngle angles 1) (realAngle angles 2)).toDatum),
    ("diagram", .text "U3")]

def cirqGate (g : Native) (angles : Operand α) : Datum α :=
  let rads := angleOptions angles ["rads"]
  match g with
  | .sdg => (Datum.named "S").callOn "**" [.int (-1)]
  | .tdg => (Datum.named "T").callOn "**" [.int (-1)]
  | .rx => .call "Rx" [] rads
  | .ry => .call "Ry" [] rads
  | .rz => .call "Rz" [] rads
  | .phase => .call "ZPowGate" [] [("exponent", halfTurns angles 0)]
  | .u3 => cirqU3 angles
  | g => .named g.name

def cirqApply (gate : Datum α) (qubits : List (Operand α)) : Datum α :=
  let qubits := qubits.map cirqQubit
  match gate with
  | .record [("name", .text s)] => .call s qubits []
  | gate => gate.callOn "()" qubits

def cirqCalls (i : Instruction α) : List (Datum α) :=
  let append (term : Datum α) : List (Datum α) := [.call "append" [term] []]
  match i with
  | .gate g angles [] t => append (cirqApply (cirqGate g angles) [t])
  | .gate g angles controls t =>
    let gate := .call "ControlledGate" []
      [("sub_gate", cirqGate g angles), ("num_controls", .nat controls.length)]
    append (cirqApply gate (controls ++ [t]))
  | .phase t =>
    let x := phaseOf t
    append ((Datum.call "GlobalPhaseGate" [.ofCplx ⟨cos x, sin x⟩] []).callOn "()" [])
  | .measure qs => qs.flatMap fun q =>
    append (.call "measure" [cirqQubit q] [("key", .text ("q" ++ toString (q.toInt?.getD 0)))])
  | .reset q => append ((Datum.call "ResetChannel" [] []).callOn "()" [cirqQubit q])
  | _ => []

/-! ### Gates by their matrix -/

/-- The gate whose matrix is taken; constants stand on the first wire. -/
def pennylaneGate (g : Native) (angles : Operand α) : Datum α :=
  let wire := ("wires", Datum.int 0)
  let turn (s : String) : Datum α := .call s [] (angleOptions angles ["phi"] ++ [wire])
  match g with
  | .i => .call "Identity" [.int 0] []
  | .x => .call "PauliX" [.int 0] []
  | .y => .call "PauliY" [.int 0] []
  | .z => .call "PauliZ" [.int 0] []
  | .h => .call "Hadamard" [] [wire]
  | .s => .call "S" [] [wire]
  | .t => .call "T" [] [wire]
  | .sdg => .call "adjoint" [.call "S" [.int 0] []] []
  | .tdg => .call "adjoint" [.call "T" [.int 0] []] []
  | .rx => turn "RX"
  | .ry => turn "RY"
  | .rz => turn "RZ"
  | .phase => turn "PhaseShift"
  | .u3 => .call "U3" [] (angleOptions angles ["theta", "phi", "delta"] ++ [wire])

def pennylaneCalls : Instruction α → List (Datum α)
  | .gate g angles controls t =>
    let matrix := (pennylaneGate g angles).callOn "matrix" []
    if controls.isEmpty then [.call "QubitUnitary" [matrix] [("wires", t.toDatum)]]
    else [.call "ControlledQubitUnitary" [matrix]
      [("control_wires", .list (controls.map Operand.toDatum)), ("wires", t.toDatum)]]
  | .phase t => [.record [("GlobalPhase", .real (-(phaseOf t)))]]
  | .measure qs => qs.map fun q => .list [.record [("measure", q.toDatum)], .bool false]
  | .reset q => [.list [.record [("measure", q.toDatum)], .bool true]]
  | _ => []

def pennylaneQueue : Instruction α → List (Datum α)
  | .measure qs => qs.map fun q => .call "measure" [q.toDatum] [("reset", .bool false)]
  | .reset q => [.call "measure" [q.toDatum] [("reset", .bool true)]]
  | i => i.pennylaneCalls.map fun term => .call "apply" [term] []

/-! ### Gates by kind, angles in half turns -/

def tketName : Native → String
  | .i => "noop"
  | .rx => "Rx"
  | .ry => "Ry"
  | .rz => "Rz"
  | .phase => "U1"
  | g => g.name

def tketGate (g : Native) (angles : Operand α) : List (Datum α) :=
  .named ("OpType." ++ tketName g) :: match g with
    | .u3 => [.list ((List.range 3).map (halfTurns angles))]
    | _ => (List.range g.angleCount).map (halfTurns angles)

def tketCalls : Instruction α → List (Datum α)
  | .gate g angles [] t => [.call "add_gate" (tketGate g angles ++ [.list [t.toDatum]]) []]
  | .gate g angles controls t =>
    let box := .call "QControlBox" [.call "Op.create" (tketGate g angles) [], .nat controls.length] []
    [.call "add_qcontrolbox" [box, .list ((controls ++ [t]).map Operand.toDatum)] []]
  | .phase t => [.call "add_phase" [.real (phaseOf t / pi)] []]
  | .measure qs => qs.map fun q => .call "Measure" [q.toDatum, q.toDatum] []
  | .reset q => [.call "Reset" [q.toDatum] []]
  | _ => []

def calls (f : Framework) (i : Instruction α) : List (Datum α) :=
  match f with
  | .qiskit => i.qiskitCalls
  | .cirq => i.cirqCalls
  | .pennylane => i.pennylaneCalls
  | .tket => i.tketCalls
  | _ => []

end Instruction

def ForeignGate.toDatum (mark : String) (g : ForeignGate α) : Datum α :=
  .list [.text (mark ++ g.name), .list (g.params.map Operand.toDatum),
    .list (g.qubits.map Operand.toDatum)]

namespace Foreign

def toDatum (c : Foreign α) : Datum α :=
  let calls := .list (c.calls.toList.flatMap (Instruction.calls c.framework))
  let size := ("num_qubits", Datum.nat c.numQubits)
  let phase := Datum.real (c.phase.toReal?.getD 0.0)
  match c.framework with
  | .qiskit => .record [size, ("calls", calls), ("global_phase", phase),
      ("data", .list (c.gates.map (ForeignGate.toDatum "")))]
  | .tket => .record [size, ("calls", calls), ("phase", phase),
      ("data", .list (c.gates.map (ForeignGate.toDatum "OpType.")))]
  | .cirq => .record [("calls", calls)]
  | _ => calls

end Foreign

end QuantumCircuits
