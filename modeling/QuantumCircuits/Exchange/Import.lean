import QuantumCircuits.Exchange.Basic
import QuantumCircuits.Synthesis.Shannon

/-!
# Exchange — Import

Circuits of other frameworks as circuits of this library.  The framework first reduces the circuit to
two kinds of gates; `Import.extract` reads those as entries of a log, and performing the entries
builds the circuit.
-/

namespace QuantumCircuits

variable {α : Type} [Scalar α]

open Scalar

namespace Import

/-- The frameworks that circuits can be taken from. -/
inductive Source where
  | qiskit | cirq | tket
deriving DecidableEq, Repr

def entry (g : Gate) (operands : Operands α) : Entry α := ⟨some (.known g), operands, 0, .lost⟩

def qubit (g : ForeignGate α) (i : Nat) : Outcome (Operand α) :=
  match g.qubits[i]? with
  | some q => .ok q
  | none => .error (.unfit .index)

def controlled (base : Base) (g : ForeignGate α) : Outcome (List (Entry α)) := do
  .ok [entry (.of base .controlled) [(.controlIndex, ← qubit g 0), (.targetIndex, ← qubit g 1)]]

def oneQubit (g : ForeignGate α) (angles : List (Operand α)) : Outcome (List (Entry α)) := do
  .ok [entry (.of .u3 .plain) [(.qubitIndices, ← qubit g 0), (.angles, .list angles)]]

def rotation (base : Base) (q : Operand α) (t : α) : Entry α :=
  entry (.of base .plain) [(.qubitIndices, q), (.angle, .real t)]

/-- Entries of a gate whose angles are in radians; resets and barriers are passed over. -/
def ofQiskit (g : ForeignGate α) : Outcome (List (Entry α)) :=
  match g.name with
  | "barrier" | "reset" => .ok []
  | "cx" => controlled .x g
  | "u3" | "u" => oneQubit g g.params
  | "measure" => .ok [entry .measure [(.qubitIndices, .list g.qubits)]]
  | _ => .error (.unfit .key)

def property (g : ForeignGate α) (k : String) : Outcome α :=
  match g.details.lookup k with
  | some x => x.toReal
  | none => .error (.unfit .key)

/-- Entries of a rotation about an axis of the equator, followed by one about the pole: turn the axis
away, rotate, turn the axis back and on. -/
def ofPhasedRotation (g : ForeignGate α) : Outcome (List (Entry α)) := do
  let axis ← property g "axis_phase_exponent"
  let q ← qubit g 0
  let x ← property g "x_exponent"
  let z ← property g "z_exponent"
  .ok [rotation .rz q (-axis * pi), rotation .rx q (x * pi), rotation .rz q ((axis + z) * pi),
    entry .globalPhase [(.angle, .real ((x + z) * (pi / 2.0)))]]

def ofCirq (g : ForeignGate α) : Outcome (List (Entry α)) :=
  match g.name with
  | "CZPowGate" => controlled .z g
  | "PhasedXZGate" => ofPhasedRotation g
  | "MeasurementGate" => .ok [entry .measure [(.qubitIndices, .list g.qubits)]]
  | _ => .error (.unfit .key)

def ofTket (g : ForeignGate α) : Outcome (List (Entry α)) :=
  match g.name with
  | "U3" => do
    let q ← qubit g 0
    let angles ← g.params.mapM fun x => do .ok (Operand.real ((← x.toReal) * pi))
    .ok [entry (.of .u3 .plain) [(.qubitIndices, q), (.angles, .list angles)]]
  | "CX" => controlled .x g
  | "Measure" => do .ok [entry .measure [(.qubitIndices, ← qubit g 0)]]
  | _ => .error (.unfit .key)

def ofGate : Source → ForeignGate α → Outcome (List (Entry α))
  | .qiskit => ofQiskit
  | .cirq => ofCirq
  | .tket => ofTket

def extract (s : Source) (c : Foreign α) : Outcome (List (Entry α)) := do
  .ok (← c.gates.mapM (ofGate s)).flatten

def phase? (s : Source) (c : Foreign α) : Outcome (Option (Operand α)) :=
  match s with
  | .qiskit => .ok (some c.phase)
  | .cirq => .ok none
  | .tket => do .ok (some (.real ((← c.phase.toReal) * pi)))

def build (s : Source) (blank : Circuit α) (c : Foreign α) : Outcome (Circuit α) := do
  let entries ← extract s c
  blank.after (do
    entries.forM fun e => Circuit.applyNamed e.gate e.operands
    match ← Change.ofOutcome (phase? s c) with
    | some t => Circuit.apply .globalPhase [(.angle, t)]
    | none => pure ())

def basis : Datum α := .list [.text "u3", .text "cx"]

def reduce (s : Source) (c : Foreign α) : Change (Exchange α) (Foreign α) := do
  match s with
  | .qiskit =>
    let reply ← Exchange.ask "transpile"
      [("circuit", c.toDatum), ("options", .record [("basis_gates", basis)])]
    Change.ofOutcome (Exchange.circuit c reply)
  | .cirq =>
    let reply ← Exchange.ask "optimize_for_target_gateset" [("gateset", .call "CZTargetGateset" [] [])]
    Change.ofOutcome (Exchange.circuit c reply)
  | .tket =>
    let reply ← Exchange.ask "AutoRebase"
      [("args", .list [.list [.text "OpType.CX", .text "OpType.U3"]]), ("circuit", c.toDatum)]
    Change.ofOutcome (Exchange.revise c reply)

/-- The circuit of the output framework, and the source as reducing it has left it. -/
def fromReduced (s : Source) (output : Framework) (c : Foreign α) :
    Change (Exchange α) (Foreign α × Outcome (Circuit α)) := do
  let blank ← Change.ofOutcome (Circuit.new output (.int c.numQubits))
  let reduced ← reduce s c
  pure (reduced, build s blank reduced)

/-- The circuit of the output framework that a circuit of another framework is. -/
def fromForeign (s : Source) (output : Framework) (c : Foreign α) :
    Change (Exchange α) (Circuit α) := do
  let (_, out) ← fromReduced s output c
  Change.ofOutcome out

/-- The circuit of the output framework that a program describes. -/
def fromProgram (output : Framework) (text : Datum α) : Change (Exchange α) (Circuit α) := do
  let reply ← Exchange.ask "from_qasm_str" [("text", text)]
  let c ← Change.ofOutcome (Exchange.circuit (Foreign.empty .qiskit 0) reply)
  fromForeign .qiskit output c

end Import

/-! ### Optimizing

Optimizing a circuit in another framework and taking the result back.  `Dialogue.transpile` puts the
result in the circuit's place: the log and the operations are exchanged, and what the circuit
remembers besides them stays.
-/

/-- The ways to optimize a circuit outside. -/
inductive Optimization where
  /-- Blocks of two qubits are collected and synthesized again. -/
  | blocks
  /-- Parts of the circuit are replaced by equal ones, in place. -/
  | badger
deriving DecidableEq, Repr

namespace Dialogue

variable {α : Type} [Scalar α]

/-- The circuit in a given framework: the circuit itself, or a converted one. -/
def inFramework (f : Framework) : Change (Dialogue α) (Circuit α) := do
  let c := (← get).circuit
  if c.framework = f then pure c else onCircuit (Circuit.convert f)

def contentOf (c : Circuit α) : Change (Dialogue α) (Foreign α) :=
  match c.sink.content with
  | .foreign f => pure f
  | .primitives _ => Change.fail (.unfit .type)

def blockPasses : Datum α :=
  .list [.call "Collect2qBlocks" [] [], .call "ConsolidateBlocks" [] [("basis_gates", Import.basis)],
    .call "UnitarySynthesis" [Import.basis] []]

def optimizeBlocks : Change (Dialogue α) (Circuit α) := do
  let output := (← get).circuit.framework
  let sent ← contentOf (← inFramework .qiskit)
  let reply ← ask "pass_manager_run" [("passes", blockPasses), ("circuit", sent.toDatum)]
  let c ← Change.ofOutcome (Exchange.circuit sent reply)
  onExchange (Import.fromForeign .qiskit output c)

/-- A circuit of the framework that was optimized in place has changed. -/
def keepContent (c : Foreign α) : Change (Dialogue α) Unit :=
  modify fun d =>
    if d.circuit.framework = c.framework then
      { d with circuit := { d.circuit with sink := { d.circuit.sink with content := .foreign c } } }
    else d

def optimizeInPlace : Change (Dialogue α) (Circuit α) := do
  let output := (← get).circuit.framework
  let sent ← contentOf (← inFramework .tket)
  let reply ← ask "badger_pass" [("args", .list []), ("circuit", sent.toDatum)]
  let revised ← Change.ofOutcome (Exchange.revise sent reply)
  keepContent revised
  let (reduced, out) ← onExchange (Import.fromReduced .tket output revised)
  keepContent reduced
  Change.ofOutcome out

def optimize : Optimization → Change (Dialogue α) (Circuit α)
  | .blocks => optimizeBlocks
  | .badger => optimizeInPlace

/-- Puts another circuit's log and operations in the place of the circuit's. -/
def replaceBy (built : Circuit α) : Change (Dialogue α) Unit :=
  modify fun d => { d with circuit := d.circuit.exchanged built }

def transpile : Change (Dialogue α) Unit := do
  replaceBy (← optimizeBlocks)

def depth : Change (Dialogue α) Nat := onCopy (do
  transpile
  Change.ofOutcome (View.ask (← get).circuit Dag.Circuit.depth))

def tensorNetwork : Change (Dialogue α) (Datum α) := do
  let n := (← get).circuit.numQubits
  onCopy (do
    transpile
    if (← get).circuit.log.isEmpty then pure (.call "Circuit" [] [("N", .nat n)])
    else Change.fail (.unfit .key))

end Dialogue

end QuantumCircuits
