import QuantumCircuits.Exchange.Backend

/-!
# Exchange — Evaluate

States, operators and counts of circuits of other frameworks.  Some frameworks count qubits from the
other end, so they are asked about a copy with its qubits in reverse order.
-/

namespace QuantumCircuits.Dialogue

variable {α : Type} [Scalar α]

open Scalar

def reversed {β : Type} (x : Change (Dialogue α) β) : Change (Dialogue α) β := onCopy (do
  onCircuit Circuit.verticalReverse
  x)

def queue (is : List (Instruction α)) : Datum α := .list (is.flatMap Instruction.pennylaneQueue)

def firstNumbers (n : Nat) : Datum α := .list ((List.range n).map .nat)

/-- Runs the circuit as a function that ends with a measurement. -/
def runQueued (options : List (String × Datum α)) (returned : Datum α) :
    Change (Dialogue α) (Datum α) := do
  let c ← content
  ask "qnode" [("device", .text "default.qubit"),
    ("options", .record (("wires", .nat c.numQubits) :: options)),
    ("queue", queue c.calls.toList), ("returned", returned)]

def stateVector (backend : Option (Backend α)) : Change (Dialogue α) (Operand α) := do
  let c := (← get).circuit
  let answer (x : Change (Dialogue α) (Datum α)) : Change (Dialogue α) (Operand α) := do
    Change.ofOutcome (Exchange.array (← x))
  match backend, c.framework with
  | _, .reference | _, .alternate => pure (.array (.vector c.stateVector))
  | some b, .qiskit => b.stateVector
  | some b, _ => reversed b.stateVector
  | none, .qiskit => answer (askAbout "Statevector" [])
  | none, .cirq => answer (reversed (askAbout "final_state_vector"
      [("qubit_order", firstNumbers c.numQubits)]))
  | none, .tket => answer (reversed (askAbout "run_circuit.get_state" []))
  | none, .pennylane => answer (reversed (runQueued [] (.call "state" [] [])))

/-- The circuit does nothing that would make its wires known: it is empty or a mere phase. -/
def isWireless (is : List (Instruction α)) : Bool :=
  match is with
  | [] | [.phase _] => true
  | _ => false

/-- The queue from which a matrix is computed; wires that nothing happens on are made known. -/
def matrixQueue (n : Nat) (is : List (Instruction α)) : Datum α :=
  let identity (i : Nat) : Datum α := .call "apply" [.call "Identity" [] [("wires", .nat i)]] []
  .list ((queue is).items ++ if isWireless is then (List.range n).map identity else [])

def unitary : Change (Dialogue α) (Operand α) := do
  let c := (← get).circuit
  let answer (x : Change (Dialogue α) (Datum α)) : Change (Dialogue α) (Operand α) := do
    Change.ofOutcome (Exchange.array (← x))
  match c.framework with
  | .reference | .alternate => pure (.array (.ofMat c.unitary))
  | .qiskit => answer (askAbout "Operator" [])
  | .cirq => answer (reversed (askAbout "unitary" []))
  | .tket => answer (reversed (askAbout "get_unitary" []))
  | .pennylane => answer (reversed (do
      let sent ← content
      ask "matrix" [("queue", matrixQueue sent.numQubits sent.calls.toList),
        ("wire_order", firstNumbers c.numQubits)]))

def simulate (shots : Operand α) : Change (Dialogue α) (Counts α) := do
  let c := (← get).circuit
  let measured := c.sink.measured
  match c.framework with
  | .cirq =>
    let reply ← askAbout "multi_measurement_histogram" [("repetitions", shots.toDatum),
      ("keys", .list (c.sink.measurementKeys.map .text))]
    pure ((← Change.ofOutcome (Counts.ofHistogram reply)).fill measured.length)
  | .tket =>
    let reply ← askAbout "run_circuit.get_counts"
      [("options", .record [("n_shots", shots.toDatum), ("seed", .int 0)])]
    let counts ← Change.ofOutcome (Counts.ofHistogram reply)
    pure ((counts.restrict measured).complete measured.length)
  | _ =>
    let wires := .list ((Sink.sortIndices measured).map Operand.toDatum)
    let reply ← runQueued [("shots", shots.toDatum)]
      (.call "counts" [] [("wires", wires), ("all_outcomes", .bool true)])
    Change.ofOutcome (Counts.ofRecord reply)

/-- The simulator that circuits are run on if no backend is given. -/
def ownSimulator : Backend α := ⟨.simulator, .text "CPU", .qiskit, none, "", none, none⟩

/-- How often each outcome is measured; some qubit has to be measured. -/
def counts (shots : Operand α) (backend : Option (Backend α)) : Change (Dialogue α) (Counts α) := do
  let c := (← get).circuit
  if c.framework.isReference then Change.fail (.unfit .unsupported)
  if c.sink.measured.isEmpty then Change.fail .nothingMeasured
  match backend, c.framework with
  | none, .qiskit => onCopy (do
      transpile
      ownSimulator.sample shots)
  | none, _ => reversed (simulate shots)
  | some b, .qiskit => onCopy (b.counts (some shots))
  | some b, .tket => reversed (b.counts (some shots))
  | some b, .pennylane => do
    reversed (pure ())
    let _ ← b.counts (some shots)
    Change.fail (.unfit .unbound)
  | some _, _ => do
    reversed (pure ())
    Change.fail (.unfit .type)

def histogram (nonzeroOnly : Bool) : Change (Dialogue α) (Datum α) := do
  let counts ← counts Backend.usualShots none
  let bars := if nonzeroOnly then counts.filter fun (_, n) => n.truthy else counts
  pure (.record [("labels", .list (bars.map fun (s, _) => .text s)),
    ("heights", .list (bars.map fun (_, n) => n.toRealDatum)),
    ("widths", .list (bars.map fun _ => .real 0.5)), ("title", .text "Histogram of the Circuit"),
    ("x", .text "State"), ("y", .text "Counts")])

/-- The circuit as a program in an assembly language, of which there are two versions. -/
def assembly (version : Operand α) : Change (Dialogue α) (Operand α) := do
  if (← get).circuit.framework.isReference then Change.fail (.unfit .unsupported)
  let sent ← contentOf (← inFramework .qiskit)
  let write (name : String) : Change (Dialogue α) (Operand α) := do
    Change.ofOutcome (Exchange.value (← ask name [("circuit", sent.toDatum)]))
  match version.toReal? with
  | some v =>
    if eq v 2.0 then write "qasm2.dumps"
    else if eq v 3.0 then write "qasm3.dumps"
    else Change.fail .qasmVersion
  | none => Change.fail .qasmVersion

def draw : Change (Dialogue α) Unit := do
  match (← get).circuit.framework with
  | .reference | .alternate => Change.fail (.unfit .unsupported)
  | .qiskit => onCircuit (Circuit.emitting (Sink.send .draw))
  | _ => pure ()

end QuantumCircuits.Dialogue
