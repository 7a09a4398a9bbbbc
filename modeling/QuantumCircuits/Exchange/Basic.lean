import QuantumCircuits.Circuit.Notation

/-!
# Exchange — Basic

Talking to other frameworks.  The library computes what it can by itself and asks a framework for
the rest: a request has a name and details, and the replies come in the order of the requests.
`Exchange.ask` is the one place that asks; when no reply is left, it faults.  A `Dialogue` is an
exchange about a circuit.
-/

namespace QuantumCircuits

/-- What was asked and printed, and the replies that are left. -/
structure Exchange (α : Type) where
  replies : List (Datum α)
  /-- The requests, as they were at the moment of asking. -/
  asked : Array (Datum α)
  printed : String

/-- An exchange about a circuit. -/
structure Dialogue (α : Type) where
  exchange : Exchange α
  circuit : Circuit α

variable {α : Type} [Scalar α]

namespace Exchange

def ask (name : String) (details : List (String × Datum α)) : Change (Exchange α) (Datum α) := do
  let x ← get
  let asked := x.asked.push (.list [.text name, .record details])
  match x.replies with
  | [] =>
    set { x with asked }
    Change.fail (.unfit .noReply)
  | reply :: replies =>
    set { x with asked, replies }
    pure reply

def printLine (s : String) : Change (Exchange α) Unit :=
  modify fun x => { x with printed := x.printed ++ s ++ "\n" }

def value (reply : Datum α) : Outcome (Operand α) :=
  Operand.ofDatum (fun _ => .error (.unfit .name)) reply

def array (reply : Datum α) : Outcome (Operand α) := do
  let x ← value reply
  match Grid.tensor? x with
  | some t => .ok (.array t)
  | none => .ok x

/-- A gate in a reply: its name, parameters and qubits, or its name, qubits and properties. -/
def gate (d : Datum α) : Outcome (ForeignGate α) := do
  match d.items with
  | [name, .list xs, .list ys] =>
    .ok ⟨name.words, ← xs.mapM value, ← ys.mapM value, []⟩
  | [name, .list xs, .record fields] =>
    .ok ⟨name.words, [], ← xs.mapM value, ← fields.mapM fun (k, x) => do .ok (k, ← value x)⟩
  | _ => .error (.unfit .type)

def foreign (f : Framework) (d : Datum α) : Outcome (Foreign α) := do
  let phase := match d.field? "global_phase" with
    | some x => x
    | none => d.field "phase"
  .ok { framework := f
        numQubits := (d.field "num_qubits").whole.toNat
        calls := #[]
        phase := match phase with
          | .null => .int 0
          | x => (value x).toOption.getD (.int 0)
        depth := .int (d.field "depth").whole
        gates := ← (d.field "data").items.mapM gate }

/-- A reply that is a circuit, possibly the very one that was sent. -/
def circuit (sent : Foreign α) (reply : Datum α) : Outcome (Foreign α) :=
  match reply with
  | .record [("same", _)] => .ok sent
  | .record [("qiskit", d)] => foreign .qiskit d
  | .record [("cirq", d)] => foreign .cirq d
  | .record [("tket", d)] => foreign .tket d
  | _ => .error (.unfit .name)

/-- A circuit that was changed in place: its new content, or nothing if it stayed as it was. -/
def revise (sent : Foreign α) (reply : Datum α) : Outcome (Foreign α) :=
  match reply with
  | .record [("tket_content", .record fields)] => do
    let c ← foreign .tket (.record fields)
    .ok { sent with numQubits := c.numQubits, phase := c.phase, gates := c.gates }
  | _ => .ok sent

end Exchange

namespace Dialogue

def onExchange {β : Type} (x : Change (Exchange α) β) : Change (Dialogue α) β := fun d =>
  let (out, exchange) := Change.perform x d.exchange
  (out, { d with exchange })

def onCircuit {β : Type} (x : Change (Circuit α) β) : Change (Dialogue α) β := fun d =>
  let (out, circuit) := Change.perform x d.circuit
  (out, { d with circuit })

def onCopy {β : Type} (x : Change (Dialogue α) β) : Change (Dialogue α) β := fun d =>
  let (out, e) := Change.perform x d
  (out, { e with circuit := d.circuit })

def about {β : Type} (c : Circuit α) (x : Change (Dialogue α) β) : Change (Dialogue α) β :=
  onCopy (do
    modify fun d => { d with circuit := c }
    x)

def ask (name : String) (details : List (String × Datum α)) : Change (Dialogue α) (Datum α) :=
  onExchange (Exchange.ask name details)

def content : Change (Dialogue α) (Foreign α) := do
  match (← get).circuit.sink.content with
  | .foreign c => pure c
  | .primitives _ => Change.fail (.unfit .type)

/-- Makes a request about the circuit as its framework holds it. -/
def askAbout (name : String) (details : List (String × Datum α)) : Change (Dialogue α) (Datum α) := do
  ask name (("circuit", (← content).toDatum) :: details)

end Dialogue

end QuantumCircuits
