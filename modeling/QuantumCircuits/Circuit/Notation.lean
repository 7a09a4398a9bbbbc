import QuantumCircuits.Dag.Circuit

/-!
# Circuit — Notation

Circuits, their logs and their dependency graphs as plain data.  A `View` is one of the ways to look
at a circuit; looking changes nothing.
-/

namespace QuantumCircuits

variable {α : Type} [Scalar α]

def Key.isReal : Key → Bool
  | .angle | .angles | .power | .globalShift => true
  | _ => false

namespace Entry

def operandDatum (k : Key) (x : Operand α) : Datum α :=
  if k.isReal then x.toRealDatum else x.toDatum

mutual

def toDatum (deep : Bool) : Entry α → Datum α
  | ⟨gate, operands, _, definition⟩ =>
    .record (operands.map (fun p => (p.1.text, operandDatum p.1 p.2))
      ++ (gate.map fun g => ("gate", .text g.text)).toList ++ definitionField deep definition)

def definitionField (deep : Bool) : Definition (Entry α) → List (String × Datum α)
  | .lost => []
  | .null => if deep then [("definition", .null)] else []
  | .entries es => if deep then [("definition", .list (toData deep es))] else []

def toData (deep : Bool) : List (Entry α) → List (Datum α)
  | [] => []
  | e :: es => toDatum deep e :: toData deep es

end

mutual

/-- The numbers of an entry that are written as real ones are not too large for that. -/
def checkReals (deep : Bool) : Entry α → Outcome Unit
  | ⟨_, operands, _, definition⟩ => do
    (operands.filter fun p => p.1.isReal).forM fun p => p.2.checkReals
    checkDefinition deep definition

def checkDefinition (deep : Bool) : Definition (Entry α) → Outcome Unit
  | .entries es => if deep then checkAllReals deep es else .ok ()
  | _ => .ok ()

def checkAllReals (deep : Bool) : List (Entry α) → Outcome Unit
  | [] => .ok ()
  | e :: es => do
    checkReals deep e
    checkAllReals deep es

end

def listing (deep : Bool) (es : List (Entry α)) : Outcome (Datum α) := do
  checkAllReals deep es
  .ok (.list (toData deep es))

def wires (e : Entry α) : Outcome (Datum α) := do
  let name ← e.name
  .ok (.list (.text name :: e.operands.filterMap fun (k, x) =>
    if k.text.endsWith "_index" || k.text.endsWith "_indices" then some x.toDatum else none))

end Entry

def Primitive.toDatum : Primitive α → Datum α
  | .u3 t p l q => .list [.text "U3", .real t, .real p, .real l, .nat q]
  | .cx c t => .list [.text "CX", .nat c, .nat t]
  | .phase t => .list [.text "P", .real t]
  | .measure q => .list [.text "M", .nat q]
  | .reset q => .list [.text "R", .nat q]

def Amplitudes.toDatum (v : Amplitudes α) : Datum α := (Tensor.vector v).toDatum

namespace Dag

def pathDatum (path : List (Option String)) : Datum α := .list (path.map .ofText?)

def overviewDatum (xs : List (String × Nat × List (List (Option String)))) : Datum α :=
  .record (xs.map fun (name, depth, paths) =>
    (name, .record [("depth", .nat depth), ("paths", .list (paths.map pathDatum))]))

end Dag

def BitOrder.text : BitOrder → String
  | .msb => "MSB"
  | .lsb => "LSB"

def GateMatrix.toDatum (g : GateMatrix α) : Datum α :=
  .record [("name", .text g.label.text), ("matrix", g.matrix.toDatum),
    ("num_qubits", .nat g.numQubits), ("ordering", .text g.ordering.text)]

/-- A way to look at a circuit. -/
inductive View where
  | log | tree | names | wires | shape | primitives | controlled
  | unitary | stateVector | unitaryRay | stateVectorRay
  | measured | text | repr | length | dag | dagDepth | dagText | foreign
deriving DecidableEq, Repr

namespace View

def all : List (String × View) :=
  [("log", .log), ("tree", .tree), ("names", .names), ("wires", .wires), ("shape", .shape),
    ("prims", .primitives), ("cx", .controlled), ("unitary_of", .unitary),
    ("statevector", .stateVector), ("unitary_ray", .unitaryRay),
    ("statevector_ray", .stateVectorRay), ("measured", .measured), ("str", .text), ("repr", .repr),
    ("len", .length), ("dag", .dag), ("dag_depth", .dagDepth), ("dag_repr", .dagText),
    ("foreign", .foreign)]

def acting (c : Circuit α) : List (Entry α) := c.log.toList.filter fun e => !(e.isGate .globalPhase)

def ask {β : Type} (c : Circuit α) (x : Change Dag.Circuit β) : Outcome β := do
  (Change.perform x (← c.dag)).1

def render (v : View) (c : Circuit α) : Outcome (Datum α) :=
  match v with
  | .log => Entry.listing false c.log.toList
  | .tree => Entry.listing true c.log.toList
  | .names => do .ok (.list ((← c.names).map .text))
  | .wires => do .ok (.list (← c.log.toList.mapM Entry.wires))
  | .shape => do .ok (.list (← (acting c).mapM Entry.wires))
  | .primitives => .ok (.list (c.primitives.toList.map Primitive.toDatum))
  | .controlled => .ok (.list (c.primitives.toList.filterMap fun
      | .cx a b => some (.list [.nat a, .nat b])
      | _ => none))
  | .unitary => .ok c.unitary.toDatum
  | .stateVector => .ok (Amplitudes.toDatum c.stateVector)
  | .unitaryRay =>
    let u := c.unitary
    .ok (Mat.toDatum { u with entries := Amplitudes.ray u.entries })
  | .stateVectorRay => .ok (Amplitudes.toDatum c.stateVector.ray)
  | .measured => .ok (.list ((Sink.sortIndices c.sink.measured).map Operand.toDatum))
  | .text => .ok (.text c.text)
  | .repr => .ok (.text c.repr)
  | .length => .ok (.nat c.log.size)
  | .dag => do .ok (Dag.overviewDatum (← ask c Dag.Circuit.overview))
  | .dagDepth => do .ok (.nat (← ask c Dag.Circuit.depth))
  | .dagText => do .ok (.text (← (← c.dag).text))
  | .foreign => match c.sink.content with
    | .foreign f => .ok f.toDatum
    | .primitives ps => .ok (.list (ps.toList.map Primitive.toDatum))

end View

end QuantumCircuits
