import QuantumCircuits.Exchange.Synthesis

/-!
# Session — Basic

Working with several circuits at once.  A session gives names to circuits and backends and carries
the exchange with other frameworks on from step to step.
-/

namespace QuantumCircuits

/-- The circuits and backends at hand, and the exchange with other frameworks. -/
structure Session (α : Type) where
  circuits : List (String × Circuit α)
  backends : List (String × Backend α)
  exchange : Exchange α

namespace Session

variable {α : Type} [Scalar α]

def start (replies : List (Datum α)) : Session α := ⟨[], [], replies, #[], ""⟩

def nextStep (s : Session α) : Session α :=
  { s with exchange := { s.exchange with asked := #[], printed := "" } }

def circuit (name : String) : Change (Session α) (Circuit α) := do
  match (← get).circuits.lookup name with
  | some c => pure c
  | none => Change.fail (.unfit .unset)

def put (name : String) (c : Circuit α) : Change (Session α) Unit :=
  modify fun s => { s with circuits := (name, c) :: s.circuits.filter fun e => e.1 != name }

def putBackend (name : String) (b : Backend α) : Change (Session α) Unit :=
  modify fun s => { s with backends := (name, b) :: s.backends.filter fun e => e.1 != name }

def change {β : Type} (name : String) (x : Change (Circuit α) β) : Change (Session α) β := do
  let (out, c) := Change.perform x (← circuit name)
  put name c
  Change.ofOutcome out

def converse {β : Type} (name : String) (x : Change (Dialogue α) β) : Change (Session α) β := do
  let c ← circuit name
  let (out, d) := Change.perform x ⟨(← get).exchange, c⟩
  modify fun s => { s with exchange := d.exchange }
  put name d.circuit
  Change.ofOutcome out

def find (s : Session α) (name : String) : Outcome (Operand α) :=
  match s.circuits.lookup name, s.backends.lookup name with
  | some c, _ => .ok (.other c.framework.className name)
  | none, some _ => .ok (.other "Backend" name)
  | none, none => .error (.unfit .unset)

def circuitOf (x : Operand α) (fault : Fault) : Change (Session α) (Circuit α) :=
  match x with
  | .other _ name => circuit name
  | _ => Change.fail fault

def backendOf (x : Operand α) : Change (Session α) (Option (Backend α)) := do
  match x with
  | .none => pure none
  | .other _ name => match (← get).backends.lookup name with
    | some b => pure (some b)
    | none => Change.fail (.unfit .name)
  | _ => Change.fail (.unfit .name)

/-- Writes entries of another circuit, or none, over a selection of a circuit's log. -/
def assign (name : String) (selection : Selection) (source : Option String) :
    Change (Session α) Unit := do
  let c ← circuit name
  match source with
  | none =>
    let (c, _, out) := c.assign selection []
    put name c
    Change.ofOutcome out
  | some source =>
    let other ← circuit source
    let (c, given, out) := c.assign selection other.log.toList
    put source { other with log := given.toArray }
    put name c
    Change.ofOutcome out

def operand (d : Datum α) : Change (Session α) (Operand α) := do
  Change.ofOutcome (Operand.ofDatum (← get).find d)

end Session

abbrev Arguments (α : Type) := List (String × Operand α)

namespace Arguments

variable {α : Type}

/-- The operands in the order of the parameters; a parameter without a usual value has to be given,
and nothing but parameters may be. -/
def bind (params : List (String × Option (Operand α))) (args : Arguments α) :
    Outcome (List (Operand α)) := do
  if args.any fun p => (params.lookup p.1).isNone then .error (.unfit .type)
  params.mapM fun (k, usual) => match args.lookup k, usual with
    | some x, _ => .ok x
    | none, some x => .ok x
    | none, none => .error (.unfit .type)

end Arguments

end QuantumCircuits
