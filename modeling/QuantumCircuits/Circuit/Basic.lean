import QuantumCircuits.Circuit.Record

/-!
# Circuit — Basic

Circuits.  A circuit is its log together with the operations it has emitted.  `Circuit.perform`
performs a call and adds what it logs to the log.
-/

namespace QuantumCircuits

/-- A circuit. -/
structure Circuit (α : Type) where
  log : Array (Entry α)
  /-- The log was exchanged for another one, and calls are no longer added to it. -/
  detached : Bool
  /-- Calls are checked and logged. -/
  validating : Bool
  sink : Sink α

namespace Circuit

variable {α : Type} [Scalar α]

def empty (f : Framework) (n : Nat) : Circuit α := ⟨#[], false, true, Sink.empty f n⟩

/-- The empty circuit on a number of qubits, with the number as it was given. -/
def sized (f : Framework) (n : Nat) (size : Operand α) : Circuit α :=
  { empty f n with sink := { Sink.empty f n with size } }

/-- The empty circuit on a number of qubits, which has to be positive. -/
def new (f : Framework) (n : Operand α) : Outcome (Circuit α) :=
  if !n.isInt then .error .sizeType
  else
    let k := n.toInt?.getD 0
    if k < 1 then .error .sizeTooSmall else .ok (sized f k.toNat n)

def framework (c : Circuit α) : Framework := c.sink.framework

def numQubits (c : Circuit α) : Nat := c.sink.numQubits

def freshIn (c : Circuit α) (f : Framework) : Circuit α := sized f c.numQubits c.sink.size

def fresh (c : Circuit α) : Circuit α := c.freshIn c.framework

def setting (c : Circuit α) : Setting := ⟨c.numQubits, c.validating⟩

def recording (x : Change (Recording α) Unit) : Change (Circuit α) Unit := fun c =>
  let (out, r) := Change.perform x ⟨c.sink, #[]⟩
  (out, { c with
    sink := r.sink
    log := if c.detached then c.log else c.log ++ r.entries })

def emitting (x : Change (Sink α) Unit) : Change (Circuit α) Unit := fun c =>
  let (out, sink) := Change.perform x c.sink
  (out, { c with sink })

def perform (call : Call α) : Change (Circuit α) Unit := do
  recording (Recording.perform (← get).setting call)

def follow (p : Plan α Unit) : Change (Circuit α) Unit := do
  recording (Recording.follow (Recording.perform (← get).setting) p)

def apply (g : Gate) (args : Operands α) : Change (Circuit α) Unit := do
  perform (← Change.ofOutcome (g.bind args))

def applyNamed (name : Option GateName) (args : Operands α) : Change (Circuit α) Unit :=
  match name with
  | some (.known g) => apply g args
  | some (.unknown _) => Change.fail (.unfit .name)
  | none => Change.fail (.unfit .type)

def after (c : Circuit α) (x : Change (Circuit α) Unit) : Outcome (Circuit α) :=
  match Change.perform x c with
  | (.ok _, c) => .ok c
  | (.error f, _) => .error f

def restart : Change (Circuit α) Unit := modify fresh

end Circuit

/-! ### Operators

The operator that a list of primitives stands for, with qubit 0 as the lowest bit of an index.
Measurements and resets are left out of it.
-/

variable {α : Type} [Scalar α]

open Scalar

abbrev Amplitudes (α : Type) := Array (Cplx α)

namespace Amplitudes

def basis (size k : Nat) : Amplitudes α :=
  (Array.range size).map fun i => if i = k then Cplx.one else Cplx.zero

def applyGate (m : Mat (Cplx α)) (q : Nat) (v : Amplitudes α) : Amplitudes α :=
  let (a, b, c, d) := (m.get 0 0, m.get 0 1, m.get 1 0, m.get 1 1)
  let bit := 1 <<< q
  v.mapIdx fun i x =>
    let y := v.getD (i ^^^ bit) Cplx.zero
    if i.testBit q then c * y + d * x else a * x + b * y

def applyControlled (control target : Nat) (v : Amplitudes α) : Amplitudes α :=
  let bit := 1 <<< target
  v.mapIdx fun i x => if i.testBit control then v.getD (i ^^^ bit) Cplx.zero else x

def applyPhase (t : α) (v : Amplitudes α) : Amplitudes α :=
  let w := Cplx.turn t
  v.map fun x => w * x

end Amplitudes

namespace Primitive

def apply (v : Amplitudes α) : Primitive α → Amplitudes α
  | .u3 theta phi lam q => v.applyGate (Mat.u3 theta phi lam) q
  | .cx c t => v.applyControlled c t
  | .phase t => v.applyPhase t
  | .measure _ | .reset _ => v

end Primitive

namespace Circuit

def primitives (c : Circuit α) : Array (Primitive α) :=
  match c.sink.content with
  | .primitives ps => ps
  | .foreign _ => #[]

def column (c : Circuit α) (k : Nat) : Amplitudes α :=
  c.primitives.foldl Primitive.apply (Amplitudes.basis (2 ^ c.numQubits) k)

def stateVector (c : Circuit α) : Amplitudes α := c.column 0

def unitary (c : Circuit α) : Mat (Cplx α) :=
  let size := 2 ^ c.numQubits
  let columns := (Array.range size).map c.column
  Mat.ofFn size size fun i j => (columns.getD j #[]).getD i Cplx.zero

end Circuit

/-- The entries turned so that the first one that is not small is real and positive. -/
def Amplitudes.ray (v : Amplitudes α) : Amplitudes α :=
  match v.find? fun z => lt 0.01 z.abs with
  | some z =>
    let w := z.conj.shrink z.abs
    v.map fun x => x * w
  | none => v

end QuantumCircuits

/-! ### Replaying

Performing a log again.  `Circuit.convert` replays a circuit's log on an empty circuit, and
`Circuit.update` puts the result in the circuit's place; an entry that is replayed loses its name
and its definition until it is done.
-/

namespace QuantumCircuits.Circuit

variable {α : Type} [Scalar α]

/-- Replays entries on a circuit; gives back the entries as they are left. -/
def replay : List (Entry α) → Circuit α → List (Entry α) × Circuit α × Outcome Unit
  | [], target => ([], target, .ok ())
  | e :: rest, target =>
    match Change.perform (applyNamed e.gate e.operands) target with
    | (.error f, target) => (e.stripped :: rest, target, .error f)
    | (.ok _, target) =>
      let (rest, target, out) := replay rest target
      (e.replayed :: rest, target, out)

/-- The circuit of another framework with the same log, replayed. -/
def convert (f : Framework) : Change (Circuit α) (Circuit α) := do
  let c ← get
  let (entries, target, out) := replay c.log.toList (c.freshIn f)
  set { c with log := entries.toArray }
  Change.ofOutcome out
  pure target

def update : Change (Circuit α) Unit := do
  set (← convert (← get).framework)

/-- Exchanges the log and replays it; should that fail, later calls are not added to it. -/
def updateWith (log : List (Entry α)) : Change (Circuit α) Unit := do
  modify fun c => { c with log := log.toArray, detached := true }
  update

/-- The qubits to which the qubits of another circuit are added: a number stands for a list, and a
sequence has to hold as many whole numbers as the other circuit has qubits. -/
def addPositions (n : Nat) (indices : Operand α) : Outcome (Operand α) := do
  let indices := indices.positioned
  if indices.isSequence then
    let xs ← indices.items
    if !(xs.all Operand.isInt) then .error .addIndexType
    if xs.length ≠ n then .error .addCount
  .ok indices

def relocate (positions : Operand α) (x : Operand α) : Outcome (Operand α) := do
  if x.isSequence then
    .ok (.list (← (← x.items).mapM fun i => do
      match i.toInt? with
      | some k => positions.item k
      | none => .error (.unfit .type)))
  else
    let ps ← positions.toList
    match x.toInt? with
    | some k => ps.item k
    | none => .error (.unfit .type)

/-- Adds another circuit's log, with its qubits moved to the given ones. -/
def add (other : Circuit α) (indices : Operand α) : Change (Circuit α) Unit := do
  let positions ← Change.ofOutcome (addPositions other.numQubits indices)
  let entries ← Change.ofOutcome (other.log.toList.mapM (Entry.mapQubits (relocate positions)))
  entries.forM fun e => applyNamed e.gate e.operands

end QuantumCircuits.Circuit
