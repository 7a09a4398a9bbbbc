import QuantumCircuits.Framework.Foreign
import QuantumCircuits.Gate.Definition

/-!
# Circuit — Record

Performing a call.  A call is checked, logged and carried out by performing the calls it stands for;
what those log becomes the definition of its entry.  A call that is no operation is not logged, and
then its parts are logged in its place.  Whatever was logged or emitted before a fault stays.
-/

/-! ### Sinks

Where the elementary operations of a circuit end up.  The library's own circuits keep a list of
primitives; that of another framework is kept as the framework's own circuit.
-/

namespace QuantumCircuits

/-- The elementary operations of the library's own circuits. -/
inductive Primitive (α : Type) where
  | u3 (theta phi lam : α) (target : Nat)
  | cx (control target : Nat)
  | phase (angle : α)
  | measure (qubit : Nat)
  | reset (qubit : Nat)
deriving Inhabited, Repr

/-- The operations a circuit holds. -/
inductive Content (α : Type) where
  | primitives (ps : Array (Primitive α))
  | foreign (c : Foreign α)

/-- The elementary operations of a circuit, and what it remembers about them. -/
structure Sink (α : Type) where
  framework : Framework
  numQubits : Nat
  /-- The number of qubits as it was given: a truth value may stand for one. -/
  size : Operand α
  content : Content α
  /-- The sum of the global phases. -/
  globalPhase : Operand α
  /-- The measured qubits, as they were named. -/
  measured : List (Operand α)
  /-- The names of the measurements, in alphabetical order. -/
  measurementKeys : List String

namespace Sink

variable {α : Type} [Scalar α]

open Scalar

def empty (f : Framework) (n : Nat) : Sink α :=
  { framework := f
    numQubits := n
    size := .int n
    content := if f.isReference then .primitives #[] else .foreign (Foreign.empty f n)
    globalPhase := .int 0
    measured := []
    measurementKeys := [] }

def push (p : Primitive α) : Change (Sink α) Unit :=
  modify fun s => match s.content with
    | .primitives ps => { s with content := .primitives (ps.push p) }
    | .foreign _ => s

def send (i : Instruction α) : Change (Sink α) Unit :=
  modify fun s => match s.content with
    | .primitives _ => s
    | .foreign c => { s with content := .foreign (c.push i) }

/-- A qubit of a circuit on `n` qubits; a negative index counts from the end. -/
def wrap (n : Nat) (x : Operand α) : Outcome Nat :=
  match x.toInt? with
  | none => .error (.unfit .type)
  | some i =>
    if -(n : Int) ≤ i ∧ i < n then .ok (if 0 ≤ i then i else i + n).toNat
    else .error (.unfit .index)

def angleAt (angles : Operand α) (i : Nat) : Outcome (Operand α) := angles.item i

def realAt (angles : Operand α) (i : Nat) : Outcome α := do (← angleAt angles i).toReal

/-- A gate in the library's own circuit: a rotation of each target, or a controlled negation. -/
def primitiveGate (g : Native) (targets controls angles : Operand α) : Change (Sink α) Unit := do
  let n := (← get).numQubits
  let targets ← Change.ofOutcome targets.listed.items
  targets.forM fun t => do
    match g with
    | .u3 =>
      let theta ← Change.ofOutcome (realAt angles 0)
      let phi ← Change.ofOutcome (realAt angles 1)
      let lam ← Change.ofOutcome (realAt angles 2)
      push (.u3 theta phi lam (← Change.ofOutcome (wrap n t)))
    | _ =>
      let c ← Change.ofOutcome (controls.listed.item 0)
      push (.cx (← Change.ofOutcome (wrap n c)) (← Change.ofOutcome (wrap n t)))

/-- A qubit as the framework takes it; some look it up in a register at once. -/
def lookUp (f : Framework) (n : Nat) (x : Operand α) : Outcome (Operand α) :=
  match f with
  | .cirq => do .ok (.int (← wrap n x))
  | _ => .ok x

/-- The operands of a gate that the framework's own gate is built from. -/
def checkAngleCount (f : Framework) (g : Native) (angles : Operand α) : Outcome Unit := do
  match f, g with
  | .cirq, .u3 => .ok ()
  | _, _ =>
    let _ ← (List.range g.angleCount).mapM fun i => do
      let x ← angleAt angles i
      match f, g with
      | .tket, _ | .cirq, .phase => discard x.toReal
      | _, _ => .ok ()

def instructionGate (g : Native) (targets controls angles : Operand α) : Change (Sink α) Unit := do
  let s ← get
  let _ ← Change.ofOutcome (checkAngleCount s.framework g angles)
  let controls ← Change.ofOutcome controls.listed.items
  let targets ← Change.ofOutcome targets.listed.items
  targets.forM fun t => do
    let cs ← Change.ofOutcome (controls.mapM (lookUp s.framework s.numQubits))
    let t ← Change.ofOutcome (lookUp s.framework s.numQubits t)
    send (.gate g angles cs t)

def gate (g : Native) (targets controls angles : Operand α) : Change (Sink α) Unit := do
  match (← get).content with
  | .primitives _ => primitiveGate g targets controls angles
  | .foreign _ => instructionGate g targets controls angles

/-- Adds to the phase that the framework keeps, where it keeps one, and sends the phase elsewhere. -/
def sendPhase (t : Operand α) : Change (Sink α) Unit := do
  let s ← get
  match s.content, s.framework with
  | .foreign c, .qiskit =>
    let phase ← Change.ofOutcome (c.phase.sum t)
    set { s with content := .foreign { c with phase } }
  | _, _ => send (.phase t)

def phase (t : Operand α) : Change (Sink α) Unit := do
  let s ← get
  let x ← Change.ofOutcome t.toReal
  match s.content with
  | .primitives _ => push (.phase x)
  | .foreign _ => sendPhase t
  let total ← Change.ofOutcome (s.globalPhase.sum t)
  modify fun s => { s with globalPhase := total }

def remember (q : Operand α) : Change (Sink α) Unit :=
  modify fun s =>
    if s.measured.any fun r => r.toInt? == q.toInt? then s
    else { s with measured := s.measured ++ [q] }

def sortIndices (xs : List (Operand α)) : List (Operand α) :=
  xs.mergeSort fun x y => decide (x.toInt?.getD 0 ≤ y.toInt?.getD 0)

def measure (qubits : Operand α) : Change (Sink α) Unit := do
  let s ← get
  let qs ← Change.ofOutcome qubits.listed.items
  match s.framework with
  | .reference | .alternate =>
    qs.forM fun q => do
      push (.measure (← Change.ofOutcome (wrap s.numQubits q)))
      remember q
  | .qiskit =>
    send (.measure qs)
    qs.forM remember
  | .cirq =>
    (sortIndices qs).forM fun q => do
      send (.measure [← Change.ofOutcome (lookUp .cirq s.numQubits q)])
      let key := "q" ++ toString (q.toInt?.getD 0)
      modify fun s => { s with
        measurementKeys := (s.measurementKeys ++ [key]).mergeSort fun a b => decide (a ≤ b) }
    qs.forM remember
  | .pennylane | .tket =>
    qs.forM fun q => do
      send (.measure [q])
      remember q

def reset (qubits : Operand α) : Change (Sink α) Unit := do
  let s ← get
  let qs ← Change.ofOutcome qubits.listed.items
  qs.forM fun q => do
    match s.content with
    | .primitives _ => push (.reset (← Change.ofOutcome (wrap s.numQubits q)))
    | .foreign _ => send (.reset (← Change.ofOutcome (lookUp s.framework s.numQubits q)))

end Sink

/-! ### Entries

Entries of a circuit's log.  An entry names a gate and holds its checked operands and the entries
that the gate is defined by.  Replaying an entry takes its name and definition out for a while, so
an entry can also be found without them.
-/

/-- The name in an entry: that of a gate, or any other. -/
inductive GateName where
  | known (g : Gate)
  | unknown (name : String)
deriving Inhabited, DecidableEq, Repr

namespace GateName

def text : GateName → String
  | .known g => g.name
  | .unknown s => s

def ofText (s : String) : GateName :=
  match Gate.ofName? s with
  | some g => .known g
  | none => .unknown s

end GateName

/-- What an entry is defined by: entries, nothing, or a definition that was taken out. -/
inductive Definition (β : Type) where
  | lost
  | null
  | entries (xs : List β)
deriving Inhabited, Repr

/-- An entry of the log. -/
structure Entry (α : Type) where
  gate : Option GateName
  operands : Operands α
  /-- How many operands stand before the gate's name when the entry is written out. -/
  gateAt : Nat
  definition : Definition (Entry α)
deriving Inhabited

namespace Entry

variable {α : Type}

def new (g : Gate) (operands : Operands α) (body : List (Entry α)) : Entry α :=
  ⟨some (.known g), operands, 0, .entries body⟩

/-- The entry after it was replayed: its name moves behind the operands. -/
def replayed (e : Entry α) : Entry α :=
  { e with
    gateAt := e.operands.length
    definition := match e.definition with
      | .lost => .null
      | d => d }

/-- The entry when its replay ended in a fault: name and definition are gone. -/
def stripped (e : Entry α) : Entry α := { e with gate := none, definition := .lost }

def get? (e : Entry α) (k : Key) : Option (Operand α) := e.operands.lookup k

def put (e : Entry α) (k : Key) (x : Operand α) : Entry α :=
  if e.operands.any fun p => p.1 == k then
    { e with operands := e.operands.map fun p => if p.1 == k then (k, x) else p }
  else { e with operands := e.operands ++ [(k, x)] }

def mapQubits (f : Operand α → Outcome (Operand α)) (e : Entry α) : Outcome (Entry α) := do
  let operands ← e.operands.mapM fun (k, x) => do
    if k.isQubit then .ok (k, ← f x) else .ok (k, x)
  .ok { e with operands }

def qubits (e : Entry α) : List (Operand α) :=
  (e.operands.filter fun p => p.1.isQubit).flatMap fun p =>
    match p.2 with
    | .list xs => xs
    | x => [x]

def isGate (e : Entry α) (g : Gate) : Bool := e.gate == some (.known g)

end Entry

/-! ### Record -/

variable {α : Type} [Scalar α]

def Change.andFinally {σ β : Type} (x : Change σ β) (y : Change σ Unit) : Change σ β := fun s =>
  let (r, s) := Change.perform x s
  match Change.perform y s with
  | (.ok _, s) => (r, s)
  | (.error f, s) => (.error f, s)

/-- What performing a call changes: the sink, and the entries at the present level. -/
structure Recording (α : Type) where
  sink : Sink α
  entries : Array (Entry α)

/-- What a call is performed under: the number of qubits, and whether calls are checked and
logged. -/
structure Setting where
  numQubits : Nat
  validating : Bool

namespace Recording

def emit (x : Change (Sink α) Unit) : Change (Recording α) Unit := fun r =>
  let (out, sink) := Change.perform x r.sink
  (out, { r with sink })

def within (g : Gate) (operands : Operands α) (body : Change (Recording α) Unit) :
    Change (Recording α) Unit := fun r =>
  let (out, s) := Change.perform body { r with entries := #[] }
  (out, { s with entries := r.entries.push (Entry.new g operands s.entries.toList) })

def logged (setting : Setting) (c : Call α) (body : Change (Recording α) Unit) :
    Change (Recording α) Unit :=
  if c.gate.isTransparent || !setting.validating then body
  else match validate setting.numQubits c.operands with
    | .error f => Change.fail f
    | .ok none => body
    | .ok (some operands) => within c.gate operands body

def elementary? (c : Call α) : Option (Change (Sink α) Unit) :=
  match c.gate with
  | .of .u3 .plain => some (Sink.gate .u3 (c.get .qubitIndices) (.list []) (c.get .angles))
  | .of .x .controlled =>
    some (Sink.gate .x (c.get .targetIndex) (c.get .controlIndex) (.list [.int 0, .int 0, .int 0]))
  | .globalPhase => some (Sink.phase (c.get .angle))
  | .measure => some (Sink.measure (c.get .qubitIndices))
  | .reset => some (Sink.reset (c.get .qubitIndices))
  | _ => none

def flipping (flip : Change (Recording α) Unit) (positions : List Nat)
    (body : Change (Recording α) Unit) : Change (Recording α) Unit :=
  if positions.isEmpty then body
  else do
    flip
    body.andFinally flip

def flipCall (positions : List Nat) : Call α :=
  ⟨.of .x .plain, [(.qubitIndices, .list (positions.map fun (i : Nat) => .int i))], .none⟩

/-- The plan's calls in order, then the fault it ends in, if any. -/
def follow (perform : Call α → Change (Recording α) Unit) (p : Plan α Unit) :
    Change (Recording α) Unit := do
  let (calls, out) := p.outcome
  calls.toList.forM perform
  Change.ofOutcome out

def maxDepth : Nat := 16

def performAt (setting : Setting) : Nat → Call α → Change (Recording α) Unit
  | 0, _ => Change.fail (.unfit .recursion)
  | depth + 1, c => do
    Change.ofOutcome (Gate.precondition c)
    let positions ← Change.ofOutcome (match Gate.controls c with
      | some controls => Gate.openPositions c.controlState controls
      | none => .ok [])
    flipping (performAt setting depth (flipCall positions)) positions
      (logged setting c (match elementary? c with
        | some x => emit x
        | none => follow (performAt setting depth) (Gate.plan setting.numQubits c)))

def perform (setting : Setting) (c : Call α) : Change (Recording α) Unit :=
  performAt setting maxDepth c

end Recording

end QuantumCircuits
