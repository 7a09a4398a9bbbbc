import QuantumCircuits.Circuit.Basic
import QuantumCircuits.Synthesis.TwoQubit

/-!
# Synthesis — Shannon

Unitaries on any number of qubits.  The cosines and sines of a unitary are a multiplexed rotation of
the last qubit between two multiplexed unitaries, and each of those is a multiplexed rotation between
two unitaries on one qubit less (`expand`).  Afterwards the two-qubit blocks that this ends in are
rebuilt up to diagonals, which saves a controlled negation in each (`mergeDiagonals`).
-/

namespace QuantumCircuits.Shannon

variable {α : Type} [Scalar α]

open Scalar

/-- The part of the log that a two-qubit block occupies. -/
structure Block where
  start : Nat
  stop : Nat
deriving Repr

/-- The rotations of a multiplexed rotation, with sign flips between them; the last one is left to
the gates that follow. -/
def signedRotations (controls target : Operand α) (angles : List α) : Plan α Unit := do
  let m := (← Plan.get controls.length)
  if m = 0 then Plan.turnBy .ry (angles.headD 0.0) target
  else
    let row := demultiplex (fun x y => (x + y) / 2.0) (fun x y => (x - y) / 2.0) false angles
    row.zipIdx.forM fun (angle, i) => do
      Plan.turnBy .ry angle target
      if i + 1 < row.length then
        Plan.call (.of .z .controlled)
          [← Plan.get (controls.item (negationControl m i)), target]

/-- A unitary that selects between two: the eigenvalues of the quotient become a multiplexed
rotation, with one unitary before and one behind it. -/
structure Demultiplexed (α : Type) where
  before : Mat (Cplx α)
  angles : List α
  behind : Mat (Cplx α)

def demultiplexed (R : Routines α) (U V : Mat (Cplx α)) : Demultiplexed α :=
  let (eigenvalues, vectors) := R.eigenUnitary (U * V.adjoint)
  let roots := eigenvalues.map Cplx.sqrt
  { before := Mat.diagonal roots * vectors.adjoint * V
    angles := roots.toList.map fun z => 2.0 * z.conj.arg
    behind := vectors }

def negateHalf (M : Mat (Cplx α)) : Mat (Cplx α) :=
  Mat.ofFn M.rows M.cols fun i j => if M.cols / 2 ≤ j then -(M.get i j) else M.get i j

/-- Emits a unitary of size `2 ^ n`, at a recursion depth; gives the two-qubit blocks below the top
level. -/
def expand (R : Routines α) : Nat → Nat → Operand α → Mat (Cplx α) →
    Change (Circuit α) (List Block)
  | 0, _, _, _ => Change.fail (.unfit .value)
  | 1, _, qubits, U => do
    Circuit.follow (OneQubit.plan .u3 (.array (.ofMat U)) qubits)
    pure []
  | 2, depth, qubits, U => do
    let start := (← get).log.size
    Circuit.follow (TwoQubit.plan R (.array (.ofMat U)) qubits)
    let stop := (← get).log.size
    pure (if 0 < depth then [⟨start, stop⟩] else [])
  | n + 3, depth, qubits, U => do
    let cs := R.cosineSine U
    let lower ← Change.ofOutcome qubits.dropLast
    let last ← Change.ofOutcome (qubits.item (-1))
    let select (A B : Mat (Cplx α)) : Change (Circuit α) (List Block) := do
      let d := demultiplexed R A B
      let before ← expand R (n + 2) (depth + 1) lower d.before
      Circuit.follow (Plan.call (.ucr .z) [.list (d.angles.map .real), lower, last])
      let behind ← expand R (n + 2) (depth + 1) lower d.behind
      pure (before ++ behind)
    let first ← select cs.v₁ cs.v₂
    Circuit.follow (signedRotations lower last (cs.angles.map (2.0 * ·)))
    let second ← select cs.u₁ (negateHalf cs.u₂)
    pure (first ++ second)

def isBlockKey : Key → Bool
  | .qubitIndex | .controlIndex | .targetIndex => true
  | _ => false

def sameNumber (x y : Operand α) : Bool := x.toInt?.isSome && x.toInt? == y.toInt?

/-- Renames the qubits of a block: one qubit becomes `x` and every other one `y`. -/
def rename (one x y : Operand α) (e : Entry α) : Entry α :=
  { e with operands := e.operands.map fun (k, v) =>
      if isBlockKey k then (k, if sameNumber v one then x else y) else (k, v) }

def entriesOf (c : Circuit α) (b : Block) : List (Entry α) :=
  (c.log.extract b.start b.stop).toList

def putEntries (b : Block) (es : List (Entry α)) : Change (Circuit α) Unit :=
  modify fun c => { c with
    log := es.zipIdx.foldl (fun log (p : Entry α × Nat) => log.setIfInBounds (b.start + p.2) p.1) c.log }

/-- A block as a circuit on two qubits, with its qubits renamed in the log. -/
def isolate (first : Operand α) (b : Block) : Change (Circuit α) Unit := do
  putEntries b ((entriesOf (← get) b).map (rename first (.int 0) (.int 1)))

/-- Replays the entries of a block on two qubits; they count as replayed afterwards. -/
def replayBlock (b : Block) : Change (Circuit α) (Circuit α) := do
  let c ← get
  let (es, target, out) := Circuit.replay (entriesOf c b) (Circuit.empty c.framework 2)
  putEntries b es
  Change.ofOutcome out
  pure target

def onTwo {β : Type} (f : Framework) (p : Plan α β) : Outcome (Circuit α × β) :=
  let (calls, out) := p.outcome
  match Change.perform (calls.toList.forM Circuit.perform) (Circuit.empty f 2) with
  | (.error fault, _) => .error fault
  | (.ok _, c) => do .ok (c, ← out)

/-- Rebuilds two neighbouring blocks: the first up to a diagonal, and the second with it. -/
def mergePair (R : Routines α) (f : Framework) (U V : Mat (Cplx α)) :
    Outcome (Circuit α × Circuit α) := do
  let ends : Operand α := .list [.int 0, .int 1]
  let (first, D) ← onTwo f (TwoQubit.planUpToDiagonal R (.array (.ofMat U)) ends)
  let u ← UnitaryOperator.build (.ofMat (V * D)) none
  let (second, _) ← onTwo f (TwoQubit.plan R (.operator u) (.range 0 2 1))
  .ok (first, second)

/-- Goes through the blocks from left to right; `current` is the circuit of the present block. -/
def mergeFrom (R : Routines α) (first : Operand α) (current : Circuit α) :
    List Block → Change (Circuit α) (List (List (Entry α)))
  | [] => pure [current.log.toList]
  | b :: rest => do
    isolate first b
    let (_, present, out) := Circuit.replay current.log.toList (Circuit.empty current.framework 2)
    Change.ofOutcome out
    let next ← replayBlock b
    let (done, next) ← Change.ofOutcome (mergePair R current.framework present.unitary next.unitary)
    let others ← mergeFrom R first next rest
    pure (done.log.toList :: others)

def weave (log : Array (Entry α)) : Nat → List Block → List (List (Entry α)) → List (Entry α)
  | start, b :: bs, es :: ess =>
    (log.extract start b.start).toList ++ es ++ weave log b.stop bs ess
  | start, _, _ => (log.extract start log.size).toList

/-- The log with all two-qubit blocks but the last rebuilt up to diagonals. -/
def rebuilt (R : Routines α) (qubits : Operand α) (b c : Block) (rest : List Block) :
    Change (Circuit α) (List (Entry α)) := do
  let first ← Change.ofOutcome (qubits.item 0)
  isolate first b
  isolate first c
  let left ← replayBlock b
  let right ← replayBlock c
  let f := (← get).framework
  let (done, next) ← Change.ofOutcome (mergePair R f left.unitary right.unitary)
  let others ← mergeFrom R first next rest
  let second ← Change.ofOutcome (qubits.item 1)
  let blocks := (done.log.toList :: others).map fun es => es.map (rename (.int 0) first second)
  pure (weave (← get).log 0 (b :: c :: rest) blocks)

/-- Rebuilds the blocks, and the circuit from them. -/
def mergeDiagonals (R : Routines α) (qubits : Operand α) : List Block → Change (Circuit α) Unit
  | b :: c :: rest => do
    let log ← rebuilt R qubits b c rest
    Circuit.restart
    modify fun c => { c with log := log.toArray }
    Circuit.update
  | _ => pure ()

def unitaryOf (x : Operand α) : Outcome (UnitaryOperator α) :=
  match x with
  | .operator u => .ok u
  | .array _ | .texts .. | .objects .. => UnitaryOperator.ofOperand x none
  | x => do UnitaryOperator.build (← Grid.converted x (.operatorType x.shownType)) none

def qubitsFor (x : Operand α) (n : Nat) (fault : Fault) : Outcome (Operand α) := do
  let x := x.positioned
  let xs ← x.items
  if !(xs.all Operand.isPosition) then .error .preparedIndexType
  if (← x.length) ≠ n then .error fault
  .ok x

def apply (R : Routines α) (unitary qubits : Operand α) : Change (Circuit α) Unit := do
  let u ← Change.ofOutcome (unitaryOf unitary)
  let qubits ← Change.ofOutcome (qubitsFor qubits u.numQubits .unitaryQubits)
  match u.data.toMat? with
  | none => Change.fail (.unfit .index)
  | some U =>
    let blocks ← expand R u.numQubits 0 qubits U
    if 2 < u.numQubits then mergeDiagonals R qubits blocks

end QuantumCircuits.Shannon

/-! ### All ways

The ways to emit a unitary, under one roof: by the number of qubits they are made for.
-/

namespace QuantumCircuits

/-- The ways to emit a unitary. -/
inductive Synthesis where
  | oneQubit (basis : OneQubit.Basis)
  | twoQubit
  | shannon
deriving DecidableEq, Repr

namespace Synthesis

def ofName? (s : String) : Option Synthesis :=
  match s with
  | "One" => some (.oneQubit .u3)
  | "Two" => some .twoQubit
  | "Shannon" => some .shannon
  | _ => none

variable {α : Type} [Scalar α]

def apply (R : Routines α) (s : Synthesis) (unitary qubits : Operand α) :
    Change (Circuit α) Unit :=
  match s with
  | .oneQubit b => Circuit.follow (OneQubit.plan b unitary qubits)
  | .twoQubit => Circuit.follow (TwoQubit.plan R unitary qubits)
  | .shannon => Shannon.apply R unitary qubits

def prepare (R : Routines α) (s : Synthesis) (output : Framework) (unitary : Operand α) :
    Outcome (Circuit α) := do
  let u ← Shannon.unitaryOf unitary
  let c ← Circuit.new output (.int u.numQubits)
  c.after (s.apply R (.operator u) (.range 0 u.numQubits 1))

end Synthesis

namespace Circuit

variable {α : Type} [Scalar α]

/-- The circuit with the log and the operations of another one; the sum of the phases stays. -/
def exchanged (c built : Circuit α) : Circuit α :=
  { c with
    log := built.log
    detached := true
    sink := { c.sink with content := built.sink.content } }

end Circuit

end QuantumCircuits
