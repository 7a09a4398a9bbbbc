import QuantumCircuits.Circuit.Rearrange
import QuantumCircuits.Preparation.Disentangle
import QuantumCircuits.Synthesis.Multiplexor

/-!
# Preparation — Basic

Preparing states.  A ket is put into the asked order and compressed first (`condition`), then
built on a circuit of its own (`circuitFor`), which is added to the given one.  Anything else is
turned into a ket of its own before.
-/

/-! ### Angles

The angles of rotations that prepare a state.  From above, an amplitude is split between the halves
of a range of positions; from below, two amplitudes are merged into one by rotations of a qubit.
-/

namespace QuantumCircuits.Angles

variable {α : Type} [Scalar α]

open Scalar

def entry (xs : Array α) (i : Int) : Outcome α := do
  .ok (xs.getD (← Operand.position xs.size i) 0.0)

/-- The indices of a range; more than twice as many as there are numbers are never all in range. -/
def checkRange (xs : Array α) (count : Nat) : Outcome Unit :=
  if 2 * xs.size < count then .error (.unfit .index) else .ok ()

def sumSquares (xs : Array α) (start : Int) (count : Nat) : Outcome α := do
  checkRange xs count
  let ys ← (List.range count).mapM fun (i : Nat) => entry xs (start + i)
  .ok (ys.foldl (fun s y => s + y * y) 0.0)

/-- The rotation that splits the `j`-th range of `2 ^ k` magnitudes; zero for an empty range. -/
def split (magnitude : Array α) (k : Nat) (j : Int) : Outcome (Operand α) := do
  if k = 0 then .error (.unfit .type)
  let upper ← sumSquares magnitude ((2 * j + 1) * 2 ^ (k - 1)) (2 ^ (k - 1))
  let whole ← sumSquares magnitude (j * 2 ^ k) (2 ^ k)
  .ok (if eq whole 0.0 then .int 0 else .real (2.0 * asin (sqrt (upper / whole))))

/-- The mean difference of the phases in the halves of the `j`-th range of `2 ^ k`. -/
def phaseGap (phase : Array α) (k : Nat) (j : Int) : Outcome α := do
  if k = 0 then .error (.unfit .type)
  let m : Nat := 2 ^ (k - 1)
  checkRange phase m
  let gaps ← (List.range m).mapM fun (b : Nat) => do
    .ok ((← entry phase ((2 * j + 1) * m + b)) - (← entry phase (2 * j * m + b)))
  .ok (gaps.foldl (· + ·) 0.0 / ofNat m)

def countOnes (n : Nat) : Nat := (binaryDigits n).foldl (· + ·) 0

/-- The sign and weight with which the `j`-th selected angle enters the `i`-th rotation. -/
def weight (k i j : Nat) : α :=
  let w : α := twoPow (-(k : Int))
  if countOnes (j &&& grayNat i) % 2 = 0 then w else -w

def weights (k : Nat) : Mat (Cplx α) :=
  Mat.ofFn (2 ^ k) (2 ^ k) fun i j => .ofReal (weight k i j)

/-- The rotations of a multiplexed rotation by the given angles. -/
def rotations (k : Nat) (angles : List α) : List α :=
  (List.range (2 ^ k)).map fun i =>
    (angles.zipIdx.map fun (x, j) => weight k i j * x).foldl (· + ·) 0.0

def controlPositions : Nat → List Nat
  | 0 => []
  | k + 1 =>
    let side := (controlPositions k).dropLast
    side ++ [k] ++ side ++ [k]

def mostLevels : Int := 900

/-- The controls between the rotations for any number of levels: a negative one has no end, and one
that is too large does not come to it. -/
def controlPositions? (k : Int) : Outcome (List Nat) :=
  if k < 0 ∨ mostLevels < k then .error (.unfit .recursion) else .ok (controlPositions k.toNat)

/-- Two amplitudes merged into one, with the rotations that merge them. -/
structure Merged (α : Type) where
  amplitude : Cplx α
  theta : α
  phi : α
deriving Repr

def merge (a b : Cplx α) : Merged α :=
  let r := sqrt (a.abs * a.abs + b.abs * b.abs)
  if lt r 1e-10 then ⟨.zero, 0.0, 0.0⟩
  else
    { amplitude := Cplx.scale r (.turn ((a.arg + b.arg) / 2.0))
      theta := 2.0 * acos (a.abs / r)
      phi := b.arg - a.arg }

/-- Merges neighbouring amplitudes; one that is left over is dropped. -/
def mergeAll : List (Cplx α) → List (Merged α)
  | a :: b :: rest => merge a b :: mergeAll rest
  | _ => []

end QuantumCircuits.Angles

/-! ### Isometries

A state undone qubit by qubit with gates that the other qubits select, and the circuit reversed.
Each selected gate is emitted up to a diagonal, which the next ones take into account.
-/

namespace QuantumCircuits.Isometry

variable {α : Type} [Scalar α]

/-- Undoes qubit `s` of `n` in a state, given as a matrix with one column. -/
def undoQubit (R : Routines α) (n : Nat) (v : Mat (Cplx α)) (s : Nat) :
    Change (Circuit α) (Mat (Cplx α)) := do
  let gates ← Change.ofOutcome (Disentangle.disentanglers v 0 s n)
  if ← Change.ofOutcome (Disentangle.isPhase gates) then pure v
  else
    let above := n - s - 1
    let controls := (List.range above).map fun (i : Nat) => Operand.int (s + 1 + i : Nat)
    Multiplexor.apply R (.list (gates.map fun g => .array (.ofMat g))) (.list controls) (.int s)
      true true .none
    let w ← Change.ofOutcome (Multiplexor.extract R gates (above + 1))
    let merged ← Change.ofOutcome (Disentangle.mergeDiagonal gates (w.diagonal.map Cplx.conj))
    pure (Disentangle.applySelected n above merged.toArray v)

def undo (R : Routines α) (n : Nat) (amplitudes : Array (Cplx α)) : Change (Circuit α) Unit := do
  let _ ← (List.range n).foldlM (undoQubit R n) (Mat.ofColumn amplitudes)

def build (R : Routines α) (n : Nat) (amplitudes : Array (Cplx α)) : Change (Circuit α) Unit := do
  undo R n amplitudes
  Circuit.horizontalReverse true

end QuantumCircuits.Isometry

/-! ### Merging

A state undone from its least significant qubit up, and the circuit reversed.  Each step merges
neighbouring amplitudes by rotations of a qubit that are selected by the qubits above it.
-/

namespace QuantumCircuits.Merging

variable {α : Type} [Scalar α]

open Scalar

/-- The circuit of a rotation of qubit 0 that is selected by the `k` qubits above it.  The second
half is reversed, so that the negations in the middle cancel; the last negation may be left out. -/
def selected (f : Framework) (axis : Base) : Nat → List α → Bool → Outcome (Circuit α)
  | 0, angles, _ => (Circuit.empty f 1).after (Circuit.follow (Plan.turnBy axis (angles.headD 0.0) (.int 0)))
  | k + 1, angles, closing => do
    let half := angles.length / 2
    let pairs := (angles.take half).zip (angles.drop half)
    let sums := pairs.map fun p => 0.5 * p.1 + 0.5 * p.2
    let differences := pairs.map fun p => 0.5 * p.1 - 0.5 * p.2
    let lower : Operand α := .list ((List.range (k + 1)).map fun (i : Nat) => .int i)
    let flip : Change (Circuit α) Unit := Circuit.follow (Plan.cx (.int (k + 1 : Nat)) (.int 0))
    let first ← selected f axis k sums false
    let second ← selected f axis k differences false
    let second ← second.after (Circuit.horizontalReverse false)
    (Circuit.empty f (k + 2)).after do
      Circuit.add first lower
      flip
      Circuit.add second lower
      if closing then flip

def anyNonzero (xs : List α) : Bool :=
  !(eq (sqrt (xs.foldl (fun s x => s + x * x) 0.0)) 0.0)

def undoQubit (n : Nat) (amplitudes : List (Cplx α)) (i : Nat) :
    Change (Circuit α) (List (Cplx α)) := do
  let merged := Angles.mergeAll amplitudes
  let thetas := merged.map fun m => -m.theta
  let phis := merged.map fun m => -m.phi
  let upper : Operand α := .list ((List.range (n - i)).map fun (j : Nat) => .int (i + j : Nat))
  let f := (← get).framework
  let turning := anyNonzero phis
  let tilting := anyNonzero thetas
  let closing := !(turning && tilting)
  if turning then
    Circuit.add (← Change.ofOutcome (selected f .rz (n - i - 1) phis closing)) upper
  if tilting then
    let c ← Change.ofOutcome (selected f .ry (n - i - 1) thetas closing)
    let c ← Change.ofOutcome (c.after (Circuit.horizontalReverse false))
    Circuit.add c upper
  pure (merged.map (·.amplitude))

def undo (n : Nat) (amplitudes : Array (Cplx α)) : Change (Circuit α) Unit := do
  let rest ← (List.range n).foldlM (undoQubit n) amplitudes.toList
  let total := rest.foldl (· + ·) .zero
  Circuit.follow (Plan.globalPhase (.real (-total.arg)))

def build (n : Nat) (amplitudes : Array (Cplx α)) : Change (Circuit α) Unit := do
  undo n amplitudes
  Circuit.horizontalReverse true

end QuantumCircuits.Merging

/-! ### Splitting

A state prepared from its most significant qubit down.  Each qubit gets a rotation selected by the
qubits before it, which splits every amplitude between two halves; a second row of rotations sets
the phases.
-/

namespace QuantumCircuits.Splitting

variable {α : Type} [Scalar α]

open Scalar

/-- The rotation of a qubit that is selected by all qubits before it. -/
def selectedRotation (axis : Base) (k : Nat) (angles : List α) : Plan α Unit :=
  let controls := Angles.controlPositions k
  (Angles.rotations k angles).zipIdx.forM fun (theta, i) => do
    Plan.turnBy axis theta (.int k)
    if 0 < k then
      let c : Nat := k - 1 - controls.getD i 0
      Plan.cx (.int c) (.int k)

def rotateAll (axis : Base) (n : Nat) (angle : Nat → Nat → Outcome α) : Plan α Unit :=
  (List.range n).forM fun k => do
    let angles ← Plan.get ((List.range (2 ^ k)).mapM fun j => angle (n - k) j)
    selectedRotation axis k angles

/-- The gates that prepare a state, for qubits in reverse order. -/
def plan (n : Nat) (amplitudes : Array (Cplx α)) : Plan α Unit := do
  let magnitude := amplitudes.map Cplx.abs
  let phase := amplitudes.map Cplx.arg
  rotateAll .ry n fun k j => do
    .ok (((← Angles.split magnitude k j).toReal?).getD 0.0)
  if !(phase.all fun p => eq p 0.0) then
    rotateAll .rz n fun k j => Angles.phaseGap phase k j
  let size : α := ofNat amplitudes.size
  Plan.globalPhase (.real (phase.foldl (fun s p => s + p / size) 0.0))

def build (n : Nat) (amplitudes : Array (Cplx α)) : Change (Circuit α) Unit := do
  Circuit.follow (plan n amplitudes)
  Circuit.verticalReverse

end QuantumCircuits.Splitting

/-! ### Basic -/

namespace QuantumCircuits

/-- The ways to prepare a state. -/
inductive Preparation where
  | isometry | splitting | merging
deriving DecidableEq, Repr

namespace Preparation

def ofName? (s : String) : Option Preparation :=
  match s with
  | "Isometry" => some .isometry
  | "Mottonen" => some .splitting
  | "Shende" => some .merging
  | _ => none

variable {α : Type} [Scalar α]

def build (R : Routines α) (p : Preparation) (n : Nat) (amplitudes : Array (Cplx α)) :
    Change (Circuit α) Unit :=
  match p with
  | .isometry => Isometry.build R n amplitudes
  | .splitting => Splitting.build n amplitudes
  | .merging => Merging.build n amplitudes

/-- The vector that an operand stands for, converted if need be. -/
def vectorOf (x : Operand α) : Outcome (StateVector α) :=
  match x with
  | .state v => .ok v
  | .array _ | .texts .. | .objects .. => StateVector.ofOperand .ket x none
  | x => do StateVector.build .ket (← Grid.converted x (.stateType x.shownType)) none

def ketOf (v : StateVector α) : Outcome (StateVector α) :=
  match v.kind with
  | .ket => .ok v
  | .bra => v.dual

def condition (percentage order : Operand α) : Change (StateVector α) Unit := do
  StateVector.changeIndexing order
  StateVector.compress percentage

/-- A circuit of the output framework that prepares a ket, with the qubits to add it on.  The ket is put into
order and compressed where it stands, also if a fault follows. -/
def circuitFor (R : Routines α) (p : Preparation) (output : Framework)
    (qubits percentage order : Operand α) : Change (StateVector α) (Circuit α × Operand α) := do
  let qubits ← Change.ofOutcome (Shannon.qubitsFor qubits (← get).numQubits .stateQubits)
  condition percentage order
  let v ← get
  let c ← Change.ofOutcome (Circuit.new output (.int v.numQubits))
  let c ← Change.ofOutcome (c.after (p.build R v.numQubits v.data.entries))
  pure (c, qubits)

/-- Emits a state on the given qubits of a circuit, by way of a circuit of the output framework. -/
def apply (R : Routines α) (p : Preparation) (output : Framework)
    (state qubits percentage order : Operand α) : Change (Circuit α) Unit := do
  let v ← Change.ofOutcome (vectorOf state >>= ketOf)
  let (c, qubits) ← Change.ofOutcome
    (Change.perform (p.circuitFor R output qubits percentage order) v).1
  Circuit.add c qubits

def prepare (R : Routines α) (p : Preparation) (output : Framework)
    (state percentage order : Operand α) : Outcome (Circuit α) := do
  let v ← vectorOf state
  let c ← Circuit.new output (.int v.numQubits)
  c.after (p.apply R output (.state v) (.range 0 v.numQubits 1) percentage order)

end Preparation

end QuantumCircuits
