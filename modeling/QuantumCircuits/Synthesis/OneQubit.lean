import QuantumCircuits.Gate.Call
import QuantumCircuits.State.Vector

/-!
# Synthesis — One qubit

One-qubit unitaries as rotations.  `OneQubit.zyz` reads off the angles of rotations about two axes
and the phase that is left, and `OneQubit.u3` those of the general one-qubit gate.
-/

/-! ### Routines

The numerical routines that synthesis rests on.  Their results are not unique, so what is built from
them takes them as a parameter; `Routines.byRotations` finds them by turning pairs of rows.
-/

namespace QuantumCircuits

variable {α : Type} [Scalar α]

open Scalar

/-- The two eigenvalues of a two-by-two matrix and a matrix with their eigenvectors as columns. -/
structure Eigen2 (α : Type) where
  first : Cplx α
  second : Cplx α
  vectors : Mat (Cplx α)

/-- Numerical routines. -/
structure Routines (α : Type) where
  /-- Eigenvalues and unit eigenvectors of a two-by-two matrix. -/
  eigen2 : Mat (Cplx α) → Eigen2 α
  /-- Eigenvalues and orthonormal eigenvectors of a unitary matrix. -/
  eigenUnitary : Mat (Cplx α) → Array (Cplx α) × Mat (Cplx α)
  /-- A real orthogonal matrix whose columns diagonalize a symmetric unitary matrix. -/
  realBasis : Mat (Cplx α) → Mat (Cplx α)
  cosineSine : Mat (Cplx α) → CosineSine α

namespace Mat

/-- A vector with the given entries, of length one and with its largest entry real. -/
def standardVector (x y : Cplx α) : Cplx α × Cplx α :=
  let n := sqrt (x.normSq + y.normSq)
  let x := x.shrink n
  let y := y.shrink n
  if lt x.normSq y.normSq then
    (x * y.conj.shrink y.abs, .ofReal y.abs)
  else (.ofReal x.abs, y * x.conj.shrink x.abs)

/-- An eigenvector for a given eigenvalue; `k` is the unit vector to take when all are. -/
def eigenvector2 (M : Mat (Cplx α)) (l : Cplx α) (k : Nat) : Cplx α × Cplx α :=
  let (a, b) := (M.get 0 1, l - M.get 0 0)
  let (c, d) := (l - M.get 1 1, M.get 1 0)
  let n := a.normSq + b.normSq
  let m := c.normSq + d.normSq
  if le n 1e-30 && le m 1e-30 then if k = 0 then (.one, .zero) else (.zero, .one)
  else if lt n m then standardVector c d else standardVector a b

/-- Eigenvalues and eigenvectors of a two-by-two matrix, the eigenvalue closer to the last entry last;
where neither is, that with the larger imaginary part comes first. -/
def eigen2 (M : Mat (Cplx α)) : Eigen2 α :=
  let half := (M.get 0 0 + M.get 1 1).shrink 2.0
  let gap := (M.get 0 0 - M.get 1 1).shrink 2.0
  let root := (half * half - M.det2).sqrt
  let (l, r) := (half + root, half - root)
  let swap := if lt gap.normSq 1e-24 then lt l.im r.im else lt (gap.re * root.re + gap.im * root.im) 0.0
  let (l, r) := if swap then (r, l) else (l, r)
  let (x₁, y₁) := M.eigenvector2 l 0
  let (x₂, y₂) := M.eigenvector2 r 1
  ⟨l, r, square2 x₁ x₂ y₁ y₂⟩

def realPart (M : Mat (Cplx α)) : Mat (Cplx α) := M.map fun z => .ofReal z.re

def imaginaryPart (M : Mat (Cplx α)) : Mat (Cplx α) := M.map fun z => .ofReal z.im

end Mat

def Routines.byRotations : Routines α :=
  { eigen2 := Mat.eigen2
    eigenUnitary := Mat.eigenNormal
    realBasis := fun M => Mat.commonBasis M.realPart M.imaginaryPart
    cosineSine := CosineSine.ofUnitary }

/-! ### One qubit -/

def shapeText : List Nat → String
  | [] => "()"
  | [n] => "(" ++ toString n ++ ",)"
  | ns => "(" ++ ", ".intercalate (ns.map toString) ++ ")"

def Operand.toOperator : Operand α → Outcome (UnitaryOperator α)
  | .operator u => .ok u
  | x@(.array _) | x@(.texts ..) | x@(.objects ..) => UnitaryOperator.ofOperand x Option.none
  | _ => .error (.unfit .name)

/-- A position, on its own, stands for the list that holds only it. -/
def Operand.positioned (x : Operand α) : Operand α := if x.isPosition then .list [x] else x

namespace OneQubit

/-- Which gates a one-qubit unitary is written with. -/
inductive Basis where
  | zyz | u3
deriving DecidableEq, Repr

def Basis.ofOperand : Operand α → Outcome Basis
  | .text "zyz" => .ok .zyz
  | .text "u3" => .ok .u3
  | .text s => .error (.basis s)
  | x => .error (.basis x.shown)

/-- The determinant of a two by two array, which is a number of the array's kind. -/
def det (t : Tensor α) : Outcome (Operand α) :=
  match t.toMat? with
  | some U =>
    if U.rows < 2 ∨ U.cols < 2 then .error (.unfit .index)
    else .ok (.ofEntryPlain t.element U.det2)
  | none => .error (.unfit .index)

/-- Angles of rotations, and a global phase. -/
structure Angles (α : Type) where
  phase : α
  theta : α
  phi : α
  lam : α

/-- `U` is `e^{i phase}` times the rotations by `phi` about the third, `theta` about the second and
`lam` about the third axis. -/
def zyz (U : Mat (Cplx α)) : Angles α :=
  let turned := U.det2.arg
  let first := (U.get 1 1).arg
  let second := (U.get 1 0).arg
  { phase := 0.5 * turned
    theta := 2.0 * atan2 (U.get 1 0).abs (U.get 0 0).abs
    phi := first + second - turned
    lam := first - second }

def u3 (U : Mat (Cplx α)) : Angles α :=
  let a := zyz U
  { a with phase := a.phase - (a.phi + a.lam) / 2.0 }

def gates (basis : Basis) (U : Mat (Cplx α)) (q : Operand α) : Plan α Unit := do
  match basis with
  | .zyz =>
    let a := zyz U
    Plan.turnBy .rz a.lam q
    Plan.turnBy .ry a.theta q
    Plan.turnBy .rz a.phi q
    Plan.globalPhase (.real a.phase)
  | .u3 =>
    let a := u3 U
    Plan.u3 (.real a.theta) (.real a.phi) (.real a.lam) q
    Plan.globalPhase (.real a.phase)

/-- The gates of an operand that is a one-qubit unitary, on the one qubit given. -/
def plan (basis : Basis) (unitary indices : Operand α) : Plan α Unit := do
  let indices := indices.positioned
  let count ← Plan.get indices.length
  if count ≠ 1 then Plan.fail (.oneQubitIndices count)
  let u ← Plan.get unitary.toOperator
  if u.numQubits ≠ 1 then Plan.fail (.oneQubitShape (shapeText u.data.shape))
  match u.data.toMat? with
  | none => Plan.fail (.unfit .index)
  | some U => gates basis U (← Plan.get (indices.item 0))

end OneQubit

end QuantumCircuits
