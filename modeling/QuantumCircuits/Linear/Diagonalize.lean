import QuantumCircuits.Linear.Matrix

/-!
# Linear — Diagonalize

Diagonalization by plane rotations.  `rotatePairs` sweeps over all pairs of rows and turns each by
the angle that brings two commuting Hermitian matrices closest to diagonal form at once; the turns
are collected in a unitary matrix.  A Hermitian matrix is the pair of itself and zero, and a normal
matrix is the pair of its Hermitian parts, so the same sweeps serve both.
-/

namespace QuantumCircuits.Mat

variable {α : Type} [Scalar α]

open Scalar

/-- Two Hermitian matrices and the basis found so far. -/
structure Turning (α : Type) where
  first : Mat (Cplx α)
  second : Mat (Cplx α)
  basis : Mat (Cplx α)
  moved : Bool

/-- Columns `p` and `q` are replaced by `c p + s q` and `c q - s* p`. -/
def turnColumns (M : Mat (Cplx α)) (p q : Nat) (c : α) (s : Cplx α) : Mat (Cplx α) :=
  (List.range M.rows).foldl (fun M i =>
    let x := M.get i p
    let y := M.get i q
    (M.set i p (x.scale c + s * y)).set i q (y.scale c - s.conj * x)) M

def turnRows (M : Mat (Cplx α)) (p q : Nat) (c : α) (s : Cplx α) : Mat (Cplx α) :=
  (List.range M.cols).foldl (fun M j =>
    let x := M.get p j
    let y := M.get q j
    (M.set p j (x.scale c + s.conj * y)).set q j (y.scale c - s * x)) M

/-- The coordinates of the block of a Hermitian matrix at rows `p` and `q`. -/
def blockCoordinates (M : Mat (Cplx α)) (p q : Nat) : α × α × α :=
  let b := M.get p q
  let d := M.get q p
  ((M.get p p).re - (M.get q q).re, b.re + d.re, b.im - d.im)

def turnPair (t : Turning α) (p q : Nat) : Turning α :=
  let (x₁, y₁, z₁) := blockCoordinates t.first p q
  let (x₂, y₂, z₂) := blockCoordinates t.second p q
  let a := x₁ * x₁ + y₁ * y₁ + z₁ * z₁
  let d := x₂ * x₂ + y₂ * y₂ + z₂ * z₂
  let b := x₁ * x₂ + y₁ * y₂ + z₁ * z₂
  let w := atan2 (2.0 * b) (a - d) / 2.0
  let x := cos w * x₁ + sin w * x₂
  let y := cos w * y₁ + sin w * y₂
  let z := cos w * z₁ + sin w * z₂
  let n := sqrt (x * x + y * y + z * z)
  if le n 1e-300 then t
  else
    let sign : α := if lt x 0.0 then -1.0 else 1.0
    let x := sign * x / n
    let y := sign * y / n
    let z := sign * z / n
    let c := sqrt (0.5 + x / 2.0)
    let s : Cplx α := ⟨y / (2.0 * c), -(z / (2.0 * c))⟩
    if le (Cplx.abs s) 1e-17 then t
    else
      { first := turnRows (turnColumns t.first p q c s) p q c s
        second := turnRows (turnColumns t.second p q c s) p q c s
        basis := turnColumns t.basis p q c s
        moved := true }

def turnAll (t : Turning α) : Turning α :=
  let n := t.first.rows
  (List.range n).foldl (fun t p =>
    (List.range n).foldl (fun t q => if p < q then turnPair t p q else t) t) t

/-- Sweeps until no pair moves, at most as often as the fuel allows. -/
def rotatePairs : Nat → Turning α → Turning α
  | 0, t => t
  | fuel + 1, t =>
    let t := turnAll { t with moved := false }
    if t.moved then rotatePairs fuel t else t

/-- A unitary matrix whose columns diagonalize two commuting Hermitian matrices. -/
def commonBasis (A B : Mat (Cplx α)) : Mat (Cplx α) :=
  (rotatePairs 60 ⟨A, B, identity A.rows, false⟩).basis

def hermitianPart (M : Mat (Cplx α)) : Mat (Cplx α) := scale 0.5 (M + M.adjoint)

/-- The other Hermitian part: `M` is the first plus the imaginary unit times this one. -/
def skewPart (M : Mat (Cplx α)) : Mat (Cplx α) := smul ⟨0.0, -0.5⟩ (M - M.adjoint)

def diagonalIn (M V : Mat (Cplx α)) : Array (Cplx α) := (V.adjoint * M * V).diagonalEntries

/-- Eigenvalues and orthonormal eigenvectors of a normal matrix. -/
def eigenNormal (M : Mat (Cplx α)) : Array (Cplx α) × Mat (Cplx α) :=
  let V := commonBasis (hermitianPart M) (skewPart M)
  (diagonalIn M V, V)

def ofLower (M : Mat (Cplx α)) : Mat (Cplx α) :=
  ofFn M.rows M.cols fun i j =>
    if i = j then .ofReal (M.get i i).re else if j < i then M.get i j else (M.get j i).conj

/-- The eigenvalues of the Hermitian matrix that has the lower triangle of `M`. -/
def eigenvaluesHermitian (M : Mat (Cplx α)) : Array α :=
  let H := ofLower M
  let V := commonBasis H (ofFn M.rows M.cols fun _ _ => .zero)
  (diagonalIn H V).map Cplx.re

end QuantumCircuits.Mat

/-! ### Cosines and sines

A unitary matrix of even size, cut into four blocks, is a pair of unitary blocks times a matrix of
cosines and sines times another pair.  `orthogonalize` turns pairs of columns until all are
orthogonal, which gives the singular values of the first block; the other factors follow from it.
-/

namespace QuantumCircuits

variable {α : Type} [Scalar α]

open Scalar

namespace Mat

/-- Columns that are made orthogonal, and the turns made so far. -/
structure Columns (α : Type) where
  matrix : Mat (Cplx α)
  basis : Mat (Cplx α)
  moved : Bool

def columnProduct (M : Mat (Cplx α)) (p q : Nat) : Cplx α :=
  dot M.rows (fun i => (M.get i p).conj) (fun i => M.get i q)

def orthogonalizePair (t : Columns α) (p q : Nat) : Columns α :=
  let a := (t.matrix.columnProduct p p).re
  let d := (t.matrix.columnProduct q q).re
  let b := t.matrix.columnProduct p q
  if le b.abs (1e-15 * sqrt (a * d)) then t
  else
    let x := a - d
    let y := 2.0 * b.re
    let z := 2.0 * b.im
    let n := sqrt (x * x + y * y + z * z)
    if le n 1e-300 then t
    else
      let sign : α := if lt x 0.0 then -1.0 else 1.0
      let x := sign * x / n
      let y := sign * y / n
      let z := sign * z / n
      let c := sqrt (0.5 + x / 2.0)
      let s : Cplx α := ⟨y / (2.0 * c), -(z / (2.0 * c))⟩
      { matrix := turnColumns t.matrix p q c s
        basis := turnColumns t.basis p q c s
        moved := true }

def orthogonalizeAll (t : Columns α) : Columns α :=
  let n := t.matrix.cols
  (List.range n).foldl (fun t p =>
    (List.range n).foldl (fun t q => if p < q then orthogonalizePair t p q else t) t) t

/-- Sweeps until no pair moves, at most as often as the fuel allows. -/
def orthogonalize : Nat → Columns α → Columns α
  | 0, t => t
  | fuel + 1, t =>
    let t := orthogonalizeAll { t with moved := false }
    if t.moved then orthogonalize fuel t else t

def length (v : Array (Cplx α)) : α := sqrt (v.foldl (fun s z => s + z.normSq) 0.0)

def inner (v w : Array (Cplx α)) : Cplx α :=
  (v.zip w).foldl (fun s p => s + p.1.conj * p.2) .zero

def reject (basis : List (Array (Cplx α))) (v : Array (Cplx α)) : Array (Cplx α) :=
  basis.foldl (fun v b => let c := inner b v; (v.zip b).map fun p => p.1 - c * p.2) v

def unitVector (n k : Nat) : Array (Cplx α) :=
  (Array.range n).map fun i => if i = k then .one else .zero

def longest (vs : List (Array (Cplx α))) : Array (Cplx α) :=
  vs.foldl (fun best v => if lt (length best) (length v) then v else best) #[]

/-- The next vector of an orthonormal basis: the given one made orthogonal, or any other direction
when nothing is left of it. -/
def nextVector (n : Nat) (basis : List (Array (Cplx α))) (v : Array (Cplx α)) :
    Array (Cplx α) :=
  let w := reject basis (reject basis v)
  let w := if lt (length w) 1e-12 then
      reject basis (longest ((List.range n).map fun k => reject basis (unitVector n k)))
    else w
  let s := length w
  w.map fun z => z.shrink s

def orthonormal (n : Nat) (vs : List (Array (Cplx α))) : List (Array (Cplx α)) :=
  vs.foldl (fun basis v => basis ++ [nextVector n basis v]) []

def decreasing (xs : List α) : List Nat :=
  (xs.zipIdx.mergeSort fun p q => le q.1 p.1).map (·.2)

/-- Orthonormal columns along the columns of a matrix, the longest treated first. -/
def directions (M : Mat (Cplx α)) : Mat (Cplx α) :=
  let columns := (List.range M.cols).map M.column
  let order := decreasing (columns.map length)
  let basis := orthonormal M.rows (order.map fun k => columns.getD k #[])
  let placed := order.zip basis
  ofColumns M.rows ((Array.range M.cols).map fun k => (placed.lookup k).getD #[])

end Mat

/-- A unitary matrix as `(u₁ ⊕ u₂) [C, -S; S, C] (v₁ ⊕ v₂)`. -/
structure CosineSine (α : Type) where
  u₁ : Mat (Cplx α)
  u₂ : Mat (Cplx α)
  angles : List α
  v₁ : Mat (Cplx α)
  v₂ : Mat (Cplx α)

namespace CosineSine

open Mat

def ofUnitary (U : Mat (Cplx α)) : CosineSine α :=
  let p := U.rows / 2
  let t := orthogonalize 60 ⟨U.block 0 0 p p, identity p, false⟩
  let below := U.block p 0 p p * t.basis
  let u₁ := directions t.matrix
  let u₂ := directions below
  let cosines := (List.range p).map fun k => Cplx.re (inner (u₁.column k) (t.matrix.column k))
  let sines := (List.range p).map fun k => Cplx.re (inner (u₂.column k) (below.column k))
  let scaled (xs : List α) (M : Mat (Cplx α)) : Mat (Cplx α) :=
    ofFn p p fun i j => Cplx.scale (xs.getD i 0.0) (M.get i j)
  let v₂ := scaled cosines (u₂.adjoint * U.block p p p p) - scaled sines (u₁.adjoint * U.block 0 p p p)
  { u₁, u₂, v₂
    angles := cosines.zipWith (fun c s => atan2 s c) sines
    v₁ := t.basis.adjoint }

end CosineSine

end QuantumCircuits
