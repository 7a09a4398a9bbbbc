import QuantumCircuits.Synthesis.OneQubit

/-!
# Synthesis — Weyl

Two-qubit unitaries up to one-qubit gates.  In the magic basis a product of one-qubit gates is a
real orthogonal matrix, so a two-qubit unitary is
`e^{i phase} (k₁l ⊗ k₁r) exp(i (a XX + b YY + c ZZ)) (k₂l ⊗ k₂r)`, with coordinates that can be
flipped into the chamber `π/4 ≥ a ≥ b ≥ |c|`.
-/

namespace QuantumCircuits.Weyl

variable {α : Type} [Scalar α]

open Scalar

def magic : Mat (Cplx α) :=
  .ofRows [[.one, .unit, .zero, .zero], [.zero, .zero, .unit, .one],
    [.zero, .zero, .unit, .ofReal (-1.0)], [.one, ⟨0.0, -1.0⟩, .zero, .zero]]

def magicInverse : Mat (Cplx α) := Mat.scale 0.5 (magic : Mat (Cplx α)).adjoint

def fromMagic (U : Mat (Cplx α)) : Mat (Cplx α) := magic * U * magicInverse

def toMagic (U : Mat (Cplx α)) : Mat (Cplx α) := magicInverse * U * magic

def flipX : Mat (Cplx α) := .square2 .zero .unit .unit .zero

def flipY : Mat (Cplx α) := .square2 .zero .one (.ofReal (-1.0)) .zero

def flipZ : Mat (Cplx α) := .square2 .unit .zero .zero ⟨0.0, -1.0⟩

/-- Puts a position into the first group whose representative is close, or into a new group. -/
def insertGroup (atol : α) (z : Cplx α) (i : Nat) :
    List (Cplx α × List Nat) → List (Cplx α × List Nat)
  | [] => [(z, [i])]
  | (k, is) :: rest =>
    if le (Cplx.abs (z - k)) atol then (k, is ++ [i]) :: rest
    else (k, is) :: insertGroup atol z i rest

def partition (atol : α) (zs : List (Cplx α)) : List (List Nat) :=
  (zs.zipIdx.foldl (fun gs (p : Cplx α × Nat) => insertGroup atol p.1 p.2 gs) []).map (·.2)

def largestAt (xs : List α) : Nat :=
  (xs.zipIdx.foldl (fun (best : Option (α × Nat)) p => match best with
    | none => some p
    | some b => if lt b.1 p.1 then some p else some b) none).elim 0 (·.2)

def withoutPhase (v : List (Cplx α)) (i : Nat) : List (Cplx α) :=
  let z := v.getD i .zero
  let w := (z.shrink z.abs).conj
  v.map (w * ·)

/-- A vector turned so that its largest entry, or the one at an index, is real. -/
def removePhase (v : List (Cplx α)) (index : Option Int) : Outcome (List (Cplx α)) := do
  match index with
  | none =>
    if v.isEmpty then .error (.unfit .value)
    .ok (withoutPhase v (largestAt (v.map Cplx.abs)))
  | some i =>
    if 0 ≤ i ∧ i < v.length then .ok (withoutPhase v i.toNat)
    else if i < 0 ∧ -(v.length : Int) ≤ i then .ok (withoutPhase v (i + v.length).toNat)
    else .error (.unfit .index)

/-- A product of two one-qubit gates, up to a phase. -/
structure Factors (α : Type) where
  left : Mat (Cplx α)
  right : Mat (Cplx α)
  phase : α

/-- The factors of a product of one-qubit gates with determinant one. -/
def factors (K : Mat (Cplx α)) : Outcome (Factors α) := do
  let first := K.block 0 0 2 2
  let R := if lt first.det2.abs 0.1 then K.block 2 0 2 2 else first
  if lt R.det2.abs 0.1 then .error .rightDeterminant
  let scaled (M : Mat (Cplx α)) : Mat (Cplx α) := let r := M.det2.sqrt; M.map fun z => z.div r
  let R := scaled R
  let T := K * Mat.kron (Mat.identity 2) R.adjoint
  let L := Mat.ofFn 2 2 fun i j => T.get (2 * i) (2 * j)
  if lt L.det2.abs 0.9 then .error .leftDeterminant
  let phase := L.det2.arg / 2.0
  let L := scaled L
  let overlap := (Mat.kron L R).adjoint * K
  if lt 1e-13 (Scalar.abs (overlap.trace.abs - 4.0)) then .error .productDeviation
  .ok ⟨L, R, phase⟩

/-- Coordinates, in the order in which they are treated, with the gates around them. -/
structure Chamber (α : Type) where
  x : α
  y : α
  z : α
  k₁l : Mat (Cplx α)
  k₁r : Mat (Cplx α)
  k₂l : Mat (Cplx α)
  k₂r : Mat (Cplx α)
  phase : α
  /-- How many of the first two coordinates were reflected. -/
  reflected : Nat

namespace Chamber

def lowerX (c : Chamber α) : Chamber α :=
  if lt (pi / 2.0) c.x then
    { c with
      x := c.x - 3.0 * (pi / 2.0)
      k₁l := c.k₁l * flipY
      k₁r := c.k₁r * flipY
      phase := c.phase + pi / 2.0 }
  else c

def lowerY (c : Chamber α) : Chamber α :=
  if lt (pi / 2.0) c.y then
    { c with
      y := c.y - 3.0 * (pi / 2.0)
      k₁l := c.k₁l * flipX
      k₁r := c.k₁r * flipX
      phase := c.phase + pi / 2.0 }
  else c

def reflectX (c : Chamber α) : Chamber α :=
  if lt (pi / 4.0) c.x then
    { c with
      x := pi / 2.0 - c.x
      k₁l := c.k₁l * flipY
      k₂r := flipY * c.k₂r
      phase := c.phase - pi / 2.0
      reflected := c.reflected + 1 }
  else c

def reflectY (c : Chamber α) : Chamber α :=
  if lt (pi / 4.0) c.y then
    { c with
      y := pi / 2.0 - c.y
      k₁l := c.k₁l * flipX
      k₂r := flipX * c.k₂r
      phase := if c.reflected + 1 = 1 then c.phase + pi / 2.0 - pi else c.phase + pi / 2.0
      reflected := c.reflected + 1 }
  else c

def lowerZ (c : Chamber α) : Chamber α :=
  if lt (pi / 2.0) c.z then
    { c with
      z := c.z - 3.0 * (pi / 2.0)
      k₁l := c.k₁l * flipZ
      k₁r := c.k₁r * flipZ
      phase := if c.reflected = 1 then c.phase + pi / 2.0 - pi else c.phase + pi / 2.0 }
  else c

def reflectZ (c : Chamber α) : Chamber α :=
  if c.reflected = 1 then
    { c with
      z := pi / 2.0 - c.z
      k₁l := c.k₁l * flipZ
      k₂r := flipZ * c.k₂r
      phase := c.phase + pi / 2.0 }
  else c

def centerZ (c : Chamber α) : Chamber α :=
  if lt (pi / 4.0) c.z then
    { c with
      z := c.z - pi / 2.0
      k₁l := c.k₁l * flipZ
      k₁r := c.k₁r * flipZ
      phase := c.phase - pi / 2.0 }
  else c

def flip (c : Chamber α) : Chamber α :=
  c.lowerX.lowerY.reflectX.reflectY.lowerZ.reflectZ.centerZ

end Chamber

def lastPhase (d : Nat → α) : α := -(d 0) - d 1 - d 2

def coordinate (d : Nat → α) (i : Nat) : α := remainder ((d i + lastPhase d) / 2.0) (2.0 * pi)

def offCenter (w : α) : α :=
  let m := remainder w (pi / 2.0)
  Scalar.min m (pi / 2.0 - m)

/-- The order in which the coordinates are treated: by how far off they are, the smallest last. -/
def order (d : Nat → α) : Nat × Nat × Nat :=
  let keyed := [0, 1, 2].map fun i => (offCenter (coordinate d i), i)
  match (keyed.mergeSort fun p q => le p.1 q.1).map (·.2) with
  | [i, j, k] => (j, k, i)
  | _ => (0, 1, 2)

def phases (zs : Array (Cplx α)) (i : Nat) : α := -((zs.getD i .zero).arg) / 2.0

/-- A two-qubit unitary in coordinates. -/
structure Decomposition (α : Type) where
  a : α
  b : α
  c : α
  k₁l : Mat (Cplx α)
  k₁r : Mat (Cplx α)
  k₂l : Mat (Cplx α)
  k₂r : Mat (Cplx α)
  phase : α

def checkFinite (M : Mat (Cplx α)) : Outcome Unit :=
  if M.entries.all fun z => isFinite z.re && isFinite z.im then .ok () else .error (.unfit .value)

def decompose (R : Routines α) (unitary : Mat (Cplx α)) : Outcome (Decomposition α) := do
  checkFinite unitary
  let det := unitary.det
  let U := Mat.smul (det.rpow (-0.25)) unitary
  let M := toMagic U
  let square := M.transpose * M
  let P := R.realBasis square
  let d := phases (Mat.diagonalIn square P)
  let (i, j, k) := order d
  let columns := [P.column i, P.column j, P.column k, P.column 3]
  let turned := [d i, d j, d k, lastPhase d]
  let P := Mat.ofColumns 4 columns.toArray
  let P := if lt P.det.re 0.0 then
      Mat.ofFn 4 4 fun r c => if c = 3 then -(P.get r c) else P.get r c
    else P
  let K₁ := fromMagic (M * P * Mat.diagonal (turned.map Cplx.turn).toArray)
  let K₂ := fromMagic P.transpose
  let f₁ ← factors K₁
  let f₂ ← factors K₂
  let c := Chamber.flip
    { x := coordinate d i
      y := coordinate d j
      z := coordinate d k
      k₁l := f₁.left
      k₁r := f₁.right
      k₂l := f₂.left
      k₂r := f₂.right
      phase := det.arg / 4.0 + (f₁.phase + f₂.phase)
      reflected := 0 }
  .ok ⟨c.y, c.x, c.z, c.k₁l, c.k₁r, c.k₂l, c.k₂r, c.phase⟩

/-- The coordinates of a two-qubit unitary, flipped into the chamber.  A real matrix has no real root
of a negative determinant. -/
def coordinates (R : Routines α) (real : Bool) (unitary : Mat (Cplx α)) : Outcome (List α) := do
  if unitary.rows ≠ 4 ∨ unitary.cols ≠ 4 then .error (.unfit .value)
  checkFinite unitary
  let det := unitary.det
  if real && lt det.re 0.0 then .error (.unfit .value)
  let root := det.rpow 0.25
  let M := toMagic (unitary.map fun z => z.div root)
  let square := M.transpose * M
  let d := phases (Mat.diagonalIn square (R.realBasis square))
  let (i, j, k) := order d
  let none : Mat (Cplx α) := Mat.identity 2
  let c := Chamber.flip ⟨coordinate d i, coordinate d j, coordinate d k, none, none, none, none, 0.0, 0⟩
  .ok [c.y, c.x, c.z]

/-- `exp(i (a XX + b YY + c ZZ))`, as its four entries on and off the diagonals. -/
def interaction (a b c : α) : Mat (Cplx α) :=
  let inner : Cplx α := Cplx.turn c
  let outer : Cplx α := Cplx.turn (-c)
  Mat.ofFn 4 4 fun i j =>
    if i = j then
      if i = 0 ∨ i = 3 then Cplx.scale (cos (a - b)) inner else Cplx.scale (cos (a + b)) outer
    else if i + j = 3 then
      if i = 0 ∨ i = 3 then Cplx.unit * Cplx.scale (sin (a - b)) inner
      else Cplx.unit * Cplx.scale (sin (a + b)) outer
    else .zero

/-- A matrix in the magic basis or back from it, if it has the size for that. -/
def changeBasis (U : Mat (Cplx α)) (toMagicBasis : Bool) : Outcome (Mat (Cplx α)) :=
  if U.rows ≠ 4 ∨ U.cols ≠ 4 then .error (.unfit .value)
  else .ok (if toMagicBasis then toMagic U else fromMagic U)

def Decomposition.unitary (w : Decomposition α) : Mat (Cplx α) :=
  Mat.smul (Cplx.turn w.phase)
    (Mat.kron w.k₁l w.k₁r * interaction w.a w.b w.c * Mat.kron w.k₂l w.k₂r)

end QuantumCircuits.Weyl
