import QuantumCircuits.Synthesis.ControlledX
import QuantumCircuits.Synthesis.OneQubit
import QuantumCircuits.Unitary.Gate

/-!
# Synthesis — Controlled rotation

Rotations under many controls.  A matrix with determinant one and one real diagonal is
`(A† X A X)²` for a one-qubit gate `A`, so putting it under control takes four multi-controlled
negations between uncontrolled gates; each half of the controls lends the other its ancillas.
-/

namespace QuantumCircuits.ControlledRotation

variable {α : Type} [Scalar α]

open Scalar Plan

def close (x y : α) : Bool := Scalar.isClose x y 1e-5 1e-8

/-- How a matrix with a real diagonal is written: whether that is the second diagonal, and the two
numbers that determine it. -/
structure Shape (α : Type) where
  secondReal : Bool
  x : Cplx α
  z : Cplx α

def shape (t : Tensor α) : Outcome (Shape α) := do
  if t.shape ≠ [2, 2] then .error (.su2Shape (shapeText t.shape))
  if !t.isUnitary .usual then .error .su2NotUnitary
  let U : Mat (Cplx α) := ⟨2, 2, t.entries⟩
  if !(Cplx.one.isClose U.det2 1e-5 1e-8) then .error .su2Determinant
  let mainReal := close (U.get 0 0).im 0.0 && close (U.get 1 1).im 0.0
  let secondReal := close (U.get 0 1).im 0.0 && close (U.get 1 0).im 0.0
  if !mainReal && !secondReal then .error .su2Diagonal
  if secondReal then .ok ⟨true, U.get 0 1, U.get 1 1⟩
  else .ok ⟨false, .ofReal (-(U.get 0 1).re), U.get 1 1 - ⟨0.0, (U.get 0 1).im⟩⟩

def root (s : Shape α) : Mat (Cplx α) :=
  if s.z.isClose (-.one) 1e-5 1e-8 then .square2 .one .zero .zero .unit
  else
    let inner := sqrt ((s.z.re + 1.0) / 2.0) + 1.0
    let scale := 2.0 * sqrt ((s.z.re + 1.0) * inner)
    let alpha : Cplx α := ⟨sqrt (inner / 2.0), s.z.im / scale⟩
    let beta := s.x.shrink scale
    .square2 alpha (-beta.conj) beta alpha.conj

/-- The logged gates of a one-qubit circuit: a rotation and a phase, each left out when zero. -/
structure Factor (α : Type) where
  rotation : Option (Operand α)
  phase : Option (Operand α)

def Factor.ofAngles (theta phi lam phase : Operand α) : Outcome (Factor α) := do
  .ok ⟨← checkAngles (.list [theta, phi, lam]), ← checkAngles phase⟩

def factor (A : Mat (Cplx α)) : Outcome (Factor α) := do
  let u ← UnitaryOperator.build (.ofMat A) none
  let a := OneQubit.u3 ((u.data.toMat?).getD A)
  Factor.ofAngles (.real a.theta) (.real a.phi) (.real a.lam) (.real a.phase)

def invertAngles : Operand α → Outcome (Operand α)
  | x => do
    .ok (.list [← (← x.item 0).negate, ← (← x.item 2).negate, ← (← x.item 1).negate])

def Factor.inverse (f : Factor α) : Outcome (Factor α) := do
  let rotation ← match f.rotation with
    | none => .ok none
    | some x => checkAngles (← invertAngles x)
  let phase ← match f.phase with
    | none => .ok none
    | some x => checkAngles (← x.negate)
  .ok ⟨rotation, phase⟩

/-- Puts the gates on a qubit, which has to be a whole number; an inverse has its phase first. -/
def Factor.put (f : Factor α) (inverse : Bool) (q : Operand α) : Plan α Unit := do
  if !q.isInt then fail .addIndexType
  let rotate : Plan α Unit := match f.rotation with
    | some x => call (.of .u3 .plain) [x, q]
    | none => skip
  let shift : Plan α Unit := match f.phase with
    | some x => globalPhase x
    | none => skip
  if inverse then do shift; rotate else do rotate; shift

/-- Two rounds of a chain, the gates, another chain and their inverse, in a basis with a real second diagonal. -/
def rounds (secondReal : Bool) (f g : Factor α) (target : Operand α) (first second : Plan α Unit) :
    Plan α Unit := do
  if !secondReal then on .h target
  first
  f.put false target
  second
  g.put true target
  first
  f.put false target
  second
  g.put true target
  if !secondReal then on .h target

/-- A matrix with determinant one and a real diagonal, on the target under all controls. -/
def plan (n : Nat) (controls target : Operand α) (t : Tensor α) : Plan α Unit := do
  let s ← Plan.get (shape t)
  let f ← Plan.get (factor (root s))
  let g ← Plan.get f.inverse
  let controls := controls.listed
  let m ← Plan.get controls.length
  let k₁ := (m + 1) / 2
  let k₂ := m / 2
  let first : Plan α Unit := do
    Chain.plan n (← Plan.get (controls.cut 0 k₁)) target (← Plan.get (controls.cut k₁ (2 * k₁ - 2)))
  let second : Plan α Unit := do
    Chain.plan n (← Plan.get (controls.cut k₁ m)) target (← Plan.get (controls.cut (k₁ - k₂ + 2) k₁))
  rounds s.secondReal f g target first second

def matrix (word : String) (f : α → Mat (Cplx α)) (deepens : Bool) (angle : Operand α) :
    Outcome (Tensor α) := do
  .ok (.ofMat (← GateMatrix.rotation word f deepens angle).matrix)

/-- A rotation about an axis, on one target under a list of controls. -/
def rotation (n : Nat) (axis : Axis) (angle controls target : Operand α) : Plan α Unit := do
  if (← Plan.get controls.length) = 1 then
    let c ← Plan.get (controls.item 0)
    match axis with
    | .x =>
      on .s target
      cx c target
      turn .ry (← Plan.get (do (← angle.negate).quotient 2.0)) target
      cx c target
      turn .ry (← Plan.get (angle.quotient 2.0)) target
      on .sdg target
    | .y =>
      turn .ry (← Plan.get (angle.quotient 2.0)) target
      cx c target
      turn .ry (← Plan.get (do (← angle.negate).quotient 2.0)) target
      cx c target
    | .z =>
      turn .rz (← Plan.get (angle.quotient 2.0)) target
      cx c target
      turn .rz (← Plan.get (do (← angle.negate).quotient 2.0)) target
      cx c target
  else
    let M ← Plan.get (match axis with
      | .x => matrix "RX" .rotationX true angle
      | .y => matrix "RY" .rotationY true angle
      | .z => matrix "RZ" .rotationZ false angle)
    plan n controls target M

end QuantumCircuits.ControlledRotation
