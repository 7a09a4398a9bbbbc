import QuantumCircuits.Synthesis.Weyl

/-!
# Synthesis — Two qubits

Two-qubit unitaries with at most three controlled negations.  The coordinates of the unitary tell
how many are needed; the one-qubit gates between them are fixed matrices times those of the
coordinates.
-/

namespace QuantumCircuits.TwoQubit

variable {α : Type} [Scalar α]

open Scalar

/-- The overlaps that can be reached with no, one, two and three controlled negations. -/
def traces (a b c : α) : List (Cplx α) :=
  [⟨4.0 * (cos a * cos b * cos c), 4.0 * (sin a * sin b * sin c)⟩,
    ⟨4.0 * (cos (pi / 4.0 - a) * cos (0.0 - b) * cos c),
      4.0 * (sin (pi / 4.0 - a) * sin (0.0 - b) * sin c)⟩,
    .ofReal (4.0 * cos c), .ofReal 4.0]

def fidelity (t : Cplx α) : α := (4.0 + t.abs * t.abs) / 20.0

/-- How many controlled negations a unitary with given coordinates needs. -/
def negations (a b c : α) : Nat := Weyl.largestAt ((traces a b c).map fidelity)

def halves (rows : List (List (Int × Int))) : Mat (Cplx α) :=
  .ofRows (rows.map fun r => r.map fun p => ⟨ofInt p.1 * 0.5, ofInt p.2 * 0.5⟩)

/-- Entries of the fixed matrices that are divided by the root of two. -/
def roots (rows : List (List (Int × Int))) : Mat (Cplx α) :=
  let s : α := 1.0 / sqrt 2.0
  .ofRows (rows.map fun r => r.map fun p => ⟨ofInt p.1 * s, ofInt p.2 * s⟩)

/-- The gates without a controlled negation, in the order in which they are applied. -/
def layers₀ (w : Weyl.Decomposition α) : List (Mat (Cplx α)) := [w.k₁r * w.k₂r, w.k₁l * w.k₂l]

/-- The controlled negation with the first qubit as its control. -/
def negation : Mat (Cplx α) :=
  Mat.ofFn 4 4 fun i j =>
    if (if i % 2 = 1 then 4 - i else i) = j then .one else .zero

def layers₁ (R : Routines α) (w : Weyl.Decomposition α) : Outcome (List (Mat (Cplx α))) := do
  let v ← Weyl.decompose R negation
  .ok [v.k₂r.adjoint * w.k₂r, v.k₂l.adjoint * w.k₂l, w.k₁r * v.k₁r.adjoint, w.k₁l * v.k₁l.adjoint]

def layers₂ (w : Weyl.Decomposition α) : List (Mat (Cplx α)) :=
  [roots [[(0, 1), (0, -1)], [(0, -1), (0, -1)]] * w.k₂r,
    roots [[(-1, 1), (0, 0)], [(0, 0), (-1, -1)]] * w.k₂l,
    roots [[(1, 0), (1, 0)], [(-1, 0), (1, 0)]] * Mat.rotationZ (2.0 * w.b)
      * halves [[(1, -1), (1, 1)], [(-1, 1), (1, 1)]],
    roots [[(0, 0), (-1, -1)], [(1, -1), (0, 0)]] * Mat.rotationZ (-2.0 * w.a)
      * halves [[(-1, 1), (-1, -1)], [(1, -1), (-1, -1)]],
    w.k₁r * halves [[(-1, -1), (1, -1)], [(-1, -1), (-1, 1)]],
    w.k₁l * halves [[(1, 1), (1, -1)], [(-1, -1), (1, -1)]]]

def layers₃ (w : Weyl.Decomposition α) : List (Mat (Cplx α)) :=
  [roots [[(0, 1), (0, -1)], [(0, -1), (0, -1)]] * w.k₂r,
    roots [[(-1, 1), (0, 0)], [(0, 0), (-1, -1)]] * w.k₂l,
    halves [[(-1, 1), (1, -1)], [(-1, -1), (-1, -1)]] * Mat.rotationZ (2.0 * w.b)
      * halves [[(1, -1), (1, 1)], [(-1, 1), (1, 1)]],
    halves [[(1, 1), (1, -1)], [(-1, -1), (1, -1)]] * Mat.rotationZ (-2.0 * w.a)
      * halves [[(-1, 1), (-1, -1)], [(1, -1), (-1, -1)]],
    halves [[(1, -1), (-1, -1)], [(1, -1), (1, 1)]] * Mat.rotationZ (-2.0 * w.c)
      * roots [[(-1, 0), (0, -1)], [(0, -1), (-1, 0)]],
    halves [[(-1, 1), (-1, 1)], [(1, 1), (-1, -1)]],
    w.k₁r * roots [[(0, -1), (0, 1)], [(0, 1), (0, 1)]],
    w.k₁l * roots [[(-1, 0), (1, 0)], [(-1, 0), (-1, 0)]]]

/-- The one-qubit gates around a number of controlled negations. -/
def layers (R : Routines α) (w : Weyl.Decomposition α) : Nat → Outcome (List (Mat (Cplx α)))
  | 0 => .ok (layers₀ w)
  | 1 => layers₁ R w
  | 2 => .ok (layers₂ w)
  | _ => .ok (layers₃ w)

/-- The phase that is left over by a number of controlled negations. -/
def leftover (w : Weyl.Decomposition α) (k : Nat) : α :=
  let p := w.phase - ofNat k * (-(pi / 4.0))
  if k = 2 then p + pi else p

/-- The one-qubit gates in pairs, with controlled negations between the pairs. -/
def interleave (first second : Operand α) : List (Mat (Cplx α)) → Plan α Unit
  | r :: l :: rest => do
    OneQubit.plan .u3 (.array (.ofMat r)) first
    OneQubit.plan .u3 (.array (.ofMat l)) second
    if !rest.isEmpty then Plan.cx first second
    interleave first second rest
  | _ => Plan.skip

def gates (R : Routines α) (U : Mat (Cplx α)) (indices : Operand α) : Plan α Unit := do
  let w ← Plan.get (Weyl.decompose R U)
  let k := negations w.a w.b w.c
  let ms ← Plan.get (layers R w k)
  interleave (← Plan.get (indices.item 0)) (← Plan.get (indices.item 1)) ms
  Plan.globalPhase (.real (leftover w k))

/-- The two-qubit unitary and the two qubits that operands stand for. -/
def operands (unitary indices : Operand α) : Outcome (Mat (Cplx α) × Operand α) := do
  let indices := indices.listed
  if (← indices.length) ≠ 2 then .error .twoQubitIndices
  let u ← unitary.toOperator
  if u.numQubits ≠ 2 then .error .twoQubitShape
  match u.data.toMat? with
  | some U => .ok (U, indices)
  | none => .error (.unfit .index)

def plan (R : Routines α) (unitary indices : Operand α) : Plan α Unit := do
  let (U, indices) ← Plan.get (operands unitary indices)
  gates R U indices

/-- The factor that brings a unitary of size `n` to determinant one. -/
def phaseFactor (real : Bool) (U : Mat (Cplx α)) : Cplx α :=
  let det := U.polarDet
  let p : α := -(1.0 / ofNat U.rows)
  if real then .ofReal (pow det.re p) else (det.rpow p).conj

/-- A unitary with determinant one, and the phase that was taken out. -/
def special (real : Bool) (U : Mat (Cplx α)) : Mat (Cplx α) × α :=
  let f := phaseFactor real U
  (U.map fun z => z.div f, f.arg)

/-- A diagonal that turns a unitary with determinant one into one with a real trace invariant, which
needs two controlled negations only. -/
def realTrace (U : Mat (Cplx α)) : Mat (Cplx α) :=
  let u := U.get
  let p := -(u 1 3) * u 2 0 + u 1 2 * u 2 1 + u 1 1 * u 2 2 - u 1 0 * u 2 3
  let q := u 0 3 * u 3 0 - u 0 2 * u 3 1 - u 0 1 * u 3 2 + u 0 0 * u 3 3
  let psi := atan2 (p.im + q.im) (p.re - q.re)
  Mat.diagonal #[.one, .one, .turn (-psi), .turn psi]

/-- The gates of a two-qubit unitary up to a diagonal, which is given back; `inner` are those of the product
with the diagonal. -/
def upToDiagonal (inner : Operand α → Operand α → Plan α Unit) (unitary indices : Operand α) :
    Plan α (Mat (Cplx α)) := do
  let (U, indices) ← Plan.get (operands unitary indices)
  let (S, phase) := special false U
  let D := realTrace S
  inner (.array (.ofMat (D * S))) indices
  Plan.globalPhase (.real phase)
  pure D.conj

def planUpToDiagonal (R : Routines α) : Operand α → Operand α → Plan α (Mat (Cplx α)) := upToDiagonal (plan R)

end QuantumCircuits.TwoQubit
