import QuantumCircuits.Linear.Diagonalize
import QuantumCircuits.Fault

/-!
# Linear — Tensor

Arrays of any number of axes, as callers hand them in: a shape, what kind of number the entries
are, and the entries in row-major order.  Whole-number entries are kept as whole numbers, so an
assignment into such an array cuts the new value off toward zero.
-/

namespace QuantumCircuits

/-- What kind of number an array holds. -/
inductive Element where
  | int | real | complex
deriving DecidableEq, Repr

/-- An array with its entries in row-major order. -/
structure Tensor (α : Type) where
  shape : List Nat
  element : Element
  entries : Array (Cplx α)
deriving Repr

def Element.join : Element → Element → Element
  | .complex, _ | _, .complex => .complex
  | .real, _ | _, .real => .real
  | .int, .int => .int

namespace Tensor

variable {α : Type} [Scalar α]

open Scalar

def rank (t : Tensor α) : Nat := t.shape.length

def size (t : Tensor α) : Nat := t.entries.size

def vector (v : Array (Cplx α)) : Tensor α := ⟨[v.size], .complex, v⟩

def ofMat (M : Mat (Cplx α)) : Tensor α := ⟨[M.rows, M.cols], .complex, M.entries⟩

def toMat? (t : Tensor α) : Option (Mat (Cplx α)) :=
  match t.shape with
  | [r, c] => some ⟨r, c, t.entries⟩
  | _ => none

def flatten (t : Tensor α) : Tensor α := { t with shape := [t.entries.size] }

def column (t : Tensor α) : Tensor α := { t with shape := [t.entries.size, 1] }

def toComplex (t : Tensor α) : Tensor α := { t with element := .complex }

def map (f : Cplx α → Cplx α) (t : Tensor α) : Tensor α := { t with entries := t.entries.map f }

def norm (t : Tensor α) : α := sqrt (t.entries.foldl (fun s z => s + z.normSq) 0.0)

def length? (t : Tensor α) : Option Nat := t.shape.head?

def slice (t : Tensor α) (i : Nat) : Tensor α :=
  let rest := t.shape.tail
  let step := rest.foldl (· * ·) 1
  ⟨rest, t.element, t.entries.extract (i * step) ((i + 1) * step)⟩

/-- The product of two entries, taken as a complex product unless both are real. -/
def mulEntry (e : Element) (z w : Cplx α) : Cplx α :=
  match e with
  | .complex => z * w
  | _ => .ofReal (z.re * w.re)

def mulScalar (t : Tensor α) (e : Element) (z : Cplx α) : Tensor α :=
  let e := t.element.join e
  ⟨t.shape, e, t.entries.map (mulEntry e · z)⟩

/-- The places of a row-major index, the last axis running fastest. -/
def places : List Nat → Nat → List Nat
  | [], _ => []
  | _ :: rest, k =>
    let step := rest.foldl (· * ·) 1
    k / step :: places rest (k % step)

/-- The row-major index of given places, if they lie within the shape. -/
def offset? : List Nat → List Nat → Option Nat
  | [], [] => some 0
  | n :: shape, i :: rest =>
    if i < n then (offset? shape rest).map fun o => i * shape.foldl (· * ·) 1 + o else none
  | _, _ => none

/-- The common shape of two arrays: axes are matched from the last one on, and an axis of length
one is stretched. -/
def commonShape (s t : List Nat) : Option (List Nat) :=
  let n := max s.length t.length
  let fit (u : List Nat) := List.replicate (n - u.length) 1 ++ u
  ((fit s).zip (fit t)).mapM fun (a, b) =>
    if a = b ∨ b = 1 then some a else if a = 1 then some b else none

/-- The entry at given places, an axis of length one being stretched. -/
def stretched (t : Tensor α) (place : List Nat) : Cplx α :=
  let own := place.drop (place.length - t.shape.length)
  match offset? t.shape (t.shape.zipWith (fun n i => if n = 1 then 0 else i) own) with
  | some o => t.entries.getD o .zero
  | none => .zero

/-- The product entry by entry, defined when the shapes have a common one. -/
def mulTensor (s t : Tensor α) : Option (Tensor α) :=
  (commonShape s.shape t.shape).map fun shape =>
    let e := s.element.join t.element
    ⟨shape, e, (Array.range (shape.foldl (· * ·) 1)).map fun k =>
      let p := places shape k
      mulEntry e (s.stretched p) (t.stretched p)⟩

end Tensor

def isPowerOfTwo (n : Nat) : Bool := n != 0 && (n &&& (n - 1)) == 0

def ceilLog2 (n : Nat) : Nat := if n ≤ 1 then 0 else Nat.log2 (n - 1) + 1

end QuantumCircuits

/-! ### Predicates

Properties of arrays, up to an absolute and a relative tolerance.  Each test of a property of
matrices is false of an array that does not have two axes of one length.
-/

namespace QuantumCircuits.Tensor

variable {α : Type} [Scalar α]

open Scalar

/-- How far numbers may differ and still count as equal. -/
structure Tolerance (α : Type) where
  relative : α
  absolute : α

def Tolerance.usual : Tolerance α := ⟨1e-5, 1e-8⟩

def Tolerance.allows (tol : Tolerance α) (M N : Mat (Cplx α)) : Bool :=
  M.allClose N tol.relative tol.absolute

def square? (t : Tensor α) : Option (Mat (Cplx α)) :=
  t.toMat?.filter fun M => M.rows == M.cols

def isSquare (t : Tensor α) : Bool := t.square?.isSome

def isSquareAnd (t : Tensor α) (p : Mat (Cplx α) → Bool) : Bool :=
  match t.square? with
  | some M => p M
  | none => false

def isDiagonal (t : Tensor α) (tol : Tolerance α) : Bool :=
  t.isSquareAnd fun M => tol.allows M (.diagonal M.diagonalEntries)

def isSymmetric (t : Tensor α) (tol : Tolerance α) : Bool :=
  t.isSquareAnd fun M => tol.allows M M.transpose

def isHermitian (t : Tensor α) (tol : Tolerance α) : Bool :=
  t.isSquareAnd fun M => tol.allows M M.adjoint

/-- The matrix turned so that its first entry is real and positive. -/
def withoutPhase (M : Mat (Cplx α)) : Mat (Cplx α) := M.smul (.turn (-(M.get 0 0).arg))

/-- The identity, with `ignorePhase` up to a phase; the phase is that of the first entry, which an
empty matrix does not have. -/
def isIdentity (t : Tensor α) (tol : Tolerance α) (ignorePhase : Bool) : Outcome Bool :=
  match t.square? with
  | none => .ok false
  | some M =>
    if ignorePhase then
      if M.rows == 0 then .error (.unfit .index)
      else .ok (tol.allows (withoutPhase M) (.identity M.rows))
    else .ok (tol.allows M (.identity M.rows))

def isUnitary (t : Tensor α) (tol : Tolerance α) : Bool :=
  t.isSquareAnd fun M => tol.allows (M.adjoint * M) (.identity M.rows)

/-- Hermitian, and no eigenvalue is below zero by more than the absolute tolerance. -/
def isPositiveSemidefinite (t : Tensor α) (tol : Tolerance α) : Bool :=
  t.isHermitian tol &&
    t.isSquareAnd fun M => (M.eigenvaluesHermitian).all fun x => !(lt x (-tol.absolute))

/-- The columns are orthonormal.  With three axes, every pair of inner slices is compared with the
identity, and axes of different lengths do not fit. -/
def isIsometry (t : Tensor α) (tol : Tolerance α) : Outcome Bool :=
  match t.shape with
  | [] | [_] => .error (.unfit .index)
  | [r, c] =>
    let M : Mat (Cplx α) := ⟨r, c, t.entries⟩
    .ok (tol.allows (M.adjoint * M) (.identity c))
  | [a, b, c] =>
    if a == b && b == c then
      let entry (i j k : Nat) := t.entries.getD ((i * b + j) * c + k) .zero
      let N (k j : Nat) : Mat (Cplx α) :=
        .ofFn a c fun i l => Mat.dot a (fun m => (entry m j k).conj) (fun m => entry i m l)
      .ok ((List.range c).all fun k => (List.range b).all fun j =>
        tol.allows (N k j) (.identity b))
    else .error (.unfit .value)
  | _ => .error (.unfit .value)

end QuantumCircuits.Tensor
