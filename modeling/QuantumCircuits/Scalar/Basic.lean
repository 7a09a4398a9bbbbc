/-!
# Scalar — Basic

The real arithmetic that gates, states and synthesis are computed with.  `Scalar α` names the
operations they need, so that one definition serves both machine numbers and exact reals.
Literals are written with a decimal point (`2.0`, `1e-10`), which `OfScientific` reads.
-/

-- powers of natural numbers are computed the same way whatever else a module imports
attribute [instance (high)] instPowNat

namespace QuantumCircuits

/-- The operations on real numbers that the library computes with. -/
class Scalar (α : Type) extends Add α, Sub α, Mul α, Div α, Neg α, OfScientific α where
  /-- The number of an integer. -/
  ofInt : Int → α
  /-- Half the length of the unit circle. -/
  pi : α
  sqrt : α → α
  sin : α → α
  cos : α → α
  asin : α → α
  acos : α → α
  /-- The angle of the point with ordinate `y` and abscissa `x`, written `atan2 y x`. -/
  atan2 : α → α → α
  /-- A real power. -/
  pow : α → α → α
  /-- The remainder that has the sign of the divisor. -/
  remainder : α → α → α
  /-- The integer part, cut off toward zero. -/
  truncate : α → Int
  lt : α → α → Bool
  le : α → α → Bool
  eq : α → α → Bool
  /-- How a number is written in texts. -/
  text : α → String

-- a type with operations of its own is computed with by these
attribute [instance (low)] Scalar.toAdd Scalar.toSub Scalar.toMul Scalar.toDiv Scalar.toNeg
  Scalar.toOfScientific

namespace Scalar

variable {α : Type} [Scalar α]

def ofNat (n : Nat) : α := ofInt n

def abs (x : α) : α := if lt x 0.0 then -x else if eq x 0.0 then 0.0 else x

def max (x y : α) : α := if lt x y then y else x

def min (x y : α) : α := if lt y x then y else x

/-- The number has a difference with itself, so it is neither infinite nor undefined. -/
def isFinite (x : α) : Bool := eq (x - x) 0.0

def isNumber (x : α) : Bool := eq x x

/-- A power with a natural exponent, by repeated multiplication. -/
def npow (x : α) : Nat → α
  | 0 => 1.0
  | n + 1 => npow x n * x

def twoPow (k : Int) : α :=
  if 0 ≤ k then npow 2.0 k.toNat else 1.0 / npow 2.0 (-k).toNat

/-- `x` is `y` up to an absolute and a relative tolerance; equal numbers always are, and an
infinite `y` is close to nothing else. -/
def isClose (x y rtol atol : α) : Bool :=
  (le (abs (x - y)) (atol + rtol * abs y) && isFinite y) || eq x y

def sum (xs : List α) : α := xs.foldl (· + ·) 0.0

end Scalar

/-! ### Complex numbers

Complex numbers over a `Scalar`.  `Cplx.turn t` is the unit number at angle `t`; `Cplx.arg` and
`Cplx.abs` are polar coordinates, and powers and roots are the principal ones.
-/

/-- A complex number. -/
structure Cplx (α : Type) where
  re : α
  im : α
deriving Repr, BEq, DecidableEq

namespace Cplx

variable {α : Type} [Scalar α]

open Scalar

def ofReal (x : α) : Cplx α := ⟨x, 0.0⟩

def zero : Cplx α := ⟨0.0, 0.0⟩

def one : Cplx α := ⟨1.0, 0.0⟩

def unit : Cplx α := ⟨0.0, 1.0⟩

instance : Inhabited (Cplx α) := ⟨zero⟩

instance : Add (Cplx α) := ⟨fun z w => ⟨z.re + w.re, z.im + w.im⟩⟩

instance : Sub (Cplx α) := ⟨fun z w => ⟨z.re - w.re, z.im - w.im⟩⟩

instance : Neg (Cplx α) := ⟨fun z => ⟨-z.re, -z.im⟩⟩

instance : Mul (Cplx α) := ⟨fun z w => ⟨z.re * w.re - z.im * w.im, z.re * w.im + z.im * w.re⟩⟩

def conj (z : Cplx α) : Cplx α := ⟨z.re, -z.im⟩

def scale (x : α) (z : Cplx α) : Cplx α := ⟨x * z.re, x * z.im⟩

def shrink (z : Cplx α) (x : α) : Cplx α := ⟨z.re / x, z.im / x⟩

def normSq (z : Cplx α) : α := z.re * z.re + z.im * z.im

def abs (z : Cplx α) : α := sqrt (normSq z)

def arg (z : Cplx α) : α := atan2 z.im z.re

def div (z w : Cplx α) : Cplx α :=
  if le (Scalar.abs w.im) (Scalar.abs w.re) then
    let r := w.im / w.re
    let d := w.re + w.im * r
    ⟨(z.re + z.im * r) / d, (z.im - z.re * r) / d⟩
  else
    let r := w.re / w.im
    let d := w.re * r + w.im
    ⟨(z.re * r + z.im) / d, (z.im * r - z.re) / d⟩

instance : Div (Cplx α) := ⟨div⟩

def turn (t : α) : Cplx α := ⟨cos t, sin t⟩

def polar (r t : α) : Cplx α := ⟨r * cos t, r * sin t⟩

def sqrt (z : Cplx α) : Cplx α :=
  if eq z.re 0.0 && eq z.im 0.0 then ⟨0.0, z.im⟩
  else
    let t := Scalar.sqrt ((Scalar.abs z.re + z.abs) / 2.0)
    if le 0.0 z.re then ⟨t, z.im / (2.0 * t)⟩
    else ⟨Scalar.abs z.im / (2.0 * t), if lt z.im 0.0 || (eq z.im 0.0 && lt (1.0 / z.im) 0.0) then -t else t⟩

def rpow (z : Cplx α) (p : α) : Cplx α := polar (pow z.abs p) (z.arg * p)

/-- Two complex numbers are close when the distance is within the tolerance of the second. -/
def isClose (z w : Cplx α) (rtol atol : α) : Bool :=
  (le (abs (z - w)) (atol + rtol * abs w) && Scalar.isFinite w.re && Scalar.isFinite w.im)
    || (eq z.re w.re && eq z.im w.im)

end Cplx

end QuantumCircuits
