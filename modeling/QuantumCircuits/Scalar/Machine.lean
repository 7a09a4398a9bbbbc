import QuantumCircuits.Text.Decimal

/-!
# Scalar — Machine

Doubles as scalars: the instance on which the library runs.
-/

namespace QuantumCircuits

instance : Scalar Float where
  ofInt := Float.ofInt
  pi := 3.141592653589793
  sqrt := Float.sqrt
  sin := Float.sin
  cos := Float.cos
  asin := Float.asin
  acos := Float.acos
  atan2 := Float.atan2
  pow := Float.pow
  remainder := Binary64.remainder
  truncate x := (Binary64.decode x).elim 0 Binary64.truncate
  lt x y := decide (x < y)
  le x y := decide (x ≤ y)
  eq x y := x == y
  text := Decimal.text

end QuantumCircuits
