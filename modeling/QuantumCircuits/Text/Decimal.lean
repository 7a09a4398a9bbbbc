import QuantumCircuits.Scalar.Basic

/-!
# Text — Decimal

Decimal texts of doubles.  `Decimal.fixed` writes a given number of places, rounded to nearest with
a half going to the even neighbour.  `Decimal.shortest` finds the fewest digits that read back as
the same double, and `Decimal.text` writes them: positionally from `1e-4` up to `1e16`, with an
exponent of at least two digits elsewhere, and always with a point or an exponent.
-/

/-! ### Machine numbers

Machine numbers.  `Binary64.decode` reads a double as a sign and `m · 2 ^ q`, in which its exact
value, its integer part and its remainder are integer arithmetic.
-/

namespace QuantumCircuits

/-- A finite double, exactly: `m · 2 ^ q`, negative when `negative` holds. -/
structure Binary64 where
  negative : Bool
  mantissa : Nat
  exponent : Int
deriving DecidableEq, Repr

namespace Binary64

/-- The parts of a finite double; `none` for an infinite or undefined one. -/
def decode (x : Float) : Option Binary64 :=
  let bits := x.toBits.toNat
  let negative := bits / 2 ^ (63 : Nat) == 1
  let e : Nat := bits / 2 ^ (52 : Nat) % 2 ^ (11 : Nat)
  let f : Nat := bits % 2 ^ (52 : Nat)
  if e == 2047 then none
  else if e == 0 then some ⟨negative, f, -1074⟩
  else some ⟨negative, f + 2 ^ (52 : Nat), (e : Int) - 1075⟩

def encode (negative : Bool) (m : Nat) (q : Int) : Float :=
  let magnitude := Float.scaleB (Float.ofNat m) q
  if negative then -magnitude else magnitude

def truncate (b : Binary64) : Int :=
  let magnitude : Nat :=
    if 0 ≤ b.exponent then b.mantissa * 2 ^ b.exponent.toNat
    else b.mantissa / 2 ^ (-b.exponent).toNat
  if b.negative then -(magnitude : Int) else magnitude

/-- The remainder of two finite doubles, which takes the divisor's sign and is exact up to the
last addition. -/
def remainder (x y : Float) : Float :=
  match decode x, decode y with
  | some a, some b =>
    if b.mantissa == 0 then 0.0 / 0.0
    else
      let q := min a.exponent b.exponent
      let m := a.mantissa * 2 ^ (a.exponent - q).toNat
      let d := b.mantissa * 2 ^ (b.exponent - q).toNat
      let r := encode a.negative (m % d) q
      if m % d == 0 then (if b.negative then -0.0 else 0.0)
      else if a.negative == b.negative then r else r + y
  | _, _ => if x.isFinite && y.isInf then (if (x < 0.0) == (y < 0.0) || x == 0.0 then x else y)
            else 0.0 / 0.0

end Binary64

end QuantumCircuits

/-! ### Decimal -/

namespace QuantumCircuits.Decimal

/-- The integer nearest to a quotient; a half goes to the even neighbour. -/
def roundDiv (num den : Nat) : Nat :=
  let q := num / den
  let r := num % den
  if 2 * r < den then q
  else if den < 2 * r then q + 1
  else if q % 2 = 0 then q else q + 1

def padded (width n : Nat) : String :=
  let digits := toString n
  String.ofList (List.replicate (width - digits.length) '0') ++ digits

def fraction (b : Binary64) : Nat × Nat :=
  if 0 ≤ b.exponent then (b.mantissa * 2 ^ b.exponent.toNat, 1)
  else (b.mantissa, 2 ^ (-b.exponent).toNat)

def unusual (x : Float) : String :=
  if x.isNaN then "nan" else if x < 0.0 then "-inf" else "inf"

/-- A double with the given number of places; a value that rounds to zero has no sign. -/
def fixed (places : Nat) (x : Float) : String :=
  match Binary64.decode x with
  | none => unusual x
  | some b =>
    let (num, den) := fraction b
    let n := roundDiv (num * 10 ^ places) den
    let sign := if b.negative && n != 0 then "-" else ""
    sign ++ toString (n / 10 ^ places) ++ "." ++ padded places (n % 10 ^ places)

/-- The least `t` from the start on, within the fuel, for which `num · 10 ^ t` reaches `den`. -/
def scaleUp (num den : Nat) : Nat → Nat → Nat
  | 0, t => t
  | fuel + 1, t => if den ≤ num * 10 ^ t then t else scaleUp num den fuel (t + 1)

/-- The decimal exponent of the leading digit of a positive fraction. -/
def leading (num den : Nat) : Int :=
  if den ≤ num then ((toString (num / den)).length : Int) - 1
  else -(scaleUp num den 1100 0 : Int)

/-- A decimal number: `digits · 10 ^ exponent`. -/
structure Scientific where
  digits : Nat
  exponent : Int
deriving DecidableEq, Repr

/-- The interval of numbers that read back as a double, as numerators over four times its unit, and
whether its ends belong to it. -/
def readBack (b : Binary64) : Nat × Nat × Bool :=
  let low := if b.mantissa = 2 ^ (52 : Nat) ∧ -1074 < b.exponent then 1 else 2
  (4 * b.mantissa - low, 4 * b.mantissa + 2, b.mantissa % 2 = 0)

/-- The nearest point of the grid `10 ^ g` that reads back as the double, if one does. -/
def nearestOnGrid (b : Binary64) (g : Int) : Option Nat :=
  let (low, high, closed) := readBack b
  -- everything over the common unit `2 ^ (q - 2)` and, below the point, times `10 ^ (-g)`
  let q := b.exponent - 2
  let tens := 10 ^ g.natAbs
  let twos := 2 ^ q.natAbs
  let up (n : Nat) : Nat :=
    let n := if 0 ≤ q then n * twos else n
    if 0 ≤ g then n else n * tens
  let unit : Nat :=
    let n := if 0 ≤ g then tens else 1
    if 0 ≤ q then n else n * twos
  let value := up (4 * b.mantissa)
  let inside (d : Nat) : Bool :=
    if closed then decide (up low ≤ d * unit ∧ d * unit ≤ up high)
    else decide (up low < d * unit ∧ d * unit < up high)
  let d := value / unit
  let below := inside d
  let above := inside (d + 1)
  if below && above then
    (if 2 * (value % unit) < unit then some d
     else if unit < 2 * (value % unit) then some (d + 1)
     else if d % 2 = 0 then some d else some (d + 1))
  else if below then some d
  else if above then some (d + 1)
  else none

/-- The first number of digits, counted from `k`, on whose grid the double is found. -/
def search (b : Binary64) (top : Int) : Nat → Nat → Scientific
  | 0, k => ⟨(nearestOnGrid b (top - k + 1)).getD 0, top - k + 1⟩
  | fuel + 1, k =>
    match nearestOnGrid b (top - k + 1) with
    | some d => ⟨d, top - k + 1⟩
    | none => search b top fuel (k + 1)

def Scientific.trim (s : Scientific) : Nat → Scientific
  | 0 => s
  | fuel + 1 =>
    if s.digits ≠ 0 ∧ s.digits % 10 = 0 then
      Scientific.trim ⟨s.digits / 10, s.exponent + 1⟩ fuel
    else s

def shortest (b : Binary64) : Scientific :=
  if b.mantissa = 0 then ⟨0, 0⟩
  else
    let (num, den) := fraction b
    (search b (leading num den) 17 1).trim 20

/-- How a number is laid out: the exponents of the leading digit that are written without an
exponent mark, from `least` up to but not including `limit`. -/
structure Layout where
  least : Int
  limit : Int

def layout : Layout := ⟨-4, 16⟩

/-- Digits with a point after the first, or none if there is only one. -/
def pointed (digits : String) : String :=
  match digits.toList with
  | [] => ""
  | [d] => String.ofList [d]
  | d :: rest => String.ofList (d :: '.' :: rest)

def Scientific.text (s : Scientific) : String :=
  let digits := toString s.digits
  let top := s.exponent + digits.length - 1
  if layout.least ≤ top ∧ top < layout.limit then
    if 0 ≤ s.exponent then
      digits ++ String.ofList (List.replicate s.exponent.toNat '0') ++ ".0"
    else if 0 ≤ top then
      let k := top.toNat + 1
      String.ofList (digits.toList.take k) ++ "." ++ String.ofList (digits.toList.drop k)
    else
      "0." ++ String.ofList (List.replicate (-top - 1).toNat '0') ++ digits
  else
    pointed digits ++ "e" ++ (if top < 0 then "-" else "+") ++ padded 2 top.natAbs

def text (x : Float) : String :=
  match Binary64.decode x with
  | none => unusual x
  | some b => (if b.negative then "-" else "") ++ (shortest b).text

end QuantumCircuits.Decimal
