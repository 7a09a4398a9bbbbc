import QuantumCircuits.Scalar.Basic

/-!
# Linear — Matrix

Dense matrices, stored row by row.  `Mat.get` is the view that the other operations are described
by: `Mat.ofFn rows cols f` has `f i j` at row `i` and column `j`.
-/

namespace QuantumCircuits

/-- A matrix with its entries row by row. -/
structure Mat (β : Type) where
  rows : Nat
  cols : Nat
  entries : Array β
deriving Repr, BEq, DecidableEq

namespace Mat

section Shape

variable {β γ : Type}

instance : Inhabited (Mat β) := ⟨⟨0, 0, #[]⟩⟩

@[specialize] def ofFn (rows cols : Nat) (f : Nat → Nat → β) : Mat β :=
  ⟨rows, cols, (Array.range (rows * cols)).map fun k => f (k / cols) (k % cols)⟩

@[inline] def get [Inhabited β] (M : Mat β) (i j : Nat) : β := M.entries.getD (i * M.cols + j) default

def set (M : Mat β) (i j : Nat) (x : β) : Mat β :=
  { M with entries := M.entries.setIfInBounds (i * M.cols + j) x }

/-- A matrix of the given rows, which have the length of the first. -/
def ofRows (rows : List (List β)) : Mat β :=
  ⟨rows.length, (rows.headD []).length, rows.flatten.toArray⟩

def square2 (a b c d : β) : Mat β := ⟨2, 2, #[a, b, c, d]⟩

def transpose [Inhabited β] (M : Mat β) : Mat β := ofFn M.cols M.rows fun i j => M.get j i

def map (f : β → γ) (M : Mat β) : Mat γ := ⟨M.rows, M.cols, M.entries.map f⟩

/-- The block of `r` rows and `c` columns whose first entry is at row `i` and column `j`. -/
def block [Inhabited β] (M : Mat β) (i j r c : Nat) : Mat β := ofFn r c fun a b => M.get (i + a) (j + b)

def column [Inhabited β] (M : Mat β) (j : Nat) : Array β := (Array.range M.rows).map fun i => M.get i j

def ofColumns [Inhabited β] (rows : Nat) (cols : Array (Array β)) : Mat β :=
  ofFn rows cols.size fun i j => (cols.getD j #[]).getD i default

def ofColumn (v : Array β) : Mat β := ⟨v.size, 1, v⟩

def diagonalEntries [Inhabited β] (M : Mat β) : Array β :=
  (Array.range (min M.rows M.cols)).map fun i => M.get i i

end Shape

section Arithmetic

variable {α : Type} [Scalar α]

open Scalar

def identity (n : Nat) : Mat (Cplx α) := ofFn n n fun i j => if i = j then .one else .zero

def diagonal (d : Array (Cplx α)) : Mat (Cplx α) :=
  ofFn d.size d.size fun i j => if i = j then d.getD i .zero else .zero

@[specialize] def dotReal (n : Nat) (f g : Nat → α) : α :=
  (List.range n).foldl (fun s k => s + f k * g k) 0.0

/-- The sum of complex products: four sums of real products, put together at the end. -/
@[specialize] def dot (n : Nat) (f g : Nat → Cplx α) : Cplx α :=
  ⟨dotReal n (fun k => (f k).re) (fun k => (g k).re) - dotReal n (fun k => (f k).im) (fun k => (g k).im),
    dotReal n (fun k => (f k).re) (fun k => (g k).im) + dotReal n (fun k => (f k).im) (fun k => (g k).re)⟩

def mul (M N : Mat (Cplx α)) : Mat (Cplx α) :=
  ofFn M.rows N.cols fun i j => dot M.cols (fun k => M.get i k) (fun k => N.get k j)

instance : Mul (Mat (Cplx α)) := ⟨mul⟩

def add (M N : Mat (Cplx α)) : Mat (Cplx α) := ofFn M.rows M.cols fun i j => M.get i j + N.get i j

instance : Add (Mat (Cplx α)) := ⟨add⟩

def sub (M N : Mat (Cplx α)) : Mat (Cplx α) := ofFn M.rows M.cols fun i j => M.get i j - N.get i j

instance : Sub (Mat (Cplx α)) := ⟨sub⟩

def smul (z : Cplx α) (M : Mat (Cplx α)) : Mat (Cplx α) := M.map (z * ·)

def scale (x : α) (M : Mat (Cplx α)) : Mat (Cplx α) := M.map (Cplx.scale x)

def conj (M : Mat (Cplx α)) : Mat (Cplx α) := M.map Cplx.conj

def adjoint (M : Mat (Cplx α)) : Mat (Cplx α) := ofFn M.cols M.rows fun i j => (M.get j i).conj

/-- The Kronecker product: the entry of `M` picks the block, the entry of `N` the place in it. -/
def kron (M N : Mat (Cplx α)) : Mat (Cplx α) :=
  ofFn (M.rows * N.rows) (M.cols * N.cols) fun i j =>
    M.get (i / N.rows) (j / N.cols) * N.get (i % N.rows) (j % N.cols)

def trace (M : Mat (Cplx α)) : Cplx α := M.diagonalEntries.foldl (· + ·) .zero

def apply (M : Mat (Cplx α)) (v : Array (Cplx α)) : Array (Cplx α) :=
  (Array.range M.rows).map fun i => dot M.cols (fun k => M.get i k) (fun k => v.getD k .zero)

def allClose (M N : Mat (Cplx α)) (rtol atol : α) : Bool :=
  M.rows == N.rows && M.cols == N.cols &&
    (List.range (M.rows * M.cols)).all fun k =>
      (M.entries.getD k .zero).isClose (N.entries.getD k .zero) rtol atol

def det2 (M : Mat (Cplx α)) : Cplx α := M.get 0 0 * M.get 1 1 - M.get 0 1 * M.get 1 0

end Arithmetic

end Mat

end QuantumCircuits

/-! ### Determinants

Determinants by elimination with row exchanges.
-/

namespace QuantumCircuits.Mat

variable {α : Type} [Scalar α]

open Scalar

def pivotSize (z : Cplx α) : α := Scalar.abs z.re + Scalar.abs z.im

/-- The row at or below `k` with the largest entry in column `k`. -/
def pivotRow (M : Mat (Cplx α)) (k : Nat) : Nat :=
  (List.range M.rows).foldl (fun best i =>
    if k < i ∧ lt (pivotSize (M.get best k)) (pivotSize (M.get i k)) then i else best) k

def exchangeRows (M : Mat (Cplx α)) (p q : Nat) : Mat (Cplx α) :=
  if p = q then M
  else ofFn M.rows M.cols fun i j => M.get (if i = p then q else if i = q then p else i) j

/-- The matrix with multiples of row `k` taken from the rows below it, so that column `k` is zero
there. -/
def eliminate (M : Mat (Cplx α)) (k : Nat) : Mat (Cplx α) :=
  let pivot := M.get k k
  if eq pivot.re 0.0 && eq pivot.im 0.0 then M
  else ofFn M.rows M.cols fun i j =>
    if k < i then
      if j = k then .zero
      else if k < j then M.get i j - (M.get i k).div pivot * M.get k j else M.get i j
    else M.get i j

/-- The pivots of the elimination, and whether the number of row exchanges was odd. -/
def pivots (M : Mat (Cplx α)) : List (Cplx α) × Bool :=
  let start : Mat (Cplx α) × List (Cplx α) × Bool := (M, [], false)
  let step (s : Mat (Cplx α) × List (Cplx α) × Bool) (k : Nat) :=
    let p := s.1.pivotRow k
    let A := s.1.exchangeRows k p
    (A.eliminate k, A.get k k :: s.2.1, s.2.2 != (p != k))
  let (_, found, odd) := (List.range M.rows).foldl step start
  (found.reverse, odd)

/-- The determinant of a square matrix: the product of the pivots, negated after an odd number of
exchanges. -/
def det (M : Mat (Cplx α)) : Cplx α :=
  let (found, odd) := M.pivots
  let product := found.foldl (· * ·) .one
  if odd then -product else product

/-- The determinant as a direction times a size: those of the pivots are multiplied apart, and an odd
number of exchanges turns the direction round. -/
def polarDet (M : Mat (Cplx α)) : Cplx α :=
  let (found, odd) := M.pivots
  if found.any fun z => eq z.re 0.0 && eq z.im 0.0 then .zero
  else
    let sign : Cplx α := .ofReal (if odd then -1.0 else 1.0)
    let direction := found.foldl (fun s z => s * z.shrink z.abs) sign
    direction * .ofReal (found.foldl (fun s z => s * z.abs) 1.0)

/-! ### One-qubit gates

The matrices of the usual one-qubit gates.  `Mat.u3 θ φ lam` is the general one: up to a phase every
one-qubit unitary has this form.
-/

variable {α : Type} [Scalar α]

def pauliX : Mat (Cplx α) := square2 .zero .one .one .zero

def pauliY : Mat (Cplx α) := square2 .zero (-.unit) .unit .zero

def pauliZ : Mat (Cplx α) := square2 .one .zero .zero (.ofReal (-1.0))

def hadamard : Mat (Cplx α) :=
  let h : α := 1.0 / sqrt 2.0
  square2 (.ofReal h) (.ofReal h) (.ofReal h) (.ofReal (-h))

/-- The diagonal gate that turns the second basis vector by an angle. -/
def phase (t : α) : Mat (Cplx α) := square2 .one .zero .zero (.turn t)

def gateS : Mat (Cplx α) := square2 .one .zero .zero .unit

def gateT : Mat (Cplx α) := phase (pi / 4.0)

def rotationX (t : α) : Mat (Cplx α) :=
  let c : Cplx α := .ofReal (cos (t / 2.0))
  let s : Cplx α := ⟨0.0, -sin (t / 2.0)⟩
  square2 c s s c

def rotationY (t : α) : Mat (Cplx α) :=
  let c := cos (t / 2.0)
  let s := sin (t / 2.0)
  square2 (.ofReal c) (.ofReal (-s)) (.ofReal s) (.ofReal c)

def rotationZ (t : α) : Mat (Cplx α) :=
  square2 (.turn (-t / 2.0)) .zero .zero (.turn (t / 2.0))

def u3 (t p l : α) : Mat (Cplx α) :=
  let c := cos (t / 2.0)
  let s := sin (t / 2.0)
  square2 (.ofReal c) (-(Cplx.scale s (.turn l))) (Cplx.scale s (.turn p)) (Cplx.scale c (.turn (p + l)))

end QuantumCircuits.Mat
