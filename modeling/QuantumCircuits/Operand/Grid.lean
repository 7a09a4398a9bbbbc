import QuantumCircuits.Operand.Basic
import QuantumCircuits.Text.Numeral

/-!
# Operand — Grid

Lists, and lists of lists, taken for arrays.  The cells of a `Grid` are of one kind, the narrowest
that holds all of them: truth values are whole numbers where a whole number is among them, numbers
are texts where a text is, and a cell that is neither number nor text, or a whole number that no
machine word holds, leaves all cells as they are.  `Grid.ofOperand` finds the grid that an operand
is, and `Grid.toComplex` the array of complex numbers in it.
-/

namespace QuantumCircuits

/-- What the cells of a grid have in common. -/
inductive CellKind where
  | truth
  /-- Whole numbers of 64 bits with a sign. -/
  | whole
  /-- Whole numbers of 64 bits without a sign. -/
  | natural
  | real
  | complex
  | text
  | any
deriving DecidableEq, Repr

namespace CellKind

def join : CellKind → CellKind → CellKind
  | .any, _ | _, .any => .any
  | .text, _ | _, .text => .text
  | .complex, _ | _, .complex => .complex
  | .real, _ | _, .real => .real
  | .natural, .whole | .whole, .natural => .real
  | .natural, _ | _, .natural => .natural
  | .whole, _ | _, .whole => .whole
  | .truth, .truth => .truth

def ofElement : Element → CellKind
  | .int => .whole
  | .real => .real
  | .complex => .complex

def element : CellKind → Element
  | .complex => .complex
  | .real => .real
  | _ => .int

end CellKind

/-- An array of operands of one kind, in row-major order. -/
structure Grid (α : Type) where
  shape : List Nat
  kind : CellKind
  cells : List (Operand α)
deriving Repr

variable {α : Type} [Scalar α]

open Scalar

namespace CellKind

def ofOperand : Operand α → CellKind
  | .bool _ => .truth
  | .int i =>
    if -2 ^ (63 : Nat) ≤ i ∧ i < 2 ^ (63 : Nat) then .whole
    else if 0 ≤ i ∧ i < 2 ^ (64 : Nat) then .natural
    else .any
  | .int64 _ => .whole
  | .real _ => .real
  | .complex _ => .complex
  | .text _ => .text
  | _ => .any

def hold (k : CellKind) (x : Operand α) : Operand α :=
  match k, x with
  | .whole, x => (x.toInt?.map Operand.int64).getD x
  | .natural, x => (x.toInt?.map Operand.int).getD x
  | .real, x => (x.toReal?.map Operand.real).getD x
  | .complex, x => (x.toCplx?.map Operand.complex).getD x
  | .text, x => .text x.shown
  | _, x => x

def single (k : CellKind) (x : Operand α) : Operand α :=
  match k with
  | .truth => .boxed "numpy.bool" x
  | .natural => .boxed "numpy.uint64" x
  | .complex => .boxed "numpy.complex128" x
  | _ => x

/-- Half the sum and half the difference of two cells of this kind.  Words wrap around, and arrays
of words cut fractions off. -/
def combine (k : CellKind) (x y : Operand α) : Outcome (Operand α × Operand α) :=
  let half (i : Int) : Int := truncate (ofInt i / 2.0 : α)
  match k, x, y with
  | .whole, .int64 i, .int64 j =>
    .ok (.int64 (half ((i + j).bmod (2 ^ (64 : Nat)))),
      .int64 (half ((i - j).bmod (2 ^ (64 : Nat)))))
  | .natural, .int i, .int j =>
    .ok (.int (half ((i + j) % 2 ^ (64 : Nat))), .int (half ((i - j) % 2 ^ (64 : Nat))))
  | .real, x, y | .complex, x, y | .any, x, y => do
    .ok (← (← x.sum y).quotient 2.0, ← (← x.sum (← y.negate)).quotient 2.0)
  | _, _, _ => Operand.refuse .type

end CellKind

namespace Grid

def width (g : Grid α) : Nat := g.shape.tail.foldl (· * ·) 1

def stack : List (Grid α) → Outcome (Grid α)
  | [] => .ok ⟨[0], .real, []⟩
  | g :: gs =>
    if gs.all fun h => h.shape == g.shape then
      let kind := gs.foldl (fun k h => k.join h.kind) g.kind
      .ok ⟨(gs.length + 1) :: g.shape, kind, (g :: gs).flatMap (·.cells)⟩
    else Operand.refuse .value

def depth : Nat := 64

def ofOperandAt : Nat → Operand α → Outcome (Grid α)
  | _, .array t => .ok ⟨t.shape, .ofElement t.element, t.entries.toList.map (Operand.ofEntry t.element)⟩
  | _, .objects shape xs => .ok ⟨shape, .any, xs⟩
  | _, .texts shape xs => .ok ⟨shape, .text, xs.map .text⟩
  | d + 1, .list xs | d + 1, .tuple xs => do stack (← xs.mapM (ofOperandAt d))
  | _, .range a b s =>
    let xs := (rangeMembers a b s).map Operand.int
    .ok ⟨[xs.length], xs.foldl (fun k x => k.join (.ofOperand x)) .whole, xs⟩
  | _, x => .ok ⟨[], .ofOperand x, [x]⟩

def ofOperand (x : Operand α) : Outcome (Grid α) := do
  let g ← ofOperandAt depth x
  .ok { g with cells := g.cells.map g.kind.hold }

def rows (g : Grid α) : List (List (Operand α)) :=
  (List.range (g.shape.headD 0)).map fun i => (g.cells.drop (i * g.width)).take g.width

def toOperand (k : CellKind) (shape : List Nat) (cells : List (Operand α)) : Operand α :=
  match k with
  | .any => .objects shape cells
  | .text => .texts shape (cells.map Operand.shown)
  | k => .array ⟨shape, k.element, (cells.map fun x => x.toCplx?.getD .zero).toArray⟩

def tensor? (x : Operand α) : Option (Tensor α) :=
  match ofOperand x with
  | .ok g => match toOperand g.kind g.shape g.cells with
    | .array t => some t
    | _ => none
  | .error _ => none

def row (g : Grid α) (cells : List (Operand α)) : Operand α :=
  match g.shape.tail with
  | [] => g.kind.single (cells.headD .none)
  | shape => toOperand g.kind shape cells

/-- A cell as a complex number: nothing is an undefined number, and texts are read. -/
def complexCell (x : Operand α) : Outcome (Cplx α) :=
  match x with
  | .none => .ok ⟨0.0 / 0.0, 0.0 / 0.0⟩
  | .text s => match Cplx.ofText? s with
    | some z => .ok z
    | none => Operand.refuse .value
  | x => x.toCplx

def toComplex (g : Grid α) : Outcome (Tensor α) := do
  .ok ⟨g.shape, .complex, (← g.cells.mapM complexCell).toArray⟩

/-- The array of complex numbers that an operand converts to.  Whatever is in the way is the given
fault, numbers that are too large apart. -/
def converted (x : Operand α) (fault : Fault) : Outcome (Tensor α) :=
  match (do (← ofOperand x).toComplex : Outcome (Tensor α)) with
  | .ok t => .ok t
  | .error (.unfit .overflow) => Operand.refuse .overflow
  | .error _ => .error fault

def mean (g : Grid α) (xs ys : Outcome (List (Operand α))) : Outcome (List (Operand α)) := do
  ((← xs).zip (← ys)).mapM fun (x, y) => do .ok (← g.kind.combine x y).1

def gap (g : Grid α) (xs ys : Outcome (List (Operand α))) : Outcome (List (Operand α)) := do
  ((← xs).zip (← ys)).mapM fun (x, y) => do .ok (← g.kind.combine x y).2

end Grid

end QuantumCircuits
