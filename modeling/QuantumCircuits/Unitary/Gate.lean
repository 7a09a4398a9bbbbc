import QuantumCircuits.Operand.Basic

/-!
# Unitary — Gate

Gates given by their matrix.  `GateMatrix.control` puts a gate under control qubits, and
`GateMatrix.changeMapping` reverses the order in which basis states are counted.
-/

namespace QuantumCircuits

/-- The name of a gate: a word, the angles it was built with, and how often it is controlled. -/
structure GateLabel (α : Type) where
  word : String
  angles : List (Operand α)
  controls : Nat
deriving Repr

/-- A gate's name as text: a mark for each time it was put under control, and the angles. -/
def GateLabel.text {α : Type} [Scalar α] (l : GateLabel α) : String :=
  String.join (List.replicate l.controls "C-") ++ l.word ++
    if l.angles.isEmpty then "" else "(" ++ ", ".intercalate (l.angles.map Operand.shown) ++ ")"

/-- Which qubit the first bit of a basis state belongs to. -/
inductive BitOrder where
  | msb | lsb
deriving DecidableEq, Repr

/-- A gate given by its matrix. -/
structure GateMatrix (α : Type) where
  label : GateLabel α
  matrix : Mat (Cplx α)
  numQubits : Nat
  ordering : BitOrder
deriving Repr

/-- The number whose `n` low bits are those of `i` in reverse order. -/
def reverseBits : Nat → Nat → Nat
  | 0, _ => 0
  | n + 1, i => (i % 2) * 2 ^ n + reverseBits n (i / 2)

namespace GateMatrix

variable {α : Type} [Scalar α]

open Scalar

def build (label : GateLabel α) (data : Tensor α) : Outcome (GateMatrix α) :=
  if !data.isUnitary .usual then .error .matrixNotUnitary
  else match data.toMat? with
    | none => .error .matrixNotUnitary
    | some M =>
      if M.rows == 0 then .error (.unfit .overflow)
      else .ok ⟨label, M, Nat.log2 M.rows, .msb⟩

def named (word : String) (M : Mat (Cplx α)) : Outcome (GateMatrix α) :=
  build ⟨word, [], 0⟩ (.ofMat M)

def unpacked (t : Operand α) : Operand α :=
  match t with
  | .array u => if u.rank = 0 then .ofEntryPlain u.element (u.entries.getD 0 .zero) else t
  | t => t

/-- The real number that an angle is; angles off the real line make no unitary matrix. -/
def realAngle (t : Operand α) : Outcome α :=
  match t with
  | .complex z => if eq z.im 0.0 then .ok z.re else .error .matrixNotUnitary
  | t => t.toReal

/-- A gate that depends on one angle.  An array of angles makes a deeper array if all entries of the
matrix depend on the angle, and none at all otherwise. -/
def rotation (word : String) (f : α → Mat (Cplx α)) (deepens : Bool) (t : Operand α) :
    Outcome (GateMatrix α) := do
  match unpacked t with
  | .array _ => if deepens then .error .matrixNotUnitary else .error (.unfit .value)
  | t => build ⟨word, [t], 0⟩ (.ofMat (f (← realAngle t)))

/-- The general one-qubit gate; all entries of its matrix depend on the first angle. -/
def u3 (t p l : Operand α) : Outcome (GateMatrix α) := do
  match unpacked t, unpacked p, unpacked l with
  | .array _, _, _ => .error .matrixNotUnitary
  | _, .array _, _ | _, _, .array _ => .error (.unfit .value)
  | t, p, l =>
    build ⟨"U3", [t, p, l], 0⟩ (.ofMat (.u3 (← realAngle t) (← realAngle p) (← realAngle l)))

def adjoint (g : GateMatrix α) : Mat (Cplx α) := g.matrix.adjoint

/-- The gate on the part of the space where the control is on, and the identity of `n` qubits where
it is off. -/
def controlled (n : Nat) (M : Mat (Cplx α)) : Mat (Cplx α) :=
  .ofFn (2 ^ n + M.rows) (2 ^ n + M.cols) fun i j =>
    if i < 2 ^ n ∧ j < 2 ^ n then (if i = j then .one else .zero)
    else if 2 ^ n ≤ i ∧ 2 ^ n ≤ j then M.get (i - 2 ^ n) (j - 2 ^ n)
    else .zero

/-- The gate under control, which is only defined for as many controls as the gate has qubits. -/
def control (g : GateMatrix α) (n : Operand α) : Outcome (GateMatrix α) := do
  if !n.isInt then .error .controlsType
  let n := n.toInt?.getD 0
  if n < 1 then .error .controlsTooFew
  if g.numQubits < n ∨ g.matrix.rows != 2 ^ n.toNat then .error (.unfit .value)
  build { g.label with controls := g.label.controls + 1 } (.ofMat (controlled n.toNat g.matrix))

/-- The gate with the basis states counted in the given order; changing the order reverses the
bits and also exchanges rows and columns. -/
def changeMapping (g : GateMatrix α) (order : Operand α) : Outcome (GateMatrix α) := do
  let order ← match order with
    | .text "MSB" => .ok BitOrder.msb
    | .text "LSB" => .ok BitOrder.lsb
    | _ => .error .ordering
  if order = g.ordering then .ok g
  else
    let q := g.numQubits
    if g.matrix.rows != 2 ^ q then .error (.unfit .value)
    .ok { g with
      matrix := .ofFn (2 ^ q) (2 ^ q) fun i j => g.matrix.get (reverseBits q j) (reverseBits q i)
      ordering := order }

def fixed : List (String × String × Mat (Cplx α)) :=
  [("PauliX", "X", .pauliX), ("PauliY", "Y", .pauliY), ("PauliZ", "Z", .pauliZ),
    ("Hadamard", "H", .hadamard), ("S", "S", .gateS), ("T", "T", .gateT)]

def ofName (name : String) (angles : List (Operand α)) : Outcome (GateMatrix α) :=
  let plain := (fixed : List (String × String × Mat (Cplx α))).find? fun (k, _, _) => k == name
  let controlled := (fixed : List (String × String × Mat (Cplx α))).find? fun (_, w, _) => "C" ++ w == name
  match angles with
  | [] => match plain, controlled with
    | some (_, w, M), _ => named w M
    | none, some (_, w, M) => do (← named w M).control (.int 1)
    | none, none => .error (.unfit .type)
  | [t] => match name with
    | "RX" => rotation name .rotationX true t
    | "RY" => rotation name .rotationY true t
    | "RZ" => rotation name .rotationZ false t
    | "Phase" => rotation name .phase false t
    | _ => .error (.unfit .type)
  | [t, p, l] => if name == "U3" then u3 t p l else .error (.unfit .type)
  | _ => .error (.unfit .type)

end GateMatrix

end QuantumCircuits
