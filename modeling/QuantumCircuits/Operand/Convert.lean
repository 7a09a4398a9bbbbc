import QuantumCircuits.State.Vector

/-!
# Operand — Convert

Operands as the matrices and lists of numbers that single functions work on, and the products and
comparisons of states and operators as operands.
-/

namespace QuantumCircuits

variable {α : Type} [Scalar α]

namespace Operand

def toMat (x : Operand α) : Outcome (Mat (Cplx α)) :=
  match x with
  | .array t => match t.toMat? with
    | some M => .ok M
    | Option.none => refuse .index
  | _ => refuse .type

/-- The matrix that an operand is, with at least `n` rows and columns. -/
def toMatFrom (n : Nat) (x : Operand α) : Outcome (Mat (Cplx α)) := do
  let M ← x.toMat
  if M.rows < n ∨ M.cols < n then refuse .index else .ok M

def toSquareMat (x : Operand α) : Outcome (Mat (Cplx α)) :=
  match x.toMat with
  | .ok M => if M.rows = M.cols then .ok M else refuse .singular
  | .error _ => refuse .singular

def toMats (x : Operand α) : Outcome (List (Mat (Cplx α))) := do (← x.items).mapM toMat

def toNumbers (x : Operand α) : Outcome (List (Cplx α)) := do
  (← x.items).mapM toCplx

def toReals (x : Operand α) : Outcome (List α) := do .ok ((← x.toNumbers).map (·.re))

def toInts (x : Operand α) : Outcome (List Int) := do
  (← x.items).mapM fun y => match y.toInt? with
    | some i => .ok i
    | Option.none => refuse .type

def ofProduct : Product α → Operand α
  | .state v => .state v
  | .operator u => .operator u
  | .number z => .complex z

def product (x y : Operand α) : Outcome (Operand α) :=
  match x, y with
  | .state v, y => ofProduct <$> v.mul y
  | .operator u, y => ofProduct <$> u.mul y
  | x, .state v => ofProduct <$> v.mulLeft x
  | x, .operator u => ofProduct <$> u.mulLeft x
  | _, _ => refuse .type

def stateSum (x y : Operand α) : Outcome (Operand α) :=
  match x with
  | .state v => .state <$> v.add y
  | _ => refuse .type

def equal (x y : Operand α) : Outcome (Operand α) :=
  match x, y with
  | .state v, y => .bool <$> v.eq y
  | x, .state v => .bool <$> v.eq x
  | _, _ => .ok (.bool false)

/-- A state or operator with another value for one of its attributes. -/
def withAttribute (x : Operand α) (name : String) (value : Operand α) : Operand α :=
  match x, name, value with
  | .state v, "normalized", .bool b => .state { v with normalized := b }
  | .state v, "padded", .bool b => .state { v with padded := b }
  | .state v, "data", .array t => .state { v with data := t }
  | .state v, "num_qubits", .int n => .state { v with numQubits := n.toNat }
  | .state v, "norm_scale", y => .state { v with normScale := y.toReal?.getD v.normScale }
  | .state v, "label", .text s => .state { v with label := s }
  | .operator u, "data", .array t => .operator { u with data := t }
  | .operator u, "num_qubits", .int n => .operator { u with numQubits := n.toNat }
  | .operator u, "label", .text s => .operator { u with label := some s }
  | x, _, _ => x

end Operand

end QuantumCircuits
