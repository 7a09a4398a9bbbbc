import QuantumCircuits.Circuit.Query
import QuantumCircuits.Preparation.Basic

/-!
# Compiler

Compiling states and operators to circuits.  A compiler is put together from a framework, a way to
prepare states, a way to emit unitaries and possibly an optimizer; `Compiler.compile` takes one
state or operator, or a list of them with the qubits they act on.
-/

namespace QuantumCircuits

/-- What a compiler can be asked to be put together from. -/
inductive Component where
  | framework (f : Framework)
  | preparation (p : Preparation)
  | synthesis (s : Synthesis)
  | other
deriving DecidableEq, Repr

def Component.ofName (s : String) : Component :=
  match Framework.ofName? s, Preparation.ofName? s, Synthesis.ofName? s with
  | some f, _, _ => .framework f
  | none, some p, _ => .preparation p
  | none, none, some u => .synthesis u
  | none, none, none => .other

/-- The optimizers of circuits. -/
inductive Optimizer where
  /-- Every gate is replaced by its definition. -/
  | decompose
deriving DecidableEq, Repr

def Optimizer.optimize {α : Type} [Scalar α] (o : Optimizer) (c : Circuit α) :
    Outcome (Circuit α) :=
  match o with
  | .decompose => c.decompose (.int 1) false

/-- A compiler. -/
structure Compiler where
  framework : Framework
  preparation : Preparation
  synthesis : Synthesis
  optimizer : Option Optimizer
deriving Repr

namespace Compiler

variable {α : Type} [Scalar α]

/-- Puts a compiler together, if the parts fit; the optimizer is one, none, or something else. -/
def assemble (framework state unitary : Component) (optimizer : Option (Option Optimizer)) :
    Outcome Compiler :=
  match framework, state, unitary, optimizer with
  | .framework f, .preparation p, .synthesis s, some o => .ok ⟨f, p, s, o⟩
  | .framework _, .preparation _, .synthesis _, none => .error .compilerOptimizer
  | .framework _, .preparation _, _, _ => .error .compilerUnitary
  | .framework _, _, _, _ => .error .compilerState
  | _, _, _, _ => .error .compilerFramework

def arrayShape? : Operand α → Option (List Nat)
  | .array t => some t.shape
  | .objects shape _ | .texts shape _ => some shape
  | _ => none

/-- The operand is a state, an operator, or an array that can be one. -/
def checkPrimitive (x : Operand α) : Outcome Unit :=
  match x, arrayShape? x with
  | .state _, _ | .operator _, _ => .ok ()
  | _, none => .error .primitiveType
  | _, some shape =>
    if shape.foldl (· * ·) 1 < 2 then .error .primitiveValue
    else match shape with
      | [_] => .ok ()
      | [r, c] => if r = c then .ok () else .error .primitiveShape
      | _ => .error .primitiveValue

def checkQubits (x qubits : Operand α) : Outcome Unit := do
  let k ← qubits.length
  let fits := match x, arrayShape? x with
    | .state v, _ => k == v.numQubits
    | .operator u, _ => k == u.numQubits
    | _, some (n :: _) => 2 ^ k == n
    | _, _ => false
  if fits then .ok () else .error .primitiveQubits

def pairOf (x : Operand α) : Outcome (Operand α × Operand α) := do
  match ← x.items with
  | [a, b] => .ok (a, b)
  | _ => .error (.unfit .value)

def compileOne (R : Routines α) (c : Compiler) (x : Operand α) : Outcome (Circuit α) := do
  checkPrimitive x
  match x, arrayShape? x with
  | .state _, _ => c.preparation.prepare R c.framework x (.real 0.0) (.text "row")
  | .operator _, _ => c.synthesis.prepare R c.framework x
  | _, some [_] =>
    let v ← StateVector.ofOperand .ket x none
    c.preparation.prepare R c.framework (.state v) (.real 0.0) (.text "row")
  | _, _ =>
    let u ← UnitaryOperator.ofOperand x none
    c.synthesis.prepare R c.framework (.operator u)

/-- The larger of a number and the numbers of a list, which all have to be real. -/
def largest (start : Operand α) (xs : List (Operand α)) : Outcome (Operand α) :=
  xs.foldlM (fun m x =>
    match m.toReal?, x.toReal? with
    | some a, some b => .ok (if Scalar.lt a b then x else m)
    | _, _ => .error (.unfit .type)) start

def optimize (c : Compiler) (circuit : Circuit α) : Outcome (Circuit α) :=
  match c.optimizer with
  | none => .error .noOptimizer
  | some o => o.optimize circuit

def compileAll (R : Routines α) (c : Compiler) (xs : List (Operand α)) : Outcome (Circuit α) := do
  let pairs ← xs.mapM fun x => do
    let (p, qubits) ← pairOf x
    checkPrimitive p
    checkQubits p qubits
    .ok (p, qubits)
  let top ← pairs.foldlM (fun m (p : Operand α × Operand α) => do largest m (← p.2.items)) (.int 0)
  let circuit ← Circuit.new c.framework (← top.sum (.int 1))
  let circuit ← pairs.foldlM (fun (circuit : Circuit α) (p : Operand α × Operand α) => do
    let part ← compileOne R c p.1
    circuit.after (Circuit.add part p.2)) circuit
  match c.optimizer with
  | none => .ok circuit
  | some _ => c.optimize circuit

/-- Compiles a state or operator, or a list of them with their qubits. -/
def compile (R : Routines α) (c : Compiler) (x : Operand α) : Outcome (Circuit α) :=
  match x with
  | .list xs => compileAll R c xs
  | x => compileOne R c x

end Compiler

end QuantumCircuits
