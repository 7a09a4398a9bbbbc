import QuantumCircuits.Datum.Basic
import QuantumCircuits.State.Vector

/-!
# Operand — Notation

Operands as plain data.  What plain data has no word for is written as a record with one field that
says what it is, `{"tuple": [...]}` or `{"ket": ...}`, and an array as a record of its shape and
entries; `Operand.ofDatum` reads this notation.  `Operand.toDatum` writes results, where every entry
of an array is a complex number.
-/

namespace QuantumCircuits

variable {α : Type} [Scalar α]

namespace Tensor

def elementNamed (s : String) : Element :=
  match s with
  | "int" => .int
  | "float" => .real
  | _ => .complex

def readShape (d : Datum α) : List Nat := (d.field "shape").items.map fun x => x.whole.toNat

/-- The array of a record; imaginary parts that are not given are zero. -/
def ofDatum (d : Datum α) : Tensor α :=
  let re := (d.field "re").items.map Datum.number
  let im := match d.field? "im" with
    | some xs => xs.items.map Datum.number
    | none => re.map fun _ => 0.0
  ⟨readShape d, elementNamed (d.field "dtype").words,
    (re.zipWith (fun a b => (⟨a, b⟩ : Cplx α)) im).toArray⟩

def shapeDatum (shape : List Nat) : Datum α := .list (shape.map .nat)

def toDatum (t : Tensor α) : Datum α :=
  .record [("shape", shapeDatum t.shape), ("data", .list (t.entries.toList.map .ofCplx))]

end Tensor

def Mat.toDatum (M : Mat (Cplx α)) : Datum α := (Tensor.ofMat M).toDatum

def StateVector.toDatum (v : StateVector α) : Datum α :=
  .record [
    ("type", .text (match v.kind with
      | .ket => "Ket"
      | .bra => "Bra")),
    ("data", v.data.toDatum), ("shape", Tensor.shapeDatum v.shape),
    ("num_qubits", .nat v.numQubits), ("label", .text v.label), ("normalized", .bool v.normalized),
    ("padded", .bool v.padded), ("norm_scale", .real v.normScale)]

def UnitaryOperator.toDatum (u : UnitaryOperator α) : Datum α :=
  .record [("type", .text "Operator"), ("data", u.data.toDatum),
    ("shape", Tensor.shapeDatum u.shape), ("num_qubits", .nat u.numQubits),
    ("label", .ofText? u.label)]

namespace Operand

mutual

def toDatum : Operand α → Datum α
  | .none => .null
  | .bool b => .bool b
  | .int i | .int64 i => .int i
  | .boxed _ x => toDatum x
  | .real x => .real x
  | .complex z => .ofCplx z
  | .text s => .text s
  | .list xs | .tuple xs | .set xs => .list (toData xs)
  | .objects shape xs => .record [("shape", Tensor.shapeDatum shape),
      ("data", .list (xs.map fun x => .ofCplx (x.toCplx?.getD .zero)))]
  | .range a b s => .list ((rangeMembers a b s).map .int)
  | .array t => t.toDatum
  | .texts _ xs => .list (xs.map .text)
  | .state v => v.toDatum
  | .operator u => u.toDatum
  | .other .. => .text "circuit"

def toData : List (Operand α) → List (Datum α)
  | [] => []
  | x :: xs => toDatum x :: toData xs

end

mutual

def toRealDatum : Operand α → Datum α
  | .list xs | .tuple xs => .list (toRealData xs)
  | x => match x.toReal? with
    | some r => .real r
    | Option.none => x.toDatum

def toRealData : List (Operand α) → List (Datum α)
  | [] => []
  | x :: xs => toRealDatum x :: toRealData xs

end

mutual

/-- Every number of an operand, and of the lists in it, is a real one. -/
def checkReals : Operand α → Outcome Unit
  | .list xs | .tuple xs => checkAllReals xs
  | .int i => discard (realOfInt i : Outcome α)
  | _ => .ok ()

def checkAllReals : List (Operand α) → Outcome Unit
  | [] => .ok ()
  | x :: xs => do
    checkReals x
    checkAllReals xs

end

/-- The range that its one, two or three bounds give; its step may not be zero. -/
def rangeOf (bounds : List (Datum α)) : Outcome (Operand α) := do
  match ← bounds.mapM fun d => match d with
    | .int i => .ok i
    | .bool b => .ok (if b then 1 else 0)
    | _ => refuse .type with
  | [stop] => .ok (.range 0 stop 1)
  | [start, stop] => .ok (.range start stop 1)
  | [start, stop, step] => if step = 0 then refuse .value else .ok (.range start stop step)
  | _ => refuse .type

mutual

/-- Reads an operand; `find` looks up the things that were given names. -/
def ofDatum (find : String → Outcome (Operand α)) : Datum α → Outcome (Operand α)
  | .null => .ok .none
  | .bool b => .ok (.bool b)
  | .int i => .ok (.int i)
  | .real x => .ok (.real x)
  | .text s => .ok (.text s)
  | .list xs => do .ok (.list (← ofData find xs))
  | .record [("c", d)] => match d.items with
    | [a, b] => .ok (.complex ⟨a.number, b.number⟩)
    | _ => .ok .none
  | .record [("f", d)] => .ok (.real d.number)
  | .record [("tuple", .list xs)] => do .ok (.tuple (← ofData find xs))
  | .record [("set", .list xs)] => do .ok (.set (← ofData find xs))
  | .record [("range", d)] => rangeOf d.items
  | .record [("ref", d)] => find d.words
  | .record [("ket", d)] => do
    .ok (.state (← StateVector.ofOperand .ket (← ofDatum find d) Option.none))
  | .record [("bra", d)] => do
    .ok (.state (← StateVector.ofOperand .bra (← ofDatum find d) Option.none))
  | .record [("operator", d)] => do
    .ok (.operator (← UnitaryOperator.ofOperand (← ofDatum find d) Option.none))
  | .record fields => match ((Datum.record fields).field "dtype").words with
    | "str" => .ok (.texts (Tensor.readShape (.record fields))
        (((Datum.record fields).field "re").items.map Datum.words))
    | "object" => do
      .ok (.objects (Tensor.readShape (.record fields)) (← ofEntries find fields))
    | _ => .ok (.array (Tensor.ofDatum (.record fields)))

def ofData (find : String → Outcome (Operand α)) : List (Datum α) → Outcome (List (Operand α))
  | [] => .ok []
  | x :: xs => do .ok ((← ofDatum find x) :: (← ofData find xs))

def ofEntries (find : String → Outcome (Operand α)) :
    List (String × Datum α) → Outcome (List (Operand α))
  | [] => .ok []
  | ("re", .list xs) :: _ => ofData find xs
  | _ :: rest => ofEntries find rest

end

end Operand

end QuantumCircuits
