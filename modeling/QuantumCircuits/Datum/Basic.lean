import QuantumCircuits.Scalar.Basic

/-!
# Datum — Basic

Plain data: numbers, texts, lists and records, which is what requests are read as and answers are
written from.  A whole number and a real number are told apart, also when their values are equal.
-/

namespace QuantumCircuits

/-- A piece of plain data. -/
inductive Datum (α : Type) where
  | null
  | bool (b : Bool)
  | int (i : Int)
  | real (x : α)
  | text (s : String)
  | list (xs : List (Datum α))
  | record (fields : List (String × Datum α))
deriving Inhabited

namespace Datum

variable {α : Type}

def field? (d : Datum α) (k : String) : Option (Datum α) :=
  match d with
  | .record fields => fields.lookup k
  | _ => none

def field (d : Datum α) (k : String) : Datum α := (d.field? k).getD .null

def fields : Datum α → List (String × Datum α)
  | .record fs => fs
  | _ => []

def items : Datum α → List (Datum α)
  | .list xs => xs
  | _ => []

def text? : Datum α → Option String
  | .text s => some s
  | _ => none

def words (d : Datum α) : String := d.text?.getD ""

def isTrue : Datum α → Bool
  | .bool b => b
  | _ => false

def whole : Datum α → Int
  | .int i => i
  | .bool b => if b then 1 else 0
  | _ => 0

def whole? : Datum α → Option Int
  | .int i => some i
  | _ => none

def nat (n : Nat) : Datum α := .int n

def ofCplx (z : Cplx α) : Datum α := .list [.real z.re, .real z.im]

def ofText? : Option String → Datum α
  | some s => .text s
  | none => .null

/-- The real number that a datum stands for; the words for the infinite numbers are read, and every
other text stands for the undefined number. -/
def number [Scalar α] : Datum α → α
  | .int i => Scalar.ofInt i
  | .real x => x
  | .bool b => if b then 1.0 else 0.0
  | .text "inf" => 1.0 / 0.0
  | .text "-inf" => -(1.0 / 0.0)
  | .text _ => 0.0 / 0.0
  | _ => 0.0

end Datum

end QuantumCircuits
