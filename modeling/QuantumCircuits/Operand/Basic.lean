import QuantumCircuits.Linear.Tensor

/-!
# Operand — Basic

The operands of gate calls are loosely typed: an index may be a number, a list, a range or an
array, and what does not fit is refused with the name of its type.  `Operand` is that type, with
the few operations that gate definitions apply to operands before they are checked.
-/

/-! ### States

State vectors and operators.  A `Ket` is a column and a `Bra` a row; building one pads the data
with zeros to a power of two and scales it to length one, and the flags `normalized` and `padded`
remember that this was done.
-/

namespace QuantumCircuits

/-- A state vector, held as a column by a ket and as a row by a bra. -/
structure StateVector (α : Type) where
  kind : VectorKind
  label : String
  data : Tensor α
  /-- The shape that was last reported, which a padding updates. -/
  shape : List Nat
  numQubits : Nat
  normScale : α
  normalized : Bool
  padded : Bool
deriving Repr

/-- A unitary operator; the label is only known when none was asked for. -/
structure UnitaryOperator (α : Type) where
  label : Option String
  data : Tensor α
  shape : List Nat
  numQubits : Nat
deriving Repr

/-! ### Basic -/

/-- A loosely typed operand. -/
inductive Operand (α : Type) where
  | none
  | bool (b : Bool)
  | int (i : Int)
  /-- A whole number taken out of an array. -/
  | int64 (i : Int)
  /-- A number of another kind taken out of an array, with the name of its type there. -/
  | boxed (type : String) (x : Operand α)
  | real (x : α)
  | complex (z : Cplx α)
  | text (s : String)
  | list (xs : List (Operand α))
  | tuple (xs : List (Operand α))
  | set (xs : List (Operand α))
  | range (start stop step : Int)
  | array (t : Tensor α)
  /-- An array of operands. -/
  | objects (shape : List Nat) (xs : List (Operand α))
  /-- An array of texts. -/
  | texts (shape : List Nat) (xs : List String)
  | state (v : StateVector α)
  | operator (u : UnitaryOperator α)
  /-- Anything else, known by the name of its type and the name it was given. -/
  | other (type name : String)
deriving Repr

def rangeCount (start stop step : Int) : Nat :=
  if 0 < step then ((stop - start + step - 1) / step).toNat
  else if step < 0 then ((start - stop + (-step) - 1) / (-step)).toNat
  else 0

def rangeMembers (start stop step : Int) : List Int :=
  (List.range (rangeCount start stop step)).map fun (k : Nat) => start + step * k

namespace Operand

variable {α : Type} [Scalar α]

open Scalar

instance : Inhabited (Operand α) := ⟨.none⟩

def typeName : Operand α → String
  | .none => "NoneType"
  | .bool _ => "bool"
  | .int _ => "int"
  | .int64 _ => "numpy.int64"
  | .boxed t _ => t
  | .real _ => "float"
  | .complex _ => "complex"
  | .text _ => "str"
  | .list _ => "list"
  | .tuple _ => "tuple"
  | .set _ => "set"
  | .range .. => "range"
  | .array _ | .objects .. | .texts .. => "numpy.ndarray"
  | .state v => match v.kind with
    | .ket => "quick.primitives.ket.Ket"
    | .bra => "quick.primitives.bra.Bra"
  | .operator _ => "quick.primitives.operator.Operator"
  | .other t _ => t

def shownType (x : Operand α) : String := "<class '" ++ x.typeName ++ "'>"

def refuse {β : Type} (c : Category) : Outcome β := .error (.unfit c)

def ofEntry (e : Element) (z : Cplx α) : Operand α :=
  match e with
  | .int => .int64 (truncate z.re)
  | .real => .real z.re
  | .complex => .complex z

def ofEntryPlain (e : Element) (z : Cplx α) : Operand α :=
  match e with
  | .int => .int (truncate z.re)
  | .real => .real z.re
  | .complex => .complex z

def nest : List Nat → List (Operand α) → Operand α
  | [], xs => xs.headD .none
  | n :: rest, xs =>
    let step := rest.foldl (· * ·) 1
    .list ((List.range n).map fun i => nest rest ((xs.drop (i * step)).take step))

def isInt : Operand α → Bool
  | .int _ | .bool _ => true
  | _ => false

def toInt? : Operand α → Option Int
  | .int i | .int64 i => some i
  | .bool b => some (if b then 1 else 0)
  | _ => Option.none

def counted : Operand α → Operand α
  | .bool b => .int (if b then 1 else 0)
  | x => x

/-- The operand can serve as a position; every array counts as one. -/
def isPosition : Operand α → Bool
  | .int _ | .int64 _ | .bool _ | .array _ | .objects .. | .texts .. => true
  | _ => false

def isArray : Operand α → Bool
  | .array _ | .objects .. | .texts .. => true
  | _ => false

/-- A sequence in the narrow sense, which arrays and sets are not. -/
def isSequence : Operand α → Bool
  | .list _ | .tuple _ | .range .. | .text _ => true
  | _ => false

/-- The real number of an operand that is one, for comparisons: a whole number beyond all real
numbers counts as infinite. -/
def toReal? : Operand α → Option α
  | .int i | .int64 i => some (ofInt i)
  | .bool b => some (if b then 1.0 else 0.0)
  | .real x => some x
  | _ => Option.none

/-- The complex number of an operand that is one, for comparisons. -/
def toCplx? : Operand α → Option (Cplx α)
  | .complex z => some z
  | x => x.toReal?.map .ofReal

def isReal : Operand α → Bool
  | .int _ | .int64 _ | .bool _ | .real _ => true
  | _ => false

/-- The real number of a whole number, which may be too large to have one. -/
def realOfInt (i : Int) : Outcome α :=
  let x : α := ofInt i
  if isFinite x then .ok x else refuse .overflow

def toReal : Operand α → Outcome α
  | .int i | .int64 i => realOfInt i
  | .bool b => .ok (if b then 1.0 else 0.0)
  | .real x => .ok x
  | _ => refuse .type

def toCplx : Operand α → Outcome (Cplx α)
  | .complex z => .ok z
  | x => Cplx.ofReal <$> x.toReal

def items : Operand α → Outcome (List (Operand α))
  | .list xs | .tuple xs | .set xs => .ok xs
  | .range a b s =>
    if 2 ^ (63 : Nat) ≤ rangeCount a b s then refuse .overflow else .ok ((rangeMembers a b s).map .int)
  | .text s => .ok (s.toList.map fun c => .text c.toString)
  | .array t => match t.shape with
    | [] => refuse .type
    | [_] => .ok (t.entries.toList.map (ofEntry t.element))
    | n :: _ => .ok ((List.range n).map fun i => .array (t.slice i))
  | .objects shape xs => match shape with
    | [] => refuse .type
    | [_] => .ok xs
    | n :: rest =>
      let step := rest.foldl (· * ·) 1
      .ok ((List.range n).map fun i => .objects rest ((xs.drop (i * step)).take step))
  | .texts shape xs => match shape with
    | [] => refuse .type
    | [_] => .ok (xs.map .text)
    | n :: rest =>
      let step := rest.foldl (· * ·) 1
      .ok ((List.range n).map fun i => .texts rest ((xs.drop (i * step)).take step))
  | _ => refuse .type

def length (x : Operand α) : Outcome Nat := List.length <$> x.items

/-- The position that an index denotes among `n` items, counted from the end when negative. -/
def position (n : Nat) (i : Int) : Outcome Nat :=
  if 0 ≤ i ∧ i < n then .ok i.toNat
  else if i < 0 ∧ -(n : Int) ≤ i then .ok (i + n).toNat
  else refuse .index

def item (x : Operand α) (i : Int) : Outcome (Operand α) := do
  match x with
  | .set _ => refuse .type
  | _ =>
    let xs ← x.items
    let k ← position xs.length i
    .ok (xs.getD k .none)

/-- Puts items back into a sequence of the sort they were taken from. -/
def rebuild (x : Operand α) (xs : List (Operand α)) : Operand α :=
  match x with
  | .list _ => .list xs
  | .text _ => .text (String.join (xs.map fun
      | .text s => s
      | _ => ""))
  | .array t => match t.shape with
    | [_] => .array ⟨[xs.length], t.element, (xs.map fun y => (y.toCplx?).getD .zero).toArray⟩
    | _ => .list xs
  | .objects .. => .objects [xs.length] xs
  | _ => .tuple xs

def dropFirst (x : Operand α) : Outcome (Operand α) := do
  match x with
  | .set _ => refuse .type
  | _ => .ok (x.rebuild ((← x.items).drop 1))

def dropLast (x : Operand α) : Outcome (Operand α) := do
  match x with
  | .set _ => refuse .type
  | _ => .ok (x.rebuild (← x.items).dropLast)

def listed (x : Operand α) : Operand α := if x.isInt then .list [x] else x

/-- The plain value of an operand: sequences and arrays become lists, and whole numbers lose
their disguises. -/
def plain : Operand α → Operand α
  | .tuple xs => .list xs
  | .range a b s => .list ((rangeMembers a b s).map .int)
  | .text s => .list (s.toList.map fun c => .text c.toString)
  | .array t => nest t.shape (t.entries.toList.map (ofEntryPlain t.element))
  | .objects shape xs => nest shape xs
  | .texts shape xs => nest shape (xs.map .text)
  | .bool b => .int (if b then 1 else 0)
  | .int64 i => .int i
  | .boxed _ (.complex z) => .real z.re
  | .boxed _ (.bool b) => .int (if b then 1 else 0)
  | .boxed _ x => x
  | x => x

/-- The plain value of an operand; no list holds a range of `2 ^ 63` members or more. -/
def toPlain (x : Operand α) : Outcome (Operand α) :=
  match x with
  | .range a b s => if 2 ^ (63 : Nat) ≤ rangeCount a b s then refuse .overflow else .ok x.plain
  | x => .ok x.plain

/-- Applies a real or complex function to a number or to every entry of an array. -/
def mapNumber (f : α → α) (g : Cplx α → Cplx α) : Operand α → Outcome (Operand α)
  | .complex z => .ok (.complex (g z))
  | .array t => match t.element with
    | .complex => .ok (.array (t.map g))
    | _ => .ok (.array ⟨t.shape, .real, t.entries.map fun z => .ofReal (f z.re)⟩)
  | x => do .ok (.real (f (← x.toReal)))

def times (x : Operand α) (c : α) : Outcome (Operand α) := x.mapNumber (· * c) (Cplx.scale c)

def plus (x : Operand α) (c : α) : Outcome (Operand α) :=
  x.mapNumber (· + c) (fun z => ⟨z.re + c, z.im⟩)

def quotient (x : Operand α) (c : α) : Outcome (Operand α) := x.mapNumber (· / c) (Cplx.shrink · c)

def negate : Operand α → Outcome (Operand α)
  | .int i => .ok (.int (-i))
  | .int64 i => .ok (.int64 (-i))
  | .bool b => .ok (.int (if b then -1 else 0))
  | .boxed t (.complex z) => .ok (.boxed t (.complex (-z)))
  | .boxed t (.int i) => .ok (.boxed t (.int ((-i) % 2 ^ (64 : Nat))))
  | .array t => .ok (.array (t.map fun z => -z))
  | x => x.mapNumber (fun y => -y) (fun z => -z)

def multiply (x y : Operand α) : Outcome (Operand α) :=
  match x.toInt?, y.toInt? with
  | some i, some j => .ok (.int (i * j))
  | _, _ =>
    if x.isReal then do y.times (← x.toReal)
    else if y.isReal then do x.times (← y.toReal)
    else match x, y with
      | .complex z, .complex w => .ok (.complex (z * w))
      | _, _ => refuse .type

def sum (x y : Operand α) : Outcome (Operand α) :=
  match x.toInt?, y.toInt? with
  | some i, some j => .ok (.int (i + j))
  | _, _ =>
    if x.isReal then do y.plus (← x.toReal)
    else if y.isReal then do x.plus (← y.toReal)
    else match x, y with
      | .complex z, .complex w => .ok (.complex (z + w))
      | _, _ => refuse .type

def cut (x : Operand α) (start stop : Nat) : Outcome (Operand α) := do
  match x with
  | .set _ => refuse .type
  | _ => .ok (x.rebuild (((← x.items).take stop).drop start))

def toList (x : Operand α) : Outcome (Operand α) := do .ok (.list (← x.items))

def append (x : Operand α) (ys : List (Operand α)) : Outcome (Operand α) :=
  match x with
  | .list xs => .ok (.list (xs ++ ys))
  | _ => refuse .type

def truthy : Operand α → Bool
  | .none => false
  | .bool b => b
  | .int i | .int64 i => i != 0
  | .real x => !(eq x 0.0)
  | .complex z => !(eq z.re 0.0 && eq z.im 0.0)
  | .text s => !s.isEmpty
  | .list xs | .tuple xs | .set xs => !xs.isEmpty
  | .range a b s => rangeCount a b s != 0
  | _ => true

end Operand

/-! ### Text

How operands are written.  `Operand.repr` writes an operand as it would be typed in, and
`Operand.shown` differs from it only in that a text stands for itself.
-/

variable {α : Type} [Scalar α]

/-- The characters that leave no mark of their own: controls, blanks other than the plain one, marks
of format, and those for private use. -/
def unmarked : List (Nat × Nat) :=
  [(0x0, 0x1F), (0x7F, 0xA0), (0xAD, 0xAD), (0x600, 0x605), (0x61C, 0x61C), (0x6DD, 0x6DD),
    (0x70F, 0x70F), (0x890, 0x891), (0x8E2, 0x8E2), (0x1680, 0x1680), (0x180E, 0x180E),
    (0x2000, 0x200F), (0x2028, 0x202F), (0x205F, 0x206F), (0x3000, 0x3000), (0xD800, 0xF8FF),
    (0xFEFF, 0xFEFF), (0xFFF0, 0xFFFB), (0xFFFE, 0xFFFF), (0x110BD, 0x110BD), (0x110CD, 0x110CD),
    (0x13430, 0x1343F), (0x1BCA0, 0x1BCA3), (0x1D173, 0x1D17A), (0xE0000, 0xE00FF),
    (0xE01F0, 0x10FFFF)]

def hexText (width n : Nat) : String :=
  let ds := Nat.toDigits 16 n
  String.ofList (List.replicate (width - ds.length) '0' ++ ds)

def coded (c : Char) : String :=
  let n := c.toNat
  if n < 0x100 then "\\x" ++ hexText 2 n
  else if n < 0x10000 then "\\u" ++ hexText 4 n
  else "\\U" ++ hexText 8 n

def escaped (quote c : Char) : String :=
  if c = '\\' then "\\\\"
  else if c = '\n' then "\\n"
  else if c = '\t' then "\\t"
  else if c = '\r' then "\\r"
  else if c = quote then "\\" ++ c.toString
  else if unmarked.any fun (a, b) => a ≤ c.toNat && c.toNat ≤ b then coded c
  else c.toString

/-- A text in quotes: single ones, unless only double ones save an escape. -/
def quoted (s : String) : String :=
  let quote := if s.contains '\'' && !(s.contains '"') then '"' else '\''
  quote.toString ++ String.join (s.toList.map (escaped quote)) ++ quote.toString

/-- A part of a complex number: a whole one is written without a fraction. -/
def partText (x : α) : String :=
  let s := Scalar.text x
  if s.endsWith ".0" then (s.dropEnd 2).toString else s

/-- The text of a complex number; a real part that is zero is left out. -/
def Cplx.text (z : Cplx α) : String :=
  let im := partText z.im
  let re := partText z.re
  if re == "0" then im ++ "j"
  else "(" ++ re ++ (if im.startsWith "-" then im else "+" ++ im) ++ "j)"

namespace Operand

mutual

def repr : Operand α → String
  | .none => "None"
  | .bool b => if b then "True" else "False"
  | .int i => toString i
  | .int64 i => "np.int64(" ++ toString i ++ ")"
  | .boxed _ x => repr x
  | .real x => Scalar.text x
  | .complex z => z.text
  | .text s => quoted s
  | .list xs => "[" ++ ", ".intercalate (reprs xs) ++ "]"
  | .tuple xs => match reprs xs with
    | [x] => "(" ++ x ++ ",)"
    | ys => "(" ++ ", ".intercalate ys ++ ")"
  | .set xs => match reprs xs with
    | [] => "set()"
    | ys => "\x7b" ++ ", ".intercalate ys ++ "\x7d"
  | .range a b s =>
    "range(" ++ toString a ++ ", " ++ toString b ++
      (if s = 1 then "" else ", " ++ toString s) ++ ")"
  | .array _ | .objects .. | .texts .. => "array"
  | .state v => v.label
  | .operator u => u.label.getD ""
  | .other t _ => t

def reprs : List (Operand α) → List String
  | [] => []
  | x :: xs => repr x :: reprs xs

end

def shown : Operand α → String
  | .text s => s
  | .int64 i => toString i
  | x => x.repr

end Operand

end QuantumCircuits
