import QuantumCircuits.Operand.Grid

/-!
# State — Vector

Building state vectors and changing them in place: normalization, padding, compression and the
order of the entries.  `StateVector.build` takes any array and refuses what is no vector.
-/

namespace QuantumCircuits

variable {α : Type} [Scalar α]

open Scalar

/-- The cut of a list that an end index denotes, counted from the end when negative. -/
def takeTo {β : Type} (xs : List β) (stop : Int) : List β :=
  if 0 ≤ stop then xs.take stop.toNat else xs.take (xs.length - (-stop).toNat)

namespace StateVector

def defaultLabel : String := "Ψ"

/-- The sum of the squares of the entries, which are not those of the absolute values.  Whole
numbers wrap around in words of 64 bits. -/
def squareSum (data : Tensor α) : Cplx α :=
  match data.element with
  | .int =>
    let total := data.entries.foldl (fun (s : Int) z => s + truncate z.re * truncate z.re) 0
    .ofReal (ofInt (total.bmod (2 ^ (64 : Nat))))
  | _ => data.entries.foldl (fun s z => s + z * z) Cplx.zero

/-- The squares of the entries sum to one, up to the usual tolerance. -/
def checkNormalization (data : Tensor α) : Bool := (squareSum data).isClose .one 1e-5 1e-8

/-- A complex number times a real one, as complex numbers are divided by one without an imaginary
part. -/
def stretch (z : Cplx α) (s : α) : Cplx α := ⟨(z.re + z.im * 0.0) * s, (z.im - z.re * 0.0) * s⟩

def normalizeData (data : Tensor α) (length : α) : Tensor α :=
  let s := 1.0 / length
  match data.element with
  | .complex => data.map (stretch · s)
  | _ => data.mulScalar .real (.ofReal s)

def checkPadding (data : Tensor α) : Outcome Bool :=
  match data.length? with
  | some n => .ok (isPowerOfTwo n)
  | none => .error (.unfit .index)

def padColumn (data : Tensor α) (extra : Nat) : Tensor α :=
  Tensor.column { data with entries := data.entries ++ Array.replicate extra Cplx.zero }

def padAxes (data : Tensor α) (extra : Nat) : Tensor α :=
  let shape := data.shape.map (· + extra)
  let entries := (Array.range (shape.foldl (· * ·) 1)).map fun k =>
    match Tensor.offset? data.shape (Tensor.places shape k) with
    | some o => data.entries.getD o .zero
    | none => .zero
  ⟨shape, data.element, entries⟩

/-- Zeros up to a length that counts: that of all entries or that of the first axis, as the kind of
vector has it. -/
def padData (k : VectorKind) (data : Tensor α) (target : Nat) : Outcome (Tensor α) :=
  let length := match k with
    | .ket => data.entries.size
    | .bra => data.length?.getD 0
  if target < length then .error (.unfit .value)
  else match k with
    | .ket => .ok (padColumn data (target - length))
    | .bra => .ok (padAxes data (target - length))

/-- The array of one over a number, or over every entry of an array.  A number may not be zero, and
one over a whole number too large to be a real one is zero. -/
def inverse (length : Operand α) : Outcome (Tensor α) :=
  match length with
  | .array t => .ok ⟨t.shape, t.element.join .real, t.entries.map (Cplx.one.div ·)⟩
  | .complex z =>
    if eq z.re 0.0 && eq z.im 0.0 then .error (.unfit .division)
    else .ok ⟨[], .complex, #[Cplx.one.div z]⟩
  | x => match x.toReal? with
    | none => .error (.unfit .type)
    | some x =>
      if eq x 0.0 then .error (.unfit .division) else .ok ⟨[], .real, #[.ofReal (1.0 / x)]⟩

/-- The data of an operand, divided by a given number; an array without axes turns into the number
it holds. -/
def normalizeBy (data length : Operand α) : Outcome (Operand α) := do
  let s ← inverse length
  let some t := Grid.tensor? data | .error (.unfit .type)
  let some u := t.mulTensor s | .error (.unfit .value)
  let u := if t.element = .complex ∧ s.element = .real ∧ s.shape.isEmpty then
    { u with entries := t.entries.map (fun z => stretch z (s.entries.getD 0 .zero).re) } else u
  .ok (if u.rank = 0 then .ofEntryPlain u.element (u.entries.getD 0 .zero) else .array u)

/-- How many zeros padding adds: the target less the length, cut off toward zero. -/
def padding (target : Operand α) (length : Nat) : Outcome Int :=
  match target.toInt? with
  | some i => .ok (i - length)
  | none => do
    let x := (← target.toReal) - ofNat length
    if !(isNumber x) then .error (.unfit .value)
    else if !(isFinite x) then .error (.unfit .overflow)
    else .ok (truncate x)

def mostPadding : Int := 2 ^ (24 : Nat)

def checkPaddingCount (extra : Int) : Outcome Nat :=
  if 2 ^ (63 : Nat) ≤ extra then .error (.unfit .type)
  else if extra < 0 ∨ mostPadding < extra then .error (.unfit .value)
  else .ok extra.toNat

/-- The data of an operand padded to a given length.  Only an array has a shape. -/
def padTo (k : VectorKind) (data target : Operand α) : Outcome (Tensor α) := do
  match k, data with
  | .ket, .array t => .ok (padColumn t (← checkPaddingCount (← padding target t.entries.size)))
  | .ket, _ => .error (.unfit .name)
  | .bra, data =>
    let n ← data.length
    let some t := Grid.tensor? data | .error (.unfit .type)
    .ok (padAxes t (← checkPaddingCount (← padding target n)))

def checkNormalizationOf (data : Operand α) : Outcome Bool :=
  match Grid.tensor? data with
  | some t => .ok (checkNormalization t)
  | none => .error (.unfit .type)

/-- Whether the data of an operand is padded; only an array has a shape. -/
def checkPaddingOf (data : Operand α) : Outcome Bool :=
  match data with
  | .array t => checkPadding t
  | _ => .error (.unfit .name)

def reviewNormalized : Change (StateVector α) Unit :=
  modify fun v => { v with normalized := checkNormalization v.data }

def reviewPadded : Change (StateVector α) Unit := do
  let padded ← Change.ofOutcome (checkPadding (← get).data)
  modify fun v => { v with padded }

def normalize : Change (StateVector α) Unit :=
  modify fun v =>
    if v.normalized then v
    else { v with data := normalizeData v.data v.normScale, normalized := true }

def pad : Change (StateVector α) Unit := do
  let v ← get
  unless v.padded do
    let data ← Change.ofOutcome (padData v.kind v.data (2 ^ v.numQubits))
    set { v with data, shape := data.shape, padded := true }

def complete : Change (StateVector α) Unit := do
  normalize
  pad

def orient (k : VectorKind) (data : Tensor α) : Outcome (Tensor α) :=
  match k, data.shape with
  | k, [] => .error (.scalarVector k)
  | .ket, [n] => if n == 1 then .error (.scalarVector .ket) else .ok data.column.toComplex
  | .bra, [n] => if n == 1 then .error (.scalarVector .bra) else .ok data.toComplex
  | .ket, [r, c] =>
    if c != 1 then .error (.operatorVector .ket)
    else if r == 1 then .error (.scalarVector .ket) else .ok data.toComplex
  | .bra, [r, c] =>
    if r != 1 then .error (.operatorVector .bra)
    else if c == 1 then .error (.scalarVector .bra) else .ok data.flatten.toComplex
  | k, _ => .error (.deepVector k)

/-- Replaces the data of a vector, then completes it as its flags say. -/
def adopt (data : Tensor α) : Change (StateVector α) Unit := do
  let v ← get
  let d ← Change.ofOutcome (orient v.kind data)
  set { v with data := d, shape := match v.kind with
    | .ket => v.shape
    | .bra => d.shape }
  complete

/-- The number of entries that the number of qubits is counted by. -/
def extent (k : VectorKind) (data : Tensor α) : Outcome Nat :=
  match k with
  | .ket => match data.length? with
    | some n => .ok n
    | none => .error (.unfit .index)
  | .bra => .ok data.size

def build (k : VectorKind) (data : Tensor α) (label : Option String) : Outcome (StateVector α) := do
  let n ← extent k data
  if n == 0 then .error (.unfit .overflow)
  let start : StateVector α :=
    { kind := k
      label := label.getD defaultLabel
      data
      shape := data.shape
      numQubits := ceilLog2 n
      normScale := data.norm
      normalized := checkNormalization data
      padded := false }
  let (done, v) := Change.perform (do reviewPadded; adopt data) start
  done
  .ok v

/-- The vector of an operand, which has to be an array of numbers.  The length of a bra is measured
before its shape is asked for, so what has no length is another fault. -/
def ofOperand (k : VectorKind) (data : Operand α) (label : Option String) :
    Outcome (StateVector α) :=
  match data with
  | .array t => build k t label
  | .objects shape xs => do build k ⟨shape, .complex, (← xs.mapM Operand.toCplx).toArray⟩ label
  | .texts .. => .error (.unfit .value)
  | x => match k with
    | .ket => .error (.unfit .name)
    | .bra => do
      let g ← Grid.ofOperand x
      if g.kind = .text then .error (.unfit .value)
      let _ ← g.cells.mapM Operand.toCplx
      .error (.unfit .name)

def dual (v : StateVector α) : Outcome (StateVector α) :=
  let flipped := v.data.map Cplx.conj
  match v.kind with
  | .ket => build .bra { flipped with shape := [1, flipped.size] } none
  | .bra => build .ket flipped.flatten none

/-- The positions of the entries, those of smallest absolute value first. -/
def bySize (data : Tensor α) : List Nat :=
  (List.range data.size).mergeSort fun i j =>
    le (data.entries.getD i .zero).abs (data.entries.getD j .zero).abs

/-- Clears the given percentage of the entries, the smallest ones. -/
def compress (percentage : Operand α) : Change (StateVector α) Unit := do
  let p ← Change.ofOutcome percentage.toReal
  let v ← get
  let size := match v.kind with
    | .ket => v.data.size
    | .bra => v.data.length?.getD 0
  let part := p / 100.0 * ofNat size
  unless isNumber part do Change.fail (.unfit .value)
  unless isFinite part do Change.fail (.unfit .overflow)
  let cut := takeTo (bySize v.data) (truncate part)
  let data := { v.data with
    entries := cut.foldl (fun a i => a.setIfInBounds i .zero) v.data.entries }
  set { v with data := match v.kind with
    | .ket => data.column
    | .bra => data }

def snake (data : Tensor α) : Outcome (Tensor α) :=
  let n := data.size
  if n % 2 != 0 then .error (.unfit .value)
  else .ok { data with
    entries := data.entries.extract 0 (n / 2) ++ (data.entries.extract (n / 2) n).reverse }

/-- Changes the order of the entries; from three qubits on, the snake order runs back through the
second half. -/
def changeIndexing (order : Operand α) : Change (StateVector α) Unit := do
  let v ← get
  match order with
  | .text "snake" =>
    if 3 ≤ v.numQubits then
      let d ← Change.ofOutcome (snake v.data)
      set { v with data := match v.kind with
        | .ket => d.column
        | .bra => d.flatten }
  | .text "row" => pure ()
  | _ => Change.fail .indexing

def length (v : StateVector α) : Nat :=
  match v.kind with
  | .ket => v.data.size
  | .bra => v.data.length?.getD 0

def text (v : StateVector α) : String :=
  match v.kind with
  | .ket => "|" ++ v.label ++ "⟩"
  | .bra => "⟨" ++ v.label ++ "|"

end StateVector

namespace UnitaryOperator

def defaultLabel : String := "A\u0302"

/-- The side length of a square array, which has to be a power of two. -/
def sideLength (shape : List Nat) : Outcome Nat :=
  match shape with
  | [r, c] =>
    if r != c then .error .operatorNotSquare
    else if isPowerOfTwo r then .ok r else .error .operatorDimension
  | _ => .error .operatorNotSquare

/-- The operator of a unitary matrix whose size is a power of two. -/
def build (data : Tensor α) (label : Option String) : Outcome (UnitaryOperator α) := do
  let n ← sideLength data.shape
  if !data.isUnitary .usual then .error .operatorNotUnitary
  .ok
    { label := match label with
        | none => some defaultLabel
        | some _ => none
      data
      shape := data.shape
      numQubits := ceilLog2 n }

/-- The operator of an operand, which has to be an array of numbers. -/
def ofOperand (data : Operand α) (label : Option String) : Outcome (UnitaryOperator α) :=
  match data with
  | .array t => build t label
  | .objects shape xs => do
    let _ ← sideLength shape
    match xs.mapM Grid.complexCell with
    | .ok zs => build ⟨shape, .complex, zs.toArray⟩ label
    | .error (.unfit .value) => .error .operatorNotComplex
    | .error f => .error f
  | .texts shape _ => do
    let _ ← sideLength shape
    .error .operatorNotComplex
  | _ => .error (.unfit .name)

def text (u : UnitaryOperator α) : Outcome String :=
  match u.label with
  | some l => .ok l
  | none => .error (.unfit .name)

end UnitaryOperator

/-! ### Algebra

Sums, products and comparison of states and operators.  A product with a number scales; the
product of two vectors or operators is defined when they live on as many qubits, and each pair of
kinds has its own product: outer, inner, Kronecker or matrix product.
-/

/-- What a product can be. -/
inductive Product (α : Type) where
  | state (v : StateVector α)
  | operator (u : UnitaryOperator α)
  | number (z : Cplx α)

namespace Operand

/-- The operand scales states and operators: it is a number or an array. -/
def isScale : Operand α → Bool
  | .complex _ => true
  | x => x.isReal || x.isArray

/-- The array that scales states and operators: a number counts as an array without axes. -/
def toScale (x : Operand α) : Outcome (Tensor α) :=
  match x with
  | .array t => .ok t
  | .objects shape xs => do .ok ⟨shape, .complex, (← xs.mapM toCplx).toArray⟩
  | .complex z => .ok ⟨[], .complex, #[z]⟩
  | x => do .ok ⟨[], .real, #[.ofReal (← x.toReal)]⟩

end Operand

namespace Tensor

def scaledBy (t s : Tensor α) : Outcome (Tensor α) :=
  match t.mulTensor s with
  | some u => .ok u.toComplex
  | none => .error (.unfit .value)

def matMul (s t : Tensor α) : Outcome (Tensor α) :=
  match s.toMat?, t.toMat? with
  | some M, some N =>
    if M.cols != N.rows then .error (.unfit .value)
    else .ok { ofMat (M * N) with element := s.element.join t.element }
  | _, _ => .error (.unfit .value)

end Tensor

namespace StateVector

def checkProduct (v : StateVector α) (x : Operand α) : Outcome Unit :=
  if x.isScale then .ok ()
  else match v.kind, x with
    | .ket, .state w =>
      if v.numQubits == w.numQubits then .ok () else .error .incompatibleContraction
    | .bra, .state w => match w.kind with
      | .ket => if v.numQubits == w.numQubits then .ok () else .error .incompatibleContraction
      | .bra => .error (.noMultiplication x.shownType)
    | .bra, .operator u =>
      if v.numQubits == u.numQubits then .ok () else .error .incompatibleVectors
    | _, _ => .error (.noMultiplication x.shownType)

/-- The entries as a matrix: a column for a ket, a row for a bra. -/
def asMat (v : StateVector α) : Mat (Cplx α) :=
  match v.kind with
  | .ket => .ofColumn v.data.entries
  | .bra => ⟨1, v.data.size, v.data.entries⟩

def scaleBy (v : StateVector α) (s : Tensor α) : Outcome (StateVector α) := do
  build v.kind (← v.data.scaledBy s) none

def mul (v : StateVector α) (x : Operand α) : Outcome (Product α) := do
  v.checkProduct x
  if x.isScale then .ok (.state (← v.scaleBy (← x.toScale)))
  else match v.kind, x with
    | .ket, .state w => match w.kind with
      | .bra =>
        let outer : Mat (Cplx α) := .ofFn v.data.size w.data.size fun i j =>
          v.data.entries.getD i .zero * (w.data.entries.getD j .zero).conj
        .ok (.operator (← UnitaryOperator.build (.ofMat outer) none))
      | .ket => .ok (.state (← build .ket (.ofMat (v.asMat.kron w.asMat)) none))
    | .bra, .state w =>
      if v.data.size != w.data.size then .error (.unfit .value)
      .ok (.number (Mat.dot v.data.size (fun k => v.data.entries.getD k .zero)
        (fun k => w.data.entries.getD k .zero)))
    | .bra, .operator u => match u.data.toMat? with
      | some M =>
        if v.data.size != M.rows then .error (.unfit .value)
        .ok (.state (← build .bra (.vector (v.asMat * M).entries) none))
      | none => .error (.unfit .value)
    | _, _ => .error (.noMultiplication x.shownType)

def mulLeft (v : StateVector α) (x : Operand α) : Outcome (Product α) := do
  if x.isScale then .ok (.state (← v.scaleBy (← x.toScale)))
  else .error (.noMultiplication x.shownType)

def add (v : StateVector α) (x : Operand α) : Outcome (StateVector α) :=
  match x with
  | .state w =>
    if v.kind != w.kind then .error (.noAddition x.shownType)
    else if v.numQubits != w.numQubits then .error .incompatibleSum
    else if v.data.size != w.data.size then .error (.unfit .value)
    else build v.kind (.vector (v.data.entries.zipWith (· + ·) w.data.entries)) none
  | _ => .error (.noAddition x.shownType)

def eq (v : StateVector α) (x : Operand α) : Outcome Bool :=
  match x with
  | .state w =>
    if v.kind != w.kind then .error (.noEquality x.shownType)
    else if v.data.size != w.data.size then .error (.unfit .value)
    else .ok ((List.range v.data.size).all fun k =>
      (v.data.entries.getD k .zero).isClose (w.data.entries.getD k .zero) 0.0 1e-10)
  | _ => .error (.noEquality x.shownType)

end StateVector

namespace UnitaryOperator

def checkProduct (u : UnitaryOperator α) (x : Operand α) : Outcome Unit :=
  if x.isScale then .ok ()
  else match x with
    | .state w => match w.kind with
      | .ket => if u.numQubits == w.numQubits then .ok () else .error .incompatibleKet
      | .bra => .error (.noMultiplication x.shownType)
    | .operator w => if u.numQubits == w.numQubits then .ok () else .error .incompatibleOperators
    | _ => .error (.noMultiplication x.shownType)

def scaleBy (u : UnitaryOperator α) (s : Tensor α) : Outcome (UnitaryOperator α) := do
  build (← u.data.scaledBy s) none

def mul (u : UnitaryOperator α) (x : Operand α) : Outcome (Product α) := do
  u.checkProduct x
  if x.isScale then .ok (.operator (← u.scaleBy (← x.toScale)))
  else match x with
    | .state w =>
      let column := w.data.flatten.column
      .ok (.state (← StateVector.build .ket (← u.data.matMul column).toComplex none))
    | .operator w => .ok (.operator (← build (← u.data.matMul w.data) none))
    | _ => .error (.noMultiplication x.shownType)

def mulLeft (u : UnitaryOperator α) (x : Operand α) : Outcome (Product α) := do
  if x.isScale then .ok (.operator (← u.scaleBy (← x.toScale)))
  else .error (.noMultiplication x.shownType)

end UnitaryOperator

end QuantumCircuits
