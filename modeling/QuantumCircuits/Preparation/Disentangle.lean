import QuantumCircuits.Bits

/-!
# Preparation — Disentangle

Gates that undo a state qubit by qubit.  `toBasis` turns a one-qubit state into a basis vector,
`disentanglers` collects such gates for all values of the other qubits, and `applySelected` applies
gates that are selected by the upper bits of the row number.
-/

namespace QuantumCircuits.Disentangle

open Scalar

section Rows

variable {β : Type} [Add β] [Mul β] [Inhabited β]

def applyToRows (gate : Mat β) (i j : Nat) (M : Mat β) : Mat β :=
  (List.range M.cols).foldl (fun N c =>
    let a := M.get i c
    let b := M.get j c
    (N.set i c (gate.get 0 0 * a + gate.get 0 1 * b)).set j c (gate.get 1 0 * a + gate.get 1 1 * b))
    M

/-- The first row of the `j`-th pair of rows that are `spacing` apart. -/
def pairRow (spacing j : Nat) : Nat := (j / spacing) * spacing + j

/-- Applies to each pair of rows the gate that the upper `k` bits of the row number select. -/
def applySelected (n k : Nat) (gates : Array (Mat β)) (M : Mat β) : Mat β :=
  let spacing := 2 ^ (n - k - 1)
  (List.range (2 ^ (n - 1))).foldl (fun M j =>
    let i := pairRow spacing j
    applyToRows (gates.getD (i / 2 ^ (n - k)) default) i (i + spacing) M) M

def applySelected? (n k : Nat) (gates : Array (Mat β)) (M : Mat β) : Outcome (Mat β) :=
  if n ≤ k ∨ gates.size < 2 ^ k then .error (.unfit .index) else .ok (applySelected n k gates M)

/-- Reads a label into the numbers of two rows, which differ at the target; `j` free bits are used up. -/
def readLabel (free : List Nat) (controls : List Int) (target : Int) :
    Nat × Nat × Nat → Nat → Outcome (Nat × Nat × Nat)
  | (e, f, j), i =>
    if controls.contains (i : Int) then .ok (2 * e + 1, 2 * f + 1, j)
    else if (i : Int) = target then .ok (2 * e, 2 * f + 1, j)
    else match free[j]? with
      | some b => .ok (2 * e + b, 2 * f + b, j + 1)
      | none => .error (.unfit .index)

/-- The numbers of the two rows that have ones at the control labels, the given bits elsewhere, and
zero and one at the target label; label 0 is the most significant bit. -/
def rowPair (free : List Nat) (controls : List Int) (target : Int) (size : Nat) :
    Outcome (Nat × Nat) := do
  let (e, f, _) ← (List.range size).foldlM (readLabel free controls target) (0, 0, 0)
  .ok (e, f)

def bitLists : Nat → List (List Nat)
  | 0 => [[]]
  | k + 1 => (bitLists k).map (0 :: ·) ++ (bitLists k).map (1 :: ·)

def applyControlled (n : Nat) (controls : List Int) (target : Int) (gate : Mat β) (M : Mat β) :
    Outcome (Mat β) := do
  if n < controls.length + 1 then .error (.unfit .value)
  let set := controls.eraseDups
  let free := n - controls.length - 1
  (bitLists free).foldlM (fun M bits => do
    let (i, j) ← rowPair bits set target (free + set.length + 1)
    if M.rows ≤ i ∨ M.rows ≤ j then .error (.unfit .index)
    .ok (applyToRows gate i j M)) M

def labelBit (n : Nat) (label : Int) (row : Nat) : Outcome Nat := do
  let l ← Operand.position n label
  .ok ((row >>> (n - 1 - l)) % 2)

/-- The entry of a diagonal on some labels that belongs to a row number. -/
def diagonalIndex (n : Nat) (labels : List Int) (row : Nat) : Outcome Nat :=
  labels.foldlM (fun k l => do .ok (2 * k + (← labelBit n l row))) 0

def diagonalFactors (n : Nat) (labels : List Int) (diagonal : Array β) : Outcome (Array β) :=
  (Array.range (2 ^ n)).mapM fun row => do
    match diagonal[← diagonalIndex n labels row]? with
    | some z => .ok z
    | none => .error (.unfit .index)

def applyDiagonal (n : Nat) (labels : List Int) (diagonal : Array β) (M : Mat β) :
    Outcome (Mat β) := do
  let fs ← diagonalFactors n labels diagonal
  .ok (Mat.ofFn M.rows M.cols fun i j =>
    if i < fs.size then M.get i j * fs.getD i default else M.get i j)

/-- Applies a diagonal on some labels to a diagonal over all `n`. -/
def multiplyDiagonal (n : Nat) (labels : List Int) (diagonal whole : Array β) :
    Outcome (Array β) := do
  let fs ← diagonalFactors n labels diagonal
  if whole.size < fs.size then .error (.unfit .index)
  .ok (whole.mapIdx fun i z => if i < fs.size then z * fs.getD i default else z)

end Rows

variable {α : Type} [Scalar α]

def tiny : α := 1e-19

/-- The gate that turns a one-qubit state into the first basis vector, or else the second one. -/
def toBasis (state : Array (Cplx α)) (first : Bool) : Outcome (Mat (Cplx α)) :=
  let norm := sqrt (state.foldl (fun s z => s + z.normSq) 0.0)
  if lt norm tiny then .ok (Mat.identity 2)
  else match state[0]?, state[1]? with
    | some a, some b =>
      let s : Cplx α := .ofReal (1.0 / norm)
      let (p, q) := (a.conj * s, b.conj * s)
      let (r, t) := (-b * s, a * s)
      .ok (if first then Mat.square2 p q r t else Mat.square2 r t p q)
    | _, _ => .error (.unfit .index)

/-- The gates that disentangle the qubit at bit `s` of `n`, for all values of the bits above, from
column 0 of a matrix; rows before that of `k` are left alone. -/
def disentanglers (v : Mat (Cplx α)) (k s n : Nat) : Outcome (List (Mat (Cplx α))) := do
  let upper := k / 2 ^ (s + 1)
  let lower := k % 2 ^ (s + 1)
  let start := if lower = 0 then upper else upper + 1
  if n ≤ s then .error (.unfit .type)
  let gates ← (List.range (2 ^ (n - s - 1) - start)).mapM fun i => do
    let i := start + i
    let row (h : Nat) : Outcome (Cplx α) :=
      let r := h * 2 ^ s + k % 2 ^ s
      if r < v.rows ∧ 0 < v.cols then .ok (v.get r 0) else .error (.unfit .index)
    toBasis #[← row (2 * i), ← row (2 * i + 1)] ((k / 2 ^ s) % 2 = 0)
  .ok (List.replicate start (Mat.identity 2) ++ gates)

/-- All gates are the same multiple of the identity, up to tolerance. -/
def isPhase (gates : List (Mat (Cplx α))) : Outcome Bool :=
  match gates with
  | [] => .error (.unfit .index)
  | g :: _ =>
    if lt (g.get 0 0).abs tiny then .ok false
    else
      let z := Cplx.one.div (g.get 0 0)
      .ok (gates.all fun g => (Mat.smul z g).allClose (Mat.identity 2) 1e-5 tiny)

def mergeDiagonal (gates : List (Mat (Cplx α))) (diagonal : Array (Cplx α)) :
    Outcome (List (Mat (Cplx α))) :=
  gates.zipIdx.mapM fun (g, i) =>
    match diagonal[2 * i]?, diagonal[2 * i + 1]? with
    | some x, some y => .ok (Mat.diagonal #[x, y] * g)
    | _, _ => .error (.unfit .index)

/-- Applies a diagonal on some labels to a diagonal over all `n`, where an empty one is left alone.
An array of several entries is neither empty nor not. -/
def multiplyListed (n : Nat) (labels : List Int) (diagonal : Array (Cplx α)) (whole : Operand α) :
    Outcome (Operand α) := do
  match whole with
  | .array t =>
    if 1 < t.entries.size then .error (.unfit .value)
    else if t.entries.all fun z => eq z.re 0.0 && eq z.im 0.0 then .ok whole
    else .ok (.array { t with entries := ← multiplyDiagonal n labels diagonal t.entries })
  | _ =>
    let xs ← whole.items
    if xs.isEmpty then .ok whole
    else
      let zs ← xs.mapM Operand.toCplx
      .ok (.list ((← multiplyDiagonal n labels diagonal zs.toArray).toList.map .complex))

def isPhaseDiagonal (d : List (Cplx α)) : Outcome Bool :=
  match d with
  | [] => .error (.unfit .index)
  | z :: _ =>
    if !(le tiny z.abs) then .ok false
    else
      let w := Cplx.one.div z
      .ok (d.all fun x => !(le tiny (Cplx.abs (w * x - .one))))

end QuantumCircuits.Disentangle
