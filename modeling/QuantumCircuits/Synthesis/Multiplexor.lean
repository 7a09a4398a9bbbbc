import QuantumCircuits.Synthesis.Shannon

/-!
# Synthesis — Multiplexor

One-qubit gates selected by controls.  Two gates selected by one control are a fixed pattern around
two other gates, up to a diagonal (`splitPair`); splitting again and again turns all gates into a row
with negations between them, and one diagonal (`extract`).
-/

namespace QuantumCircuits.Multiplexor

variable {α : Type} [Scalar α]

open Scalar

/-- Two gates and a diagonal: the selected gates are `r† u d v` and `r u d† v` for a fixed `d`. -/
structure Split (α : Type) where
  v : Mat (Cplx α)
  u : Mat (Cplx α)
  r : Mat (Cplx α)

/-- The diagonal that gives `r a b† r` the eigenvalues `i` and `-i`. -/
def balance (X : Mat (Cplx α)) : Mat (Cplx α) :=
  let det := X.polarDet
  let arg := ((X.get 0 0).div det.sqrt).arg
  let rest := (pi - det.arg) / 2.0
  Mat.diagonal #[.turn ((rest - arg) / 2.0), .turn ((rest + arg + pi) / 2.0)]

/-- The roots of the eigenvalues, with their eigenvectors; should the first root be `-i`, both are
turned around. -/
def rootsAndVectors (e : Eigen2 α) : Mat (Cplx α) × Mat (Cplx α) :=
  let first := e.first.sqrt
  let second := e.second.sqrt
  if lt (Cplx.abs (first + .unit)) 1e-10 then
    (Mat.square2 .zero second first .zero,
      Mat.square2 (e.vectors.get 0 1) (e.vectors.get 0 0) (e.vectors.get 1 1) (e.vectors.get 1 0))
  else (Mat.diagonal #[first, second], e.vectors)

def splitPair (R : Routines α) (a b : Mat (Cplx α)) : Split α :=
  let X := a * b.adjoint
  let r := balance X
  let (d, u) := rootsAndVectors (R.eigen2 (r * X * r))
  ⟨d * u.adjoint * r.adjoint * b, u, r⟩

/-- The diagonal between the two gates of a split, as far as the second selected gate fixes it. -/
def Split.middle (s : Split α) (b : Mat (Cplx α)) : Mat (Cplx α) := s.v * b.adjoint * s.r * s.u

def Split.rebuilds (s : Split α) (a b : Mat (Cplx α)) (atol : α) : Bool :=
  let d := s.middle b
  let off := Mat.ofFn 2 2 fun i j => if i = j then Cplx.zero else d.get i j
  off.allClose (Mat.ofFn 2 2 fun _ _ => .zero) 0.0 atol
    && (s.r.adjoint * s.u * d * s.v).allClose a 0.0 atol

/-- A row of gates, and the diagonal collected so far. -/
structure Row (α : Type) where
  gates : Array (Mat (Cplx α))
  diagonal : Array (Cplx α)

/-- The entries of a quarter turn about the third axis, backwards. -/
def quarter₀ : Cplx α := ⟨1.0 / sqrt 2.0, 1.0 / sqrt 2.0⟩

def quarter₁ : Cplx α := ⟨1.0 / sqrt 2.0, -(1.0 / sqrt 2.0)⟩

def Row.gate (w : Row α) (i : Nat) : Outcome (Mat (Cplx α)) :=
  match w.gates[i]? with
  | some g => .ok g
  | none => .error (.unfit .index)

def Row.absorb (w : Row α) (i : Nat) (d : Mat (Cplx α)) (z : Cplx α) : Outcome (Row α) := do
  .ok { w with gates := w.gates.setIfInBounds i (Mat.smul z ((← w.gate i) * d)) }

/-- Merges a factor into two neighbouring entries of the diagonal. -/
def Row.scaleDiagonal (w : Row α) (k : Nat) (x y : Cplx α) : Row α :=
  { w with diagonal := (w.diagonal.modify k (· * x)).modify (k + 1) (· * y) }

/-- Splits the `i`-th pair of the `m`-th of `count` multiplexors, which have `size` gates each; the
diagonal goes into the next multiplexor, or into the collected diagonal behind the last one. -/
def splitAt (R : Routines α) (count size m i : Nat) (w : Row α) : Outcome (Row α) := do
  let shift := m * size
  let low := shift + i
  let high := shift + size / 2 + i
  let s := splitPair R (← w.gate low) (← w.gate high)
  let w := { w with gates := (w.gates.setIfInBounds low s.v).setIfInBounds high s.u }
  let back := s.r.adjoint
  if m + 1 < count then
    let w ← w.absorb (shift + size + i) back quarter₀
    w.absorb (shift + size + i + size / 2) s.r quarter₁
  else
    .ok ((List.range count).foldl (fun w m =>
      let k := 2 * (i + m * size)
      (w.scaleDiagonal k (back.get 0 0 * quarter₀) (back.get 1 1 * quarter₀)).scaleDiagonal
        (k + size) (s.r.get 0 0 * quarter₁) (s.r.get 1 1 * quarter₁)) w)

/-- Splits all multiplexors of one step; at step `t` there are `2 ^ t` of them. -/
def splitStep (R : Routines α) (controls t : Nat) (w : Row α) : Outcome (Row α) :=
  let count := 2 ^ t
  let size := 2 ^ (controls - t)
  (List.range count).foldlM (fun w m =>
    (List.range (size / 2)).foldlM (fun w i => splitAt R count size m i w) w) w

/-- The row of gates and the diagonal of a multiplexor on `n` qubits, its target included. -/
def extract (R : Routines α) (gates : List (Mat (Cplx α))) (n : Nat) : Outcome (Row α) :=
  (List.range (n - 1)).foldlM (fun w t => splitStep R (n - 1) t w)
    ⟨gates.toArray, Array.replicate (2 ^ n) .one⟩

/-- The diagonal with an idle qubit put in at position `i`: every entry twice, and every second
stretch of `2 ^ i` entries a copy of the one before. -/
def spread (i : Nat) (d : Array (Cplx α)) : Array (Cplx α) :=
  let step := 2 ^ i
  let doubled := d.flatMap fun z => #[z, z]
  (Array.range doubled.size).map fun j =>
    doubled.getD (if (j / step) % 2 = 1 then j - step else j) .zero

/-- The diagonal of a multiplexor whose remaining controls are given, over all `n` qubits. -/
def diagonalOn (R : Routines α) (gates : List (Mat (Cplx α))) (n : Nat) (controls : List Int) :
    Outcome (Array (Cplx α)) := do
  let w ← extract R gates n
  if controls.isEmpty then .ok w.diagonal
  else
    let used := controls.map fun (c : Int) => (n : Int) - c
    .ok ((List.range n).foldl (fun d (i : Nat) =>
      if i = 0 ∨ used.contains (i : Int) then d else spread i d) w.diagonal)

end QuantumCircuits.Multiplexor

/-! ### Repeated gates

Controls that a list of selected gates does not depend on.  Control `i` of `m` stands for bit
`m - i` of the position in the list; if the gates at positions that differ only in that bit are
equal, the control and the second of each two gates can be left out.
-/

namespace QuantumCircuits

variable {β : Type}

def gateAt (xs : List β) (i : Nat) : Outcome β :=
  match xs[i]? with
  | some x => .ok x
  | none => .error (.unfit .index)

/-- Compares `d` gates from `base` on with those `d` places later, and marks the later ones until
one differs. -/
def verifyRepetition (close : β → β → Bool) (gates : List β) (d : Nat) :
    Nat → Nat → List (Option β) → Outcome (Bool × List (Option β))
  | 0, _, marked => .ok (true, marked)
  | k + 1, base, marked => do
    let x ← gateAt gates base
    let y ← gateAt gates (base + d)
    if close x y then
      if marked.length ≤ base + d then .error (.unfit .index)
      verifyRepetition close gates d k (base + 1) (marked.set (base + d) none)
    else .ok (false, marked)

/-- Verifies the repetition in all blocks, from `base` on; nothing is marked unless all agree. -/
def verifyBlocks (close : β → β → Bool) (gates : List β) (d : Nat) :
    Nat → Nat → List (Option β) → Outcome (Bool × List (Option β))
  | 0, _, marked => .ok (true, marked)
  | k + 1, base, marked => do
    let (valid, marked) ← verifyRepetition close gates d d base marked
    if valid then verifyBlocks close gates d k (base + 2 * d) marked else .ok (false, marked)

/-- Looks for the distances, doubling from `d` on, at which all gates repeat; `level` is the control
that the distance `d` belongs to. -/
def searchRepetition (close : β → β → Bool) (gates : List β) :
    Nat → Nat → Int → List Int → List (Option β) → Outcome (List Int × List (Option β))
  | 0, _, _, found, marked => .ok (found, marked)
  | fuel + 1, d, level, found, marked => do
    if gates.length < 2 * d then .ok (found, marked)
    else
      let n := gates.length
      if close (← gateAt gates d) (← gateAt gates 0) then
        let (valid, after) ← verifyBlocks close gates d ((n + 2 * d - 1) / (2 * d)) 0 marked
        let found := if valid && n % (2 * d) == 0 then found ++ [level] else found
        searchRepetition close gates fuel (2 * d) (level - 1) found (if valid then after else marked)
      else searchRepetition close gates fuel (2 * d) (level - 1) found marked

/-- The controls that can be left out, and the gates with those marked that can be. -/
def repetitions (close : β → β → Bool) (gates : List β) (level : Int) :
    Outcome (List Int × List (Option β)) :=
  searchRepetition close gates gates.length 1 level [] (gates.map some)

/-- The controls that the gates depend on, and the gates that are selected by them. -/
def simplifyControls (close : β → β → Bool) (gates : List β) (m : Nat) :
    Outcome (List Nat × List β) := do
  let (spare, marked) ← if 1 < gates.length then repetitions close gates m
    else .ok ([], gates.map some)
  .ok (((List.range m).map (· + 1)).filter fun c => !(spare.contains (c : Int)),
    marked.filterMap id)

end QuantumCircuits

/-! ### Numbers in a hash table

A set gives its numbers back in the order of the slots of a hash table.  A number is put in the slot of its
remainder, or else in the first free one of those that are tried next, and the table is made anew when
three fifths of it are in use.
-/

namespace QuantumCircuits.HashTable

/-- Where the slots begin that are tried for a number; each time, five bits less of it are taken into account. -/
def starts (size : Nat) : Nat → Nat → Nat → List Nat
  | 0, _, _ => []
  | k + 1, slot, rest => slot :: starts size k ((5 * slot + 1 + rest / 32) % size) (rest / 32)

/-- The slots that are tried for a number, ten in a row where the table does not end before.  After thirteen
starts nothing is left of the number, and all slots have their turn. -/
def slots (size x : Nat) : List Nat :=
  (starts size (size + 13) (x % size) x).flatMap fun s =>
    if s + 9 < size then (List.range 10).map (s + ·) else [s]

def place (table : List (Option Nat)) (x : Nat) : List (Option Nat) :=
  match (slots table.length x).find? fun i => table[i]? == some none with
  | some i => table.set i (some x)
  | none => table

def insert (table : List (Option Nat)) (x : Nat) : List (Option Nat) :=
  let table := place table x
  let used := table.filterMap id
  if 5 * used.length < 3 * (table.length - 1) then table
  else used.foldl place (List.replicate (2 ^ (Nat.log2 (4 * used.length) + 1)) none)

/-- The numbers in the order in which the set gives them back that they were put in one by one. -/
def order (xs : List Nat) : List Nat := (xs.foldl insert (List.replicate 8 none)).filterMap id

end QuantumCircuits.HashTable

/-! ### Selected gates

Emitting one-qubit gates that are selected by controls, up to a diagonal or with it.
-/

namespace QuantumCircuits.Multiplexor

variable {α : Type} [Scalar α]

open Scalar

def closeGates (M N : Mat (Cplx α)) : Bool := M.allClose N 1e-5 1e-8

def gateTensors (gates : Operand α) : Outcome (List (Tensor α)) := do
  (← gates.items).mapM fun
    | .array t => if t.shape = [2, 2] then .ok t else .error (.gateShape (shapeText t.shape))
    | _ => .error (.unfit .name)

/-- Checks gates and controls: unitary gates, as many as the controls can select. -/
def checkGates (gates controls : Operand α) : Outcome (List (Mat (Cplx α)) × Nat) := do
  let ts ← gateTensors gates
  if !isPowerOfTwo ts.length then .error .gateCount
  let m := Nat.log2 ts.length
  let k ← controls.length
  if m ≠ k then .error (.gateControls k m)
  if !(ts.all fun t => t.isUnitary ⟨1e-10, 1e-8⟩) then .error .gateNotUnitary
  .ok (ts.map fun t => ⟨2, 2, t.entries⟩, m)

def emitGate (R : Routines α) (target : Operand α) (M : Mat (Cplx α)) : Change (Circuit α) Unit :=
  Shannon.apply R (.array (.ofMat M)) target

def emitRow (R : Routines α) (controls target : Operand α) (gates : List (Mat (Cplx α))) :
    Change (Circuit α) Unit :=
  gates.zipIdx.forM fun (M, i) => do
    if 0 < i then
      Circuit.follow (Plan.on .h target)
      Circuit.follow (Plan.turnBy .rz (-(pi / 2.0)) target)
    emitGate R target M
    if i + 1 < gates.length ∨ i = 0 then Circuit.follow (Plan.on .h target)
    if i + 1 < gates.length then
      let c ← Change.ofOutcome (controls.item (trailingZeros (i + 1)))
      Circuit.follow (Plan.cx c target)
      Circuit.follow (Plan.globalPhase (.real (-(pi / 4.0))))

/-- Emits gates by the controls that are left, which may be selected by other values than one. -/
def emitSelected (R : Routines α) (controls target : Operand α) (upToDiagonal : Bool) (state : Operand α)
    (ms : List (Mat (Cplx α))) : Change (Circuit α) Unit := do
  let count ← Change.ofOutcome controls.length
  if count = 0 then emitGate R target (ms.headD (.identity 2))
  else
    let w ← Change.ofOutcome (extract R ms (count + 1))
    let positions ← Change.ofOutcome (Gate.openPositions state controls)
    let flip := Circuit.perform (Recording.flipCall positions)
    let body : Change (Circuit α) Unit := do
      emitRow R controls target w.gates.toList
      if !upToDiagonal then
        let d : Tensor α := ⟨[w.diagonal.size], .complex, w.diagonal⟩
        Circuit.follow (Plan.call .diagonal
          [.array d, .list (target :: (← Change.ofOutcome controls.items))])
    if positions.isEmpty then body
    else do
      flip
      body.andFinally flip

/-- Emits gates that are selected by controls, the first control being the lowest bit. -/
def apply (R : Routines α) (gates controls target : Operand α) (upToDiagonal simplifying : Bool)
    (state : Operand α) : Change (Circuit α) Unit := do
  let controls := controls.listed
  let (ms, m) ← Change.ofOutcome (checkGates gates controls)
  let qubits := Operand.list (target :: (← Change.ofOutcome controls.items))
  if simplifying then
    let (kept, ms) ← Change.ofOutcome (simplifyControls closeGates ms m)
    let cs ← Change.ofOutcome ((HashTable.order kept).reverse.mapM fun (i : Nat) => qubits.item (m + 1 - i))
    emitSelected R (.list cs) target upToDiagonal state ms
  else emitSelected R controls target upToDiagonal state ms

end QuantumCircuits.Multiplexor
