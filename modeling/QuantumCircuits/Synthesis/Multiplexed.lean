import QuantumCircuits.Operand.Grid

/-!
# Synthesis — Multiplexed rotations

A rotation whose angle is selected by control qubits is a row of rotations with negations between
them.  `demultiplex` computes the angles of that row from the selected angles, by splitting them
into half sums and half differences again and again.
-/

namespace QuantumCircuits

/-- Halves of sums and differences, recursively: `mean` and `gap` combine two angles that differ in
the first control, and the second half of the row runs backwards. -/
def demultiplex {β : Type} (mean gap : β → β → β) (backwards : Bool) (xs : List β) : List β :=
  let h := xs.length / 2
  let means := (xs.take h).zipWith mean (xs.drop h)
  let gaps := (xs.take h).zipWith gap (xs.drop h)
  let first := cond backwards gaps means
  let second := cond backwards means gaps ++ xs.drop (2 * h)
  if h ≤ 1 then first ++ second
  else demultiplex mean gap false first ++ demultiplex mean gap true second
termination_by xs.length
decreasing_by
  all_goals
    cases backwards <;>
      simp only [cond_true, cond_false, List.length_append, List.length_zipWith, List.length_take,
        List.length_drop] <;>
      omega

/-- How many of `n` angles, counted up to the last one that is combined with another, take part in
`demultiplex`. -/
def combinedCount (n : Nat) : Nat :=
  let h := n / 2
  if h ≤ 1 then 2 * h else max (2 * h) (h + combinedCount (n - h))
termination_by n
decreasing_by omega

/-- The number of zeros at the end of a number's binary digits, for a positive number. -/
def trailingZeros (n : Nat) : Nat :=
  if h : n = 0 then 0 else if n % 2 = 0 then trailingZeros (n / 2) + 1 else 0
termination_by n
decreasing_by omega

/-- The control of the negation after the `i`-th of `2 ^ m` rotations. -/
def negationControl (m i : Nat) : Nat := if i + 1 = 2 ^ m then m - 1 else trailingZeros (i + 1)

namespace Grid

variable {α : Type} [Scalar α]

/-- The rows from one position up to another replaced by the angles of their row. -/
def demultiplexed (g : Grid α) (backwards : Bool) (start stop : Nat) :
    Outcome (List (List (Operand α))) :=
  let rows := g.rows.map Except.ok
  (rows.take start ++ demultiplex g.mean g.gap backwards ((rows.take stop).drop start)
    ++ rows.drop stop).mapM id

/-- The same for positions that count from the end when they start with a negative one. -/
def demultiplexedAt (g : Grid α) (backwards : Bool) (start stop : Int) : Outcome (Grid α) := do
  let n := g.shape.headD 0
  let first ← if start < 0 then Operand.position n start else .ok start.toNat
  let count := (stop - start).toNat
  if start < 0 then
    if n < combinedCount count then Operand.refuse .index
    let turned := { g with cells := g.cells.rotateLeft (first * g.width) }
    let rows ← turned.demultiplexed backwards 0 count
    .ok { g with cells := rows.flatten.rotateRight (first * g.width) }
  else
    if n < first + combinedCount count then Operand.refuse .index
    .ok { g with cells := (← g.demultiplexed backwards first stop.toNat).flatten }

end Grid

namespace Operand

variable {α : Type} [Scalar α]

/-- The angles of the row for a part of a list or array of angles; the other angles stay, and so
does the kind of the list.  What has items but cannot be changed is refused once two of its items
have been found. -/
def demultiplexed (angles : Operand α) (start stop : Int) (backwards : Bool) :
    Outcome (Operand α) := do
  let half := (start + stop) / 2 - start
  if half ≤ 0 then return angles
  match angles with
  | .array _ | .objects .. | .texts .. =>
    let g ← Grid.ofOperand angles
    if g.shape.isEmpty then refuse .index
    let h ← g.demultiplexedAt backwards start stop
    .ok (Grid.toOperand h.kind h.shape h.cells)
  | .list xs => do .ok (.list (← Grid.demultiplexedAt ⟨[xs.length], .any, xs⟩ backwards start stop).cells)
  | .tuple _ | .range .. | .text _ => do
    let _ ← angles.item start
    let _ ← angles.item (start + half)
    refuse .type
  | _ => refuse .type

end Operand

/-- The common phase of two phases, and the rotation between them. -/
def splitPhases {α : Type} [Scalar α] (p q : α) : α × α := ((p + q) / 2.0, q - p)

/-- One level of splitting a list of phases: the common phases of neighbours and the rotations
between them. -/
def splitLevel {α : Type} [Scalar α] : List α → List α × List α
  | p :: q :: rest =>
    let (c, r) := splitPhases p q
    let (cs, rs) := splitLevel rest
    (c :: cs, r :: rs)
  | _ => ([], [])

end QuantumCircuits
