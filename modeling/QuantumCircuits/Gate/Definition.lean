import QuantumCircuits.Synthesis.ControlledRotation
import QuantumCircuits.Synthesis.Multiplexed

/-!
# Gate — Definition

The calls that each gate stands for.  `Gate.plan` is the one table of them; the gates without a
plan are the elementary ones, which go to the circuit's sink.
-/

/-! ### Gates without controls

What the gates without controls stand for.  Every one-qubit gate ends in the general rotation
`u3`, and the gates on two qubits in rotations and controlled negations.
-/

namespace QuantumCircuits.Plan

variable {α : Type} [Scalar α]

open Scalar

/-- A power of a Pauli gate: a rotation, and the phase that tells the two apart. -/
def power (rotation : Base) (exponent shift qubits : Operand α) : Plan α Unit := do
  let qubits := qubits.listed
  turn rotation (← Plan.get (exponent.times pi)) qubits
  let angle ← Plan.get (exponent.times pi)
  let shifted ← Plan.get (shift.plus 0.5)
  let product ← Plan.get (angle.multiply shifted)
  let count ← Plan.get qubits.length
  globalPhase (← Plan.get (product.times (ofNat count)))

def ofPlain (b : Base) (xs : List (Operand α)) : Plan α Unit :=
  let half : Operand α := .real (pi / 2.0)
  let minusHalf : Operand α := .real (-(pi / 2.0))
  match b, xs with
  | .x, [q] => u3 (.real pi) (.int 0) (.real pi) q
  | .y, [q] => u3 (.real pi) half half q
  | .z, [q] => turnBy .phase pi q
  | .h, [q] => u3 half (.int 0) (.real pi) q
  | .s, [q] => turnBy .phase (pi / 2.0) q
  | .sdg, [q] => turnBy .phase (-(pi / 2.0)) q
  | .t, [q] => turnBy .phase (pi / 4.0) q
  | .tdg, [q] => turnBy .phase (-(pi / 4.0)) q
  | .rx, [t, q] => u3 t minusHalf half q
  | .ry, [t, q] => u3 t (.int 0) (.int 0) q
  | .rz, [t, q] => do
    let q := q.listed
    turn .rx half q
    turn .ry (← Plan.get t.negate) q
    turn .rx minusHalf q
  | .phase, [t, q] => u3 (.int 0) (.int 0) t q
  | .xPow, [p, g, q] => power .rx p g q
  | .yPow, [p, g, q] => power .ry p g q
  | .zPow, [p, g, q] => power .rz p g q
  | .rxx, [t, a, b] => do
    on .h (.list [a, b])
    cx a b
    turn .rz t b
    cx a b
    on .h (.list [a, b])
  | .ryy, [t, a, b] => do
    turn .rx half a
    turn .rx half b
    cx a b
    turn .rz t b
    cx a b
    turn .rx minusHalf a
    turn .rx minusHalf b
  | .rzz, [t, a, b] => do
    cx a b
    turn .rz t b
    cx a b
  | .swap, [a, b] => do
    cx a b
    cx b a
    cx a b
  | _, _ => skip

/-! ### One control

What the gates with one control stand for.
-/

/-- A controlled power: the rotation, and its phase on the control. -/
def controlledPower (rotation : Base) (exponent shift c t : Operand α) : Plan α Unit := do
  controlledTurn rotation (← Plan.get (exponent.times pi)) c t
  let angle ← Plan.get (exponent.times pi)
  let shifted ← Plan.get (shift.plus 0.5)
  turn .phase (← Plan.get (angle.multiply shifted)) c

def ofControlled (b : Base) (xs : List (Operand α)) : Plan α Unit :=
  match b, xs with
  | .y, [c, t] => do
    on .sdg t
    cx c t
    on .s t
  | .z, [c, t] => do
    on .h t
    cx c t
    on .h t
  | .h, [c, t] => do
    on .s t
    on .h t
    on .t t
    cx c t
    on .tdg t
    on .h t
    on .sdg t
  | .s, [c, t] => do
    on .t c
    cx c t
    on .tdg t
    cx c t
    on .t t
  | .sdg, [c, t] => do
    on .tdg c
    cx c t
    on .t t
    cx c t
    on .tdg t
  | .t, [c, t] => do
    turnBy .phase (pi / 8.0) t
    cx c t
    turnBy .phase (-(pi / 8.0)) t
    cx c t
    turnBy .phase (pi / 8.0) c
  | .tdg, [c, t] => do
    turnBy .phase (-(pi / 8.0)) c
    cx c t
    turnBy .phase (pi / 8.0) t
    cx c t
    turnBy .phase (-(pi / 8.0)) t
  | .rx, [a, c, t] => turnUnder .rx a c t
  | .ry, [a, c, t] => turnUnder .ry a c t
  | .rz, [a, c, t] => turnUnder .rz a c t
  | .phase, [a, c, t] => do
    turn .phase (← Plan.get (a.quotient 2.0)) c
    cx c t
    let minus ← Plan.get a.negate
    turn .phase (← Plan.get (minus.quotient 2.0)) t
    cx c t
    turn .phase (← Plan.get (a.quotient 2.0)) t
  | .xPow, [p, g, c, t] => controlledPower .rx p g c t
  | .yPow, [p, g, c, t] => controlledPower .ry p g c t
  | .zPow, [p, g, c, t] => controlledPower .rz p g c t
  | .u3, [a, c, t] => call (.of .u3 .multi) [a, c, t]
  | _, _ => skip

/-! ### Many controls

What the gates under a list of controls stand for.  Everything is reduced to rotations under
controls, and a phase under controls to a staircase of them.
-/

def rotations (n : Nat) (axis : Axis) (angle controls targets : Operand α) : Plan α Unit := do
  let ts ← Plan.get targets.items
  ts.forM fun t => do
    ControlledRotation.rotation n axis angle (← Plan.get controls.toList) t

/-- A phase on one target: a rotation of the target, then of the last control, and so on, each by
half the angle before, and what is left on the first control. -/
def staircase (angle : Operand α) : Nat → List (Operand α) → Operand α → Plan α Unit
  | k, cs, target => do
    match h : cs.getLast? with
    | none => turn .phase (← Plan.get (angle.quotient (npow 2.0 k))) target
    | some last =>
      turnUnder .rz (← Plan.get (angle.quotient (npow 2.0 k))) (.list cs) target
      staircase angle (k + 1) cs.dropLast last
termination_by _ cs => cs.length
decreasing_by
  cases cs with
  | nil => simp at h
  | cons c rest => simp

def phases (angle controls targets : Operand α) : Plan α Unit := do
  let ts ← Plan.get targets.items
  ts.forM fun t => do
    staircase angle 0 (← Plan.get controls.items) t

/-- The power of a Pauli gate on each target, with its phase on the controls. -/
def powers (rotation : Base) (exponent shift controls targets : Operand α) : Plan α Unit := do
  let ts ← Plan.get targets.items
  ts.forM fun t => do
    turnUnder rotation (← Plan.get (exponent.times pi)) controls t
    let count ← Plan.get controls.length
    let angle ← Plan.get (exponent.times pi)
    let shifted ← Plan.get (shift.plus 0.5)
    let product ← Plan.get (angle.multiply shifted)
    if 1 < count then
      turnUnder .phase product (← Plan.get controls.dropLast) (← Plan.get (controls.item (-1)))
    else turn .phase product (← Plan.get (controls.item 0))

def generals (angles controls targets : Operand α) : Plan α Unit := do
  let ts ← Plan.get targets.items
  ts.forM fun t => do
    turnUnder .rz (← Plan.get (angles.item 2)) controls t
    turnUnder .ry (← Plan.get (angles.item 0)) controls t
    turnUnder .rz (← Plan.get (angles.item 1)) controls t
    let total ← Plan.get (do (← angles.item 1).sum (← angles.item 2))
    turnUnder .phase (← Plan.get (total.quotient 2.0)) (← Plan.get controls.dropFirst)
      (← Plan.get (controls.item 0))

def joined (controls extra : Operand α) : Plan α (Operand α) := do
  Plan.get ((← Plan.get controls.toList).append [extra])

/-- What a gate under a list of controls, in a circuit on `n` qubits, stands for. -/
def ofMulti (n : Nat) (b : Base) (xs : List (Operand α)) : Plan α Unit :=
  let half : Operand α := .real (pi / 2.0)
  let minusHalf : Operand α := .real (-(pi / 2.0))
  match b, xs with
  | .x, [c, t] => do
    let c := c.listed
    let t := t.listed
    on .h t
    turnUnder .phase (.real pi) c t
    on .h t
  | .y, [c, t] => do
    let t := t.listed
    on .sdg t
    under .x c.listed t
    on .s t
  | .z, [c, t] => do
    let t := t.listed
    on .h t
    under .x c.listed t
    on .h t
  | .h, [c, t] => do
    let t := t.listed
    on .s t
    on .h t
    on .t t
    under .x c.listed t
    on .tdg t
    on .h t
    on .sdg t
  | .s, [c, t] => turnUnder .phase half c.listed t.listed
  | .sdg, [c, t] => turnUnder .phase minusHalf c.listed t.listed
  | .t, [c, t] => turnUnder .phase (.real (pi / 4.0)) c.listed t.listed
  | .tdg, [c, t] => turnUnder .phase (.real (-(pi / 4.0))) c.listed t.listed
  | .rx, [a, c, t] => rotations n .x a c.listed t.listed
  | .ry, [a, c, t] => rotations n .y a c.listed t.listed
  | .rz, [a, c, t] => rotations n .z a c.listed t.listed
  | .phase, [a, c, t] => phases a c.listed t.listed
  | .xPow, [p, g, c, t] => powers .rx p g c.listed t.listed
  | .yPow, [p, g, c, t] => powers .ry p g c.listed t.listed
  | .zPow, [p, g, c, t] => powers .rz p g c.listed t.listed
  | .u3, [a, c, t] => generals a c.listed t.listed
  | .rxx, [a, c, first, second] => do
    let c := c.listed
    under .h c first
    under .h c second
    under .x (← joined c first) second
    turnUnder .rz a c second
    under .x (← joined c first) second
    under .h c first
    under .h c second
  | .ryy, [a, c, first, second] => do
    let c := c.listed
    turnUnder .rx half c first
    turnUnder .rx half c second
    under .x (← joined c first) second
    turnUnder .rz a c second
    under .x (← joined c first) second
    turnUnder .rx minusHalf c first
    turnUnder .rx minusHalf c second
  | .rzz, [a, c, first, second] => do
    let c := c.listed
    under .x (← joined c first) second
    turnUnder .rz a c second
    under .x (← joined c first) second
  | .swap, [c, first, second] => do
    cx second first
    under .x (← joined c.listed first) second
    cx second first
  | _, _ => skip

/-! ### Selected rotations

What rotations selected by control qubits and diagonal gates stand for.
-/

def axisOf : Operand α → Outcome Axis
  | .text "X" => .ok .x
  | .text "Y" => .ok .y
  | .text "Z" => .ok .z
  | x => .error (.rotationAxis x.shown)

def rotationAbout : Axis → Base
  | .x => .rx
  | .y => .ry
  | .z => .rz

/-- The negation between two rotations; around the first axis it is turned into a sign flip. -/
def negation (axis : Axis) (controls : Operand α) (i : Nat) (target : Operand α) :
    Plan α Unit := do
  if axis = .x then
    turnBy .ry (pi / 2.0) target
    cx (← Plan.get (controls.item i)) target
    turnBy .ry (-(pi / 2.0)) target
  else cx (← Plan.get (controls.item i)) target

/-- A rotation by the angle that the controls select, the first control being the lowest bit. -/
def multiplexedRotation (angles axis controls target : Operand α) : Plan α Unit := do
  let controls := controls.listed
  let g ← Plan.get (Grid.ofOperand angles)
  if g.shape.isEmpty then fail (.unfit .index)
  let n := g.shape.headD 0
  if !isPowerOfTwo n then fail (.angleCount n)
  let m ← Plan.get controls.length
  if n ≠ 2 ^ m then fail (.controlAngleCount m n)
  let axis ← Plan.get (axisOf axis)
  let rotation := rotationAbout axis
  if m = 0 then turn rotation (g.row g.cells) target
  else
    let rows ← Plan.get (g.demultiplexed false 0 n)
    rows.zipIdx.forM fun (cells, i) => do
      turn rotation (g.row cells) target
      negation axis controls (negationControl m i) target

/-- The levels of splitting phases: at each, the rotations between neighbours, selected by the
qubits above. -/
def diagonalLevels (qubits : Operand α) : Nat → Nat → List α → Plan α Unit
  | 0, _, phases => globalPhase (.real (phases.headD 0.0))
  | m + 1, level, phases => do
    let (commons, rotations) := splitLevel phases
    let controls ← Plan.get ((List.range m).mapM fun i => qubits.item (level + 1 + i : Nat))
    let target ← Plan.get (qubits.item level)
    call (.ucr .z) [.list (rotations.map .real), .list controls, target]
    diagonalLevels qubits m (level + 1) commons

def onUnitCircle (z : Cplx α) : Bool := Scalar.isClose z.abs 1.0 1e-5 1e-10

def diagonalGate (entries qubits : Operand α) : Plan α Unit := do
  let qubits := qubits.listed
  let xs ← Plan.get entries.items
  let n := xs.length
  if n < 2 ∨ !isPowerOfTwo n then fail .diagonalLength
  let m := Nat.log2 n
  let count ← Plan.get qubits.length
  if m ≠ count then fail .diagonalQubits
  let g ← Plan.get (Grid.ofOperand entries)
  let zs ← Plan.get (g.cells.mapM Operand.toCplx)
  if !(zs.all onUnitCircle) then fail .diagonalModulus
  if !(g.shape == [n] || (entries.isArray && zs.length == n)) then fail (.unfit .type)
  diagonalLevels qubits m 0 (zs.map Cplx.arg)

end QuantumCircuits.Plan

/-! ### Definition -/

namespace QuantumCircuits.Gate

variable {α : Type} [Scalar α]

open Scalar Plan

def plan (n : Nat) (c : Call α) : Plan α Unit :=
  let xs := c.operands.map (·.2)
  match c.gate, xs with
  | .identity, [q] => u3 (.int 0) (.int 0) (.int 0) q
  | .of b .plain, xs => ofPlain b xs
  | .of b .controlled, xs =>
    if b.onTwo then callUnder c.controlState (.of b .multi) xs else ofControlled b xs
  | .of b .multi, xs => ofMulti n b xs
  | .ucr a, [angles, controls, target] =>
    call .pauliMultiplexor [angles, .text a.text, controls.listed, target]
  | .pauliMultiplexor, [angles, axis, controls, target] =>
    multiplexedRotation angles axis controls target
  | .diagonal, [entries, qubits] => diagonalGate entries qubits
  | .custom, [q] => do
    turnBy .rx 0.1 q
    on .s q
  | _, _ => skip

/-- What is looked at before anything else: some gates count their controls first. -/
def precondition (c : Call α) : Outcome Unit :=
  match c.gate with
  | .of .phase .multi => do
    let _ ← (c.get .controlIndices).listed.length
  | .of .swap .multi => do
    let _ ← (c.get .controlIndices).listed.items
  | _ => .ok ()

/-- The controls that a control state is for; `none` for a gate that takes no control state. -/
def controls (c : Call α) : Option (Operand α) :=
  match c.gate with
  | .of b .controlled => if b.onTwo then none else some (.list [c.get .controlIndex])
  | .of _ .multi | .ucr _ => some (c.get .controlIndices).listed
  | _ => none

/-- The positions of the controls that have to be off; they have to be as many as the controls. -/
def openPositions (state controls : Operand α) : Outcome (List Nat) :=
  match state with
  | .none => .ok []
  | state => do
    let bits ← state.items
    if bits.length ≠ (← controls.length) then .error .controlStateLength
    .ok (bits.zipIdx.filterMap fun (b, i) => match b with
      | .text "0" => some i
      | _ => none)

end QuantumCircuits.Gate
