import QuantumCircuits.Proofs.Exact.Evaluate

/-!
# Operation — Basic

What a gate call asks for, with its operands read: an `Operation` holds numbers and qubits where a
call holds loosely typed operands.  `Operation.act` is the operator that it stands for: a base gate
under its controls, a selected rotation, a diagonal or a phase.

`Operation.Valid n` collects what makes an operation one that a circuit on `n` qubits can carry out:
the right numbers of parameters and qubits, and no qubit twice.  It does so exactly
(`Operation.Good n`) when rotations stand under two or more controls only by angles on which no
tolerance is decided wrongly (`Decided`).

The operations that each operation is defined by, down to the elementary ones, are its
`Operation.parts`: the reading of the library's table of gate definitions (`Gate.plan`) in which
operands are numbers and qubits.  `Operation.rank` bounds how deep the definitions go: the parts of an
operation have smaller rank.
-/

noncomputable section

namespace QuantumCircuits

open ControlledRotation Complex Mat
open Real (pi)

/-! ### Base gates -/

def Axis.matrix : Axis → ℝ → Mat (Cplx ℝ)
  | .x => rotationX
  | .y => rotationY
  | .z => rotationZ

/-- The rotation by which a power of a Pauli gate is a phase times. -/
def powerSquare (axis : Axis) (p g : ℝ) : Square :=
  exp ((p * pi * (g + 1 / 2) : ℝ) * I) • (axis.matrix (p * pi)).asSquare

namespace Base

def square : Base → List ℝ → Square
  | .x, _ => pauliX.asSquare
  | .y, _ => pauliY.asSquare
  | .z, _ => pauliZ.asSquare
  | .h, _ => hadamard.asSquare
  | .s, _ => gateS.asSquare
  | .sdg, _ => (Mat.phase (-(pi / 2))).asSquare
  | .t, _ => gateT.asSquare
  | .tdg, _ => (Mat.phase (-(pi / 4))).asSquare
  | .rx, [a] => (Axis.x.matrix a).asSquare
  | .ry, [a] => (Axis.y.matrix a).asSquare
  | .rz, [a] => (Axis.z.matrix a).asSquare
  | .phase, [a] => (Mat.phase a).asSquare
  | .xPow, [p, g] => powerSquare .x p g
  | .yPow, [p, g] => powerSquare .y p g
  | .zPow, [p, g] => powerSquare .z p g
  | .u3, [theta, phi, lam] => (Mat.u3 theta phi lam).asSquare
  | _, _ => 1

/-- The rotation generated by a Pauli gate on each of two qubits. -/
def coupled (P : Square) (a : ℝ) (i j : ℕ) (V : Wave) : Wave :=
  (Real.cos (a / 2) : ℂ) • V - (Real.sin (a / 2) * I : ℂ) • select i (fun _ => P) (select j (fun _ => P) V)

def exchange (i j : ℕ) (V : Wave) : Wave := fun b =>
  V (Function.update (Function.update b i (b j)) j (b i))

def act (b : Base) (ps : List ℝ) (ts : List ℕ) : Wave → Wave :=
  match b, ps, ts with
  | .rxx, [a], [i, j] => coupled pauliX.asSquare a i j
  | .ryy, [a], [i, j] => coupled pauliY.asSquare a i j
  | .rzz, [a], [i, j] => coupled pauliZ.asSquare a i j
  | .swap, _, [i, j] => exchange i j
  | b, ps, ts => selectEach ts fun _ => b.square ps

def arity : Base → ℕ
  | .rx | .ry | .rz | .phase | .rxx | .ryy | .rzz => 1
  | .xPow | .yPow | .zPow => 2
  | .u3 => 3
  | _ => 0

/-- The gate with a list of as many parameters as it takes. -/
inductive Takes : Base → List ℝ → Prop
  | x : Takes .x []
  | y : Takes .y []
  | z : Takes .z []
  | h : Takes .h []
  | s : Takes .s []
  | sdg : Takes .sdg []
  | t : Takes .t []
  | tdg : Takes .tdg []
  | rx (a) : Takes .rx [a]
  | ry (a) : Takes .ry [a]
  | rz (a) : Takes .rz [a]
  | phase (a) : Takes .phase [a]
  | xPow (p g) : Takes .xPow [p, g]
  | yPow (p g) : Takes .yPow [p, g]
  | zPow (p g) : Takes .zPow [p, g]
  | u3 (theta phi lam) : Takes .u3 [theta, phi, lam]
  | rxx (a) : Takes .rxx [a]
  | ryy (a) : Takes .ryy [a]
  | rzz (a) : Takes .rzz [a]
  | swap : Takes .swap []

/-- The parameters are angles, which are checked. -/
def isAngular : Base → Bool
  | .rx | .ry | .rz | .phase | .rxx | .ryy | .rzz | .u3 => true
  | _ => false

end Base

open Base in
lemma takes {b : Base} {ps : List ℝ} (h : ps.length = b.arity) : b.Takes ps := by
  match b, ps, h with
  | .x, [], _ | .y, [], _ | .z, [], _ | .h, [], _ | .s, [], _ | .sdg, [], _ | .t, [], _
  | .tdg, [], _ | .swap, [], _ => constructor
  | .rx, [_], _ | .ry, [_], _ | .rz, [_], _ | .phase, [_], _ | .rxx, [_], _ | .ryy, [_], _
  | .rzz, [_], _ => constructor
  | .xPow, [_, _], _ | .yPow, [_, _], _ | .zPow, [_, _], _ | .u3, [_, _, _], _ => constructor

/-! ### Angles -/

def snap (x : ℝ) : ℝ := if isZeroAngle x then 0 else x

/-- Angles as they are logged; nothing if none of them is left. -/
def snapAll (xs : List ℝ) : Option (List ℝ) :=
  if (xs.map snap).all (· = 0) then none else some (xs.map snap)

/-- The angle is a whole number of turns, or too far from any to be taken for one. -/
def Definite (x : ℝ) : Prop := (∃ k : ℤ, x = 2 * pi * k) ∨ ∀ k : ℤ, (1e-10 : ℝ) < |x - 2 * pi * k|

/-- The shape that a rotation under controls is given. -/
def readShape (U : Mat (Cplx ℝ)) : Shape ℝ :=
  if close (U.get 0 1).im 0.0 && close (U.get 1 0).im 0.0 then ⟨true, U.get 0 1, U.get 1 1⟩
  else ⟨false, .ofReal (-(U.get 0 1).re), U.get 1 1 - ⟨0.0, (U.get 0 1).im⟩⟩

/-- The angles of the one-qubit gate that a rotation under controls is built from. -/
def rootAngles (axis : Axis) (a : ℝ) : OneQubit.Angles ℝ := OneQubit.u3 (root (readShape (axis.matrix a)))

/-- No tolerance is decided wrongly when a rotation is put under two or more controls: what counts
as real is real, what counts as minus one is minus one, and what counts as no angle is none. -/
structure Decided (axis : Axis) (a : ℝ) : Prop where
  real : (readShape (axis.matrix a)).secondReal = true → axis = .x → Real.sin (a / 2) = 0
  minusOne : (readShape (axis.matrix a)).z.isClose (-.one) 1e-5 1e-8 = true → (readShape (axis.matrix a)).z = -.one
  theta : Definite (rootAngles axis a).theta
  phi : Definite (rootAngles axis a).phi
  lam : Definite (rootAngles axis a).lam
  phase : Definite (rootAngles axis a).phase

/-- A rotation under `m` controls, if these are two or more. -/
def turnsUnder (m : ℕ) (axis : Axis) (a : ℝ) : List (Axis × ℝ) := if 2 ≤ m then [(axis, a)] else []

/-- The rotations under two or more controls that a phase under `m` controls is built from. -/
def stairTurns (m : ℕ) (a : ℝ) : List (Axis × ℝ) := (List.range (m - 1)).map fun j => (.z, a / 2 ^ j)

/-- The rotations under two or more controls that a base gate under `m` controls is built from. -/
def Base.turns : Base → List ℝ → ℕ → List (Axis × ℝ)
  | .x, _, m | .y, _, m | .z, _, m | .h, _, m => stairTurns m pi
  | .s, _, m => stairTurns m (pi / 2)
  | .sdg, _, m => stairTurns m (-(pi / 2))
  | .t, _, m => stairTurns m (pi / 4)
  | .tdg, _, m => stairTurns m (-(pi / 4))
  | .rx, [a], m => turnsUnder m .x a
  | .ry, [a], m => turnsUnder m .y a
  | .rz, [a], m => turnsUnder m .z a
  | .phase, [a], m => stairTurns m a
  | .xPow, [p, g], m =>
    turnsUnder m .x (p * pi) ++ stairTurns (m - 1) (p * pi * (g + 1 / 2))
  | .yPow, [p, g], m =>
    turnsUnder m .y (p * pi) ++ stairTurns (m - 1) (p * pi * (g + 1 / 2))
  | .zPow, [p, g], m =>
    turnsUnder m .z (p * pi) ++ stairTurns (m - 1) (p * pi * (g + 1 / 2))
  | .u3, [theta, phi, lam], m =>
    turnsUnder m .z lam ++ turnsUnder m .y theta ++ turnsUnder m .z phi ++ stairTurns (m - 1) ((phi + lam) / 2)
  | .rxx, [a], m => stairTurns m pi ++ stairTurns (m + 1) pi ++ turnsUnder m .z a
  | .ryy, [a], m =>
    turnsUnder m .x (pi / 2) ++ turnsUnder m .x (-(pi / 2)) ++ stairTurns (m + 1) pi ++ turnsUnder m .z a
  | .rzz, [a], m => stairTurns (m + 1) pi ++ turnsUnder m .z a
  | .swap, _, m => stairTurns (m + 1) pi
  | _, _, _ => []

/-! ### Operations -/

/-- What a gate call asks for. -/
inductive Operation where
  | identity (ts : List ℕ)
  | of (b : Base) (r : Reach) (ps : List ℝ) (cs ts : List ℕ)
  /-- A rotation by the angle that the controls select. -/
  | ucr (axis : Axis) (angles : List ℝ) (cs : List ℕ) (t : ℕ)
  | pauliMultiplexor (axis : Axis) (angles : List ℝ) (cs : List ℕ) (t : ℕ)
  | diagonal (entries : List ℂ) (qs : List ℕ)
  | globalPhase (a : ℝ)
deriving Inhabited

/-- The number that qubits spell, the first being the lowest bit. -/
def indexOf (cs : List ℕ) (b : Register) : ℕ := cs.foldr (fun c k => (b c).toNat + 2 * k) 0

namespace Operation

def gate : Operation → Gate
  | .identity _ => .identity
  | .of b r _ _ _ => .of b r
  | .ucr axis _ _ _ => .ucr axis
  | .pauliMultiplexor _ _ _ _ => .pauliMultiplexor
  | .diagonal _ _ => .diagonal
  | .globalPhase _ => .globalPhase

def qubits : Operation → List ℕ
  | .identity ts => ts
  | .of _ _ _ cs ts => cs ++ ts
  | .ucr _ _ cs t | .pauliMultiplexor _ _ cs t => cs ++ [t]
  | .diagonal _ qs => qs
  | .globalPhase _ => []

/-- The rotations under two or more controls that an operation is built from. -/
def turns : Operation → List (Axis × ℝ)
  | .of b _ ps cs _ => b.turns ps cs.length
  | _ => []

/-- The operator that an operation stands for. -/
def act : Operation → Wave → Wave
  | .identity _ => id
  | .of b _ ps cs ts => gated (allOn cs) (b.act ps ts)
  | .ucr axis angles cs t | .pauliMultiplexor axis angles cs t =>
    select t fun b => (axis.matrix (angles.getD (indexOf cs b) 0)).asSquare
  | .diagonal zs qs => fun V b => exp ((zs.getD (indexOf qs b) 1).arg * I) * V b
  | .globalPhase a => fun V => exp (a * I) • V

def acts (os : List Operation) (V : Wave) : Wave := os.foldl (fun V o => o.act V) V

@[simp] lemma acts_nil (V : Wave) : acts [] V = V := rfl

@[simp] lemma acts_cons (o : Operation) (os : List Operation) (V : Wave) : acts (o :: os) V = acts os (o.act V) := rfl

lemma acts_append (os os' : List Operation) (V : Wave) : acts (os ++ os') V = acts os' (acts os V) := List.foldl_append

/-- The numbers of parameters and of qubits are those that the gate takes. -/
def Shaped : Operation → Prop
  | .identity _ | .globalPhase _ => True
  | .of b r ps cs ts =>
    ps.length = b.arity ∧
    (match r with
      | .plain => cs = []
      | .controlled => cs.length = 1
      | .multi => cs ≠ [] ∨ b = .phase) ∧
    (if b.onTwo then ts.length = 2 else r = .controlled → ts.length = 1)
  | .ucr _ angles cs _ | .pauliMultiplexor _ angles cs _ => angles.length = 2 ^ cs.length
  | .diagonal zs qs =>
    zs.length = 2 ^ qs.length ∧ qs ≠ [] ∧ ∀ z ∈ zs, Scalar.isClose ‖z‖ 1.0 1e-5 1e-10 = true

/-- A circuit on `n` qubits can carry the operation out. -/
@[mk_iff]
structure Valid (n : ℕ) (o : Operation) : Prop where
  shaped : o.Shaped
  nodup : o.qubits.Nodup
  lt : ∀ q ∈ o.qubits, q < n

/-- A circuit on `n` qubits can carry the operation out exactly. -/
structure Good (n : ℕ) (o : Operation) : Prop extends Valid n o where
  decided : ∀ p ∈ o.turns, Decided p.1 p.2

/-- The phase that an operation adds for good. -/
def phase : Operation → ℝ
  | .of .xPow .plain [p, g] _ ts | .of .yPow .plain [p, g] _ ts | .of .zPow .plain [p, g] _ ts =>
    p * pi * (g + 1 / 2) * ts.length
  | .diagonal zs qs => (zs.map arg).sum / 2 ^ qs.length
  | .globalPhase a => a
  | _ => 0

/-! ### The log -/

def snapped : Operation → Operation
  | .of b r ps cs ts => .of b r (if b.isAngular then ps.map snap else ps) cs ts
  | .ucr axis angles cs t => .ucr axis (angles.map snap) cs t
  | .pauliMultiplexor axis angles cs t => .pauliMultiplexor axis (angles.map snap) cs t
  | .globalPhase a => .globalPhase (snap a)
  | o => o

/-- The operation turns nothing, as far as its angles are looked at. -/
def vanishes : Operation → Bool
  | .of b _ ps _ _ => b.isAngular && (ps.map snap).all (· = 0)
  | .ucr _ angles _ _ | .pauliMultiplexor _ angles _ _ => (angles.map snap).all (· = 0)
  | .globalPhase a => snap a = 0
  | _ => false

/-- The operation has an entry of its own in the log. -/
def isKept (o : Operation) : Bool := !o.gate.isTransparent && !o.vanishes

/-! ## Parts -/

section Parts

open Real

/-! ### Short forms -/

abbrev on (b : Base) (ts : List ℕ) : Operation := .of b .plain [] [] ts

abbrev turn (b : Base) (a : ℝ) (ts : List ℕ) : Operation := .of b .plain [a] [] ts

abbrev general (theta phi lam : ℝ) (ts : List ℕ) : Operation := .of .u3 .plain [theta, phi, lam] [] ts

abbrev cx (c t : ℕ) : Operation := .of .x .controlled [] [c] [t]

abbrev under (b : Base) (cs ts : List ℕ) : Operation := .of b .multi [] cs ts

abbrev turnUnder (b : Base) (a : ℝ) (cs ts : List ℕ) : Operation := .of b .multi [a] cs ts

/-! ### Negations under controls -/

def ccxParts (c d t : ℕ) : List Operation :=
  [on .h [t], cx d t, on .tdg [t], cx c t, on .t [t], cx d t, on .tdg [t], cx c t, on .t [t],
    on .h [t], on .t [d], cx c d, on .t [c], on .tdg [d], cx c d]

/-- The part of a negation under three controls that stays on the controls. -/
def c3xControls (a b c : ℕ) : List Operation :=
  [cx a b, turn .phase (-(π / 8)) [b], cx a b, cx b c, turn .phase (-(π / 8)) [c], cx a c,
    turn .phase (π / 8) [c], cx b c, turn .phase (-(π / 8)) [c], cx a c]

/-- The part of a negation under three controls that turns the target. -/
def c3xTarget (a b c t : ℕ) : List Operation :=
  [cx c t, turn .phase (-(π / 8)) [t], cx b t, turn .phase (π / 8) [t], cx c t,
    turn .phase (-(π / 8)) [t], cx a t, turn .phase (π / 8) [t], cx c t, turn .phase (-(π / 8)) [t],
    cx b t, turn .phase (π / 8) [t], cx c t, turn .phase (-(π / 8)) [t], cx a t]

/-- The negation under one, two or three controls. -/
def c3xParts (cs : List ℕ) (t : ℕ) : List Operation :=
  match cs with
  | [c] => [cx c t]
  | [c, d] => ccxParts c d t
  | [a, b, c] =>
    [on .h [t], turn .phase (π / 8) [a, b, c, t]] ++ c3xControls a b c ++ c3xTarget a b c t ++ [on .h [t]]
  | _ => []

def linkParts (control next he : ℕ) : List Operation :=
  [on .h [he], on .t [he], cx control he, on .tdg [he], cx next he]

def unlinkParts (control next he : ℕ) : List Operation :=
  [cx next he, on .t [he], cx control he, on .tdg [he], on .h [he]]

/-- The relative negation at the end of a chain. -/
def turningParts (first second he : ℕ) : List Operation :=
  [on .h [he], on .t [he], cx first he, on .tdg [he], cx second he, on .t [he],
    cx first he, on .tdg [he], on .h [he]]

/-- Down a chain and back up: over the ancillas from the last to the first, and back. -/
def sweepParts (cs as : List ℕ) (t : ℕ) : List Operation :=
  let k := cs.length
  let m := as.length
  ccxParts (cs.getD (k - 1) 0) (as.getD (m - 1) 0) t ++ ((List.range (k - 3)).flatMap fun i =>
      linkParts (cs.getD (k - (i + 1) - 1) 0) (as.getD (m - (i + 1) - 1) 0) (as.getD (m - i - 1) 0)) ++
    turningParts (cs.getD 0 0) (cs.getD 1 0) (as.getD 0 0) ++
    (List.range (m - 1)).flatMap fun i =>
      unlinkParts (cs.getD (2 + i) 0) (as.getD i 0) (as.getD (i + 1) 0)

/-- The negation under any number of controls, with borrowed ancillas. -/
def chainParts (cs as : List ℕ) (t : ℕ) : List Operation :=
  if cs.length < 4 then c3xParts cs t else sweepParts cs as t ++ sweepParts cs as t

/-! ### Rotations under controls -/

/-- The gates of a one-qubit unitary given by its angles. -/
def placed (a : OneQubit.Angles ℝ) (t : ℕ) : List Operation :=
  ((snapAll [a.theta, a.phi, a.lam]).toList.map fun xs => .of .u3 .plain xs [] [t]) ++
    (if snap a.phase = 0 then [] else [.globalPhase (snap a.phase)])

def unplaced (a : OneQubit.Angles ℝ) (t : ℕ) : List Operation :=
  (if snap a.phase = 0 ∨ snap (-snap a.phase) = 0 then []
    else [.globalPhase (snap (-snap a.phase))]) ++
    (((snapAll [a.theta, a.phi, a.lam]).bind fun xs =>
        snapAll [-xs.getD 0 0, -xs.getD 2 0, -xs.getD 1 0]).toList.map
      fun xs => .of .u3 .plain xs [] [t])

/-- Two negations under half of the controls each, between a one-qubit gate and its inverse, twice. -/
def roundsParts (real : Bool) (a : OneQubit.Angles ℝ) (cs : List ℕ) (t : ℕ) : List Operation :=
  let half := (cs.length + 1) / 2
  let rest := cs.length / 2
  let first := chainParts (cs.take half) ((cs.take (2 * half - 2)).drop half) t
  let second := chainParts (cs.drop half) ((cs.take half).drop (half - rest + 2)) t
  let frame := if real then [] else [on .h [t]]
  let round := first ++ placed a t ++ second ++ unplaced a t
  frame ++ round ++ round ++ frame

def halvesParts (axis : Axis) (a : ℝ) (cs : List ℕ) (t : ℕ) : List Operation :=
  roundsParts (readShape (axis.matrix a)).secondReal (rootAngles axis a) cs t

def rotationParts (axis : Axis) (a : ℝ) (cs : List ℕ) (t : ℕ) : List Operation :=
  match cs, axis with
  | [c], .x =>
    [on .s [t], cx c t, turn .ry (-a / 2) [t], cx c t, turn .ry (a / 2) [t], on .sdg [t]]
  | [c], .y => [turn .ry (a / 2) [t], cx c t, turn .ry (-a / 2) [t], cx c t]
  | [c], .z => [turn .rz (a / 2) [t], cx c t, turn .rz (-a / 2) [t], cx c t]
  | cs, axis => halvesParts axis a cs t

def stairParts (a : ℝ) (k : ℕ) (cs : List ℕ) (t : ℕ) : List Operation :=
  match h : cs.getLast? with
  | none => [turn .phase (a / 2 ^ k) [t]]
  | some c => turnUnder .rz (a / 2 ^ k) cs [t] :: stairParts a (k + 1) cs.dropLast c
termination_by cs.length
decreasing_by cases cs with
  | nil => simp at h
  | cons c cs => simp

/-- A power of a Pauli gate on one target under controls. -/
def powerParts (b : Base) (p g : ℝ) (cs : List ℕ) (t : ℕ) : List Operation :=
  [turnUnder b (p * π) cs [t], if 1 < cs.length then
      turnUnder .phase (p * π * (g + 1 / 2)) cs.dropLast [cs.getLastD 0]
    else turn .phase (p * π * (g + 1 / 2)) [cs.headD 0]]

/-- The general one-qubit gate on one target under controls. -/
def generalParts (theta phi lam : ℝ) (cs : List ℕ) (t : ℕ) : List Operation :=
  [turnUnder .rz lam cs [t], turnUnder .ry theta cs [t], turnUnder .rz phi cs [t],
    turnUnder .phase ((phi + lam) / 2) cs.tail [cs.headD 0]]

/-! ### The tables -/

def plainParts : Base → List ℝ → List ℕ → List Operation
  | .x, _, ts => [general π 0 π ts]
  | .y, _, ts => [general π (π / 2) (π / 2) ts]
  | .z, _, ts => [turn .phase π ts]
  | .h, _, ts => [general (π / 2) 0 π ts]
  | .s, _, ts => [turn .phase (π / 2) ts]
  | .sdg, _, ts => [turn .phase (-(π / 2)) ts]
  | .t, _, ts => [turn .phase (π / 4) ts]
  | .tdg, _, ts => [turn .phase (-(π / 4)) ts]
  | .rx, [a], ts => [general a (-(π / 2)) (π / 2) ts]
  | .ry, [a], ts => [general a 0 0 ts]
  | .rz, [a], ts => [turn .rx (π / 2) ts, turn .ry (-a) ts, turn .rx (-(π / 2)) ts]
  | .phase, [a], ts => [general 0 0 a ts]
  | .xPow, [p, g], ts => [turn .rx (p * π) ts, .globalPhase (p * π * (g + 1 / 2) * ts.length)]
  | .yPow, [p, g], ts => [turn .ry (p * π) ts, .globalPhase (p * π * (g + 1 / 2) * ts.length)]
  | .zPow, [p, g], ts => [turn .rz (p * π) ts, .globalPhase (p * π * (g + 1 / 2) * ts.length)]
  | .rxx, [a], [i, j] => [on .h [i, j], cx i j, turn .rz a [j], cx i j, on .h [i, j]]
  | .ryy, [a], [i, j] =>
    [turn .rx (π / 2) [i], turn .rx (π / 2) [j], cx i j, turn .rz a [j], cx i j,
      turn .rx (-(π / 2)) [i], turn .rx (-(π / 2)) [j]]
  | .rzz, [a], [i, j] => [cx i j, turn .rz a [j], cx i j]
  | .swap, _, [i, j] => [cx i j, cx j i, cx i j]
  | _, _, _ => []

/-- What a gate with one control is defined by. -/
def controlledParts : Base → List ℝ → ℕ → ℕ → List Operation
  | .y, _, c, t => [on .sdg [t], cx c t, on .s [t]]
  | .z, _, c, t => [on .h [t], cx c t, on .h [t]]
  | .h, _, c, t =>
    [on .s [t], on .h [t], on .t [t], cx c t, on .tdg [t], on .h [t], on .sdg [t]]
  | .s, _, c, t => [on .t [c], cx c t, on .tdg [t], cx c t, on .t [t]]
  | .sdg, _, c, t => [on .tdg [c], cx c t, on .t [t], cx c t, on .tdg [t]]
  | .t, _, c, t =>
    [turn .phase (π / 8) [t], cx c t, turn .phase (-(π / 8)) [t], cx c t, turn .phase (π / 8) [c]]
  | .tdg, _, c, t =>
    [turn .phase (-(π / 8)) [c], cx c t, turn .phase (π / 8) [t], cx c t, turn .phase (-(π / 8)) [t]]
  | .rx, [a], c, t => [turnUnder .rx a [c] [t]]
  | .ry, [a], c, t => [turnUnder .ry a [c] [t]]
  | .rz, [a], c, t => [turnUnder .rz a [c] [t]]
  | .phase, [a], c, t =>
    [turn .phase (a / 2) [c], cx c t, turn .phase (-a / 2) [t], cx c t, turn .phase (a / 2) [t]]
  | .xPow, [p, g], c, t =>
    [.of .rx .controlled [p * π] [c] [t], turn .phase (p * π * (g + 1 / 2)) [c]]
  | .yPow, [p, g], c, t =>
    [.of .ry .controlled [p * π] [c] [t], turn .phase (p * π * (g + 1 / 2)) [c]]
  | .zPow, [p, g], c, t =>
    [.of .rz .controlled [p * π] [c] [t], turn .phase (p * π * (g + 1 / 2)) [c]]
  | .u3, ps, c, t => [.of .u3 .multi ps [c] [t]]
  | _, _, _, _ => []

/-- What a gate under a list of controls is defined by. -/
def multiParts : Base → List ℝ → List ℕ → List ℕ → List Operation
  | .x, _, cs, ts => [on .h ts, turnUnder .phase π cs ts, on .h ts]
  | .y, _, cs, ts => [on .sdg ts, under .x cs ts, on .s ts]
  | .z, _, cs, ts => [on .h ts, under .x cs ts, on .h ts]
  | .h, _, cs, ts =>
    [on .s ts, on .h ts, on .t ts, under .x cs ts, on .tdg ts, on .h ts, on .sdg ts]
  | .s, _, cs, ts => [turnUnder .phase (π / 2) cs ts]
  | .sdg, _, cs, ts => [turnUnder .phase (-(π / 2)) cs ts]
  | .t, _, cs, ts => [turnUnder .phase (π / 4) cs ts]
  | .tdg, _, cs, ts => [turnUnder .phase (-(π / 4)) cs ts]
  | .rx, [a], cs, ts => ts.flatMap (rotationParts .x a cs)
  | .ry, [a], cs, ts => ts.flatMap (rotationParts .y a cs)
  | .rz, [a], cs, ts => ts.flatMap (rotationParts .z a cs)
  | .phase, [a], cs, ts => ts.flatMap (stairParts a 0 cs)
  | .xPow, [p, g], cs, ts => ts.flatMap (powerParts .rx p g cs)
  | .yPow, [p, g], cs, ts => ts.flatMap (powerParts .ry p g cs)
  | .zPow, [p, g], cs, ts => ts.flatMap (powerParts .rz p g cs)
  | .u3, [theta, phi, lam], cs, ts => ts.flatMap (generalParts theta phi lam cs)
  | .rxx, [a], cs, [i, j] =>
    [under .h cs [i], under .h cs [j], under .x (cs ++ [i]) [j], turnUnder .rz a cs [j],
      under .x (cs ++ [i]) [j], under .h cs [i], under .h cs [j]]
  | .ryy, [a], cs, [i, j] =>
    [turnUnder .rx (π / 2) cs [i], turnUnder .rx (π / 2) cs [j], under .x (cs ++ [i]) [j],
      turnUnder .rz a cs [j], under .x (cs ++ [i]) [j], turnUnder .rx (-(π / 2)) cs [i],
      turnUnder .rx (-(π / 2)) cs [j]]
  | .rzz, [a], cs, [i, j] =>
    [under .x (cs ++ [i]) [j], turnUnder .rz a cs [j], under .x (cs ++ [i]) [j]]
  | .swap, _, cs, [i, j] => [cx j i, under .x (cs ++ [i]) [j], cx j i]
  | _, _, _, _ => []

def aboutAxis (axis : Axis) (a : ℝ) (t : ℕ) : Operation := turn (Plan.rotationAbout axis) a [t]

def negationParts (axis : Axis) (c t : ℕ) : List Operation :=
  if axis = .x then [turn .ry (π / 2) [t], cx c t, turn .ry (-(π / 2)) [t]] else [cx c t]

/-- The angles of the rotations between which the negations stand. -/
def rowAngles (angles : List ℝ) : List ℝ := demultiplex (fun x y => (x + y) / 2) (fun x y => (x + -y) / 2) false angles

/-- A rotation by the angle that the controls select. -/
def rowParts (axis : Axis) (angles : List ℝ) (cs : List ℕ) (t : ℕ) : List Operation :=
  if cs = [] then [aboutAxis axis (angles.headD 0) t]
  else (rowAngles angles).zipIdx.flatMap fun (a, i) =>
    aboutAxis axis a t :: negationParts axis (cs.getD (negationControl cs.length i) 0) t

/-- A diagonal on qubits: at each level the rotations between neighbours, selected by the qubits
that are left. -/
def diagonalParts : List ℕ → List ℝ → List Operation
  | [], phases => [.globalPhase (phases.headD 0)]
  | q :: qs, phases => .ucr .z (splitLevel phases).2 qs q :: diagonalParts qs (splitLevel phases).1

/-- What an operation is defined by; nothing for the elementary ones. -/
def parts : Operation → List Operation
  | .identity ts => [general 0 0 0 ts]
  | .of b .plain ps _ ts => plainParts b ps ts
  | .of b .controlled ps cs ts =>
    if b.onTwo then [.of b .multi ps cs ts] else controlledParts b ps (cs.headD 0) (ts.headD 0)
  | .of b .multi ps cs ts => multiParts b ps cs ts
  | .ucr axis angles cs t => [.pauliMultiplexor axis angles cs t]
  | .pauliMultiplexor axis angles cs t => rowParts axis angles cs t
  | .diagonal zs qs => diagonalParts qs (zs.map arg)
  | .globalPhase _ => []

/-- The primitives that an elementary operation is. -/
def primitives? : Operation → Option (List (Primitive ℝ))
  | .of .u3 .plain ps _ ts => some (ts.map fun t => .u3 (ps.getD 0 0) (ps.getD 1 0) (ps.getD 2 0) t)
  | .of .x .controlled _ cs ts => some [.cx (cs.headD 0) (ts.headD 0)]
  | .globalPhase a => some [.phase a]
  | _ => none

/-- How deep the definition of an operation goes, at most.  The identity counts with the gates that no
definition uses. -/
def rank : Operation → ℕ
  | .identity _ => 3
  | .of b .plain _ _ _ => match b with
    | .u3 => 0
    | .x | .y | .h | .rx | .ry | .phase | .swap => 1
    | .z | .s | .sdg | .t | .tdg | .rz => 2
    | .xPow | .yPow | .zPow | .rxx | .ryy | .rzz => 3
  | .of b .controlled _ _ _ => match b with
    | .x => 0
    | .z | .t | .tdg | .phase => 2
    | .y | .h | .s | .sdg => 3
    | .rx | .ry | .rz => 4
    | .xPow | .yPow | .zPow => 5
    | .u3 => 6
    | .rxx | .ryy | .rzz | .swap => 8
  | .of b .multi _ _ _ => match b with
    | .rx | .ry | .rz => 3
    | .phase => 4
    | .x | .s | .sdg | .t | .tdg | .xPow | .yPow | .zPow | .u3 => 5
    | .y | .z | .h | .ryy | .rzz | .swap => 6
    | .rxx => 7
  | .ucr _ _ _ _ => 4
  | .pauliMultiplexor _ _ _ _ => 3
  | .diagonal _ _ => 5
  | .globalPhase _ => 0

/-- The operations that have entries of their own when an operation is logged, with the depth of
definitions bounded. -/
def keptAt : ℕ → Operation → List Operation
  | 0, _ => []
  | d + 1, o =>
    if o.isKept then [o]
    else if o.primitives?.isSome then []
    else o.parts.flatMap (keptAt d)

/-- The operations that have entries of their own when an operation is logged. -/
def kept (o : Operation) : List Operation := keptAt Recording.maxDepth o

/-- The operations that have entries of their own in the definition of an operation. -/
def inner (o : Operation) : List Operation :=
  if o.primitives?.isSome then [] else o.parts.flatMap kept

end Parts

end Operation

end QuantumCircuits

end
