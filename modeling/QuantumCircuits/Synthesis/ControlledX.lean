import QuantumCircuits.Gate.Call

/-!
# Synthesis — Controlled negation

Negations under two, three and four controls, written with controlled negations and small phases.
The relative versions are right up to phases that their use undoes again.
-/

namespace QuantumCircuits.ControlledX

variable {α : Type} [Scalar α]

open Scalar Plan

def control (controls : Operand α) (i : Nat) : Plan α (Operand α) := Plan.get (controls.item i)

def ccx (controls target : Operand α) : Plan α Unit := do
  match ← Plan.get controls.length with
  | 1 => cx (← control controls 0) target
  | 2 =>
    on .h target
    cx (← control controls 1) target
    on .tdg target
    cx (← control controls 0) target
    on .t target
    cx (← control controls 1) target
    on .tdg target
    cx (← control controls 0) target
    on .t target
    on .h target
    on .t (← control controls 1)
    cx (← control controls 0) (← control controls 1)
    on .t (← control controls 0)
    on .tdg (← control controls 1)
    cx (← control controls 0) (← control controls 1)
  | n => fail (.controlCount "CCX" "1 or 2" n)

def rccx (controls target : Operand α) : Plan α Unit := do
  match ← Plan.get controls.length with
  | 2 =>
    on .h target
    on .t target
    cx (← control controls 1) target
    on .tdg target
    cx (← control controls 0) target
    on .t target
    cx (← control controls 1) target
    on .tdg target
    on .h target
  | n => fail (.controlCount "RCCX" "2" n)

def c3x (controls target : Operand α) : Plan α Unit := do
  let eighth : α := pi / 8.0
  match ← Plan.get controls.length with
  | 1 => cx (← control controls 0) target
  | 2 => ccx (.list [← control controls 0, ← control controls 1]) target
  | 3 =>
    on .h target
    turnBy .phase eighth (← Plan.get (controls.append [target]))
    let a ← control controls 0
    let b ← control controls 1
    let c ← control controls 2
    cx a b
    turnBy .phase (-eighth) b
    cx a b
    cx b c
    turnBy .phase (-eighth) c
    cx a c
    turnBy .phase eighth c
    cx b c
    turnBy .phase (-eighth) c
    cx a c
    cx c target
    turnBy .phase (-eighth) target
    cx b target
    turnBy .phase eighth target
    cx c target
    turnBy .phase (-eighth) target
    cx a target
    turnBy .phase eighth target
    cx c target
    turnBy .phase (-eighth) target
    cx b target
    turnBy .phase eighth target
    cx c target
    turnBy .phase (-eighth) target
    cx a target
    on .h target
  | n => fail (.controlCount "C3X" "1, 2 or 3" n)

/-- A phase that is turned into a root of the negation by the gates around it. -/
def rootStep (angle : α) (control target : Operand α) : Plan α Unit := do
  on .h target
  controlledTurn .phase (.real angle) control target
  on .h target

def c3sx (controls target : Operand α) : Plan α Unit := do
  let eighth : α := pi / 8.0
  match ← Plan.get controls.length with
  | 3 =>
    let a ← control controls 0
    let b ← control controls 1
    let c ← control controls 2
    rootStep eighth a target
    cx a b
    rootStep (-eighth) b target
    cx a b
    rootStep eighth b target
    cx b c
    rootStep (-eighth) c target
    cx a c
    rootStep eighth c target
    cx b c
    rootStep (-eighth) c target
    cx a c
    rootStep eighth c target
  | n => fail (.controlCount "C3SX" "3" n)

def rc3x (controls target : Operand α) : Plan α Unit := do
  match ← Plan.get controls.length with
  | 3 =>
    on .h target
    on .t target
    cx (← control controls 2) target
    on .tdg target
    on .h target
    cx (← control controls 0) target
    on .t target
    cx (← control controls 1) target
    on .tdg target
    cx (← control controls 0) target
    on .t target
    cx (← control controls 1) target
    on .tdg target
    on .h target
    on .t target
    cx (← control controls 2) target
    on .tdg target
    on .h target
  | n => fail (.controlCount "RC3X" "3" n)

end QuantumCircuits.ControlledX

/-! ### Chains

The negation under many controls with borrowed ancillas.  A chain of relative negations runs from
the target down to the last ancilla and back, twice, so that the ancillas are left as they were.
-/

namespace QuantumCircuits.Chain

variable {α : Type} [Scalar α]

open Plan ControlledX

def ancillaCount (controls : Nat) : Nat := controls - 2

def link (control next here : Operand α) : Plan α Unit := do
  on .h here
  on .t here
  cx control here
  on .tdg here
  cx next here

def turningPoint (first second here : Operand α) : Plan α Unit := do
  on .h here
  on .t here
  cx first here
  on .tdg here
  cx second here
  on .t here
  cx first here
  on .tdg here
  on .h here

def sweep (controls ancillas : List (Operand α)) (target : Operand α) : Plan α Unit := do
  let k := controls.length
  let m := ancillas.length
  let targets := target :: ancillas.reverse
  let pick (xs : List (Operand α)) (i : Int) : Plan α (Operand α) :=
    Plan.get ((Operand.list xs).item i)
  (List.range (k - 2)).forM fun i => do
    let here ← pick targets i
    if !(sameOperand here target) then
      link (← pick controls (k - i - 1)) (← pick ancillas (m - i - 1)) here
    else
      ccx (.list [← pick controls (k - i - 1), ← pick ancillas (m - i - 1)]) here
  let last := k - 2
  turningPoint (← pick controls ((k : Int) - last - 2)) (← pick controls (k - last - 1))
    (← pick targets last)
  (List.range (m - 1)).forM fun i => do
    let here ← pick ancillas (i + 1)
    cx (← pick ancillas i) here
    on .t here
    cx (← pick controls (2 + i)) here
    on .tdg here
    on .h here
where
  /-- The same qubit, as far as it is written the same way. -/
  sameOperand (x y : Operand α) : Bool := x.toInt?.isSome && x.toInt? == y.toInt?

/-- The negation of the target under all controls, in a circuit on `n` qubits. -/
def plan (n : Nat) (controls target ancillas : Operand α) : Plan α Unit := do
  let ancillas : Operand α := match ancillas with
    | .none => .list []
    | x => x.listed
  let controls := controls.listed
  let k ← Plan.get controls.length
  let given ← Plan.get ancillas.length
  let m := if given = 0 then ancillaCount k else given
  if n < k + m + 1 then fail (.chainQubits n (k + m + 1))
  if given ≠ m then fail (.chainAncillas given m)
  if k < 4 then c3x controls target
  else
    let Operand.list as := ancillas | fail (.unfit .type)
    let cs ← Plan.get controls.items
    sweep cs as target
    sweep cs as target

end QuantumCircuits.Chain
