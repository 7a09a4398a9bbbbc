import QuantumCircuits.Circuit.Basic

/-!
# Circuit — Rearrange

Manipulations of the log that keep its entries: taking parts of it, moving the qubits, leaving
entries out.  All of them end with a replay.
-/

namespace QuantumCircuits

/-- A stretch of positions, from a start to a stop in steps; what is left out has the usual
meaning. -/
structure Slice where
  start : Option Int
  stop : Option Int
  step : Option Int
deriving Repr

namespace Slice

/-- A bound moved into the range from `low` to `high`; negative bounds count from the end. -/
def clamp (n : Nat) (low high : Int) (i : Int) : Int :=
  let i := if i < 0 then i + n else i
  if i < low then low else if high < i then high else i

def bounds (s : Slice) (n : Nat) : Outcome (Int × Int × Int) :=
  let step := s.step.getD 1
  if step = 0 then .error (.unfit .value)
  else
    let (low, high) : Int × Int := if 0 < step then (0, n) else (-1, n - 1)
    let (first, last) := if 0 < step then (low, high) else (high, low)
    .ok ((s.start.map (clamp n low high)).getD first,
      (s.stop.map (clamp n low high)).getD last, step)

def positions (s : Slice) (n : Nat) : Outcome (List Nat) := do
  let (start, stop, step) ← s.bounds n
  .ok ((rangeMembers start stop step).map Int.toNat)

end Slice

/-- One position, or a slice. -/
inductive Selection where
  | at (i : Int)
  | slice (s : Slice)
deriving Repr

/-- An item of a log to be: an entry, and its place among the given ones if it is one of them. -/
structure Placed (α : Type) where
  entry : Entry α
  given : Option Nat

namespace Circuit

variable {α : Type} [Scalar α]

open Scalar

def selected (c : Circuit α) : Selection → Outcome (List Nat)
  | .at i => do .ok [← Operand.position c.log.size i]
  | .slice s => s.positions c.log.size

/-- The circuit of the entries at some positions; these count as replayed afterwards. -/
def excerpt (positions : List Nat) : Change (Circuit α) (Circuit α) := do
  let c ← get
  let chosen := positions.filterMap fun p => c.log[p]?
  let (entries, target, out) := replay chosen c.fresh
  let log := (positions.zip entries).foldl (fun log p => log.setIfInBounds p.1 p.2) c.log
  set { c with log }
  Change.ofOutcome out
  pure target

def select (s : Selection) : Change (Circuit α) (Circuit α) := do
  excerpt (← Change.ofOutcome ((← get).selected s))

def placed (c : Circuit α) (given : List (Entry α)) : Selection → Outcome (List (Placed α))
  | .at i => do
    match given with
    | [] => .error (.unfit .index)
    | e :: _ =>
      let p ← Operand.position c.log.size i
      .ok (c.log.toList.zipIdx.map fun (old, k) => if k = p then ⟨e, some 0⟩ else ⟨old, none⟩)
  | .slice s => do
    let new : List (Placed α) := given.zipIdx.map fun (e, k) => ⟨e, some k⟩
    let old : List (Placed α) := c.log.toList.map fun e => ⟨e, none⟩
    let (start, stop, step) ← s.bounds c.log.size
    if step = 1 then
      .ok (old.take start.toNat ++ new ++ old.drop (max start stop).toNat)
    else
      let ps ← s.positions c.log.size
      if ps.length ≠ given.length then .error (.unfit .value)
      .ok ((ps.zip new).foldl (fun log p => log.set p.1 p.2) old)

/-- Puts given entries in the place of a selection and replays the log.  Gives the circuit, the
given entries as they are left, and the outcome. -/
def assign (c : Circuit α) (s : Selection) (given : List (Entry α)) :
    Circuit α × List (Entry α) × Outcome Unit :=
  match c.placed given s with
  | .error f => (c, given, .error f)
  | .ok items =>
    let (entries, target, out) := replay (items.map (·.entry)) c.fresh
    let given := (items.zip entries).foldl (fun gs p => match p.1.given with
      | some k => gs.set k p.2
      | none => gs) given
    match out with
    | .ok _ => (target, given, out)
    | .error _ => ({ c with log := entries.toArray }, given, out)

/-- The positions of the entries that do not name a gate; every entry has to have a name. -/
def positionsWithout (c : Circuit α) (g : Gate) : Outcome (List Nat) := do
  let _ ← c.log.toList.mapM fun e => match e.gate with
    | some _ => Except.ok ()
    | none => .error (.unfit .key)
  .ok (c.log.toList.zipIdx.filterMap fun (e, i) => if e.isGate g then none else some i)

/-- Replaces the entries for global phases by one with their sum. -/
def mergeGlobalPhases : Change (Circuit α) Unit := do
  let c ← get
  let ps ← Change.ofOutcome (c.positionsWithout .globalPhase)
  updateWith (ps.filterMap fun p => c.log[p]?)
  apply .globalPhase [(.angle, c.sink.globalPhase)]

def removeMeasurements : Change (Circuit α) Unit := do
  let c ← get
  let ps ← Change.ofOutcome (c.positionsWithout .measure)
  updateWith (ps.filterMap fun p => c.log[p]?)

def withoutMeasurements : Change (Circuit α) (Circuit α) := do
  excerpt (← Change.ofOutcome ((← get).positionsWithout .measure))

def isSmall (bound : α) (x : Operand α) : Outcome Bool :=
  match x with
  | .complex z => .ok (lt z.abs bound)
  | x => match x.toReal? with
    | some r => .ok (lt (Scalar.abs r) bound)
    | none => .error (.unfit .type)

/-- All angles of an entry are below a bound; entries without angles are kept. -/
def isNegligible (bound : α) (e : Entry α) : Outcome Bool := do
  match e.get? .angle with
  | some x => isSmall bound x
  | none => match e.get? .angles with
    | some xs => .ok ((← (← xs.items).mapM (isSmall bound)).all id)
    | none => .ok false

/-- Leaves out the entries whose angles are below a share of a half turn. -/
def compress (share : Operand α) : Change (Circuit α) Unit := do
  let some p := share.toReal? | Change.fail (.unfit .type)
  if !(Scalar.le 0.0 p && Scalar.le p 1.0) then Change.fail .compression
  let c ← get
  let kept ← Change.ofOutcome (c.log.toList.filterMapM fun e => do
    .ok (if ← isNegligible (pi * p) e then none else some e))
  modify fun c => { c with log := kept.toArray }
  update

/-- Moves the qubits of entries, in order; gives the entries as they are left. -/
def moveAll (f : Operand α → Outcome (Operand α)) :
    List (Entry α) → List (Entry α) × Outcome Unit
  | [] => ([], .ok ())
  | e :: rest => match e.mapQubits f with
    | .error fault => (e :: rest, .error fault)
    | .ok e =>
      let (rest, out) := moveAll f rest
      (e :: rest, out)

def moved (positions : Operand α) (x : Operand α) : Outcome (Operand α) := do
  let lookUp (i : Operand α) : Outcome (Operand α) := match i.toInt? with
    | some k => positions.item k
    | none => .error (.unfit .type)
  match x with
  | .list xs => .ok (.list (← xs.mapM lookUp))
  | x => lookUp x

/-- Moves every qubit to the position that a permutation gives it. -/
def changeMapping (positions : Operand α) : Change (Circuit α) Unit := do
  let c ← get
  let xs ← Change.ofOutcome positions.items
  if !(xs.all Operand.isInt) then Change.fail .mappingType
  let numbers := (xs.filterMap Operand.toInt?).eraseDups
  if (numbers.mergeSort fun (a b : Int) => decide (a ≤ b)) ≠ (List.range c.numQubits).map Int.ofNat then
    Change.fail .mappingNotUnique
  if xs.length ≠ c.numQubits then Change.fail .addCount
  let positions := if positions.isSequence then .list xs else positions
  let (log, out) := moveAll (moved positions) c.log.toList
  set { c with log := log.toArray }
  Change.ofOutcome out
  update

def verticalReverse : Change (Circuit α) Unit := do
  let n := (← get).numQubits
  changeMapping (.list ((List.range n).reverse.map fun (i : Nat) => .int i))

def setOperand (i : Int) (k : Key) (x : Operand α) : Change (Circuit α) Unit := do
  let c ← get
  let p ← Change.ofOutcome (Operand.position c.log.size i)
  set { c with log := c.log.modify p fun e => e.put k x }

def setGate (i : Int) (name : String) : Change (Circuit α) Unit := do
  let c ← get
  let p ← Change.ofOutcome (Operand.position c.log.size i)
  set { c with log := c.log.modify p fun e => { e with
    gate := some (.ofText name)
    gateAt := if e.gate.isSome then e.gateAt else e.operands.length } }

def forgetDefinition (i : Int) : Change (Circuit α) Unit := do
  let c ← get
  let p ← Change.ofOutcome (Operand.position c.log.size i)
  set { c with log := c.log.modify p fun e => { e with definition := .null } }

end Circuit

/-! ### Reverse

Running a log backwards.  The inverse of an entry has its angles negated or its gate exchanged; an
entry that has neither and is not its own inverse is replaced by the reversal of its definition.
-/

variable {α : Type} [Scalar α]

/-- An entry that was inverted in place, and the entries that are to replace it, if any. -/
structure Inverted (α : Type) where
  entry : Entry α
  replacement : Option (List (Entry α))

namespace Entry

def negateAngles (x : Operand α) : Outcome (Operand α) := do
  .ok (.list [← (← x.item 0).negate, ← (← x.item 2).negate, ← (← x.item 1).negate])

def conjugateNumber (x : Operand α) : Outcome (Operand α) :=
  match x with
  | .complex z => .ok (.complex z.conj)
  | .int i | .int64 i => .ok (.int64 i)
  | .array t => .ok (.array (t.map Cplx.conj))
  | x => do .ok (.real (← x.toReal))

def conjugateArray (x : Operand α) : Outcome (Operand α) :=
  match Grid.tensor? x with
  | none => .error (.unfit .type)
  | some t => match t.toMat? with
    | some M => .ok (.array { Tensor.ofMat M.adjoint with element := t.element })
    | none => .ok (.array (t.map Cplx.conj))

/-- The gate that undoes a fixed gate which is not its own inverse. -/
def flippedGate? (g : GateName) : Option GateName :=
  match g with
  | .known (.of b r) => b.flip?.map fun b => .known (.of b r)
  | _ => none

def isSelfInverse (g : GateName) : Bool :=
  match g with
  | .known (.of b _) => b.isInvolution
  | .unknown s => s == "I"
  | _ => false

def change (e : Entry α) (k : Key) (f : Operand α → Outcome (Operand α)) : Outcome (Entry α) := do
  match e.get? k with
  | some x => .ok (e.put k (← f x))
  | none => .ok e

def invertingKey? (e : Entry α) : Option (Key × (Operand α → Outcome (Operand α))) :=
  [(.angle, Operand.negate), (.angles, negateAngles), (.power, Operand.negate),
    (.diagonal, fun x => do .ok (.list (← (← x.items).mapM conjugateNumber))),
    (.gates, fun x => do .ok (.list (← (← x.items).mapM conjugateArray)))].find?
      fun (p : Key × (Operand α → Outcome (Operand α))) => (e.get? p.1).isSome

/-- Puts the replacements into a reversed log.  Each is put at the place its entry had before any
replacement was made. -/
def splice : List (Option (List (Entry α))) → Nat → List (Entry α) → List (Entry α)
  | [], _, log => log
  | none :: rest, i, log => splice rest (i + 1) log
  | some xs :: rest, i, log => splice rest (i + 1) (log.take i ++ xs ++ log.drop (i + 1))

def assemble (inverted : List (Inverted α)) : List (Entry α) :=
  splice (inverted.map (·.replacement)) 0 (inverted.map (·.entry))

mutual

def invert : Entry α → Entry α × Outcome (Inverted α)
  | ⟨gate, operands, gateAt, definition⟩ =>
    let e : Entry α := ⟨gate, operands, gateAt, definition⟩
    let body := invertDefinition definition
    match e.invertingKey? with
    | some (k, f) => match e.change k f with
      | .ok e => (e, .ok ⟨e, none⟩)
      | .error f => (e, .error f)
    | none => match gate with
      | none => (e, .error (.unfit .key))
      | some g => match flippedGate? g with
        | some h => let e := { e with gate := some h }; (e, .ok ⟨e, none⟩)
        | none =>
          if isSelfInverse g then (e, .ok ⟨e, none⟩)
          else match body with
            | none => (e, .ok ⟨e, none⟩)
            | some (kept, out) =>
              let e := { e with definition := .entries kept }
              match out with
              | .ok done => (e, .ok ⟨e, some (assemble done)⟩)
              | .error f => (e, .error f)

def invertDefinition : Definition (Entry α) →
    Option (List (Entry α) × Outcome (List (Inverted α)))
  | .lost | .null | .entries [] => none
  | .entries (e :: es) => some (invertAll (e :: es))

/-- Inverts entries in place, the last one first; gives the entries as they are left, and the
inverted ones in reversed order. -/
def invertAll : List (Entry α) → List (Entry α) × Outcome (List (Inverted α))
  | [] => ([], .ok [])
  | e :: rest =>
    let (kept, out) := invertAll rest
    match out with
    | .error f => (e :: kept, .error f)
    | .ok done => match invert e with
      | (e, .ok i) => (e :: kept, .ok (done ++ [i]))
      | (e, .error f) => (e :: kept, .error f)

end

end Entry

namespace Circuit

/-- Reverses the log, inverting its entries if asked, and replays it. -/
def horizontalReverse (inverting : Bool) : Change (Circuit α) Unit := do
  let c ← get
  if inverting then
    let (kept, out) := Entry.invertAll c.log.toList
    set { c with log := kept.toArray }
    let done ← Change.ofOutcome out
    updateWith (Entry.assemble done)
  else updateWith c.log.toList.reverse

end Circuit

end QuantumCircuits
