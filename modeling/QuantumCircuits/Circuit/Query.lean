import QuantumCircuits.Circuit.Rearrange

/-!
# Circuit — Query

Questions about the log: which gates it names and how often, what happens on each qubit, and
whether two logs are equal.
-/

/-! ### Decompose

Replacing entries by their definitions, a number of times or until only elementary gates are left,
and putting a whole circuit under control.
-/

namespace QuantumCircuits

variable {α : Type} [Scalar α]

namespace Entry

def isElementary (e : Entry α) : Outcome Bool :=
  match e.definition with
  | .lost => .error (.unfit .key)
  | .null => .ok false
  | .entries xs => .ok xs.isEmpty

def parts (e : Entry α) : Outcome (List (Entry α)) :=
  match e.definition with
  | .lost => .error (.unfit .key)
  | .null => .error (.unfit .type)
  | .entries [] => .ok [e]
  | .entries xs => .ok xs

mutual

def depth : Entry α → Nat
  | ⟨_, _, _, d⟩ => definitionDepth d + 1

def definitionDepth : Definition (Entry α) → Nat
  | .lost | .null => 0
  | .entries xs => depths xs

def depths : List (Entry α) → Nat
  | [] => 0
  | e :: rest => max (depth e) (depths rest)

end

end Entry

namespace Circuit

def layer (log : List (Entry α)) : Outcome (List (Entry α)) :=
  List.flatten <$> log.mapM Entry.parts

def layers : Nat → List (Entry α) → Outcome (List (Entry α))
  | 0, log => .ok log
  | k + 1, log => do layers k (← layer log)

def isFinal (g : GateName) : Bool :=
  [.of .u3 .plain, .of .x .controlled, .globalPhase, .measure].any fun h => g = .known h

def allFinal (log : List (Entry α)) : Outcome Bool := do
  let names ← log.mapM fun e => match e.gate with
    | some g => Except.ok g
    | none => .error (.unfit .key)
  .ok (names.all isFinal)

/-- Replaces entries by their definitions until all names are final. -/
def layersToEnd : Nat → List (Entry α) → Outcome (List (Entry α))
  | 0, _ => .error (.unfit .recursion)
  | k + 1, log => do if ← allFinal log then .ok log else layersToEnd k (← layer log)

/-- The circuit with its entries replaced by their definitions, as often as asked or until only
elementary gates are left.  Once as often as the definitions are deep, nothing is left to replace. -/
def decompose (c : Circuit α) (reps : Operand α) (full : Bool) : Outcome (Circuit α) := do
  let elementary ← c.log.toList.mapM Entry.isElementary
  if elementary.all id then return c
  let log ← if full then layersToEnd (Entry.depths c.log.toList + 1) c.log.toList
    else match reps.toInt? with
      | some k => layers (min k.toNat (Entry.depths c.log.toList)) c.log.toList
      | none => .error (.unfit .type)
  let (_, target, out) := replay log c.fresh
  let _ ← out
  .ok target

def raise (k : Int) (x : Operand α) : Outcome (Operand α) :=
  match x with
  | .int _ | .bool _ => do .ok (.int ((x.toInt?).getD 0 + k))
  | x => do .ok (.list (← (← x.items).mapM fun i => i.sum (.int k)))

def firstNumbers (k : Int) : List (Operand α) :=
  (List.range k.toNat).map fun (i : Nat) => .int i

/-- One operand of a gate that is put under control. -/
def operandUnder (k : Int) (p : Key × Operand α) : Outcome (Key × Operand α) := do
  if p.1.isQubit then
    match p.1.underControl? with
    | some key => .ok (key, ← raise k p.2)
    | none => .error (.unfit .key)
  else .ok p

/-- The operands of an entry when its gate is put under `k` controls in front of its qubits. -/
def operandsUnder (k : Int) (args : Operands α) : Outcome (Operands α) := do
  let args ← args.mapM (operandUnder k)
  let own : List (Operand α) := match args.lookup .controlIndices with
    | some (.list xs) => xs
    | some x => [x]
    | none => []
  let own := own.filter fun x => match x.toInt? with
    | some i => !(decide (0 ≤ i) && decide (i < k))
    | none => true
  if 2 ^ (63 : Nat) ≤ k then .error (.unfit .overflow)
  .ok ((args.filter fun (key, _) => key ≠ .controlIndices)
    ++ [(.controlIndices, .list (firstNumbers k ++ own))])

def performUnder (k : Int) (e : Entry α) : Change (Circuit α) Unit := do
  let some name := e.gate | Change.fail (.unfit .key)
  let some name := Gate.nameUnderControl name.text | Change.fail (.unfit .index)
  let args ← Change.ofOutcome (operandsUnder k e.operands)
  applyNamed (some (.ofText name)) args

/-- The phase of a circuit, as a phase of its controls. -/
def phaseStep (k : Int) (phase : Operand α) : Change (Circuit α) Unit :=
  if phase.truthy then
    if 2 ^ (63 : Nat) ≤ k then Change.fail (.unfit .overflow)
    else if k = 1 then apply (.of .phase .plain) [(.angle, phase), (.qubitIndices, .int 0)]
    else apply (.of .phase .multi) [(.angle, phase),
      (.controlIndices, .list (firstNumbers k).dropLast), (.targetIndices, .int (k - 1))]
  else pure ()

/-- The circuit under a number of controls, which come before its qubits.  Its global phase becomes
a phase of the controls. -/
def control (c : Circuit α) (controls : Operand α) : Outcome (Circuit α) := do
  let ps ← c.positionsWithout .globalPhase
  let size ← (Operand.int c.numQubits).sum controls
  let target ← new c.framework size
  let k := controls.toInt?.getD 0
  target.after do
    (ps.filterMap fun p => c.log[p]?).forM (performUnder k)
    phaseStep k c.sink.globalPhase

end Circuit

/-! ### Query -/

open Scalar

namespace Operand

mutual

def same : Operand α → Operand α → Bool
  | .none, .none => true
  | .text s, .text t => s == t
  | .list xs, .list ys => sameAll xs ys
  | .tuple xs, .tuple ys => sameAll xs ys
  | .array t, .array u =>
    t.shape == u.shape && (t.entries.zip u.entries).all fun (z, w) => eq z.re w.re && eq z.im w.im
  | x, y => match x.toInt?, y.toInt? with
    | some i, some j => i == j
    | _, _ => match x.toCplx?, y.toCplx? with
      | some z, some w => eq z.re w.re && eq z.im w.im
      | _, _ => false

def sameAll : List (Operand α) → List (Operand α) → Bool
  | [], [] => true
  | x :: xs, y :: ys => same x y && sameAll xs ys
  | _, _ => false

end

end Operand

namespace Entry

def sameOperands (xs ys : Operands α) : Bool :=
  xs.length == ys.length && xs.all fun (k, x) => match ys.lookup k with
    | some y => x.same y
    | none => false

mutual

def same : Entry α → Entry α → Bool
  | ⟨g, xs, _, d⟩, ⟨h, ys, _, e⟩ => g == h && sameOperands xs ys && sameDefinition d e

def sameDefinition : Definition (Entry α) → Definition (Entry α) → Bool
  | .lost, .lost | .null, .null => true
  | .entries xs, .entries ys => sameAll xs ys
  | _, _ => false

def sameAll : List (Entry α) → List (Entry α) → Bool
  | [], [] => true
  | x :: xs, y :: ys => same x y && sameAll xs ys
  | _, _ => false

end

def name (e : Entry α) : Outcome String :=
  match e.gate with
  | some g => .ok g.text
  | none => .error (.unfit .key)

def withoutDefinition (e : Entry α) : Entry α := { e with definition := .lost }

def hasQubits (e : Entry α) : Bool := e.operands.any fun (k, _) => k.isQubit

def qubitNumbers (n : Nat) (e : Entry α) : Outcome (List Nat) := do
  let xs : List (List (Operand α)) ← (e.operands.filter fun (k, _) => k.isQubit).mapM fun (_, x) =>
    if x.isSequence then x.items else .ok [x]
  xs.flatten.mapM fun x => match x with
    | .list _ | .set _ | .array _ => .error (.unfit .type)
    | x => match x.toInt? with
      | some i => if 0 ≤ i ∧ i < n then .ok i.toNat else .error (.unfit .key)
      | none => .error (.unfit .key)

end Entry

namespace Circuit

def sameLog (c d : Circuit α) : Bool := Entry.sameAll c.log.toList d.log.toList

def names (c : Circuit α) : Outcome (List String) := c.log.toList.mapM Entry.name

/-- How often each name is in the log, in the order of first occurrence. -/
def countOps (c : Circuit α) : Outcome (List (String × Nat)) := do
  let names ← c.names
  .ok (names.eraseDups.map fun s => (s, names.count s))

def instructions (c : Circuit α) (measurements : Bool) : Outcome (List (Entry α)) := do
  if measurements then return c.log.toList
  .ok ((← c.positionsWithout .measure).filterMap fun p => c.log[p]?)

/-- Which entries act on which qubits, in order; entries that act on qubits lose their
definitions. -/
def occupationsFrom (n : Nat) : List (Entry α) → List (Entry α) × Outcome (List (Nat × Entry α))
  | [] => ([], .ok [])
  | e :: rest =>
    let e := if e.hasQubits then e.withoutDefinition else e
    match e.qubitNumbers n with
    | .error f => (e :: rest, .error f)
    | .ok qs =>
      let (rest, out) := occupationsFrom n rest
      (e :: rest, do .ok (qs.map (·, e) ++ (← out)))

def perQubit : Change (Circuit α) (List (List (Entry α))) := do
  let c ← get
  let (log, out) := occupationsFrom c.numQubits c.log.toList
  set { c with log := log.toArray }
  let pairs ← Change.ofOutcome out
  pure ((List.range c.numQubits).map fun q => (pairs.filter fun p => p.1 == q).map (·.2))

def cleanQubits : Change (Circuit α) (List Nat) := do
  pure ((← perQubit).zipIdx.filterMap fun (es, q) => if es.isEmpty then some q else none)

def dirtyQubits : Change (Circuit α) (List Nat) := do
  let clean ← cleanQubits
  pure ((List.range (← get).numQubits).filter fun q => !(clean.contains q))

def phaseFactor (c : Circuit α) : Outcome (Cplx α) :=
  Cplx.turn <$> c.sink.globalPhase.toReal

def measureAll : Change (Circuit α) Unit := do
  apply .measure [(.qubitIndices, .list (firstNumbers (← get).numQubits))]

end Circuit

/-! ### Text

How circuits and their logs are written out.
-/

/-- An item of a written entry: the gate's name or an operand. -/
inductive Field (α : Type) where
  | gate (g : GateName)
  | operand (k : Key) (x : Operand α)

namespace Entry

def fields (e : Entry α) : List (Field α) :=
  let operands := e.operands.map fun (k, x) => Field.operand k x
  operands.take e.gateAt ++ (e.gate.map Field.gate).toList ++ operands.drop e.gateAt

def text (e : Entry α) : String :=
  "\x7b" ++ ", ".intercalate (e.fields.map fun
    | .gate g => "'gate': " ++ quoted g.text
    | .operand k x => quoted k.text ++ ": " ++ x.repr) ++ "\x7d"

def callText (e : Entry α) : Outcome String := do
  let name ← e.name
  let args := e.operands.map fun (k, x) => k.text ++ "=" ++ x.shown
  .ok ("circuit." ++ name ++ "(" ++ ", ".intercalate args ++ ")\n")

end Entry

namespace Circuit

def text (c : Circuit α) : String :=
  c.framework.className ++ "(num_qubits=" ++ c.sink.size.shown ++ ")"

def repr (c : Circuit α) : String :=
  c.framework.className ++ "(num_qubits=" ++ c.sink.size.shown ++ ", circuit_log=["
    ++ ", ".intercalate (c.log.toList.map Entry.text) ++ "])"

def calls (c : Circuit α) : Outcome String := do
  .ok (String.join (← c.log.toList.mapM Entry.callText))

end Circuit

end QuantumCircuits
