import QuantumCircuits.Circuit.Query

/-!
# Dag — Circuit

The dependency graph of a circuit: a node for each qubit and each operation, and an edge from the
last operation on a qubit to the next one.
-/

/-! ### Nodes

Named nodes with edges to their children.  The children and the parents of a node are sets: a node
is in a set once, where two nodes are equal when they have the same name and equal children.  A node
remembers its depth until an edge makes that doubtful.
-/

namespace QuantumCircuits.Dag

/-- A node; other nodes are known by their numbers. -/
structure Node where
  name : Option String
  parents : List Nat
  children : List Nat
  depth : Option Nat
deriving Repr

abbrev Graph := Array Node

namespace Graph

def node (g : Graph) (i : Nat) : Node := g.getD i ⟨none, [], [], none⟩

def bound (g : Graph) : Nat := g.size + 1

mutual

/-- Equality of nodes: the same name and equal children, looked into to a given depth. -/
def equalAt (g : Graph) : Nat → Nat → Nat → Outcome Bool
  | 0, _, _ => .error (.unfit .recursion)
  | d + 1, i, j =>
    let (a, b) := (g.node i, g.node j)
    if a.name == b.name && a.children.length == b.children.length then
      includedAt g d a.children b.children
    else .ok false

def includedAt (g : Graph) : Nat → List Nat → List Nat → Outcome Bool
  | _, [], _ => .ok true
  | d, i :: rest, set => do
    if ← memberAt g d i set then includedAt g d rest set else .ok false

def memberAt (g : Graph) : Nat → Nat → List Nat → Outcome Bool
  | _, _, [] => .ok false
  | d, i, j :: rest => do
    if i == j then .ok true
    else if (g.node i).name == (g.node j).name then
      if ← equalAt g d j i then .ok true else memberAt g d i rest
    else memberAt g d i rest

end

def equal (g : Graph) (i j : Nat) : Outcome Bool := equalAt g g.bound i j

def insert (g : Graph) (i : Nat) (set : List Nat) : Outcome (List Nat) := do
  .ok (if ← memberAt g g.bound i set then set else set ++ [i])

def forgetAt : Nat → Nat → Change Graph Unit
  | 0, _ => Change.fail (.unfit .recursion)
  | d + 1, i => do
    let a := (← get).node i
    if a.depth.isNone then Change.fail (.unfit .name)
    modify fun g => g.setIfInBounds i { a with depth := none }
    a.parents.forM (forgetAt d)

def connect (i j : Nat) : Change Graph Unit := do
  let g ← get
  let children ← Change.ofOutcome (g.insert j (g.node i).children)
  modify fun g => g.setIfInBounds i { g.node i with children }
  let g ← get
  let parents ← Change.ofOutcome (g.insert i (g.node j).parents)
  modify fun g => g.setIfInBounds j { g.node j with parents }
  if ((← get).node i).depth.isSome then forgetAt (← get).bound i

def depthAt : Nat → Nat → Change Graph Nat
  | 0, _ => Change.fail (.unfit .recursion)
  | d + 1, i => do
    let a := (← get).node i
    if a.children.isEmpty then
      modify fun g => g.setIfInBounds i { a with depth := some 0 }
      pure 0
    else match a.depth with
      | some k => pure k
      | none =>
        let below ← a.children.mapM (depthAt d)
        let k := below.foldl max 0 + 1
        modify fun g => g.setIfInBounds i { g.node i with depth := some k }
        pure k

def depth (i : Nat) : Change Graph Nat := do depthAt (← get).bound i

def pathsAt (g : Graph) : Nat → Nat → Outcome (List (List (Option String)))
  | 0, _ => .error (.unfit .recursion)
  | d + 1, i => do
    let a := g.node i
    if a.children.isEmpty then .ok [[a.name]]
    else
      let below ← a.children.mapM (pathsAt g d)
      .ok (below.flatten.map (a.name :: ·))

def nameLe : Option String → Option String → Bool
  | some a, some b => decide (a ≤ b)
  | none, _ => true
  | some _, none => false

def pathLe : List (Option String) → List (Option String) → Bool
  | [], _ => true
  | _ :: _, [] => false
  | a :: as, b :: bs => if a == b then pathLe as bs else nameLe a b

def paths (g : Graph) (i : Nat) : Outcome (List (List (Option String))) := do
  .ok ((← pathsAt g g.bound i).eraseDups.mergeSort pathLe)

def textAt (g : Graph) : Nat → Nat → Outcome String
  | 0, _ => .error (.unfit .recursion)
  | d + 1, i => do
    let a := g.node i
    let name := a.name.getD "None"
    if a.children.isEmpty then .ok name
    else
      let below ← a.children.mapM (textAt g d)
      .ok (name ++ " -> \x7b" ++ ", ".intercalate below ++ "\x7d")

def text (g : Graph) (i : Nat) : Outcome String := textAt g g.bound i

def names (g : Graph) (set : List Nat) : List (Option String) :=
  (set.map fun i => (g.node i).name).mergeSort nameLe

def add (name : Option String) : Change Graph Nat := do
  let g ← get
  set (g.push ⟨name, [], [], none⟩)
  pure g.size

end Graph

end QuantumCircuits.Dag

/-! ### Circuit -/

namespace QuantumCircuits

namespace Dag

/-- A dependency graph: the operations on each qubit so far, the qubit's own node first. -/
structure Circuit where
  graph : Graph
  wires : List (List Nat)
deriving Repr

namespace Circuit

variable {α : Type}

def wireName (q : Nat) : String := "Q" ++ toString q

def empty (n : Nat) : Circuit :=
  { graph := (Array.range n).map fun q => ⟨some (wireName q), [], [], none⟩
    wires := (List.range n).map fun q => [q] }

def onGraph {β : Type} (x : Change Graph β) : Change Circuit β := fun d =>
  let (out, graph) := Change.perform x d.graph
  (out, { d with graph })

def occupy (node : Nat) (x : Operand α) : Change Circuit Unit := do
  match x with
  | .int i =>
    if i < 0 then Change.fail (.unfit .key)
    match (← get).wires[i.toNat]? with
    | none => Change.fail (.unfit .key)
    | some wire =>
      modify fun d => { d with wires := d.wires.set i.toNat (wire ++ [node]) }
      match wire.getLast? with
      | some last => onGraph (Graph.connect last node)
      | none => pure ()
  | _ => Change.fail (.unfit .key)

/-- The qubits that an operation occupies, in the order of its operands. -/
def occupied (operands : Operands α) : List (Operand α) :=
  operands.flatMap fun (k, x) =>
    if k.isQubit then match x with
      | .list xs => xs
      | .int _ | .bool _ => [x]
      | _ => []
    else []

def addOperation (name : Option String) (operands : Operands α) : Change Circuit Unit := do
  let some name := name | Change.fail (.unfit .key)
  let node ← onGraph (Graph.add (some name))
  (occupied operands).forM (occupy node)

def depth : Change Circuit Nat := do
  let n := (← get).wires.length
  if n = 0 then Change.fail (.unfit .value)
  let ds ← (List.range n).mapM fun q => onGraph (Graph.depth q)
  pure (ds.foldl max 0)

def overview : Change Circuit (List (String × Nat × List (List (Option String)))) := do
  let n := (← get).wires.length
  (List.range n).mapM fun q => do
    let d ← onGraph (Graph.depth q)
    let ps ← Change.ofOutcome ((← get).graph.paths q)
    pure (wireName q, d, ps)

def text (d : Circuit) : Outcome String := do
  let lines ← (List.range d.wires.length).mapM fun q => do
    .ok (wireName q ++ ": " ++ (← d.graph.text q))
  .ok ("\n".intercalate lines)

end Circuit

end Dag

namespace Circuit

variable {α : Type} [Scalar α]

def dag (c : Circuit α) : Outcome Dag.Circuit :=
  let program := c.log.toList.forM fun e =>
    Dag.Circuit.addOperation (e.gate.map GateName.text) e.operands
  match Change.perform program (Dag.Circuit.empty c.numQubits) with
  | (.ok _, d) => .ok d
  | (.error f, _) => .error f

end Circuit

end QuantumCircuits
