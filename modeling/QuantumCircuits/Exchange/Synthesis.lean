import QuantumCircuits.Exchange.Evaluate

/-!
# Exchange — Synthesis

Unitaries that are turned into gates outside.  A `Transpiler` hands the matrix to a framework and
reads one- and two-qubit gates back.  A `Generator` has circuits guessed by a trained model and takes
the least deep one among those that come close enough to the matrix.
-/

namespace QuantumCircuits

variable {α : Type} [Scalar α]

open Scalar

def Exchange.lists (reply : Datum α) (x : Operand α) : Outcome Bool := do
  let xs ← (← Exchange.value reply).items
  .ok (xs.any fun y => y.same x)

/-- Synthesis by a framework's transpiler. -/
structure Transpiler (α : Type) where
  /-- A service with a trained model does the work. -/
  assisted : Bool
  plugin : Operand α
  /-- The machine that the service compiles for. -/
  machine : Operand α

namespace Transpiler

/-- The machine that the service is to compile for, which has to be one it knows. -/
def chooseMachine (service machine : Operand α) : Change (Exchange α) (Operand α) := do
  match service, machine with
  | .none, _ => Change.fail .noService
  | _, .none => Change.fail .noBackendName
  | _, .text s =>
    let reply ← Exchange.ask "get_supported_backends"
      [("options", .record [("optimization_level", .int 3)])]
    if ← Change.ofOutcome (Exchange.lists reply (.text s)) then pure (.text s)
    else Change.fail (.backendName s)
  | _, _ => pure .none

def configure (assisted plugin service machine : Operand α) : Change (Exchange α) (Transpiler α) := do
  let machine ← if assisted.truthy then chooseMachine service machine else pure .none
  let reply ← Exchange.ask "unitary_synthesis_plugin_names" []
  if ← Change.ofOutcome (Exchange.lists reply plugin) then pure ⟨assisted.truthy, plugin, machine⟩
  else Change.fail (.plugin plugin.shown)

def request (t : Transpiler α) (c : Foreign α) : Change (Exchange α) (Datum α) :=
  if t.assisted then
    Exchange.ask "transpiler_service_run" [
      ("options", .record [("backend_name", t.machine.toDatum), ("optimization_level", .int 3),
        ("qiskit_transpile_options", .record [("basis_gates", Import.basis),
          ("unitary_synthesis_method", t.plugin.toDatum)]),
        ("ai", .text "true"), ("ai_layout_mode", .text "OPTIMIZE")]),
      ("circuit", c.toDatum)]
  else
    Exchange.ask "transpile" [("circuit", c.toDatum),
      ("options", .record [("unitary_synthesis_method", t.plugin.toDatum),
        ("basis_gates", Import.basis), ("optimization_level", .int 3),
        ("seed_transpiler", .int 0)])]

def perform (qubits : Operand α) (g : ForeignGate α) : Change (Circuit α) Unit := do
  let place (i : Nat) : Outcome (Operand α) := do
    match (← Import.qubit g i).toInt? with
    | some k => qubits.item k
    | none => .error (.unfit .type)
  if g.name == "u" || g.name == "u3" then
    let q ← Change.ofOutcome (place 0)
    Circuit.apply (.of .u3 .plain) [(.angles, .list g.params), (.qubitIndices, q)]
  else
    let c ← Change.ofOutcome (place 0)
    let t ← Change.ofOutcome (place 1)
    Circuit.apply (.of .x .controlled) [(.controlIndex, c), (.targetIndex, t)]

def apply (t : Transpiler α) (unitary qubits : Operand α) : Change (Dialogue α) Unit := do
  let u ← Change.ofOutcome (Shannon.unitaryOf unitary)
  let qubits ← Change.ofOutcome (Shannon.qubitsFor qubits u.numQubits .unitaryQubits)
  let sent := (Foreign.empty .qiskit u.numQubits).push (.unitary u.data u.numQubits)
  let reply ← Dialogue.onExchange (request t sent)
  let c ← Change.ofOutcome (Exchange.circuit sent reply)
  Dialogue.onCircuit (do
    c.gates.forM (perform qubits)
    Circuit.apply .globalPhase [(.angle, c.phase)])

end Transpiler

/-- Synthesis by a trained model. -/
structure Generator (α : Type) where
  /-- The framework that the guessed circuits are taken into. -/
  output : Framework
  model : Operand α
  prompt : Operand α
  mostGates : Operand α
  samples : Operand α
  /-- How close a guess has to come. -/
  fidelity : Operand α

namespace Generator

def usualModel : String := "Floki00/qc_unitary_3qubit"

def usualPrompt : String := "Compile using: ['h', 'cx', 'z', 'ccx', 'swap']"

def check (g : Generator α) : Outcome (Generator α) :=
  match g.fidelity.toReal? with
  | none => .error (.unfit .type)
  | some f => if le 0.0 f && le f 1.0 then .ok g else .error .fidelityRange

def pipeline (g : Generator α) : Datum α :=
  .call "DiffusionPipeline.from_pretrained" []
    [("repo_id", g.model.toDatum), ("device", .call "infer_torch_device" [] [])]

/-- The real and the imaginary parts of a matrix, one behind the other. -/
def layers (data : Tensor α) : Datum α :=
  let layer (f : Cplx α → α) : Datum α :=
    .call "Tensor" [(data.map fun z => .ofReal (f z)).toDatum] []
  .call "stack" [.list [layer Cplx.re, layer Cplx.im]] [("dim", .int 0)]

def guesses (g : Generator α) (u : UnitaryOperator α) : Change (Exchange α) (List (Foreign α)) := do
  let n := Datum.nat u.numQubits
  let tensors ← Exchange.ask "generate_comp_tensors" [
    ("pipeline", g.pipeline), ("prompt", g.prompt.toDatum), ("U", layers u.data),
    ("samples", g.samples.toDatum), ("num_of_qubits", n), ("system_size", n),
    ("max_gates", g.mostGates.toDatum), ("g", .int 10)]
  let reply ← Exchange.ask "convert_tensors_to_circuits" [("out_tensor", tensors),
    ("gate_pool", .record [("name", .text "gate_pool"), ("of", g.pipeline)])]
  match reply with
  | .record [("tuple", .list [.list guessed, _])] =>
    Change.ofOutcome (guessed.mapM (Exchange.circuit (Foreign.empty .qiskit 0)))
  | _ => Change.fail (.unfit .type)

/-- How close two matrices are: the distance from zero of their product's mean. -/
def closeness (n : Nat) (guessed wanted : Array (Cplx α)) : α :=
  let product := (guessed.zip wanted).foldl (fun s (z, w) => s + z.conj * w) Cplx.zero
  product.abs / ofNat (2 ^ n)

def solutions (g : Generator α) (u : UnitaryOperator α) :
    List (Foreign α) → Change (Exchange α) (List (Foreign α))
  | [] => pure []
  | c :: rest => do
    let reply ← Exchange.ask "Operator" [("circuit", c.toDatum)]
    let guessed ← Change.ofOutcome (Exchange.value reply)
    let found := match Grid.tensor? guessed, g.fidelity.toReal? with
      | some t, some f => lt f (closeness u.numQubits t.entries u.data.entries)
      | _, _ => false
    let others ← solutions g u rest
    pure (if found then c :: others else others)

def leastDeep : List (Foreign α) → Option (Foreign α)
  | [] => none
  | c :: rest => match leastDeep rest with
    | none => some c
    | some d => if d.depth.toInt?.getD 0 < c.depth.toInt?.getD 0 then some d else some c

def solve (g : Generator α) (u : UnitaryOperator α) : Change (Exchange α) (Circuit α) := do
  match leastDeep (← solutions g u (← guesses g u)) with
  | some c => Import.fromForeign .qiskit g.output c
  | none => Change.fail (.noSolution g.fidelity.shown)

def apply (g : Generator α) (unitary qubits : Operand α) : Change (Dialogue α) Unit := do
  let u ← Change.ofOutcome (Shannon.unitaryOf unitary)
  let qubits ← Change.ofOutcome (Shannon.qubitsFor qubits u.numQubits .unitaryQubits)
  if g.model.same (.text usualModel) && u.numQubits ≠ 3 then Change.fail .modelQubits
  let c ← Dialogue.onExchange (solve g u)
  Dialogue.onCircuit (Circuit.add c qubits)

end Generator

/-- The ways to emit a unitary, within the library and outside of it. -/
inductive Realization (α : Type) where
  | within (s : Synthesis)
  | transpiled (t : Transpiler α)
  | generated (g : Generator α)

namespace Realization

def apply (R : Routines α) (r : Realization α) (unitary qubits : Operand α) :
    Change (Dialogue α) Unit :=
  match r with
  | .within s => Dialogue.onCircuit (s.apply R unitary qubits)
  | .transpiled t => t.apply unitary qubits
  | .generated g => g.apply unitary qubits

def prepare (R : Routines α) (r : Realization α) (output : Framework) (unitary : Operand α) :
    Change (Exchange α) (Circuit α) := do
  let u ← Change.ofOutcome (Shannon.unitaryOf unitary)
  let blank ← Change.ofOutcome (Circuit.new output (.int u.numQubits))
  let (out, d) := Change.perform (r.apply R (.operator u) (.range 0 u.numQubits 1))
    ⟨← get, blank⟩
  set d.exchange
  let _ ← Change.ofOutcome out
  pure d.circuit

end Realization

namespace Dialogue

def rebuild (R : Routines α) (r : Realization α) (output : Framework) : Change (Dialogue α) Unit := do
  let u ← unitary
  replaceBy (← onExchange (r.prepare R output u))

/-- Rebuilds the circuit from its unitary by the usual transpiler. -/
def rebuildOutside (R : Routines α) : Change (Dialogue α) Unit := do
  let t ← onExchange (Transpiler.configure (.bool false) (.text "default") .none .none)
  rebuild R (.transpiled t) (← get).circuit.framework

end Dialogue

end QuantumCircuits
