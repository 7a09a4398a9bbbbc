import QuantumCircuits.Exchange.Import

/-!
# Exchange — Backend

Things that run circuits.  A backend takes circuits of one framework, perhaps of a limited size, and
converts all others; `Backend.receive` is this common entrance.  What running gives is asked for.
-/

/-! ### Counts

How often outcomes were measured.  `Counts` are numbers by bit string, in the order in which they
arrived.  `Counts.complete` gives every outcome of the measured qubits a number, and
`Counts.restrict` drops the bits of qubits that were not measured.
-/

namespace QuantumCircuits

abbrev Counts (α : Type) := List (String × Operand α)

namespace Counts

variable {α : Type} [Scalar α]

def get? (c : Counts α) (outcome : String) : Option (Operand α) := c.lookup outcome

/-- Sets the number of an outcome, in its old place or at the end. -/
def put (c : Counts α) (outcome : String) (n : Operand α) : Counts α :=
  if c.any fun p => p.1 == outcome then c.map fun p => if p.1 == outcome then (outcome, n) else p
  else c ++ [(outcome, n)]

def bits : Nat → Nat → List Char
  | 0, _ => []
  | m + 1, i => (if i.testBit m then '1' else '0') :: bits m i

/-- All outcomes of `m` qubits, in increasing order; an outcome has at least one bit. -/
def outcomes (m : Nat) : List String :=
  (List.range (2 ^ m)).map fun i => String.ofList (bits (max m 1) i)

/-- Every outcome of `m` qubits with its number, zero if it has none. -/
def complete (m : Nat) (c : Counts α) : Counts α :=
  (outcomes m).map fun s => (s, (c.get? s).getD (.int 0))

def keep (measured : List (Operand α)) (cs : List Char) : List Char :=
  (cs.zipIdx.filter fun (_, i) => measured.any fun q => q.toInt? == some (i : Int)).map (·.1)

/-- Drops the qubits that were not measured; the first bit belongs to the first qubit. -/
def restrict (measured : List (Operand α)) (c : Counts α) : Counts α :=
  c.foldl (fun kept (s, n) => kept.put (String.ofList (keep measured s.toList)) n) []

/-- Drops the qubits that were not measured; the last bit belongs to the first qubit. -/
def restrictReversed (measured : List (Operand α)) (c : Counts α) : Counts α :=
  c.foldl (fun kept (s, n) =>
    kept.put (String.ofList (keep measured s.toList.reverse).reverse) n) []

def ofRecord (reply : Datum α) : Outcome (Counts α) :=
  match reply with
  | .record [("counts", d)] => d.fields.mapM fun (s, n) => do .ok (s, ← Exchange.value n)
  | _ => .error (.unfit .name)

def joined (bits : Datum α) : String :=
  String.join (bits.items.map fun b => toString b.whole)

def ofHistogram (reply : Datum α) : Outcome (Counts α) := do
  let pairs ← reply.items.mapM fun d => match d.items with
    | [bits, n] => do .ok (joined bits, ← Exchange.value n)
    | _ => .error (.unfit .type)
  .ok (pairs.foldl (fun c (s, n) => c.put s n) [])

/-- Outcomes that are missing get the number zero, and all are put in order. -/
def fill (m : Nat) (c : Counts α) : Counts α :=
  let filled := (outcomes m).foldl (fun c s =>
    if (c.get? s).isSome then c else c.put s (.int 0)) c
  filled.mergeSort fun p q => decide (p.1 ≤ q.1)

def toDatum (c : Counts α) : Datum α := .record (c.map fun (s, n) => (s, n.toDatum))

def index (s : String) : Nat := s.toList.foldl (fun n c => 2 * n + if c == '1' then 1 else 0) 0

/-- The state whose amplitudes are the roots of the counts, scaled to length one. -/
def amplitudes (n : Nat) (c : Counts α) : Amplitudes α :=
  let roots := c.foldl (fun (v : Amplitudes α) (s, k) =>
    v.setIfInBounds (index s) (.ofReal (Scalar.sqrt (k.toReal?.getD 0.0))))
    (Array.replicate (2 ^ n) Cplx.zero)
  let length := (Tensor.vector roots).norm
  roots.map (Cplx.shrink · length)

end Counts

/-! ### Backend -/

/-- The kinds of backend. -/
inductive BackendKind where
  /-- Backends that only pass circuits on. -/
  | plain | noisy | bounded
  /-- A simulator, with or without noise. -/
  | simulator
  /-- A simulator of a given piece of hardware. -/
  | hardware
  /-- A backend that answers by itself. -/
  | remote
deriving DecidableEq, Repr

/-- A backend. -/
structure Backend (α : Type) where
  kind : BackendKind
  device : Operand α
  /-- The framework whose circuits it takes. -/
  framework : Framework
  /-- The error rates of gates on one and on two qubits. -/
  rates : Option (Operand α × Operand α)
  hardware : String
  mostQubits : Option Nat
  /-- Where the simulator runs: nothing stands for the usual place. -/
  accelerator : Option String

variable {α : Type} [Scalar α]

open Scalar

namespace Backend

/-! ### Building -/

def checkDevice (device : Operand α) : Outcome Unit :=
  match device with
  | .text "CPU" | .text "GPU" => .ok ()
  | x => .error (.device x.shown)

def checkRate (rate : Operand α) (fault : Fault) : Outcome Unit :=
  match rate.toReal? with
  | none => .error (.unfit .type)
  | some r => if lt r 0.0 || lt 1.0 r then .error fault else .ok ()

def basic (kind : BackendKind) (framework : Framework) (device : Operand α) : Outcome (Backend α) := do
  checkDevice device
  .ok ⟨kind, device, framework, none, "", none, none⟩

def bounded (framework : Framework) (most : Nat) (device : Operand α) : Outcome (Backend α) := do
  .ok { ← basic .bounded framework device with mostQubits := some most }

def withRates (kind : BackendKind) (framework : Framework) (single two device : Operand α) :
    Outcome (Backend α) := do
  let b ← basic kind framework device
  checkRate single .singleQubitError
  checkRate two .twoQubitError
  .ok { b with rates := some (single, two) }

def isNoisy (b : Backend α) : Bool :=
  match b.rates with
  | some (single, two) => [single, two].any fun r => lt 0.0 (r.toReal?.getD 0.0)
  | none => false

def wantsAccelerator (b : Backend α) : Bool :=
  match b.device with
  | .text s => s == "GPU"
  | _ => false

/-- A simulator; it runs on the fast device if that is wanted and there is one. -/
def simulator (single two device : Operand α) : Change (Exchange α) (Backend α) := do
  let b ← Change.ofOutcome (withRates .simulator .qiskit single two device)
  let reply ← Exchange.ask "available_devices" []
  let devices ← Change.ofOutcome (do (← Exchange.value reply).items)
  let found := devices.any fun
    | .text s => s == "GPU"
    | _ => false
  pure { b with accelerator := if found && b.wantsAccelerator then some "GPU" else none }

def deviceEntry (reply : Datum α) : Outcome (Operand α) :=
  match reply with
  | .record [("counts", d)] => match d.field? "GPU" with
    | some x => Exchange.value x
    | none => .error (.unfit .key)
  | _ => .error (.unfit .type)

/-- The simulator of a piece of hardware, which has to be among those there are. -/
def ofHardware (known : List (String × Nat)) (name : String) (device : Operand α) :
    Change (Exchange α) (Backend α) := do
  let b ← Change.ofOutcome (basic .hardware .qiskit device)
  let some most := known.lookup name | Change.fail (.hardware name)
  let reply ← Exchange.ask "available_devices" []
  let b := { b with hardware := name, mostQubits := some most }
  if !b.wantsAccelerator then return b
  match ← Change.ofOutcome (deviceEntry reply) with
  | .none =>
    Exchange.printLine "Warning: GPU acceleration is not available. Defaulted to CPU."
    pure b
  | x => pure { b with accelerator := if x.truthy then some "GPU" else none }

/-! ### Descriptions -/

def options (b : Backend α) : List (String × Datum α) :=
  (if b.kind == .hardware then [("from_backend", .text b.hardware)] else [])
    ++ (b.accelerator.map fun s => ("device", .text s)).toList
    ++ (if b.isNoisy then [("noise_model", .call "NoiseModel" [] [])] else [])

def operatorOptions (b : Backend α) : List (String × Datum α) :=
  b.options ++ [("method", .text "unitary")]

def rateFields (b : Backend α) : List (String × Operand α) :=
  match b.rates with
  | some (single, two) => [("single_qubit_error", single), ("two_qubit_error", two),
      ("noisy", .bool b.isNoisy)]
  | none => []

def toDatum (b : Backend α) : Datum α :=
  let framework := [("_qc_framework", Datum.text b.framework.className)]
  let simulators : List (String × Datum α) :=
    [("_counts_backend", .record [("sampler", .record [("simulator", .record b.options)])]),
      ("_op_backend", .record [("simulator", .record b.operatorOptions)])]
  let rates := b.rateFields.map fun (k, x) => (k, match x with
    | .bool b => Datum.bool b
    | x => x.toRealDatum)
  .record (("device", b.device.toDatum) :: rates ++ match b.kind with
    | .plain | .noisy | .bounded => []
    | .remote => framework
    | .simulator => framework ++ simulators
    | .hardware => framework ++ simulators ++ [("_backend_name", .text b.hardware),
        ("_max_num_qubits", .nat (b.mostQubits.getD 0))])

def text (name : String) (b : Backend α) : String :=
  name ++ "(" ++ ", ".intercalate ((("device", b.device) :: b.rateFields).map fun (k, x) =>
    k ++ "=" ++ x.shown) ++ ")"

/-! ### Running -/

def checkShots (shots : Operand α) : Outcome Unit :=
  if shots.isInt && decide (0 < shots.toInt?.getD 0) then .ok () else .error .shots

def receive (b : Backend α) (shots : Option (Operand α)) : Change (Dialogue α) (Circuit α) := do
  match shots with
  | some s => Change.ofOutcome (checkShots s)
  | none => pure ()
  let n := (← get).circuit.numQubits
  match b.mostQubits with
  | some m => if m < n then Change.fail (.tooManyQubits (toString m))
  | none => pure ()
  Dialogue.inFramework b.framework

def usualShots : Operand α := .int 1024

def askRemote (name : String) (details : List (String × Datum α)) : Change (Dialogue α) (Datum α) := do
  let c := (← get).circuit
  Dialogue.ask name ([("framework", .text c.framework.className),
    ("log", .list (Entry.toData false c.log.toList))] ++ details)

/-- Runs the circuit and counts outcomes; only measured qubits count. -/
def sample (b : Backend α) (shots : Operand α) : Change (Dialogue α) (Counts α) := do
  let measured := (← get).circuit.sink.measured
  let reply ← Dialogue.askAbout "sampler_run"
    [("simulator", .record b.options), ("shots", shots.toDatum)]
  let counts ← Change.ofOutcome (Counts.ofRecord reply)
  pure ((counts.restrictReversed measured).complete measured.length)

def countsOf (b : Backend α) (shots : Operand α) : Change (Dialogue α) (Counts α) := do
  match b.kind with
  | .simulator =>
    if (← get).circuit.sink.measured.isEmpty then Change.fail .noMeasuredQubit
    Dialogue.onCopy (do
      Dialogue.transpile
      sample b shots)
  | .hardware => sample b shots
  | _ =>
    let reply ← askRemote "backend.get_counts" [("num_shots", shots.toDatum)]
    Change.ofOutcome (Counts.ofRecord reply)

def counts (b : Backend α) (shots : Option (Operand α)) : Change (Dialogue α) (Counts α) := do
  Dialogue.about (← receive b shots) (countsOf b (shots.getD usualShots))

def estimate (b : Backend α) : Change (Dialogue α) (Operand α) := do
  let n := (← get).circuit.numQubits
  let c ← counts b (some (.int (2 ^ (2 * n) : Nat)))
  pure (.array (.vector (c.amplitudes n)))

def largeSize : Nat := 10

def stateVector (b : Backend α) : Change (Dialogue α) (Operand α) := do
  Dialogue.about (← receive b none) (match b.kind with
    | .simulator => do
      Dialogue.transpile
      if (← get).circuit.numQubits < largeSize && !b.isNoisy then
        Dialogue.onCircuit Circuit.removeMeasurements
        let reply ← Dialogue.askAbout "Statevector" []
        Change.ofOutcome (Exchange.array reply)
      else
        Dialogue.onCircuit Circuit.measureAll
        estimate b
    | .hardware => estimate b
    | _ => do
      let reply ← askRemote "backend.get_statevector" []
      Change.ofOutcome (Exchange.array reply))

def simulateOperator (b : Backend α) : Change (Dialogue α) (Operand α) := do
  Dialogue.onCircuit (Circuit.emitting (Sink.send .saveUnitary))
  let reply ← Dialogue.askAbout "simulator_run" [("simulator", .record b.operatorOptions)]
  Change.ofOutcome (Exchange.array reply)

def exactOperator : Change (Dialogue α) (Operand α) := do
  let reply ← Dialogue.askAbout "Operator" []
  Change.ofOutcome (Exchange.array reply)

def operator (b : Backend α) : Change (Dialogue α) (Operand α) := do
  Dialogue.about (← receive b none) (match b.kind with
    | .simulator => do
      Dialogue.onCircuit Circuit.removeMeasurements
      Dialogue.transpile
      if (← get).circuit.numQubits < largeSize && !b.isNoisy then exactOperator
      else simulateOperator b
    | .hardware => do
      if (← get).circuit.numQubits < largeSize then exactOperator else simulateOperator b
    | _ => do
      let reply ← askRemote "backend.get_operator" []
      Change.ofOutcome (Exchange.array reply))

end Backend

end QuantumCircuits
