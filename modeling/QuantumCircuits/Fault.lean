/-!
# Fault

What can go wrong, by cause.  `Fault.category` sorts the causes, and `Fault.message` is the one
place that words them; a fault that only says that an operand does not fit has no wording.
-/

namespace QuantumCircuits

/-- The sorts of faults. -/
inductive Category where
  | type | value | index | key | name | overflow | division | unbound | unsupported | recursion
  | noReply | singular | unset
deriving DecidableEq, Repr

/-- A kind of vector, named in the faults of building one. -/
inductive VectorKind where
  | ket | bra
deriving DecidableEq, Repr

def VectorKind.word : VectorKind → String
  | .ket => "ket"
  | .bra => "bra"

/-- What can go wrong. -/
inductive Fault where
  -- an operand does not fit, in one of the ways a category names
  | unfit (c : Category)
  -- circuits and calls
  | sizeType
  | sizeTooSmall
  | indexType (type : String)
  | indexRange (index : String) (last : Int)
  | duplicateQubits (received : String)
  | angleType (type : String)
  | controlStateLength
  | angleCount (n : Nat)
  | controlAngleCount (controls angles : Nat)
  | rotationAxis (received : String)
  | diagonalLength
  | diagonalQubits
  | diagonalModulus
  | gateShape (shape : String)
  | gateCount
  | gateControls (received expected : Nat)
  | gateNotUnitary
  | degreeType
  | degreeNegative
  | notCircuit
  | addIndexType
  | addCount
  | compression
  | mappingType
  | mappingNotUnique
  | convertFramework
  | compareCircuit
  -- synthesis
  | outputFramework
  | stateType (type : String)
  | operatorType (type : String)
  | preparedIndexType
  | stateQubits
  | unitaryQubits
  | basis (received : String)
  | oneQubitIndices (received : Nat)
  | oneQubitShape (shape : String)
  | twoQubitIndices
  | twoQubitShape
  | rightDeterminant
  | leftDeterminant
  | productDeviation
  | su2Shape (shape : String)
  | su2NotUnitary
  | su2Determinant
  | su2Diagonal
  | controlCount (gate : String) (allowed : String) (received : Nat)
  | chainQubits (received required : Nat)
  | chainAncillas (received required : Nat)
  -- states, operators and gate matrices
  | scalarVector (k : VectorKind)
  | operatorVector (k : VectorKind)
  | deepVector (k : VectorKind)
  | indexing
  | incompatibleSum
  | incompatibleContraction
  | incompatibleVectors
  | incompatibleKet
  | incompatibleOperators
  | noEquality (type : String)
  | noAddition (type : String)
  | noMultiplication (type : String)
  | operatorNotSquare
  | operatorDimension
  | operatorNotComplex
  | operatorNotUnitary
  | matrixNotUnitary
  | controlsType
  | controlsTooFew
  | ordering
  | nodeType (type : String)
  -- compiling and running
  | compilerFramework
  | compilerState
  | compilerUnitary
  | compilerOptimizer
  | noOptimizer
  | primitiveType
  | primitiveValue
  | primitiveShape
  | primitiveQubits
  | device (received : String)
  | runCircuitType (type : String)
  | shots
  | tooManyQubits (most : String)
  | singleQubitError
  | twoQubitError
  | nothingMeasured
  | noMeasuredQubit
  | qasmVersion
  | importFramework (type : String)
  | hardware (name : String)
  | plugin (name : String)
  | noService
  | noBackendName
  | backendName (name : String)
  | fidelityRange
  | modelQubits
  | noSolution (fidelity : String)
deriving Inhabited, DecidableEq, Repr

namespace Fault

def category : Fault → Category
  | .unfit c => c
  | .indexRange .. => .index
  | .sizeType | .indexType _ | .angleType _ | .degreeType | .notCircuit | .addIndexType
  | .mappingType | .convertFramework | .compareCircuit | .outputFramework | .stateType _
  | .operatorType _ | .preparedIndexType | .controlsType | .nodeType _ | .compilerFramework
  | .compilerState | .compilerUnitary | .compilerOptimizer | .primitiveType | .runCircuitType _
  | .importFramework _ => .type
  | .noEquality _ | .noAddition _ | .noMultiplication _ => .unsupported
  | _ => .value

def message : Fault → Option String
  | .unfit _ | .rightDeterminant | .leftDeterminant | .productDeviation | .su2NotUnitary => none
  | .sizeType => some "Number of qubits must be integers."
  | .sizeTooSmall => some "Number of qubits must be greater than 0."
  | .indexType t => some s!"Qubit index must be an integer. Unexpected type {t} received."
  | .indexRange i last => some s!"Qubit index {i} out of range {last}."
  | .duplicateQubits r => some s!"Qubit indices must be unique. Received {r} instead."
  | .angleType t => some s!"Angle must be a number. Unexpected type {t} received."
  | .controlStateLength => some "Control state and control indices must have the same length."
  | .angleCount n => some s!"The number of angles must be a power of 2. Received {n}."
  | .controlAngleCount c a => some (s!"The number of control qubits must be equal to the log2 number "
      ++ s!"of angles. Received {c} control qubits and {a} angles.")
  | .rotationAxis r => some s!"Invalid rotation axis. Expected 'X', 'Y' or 'Z'. Received {r}."
  | .diagonalLength => some "The number of diagonal entries is not a positive power of 2."
  | .diagonalQubits => some ("The number of qubits passed must be the same as "
      ++ "the number of qubits needed to prepare the diagonal.")
  | .diagonalModulus => some "A diagonal element does not have absolute value one."
  | .gateShape s => some s!"The dimension of a gate is not equal to 2x2. Received {s}."
  | .gateCount => some "The number of single-qubit gates is not a non-negative power of 2."
  | .gateControls r e => some ("The number of control qubits passed must be equal to the number of "
      ++ s!"gates. Received {r}. Expected {e}.")
  | .gateNotUnitary => some "A gate is not unitary."
  | .degreeType => some "Approximation degree must be an integer."
  | .degreeNegative => some "Approximation degree must be non-negative."
  | .notCircuit => some "The circuit must be a Circuit object."
  | .addIndexType => some "Qubit index must be an integer."
  | .addCount => some "The number of qubits must match the number of qubits in the circuit."
  | .compression => some "The compression percentage must be between 0 and 1."
  | .mappingType => some "Qubit indices must be a collection of integers."
  | .mappingNotUnique => some "Qubit indices must be unique."
  | .convertFramework =>
    some "The circuit framework must be a subclass of `quick.circuit.Circuit`."
  | .compareCircuit => some "Circuits must be compared with other circuits."
  | .outputFramework => some "The output framework must be a subclass of quick.circuit.Circuit."
  | .stateType t =>
    some s!"The state must be a numpy array or a Bra/Ket object. Received {t} instead."
  | .operatorType t =>
    some s!"The operator must be a numpy array or an Operator object. Received {t} instead."
  | .preparedIndexType => some "All qubit indices must be integers."
  | .stateQubits =>
    some "The number of qubit indices must match the number of qubits in the state."
  | .unitaryQubits =>
    some "The number of qubit indices must match the number of qubits in the unitary."
  | .basis r => some s!"{r} is not a supported decomposition method of ['zyz', 'u3']."
  | .oneQubitIndices r => some ("One-qubit decomposition requires exactly one qubit index. "
      ++ s!"Received {r} qubit indices.")
  | .oneQubitShape s => some ("One-qubit decomposition requires a 2x2 unitary matrix. "
      ++ s!"Received a {s} unitary matrix.")
  | .twoQubitIndices => some "Two-qubit decomposition requires exactly two qubit indices."
  | .twoQubitShape => some "Two-qubit decomposition requires a 4x4 unitary matrix."
  | .su2Shape s => some s!"The unitary must be a 2x2 matrix, but has shape {s}."
  | .su2Determinant =>
    some "Invalid Value _mcsu2_real_diagonal requires det(unitary) equal to one."
  | .su2Diagonal => some "The unitary must have one real diagonal."
  | .controlCount g a r =>
    some s!"{g} only supports {a} control qubits. Received {r} control qubits."
  | .chainQubits r q => some ("The number of qubits in the circuit is not enough for MCX V-Chain "
      ++ s!"decomposition. Received {r} qubits. Required {q} qubits.")
  | .chainAncillas r q => some ("The number of ancilla qubits provided is not equal to the number of "
      ++ s!"ancilla qubits required. Received {r} ancilla qubits. Required {q} ancilla qubits.")
  | .scalarVector k => let w := k.word; some s!"Cannot convert a scalar to a {w}."
  | .operatorVector k => let w := k.word; some s!"Cannot convert an operator to a {w}."
  | .deepVector k => let w := k.word; some s!"Cannot convert a N-dimensional array to a {w}."
  | .indexing => some "Index type not supported."
  | .incompatibleSum => some "Cannot add two incompatible vectors."
  | .incompatibleContraction => some "Cannot contract two incompatible vectors."
  | .incompatibleVectors => some "Cannot multiply two incompatible vectors."
  | .incompatibleKet => some "Cannot multiply an operator with an incompatible ket."
  | .incompatibleOperators => some "Cannot multiply two incompatible operators."
  | .noEquality t => some s!"Equality with {t} is not supported."
  | .noAddition t => some s!"Addition with {t} is not supported."
  | .noMultiplication t => some s!"Multiplication with {t} is not supported."
  | .operatorNotSquare => some "Operator must be a square matrix."
  | .operatorDimension => some "Operator dimension must be a power of 2."
  | .operatorNotComplex => some "Cannot convert data to complex type."
  | .operatorNotUnitary => some "Operator must be unitary."
  | .matrixNotUnitary => some "The matrix must be unitary."
  | .controlsType => some "The number of control qubits must be an integer."
  | .controlsTooFew => some "The number of control qubits must be greater than 0."
  | .ordering => some "The ordering must be either 'MSB' or 'LSB'."
  | .nodeType t => some s!"The `next` node must be an instance of DAGNode. Received {t} instead."
  | .compilerFramework => some "Invalid circuit framework."
  | .compilerState => some "Invalid state preparation schema."
  | .compilerUnitary => some "Invalid unitary preparation schema."
  | .compilerOptimizer => some "Invalid optimizer."
  | .noOptimizer => some "No optimizer is defined. Add an optimizer to use this method."
  | .primitiveType | .primitiveValue => some "Invalid primitive object."
  | .primitiveShape => some "Invalid primitives object."
  | .primitiveQubits =>
    some "The number of qubits should be the same as the number of qubits required."
  | .device d => some s!"Invalid device: {d}. Must be either 'CPU' or 'GPU'."
  | .runCircuitType t => some s!"The circuit must be of type `quick.circuit.Circuit`, not {t}."
  | .shots => some "The number of shots must be a positive integer."
  | .tooManyQubits m => some s!"The maximum number of qubits supported by the backend is {m}."
  | .singleQubitError => some "The single-qubit error rate must be between 0 and 1."
  | .twoQubitError => some "The two-qubit error rate must be between 0 and 1."
  | .nothingMeasured => some "At least one qubit must be measured."
  | .noMeasuredQubit => some "The circuit must have at least one measured qubit."
  | .qasmVersion => some "The QASM version must be either 2 or 3."
  | .importFramework t => some ("The `output_framework` must be a subclass of "
      ++ s!"`quick.circular.Circuit`. Received: {t}")
  | .hardware n => some s!"IBM backend '{n}' is not available."
  | .plugin n => some s!"Invalid unitary synthesis plugin: {n}."
  | .noService => some "The Qiskit Runtime service must be provided for AI transpilation."
  | .noBackendName => some "The name of the backend must be provided for AI transpilation."
  | .backendName n => some s!"Invalid backend: {n}."
  | .fidelityRange => some "The minimum fidelity should be in the range [0, 1]."
  | .modelQubits => some "The default pre-trained model is for 3-qubit unitaries only."
  | .noSolution f => some s!"No solution found with fidelity > {f}."

end Fault

abbrev Outcome := Except Fault

/-- A change of a state that may end in a fault; what was changed before the fault stays changed. -/
abbrev Change (σ : Type) := ExceptT Fault (StateM σ)

def Change.fail {σ β : Type} (f : Fault) : Change σ β := throw f

def Change.ofOutcome {σ β : Type} (x : Outcome β) : Change σ β :=
  match x with
  | .ok b => pure b
  | .error f => throw f

def Change.perform {σ β : Type} (x : Change σ β) (s : σ) : Outcome β × σ := (ExceptT.run x).run s

end QuantumCircuits
