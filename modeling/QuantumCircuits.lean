import QuantumCircuits.Datum.Reader
import QuantumCircuits.Datum.Writer
import QuantumCircuits.Operand.Convert
import QuantumCircuits.Proofs.BorrowedAncillas
import QuantumCircuits.Proofs.Compiling
import QuantumCircuits.Proofs.Dag.Depth
import QuantumCircuits.Proofs.Fourier.Circuits
import QuantumCircuits.Proofs.GateMatrix
import QuantumCircuits.Proofs.Log.Compress
import QuantumCircuits.Proofs.Merging
import QuantumCircuits.Proofs.Multiplexor.Apply
import QuantumCircuits.Proofs.RowPairs
import QuantumCircuits.Proofs.TwoQubit.Diagonal
import QuantumCircuits.Synthesis.FourControls
import QuantumCircuits.Text.Tensor
