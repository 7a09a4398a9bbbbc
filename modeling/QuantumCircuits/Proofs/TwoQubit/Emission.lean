import Mathlib.NumberTheory.Zsqrtd.GaussianInt
import QuantumCircuits.Proofs.Log.Stages
import QuantumCircuits.Proofs.TwoQubit.Chamber

/-!
# TwoQubit — Emission

Unitaries as gates.  The gates of a one-qubit unitary multiply out to it in every basis
(`OneQubit.emits_unitary`).  For two qubits, the layers of one-qubit gates between controlled negations
multiply out to the interaction that they were made for (`layered_three`, `layered_two`), and so do the gates
that are emitted for a decomposition (`emits_operator`).
-/

noncomputable section

namespace QuantumCircuits

open Matrix Complex List GaussianInt Scalar
open scoped Kronecker
open Real (pi)

/-! ### One-qubit unitaries -/

namespace OneQubit

open Multiplexor (Selects gateOps good_gateOps good_plain selects_gate selects_globalPhase selects_gateOps stands_plan
  stands_gates positioned_qubit)
open Plan (Stands stands_turn stands_globalPhase)
open Circuit (follow)

variable {n t : ℕ} {x : Operand ℝ} {M : Mat (Cplx ℝ)}

/-- The operations that a unitary is emitted as. -/
def operations (M : Mat (Cplx ℝ)) (t : ℕ) : Basis → List Operation
  | .zyz => [.turn .rz (zyz M).lam [t], .turn .ry (zyz M).theta [t], .turn .rz (zyz M).phi [t],
      .globalPhase (zyz M).phase]
  | .u3 => gateOps M t

def product (M : Mat (Cplx ℝ)) : Basis → Square
  | .zyz => exp ((zyz M).phase * I) •
      (Base.rz.square [(zyz M).phi] * (Base.ry.square [(zyz M).theta] * Base.rz.square [(zyz M).lam]))
  | .u3 => exp ((u3 M).phase * I) • Base.u3.square [(u3 M).theta, (u3 M).phi, (u3 M).lam]

lemma product_zyz (M : Mat (Cplx ℝ)) : product M .zyz = product M .u3 := by
  have hp : (u3 M).phase + ((zyz M).phi + (zyz M).lam) / 2 = (zyz M).phase := by
    rw [u3, real_two, sub_add_cancel]
  rw [product, product, ← hp, exp_angle_add, ← smul_smul]
  exact congrArg _ (Operation.square_general_eq _ _ _)

lemma product_eq (hM : M.IsGate) : ∀ basis, product M basis = M.asSquare := by
  have hg : product M .u3 = M.asSquare := by
    obtain ⟨p, q, r, s, rfl⟩ := hM.small; exact square_u3_angles hM.unitary
  intro basis
  cases basis with
  | zyz => rw [product_zyz, hg]
  | u3 => exact hg

lemma selects_operations (M : Mat (Cplx ℝ)) (t : ℕ) (basis : Basis) :
    Selects t (operations M t basis) fun _ => product M basis := by
  cases basis with
  | zyz =>
    refine ((selects_gate rfl _ t).append ((selects_gate rfl _ t).append ((selects_gate rfl _ t).append
      (selects_globalPhase _ t)))).congr fun b => ?_
    rw [smul_mul_assoc, one_mul, smul_mul_assoc, smul_mul_assoc, mul_assoc]
    rfl
  | u3 =>
    refine ((selects_gate rfl _ t).append (selects_globalPhase _ t)).congr fun b => ?_
    rw [smul_mul_assoc, one_mul]
    rfl

lemma good_operations (M : Mat (Cplx ℝ)) (basis : Basis) (ht : t < n) : ∀ o ∈ operations M t basis, o.Good n := by
  cases basis with
  | zyz =>
    simp only [operations, forall_mem_cons]
    exact ⟨good_plain rfl rfl ht, good_plain rfl rfl ht, good_plain rfl rfl ht, Operation.good_globalPhase _, nofun⟩
  | u3 => exact good_gateOps M ht

lemma stands_operations (hM : M.IsGate) (basis : Basis) (hx : x.IsQubit n t) :
    Stands n (plan basis (.array (.ofMat M)) x) (operations M t basis) () := by
  refine stands_plan hM (positioned_qubit hx) ?_
  cases basis with
  | zyz =>
    exact .before (stands_turn rfl rfl hx.isQubits) (.before (stands_turn rfl rfl hx.isQubits)
      (.before (stands_turn rfl rfl hx.isQubits) (stands_globalPhase rfl)))
  | u3 => exact stands_gates M hx

/-- **The gates of a one-qubit unitary multiply out to it**, phase and all, in either basis: they are the
rotations or the general gate by its angles, and the circuit that they are emitted to applies it. -/
theorem emits_unitary (hM : M.IsGate) (basis : Basis) (hx : x.IsQubit n t) {c : Circuit ℝ} {is : List Item}
    (hc : c.Made n is) :
    Stands n (plan basis (.array (.ofMat M)) x) (operations M t basis) () ∧ product M basis = M.asSquare ∧
      ∃ c', c.after (follow (plan basis (.array (.ofMat M)) x)) = .ok c' ∧
        c'.operator n = matrixOf n (select t fun _ => M.asSquare) * c.operator n := by
  have hs := stands_operations hM basis hx
  have hg := good_operations M basis hx.lt
  obtain ⟨g, hoe⟩ := hc.spec.1.isOpen
  obtain ⟨c', ha, hop⟩ := (Circuit.carries_follow hs fun o ho => (hg o ho).toValid).operator hg hoe hc.within
  rw [funext (selects_operations M t basis).acts] at hop
  simp only [product_eq hM] at hop
  exact ⟨hs, product_eq hM basis, c', ha, hop⟩

/-- The negation has zeros on its diagonal. -/
theorem emits_unitary_negation : product (Mat.square2 .zero .one .one .zero) .zyz = square 0 1 1 0 ∧
    ∃ c' : Circuit ℝ, (Circuit.sized .reference 3 (.int 3)).after
        (follow (plan .zyz (.array (.ofMat (Mat.square2 .zero .one .one .zero))) (.int 1))) = .ok c' ∧
      c'.operator 3 = matrixOf 3 (select 1 fun _ => square 0 1 1 0) *
        (Circuit.sized .reference 3 (.int 3)).operator 3 := by
  have hs : (Mat.square2 .zero .one .one .zero : Mat (Cplx ℝ)).asSquare = square 0 1 1 0 := by
    rw [Mat.asSquare_square2, Cplx.value_zero, Cplx.value_one]
  have hM : (Mat.square2 .zero .one .one .zero : Mat (Cplx ℝ)).IsGate := by
    refine ⟨⟨_, _, _, _, rfl⟩, ?_⟩; rw [hs, square_conjTranspose, square_mul, one_eq_square]; simp
  have ha := emits_unitary hM .zyz (x := .int 1) (isQubit_int (by decide)) (Circuit.made_sized three_pos)
  rw [hs] at ha
  exact ha.2

end OneQubit

namespace TwoQubit

open Mat (square2 rotationZ)

/-! ### The controlled negation -/

lemma negation_apply (i j : Bool × Bool) :
    (negation : Mat (Cplx ℝ)).asPair i j = if j = (i.1 ^^ i.2, i.2) then 1 else 0 := by
  rw [negation, Mat.asPair_ofFn]
  obtain ⟨i, i'⟩ := i
  obtain ⟨j, j'⟩ := j
  cases i <;> cases i' <;> cases j <;> cases j' <;> simp [place]

/-! ### Fixed matrices -/

section Gaussian

variable {ι : Type}

def lift (A : Matrix ι ι GaussianInt) : Matrix ι ι ℂ := A.map toComplex

lemma lift_mul [Fintype ι] (A B : Matrix ι ι GaussianInt) : lift A * lift B = lift (A * B) :=
  (Matrix.map_mul).symm

lemma lift_kronecker (A B : Matrix Bool Bool GaussianInt) : lift A ⊗ₖ lift B = lift (A ⊗ₖ B) := by
  ext i j; simp [lift]

lemma lift_neg (A : Matrix ι ι GaussianInt) : lift (-A) = -lift A := by ext i j; simp [lift]

lemma lift_scalar [DecidableEq ι] (z : GaussianInt) : lift (z • (1 : Matrix ι ι GaussianInt)) = (z : ℂ) • 1 := by
  ext i j
  by_cases h : i = j <;> simp [lift, h]

lemma lift_conjTranspose (A : Matrix ι ι GaussianInt) : (lift A).conjTranspose = lift A.conjTranspose := by
  ext i j; simp [lift]

end Gaussian

def whole (a b c d : ℤ × ℤ) : Matrix Bool Bool GaussianInt :=
  fun i j => cond i (cond j ⟨d.1, d.2⟩ ⟨c.1, c.2⟩) (cond j ⟨b.1, b.2⟩ ⟨a.1, a.2⟩)

def wholePauli (p : Axis) : Matrix Bool Bool GaussianInt :=
  if p = .x then whole (0, 0) (1, 0) (1, 0) (0, 0)
  else if p = .y then whole (0, 0) (0, -1) (0, 1) (0, 0) else whole (1, 0) (0, 0) (0, 0) (-1, 0)

lemma lift_wholePauli (p : Axis) : lift (wholePauli p) = pauli p := by
  ext i j
  cases p <;> cases i <;> cases j <;> simp [lift, wholePauli, whole, pauli_x, pauli_y, pauli_z, toComplex_def]

def wholeNegation : Matrix (Bool × Bool) (Bool × Bool) GaussianInt := fun i j => if j = (i.1 ^^ i.2, i.2) then 1 else 0

lemma lift_wholeNegation : lift wholeNegation = (negation : Mat (Cplx ℝ)).asPair := by
  ext i j
  rw [negation_apply, lift, map_apply, wholeNegation, apply_ite toComplex, map_one, map_zero]

def scaled (s : ℝ) (a b c d : ℤ × ℤ) : Mat (Cplx ℝ) :=
  square2 ⟨a.1 * s, a.2 * s⟩ ⟨b.1 * s, b.2 * s⟩ ⟨c.1 * s, c.2 * s⟩ ⟨d.1 * s, d.2 * s⟩

lemma asSquare_scaled (s : ℝ) (a b c d : ℤ × ℤ) : (scaled s a b c d).asSquare = (s : ℂ) • lift (whole a b c d) := by
  have he : ∀ p : ℤ × ℤ, (⟨p.1 * s, p.2 * s⟩ : Cplx ℝ).value = s * (p.1 + p.2 * I) := fun p => by
    apply Complex.ext <;> simp [mul_comm]
  ext i j
  cases i <;> cases j <;> simp [scaled, lift, whole, he, toComplex_def, -Cplx.value_mk]

def root : ℝ := 1.0 / √2.0

lemma sq_root : root ^ 2 = 1 / 2 := by
  rw [root, real_one, real_two, div_pow, Real.sq_sqrt zero_le_two, one_pow]

lemma asSquare_halves (a b c d : ℤ × ℤ) :
    (halves [[a, b], [c, d]] : Mat (Cplx ℝ)).asSquare = ((0.5 : ℝ) : ℂ) • lift (whole a b c d) :=
  asSquare_scaled _ a b c d

lemma asSquare_roots (a b c d : ℤ × ℤ) :
    (roots [[a, b], [c, d]] : Mat (Cplx ℝ)).asSquare = (root : ℂ) • lift (whole a b c d) :=
  asSquare_scaled _ a b c d

lemma isGate_scaled {s : ℝ} {m : ℤ} (hs : s * s * m = 1) {a b c d : ℤ × ℤ}
    (h : (whole a b c d).conjTranspose * whole a b c d = (m : GaussianInt) • 1) : (scaled s a b c d).IsGate where
  small := ⟨_, _, _, _, rfl⟩
  unitary := by
    rw [asSquare_scaled, conjTranspose_smul, smul_mul_smul_comm, lift_conjTranspose, lift_mul, h, lift_scalar, smul_smul,
      map_intCast, star_def, conj_ofReal]
    rw [← ofReal_mul, ← ofReal_intCast, ← ofReal_mul, hs, ofReal_one, one_smul]

lemma isGate_halves {a b c d : ℤ × ℤ} (h : (whole a b c d).conjTranspose * whole a b c d = ((4 : ℤ) : GaussianInt) • 1) :
    (halves [[a, b], [c, d]] : Mat (Cplx ℝ)).IsGate :=
  isGate_scaled (by norm_num) h

lemma isGate_roots {a b c d : ℤ × ℤ} (h : (whole a b c d).conjTranspose * whole a b c d = ((2 : ℤ) : GaussianInt) • 1) :
    (roots [[a, b], [c, d]] : Mat (Cplx ℝ)).IsGate :=
  isGate_scaled (s := root) (by rw [← sq, sq_root]; norm_num) h

lemma isGate_rotationZ (x : ℝ) : (rotationZ x : Mat (Cplx ℝ)).IsGate := by
  rw [rotationZ, ← Mat.diagonal_two]
  refine .diagonal ?_ ?_ <;> rw [Cplx.value_turn, norm_exp_ofReal_mul_I]

/-! ### The gates around the interaction -/

lemma square_rotationZ (a : ℝ) :
    (rotationZ (-2 * a)).asSquare = (Real.cos a : ℂ) • 1 + (Real.sin a * I : ℂ) • pauli .z := by
  have ha : ∀ x : ℝ, exp (x * I) = Real.cos x + Real.sin x * I := fun x => by
    rw [exp_mul_I, ofReal_cos, ofReal_sin]
  have hfi : -(-2 * a) / 2 = a := by ring
  have hs : -2 * a / 2 = -a := by ring
  rw [rotationZ, Mat.asSquare_square2, Cplx.value_turn, Cplx.value_turn, Cplx.value_zero, real_two, hfi,
    hs, ha, ha, Real.cos_neg, Real.sin_neg, pauli_z, one_eq_square, smul_square, smul_square]
  ext i j
  cases i <;> cases j <;> simp

lemma spin_left (a : ℝ) : spin (pauli .z ⊗ₖ 1) a = (rotationZ (-2 * a)).asSquare ⊗ₖ 1 := by
  rw [square_rotationZ, add_kronecker, smul_kronecker, smul_kronecker, one_kronecker_one, spin]

lemma spin_right (a : ℝ) : spin (1 ⊗ₖ pauli .z) a = 1 ⊗ₖ (rotationZ (-2 * a)).asSquare := by
  rw [square_rotationZ, kronecker_add, kronecker_smul, kronecker_smul, one_kronecker_one, spin]

lemma kronecker_rotationZ (a b : ℝ) : (rotationZ (-2 * a)).asSquare ⊗ₖ (rotationZ (2 * b)).asSquare =
    spin (pauli .z ⊗ₖ 1) a * spin (1 ⊗ₖ pauli .z) (-b) := by
  rw [spin_left, spin_right, ← mul_kronecker_mul, mul_one, one_mul, mul_neg, ← neg_mul, neg_neg]

def wholeBefore : Matrix (Bool × Bool) (Bool × Bool) GaussianInt :=
  (whole (-1, 1) (-1, -1) (1, -1) (-1, -1) ⊗ₖ whole (1, -1) (1, 1) (-1, 1) (1, 1)) * wholeNegation *
    (whole (-1, 1) (0, 0) (0, 0) (-1, -1) ⊗ₖ whole (0, 1) (0, -1) (0, -1) (0, -1))

lemma left_before : (wholePauli .z ⊗ₖ 1) * wholeBefore = wholeBefore * (wholePauli .x ⊗ₖ wholePauli .x) := by
  decide +kernel

lemma right_before : (1 ⊗ₖ wholePauli .z) * wholeBefore = wholeBefore * -(wholePauli .y ⊗ₖ wholePauli .y) := by
  decide +kernel

/-- The gates between the rotations, with three negations. -/
def wholeBetween : Matrix (Bool × Bool) (Bool × Bool) GaussianInt :=
  (1 ⊗ₖ whole (-1, 0) (0, -1) (0, -1) (-1, 0)) * wholeNegation *
    (whole (1, 1) (1, -1) (-1, -1) (1, -1) ⊗ₖ whole (-1, 1) (1, -1) (-1, -1) (-1, -1))

/-- The gates behind the last rotation, with three negations. -/
def wholeAfter : Matrix (Bool × Bool) (Bool × Bool) GaussianInt :=
  (whole (-1, 0) (1, 0) (-1, 0) (-1, 0) ⊗ₖ whole (0, -1) (0, 1) (0, 1) (0, 1)) * wholeNegation *
    (whole (-1, 1) (-1, 1) (1, 1) (-1, -1) ⊗ₖ whole (1, -1) (-1, -1) (1, -1) (1, 1))

lemma right_after : (wholePauli .z ⊗ₖ wholePauli .z) * wholeAfter = wholeAfter * (1 ⊗ₖ wholePauli .z) := by
  decide +kernel

lemma after_between_before : wholeAfter * (wholeBetween * wholeBefore) = (⟨-256, -256⟩ : GaussianInt) • 1 := by
  decide +kernel

/-- The gates behind the rotations, with two negations. -/
def wholeAfterTwo : Matrix (Bool × Bool) (Bool × Bool) GaussianInt :=
  (whole (1, 1) (1, -1) (-1, -1) (1, -1) ⊗ₖ whole (-1, -1) (1, -1) (-1, -1) (-1, 1)) * wholeNegation *
    (whole (0, 0) (-1, -1) (1, -1) (0, 0) ⊗ₖ whole (1, 0) (1, 0) (-1, 0) (1, 0))

lemma afterTwo_before : wholeAfterTwo * wholeBefore = (⟨0, 64⟩ : GaussianInt) • 1 := by decide +kernel

lemma lift_twin (p : Axis) : lift (wholePauli p ⊗ₖ wholePauli p) = twin p := by
  rw [← lift_kronecker, lift_wholePauli, twin]

lemma lift_one {ι : Type} [DecidableEq ι] : lift (1 : Matrix ι ι GaussianInt) = 1 := by
  simpa using lift_scalar 1

lemma spins_before (a b : ℝ) : spin (pauli .z ⊗ₖ 1) a * spin (1 ⊗ₖ pauli .z) (-b) * lift wholeBefore =
    lift wholeBefore * (spin (twin .x) a * spin (twin .y) b) := by
  have hl := congrArg lift left_before
  have hr := congrArg lift right_before
  rw [← lift_mul, ← lift_mul, ← lift_kronecker, lift_wholePauli, lift_one, lift_twin] at hl
  rw [← lift_mul, ← lift_mul, ← lift_kronecker, lift_wholePauli, lift_one, lift_neg, lift_twin] at hr
  rw [mul_assoc, spin_mul hr, spin_neg_left, neg_neg, ← mul_assoc, spin_mul hl, mul_assoc]

lemma after_spin (c : ℝ) : lift wholeAfter * spin (1 ⊗ₖ pauli .z) c = spin (twin .z) c * lift wholeAfter := by
  have hr := congrArg lift right_after
  rw [← lift_mul, ← lift_mul, lift_twin, ← lift_kronecker, lift_one, lift_wholePauli] at hr
  exact (spin_mul hr).symm

lemma around_negation (p q p' q' : ℂ) (A B C D : Matrix Bool Bool GaussianInt) :
    ((p • lift A) ⊗ₖ (q • lift B)) * (negation : Mat (Cplx ℝ)).asPair * ((p' • lift C) ⊗ₖ (q' • lift D)) =
      (p * q * (p' * q')) • lift ((A ⊗ₖ B) * wholeNegation * (C ⊗ₖ D)) := by
  simp only [smul_kronecker, kronecker_smul, smul_smul, lift_kronecker, ← lift_wholeNegation, smul_mul_assoc,
    mul_smul_comm, lift_mul]
  congr 1
  ring

/-! ### Layers -/

/-- What one-qubit gates in pairs multiply out to, with controlled negations between the pairs. -/
def layered : List (Mat (Cplx ℝ)) → Pair
  | r :: l :: rest => layered rest * (if rest.isEmpty then 1 else (negation : Mat (Cplx ℝ)).asPair) *
      (l.asSquare ⊗ₖ r.asSquare)
  | _ => 1

lemma layered_end (r l : Mat (Cplx ℝ)) : layered [r, l] = l.asSquare ⊗ₖ r.asSquare := by simp [layered]

lemma layered_step (r l m : Mat (Cplx ℝ)) (rest : List (Mat (Cplx ℝ))) : layered (r :: l :: m :: rest) =
      layered (m :: rest) * (negation : Mat (Cplx ℝ)).asPair * (l.asSquare ⊗ₖ r.asSquare) := by
  simp [layered]

lemma isSmall_halves (a b c d : ℤ × ℤ) : (halves [[a, b], [c, d]] : Mat (Cplx ℝ)).IsSmall := ⟨_, _, _, _, rfl⟩

lemma isSmall_roots (a b c d : ℤ × ℤ) : (roots [[a, b], [c, d]] : Mat (Cplx ℝ)).IsSmall := ⟨_, _, _, _, rfl⟩

lemma asSquare_between {A B : Mat (Cplx ℝ)} (hA : A.IsSmall) (hB : B.IsSmall) (x : ℝ) :
    (A * rotationZ x * B).asSquare = A.asSquare * (rotationZ x).asSquare * B.asSquare := by
  have hz : (rotationZ x : Mat (Cplx ℝ)).IsSmall := ⟨_, _, _, _, rfl⟩
  rw [Mat.asSquare_mul (hA.mul hz) hB, Mat.asSquare_mul hA hz]

end TwoQubit

variable {w : Weyl.Decomposition ℝ}

/-- The gates of a decomposition are unitary. -/
structure Weyl.Decomposition.Local (w : Weyl.Decomposition ℝ) : Prop where
  k₁l : w.k₁l.IsGate
  k₁r : w.k₁r.IsGate
  k₂l : w.k₂l.IsGate
  k₂r : w.k₂r.IsGate

namespace TwoQubit

open Mat (square2 rotationZ)

lemma kronecker_between (A B R C : Square) : A ⊗ₖ (B * R * C) = (A ⊗ₖ B) * (1 ⊗ₖ R) * (((1 : ℂ) • lift 1) ⊗ₖ C) := by
  rw [← mul_kronecker_mul, ← mul_kronecker_mul, lift_one, one_smul, mul_one, mul_one]

lemma layered_layers₃ (hw : w.Local) : layered (layers₃ w) = ((root : ℂ) ^ 5 * ((0.5 : ℝ) : ℂ) ^ 6) •
    ((w.k₁l.asSquare ⊗ₖ w.k₁r.asSquare) * (lift wholeAfter * spin (1 ⊗ₖ pauli .z) w.c * lift wholeBetween *
      (spin (pauli .z ⊗ₖ 1) w.a * spin (1 ⊗ₖ pauli .z) (-w.b) * lift wholeBefore)) *
    (w.k₂l.asSquare ⊗ₖ w.k₂r.asSquare)) := by
  have ha (K E N A R B C S D F K' : Pair) : K * E * N * (A * R * B) * N * (C * S * D) * N * (F * K') =
      K * ((E * N * A) * R * (B * N * C) * (S * (D * N * F))) * K' := by simp [mul_assoc]
  simp only [layers₃, layered_end, layered_step, real_two,
    asSquare_between (isSmall_halves _ _ _ _) (isSmall_halves _ _ _ _),
    asSquare_between (isSmall_halves _ _ _ _) (isSmall_roots _ _ _ _),
    Mat.asSquare_mul hw.k₁l.small (isSmall_roots _ _ _ _), Mat.asSquare_mul hw.k₁r.small (isSmall_roots _ _ _ _),
    Mat.asSquare_mul (isSmall_roots _ _ _ _) hw.k₂l.small, Mat.asSquare_mul (isSmall_roots _ _ _ _) hw.k₂r.small,
    asSquare_halves, asSquare_roots]
  rw [kronecker_between (_ • _)]
  simp only [mul_kronecker_mul]
  rw [kronecker_rotationZ, ← spin_right, ha, around_negation, around_negation, around_negation, wholeAfter,
    wholeBetween, wholeBefore]
  simp only [smul_mul_assoc, mul_smul_comm, smul_smul]
  congr 1
  ring

lemma layered_layers₂ (hw : w.Local) : layered (layers₂ w) = ((root : ℂ) ^ 4 * ((0.5 : ℝ) : ℂ) ^ 4) •
    ((w.k₁l.asSquare ⊗ₖ w.k₁r.asSquare) * (lift wholeAfterTwo *
      (spin (pauli .z ⊗ₖ 1) w.a * spin (1 ⊗ₖ pauli .z) (-w.b) * lift wholeBefore)) *
    (w.k₂l.asSquare ⊗ₖ w.k₂r.asSquare)) := by
  have ha (K E N C S D F K' : Pair) : K * E * N * (C * S * D) * N * (F * K') =
      K * ((E * N * C) * (S * (D * N * F))) * K' := by simp [mul_assoc]
  simp only [layers₂, layered_end, layered_step, real_two,
    asSquare_between (isSmall_roots _ _ _ _) (isSmall_halves _ _ _ _),
    Mat.asSquare_mul hw.k₁l.small (isSmall_halves _ _ _ _), Mat.asSquare_mul hw.k₁r.small (isSmall_halves _ _ _ _),
    Mat.asSquare_mul (isSmall_roots _ _ _ _) hw.k₂l.small, Mat.asSquare_mul (isSmall_roots _ _ _ _) hw.k₂r.small,
    asSquare_halves, asSquare_roots, mul_kronecker_mul]
  rw [kronecker_rotationZ, ha, around_negation, around_negation, wholeAfterTwo, wholeBefore]
  simp only [smul_mul_assoc, mul_smul_comm, smul_smul]
  congr 1
  ring

lemma half_sqrt_two : √2 / 2 = root := by
  rw [root, real_one, real_two, div_eq_div_iff two_ne_zero (by positivity),
    Real.mul_self_sqrt zero_le_two, one_mul]

lemma cos_quarter : Real.cos (pi / 4) = root := Real.cos_pi_div_four.trans half_sqrt_two

lemma sin_quarter : Real.sin (pi / 4) = root := Real.sin_pi_div_four.trans half_sqrt_two

lemma exp_three : exp ((3 * (pi / 4) : ℝ) * I) = root * (-1 + I) := by
  have ha : 3 * (pi / 4) = pi - pi / 4 := by ring
  rw [exp_mul_I, ← ofReal_cos, ← ofReal_sin, ha, Real.cos_pi_sub, Real.sin_pi_sub, cos_quarter, sin_quarter]
  push_cast
  ring

lemma operator_eq_spins (w : Weyl.Decomposition ℝ) : w.operator = exp (w.phase * I) •
    ((w.k₁l.asSquare ⊗ₖ w.k₁r.asSquare) * (spin (twin .x) w.a * spin (twin .y) w.b * spin (twin .z) w.c) *
      (w.k₂l.asSquare ⊗ₖ w.k₂r.asSquare)) := by
  rw [Weyl.Decomposition.operator, ← asPair_interaction_eq_exp, asPair_interaction]

lemma cast_root : (root : ℂ) ^ 2 = 1 / 2 := by rw [← ofReal_pow, sq_root]; norm_num

lemma cast_half : ((0.5 : ℝ) : ℂ) = 1 / 2 := by rw [real_half]; norm_num

lemma layered_three (hw : w.Local) : exp (leftover w 3 * I) • layered (layers₃ w) = w.operator := by
  have hp : exp (leftover w 3 * I) = exp (w.phase * I) * (root * (-1 + I)) := by
    rw [← exp_three, ← exp_add, ← add_mul, ← ofReal_add, leftover]; norm_num
  have hwh : lift wholeAfter * (lift wholeBetween * lift wholeBefore) = (-256 - 256 * I) • 1 := by
    rw [lift_mul, lift_mul, after_between_before, lift_scalar, toComplex_def]
    norm_num [sub_eq_add_neg]
  have hm : lift wholeAfter * spin (1 ⊗ₖ pauli .z) w.c * lift wholeBetween *
      (spin (pauli .z ⊗ₖ 1) w.a * spin (1 ⊗ₖ pauli .z) (-w.b) * lift wholeBefore) =
      (-256 - 256 * I) • (spin (twin .x) w.a * spin (twin .y) w.b * spin (twin .z) w.c) := by
    calc _ = spin (twin .z) w.c * (lift wholeAfter * (lift wholeBetween * lift wholeBefore)) *
          (spin (twin .x) w.a * spin (twin .y) w.b) := by
          rw [after_spin, spins_before]
          simp [mul_assoc]
      _ = (-256 - 256 * I) • (spin (twin .z) w.c * spin (twin .x) w.a * spin (twin .y) w.b) := by
          rw [hwh, mul_smul_comm, mul_one, smul_mul_assoc, mul_assoc]
      _ = _ := by rw [spin_twin_comm, mul_assoc, spin_twin_comm .z, mul_assoc]
  have hs : root * (-1 + I) * ((root : ℂ) ^ 5 * ((0.5 : ℝ) : ℂ) ^ 6) * (-256 - 256 * I) = 1 := by
    rw [cast_half]
    linear_combination (4 - 4 * I ^ 2) * (root ^ 4 + root ^ 2 / 2 + 1 / 4 : ℂ) * cast_root - 1 / 2 * I_sq
  rw [layered_layers₃ hw, hm, hp, operator_eq_spins, mul_smul_comm, smul_mul_assoc, smul_smul, smul_smul,
    mul_assoc (exp _), mul_assoc (exp _), hs, mul_one]

lemma layered_two (hw : w.Local) (hc : w.c = 0) : exp (leftover w 2 * I) • layered (layers₂ w) = w.operator := by
  have hp : exp (leftover w 2 * I) = exp (w.phase * I) * -I := by
    have ha : leftover w 2 = w.phase - pi / 2 + 2 * pi := by rw [leftover]; norm_num; ring
    rw [ha, ofReal_add, ofReal_sub, add_mul, sub_mul]
    push_cast
    rw [exp_add, exp_two_pi_mul_I, mul_one, exp_sub, exp_pi_div_two_mul_I, div_I, mul_neg]
  have hwh : lift wholeAfterTwo * lift wholeBefore = (64 * I) • 1 := by
    rw [lift_mul, afterTwo_before, lift_scalar, toComplex_def]; norm_num
  have hs : -I * ((root : ℂ) ^ 4 * ((0.5 : ℝ) : ℂ) ^ 4) * (64 * I) = 1 := by
    rw [cast_half]; linear_combination (-4 * I ^ 2) * (root ^ 2 + 1 / 2 : ℂ) * cast_root - I_sq
  have hsp : spin (twin .z) w.c = 1 := by simp [hc, spin]
  rw [layered_layers₂ hw, spins_before, ← mul_assoc (lift _), hwh, smul_mul_assoc, one_mul, hp, operator_eq_spins,
    hsp, mul_one, mul_smul_comm, smul_mul_assoc, smul_smul, smul_smul, mul_assoc (exp _), mul_assoc (exp _), hs, mul_one]

/-! ### Operations -/

open Multiplexor (gateOps good_gateOps selects_gateOps stands_plan stands_gates positioned_qubit)
open Plan (Stands stands_pure stands_cx stands_globalPhase)
open Operation (acts acts_append acts_nil)
open Circuit (follow)

/-- The operations of one-qubit gates in pairs, with controlled negations between the pairs. -/
def pairOps (s t : ℕ) : List (Mat (Cplx ℝ)) → List Operation
  | r :: l :: rest =>
    gateOps r s ++ (gateOps l t ++ ((if rest.isEmpty then [] else [.cx s t]) ++ pairOps s t rest))
  | _ => []

section Pairs

variable {n s t : ℕ} {x y : Operand ℝ}

lemma onPair_one (V : Wave) : onPair s t 1 V = V := by funext b; simp [onPair, one_apply]

lemma acts_cx (hst : s ≠ t) (V : Wave) : acts [.cx s t] V = onPair s t (negation : Mat (Cplx ℝ)).asPair V := by
  rw [(Multiplexor.selects_cx hst).acts]
  funext b
  simp only [onPair, negation_apply, ite_mul, one_mul, zero_mul, Finset.sum_ite_eq', Finset.mem_univ, if_true]
  rw [select, Function.update_eq_self]
  cases hs : b s <;> cases ht : b t <;> simp [*]

lemma acts_pairOps (hs : s ≠ t) : ∀ {ms : List (Mat (Cplx ℝ))}, (∀ M ∈ ms, M.IsGate) →
    ∀ V, acts (pairOps s t ms) V = onPair s t (layered ms) V
  | r :: l :: rest, hm, V => by
    obtain ⟨hr, hl, hre⟩ := forall_mem_cons.1 hm |>.imp_right forall_mem_cons.1
    have hbe : ∀ V, acts (if rest.isEmpty then [] else [.cx s t]) V =
        onPair s t (if rest.isEmpty then 1 else (negation : Mat (Cplx ℝ)).asPair) V := fun V => by
      split
      · rw [acts_nil, onPair_one]
      · exact acts_cx hs V
    rw [pairOps, acts_append, acts_append, acts_append, acts_pairOps hs hre, hbe, (selects_gateOps hr s).acts,
      (selects_gateOps hl t).acts, ← onPair_kronecker hs, onPair_onPair hs, onPair_onPair hs, layered]
  | [], _, V => (onPair_one V).symm
  | [_], _, V => (onPair_one V).symm

lemma good_pairOps (hs : s < n) (ht : t < n) (hst : s ≠ t) :
    ∀ {ms : List (Mat (Cplx ℝ))}, ∀ o ∈ pairOps s t ms, o.Good n
  | r :: l :: rest => by
    have hbe : ∀ o ∈ if rest.isEmpty then [] else [Operation.cx s t], o.Good n := by
      split
      · nofun
      · exact forall_mem_singleton.2 (good_cx hs ht hst)
    exact forall_mem_append.2 ⟨good_gateOps r hs, forall_mem_append.2 ⟨good_gateOps l ht,
      forall_mem_append.2 ⟨hbe, good_pairOps hs ht hst⟩⟩⟩
  | [] => nofun
  | [_] => nofun

lemma stands_interleave (hx : x.IsQubit n s) (hy : y.IsQubit n t) : ∀ {ms : List (Mat (Cplx ℝ))},
    (∀ M ∈ ms, M.IsGate) → Stands n (interleave x y ms) (pairOps s t ms) ()
  | r :: l :: rest, hm => by
    obtain ⟨hr, hl, hre⟩ := forall_mem_cons.1 hm |>.imp_right forall_mem_cons.1
    have hfi := stands_plan hr (positioned_qubit hx) (stands_gates r hx)
    have hs := stands_plan hl (positioned_qubit hy) (stands_gates l hy)
    rw [interleave]
    cases rest with
    | nil => exact hfi.bind (hs.bind (stands_pure ()))
    | cons => exact hfi.bind (hs.bind ((stands_cx hx hy).bind (stands_interleave hx hy hre)))
  | [], _ => stands_pure ()
  | [_], _ => stands_pure ()

end Pairs

/-! ### Circuits -/

/-- The gates of a decomposition around a number of controlled negations. -/
def emission (R : Routines ℝ) (w : Weyl.Decomposition ℝ) (k : ℕ) (indices : Operand ℝ) : Plan ℝ Unit := do
  let ms ← Plan.get (layers R w k)
  interleave (← Plan.get (indices.item 0)) (← Plan.get (indices.item 1)) ms
  Plan.globalPhase (.real (leftover w k))

section Circuits

variable {n s t k : ℕ} {x y : Operand ℝ} {c : Circuit ℝ} {is : List Item} {R : Routines ℝ}
  {ms : List (Mat (Cplx ℝ))} {U : Pair}

/-- The gates of a unitary multiply out to it. -/
def Exact (n : ℕ) (p : Plan ℝ Unit) (s t : ℕ) (A : Pair) : Prop :=
  ∃ os, Stands n p os () ∧ (∀ o ∈ os, o.Good n) ∧ acts os = onPair s t A

lemma exact_emission (hm : layers R w k = .ok ms) (hg : ∀ M ∈ ms, M.IsGate) (hx : x.IsQubit n s)
    (hy : y.IsQubit n t) (hst : s ≠ t) :
    Exact n (emission R w k (.list [x, y])) s t (exp (leftover w k * I) • layered ms) := by
  have hs : Stands n (emission R w k (.list [x, y])) (pairOps s t ms ++ [.globalPhase (leftover w k)]) () :=
    .after_get hm (.after_get rfl (.after_get rfl ((stands_interleave hx hy hg).bind (stands_globalPhase rfl))))
  have hgo : ∀ o ∈ pairOps s t ms ++ [.globalPhase (leftover w k)], o.Good n :=
    forall_mem_append.2 ⟨good_pairOps hx.lt hy.lt hst, forall_mem_singleton.2 (Operation.good_globalPhase _)⟩
  refine ⟨_, hs, hgo, funext fun V => ?_⟩
  rw [acts_append, acts_pairOps hst hg, onPair_smul]
  rfl

lemma Exact.exists_after {p : Plan ℝ Unit} (h : Exact n p s t U) (hc : c.Made n is) :
    ∃ c', c.after (follow p) = .ok c' ∧ c'.operator n = matrixOf n (onPair s t U) * c.operator n := by
  obtain ⟨os, hs, hg, ha⟩ := h
  obtain ⟨g, hop⟩ := hc.spec.1.isOpen
  rw [← ha]
  exact (Circuit.carries_follow hs fun o ho => (hg o ho).toValid).operator hg hop hc.within

lemma isGate_layers₃ (hw : w.Local) : ∀ M ∈ layers₃ w, M.IsGate := by
  simp only [layers₃, forall_mem_cons]
  refine ⟨.mul (isGate_roots (by decide)) hw.k₂r, .mul (isGate_roots (by decide)) hw.k₂l,
    .mul (.mul (isGate_halves (by decide)) (isGate_rotationZ _)) (isGate_halves (by decide)),
    .mul (.mul (isGate_halves (by decide)) (isGate_rotationZ _)) (isGate_halves (by decide)),
    .mul (.mul (isGate_halves (by decide)) (isGate_rotationZ _)) (isGate_roots (by decide)),
    isGate_halves (by decide), .mul hw.k₁r (isGate_roots (by decide)), .mul hw.k₁l (isGate_roots (by decide)), nofun⟩

lemma isGate_layers₂ (hw : w.Local) : ∀ M ∈ layers₂ w, M.IsGate := by
  simp only [layers₂, forall_mem_cons]
  exact ⟨.mul (isGate_roots (by decide)) hw.k₂r, .mul (isGate_roots (by decide)) hw.k₂l,
    .mul (.mul (isGate_roots (by decide)) (isGate_rotationZ _)) (isGate_halves (by decide)),
    .mul (.mul (isGate_roots (by decide)) (isGate_rotationZ _)) (isGate_halves (by decide)),
    .mul hw.k₁r (isGate_halves (by decide)), .mul hw.k₁l (isGate_halves (by decide)), nofun⟩

/-- **The gates of a decomposition multiply out to its operator**, phase and all: with three controlled
negations always, and with two if the third angle is zero.  A two-qubit unitary is emitted as the gates of its
decomposition. -/
theorem emits_operator (R : Routines ℝ) (hw : w.Local) (hx : x.IsQubit n s) (hy : y.IsQubit n t) (hst : s ≠ t)
    (hc : c.Made n is) :
    (∀ (U : Mat (Cplx ℝ)) (qs : Operand ℝ), gates R U qs =
      Plan.get (Weyl.decompose R U) >>= fun v => emission R v (negations v.a v.b v.c) qs) ∧
    (∃ c', c.after (follow (emission R w 3 (.list [x, y]))) = .ok c' ∧
      c'.operator n = matrixOf n (onPair s t w.operator) * c.operator n) ∧
    (w.c = 0 → ∃ c', c.after (follow (emission R w 2 (.list [x, y]))) = .ok c' ∧
      c'.operator n = matrixOf n (onPair s t w.operator) * c.operator n) :=
  ⟨fun _ _ => rfl, layered_three hw ▸ (exact_emission rfl (isGate_layers₃ hw) hx hy hst).exists_after hc,
    fun h => layered_two hw h ▸ (exact_emission rfl (isGate_layers₂ hw) hx hy hst).exists_after hc⟩

/-- A decomposition without its third angle, on the outer qubits of three. -/
theorem emits_operator_outer :
    let w : Weyl.Decomposition ℝ := ⟨1, 1 / 2, 0, rotationZ 1, rotationZ 2, rotationZ 3, rotationZ 4, 5⟩
    ∃ c', (Circuit.sized .reference 3 (.int 3)).after (follow (emission .byRotations w 2 (.list [.int 2, .int 0]))) = .ok c' ∧
      c'.operator 3 = matrixOf 3 (onPair 2 0 w.operator) * (Circuit.sized .reference 3 (.int 3)).operator 3 := by
  intro w
  have hw : w.Local := ⟨isGate_rotationZ 1, isGate_rotationZ 2, isGate_rotationZ 3, isGate_rotationZ 4⟩
  exact (emits_operator .byRotations hw (isQubit_int (by decide)) (isQubit_int three_pos) (by decide)
    (Circuit.made_sized three_pos)).2.2 rfl

end Circuits

end TwoQubit

end QuantumCircuits

end
