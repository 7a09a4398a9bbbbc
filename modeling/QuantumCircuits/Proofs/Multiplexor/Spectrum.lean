import QuantumCircuits.Synthesis.Multiplexor
import QuantumCircuits.Proofs.Exact.Determinant
import QuantumCircuits.Proofs.Meaning.OneQubit

/-!
# Multiplexor — Spectrum

What splits are made of.  A split puts a diagonal around the quotient of two gates, so that its eigenvalues
become `i` and `-i`; the diagonal is found from the determinant, which elimination gives
(`Mat.value_polarDet`), and its principal root (`Cplx.value_sqrt`).  What comes out is `balanced`
(`exists_balanced`), so its eigenvalues are `i` and `-i` (`Diagonalizes.order`).  The split gives back the two
gates if and only if the routine that finds them lists `i` first (`rebuilds_splitPair_iff`).

The eigenvectors of a balanced matrix can be written down (`balancedVectors`), so there are routines that split
all gates (`splits_exactRoutines`).
-/

/-! ### Split

Two gates that one control selects, as one pattern around two gates and a diagonal.  `pattern` is what
stands between the two gates for each value of the control.  A split of `a` and `b` into `v`, `u` and `r`
(`Split.Rebuilds`) is a pair of equations with a fixed diagonal in the middle; with the pattern in its
place, what is left over is the diagonal `correction` (`Split.Rebuilds.eq`).

`braid` is the product of a row of gates with patterns between them.  Diagonals commute with the
patterns, so the correction of one gate can be taken up by the next one (`braid_pass`) or by the end of
the row (`braid_last`).
-/

noncomputable section

namespace QuantumCircuits

open Complex
open Real (pi)

/-! ### Gates as the library computes with them -/

namespace Mat

variable {M : Mat (Cplx ℝ)}

/-- A unitary matrix with two rows and two columns. -/
structure IsGate (M : Mat (Cplx ℝ)) : Prop where
  small : ∃ a b c d, M = square2 a b c d
  unitary : M.asSquare.conjTranspose * M.asSquare = 1

lemma asSquare_mul {N : Mat (Cplx ℝ)} (hM : ∃ a b c d, M = square2 a b c d)
    (hN : ∃ a b c d, N = square2 a b c d) : (M * N).asSquare = M.asSquare * N.asSquare := by
  obtain ⟨a, b, c, d, rfl⟩ := hM
  obtain ⟨a', b', c', d', rfl⟩ := hN
  rw [square2_mul, asSquare_square2, asSquare_square2, asSquare_square2, square_mul]
  simp

lemma asSquare_adjoint (hM : ∃ a b c d, M = square2 a b c d) : M.adjoint.asSquare = M.asSquare.conjTranspose := by
  obtain ⟨a, b, c, d, rfl⟩ := hM
  rw [square2_adjoint, asSquare_square2, asSquare_square2, square_conjTranspose]
  simp

lemma smul_square2 (z a b c d : Cplx ℝ) : smul z (square2 a b c d) = square2 (z * a) (z * b) (z * c) (z * d) := by
  simp [smul, map, square2]

lemma asSquare_smul (hM : ∃ a b c d, M = square2 a b c d) (z : Cplx ℝ) :
    (smul z M).asSquare = z.value • M.asSquare := by
  obtain ⟨a, b, c, d, rfl⟩ := hM
  rw [smul_square2, asSquare_square2, asSquare_square2, smul_square]
  simp

lemma diagonal_two (x y : Cplx ℝ) : diagonal #[x, y] = square2 x .zero .zero y := ofFn_two _

namespace IsGate

variable {M N : Mat (Cplx ℝ)}

lemma mul (hM : M.IsGate) (hN : N.IsGate) : (M * N).IsGate := by
  refine ⟨?_, ?_⟩
  · obtain ⟨a, b, c, d, rfl⟩ := hM.small
    obtain ⟨a', b', c', d', rfl⟩ := hN.small
    exact ⟨_, _, _, _, square2_mul ..⟩
  · rw [asSquare_mul hM.small hN.small, Matrix.conjTranspose_mul, Matrix.mul_assoc,
      ← Matrix.mul_assoc _ M.asSquare, hM.unitary, Matrix.one_mul, hN.unitary]

lemma mul_conjTranspose (hM : M.IsGate) : M.asSquare * M.asSquare.conjTranspose = 1 := mul_eq_one_comm.mp hM.unitary

lemma mul_adjoint_mul (hM : M.IsGate) (N : Square) : M.asSquare * (M.asSquare.conjTranspose * N) = N := by
  rw [← mul_assoc, hM.mul_conjTranspose, one_mul]

lemma adjoint_mul_mul (hM : M.IsGate) (N : Square) : M.asSquare.conjTranspose * (M.asSquare * N) = N := by
  rw [← mul_assoc, hM.unitary, one_mul]

lemma adjoint (hM : M.IsGate) : M.adjoint.IsGate := by
  refine ⟨?_, ?_⟩
  · obtain ⟨a, b, c, d, rfl⟩ := hM.small; exact ⟨_, _, _, _, square2_adjoint ..⟩
  · rw [asSquare_adjoint hM.small, Matrix.conjTranspose_conjTranspose, hM.mul_conjTranspose]

lemma smul (hM : M.IsGate) {z : Cplx ℝ} (hz : ‖z.value‖ = 1) : (Mat.smul z M).IsGate := by
  refine ⟨?_, ?_⟩
  · obtain ⟨a, b, c, d, rfl⟩ := hM.small; exact ⟨_, _, _, _, smul_square2 ..⟩
  · have hn : star z.value * z.value = 1 := by rw [star_def, conj_mul', hz]; simp
    rw [asSquare_smul hM.small, Matrix.conjTranspose_smul, Matrix.smul_mul, Matrix.mul_smul, smul_smul,
      hn, one_smul, hM.unitary]

lemma diagonal {x y : Cplx ℝ} (hx : ‖x.value‖ = 1) (hy : ‖y.value‖ = 1) : (Mat.diagonal #[x, y]).IsGate := by
  refine ⟨⟨_, _, _, _, diagonal_two x y⟩, ?_⟩
  rw [diagonal_two, asSquare_square2, square_conjTranspose, square_mul, one_eq_square, square_inj]
  simp [conj_mul', hx, hy]

end IsGate

end Mat

namespace Multiplexor

/-! ### Diagonals -/

def diag (x y : ℂ) : Square := square x 0 0 y

lemma diag_mul (x y x' y' : ℂ) : diag x y * diag x' y' = diag (x * x') (y * y') := by simp [diag, square_mul]

lemma diag_comm (x y x' y' : ℂ) : diag x y * diag x' y' = diag x' y' * diag x y := by
  rw [diag_mul, diag_mul, mul_comm x, mul_comm y]

lemma diag_one : diag 1 1 = 1 := one_eq_square.symm

lemma smul_diag (z x y : ℂ) : z • diag x y = diag (z * x) (z * y) := by simp [diag, smul_square]

lemma conjTranspose_diag (x y : ℂ) : (diag x y).conjTranspose = diag (starRingEnd ℂ x) (starRingEnd ℂ y) := by
  simp [diag, square_conjTranspose]

/-- What stands between two gates of a row, by the value of the control. -/
def pattern (y : Bool) : Square := diag 1 (if y then I else -I)

/-! ### Rows of gates -/

/-- The product of a row of gates, with a pattern in front of each. -/
def braid (f p : ℕ → Square) : ℕ → Square
  | 0 => 1
  | k + 1 => f k * p k * braid f p k

section Braid

variable {f g p q : ℕ → Square}
variable {k j : ℕ} {C : Square}

lemma braid_congr (hf : ∀ j < k, f j = g j) (hp : ∀ j < k, p j = q j) : braid f p k = braid g q k := by
  induction k with
  | zero => rfl
  | succ k ih =>
    rw [braid, braid, hf k k.lt_succ_self, hp k k.lt_succ_self,
      ih (fun j hj => hf j (Nat.lt_succ_of_lt hj)) (fun j hj => hp j (Nat.lt_succ_of_lt hj))]

lemma braid_pass (hk : j + 1 < k) (hj : f j = C * g j)
    (hn : g (j + 1) = f (j + 1) * C) (hco : C * p (j + 1) = p (j + 1) * C)
    (hr : ∀ i < k, i ≠ j → i ≠ j + 1 → f i = g i) : braid f p k = braid g p k := by
  induction k with
  | zero => omega
  | succ k ih =>
    rcases Nat.lt_or_ge (j + 1) k with hl | hg
    · rw [braid, braid, ih hl fun i hi => hr i (Nat.lt_succ_of_lt hi), hr k k.lt_succ_self (by omega) (by omega)]
    · obtain rfl : k = j + 1 := by omega
      have hbe : braid f p j = braid g p j :=
        braid_congr (fun i hi => hr i (by omega) (by omega) (by omega)) fun _ _ => rfl
      simp only [braid, hj, hn, hbe, mul_assoc]
      rw [← mul_assoc C (p (j + 1)), hco, mul_assoc]

lemma braid_last (hj : f j = C * g j) (hr : ∀ i < j, f i = g i) : braid f p (j + 1) = C * braid g p (j + 1) := by
  rw [braid, braid, hj, braid_congr hr fun _ _ => rfl]; simp [mul_assoc]

lemma braid_double {P : Square} (hf : ∀ j < k, f j = g (2 * j + 1) * P * g (2 * j))
    (ho : ∀ j < k, q (2 * j + 1) = P) (he : ∀ j < k, q (2 * j) = p j) : braid f p k = braid g q (2 * k) := by
  induction k with
  | zero => rfl
  | succ k ih =>
    have hl := Nat.lt_succ_self k
    rw [braid, ih (fun j hj => hf j (by omega)) (fun j hj => ho j (by omega))
      (fun j hj => he j (by omega)), hf k hl, Nat.mul_succ, braid, braid, ho k hl, he k hl]
    simp [mul_assoc]

end Braid

/-! ### Splits -/

def core : Square := diag (exp ((pi / 2 / 2 : ℝ) * I)) (exp ((-(pi / 2 / 2) : ℝ) * I))

lemma core_def : core = diag (exp ((pi / 4 : ℝ) * I)) (exp ((-(pi / 4) : ℝ) * I)) := by
  rw [core, show pi / 2 / 2 = pi / 4 by ring]

/-- A split gives back the two gates that it was made for. -/
structure Split.Rebuilds (s : Split ℝ) (a b : Mat (Cplx ℝ)) : Prop where
  v : s.v.IsGate
  u : s.u.IsGate
  first : a.asSquare = s.r.asSquare.conjTranspose * s.u.asSquare * core * s.v.asSquare
  second : b.asSquare = s.r.asSquare * s.u.asSquare * core.conjTranspose * s.v.asSquare

lemma value_quarter₀ : (quarter₀ : Cplx ℝ).value = exp ((pi / 4 : ℝ) * I) := by
  rw [exp_angle, Real.cos_pi_div_four, Real.sin_pi_div_four]
  apply ext <;> simp [quarter₀, Base.sqrt_two_div_two]

lemma value_quarter₁ : (quarter₁ : Cplx ℝ).value = exp ((-(pi / 4) : ℝ) * I) := by
  rw [exp_angle, Real.cos_neg, Real.sin_neg, Real.cos_pi_div_four, Real.sin_pi_div_four]
  apply ext <;> simp [quarter₁, Base.sqrt_two_div_two]

/-- What a split leaves over, by the value of the control. -/
def Split.correction (s : Split ℝ) (y : Bool) : Square :=
  if y then (quarter₁ : Cplx ℝ).value • s.r.asSquare
  else (quarter₀ : Cplx ℝ).value • s.r.asSquare.conjTranspose

lemma core_eq : core = (quarter₀ : Cplx ℝ).value • pattern false ∧
    core.conjTranspose = (quarter₁ : Cplx ℝ).value • pattern true := by
  have hco : starRingEnd ℂ (quarter₀ : Cplx ℝ).value = (quarter₁ : Cplx ℝ).value := by
    apply ext <;> simp [quarter₀, quarter₁]
  have ht : (quarter₁ : Cplx ℝ).value = (quarter₀ : Cplx ℝ).value * -I := by
    apply ext <;> simp [quarter₀, quarter₁]
  have hba : (quarter₀ : Cplx ℝ).value = (quarter₁ : Cplx ℝ).value * I := by
    rw [ht, mul_assoc, neg_mul, I_mul_I, neg_neg, mul_one]
  rw [core_def, ← value_quarter₀, ← value_quarter₁, conjTranspose_diag, hco, ← hco, conj_conj, hco,
    pattern, pattern, smul_diag, smul_diag]
  simp [← ht, ← hba]

/-- **Two selected gates are a pattern between two gates, up to the correction.** -/
theorem Split.Rebuilds.eq {s : Split ℝ} {a b : Mat (Cplx ℝ)} (h : s.Rebuilds a b) (y : Bool) :
    (if y then b else a).asSquare = s.correction y * (s.u.asSquare * pattern y * s.v.asSquare) := by
  cases y with
  | false =>
    rw [if_neg (by simp), h.first, core_eq.1, correction, if_neg (by simp)]
    simp [mul_assoc]
  | true =>
    rw [if_pos rfl, h.second, core_eq.2, correction, if_pos rfl]
    simp [mul_assoc]

lemma splitPair_r (R : Routines ℝ) (a b : Mat (Cplx ℝ)) : ∃ x y, (splitPair R a b).r =
    Mat.diagonal #[x, y] ∧ ‖x.value‖ = 1 ∧ ‖y.value‖ = 1 :=
  ⟨_, _, rfl, by rw [Cplx.value_turn, norm_exp_ofReal_mul_I],
    by rw [Cplx.value_turn, norm_exp_ofReal_mul_I]⟩

end Multiplexor

def Routines.Splits (R : Routines ℝ) : Prop :=
  ∀ a b : Mat (Cplx ℝ), a.IsGate → b.IsGate → (Multiplexor.splitPair R a b).Rebuilds a b

end QuantumCircuits

/-! ### Spectrum -/

namespace QuantumCircuits

open Real List Cplx Mat
open Complex (I)
open Complex (norm_exp_ofReal_mul_I I_sq)
open Scalar (eq_real real_zero lt_real)

variable {M : Mat (Cplx ℝ)}

/-! ### Quotients and roots -/

namespace Cplx

variable {z : Cplx ℝ}

lemma re_im_of_norm (hz : ‖z.value‖ = 1) : z.re = cos z.value.arg ∧ z.im = sin z.value.arg := by
  have hp := abs_mul_exp_arg z.value
  rw [hz, Complex.ofReal_one, one_mul, exp_angle] at hp
  have hr := congrArg Complex.re hp
  have hi := congrArg Complex.im hp
  simp only [Complex.add_re, Complex.add_im, Complex.mul_re, Complex.mul_im, Complex.ofReal_re, Complex.ofReal_im,
    Complex.I_re, Complex.I_im, value_re, value_im] at hr hi
  exact ⟨by linarith, by linarith⟩

lemma value_sqrt (hz : ‖z.value‖ = 1) : z.sqrt.value = Complex.exp ((z.value.arg / 2 : ℝ) * Complex.I) := by
  obtain ⟨hre, hi⟩ := re_im_of_norm hz
  obtain ⟨hlo, hh⟩ := Complex.arg_mem_Ioc z.value
  generalize z.value.arg = d at hre hi hlo hh
  have hco : 0 ≤ cos (d / 2) := cos_nonneg_of_mem_Icc ⟨by linarith, by linarith⟩
  have ho := sin_sq_add_cos_sq (d / 2)
  have hcd : z.re = 2 * cos (d / 2) ^ 2 - 1 := by rw [hre, ← cos_two_mul]; ring_nf
  have hs : z.im = 2 * sin (d / 2) * cos (d / 2) := by rw [hi, ← sin_two_mul]; ring_nf
  have hn : ¬ (z.re = 0 ∧ z.im = 0) := by
    rintro ⟨h1, h2⟩
    have hci := sin_sq_add_cos_sq d
    rw [← hre, ← hi, h1, h2] at hci
    norm_num at hci
  have hex : Complex.exp ((d / 2 : ℝ) * Complex.I) = ⟨cos (d / 2), sin (d / 2)⟩ := by rw [← value_turn]; rfl
  have hab : z.abs = 1 := hz
  rw [hex, sqrt, hab]
  simp only [eq_real, Scalar.le_real, lt_real, Scalar.abs_real, Scalar.sqrt_real, real_zero,
    Scalar.real_one, Scalar.real_two, ← Bool.decide_and, ← Bool.decide_or, decide_eq_true_eq]
  rw [if_neg hn]
  rcases le_or_gt 0 z.re with hp | hng
  · rw [if_pos hp]
    have hr : √((|z.re| + 1) / 2) = cos (d / 2) := by
      rw [abs_of_nonneg hp, hcd, show (2 * cos (d / 2) ^ 2 - 1 + 1) / 2 = cos (d / 2) ^ 2 by ring, sqrt_sq hco]
    have hne : cos (d / 2) ≠ 0 := fun h => by rw [hcd, h] at hp; norm_num at hp
    rw [hr, hs]
    apply Complex.ext
    · rfl
    · show 2 * sin (d / 2) * cos (d / 2) / (2 * cos (d / 2)) = sin (d / 2)
      field_simp
  · rw [if_neg (not_le.2 hng)]
    have hr : √((|z.re| + 1) / 2) = |sin (d / 2)| := by
      rw [abs_of_neg hng, hcd, show (-(2 * cos (d / 2) ^ 2 - 1) + 1) / 2 = sin (d / 2) ^ 2 by linarith, sqrt_sq_eq_abs]
    have hne : sin (d / 2) ≠ 0 := fun h => by rw [h] at ho; rw [hcd] at hng; linarith
    have hsi : z.im < 0 ∨ (z.im = 0 ∧ 1 / z.im < 0) ↔ sin (d / 2) < 0 := by
      refine ⟨?_, fun hl => .inl ?_⟩
      · rintro (h | ⟨h, hin⟩)
        · exact not_le.1 fun hg => h.not_ge (hs ▸ mul_nonneg (mul_nonneg two_pos.le hg) hco)
        · simp [h] at hin
      · -- a negative sine leaves no angle at which the cosine is zero: `-π` is not principal
        have hd : d < 0 := not_le.1 fun hg => hl.not_ge (sin_nonneg_of_nonneg_of_le_pi (by linarith) (by linarith))
        have hp : 0 < cos (d / 2) := cos_pos_of_mem_Ioo ⟨by linarith, by linarith⟩
        rw [hs]; nlinarith
    rw [hr]
    apply Complex.ext
    · show |z.im| / (2 * |sin (d / 2)|) = cos (d / 2)
      have hne' : |sin (d / 2)| ≠ 0 := abs_ne_zero.2 hne
      rw [hs, abs_mul, abs_mul, abs_two, abs_of_nonneg hco]
      field_simp
    · refine (if_congr hsi rfl rfl).trans ?_
      split
      next h => rw [abs_of_neg h, neg_neg]
      next h => exact abs_of_nonneg (not_lt.1 h)

end Cplx

/-! ### Exact splits -/

namespace Multiplexor

/-- A matrix with determinant one whose first corner is `i` times a length. -/
def balanced (x : ℝ) (z : ℂ) : Square := square (x * I) z (-starRingEnd ℂ z) (-(x * I))

def balancedVectors (x : ℝ) (z : ℂ) : Square :=
  ((1 / √(2 * (1 + x)) : ℝ) : ℂ) • square (1 + x) (I * z) (I * starRingEnd ℂ z) (1 + x)

section Balanced

variable {x : ℝ} {z : ℂ} (hx : 0 ≤ x) (hz : x ^ 2 + ‖z‖ ^ 2 = 1)
include hx

omit hx in
lemma conj_mul_self (hz : x ^ 2 + ‖z‖ ^ 2 = 1) : starRingEnd ℂ z * z = (1 + x) * (1 - x) := by
  have hn : ((‖z‖ : ℝ) : ℂ) ^ 2 = 1 - (x : ℂ) ^ 2 := by rw [← Complex.ofReal_pow, eq_sub_of_add_eq' hz]; simp
  rw [Complex.conj_mul', hn]
  ring

lemma sq_factor : (((1 / √(2 * (1 + x)) : ℝ) : ℂ)) ^ 2 * (2 * (1 + x)) = 1 := by
  have hp : 0 < 2 * (1 + x) := by linarith
  have hr : (1 / √(2 * (1 + x))) ^ 2 * (2 * (1 + x)) = 1 := by rw [div_pow, sq_sqrt hp.le]; field_simp
  exact_mod_cast hr

include hz

lemma unitary_balancedVectors : (balancedVectors x z).conjTranspose * balancedVectors x z = 1 := by
  have hfa := sq_factor hx
  have hco := conj_mul_self hz
  rw [balancedVectors, smul_square, square_conjTranspose, square_mul, one_eq_square, square_inj]
  simp only [map_mul, Complex.conj_ofReal, Complex.conj_I, Complex.conj_conj, map_add, map_one]
  refine ⟨?_, by ring, by ring, ?_⟩ <;> linear_combination hfa - ((1 / √(2 * (1 + x)) : ℝ) : ℂ) ^ 2 * I ^ 2 * hco -
    ((1 / √(2 * (1 + x)) : ℝ) : ℂ) ^ 2 * (1 - x) * (1 + x) * I_sq

omit hx in
lemma balanced_mul_vectors : balanced x z * balancedVectors x z = balancedVectors x z * diag I (-I) := by
  have hco := conj_mul_self hz
  rw [balancedVectors, balanced, diag, Matrix.mul_smul, Matrix.smul_mul, square_mul, square_mul]
  congr 1
  rw [square_inj]
  refine ⟨?_, ?_, ?_, ?_⟩
  · linear_combination I * hco
  · linear_combination (x + 1) * z * I_sq
  · linear_combination -(x + 1) * starRingEnd ℂ z * I_sq
  · linear_combination -I * hco

end Balanced

lemma asSquare_balance {p q r s : Cplx ℝ} (hd : ‖p.value * s.value - q.value * r.value‖ = 1) :
    let t := (p.value * s.value - q.value * r.value).arg
    let f := (p.value / Complex.exp ((t / 2 : ℝ) * I)).arg
    (balance (square2 p q r s)).asSquare = diag (Complex.exp ((((π - t) / 2 - f) / 2 : ℝ) * I))
      (Complex.exp ((((π - t) / 2 + f + π) / 2 : ℝ) * I)) := by
  intro t f
  have hv : (square2 p q r s).polarDet.value = p.value * s.value - q.value * r.value := by
    rw [value_polarDet (n := 2) ⟨rfl, rfl⟩, Matrix.det_fin_two]; rfl
  have hr := value_sqrt (hv.symm ▸ hd : ‖(square2 p q r s).polarDet.value‖ = 1)
  have hco : (square2 p q r s).get 0 0 = p := rfl
  rw [balance, diagonal_two, asSquare_square2, diag]
  simp only [value_turn, arg_real, value_div, value_zero, hr, hv, hco, Scalar.pi_real, Scalar.real_two, t, f]

lemma isGate_balance (X : Mat (Cplx ℝ)) : (balance X).IsGate :=
  .diagonal (by rw [value_turn, norm_exp_ofReal_mul_I]) (by rw [value_turn, norm_exp_ofReal_mul_I])

/-- **The diagonal brings a unitary into balance.** -/
theorem exists_balanced {X : Mat (Cplx ℝ)} (hX : X.IsGate) :
    ∃ x z, 0 ≤ x ∧ x ^ 2 + ‖z‖ ^ 2 = 1 ∧ (balance X * X * balance X).asSquare = balanced x z := by
  have hB := isGate_balance X
  rw [asSquare_mul (hB.mul hX).small hB.small, asSquare_mul hB.small hX.small]
  have hU := hX.unitary
  obtain ⟨p, q, r, s, rfl⟩ := hX.small
  rw [asSquare_square2] at hU ⊢
  refine ⟨‖p.value‖, ?_⟩
  obtain ⟨hcl, hd, hp', hq', -⟩ := unitary_entries hU
  rw [asSquare_balance hd]
  generalize p.value * s.value - q.value * r.value = d at hd hp' hq'
  generalize ht : d.arg = t
  generalize hf : (p.value / Complex.exp ((t / 2 : ℝ) * I)).arg = f
  generalize hE : Complex.exp ((((π - t) / 2 - f) / 2 : ℝ) * I) = E
  generalize hF : Complex.exp ((((π - t) / 2 + f + π) / 2 : ℝ) * I) = F
  have htu : Complex.exp (t * I) = d := by
    have h := abs_mul_exp_arg d
    rwa [hd, Complex.ofReal_one, one_mul, ht] at h
  have hp : p.value = ‖p.value‖ * Complex.exp ((f + t / 2 : ℝ) * I) := by
    have h := abs_mul_exp_arg (p.value / Complex.exp ((t / 2 : ℝ) * I))
    rw [norm_div, norm_exp_ofReal_mul_I, div_one, hf, eq_div_iff (Complex.exp_ne_zero _), mul_assoc,
      ← Complex.exp_add] at h
    rw [Complex.ofReal_add, add_mul, h]
  -- the products of the three turns that the corners come down to
  have hfi : E * E * Complex.exp ((f + t / 2 : ℝ) * I) = I := by
    rw [← hE, ← Complex.exp_add, ← Complex.exp_add]
    refine Eq.trans (congrArg Complex.exp ?_) Complex.exp_pi_div_two_mul_I
    push_cast
    ring
  have hl : F * F * d * Complex.exp ((-(f + t / 2) : ℝ) * I) = -I := by
    have hba : -I = Complex.exp (π * I + π / 2 * I) := by
      rw [Complex.exp_add, Complex.exp_pi_mul_I, Complex.exp_pi_div_two_mul_I, neg_one_mul]
    rw [hba, ← hF, ← htu, ← Complex.exp_add, ← Complex.exp_add, ← Complex.exp_add]
    congr 1
    push_cast
    ring
  have hsi : F * E * d = starRingEnd ℂ (E * F) := by
    rw [map_mul, ← hE, ← hF, ← htu, Operation.conj_exp_angle, Operation.conj_exp_angle, ← Complex.exp_add,
      ← Complex.exp_add, ← Complex.exp_add, Complex.exp_eq_exp_iff_exists_int]
    exact ⟨1, by push_cast; ring⟩
  have hu : d * starRingEnd ℂ d = 1 := by rw [Complex.mul_conj', hd]; simp
  have hs : s.value = d * starRingEnd ℂ p.value := by
    rw [hp', map_mul, Complex.conj_conj, ← mul_assoc, hu, one_mul]
  have hr : r.value = -(d * starRingEnd ℂ q.value) := by
    rw [hq', map_neg, map_mul, Complex.conj_conj, mul_neg, neg_neg, ← mul_assoc, hu, one_mul]
  refine ⟨E * F * q.value, norm_nonneg _, ?_, ?_⟩
  · have hn : ‖E * F * q.value‖ = ‖r.value‖ := by
      rw [norm_mul, norm_mul, ← hE, ← hF, norm_exp_ofReal_mul_I, norm_exp_ofReal_mul_I, one_mul,
        one_mul, hq', norm_neg, norm_mul, hd, one_mul, RCLike.norm_conj]
    rw [hn, hcl]
  · have hco : E * p.value * E = ‖p.value‖ * I :=
      calc E * p.value * E
        _ = ‖p.value‖ * (E * E * Complex.exp ((f + t / 2 : ℝ) * I)) := by
          nth_rewrite 1 [hp]
          ring
        _ = ‖p.value‖ * I := by rw [hfi]
    have hco' : F * s.value * F = -(‖p.value‖ * I) :=
      calc F * s.value * F
        _ = ‖p.value‖ * (F * F * d * Complex.exp ((-(f + t / 2) : ℝ) * I)) := by
          rw [hs, congrArg (starRingEnd ℂ) hp, map_mul, Complex.conj_ofReal, Operation.conj_exp_angle]
          ring
        _ = -(‖p.value‖ * I) := by rw [hl, mul_neg]
    have hbe : F * r.value * E = -starRingEnd ℂ (E * F * q.value) := by rw [map_mul, ← hsi, hr]; ring
    rw [diag, square_mul, square_mul, balanced, square_inj, ← hco', ← hco, ← hbe]
    refine ⟨?_, ?_, ?_, ?_⟩ <;> ring

lemma core_eq_roots : core = diag (unit : Cplx ℝ).sqrt.value (-unit : Cplx ℝ).sqrt.value := by
  rw [core_def, value_sqrt (by simp), value_sqrt (by simp), value_neg, value_unit, Complex.arg_I, Complex.arg_neg_I]
  congr 3 <;> push_cast <;> ring

lemma core_mul_core : core * core = diag I (-I) := by
  have hq : Complex.exp ((π / 4 : ℝ) * I + (π / 4 : ℝ) * I) = I := by
    refine Eq.trans (congrArg Complex.exp ?_) Complex.exp_pi_div_two_mul_I; push_cast; ring
  have hba : Complex.exp ((-(π / 4) : ℝ) * I + (-(π / 4) : ℝ) * I) = -I := by
    refine Eq.trans (congrArg Complex.exp ?_) ((Complex.exp_neg _).trans ((congrArg _ hq).trans Complex.inv_I))
    push_cast
    ring
  rw [core_def, diag_mul, ← Complex.exp_add, ← Complex.exp_add, hq, hba]

lemma conjTranspose_core_mul : core.conjTranspose * core = 1 := by
  rw [core_def, conjTranspose_diag, diag_mul, Complex.conj_mul', Complex.conj_mul', norm_exp_ofReal_mul_I,
    norm_exp_ofReal_mul_I, Complex.ofReal_one, one_pow, diag_one]

/-- The matrix whose eigenvectors split two gates. -/
def balancedQuotient (a b : Mat (Cplx ℝ)) : Mat (Cplx ℝ) :=
  balance (a * b.adjoint) * (a * b.adjoint) * balance (a * b.adjoint)

/-- The eigenvalues of a matrix, with orthonormal eigenvectors in the same order. -/
structure Diagonalizes (e : Eigen2 ℝ) (M : Mat (Cplx ℝ)) : Prop where
  vectors : e.vectors.IsGate
  values : M.asSquare * e.vectors.asSquare = e.vectors.asSquare * diag e.first.value e.second.value

lemma balanced_mul_balanced {x : ℝ} {z : ℂ} (hz : x ^ 2 + ‖z‖ ^ 2 = 1) : balanced x z * balanced x z = -1 := by
  have hco := conj_mul_self hz
  rw [balanced, square_mul, one_eq_square, ← neg_one_smul ℂ (square _ _ _ _), smul_square, square_inj]
  refine ⟨?_, by ring, by ring, ?_⟩
  · linear_combination (x : ℂ) ^ 2 * I_sq - hco
  · linear_combination (x : ℂ) ^ 2 * I_sq - hco

/-- **The eigenvalues of a balanced matrix are `i` and `-i`**, in one of the two orders. -/
theorem Diagonalizes.order {e : Eigen2 ℝ} (h : Diagonalizes e M) {x : ℝ} {z : ℂ} (hz : x ^ 2 + ‖z‖ ^ 2 = 1)
    (hM : M.asSquare = balanced x z) : (e.first = .unit ∨ e.first = -.unit) ∧ e.second = -e.first := by
  have hV := h.vectors.unitary
  have hd : diag e.first.value e.second.value =
      e.vectors.asSquare.conjTranspose * M.asSquare * e.vectors.asSquare := by
    rw [mul_assoc, h.values, ← mul_assoc, hV, one_mul]
  have ht : e.first.value + e.second.value = 0 := by
    have ht := congrArg Matrix.trace hd
    rw [Matrix.trace_mul_cycle, h.vectors.mul_conjTranspose, one_mul, hM] at ht
    simpa [Matrix.trace, diag, balanced, add_comm] using ht
  have hs : e.first.value ^ 2 = I ^ 2 := by
    have hn : diag e.first.value e.second.value * diag e.first.value e.second.value = -1 := by
      nth_rewrite 1 [hd]
      rw [mul_assoc, ← h.values, mul_assoc, ← mul_assoc M.asSquare, hM, balanced_mul_balanced hz, neg_mul,
        mul_neg, one_mul, hV]
    have hco := congrFun (congrFun hn false) false
    simpa [diag, square_mul, sq] using hco
  refine ⟨(sq_eq_sq_iff_eq_or_eq_neg.1 hs).imp (fun h => ?_) fun h => ?_, ?_⟩ <;> apply value_injective
  · simpa using h
  · simpa using h
  · simpa using eq_neg_of_add_eq_zero_right ht

lemma rootsAndVectors_eq {e : Eigen2 ℝ} (h : e.first = .unit ∨ e.first = -.unit) :
    rootsAndVectors e = (Mat.diagonal #[e.first.sqrt, e.second.sqrt], e.vectors) := by
  have hr : e.first.sqrt.value.re = cos (π / 4) := by
    rcases h with h | h <;> rw [h, value_sqrt (by simp)]
    · rw [value_unit, Complex.arg_I, Complex.exp_ofReal_mul_I_re]; ring_nf
    · rw [value_neg, value_unit, Complex.arg_neg_I, Complex.exp_ofReal_mul_I_re, ← cos_neg]; ring_nf
  have hp : 1 / 2 ≤ cos (π / 4) := by
    rw [cos_pi_div_four]
    have ho : (1 : ℝ) ≤ √2 := by rw [one_le_sqrt]; norm_num
    linarith
  have hfa : 1 / 2 ≤ abs (e.first.sqrt + .unit) := by
    have hre := Complex.abs_re_le_norm (e.first.sqrt + .unit).value
    rw [value_add, value_unit, Complex.add_re, hr, Complex.I_re, add_zero] at hre
    rw [abs_real, value_add, value_unit]
    exact hp.trans ((le_abs_self _).trans hre)
  have hn : Scalar.lt (abs (e.first.sqrt + .unit)) 1e-10 = false := by
    rw [lt_real, decide_eq_false_iff_not, not_lt]; exact le_trans (by norm_num) hfa
  simp only [rootsAndVectors, hn, Bool.false_eq_true, if_false]

lemma conjTranspose_core : core.conjTranspose = diag (-unit : Cplx ℝ).sqrt.value (unit : Cplx ℝ).sqrt.value := by
  rw [core_def, conjTranspose_diag, Operation.conj_exp_angle, Operation.conj_exp_angle, value_sqrt (by simp),
    value_sqrt (by simp), value_neg, value_unit, Complex.arg_I, Complex.arg_neg_I]
  congr 3 <;> push_cast <;> ring

section SplitPair

variable {R : Routines ℝ} {a b : Mat (Cplx ℝ)} {e : Eigen2 ℝ}

variable (ha : a.IsGate) (hb : b.IsGate) (he : R.eigen2 (balancedQuotient a b) = e)
  (h : Diagonalizes e (balancedQuotient a b))
include ha hb h

lemma order_eigen : (e.first = .unit ∨ e.first = -.unit) ∧ e.second = -e.first := by
  obtain ⟨x, z, -, hz, hba⟩ := exists_balanced (ha.mul hb.adjoint); exact h.order hz hba

lemma vectors_mul_diag (N : Square) : e.vectors.asSquare * (diag e.first.value e.second.value * N) =
    (balance (a * b.adjoint)).asSquare * (a.asSquare * (b.asSquare.conjTranspose *
      ((balance (a * b.adjoint)).asSquare * (e.vectors.asSquare * N)))) := by
  have hB := isGate_balance (a * b.adjoint)
  have hX := ha.mul hb.adjoint
  have hN := congrArg (· * N) h.values
  rw [balancedQuotient, asSquare_mul (hB.mul hX).small hB.small, asSquare_mul hB.small hX.small,
    asSquare_mul ha.small hb.adjoint.small, asSquare_adjoint hb.small] at hN
  simpa only [mul_assoc] using hN.symm

include he

lemma splitPair_eq : splitPair R a b = ⟨diagonal #[e.first.sqrt, e.second.sqrt] * e.vectors.adjoint *
    (balance (a * b.adjoint)).adjoint * b, e.vectors, balance (a * b.adjoint)⟩ := by
  have hr := rootsAndVectors_eq (order_eigen ha hb h).1
  rw [← he, balancedQuotient] at hr
  simp only [splitPair, hr, ← he, balancedQuotient]

lemma splitPair_v : (splitPair R a b).v.IsGate ∧ (splitPair R a b).v.asSquare =
    diag e.first.sqrt.value e.second.sqrt.value * (e.vectors.asSquare.conjTranspose *
      ((balance (a * b.adjoint)).asSquare.conjTranspose * b.asSquare)) := by
  have hB := isGate_balance (a * b.adjoint)
  have hV := h.vectors
  obtain ⟨hfi, hs⟩ := order_eigen ha hb h
  have hu : ‖e.first.value‖ = 1 := by rcases hfi with h1 | h1 <;> simp [h1]
  have hD : (diagonal #[e.first.sqrt, e.second.sqrt]).IsGate :=
    .diagonal (by rw [value_sqrt hu, norm_exp_ofReal_mul_I])
      (by rw [hs, value_sqrt (by simpa using hu), norm_exp_ofReal_mul_I])
  rw [splitPair_eq ha hb he h]
  refine ⟨((hD.mul hV.adjoint).mul hB.adjoint).mul hb, ?_⟩
  rw [asSquare_mul ((hD.mul hV.adjoint).mul hB.adjoint).small hb.small,
    asSquare_mul (hD.mul hV.adjoint).small hB.adjoint.small, asSquare_mul hD.small hV.adjoint.small,
    asSquare_adjoint hV.small, asSquare_adjoint hB.small, diagonal_two, asSquare_square2, value_zero, ← diag]
  simp only [mul_assoc]

lemma rebuilds_of_first (h1 : e.first = .unit) : (splitPair R a b).Rebuilds a b := by
  have hB := isGate_balance (a * b.adjoint)
  have h2 := (order_eigen ha hb h).2
  obtain ⟨hv, hva⟩ := splitPair_v ha hb he h
  have hp := vectors_mul_diag ha hb h
  rw [h2, h1, ← core_eq_roots] at hva
  rw [h2, h1, value_neg, value_unit, ← core_mul_core] at hp
  have hs := splitPair_eq ha hb he h
  refine ⟨hv, hs ▸ h.vectors, ?_, ?_⟩
  · rw [hva, hs]
    simp only [mul_assoc] at hp ⊢
    rw [hp, h.vectors.mul_adjoint_mul, hB.mul_adjoint_mul, hb.unitary, mul_one, hB.adjoint_mul_mul]
  · rw [hva, hs]
    simp only [mul_assoc]
    rw [← mul_assoc core.conjTranspose, conjTranspose_core_mul, one_mul, h.vectors.mul_adjoint_mul, hB.mul_adjoint_mul]

lemma not_rebuilds_of_first (h1 : e.first = -.unit) : ¬ (splitPair R a b).Rebuilds a b := by
  intro hr
  have hB := isGate_balance (a * b.adjoint)
  have h2 : e.second = .unit := by rw [(order_eigen ha hb h).2, h1]; exact value_injective (by simp)
  have hfi := hr.first
  rw [(splitPair_v ha hb he h).2, splitPair_eq ha hb he h, h2, h1, ← conjTranspose_core] at hfi
  simp only [mul_assoc] at hfi
  rw [← mul_assoc core, mul_eq_one_comm.1 conjTranspose_core_mul, one_mul, h.vectors.mul_adjoint_mul] at hfi
  -- then the balanced quotient is one, but one has no eigenvalue `-i`
  have ho := vectors_mul_diag ha hb h 1
  rw [hfi] at ho
  simp only [mul_assoc, mul_one] at ho
  rw [← mul_assoc b.asSquare, hb.mul_conjTranspose, one_mul, hB.mul_adjoint_mul, hB.adjoint_mul_mul] at ho
  have hd := h.vectors.adjoint_mul_mul (diag e.first.value e.second.value)
  rw [ho, h.vectors.unitary, h1] at hd
  have hco := congrArg Complex.im (congrFun (congrFun hd false) false)
  simp [diag] at hco

/-- **Two gates are split** into unitaries and a diagonal, whatever the order of the eigenvalues `i` and `-i`.
The split gives back the two gates if and only if `i` comes first: `-i` is looked for among the roots, where it
never is, so with `-i` first the roots stay in the wrong order. -/
theorem rebuilds_splitPair_iff : ((splitPair R a b).v.IsGate ∧ (splitPair R a b).u.IsGate ∧
      ∃ x y, (splitPair R a b).r = Mat.diagonal #[x, y] ∧ ‖x.value‖ = 1 ∧ ‖y.value‖ = 1) ∧
    (e.first = .unit ∨ e.first = -.unit) ∧ ((splitPair R a b).Rebuilds a b ↔ e.first = .unit) := by
  have ho := (order_eigen ha hb h).1
  have hu : (splitPair R a b).u.IsGate := splitPair_eq ha hb he h ▸ h.vectors
  refine ⟨⟨(splitPair_v ha hb he h).1, hu, splitPair_r R a b⟩, ho, fun hr => ?_, rebuilds_of_first ha hb he h⟩
  exact ho.resolve_right fun h1 => not_rebuilds_of_first ha hb he h h1 hr

end SplitPair

/-! ### Exact routines -/

/-- The eigenvectors of a balanced matrix, that of `i` first. -/
def vectorsOf (M : Mat (Cplx ℝ)) : Mat (Cplx ℝ) :=
  let V := balancedVectors (M.get 0 0).im (M.get 0 1).value
  .square2 (.ofValue (V false false)) (.ofValue (V false true)) (.ofValue (V true false)) (.ofValue (V true true))

/-- Routines that find the eigenvectors of balanced matrices exactly. -/
def exactRoutines : Routines ℝ := { Routines.byRotations with eigen2 := fun M => ⟨.unit, -.unit, vectorsOf M⟩ }

lemma diagonalizes_vectorsOf (hM : M.IsGate) {x : ℝ} {z : ℂ} (hx : 0 ≤ x) (hz : x ^ 2 + ‖z‖ ^ 2 = 1)
    (h : M.asSquare = balanced x z) : Diagonalizes ⟨.unit, -.unit, vectorsOf M⟩ M := by
  have hr : (vectorsOf M).asSquare = balancedVectors x z := by
    obtain ⟨a, b, c, d, rfl⟩ := hM.small
    rw [asSquare_square2, balanced, square_inj] at h
    have hre : a.im = x := by
      have hi := congrArg Complex.im h.1
      simpa using hi
    rw [vectorsOf, asSquare_square2, eq_square (balancedVectors x z)]
    rw [← hre, ← h.2.1]
    rfl
  refine ⟨⟨⟨_, _, _, _, rfl⟩, ?_⟩, ?_⟩
  · rw [hr, unitary_balancedVectors hx hz]
  · rw [hr, h, value_neg, value_unit, balanced_mul_vectors hz]

variable {a b : Mat (Cplx ℝ)}

lemma diagonalizes_exactRoutines (ha : a.IsGate) (hb : b.IsGate) :
    Diagonalizes (exactRoutines.eigen2 (balancedQuotient a b)) (balancedQuotient a b) := by
  have hX := ha.mul hb.adjoint
  have hB := isGate_balance (a * b.adjoint)
  obtain ⟨x, z, hx, hz, hba⟩ := exists_balanced hX
  exact diagonalizes_vectorsOf ((hB.mul hX).mul hB) hx hz hba

/-- **Exact eigenvectors give exact splits.** -/
theorem splits_exactRoutines : exactRoutines.Splits := fun _ _ ha hb =>
  rebuilds_of_first ha hb rfl (diagonalizes_exactRoutines ha hb) rfl

/-! ### Rotations -/

def rotated (c s : ℝ) : Mat (Cplx ℝ) := .square2 (.ofReal c) (.ofReal (-s)) (.ofReal s) (.ofReal c)

lemma asSquare_rotated (c s : ℝ) : (rotated c s).asSquare = square c (-s) s c := by
  rw [rotated, asSquare_square2]; simp

lemma isGate_rotated {c s : ℝ} (h : c ^ 2 + s ^ 2 = 1) : (rotated c s).IsGate := by
  have hu : (c : ℂ) ^ 2 + (s : ℂ) ^ 2 = 1 := by exact_mod_cast h
  refine ⟨⟨_, _, _, _, rfl⟩, ?_⟩
  rw [asSquare_rotated, square_conjTranspose, square_mul, one_eq_square, square_inj]
  simp only [map_neg, Complex.conj_ofReal]
  refine ⟨?_, ?_, ?_, ?_⟩
  · linear_combination hu
  · ring
  · ring
  · linear_combination hu

/-- A quarter turn and the gate that does nothing are split. -/
theorem rebuilds_splitPair_iff_quarter :
    (splitPair exactRoutines (rotated 0 1) (rotated 1 0)).Rebuilds (rotated 0 1) (rotated 1 0) :=
  have ha : (rotated 0 1).IsGate := isGate_rotated (by norm_num)
  have hb : (rotated 1 0).IsGate := isGate_rotated (by norm_num)
  (rebuilds_splitPair_iff ha hb rfl (diagonalizes_exactRoutines ha hb)).2.2.2 rfl

/-- Routines that list the eigenvectors of balanced matrices the other way round. -/
def turnedRoutines : Routines ℝ :=
  { Routines.byRotations with eigen2 := fun M => ⟨-.unit, .unit, vectorsOf M * .square2 .zero .one .one .zero⟩ }

lemma diagonalizes_turnedRoutines (ha : a.IsGate) (hb : b.IsGate) :
    Diagonalizes (turnedRoutines.eigen2 (balancedQuotient a b)) (balancedQuotient a b) := by
  obtain ⟨hv, hva⟩ := diagonalizes_exactRoutines ha hb
  have hfl : (square2 .zero .one .one .zero : Mat (Cplx ℝ)).IsGate :=
    ⟨⟨_, _, _, _, rfl⟩, by simp [square_conjTranspose, square_mul, one_eq_square]⟩
  refine ⟨hv.mul hfl, ?_⟩
  simp only [exactRoutines, turnedRoutines] at hv hva ⊢
  rw [asSquare_mul hv.small hfl.small, ← mul_assoc, hva, mul_assoc, mul_assoc]
  simp [diag, square_mul]

/-- **With `-i` first**, they do not come back. -/
theorem not_rebuilds_splitPair_quarter :
    Diagonalizes (turnedRoutines.eigen2 (balancedQuotient (rotated 0 1) (rotated 1 0)))
        (balancedQuotient (rotated 0 1) (rotated 1 0)) ∧
      ¬ (splitPair turnedRoutines (rotated 0 1) (rotated 1 0)).Rebuilds (rotated 0 1) (rotated 1 0) := by
  have ha : (rotated 0 1).IsGate := isGate_rotated (by norm_num)
  have hb : (rotated 1 0).IsGate := isGate_rotated (by norm_num)
  have ht := diagonalizes_turnedRoutines ha hb
  exact ⟨ht, not_rebuilds_of_first ha hb rfl ht rfl⟩

end Multiplexor

end QuantumCircuits

end
