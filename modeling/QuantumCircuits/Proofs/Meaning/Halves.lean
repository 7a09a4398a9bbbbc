import QuantumCircuits.Proofs.Meaning.Chain
import QuantumCircuits.Proofs.Meaning.OneQubit

/-!
# Meaning — Halves

Rotations under two or more controls.  A matrix of determinant one with a real diagonal is
`(A† X A X)²` (`twoRounds_root`); with each negation under one half of the controls, the product is left
when all of them are on, and cancels otherwise (`halves_product`).
-/

noncomputable section

namespace QuantumCircuits

open Real ControlledRotation List Cplx Base Mat Axis
open Complex (I)
open Complex (ext ofReal_cos ofReal_sin)
open Scalar (real_two real_zero)

variable {axis : Axis} {a x : ℝ} {s : Shape ℝ}

/-! ### The root of a rotation -/

lemma root_numbers {zr zi : ℝ} (h : zr ^ 2 + zi ^ 2 + x ^ 2 = 1) (hn : zr ≠ -1) :
    let w := √((zr + 1) / 2)
    let scale := 2 * √((zr + 1) * (w + 1))
    let u := √((w + 1) / 2)
    0 < w ∧ 2 * w ^ 2 = zr + 1 ∧ u ^ 2 - (zi / scale) ^ 2 - (x / scale) ^ 2 = w ∧
      u ^ 2 + (zi / scale) ^ 2 + (x / scale) ^ 2 = 1 ∧ 2 * w * (2 * u * (zi / scale)) = zi ∧
      2 * w * (2 * u * (x / scale)) = x := by
  intro w scale u
  have hzr : -1 < zr := by
    have hle : -1 ≤ zr := by nlinarith [sq_nonneg zi, sq_nonneg x]
    exact lt_of_le_of_ne hle hn.symm
  have hw : 0 < w := sqrt_pos.mpr (by linarith)
  have hw2 : w ^ 2 = (zr + 1) / 2 := sq_sqrt (by linarith)
  have hu2 : u ^ 2 = (w + 1) / 2 := sq_sqrt (by linarith)
  have hu : 0 < u := sqrt_pos.mpr (by linarith)
  have hs2 : scale ^ 2 = 8 * w ^ 2 * (w + 1) := by
    rw [mul_pow, sq_sqrt (by nlinarith), hw2]
    ring
  have hs : 0 < scale := by
    have : 0 < √((zr + 1) * (w + 1)) := sqrt_pos.mpr (by nlinarith)
    linarith
  have hus : u * scale = 2 * w * (w + 1) := by
    have hsq : (u * scale) ^ 2 = (2 * w * (w + 1)) ^ 2 := by rw [mul_pow, hu2, hs2]; ring
    exact (sq_eq_sq₀ (by positivity) (by positivity)).mp hsq
  have hr : (zi / scale) ^ 2 + (x / scale) ^ 2 = (1 - w) / 2 := by
    rw [div_pow, div_pow, ← add_div, hs2, div_eq_div_iff (by positivity) two_ne_zero]
    have hz2 : zr = 2 * w ^ 2 - 1 := by linarith
    rw [hz2] at h
    linear_combination 2 * h
  have hco : ∀ y : ℝ, 2 * w * (2 * u * (y / scale)) = y := by
    intro y
    have hl : 2 * w * (2 * u * (y / scale)) = 4 * w * (u * scale) * y / scale ^ 2 := by field_simp; ring
    rw [hl, hus, hs2]
    field_simp
    ring
  refine ⟨hw, by linarith, by linarith, by linarith, hco zi, hco x⟩

lemma re_ne_minus_one {z : Cplx ℝ} {y : ℝ} (hn : z.re ^ 2 + z.im ^ 2 + y ^ 2 = 1)
    (h : z.isClose (-.one) 1e-5 1e-8 ≠ true) : z.re ≠ -1 := by
  intro hr
  apply h
  have hi : z.im = 0 := by rw [hr] at hn; nlinarith [sq_nonneg z.im, sq_nonneg y]
  have h1 : (-(one : Cplx ℝ)).re = -1 := by change -(1.0 : ℝ) = -1; norm_num
  have h2 : (-(one : Cplx ℝ)).im = 0 := by change -(0.0 : ℝ) = 0; norm_num
  simp [isClose, hr, hi, h1, h2]

lemma root_unitary (hn : s.z.re ^ 2 + s.z.im ^ 2 + (s.x.re ^ 2 + s.x.im ^ 2) = 1) :
    (root s).asSquare.conjTranspose * (root s).asSquare = 1 := by
  by_cases hcl : s.z.isClose (-.one) 1e-5 1e-8 = true
  · rw [root, if_pos hcl]; simp [square_conjTranspose, square_mul, one_eq_square]
  · have hs : √(s.x.re ^ 2 + s.x.im ^ 2) ^ 2 = s.x.re ^ 2 + s.x.im ^ 2 := sq_sqrt (by positivity)
    have hn' : s.z.re ^ 2 + s.z.im ^ 2 + √(s.x.re ^ 2 + s.x.im ^ 2) ^ 2 = 1 := by rw [hs, hn]
    obtain ⟨-, -, -, ho, -, -⟩ := root_numbers hn' (re_ne_minus_one hn' hcl)
    rw [root, if_neg hcl]
    simp only [Scalar.real_one, real_two, Scalar.sqrt_real, asSquare_square2,
      square_conjTranspose, square_mul, one_eq_square, square_inj]
    set w := √((s.z.re + 1) / 2)
    set scale := 2 * √((s.z.re + 1) * (w + 1))
    set u := √((w + 1) / 2)
    have ho' : u ^ 2 + (s.z.im / scale) ^ 2 + (s.x.re / scale) ^ 2 + (s.x.im / scale) ^ 2 = 1 := by
      rw [div_pow √(s.x.re ^ 2 + s.x.im ^ 2), hs, add_div, ← div_pow, ← div_pow] at ho; linarith
    refine ⟨?_, ?_, ?_, ?_⟩ <;> apply ext <;> simp
    · linear_combination ho'
    · ring
    · ring
    · ring
    · ring
    · ring
    · linear_combination ho'
    · ring

/-- A gate and its inverse between negations, twice. -/
def twoRounds (A : Square) : Square :=
  A.conjTranspose * Base.x.square [] * A * Base.x.square [] *
    (A.conjTranspose * Base.x.square [] * A * Base.x.square [])

lemma twoRounds_of_close (hcl : s.z.isClose (-.one) 1e-5 1e-8 = true) :
    twoRounds (root s).asSquare = -1 := by
  have hA : (root s).asSquare = square 1 0 0 I := by
    simp [root, hcl, asSquare_square2, value_one, value_zero, value_unit]
  rw [twoRounds, hA, square_x, one_eq_square, ← neg_one_smul ℂ (square 1 0 0 1), smul_square]
  simp only [square_conjTranspose, square_mul, square_inj]
  simp

/-- **A matrix of determinant one with a real second diagonal, by its root.** -/
theorem twoRounds_root (hx : s.x = .ofReal x) (hn : s.z.re ^ 2 + s.z.im ^ 2 + x ^ 2 = 1)
    (hm : s.z.isClose (-.one) 1e-5 1e-8 = true → s.z = -.one) :
    twoRounds (root s).asSquare = square (starRingEnd ℂ s.z.value) x (-x) s.z.value := by
  set A := (root s).asSquare with hAd
  by_cases hcl : s.z.isClose (-.one) 1e-5 1e-8 = true
  · have hz : s.z = -.one := hm hcl
    have hx0 : x = 0 := by
      rw [hz] at hn
      have h1 : (-(one : Cplx ℝ)).re = -1 := by change -(1.0 : ℝ) = -1; norm_num
      rw [h1] at hn
      nlinarith [sq_nonneg (-(one : Cplx ℝ)).im, sq_nonneg x]
    rw [twoRounds_of_close hcl, hx0, hz, one_eq_square, ← neg_one_smul ℂ (square 1 0 0 1), smul_square, square_inj]
    simp
  · obtain ⟨hw, hw2, hp, ho, hv, hy⟩ := root_numbers hn (re_ne_minus_one hn hcl)
    set w := √((s.z.re + 1) / 2)
    set scale := 2 * √((s.z.re + 1) * (w + 1))
    set u := √((w + 1) / 2)
    have hA : A = square (u + (s.z.im / scale : ℝ) * I) (-(x / scale : ℝ)) (x / scale : ℝ)
        (u - (s.z.im / scale : ℝ) * I) := by
      have hr : root s = square2 ⟨u, s.z.im / scale⟩ (-((ofReal x).shrink scale).conj)
          ((ofReal x).shrink scale) (conj ⟨u, s.z.im / scale⟩) := by
        rw [root, if_neg hcl, hx]
        simp only [Scalar.real_one, real_two, Scalar.sqrt_real]
        rfl
      simp only [hAd, hr, asSquare_square2, square_inj, value_neg, value_conj,
        value_shrink, value_ofReal, value_mk]
      refine ⟨?_, ?_, ?_, ?_⟩ <;> apply ext <;> simp
    set v := s.z.im / scale
    set y := x / scale
    have hI := Complex.I_mul_I
    have hp' : (u : ℂ) ^ 2 - v ^ 2 - y ^ 2 = w := by exact_mod_cast hp
    have ha : A.conjTranspose = square (u - v * I) y (-y) (u + v * I) := by
      rw [hA, square_conjTranspose, square_inj]; simp [sub_eq_add_neg]
    -- the product of two negations and the two gates, by its real numbers
    have hB : A.conjTranspose * Base.x.square [] * A * Base.x.square [] =
        square (w - 2 * u * v * I) (2 * u * y) (-(2 * u * y)) (w + 2 * u * v * I) := by
      rw [ha, hA, square_x, square_mul, square_mul, square_mul, square_inj]
      refine ⟨?_, ?_, ?_, ?_⟩
      · linear_combination hp' + (v : ℂ) ^ 2 * hI
      · ring
      · ring
      · linear_combination hp' + (v : ℂ) ^ 2 * hI
    have hv' : 2 * (w : ℂ) * (2 * u * v) = s.z.im := by exact_mod_cast hv
    have hy' : 2 * (w : ℂ) * (2 * u * y) = x := by exact_mod_cast hy
    have hre : (w : ℂ) ^ 2 - (2 * u * v) ^ 2 - (2 * u * y) ^ 2 = s.z.re := by
      have hra : w ^ 2 - (2 * u * v) ^ 2 - (2 * u * y) ^ 2 = s.z.re := by
        apply mul_left_cancel₀ (by positivity : 4 * w ^ 2 ≠ 0)
        linear_combination -(2 * w * (2 * u * v) + s.z.im) * hv - (2 * w * (2 * u * y) + x) * hy -
          hn + (2 * w ^ 2 - s.z.re + 1) * hw2
      exact_mod_cast hra
    rw [twoRounds, hB, square_mul, square_inj]
    have hz : s.z.value = s.z.re + s.z.im * I := (Complex.re_add_im s.z.value).symm
    have hzc : starRingEnd ℂ s.z.value = s.z.re - s.z.im * I := by rw [hz]; simp [sub_eq_add_neg]
    rw [hzc, hz]
    refine ⟨?_, ?_, ?_, ?_⟩
    · linear_combination hre - hv' * I + (2 * u * v : ℂ) ^ 2 * hI
    · linear_combination hy'
    · linear_combination -hy'
    · linear_combination hre + hv' * I + (2 * u * v : ℂ) ^ 2 * hI

/-! ### The shape of a rotation -/

lemma square_h_rx_h (a : ℝ) : h.square [] * rx.square [a] * h.square [] =
    square (cos (a / 2) - sin (a / 2) * Complex.I) 0 0 (cos (a / 2) + sin (a / 2) * Complex.I) := by
  rw [square_h, square_rx, square_mul, square_mul, square_inj, Complex.ofReal_neg]
  have hr := root_half
  set c : ℂ := ((cos (a / 2) : ℝ) : ℂ)
  set i : ℂ := ((sin (a / 2) : ℝ) : ℂ)
  refine ⟨?_, ?_, ?_, ?_⟩
  · linear_combination 2 * (c - i * Complex.I) * hr
  · ring
  · ring
  · linear_combination 2 * (c + i * Complex.I) * hr

lemma matrix_unitary (axis : Axis) (a : ℝ) : (axis.matrix a).asSquare.conjTranspose * (axis.matrix a).asSquare = 1 := by
  have hu : cos (a / 2) ^ 2 + sin (a / 2) ^ 2 = 1 := cos_sq_add_sin_sq _
  cases axis with
  | x =>
    change (rx.square [a]).conjTranspose * rx.square [a] = 1
    rw [square_rx, square_conjTranspose, square_mul, one_eq_square, square_inj]
    refine ⟨?_, ?_, ?_, ?_⟩ <;> apply ext <;> simp [-ofReal_cos, -ofReal_sin] <;> linarith
  | y =>
    change (ry.square [a]).conjTranspose * ry.square [a] = 1
    rw [square_ry, square_conjTranspose, square_mul, one_eq_square, square_inj]
    refine ⟨?_, ?_, ?_, ?_⟩ <;> apply ext <;> simp [-ofReal_cos, -ofReal_sin] <;> linarith
  | z =>
    change (rz.square [a]).conjTranspose * rz.square [a] = 1
    rw [square_rz, square_conjTranspose, square_mul, one_eq_square, square_inj]
    simp only [Operation.conj_exp_angle, ← exp_angle_add]
    simp

lemma close_zero : close (0.0 : ℝ) 0.0 = true := by rw [close, Scalar.isClose_real]; exact Or.inr rfl

lemma matrix_real (axis : Axis) (a : ℝ) :
    (close ((axis.matrix a).get 0 1).im 0.0 && close ((axis.matrix a).get 1 0).im 0.0) = true ∨
      ((axis.matrix a).get 0 0).im = 0.0 ∧ ((axis.matrix a).get 1 1).im = 0.0 := by
  cases axis with
  | x => exact Or.inr ⟨rfl, rfl⟩
  | y | z =>
    left
    change (close (0.0 : ℝ) 0.0 && close (0.0 : ℝ) 0.0) = true
    rw [close_zero, Bool.and_self]

lemma matrix_square2 (axis : Axis) (a : ℝ) : ∃ p q r s, axis.matrix a = square2 p q r s := by
  cases axis <;> exact ⟨_, _, _, _, rfl⟩

lemma readShape_norm (axis : Axis) (a : ℝ) :
    (readShape (axis.matrix a)).z.re ^ 2 + (readShape (axis.matrix a)).z.im ^ 2 +
      ((readShape (axis.matrix a)).x.re ^ 2 + (readShape (axis.matrix a)).x.im ^ 2) = 1 := by
  have hr := matrix_real axis a
  have hu := matrix_unitary axis a
  obtain ⟨p, q, r, s, hM⟩ := matrix_square2 axis a
  rw [hM] at hr hu ⊢
  have hco : q.re ^ 2 + q.im ^ 2 + (s.re ^ 2 + s.im ^ 2) = 1 := by
    rw [asSquare_square2, square_conjTranspose, square_mul, one_eq_square, square_inj] at hu
    have hre := congrArg Complex.re hu.2.2.2
    simp at hre
    linarith
  rw [readShape]
  split
  case isTrue =>
    change s.re ^ 2 + s.im ^ 2 + (q.re ^ 2 + q.im ^ 2) = 1
    linarith
  case isFalse hs =>
    have hi : s.im = 0 := by
      have h := (hr.resolve_left hs).2
      rw [Scalar.real_zero] at h
      exact h
    change (s.re - 0.0) ^ 2 + (s.im - q.im) ^ 2 + ((-q.re) ^ 2 + (0.0 : ℝ) ^ 2) = 1
    rw [hi] at hco ⊢
    norm_num
    linarith

lemma shape_norm {b : Bool} {z : Cplx ℝ} (h : readShape (axis.matrix a) = ⟨b, .ofReal x, z⟩) :
    z.re ^ 2 + z.im ^ 2 + x ^ 2 = 1 := by
  have hn := readShape_norm axis a
  rw [h] at hn
  simpa [ofReal] using hn

lemma readShape_x (a : ℝ) : readShape (Axis.x.matrix a) =
    if close (-sin (a / 2.0)) 0.0 then ⟨true, ⟨0.0, -sin (a / 2.0)⟩, .ofReal (cos (a / 2.0))⟩
    else ⟨false, .ofReal (-0.0), .ofReal (cos (a / 2.0)) - ⟨0.0, -sin (a / 2.0)⟩⟩ := by
  have h1 : ((x.matrix a).get 0 1).im = -sin (a / 2.0) := rfl
  have h2 : ((x.matrix a).get 1 0).im = -sin (a / 2.0) := rfl
  rw [readShape, h1, h2, Bool.and_self]
  rfl

lemma readShape_of_real {M : Mat (Cplx ℝ)} (h : (M.get 0 1).im = 0.0) (h' : (M.get 1 0).im = 0.0) :
    readShape M = ⟨true, M.get 0 1, M.get 1 1⟩ := by
  rw [readShape, h, h', close_zero]; rfl

lemma readShape_y (a : ℝ) : readShape (y.matrix a) = ⟨true, .ofReal (-sin (a / 2.0)), .ofReal (cos (a / 2.0))⟩ :=
  readShape_of_real rfl rfl

lemma readShape_z (a : ℝ) : readShape (z.matrix a) = ⟨true, .zero, .turn (a / 2.0)⟩ := readShape_of_real rfl rfl

lemma value_corner (a : ℝ) : (Cplx.ofReal (cos (a / 2.0)) - ⟨0.0, -sin (a / 2.0)⟩ : Cplx ℝ).value =
    cos (a / 2) + sin (a / 2) * Complex.I := by
  apply ext <;> simp [-ofReal_cos, -ofReal_sin]

lemma close_zero_iff (x : ℝ) : close x 0.0 = true ↔ |x| ≤ 1e-8 := by
  rw [close, Scalar.isClose_real]
  norm_num
  rintro rfl
  norm_num

/-- **The shape of a rotation**, with that of the opposite rotation: the second diagonal is a real number and its
opposite, and the corner is conjugated.  In the frame that the shape is read in, the rotation has the two
numbers for its entries. -/
lemma readShape_spec (hr : (readShape (axis.matrix a)).secondReal = true → axis = .x → sin (a / 2) = 0) :
    ∃ (b : Bool) (x : ℝ) (z : Cplx ℝ), readShape (axis.matrix a) = ⟨b, .ofReal x, z⟩ ∧
      readShape (axis.matrix (-a)) = ⟨b, .ofReal (-x), z.conj⟩ ∧ (z.im = 0 ∨ x = 0) ∧
      (if b then (axis.matrix a).asSquare else h.square [] * (axis.matrix a).asSquare * h.square []) =
        square (starRingEnd ℂ z.value) x (-x) z.value := by
  have hco : cos (-a / 2) = cos (a / 2) := by rw [neg_div, cos_neg]
  have hsi : sin (-a / 2) = -sin (a / 2) := by rw [neg_div, sin_neg]
  cases axis with
  | x =>
    have hU : (Axis.x.matrix a).asSquare = rx.square [a] := rfl
    have hsh := readShape_x a
    have hsh' := readShape_x (-a)
    have hv := value_corner a
    rw [real_two, real_zero] at hsh hsh' hv
    rw [hco, hsi, neg_neg] at hsh'
    by_cases hs : close (-sin (a / 2)) 0 = true
    · rw [if_pos hs] at hsh
      have hze : sin (a / 2) = 0 := hr (by rw [hsh]) rfl
      rw [hze, neg_zero] at hs hsh
      rw [hze, if_pos hs] at hsh'
      refine ⟨true, 0, .ofReal (cos (a / 2)), ?_, ?_, .inr rfl, ?_⟩
      · simp [hsh, Cplx.ofReal]
      · simp [hsh', Cplx.ofReal, Cplx.conj]
      · rw [if_pos rfl, hU, square_rx, hze, square_inj]; simp [-ofReal_cos]
    · rw [if_neg hs] at hsh
      have hs' : ¬ close (sin (a / 2)) 0 = true := by
        rw [← real_zero, close_zero_iff] at hs ⊢; rwa [abs_neg] at hs
      rw [if_neg hs'] at hsh'
      refine ⟨false, 0, .ofReal (cos (a / 2)) - ⟨0, -sin (a / 2)⟩, ?_, ?_, .inr rfl, ?_⟩
      · simp [hsh]
      · rw [hsh', neg_zero]
        congr 1
        apply Cplx.value_injective
        apply ext <;> simp [-ofReal_cos]
      · rw [if_neg Bool.false_ne_true, hU, square_h_rx_h, hv, square_inj]
        simp [sub_eq_add_neg, -ofReal_cos, -ofReal_sin]
  | y =>
    have hU : (Axis.y.matrix a).asSquare = ry.square [a] := rfl
    refine ⟨true, -sin (a / 2), .ofReal (cos (a / 2)), ?_, ?_, .inl real_zero, ?_⟩
    · rw [readShape_y, real_two]
    · rw [readShape_y, real_two, hco, hsi]; simp [Cplx.conj, Cplx.ofReal]
    · rw [if_pos rfl, hU, square_ry, square_inj]; simp [-ofReal_cos]
  | z =>
    have hU : (z.matrix a).asSquare = rz.square [a] := rfl
    refine ⟨true, 0, .turn (a / 2), ?_, ?_, .inr rfl, ?_⟩
    · rw [readShape_z, real_two]; simp [ofReal, zero]
    · rw [readShape_z, real_two, neg_zero]; simp [ofReal, Cplx.zero, Cplx.turn, Cplx.conj, neg_div]
    · rw [if_pos rfl, hU, square_rz, square_inj, Cplx.value_turn, Operation.conj_exp_angle, neg_div]
      simp

/-! ### What the tolerances decide -/

lemma Cplx.isClose_minus_one (z : Cplx ℝ) : z.isClose (-.one) 1e-5 1e-8 = true ↔ ‖z.value + 1‖ ≤ 1e-8 + 1e-5 := by
  have ho : (-(one : Cplx ℝ)).value = -1 := by simp
  rw [isClose_iff, ho, sub_neg_eq_add, norm_neg, norm_one, mul_one]

lemma secondReal_x (a : ℝ) : (readShape (Axis.x.matrix a)).secondReal = true ↔ |sin (a / 2)| ≤ 1e-8 := by
  rw [readShape_x, ← abs_neg, ← close_zero_iff, real_two]
  split <;> simp_all

/-! ### The two halves -/

/-- **Negations under two halves of the controls between a gate and its inverse, twice.** -/
theorem halves_product {P Q : Square} (hQ : Q * P = 1) (x y : Bool) :
    Q * (if y then Base.x.square [] else 1) * P * (if x then Base.x.square [] else 1) *
        (Q * (if y then Base.x.square [] else 1) * P * (if x then Base.x.square [] else 1)) =
      if x && y then Q * Base.x.square [] * P * Base.x.square [] *
        (Q * Base.x.square [] * P * Base.x.square []) else 1 := by
  have hP : P * Q = 1 := mul_eq_one_comm.mp hQ
  cases x <;> cases y <;> simp only [Bool.false_eq_true, if_true, if_false, mul_one,
    Bool.and_true, Bool.and_false, Bool.and_self, hQ, one_mul]
  · calc Q * x.square [] * P * (Q * x.square [] * P)
        = Q * (x.square [] * (P * Q) * x.square []) * P := by simp [mul_assoc]
      _ = 1 := by rw [hP, mul_one, square_x_mul_x, mul_one, hQ]
  · exact square_x_mul_x

lemma root_eq_square2 (s : Shape ℝ) : ∃ a b c d, root s = square2 a b c d := by
  rw [root]
  split
  · exact ⟨_, _, _, _, rfl⟩
  · exact ⟨_, _, _, _, rfl⟩

/-- The one-qubit gate that a rotation under controls is built from. -/
def rootSquare (axis : Axis) (a : ℝ) : Square := (root (readShape (axis.matrix a))).asSquare

lemma rootSquare_unitary (axis : Axis) (a : ℝ) :
    (rootSquare axis a).conjTranspose * rootSquare axis a = 1 := root_unitary (readShape_norm axis a)

lemma rootAngles_square (axis : Axis) (a : ℝ) : (rootAngles axis a).square = rootSquare axis a := by
  have hu := rootSquare_unitary axis a
  obtain ⟨α, β, γ, δ, hr⟩ := root_eq_square2 (readShape (axis.matrix a))
  rw [rootSquare, hr, asSquare_square2] at hu ⊢
  rw [OneQubit.Angles.square, rootAngles, hr]
  exact square_u3_angles hu

lemma rootAngles_clear (ht : Definite (rootAngles axis a).theta)
    (hph : Definite (rootAngles axis a).phi) (hl : Definite (rootAngles axis a).lam)
    (hp : Definite (rootAngles axis a).phase) : (rootAngles axis a).Clear := by
  obtain ⟨α, β, γ, δ, hr⟩ := root_eq_square2 (readShape (axis.matrix a))
  have ha : rootAngles axis a = OneQubit.u3 (square2 α β γ δ) := by rw [rootAngles, hr]
  refine ⟨ht, hph, hl, hp, ?_, ?_⟩
  · rw [ha]; exact theta_bounds.1
  · rw [ha]; exact theta_bounds.2

/-- The frame in which a rotation has a real second diagonal. -/
def frameSquare (axis : Axis) (a : ℝ) : Square :=
  if (readShape (axis.matrix a)).secondReal then 1 else h.square []

lemma frameSquare_mul_self (axis : Axis) (a : ℝ) : frameSquare axis a * frameSquare axis a = 1 := by
  rw [frameSquare]
  split
  · exact one_mul 1
  · exact square_h_mul_h

/-- What is left of a rotation under two or more controls when all of them are on. -/
def halvesSquare (axis : Axis) (a : ℝ) : Square :=
  frameSquare axis a * twoRounds (rootSquare axis a) * frameSquare axis a

/-- **What is left is the rotation**, if what counts as real is real and what counts as minus one is
minus one. -/
theorem halvesSquare_eq (hr : (readShape (axis.matrix a)).secondReal = true → axis = .x → sin (a / 2) = 0)
    (hm : (readShape (axis.matrix a)).z.isClose (-.one) 1e-5 1e-8 = true →
      (readShape (axis.matrix a)).z = -.one) : halvesSquare axis a = (axis.matrix a).asSquare := by
  obtain ⟨b, x, z, hsh, -, -, hfr⟩ := readShape_spec hr
  set U := (axis.matrix a).asSquare
  have hF : frameSquare axis a * U * frameSquare axis a = twoRounds (rootSquare axis a) := by
    rw [hsh] at hm
    rw [rootSquare, hsh, twoRounds_root rfl (shape_norm hsh) hm, ← hfr, frameSquare, hsh]
    split
    · rw [one_mul, mul_one]
    · rfl
  have hs := frameSquare_mul_self axis a
  calc halvesSquare axis a
      = frameSquare axis a * (frameSquare axis a * U * frameSquare axis a) * frameSquare axis a := by
        rw [halvesSquare, hF]
    _ = frameSquare axis a * frameSquare axis a * U * (frameSquare axis a * frameSquare axis a) := by
        simp [mul_assoc]
    _ = U := by rw [hs, one_mul, mul_one]

namespace Operation

variable {cs : List ℕ} {t : ℕ}

lemma first_sublist (cs : List ℕ) (half k : ℕ) : (cs.take half ++ (cs.take k).drop half).Sublist cs := by
  rw [drop_take]
  conv_rhs => rw [← take_append_drop half cs]
  exact (Sublist.refl _).append (take_sublist _ _)

lemma second_sublist (cs : List ℕ) (half k : ℕ) : ((cs.take half).drop k ++ cs.drop half).Sublist cs := by
  conv_rhs => rw [← take_append_drop half cs]
  exact (drop_sublist _ _).append (Sublist.refl _)

lemma onChain_first (hcs : cs.Nodup) (ht : t ∉ cs) (h2 : 2 ≤ cs.length) : OnChain (cs.take ((cs.length + 1) / 2))
      ((cs.take (2 * ((cs.length + 1) / 2) - 2)).drop ((cs.length + 1) / 2)) t := by
  have hs := first_sublist cs ((cs.length + 1) / 2) (2 * ((cs.length + 1) / 2) - 2)
  refine ⟨hcs.sublist hs, fun hm => ht (hs.subset hm), ?_, ?_⟩
  · exact ne_nil_of_length_pos (by rw [length_take]; omega)
  · simp only [length_take, length_drop]; omega

lemma onChain_second (hcs : cs.Nodup) (ht : t ∉ cs) (h2 : 2 ≤ cs.length) : OnChain (cs.drop ((cs.length + 1) / 2))
      ((cs.take ((cs.length + 1) / 2)).drop ((cs.length + 1) / 2 - cs.length / 2 + 2)) t := by
  have hs := second_sublist cs ((cs.length + 1) / 2) ((cs.length + 1) / 2 - cs.length / 2 + 2)
  refine ⟨nodup_append_comm.mp (hcs.sublist hs), fun hm => ht (hs.subset ?_), ?_, ?_⟩
  · rw [mem_append] at hm ⊢; exact hm.symm
  · exact ne_nil_of_length_pos (by rw [length_drop]; omega)
  · simp only [length_take, length_drop]; omega

/-- The one-qubit gate that a rotation under controls is built from, and its inverse, are placed
exactly. -/
structure PlacesRoot (axis : Axis) (a : ℝ) (t : ℕ) : Prop where
  placed : ∀ V, acts (placed (rootAngles axis a) t) V = select t (fun _ => rootSquare axis a) V
  unplaced : ∀ V, acts (unplaced (rootAngles axis a) t) V = select t (fun _ => (rootSquare axis a).conjTranspose) V

lemma placesRoot_of_clear (h : (rootAngles axis a).Clear) (t : ℕ) : PlacesRoot axis a t where
  placed V := by rw [acts_placed h, rootAngles_square]
  unplaced V := by rw [acts_unplaced h, rootAngles_square]

/-- **A rotation under two or more controls, whatever the tolerances make of it.** -/
theorem acts_halvesParts_root (h : PlacesRoot axis a t)
    (hcs : cs.Nodup) (ht : t ∉ cs) (h2 : 2 ≤ cs.length) (V : Wave) : acts (halvesParts axis a cs t) V =
      gated (allOn cs) (select t fun _ => halvesSquare axis a) V := by
  set P := rootSquare axis a
  set half := (cs.length + 1) / 2
  set rest := cs.length / 2
  have h₁ : OnChain (cs.take half) ((cs.take (2 * half - 2)).drop half) t := onChain_first hcs ht h2
  have h₂ : OnChain (cs.drop half) ((cs.take half).drop (half - rest + 2)) t := onChain_second hcs ht h2
  have hch : ∀ {as bs : List ℕ}, OnChain as bs t → ∀ V, acts (chainParts as bs t) V =
      select t (fun b => if allOn as b then x.square [] else 1) V := fun h V => by rw [acts_chainParts h, gated_select]
  have hbl : ∀ {as bs : List ℕ}, OnChain as bs t → Blind t fun b => if allOn as b then x.square [] else 1 := fun h =>
    (blind_allOn fun hm => h.target (mem_append_left _ hm)).map fun x => if x then Base.x.square [] else 1
  have hb₁ := hbl h₁
  have hb₂ := hbl h₂
  -- one round, and two
  set Q := P.conjTranspose
  set round := chainParts (cs.take half) ((cs.take (2 * half - 2)).drop half) t ++ placed (rootAngles axis a) t ++
    chainParts (cs.drop half) ((cs.take half).drop (half - rest + 2)) t ++
    unplaced (rootAngles axis a) t with hr
  have ho : ∀ V, acts round V = select t (fun b => Q * (if allOn (cs.drop half) b then
      x.square [] else 1) * P * (if allOn (cs.take half) b then x.square [] else 1)) V := by
    intro V
    rw [hr, acts_append, acts_append, acts_append, hch h₁, h.placed, hch h₂, h.unplaced,
      select_select hb₁, select_select ((blind_const t P).mul hb₁),
      select_select (hb₂.mul ((blind_const t P).mul hb₁))]
    simp [mul_assoc, Q, P]
  have htwo : ∀ V, acts (round ++ round) V = gated (allOn cs) (select t fun _ => twoRounds P) V := by
    intro V
    rw [acts_append, ho, ho, select_select, gated_select]
    · refine congrFun (select_congr fun b => ?_) V
      rw [halves_product (rootSquare_unitary axis a), ← allOn_append, take_append_drop]
      rfl
    · exact (((blind_const t Q).mul hb₂).mul (blind_const t P)).mul hb₁
  have ha : acts (halvesParts axis a cs t) V =
      acts (if (readShape (axis.matrix a)).secondReal then [] else [on .h [t]]) (acts (round ++ round)
          (acts (if (readShape (axis.matrix a)).secondReal then [] else [on .h [t]]) V)) := by
    rw [← acts_append, ← acts_append]
    simp only [halvesParts, roundsParts, hr, append_assoc]
    rfl
  rw [ha, htwo, halvesSquare, frameSquare]
  cases (readShape (axis.matrix a)).secondReal with
  | true => rw [if_pos rfl, if_pos rfl, acts_nil, acts_nil, one_mul, mul_one]
  | false =>
    exact gated_between (by simpa using ht) (nodup_singleton t) square_h_mul_h rfl V

/-- **A rotation under two or more controls.** -/
theorem acts_halvesParts (h : Decided axis a) (hcs : cs.Nodup) (ht : t ∉ cs) (h2 : 2 ≤ cs.length) (V : Wave) :
    acts (halvesParts axis a cs t) V = gated (allOn cs) (select t fun _ => (axis.matrix a).asSquare) V := by
  have hcl := rootAngles_clear h.theta h.phi h.lam h.phase
  rw [acts_halvesParts_root (placesRoot_of_clear hcl t) hcs ht h2, halvesSquare_eq h.real h.minusOne]

end Operation

/-! ### Opposite

Rotations under controls by opposite angles.  The shape of a rotation by the opposite angle has its
corner conjugated and its other number negated, so the angles of the two roots are opposite, up to a
half turn where a number changes its sign.  No tolerance is decided wrongly for one of the rotations if
none is for the other (`Decided.neg`).
-/

open Scalar (real_two)

variable {a u v y x : ℝ} {z : Cplx ℝ}

/-! ### The angles of the root -/

lemma u3_unit (hn : u ^ 2 + v ^ 2 + y ^ 2 = 1) :
    OneQubit.u3 (Mat.square2 ⟨u, v⟩ (-(ofReal y).conj) (.ofReal y) (conj ⟨u, v⟩)) =
      ⟨-Complex.arg ⟨u, -v⟩, 2 * Complex.arg ⟨‖(⟨u, v⟩ : ℂ)‖, |y|⟩,
        Complex.arg ⟨u, -v⟩ + Complex.arg y, Complex.arg ⟨u, -v⟩ - Complex.arg y⟩ := by
  set M : Mat (Cplx ℝ) := Mat.square2 ⟨u, v⟩ (-(ofReal y).conj) (.ofReal y) (conj ⟨u, v⟩)
  have hd : M.det2.value = 1 := by
    change (⟨u, v⟩ * conj ⟨u, v⟩ - -(ofReal y).conj * ofReal y : Cplx ℝ).value = 1
    apply Complex.ext
    · simp; linarith
    · simp; ring
  have hl : (M.get 1 1).value = ⟨u, -v⟩ := rfl
  have hlo : (M.get 1 0).value = y := Cplx.value_ofReal y
  have hfi : (M.get 0 0).value = ⟨u, v⟩ := rfl
  simp only [OneQubit.u3, OneQubit.zyz, Cplx.arg_real, Cplx.abs_real, Scalar.atan2_real, hd, hl, hlo,
    hfi, Complex.arg_one, Complex.norm_real, norm_eq_abs]
  norm_num

/-- The number that the root of a shape has in its first corner, for the real part of the last one. -/
def rootCorner (r : ℝ) : ℝ := √((√((r + 1) / 2) + 1) / 2)

/-- The number by which the others are divided. -/
def rootScale (r : ℝ) : ℝ := 2 * √((r + 1) * (√((r + 1) / 2) + 1))

lemma rootCorner_pos (r : ℝ) : 0 < rootCorner r := by
  have := sqrt_nonneg ((r + 1) / 2)
  exact sqrt_pos.mpr (by linarith)

lemma root_eq_of_not_close {b : Bool} (hcl : z.isClose (-.one) 1e-5 1e-8 ≠ true) : root ⟨b, .ofReal x, z⟩ =
      Mat.square2 ⟨rootCorner z.re, z.im / rootScale z.re⟩ (-(ofReal (x / rootScale z.re)).conj)
        (.ofReal (x / rootScale z.re)) (conj ⟨rootCorner z.re, z.im / rootScale z.re⟩) := by
  have hs : (ofReal x).shrink (rootScale z.re) = .ofReal (x / rootScale z.re) := by
    apply value_injective; simp
  rw [← hs, root, if_neg hcl]
  simp only [Scalar.real_one, real_two, Scalar.sqrt_real]
  rfl

lemma rootCorner_norm (hn : z.re ^ 2 + z.im ^ 2 + x ^ 2 = 1) (hcl : z.isClose (-.one) 1e-5 1e-8 ≠ true) :
    rootCorner z.re ^ 2 + (z.im / rootScale z.re) ^ 2 + (x / rootScale z.re) ^ 2 = 1 :=
  (root_numbers hn (re_ne_minus_one hn hcl)).2.2.2.1

def DefiniteAngles (a : OneQubit.Angles ℝ) : Prop :=
  Definite a.theta ∧ Definite a.phi ∧ Definite a.lam ∧ Definite a.phase

lemma definite_pi : Definite π := by
  have hp := two_le_pi
  exact definite_of_between (by norm_num; linarith) (by norm_num; linarith)

lemma definite_arg (y : ℝ) : Definite (Complex.arg y) := by
  rcases lt_or_ge y 0 with hy | hy
  · rw [Complex.arg_ofReal_of_neg hy]; exact definite_pi
  · rw [Complex.arg_ofReal_of_nonneg hy]; exact definite_zero

lemma DefiniteAngles.neg (hu : 0 < u) (ho : v = 0 ∨ y = 0)
    (h : DefiniteAngles ⟨-Complex.arg ⟨u, -v⟩, 2 * Complex.arg ⟨‖(⟨u, v⟩ : ℂ)‖, |y|⟩,
      Complex.arg ⟨u, -v⟩ + Complex.arg y, Complex.arg ⟨u, -v⟩ - Complex.arg y⟩) :
    DefiniteAngles ⟨-Complex.arg ⟨u, - -v⟩, 2 * Complex.arg ⟨‖(⟨u, -v⟩ : ℂ)‖, |-y|⟩,
      Complex.arg ⟨u, - -v⟩ + Complex.arg (-y : ℝ), Complex.arg ⟨u, - -v⟩ - Complex.arg (-y : ℝ)⟩ := by
  obtain ⟨ht, hp, hl, hph⟩ := h
  have hco : (⟨u, -v⟩ : ℂ) = starRingEnd ℂ ⟨u, v⟩ := rfl
  have hn : ‖(⟨u, -v⟩ : ℂ)‖ = ‖(⟨u, v⟩ : ℂ)‖ := by rw [hco, Complex.norm_conj]
  have ha : Complex.arg ⟨u, -v⟩ = -Complex.arg ⟨u, v⟩ := by
    rw [hco, Complex.arg_conj, if_neg]
    intro hpi
    have hlt := Complex.abs_arg_lt_pi_div_two_iff.mpr (.inl hu : 0 < (⟨u, v⟩ : ℂ).re ∨ _)
    rw [hpi, abs_of_pos pi_pos] at hlt
    linarith [pi_pos]
  simp only [DefiniteAngles, neg_neg, abs_neg, hn]
  rw [ha] at hp hl hph
  refine ⟨ht, ?_⟩
  rcases ho with rfl | rfl
  · have hze : Complex.arg ⟨u, 0⟩ = 0 := Complex.arg_ofReal_of_nonneg hu.le
    rw [hze, zero_add, zero_sub, neg_zero]
    exact ⟨definite_arg _, (definite_arg _).neg, definite_zero⟩
  · rw [neg_zero, Complex.ofReal_zero, Complex.arg_zero, add_zero, sub_zero]
    rw [Complex.ofReal_zero, Complex.arg_zero, add_zero] at hp
    have hfi : Definite (Complex.arg ⟨u, v⟩) := by simpa using hp.neg
    exact ⟨hfi, hfi, hfi.neg⟩

/-- **No tolerance is decided wrongly for the opposite angle** if none is for the angle. -/
theorem Decided.neg (h : Decided axis a) : Decided axis (-a) := by
  obtain ⟨b, x, z, hsh, hsh', ho, -⟩ := readShape_spec h.real
  have hn := shape_norm hsh
  have hn' := shape_norm hsh'
  have hco : z.conj.isClose (-.one) 1e-5 1e-8 = true ↔ z.isClose (-.one) 1e-5 1e-8 = true := by
    have hv : z.conj.value + 1 = starRingEnd ℂ (z.value + 1) := by simp
    rw [isClose_minus_one, isClose_minus_one, hv, Complex.norm_conj]
  have hm := h.minusOne
  rw [hsh] at hm
  have ha : DefiniteAngles (rootAngles axis (-a)) := by
    have hd : DefiniteAngles (rootAngles axis a) := ⟨h.theta, h.phi, h.lam, h.phase⟩
    rw [rootAngles, hsh] at hd
    rw [rootAngles, hsh']
    by_cases hcl : z.isClose (-.one) 1e-5 1e-8 = true
    · rw [root, if_pos hcl] at hd; rw [root, if_pos (hco.mpr hcl)]; exact hd
    · have hcl' : ¬ z.conj.isClose (-.one) 1e-5 1e-8 = true := fun hc => hcl (hco.mp hc)
      rw [root_eq_of_not_close hcl, u3_unit (rootCorner_norm hn hcl)] at hd
      rw [root_eq_of_not_close hcl', u3_unit (rootCorner_norm hn' hcl')]
      have hi : z.conj.im / rootScale z.conj.re = -(z.im / rootScale z.re) := neg_div _ _
      have hx : -x / rootScale z.conj.re = -(x / rootScale z.re) := neg_div _ _
      rw [hi, hx]
      refine hd.neg (rootCorner_pos z.re) ?_
      rcases ho with hz | hx0
      · exact .inl (by rw [hz, zero_div])
      · exact .inr (by rw [hx0, zero_div])
  refine ⟨fun hs hax => ?_, fun hcl => ?_, ha.1, ha.2.1, ha.2.2.1, ha.2.2.2⟩
  · have hb : (readShape (axis.matrix a)).secondReal = true := by rw [hsh]; rw [hsh'] at hs; exact hs
    rw [neg_div, sin_neg, h.real hb hax, neg_zero]
  · rw [hsh'] at hcl ⊢
    have hz : z = -.one := hm (hco.mp hcl)
    apply value_injective
    change z.conj.value = _
    rw [value_conj, hz]
    simp

end QuantumCircuits

end
