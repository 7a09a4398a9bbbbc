import QuantumCircuits.Proofs.Meaning.Controlled

/-!
# Meaning — One qubit

One-qubit unitaries by their angles.  `OneQubit.u3` reads off angles and a phase whose gate is the
given unitary (`square_u3_angles`), for every unitary.  Angles are checked before they are used; an
angle that is `Definite` comes out of the check as an angle that differs by whole turns, so the gates
that are placed for a unitary, and for its inverse, are exactly these (`acts_placed`,
`acts_unplaced`).
-/

namespace QuantumCircuits

open Real List Base
open Complex (I)
open Complex (sq_norm ofReal_neg conj_ofReal conj_I)
open OneQubit (Angles)

variable {x : ℝ} {a b c d : Cplx ℝ}

/-! ### Checked angles -/

lemma isZeroAngle_iff (x : ℝ) : isZeroAngle x = true ↔ |x| ≤ 1e-10 ∨ |x - 2 * π * ⌊x / (2 * π)⌋| ≤ 1e-10 := by
  simp [isZeroAngle, angleTolerance, fullTurn]

lemma Definite.neg (h : Definite x) : Definite (-x) := by
  rcases h with ⟨k, rfl⟩ | h
  · exact Or.inl ⟨-k, by push_cast; ring⟩
  · refine Or.inr fun k => ?_
    have hk := h (-k)
    rw [← abs_neg]
    push_cast at hk
    rwa [(by ring : -(-x - 2 * π * k) = x - 2 * π * -k)]

lemma definite_zero : Definite 0 := .inl ⟨0, by simp⟩

/-- The angle is too far from whole turns to be taken for one. -/
def Far (x : ℝ) : Prop := ∀ k : ℤ, (1e-10 : ℝ) < |x - 2 * π * k|

lemma far_of_between (h0 : 1e-10 < x) (h1 : x < 2 * π - 1e-10) : Far x := by
  intro k
  rcases le_or_gt k 0 with hk | hk
  · have hl : 2 * π * (k : ℝ) ≤ 0 := mul_nonpos_of_nonneg_of_nonpos two_pi_pos.le (by exact_mod_cast hk)
    rw [abs_of_pos (by linarith)]
    linarith
  · have hg : 2 * π * 1 ≤ 2 * π * (k : ℝ) := mul_le_mul_of_nonneg_left (by exact_mod_cast hk) two_pi_pos.le
    rw [abs_of_neg (by linarith)]
    linarith

lemma Far.neg (h : Far x) : Far (-x) := by
  intro k
  have hk := h (-k)
  rw [← abs_neg]
  convert hk using 2
  push_cast
  ring

lemma definite_of_between (h0 : 1e-10 < x) (h1 : x < 2 * π - 1e-10) : Definite x := .inr (far_of_between h0 h1)

lemma isZeroAngle_turns (k : ℤ) : isZeroAngle (2 * π * k) = true := by
  rw [isZeroAngle_iff]
  right
  norm_num

lemma isZeroAngle_of_far (h : ∀ k : ℤ, (1e-10 : ℝ) < |x - 2 * π * k|) : isZeroAngle x = false := by
  rw [Bool.eq_false_iff, ne_eq, isZeroAngle_iff, not_or, not_le, not_le]
  exact ⟨by simpa using h 0, h _⟩

@[simp] lemma snap_zero : snap 0 = 0 := by simp [snap]

lemma Definite.snap (h : Definite x) : (∃ k : ℤ, x = 2 * π * k) ∧ snap x = 0 ∨ snap x = x ∧ isZeroAngle x = false := by
  rcases h with ⟨k, rfl⟩ | h
  · left; exact ⟨⟨k, rfl⟩, by rw [QuantumCircuits.snap, isZeroAngle_turns, if_pos rfl]⟩
  · right; rw [QuantumCircuits.snap, isZeroAngle_of_far h]; exact ⟨if_neg Bool.false_ne_true, rfl⟩

lemma Definite.exp_snap (h : Definite x) : Complex.exp (QuantumCircuits.snap x * I) = Complex.exp (x * I) := by
  rcases h.snap with ⟨⟨k, rfl⟩, hs⟩ | ⟨hs, -⟩
  · have hk : ((2 * π * k : ℝ) : ℂ) * I = k * (2 * π * I) := by push_cast; ring
    rw [hs, hk, Complex.exp_int_mul_two_pi_mul_I, Complex.ofReal_zero, zero_mul, Complex.exp_zero]
  · rw [hs]

lemma Definite.snap_neg_snap (h : Definite x) :
    QuantumCircuits.snap (-QuantumCircuits.snap x) = -QuantumCircuits.snap x := by
  rcases h.snap with ⟨-, hs⟩ | ⟨hs, hz⟩
  · rw [hs, neg_zero, snap_zero]
  · rw [hs]
    rcases h.neg.snap with ⟨⟨k, hk⟩, -⟩ | ⟨hs', -⟩
    · have hx : x = 2 * π * (-k : ℤ) := by push_cast; linarith
      rw [hx, isZeroAngle_turns] at hz
      cases hz
    · exact hs'

/-! ### The angles of a unitary -/

lemma abs_mul_exp_arg (z : ℂ) : (‖z‖ : ℂ) * Complex.exp (z.arg * I) = z := Complex.norm_mul_exp_arg_mul_I z

lemma cos_sin_arg {y : ℝ} (h : x ^ 2 + y ^ 2 = 1) : cos (Complex.arg ⟨x, y⟩) = x ∧ sin (Complex.arg ⟨x, y⟩) = y := by
  have hn : ‖(⟨x, y⟩ : ℂ)‖ = 1 := by rw [Complex.norm_def, Complex.normSq_mk, ← sq, ← sq, h, sqrt_one]
  have hne : (⟨x, y⟩ : ℂ) ≠ 0 := by intro h0; rw [h0, norm_zero] at hn; exact zero_ne_one hn
  rw [Complex.cos_arg hne, Complex.sin_arg, hn, div_one, div_one]
  exact ⟨rfl, rfl⟩

lemma norm_column {a c : ℂ} (h : starRingEnd ℂ a * a + starRingEnd ℂ c * c = 1) : ‖a‖ ^ 2 + ‖c‖ ^ 2 = 1 := by
  rw [Complex.conj_mul', Complex.conj_mul'] at h
  exact_mod_cast h

lemma unitary_entries {a b c d : ℂ} (hU : (square a b c d).conjTranspose * square a b c d = 1) :
    ‖a‖ ^ 2 + ‖c‖ ^ 2 = 1 ∧ ‖a * d - b * c‖ = 1 ∧ a = (a * d - b * c) * starRingEnd ℂ d ∧
      b = -((a * d - b * c) * starRingEnd ℂ c) ∧ ‖d‖ = ‖a‖ := by
  rw [square_conjTranspose, square_mul, one_eq_square, square_inj] at hU
  obtain ⟨h1, h2, -, h4⟩ := hU
  have hd : d = (a * d - b * c) * starRingEnd ℂ a := by linear_combination -d * h1 + c * h2
  have hb : b = -((a * d - b * c) * starRingEnd ℂ c) := by linear_combination -b * h1 + a * h2
  have hco := norm_column h1
  have hco' := norm_column h4
  set D := a * d - b * c
  have hbn : ‖b‖ = ‖D‖ * ‖c‖ := by
    conv_lhs => rw [hb]
    rw [norm_neg, norm_mul, Complex.norm_conj]
  have hdn : ‖d‖ = ‖D‖ * ‖a‖ := by
    conv_lhs => rw [hd]
    rw [norm_mul, Complex.norm_conj]
  have hde : ‖D‖ = 1 := by
    have h : ‖D‖ ^ 2 = 1 := by rw [hbn, hdn] at hco'; linear_combination hco' - ‖D‖ ^ 2 * hco
    exact (pow_eq_one_iff_of_nonneg (norm_nonneg D) two_ne_zero).mp h
  refine ⟨hco, hde, ?_, hb, by rw [hdn, hde, one_mul]⟩
  have hD : D * starRingEnd ℂ D = 1 := by rw [Complex.mul_conj, ← sq_norm, hde]; norm_num
  conv_rhs => rw [hd]
  rw [map_mul, Complex.conj_conj, ← mul_assoc, hD, one_mul]

/-- **The angles of a unitary give it back.** -/
theorem square_u3_angles (hU : (square a.value b.value c.value d.value).conjTranspose *
      square a.value b.value c.value d.value = 1) :
    let A := OneQubit.u3 (Mat.square2 a b c d)
    Complex.exp (A.phase * I) • u3.square [A.theta, A.phi, A.lam] = square a.value b.value c.value d.value := by
  intro A
  obtain ⟨hcl, hde, ha, hb, hd⟩ := unitary_entries hU
  set D := a.value * d.value - b.value * c.value
  have ht : Complex.exp (D.arg * I) = D := by
    have h := abs_mul_exp_arg D
    rwa [hde, Complex.ofReal_one, one_mul] at h
  have hp : A.phase = D.arg - d.value.arg := by
    simp only [A, OneQubit.u3, OneQubit.zyz, Scalar.real_half, Scalar.real_two, Cplx.arg_real]
    change 1 / 2 * D.arg - (d.value.arg + c.value.arg - D.arg + (d.value.arg - c.value.arg)) / 2 = _
    ring
  have hph : A.phi = d.value.arg + c.value.arg - D.arg := rfl
  have hl : A.lam = d.value.arg - c.value.arg := rfl
  have hth : A.theta / 2 = Complex.arg ⟨‖a.value‖, ‖c.value‖⟩ := by
    simp only [A, OneQubit.u3, OneQubit.zyz, Scalar.real_two, Scalar.atan2_real, Cplx.abs_real]
    change 2 * Complex.arg ⟨‖a.value‖, ‖c.value‖⟩ / 2 = _
    ring
  obtain ⟨hc1, hs⟩ := cos_sin_arg hcl
  have hco : ∀ z : ℂ, Complex.exp ((-z.arg : ℝ) * I) * ‖z‖ = starRingEnd ℂ z := by
    intro z
    conv_rhs => rw [← abs_mul_exp_arg z]
    rw [map_mul, conj_ofReal, ← Complex.exp_conj, map_mul, conj_I, conj_ofReal, mul_comm]
    push_cast
    ring_nf
  rw [square_u3, smul_square, square_inj, hth, hc1, hs]
  refine ⟨?_, ?_, ?_, ?_⟩
  · rw [hp, sub_eq_add_neg, exp_angle_add, ht, ← hd, mul_assoc, hco]; exact ha.symm
  · have h : A.phase + A.lam = D.arg + -c.value.arg := by rw [hp, hl]; ring
    calc Complex.exp (A.phase * I) * -(‖c.value‖ * Complex.exp (A.lam * I))
        = -(Complex.exp ((A.phase + A.lam : ℝ) * I) * ‖c.value‖) := by rw [exp_angle_add]; ring
      _ = b.value := by rw [h, exp_angle_add, ht, mul_assoc, hco, ← hb]
  · have h : A.phase + A.phi = c.value.arg := by rw [hp, hph]; ring
    calc Complex.exp (A.phase * I) * (‖c.value‖ * Complex.exp (A.phi * I))
        = ‖c.value‖ * Complex.exp ((A.phase + A.phi : ℝ) * I) := by rw [exp_angle_add]; ring
      _ = c.value := by rw [h, abs_mul_exp_arg]
  · have h : A.phase + (A.phi + A.lam) = d.value.arg := by rw [hp, hph, hl]; ring
    calc Complex.exp (A.phase * I) * (‖a.value‖ * Complex.exp ((A.phi + A.lam : ℝ) * I))
        = ‖d.value‖ * Complex.exp ((A.phase + (A.phi + A.lam) : ℝ) * I) := by
          rw [exp_angle_add A.phase, hd]; ring
      _ = d.value := by rw [h, abs_mul_exp_arg]

lemma theta_bounds : 0 ≤ (OneQubit.u3 (Mat.square2 a b c d)).theta ∧ (OneQubit.u3 (Mat.square2 a b c d)).theta ≤ π := by
  have ht : (OneQubit.u3 (Mat.square2 a b c d)).theta = 2 * Complex.arg ⟨‖a.value‖, ‖c.value‖⟩ := by
    simp only [OneQubit.u3, OneQubit.zyz, Scalar.real_two, Scalar.atan2_real, Cplx.abs_real]; rfl
  have h0 : 0 ≤ Complex.arg ⟨‖a.value‖, ‖c.value‖⟩ := by rw [Complex.arg_nonneg_iff]; exact norm_nonneg _
  have h1 : |Complex.arg ⟨‖a.value‖, ‖c.value‖⟩| ≤ π / 2 := by
    rw [Complex.abs_arg_le_pi_div_two_iff]; exact norm_nonneg _
  rw [ht]
  constructor
  · linarith
  · linarith [le_abs_self (Complex.arg ⟨‖a.value‖, ‖c.value‖⟩)]

/-! ### Placing a unitary -/

/-- The angles are definite, and the first is at most half a turn. -/
structure OneQubit.Angles.Clear (a : Angles ℝ) : Prop where
  theta : Definite a.theta
  phi : Definite a.phi
  lam : Definite a.lam
  phase : Definite a.phase
  nonneg : 0 ≤ a.theta
  le_pi : a.theta ≤ π

noncomputable def OneQubit.Angles.square (a : Angles ℝ) : Square :=
  Complex.exp (a.phase * Complex.I) • Base.u3.square [a.theta, a.phi, a.lam]

lemma OneQubit.Angles.Clear.snap_theta {a : Angles ℝ} (h : a.Clear) : snap a.theta = a.theta := by
  rcases h.theta.snap with ⟨⟨k, hk⟩, hs⟩ | ⟨hs, -⟩
  · have hk0 : k = 0 := by
      have hp := pi_pos
      have h0 := h.nonneg
      have h1 := h.le_pi
      rw [hk] at h0 h1
      have hl : (-1 : ℝ) < k := by nlinarith
      have hh : (k : ℝ) < 1 := by nlinarith
      have hl' : (-1 : ℤ) < k := by exact_mod_cast hl
      have hh' : k < 1 := by exact_mod_cast hh
      omega
    rw [hs, hk, hk0]
    simp
  · exact hs

namespace Operation

lemma acts_snapAll (x y z : ℝ) (t : ℕ) (V : Wave) :
    acts ((snapAll [x, y, z]).toList.map fun xs => of .u3 .plain xs [] [t]) V =
      select t (fun _ => u3.square [snap x, snap y, snap z]) V := by
  rw [snapAll]
  split
  case isTrue h =>
    simp only [map_cons, map_nil, all_cons, all_nil, Bool.and_true, Bool.and_eq_true, decide_eq_true_eq] at h
    obtain ⟨hx, hy, hz⟩ := h
    rw [hx, hy, hz, square_general_ry, square_ry_zero, select_one]
    rfl
  case isFalse h =>
    simp only [Option.toList_some, map_cons, map_nil, acts_cons, acts_nil]
    rw [act_on_eq_select rfl]

lemma acts_globalPhase (x : ℝ) (V : Wave) :
    acts (if x = 0 then [] else [globalPhase x]) V = Complex.exp (x * I) • V := by
  split
  case isTrue h => simp [h]
  case isFalse h => rfl

variable {a : Angles ℝ}

lemma square_u3_snap (h : a.Clear) : u3.square [snap a.theta, snap a.phi, snap a.lam] =
      u3.square [a.theta, a.phi, a.lam] := by
  rw [h.snap_theta, square_u3, square_u3, exp_angle_add, exp_angle_add, h.phi.exp_snap, h.lam.exp_snap]

lemma conj_exp_angle (x : ℝ) : starRingEnd ℂ (Complex.exp (x * I)) = Complex.exp ((-x : ℝ) * I) := by
  rw [← Complex.exp_conj, map_mul, conj_I, conj_ofReal, ofReal_neg, mul_neg, neg_mul]

lemma square_u3_conjTranspose (theta phi lam : ℝ) :
    (u3.square [theta, phi, lam]).conjTranspose = u3.square [-theta, -lam, -phi] := by
  rw [square_u3, square_u3, square_conjTranspose, square_inj, neg_div, cos_neg, sin_neg, ← neg_add_rev]
  simp only [map_neg, map_mul, conj_ofReal, conj_exp_angle, ofReal_neg]
  refine ⟨trivial, by ring, by ring, ?_⟩
  simp

/-- **The gates placed for a unitary.** -/
theorem acts_placed (h : a.Clear) (t : ℕ) (V : Wave) :
    acts (placed a t) V = select t (fun _ => a.square) V := by
  rw [placed, acts_append, acts_snapAll, acts_globalPhase, square_u3_snap h, h.phase.exp_snap,
    Angles.square, select_const_smul]

/-- **The gates placed for its inverse.** -/
theorem acts_unplaced (h : a.Clear) (t : ℕ) (V : Wave) :
    acts (unplaced a t) V = select t (fun _ => a.square.conjTranspose) V := by
  have hp : (if snap a.phase = 0 ∨ snap (-snap a.phase) = 0 then []
      else [globalPhase (snap (-snap a.phase))]) =
        if -snap a.phase = 0 then [] else [globalPhase (-snap a.phase)] := by
    rw [h.phase.snap_neg_snap]
    simp [neg_eq_zero, or_self]
  have hr : acts (((snapAll [a.theta, a.phi, a.lam]).bind fun xs =>
      snapAll [-xs.getD 0 0, -xs.getD 2 0, -xs.getD 1 0]).toList.map
        fun xs => of .u3 .plain xs [] [t]) = select t fun _ =>
          u3.square [-snap a.theta, -snap a.lam, -snap a.phi] := by
    funext V
    rw [snapAll]
    split
    case isTrue hz =>
      simp only [map_cons, map_nil, all_cons, all_nil, Bool.and_true,
        Bool.and_eq_true, decide_eq_true_eq] at hz
      obtain ⟨hx, hy, hz⟩ := hz
      rw [hx, hy, hz, neg_zero, square_general_ry, square_ry_zero, select_one]
      rfl
    case isFalse hz =>
      refine (acts_snapAll _ _ _ t V).trans ?_
      simp only [map_cons, map_nil, getD_cons_zero, getD_cons_succ,
        h.theta.snap_neg_snap, h.phi.snap_neg_snap, h.lam.snap_neg_snap]
  rw [unplaced, acts_append, hp, acts_globalPhase, hr, ← square_u3_conjTranspose,
    square_u3_snap h, Angles.square, Matrix.conjTranspose_smul, select_const_smul,
    select_smul, ofReal_neg, neg_mul, Complex.exp_neg, h.phase.exp_snap]
  congr 1
  rw [← Complex.exp_neg, ← neg_mul, ← ofReal_neg, ← conj_exp_angle]
  rfl

end Operation

end QuantumCircuits
