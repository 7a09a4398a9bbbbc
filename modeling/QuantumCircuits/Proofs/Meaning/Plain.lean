import QuantumCircuits.Proofs.Operation.Basic

/-!
# Meaning — Plain

Gates without controls do what their definitions do.  On one qubit this is a product of two-by-two
matrices, and on two qubits the rotation about the third axis is moved to the other axes by the
one-qubit gates around it.
-/

namespace QuantumCircuits

open Real Base Mat
open Complex (I)
open Complex (ofReal_neg I_mul_I)

variable {b : Base} {M : Register → Square}

/-! ### The matrices -/

namespace Base

@[simp] lemma square_x (ps : List ℝ) : x.square ps = QuantumCircuits.square 0 1 1 0 := by
  change pauliX.asSquare = _; simp [pauliX]

@[simp] lemma square_y (ps : List ℝ) : y.square ps = QuantumCircuits.square 0 (-I) I 0 := by
  change pauliY.asSquare = _; simp [pauliY]

@[simp] lemma square_z (ps : List ℝ) : z.square ps = QuantumCircuits.square 1 0 0 (-1) := by
  change pauliZ.asSquare = _; simp [pauliZ]

@[simp] lemma square_s (ps : List ℝ) : s.square ps = QuantumCircuits.square 1 0 0 I := by
  change gateS.asSquare = _; simp [gateS]

@[simp] lemma square_phase (a : ℝ) : phase.square [a] = QuantumCircuits.square 1 0 0 (Complex.exp (a * I)) := by
  change (Mat.phase a).asSquare = _; simp [Mat.phase]

lemma square_h (ps : List ℝ) : h.square ps =
    QuantumCircuits.square (1 / √2 : ℝ) (1 / √2 : ℝ) (1 / √2 : ℝ) (-(1 / √2) : ℝ) := by
  change hadamard.asSquare = _
  simp [hadamard]

lemma square_rx (a : ℝ) : rx.square [a] =
    QuantumCircuits.square (cos (a / 2)) (-sin (a / 2) * I) (-sin (a / 2) * I) (cos (a / 2)) := by
  change (rotationX a).asSquare = _
  simp only [rotationX, asSquare_square2]
  congr 1 <;> apply Complex.ext <;> simp [-Complex.ofReal_sin, -Complex.ofReal_cos]

lemma square_ry (a : ℝ) : ry.square [a] =
    QuantumCircuits.square (cos (a / 2)) (-sin (a / 2)) (sin (a / 2)) (cos (a / 2)) := by
  change (rotationY a).asSquare = _
  simp [rotationY]

lemma square_rz (a : ℝ) : rz.square [a] = QuantumCircuits.square (Complex.exp ((-a / 2 : ℝ) * I)) 0 0
      (Complex.exp ((a / 2 : ℝ) * I)) := by
  change (rotationZ a).asSquare = _
  simp [rotationZ]

lemma square_u3 (theta phi lam : ℝ) : Base.u3.square [theta, phi, lam] =
    QuantumCircuits.square (cos (theta / 2)) (-(sin (theta / 2) * Complex.exp (lam * Complex.I)))
      (sin (theta / 2) * Complex.exp (phi * Complex.I))
      (cos (theta / 2) * Complex.exp ((phi + lam : ℝ) * Complex.I)) := by
  change (Mat.u3 theta phi lam).asSquare = _
  simp [Mat.u3]

lemma square_sdg (ps : List ℝ) : sdg.square ps = phase.square [-(π / 2)] := rfl

lemma square_t (ps : List ℝ) : Base.t.square ps = Base.phase.square [π / 4] := by
  rw [square_phase]; change gateT.asSquare = _; simp [Mat.gateT, Mat.phase]

lemma square_tdg (ps : List ℝ) : tdg.square ps = phase.square [-(π / 4)] := rfl

lemma square_s_eq (ps : List ℝ) : s.square ps = phase.square [π / 2] := by
  rw [square_s, square_phase]; push_cast; rw [Complex.exp_pi_div_two_mul_I]

end Base

lemma exp_angle (x : ℝ) : Complex.exp (x * I) = (cos x : ℂ) + (sin x : ℂ) * I := by
  rw [Complex.exp_mul_I, Complex.ofReal_cos, Complex.ofReal_sin]

lemma exp_angle_add (x y : ℝ) : Complex.exp ((x + y : ℝ) * I) = Complex.exp (x * I) * Complex.exp (y * I) := by
  rw [← Complex.exp_add, Complex.ofReal_add, add_mul]

namespace Base

lemma act_single (hb : b.onTwo = false) (ps : List ℝ) (ts : List ℕ) :
    b.act ps ts = selectEach ts fun _ => b.square ps := by
  unfold act
  split <;> first | rfl | cases hb

lemma root_half : ((1 / √2 : ℝ) : ℂ) * (1 / √2 : ℝ) = 1 / 2 := by
  rw [← Complex.ofReal_mul, div_mul_div_comm, mul_self_sqrt (by norm_num)]
  norm_num

lemma sqrt_two_div_two : √2 / 2 = 1 / √2 := by
  rw [div_eq_div_iff (by norm_num) (by positivity)]
  norm_num

lemma square_general_x : u3.square [π, 0, π] = x.square [] := by rw [square_u3, square_x, square_inj]; simp

lemma square_general_y : u3.square [π, π / 2, π / 2] = y.square [] := by
  rw [square_u3, square_y, square_inj]; simp [Complex.exp_pi_div_two_mul_I]

lemma square_general_h : u3.square [π / 2, 0, π] = h.square [] := by
  have h4 : π / 2 / 2 = π / 4 := by ring
  rw [square_u3, square_h, square_inj, h4, cos_pi_div_four, sin_pi_div_four, sqrt_two_div_two]
  simp

lemma square_phase_pi : phase.square [π] = z.square [] := by simp

lemma square_general_rx (a : ℝ) : u3.square [a, -(π / 2), π / 2] = rx.square [a] := by
  have hp : Complex.exp ((π / 2 : ℝ) * I) = I := by push_cast; exact Complex.exp_pi_div_two_mul_I
  have hm : Complex.exp ((-(π / 2) : ℝ) * I) = -I := by
    rw [exp_angle, cos_neg, sin_neg, cos_pi_div_two, sin_pi_div_two]; simp
  rw [square_u3, square_rx, square_inj, hp, hm]
  refine ⟨rfl, by ring, by ring, by simp⟩

lemma square_general_ry (a : ℝ) : u3.square [a, 0, 0] = ry.square [a] := by
  rw [square_u3, square_ry, square_inj]; simp

lemma square_general_phase (a : ℝ) : u3.square [0, 0, a] = phase.square [a] := by
  rw [square_u3, square_phase, square_inj]; simp

lemma square_rx_quarter : rx.square [π / 2] = QuantumCircuits.square (1 / √2 : ℝ) (-((1 / √2 : ℝ) * I))
      (-((1 / √2 : ℝ) * I)) (1 / √2 : ℝ) := by
  have h4 : π / 2 / 2 = π / 4 := by ring
  rw [square_rx, h4, cos_pi_div_four, sin_pi_div_four, sqrt_two_div_two, neg_mul]

lemma square_rx_minus_quarter : rx.square [-(π / 2)] = QuantumCircuits.square (1 / √2 : ℝ) ((1 / √2 : ℝ) * I)
      ((1 / √2 : ℝ) * I) (1 / √2 : ℝ) := by
  have h4 : -(π / 2) / 2 = -(π / 4) := by ring
  rw [square_rx, h4, cos_neg, sin_neg, cos_pi_div_four, sin_pi_div_four, sqrt_two_div_two]
  simp

lemma square_h_mul_h : h.square [] * h.square [] = 1 := by
  rw [square_h, square_mul, one_eq_square, square_inj, ofReal_neg]
  have hr := root_half
  refine ⟨?_, ?_, ?_, ?_⟩
  · linear_combination 2 * hr
  · ring
  · ring
  · linear_combination 2 * hr

lemma square_h_z_h : h.square [] * pauliZ.asSquare * h.square [] = pauliX.asSquare := by
  change h.square [] * z.square [] * h.square [] = x.square []
  rw [square_h, square_z, square_x, square_mul, square_mul, square_inj, ofReal_neg]
  have hr := root_half
  refine ⟨?_, ?_, ?_, ?_⟩
  · ring
  · linear_combination 2 * hr
  · linear_combination 2 * hr
  · ring

lemma square_rx_mul_rx : rx.square [-(π / 2)] * rx.square [π / 2] = 1 := by
  rw [square_rx_quarter, square_rx_minus_quarter, square_mul, one_eq_square, square_inj]
  have hr := root_half
  have hI := I_mul_I
  set r : ℂ := ((1 / √2 : ℝ) : ℂ)
  refine ⟨?_, ?_, ?_, ?_⟩
  · linear_combination 2 * hr - r * r * hI
  · ring
  · ring
  · linear_combination 2 * hr - r * r * hI

lemma square_rx_z_rx : rx.square [-(π / 2)] * pauliZ.asSquare * rx.square [π / 2] = pauliY.asSquare := by
  change rx.square _ * z.square [] * rx.square _ = y.square []
  rw [square_rx_quarter, square_rx_minus_quarter, square_z, square_y, square_mul, square_mul, square_inj]
  have hr := root_half
  have hI := I_mul_I
  set r : ℂ := ((1 / √2 : ℝ) : ℂ)
  refine ⟨?_, ?_, ?_, ?_⟩
  · linear_combination r * r * hI
  · linear_combination -2 * I * hr
  · linear_combination 2 * I * hr
  · linear_combination -(r * r) * hI

lemma square_rz_eq (a : ℝ) : rx.square [-(π / 2)] * ry.square [-a] * rx.square [π / 2] = rz.square [a] := by
  rw [square_rx_quarter, square_rx_minus_quarter, square_ry, square_rz, square_mul, square_mul,
    square_inj, neg_div, exp_angle, exp_angle, cos_neg, sin_neg, ofReal_neg]
  have hr := root_half
  have hI := I_mul_I
  set r : ℂ := ((1 / √2 : ℝ) : ℂ)
  set c : ℂ := ((cos (a / 2) : ℝ) : ℂ)
  set i : ℂ := ((sin (a / 2) : ℝ) : ℂ)
  refine ⟨?_, ?_, ?_, ?_⟩
  · linear_combination -(r * r) * c * hI + 2 * (c - i * I) * hr
  · linear_combination r * r * i * hI
  · linear_combination -(r * r) * i * hI
  · linear_combination -(r * r) * c * hI + 2 * (c + i * I) * hr

end Base

lemma select_diagonal (t : ℕ) (x y : ℂ) (V : Wave) (b : Register) :
    select t (fun _ => square x 0 0 y) V b = (if b t then y else x) * V b := by
  cases h : b t <;> simp [select, h, update_bit h]

lemma select_at {t : ℕ} {b : Register} {N : Square} (h : M b = N)
    (V : Wave) : select t M V b = select t (fun _ => N) V b := by
  simp [select, h]

lemma select_of_diagonal {s : ℕ} {b : Register} {x y : ℂ}
    (h : M b = square x 0 0 y) (V : Wave) : select s M V b = (if b s then y else x) * V b := by
  rw [select_at h, select_diagonal]

lemma select_const_smul (t : ℕ) (z : ℂ) (M : Register → Square) (V : Wave) :
    select t (fun b => z • M b) V = z • select t M V := by
  funext b
  simp only [select, Matrix.smul_apply, Pi.smul_apply, smul_eq_mul]
  ring

lemma selectEach_const_smul (ts : List ℕ) (z : ℂ) (M : Register → Square) (V : Wave) :
    selectEach ts (fun b => z • M b) V = z ^ ts.length • selectEach ts M V := by
  induction ts generalizing V with
  | nil => simp
  | cons t ts ih =>
    rw [selectEach_cons, ih, select_const_smul, selectEach_smul, smul_smul, List.length_cons, pow_succ, selectEach_cons]

namespace Operation

variable {i j : ℕ} {ps : List ℝ}

lemma act_plain (hb : b.onTwo = false) (ps : List ℝ) (ts : List ℕ) :
    (of b .plain ps [] ts).act = selectEach ts fun _ => b.square ps :=
  act_single hb ps ts

lemma act_globalPhase (a : ℝ) (V : Wave) : (globalPhase a).act V = Complex.exp (a * I) • V := rfl

lemma act_cx (c t : ℕ) (V : Wave) (b : Register) : (cx c t).act V b = V (Function.update b t (b t ^^ b c)) := by
  have hx : x.act [] [t] V b = V (Function.update b t (!b t)) := by
    rw [act_single rfl]
    cases hb : b t <;> simp [select, hb]
  cases hc : b c
  · have ho : allOn [c] b = false := by simp [hc]
    simp [act, gated, ho]
  · have hon : allOn [c] b = true := by simp [hc]
    simp [act, gated, hon, hx]

lemma acts_power {axis : Axis} (hb : b.onTwo = false)
    (hs : ∀ a, b.square [a] = (axis.matrix a).asSquare) (p g : ℝ) (ts : List ℕ) (V : Wave) :
    acts [turn b (p * π) ts, .globalPhase (p * π * (g + 1 / 2) * ts.length)] V =
      selectEach ts (fun _ => powerSquare axis p g) V := by
  simp only [acts_cons, acts_nil, act_plain hb, hs, powerSquare, selectEach_const_smul, act_globalPhase]
  rw [← Complex.exp_nat_mul]
  push_cast
  ring_nf

/-- **A plain gate on single qubits does what its definition does.** -/
theorem acts_plainParts {ts : List ℕ} (hb : b.onTwo = false)
    (hp : ps.length = b.arity) (ht : ts.Nodup) (hu : b ≠ .u3) (V : Wave) :
    acts (plainParts b ps ts) V = b.act ps ts V := by
  rw [act_single hb]
  have ho : ∀ {b' : Base} (ps' : List ℝ), b'.onTwo = false → b'.square ps' = b.square ps →
      acts [of b' .plain ps' [] ts] V = selectEach ts (fun _ => b.square ps) V := by
    intro b' ps' hb' h
    simp [acts_cons, acts_nil, act_plain hb', h]
  cases b <;> simp only [arity, List.length_eq_zero_iff, List.length_eq_one_iff,
    List.length_eq_two, onTwo, Bool.true_eq_false, ne_eq, not_true_eq_false] at hp hb hu
  case x => exact ho _ rfl (hp ▸ square_general_x)
  case y => exact ho _ rfl (hp ▸ square_general_y)
  case z => exact ho _ rfl (hp ▸ square_phase_pi)
  case h => exact ho _ rfl (hp ▸ square_general_h)
  case s => exact ho _ rfl (square_s_eq ps).symm
  case sdg => exact ho _ rfl rfl
  case t => exact ho _ rfl (square_t ps).symm
  case tdg => exact ho _ rfl rfl
  case rx => obtain ⟨a, rfl⟩ := hp; exact ho _ rfl (square_general_rx a)
  case ry => obtain ⟨a, rfl⟩ := hp; exact ho _ rfl (square_general_ry a)
  case rz =>
    obtain ⟨a, rfl⟩ := hp
    have hco : ∀ M : Square, ∀ t ∈ ts, Blind t fun _ => M := fun M t _ => blind_const t M
    simp only [plainParts, acts_cons, acts_nil]
    rw [act_plain rfl, act_plain rfl, act_plain rfl, selectEach_selectEach ht (hco _) (hco _),
      selectEach_selectEach ht (hco _) (hco _), square_rz_eq]
  case phase => obtain ⟨a, rfl⟩ := hp; exact ho _ rfl (square_general_phase a)
  case xPow => obtain ⟨p, g, rfl⟩ := hp; exact acts_power rfl (fun _ => rfl) p g ts V
  case yPow => obtain ⟨p, g, rfl⟩ := hp; exact acts_power rfl (fun _ => rfl) p g ts V
  case zPow => obtain ⟨p, g, rfl⟩ := hp; exact acts_power rfl (fun _ => rfl) p g ts V

/-! ### Two targets -/

lemma select_sub (t : ℕ) (M : Register → Square) (V W : Wave) : select t M (V - W) = select t M V - select t M W := by
  rw [sub_eq_add_neg, select_add, ← neg_one_smul ℂ W, select_smul, neg_one_smul, ← sub_eq_add_neg]

lemma select_pair (hi : i ≠ j) (A B : Square) (V : Wave) :
    select i (fun _ => A) (select j (fun _ => A) (select i (fun _ => B) (select j (fun _ => B) V))) =
      select i (fun _ => A * B) (select j (fun _ => A * B) V) := by
  rw [select_comm hi.symm (blind_const i A) (blind_const j B), select_select (blind_const i B),
    select_select (blind_const j B)]

lemma coupled_conj (hi : i ≠ j) {A B P Q : Square} (hA : A * B = 1) (hQ : A * P * B = Q) (a : ℝ) (V : Wave) :
    select i (fun _ => A) (select j (fun _ => A)
      (coupled P a i j (select i (fun _ => B) (select j (fun _ => B) V)))) = coupled Q a i j V := by
  simp only [coupled, select_sub, select_smul]
  rw [select_pair hi A B, hA, select_one, select_one, select_pair hi P B, select_pair hi A (P * B), ← mul_assoc, hQ]

lemma acts_coupling (hi : i ≠ j) (a : ℝ) (V : Wave) :
    acts [cx i j, turn .rz a [j], cx i j] V = coupled pauliZ.asSquare a i j V := by
  have hz : pauliZ.asSquare = square 1 0 0 (-1) := square_z []
  have hr : ∀ V b, (turn .rz a [j]).act V b = (if b j then (cos (a / 2) + sin (a / 2) * I : ℂ)
        else (cos (a / 2) - sin (a / 2) * I : ℂ)) * V b := by
    intro V b
    rw [act_plain rfl, square_rz, selectEach_cons, selectEach_nil, select_diagonal, exp_angle,
      exp_angle, neg_div, cos_neg, sin_neg, ofReal_neg, neg_mul, ← sub_eq_add_neg]
  funext b
  simp only [acts_cons, acts_nil, act_cx, hr, coupled, hz, Pi.sub_apply, Pi.smul_apply,
    select_diagonal, smul_eq_mul, Function.update_self, Function.update_of_ne hi,
    Function.update_idem, Bool.xor_assoc, Bool.xor_self, Bool.xor_false, Function.update_eq_self]
  cases b i <;> cases b j <;> simp <;> ring

/-- **A plain gate on two qubits does what its definition does.** -/
theorem acts_plainParts_two (hb : b.onTwo = true) (hp : ps.length = b.arity) (hij : i ≠ j) (V : Wave) :
    acts (plainParts b ps [i, j]) V = b.act ps [i, j] V := by
  cases b <;> simp only [arity, List.length_eq_zero_iff, List.length_eq_one_iff,
    onTwo, Bool.false_eq_true] at hp hb
  case rxx =>
    obtain ⟨a, rfl⟩ := hp
    have ha : ∀ V, (on .h [i, j]).act V =
        select i (fun _ => h.square []) (select j (fun _ => h.square []) V) := by
      intro V
      rw [act_plain rfl, selectEach_cons, selectEach_cons, selectEach_nil,
        select_comm hij.symm (blind_const i _) (blind_const j _)]
    calc acts (plainParts .rxx [a] [i, j]) V
        = (on .h [i, j]).act (acts [cx i j, turn .rz a [j], cx i j] ((on .h [i, j]).act V)) := rfl
      _ = coupled pauliX.asSquare a i j V := by
          rw [acts_coupling hij, ha, ha, coupled_conj hij square_h_mul_h square_h_z_h]
  case ryy =>
    obtain ⟨a, rfl⟩ := hp
    have ha : ∀ (x : ℝ) V, (turn .rx x [j]).act ((turn .rx x [i]).act V) =
        select i (fun _ => rx.square [x]) (select j (fun _ => rx.square [x]) V) := by
      intro x V
      simp only [act_plain (b := .rx) rfl, selectEach_cons, selectEach_nil]
      exact select_comm hij.symm (blind_const i _) (blind_const j _) V
    calc acts (plainParts .ryy [a] [i, j]) V = (turn .rx (-(π / 2)) [j]).act ((turn .rx (-(π / 2)) [i]).act
            (acts [cx i j, turn .rz a [j], cx i j] ((turn .rx (π / 2) [j]).act ((turn .rx (π / 2) [i]).act V)))) := rfl
      _ = coupled pauliY.asSquare a i j V := by
          rw [acts_coupling hij, ha, ha, coupled_conj hij square_rx_mul_rx square_rx_z_rx]
  case rzz => obtain ⟨a, rfl⟩ := hp; exact acts_coupling hij a V
  case swap =>
    funext b
    simp only [plainParts, acts_cons, acts_nil, act_cx, Base.act, Base.exchange]
    congr 1
    funext k
    have hxo : (b i ^^ (b j ^^ b i)) = b j := by cases b i <;> cases b j <;> rfl
    rcases eq_or_ne k j with rfl | hj
    · simp only [Function.update_self, Function.update_of_ne hij, Function.update_of_ne hij.symm]
      cases b i <;> cases b k <;> rfl
    · rcases eq_or_ne k i with rfl | hi
      · simp [hij, hxo]
      · simp [hi, hj]

end Operation

end QuantumCircuits
