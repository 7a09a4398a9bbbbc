import QuantumCircuits.Proofs.Meaning.Plain

/-!
# Meaning — Controlled

Gates with one control do what their definitions do.  Most of them are a controlled negation between
inverse gates (`gated_between`); the phases are spread over control and target (`acts_halfPhases`),
and a rotation is undone or doubled by the negations around its second half.
-/

noncomputable section

namespace QuantumCircuits

open Real List Base
open Complex (I)

/-! ### Products of matrices -/

namespace Base

lemma square_phase_mul (a b : ℝ) : phase.square [a] * phase.square [b] = phase.square [a + b] := by
  rw [square_phase, square_phase, square_phase, square_mul, square_inj, exp_angle_add]; simp

lemma square_phase_zero : phase.square [0] = 1 := by rw [square_phase, one_eq_square]; simp

lemma square_phase_neg_mul (a : ℝ) : phase.square [-a] * phase.square [a] = 1 := by
  rw [square_phase_mul, neg_add_cancel, square_phase_zero]

lemma square_phase_mul_neg (a : ℝ) : phase.square [a] * phase.square [-a] = 1 := by
  rw [square_phase_mul, add_neg_cancel, square_phase_zero]

lemma square_x_mul_x : x.square [] * x.square [] = 1 := by rw [square_x, square_mul, one_eq_square]; simp

lemma exp_quarter : Complex.exp ((π / 2 : ℝ) * I) = I := by push_cast; exact Complex.exp_pi_div_two_mul_I

lemma exp_minus_quarter : Complex.exp ((-(π / 2) : ℝ) * I) = -I := by
  rw [exp_angle, cos_neg, sin_neg, cos_pi_div_two, sin_pi_div_two]; simp

lemma square_h_x_h : h.square [] * x.square [] * h.square [] = z.square [] := by
  have hx : x.square [] = h.square [] * z.square [] * h.square [] := square_h_z_h.symm
  calc h.square [] * x.square [] * h.square [] = h.square [] * h.square [] * z.square [] *
          (h.square [] * h.square []) := by simp [hx, mul_assoc]
    _ = z.square [] := by rw [square_h_mul_h, one_mul, mul_one]

lemma square_s_x_sdg : s.square [] * x.square [] * sdg.square [] = y.square [] := by
  rw [square_s, square_x, square_sdg, square_phase, square_y, square_mul, square_mul, exp_minus_quarter]
  simp

lemma exp_eighth : Complex.exp ((π / 4 : ℝ) * I) = ((1 / √2 : ℝ) : ℂ) + ((1 / √2 : ℝ) : ℂ) * I := by
  rw [exp_angle, cos_pi_div_four, sin_pi_div_four, sqrt_two_div_two]

lemma exp_minus_eighth : Complex.exp ((-(π / 4) : ℝ) * I) = ((1 / √2 : ℝ) : ℂ) - ((1 / √2 : ℝ) : ℂ) * I := by
  rw [exp_angle, cos_neg, sin_neg, cos_pi_div_four, sin_pi_div_four, sqrt_two_div_two]
  push_cast
  ring

lemma tdg_mul_t : tdg.square [] * t.square [] = 1 := by rw [square_t, square_tdg, square_phase_neg_mul]

lemma tdg_x_t : tdg.square [] * x.square [] * t.square [] =
    QuantumCircuits.square 0 ((1 / √2 : ℝ) + (1 / √2 : ℝ) * I) ((1 / √2 : ℝ) - (1 / √2 : ℝ) * I) 0 := by
  rw [square_t, square_tdg, square_x, square_phase, square_phase, exp_eighth, exp_minus_eighth, square_mul, square_mul]
  simp

lemma square_tilt (M : Square) :
    sdg.square [] * h.square [] * tdg.square [] * M * (t.square [] * h.square [] * s.square []) =
      sdg.square [] * (h.square [] * (tdg.square [] * M * t.square []) * h.square []) * s.square [] := by
  simp [mul_assoc]

lemma square_tilt_x : sdg.square [] * h.square [] * tdg.square [] *
    x.square [] * (t.square [] * h.square [] * s.square []) = h.square [] := by
  have hr := root_half
  have hI := Complex.I_mul_I
  have hh := square_h []
  have ht := tdg_x_t
  rw [Complex.ofReal_neg] at hh
  set r : ℂ := ((1 / √2 : ℝ) : ℂ)
  have hc : h.square [] * QuantumCircuits.square 0 (r + r * I) (r - r * I) 0 *
      h.square [] = QuantumCircuits.square r (-(r * I)) (r * I) (-r) := by
    rw [hh, square_mul, square_mul, square_inj]
    refine ⟨?_, ?_, ?_, ?_⟩
    · linear_combination 2 * r * hr
    · linear_combination -2 * r * I * hr
    · linear_combination 2 * r * I * hr
    · linear_combination -2 * r * hr
  rw [square_tilt, ht, hc, hh, square_sdg, square_phase, square_s, exp_minus_quarter, square_mul, square_mul, square_inj]
  refine ⟨by ring, ?_, ?_, ?_⟩
  · linear_combination -r * hI
  · linear_combination -r * hI
  · linear_combination r * hI

lemma square_tilt_mul : sdg.square [] * h.square [] * tdg.square [] *
    (t.square [] * h.square [] * s.square []) = 1 := by
  have ht := square_tilt 1
  rw [mul_one, mul_one] at ht
  rw [ht, tdg_mul_t, mul_one, square_h_mul_h, mul_one, square_sdg, square_s_eq, square_phase_neg_mul]

lemma square_ry_mul (a b : ℝ) : ry.square [a] * ry.square [b] = ry.square [a + b] := by
  have h : (a + b) / 2 = a / 2 + b / 2 := by ring
  rw [square_ry, square_ry, square_ry, square_mul, square_inj, h, cos_add, sin_add]
  push_cast
  refine ⟨?_, ?_, ?_, ?_⟩ <;> ring

lemma square_rz_mul (a b : ℝ) : rz.square [a] * rz.square [b] = rz.square [a + b] := by
  have h : (a + b) / 2 = a / 2 + b / 2 := by ring
  have h' : -(a + b) / 2 = -a / 2 + -b / 2 := by ring
  rw [square_rz, square_rz, square_rz, square_mul, square_inj, h, h', exp_angle_add, exp_angle_add]
  simp

lemma square_ry_zero : ry.square [0] = 1 := by rw [square_ry, one_eq_square]; simp

lemma square_rz_zero : rz.square [0] = 1 := by rw [square_rz, one_eq_square]; simp

lemma square_x_ry_x (a : ℝ) : x.square [] * ry.square [a] * x.square [] = ry.square [-a] := by
  rw [square_x, square_ry, square_ry, square_mul, square_mul, square_inj, neg_div, cos_neg, sin_neg]
  simp

lemma square_x_rz_x (a : ℝ) : x.square [] * rz.square [a] * x.square [] = rz.square [-a] := by
  rw [square_x, square_rz, square_rz, square_mul, square_mul, square_inj, neg_neg]; simp

lemma square_sdg_ry_s (a : ℝ) : sdg.square [] * ry.square [a] * s.square [] = rx.square [a] := by
  rw [square_s, square_ry, square_rx, square_sdg, square_phase, exp_minus_quarter, square_mul, square_mul, square_inj]
  refine ⟨by ring, by ring, by ring, ?_⟩
  linear_combination -(cos (a / 2) : ℂ) * Complex.I_mul_I

end Base

lemma exp_neg_mul_self (a : ℝ) : Complex.exp ((-a : ℝ) * I) * Complex.exp (a * I) = 1 := by
  rw [← exp_angle_add, neg_add_cancel, Complex.ofReal_zero, zero_mul, Complex.exp_zero]

/-- **A controlled gate between inverse gates on its targets.** -/
theorem gated_between {cs ts : List ℕ} (hcs : ∀ t ∈ ts, t ∉ cs) (hts : ts.Nodup) {A B M N : Square}
    (hA : A * B = 1) (hN : A * M * B = N) (V : Wave) :
    selectEach ts (fun _ => A) (gated (allOn cs) (selectEach ts fun _ => M)
      (selectEach ts (fun _ => B) V)) = gated (allOn cs) (selectEach ts fun _ => N) V := by
  have hco : ∀ M : Square, ∀ t ∈ ts, Blind t fun _ => M := fun M t _ => blind_const t M
  have hi : ∀ V, selectEach ts (fun _ => A) (selectEach ts (fun _ => B) V) = V := by
    intro V
    rw [selectEach_selectEach hts (hco A) (hco B), hA]
    clear hcs hco hts
    induction ts generalizing V with
    | nil => rfl
    | cons t ts ih => rw [selectEach_cons, select_one, ih]
  rw [gated_conj (respects_selectEach (fun t ht => blind_allOn (hcs t ht)) _) hi]
  congr 1
  funext V
  rw [selectEach_selectEach hts (hco M) (hco B), selectEach_selectEach hts (hco A) (hco _), ← mul_assoc, hN]

namespace Operation

variable {t c : ℕ} {b : Base} {o : Operation}

/-! ### Operations on one qubit -/

/-- The operation is a gate on the qubit `t` alone, under controls. -/
def OnQubit (t : ℕ) : Operation → Prop
  | .of b _ _ cs ts => b.onTwo = false ∧ ts = [t] ∧ t ∉ cs
  | _ => False

/-- The matrix that an operation picks for its target. -/
def pick : Operation → Register → Square
  | .of b _ ps cs _, r => if allOn cs r then b.square ps else 1
  | _, _ => 1

/-- The matrix that a row of operations picks for their common target. -/
def picks (os : List Operation) (r : Register) : Square := os.foldl (fun N o => o.pick r * N) 1

lemma OnQubit.act (h : OnQubit t o) : o.act = select t o.pick := by
  cases o with
  | of b r ps cs ts =>
    obtain ⟨hb, rfl, -⟩ := h
    have hs : Base.act b ps [t] = select t fun _ => b.square ps := act_single hb ps [t]
    rw [act, hs, gated_select]
    rfl
  | _ => exact h.elim

lemma OnQubit.blind (h : OnQubit t o) : Blind t o.pick := by
  cases o with
  | of b r ps cs ts => exact (blind_allOn h.2.2).map fun x => if x then b.square ps else 1
  | _ => exact h.elim

/-- **A row of operations on one qubit multiplies the matrices that they pick.** -/
theorem acts_eq_select {os : List Operation} (h : ∀ o ∈ os, OnQubit t o) (V : Wave) :
    acts os V = select t (picks os) V := by
  suffices ∀ N : Register → Square, Blind t N → acts os (select t N V) =
      select t (fun r => os.foldl (fun N o => o.pick r * N) (N r)) V by
    have h1 := this (fun _ => 1) (blind_const t 1)
    rwa [select_one] at h1
  induction os with
  | nil => exact fun N _ => rfl
  | cons o os ih =>
    intro N hN
    have ho : OnQubit t o := h o mem_cons_self
    rw [acts_cons, ho.act, select_select hN]
    exact ih (fun o' ho' => h o' (mem_cons_of_mem _ ho')) _ (ho.blind.mul hN)

lemma act_on_eq_select (hb : b.onTwo = false) (ps : List ℝ) (t : ℕ) :
    (of b .plain ps [] [t]).act = select t fun _ => b.square ps := by
  rw [act_plain hb]
  rfl

/-! ### Phases -/

lemma act_phase (a : ℝ) (t : ℕ) (V : Wave) (b : Register) :
    (turn .phase a [t]).act V b = (if b t then Complex.exp (a * I) else 1) * V b := by
  rw [act_on_eq_select rfl, square_phase, select_diagonal]

lemma act_t (t : ℕ) : (on .t [t]).act = (turn .phase (π / 4) [t]).act := by
  rw [act_on_eq_select rfl, act_on_eq_select rfl, square_t]

lemma act_tdg (t : ℕ) : (on .tdg [t]).act = (turn .phase (-(π / 4)) [t]).act := by
  rw [act_on_eq_select rfl, act_on_eq_select rfl, square_tdg]

lemma act_turnUnder_phase (r : Reach) (a : ℝ) (cs : List ℕ) (t : ℕ) (V : Wave) (b : Register) :
    (of .phase r [a] cs [t]).act V b = (if allOn (cs ++ [t]) b then Complex.exp (a * I) else 1) * V b := by
  have h := act_phase a t V b
  rw [act_plain rfl] at h
  cases hc : allOn cs b
  · simp [act, gated, hc, allOn_append]
  · simp only [act, gated, hc, if_true, act_single (b := .phase) rfl, h, allOn_append, Bool.true_and]
    simp

lemma act_cx_phase_cx (hct : c ≠ t) (a : ℝ) (V : Wave) (b : Register) :
    (cx c t).act ((turn .phase a [t]).act ((cx c t).act V)) b =
      (if b t ^^ b c then Complex.exp (a * I) else 1) * V b := by
  simp only [act_cx, act_phase, Function.update_self, Function.update_of_ne hct,
    Function.update_idem, Bool.xor_assoc, Bool.xor_self, Bool.xor_false, Function.update_eq_self]

lemma exp_half_mul_half (a : ℝ) : Complex.exp ((a / 2 : ℝ) * I) * Complex.exp ((a / 2 : ℝ) * I) =
      Complex.exp (a * I) := by
  rw [← exp_angle_add, add_halves]

lemma half_phases (a : ℝ) (x y : Bool) : (if x then Complex.exp ((a / 2 : ℝ) * I) else 1) *
    (if x ^^ y then Complex.exp ((-(a / 2) : ℝ) * I) else 1) * (if y then Complex.exp ((a / 2 : ℝ) * I) else 1) =
      if x && y then Complex.exp (a * I) else 1 := by
  have hze := exp_neg_mul_self (a / 2)
  rw [← exp_half_mul_half a]
  generalize Complex.exp ((a / 2 : ℝ) * I) = w, Complex.exp ((-(a / 2) : ℝ) * I) = u at *
  cases x <;> cases y <;> simp [hze, mul_comm w u]

/-- **A phase under one control is a row of half phases.** -/
theorem acts_halfPhases (hct : c ≠ t) (a : ℝ) (V : Wave) :
    acts [turn .phase (a / 2) [c], cx c t, turn .phase (-(a / 2)) [t], cx c t,
      turn .phase (a / 2) [t]] V = gated (allOn [c]) (Base.phase.act [a] [t]) V := by
  funext b
  change _ = (of .phase .multi [a] [c] [t]).act V b
  rw [act_turnUnder_phase, acts_cons, acts_cons, acts_cons, acts_cons, acts_cons, acts_nil,
    act_phase, act_cx_phase_cx hct, act_phase]
  have hp := half_phases a (b t) (b c)
  rw [Bool.and_comm] at hp
  simp only [cons_append, nil_append, allOn_cons, allOn_nil, Bool.and_true, ← hp]
  ring

lemma acts_halfPhases_last (hct : c ≠ t) (a : ℝ) (V : Wave) :
    acts [turn .phase (a / 2) [t], cx c t, turn .phase (-(a / 2)) [t], cx c t,
      turn .phase (a / 2) [c]] V = gated (allOn [c]) (Base.phase.act [a] [t]) V := by
  rw [← acts_halfPhases hct]
  funext b
  simp only [acts_cons, acts_nil]
  rw [act_phase, act_cx_phase_cx hct, act_phase, act_phase, act_cx_phase_cx hct, act_phase]
  ring

/-! ### Rotations -/

open Base in
/-- **A rotation under one control.** -/
theorem acts_rotationParts_one (axis : Axis) (a : ℝ) (hct : c ≠ t) (V : Wave) :
    acts (rotationParts axis a [c] t) V = gated (allOn [c]) (select t fun _ => (axis.matrix a).asSquare) V := by
  have hn : -(-a / 2) = a / 2 := by ring
  have hd : -a / 2 + a / 2 = 0 := by ring
  have hct' : t ≠ c := hct.symm
  have ho : ∀ o ∈ rotationParts axis a [c] t, OnQubit t o := by
    cases axis <;> simp [rotationParts, OnQubit, onTwo, hct']
  rw [acts_eq_select ho, gated_select]
  refine congrFun (select_congr fun r => ?_) V
  cases axis <;> simp only [rotationParts, picks, foldl, pick, allOn_cons, allOn_nil, Bool.and_true] <;>
    cases r c <;> simp only [if_true, if_false, Bool.false_eq_true, mul_one, one_mul]
  case x.false =>
    rw [← mul_assoc (ry.square _), square_ry_mul, add_comm, hd, square_ry_zero, one_mul,
      square_sdg, square_s_eq, square_phase_neg_mul]
  case x.true =>
    calc sdg.square [] * (ry.square [a / 2] * (x.square [] * (ry.square [-a / 2] * (x.square [] * s.square []))))
        = sdg.square [] * (ry.square [a / 2] * (x.square [] * ry.square [-a / 2] * x.square [])) * s.square [] := by
          simp only [mul_assoc]
      _ = rx.square [a] := by rw [square_x_ry_x, hn, square_ry_mul, add_halves, square_sdg_ry_s]
  case y.false => rw [square_ry_mul, hd, square_ry_zero]
  case y.true =>
    rw [← mul_assoc (ry.square _), ← mul_assoc, ← mul_assoc, square_x_ry_x, hn, square_ry_mul, add_halves]
    rfl
  case z.false => rw [square_rz_mul, hd, square_rz_zero]
  case z.true =>
    rw [← mul_assoc (rz.square _), ← mul_assoc, ← mul_assoc, square_x_rz_x, hn, square_rz_mul, add_halves]
    rfl

lemma act_phase_gated (x : ℝ) (c : ℕ) (cs : List ℕ) (A : Wave → Wave) (V : Wave) :
    (of .phase .multi [x] cs [c]).act (gated (allOn (cs ++ [c])) A V) =
      gated (allOn (cs ++ [c])) (fun V => Complex.exp (x * I) • A V) V := by
  funext r
  rw [act_turnUnder_phase]
  cases h : allOn (cs ++ [c]) r <;> simp [gated, h]

lemma acts_controlledPower {axis : Axis} (hb : b.onTwo = false)
    (hs : ∀ a, b.square [a] = (axis.matrix a).asSquare) (p g : ℝ) (c t : ℕ) (V : Wave) :
    acts [of b .controlled [p * π] [c] [t], turn .phase (p * π * (g + 1 / 2)) [c]] V =
      gated (allOn [c]) (selectEach [t] fun _ => powerSquare axis p g) V := by
  have h := act_phase_gated (p * π * (g + 1 / 2)) c [] (b.act [p * π] [t]) V
  refine h.trans ?_
  congr 1
  funext V
  rw [act_single hb, hs]
  exact (select_const_smul t _ _ V).symm

/-- **A gate with one control does what its definition does.** -/
theorem acts_controlledParts {ps : List ℝ} (hb : b.onTwo = false)
    (hp : ps.length = b.arity) (hct : c ≠ t) (hx : b ≠ .x) (V : Wave) :
    acts (controlledParts b ps c t) V = gated (allOn [c]) (b.act ps [t]) V := by
  have hcs : ∀ s ∈ [t], s ∉ [c] := by simp [hct.symm]
  have hbe : ∀ {A B N : Square}, A * B = 1 → A * x.square [] * B = N → ∀ V,
      selectEach [t] (fun _ => A) ((cx c t).act (selectEach [t] (fun _ => B) V)) =
        gated (allOn [c]) (selectEach [t] fun _ => N) V := by
    intro A B N hA hN V
    rw [act, act_single rfl]
    exact gated_between hcs (nodup_singleton t) hA hN V
  have hm : ∀ (M N : Square) V, selectEach [t] (fun _ => M) (selectEach [t] (fun _ => N) V) =
      selectEach [t] (fun _ => M * N) V := fun M N V =>
    selectEach_selectEach (nodup_singleton t) (fun s _ => blind_const s M) (fun s _ => blind_const s N) V
  cases b <;> simp only [arity, length_eq_zero_iff, length_eq_one_iff,
    length_eq_two, onTwo, Bool.true_eq_false, ne_eq, not_true_eq_false] at hp hb hx
  case y =>
    subst hp
    simp only [controlledParts, acts_cons, acts_nil, act_plain (b := .s) rfl,
      act_plain (b := .sdg) rfl, act_single (b := .y) rfl]
    refine hbe ?_ square_s_x_sdg V
    rw [square_s_eq, square_sdg, square_phase_mul_neg]
  case z =>
    subst hp
    exact hbe square_h_mul_h square_h_x_h V
  case h =>
    subst hp
    simp only [controlledParts, acts_cons, acts_nil, act_plain (b := .h) rfl,
      act_plain (b := .s) rfl, act_plain (b := .sdg) rfl, act_plain (b := .t) rfl,
      act_plain (b := .tdg) rfl, act_single (b := .h) rfl, hm]
    rw [← mul_assoc, ← mul_assoc]
    exact hbe square_tilt_mul square_tilt_x V
  case s =>
    have h := acts_halfPhases hct (π / 2) V
    rw [div_div, (by norm_num : (2 : ℝ) * 2 = 4)] at h
    rw [act_single rfl, square_s_eq, ← act_single rfl, ← h]
    simp [controlledParts, acts_cons, acts_nil, act_t, act_tdg]
  case sdg =>
    have h := acts_halfPhases hct (-(π / 2)) V
    rw [neg_div, div_div, (by norm_num : (2 : ℝ) * 2 = 4), neg_neg] at h
    rw [act_single rfl, square_sdg, ← act_single rfl, ← h]
    simp [controlledParts, acts_cons, acts_nil, act_t, act_tdg]
  case t =>
    have h := acts_halfPhases_last hct (π / 4) V
    rw [div_div, (by norm_num : (4 : ℝ) * 2 = 8)] at h
    rw [act_single rfl, square_t, ← act_single rfl, ← h]
    rfl
  case tdg =>
    have h := acts_halfPhases hct (-(π / 4)) V
    rw [neg_div, div_div, (by norm_num : (4 : ℝ) * 2 = 8), neg_neg] at h
    rw [act_single rfl, square_tdg, ← act_single rfl, ← h]
    rfl
  case rx | ry | rz => obtain ⟨a, rfl⟩ := hp; rfl
  case phase =>
    obtain ⟨a, rfl⟩ := hp
    rw [← acts_halfPhases hct a V, ← neg_div]
    rfl
  case xPow | yPow | zPow =>
    obtain ⟨p, g, rfl⟩ := hp
    exact acts_controlledPower rfl (fun _ => rfl) p g c t V
  case u3 => rfl

end Operation

end QuantumCircuits

end

/-! ### Added phases

Operations that only turn the phases of registers.  `added b` is the phase, a real number, that a rotation about
the third axis, a phase or a rotation by selected angles adds where the qubits are as in the register `b`.  Such an
operation does nothing else (`AddsPhases`), so a row of them adds the sum of their phases (`acts_addsPhases`).

A phase under controls is a staircase of rotations, each by half the angle before and under one control less,
which leaves the whole angle where everything is on and nothing elsewhere (`sum_added_stairParts`).
-/

noncomputable section

namespace QuantumCircuits.Operation

open List Complex

/-- The phase that a rotation about the third axis adds: half of its angle where the target is on, and minus
half of it elsewhere. -/
def halfTurn (a : ℝ) (on : Bool) : ℝ := (if on then 1 / 2 else -1 / 2) * a

/-- The phase that an operation adds where the qubits are as in a register. -/
def added (b : Register) : Operation → ℝ
  | .of .phase _ [a] cs [t] => if allOn (cs ++ [t]) b then a else 0
  | .of .rz _ [a] cs [t] => if allOn cs b then halfTurn a (b t) else 0
  | .ucr axis angles cs t => if axis = .z then halfTurn (angles.getD (indexOf cs b) 0) (b t) else 0
  | .globalPhase a => a
  | _ => 0

def totalAdded (os : List Operation) (b : Register) : ℝ := (os.map (added b)).sum

@[simp] lemma totalAdded_nil (b : Register) : totalAdded [] b = 0 := rfl

@[simp] lemma totalAdded_cons (o : Operation) (os : List Operation) (b : Register) :
    totalAdded (o :: os) b = o.added b + totalAdded os b := sum_cons

/-- The operation does nothing but add its phases. -/
def AddsPhases (o : Operation) : Prop := ∀ (V : Wave) (b : Register), o.act V b = exp (o.added b * I) * V b

lemma exp_halfTurn (a : ℝ) (on : Bool) : exp (halfTurn a on * I) =
    if on then exp ((a / 2 : ℝ) * I) else exp ((-a / 2 : ℝ) * I) := by
  cases on <;> simp only [halfTurn, Bool.false_eq_true, if_false, if_true] <;> congr 3 <;> ring

lemma addsPhases_phase (r : Reach) (a : ℝ) (cs : List ℕ) (t : ℕ) : (of .phase r [a] cs [t]).AddsPhases := by
  intro V b
  rw [act_turnUnder_phase, added]
  split <;> simp

lemma addsPhases_rz (r : Reach) (a : ℝ) (cs : List ℕ) (t : ℕ) : (of .rz r [a] cs [t]).AddsPhases := by
  intro V b
  rw [added, act, Base.act_single rfl]
  cases ha : allOn cs b
  · rw [gated_off (by simp [ha])]
    simp
  · rw [gated_on ha, if_pos rfl, exp_halfTurn, Base.square_rz, selectEach_cons, selectEach_nil, select_diagonal]

/-- **A row of operations that add phases** adds their sum. -/
theorem acts_addsPhases {os : List Operation} (h : ∀ o ∈ os, o.AddsPhases) (V : Wave) (b : Register) :
    acts os V b = exp (totalAdded os b * I) * V b := by
  induction os generalizing V with
  | nil => simp
  | cons o os ih =>
    rw [acts_cons, ih fun o' ho' => h o' (mem_cons_of_mem _ ho'), h o mem_cons_self,
      totalAdded_cons, add_comm, exp_angle_add, mul_assoc]

/-! ### Staircases -/

lemma stairParts_nil (a : ℝ) (k t : ℕ) : stairParts a k [] t = [turn .phase (a / 2 ^ k) [t]] := by
  rw [stairParts]; rfl

lemma stairParts_concat (a : ℝ) (k : ℕ) (cs : List ℕ) (c t : ℕ) : stairParts a k (cs ++ [c]) t =
      turnUnder .rz (a / 2 ^ k) (cs ++ [c]) [t] :: stairParts a (k + 1) cs c := by
  rw [stairParts]
  split
  · simp_all
  · rename_i c' hc'
    rw [getLast?_concat, Option.some.injEq] at hc'
    rw [dropLast_concat, ← hc']

lemma mem_stairParts {a : ℝ} {k : ℕ} {cs : List ℕ} {t : ℕ} {o : Operation} (ho : o ∈ stairParts a k cs t) :
    (∃ x ds q, o = turnUnder .rz x ds [q]) ∨ ∃ x q, o = turn .phase x [q] := by
  induction cs using reverseRecOn generalizing k t with
  | nil =>
    rw [stairParts_nil, mem_singleton] at ho
    exact .inr ⟨_, t, ho⟩
  | append_singleton cs c ih =>
    rw [stairParts_concat, mem_cons] at ho
    rcases ho with rfl | ho
    · exact .inl ⟨_, _, t, rfl⟩
    · exact ih ho

/-- **What a staircase adds**: its angle where the controls and the target are on, and nothing elsewhere.
Where the controls are on, the first step adds half of the angle or takes it away, and the steps that follow
add the other half. -/
theorem sum_added_stairParts (a : ℝ) (k : ℕ) (cs : List ℕ) (t : ℕ) (b : Register) :
    totalAdded (stairParts a k cs t) b = if allOn (cs ++ [t]) b then a / 2 ^ k else 0 := by
  induction cs using reverseRecOn generalizing k t with
  | nil => simp [stairParts_nil, added]
  | append_singleton cs c ih =>
    have hh : a / 2 ^ (k + 1) = 1 / 2 * (a / 2 ^ k) := by rw [pow_succ]; field_simp
    have ho : allOn (cs ++ [c] ++ [t]) b = (allOn (cs ++ [c]) b && b t) := by
      rw [allOn_append (cs ++ [c])]; simp
    rw [stairParts_concat, totalAdded_cons, ih, added, hh, ho]
    cases allOn (cs ++ [c]) b with
    | false => simp
    | true => cases b t <;> simp [halfTurn] <;> ring

lemma addsPhases_stairParts (a : ℝ) (k : ℕ) (cs : List ℕ) (t : ℕ) : ∀ o ∈ stairParts a k cs t, o.AddsPhases := by
  intro o ho
  rcases mem_stairParts ho with ⟨x, ds, q, rfl⟩ | ⟨x, q, rfl⟩
  · exact addsPhases_rz _ _ _ _
  · exact addsPhases_phase _ _ _ _

/-- **A phase of one target under controls.** -/
theorem acts_stairParts (a : ℝ) (k : ℕ) (cs : List ℕ) (t : ℕ) (V : Wave) :
    acts (stairParts a k cs t) V = gated (allOn cs) (select t fun _ => Base.phase.square [a / 2 ^ k]) V := by
  have hp : gated (allOn cs) (select t fun _ => Base.phase.square [a / 2 ^ k]) V =
      (of .phase .multi [a / 2 ^ k] cs [t]).act V := by
    rw [act, Base.act_single rfl]
    rfl
  funext b
  rw [acts_addsPhases (addsPhases_stairParts a k cs t), sum_added_stairParts, hp, act_turnUnder_phase]
  split <;> simp

end QuantumCircuits.Operation

end
