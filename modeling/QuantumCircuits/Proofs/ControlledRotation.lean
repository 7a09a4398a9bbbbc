import Mathlib.Analysis.SpecialFunctions.Trigonometric.Bounds
import QuantumCircuits.Proofs.Operation.Circuits

/-!
# Rotations under controls

A rotation under two or more controls is built from a square root, which is taken in one of three ways:
the rotation has a real second diagonal, or it is turned into a matrix that has one, or it counts as
minus one and the root of minus one is taken.  Which way is decided with tolerances, so two things go
wrong close to the borders: a rotation about the first axis by an angle close to none counts as one with
a real second diagonal, and nothing is left of it; and a rotation close to minus one is replaced by
minus one.

`halvesSquare_eq_iff` says that these are the only ways to go wrong, and `rotates_under_controls_iff`
says the same of the gate in a circuit.
-/

/-! ### Selected rotations

A rotation about the second or third axis by an angle that controls select is emitted as a row of
rotations with negations of the target between them.  A negation whose control is on turns the
rotations behind it around, so for each value of the controls the row turns by the sum of its angles,
each with the sign that the negations before it give it (`signedSum`).

The angles of the row are found by halving sums and differences, where the second half of the row runs
backwards, and the controls of the negations repeat in the same way.  So the signed sum is the selected
angle (`rowSum_demultiplex`), and the negations of a whole row leave nothing over.
-/

namespace QuantumCircuits

open List

variable {n : ℕ}

namespace Operation

variable {axis : Axis} {cs : List ℕ} {t : ℕ} {o : Operation} {angles : List ℝ}

/-- The angle of a rotation; a negation has none. -/
def turned : Operation → ℝ
  | .of _ .plain [a] _ _ => a
  | _ => 0

/-- The operation is a negation whose control is on. -/
def negates (b : Register) : Operation → Bool
  | .of .x .controlled _ [c] _ => b c
  | _ => false

/-- The number of negations whose control is on. -/
def negations (b : Register) (os : List Operation) : ℕ := os.countP (negates b)

/-- The sum of the angles, each with the sign that the negations before it give it. -/
def signedSum (b : Register) (os : List Operation) : ℝ :=
  (os.zipIdx.map fun p => (-1) ^ negations b (os.take p.2) * p.1.turned).sum

@[simp] lemma signedSum_nil (b : Register) : signedSum b [] = 0 := rfl

lemma negations_cons (b : Register) (o : Operation) (os : List Operation) :
    negations b (o :: os) = negations b os + (o.negates b).toNat := by
  rw [negations, countP_cons]
  cases o.negates b <;> rfl

lemma negations_append (b : Register) (os os' : List Operation) :
    negations b (os ++ os') = negations b os + negations b os' := countP_append

lemma signedSum_cons (b : Register) (o : Operation) (os : List Operation) :
    signedSum b (o :: os) = o.turned + (-1) ^ (o.negates b).toNat * signedSum b os := by
  have hs : ∀ p : Operation × ℕ, (-1 : ℝ) ^ negations b ((o :: os).take (p.2 + 1)) * p.1.turned =
        (-1) ^ (o.negates b).toNat * ((-1) ^ negations b (os.take p.2) * p.1.turned) := by
    intro p
    rw [take_succ_cons, negations_cons, pow_add]
    ring
  rw [signedSum, zipIdx_cons', map_cons, sum_cons, map_map]
  congr 1
  · simp [negations]
  · rw [signedSum, ← sum_map_mul_left]; exact congrArg sum (map_congr_left fun p _ => hs p)

lemma signedSum_append (b : Register) (os os' : List Operation) :
    signedSum b (os ++ os') = signedSum b os + (-1) ^ negations b os * signedSum b os' := by
  induction os with
  | nil => simp [negations]
  | cons o os ih =>
    rw [cons_append, signedSum_cons, ih, signedSum_cons, negations_cons, pow_add]
    ring

/-! ### Rows -/

section Rows

variable (haxis : axis ≠ .x) (cs : List ℕ) (t : ℕ) (b : Register)

lemma signedSum_aboutAxis (a : ℝ) : signedSum b [aboutAxis axis a t] = a := by
  cases axis <;> simp [signedSum_cons, aboutAxis, turned]

lemma negations_aboutAxis (a : ℝ) : negations b [aboutAxis axis a t] = 0 := by
  cases axis <;> rfl

include haxis in
lemma signedSum_negationParts (c : ℕ) : signedSum b (negationParts axis c t) = 0 := by
  simp [negationParts, haxis, signedSum_cons, turned]

include haxis in
lemma negations_negationParts (c : ℕ) : negations b (negationParts axis c t) = (b c).toNat := by
  rw [negationParts, if_neg haxis, negations_cons]; exact Nat.zero_add _

include haxis in
lemma signedSum_weave {as : List ℝ} {ns : List ℕ} (h : as.length = ns.length + 1) :
    signedSum b (weave axis cs t as ns) = rowSum cs b as ns ∧
      (-1) ^ negations b (weave axis cs t as ns) = signOf (parity cs b ns) := by
  induction ns generalizing as with
  | nil =>
    obtain ⟨a, rfl⟩ := length_eq_one_iff.mp h
    simp [weave, rowSum, parity, signOf, signedSum_aboutAxis, negations_aboutAxis]
  | cons n ns ih =>
    obtain ⟨a, as, rfl⟩ := exists_cons_of_length_eq_add_one h
    obtain ⟨hs, hco⟩ := ih (by simpa using h)
    have hp : parity cs b (n :: ns) = (b (cs.getD n 0) ^^ parity cs b ns) := rfl
    rw [weave, ← singleton_append, signedSum_append, signedSum_append, negations_append,
      negations_append, negations_aboutAxis, signedSum_aboutAxis, signedSum_negationParts haxis,
      negations_negationParts haxis, hs, zero_add, zero_add, pow_zero, one_mul, pow_add, hco,
      hp, signOf_xor, rowSum]
    exact ⟨rfl, rfl⟩

end Rows

/-- **A whole row** sums up to the selected angle, and leaves no negation over. -/
theorem signedSum_rowParts (haxis : axis ≠ .x) (t : ℕ)
    (h0 : cs ≠ []) (hlen : angles.length = 2 ^ cs.length) (b : Register) :
    signedSum b (rowParts axis angles cs t) = angles.getD (indexOf cs b) 0 ∧
      Even (negations b (rowParts axis angles cs t)) := by
  have hro : (rowAngles angles).length = 2 ^ cs.length := by rw [rowAngles, length_demultiplex, hlen]
  obtain ⟨hs, hco⟩ := signedSum_weave haxis cs t b (hro.trans (length_ruler _).symm)
  have hr := rowSum_demultiplex le_rfl hlen b false
  have hl : lastOf cs cs.length b = b (cs.getD (cs.length - 1) 0) := by simp [lastOf, h0]
  rw [take_length, if_neg Bool.false_ne_true, one_mul] at hr
  rw [rowParts_eq t h0 hro, signedSum_append, negations_append, signedSum_negationParts haxis,
    negations_negationParts haxis]
  refine ⟨?_, ?_⟩
  · rw [mul_zero, add_zero, hs, rowAngles, hr]
  · rw [← neg_one_pow_eq_one_iff_even (R := ℝ) (by norm_num), pow_add, hco, parity_ruler, hl]
    exact signOf_mul_self _

lemma rowAngles_singleton (a : ℝ) : rowAngles [a] = [a] := demultiplex_singleton false a

lemma mem_rowParts_angles (haxis : axis ≠ .x)
    (hlen : angles.length = 2 ^ cs.length) (ho : o ∈ rowParts axis angles cs t) :
    (∃ a ∈ rowAngles angles, o = aboutAxis axis a t) ∨ ∃ c ∈ cs, o = cx c t := by
  rw [rowParts] at ho
  by_cases h0 : cs = []
  · subst h0
    obtain ⟨a, rfl⟩ := length_eq_one_iff.mp hlen
    rw [if_pos rfl, mem_singleton] at ho
    exact .inl ⟨a, by simp [rowAngles_singleton], ho⟩
  have hp : 0 < cs.length := length_pos_iff.mpr h0
  rw [if_neg h0, mem_flatMap] at ho
  obtain ⟨⟨a, i⟩, hm, ho⟩ := ho
  rcases mem_cons.mp ho with rfl | ho
  · exact .inl ⟨a, fst_mem_of_mem_zipIdx hm, rfl⟩
  · have hi : i < 2 ^ cs.length := by
      have hl := (mem_zipIdx' hm).1
      rwa [rowAngles, length_demultiplex, hlen] at hl
    rw [negationParts, if_neg haxis, mem_singleton] at ho
    exact .inr ⟨_, getD_mem (negationControl_lt hp hi), ho⟩

lemma mem_rowParts (haxis : axis ≠ .x) (hlen : angles.length = 2 ^ cs.length)
    (ho : o ∈ rowParts axis angles cs t) : (∃ a, o = aboutAxis axis a t) ∨ ∃ c ∈ cs, o = cx c t :=
  (mem_rowParts_angles haxis hlen ho).imp_left fun ⟨a, _, ha⟩ => ⟨a, ha⟩

end Operation

open Operation

/-- **A rotation by a selected angle.**  The calls that it is carried out by are rotations of the target
and negations of it by the controls.  For every value of the controls, the angles of the rotations, each
with the sign that the negations before it give it, sum up to the selected angle, and an even number of
negations have their control on.  So the gate applies the rotation by the selected angle. -/
theorem rotates_by_selected_angle {axis : Axis} (haxis : axis = .y ∨ axis = .z) {angles : List ℝ}
    {cs : List ℕ} {t : ℕ} (hcs : 1 ≤ cs.length) (ho : (Operation.ucr axis angles cs t).Valid n)
    {x y z : Operand ℝ} (hx : (Slot.turns angles).Means n x) (hy : y.IsQubits n cs)
    (hz : z.IsQubit n t) :
    (∃ calls os, (Plan.multiplexedRotation x (.text axis.text) y z).outcome = (calls, .ok ()) ∧
      List.Forall₂ (fun c o => c.controlState = .none ∧ Denotes n c.gate c.operands o) calls.toList os ∧
      (∀ o ∈ os, (∃ a, o = aboutAxis axis a t) ∨ ∃ c ∈ cs, o = cx c t) ∧
      ∀ b, signedSum b os = angles.getD (indexOf cs b) 0 ∧ Even (negations b os)) ∧
    ∀ (c : Circuit ℝ) (g : ℝ), c.Open n g → (∀ p ∈ c.steps, p.Within n) → ∃ c', c.after (Circuit.apply (.ucr axis)
          [(.angles, x), (.controlIndices, y), (.targetIndex, z)]) = .ok c' ∧
        c'.operator n = matrixOf n (select t fun b => (axis.matrix (angles.getD (indexOf cs b) 0)).asSquare) *
            c.operator n := by
  have hn : axis ≠ .x := by rcases haxis with rfl | rfl <;> decide
  have h0 : cs ≠ [] := length_pos_iff.mp hcs
  refine ⟨?_, fun c g hc hs => ?_⟩
  · obtain ⟨calls, hca, hd⟩ := Plan.stands_multiplexedRotation ho.shaped hx hy hz
    refine ⟨calls.toArray, _, ?_, hd, fun o => mem_rowParts hn ho.shaped, signedSum_rowParts hn t h0 ho.shaped⟩
    rw [Plan.outcome, hca #[]]
    simp
  · have hd : Denotes n (.ucr axis) [(.angles, x), (.controlIndices, y), (.targetIndex, z)]
        (.ucr axis angles cs t) := ⟨rfl, by cases axis <;> rfl, .cons hx (.cons hy (.cons hz .nil))⟩
    exact Circuit.exists_operator hd hc hs ⟨ho, by simp [turns]⟩

/-- Two controls select among four angles. -/
theorem rotates_by_selected_angle_four : ∃ c', (Circuit.empty .reference 3).after (Circuit.apply (.ucr .y)
        [(.angles, .list [.real 1, .real (1 / 2), .real (-2), .real 3]),
          (.controlIndices, .list [.int 2, .int 0]), (.targetIndex, .int (-2))]) = .ok c' ∧
      c'.operator 3 = matrixOf 3 (select 1 fun b =>
        (Axis.y.matrix ([1, 1 / 2, -2, 3].getD (indexOf [2, 0] b) 0)).asSquare) := by
  have hv : (ucr .y [1, 1 / 2, -2, 3] [2, 0] 1).Valid 3 := ⟨rfl, by decide, by decide⟩
  have hco : (Operand.list [.int 2, .int 0] : Operand ℝ).IsQubits 3 [2, 0] :=
    (Operand.IsSequence.list (.cons ⟨rfl, rfl⟩ (.cons ⟨rfl, rfl⟩ .nil))).isQubits
  have hci := (rotates_by_selected_angle (.inl rfl) (by decide) hv (.inl rfl) hco
    (z := .int (-2)) ⟨rfl, rfl⟩).2 (Circuit.empty .reference 3) 0 (Circuit.open_empty 3)
    (by simp [Circuit.steps_empty])
  rwa [Circuit.operator_empty, mul_one] at hci

/-! ### Rotations under controls -/

open Real ControlledRotation Cplx Plan Base Axis
open Complex (I)

variable {a : ℝ} {axis : Axis} {cs : List ℕ}

/-! ### The corner -/

/-- The corner that the root of a rotation is computed from. -/
noncomputable def Axis.corner (axis : Axis) (a : ℝ) : ℂ :=
  if axis = .y then cos (a / 2) else Complex.exp ((a / 2 : ℝ) * I)

lemma corner_y (a : ℝ) : y.corner a = cos (a / 2) := if_pos rfl

lemma corner_of_ne (h : axis ≠ .y) (a : ℝ) : axis.corner a = Complex.exp ((a / 2 : ℝ) * I) := if_neg h

lemma exp_half (a : ℝ) : Complex.exp ((a / 2 : ℝ) * I) = cos (a / 2) + sin (a / 2) * I := by
  rw [Complex.exp_mul_I, ← Complex.ofReal_cos, ← Complex.ofReal_sin]

lemma value_readShape_z (hr : (readShape (axis.matrix a)).secondReal = true → axis = .x → sin (a / 2) = 0) :
    (readShape (axis.matrix a)).z.value = axis.corner a := by
  cases axis with
  | x =>
    have hsh := readShape_x a
    by_cases hs : close (-sin (a / 2.0)) 0.0 = true
    · rw [if_pos hs] at hsh
      have hsi := hr (by rw [hsh]) rfl
      rw [hsh, corner_of_ne (by decide), exp_half, hsi]
      simp [-Complex.ofReal_cos]
    · rw [if_neg hs] at hsh
      rw [hsh, corner_of_ne (by decide), exp_half]
      exact value_corner a
  | y =>
    rw [readShape_y, corner_y]
    simp [-Complex.ofReal_cos]
  | z =>
    rw [readShape_z, corner_of_ne (by decide)]
    simp

/-! ### What is left -/

lemma twoRounds_of_commute {A : Square} (hA : A.conjTranspose * A = 1)
    (hX : x.square [] * A = A * x.square []) : twoRounds A = 1 := by
  have hon : A.conjTranspose * x.square [] * A * x.square [] = 1 := by
    rw [mul_assoc A.conjTranspose, hX, ← mul_assoc, hA, one_mul, square_x_mul_x]
  rw [twoRounds, hon, one_mul]

lemma halvesSquare_of_close (hcl : (readShape (axis.matrix a)).z.isClose (-.one) 1e-5 1e-8 = true) :
    halvesSquare axis a = -1 := by
  rw [halvesSquare, rootSquare, twoRounds_of_close hcl, mul_neg, mul_one, neg_mul, frameSquare_mul_self]

lemma halvesSquare_x_of_close (hr : |sin (a / 2)| ≤ 1e-8)
    (hcl : (readShape (x.matrix a)).z.isClose (-.one) 1e-5 1e-8 ≠ true) : halvesSquare .x a = 1 := by
  have hsh := readShape_x a
  have hs : close (-sin (a / 2.0)) 0.0 = true := by rw [Scalar.real_two, close_zero_iff, abs_neg]; exact hr
  rw [if_pos hs] at hsh
  have hco : x.square [] * rootSquare .x a = rootSquare .x a * x.square [] := by
    have hr : ∀ u s : ℝ, (⟨u, 0.0 / s⟩ : Cplx ℝ).conj = ⟨u, 0.0 / s⟩ := fun u s => by simp [conj]
    have hi : ∀ y s : ℝ, -((⟨0.0, y⟩ : Cplx ℝ).shrink s).conj = (⟨0.0, y⟩ : Cplx ℝ).shrink s :=
      fun y s => by
        apply value_injective
        apply Complex.ext <;> simp [shrink, conj]
    rw [rootSquare, root, if_neg hcl, hsh, square_x]
    simp only [ofReal, hr, hi, Mat.asSquare_square2, square_mul, square_inj]
    simp
  have hfr : frameSquare .x a = 1 := by rw [frameSquare, (secondReal_x a).mpr hr, if_pos rfl]
  rw [halvesSquare, hfr, twoRounds_of_commute (rootSquare_unitary .x a) hco, one_mul, one_mul]

lemma sin_eq_zero_of_diagonal {p q : ℂ} (h : square p 0 0 q = (x.matrix a).asSquare) : sin (a / 2) = 0 := by
  have hU : (x.matrix a).asSquare = rx.square [a] := rfl
  rw [hU, square_rx, square_inj] at h
  simpa [-Complex.ofReal_sin] using h.2.1

lemma corner_of_minus_one (h : -1 = (axis.matrix a).asSquare) : axis.corner a = -1 := by
  rw [one_eq_square, ← neg_one_smul ℂ (square 1 0 0 1), smul_square, mul_one, mul_zero] at h
  cases axis with
  | x =>
    have hs := sin_eq_zero_of_diagonal h
    have hU : (x.matrix a).asSquare = rx.square [a] := rfl
    rw [hU, square_rx, square_inj] at h
    rw [corner_of_ne (by decide), exp_half, hs, Complex.ofReal_zero, zero_mul, add_zero]
    exact h.1.symm
  | y =>
    have hU : (y.matrix a).asSquare = ry.square [a] := rfl
    rw [hU, square_ry, square_inj] at h
    rw [corner_y]
    exact h.1.symm
  | z =>
    have hU : (z.matrix a).asSquare = rz.square [a] := rfl
    rw [hU, square_rz, square_inj] at h
    rw [corner_of_ne (by decide)]
    exact h.2.2.2.symm

/-- **What is left is the rotation** exactly when an angle about the first axis that counts as none is
none, and a corner that counts as minus one is minus one. -/
theorem halvesSquare_eq_iff (axis : Axis) (a : ℝ) : halvesSquare axis a = (axis.matrix a).asSquare ↔
      (axis = .x → |sin (a / 2)| ≤ 1e-8 → sin (a / 2) = 0) ∧
        (‖axis.corner a + 1‖ ≤ 1e-8 + 1e-5 → axis.corner a = -1) := by
  constructor
  · intro h
    have hsi : axis = .x → |sin (a / 2)| ≤ 1e-8 → sin (a / 2) = 0 := by
      rintro rfl hs
      by_cases hcl : (readShape (x.matrix a)).z.isClose (-.one) 1e-5 1e-8 = true
      · rw [halvesSquare_of_close hcl, one_eq_square, ← neg_one_smul ℂ (square 1 0 0 1), smul_square, mul_zero] at h
        exact sin_eq_zero_of_diagonal h
      · rw [halvesSquare_x_of_close hs hcl, one_eq_square] at h; exact sin_eq_zero_of_diagonal h
    have hv : (readShape (axis.matrix a)).z.value = axis.corner a := by
      refine value_readShape_z ?_; rintro hs rfl; exact hsi rfl ((secondReal_x a).mp hs)
    refine ⟨hsi, fun hn => ?_⟩
    rw [← hv, ← isClose_minus_one] at hn
    rw [halvesSquare_of_close hn] at h
    exact corner_of_minus_one h
  · rintro ⟨hsi, hco⟩
    have hr : (readShape (axis.matrix a)).secondReal = true → axis = .x → sin (a / 2) = 0 := by
      rintro hs rfl; exact hsi rfl ((secondReal_x a).mp hs)
    refine halvesSquare_eq hr fun hcl => ?_
    rw [isClose_minus_one, value_readShape_z hr] at hcl
    apply value_injective
    rw [value_readShape_z hr, hco hcl]
    simp

/-! ### The gate -/

lemma matrixOf_gated_select_inj {t : ℕ} (hcs : ∀ c ∈ cs, c < n) (ht : t < n) (hm : t ∉ cs) {M N : Square} :
    matrixOf n (gated (allOn cs) (select t fun _ => M)) =
      matrixOf n (gated (allOn cs) (select t fun _ => N)) ↔ M = N := by
  refine ⟨fun h => ?_, fun h => h ▸ rfl⟩
  rw [matrixOf_eq_iff ((local_select ht _).gated _) ((local_select ht _).gated _)] at h
  ext i j
  -- all controls are on, the target has value `i`, and the wave is where it has value `j`
  set b : Register := fun q => if q = t then i else decide (q ∈ cs) with hb
  have hbe : Below n b := by
    intro q hq
    have hqt : q ≠ t := by omega
    have hqc : q ∉ cs := fun hq' => absurd (hcs q hq') (by omega)
    simp [hb, hqt, hqc]
  have hon : allOn cs b = true := by
    rw [allOn, List.all_eq_true]
    intro c hc
    have hct : c ≠ t := fun he => hm (he ▸ hc)
    simp [hb, hct, hc]
  have hbt : b t = i := by simp [hb]
  have hV := h (fun b' => if b' t = j then 1 else 0) b hbe
  rw [gated_on hon, gated_on hon] at hV
  cases j <;> simpa [select, hbt] using hV

lemma parts_rotationAbout (axis : Axis) (a : ℝ) (t : ℕ) (h2 : 2 ≤ cs.length) :
    (turnUnder (rotationAbout axis) a cs [t]).parts = halvesParts axis a cs t := by
  obtain ⟨c, d, cs, rfl⟩ : ∃ c d cs', cs = c :: d :: cs' := by
    match cs, h2 with
    | c :: d :: cs, _ => exact ⟨c, d, cs, rfl⟩
  cases axis <;> exact List.append_nil _

section Gate

variable {axis : Axis} {a : ℝ} {cs : List ℕ} {t : ℕ} (h2 : 2 ≤ cs.length) {operands : Operands ℝ}
  (hcall : Denotes n (.of (rotationAbout axis) .multi) operands (turnUnder (rotationAbout axis) a cs [t]))
  (ho : (turnUnder (rotationAbout axis) a cs [t]).Valid n)
  (hroot : PlacesRoot axis a t) {c : Circuit ℝ} {g : ℝ} (hc : c.Open n g)
  (hsteps : ∀ p ∈ c.steps, p.Within n)
include h2 hcall ho hroot hc hsteps

lemma exists_operator_halves : ∃ c', c.after (Circuit.apply (.of (rotationAbout axis) .multi) operands) = .ok c' ∧
      c'.operator n = matrixOf n (gated (allOn cs) (select t fun _ => halvesSquare axis a)) * c.operator n := by
  obtain ⟨hcs, hm⟩ : cs.Nodup ∧ t ∉ cs :=
    ⟨ho.nodup.of_append_left, fun hm => List.disjoint_of_nodup_append ho.nodup hm (by simp)⟩
  obtain ⟨hcl, ht⟩ : (∀ c ∈ cs, c < n) ∧ t < n := by simpa [qubits, or_imp, forall_and] using ho.lt
  have hn : (turnUnder (rotationAbout axis) a cs [t]).primitives? = none := by
    cases axis <;> rfl
  have hpa := parts_rotationAbout axis a t h2
  have hg : ∀ p ∈ (turnUnder (rotationAbout axis) a cs [t]).parts, p.Good n := by
    intro p hp
    rw [hpa] at hp
    have hl := light_roundsParts hcs hm hcl ht _ _ h2 p hp
    exact ⟨hl.valid, by simp [hl.turns]⟩
  have hr : run (turnUnder (rotationAbout axis) a cs [t]).prims =
      gated (allOn cs) (select t fun _ => halvesSquare axis a) := by
    funext V
    rw [run_prims_parts ho hn hg, hpa, acts_halvesParts_root hroot hcs hm h2]
  rw [← hr]
  exact Circuit.exists_operator_run hcall hc hsteps ho

/-- **A rotation under two or more controls**, with the one-qubit gates that it is built from placed
exactly, applies the rotation where all controls are on and nothing elsewhere exactly when an angle about
the first axis that counts as none is none, and a corner that counts as minus one is minus one. -/
theorem rotates_under_controls_iff :
    ∃ c', c.after (Circuit.apply (.of (Plan.rotationAbout axis) .multi) operands) = .ok c' ∧
      (c'.operator n = matrixOf n (gated (allOn cs) (select t fun _ => (axis.matrix a).asSquare)) * c.operator n ↔
        (axis = .x → |sin (a / 2)| ≤ 1e-8 → sin (a / 2) = 0) ∧
          (‖axis.corner a + 1‖ ≤ 1e-8 + 1e-5 → axis.corner a = -1)) := by
  obtain ⟨c', ha, hop⟩ := exists_operator_halves h2 hcall ho hroot hc hsteps
  have hl : (∀ c ∈ cs, c < n) ∧ t < n := by simpa [qubits, or_imp, forall_and] using ho.lt
  have hm : t ∉ cs := fun hm => List.disjoint_of_nodup_append ho.nodup hm (by simp)
  refine ⟨c', ha, ?_⟩
  rw [hop, Circuit.mul_operator_inj hc.numQubits hsteps, matrixOf_gated_select_inj hl.1 hl.2 hm]
  exact halvesSquare_eq_iff axis a

end Gate

/-! ### Close to minus one -/

lemma u3_root_minus_one : OneQubit.u3 (Mat.square2 .one .zero .zero .unit : Mat (Cplx ℝ)) = ⟨0, 0, 0, π / 2⟩ := by
  have hd : (Mat.square2 .one .zero .zero .unit : Mat (Cplx ℝ)).det2.value = I := by
    change (one * unit - zero * zero : Cplx ℝ).value = _; simp
  have he : ((Mat.square2 .one .zero .zero .unit : Mat (Cplx ℝ)).get 1 1).value = I ∧
      ((Mat.square2 .one .zero .zero .unit : Mat (Cplx ℝ)).get 1 0).value = 0 ∧
      ((Mat.square2 .one .zero .zero .unit : Mat (Cplx ℝ)).get 0 0).value = 1 :=
    ⟨value_unit, value_zero, value_one⟩
  have ht : Complex.arg ⟨‖(1 : ℂ)‖, ‖(0 : ℂ)‖⟩ = 0 := by rw [norm_one, norm_zero]; exact Complex.arg_one
  simp only [OneQubit.u3, OneQubit.zyz, arg_real, abs_real, Scalar.atan2_real, hd, he,
    ht, Complex.arg_I, Complex.arg_zero]
  norm_num
  ring

lemma placesRoot_of_close (hcl : (readShape (axis.matrix a)).z.isClose (-.one) 1e-5 1e-8 = true) (t : ℕ) :
    PlacesRoot axis a t := by
  have ha : rootAngles axis a = ⟨0, 0, 0, π / 2⟩ := by rw [rootAngles, root, if_pos hcl, u3_root_minus_one]
  have hp := two_le_pi
  have hq : Definite (π / 2) := definite_of_between (by norm_num; linarith) (by norm_num; linarith)
  refine placesRoot_of_clear (rootAngles_clear ?_ ?_ ?_ ?_) t <;> rw [ha]
  exacts [definite_zero, definite_zero, hq, definite_zero]

lemma denotes_ry_under (a : ℝ) : Denotes 3 (.of (rotationAbout .y) .multi)
      [(.angle, .real a), (.controlIndices, .list [.int 0, .int 1]), (.targetIndices, .int 2)]
      (turnUnder (rotationAbout .y) a [0, 1] [2]) :=
  ⟨rfl, rfl, .cons rfl (.cons (Operand.IsSequence.list (.cons ⟨rfl, rfl⟩ (.cons ⟨rfl, rfl⟩ .nil))).isQubits
    (.cons (Operand.IsQubit.isQubits ⟨rfl, rfl⟩) .nil))⟩

lemma valid_ry_under (a : ℝ) : (turnUnder (rotationAbout .y) a [0, 1] [2]).Valid 3 :=
  ⟨⟨rfl, .inl (by decide), by decide⟩, by simp [qubits], by simp [qubits]⟩

lemma isClose_short_turn {d : ℝ} (hd : d ^ 2 ≤ 2e-5) :
    (readShape (y.matrix (2 * π - 2 * d))).z.isClose (-.one) 1e-5 1e-8 = true := by
  have hco : cos ((2 * π - 2 * d) / 2) = -cos d := by
    rw [show (2 * π - 2 * d) / 2 = π - d by ring, cos_pi_sub]
  have hon := one_sub_sq_div_two_le_cos (x := d)
  have hl := cos_le_one d
  rw [isClose_minus_one, readShape_y, Scalar.real_two, hco, value_ofReal]
  rw [← Complex.ofReal_one, ← Complex.ofReal_add, Complex.norm_real, norm_eq_abs, abs_of_nonneg (by linarith)]
  linarith

/-- A full turn about the second axis under two controls changes a sign. -/
theorem rotates_under_controls_turn :
    ∃ c', (Circuit.empty .reference 3).after (Circuit.apply (.of .ry .multi) [(.angle, .real (2 * π)),
        (.controlIndices, .list [.int 0, .int 1]), (.targetIndices, .int 2)]) = .ok c' ∧
      c'.operator 3 = matrixOf 3 (gated (allOn [0, 1]) (select 2 fun _ => (Axis.y.matrix (2 * π)).asSquare)) := by
  have hcl := isClose_short_turn (d := 0) (by norm_num)
  rw [mul_zero, sub_zero] at hcl
  obtain ⟨c', ha, hi⟩ := rotates_under_controls_iff (by decide)
    (denotes_ry_under (2 * π)) (valid_ry_under (2 * π)) (placesRoot_of_close hcl 2)
    (Circuit.open_empty 3) (by simp [Circuit.steps_empty])
  rw [Circuit.operator_empty, mul_one] at hi
  refine ⟨c', ha, hi.mpr ⟨by decide, fun _ => ?_⟩⟩
  rw [corner_y, show 2 * π / 2 = π by ring, cos_pi]
  simp

/-- A turn that falls short of a full one by a little changes the sign too, and does not turn back. -/
theorem not_rotates_under_controls_short :
    ∃ c', (Circuit.empty .reference 3).after (Circuit.apply (.of .ry .multi)
        [(.angle, .real (2 * π - 0.008)), (.controlIndices, .list [.int 0, .int 1]),
          (.targetIndices, .int 2)]) = .ok c' ∧
      c'.operator 3 ≠ matrixOf 3
        (gated (allOn [0, 1]) (select 2 fun _ => (Axis.y.matrix (2 * π - 0.008)).asSquare)) := by
  have hcl := isClose_short_turn (d := 0.004) (by norm_num)
  have ha : 2 * π - 2 * 0.004 = 2 * π - 0.008 := by congr 1; norm_num
  rw [ha] at hcl
  obtain ⟨c', haf, hop⟩ := exists_operator_halves (by decide)
    (denotes_ry_under (2 * π - 0.008)) (valid_ry_under _) (placesRoot_of_close hcl 2)
    (Circuit.open_empty 3) (by simp [Circuit.steps_empty])
  refine ⟨c', haf, ?_⟩
  rw [hop, Circuit.operator_empty, mul_one, ne_eq,
    matrixOf_gated_select_inj (by decide) (by decide) (by decide), halvesSquare_of_close hcl]
  intro h
  have hco := corner_of_minus_one h
  rw [corner_y, show (2 * π - 0.008) / 2 = π - 0.004 by ring, cos_pi_sub] at hco
  have hc1 : cos 0.004 = 1 := by
    have h := Complex.ofReal_injective (hco.trans (by simp : (-1 : ℂ) = ((-1 : ℝ) : ℂ)))
    linarith
  have hp := two_le_pi
  have := (cos_eq_one_iff_of_lt_of_lt (by norm_num; linarith) (by norm_num; linarith)).mp hc1
  norm_num at this

end QuantumCircuits
