import QuantumCircuits.Circuit.Basic
import QuantumCircuits.Proofs.Exact.Register

/-!
# Exact — Evaluate

What primitives do to waves, and the operator of a circuit.  `run` applies a list of primitives to a
wave; `Circuit.operator` is the matrix of a circuit as `Circuit.unitary` computes it.  The two agree
(`operator_eq_matrixOf`), so a fact about the waves that a circuit's primitives produce is a fact
about its matrix.
-/

/-! ### Real

The real numbers as scalars: the reading of the library in which arithmetic is exact.  The
tolerances keep the values that they are written with, so a comparison up to a tolerance is a
comparison of real numbers and not an equation.

`Cplx.value` reads a pair of reals as a complex number; it takes the library's operations to those
of `ℂ`.
-/

namespace QuantumCircuits

open Complex Scalar

-- the number two is written with the same proof in every module
instance atLeastTwo_two : Nat.AtLeastTwo 2 := ⟨le_rfl⟩

/-- Real numbers as scalars. -/
noncomputable instance : Scalar ℝ where
  ofInt i := i
  pi := Real.pi
  sqrt := Real.sqrt
  sin := Real.sin
  cos := Real.cos
  asin := Real.arcsin
  acos := Real.arccos
  atan2 y x := arg ⟨x, y⟩
  pow x p := x ^ p
  remainder x y := x - y * ⌊x / y⌋
  truncate x := if 0 ≤ x then ⌊x⌋ else ⌈x⌉
  lt x y := decide (x < y)
  le x y := decide (x ≤ y)
  eq x y := decide (x = y)
  text _ := ""

namespace Scalar

@[simp] lemma pi_real : (pi : ℝ) = Real.pi := rfl

@[simp] lemma sqrt_real (x : ℝ) : sqrt x = Real.sqrt x := rfl

@[simp] lemma sin_real (x : ℝ) : sin x = Real.sin x := rfl

@[simp] lemma cos_real (x : ℝ) : cos x = Real.cos x := rfl

@[simp] lemma atan2_real (y x : ℝ) : atan2 y x = arg ⟨x, y⟩ := rfl

@[simp] lemma ofInt_real (i : Int) : (ofInt i : ℝ) = i := rfl

@[simp] lemma ofNat_real (n : Nat) : (ofNat n : ℝ) = n := by simp [ofNat]

@[simp] lemma remainder_real (x y : ℝ) : remainder x y = x - y * ⌊x / y⌋ := rfl

@[simp] lemma lt_real (x y : ℝ) : lt x y = decide (x < y) := rfl

@[simp] lemma le_real (x y : ℝ) : le x y = decide (x ≤ y) := rfl

@[simp] lemma eq_real (x y : ℝ) : eq x y = decide (x = y) := rfl

/-! ### Literals -/

@[simp] lemma real_zero : (0.0 : ℝ) = 0 := by norm_num

@[simp] lemma real_one : (1.0 : ℝ) = 1 := by norm_num

@[simp] lemma real_two : (2.0 : ℝ) = 2 := by norm_num

@[simp] lemma real_four : (4.0 : ℝ) = 4 := by norm_num

@[simp] lemma real_eight : (8.0 : ℝ) = 8 := by norm_num

@[simp] lemma real_half : (0.5 : ℝ) = 1 / 2 := by norm_num

@[simp] lemma abs_real (x : ℝ) : abs x = |x| := by
  simp only [abs, lt_real, eq_real, real_zero, decide_eq_true_eq]
  split
  · rename_i h
    exact (abs_of_neg h).symm
  · split
    · simp_all
    · rename_i h _
      exact (abs_of_nonneg (not_lt.mp h)).symm

@[simp] lemma isFinite_real (x : ℝ) : isFinite x = true := by simp [isFinite]

@[simp] lemma npow_real (x : ℝ) (n : Nat) : npow x n = x ^ n := by
  induction n with
  | zero => simp [npow]
  | succ n ih => simp [npow, ih, pow_succ]

lemma isClose_real (x y rtol atol : ℝ) : isClose x y rtol atol = true ↔ |x - y| ≤ atol + rtol * |y| ∨ x = y := by
  simp [isClose]

end Scalar

namespace Cplx

/-- The complex number that a pair of reals is. -/
def value (z : Cplx ℝ) : ℂ := ⟨z.re, z.im⟩

def ofValue (z : ℂ) : Cplx ℝ := ⟨z.re, z.im⟩

@[simp] lemma value_ofValue (z : ℂ) : (ofValue z).value = z := rfl

@[simp] lemma ofValue_value (z : Cplx ℝ) : ofValue z.value = z := rfl

lemma value_injective {z w : Cplx ℝ} (h : z.value = w.value) : z = w := by
  rw [← ofValue_value z, h, ofValue_value]

@[simp] lemma value_re (z : Cplx ℝ) : z.value.re = z.re := rfl

@[simp] lemma value_im (z : Cplx ℝ) : z.value.im = z.im := rfl

@[simp] lemma value_mk (x y : ℝ) : (⟨x, y⟩ : Cplx ℝ).value = ⟨x, y⟩ := rfl

@[simp] lemma value_zero : (zero : Cplx ℝ).value = 0 := by
  apply ext <;> simp [zero]

@[simp] lemma value_one : (one : Cplx ℝ).value = 1 := by
  apply ext <;> simp [one]

@[simp] lemma value_unit : (unit : Cplx ℝ).value = I := by
  apply ext <;> simp [unit]

@[simp] lemma value_ofReal (x : ℝ) : (ofReal x).value = x := by
  apply ext <;> simp [ofReal]

@[simp] lemma value_add (z w : Cplx ℝ) : (z + w).value = z.value + w.value := rfl

@[simp] lemma value_sub (z w : Cplx ℝ) : (z - w).value = z.value - w.value := rfl

@[simp] lemma value_neg (z : Cplx ℝ) : (-z).value = -z.value := rfl

@[simp] lemma value_mul (z w : Cplx ℝ) : (z * w).value = z.value * w.value := rfl

@[simp] lemma value_conj (z : Cplx ℝ) : z.conj.value = starRingEnd ℂ z.value := rfl

@[simp] lemma value_scale (x : ℝ) (z : Cplx ℝ) : (scale x z).value = x * z.value := by
  apply ext <;> simp [scale]

@[simp] lemma value_shrink (z : Cplx ℝ) (x : ℝ) : (z.shrink x).value = z.value / x := by
  apply ext <;> simp [shrink]

@[simp] lemma value_turn (t : ℝ) : (turn t).value = exp (t * I) := by
  apply ext <;> simp [turn, exp_re, exp_im]

@[simp] lemma normSq_real (z : Cplx ℝ) : normSq z = Complex.normSq z.value := rfl

@[simp] lemma abs_real (z : Cplx ℝ) : z.abs = ‖z.value‖ := rfl

@[simp] lemma arg_real (z : Cplx ℝ) : z.arg = z.value.arg := rfl

lemma isClose_iff (z w : Cplx ℝ) : z.isClose w 1e-5 1e-8 = true ↔ ‖z.value - w.value‖ ≤ 1e-8 + 1e-5 * ‖w.value‖ := by
  rw [isClose, le_real, eq_real, eq_real, abs_real, abs_real, value_sub]
  simp only [isFinite_real, Bool.and_true, Bool.or_eq_true, Bool.and_eq_true, decide_eq_true_eq]
  refine or_iff_left_of_imp fun h => ?_
  rw [show z.value = w.value from Complex.ext h.1 h.2, sub_self, norm_zero]
  positivity

end Cplx

end QuantumCircuits

/-! ### Evaluate -/

noncomputable section

namespace QuantumCircuits

open List Cplx Amplitudes Finset

variable {n i k q t : ℕ} {V : Wave} {A B : Wave → Wave} {p : Primitive ℝ} {ps : List (Primitive ℝ)}

/-- The first two rows and columns of a matrix. -/
def Mat.asSquare (M : Mat (Cplx ℝ)) : Square :=
  square (M.get 0 0).value (M.get 0 1).value (M.get 1 0).value (M.get 1 1).value

@[simp] lemma Mat.asSquare_square2 (a b c d : Cplx ℝ) :
    (Mat.square2 a b c d).asSquare = square a.value b.value c.value d.value := rfl

/-- The matrix that exchanges the two basis vectors. -/
def flipSquare : Square := square 0 1 1 0

lemma flipSquare_mul_self : flipSquare * flipSquare = 1 := by rw [flipSquare, square_mul, one_eq_square]; simp

namespace Primitive

def act : Primitive ℝ → Wave → Wave
  | .u3 theta phi lam q => select q fun _ => (Mat.u3 theta phi lam).asSquare
  | .cx c t => select t (under [c] flipSquare)
  | .phase t => fun V => Complex.exp (t * Complex.I) • V
  | .measure _ | .reset _ => id

/-- The qubits of a primitive are among the first `n`, and a control is not its own target. -/
def Within (n : ℕ) : Primitive ℝ → Prop
  | .u3 _ _ _ q => q < n
  | .cx c t => c < n ∧ t < n ∧ c ≠ t
  | .phase _ => True
  | .measure q | .reset q => q < n

def angle : Primitive ℝ → ℝ
  | .phase t => t
  | _ => 0

lemma act_smul (p : Primitive ℝ) (z : ℂ) (V : Wave) : p.act (z • V) = z • p.act V := by
  cases p with
  | u3 theta phi lam q => exact select_smul _ _ z V
  | cx c t => exact select_smul _ _ z V
  | phase t => exact smul_comm _ _ _
  | measure q => rfl
  | reset q => rfl

end Primitive

def run (ps : List (Primitive ℝ)) (V : Wave) : Wave := ps.foldl (fun V p => p.act V) V

@[simp] lemma run_nil (V : Wave) : run [] V = V := rfl

@[simp] lemma run_cons (p : Primitive ℝ) (ps : List (Primitive ℝ)) (V : Wave) :
    run (p :: ps) V = run ps (p.act V) := rfl

lemma run_append (ps qs : List (Primitive ℝ)) (V : Wave) : run (ps ++ qs) V = run qs (run ps V) := foldl_append

lemma run_smul (ps : List (Primitive ℝ)) (z : ℂ) (V : Wave) : run ps (z • V) = z • run ps V := by
  induction ps generalizing V with
  | nil => rfl
  | cons p ps ih => rw [run_cons, p.act_smul, ih, run_cons]

/-! ### Amplitudes in an array -/

def bits (i : ℕ) : Register := fun q => i.testBit q

/-- The array holds the amplitudes of the first `2 ^ n` numbers. -/
def Holds (n : ℕ) (v : Amplitudes ℝ) (V : Wave) : Prop :=
  v.size = 2 ^ n ∧ ∀ i, i < 2 ^ n → (v.getD i .zero).value = V (bits i)

lemma bits_xor (i q : ℕ) : bits (i ^^^ 1 <<< q) = Function.update (bits i) q (!i.testBit q) := by
  funext k
  rw [Nat.one_shiftLeft]
  by_cases h : k = q
  · subst h; simp [bits, Nat.testBit_xor]
  · rw [Function.update_of_ne h]
    simp [bits, Nat.testBit_xor, Nat.testBit_two_pow_of_ne (Ne.symm h)]

lemma xor_lt (hi : i < 2 ^ n) (hq : q < n) : i ^^^ 1 <<< q < 2 ^ n := by
  rw [Nat.one_shiftLeft]; exact Nat.xor_lt_two_pow hi (Nat.pow_lt_pow_right (by omega) hq)

lemma getD_mapIdx (v : Amplitudes ℝ) (f : ℕ → Cplx ℝ → Cplx ℝ) (hi : i < v.size) :
    (v.mapIdx f).getD i .zero = f i (v.getD i .zero) := by
  simp [Array.getD, hi]

namespace Primitive

variable {v : Amplitudes ℝ}

lemma values_of_holds (h : Holds n v V) (hi : i < 2 ^ n) (hq : q < n) : (v.getD i .zero).value = V (bits i) ∧
    (v.getD (i ^^^ 1 <<< q) .zero).value = V (Function.update (bits i) q (!i.testBit q)) :=
  ⟨h.2 i hi, by rw [h.2 _ (xor_lt hi hq), bits_xor]⟩

lemma holds_u3 (hq : q < n) (h : Holds n v V)
    (M : Mat (Cplx ℝ)) : Holds n (v.applyGate M q) (select q (fun _ => M.asSquare) V) := by
  refine ⟨by simpa [applyGate] using h.1, fun i hi => ?_⟩
  obtain ⟨hx, hy⟩ := values_of_holds h hi hq
  have hbi : bits i q = i.testBit q := rfl
  simp only [applyGate, getD_mapIdx _ _ (h.1 ▸ hi), select]
  cases hb : i.testBit q <;> rw [hb] at hy hbi <;>
    simp only [if_true, if_false, Bool.false_eq_true, Bool.not_false, Bool.not_true, value_add, value_mul, hx, hy, hbi,
      Mat.asSquare, square_false_false, square_false_true, square_true_false, square_true_true, update_bit hbi]

lemma holds_cx {c : ℕ} (ht : t < n) (h : Holds n v V) :
    Holds n (v.applyControlled c t) (select t (under [c] flipSquare) V) := by
  refine ⟨by simpa [applyControlled] using h.1, fun i hi => ?_⟩
  obtain ⟨hx, hy⟩ := values_of_holds h hi ht
  simp only [applyControlled, getD_mapIdx _ _ (h.1 ▸ hi), select, under, all_cons, all_nil, Bool.and_true]
  have hc : bits i c = i.testBit c := rfl
  rw [hc]
  cases i.testBit c with
  | false =>
    have ho := congrFun (select_one t V) (bits i)
    simp only [Bool.false_eq_true, if_false, hx]
    exact ho.symm
  | true =>
    have hbi : bits i t = i.testBit t := rfl
    cases hb : i.testBit t <;> rw [hb] at hy hbi <;>
      simp [-Array.getD_eq_getD_getElem?, hy, hbi, flipSquare]

lemma holds_phase (t : ℝ) (h : Holds n v V) :
    Holds n (v.applyPhase t) (Complex.exp (t * Complex.I) • V) := by
  refine ⟨by simpa [applyPhase] using h.1, fun i hi => ?_⟩
  have hl : i < v.size := h.1 ▸ hi
  have hx : (v.getD i .zero).value = V (bits i) := h.2 i hi
  have hg : (v.applyPhase t).getD i .zero = turn t * v.getD i .zero := by simp [applyPhase, Array.getD, hl]
  rw [hg, value_mul, value_turn, hx]
  rfl

lemma holds_apply (hp : p.Within n) (h : Holds n v V) : Holds n (p.apply v) (p.act V) := by
  cases p with
  | u3 theta phi lam q => exact holds_u3 hp h _
  | cx c t => exact holds_cx hp.2.1 h
  | phase t => exact holds_phase t h
  | measure q => exact h
  | reset q => exact h

end Primitive

lemma holds_foldl (hp : ∀ p ∈ ps, p.Within n) {v : Amplitudes ℝ} (h : Holds n v V) :
    Holds n (ps.foldl Primitive.apply v) (run ps V) := by
  induction ps generalizing v V with
  | nil => exact h
  | cons p ps ih =>
    exact ih (fun q hq => hp q (mem_cons_of_mem _ hq)) (Primitive.holds_apply (hp p mem_cons_self) h)

/-- The basis vector of a number, on the first `n` qubits. -/
def basisWave (n k : ℕ) : Wave := fun b => if ∀ q < n, b q = k.testBit q then 1 else 0

lemma bits_agree (hi : i < 2 ^ n) (hk : k < 2 ^ n) : (∀ q < n, bits i q = k.testBit q) ↔ i = k := by
  constructor
  · intro h
    apply Nat.eq_of_testBit_eq
    intro q
    by_cases hq : q < n
    · exact h q hq
    · have hp : 2 ^ n ≤ 2 ^ q := Nat.pow_le_pow_right (by omega) (by omega)
      rw [Nat.testBit_lt_two_pow (by omega), Nat.testBit_lt_two_pow (by omega)]
  · rintro rfl q -; rfl

lemma basisWave_bits (hi : i < 2 ^ n) (hk : k < 2 ^ n) : basisWave n k (bits i) = if i = k then 1 else 0 := by
  simp [basisWave, bits_agree hi hk]

lemma holds_basis (hk : k < 2 ^ n) : Holds n (basis (2 ^ n) k) (basisWave n k) := by
  refine ⟨by simp [basis], fun i hi => ?_⟩
  rw [basisWave_bits hi hk]
  have hg : (basis (2 ^ n) k : Amplitudes ℝ).getD i .zero = if i = k then one else zero := by
    simp [basis, Array.getD, hi]
  rw [hg]
  split <;> simp

/-! ### Operators on a number of qubits -/

/-- The matrix of an operator on the first `n` qubits. -/
def matrixOf (n : ℕ) (A : Wave → Wave) : Matrix (Fin (2 ^ n)) (Fin (2 ^ n)) ℂ := fun i j => A (basisWave n j) (bits i)

/-- The operator is linear and stays within the first `n` qubits: its matrix says what it does to
every wave. -/
def Local (n : ℕ) (A : Wave → Wave) : Prop :=
  ∀ V : Wave, ∀ i : Fin (2 ^ n), A V (bits i) = ∑ j, matrixOf n A i j * V (bits j)

lemma basisWave_fin (i k : Fin (2 ^ n)) : basisWave n k (bits i) = if i = k then 1 else 0 := by
  rw [basisWave_bits i.isLt k.isLt]; simp [Fin.ext_iff]

lemma sum_basisWave (V : Wave) (i : Fin (2 ^ n)) :
    ∑ j : Fin (2 ^ n), basisWave n j (bits i) * V (bits j) = V (bits i) := by
  simp [basisWave_fin]

lemma local_id (n : ℕ) : Local n id := fun V i => (sum_basisWave V i).symm

lemma Local.comp (hA : Local n A) (hB : Local n B) : Local n fun V => A (B V) := by
  intro V i
  calc A (B V) (bits i) = ∑ j, matrixOf n A i j * B V (bits j) := hA _ _
    _ = ∑ j, ∑ k, matrixOf n A i j * (matrixOf n B j k * V (bits k)) := by
        refine sum_congr rfl fun j _ => ?_; rw [hB V j, mul_sum]
    _ = ∑ k, ∑ j, matrixOf n A i j * (matrixOf n B j k * V (bits k)) := sum_comm
    _ = ∑ k, matrixOf n (fun V => A (B V)) i k * V (bits k) := by
        refine sum_congr rfl fun k _ => ?_
        rw [matrixOf, hA, sum_mul]
        exact sum_congr rfl fun j _ => (mul_assoc _ _ _).symm

lemma matrixOf_comp (hA : Local n A) (B : Wave → Wave) :
    matrixOf n (fun V => A (B V)) = matrixOf n A * matrixOf n B := by
  ext i k
  rw [matrixOf, hA, Matrix.mul_apply]
  rfl

lemma matrixOf_id (n : ℕ) : matrixOf n id = 1 := by
  ext i j; rw [matrixOf, id, basisWave_fin, Matrix.one_apply]

lemma matrixOf_smul (n : ℕ) (z : ℂ) (A : Wave → Wave) : matrixOf n (fun V => z • A V) = z • matrixOf n A := rfl

lemma Local.smul (hA : Local n A) (z : ℂ) : Local n fun V => z • A V := by
  intro V i
  calc z • A V (bits i) = ∑ j, z • (matrixOf n A i j * V (bits j)) := by rw [hA, Finset.smul_sum]
    _ = ∑ j, (z • matrixOf n A) i j * V (bits j) := by simp [Matrix.smul_apply, smul_eq_mul, mul_assoc]

lemma Local.ext (hA : Local n A) (hB : Local n B)
    (h : matrixOf n A = matrixOf n B) (V : Wave) (i : Fin (2 ^ n)) : A V (bits i) = B V (bits i) := by
  rw [hA, hB, h]

lemma exists_update (hq : q < n) (i : Fin (2 ^ n)) (y : Bool) :
    ∃ k : Fin (2 ^ n), bits k = Function.update (bits i) q y := by
  by_cases h : (i : ℕ).testBit q = y
  · exact ⟨i, (update_bit h).symm⟩
  · refine ⟨⟨i ^^^ 1 <<< q, xor_lt i.isLt hq⟩, ?_⟩
    rw [bits_xor]
    congr 1
    cases y <;> simp_all

lemma local_select (ht : t < n) (M : Register → Square) : Local n (select t M) := by
  intro V i
  obtain ⟨j, hj⟩ := exists_update ht i false
  obtain ⟨k, hk⟩ := exists_update ht i true
  simp only [matrixOf, select, ← hj, ← hk, basisWave_fin, add_mul, sum_add_distrib]
  simp

lemma Primitive.local_act (hp : p.Within n) : Local n p.act := by
  cases p with
  | u3 theta phi lam q => exact local_select hp _
  | cx c t => exact local_select hp.2.1 _
  | phase t => exact (local_id n).smul _
  | measure q => exact local_id n
  | reset q => exact local_id n

lemma local_run (hp : ∀ p ∈ ps, p.Within n) : Local n (run ps) := by
  induction ps with
  | nil => exact local_id n
  | cons p ps ih =>
    exact (ih fun q hq => hp q (mem_cons_of_mem _ hq)).comp (Primitive.local_act (hp p mem_cons_self))

namespace Circuit

variable {c : Circuit ℝ}

def steps (c : Circuit ℝ) : List (Primitive ℝ) := c.primitives.toList

def operator (n : ℕ) (c : Circuit ℝ) : Matrix (Fin (2 ^ n)) (Fin (2 ^ n)) ℂ := fun i j => (c.unitary.get i j).value

lemma column_holds (hc : ∀ p ∈ c.steps, p.Within c.numQubits)
    (hk : k < 2 ^ c.numQubits) : Holds c.numQubits (c.column k) (run c.steps (basisWave c.numQubits k)) := by
  rw [column, ← Array.foldl_toList]
  exact holds_foldl hc (holds_basis hk)

lemma unitary_get (c : Circuit ℝ) {j : ℕ} (hi : i < 2 ^ c.numQubits)
    (hj : j < 2 ^ c.numQubits) : c.unitary.get i j = (c.column j).getD i .zero := by
  have hl : i * 2 ^ c.numQubits + j < 2 ^ c.numQubits * 2 ^ c.numQubits := by
    calc i * 2 ^ c.numQubits + j < i * 2 ^ c.numQubits + 2 ^ c.numQubits := by omega
      _ = (i + 1) * 2 ^ c.numQubits := by ring
      _ ≤ _ := Nat.mul_le_mul_right _ hi
  have hd : (i * 2 ^ c.numQubits + j) / 2 ^ c.numQubits = i := by
    rw [mul_comm, Nat.mul_add_div (by positivity), Nat.div_eq_of_lt hj, add_zero]
  have hm : (i * 2 ^ c.numQubits + j) % 2 ^ c.numQubits = j := by
    rw [mul_comm, Nat.mul_add_mod, Nat.mod_eq_of_lt hj]
  simp [unitary, Mat.get, Mat.ofFn, Array.getD, hl, hd, hm, hj]

/-- **The matrix of a circuit is the matrix of what its primitives do.** -/
theorem operator_eq_matrixOf (hn : c.numQubits = n)
    (hc : ∀ p ∈ c.steps, p.Within n) : c.operator n = matrixOf n (run c.steps) := by
  subst hn
  ext i j
  rw [operator, unitary_get c i.isLt j.isLt, (column_holds hc j.isLt).2 i i.isLt]
  rfl

end Circuit

end QuantumCircuits

end

/-! ### Small matrices

Two by two matrices of pairs of reals, as the library computes with them.  A matrix that is unitary
passes the library's test for unitary matrices (`isUnitary_square2`).
-/

namespace QuantumCircuits

open Mat

namespace Mat

open Finset

variable (a b c d : Cplx ℝ)

lemma ofFn_two {β : Type} (f : ℕ → ℕ → β) : ofFn 2 2 f = square2 (f 0 0) (f 0 1) (f 1 0) (f 1 1) := by
  have h : Array.range (2 * 2) = #[0, 1, 2, 3] := by decide
  simp [ofFn, h, square2]

lemma get_ofFn {β : Type} [Inhabited β] {m n i j : ℕ} (f : ℕ → ℕ → β) (hi : i < m) (hj : j < n) :
    (ofFn m n f).get i j = f i j := by
  have hl : i * n + j < m * n := by nlinarith
  have hd : (i * n + j) / n = i := by rw [mul_comm, Nat.mul_add_div (by omega), Nat.div_eq_of_lt hj, add_zero]
  have hm : (i * n + j) % n = j := by rw [mul_comm, Nat.mul_add_mod, Nat.mod_eq_of_lt hj]
  simp [get, ofFn, hl, hd, hm]

lemma dotReal_eq_sum (n : ℕ) (f g : ℕ → ℝ) : dotReal n f g = ∑ j ∈ range n, f j * g j := by
  induction n with
  | zero => exact Scalar.real_zero
  | succ n ih =>
    rw [sum_range_succ, ← ih, dotReal, List.range_succ, List.foldl_append]
    rfl

lemma value_dot (n : ℕ) (f g : ℕ → Cplx ℝ) : (dot n f g).value = ∑ k ∈ range n, (f k).value * (g k).value := by
  apply Complex.ext
  · simp [dot, dotReal_eq_sum, Complex.re_sum]
  · simp [dot, dotReal_eq_sum, Complex.im_sum, sum_add_distrib]

lemma dot_two (f g : ℕ → Cplx ℝ) : dot 2 f g = f 0 * g 0 + f 1 * g 1 := by
  apply Cplx.value_injective
  rw [value_dot, sum_range_succ, sum_range_one, Cplx.value_add, Cplx.value_mul, Cplx.value_mul]

lemma square2_adjoint : (square2 a b c d).adjoint = square2 a.conj c.conj b.conj d.conj := ofFn_two _

lemma square2_mul (a' b' c' d' : Cplx ℝ) : square2 a b c d * square2 a' b' c' d' =
    square2 (a * a' + b * c') (a * b' + b * d') (c * a' + d * c') (c * b' + d * d') := by
  change ofFn 2 2 (fun i j => dot 2 (fun k => (square2 a b c d).get i k) (fun k => (square2 a' b' c' d').get k j)) = _
  rw [ofFn_two]
  simp only [dot_two]
  rfl

lemma identity_two : (identity 2 : Mat (Cplx ℝ)) = square2 .one .zero .zero .one := ofFn_two _

end Mat

lemma Cplx.isClose_self (z : Cplx ℝ) (rtol atol : ℝ) : z.isClose z rtol atol = true := by simp [isClose]

lemma Mat.allClose_self (M : Mat (Cplx ℝ)) (rtol atol : ℝ) : M.allClose M rtol atol = true := by
  simp [allClose, Cplx.isClose_self]

variable {tol : Tensor.Tolerance ℝ}

lemma isUnitary_of_adjoint_mul {M : Mat (Cplx ℝ)} (hs : M.rows = M.cols) (h : M.adjoint * M = identity M.rows)
    : (Tensor.ofMat M).isUnitary tol = true := by
  have hm : (Tensor.ofMat M).square? = some M := Option.filter_eq_some_iff.mpr ⟨rfl, by simp [hs]⟩
  rw [Tensor.isUnitary, Tensor.isSquareAnd, hm]
  change allClose _ _ _ _ = true
  rw [h]
  exact allClose_self _ _ _

/-- **A unitary matrix is found to be unitary.** -/
theorem isUnitary_square2 {a b c d : Cplx ℝ}
    (h : (square2 a b c d).asSquare.conjTranspose * (square2 a b c d).asSquare = 1) :
    (Tensor.ofMat (square2 a b c d)).isUnitary tol = true := by
  refine isUnitary_of_adjoint_mul rfl (?_ : _ = identity 2)
  rw [square2_adjoint, square2_mul, identity_two]
  rw [asSquare_square2, square_conjTranspose, square_mul, one_eq_square, square_inj] at h
  obtain ⟨h1, h2, h3, h4⟩ := h
  congr 1 <;> apply Cplx.value_injective <;> simpa using ‹_›

/-! ### Flips

Flipped qubits around a controlled operator.  `flips P` flips the qubits of a list.  Around an operator
under controls, flips change the values that the controls have to have and turn the operator itself;
`matrixOf_flips_gated` says when what results is the operator under controls with given values.

Matrices on `n` qubits say what operators do at the registers that are off from qubit `n` on (`Below`).
-/

open List Function

variable {n : ℕ}
variable {P cs : List ℕ} {b : Register} {A B : Wave → Wave} {t : ℕ} {values : List Bool}

/-! ### Registers of `n` qubits -/

def Below (n : ℕ) (b : Register) : Prop := ∀ q, n ≤ q → b q = false

lemma below_bits (i : Fin (2 ^ n)) : Below n (bits i) := fun q hq =>
  Nat.testBit_lt_two_pow (i.isLt.trans_le (Nat.pow_le_pow_right (by omega) hq))

lemma exists_bits (hb : Below n b) : ∃ i : Fin (2 ^ n), bits i = b := by
  induction n generalizing b with
  | zero =>
    refine ⟨0, funext fun q => ?_⟩
    rw [hb q (Nat.zero_le q)]
    simp [bits]
  | succ n ih =>
    obtain ⟨i, hi⟩ := ih (b := update b n false) fun q hq => by
      by_cases h : q = n
      · rw [h, update_self]
      · rw [update_of_ne h]; exact hb q (by omega)
    have hl : (i : ℕ) < 2 ^ (n + 1) := i.isLt.trans (Nat.pow_lt_pow_right (by omega) (by omega))
    obtain ⟨k, hk⟩ := exists_update (Nat.lt_succ_self n) ⟨i, hl⟩ (b n)
    refine ⟨k, ?_⟩
    rw [hk, hi, update_idem, update_eq_self]

/-- **Operators that stay within `n` qubits have the same matrix when they do the same at the registers
of these.** -/
theorem matrixOf_eq_iff (hA : Local n A) (hB : Local n B) :
    matrixOf n A = matrixOf n B ↔ ∀ V b, Below n b → A V b = B V b := by
  constructor
  · intro h V b hb; obtain ⟨i, rfl⟩ := exists_bits hb; exact hA.ext hB h V i
  · intro h; ext i j; exact h _ _ (below_bits i)

/-! ### Flips -/

def flip (P : List ℕ) (b : Register) : Register := fun q => b q ^^ decide (q ∈ P)

def flips (P : List ℕ) (V : Wave) : Wave := fun b => V (flip P b)

@[simp] lemma flip_flip (P : List ℕ) (b : Register) : flip P (flip P b) = b := by funext q; simp [flip]

@[simp] lemma flips_flips (P : List ℕ) (V : Wave) : flips P (flips P V) = V := by funext b; simp [flips]

lemma flip_nil (b : Register) : flip [] b = b := by funext q; simp [flip]

lemma flip_comm (P Q : List ℕ) (b : Register) : flip P (flip Q b) = flip Q (flip P b) := by
  funext q; simp only [flip, Bool.xor_right_comm]

lemma flips_comm (P Q : List ℕ) (V : Wave) : flips P (flips Q V) = flips Q (flips P V) := by
  funext b; exact congrArg V (flip_comm Q P b)

lemma below_flip (hP : ∀ q ∈ P, q < n) (hb : Below n b) : Below n (flip P b) := by
  intro q hq
  have hq' : q ∉ P := fun hm => absurd (hP q hm) (by omega)
  simp [flip, hb q hq, hq']

lemma flip_of_notMem {q : ℕ} (h : q ∉ P) (b : Register) : flip P b q = b q := by simp [flip, h]

lemma flip_update (h : t ∉ P) (b : Register) (x : Bool) : flip P (update b t x) = update (flip P b) t x := by
  funext q
  by_cases hq : q = t
  · subst hq; simp [flip, h]
  · simp [flip, hq]

lemma select_flipSquare (t : ℕ) (V : Wave) : select t (fun _ => flipSquare) V = flips [t] V := by
  funext b
  have hfl : flip [t] b = update b t (!b t) := by
    funext q
    by_cases hq : q = t
    · subst hq; simp [flip]
    · simp [flip, hq]
  simp only [flips, hfl, select, flipSquare]
  cases b t <;> simp

lemma selectEach_flipSquare (hP : P.Nodup) (V : Wave) : selectEach P (fun _ => flipSquare) V = flips P V := by
  induction P generalizing V with
  | nil =>
    funext b
    simp [flips, flip_nil]
  | cons t P ih =>
    obtain ⟨ht, hP⟩ := nodup_cons.mp hP
    rw [selectEach_cons, select_flipSquare, ih hP]
    funext b
    refine congrArg V (funext fun q => ?_)
    by_cases hq : q = t
    · subst hq; simp [flip, ht]
    · simp [flip, hq]

/-- The operator does not look at the qubits of a list. -/
def Ignores (P : List ℕ) (A : Wave → Wave) : Prop := ∀ V, A (flips P V) = flips P (A V)

lemma ignores_select (h : t ∉ P) (M : Square) : Ignores P (select t fun _ => M) := by
  intro V; funext b; simp [select, flips, flip_update h, flip_of_notMem h]

lemma ignores_selectEach {ts : List ℕ} (h : ∀ t ∈ ts, t ∉ P) (M : Square) : Ignores P (selectEach ts fun _ => M) := by
  induction ts with
  | nil => exact fun V => rfl
  | cons t ts ih =>
    intro V
    rw [selectEach_cons, ignores_select (h t mem_cons_self), ih fun s hs => h s (mem_cons_of_mem _ hs), selectEach_cons]

lemma local_flips (hP : ∀ q ∈ P, q < n) : Local n (flips P) := by
  intro V i
  obtain ⟨k, hk⟩ := exists_bits (below_flip hP (below_bits i))
  simp only [matrixOf, flips, ← hk, basisWave_fin]
  simp

lemma Local.gated (hA : Local n A) (p : Register → Bool) : Local n (gated p A) := by
  intro V i
  by_cases hp : p (bits i) = true
  · simp only [matrixOf, gated_on hp]; exact hA V i
  · simp only [matrixOf, gated_off hp]; exact local_id n V i

/-! ### Controls with given values -/

def matching (cs : List ℕ) (values : List Bool) (b : Register) : Bool := (cs.zip values).all fun p => b p.1 == p.2

lemma matching_iff : matching cs values b = true ↔ ∀ p ∈ cs.zip values, b p.1 = p.2 := by simp [matching]

lemma zip_unique (hcs : cs.Nodup) {p p' : ℕ × Bool}
    (hp : p ∈ cs.zip values) (hp' : p' ∈ cs.zip values) (h : p.1 = p'.1) : p = p' := by
  obtain ⟨i, hi, rfl⟩ := getElem_of_mem hp
  obtain ⟨j, hj, rfl⟩ := getElem_of_mem hp'
  simp only [getElem_zip] at h
  have hij : i = j := (hcs.getElem_inj_iff).mp h
  subst hij
  rfl

lemma exists_flip_matching (hcs : cs.Nodup) (values : List Bool) (b : Register) :
    ∃ Q ⊆ cs, matching cs values (flip Q b) = true := by
  have hfs : ∀ p ∈ cs.zip values, p.1 ∈ cs := fun p hp => (of_mem_zip hp).1
  refine ⟨((cs.zip values).filter fun p => b p.1 != p.2).map Prod.fst, fun q hq => ?_, ?_⟩
  · obtain ⟨p, hp, rfl⟩ := mem_map.mp hq; exact hfs p (mem_filter.mp hp).1
  · rw [matching_iff]
    intro p hp
    have hm : p.1 ∈ ((cs.zip values).filter fun p => b p.1 != p.2).map Prod.fst ↔ b p.1 ≠ p.2 := by
      constructor
      · intro h
        obtain ⟨p', hp', he⟩ := mem_map.mp h
        obtain ⟨hm, hn⟩ := mem_filter.mp hp'
        rw [zip_unique hcs hp hm he.symm]
        simpa using hn
      · intro hn; exact mem_map.mpr ⟨p, mem_filter.mpr ⟨hp, by simpa using hn⟩, rfl⟩
    by_cases hb : b p.1 = p.2
    · rw [flip_of_notMem (fun h => hm.mp h hb), hb]
    · simp only [flip, decide_eq_true (hm.mpr hb), Bool.xor_true]; exact Bool.not_eq.mpr hb

section Around

variable {cs P : List ℕ} {U : Wave → Wave}

/-- An operator under controls between flips. -/
def flipsAround (P cs : List ℕ) (U : Wave → Wave) (V : Wave) : Wave := flips P (gated (allOn cs) U (flips P V))

lemma flipsAround_apply (V : Wave) (b : Register) : flipsAround P cs U V b =
      if allOn cs (flip P b) then flips P (U (flips P V)) b else V b := by
  simp only [flipsAround, flips, gated]
  split
  · rfl
  · rw [flip_flip]

lemma allOn_flip_of_agree (hlen : values.length = cs.length)
    (h : ∀ p ∈ cs.zip values, p.1 ∈ P ↔ p.2 = false) (b : Register) :
    allOn cs (flip P b) = matching cs values b := by
  have hm : (cs.zip values).map Prod.fst = cs := map_fst_zip hlen.ge
  have ha : allOn cs (flip P b) = (cs.zip values).all fun p => flip P b p.1 := by
    conv_lhs => rw [allOn, ← hm, all_map]
    rfl
  rw [Bool.eq_iff_iff, matching_iff, ha, all_eq_true]
  refine forall₂_congr fun p hp => ?_
  have hp' := h p hp
  simp only [flip]
  by_cases hme : p.1 ∈ P <;> cases hp2 : p.2 <;> simp_all

lemma allOn_flip_of_disagree {p : ℕ × Bool} (hp : p ∈ cs.zip values) (h : ¬(p.1 ∈ P ↔ p.2 = false))
    (hb : matching cs values b = true) : allOn cs (flip P b) = false := by
  have hv : b p.1 = p.2 := matching_iff.mp hb p hp
  have ho : flip P b p.1 = false := by
    simp only [flip, hv]
    by_cases hm : p.1 ∈ P <;> cases hp2 : p.2 <;> simp_all
  rw [← Bool.not_eq_true, allOn, all_eq_true]
  intro ha
  exact Bool.false_ne_true (ho ▸ ha p.1 (of_mem_zip hp).1)

lemma eq_of_matching (values : List Bool) (hcs : cs.Nodup) (hl : ∀ c ∈ cs, c < n)
    (hA : ∀ Q ⊆ cs, Ignores Q A) (hB : ∀ Q ⊆ cs, Ignores Q B)
    (h : ∀ V b, Below n b → matching cs values b = true → A V b = B V b) (V : Wave)
    (hb : Below n b) : A V b = B V b := by
  obtain ⟨Q, hQ, hm⟩ := exists_flip_matching hcs values b
  have hbe : Below n (flip Q b) := below_flip (fun q hq => hl q (hQ hq)) hb
  calc A V b = flips Q (A V) (flip Q b) := by simp [flips]
    _ = A (flips Q V) (flip Q b) := by rw [hA Q hQ]
    _ = B (flips Q V) (flip Q b) := h _ _ hbe hm
    _ = flips Q (B V) (flip Q b) := by rw [hB Q hQ]
    _ = B V b := by simp [flips]

/-- **Flips around an operator under controls** give the operator under controls with given values
exactly when it does nothing, or when the flipped ones among the controls are those that have to be off
and the flips leave the operator as it is. -/
theorem matrixOf_flipsAround (hU : Local n U) (hi : ∀ Q ⊆ cs, Ignores Q U) (hcs : cs.Nodup)
    (hlen : values.length = cs.length) (hl : ∀ c ∈ cs, c < n) (hP : ∀ q ∈ P, q < n) :
    matrixOf n (flipsAround P cs U) = matrixOf n (gated (matching cs values) U) ↔
      matrixOf n U = 1 ∨ ((∀ p ∈ cs.zip values, p.1 ∈ P ↔ p.2 = false) ∧
        matrixOf n (fun V => flips P (U (flips P V))) = matrixOf n U) := by
  have hfl := local_flips hP
  have htu : Local n fun V => flips P (U (flips P V)) := hfl.comp (hU.comp hfl)
  have har : Local n (flipsAround P cs U) := hfl.comp ((hU.gated _).comp hfl)
  rw [matrixOf_eq_iff har (hU.gated _), matrixOf_eq_iff htu hU, ← matrixOf_id, matrixOf_eq_iff hU (local_id n)]
  constructor
  · intro h
    by_cases ha : ∀ p ∈ cs.zip values, p.1 ∈ P ↔ p.2 = false
    · have ht : ∀ Q ⊆ cs, Ignores Q fun V => flips P (U (flips P V)) := fun Q hQ V => by
        change flips P (U (flips P (flips Q V))) = flips Q (flips P (U (flips P V)))
        rw [flips_comm P Q, hi Q hQ, flips_comm P Q]
      refine .inr ⟨ha, fun V b hb => eq_of_matching values hcs hl ht hi ?_ V hb⟩
      intro V b hb (hm : matching cs values b = true)
      have hV := h V b hb
      rwa [flipsAround_apply, allOn_flip_of_agree hlen ha, if_pos hm, gated_on hm] at hV
    · simp only [not_forall] at ha
      obtain ⟨p, hp, hn⟩ := ha
      refine .inl fun V b hb => eq_of_matching values hcs hl hi (fun Q _ V => rfl) ?_ V hb
      intro V b hb (hm : matching cs values b = true)
      have hV := h V b hb
      rw [flipsAround_apply, allOn_flip_of_disagree hp hn hm, if_neg Bool.false_ne_true, gated_on hm] at hV
      exact hV.symm
  · rintro (ho | ⟨ha, hs⟩) V b hb
    · have ht : flips P (U (flips P V)) b = V b := by rw [flips, ho _ _ (below_flip hP hb)]; simp [flips]
      rw [flipsAround_apply, ht, ite_self, gated, ho V b hb]
      exact (ite_self _).symm
    · rw [flipsAround_apply, allOn_flip_of_agree hlen ha, hs V b hb]; rfl

end Around

/-! ### Later

Operators on later qubits.  `onLater k A` does to the qubits from `k` on what `A` does to those from the
first one on: the first `k` qubits are held fixed, and `A` is applied to the slice of the wave that is
left.  Gates go to the same gates on later qubits, and composition goes through.

Under the control of the first `k` qubits, the matrix of `onLater k A` is the matrix of `A` where these
are all on, and the identity elsewhere (`matrixOf_gated_onLater`).
-/

variable {n k : ℕ}

/-! ### Registers in two parts -/

/-- The first `k` qubits of one register, and another register behind them. -/
def join (k : ℕ) (a b : Register) : Register := fun q => if q < k then a q else b (q - k)

def later (k : ℕ) (b : Register) : Register := fun q => b (q + k)

@[simp] lemma later_join (a b : Register) : later k (join k a b) = b := by funext q; simp [later, join]

@[simp] lemma join_later (b : Register) : join k b (later k b) = b := by
  funext q
  by_cases hq : q < k
  · simp [join, hq]
  · simp [join, later, hq, Nat.sub_add_cancel (not_lt.mp hq)]

@[simp] lemma join_join (a b c : Register) : join k (join k a b) c = join k a c := by
  funext q
  by_cases hq : q < k <;> simp [join, hq]

lemma update_join (a b : Register) (q : ℕ) (y : Bool) : update (join k a b) (q + k) y = join k a (update b q y) := by
  funext p
  by_cases hp : p < k
  · rw [update_of_ne (by omega)]
    simp [join, hp]
  · by_cases hpq : p = q + k
    · subst hpq; simp [join]
    · rw [update_of_ne hpq]; simp only [join, hp, if_false]; rw [update_of_ne (by omega)]

lemma allOn_range_join (a b : Register) : allOn (range k) (join k a b) = allOn (range k) a := by
  rw [Bool.eq_iff_iff, allOn, allOn, all_eq_true, all_eq_true]
  exact forall₂_congr fun q hq => by rw [join, if_pos (mem_range.mp hq)]

lemma allOn_map_add (cs : List ℕ) (b : Register) : allOn (cs.map (· + k)) b = allOn cs (later k b) := by
  rw [allOn, allOn, all_map]; rfl

/-! ### Operators -/

/-- What `A` does to the first qubits, done to those from `k` on. -/
def onLater (k : ℕ) (A : Wave → Wave) (V : Wave) : Wave := fun b =>
  A (fun b' => V (join k b b')) (later k b)

lemma onLater_id : onLater k id = id := by funext V b; simp [onLater]

lemma onLater_comp (A B : Wave → Wave) (V : Wave) : onLater k A (onLater k B V) = onLater k (fun V => A (B V)) V := by
  funext b; simp [onLater]

lemma onLater_select (t : ℕ) (M : Register → Square) :
    onLater k (select t M) = select (t + k) fun b => M (later k b) := by
  funext V b
  have hu : ∀ y, join k b (update (later k b) t y) = update b (t + k) y := by
    intro y; rw [← update_join, join_later]
  simp only [onLater, select, hu]
  rfl

lemma onLater_selectEach (ts : List ℕ) (M : Square) :
    onLater k (selectEach ts fun _ => M) = selectEach (ts.map (· + k)) fun _ => M := by
  induction ts with
  | nil => exact onLater_id
  | cons t ts ih =>
    funext V
    have hs : select (t + k) (fun _ => M) = onLater k (select t fun _ => M) := (onLater_select t fun _ => M).symm
    rw [map_cons, selectEach_cons, ← ih, hs, onLater_comp]
    rfl

lemma onLater_gated (cs : List ℕ) (A : Wave → Wave) :
    onLater k (gated (allOn cs) A) = gated (allOn (cs.map (· + k))) (onLater k A) := by
  funext V b
  simp [onLater, gated, allOn_map_add, join_later]

lemma respects_onLater (A : Wave → Wave) : Respects (allOn (range k)) (onLater k A) := by
  intro V W b h
  simp only [onLater]
  congr 1
  funext b'
  exact h _ (allOn_range_join b b')

lemma gated_onLater_comp (A B : Wave → Wave) (V : Wave) :
    gated (allOn (range k)) (onLater k A) (gated (allOn (range k)) (onLater k B) V) =
      gated (allOn (range k)) (onLater k fun V => A (B V)) V := by
  rw [gated_comp (respects_onLater A)]
  congr 1
  funext V
  exact onLater_comp A B V

/-! ### Matrices -/

def upper (i : Fin (2 ^ (n + k))) : Fin (2 ^ n) :=
  ⟨i / 2 ^ k, Nat.div_lt_of_lt_mul (by rw [mul_comm, ← pow_add]; exact i.isLt)⟩

/-- The matrix under the control of `k` qubits before its own: where the lower bits of row and column are
all one, the entry for their upper bits, and otherwise that of the identity. -/
def controlledMatrix (k : ℕ) (U : Matrix (Fin (2 ^ n)) (Fin (2 ^ n)) ℂ) :
    Matrix (Fin (2 ^ (n + k))) (Fin (2 ^ (n + k))) ℂ := fun i j =>
  if i.val % 2 ^ k = 2 ^ k - 1 ∧ j.val % 2 ^ k = 2 ^ k - 1 then U (upper i) (upper j)
  else if i = j then 1 else 0

lemma later_bits (i : ℕ) : later k (bits i) = bits (i / 2 ^ k) := by
  funext q; simp [later, bits, Nat.testBit_div_two_pow]

lemma allOn_range_bits (i : ℕ) : allOn (range k) (bits i) = true ↔ i % 2 ^ k = 2 ^ k - 1 := by
  simp only [allOn, all_eq_true, mem_range, bits]
  constructor
  · intro h
    refine Nat.eq_of_testBit_eq fun q => ?_
    by_cases hq : q < k <;> simp [Nat.testBit_mod_two_pow, Nat.testBit_two_pow_sub_one, hq, h]
  · intro h q hq
    have hbi := congrArg (Nat.testBit · q) h
    simpa [Nat.testBit_mod_two_pow, Nat.testBit_two_pow_sub_one, hq] using hbi

lemma testBit_upper (j : Fin (2 ^ (n + k))) (q : ℕ) : (upper j).val.testBit q = j.val.testBit (q + k) := by
  simp [upper, Nat.testBit_div_two_pow]

lemma basisWave_join (i j : Fin (2 ^ (n + k))) (l : Fin (2 ^ n)) : basisWave (n + k) j (join k (bits i) (bits l)) =
      if i.val % 2 ^ k = j.val % 2 ^ k ∧ l = upper j then 1 else 0 := by
  rw [basisWave]
  refine if_congr ⟨fun h => ⟨?_, ?_⟩, ?_⟩ rfl rfl
  · refine Nat.eq_of_testBit_eq fun q => ?_
    by_cases hq : q < k
    · have hbi := h q (by omega)
      rw [join, if_pos hq, bits] at hbi
      simpa [Nat.testBit_mod_two_pow, hq] using hbi
    · simp [Nat.testBit_mod_two_pow, hq]
  · refine Fin.ext ((bits_agree l.isLt (upper j).isLt).mp fun q hq => ?_)
    have hbi := h (q + k) (by omega)
    rw [join, if_neg (by omega), Nat.add_sub_cancel] at hbi
    rw [hbi, testBit_upper]
  · rintro ⟨hm, rfl⟩ q hq
    by_cases hqk : q < k
    · have hbi := congrArg (Nat.testBit · q) hm
      rw [join, if_pos hqk, bits]
      simpa [Nat.testBit_mod_two_pow, hqk] using hbi
    · rw [join, if_neg hqk, bits, testBit_upper, Nat.sub_add_cancel (not_lt.mp hqk)]

lemma matrixOf_gated_onLater {A : Wave → Wave} (hA : Local n A) :
    matrixOf (n + k) (gated (allOn (range k)) (onLater k A)) = controlledMatrix k (matrixOf n A) := by
  ext i j
  rw [matrixOf, controlledMatrix]
  by_cases hi : i.val % 2 ^ k = 2 ^ k - 1
  · have hl : later k (bits i) = bits (upper i) := later_bits i.val
    rw [gated_on ((allOn_range_bits _).mpr hi), onLater, hl, hA]
    by_cases hj : j.val % 2 ^ k = 2 ^ k - 1
    · simp [basisWave_join, hi, hj]
    · have hij : i ≠ j := fun h => hj (h ▸ hi)
      simp [basisWave_join, hi, hj, hij, eq_comm]
  · rw [gated_off (by rw [allOn_range_bits]; exact hi), basisWave_fin]
    exact (if_neg fun h => hi h.1).symm

/-- The number with all lower bits one below a number. -/
def above (k : ℕ) (l : Fin (2 ^ n)) : Fin (2 ^ (n + k)) := ⟨2 ^ k - 1 + 2 ^ k * l, by
  have hl := Nat.mul_le_mul_left (2 ^ k) (Nat.succ_le_of_lt l.isLt)
  have hp := Nat.two_pow_pos k
  rw [Nat.mul_succ] at hl
  rw [add_comm n k, pow_add]
  omega⟩

lemma above_mod (l : Fin (2 ^ n)) : (above k l).val % 2 ^ k = 2 ^ k - 1 := by
  rw [above, Nat.add_mul_mod_self_left, Nat.mod_eq_of_lt (Nat.sub_one_lt (Nat.two_pow_pos k).ne')]

lemma upper_above (l : Fin (2 ^ n)) : upper (above k l) = l := by
  refine Fin.ext ?_
  change (2 ^ k - 1 + 2 ^ k * l.val) / 2 ^ k = l.val
  rw [Nat.add_mul_div_left _ _ (Nat.two_pow_pos k), Nat.div_eq_of_lt (Nat.sub_one_lt (Nat.two_pow_pos k).ne'), zero_add]

lemma controlledMatrix_inj {U V : Matrix (Fin (2 ^ n)) (Fin (2 ^ n)) ℂ} :
    controlledMatrix k U = controlledMatrix k V ↔ U = V := by
  refine ⟨fun h => ?_, congrArg _⟩
  ext i j
  have he := congrFun (congrFun h (above k i)) (above k j)
  simpa [controlledMatrix, above_mod, upper_above] using he

end QuantumCircuits
