import QuantumCircuits.Proofs.TwoQubit.Chamber

/-!
# Gates given by matrices

What `GateMatrix.control` and `GateMatrix.changeMapping` do to the matrix of a gate.

A gate on `q` qubits can only be put under `q` controls, and what comes out has a single control: it is the
gate under `n` controls just if `n` and `q` are one (`control_isControlled_iff`).

Counting the basis states in the other order reverses the bits of rows and columns, but it exchanges rows
and columns too.  So it conjugates the matrix by the bit reversal just if the matrix is symmetric, and it
turns products around (`changeMapping_conjugates_iff`).
-/

namespace QuantumCircuits

open Mat Finset Matrix

variable {n q : ℕ} {M N : Mat (Cplx ℝ)}

/-! ### The test for unitary matrices -/

namespace Mat

lemma asMatrix_mul (hM : M.IsSize n) (hN : N.IsSize n) : (M * N).asMatrix n = M.asMatrix n * N.asMatrix n := by
  ext i j
  have hg : (M * N).get i j = dot M.cols (fun k => M.get i k) fun k => N.get k j :=
    get_ofFn _ (hM.rows ▸ i.2) (hN.cols ▸ j.2)
  rw [asMatrix, of_apply, hg, value_dot, hM.cols, mul_apply, sum_range]
  rfl

lemma asMatrix_adjoint (hM : M.IsSize n) : M.adjoint.asMatrix n = (M.asMatrix n)ᴴ := by
  ext i j
  exact congrArg Cplx.value (get_ofFn _ (hM.cols ▸ i.2) (hM.rows ▸ j.2))

lemma allClose_identity_iff (hM : M.IsSize n) (rtol atol : ℝ) : M.allClose (identity n) rtol atol = true ↔
    ∀ i < n, ∀ j < n, (M.get i j).isClose ((identity n).get i j) rtol atol = true := by
  have hco : (identity n : Mat (Cplx ℝ)).cols = n := rfl
  simp only [allClose, hM.rows, hM.cols, hco, show (identity n : Mat (Cplx ℝ)).rows = n from rfl,
    beq_self_eq_true, Bool.true_and, List.all_eq_true, List.mem_range]
  refine ⟨fun h i hi j hj => ?_, fun h k hk => ?_⟩
  · rw [get, get, hM.cols]
    exact h (i * n + j) (by nlinarith)
  · have hn : 0 < n := Nat.pos_of_ne_zero fun h0 => by simp [h0] at hk
    have hcl := h (k / n) (Nat.div_lt_of_lt_mul hk) (k % n) (Nat.mod_lt k hn)
    rw [get, get, hM.cols, hco, mul_comm, Nat.div_add_mod] at hcl
    exact hcl

/-- A matrix passes the test if its columns are orthonormal up to the tolerances. -/
lemma isUnitary_iff (hM : M.IsSize n) : (Tensor.ofMat M).isUnitary .usual = true ↔ ∀ i j : Fin n,
    ‖((M.asMatrix n)ᴴ * M.asMatrix n) i j - (1 : Matrix (Fin n) (Fin n) ℂ) i j‖ ≤
      1e-8 + 1e-5 * ‖(1 : Matrix (Fin n) (Fin n) ℂ) i j‖ := by
  have hm : (Tensor.ofMat M).square? = some M := Option.filter_eq_some_iff.mpr ⟨rfl, by simp [hM.rows, hM.cols]⟩
  have ha : M.adjoint.IsSize n := ⟨hM.cols, hM.rows⟩
  have ho : ∀ i j : Fin n, ((identity n).get i j).value = (1 : Matrix (Fin n) (Fin n) ℂ) i j := fun i j => by
    rw [identity, get_ofFn _ i.2 j.2, one_apply]
    simp only [Fin.ext_iff]
    split <;> simp
  rw [Tensor.isUnitary, Tensor.isSquareAnd, hm, ← asMatrix_adjoint hM, ← asMatrix_mul ha hM]
  change allClose _ (identity M.rows) 1e-5 1e-8 = true ↔ _
  rw [hM.rows, allClose_identity_iff (M := M.adjoint * M) ⟨hM.cols, hM.cols⟩]
  refine ⟨fun h i j => ?_, fun h i hi j hj => (Cplx.isClose_iff _ _).mpr ?_⟩
  · rw [← ho]
    exact (Cplx.isClose_iff _ _).mp (h i i.2 j j.2)
  · have hcl := h ⟨i, hi⟩ ⟨j, hj⟩
    rwa [← ho] at hcl

end Mat

/-! ### Control -/

/-- The matrix on `n + q` qubits that does what `M` does if the first `n` bits are ones, and nothing else. -/
structure Mat.IsControlled (n q : ℕ) (M N : Mat (Cplx ℝ)) : Prop where
  isSize : N.IsSize (2 ^ (n + q))
  get : ∀ i < 2 ^ (n + q), ∀ j < 2 ^ (n + q), N.get i j =
    if i / 2 ^ q = 2 ^ n - 1 ∧ j / 2 ^ q = 2 ^ n - 1 then M.get (i % 2 ^ q) (j % 2 ^ q)
    else if i = j then .one else .zero

namespace GateMatrix

variable {g : GateMatrix ℝ}

/-- The gate has a matrix of `q` qubits that has passed the test for unitary matrices. -/
structure OnQubits (g : GateMatrix ℝ) (q : ℕ) : Prop where
  isSize : g.matrix.IsSize (2 ^ q)
  unitary : (Tensor.ofMat g.matrix).isUnitary .usual = true
  numQubits : g.numQubits = q

lemma isSize_controlled (hM : M.IsSize (2 ^ q)) : (controlled q M).IsSize (2 ^ q + 2 ^ q) :=
  ⟨by rw [controlled, hM.rows]; rfl, by rw [controlled, hM.cols]; rfl⟩

lemma get_controlled (hM : M.IsSize (2 ^ q)) {i j : ℕ} (hi : i < 2 ^ q + 2 ^ q) (hj : j < 2 ^ q + 2 ^ q) :
    (controlled q M).get i j = if i < 2 ^ q ∧ j < 2 ^ q then (if i = j then .one else .zero)
      else if 2 ^ q ≤ i ∧ 2 ^ q ≤ j then M.get (i - 2 ^ q) (j - 2 ^ q) else .zero := by
  rw [controlled, hM.rows, hM.cols, get_ofFn _ hi hj]

lemma isControlled_controlled (hM : M.IsSize (2 ^ q)) : IsControlled 1 q M (controlled q M) := by
  have htwo : 2 ^ (1 + q) = 2 ^ q + 2 ^ q := by ring
  refine ⟨htwo ▸ isSize_controlled hM, fun i hi j hj => ?_⟩
  rw [htwo] at hi hj
  have hs : ∀ {i}, i < 2 ^ q + 2 ^ q → (i / 2 ^ q = 2 ^ 1 - 1 ↔ 2 ^ q ≤ i) := fun {i} hi => by
    rw [Nat.div_eq_iff (by positivity)]
    omega
  have hp : ∀ {i}, i < 2 ^ q + 2 ^ q → 2 ^ q ≤ i → i % 2 ^ q = i - 2 ^ q := fun {i} hi hl => by
    rw [Nat.mod_eq_sub_mod hl, Nat.mod_eq_of_lt (by omega)]
  simp only [hs hi, hs hj, get_controlled hM hi hj]
  by_cases hg : 2 ^ q ≤ i ∧ 2 ^ q ≤ j
  · rw [if_neg (by omega), if_pos hg, if_pos hg, hp hi hg.1, hp hj hg.2]
  · rw [if_neg hg, if_neg hg]
    split
    · rfl
    · exact (if_neg (by omega)).symm

lemma asMatrix_controlled (hM : M.IsSize (2 ^ q)) : (controlled q M).asMatrix (2 ^ q + 2 ^ q) =
    (fromBlocks 1 0 0 (M.asMatrix (2 ^ q))).submatrix finSumFinEquiv.symm finSumFinEquiv.symm := by
  ext i j
  obtain ⟨i, rfl⟩ := finSumFinEquiv.surjective i
  obtain ⟨j, rfl⟩ := finSumFinEquiv.surjective j
  rw [asMatrix, of_apply, get_controlled hM (Fin.isLt _) (Fin.isLt _), submatrix_apply, Equiv.symm_apply_apply,
    Equiv.symm_apply_apply]
  rcases i with i | i <;> rcases j with j | j
  · by_cases hi : i = j
    · simp [hi]
    · simp [hi, one_apply, Fin.ext_iff.not.mp hi]
  · simp [not_le.mpr i.2]
  · simp [not_le.mpr j.2]
  · simp [asMatrix]

/-- What is controlled passes the test if the gate does: the new entries are those of the identity. -/
lemma isUnitary_controlled (hM : M.IsSize (2 ^ q)) (hu : (Tensor.ofMat M).isUnitary .usual = true) :
    (Tensor.ofMat (controlled q M)).isUnitary .usual = true := by
  rw [isUnitary_iff hM] at hu
  rw [isUnitary_iff (isSize_controlled hM), asMatrix_controlled hM, conjTranspose_submatrix, submatrix_mul_equiv,
    fromBlocks_conjTranspose, fromBlocks_multiply]
  intro i j
  obtain ⟨i, rfl⟩ := finSumFinEquiv.surjective i
  obtain ⟨j, rfl⟩ := finSumFinEquiv.surjective j
  have ho : (1 : Matrix (Fin (2 ^ q + 2 ^ q)) (Fin (2 ^ q + 2 ^ q)) ℂ) (finSumFinEquiv i) (finSumFinEquiv j) =
      (fromBlocks 1 0 0 1 : Matrix (Fin (2 ^ q) ⊕ Fin (2 ^ q)) _ ℂ) i j := by
    simp [fromBlocks_one, one_apply, finSumFinEquiv.injective.eq_iff]
  rw [ho, submatrix_apply, Equiv.symm_apply_apply, Equiv.symm_apply_apply]
  rcases i with i | i <;> rcases j with j | j
  · simp
    positivity
  · simp
    positivity
  · simp
    positivity
  · simpa using hu i j

lemma OnQubits.build (hg : g.OnQubits q) (l : GateLabel ℝ) :
    GateMatrix.build l (.ofMat g.matrix) = .ok ⟨l, g.matrix, q, .msb⟩ := by
  have hp : (g.matrix.rows == 0) = false := by simp [hg.isSize.rows]
  rw [GateMatrix.build, hg.unitary]
  change (if (g.matrix.rows == 0) then _ else Except.ok (⟨l, g.matrix, Nat.log2 g.matrix.rows, .msb⟩ : GateMatrix ℝ)) = _
  rw [hp, hg.isSize.rows, Nat.log2_two_pow]
  rfl

lemma control_eq (hg : g.OnQubits q) (hn : 1 ≤ n) : g.control (.int n) = if n = q then
    build { g.label with controls := g.label.controls + 1 } (.ofMat (controlled n g.matrix))
    else .error (.unfit .value) := by
  have hp : (2 : ℕ) ^ q = 2 ^ n ↔ n = q := by rw [Nat.pow_right_inj (by omega), eq_comm]
  have ho : ¬ (n : ℤ) < 1 := by omega
  simp only [control, Operand.isInt, Operand.toInt?, Option.getD_some, ho, hg.numQubits, hg.isSize.rows,
    Int.toNat_natCast, bne_iff_ne, ne_eq, hp, Bool.not_true, Bool.false_eq_true, if_false]
  by_cases he : n = q
  · subst he
    simp
  · simp [he]
    rfl

lemma exists_control (hg : g.OnQubits q) (hq : 1 ≤ q) :
    ∃ g', g.control (.int q) = .ok g' ∧ g'.OnQubits (1 + q) ∧ IsControlled 1 q g.matrix g'.matrix := by
  have hct := isControlled_controlled hg.isSize
  have hg' : OnQubits ⟨g.label, controlled q g.matrix, 1 + q, .msb⟩ (1 + q) :=
    ⟨hct.isSize, isUnitary_controlled hg.isSize hg.unitary, rfl⟩
  rw [control_eq hg hq, if_pos rfl]
  exact ⟨_, hg'.build _, ⟨hg'.isSize, hg'.unitary, rfl⟩, hct⟩

/-- **Controls.**  A gate on `q` qubits under `n` controls is a fault unless `n` is `q`, and then it has a
single control.  So it is the gate under `n` controls just if there is one control and one qubit. -/
theorem control_isControlled_iff (hg : g.OnQubits q) (hq : 1 ≤ q) (hn : 1 ≤ n) :
    (n ≠ q → g.control (.int n) = .error (.unfit .value)) ∧
    (n = q → ∃ g', g.control (.int n) = .ok g' ∧ g'.OnQubits (1 + q) ∧ IsControlled 1 q g.matrix g'.matrix) ∧
    ((∃ g', g.control (.int n) = .ok g' ∧ g'.OnQubits (n + q) ∧ IsControlled n q g.matrix g'.matrix) ↔
      n = 1 ∧ q = 1) := by
  have hfa : n ≠ q → g.control (.int n) = .error (.unfit .value) := fun h => by rw [control_eq hg hn, if_neg h]
  refine ⟨hfa, fun h => by subst h; exact exists_control hg hq, fun ⟨g', hg', ho, _⟩ => ?_, fun ⟨h1, h2⟩ => ?_⟩
  · by_cases he : n = q
    · obtain ⟨g'', hg'', ho', -⟩ := exists_control hg hq
      obtain rfl : g' = g'' := Except.ok.inj (hg'.symm.trans (he ▸ hg''))
      have hqu := ho.numQubits.symm.trans ho'.numQubits
      omega
    · rw [hfa he] at hg'
      cases hg'
  · subst h1 h2
    exact exists_control hg hq

lemma onQubits_square2 {a b c d : Cplx ℝ} (l : GateLabel ℝ) (o : BitOrder)
    (h : (square2 a b c d).asSquare.conjTranspose * (square2 a b c d).asSquare = 1) :
    OnQubits ⟨l, square2 a b c d, 1, o⟩ 1 := ⟨⟨rfl, rfl⟩, isUnitary_square2 h, rfl⟩

lemma onQubits_pauliX : OnQubits ⟨⟨"X", [], 0⟩, .pauliX, 1, .msb⟩ 1 :=
  onQubits_square2 _ _ (by simp [square_conjTranspose, square_mul, one_eq_square])

/-- A negation takes one control. -/
theorem control_isControlled_iff_negation : ∃ g', GateMatrix.control ⟨⟨"X", [], 0⟩, .pauliX, 1, .msb⟩ (.int 1) = .ok g' ∧
    g'.OnQubits 2 ∧ IsControlled 1 1 .pauliX g'.matrix :=
  (control_isControlled_iff onQubits_pauliX le_rfl le_rfl).2.2.mpr ⟨rfl, rfl⟩

/-- It does not take two. -/
theorem not_isControlled_negation_two :
    ¬ ∃ g', GateMatrix.control ⟨⟨"X", [], 0⟩, .pauliX, 1, .msb⟩ (.int 2) = .ok g' ∧
      g'.OnQubits 3 ∧ IsControlled 2 1 .pauliX g'.matrix := by
  rintro ⟨g', hg', -⟩
  have hfa := control_eq (n := 2) onQubits_pauliX (by decide)
  exact absurd (hg'.symm.trans hfa) (by simp)

/-! ### The order of bits -/

lemma reverseBits_lt (q i : ℕ) : reverseBits q i < 2 ^ q := by
  induction q generalizing i with
  | zero => simp [reverseBits]
  | succ q ih =>
    have hl := ih (i / 2)
    have hbi := Nat.mod_lt i two_pos
    rw [reverseBits, pow_succ]
    nlinarith

lemma testBit_reverseBits (q i k : ℕ) : (reverseBits q i).testBit k = (decide (k < q) && i.testBit (q - 1 - k)) := by
  induction q generalizing i k with
  | zero => simp [reverseBits]
  | succ q ih =>
    rw [reverseBits, mul_comm, Nat.testBit_two_pow_mul_add _ (reverseBits_lt q _), ih, Nat.testBit_div_two]
    by_cases hk : k < q
    · simp [hk, show k < q + 1 by omega, show q - 1 - k + 1 = q + 1 - 1 - k by omega]
    · by_cases he : k = q
      · simp [he, Nat.testBit_zero]
      · have hp : k - q ≠ 0 := by omega
        have hl : i % 2 < 2 ^ (k - q) := (Nat.mod_lt i two_pos).trans_le (Nat.le_self_pow hp 2)
        simp [hk, show ¬ k < q + 1 by omega, Nat.testBit_lt_two_pow hl]

/-- The number with the same bits in reverse order. -/
def bitReversal (q : ℕ) : Equiv.Perm (Fin (2 ^ q)) :=
  Function.Involutive.toPerm (fun i => (BitVec.ofFin i).reverse.toFin) fun i => by
    have hr : ∀ x : BitVec q, x.reverse.reverse = x := fun x => BitVec.eq_of_getLsbD_eq fun k hk => by
      rw [BitVec.getLsbD_reverse, BitVec.getMsbD_reverse]
    exact congrArg BitVec.toFin (hr (BitVec.ofFin i))

lemma reverseBits_eq (i : Fin (2 ^ q)) : reverseBits q i = bitReversal q i := by
  refine Nat.eq_of_testBit_eq fun k => ?_
  change _ = (BitVec.ofFin i).reverse.toNat.testBit k
  rw [testBit_reverseBits, ← BitVec.getLsbD, BitVec.getLsbD_reverse, BitVec.getMsbD]
  rfl

/-- The matrix with rows and columns exchanged, and their bits reversed. -/
def reordered (q : ℕ) (A : Matrix (Fin (2 ^ q)) (Fin (2 ^ q)) ℂ) : Matrix (Fin (2 ^ q)) (Fin (2 ^ q)) ℂ :=
  Aᵀ.submatrix (bitReversal q) (bitReversal q)

variable {A B : Matrix (Fin (2 ^ q)) (Fin (2 ^ q)) ℂ} {f h : GateMatrix ℝ} {o : BitOrder}

lemma reordered_mul : reordered q (A * B) = reordered q B * reordered q A := by
  rw [reordered, transpose_mul, reordered, reordered, submatrix_mul_equiv]

lemma reordered_inj : reordered q A = reordered q B ↔ A = B := by
  refine ⟨fun hA => ?_, congrArg _⟩
  have hba := congrArg (fun C => C.submatrix (bitReversal q).symm (bitReversal q).symm) hA
  simpa [reordered] using hba

lemma reordered_eq_submatrix : reordered q A = A.submatrix (bitReversal q) (bitReversal q) ↔ A.IsSymm := by
  change reordered q A = reordered q Aᵀ ↔ Aᵀ = A
  rw [reordered_inj, eq_comm]

lemma bitReversal_one (i : Fin (2 ^ 1)) : bitReversal 1 i = i := by revert i; decide

/-- The name of an order. -/
def orderText : BitOrder → String
  | .msb => "MSB"
  | .lsb => "LSB"

lemma exists_changeMapping (hg : g.OnQubits q) (ho : o ≠ g.ordering) :
    ∃ g', g.changeMapping (.text (orderText o)) = .ok g' ∧ g'.matrix.asMatrix (2 ^ q) = reordered q (g.matrix.asMatrix (2 ^ q)) := by
  refine ⟨{ g with matrix := .ofFn (2 ^ q) (2 ^ q) fun i j => g.matrix.get (reverseBits q j) (reverseBits q i)
                   ordering := o }, ?_, ?_⟩
  · cases o <;> simp [changeMapping, orderText, ho, hg.isSize.rows, hg.numQubits, bind, Except.bind]
  · ext i j
    rw [asMatrix, of_apply, get_ofFn _ i.2 j.2, reverseBits_eq, reverseBits_eq]
    rfl

/-- **The other order of bits.**  It exchanges rows and columns as well, so it is the conjugation by the bit
reversal just if the matrix is symmetric.  It turns products around, and so it keeps those whose factors
commute; it keeps adjoints, and it leaves a gate on one qubit alone just if its matrix is symmetric. -/
theorem changeMapping_conjugates_iff (hf : f.OnQubits q) (hg : g.OnQubits q) (hh : h.OnQubits q)
    (hof : o ≠ f.ordering) (hog : o ≠ g.ordering) (hoh : o ≠ h.ordering) :
    ∃ f' g' h', f.changeMapping (.text (orderText o)) = .ok f' ∧ g.changeMapping (.text (orderText o)) = .ok g' ∧
      h.changeMapping (.text (orderText o)) = .ok h' ∧
      let F := f.matrix.asMatrix (2 ^ q); let F' := f'.matrix.asMatrix (2 ^ q)
      let G := g.matrix.asMatrix (2 ^ q); let G' := g'.matrix.asMatrix (2 ^ q)
      let H := h.matrix.asMatrix (2 ^ q); let H' := h'.matrix.asMatrix (2 ^ q)
      (∀ i j, F' i j = F (bitReversal q j) (bitReversal q i)) ∧
      ((∀ i j, F' i j = F (bitReversal q i) (bitReversal q j)) ↔ F.IsSymm) ∧
      (H = F * G → H' = G' * F' ∧ (H' = F' * G' ↔ F * G = G * F)) ∧
      (G = Fᴴ → G' = F'ᴴ) ∧ (q = 1 → (F' = F ↔ F.IsSymm)) := by
  obtain ⟨f', hf', hF⟩ := exists_changeMapping hf hof
  obtain ⟨g', hg', hG⟩ := exists_changeMapping hg hog
  obtain ⟨h', hh', hH⟩ := exists_changeMapping hh hoh
  refine ⟨f', g', h', hf', hg', hh', ?_⟩
  rw [hF, hG, hH]
  refine ⟨fun i j => rfl, ?_, fun hp => ?_, fun ha => ?_, fun hq => ?_⟩
  · rw [← reordered_eq_submatrix, ← ext_iff]
    rfl
  · rw [hp, ← reordered_mul, ← reordered_mul]
    exact ⟨rfl, reordered_inj⟩
  · rw [ha]
    rfl
  · subst hq
    rw [← reordered_eq_submatrix]
    have hi : (f.matrix.asMatrix (2 ^ 1)).submatrix (bitReversal 1) (bitReversal 1) = f.matrix.asMatrix (2 ^ 1) := by
      ext i j
      rw [submatrix_apply, bitReversal_one, bitReversal_one]
    rw [hi]

lemma onQubits_pauliY : OnQubits ⟨⟨"Y", [], 0⟩, .pauliY, 1, .msb⟩ 1 :=
  onQubits_square2 _ _ (by simp [square_conjTranspose, square_mul, one_eq_square])

theorem changeMapping_conjugates_iff_pauliY : ∃ g',
    GateMatrix.changeMapping ⟨⟨"Y", [], 0⟩, .pauliY, 1, .msb⟩ (.text "LSB") = .ok g' ∧
    ∀ i j, g'.matrix.asMatrix 2 i j = (pauliY : Mat (Cplx ℝ)).asMatrix 2 j i := by
  obtain ⟨f', -, -, hf', -, -, hg, -⟩ := changeMapping_conjugates_iff (o := .lsb) onQubits_pauliY onQubits_pauliY
    onQubits_pauliY (by decide) (by decide) (by decide)
  refine ⟨f', hf', fun i j => (hg i j).trans ?_⟩
  rw [bitReversal_one, bitReversal_one]

/-- The second of these gates changes its sign. -/
theorem not_changeMapping_pauliY : ∃ g', GateMatrix.changeMapping ⟨⟨"Y", [], 0⟩, .pauliY, 1, .msb⟩ (.text "LSB") = .ok g' ∧
    g'.matrix.asMatrix 2 ≠ (pauliY : Mat (Cplx ℝ)).asMatrix 2 := by
  obtain ⟨g', hg', hG⟩ := exists_changeMapping (o := .lsb) onQubits_pauliY (by decide)
  refine ⟨g', hg', fun heq => ?_⟩
  have he := congrFun (congrFun (hG.symm.trans heq) 0) 1
  have hr : reordered 1 ((pauliY : Mat (Cplx ℝ)).asMatrix (2 ^ 1)) 0 1 = Complex.I := by
    exact Cplx.value_unit
  have he : Complex.I = -Complex.I := hr.symm.trans (he.trans (congrArg Neg.neg Cplx.value_unit))
  exact Complex.I_ne_zero (self_eq_neg.mp he)

end GateMatrix

end QuantumCircuits
