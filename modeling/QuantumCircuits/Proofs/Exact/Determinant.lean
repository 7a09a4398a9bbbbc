import QuantumCircuits.Proofs.Exact.Evaluate

/-!
# Exact — Determinant

Determinants by elimination.  Each step brings the largest entry of a column to the diagonal and clears the
column below it, which keeps the determinant up to the sign of the exchanges (`Eliminated.step`): if the
largest entry is zero, so are the others, and the column is clear already.  What is left in the end is
upper triangular, so the pivots multiply to the determinant (`prod_pivots`), also if their directions
and sizes are multiplied apart (`value_polarDet`).
-/

noncomputable section

namespace QuantumCircuits

open List Cplx Equiv

namespace Cplx

variable {z : Cplx ℝ}

lemma value_eq_zero : z.value = 0 ↔ z.re = 0 ∧ z.im = 0 := Complex.ext_iff

lemma value_div (z w : Cplx ℝ) : (z.div w).value = z.value / w.value := by
  by_cases hw : w.value = 0
  · rw [hw, div_zero]
    apply Complex.ext <;> simp [div, value_eq_zero.mp hw]
  rw [eq_div_iff hw, div, Scalar.le_real, Scalar.abs_real, Scalar.abs_real]
  -- the larger part is not zero
  split
  next h =>
    have hr : w.re ≠ 0 := fun h0 => by simp_all [value_eq_zero]
    have hd : w.re + w.im * (w.im / w.re) = (w.re ^ 2 + w.im ^ 2) / w.re := by field_simp
    apply Complex.ext <;> simp only [value_re, value_im, Complex.mul_re, Complex.mul_im, hd] <;> field_simp <;> ring
  next h =>
    have hi : w.im ≠ 0 := fun h0 => by simp_all [value_eq_zero]
    have hd : w.re * (w.re / w.im) + w.im = (w.re ^ 2 + w.im ^ 2) / w.im := by field_simp
    apply Complex.ext <;> simp only [value_re, value_im, Complex.mul_re, Complex.mul_im, hd] <;> field_simp <;> ring

lemma isZero_iff : (Scalar.eq z.re 0.0 && Scalar.eq z.im 0.0) = true ↔ z.value = 0 := by
  rw [Scalar.eq_real, Scalar.eq_real, Scalar.real_zero, Bool.and_eq_true, decide_eq_true_eq, decide_eq_true_eq,
    value_eq_zero]

end Cplx

namespace Mat

/-- The matrix has `n` rows and columns. -/
structure IsSize (n : ℕ) (M : Mat (Cplx ℝ)) : Prop where
  rows : M.rows = n
  cols : M.cols = n

def asMatrix (n : ℕ) (M : Mat (Cplx ℝ)) : Matrix (Fin n) (Fin n) ℂ := .of fun i j => (M.get i j).value

section Pivots

variable {n k p i j : ℕ} {M A : Mat (Cplx ℝ)}

lemma value_of_pivotSize_le {z w : Cplx ℝ} (h : pivotSize z ≤ pivotSize w) (hw : w.value = 0) : z.value = 0 := by
  obtain ⟨hr, hi⟩ := value_eq_zero.mp hw
  simp only [pivotSize, Scalar.abs_real, hr, hi, abs_zero, add_zero] at h
  have hr := abs_nonneg z.re
  have hi := abs_nonneg z.im
  exact value_eq_zero.mpr ⟨abs_eq_zero.mp (by linarith), abs_eq_zero.mp (by linarith)⟩

lemma pivotRow_spec (hM : M.IsSize n) (hk : k < n) : k ≤ M.pivotRow k ∧ M.pivotRow k < n ∧
    ∀ i < n, k ≤ i → pivotSize (M.get i k) ≤ pivotSize (M.get (M.pivotRow k) k) := by
  -- over the rows seen so far
  have hfo : ∀ m ≤ n, let r := (range m).foldl (fun best i =>
      if k < i ∧ Scalar.lt (pivotSize (M.get best k)) (pivotSize (M.get i k)) then i else best) k
      k ≤ r ∧ r < n ∧ pivotSize (M.get k k) ≤ pivotSize (M.get r k) ∧
        ∀ i < m, k ≤ i → pivotSize (M.get i k) ≤ pivotSize (M.get r k) := by
    intro m hm
    induction m with
    | zero => exact ⟨le_rfl, hk, le_rfl, nofun⟩
    | succ m ih =>
      obtain ⟨hl, hlt, hfi, hma⟩ := ih (by omega)
      rw [range_succ, foldl_append, foldl_cons, foldl_nil]
      generalize (range m).foldl _ k = r at hl hlt hfi hma ⊢
      simp only [Scalar.lt_real, decide_eq_true_eq]
      split
      next h =>
        refine ⟨h.1.le, hm, hfi.trans h.2.le, fun i hi hki => ?_⟩
        rcases Nat.lt_succ_iff_lt_or_eq.mp hi with hi | rfl
        · exact (hma i hi hki).trans h.2.le
        · exact le_rfl
      next h =>
        refine ⟨hl, hlt, hfi, fun i hi hki => ?_⟩
        rcases Nat.lt_succ_iff_lt_or_eq.mp hi with hi | rfl
        · exact hma i hi hki
        · rcases hki.eq_or_lt with rfl | hki
          · exact hfi
          · exact not_lt.mp fun hn => h ⟨hki, hn⟩
  obtain ⟨hl, hlt, -, hma⟩ := hfo n le_rfl
  rw [pivotRow, hM.rows]
  exact ⟨hl, hlt, hma⟩

lemma isSize_exchangeRows (hM : M.IsSize n) : (M.exchangeRows k p).IsSize n := by
  rw [exchangeRows]
  split
  · exact hM
  · exact ⟨hM.rows, hM.cols⟩

lemma get_exchangeRows (hM : M.IsSize n) (hi : i < n) (hj : j < n) :
    (M.exchangeRows k p).get i j = M.get (swap k p i) j := by
  rw [exchangeRows]
  split
  next h => rw [h, Equiv.swap_self, refl_apply]
  next h => rw [hM.rows, hM.cols, get_ofFn _ hi hj, swap_apply_def]

lemma det_exchangeRows (hM : M.IsSize n) (hk : k < n) (hp : p < n) :
    ((M.exchangeRows k p).asMatrix n).det = (if p != k then -1 else 1) * (M.asMatrix n).det := by
  have hsu : (M.exchangeRows k p).asMatrix n = (M.asMatrix n).submatrix (swap ⟨k, hk⟩ ⟨p, hp⟩) id := by
    ext i j
    have hs : ((swap (⟨k, hk⟩ : Fin n) ⟨p, hp⟩ i : Fin n) : ℕ) = swap k p i := by
      simp only [swap_apply_def, Fin.ext_iff]
      split_ifs <;> rfl
    rw [Matrix.submatrix_apply, asMatrix, asMatrix, Matrix.of_apply, Matrix.of_apply, get_exchangeRows hM i.2 j.2, hs]
    rfl
  rw [hsu, Matrix.det_permute]
  by_cases h : p = k
  · simp [h]
  · rw [Perm.sign_swap (by simpa [Fin.ext_iff] using Ne.symm h)]
    simp [h]

lemma isSize_eliminate (hA : A.IsSize n) : (A.eliminate k).IsSize n := by
  rw [eliminate]
  split
  · exact hA
  · exact ⟨hA.rows, hA.cols⟩

lemma value_eliminate (hA : A.IsSize n) (hze : ∀ j < k, (A.get k j).value = 0) (hi : i < n) (hj : j < n) :
    ((A.eliminate k).get i j).value =
      (A.get i j).value + (if k < i then -((A.get i k).value / (A.get k k).value) else 0) * (A.get k j).value := by
  rw [eliminate]
  simp only [isZero_iff]
  by_cases hp : (A.get k k).value = 0
  · rw [if_pos hp, hp, div_zero, neg_zero, ite_self, zero_mul, add_zero]
  · rw [if_neg hp, hA.rows, hA.cols, get_ofFn _ hi hj]
    split_ifs with hk hjk hkj
    · rw [hjk, value_zero]; field_simp; ring
    · rw [value_sub, value_mul, value_div]; ring
    · rw [hze j (by omega), mul_zero, add_zero]
    · rw [zero_mul, add_zero]

lemma det_eliminate (hA : A.IsSize n) (hk : k < n) (hze : ∀ j < k, (A.get k j).value = 0) :
    ((A.eliminate k).asMatrix n).det = (A.asMatrix n).det :=
  Matrix.det_eq_of_forall_row_eq_smul_add_const
    (fun i => if k < i then -((A.get i k).value / (A.get k k).value) else 0) ⟨k, hk⟩ (if_neg (lt_irrefl k))
    fun i j => value_eliminate hA hze i.2 j.2

end Pivots

/-- What the elimination has come to after `k` columns. -/
structure Eliminated (M : Mat (Cplx ℝ)) (n k : ℕ) (s : Mat (Cplx ℝ) × List (Cplx ℝ) × Bool) : Prop where
  isSize : s.1.IsSize n
  below : ∀ j < k, ∀ i < n, j < i → (s.1.get i j).value = 0
  found : s.2.1.reverse.map value = (range k).map fun i => (s.1.get i i).value
  det : (if s.2.2 then -1 else 1) * (s.1.asMatrix n).det = (M.asMatrix n).det

section Eliminated

variable {n k : ℕ} {M A : Mat (Cplx ℝ)} {found : List (Cplx ℝ)} {odd : Bool}

lemma Eliminated.step (h : Eliminated M n k (A, found, odd)) (hk : k < n) :
    let B := A.exchangeRows k (A.pivotRow k)
    Eliminated M n (k + 1) (B.eliminate k, B.get k k :: found, odd != (A.pivotRow k != k)) := by
  intro B
  obtain ⟨hA, hbe, hfo, hd⟩ := h
  obtain ⟨hle, hlt, hm⟩ := pivotRow_spec hA hk
  set p := A.pivotRow k with hp
  have hB : B.IsSize n := isSize_exchangeRows hA
  have hg : ∀ i j, i < n → j < n → B.get i j = A.get (swap k p i) j := fun i j => get_exchangeRows hA
  have hl : ∀ i, i < k → swap k p i = i := fun i hi => swap_apply_of_ne_of_ne (by omega) (by omega)
  have hh : ∀ i, k ≤ i → i < n → k ≤ swap k p i ∧ swap k p i < n := fun i hi hn => by
    rw [swap_apply_def]
    split_ifs <;> omega
  have hcl : ∀ j < k, ∀ i < n, j < i → (B.get i j).value = 0 := fun j hj i hi hji => by
    rw [hg i j hi (by omega)]
    rcases lt_or_ge i k with hik | hik
    · rw [hl i hik]; exact hbe j hj i hi hji
    · obtain ⟨h1, h2⟩ := hh i hik hi; exact hbe j hj _ h2 (by omega)
  have hr : ∀ j < k, (B.get k j).value = 0 := fun j hj => hcl j hj k hk hj
  have hke : ∀ i ≤ k, ∀ j < n, ((B.eliminate k).get i j).value = (B.get i j).value := fun i hi j hj => by
    rw [value_eliminate hB hr (by omega) hj, if_neg (by omega), zero_mul, add_zero]
  refine ⟨isSize_eliminate hB, fun j hj i hi hji => ?_, ?_, ?_⟩
  · rw [value_eliminate hB hr hi (by omega)]
    rcases Nat.lt_succ_iff_lt_or_eq.mp hj with hj | rfl
    · rw [hcl j hj i hi hji, hr j hj, mul_zero, add_zero]
    · rw [if_pos hji]
      by_cases hpi : (B.get j j).value = 0
      · -- no entry is larger than the pivot
        obtain ⟨h1, h2⟩ := hh i hji.le hi
        rw [hpi, mul_zero, add_zero, hg i j hi hk]
        rw [hg j j hk hk, swap_apply_left] at hpi
        exact value_of_pivotSize_le (hm _ h2 h1) hpi
      · field_simp; ring
  · rw [reverse_cons, map_append, hfo, range_succ, map_append, map_singleton, map_singleton, hke k le_rfl k hk]
    congr 1
    refine map_congr_left fun i hi => ?_
    have hik := mem_range.mp hi
    rw [hke i hik.le i (by omega), hg i i (by omega) (by omega), hl i hik]
  · rw [det_eliminate hB hk hr, det_exchangeRows hA hk hlt, ← hd, ← mul_assoc]
    congr 1
    cases odd <;> by_cases h : p = k <;> simp [h]

lemma exists_eliminated (hM : M.IsSize n) : ∃ s, Eliminated M n n s ∧ M.pivots = (s.2.1.reverse, s.2.2) := by
  obtain ⟨rfl, hco⟩ := hM
  refine ⟨_, ?_, rfl⟩
  -- over the first columns
  suffices hr : ∀ m ≤ M.rows, Eliminated M M.rows m ((range m).foldl (fun s k =>
      let p := s.1.pivotRow k
      let A := s.1.exchangeRows k p
      (A.eliminate k, A.get k k :: s.2.1, s.2.2 != (p != k))) (M, [], false)) from hr _ le_rfl
  intro m hm
  induction m with
  | zero => exact ⟨⟨rfl, hco⟩, nofun, rfl, one_mul _⟩
  | succ m ih =>
    rw [range_succ, foldl_append, foldl_cons, foldl_nil]
    exact (ih (by omega)).step hm

/-- **The pivots multiply to the determinant**, up to the sign of the exchanges. -/
theorem prod_pivots (hM : M.IsSize n) :
    (if M.pivots.2 then -1 else 1) * (M.pivots.1.map value).prod = (M.asMatrix n).det := by
  obtain ⟨⟨A, found, odd⟩, ⟨-, hbe, hfo, hd⟩, hp⟩ := exists_eliminated hM
  have hu : (A.asMatrix n).det = ∏ i : Fin n, (A.get i i).value :=
    Matrix.det_of_isUpperTriangular fun i j hi => hbe j j.2 i i.2 hi
  rw [hp, ← hd, hfo, hu]
  exact congrArg _ (Finset.prod_range fun i => (A.get i i).value)

lemma value_foldl_mul (f : Cplx ℝ → Cplx ℝ) (zs : List (Cplx ℝ)) (w : Cplx ℝ) :
    (zs.foldl (fun s z => s * f z) w).value = w.value * (zs.map fun z => (f z).value).prod := by
  induction zs generalizing w with
  | nil => simp
  | cons z zs ih => simp [ih, mul_assoc]

/-- **So do the directions and sizes of the pivots.** -/
theorem value_polarDet (hM : M.IsSize n) : M.polarDet.value = (M.asMatrix n).det := by
  have hsi : ∀ (zs : List (Cplx ℝ)) (x : ℝ), ((zs.foldl (fun s z => s * z.abs) x : ℝ) : ℂ) =
      x * (zs.map fun z => (‖z.value‖ : ℂ)).prod := by
    intro zs
    induction zs with
    | nil => simp
    | cons z zs ih =>
      intro x
      rw [foldl_cons, ih, map_cons, prod_cons, Complex.ofReal_mul, mul_assoc, abs_real]
  rw [← prod_pivots hM, polarDet]
  obtain ⟨found, odd⟩ := M.pivots
  simp only [any_eq_true, isZero_iff]
  split
  next h =>
    have hze : (found.map value).prod = 0 := prod_eq_zero (mem_map.mpr h)
    rw [hze, mul_zero, value_zero]
  next h =>
    have hs : found.map value = found.map fun z => z.value / (‖z.value‖ : ℂ) * (‖z.value‖ : ℂ) :=
      map_congr_left fun z hz => (div_mul_cancel₀ _ (by simpa using fun h0 => h ⟨z, hz, h0⟩)).symm
    rw [value_mul, value_ofReal, value_foldl_mul fun z => z.shrink z.abs, hsi, hs, prod_map_mul]
    cases odd <;> simp

end Eliminated

end Mat

end QuantumCircuits

end
