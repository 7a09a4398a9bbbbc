import QuantumCircuits.Preparation.Basic
import QuantumCircuits.Proofs.ControlledRotation

/-!
# Splitting — Weights

The angles of a row of rotations, by weights.  The `i`-th rotation of a row takes every selected angle with
the sign of the digits that its number has in common with the `i`-th number of the reflected code, and divides
the sum by the number of angles.

The highest digit splits a row in two.  The first half takes no notice of it, and the second half takes it
with its sign, together with the digit below, which is where neighbours in the reflected code differ.  That
is how halves of sums and differences are taken one after the other, in a second half that runs backwards
(`demultiplex_eq_weighted`), so the weights give the angles of a row (`Angles.rotations_eq_rowAngles`).  Its
negations have the same controls, too (`Angles.controlPositions_eq`), so the two ways to a row, by halving and
by weights, agree (`Angles.demultiplexed_eq_weights`).
-/

namespace QuantumCircuits

open Finset Mat

open Operation (ruler signOf rowAngles demultiplex_induction map_negationControl)
open Plan (gridOf demultiplexed_gridOf)

/-! ### Signs of digits -/

namespace Angles

variable {k : ℕ} {xs : List ℝ}

lemma countOnes_eq (m : ℕ) : countOnes m = countOnes (m / 2) + m % 2 := by
  by_cases h : m < 2
  · have hd : binaryDigits m = [m] := by rw [binaryDigits, if_pos h]
    have hze : binaryDigits (m / 2) = [0] := by
      rw [binaryDigits, if_pos (by omega)]
      congr 1
      omega
    simp only [countOnes, hd, hze, List.foldl_cons, List.foldl_nil]
    omega
  · rw [countOnes, binaryDigits, if_neg h]; simp [countOnes]

lemma sign_countOnes {m : ℕ} (h : m < 2 ^ k) :
    (if countOnes m % 2 = 0 then (1 : ℝ) else -1) = ∏ l ∈ range k, signOf (m.testBit l) := by
  induction k generalizing m with
  | zero =>
    obtain rfl : m = 0 := by simpa using h
    have hd : binaryDigits 0 = [0] := by rw [binaryDigits, if_pos (by omega)]
    simp [countOnes, hd]
  | succ k ih =>
    have hh : m / 2 < 2 ^ k := by rw [pow_succ] at h; omega
    rw [prod_range_succ', countOnes_eq]
    simp only [Nat.testBit_succ, ← ih hh, Nat.testBit_zero]
    rcases Nat.mod_two_eq_zero_or_one m with hm | hm <;>
      rcases Nat.mod_two_eq_zero_or_one (countOnes (m / 2)) with hc | hc <;>
      simp [Nat.add_mod, hm, hc, signOf]

lemma testBit_grayNat (i l : ℕ) : (grayNat i).testBit l = (i.testBit l ^^ i.testBit (l + 1)) := by
  rw [grayNat, Nat.testBit_xor, Nat.testBit_shiftRight, Nat.add_comm 1 l]

/-- The sign of the `j`-th angle in the `i`-th rotation, by the lowest `k` digits. -/
def sign (k i j : ℕ) : ℝ := ∏ l ∈ range k, signOf (j.testBit l && (grayNat i).testBit l)

lemma weight_eq {j : ℕ} (hj : j < 2 ^ k) (i : ℕ) : (weight k i j : ℝ) = (2 ^ k)⁻¹ * sign k i j := by
  have hl : j &&& grayNat i < 2 ^ k := lt_of_le_of_lt Nat.and_le_left hj
  have hs := sign_countOnes hl
  simp only [Nat.testBit_and] at hs
  have htwo : (Scalar.twoPow (-(k : ℤ)) : ℝ) = (2 ^ k)⁻¹ := by
    rcases Nat.eq_zero_or_pos k with rfl | hk
    · simp [Scalar.twoPow]
    · simp [Scalar.twoPow, show ¬ k = 0 by omega]
  rw [weight, htwo, sign, ← hs]
  split <;> simp

/-- The highest of `k` digits, if there is any. -/
def topBit (k j : ℕ) : Bool := k ≠ 0 && j.testBit (k - 1)

section Halves

variable {k i j : ℕ}

lemma testBit_half (hi : i < 2 ^ k) (d : Bool) (l : ℕ) :
    (i + 2 ^ k * d.toNat).testBit l = if l < k then i.testBit l else decide (l = k) && d := by
  rw [Nat.add_comm, Nat.testBit_two_pow_mul_add _ hi]
  split
  · rfl
  · obtain ⟨e, rfl⟩ := Nat.exists_eq_add_of_le (Nat.le_of_not_lt ‹_›)
    cases d <;> cases e <;> simp [Nat.testBit_succ]

lemma sign_second (hi : i < 2 ^ k) (d : Bool) (j : ℕ) :
    sign k (i + 2 ^ k * d.toNat) j = sign k i j * signOf (d && topBit k j) := by
  cases k with
  | zero => simp [sign, topBit, signOf]
  | succ k =>
    have hbe : ∀ l < k, (grayNat (i + 2 ^ (k + 1) * d.toNat)).testBit l = (grayNat i).testBit l := by
      intro l hl
      rw [testBit_grayNat, testBit_grayNat, testBit_half hi, testBit_half hi, if_pos (by omega), if_pos (by omega)]
    have ht : (grayNat (i + 2 ^ (k + 1) * d.toNat)).testBit k = (i.testBit k ^^ d) := by
      rw [testBit_grayNat, testBit_half hi, testBit_half hi, if_pos (by omega), if_neg (by omega)]
      simp
    have hg : (grayNat i).testBit k = i.testBit k := by
      rw [testBit_grayNat, Nat.testBit_lt_two_pow hi, Bool.xor_false]
    rw [sign, sign, prod_range_succ, prod_range_succ,
      prod_congr rfl fun l hl => by rw [hbe l (mem_range.mp hl)], ht, hg, mul_assoc]
    congr 1
    simp only [topBit, Nat.add_sub_cancel]
    cases j.testBit k <;> cases i.testBit k <;> cases d <;> simp [signOf]

lemma sign_succ (hi : i < 2 ^ k) (hj : j < 2 ^ k) (c d : Bool) :
    sign (k + 1) (i + 2 ^ k * d.toNat) (j + 2 ^ k * c.toNat) =
      sign k i j * signOf (d && topBit k j) * signOf (c && d) := by
  have ht : (grayNat (i + 2 ^ k * d.toNat)).testBit k = d := by
    rw [testBit_grayNat, testBit_half hi, testBit_half hi, if_neg (by omega), if_neg (by omega)]
    simp
  rw [← sign_second hi d j, sign, prod_range_succ, ht, testBit_half hj, if_neg (lt_irrefl k),
    decide_eq_true rfl, Bool.true_and, sign]
  congr 1
  refine prod_congr rfl fun l hl => ?_
  rw [testBit_half hj, if_pos (mem_range.mp hl)]

end Halves

/-! ### Weighted sums -/

/-- The `i`-th angle of a row, which may run backwards. -/
noncomputable def weighted (backwards : Bool) (k : ℕ) (xs : List ℝ) (i : ℕ) : ℝ :=
  (2 ^ k)⁻¹ * ∑ j ∈ range (2 ^ k), sign k i j * signOf (backwards && topBit k j) * xs.getD j 0

lemma weighted_succ {i : ℕ} (hi : i < 2 ^ k) (hxs : xs.length = 2 * 2 ^ k) (backwards d : Bool) :
    weighted backwards (k + 1) xs (i + 2 ^ k * d.toNat) = weighted d k
      (cond (backwards ^^ d) ((xs.take (2 ^ k)).zipWith (fun x y => (x + -y) / 2) (xs.drop (2 ^ k)))
        ((xs.take (2 ^ k)).zipWith (fun x y => (x + y) / 2) (xs.drop (2 ^ k)))) i := by
  have ht : ∀ {j}, j < 2 ^ k → ∀ c : Bool, topBit (k + 1) (j + 2 ^ k * c.toNat) = c := fun hj c => by
    simp [topBit, testBit_half hj]
  generalize hys : cond (backwards ^^ d) _ _ = ys
  -- the angles that differ in the highest digit come in pairs
  have hp : ∀ j ∈ range (2 ^ k),
      sign (k + 1) (i + 2 ^ k * d.toNat) j * signOf (backwards && topBit (k + 1) j) * xs.getD j 0 +
        sign (k + 1) (i + 2 ^ k * d.toNat) (2 ^ k + j) * signOf (backwards && topBit (k + 1) (2 ^ k + j)) *
          xs.getD (2 ^ k + j) 0 =
      2 * (sign k i j * signOf (d && topBit k j) * ys.getD j 0) := by
    intro j hj
    have hj' := mem_range.mp hj
    have hl := sign_succ hi hj' false d
    have hh := sign_succ hi hj' true d
    have hl' := ht hj' false
    have hh' := ht hj' true
    simp only [Bool.toNat_false, Bool.toNat_true, mul_zero, mul_one, add_zero] at hl hh hl' hh'
    rw [Nat.add_comm (2 ^ k) j, hl, hh, hl', hh', ← hys, Bool.apply_cond (fun ys : List ℝ => ys.getD j 0),
      Operation.getD_halves _ hxs hj', Operation.getD_halves _ hxs hj']
    cases backwards <;> cases d <;> simp [signOf] <;> ring
  have htw : 2 ^ (k + 1) = 2 ^ k + 2 ^ k := by rw [pow_succ, mul_two]
  rw [weighted, weighted, htw, sum_range_add, ← sum_add_distrib, sum_congr rfl hp, ← mul_sum, pow_succ]
  field_simp

/-- **Halves of sums and differences are weighted sums.** -/
theorem demultiplex_eq_weighted (hxs : xs.length = 2 ^ k) (backwards : Bool) :
    demultiplex (fun x y => (x + y) / 2) (fun x y => (x + -y) / 2) backwards xs =
      (List.range (2 ^ k)).map (weighted backwards k xs) := by
  refine demultiplex_induction (P := fun k bw xs ys => ys = (List.range (2 ^ k)).map (weighted bw k xs))
    ?_ ?_ hxs backwards
  · intro bw x
    cases bw <;> simp [weighted, sign, topBit, signOf]
  · rintro k bw xs _ _ hh - rfl rfl
    have hs : List.range (2 ^ (k + 1)) = List.range (2 ^ k) ++ (List.range (2 ^ k)).map (· + 2 ^ k) := by
      rw [pow_succ, mul_two, List.range_add]; simp [Nat.add_comm]
    rw [hs, List.map_append, List.map_map]
    congr 1
    · refine List.map_congr_left fun i hi => ?_
      have hfi := weighted_succ (List.mem_range.mp hi) hh bw false
      simpa using hfi.symm
    · refine List.map_congr_left fun i hi => ?_
      have hl := weighted_succ (List.mem_range.mp hi) hh bw true
      cases bw <;> simpa using hl.symm

lemma abs_signOf (c : Bool) : |signOf c| = 1 := by cases c <;> simp [signOf]

lemma abs_weighted_lt {bound : ℝ} (h : ∀ j < 2 ^ k, |xs.getD j 0| < bound)
    (backwards : Bool) (i : ℕ) : |weighted backwards k xs i| < bound := by
  have hs : ∀ j, |sign k i j * signOf (backwards && topBit k j)| = 1 := fun j => by
    rw [abs_mul, abs_signOf, mul_one, sign, abs_prod]; exact prod_eq_one fun l _ => abs_signOf _
  have hp : (0 : ℝ) < 2 ^ k := by positivity
  have hsu : |∑ j ∈ range (2 ^ k), sign k i j * signOf (backwards && topBit k j) * xs.getD j 0| < 2 ^ k * bound := by
    calc _ ≤ ∑ j ∈ range (2 ^ k), |sign k i j * signOf (backwards && topBit k j) * xs.getD j 0| :=
          abs_sum_le_sum_abs _ _
      _ = ∑ j ∈ range (2 ^ k), |xs.getD j 0| := by simp only [abs_mul _ (xs.getD _ 0), hs, one_mul]
      _ < ∑ _j ∈ range (2 ^ k), bound := sum_lt_sum_of_nonempty (by simp) fun j hj => h j (mem_range.mp hj)
      _ = 2 ^ k * bound := by simp
  rw [weighted, abs_mul, abs_of_pos (inv_pos.mpr hp), inv_mul_lt_iff₀ hp]
  exact hsu

/-! ### The rows of a state -/

lemma foldl_add_eq_sum (xs : List ℝ) : xs.foldl (· + ·) 0.0 = xs.sum := by
  rw [Scalar.real_zero, List.sum_eq_foldl]

/-- **The weights give the angles of a row.** -/
theorem rotations_eq_rowAngles (hxs : xs.length = 2 ^ k) : rotations k xs = rowAngles xs := by
  rw [rowAngles, demultiplex_eq_weighted hxs, rotations]
  refine List.map_congr_left fun i _ => ?_
  have ht : (xs.zipIdx.map fun p => weight k i p.2 * p.1) =
      (List.range (2 ^ k)).map fun j => weight k i j * xs.getD j 0 :=
    List.ext_getElem (by simp [hxs]) fun j hj _ => by
      have hj' : j < xs.length := by simpa using hj
      simp [List.getD_eq_getElem?_getD, List.getElem?_eq_getElem hj']
  rw [foldl_add_eq_sum, weighted, mul_sum]
  rw [ht]
  change ∑ j ∈ range (2 ^ k), weight k i j * xs.getD j 0 = _
  refine sum_congr rfl fun j hj => ?_
  rw [weight_eq (mem_range.mp hj), Bool.false_and, signOf]
  simp [mul_assoc]

lemma controlPositions_eq (hk : 0 < k) : controlPositions k = (List.range (2 ^ k)).map (negationControl k) := by
  obtain ⟨m, rfl⟩ := Nat.exists_eq_add_one_of_ne_zero hk.ne'
  rw [map_negationControl, Nat.add_sub_cancel]
  clear hk
  induction m with
  | zero => rfl
  | succ m ih =>
    have hs : (controlPositions (m + 1)).dropLast = ruler (m + 1) := by rw [ih, List.dropLast_concat]
    have hd : ruler (m + 2) = ruler (m + 1) ++ (m + 1) :: ruler (m + 1) := rfl
    rw [controlPositions, hs, hd]
    simp

/-! ### Arrays of angles -/

noncomputable def entries (xs : List ℝ) : Array (Cplx ℝ) := (xs.map .ofReal).toArray

lemma getD_entries (xs : List ℝ) (j : ℕ) : (entries xs).getD j .zero = .ofReal (xs.getD j 0) := by
  by_cases hj : j < xs.length <;> simp [entries, hj, List.getD_eq_getElem?_getD, Cplx.zero, Cplx.ofReal]

lemma get_weights {i j : ℕ} (hi : i < 2 ^ k) (hj : j < 2 ^ k) :
    (weights k : Mat (Cplx ℝ)).get i j = .ofReal ((2 ^ k)⁻¹ * sign k i j) := by
  rw [weights, get_ofFn _ hi hj, weight_eq hj]

lemma apply_weights (hxs : xs.length = 2 ^ k) : (weights k).apply (entries xs) = entries (rowAngles xs) := by
  rw [rowAngles, demultiplex_eq_weighted hxs]
  refine Array.ext (by simp [apply, entries, weights, ofFn]) fun i hi _ => Cplx.value_injective ?_
  have hi' : i < 2 ^ k := by simpa [apply, weights, ofFn] using hi
  have he : ((weights k).apply (entries xs))[i] =
      dot (2 ^ k) ((weights k).get i) ((entries xs).getD · .zero) := by
    simp [apply, weights, ofFn]
  rw [he, value_dot, sum_congr rfl fun j hj => by rw [get_weights hi' (mem_range.mp hj), getD_entries]]
  simp [entries, weighted, signOf, mul_sum, mul_assoc]

lemma combinedCount_le (n : ℕ) : combinedCount n ≤ n := by fun_induction combinedCount n <;> omega

lemma demultiplexed_array (hk : 0 < k) (hxs : xs.length = 2 ^ k) :
    Operand.demultiplexed (.array ⟨[2 ^ k], .real, entries xs⟩) 0 (2 ^ k : ℕ) false =
      .ok (.array ⟨[2 ^ k], .real, entries (rowAngles xs)⟩) := by
  have hg : Grid.ofOperand (.array ⟨[2 ^ k], .real, entries xs⟩) = .ok (gridOf xs) := by
    simp only [Grid.ofOperand, Grid.ofOperandAt, entries, List.map_map, gridOf, hxs, bind, Except.bind]
    rfl
  have hh : ¬ ((0 : ℤ) + (2 ^ k : ℕ)) / 2 - 0 ≤ 0 := by
    have ho := Nat.one_lt_two_pow hk.ne'
    omega
  have hco : ¬ 2 ^ k < Int.toNat 0 + combinedCount (2 ^ k) := by simpa using combinedCount_le _
  have hr := demultiplexed_gridOf xs
  have ha : (gridOf xs).demultiplexedAt false 0 (2 ^ k : ℕ) = .ok ⟨[2 ^ k], .real, (rowAngles xs).map .real⟩ := by
    simp only [gridOf, hxs] at hr ⊢
    simp only [Grid.demultiplexedAt, lt_irrefl, if_false, Int.sub_zero, Int.toNat_natCast, List.headD_cons,
      bind, Except.bind, if_neg hco]
    rw [Int.toNat_zero, hr, List.map_eq_flatMap (f := Operand.real), List.flatMap_def]
  simp only [Operand.demultiplexed, if_neg hh, hg, bind, Except.bind, ha]
  simp only [gridOf, Grid.toOperand, entries, List.map_map]
  rfl

/-- **Halving and weighing give the same row**: its angles are the weights applied to the selected angles,
and its negations have the controls that are listed for rows of this length. -/
theorem demultiplexed_eq_weights (hk : 0 < k) (hxs : xs.length = 2 ^ k) :
    Operand.demultiplexed (.array ⟨[2 ^ k], .real, entries xs⟩) 0 (2 ^ k : ℕ) false =
        .ok (.array ⟨[2 ^ k], .real, (weights k).apply (entries xs)⟩) ∧
      (List.range (2 ^ k)).map (negationControl k) = controlPositions k :=
  ⟨by rw [demultiplexed_array hk hxs, apply_weights hxs], (controlPositions_eq hk).symm⟩

theorem demultiplexed_eq_weights_four :
    Operand.demultiplexed (.array ⟨[4], .real, entries [1, 1 / 2, -2, 3]⟩) 0 4 false =
        .ok (.array ⟨[4], .real, (weights 2).apply (entries [1, 1 / 2, -2, 3])⟩) ∧
      (List.range 4).map (negationControl 2) = controlPositions 2 :=
  demultiplexed_eq_weights (k := 2) (by decide) rfl

end Angles

end QuantumCircuits
