import QuantumCircuits.Proofs.Splitting.Weights
import QuantumCircuits.Proofs.Log.Mapping
import QuantumCircuits.Proofs.Log.Merge

/-!
# Splitting — Prepared

States that are prepared by splitting.  The calls are those of the levels and a phase (`stands_plan`), and
from the state where all qubits are off they make the amplitudes of the given state, with the first qubit as
the highest digit (`acts_parts`).  The reversal at the end puts the digits in order.

The reversal also replays the log.  The angles of all rotations are less than a full turn, so none of them is
left out but zero (`settled_of_mem_parts`), unless it is so small that a tolerance is decided for it; so the
circuit that is built prepares the state, too (`prepares`).
-/

/-! ### Levels

The rotations that prepare a state, level by level.  On every level a qubit is turned by an angle that the
qubits before it select, the first of them being the highest digit of the number that they spell.

The rotations about the second axis split what is left of a state: after `k` levels, the amplitude of a number
of `k` digits is the root of the `mass` of its block of amplitudes (`acts_masses`), also where a block is
empty and its angle is none.  The rotations about the third axis do the same with phases: after `k` levels a
number has the mean phase of its block, less that of all amplitudes (`acts_phases`).
-/

noncomputable section

namespace QuantumCircuits.Splitting

open List Operation Plan Real

open Cplx (arg)

variable {n : ℕ}
variable {k i : ℕ} {axis : Axis}

/-! ### Rows -/

/-- The qubits before a qubit, the last of them first. -/
def before (k : ℕ) : List ℕ := (range k).reverse

@[simp] lemma length_before (k : ℕ) : (before k).length = k := by simp [before]

lemma mem_before {q : ℕ} : q ∈ before k ↔ q < k := by simp [before]

lemma getD_before (hi : i < k) : (before k).getD i 0 = k - 1 - i := by
  rw [before, getD_eq_getElem?_getD, getElem?_reverse (by simpa using hi), length_range, getElem?_range (by omega)]
  rfl

lemma before_succ (k : ℕ) : before (k + 1) = k :: before k := by simp [before, range_succ]

lemma getD_controlPositions (hk : 0 < k) (hi : i < 2 ^ k) :
    (Angles.controlPositions k).getD i 0 = negationControl k i := by
  rw [Angles.controlPositions_eq hk, getD_eq_getElem?_getD, getElem?_map, getElem?_range hi]
  rfl

/-- **A selected rotation of a state's row** is that of the library's rows. -/
theorem stands_selectedRotation (hax : axis ≠ .x) (hk : k < n) {angles : List ℝ}
    (ha : angles.length = 2 ^ k) : Stands n (selectedRotation (rotationAbout axis) k angles)
      (rowParts axis angles (before k) k) () := by
  have hqu : ∀ {q : ℕ}, q < n → Operand.IsQubit n (.int q) q := fun hq =>
    Operand.IsIndex.isQubit ⟨rfl, rfl, hq⟩
  have ht : ∀ a : ℝ, Stands n (turnBy (rotationAbout axis) a (.int k)) [aboutAxis axis a k] () :=
    fun a => stands_aboutAxis rfl (hqu hk)
  rw [selectedRotation, Angles.rotations_eq_rowAngles ha, rowParts]
  rcases Nat.eq_zero_or_pos k with rfl | hpo
  · obtain ⟨a, rfl⟩ := length_eq_one_iff.mp ha
    rw [rowAngles_singleton]
    have ho : ∀ p ∈ [(a, 0)], Stands n (do turnBy (rotationAbout axis) p.1 (.int 0); pure ())
        [aboutAxis axis p.1 0] () := fun p _ => .bind (ht p.1) (stands_pure ())
    exact stands_forM ho
  · rw [if_neg (ne_nil_of_length_pos (by simpa using hpo)), length_before]
    refine stands_forM fun p hp => ?_
    obtain ⟨a, i⟩ := p
    have hi : i < 2 ^ k := by
      have hl := (mem_zipIdx' hp).1
      rwa [rowAngles, length_demultiplex, ha] at hl
    have hct := negationControl_lt hpo hi
    dsimp only
    rw [negationParts, if_neg hax, getD_before hct]
    refine .before (ht a) ?_
    simp only [hpo, if_true, getD_controlPositions hpo hi]
    exact stands_cx (hqu (by omega)) (hqu hk)

def levels (axis : Axis) (n : ℕ) (angle : ℕ → ℕ → ℝ) (m : ℕ) : List Operation :=
  (range m).flatMap fun k => rowParts axis ((range (2 ^ k)).map (angle (n - k))) (before k) k

lemma stands_rotateAll (ha : axis ≠ .x) {a : ℕ → ℕ → Outcome ℝ} {v : ℕ → ℕ → ℝ}
    (h : ∀ k < n, ∀ j < 2 ^ k, a (n - k) j = .ok (v (n - k) j)) :
    Stands n (rotateAll (rotationAbout axis) n a) (levels axis n v n) () := by
  refine stands_forM fun k hk => ?_
  have hk' := mem_range.mp hk
  refine .after_get (mapM_ok fun j hj => h k hk' j (mem_range.mp hj)) ?_
  exact stands_selectedRotation ha hk' (by simp)

/-! ### Blocks of amplitudes -/

/-- The sum over the `j`-th block of `2 ^ k` numbers. -/
def blockSum (f : ℕ → ℝ) (k j : ℕ) : ℝ := ∑ i ∈ Finset.range (2 ^ k), f (j * 2 ^ k + i)

lemma blockSum_succ (f : ℕ → ℝ) (k j : ℕ) : blockSum f (k + 1) j = blockSum f k (2 * j) + blockSum f k (2 * j + 1) := by
  rw [blockSum, pow_succ, mul_two, Finset.sum_range_add]
  congr 1 <;> refine Finset.sum_congr rfl fun i _ => congrArg f ?_ <;> ring

lemma blockSum_zero (f : ℕ → ℝ) (j : ℕ) : blockSum f 0 j = f j := by simp [blockSum]

lemma blockSum_nonneg {f : ℕ → ℝ} (hf : ∀ i, 0 ≤ f i) (k j : ℕ) : 0 ≤ blockSum f k j :=
  Finset.sum_nonneg fun _ _ => hf _

variable (A : Array (Cplx ℝ))

def amplitude (i : ℕ) : ℂ := (A.getD i .zero).value

def mass : ℕ → ℕ → ℝ := blockSum fun i => ‖amplitude A i‖ ^ 2

def meanPhase (k j : ℕ) : ℝ := blockSum (fun i => (amplitude A i).arg) k j / 2 ^ k

def splitAngle (k j : ℕ) : ℝ :=
  if mass A k j = 0 then 0 else 2 * arcsin √(mass A (k - 1) (2 * j + 1) / mass A k j)

/-- The angle between the phases of the halves of a block. -/
def gapAngle (k j : ℕ) : ℝ := meanPhase A (k - 1) (2 * j + 1) - meanPhase A (k - 1) (2 * j)

lemma mass_nonneg (k j : ℕ) : 0 ≤ mass A k j := blockSum_nonneg (fun _ => by positivity) k j

lemma mass_succ (k j : ℕ) : mass A (k + 1) j = mass A k (2 * j) + mass A k (2 * j + 1) := blockSum_succ _ k j

lemma meanPhase_succ (k j : ℕ) : meanPhase A (k + 1) j = (meanPhase A k (2 * j) + meanPhase A k (2 * j + 1)) / 2 := by
  rw [meanPhase, blockSum_succ, meanPhase, meanPhase, pow_succ]; field_simp

variable {A}

/-! ### The angles of a state -/

section Angles

open Angles (entry sumSquares checkRange)

variable {f : Cplx ℝ → ℝ}
variable {j : ℕ}

lemma entry_map (hi : i < A.size) : entry (A.map f) i = .ok (f (A.getD i .zero)) := by
  have hp : Operand.position A.size i = .ok i := by simp [Operand.position, hi]
  simp [entry, hp, hi, bind, Except.bind]

lemma checkRange_map {m : ℕ} (hm : m ≤ A.size) : checkRange (A.map f) m = .ok () := by
  rw [checkRange, if_neg (by simp; omega)]

lemma sumSquares_map (h : (j + 1) * 2 ^ k ≤ A.size) :
    sumSquares (A.map f) (j * 2 ^ k) (2 ^ k) = .ok (blockSum (fun i => f (A.getD i .zero) ^ 2) k j) := by
  have hen : ((range (2 ^ k)).mapM fun (i : ℕ) => entry (A.map f) ((j * 2 ^ k : ℤ) + i)) =
      .ok ((range (2 ^ k)).map fun i => f (A.getD (j * 2 ^ k + i) .zero)) := by
    refine mapM_ok fun i hi => ?_
    have hi' := mem_range.mp hi
    have he := entry_map (f := f) (show j * 2 ^ k + i < A.size by nlinarith)
    simpa using he
  have hs : ∀ xs : List ℝ, xs.foldl (fun s y => s + y * y) 0.0 = (xs.map fun y => y ^ 2).sum := by
    intro xs; rw [sum_eq_foldl, foldl_map, Scalar.real_zero]; simp [pow_two]
  rw [sumSquares, checkRange_map (by nlinarith [Nat.zero_le (j * 2 ^ k)])]
  simp only [hen, bind, Except.bind, hs, map_map]
  rfl

lemma split_map (hk : 0 < k) (h : (j + 1) * 2 ^ k ≤ A.size) :
    (do .ok ((← Angles.split (A.map Cplx.abs) k j).toReal?.getD 0.0) : Outcome ℝ) = .ok (splitAngle A k j) := by
  obtain ⟨k, rfl⟩ : ∃ m, k = m + 1 := ⟨k - 1, by omega⟩
  have hu : sumSquares (A.map Cplx.abs) ((2 * j + 1) * 2 ^ k) (2 ^ k) = .ok (mass A k (2 * j + 1)) := by
    have hs := sumSquares_map (A := A) (f := Cplx.abs) (k := k) (j := 2 * j + 1) (by rw [pow_succ] at h; linarith)
    exact hs
  have hw : sumSquares (A.map Cplx.abs) (j * 2 ^ (k + 1)) (2 ^ (k + 1)) = .ok (mass A (k + 1) j) := sumSquares_map h
  rw [Angles.split, splitAngle]
  simp only [Nat.add_sub_cancel, hu, hw, bind, Except.bind, if_neg (Nat.succ_ne_zero k)]
  by_cases hze : mass A (k + 1) j = 0
  · simp [hze, Operand.toReal?]
  · simp [hze, Operand.toReal?]; rfl

lemma phaseGap_map (hk : 0 < k) (h : (j + 1) * 2 ^ k ≤ A.size) :
    Angles.phaseGap (A.map arg) k j = .ok (gapAngle A k j) := by
  obtain ⟨k, rfl⟩ : ∃ m, k = m + 1 := ⟨k - 1, by omega⟩
  have hg : ((range (2 ^ k)).mapM fun (b : ℕ) => (do
        .ok ((← entry (A.map arg) ((2 * j + 1) * (2 ^ k : ℕ) + b)) -
          (← entry (A.map arg) (2 * j * (2 ^ k : ℕ) + b))) : Outcome ℝ)) =
      .ok ((range (2 ^ k)).map fun b =>
        (amplitude A ((2 * j + 1) * 2 ^ k + b)).arg - (amplitude A (2 * j * 2 ^ k + b)).arg) := by
    refine mapM_ok fun b hb => ?_
    have hb' := mem_range.mp hb
    rw [pow_succ] at h
    have hu := entry_map (A := A) (f := arg) (show (2 * j + 1) * 2 ^ k + b < A.size by nlinarith)
    have hl := entry_map (A := A) (f := arg) (show 2 * j * 2 ^ k + b < A.size by nlinarith)
    push_cast at hu hl ⊢
    simp only [hu, hl, bind, Except.bind]
    rfl
  have hr : 2 ^ k ≤ A.size := by rw [pow_succ] at h; nlinarith [Nat.zero_le (j * 2 ^ k)]
  simp only [Angles.phaseGap, Nat.add_sub_cancel, if_neg (Nat.succ_ne_zero k), checkRange_map hr]
  rw [hg, gapAngle, meanPhase, meanPhase, ← sub_div, Nat.add_sub_cancel, blockSum, blockSum,
    ← Finset.sum_sub_distrib]
  simp only [bind, Except.bind, Angles.foldl_add_eq_sum, Scalar.ofNat_real, Nat.cast_pow, Nat.cast_ofNat]
  rfl

end Angles

/-! ### What the levels do -/

lemma acts_levels_succ (axis : Axis) (a : ℕ → ℕ → ℝ) (k : ℕ) (V : Wave) : acts (levels axis n a (k + 1)) V =
      select k (fun b => (axis.matrix (a (n - k) (indexOf (before k) b))).asSquare)
        (acts (levels axis n a k) V) := by
  have hg : ∀ b : Register, ((range (2 ^ k)).map (a (n - k))).getD (indexOf (before k) b) 0 =
      a (n - k) (indexOf (before k) b) := fun b => by
    have hl := indexOf_lt (before k) b
    rw [length_before] at hl
    rw [getD_eq_getElem?_getD, getElem?_map, getElem?_range hl]
    rfl
  rw [levels, range_succ, flatMap_append, acts_append, flatMap_singleton,
    acts_rowParts (by simp) (by simp [mem_before])]
  simp only [hg]
  rfl

lemma indexOf_before_succ (k : ℕ) (b : Register) :
    indexOf (before (k + 1)) b = 2 * indexOf (before k) b + (b k).toNat := by
  rw [before_succ, indexOf, foldr_cons, Nat.add_comm]
  rfl

/-- Where the qubits from `k` on are off, the root of the mass of a block. -/
def masses (A : Array (Cplx ℝ)) (n k : ℕ) : Wave := fun b =>
  if ∀ q, k ≤ q → q < n → b q = false then (√(mass A (n - k) (indexOf (before k) b)) : ℂ) else 0

lemma split_mass (m j : ℕ) : cos (splitAngle A (m + 1) j / 2) * √(mass A (m + 1) j) = √(mass A m (2 * j)) ∧
      sin (splitAngle A (m + 1) j / 2) * √(mass A (m + 1) j) = √(mass A m (2 * j + 1)) := by
  have hl := mass_nonneg A m (2 * j)
  have hu := mass_nonneg A m (2 * j + 1)
  have hw := mass_succ A m j
  by_cases hze : mass A (m + 1) j = 0
  · have h0 : mass A m (2 * j) = 0 := by linarith
    have h1 : mass A m (2 * j + 1) = 0 := by linarith
    simp [hze, h0, h1]
  have hp : 0 < mass A (m + 1) j := lt_of_le_of_ne (mass_nonneg A _ _) (Ne.symm hze)
  have hle : √(mass A m (2 * j + 1) / mass A (m + 1) j) ≤ 1 := sqrt_le_one.mpr ((div_le_one hp).mpr (by linarith))
  have ha : splitAngle A (m + 1) j / 2 = arcsin √(mass A m (2 * j + 1) / mass A (m + 1) j) := by
    rw [splitAngle, if_neg hze, Nat.add_sub_cancel, mul_div_cancel_left₀ _ (two_ne_zero)]
  have hs : 1 - √(mass A m (2 * j + 1) / mass A (m + 1) j) ^ 2 = mass A m (2 * j) / mass A (m + 1) j := by
    rw [sq_sqrt (by positivity)]
    field_simp
    linarith
  rw [ha, cos_arcsin, hs, sin_arcsin (by linarith [sqrt_nonneg (mass A m (2 * j + 1) /
    mass A (m + 1) j)]) hle, ← sqrt_mul (by positivity), ← sqrt_mul (by positivity),
    div_mul_cancel₀ _ hze, div_mul_cancel₀ _ hze]
  exact ⟨rfl, rfl⟩

lemma select_masses (hk : k < n) :
    select k (fun b => (Axis.y.matrix (splitAngle A (n - k) (indexOf (before k) b))).asSquare) (masses A n k) =
      masses A n (k + 1) := by
  obtain ⟨m, hm⟩ : ∃ m, n - k = m + 1 := ⟨n - k - 1, by omega⟩
  have hr : n - (k + 1) = m := by omega
  funext b
  have ho : masses A n k (Function.update b k false) =
      if ∀ q, k + 1 ≤ q → q < n → b q = false then (√(mass A (n - k) (indexOf (before k) b)) : ℂ) else 0 := by
    have hi : (∀ q, k ≤ q → q < n → Function.update b k false q = false) ↔ ∀ q, k + 1 ≤ q → q < n → b q = false := by
      refine ⟨fun h q hq hqn => ?_, fun h q hq hqn => ?_⟩
      · have hu := h q (by omega) hqn
        rwa [Function.update_of_ne (by omega)] at hu
      · rcases Nat.eq_or_lt_of_le hq with rfl | hl
        · simp
        · rw [Function.update_of_ne (by omega)]
          exact h q hl hqn
    rw [masses, blind_indexOf (by simp [mem_before]) b false]
    exact if_congr hi rfl rfl
  have hon : masses A n k (Function.update b k true) = 0 := by
    rw [masses, if_neg]
    intro h
    have hu := h k le_rfl hk
    simp at hu
  obtain ⟨hco, hs⟩ := split_mass m (indexOf (before k) b)
  have hma := Base.square_ry (splitAngle A (n - k) (indexOf (before k) b))
  change (Axis.y.matrix _).asSquare = _ at hma
  rw [select, ho, hon, mul_zero, add_zero, hma, masses, hr, indexOf_before_succ, hm]
  split
  · cases hb : b k with
    | false =>
      rw [QuantumCircuits.square_false_false, ← Complex.ofReal_mul, hco]
      simp
    | true =>
      rw [QuantumCircuits.square_true_false, ← Complex.ofReal_mul, hs]
      simp
  · simp

/-- **The rotations about the second axis** give every block the root of its mass. -/
theorem acts_masses (hu : mass A n 0 = 1) (hk : k ≤ n) :
    acts (levels .y n (splitAngle A) k) (basisWave n 0) = masses A n k := by
  induction k with
  | zero =>
    funext b
    simp [levels, masses, basisWave, before, indexOf, hu]
  | succ k ih => rw [acts_levels_succ, ih (by omega), select_masses hk]

lemma meanPhase_half (m j : ℕ) (c : Bool) : meanPhase A m (2 * j + c.toNat) =
    meanPhase A (m + 1) j + (if c then gapAngle A (m + 1) j / 2 else -gapAngle A (m + 1) j / 2) := by
  rw [meanPhase_succ, gapAngle, Nat.add_sub_cancel]
  cases c <;> simp <;> ring

/-- **The rotations about the third axis** give every block its mean phase, less that of the whole state. -/
theorem acts_phases (hk : k ≤ n) (V : Wave) (b : Register) : acts (levels .z n (gapAngle A) k) V b =
      Complex.exp ((meanPhase A (n - k) (indexOf (before k) b) - meanPhase A n 0 : ℝ) * Complex.I) * V b := by
  induction k with
  | zero => simp [levels, before, indexOf]
  | succ k ih =>
    obtain ⟨m, hm⟩ : ∃ m, n - k = m + 1 := ⟨n - k - 1, by omega⟩
    have hr : n - (k + 1) = m := by omega
    have hma := Base.square_rz (gapAngle A (n - k) (indexOf (before k) b))
    change (Axis.z.matrix _).asSquare = _ at hma
    rw [acts_levels_succ, select, hma, hr, indexOf_before_succ, meanPhase_half, ← hm]
    cases hb : b k with
    | false =>
      rw [update_bit hb, ih (by omega), QuantumCircuits.square_false_false, QuantumCircuits.square_false_true,
        zero_mul, add_zero, ← mul_assoc, ← Complex.exp_add, if_neg Bool.false_ne_true]
      congr 2
      push_cast
      ring
    | true =>
      rw [update_bit hb, ih (by omega), QuantumCircuits.square_true_false, QuantumCircuits.square_true_true,
        zero_mul, zero_add, ← mul_assoc, ← Complex.exp_add, if_pos rfl]
      congr 2
      push_cast
      ring

/-! ### Prepared -/

open Circuit Scalar

open Equiv (Perm)

variable {A : Array (Cplx ℝ)} {c : Circuit ℝ}
variable {o : Operation} {i k : ℕ} {angle : ℕ → ℕ → ℝ} {os : List Operation} {p : Plan ℝ Unit}

/-! ### The calls -/

def IsPositive (A : Array (Cplx ℝ)) : Prop := ∀ i, (amplitude A i).arg = 0

open Classical in
def parts (A : Array (Cplx ℝ)) (n : ℕ) : List Operation :=
  levels .y n (splitAngle A) n ++ (if IsPositive A then [] else levels .z n (gapAngle A) n) ++
    [.globalPhase (meanPhase A n 0)]

lemma all_phases_iff : ((A.map Cplx.arg).all fun p => eq p (0.0 : ℝ)) = true ↔ IsPositive A := by
  simp only [Array.all_map, Array.all_eq_true, Function.comp_apply, eq_real, real_zero, Cplx.arg_real]
  refine ⟨fun h i => ?_, fun h i hi => decide_eq_true ?_⟩
  · by_cases hi : i < A.size
    · simpa [amplitude, hi] using of_decide_eq_true (h i hi)
    · simp [amplitude, hi]
  · simpa [amplitude, hi] using h i

lemma sum_phases (hs : A.size = 2 ^ n) :
    (A.map Cplx.arg).foldl (fun s p => s + p / ofNat A.size) (0.0 : ℝ) = meanPhase A n 0 := by
  have hl : A.toList = (range (2 ^ n)).map fun i => A.getD i .zero :=
    ext_getElem (by simp [hs]) fun i hi _ => by
      have hi' : i < A.size := by simpa using hi
      simp [hi']
  have hsu : ∀ (xs : List ℝ) (s : ℝ), xs.foldl (fun s p => s + p / (2 ^ n : ℝ)) s = s + xs.sum / 2 ^ n := by
    intro xs
    induction xs with
    | nil => simp
    | cons x xs ih =>
      intro s
      rw [foldl_cons, ih, sum_cons]
      ring
  rw [← Array.foldl_toList, Array.toList_map, hl, hs, real_zero, ofNat_real, Nat.cast_pow,
    Nat.cast_ofNat, hsu, zero_add, map_map, meanPhase, blockSum]
  simp only [zero_mul, zero_add]
  rfl

lemma le_size {j : ℕ} (hk : k < n) (hj : j < 2 ^ k) : (j + 1) * 2 ^ (n - k) ≤ 2 ^ n := by
  calc (j + 1) * 2 ^ (n - k) ≤ 2 ^ k * 2 ^ (n - k) := Nat.mul_le_mul_right _ hj
    _ = 2 ^ n := by rw [← pow_add, Nat.add_sub_cancel' hk.le]

/-- **The calls that prepare a state.** -/
theorem stands_plan (hs : A.size = 2 ^ n) : Plan.Stands n (plan n A) (parts A n) () := by
  have hsp : Plan.Stands n (rotateAll .ry n fun k j => do
      .ok (((← Angles.split (A.map Cplx.abs) k j).toReal?).getD 0.0)) (levels .y n (splitAngle A) n) () :=
    stands_rotateAll (show Axis.y ≠ .x by decide) fun k hk j hj =>
      split_map (by omega) (hs ▸ le_size hk hj)
  have hg : Plan.Stands n (rotateAll .rz n fun k j => Angles.phaseGap (A.map Cplx.arg) k j)
      (levels .z n (gapAngle A) n) () :=
    stands_rotateAll (show Axis.z ≠ .x by decide) fun k hk j hj =>
      phaseGap_map (by omega) (hs ▸ le_size hk hj)
  rw [plan, parts, append_assoc]
  refine .bind hsp ?_
  have hp : Plan.Stands n (Plan.globalPhase (.real ((A.map Cplx.arg).foldl
      (fun s p => s + p / ofNat A.size) 0.0))) [.globalPhase (meanPhase A n 0)] () :=
    Plan.stands_globalPhase (by rw [sum_phases hs]; rfl)
  by_cases hpo : IsPositive A
  · rw [if_pos hpo, all_phases_iff.mpr hpo]; exact hp
  · have ha : ((A.map Cplx.arg).all fun p => eq p (0.0 : ℝ)) = false := by
      rwa [Bool.eq_false_iff, Ne, all_phases_iff]
    rw [if_neg hpo, ha]
    exact .bind hg hp

/-! ### The state -/

/-- **From nothing, the calls make the state**, with the first qubit as the highest digit. -/
theorem acts_parts (hu : mass A n 0 = 1) (b : Register) :
    acts (parts A n) (basisWave n 0) b = amplitude A (indexOf (before n) b) := by
  have hm : masses A n n b = (‖amplitude A (indexOf (before n) b)‖ : ℂ) := by
    have hr : √(mass A 0 (indexOf (before n) b)) = ‖amplitude A (indexOf (before n) b)‖ := by
      rw [mass, blockSum_zero, Real.sqrt_sq (norm_nonneg _)]
    rw [masses, if_pos fun q hq hqn => absurd hqn (by omega), Nat.sub_self, hr]
  have hpo := Complex.norm_mul_exp_arg_mul_I (amplitude A (indexOf (before n) b))
  rw [parts, acts_append, acts_append, acts_masses hu le_rfl, acts_cons, acts_nil, act_globalPhase]
  by_cases hp : IsPositive A
  · have hme : meanPhase A n 0 = 0 := by simp [meanPhase, blockSum, hp _]
    rw [if_pos hp, acts_nil, hme, Pi.smul_apply, hm, ← hpo, hp]
    simp
  · have hph : meanPhase A 0 (indexOf (before n) b) = (amplitude A (indexOf (before n) b)).arg := by
      rw [meanPhase, blockSum_zero, pow_zero, div_one]
    rw [if_neg hp, Pi.smul_apply, acts_phases le_rfl, hm, Nat.sub_self, hph, smul_eq_mul,
      ← mul_assoc, ← Complex.exp_add, mul_comm]
    nth_rewrite 3 [← hpo]
    congr 2
    push_cast
    ring

/-! ### The reversal -/

lemma renamed_basisWave (σ : Perm (Fin n)) : renamed (newQubits σ) (basisWave n 0) = basisWave n 0 := by
  funext b
  have hi : (∀ q < n, b (newQubit σ⁻¹ q) = Nat.testBit 0 q) ↔ ∀ q < n, b q = Nat.testBit 0 q := by
    simp only [Nat.zero_testBit]
    refine ⟨fun h q hq => ?_, fun h q hq => h _ ((embeds_newQubit σ⁻¹).lt q hq)⟩
    have hba := h _ ((embeds_newQubit σ).lt q hq)
    rwa [← newQubit_mul, inv_mul_cancel, newQubit_one] at hba
  exact if_congr hi rfl rfl

lemma acts_moved (σ : Perm (Fin n)) (os : List Operation) (b : Register) :
    acts (os.map (onQubits (newQubit σ))) (basisWave n 0) b = acts os (basisWave n 0) (b ∘ newQubit σ) := by
  have ha := congrFun (acts_onQubits (ρ := newQubits σ) os (basisWave n 0)) (b ∘ newQubit σ)
  rw [renamed_basisWave, renamed] at ha
  rw [ha]
  congr 1
  funext q
  exact congrArg b ((newQubits σ).apply_symm_apply q).symm

lemma indexOf_range_bits (k i : ℕ) : indexOf (range k) (bits i) = i % 2 ^ k := by
  induction k with
  | zero => simp [indexOf, Nat.mod_one]
  | succ k ih =>
    rw [range_succ, indexOf_concat, ih, length_range, Nat.mod_pow_succ, ← Nat.toNat_testBit]
    rfl

lemma indexOf_before_reversed (b : Register) :
    indexOf (before n) (b ∘ newQubit (Fin.revPerm : Perm (Fin n))) = indexOf (range n) b := by
  have hm : (before n).map (newQubit (Fin.revPerm : Perm (Fin n))) = range n := by
    refine ext_getElem (by simp) fun i hi _ => ?_
    have hi' : i < n := by simpa using hi
    simp [before, newQubit, show n - 1 - i < n by omega]
    omega
  rw [← hm]
  simp [indexOf, foldr_map]

/-- **The reversed calls make the state.** -/
theorem acts_reversed (hu : mass A n 0 = 1) (hi : i < 2 ^ n) :
    acts ((parts A n).map (onQubits (newQubit (Fin.revPerm : Perm (Fin n))))) (basisWave n 0)
      (bits i) = amplitude A i := by
  rw [acts_moved, acts_parts hu, indexOf_before_reversed, indexOf_range_bits, Nat.mod_eq_of_lt hi]

/-! ### The circuit -/

lemma mem_levels (hax : axis ≠ .x) (ho : o ∈ levels axis n angle n) : ∃ k < n,
      (∃ i, o = aboutAxis axis (Angles.weighted false k ((range (2 ^ k)).map (angle (n - k))) i) k) ∨
      ∃ c < k, o = .cx c k := by
  obtain ⟨k, hk, ho⟩ := mem_flatMap.mp ho
  refine ⟨k, mem_range.mp hk, ?_⟩
  rcases mem_rowParts_angles hax (by simp) ho with ⟨a, ha, rfl⟩ | ⟨c, hc, rfl⟩
  · rw [rowAngles, Angles.demultiplex_eq_weighted (k := k) (by simp)] at ha
    obtain ⟨i, -, rfl⟩ := mem_map.mp ha
    exact .inl ⟨i, rfl⟩
  · exact .inr ⟨c, mem_before.mp hc, rfl⟩

lemma good_aboutAxis (axis : Axis) (a : ℝ) (hk : k < n) : (aboutAxis axis a k).Good n where
  shaped := by cases axis <;> exact ⟨rfl, rfl, by simp [Plan.rotationAbout, Base.onTwo]⟩
  nodup := by simp [aboutAxis, qubits]
  lt := by simpa [aboutAxis, qubits] using hk
  decided := by simp [aboutAxis, turns_plain]

lemma good_of_mem_levels (ha : axis ≠ .x) {a : ℕ → ℕ → ℝ} (ho : o ∈ levels axis n a n) : o.Good n := by
  obtain ⟨k, hk, ⟨i, rfl⟩ | ⟨c, hc, rfl⟩⟩ := mem_levels ha ho
  · exact good_aboutAxis axis _ hk
  · exact good_cx (by omega) hk (by omega)

lemma abs_lt_of_mem_levels (hax : axis ≠ .x) {bound : ℝ}
    (ha : ∀ k j, |angle k j| < bound) (ho : o ∈ levels axis n angle n) : ∀ x ∈ o.angles, |x| < bound := by
  obtain ⟨k, hk, ⟨i, rfl⟩ | ⟨c, hc, rfl⟩⟩ := mem_levels hax ho
  · have han : ∀ a : ℝ, (aboutAxis axis a k).angles = [a] := fun a => by cases axis <;> rfl
    rw [han, forall_mem_singleton]
    refine Angles.abs_weighted_lt (fun j hj => ?_) false i
    rw [getD_eq_getElem?_getD, getElem?_map, getElem?_range hj]
    exact ha _ j
  · simp [angles, Base.isAngular]

lemma abs_splitAngle_lt (k j : ℕ) : |splitAngle A k j| < 2 * π := by
  have hp := pi_pos
  rw [splitAngle]
  split
  · simpa using hp
  · have hl := Real.neg_pi_div_two_le_arcsin √(mass A (k - 1) (2 * j + 1) / mass A k j)
    have hu := Real.arcsin_le_pi_div_two √(mass A (k - 1) (2 * j + 1) / mass A k j)
    rw [abs_lt]
    constructor <;> linarith

lemma meanPhase_mem (k j : ℕ) : -π < meanPhase A k j ∧ meanPhase A k j ≤ π := by
  have hp : (0 : ℝ) < 2 ^ k := by positivity
  have hl : ∑ _i ∈ Finset.range (2 ^ k), -π < blockSum (fun i => (amplitude A i).arg) k j :=
    Finset.sum_lt_sum_of_nonempty (by simp) fun i _ => Complex.neg_pi_lt_arg _
  have hu : blockSum (fun i => (amplitude A i).arg) k j ≤ ∑ _i ∈ Finset.range (2 ^ k), π :=
    Finset.sum_le_sum fun i _ => Complex.arg_le_pi _
  rw [meanPhase, lt_div_iff₀ hp, div_le_iff₀ hp]
  simp only [Finset.sum_const, Finset.card_range, nsmul_eq_mul, Nat.cast_pow, Nat.cast_ofNat] at hl hu
  constructor <;> linarith

lemma abs_gapAngle_lt (k j : ℕ) : |gapAngle A k j| < 2 * π := by
  have hu := meanPhase_mem (A := A) (k - 1) (2 * j + 1)
  have hl := meanPhase_mem (A := A) (k - 1) (2 * j)
  rw [gapAngle, abs_lt]
  constructor <;> linarith

lemma settled_of_abs_lt {x : ℝ} (h : Definite x) (hx : |x| < 2 * π) : Settled x := by
  rcases h with ⟨k, rfl⟩ | hfa
  · have hp := pi_pos
    have hk : |(k : ℝ)| < 1 := by
      rw [abs_mul, abs_of_pos (by positivity)] at hx
      nlinarith [abs_nonneg (k : ℝ)]
    have hze : k = 0 := Int.abs_lt_one_iff.mp (by exact_mod_cast hk)
    exact .inl (by simp [hze])
  · exact .inr hfa

/-- **All calls are carried out exactly, and none by a full turn.** -/
theorem good_of_mem_parts (ho : o ∈ parts A n) : o.Good n ∧ ∀ x ∈ o.angles, |x| < 2 * π := by
  rcases mem_append.mp ho with ho | ho
  · rcases mem_append.mp ho with ho | ho
    · exact ⟨good_of_mem_levels (by decide) ho, abs_lt_of_mem_levels (by decide) abs_splitAngle_lt ho⟩
    · split at ho
      · cases ho
      · exact ⟨good_of_mem_levels (by decide) ho, abs_lt_of_mem_levels (by decide) abs_gapAngle_lt ho⟩
  · obtain rfl := mem_singleton.mp ho
    have hp := meanPhase_mem (A := A) n 0
    refine ⟨good_globalPhase _, forall_mem_singleton.mpr ?_⟩
    rw [abs_lt]
    constructor <;> linarith [pi_pos]

lemma good_moved (σ : Perm (Fin n)) (ho : o.Good n) : (o.onQubits (newQubit σ)).Good n :=
  ho.onQubits (ho.nodup.map_on fun q hq r hr => (embeds_newQubit σ).injOn q (ho.lt q hq) r (ho.lt r hr))
    fun q hq => (embeds_newQubit σ).lt q (ho.lt q hq)

/-- The operations on the qubits in reverse order. -/
abbrev reversed (n : ℕ) (os : List Operation) : List Operation :=
  os.map (onQubits (newQubit (Fin.revPerm : Perm (Fin n))))

/-- **A circuit that follows a plan and is reversed** carries out what was kept, on the qubits in
reverse order. -/
theorem exists_lists_reversed (hp : Plan.Stands n p os ())
    (hg : ∀ o ∈ os, o.Good n) (hc : c.Lists n []) :
    ∃ c', c.after (do follow p; verticalReverse) = .ok c' ∧ (∃ is, c'.Lists n is) ∧
      c'.steps = (reversed n ((os.flatMap kept).map snapped)).flatMap prims := by
  obtain ⟨g, hop⟩ := hc.isOpen
  obtain ⟨y, es, hr, hy, hes⟩ := does_follow hp (fun o ho => (hg o ho).toValid) c g hop
  have he := forall₂_nil_right_iff.mp hc.log
  have hop₁ : (c.extended (os.flatMap prims) y es).Open n _ := hop.extended hy es
  have hl : (c.extended (os.flatMap prims) y es).Lists n ((os.flatMap kept).map .gate) := by
    refine ⟨⟨_, hop₁⟩, ?_⟩
    rw [log_extended, Array.toList_append, he, nil_append, forall₂_map_right_iff]
    exact hes
  obtain ⟨c', ha, hl', hs⟩ := hl.exists_changeMapping permutes_reversed
  refine ⟨c', ?_, ⟨_, hl'⟩, ?_⟩
  · rw [Circuit.after, Change.perform_bind_ok hr, ← Circuit.after,
      after_verticalReverse hop₁.numQubits, ha]
  · rw [hs, flatMap_map, flatMap_map, flatMap_map]; rfl

lemma exists_follow_reversed (hp : Plan.Stands n p os ())
    (hg : ∀ o ∈ os, o.Good n) (ha : ∀ o ∈ os, ∀ x ∈ o.angles, Settled x)
    (hc : c.Lists n []) : ∃ c', c.after (do follow p; verticalReverse) = .ok c' ∧
      ∀ i : Fin (2 ^ n), c'.operator n i ⟨0, Nat.two_pow_pos n⟩ = acts (reversed n os) (basisWave n 0) (bits i) := by
  obtain ⟨c', haf, ⟨is, hl⟩, hs⟩ := exists_lists_reversed hp hg hc
  have hg' : ∀ o ∈ reversed n ((os.flatMap kept).map snapped), o.Good n := by
    rw [reversed, map_map, forall_mem_map]
    exact fun p hp => good_moved _ (of_mem_flatMap_kept hg ha p hp).1
  refine ⟨c', haf, fun i => ?_⟩
  -- the replay carries out what was logged, on the new qubits
  rw [(operator_of_steps hl.numQubits hs hg').2]
  change acts (reversed n _) (basisWave n 0) (bits i) = _
  rw [acts_moved, acts_moved, acts_kept hg ha]

/-- **States that are prepared by splitting.**  For every state of unit length on `n` qubits, the calls are
rotations about the second and third axis, controlled negations and a phase, and with their qubits reversed
they take the state where all qubits are off to the given one, its phase included.  So does the circuit that
is built from a new one, if no angle is so close to whole turns that it is taken for them. -/
theorem prepares_state (hsize : A.size = 2 ^ n) (hunit : ∑ i ∈ Finset.range (2 ^ n), ‖amplitude A i‖ ^ 2 = 1) :
    Plan.Stands n (plan n A) (parts A n) () ∧
    (∀ o ∈ parts A n, (∃ a t, o = .turn .ry a [t]) ∨ (∃ a t, o = .turn .rz a [t]) ∨ (∃ s t, o = .cx s t) ∨
      ∃ a, o = .globalPhase a) ∧
    (∀ i < 2 ^ n, acts (reversed n (parts A n)) (basisWave n 0) (bits i) = amplitude A i) ∧
    ((∀ o ∈ parts A n, ∀ x ∈ o.angles, Definite x) → ∀ (R : Routines ℝ) (f : Framework) (size : Operand ℝ) c,
      f.isReference = true → Circuit.new f size = .ok c → c.numQubits = n →
        ∃ c', c.after (Preparation.splitting.build R n A) = .ok c' ∧
          ∀ i : Fin (2 ^ n), c'.operator n i ⟨0, Nat.two_pow_pos n⟩ = amplitude A i) := by
  have hm : mass A n 0 = 1 := by simpa [mass, blockSum] using hunit
  refine ⟨stands_plan hsize, fun o ho => ?_, fun i hi => acts_reversed hm hi, ?_⟩
  · have hl : ∀ {axis : Axis} {angle : ℕ → ℕ → ℝ}, axis ≠ .x → o ∈ levels axis n angle n →
        (∃ a t, o = .turn (Plan.rotationAbout axis) a [t]) ∨ ∃ s t, o = .cx s t := by
      intro axis angle hax ho
      obtain ⟨k, -, ⟨i, rfl⟩ | ⟨c, -, rfl⟩⟩ := mem_levels hax ho
      · exact .inl ⟨_, k, rfl⟩
      · exact .inr ⟨c, k, rfl⟩
    rcases mem_append.mp ho with ho | ho
    · rcases mem_append.mp ho with ho | ho
      · exact (hl (by decide) ho).imp_right fun h => .inr (.inl h)
      · split at ho
        · cases ho
        · exact .inr ((hl (by decide) ho).imp_right .inl)
    · exact .inr (.inr (.inr ⟨_, mem_singleton.mp ho⟩))
  · intro hd R f size c hf hne hn
    have hli := hn ▸ (lists_new hf hne).1
    obtain ⟨c', ha, hop⟩ := exists_follow_reversed (stands_plan hsize) (fun o ho => (good_of_mem_parts ho).1)
      (fun o ho x hx => settled_of_abs_lt (hd o ho x hx) ((good_of_mem_parts ho).2 x hx)) hli
    exact ⟨c', ha, fun i => (hop i).trans (acts_reversed hm i.2)⟩

def evenly : Array (Cplx ℝ) := #[.ofValue (√(1 / 2) : ℝ), .ofValue (√(1 / 2) : ℝ)]

lemma amplitude_evenly (hi : i < 2) : amplitude evenly i = (√(1 / 2) : ℝ) := by
  interval_cases i <;> rfl

lemma norm_evenly (hi : i < 2) : ‖amplitude evenly i‖ ^ 2 = 1 / 2 := by
  rw [amplitude_evenly hi, Complex.norm_real, Real.norm_eq_abs, sq_abs, Real.sq_sqrt (by norm_num)]

lemma splitAngle_evenly : splitAngle evenly 1 0 = π / 2 := by
  have hw : mass evenly 1 0 = 1 := by simp [mass, blockSum, Finset.sum_range_succ, norm_evenly]; norm_num
  have hu : mass evenly 0 1 = 1 / 2 := by simp [mass, blockSum, norm_evenly]
  have hr : √(1 / 2) = √2 / 2 := by
    rw [Real.sqrt_div' _ (by norm_num), Real.sqrt_one]
    field_simp
    rw [Real.sq_sqrt (by norm_num)]
  have ha : Real.arcsin (√2 / 2) = π / 4 :=
    Real.arcsin_eq_of_sin_eq Real.sin_pi_div_four ⟨by linarith [pi_pos], by linarith [pi_pos]⟩
  rw [splitAngle, hw, if_neg one_ne_zero, Nat.sub_self, mul_zero, zero_add, hu, div_one, hr, ha]
  ring

theorem prepares_state_evenly : ∃ c',
    (Circuit.sized .reference 1 (.int 1)).after (Preparation.splitting.build .byRotations 1 evenly) = .ok c' ∧
      ∀ i : Fin (2 ^ 1), c'.operator 1 i 0 = (√(1 / 2) : ℝ) := by
  have hp : IsPositive evenly := fun i => by
    by_cases hi : i < 2
    · rw [amplitude_evenly hi, Complex.arg_ofReal_of_nonneg (Real.sqrt_nonneg _)]
    · simp [amplitude, evenly, hi]
  have hpa : parts evenly 1 = [aboutAxis .y (π / 2) 0, .globalPhase 0] := by
    have hm : meanPhase evenly 1 0 = 0 := by simp [meanPhase, blockSum, hp _]
    rw [parts, if_pos hp, hm, ← splitAngle_evenly]
    rfl
  have hd : ∀ o ∈ parts evenly 1, ∀ x ∈ o.angles, Definite x := by
    have hq : Definite (π / 2) := .inr (far_of_between (by linarith [Real.two_le_pi])
      (by linarith [Real.two_le_pi]))
    have hze : Definite 0 := .inl ⟨0, by simp⟩
    rw [hpa]
    simpa [aboutAxis, Plan.rotationAbout, angles, Base.isAngular] using ⟨hq, hze⟩
  obtain ⟨-, -, -, hbu⟩ := prepares_state (n := 1) rfl
    (by rw [Finset.sum_congr rfl fun i hi => norm_evenly (Finset.mem_range.mp hi)]; norm_num)
  obtain ⟨c', ha, ho⟩ := hbu hd .byRotations .reference (.int 1) _ rfl rfl rfl
  exact ⟨c', ha, fun i => (ho i).trans (amplitude_evenly i.2)⟩

end QuantumCircuits.Splitting

end
