import QuantumCircuits.Proofs.Multiplexor.Spectrum

/-!
# Multiplexor — Extract

Splitting all gates of a multiplexor.  A step splits every multiplexor of the row into two with half the
gates.  What the row stands for where the controls spell `x` is the product of its gates with patterns
between them, times the collected diagonal (`value`); one split leaves it the same, since the next
multiplexor or the diagonal takes up what the split leaves over (`value_split`).  So it stays the same over
all pairs (`exists_midway`), multiplexors (`exists_split`) and steps (`exists_splitStep`), and in the end
the row and the diagonal give every gate (`exists_extract`).
-/

noncomputable section

namespace QuantumCircuits.Multiplexor

open List Mat Row
open Nat (add_assoc mod_lt)

variable {m : ℕ} {w : Row ℝ} {R : Routines ℝ}

/-! ### Arrays that are changed in one place -/

section Change

variable {β : Type*} (xs : Array β) (k j : ℕ) (d : β)

lemma getD_setIfInBounds (x : β) :
    (xs.setIfInBounds k x).getD j d = if j = k ∧ k < xs.size then x else xs.getD j d := by
  simp only [Array.getD_eq_getD_getElem?, Array.getElem?_setIfInBounds]
  split_ifs <;> simp_all

lemma getD_modify (f : β → β) :
    (xs.modify k f).getD j d = if j = k ∧ k < xs.size then f (xs.getD j d) else xs.getD j d := by
  simp only [Array.getD_eq_getD_getElem?, Array.getElem?_modify]
  split_ifs <;> simp_all

end Change

/-! ### Rows -/

namespace Row

def square (w : Row ℝ) (k : ℕ) : Square := (w.gates.getD k default).asSquare

/-- What the collected diagonal does to the target where the controls spell `x`. -/
def diagAt (w : Row ℝ) (x : ℕ) : Square :=
  diag (w.diagonal.getD (2 * x) .zero).value (w.diagonal.getD (2 * x + 1) .zero).value

/-- A row of `N` gates, and a diagonal with two entries of length one for each. -/
structure Proper (N : ℕ) (w : Row ℝ) : Prop where
  size : w.gates.size = N
  isGate : ∀ k < N, (w.gates.getD k default).IsGate
  length : w.diagonal.size = 2 * N
  unit : ∀ k < 2 * N, ‖(w.diagonal.getD k .zero).value‖ = 1

def put (w : Row ℝ) (k : ℕ) (M : Mat (Cplx ℝ)) : Row ℝ := { w with gates := w.gates.setIfInBounds k M }

variable {N k x : ℕ}

@[simp]
lemma size_put (M : Mat (Cplx ℝ)) : (w.put k M).gates.size = w.gates.size := Array.size_setIfInBounds

lemma getD_put (hk : k < w.gates.size) (M : Mat (Cplx ℝ)) (j : ℕ) :
    (w.put k M).gates.getD j default = if j = k then M else w.gates.getD j default := by
  rw [put, getD_setIfInBounds]
  simp [hk]

lemma square_put (hk : k < w.gates.size) (M : Mat (Cplx ℝ)) (j : ℕ) :
    (w.put k M).square j = if j = k then M.asSquare else w.square j := by
  rw [square, getD_put hk]
  split_ifs <;> rfl

lemma Proper.put (hw : w.Proper N) (hk : k < N) {M : Mat (Cplx ℝ)} (hM : M.IsGate) : (w.put k M).Proper N := by
  refine ⟨by rw [size_put, hw.size], fun j hj => ?_, hw.length, hw.unit⟩
  rw [getD_put (hw.size.symm ▸ hk)]
  split_ifs
  · exact hM
  · exact hw.isGate j hj

lemma Proper.gate (hw : w.Proper N) (hk : k < N) : w.gate k = .ok (w.gates.getD k default) := by
  have hs : k < w.gates.size := hw.size.symm ▸ hk
  rw [Row.gate, Array.getD_eq_getD_getElem?, Array.getElem?_eq_getElem hs]
  rfl

lemma Proper.absorb (hw : w.Proper N) (hk : k < N) (d : Mat (Cplx ℝ)) (z : Cplx ℝ) :
    w.absorb k d z = .ok (w.put k (smul z (w.gates.getD k default * d))) := by
  rw [Row.absorb, hw.gate hk]
  rfl

lemma getD_scaleDiagonal (hw : w.Proper N) (hx : x < N) (a b : Cplx ℝ) (j : ℕ) :
    (w.scaleDiagonal (2 * x) a b).diagonal.getD j .zero =
      if j = 2 * x + 1 then w.diagonal.getD j .zero * b
      else if j = 2 * x then w.diagonal.getD j .zero * a else w.diagonal.getD j .zero := by
  have hlen := hw.length
  rw [scaleDiagonal, getD_modify, getD_modify, Array.size_modify]
  have hl : 2 * x < w.diagonal.size := by omega
  have hh : 2 * x + 1 < w.diagonal.size := by omega
  simp only [hl, hh, and_true]
  split_ifs with h h'
  · omega
  all_goals rfl

lemma diagAt_scaleDiagonal (hw : w.Proper N) (hx : x < N) (a b : Cplx ℝ) (y : ℕ) :
    (w.scaleDiagonal (2 * x) a b).diagAt y =
      if y = x then w.diagAt y * diag a.value b.value else w.diagAt y := by
  rw [diagAt, getD_scaleDiagonal hw hx, getD_scaleDiagonal hw hx, diagAt]
  split_ifs <;> first | omega | simp [diag_mul]

lemma Proper.scaleDiagonal (hw : w.Proper N) (hx : x < N) {a b : Cplx ℝ} (ha : ‖a.value‖ = 1)
    (hb : ‖b.value‖ = 1) : (w.scaleDiagonal (2 * x) a b).Proper N := by
  refine ⟨hw.size, hw.isGate, by rw [Row.scaleDiagonal, Array.size_modify, Array.size_modify, hw.length],
    fun j hj => ?_⟩
  rw [getD_scaleDiagonal hw hx]
  split_ifs <;> simp only [Cplx.value_mul, norm_mul, hw.unit j hj, ha, hb, mul_one]

end Row

/-! ### One split -/

section Split

variable {count half j i : ℕ}

/-- The split of the `i`-th pair of the `j`-th multiplexor. -/
def splitOf (R : Routines ℝ) (half j i : ℕ) (w : Row ℝ) : Split ℝ :=
  splitPair R (w.gates.getD (j * (2 * half) + i) default) (w.gates.getD (j * (2 * half) + half + i) default)

/-- Whether the control that a split is about is on. -/
def upper (half x : ℕ) : Bool := x / half % 2 = 1

lemma mod_two_mul (half x : ℕ) : x % (2 * half) = x % half + if upper half x then half else 0 := by
  have h := Nat.mod_mul (x := x) (a := half) (b := 2)
  have htwo := mod_lt (x / half) (by decide : 0 < 2)
  rw [Nat.mul_comm 2 half, h, upper]
  by_cases hx : x / half % 2 = 1
  · simp [hx]
  · have hze : x / half % 2 = 0 := by omega
    simp [hze]

lemma upper_place (hi : i < half) (c : ℕ) : (i + c * (2 * half)) % half = i ∧ (i + c * (2 * half)) / (2 * half) = c ∧
      upper half (i + c * (2 * half)) = false ∧ (i + c * (2 * half) + half) % half = i ∧
      (i + c * (2 * half) + half) / (2 * half) = c ∧ upper half (i + c * (2 * half) + half) = true := by
  have hp : 0 < half := by omega
  have hd : (i + c * (2 * half)) / half = 2 * c := by
    rw [show i + c * (2 * half) = i + half * (2 * c) by ring, Nat.add_mul_div_left _ _ hp,
      Nat.div_eq_of_lt hi, zero_add]
  refine ⟨?_, ?_, ?_, ?_, ?_, ?_⟩
  · rw [show i + c * (2 * half) = i + half * (2 * c) by ring, Nat.add_mul_mod_self_left, Nat.mod_eq_of_lt hi]
  · rw [Nat.add_mul_div_right _ _ (by omega), Nat.div_eq_of_lt (by omega), zero_add]
  · rw [upper, hd]; simp
  · rw [show i + c * (2 * half) + half = i + half * (2 * c + 1) by ring, Nat.add_mul_mod_self_left, Nat.mod_eq_of_lt hi]
  · rw [show i + c * (2 * half) + half = i + half + c * (2 * half) by ring,
      Nat.add_mul_div_right _ _ (by omega), Nat.div_eq_of_lt (by omega), zero_add]
  · rw [upper, Nat.add_div_right _ hp, hd]; simp

lemma mod_place (hi : i < half) (c : ℕ) : (c * (2 * half) + i) % half = i ∧ (c * (2 * half) + half + i) % half = i := by
  obtain ⟨hl, -, -, hh, -, -⟩ := upper_place hi c
  refine ⟨by rwa [Nat.add_comm], ?_⟩
  rwa [show c * (2 * half) + half + i = i + c * (2 * half) + half by ring]

lemma eq_place {z : ℕ} (hz : z % half = i) : z = i + z / (2 * half) * (2 * half) + if upper half z then half else 0 := by
  have h := Nat.div_add_mod z (2 * half)
  rw [mod_two_mul, hz] at h
  rw [Nat.mul_comm (z / (2 * half))]
  omega

lemma place_lt (hj : j < count) {y : ℕ} (hy : y < 2 * half) : j * (2 * half) + y < count * (2 * half) :=
  calc j * (2 * half) + y < j * (2 * half) + 2 * half := by omega
    _ = (j + 1) * (2 * half) := by ring
    _ ≤ count * (2 * half) := Nat.mul_le_mul_right _ hj

/-- The two gates of a split in their places. -/
def placed (R : Routines ℝ) (half j i : ℕ) (w : Row ℝ) : Row ℝ :=
  (w.put (j * (2 * half) + i) (splitOf R half j i w).v).put (j * (2 * half) + half + i) (splitOf R half j i w).u

section Place

variable (hw : w.Proper (count * (2 * half))) (hj : j < count) (hi : i < half)
include hw hj hi

lemma rebuilds_splitOf (hR : R.Splits) : (splitOf R half j i w).Rebuilds (w.gates.getD (j * (2 * half) + i) default)
      (w.gates.getD (j * (2 * half) + half + i) default) := by
  refine hR _ _ (hw.isGate _ (place_lt hj (by omega))) ?_
  rw [add_assoc]
  exact hw.isGate _ (place_lt hj (by omega))

lemma proper_placed (hR : R.Splits) : (placed R half j i w).Proper (count * (2 * half)) := by
  have hs := rebuilds_splitOf hw hj hi hR
  refine (hw.put (place_lt hj (by omega)) hs.v).put ?_ hs.u
  rw [add_assoc]
  exact place_lt hj (by omega)

lemma getD_placed (k : ℕ) : (placed R half j i w).gates.getD k default =
    if k = j * (2 * half) + half + i then (splitOf R half j i w).u
    else if k = j * (2 * half) + i then (splitOf R half j i w).v else w.gates.getD k default := by
  have hl : j * (2 * half) + i < w.gates.size := hw.size.symm ▸ place_lt hj (by omega)
  have hh : j * (2 * half) + half + i < w.gates.size := by
    rw [hw.size, add_assoc]; exact place_lt hj (by omega)
  rw [placed, getD_put (by rwa [size_put]), getD_put hl]

lemma square_placed (k : ℕ) : (placed R half j i w).square k =
    if k = j * (2 * half) + half + i then (splitOf R half j i w).u.asSquare
    else if k = j * (2 * half) + i then (splitOf R half j i w).v.asSquare else w.square k := by
  rw [Row.square, getD_placed hw hj hi]
  split_ifs <;> rfl

lemma splitAt_eq : splitAt R count (2 * half) j i w = if j + 1 < count then do
        let w' ← (placed R half j i w).absorb (j * (2 * half) + 2 * half + i) (splitOf R half j i w).r.adjoint quarter₀
        w'.absorb (j * (2 * half) + 2 * half + i + half) (splitOf R half j i w).r quarter₁
      else .ok ((range count).foldl (fun w' m =>
        (w'.scaleDiagonal (2 * (i + m * (2 * half))) ((splitOf R half j i w).r.adjoint.get 0 0 * quarter₀)
          ((splitOf R half j i w).r.adjoint.get 1 1 * quarter₀)).scaleDiagonal
            (2 * (i + m * (2 * half)) + 2 * half) ((splitOf R half j i w).r.get 0 0 * quarter₁)
            ((splitOf R half j i w).r.get 1 1 * quarter₁)) (placed R half j i w)) := by
  have hha : 2 * half / 2 = half := by omega
  have hl := hw.gate (place_lt hj (by omega : i < 2 * half))
  have hh := hw.gate (place_lt hj (by omega : half + i < 2 * half))
  rw [← add_assoc] at hh
  simp only [splitAt, hha, hl, hh, bind, Except.bind]
  rfl

end Place

/-- What the split of one pair does to a row. -/
structure Splitting (R : Routines ℝ) (count half j i : ℕ) (w w' : Row ℝ) : Prop where
  proper : w'.Proper (count * (2 * half))
  low : w'.square (j * (2 * half) + i) = (splitOf R half j i w).v.asSquare
  high : w'.square (j * (2 * half) + half + i) = (splitOf R half j i w).u.asSquare
  nextLow : j + 1 < count → w'.square ((j + 1) * (2 * half) + i) =
    w.square ((j + 1) * (2 * half) + i) * (splitOf R half j i w).correction false
  nextHigh : j + 1 < count → w'.square ((j + 1) * (2 * half) + half + i) =
    w.square ((j + 1) * (2 * half) + half + i) * (splitOf R half j i w).correction true
  other : ∀ k, (k % half ≠ i ∨ k < j * (2 * half) ∨ (j + 2) * (2 * half) ≤ k) → w'.square k = w.square k
  diagonal : ∀ x < count * (2 * half), w'.diagAt x = if j + 1 < count ∨ x % half ≠ i then w.diagAt x
    else w.diagAt x * (splitOf R half j i w).correction (upper half x)

lemma exists_correction (R : Routines ℝ) (half j i : ℕ) (w : Row ℝ) :
    ∃ x y : Cplx ℝ, (splitOf R half j i w).r = diagonal #[x, y] ∧ ‖x.value‖ = 1 ∧ ‖y.value‖ = 1 ∧
      (splitOf R half j i w).correction true = diag (x * quarter₁).value (y * quarter₁).value ∧
      (splitOf R half j i w).correction false = diag (x.conj * quarter₀).value (y.conj * quarter₀).value := by
  obtain ⟨x, y, hr, hx, hy⟩ := splitPair_r R (w.gates.getD (j * (2 * half) + i) default)
    (w.gates.getD (j * (2 * half) + half + i) default)
  refine ⟨x, y, hr, hx, hy, ?_, ?_⟩
  · rw [Split.correction, if_pos rfl, splitOf, hr, diagonal_two, asSquare_square2]
    simp [diag, smul_square, mul_comm]
  · rw [Split.correction, if_neg (by simp), splitOf, hr, diagonal_two, asSquare_square2, square_conjTranspose]
    simp [diag, smul_square, mul_comm]

lemma norm_quarter : ‖(quarter₀ : Cplx ℝ).value‖ = 1 ∧ ‖(quarter₁ : Cplx ℝ).value‖ = 1 := by
  rw [value_quarter₀, value_quarter₁, Complex.norm_exp_ofReal_mul_I, Complex.norm_exp_ofReal_mul_I]
  exact ⟨rfl, rfl⟩

lemma foldl_scaleDiagonal {N : ℕ} (hi : i < half) {x y x' y' : Cplx ℝ} (hx : ‖x.value‖ = 1)
    (hy : ‖y.value‖ = 1) (hx' : ‖x'.value‖ = 1) (hy' : ‖y'.value‖ = 1) (hw : w.Proper (N * (2 * half)))
    {c : ℕ} (hc : c ≤ N) :
    let w' := (range c).foldl (fun w m => (w.scaleDiagonal (2 * (i + m * (2 * half))) x y).scaleDiagonal
      (2 * (i + m * (2 * half)) + 2 * half) x' y') w
    w'.Proper (N * (2 * half)) ∧ w'.gates = w.gates ∧ ∀ z, w'.diagAt z =
      if z % half = i ∧ z / (2 * half) < c then
        w.diagAt z * (if upper half z then diag x'.value y'.value else diag x.value y.value)
      else w.diagAt z := by
  induction c with
  | zero => exact ⟨hw, rfl, fun z => by simp⟩
  | succ c ih =>
    obtain ⟨hp, hg, hd⟩ := ih (by omega)
    rw [range_succ, foldl_append]
    generalize (range c).foldl _ w = w₁ at hp hg hd
    obtain ⟨hm, hdi, ho, hm', hdi', hon⟩ := upper_place hi c
    have hlt : c * (2 * half) + i < N * (2 * half) := place_lt (by omega) (by omega)
    have hlt' : c * (2 * half) + (i + half) < N * (2 * half) := place_lt (by omega) (by omega)
    have hp' := hp.scaleDiagonal (x := i + c * (2 * half)) (by omega) hx hy
    rw [foldl_cons, foldl_nil,
      show 2 * (i + c * (2 * half)) + 2 * half = 2 * (i + c * (2 * half) + half) by ring]
    refine ⟨hp'.scaleDiagonal (by omega) hx' hy', hg, fun z => ?_⟩
    rw [diagAt_scaleDiagonal hp' (by omega), diagAt_scaleDiagonal hp (by omega), hd]
    by_cases hl : z = i + c * (2 * half)
    · subst hl
      rw [if_neg (by omega), if_pos rfl, if_neg (by omega), if_pos ⟨hm, by omega⟩, ho]
      rfl
    by_cases hh : z = i + c * (2 * half) + half
    · subst hh
      rw [if_pos rfl, if_neg (by omega), if_neg (by omega), if_pos ⟨hm', by omega⟩, hon]
      rfl
    have hbe : z % half = i → z / (2 * half) ≠ c := by
      intro hz hc
      have hpl := eq_place hz
      rw [hc] at hpl
      split_ifs at hpl <;> omega
    rw [if_neg hh, if_neg hl]
    refine if_congr (and_congr_right fun hz => ?_) rfl rfl
    have := hbe hz
    omega

lemma asSquare_absorbed {G D : Mat (Cplx ℝ)} (hG : G.IsGate) (hD : D.IsGate) (z : Cplx ℝ) :
    (smul z (G * D)).asSquare = G.asSquare * (z.value • D.asSquare) := by
  rw [asSquare_smul (hG.mul hD).small, asSquare_mul hG.small hD.small, Matrix.mul_smul]

/-- The row after a split that has another multiplexor behind it, which takes up the diagonal. -/
def passed (R : Routines ℝ) (half j i : ℕ) (w : Row ℝ) : Row ℝ :=
  ((placed R half j i w).put (j * (2 * half) + 2 * half + i) (smul quarter₀
    (w.gates.getD (j * (2 * half) + 2 * half + i) default * (splitOf R half j i w).r.adjoint))).put
  (j * (2 * half) + 2 * half + i + half) (smul quarter₁
    (w.gates.getD (j * (2 * half) + 2 * half + i + half) default * (splitOf R half j i w).r))

lemma isGate_r (R : Routines ℝ) (half j i : ℕ) (w : Row ℝ) : (splitOf R half j i w).r.IsGate := by
  obtain ⟨x, y, hr, hx, hy, -, -⟩ := exists_correction R half j i w; exact hr ▸ .diagonal hx hy

lemma place_next_lt (hj : j + 1 < count) (hi : i < half) :
    j * (2 * half) + 2 * half + i + half < count * (2 * half) := by
  have hl : (j + 1) * (2 * half) + (i + half) < count * (2 * half) := place_lt hj (by omega)
  have hn : (j + 1) * (2 * half) = j * (2 * half) + 2 * half := by ring
  omega

section Pass

variable (hR : R.Splits) (hw : w.Proper (count * (2 * half))) (hj : j + 1 < count) (hi : i < half)
include hR hw hj hi

lemma proper_passed : (passed R half j i w).Proper (count * (2 * half)) := by
  have hl := place_next_lt hj hi
  have hg := isGate_r R half j i w
  exact ((proper_placed hw (by omega) hi hR).put (by omega)
    (((hw.isGate _ (by omega)).mul hg.adjoint).smul norm_quarter.1)).put hl
    (((hw.isGate _ hl).mul hg).smul norm_quarter.2)

lemma splitAt_pass : splitAt R count (2 * half) j i w = .ok (passed R half j i w) := by
  have hlt := place_next_lt hj hi
  have hg := isGate_r R half j i w
  have hp := proper_placed hw (by omega : j < count) hi hR
  have hl : j * (2 * half) + 2 * half + i < count * (2 * half) := by omega
  have hpr := hp.put hl (((hw.isGate _ hl).mul hg.adjoint).smul norm_quarter.1)
  have hG : ∀ k, j * (2 * half) + 2 * half ≤ k → (placed R half j i w).gates.getD k default = w.gates.getD k default :=
    fun k hk => by rw [getD_placed hw (by omega) hi, if_neg (by omega), if_neg (by omega)]
  have ha := hpr.absorb hlt (splitOf R half j i w).r quarter₁
  rw [getD_put (by rw [hp.size]; omega), if_neg (by omega), hG _ (by omega)] at ha
  rw [splitAt_eq hw (by omega) hi, if_pos hj, hp.absorb (by omega), hG _ (by omega)]
  exact ha

lemma square_passed (k : ℕ) : (passed R half j i w).square k =
    if k = (j + 1) * (2 * half) + half + i then w.square k * (splitOf R half j i w).correction true
    else if k = (j + 1) * (2 * half) + i then w.square k * (splitOf R half j i w).correction false
    else if k = j * (2 * half) + half + i then (splitOf R half j i w).u.asSquare
    else if k = j * (2 * half) + i then (splitOf R half j i w).v.asSquare else w.square k := by
  have hlt := place_next_lt hj hi
  have hg := isGate_r R half j i w
  have hp := proper_placed hw (by omega : j < count) hi hR
  have hn : (j + 1) * (2 * half) = j * (2 * half) + 2 * half := by ring
  rw [passed, square_put (by rwa [size_put, hp.size]),
    square_put (by rw [hp.size]; omega), square_placed hw (by omega) hi,
    asSquare_absorbed (hw.isGate _ (by omega)) hg, asSquare_absorbed (hw.isGate _ (by omega)) hg.adjoint,
    asSquare_adjoint hg.small, hn,
    show j * (2 * half) + 2 * half + half + i = j * (2 * half) + 2 * half + i + half by ring]
  by_cases hh : k = j * (2 * half) + 2 * half + i + half
  · subst hh; rw [if_pos rfl, if_pos rfl]; rfl
  by_cases hl : k = j * (2 * half) + 2 * half + i
  · subst hl; rw [if_neg hh, if_pos rfl, if_neg hh, if_pos rfl]; rfl
  rw [if_neg hh, if_neg hl, if_neg hh, if_neg hl]

lemma splitting_pass : Splitting R count half j i w (passed R half j i w) := by
  have hn : (j + 1) * (2 * half) = j * (2 * half) + 2 * half := by ring
  have hs := square_passed hR hw hj hi
  refine ⟨proper_passed hR hw hj hi, ?_, ?_, fun _ => ?_, fun _ => ?_, fun k hk => ?_, fun z _ => ?_⟩
  · rw [hs, if_neg (by omega), if_neg (by omega), if_neg (by omega), if_pos rfl]
  · rw [hs, if_neg (by omega), if_neg (by omega), if_pos rfl]
  · rw [hs, if_neg (by omega), if_pos rfl]
  · rw [hs, if_pos rfl]
  · have hm := mod_place hi j
    have hm' := mod_place hi (j + 1)
    have ha : (j + 2) * (2 * half) = j * (2 * half) + 4 * half := by ring
    rw [hs, if_neg, if_neg, if_neg, if_neg] <;> rintro rfl <;> omega
  · rw [if_pos (.inl hj)]; rfl

end Pass

lemma splitting_last (hR : R.Splits) (hw : w.Proper (count * (2 * half))) (hj : j + 1 = count) (hi : i < half) :
    ∃ w', splitAt R count (2 * half) j i w = .ok w' ∧ Splitting R count half j i w w' := by
  have hl : j < count := by omega
  obtain ⟨x, y, hr, hx, hy, hon, ho⟩ := exists_correction R half j i w
  have he : (splitOf R half j i w).r.get 0 0 = x ∧ (splitOf R half j i w).r.get 1 1 = y ∧
      (splitOf R half j i w).r.adjoint.get 0 0 = x.conj ∧ (splitOf R half j i w).r.adjoint.get 1 1 = y.conj := by
    rw [hr, diagonal_two, square2_adjoint]
    exact ⟨rfl, rfl, rfl, rfl⟩
  have hn : ∀ {z q : Cplx ℝ}, ‖z.value‖ = 1 → ‖q.value‖ = 1 → ‖(z * q).value‖ = 1 ∧ ‖(z.conj * q).value‖ = 1 :=
    fun hz hq => by simp [hz, hq]
  obtain ⟨hp, hg, hd⟩ := foldl_scaleDiagonal hi (hn hx norm_quarter.1).2
    (hn hy norm_quarter.1).2 (hn hx norm_quarter.2).1 (hn hy norm_quarter.2).1
    (proper_placed hw hl hi hR) le_rfl
  refine ⟨_, by rw [splitAt_eq hw hl hi, if_neg (by omega), he.1, he.2.1, he.2.2.1, he.2.2.2], ?_⟩
  have hs : ∀ k, Row.square _ k = (placed R half j i w).square k := fun k =>
    congrArg (fun gs : Array (Mat (Cplx ℝ)) => (gs.getD k default).asSquare) hg
  refine ⟨hp, ?_, ?_, fun h => absurd h (by omega), fun h => absurd h (by omega), fun k hk => ?_, fun z hz => ?_⟩
  · rw [hs, square_placed hw hl hi, if_neg (by omega), if_pos rfl]
  · rw [hs, square_placed hw hl hi, if_pos rfl]
  · have hm := mod_place hi j
    have ha : (j + 2) * (2 * half) = j * (2 * half) + 4 * half := by ring
    rw [hs, square_placed hw hl hi, if_neg, if_neg] <;> rintro rfl <;> omega
  · have hdi : z / (2 * half) < count := Nat.div_lt_of_lt_mul (by rwa [Nat.mul_comm])
    rw [hd]
    by_cases hcl : z % half = i
    · have hla : ¬ (j + 1 < count ∨ z % half ≠ i) := by
        rintro (h | h)
        · omega
        · exact h hcl
      rw [if_pos ⟨hcl, hdi⟩, if_neg hla]
      cases upper half z with
      | false => rw [ho]; rfl
      | true => rw [hon]; rfl
    · rw [if_neg (by tauto), if_pos (.inr hcl)]
      rfl

lemma exists_splitAt (hR : R.Splits) (hw : w.Proper (count * (2 * half))) (hj : j < count) (hi : i < half) :
    ∃ w', splitAt R count (2 * half) j i w = .ok w' ∧ Splitting R count half j i w w' := by
  rcases Nat.lt_or_ge (j + 1) count with hl | hg
  · exact ⟨_, splitAt_pass hR hw hl hi, splitting_pass hR hw hl hi⟩
  · exact splitting_last hR hw (by omega) hi

/-! ### What the splits leave the same -/

/-- The `j`-th factor of a row where the controls spell `x`, after `d` of the multiplexors were split. -/
def factor (half : ℕ) (w : Row ℝ) (x d j : ℕ) : Square :=
  if j < d then w.square (j * (2 * half) + half + x % half) * pattern (upper half x) *
    w.square (j * (2 * half) + x % half)
  else w.square (j * (2 * half) + x % (2 * half))

/-- What a row stands for where the controls spell `x`. -/
def value (count half : ℕ) (p : ℕ → Square) (w : Row ℝ) (x d : ℕ) : Square :=
  w.diagAt x * braid (factor half w x d) p count

lemma pos_of_lt {x : ℕ} (hx : x < count * (2 * half)) : 0 < half := Nat.pos_of_ne_zero fun h => by simp [h] at hx

lemma square_class (w : Row ℝ) (x j : ℕ) : w.square (j * (2 * half) + x % (2 * half)) =
    if upper half x then w.square (j * (2 * half) + half + x % half) else w.square (j * (2 * half) + x % half) := by
  rw [mod_two_mul]
  cases upper half x with
  | false => rfl
  | true => rw [if_pos rfl, if_pos rfl, Nat.add_comm (x % half), ← add_assoc]

section Value

variable {p : ℕ → Square} {w' : Row ℝ} {x : ℕ} (h : Splitting R count half j i w w')
  (hx : x < count * (2 * half))
include h hx

omit h in
lemma mod_class (j : ℕ) : (j * (2 * half) + half + x % half) % half = x % half ∧
    (j * (2 * half) + x % half) % half = x % half ∧ (j * (2 * half) + x % (2 * half)) % half = x % half := by
  have hh := pos_of_lt hx
  obtain ⟨hl, hhi⟩ := mod_place (mod_lt x hh) j
  refine ⟨hhi, hl, ?_⟩
  rw [mod_two_mul]
  split
  · rwa [Nat.add_comm (x % half), ← add_assoc]
  · rwa [Nat.add_zero]

lemma value_other (hcl : x % half ≠ i) (d : ℕ) : value count half p w' x d = value count half p w x d := by
  have hfa : ∀ k, factor half w' x d k = factor half w x d k := by
    intro k
    obtain ⟨hh, hl, hr⟩ := mod_class hx k
    rw [factor, factor, h.other _ (.inl (by rwa [hh])), h.other _ (.inl (by rwa [hl])),
      h.other _ (.inl (by rwa [hr]))]
  rw [value, value, h.diagonal x hx, if_pos (.inr hcl), braid_congr (fun k _ => hfa k) fun _ _ => rfl]

lemma factor_other {k : ℕ} (hse : k ≠ j) (hn : k ≠ j + 1) : factor half w x j k = factor half w' x (j + 1) k := by
  have hh := pos_of_lt hx
  have hm := mod_lt x hh
  rcases Nat.lt_or_ge k j with hl | hg
  · have hbe : (k + 1) * (2 * half) ≤ j * (2 * half) := Nat.mul_le_mul_right _ hl
    have hs : (k + 1) * (2 * half) = k * (2 * half) + 2 * half := by ring
    rw [factor, factor, if_pos hl, if_pos (by omega), h.other _ (.inr (.inl (by omega))),
      h.other _ (.inr (.inl (by omega)))]
  · have hbh : (j + 2) * (2 * half) ≤ k * (2 * half) := Nat.mul_le_mul_right _ (by omega)
    rw [factor, factor, if_neg (by omega), if_neg (by omega), h.other _ (.inr (.inr (by omega)))]

/-- **A split changes nothing of what the row stands for.** -/
theorem value_split (hR : R.Splits) (hw : w.Proper (count * (2 * half))) (hj : j < count)
    (hp : ∀ k, ∃ a b, p k = diag a b) (hi : i < half) (hcl : x % half = i) :
    value count half p w' x (j + 1) = value count half p w x j := by
  subst hcl
  set C := (splitOf R half j (x % half) w).correction (upper half x) with hC
  -- the split gate is the correction times the two gates with the pattern between them
  have hs : factor half w x j j = C * factor half w' x (j + 1) j := by
    have he := (rebuilds_splitOf hw hj hi hR).eq (upper half x)
    rw [factor, factor, if_neg (Nat.lt_irrefl j), if_pos (Nat.lt_succ_self j), h.high, h.low, ← he, square_class]
    split <;> rfl
  -- and the next gate takes the correction up
  have hbe : j + 1 < count → factor half w' x (j + 1) (j + 1) = factor half w x j (j + 1) * C := by
    intro hl
    rw [factor, factor, if_neg (by omega), if_neg (by omega), square_class, square_class, h.nextHigh hl,
      h.nextLow hl, hC]
    cases upper half x <;> rfl
  rw [value, value, h.diagonal x hx]
  rcases Nat.lt_or_ge (j + 1) count with hl | hg
  · have hco : C * p (j + 1) = p (j + 1) * C := by
      obtain ⟨a, b, hd⟩ := hp (j + 1)
      obtain ⟨_, _, -, -, -, hon, ho⟩ := exists_correction R half j (x % half) w
      rw [hd, hC]
      cases upper half x with
      | false => rw [ho, diag_comm]
      | true => rw [hon, diag_comm]
    rw [if_pos (.inl hl), braid_pass hl hs (hbe hl) hco fun k _ => factor_other h hx]
  · obtain rfl : count = j + 1 := by omega
    rw [if_neg (by simp), braid_last hs fun k hk => factor_other h hx (by omega) (by omega), mul_assoc]

end Value

end Split

/-! ### All splits -/

lemma foldlM_range {σ : Type} {f : σ → ℕ → Outcome σ} {P : ℕ → σ → Prop}
    (hs : ∀ k < m, ∀ s, P k s → ∃ s', f s k = .ok s' ∧ P (k + 1) s') {s : σ} (h0 : P 0 s) :
    ∃ s', (range m).foldlM f s = .ok s' ∧ P m s' := by
  induction m with
  | zero => exact ⟨s, rfl, h0⟩
  | succ m ih =>
    obtain ⟨s₁, hfo, h₁⟩ := ih fun k hk => hs k (Nat.lt_succ_of_lt hk)
    obtain ⟨s₂, hl, h₂⟩ := hs m (Nat.lt_succ_self m) s₁ h₁
    refine ⟨s₂, ?_, h₂⟩
    simp only [range_succ, foldlM_append, hfo, bind, Except.bind, foldlM_cons, hl]
    rfl

section Steps

variable {U : ℕ → Square} {count half : ℕ} {p : ℕ → ℕ → Square}

/-- In the middle of a step: the first `j` multiplexors were split, and the first `i` pairs of the next. -/
structure Midway (U : ℕ → Square) (count half : ℕ) (p : ℕ → ℕ → Square) (j i : ℕ) (w : Row ℝ) : Prop where
  proper : w.Proper (count * (2 * half))
  value : ∀ x < count * (2 * half), value count half (p x) w x (if x % half < i then j + 1 else j) = U x

lemma exists_midway (hR : R.Splits) (hp : ∀ x k, ∃ a b, p x k = diag a b) {j i : ℕ} (hj : j < count)
    (hi : i < half) (h : Midway U count half p j i w) :
    ∃ w', splitAt R count (2 * half) j i w = .ok w' ∧ Midway U count half p j (i + 1) w' := by
  obtain ⟨w', hw', hs⟩ := exists_splitAt hR h.proper hj hi
  refine ⟨w', hw', hs.proper, fun x hx => ?_⟩
  rw [← h.value x hx]
  by_cases hcl : x % half = i
  · rw [if_pos (by omega), if_neg (by omega), value_split hs hx hR h.proper hj (hp x) hi hcl]
  · rw [value_other hs hx hcl]
    congr 1
    split_ifs <;> omega

lemma exists_split (hR : R.Splits) (hp : ∀ x k, ∃ a b, p x k = diag a b) (h : Midway U count half p 0 0 w) :
    ∃ w', (range count).foldlM (fun w j =>
        (range half).foldlM (fun w i => splitAt R count (2 * half) j i w) w) w = .ok w' ∧
      Midway U count half p count 0 w' := by
  refine foldlM_range (P := fun j w => Midway U count half p j 0 w) (fun j hj w hw => ?_) h
  obtain ⟨w', hw', hm⟩ := foldlM_range
    (fun i hi w hw => exists_midway hR hp hj hi hw) hw
  refine ⟨w', hw', hm.proper, fun x hx => ?_⟩
  have hh := pos_of_lt hx
  rw [← hm.value x hx, if_neg (Nat.not_lt_zero _), if_pos (mod_lt x hh)]

end Steps

/-- What stands in front of the `j`-th gate of a row where the controls spell `x`, if the gates are still
selected by the first `e` controls. -/
def between (e x j : ℕ) : Square := if j = 0 then 1 else pattern (x.testBit (e + trailingZeros j))

lemma between_odd (e x j : ℕ) : between e x (2 * j + 1) = pattern (upper (2 ^ e) x) := by
  have hze : trailingZeros (2 * j + 1) = 0 := by rw [trailingZeros, dif_neg (by omega), if_neg (by omega)]
  rw [between, if_neg (by omega), hze, Nat.add_zero, Nat.testBit_eq_decide_div_mod_eq]
  rfl

lemma between_even (e x j : ℕ) : between e x (2 * j) = between (e + 1) x j := by
  rcases Nat.eq_zero_or_pos j with rfl | hj
  · rfl
  · have hze : trailingZeros (2 * j) = trailingZeros j + 1 := by
      rw [trailingZeros, dif_neg (by omega), if_pos (by omega), Nat.mul_div_cancel_left j (by decide)]
    rw [between, between, if_neg (by omega), if_neg (by omega), hze, Nat.add_right_comm, add_assoc]

lemma exists_between (e x j : ℕ) : ∃ a b, between e x j = diag a b := by
  rw [between]
  split
  · exact ⟨1, 1, diag_one.symm⟩
  · exact ⟨_, _, rfl⟩

/-- After `t` steps, the row stands for the gates `U`. -/
structure Stage (U : ℕ → Square) (m t : ℕ) (w : Row ℝ) : Prop where
  proper : w.Proper (2 ^ m)
  value : ∀ x < 2 ^ m, w.diagAt x * braid (fun j => w.square (j * 2 ^ (m - t) + x % 2 ^ (m - t)))
    (between (m - t) x) (2 ^ t) = U x

/-- **One step**: every multiplexor of the row becomes two with half the gates. -/
theorem exists_splitStep (hR : R.Splits) {U : ℕ → Square} {t : ℕ} (ht : t < m)
    (h : Stage U m t w) : ∃ w', splitStep R m t w = .ok w' ∧ Stage U m (t + 1) w' := by
  obtain ⟨e, he⟩ : ∃ e, m - t = e + 1 := ⟨m - t - 1, by omega⟩
  have hl : m - (t + 1) = e := by omega
  have hs : 2 ^ (m - t) = 2 * 2 ^ e := by rw [he, pow_succ']
  have hco : 2 ^ m = 2 ^ t * (2 * 2 ^ e) := by rw [← hs, ← pow_add]; congr 1; omega
  obtain ⟨hp, hv⟩ := h
  rw [hs, he, hco] at hv
  rw [hco] at hp
  have hst : Midway U (2 ^ t) (2 ^ e) (fun x => between (e + 1) x) 0 0 w := by
    refine ⟨hp, fun x hx => ?_⟩; rw [← hv x hx, if_neg (Nat.not_lt_zero _)]; rfl
  obtain ⟨w', hw', hm⟩ := exists_split hR (fun x k => exists_between (e + 1) x k) hst
  refine ⟨w', ?_, ?_, fun x hx => ?_⟩
  · rw [splitStep, hs, Nat.mul_div_cancel_left _ (by decide)]
    exact hw'
  · rw [hco]; exact hm.proper
  · rw [hco] at hx
    rw [hl, ← hm.value x hx, if_neg (Nat.not_lt_zero _), value, pow_succ']
    congr 1
    refine (braid_double (fun j hj => ?_) (fun j _ => between_odd e x j) fun j _ => between_even e x j).symm
    rw [factor, if_pos hj]
    congr 3 <;> ring

/-- **The row and the diagonal that a multiplexor comes down to**: where the controls spell `x`, the row with
the patterns between its gates, and the diagonal behind it, are the gate at `x`. -/
theorem exists_extract (hR : R.Splits) {gs : List (Mat (Cplx ℝ))}
    (hlen : gs.length = 2 ^ m) (hg : ∀ M ∈ gs, M.IsGate) :
    ∃ w, extract R gs (m + 1) = .ok w ∧ w.Proper (2 ^ m) ∧ ∀ x < 2 ^ m,
      w.diagAt x * braid w.square (between 0 x) (2 ^ m) = (gs.getD x default).asSquare := by
  have hst : Stage (fun x => (gs.getD x default).asSquare) m 0
      ⟨gs.toArray, Array.replicate (2 ^ (m + 1)) .one⟩ := by
    have hge : ∀ k, gs.toArray.getD k default = gs.getD k default := fun k => by
      rw [Array.getD_eq_getD_getElem?, getElem?_toArray, getD_eq_getElem?_getD]
    have ho : ∀ k < 2 ^ (m + 1), (Array.replicate (2 ^ (m + 1)) Cplx.one).getD k Cplx.zero = (Cplx.one : Cplx ℝ) :=
      fun k hk => by rw [Array.getD_eq_getD_getElem?, Array.getElem?_replicate, if_pos hk]; rfl
    refine ⟨⟨by simp [hlen], fun k hk => ?_, by rw [Array.size_replicate, pow_succ'], fun k hk => ?_⟩, fun x hx => ?_⟩
    · have hk' : k < gs.length := hlen.symm ▸ hk
      rw [hge, getD_eq_getElem?_getD, getElem?_eq_getElem hk', Option.getD_some]
      exact hg _ (getElem_mem hk')
    · rw [ho k (by rwa [pow_succ']), Cplx.value_one, norm_one]
    · have hx' : 2 * x + 1 < 2 ^ (m + 1) := by rw [pow_succ']; omega
      have hbr : ∀ f p : ℕ → Square, braid f p (2 ^ 0) = f 0 * p 0 := fun f p => mul_one _
      rw [Row.diagAt, ho _ (by omega), ho _ hx', Cplx.value_one, diag_one, one_mul, hbr, between, if_pos rfl,
        mul_one, Nat.zero_mul, Nat.zero_add, Nat.sub_zero, Nat.mod_eq_of_lt hx, Row.square, hge]
  obtain ⟨w, hw, hs⟩ := foldlM_range
   
    (fun t ht w hw => exists_splitStep hR ht hw) hst
  refine ⟨w, hw, hs.proper, fun x hx => ?_⟩
  have hv := hs.value x hx
  simp only [Nat.sub_self, pow_zero, Nat.mod_one, Nat.mul_one, Nat.add_zero] at hv
  exact hv

end QuantumCircuits.Multiplexor

end
