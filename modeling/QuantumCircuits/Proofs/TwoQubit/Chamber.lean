import QuantumCircuits.Proofs.Multiplexor.Emission
import Mathlib.Analysis.CStarAlgebra.Classes
import Mathlib.Analysis.Normed.Algebra.MatrixExponential
import Mathlib.Analysis.SpecialFunctions.Trigonometric.Series

/-!
# TwoQubit — Chamber

Coordinates of two-qubit gates, flipped into the chamber `π / 4 ≥ a ≥ b ≥ |c|`.  A flip puts quarter turns
around the interaction: on both qubits before it, which shifts one coordinate (`dressed_shift`), or on one qubit
before and on the other one behind it, which also negates the other two (`dressed_reflect`).  A single
reflection therefore leaves all coordinates mirrored, until a second one, or that of the last coordinate,
takes this back: `Chamber.held` is the operator with this in mind, and every step keeps it.
-/

/-! ### Pairs

Matrices on two qubits.  `Mat.asPair` reads a matrix of four rows, and `onPair s t` applies it to the qubits
`s` and `t`, the first of which is the lower digit; a Kronecker product acts on each of them
(`onPair_kronecker`).  `spin P a` is the exponential of `i a P` for a matrix `P` that is its own inverse
(`exp_eq_spin`), so the interaction of two qubits is a product of three spins and the exponential that it is
named for (`asPair_interaction_eq_exp`).
-/

noncomputable section

namespace QuantumCircuits

open Matrix Complex Finset
open scoped Kronecker
open Function (update)

/-- A matrix on two qubits, by the second qubit and then the first one. -/
abbrev Pair := Matrix (Bool × Bool) (Bool × Bool) ℂ

def place (i : Bool × Bool) : ℕ := 2 * i.1.toNat + i.2.toNat

lemma place_lt (i : Bool × Bool) : place i < 4 := by revert i; decide

namespace Mat

def asPair (M : Mat (Cplx ℝ)) : Pair := of fun i j => (M.get (place i) (place j)).value

def IsWide (M : Mat (Cplx ℝ)) : Prop := ∃ f, M = ofFn 4 4 f

lemma asPair_ofFn (f : ℕ → ℕ → Cplx ℝ) : (ofFn 4 4 f).asPair = of fun i j => (f (place i) (place j)).value := by
  ext i j; exact congrArg Cplx.value (get_ofFn f (place_lt i) (place_lt j))

variable {M N : Mat (Cplx ℝ)}

lemma asPair_mul (hM : M.IsWide) (hN : N.IsWide) : (M * N).asPair = M.asPair * N.asPair := by
  obtain ⟨f, rfl⟩ := hM
  obtain ⟨g, rfl⟩ := hN
  have hp : ofFn 4 4 f * ofFn 4 4 g = ofFn 4 4 fun i j =>
    dot 4 (fun k => (ofFn 4 4 f).get i k) fun k => (ofFn 4 4 g).get k j := rfl
  rw [hp, asPair_ofFn]
  ext i j
  simp [value_dot, sum_range_succ, mul_apply, Fintype.sum_prod_type, asPair, place]
  ring

lemma IsWide.mul (hM : M.IsWide) (hN : N.IsWide) : (M * N).IsWide := by
  obtain ⟨f, rfl⟩ := hM
  obtain ⟨g, rfl⟩ := hN
  exact ⟨fun i j => dot 4 (fun k => (ofFn 4 4 f).get i k) fun k => (ofFn 4 4 g).get k j, rfl⟩

lemma map_ofFn (g : Cplx ℝ → Cplx ℝ) (f : ℕ → ℕ → Cplx ℝ) : (ofFn 4 4 f).map g = ofFn 4 4 fun i j => g (f i j) := by
  simp [map, ofFn]

lemma IsWide.map (hM : M.IsWide) (g : Cplx ℝ → Cplx ℝ) : (M.map g).IsWide := by
  obtain ⟨f, rfl⟩ := hM; exact ⟨_, map_ofFn g f⟩

def IsSmall (M : Mat (Cplx ℝ)) : Prop := ∃ a b c d, M = square2 a b c d

lemma IsSmall.mul (hM : M.IsSmall) (hN : N.IsSmall) : (M * N).IsSmall := by
  obtain ⟨a, b, c, d, rfl⟩ := hM
  obtain ⟨a', b', c', d', rfl⟩ := hN
  exact ⟨_, _, _, _, square2_mul _ _ _ _ _ _ _ _⟩

end Mat

/-! ### Operators on two qubits -/

variable {s t : ℕ}

/-- Applies a matrix to the qubits `s` and `t`. -/
def onPair (s t : ℕ) (U : Pair) (V : Wave) : Wave := fun b =>
  ∑ j : Bool × Bool, U (b t, b s) j * V (update (update b s j.2) t j.1)

lemma onPair_onPair (hs : s ≠ t) (A B : Pair) (V : Wave) : onPair s t A (onPair s t B V) = onPair s t (A * B) V := by
  funext b
  simp only [onPair, mul_apply, mul_sum, sum_mul]
  rw [sum_comm]
  refine sum_congr rfl fun j _ => sum_congr rfl fun k _ => ?_
  simp only [Function.update_self, Function.update_of_ne hs, Function.update_comm hs, Function.update_idem]
  ring

lemma onPair_smul (z : ℂ) (A : Pair) (V : Wave) : onPair s t (z • A) V = z • onPair s t A V := by
  funext b; simp [onPair, Matrix.smul_apply, smul_eq_mul, Pi.smul_apply, mul_sum, mul_assoc]

lemma onPair_kronecker (hs : s ≠ t) (L R : Square) (V : Wave) :
    onPair s t (L ⊗ₖ R) V = select t (fun _ => L) (select s (fun _ => R) V) := by
  funext b
  simp [onPair, select, Fintype.sum_prod_type, Function.update_of_ne hs, Function.update_comm hs]
  ring

/-! ### Spins -/

/-- The exponential of `i a P`, for `P` that is its own inverse. -/
def spin (P : Pair) (a : ℝ) : Pair := (Real.cos a : ℂ) • 1 + (Real.sin a * I : ℂ) • P

section Spin

variable {P Q G : Pair} {a b : ℝ}

lemma spin_add (hP : P * P = 1) : spin P (a + b) = spin P a * spin P b := by
  simp only [spin, add_mul, mul_add, smul_mul_assoc, mul_smul_comm, one_mul, mul_one, hP, Real.cos_add, Real.sin_add]
  match_scalars
  · linear_combination (-sin a * sin b) * I_sq
  · ring

lemma spin_mul (h : P * G = G * Q) : spin P a * G = G * spin Q a := by
  rw [spin, spin, add_mul, mul_add, smul_mul_assoc, smul_mul_assoc, mul_smul_comm, mul_smul_comm, h, one_mul, mul_one]

lemma spin_neg_left : spin (-P) a = spin P (-a) := by simp [spin]

open scoped Matrix.Norms.Operator in
lemma exp_eq_spin (hP : P * P = 1) : NormedSpace.exp ((a * I : ℂ) • P) = spin P a := by
  have he : ∀ k, P ^ (2 * k) = 1 := fun k => by rw [pow_mul, sq, hP, one_pow]
  have hco := (hasSum_cos' a).smul_const (1 : Pair)
  have hs := ((hasSum_sin' a).mul_right I).smul_const P
  have hsu : HasSum (fun k : ℕ => ((k.factorial : ℂ)⁻¹) • ((a * I : ℂ) • P) ^ k) (spin P a) := by
    rw [spin, ofReal_cos, ofReal_sin]
    refine HasSum.even_add_odd ?_ ?_
    · convert hco using 2 with k
      rw [smul_pow, he, smul_smul, mul_comm, div_eq_mul_inv]
    · convert hs using 2 with k
      rw [smul_pow, pow_succ P, he, one_mul, smul_smul, div_mul_cancel₀ _ I_ne_zero, mul_comm, div_eq_mul_inv]
  exact (NormedSpace.exp_series_hasSum_exp' (𝕂 := ℂ) ((a * I : ℂ) • P)).unique hsu

end Spin

/-! ### Pauli gates -/

def pauli (p : Axis) : Square :=
  if p = .x then Mat.pauliX.asSquare else if p = .y then Mat.pauliY.asSquare else Mat.pauliZ.asSquare

lemma pauli_x : pauli .x = square 0 1 1 0 := by simp [pauli, Mat.pauliX]

lemma pauli_y : pauli .y = square 0 (-I) I 0 := by simp [pauli, Mat.pauliY]

lemma pauli_z : pauli .z = square 1 0 0 (-1) := by simp [pauli, Mat.pauliZ]

lemma pauli_mul_self (p : Axis) : pauli p * pauli p = 1 := by
  cases p <;> simp [pauli_x, pauli_y, pauli_z, square_mul, one_eq_square]

lemma pauli_mul_pauli {p q : Axis} (h : p ≠ q) : pauli p * pauli q = -(pauli q * pauli p) := by
  have hn : ∀ a b c d, -square a b c d = square (-a) (-b) (-c) (-d) := fun a b c d => by
    simpa using smul_square (-1) a b c d
  cases p <;> cases q <;> first | exact absurd rfl h | simp [pauli_x, pauli_y, pauli_z, square_mul, hn]

/-- The Pauli gate of an axis on both qubits. -/
def twin (p : Axis) : Pair := pauli p ⊗ₖ pauli p

lemma twin_mul_self (p : Axis) : twin p * twin p = 1 := by
  rw [twin, ← mul_kronecker_mul, pauli_mul_self, one_kronecker_one]

lemma twin_mul_twin (p q : Axis) : twin p * twin q = twin q * twin p := by
  by_cases h : p = q
  · rw [h]
  · rw [twin, twin, ← mul_kronecker_mul, ← mul_kronecker_mul, pauli_mul_pauli h]; ext i j; simp

/-- The interaction by an angle for each axis. -/
def canonical (w : Axis → ℝ) : Pair := spin (twin .x) (w .x) * spin (twin .y) (w .y) * spin (twin .z) (w .z)

lemma spin_twin_comm (p q : Axis) (a b : ℝ) : spin (twin p) a * spin (twin q) b = spin (twin q) b * spin (twin p) a :=
  spin_mul (spin_mul (twin_mul_twin q p)).symm

lemma canonical_update (w : Axis → ℝ) (p : Axis) (a : ℝ) :
    canonical (update w p (w p + a)) = spin (twin p) a * canonical w := by
  have ha : ∀ b, spin (twin p) (b + a) = spin (twin p) a * spin (twin p) b := fun b => by
    rw [add_comm, spin_add (twin_mul_self p)]
  have hco := fun q b => spin_twin_comm q p b a
  have hn : ∀ q, q ≠ p → update w p (w p + a) q = w q := fun q hq => Function.update_of_ne hq _ w
  cases p with
  | x =>
    rw [canonical, Function.update_self, hn .y nofun, hn .z nofun, ha, canonical]
    simp [mul_assoc]
  | y =>
    rw [canonical, Function.update_self, hn .x nofun, hn .z nofun, ha, ← mul_assoc, hco, canonical]
    simp [mul_assoc]
  | z =>
    rw [canonical, Function.update_self, hn .x nofun, hn .y nofun, ha, mul_assoc, ← mul_assoc _ (spin (twin .z) a),
      hco, ← mul_assoc, ← mul_assoc, hco, canonical]
    simp [mul_assoc]

/-- The angles with those of the other axes negated. -/
def mirror (p : Axis) (w : Axis → ℝ) (q : Axis) : ℝ := if q = p then w q else -w q

lemma left_mul_spin (p q : Axis) (w : Axis → ℝ) :
    (pauli p ⊗ₖ 1) * spin (twin q) (w q) = spin (twin q) (mirror p w q) * (pauli p ⊗ₖ 1) := by
  symm
  by_cases h : q = p
  · rw [mirror, if_pos h]
    refine spin_mul ?_
    rw [h, twin, ← mul_kronecker_mul, ← mul_kronecker_mul, one_mul, mul_one]
  · rw [mirror, if_neg h, ← spin_neg_left]
    refine spin_mul ?_
    rw [twin, neg_mul, ← mul_kronecker_mul, ← mul_kronecker_mul, pauli_mul_pauli h, one_mul, mul_one]
    ext i j
    simp

lemma left_mul_canonical (p : Axis) (w : Axis → ℝ) :
    (pauli p ⊗ₖ 1) * canonical w = canonical (mirror p w) * (pauli p ⊗ₖ 1) := by
  rw [canonical, ← mul_assoc, ← mul_assoc, left_mul_spin, mul_assoc _ _ (spin (twin .y) _), left_mul_spin,
    ← mul_assoc, mul_assoc _ _ (spin (twin .z) _), left_mul_spin, ← mul_assoc, canonical]

lemma asPair_interaction (a b c : ℝ) :
    (Weyl.interaction a b c).asPair = spin (twin .x) a * spin (twin .y) b * spin (twin .z) c := by
  have he : exp (-(c * I)) = Complex.cos c - Complex.sin c * I := by
    rw [← neg_mul, exp_mul_I, Complex.cos_neg, Complex.sin_neg]; ring
  have hI : ∀ u v : ℂ, u * I * (v * I) = -(u * v) := fun u v => by linear_combination u * v * I_sq
  rw [Weyl.interaction, Mat.asPair_ofFn]
  ext ⟨i, i'⟩ ⟨j, j'⟩
  cases i <;> cases i' <;> cases j <;> cases j' <;>
    simp [place, spin, twin, pauli_x, pauli_y, pauli_z, mul_apply, Fintype.sum_prod_type, exp_mul_I, one_apply,
      Complex.cos_sub, Complex.sin_sub, Complex.cos_add, Complex.sin_add, he, hI, -mul_eq_mul_right_iff]
  all_goals ring

/-- **The interaction is an exponential.** -/
theorem asPair_interaction_eq_exp (a b c : ℝ) : (Weyl.interaction a b c).asPair =
    NormedSpace.exp (I • (a • twin .x + b • twin .y + c • twin .z)) := by
  have hp : ∀ (x : ℝ) p, I • x • twin p = (x * I : ℂ) • twin p := fun x p => by
    rw [← Complex.coe_smul, smul_smul, mul_comm]
  have hco : ∀ (x y : ℝ) p q, Commute ((x * I : ℂ) • twin p) ((y * I : ℂ) • twin q) := fun x y p q =>
    ((show Commute (twin p) (twin q) from twin_mul_twin p q).smul_left _).smul_right _
  rw [smul_add, smul_add, hp, hp, hp, exp_add_of_commute _ _ ((hco _ _ _ _).add_left (hco _ _ _ _)),
    exp_add_of_commute _ _ (hco _ _ _ _), exp_eq_spin (twin_mul_self _), exp_eq_spin (twin_mul_self _),
    exp_eq_spin (twin_mul_self _), asPair_interaction]

namespace Weyl

/-- The operator that a decomposition is meant to stand for. -/
def Decomposition.operator (w : Decomposition ℝ) : Pair :=
  exp (w.phase * I) • ((w.k₁l.asSquare ⊗ₖ w.k₁r.asSquare) *
    NormedSpace.exp (I • (w.a • twin .x + w.b • twin .y + w.c • twin .z)) * (w.k₂l.asSquare ⊗ₖ w.k₂r.asSquare))

end Weyl

/-! ### Chamber -/

open scoped Kronecker
open Function (update)
open Real (pi)

/-! ### Quarter turns around an interaction -/

/-- The interaction between one-qubit gates, with a phase. -/
def dressed (l r l' r' : Square) (phase : ℝ) (w : Axis → ℝ) : Pair :=
  exp (phase * I) • ((l ⊗ₖ r) * canonical w * (l' ⊗ₖ r'))

section Dressed

variable {l r l' r' : Square} {phase theta a : ℝ} {w : Axis → ℝ}

lemma spin_of_cos {P : Pair} (hco : Real.cos a = 0) (he : exp (theta * I) = -(Real.sin a * I)) :
    spin P a = exp (theta * I) • -P := by
  rw [spin, hco, he, ofReal_zero, zero_smul, zero_add, smul_neg, neg_smul, neg_neg]

lemma dressed_shift (p : Axis) (hco : Real.cos a = 0) (he : exp (theta * I) = -(Real.sin a * I)) :
    dressed (l * I • pauli p) (r * I • pauli p) l' r' (phase + theta) w =
      dressed l r l' r' phase (update w p (w p + a)) := by
  have ht : (l * I • pauli p) ⊗ₖ (r * I • pauli p) = (l ⊗ₖ r) * -twin p := by
    rw [mul_kronecker_mul, smul_kronecker, kronecker_smul, smul_smul, I_mul_I, neg_smul, one_smul, twin]
  rw [dressed, dressed, canonical_update, spin_of_cos hco he, ht, ofReal_add, add_mul, exp_add]
  simp [mul_assoc, smul_smul]

lemma canonical_mul_twin (p : Axis) (w : Axis → ℝ) : canonical w * twin p = twin p * canonical w := by
  have hs : ∀ q a, spin (twin q) a * twin p = twin p * spin (twin q) a := fun q a => spin_mul (twin_mul_twin q p)
  rw [canonical, mul_assoc, hs, ← mul_assoc, mul_assoc _ _ (twin p), hs, ← mul_assoc, hs]
  simp [mul_assoc]

lemma dressed_reflect (p : Axis) (hco : Real.cos a = 0) (he : exp (theta * I) = -(Real.sin a * I)) :
    dressed (l * I • pauli p) r l' (I • pauli p * r') (phase + theta) w =
      dressed l r l' r' phase (update (mirror p w) p (w p + a)) := by
  have hl : (l * I • pauli p) ⊗ₖ r = I • ((l ⊗ₖ r) * (pauli p ⊗ₖ 1)) := by
    rw [← mul_kronecker_mul, mul_one, mul_smul_comm, smul_kronecker]
  have hr : l' ⊗ₖ (I • pauli p * r') = I • ((1 ⊗ₖ pauli p) * (l' ⊗ₖ r')) := by
    rw [← mul_kronecker_mul, one_mul, smul_mul_assoc, kronecker_smul]
  have ht : (pauli p ⊗ₖ 1) * (1 ⊗ₖ pauli p) = twin p := by rw [← mul_kronecker_mul, mul_one, one_mul, twin]
  have hm : mirror p w p = w p := if_pos rfl
  have hi : (pauli p ⊗ₖ 1) * canonical w * (1 ⊗ₖ pauli p) = twin p * canonical (mirror p w) := by
    rw [left_mul_canonical, mul_assoc, ht, canonical_mul_twin]
  rw [dressed, dressed, ← hm, canonical_update, spin_of_cos hco he, hl, hr, ofReal_add, add_mul, exp_add]
  calc _ = (exp (phase * I) * exp (theta * I)) •
        -((l ⊗ₖ r) * ((pauli p ⊗ₖ 1) * canonical w * (1 ⊗ₖ pauli p)) * (l' ⊗ₖ r')) := by
        simp [smul_smul, I_mul_I, neg_smul, one_smul, smul_neg, mul_assoc]
    _ = _ := by
        rw [hi]
        simp [mul_assoc, smul_smul, neg_mul, mul_neg, smul_neg]

end Dressed

/-! ### The steps into the chamber -/

namespace Weyl

def flipOf (p : Axis) : Mat (Cplx ℝ) := if p = .x then flipX else if p = .y then flipY else flipZ

lemma isSmall_flipOf (p : Axis) : (flipOf p).IsSmall := by
  cases p <;> exact ⟨_, _, _, _, rfl⟩

lemma asSquare_flipOf (p : Axis) : (flipOf p).asSquare = I • pauli p := by
  cases p <;> simp [flipOf, flipX, flipY, flipZ, pauli_x, pauli_y, pauli_z, smul_square]
  congr 1
  apply Complex.ext <;> simp

namespace Chamber

variable {c c' : Chamber ℝ} {s s' a theta : ℝ}

/-- The gates around the coordinates have two rows and columns. -/
structure Small (c : Chamber ℝ) : Prop where
  k₁l : c.k₁l.IsSmall
  k₁r : c.k₁r.IsSmall
  k₂l : c.k₂l.IsSmall
  k₂r : c.k₂r.IsSmall

def along (c : Chamber ℝ) (p : Axis) : ℝ := if p = .x then c.y else if p = .y then c.x else c.z

/-- The operator, with all coordinates multiplied by a sign. -/
def held (s : ℝ) (c : Chamber ℝ) : Pair :=
  dressed c.k₁l.asSquare c.k₁r.asSquare c.k₂l.asSquare c.k₂r.asSquare c.phase fun p => s * c.along p

/-- Coordinates are mirrored after a single reflection. -/
def sign (c : Chamber ℝ) : ℝ := if c.reflected = 1 then -1 else 1

/-- A phase that goes with a quarter turn, or three of them. -/
structure Quarter (theta a : ℝ) : Prop where
  cos : Real.cos a = 0
  exp : exp (theta * I) = -(Real.sin a * I)

lemma exp_quarter : Complex.exp ((pi / 2 : ℝ) * I) = I := by
  rw [exp_mul_I, ← ofReal_cos, ← ofReal_sin, Real.cos_pi_div_two, Real.sin_pi_div_two]; simp

lemma quarter_one : Quarter (pi / 2) (-(pi / 2)) where
  cos := by rw [Real.cos_neg, Real.cos_pi_div_two]
  exp := by rw [exp_quarter, Real.sin_neg, Real.sin_pi_div_two]; simp

lemma quarter_three : Quarter (pi / 2) (3 * (pi / 2)) := by
  have h : 3 * (pi / 2) = pi + pi / 2 := by ring
  refine ⟨by rw [h, Real.cos_add]; simp, ?_⟩
  rw [exp_quarter, h, Real.sin_add]
  simp

lemma Quarter.neg (h : Quarter theta a) : Quarter (-theta) (-a) where
  cos := by rw [Real.cos_neg, h.cos]
  exp := by
    have hs : (Real.sin a : ℂ) ^ 2 = 1 := by rw [← ofReal_pow, Real.sin_sq, h.cos]; norm_num
    rw [ofReal_neg, neg_mul, exp_neg, h.exp, Real.sin_neg, ofReal_neg, neg_mul, neg_neg]
    refine inv_eq_of_mul_eq_one_right ?_
    linear_combination hs - (Real.sin a : ℂ) ^ 2 * I_sq

lemma held_of_shift (p : Axis) (hc : c.Small) (hl : c'.k₁l = c.k₁l * flipOf p) (hr : c'.k₁r = c.k₁r * flipOf p)
    (hl' : c'.k₂l = c.k₂l) (hr' : c'.k₂r = c.k₂r) (hp : c'.phase = c.phase + theta) (h : Quarter theta a)
    (hw : (s * c.along ·) = update (s' * c'.along ·) p (s' * c'.along p + a)) :
    c'.Small ∧ held s' c' = held s c := by
  have hfl := isSmall_flipOf p
  refine ⟨⟨hl ▸ hc.k₁l.mul hfl, hr ▸ hc.k₁r.mul hfl, hl' ▸ hc.k₂l, hr' ▸ hc.k₂r⟩, ?_⟩
  rw [held, hl, hr, hl', hr', hp, Mat.asSquare_mul hc.k₁l hfl, Mat.asSquare_mul hc.k₁r hfl, asSquare_flipOf,
    dressed_shift p h.cos h.exp, held, hw]

lemma held_of_reflect (p : Axis) (hc : c.Small) (hl : c'.k₁l = c.k₁l * flipOf p) (hr : c'.k₁r = c.k₁r)
    (hl' : c'.k₂l = c.k₂l) (hr' : c'.k₂r = flipOf p * c.k₂r) (hp : c'.phase = c.phase + theta)
    (h : Quarter theta a)
    (hw : (s * c.along ·) = update (mirror p (s' * c'.along ·)) p (s' * c'.along p + a)) :
    c'.Small ∧ held s' c' = held s c := by
  have hfl := isSmall_flipOf p
  refine ⟨⟨hl ▸ hc.k₁l.mul hfl, hr ▸ hc.k₁r, hl' ▸ hc.k₂l, hr' ▸ hfl.mul hc.k₂r⟩, ?_⟩
  rw [held, hl, hr, hl', hr', hp, Mat.asSquare_mul hc.k₁l hfl, Mat.asSquare_mul hfl hc.k₂r, asSquare_flipOf,
    dressed_reflect p h.cos h.exp, held, hw]

lemma held_lowerX (hc : c.Small) : c.lowerX.Small ∧ held 1 c.lowerX = held 1 c := by
  rw [lowerX]
  split
  · refine held_of_shift .y hc rfl rfl rfl rfl (by simp) quarter_three (funext fun q => ?_)
    cases q <;> simp [along]
    norm_num
  · exact ⟨hc, rfl⟩

lemma held_lowerY (hc : c.Small) : c.lowerY.Small ∧ held 1 c.lowerY = held 1 c := by
  rw [lowerY]
  split
  · refine held_of_shift .x hc rfl rfl rfl rfl (by simp) quarter_three (funext fun q => ?_)
    cases q <;> simp [along]
    norm_num
  · exact ⟨hc, rfl⟩

lemma held_reflectX (hc : c.Small) (h : c.reflected = 0) :
    c.reflectX.Small ∧ held c.reflectX.sign c.reflectX = held 1 c := by
  rw [reflectX]
  split
  · simp only [sign, h]
    refine held_of_reflect .y hc rfl rfl rfl rfl (by simp [sub_eq_add_neg]) quarter_one.neg (funext fun q => ?_)
    cases q <;> simp [along, mirror]
  · rw [sign, h, if_neg zero_ne_one]; exact ⟨hc, rfl⟩

-- the second reflection takes back what the first one mirrors
lemma held_reflectY (hc : c.Small) (h : c.reflected ≤ 1) :
    c.reflectY.Small ∧ held c.reflectY.sign c.reflectY = held c.sign c := by
  rw [reflectY]
  split
  · rcases Nat.le_one_iff_eq_zero_or_eq_one.mp h with h | h <;> simp [sign, h]
    · refine held_of_reflect .x hc rfl rfl rfl rfl ?_ quarter_one.neg (funext fun q => ?_)
      · simp; ring
      · cases q <;> simp [along, mirror]
    · refine held_of_reflect .x hc rfl rfl rfl rfl (by simp) quarter_one (funext fun q => ?_)
      cases q <;> simp [along, mirror]
      ring
  · exact ⟨hc, rfl⟩

lemma held_lowerZ (hc : c.Small) : c.lowerZ.Small ∧ held c.sign c.lowerZ = held c.sign c := by
  rw [lowerZ]
  split
  · by_cases h : c.reflected = 1 <;> simp [sign, h]
    · refine held_of_shift .z hc rfl rfl rfl rfl ?_ quarter_three.neg (funext fun q => ?_)
      · simp; ring
      · cases q <;> simp [along]
        norm_num
        ring
    · refine held_of_shift .z hc rfl rfl rfl rfl (by simp) quarter_three (funext fun q => ?_)
      cases q <;> simp [along]
      norm_num
  · exact ⟨hc, rfl⟩

lemma held_reflectZ (hc : c.Small) : c.reflectZ.Small ∧ held 1 c.reflectZ = held c.sign c := by
  rw [reflectZ, sign]
  split
  · refine held_of_reflect .z hc rfl rfl rfl rfl (by simp) quarter_one (funext fun q => ?_)
    cases q <;> simp [along, mirror]
    ring
  · exact ⟨hc, rfl⟩

lemma held_centerZ (hc : c.Small) : c.centerZ.Small ∧ held 1 c.centerZ = held 1 c := by
  rw [centerZ]
  split
  · refine held_of_shift .z hc rfl rfl rfl rfl (by simp [sub_eq_add_neg]) quarter_one.neg (funext fun q => ?_)
    cases q <;> simp [along]
  · exact ⟨hc, rfl⟩

/-- **Flipping into the chamber keeps the operator.** -/
theorem held_flip (hc : c.Small) (h : c.reflected = 0) : c.flip.Small ∧ held 1 c.flip = held 1 c := by
  obtain ⟨hs, hx⟩ := held_lowerX hc
  obtain ⟨hs, hy⟩ := held_lowerY hs
  have hn : c.lowerX.lowerY.reflected = 0 := by
    rw [lowerY, lowerX]
    split <;> split <;> exact h
  have ho : c.lowerX.lowerY.reflectX.reflected ≤ 1 := by
    rw [reflectX]
    split <;> simp [hn]
  obtain ⟨hs, hr⟩ := held_reflectX hs hn
  obtain ⟨hs, hry⟩ := held_reflectY hs ho
  obtain ⟨hs, hz⟩ := held_lowerZ hs
  obtain ⟨hs, hrz⟩ := held_reflectZ hs
  obtain ⟨hs, hcz⟩ := held_centerZ hs
  have hsi : ∀ c : Chamber ℝ, c.lowerZ.sign = c.sign := fun c => by
    rw [lowerZ]
    split <;> rfl
  refine ⟨hs, ?_⟩
  rw [flip, hcz, hrz, hsi, hz, hry, hr, hy, hx]

/-- The coordinates and gates of the chamber. -/
def decomposition (c : Chamber ℝ) : Decomposition ℝ := ⟨c.y, c.x, c.z, c.k₁l, c.k₁r, c.k₂l, c.k₂r, c.phase⟩

lemma operator_decomposition (c : Chamber ℝ) : c.decomposition.operator = held 1 c := by
  rw [Decomposition.operator, ← asPair_interaction_eq_exp, asPair_interaction, held, dressed, canonical]
  simp [decomposition, along]

/-! ### The coordinates -/

/-- A coordinate without its three quarter turns. -/
def lowered (w : ℝ) : ℝ := if pi / 2 < w then w - 3 * (pi / 2) else w

/-- How far a coordinate is off the quarter turns, which is what the flips leave of it. -/
def folded (w : ℝ) : ℝ := min (lowered w) (pi / 2 - lowered w)

/-- A coordinate that is at most a quarter turn off zero. -/
def Near (w : ℝ) : Prop := (0 ≤ w ∧ w ≤ pi / 2) ∨ (3 * (pi / 2) ≤ w ∧ w < 2 * pi)

section Near

variable {w : ℝ} (h : Near w)
include h

lemma Near.lowered : 0 ≤ lowered w ∧ lowered w ≤ pi / 2 := by
  rw [Chamber.lowered]
  rcases h with ⟨h0, h1⟩ | ⟨h0, h1⟩
  · rw [if_neg (not_lt.mpr h1)]; exact ⟨h0, h1⟩
  · rw [if_pos (by linarith)]
    constructor <;> linarith

lemma Near.offCenter : offCenter w = folded w := by
  have hm : ∀ m : ℝ, Scalar.min m (pi / 2 - m) = min m (pi / 2 - m) := fun m => by
    rw [Scalar.min, Scalar.lt_real, min_def]; grind
  have hce : Weyl.offCenter w = min (w - pi / 2 * ⌊w / (pi / 2)⌋) (pi / 2 - (w - pi / 2 * ⌊w / (pi / 2)⌋)) := by
    rw [Weyl.offCenter]; simp [Scalar.remainder_real, Scalar.pi_real, Scalar.real_two, hm]
  rw [hce, folded, Chamber.lowered]
  rcases h with ⟨h0, h1⟩ | ⟨h0, h1⟩
  · rw [if_neg (not_lt.mpr h1)]
    rcases h1.eq_or_lt with rfl | h1
    · rw [div_self (by positivity), Int.floor_one]
      simp [min_comm]
    · have hfl : ⌊w / (pi / 2)⌋ = 0 := Int.floor_eq_zero_iff.mpr ⟨by positivity, by rwa [div_lt_one (by positivity)]⟩
      simp [hfl]
  · have hfl : ⌊w / (pi / 2)⌋ = 3 := by
      rw [Int.floor_eq_iff, le_div_iff₀ (by positivity), div_lt_iff₀ (by positivity)]
      constructor <;> push_cast <;> linarith
    rw [if_pos (by linarith), hfl]
    push_cast
    rw [mul_comm (pi / 2)]

end Near

lemma folded_of_le {u : ℝ} (h : 0 ≤ u ∧ u ≤ pi / 2) : (if pi / 4 < u then pi / 2 - u else u) = min u (pi / 2 - u) ∧
      |if pi / 4 < u then u - pi / 2 else u| = min u (pi / 2 - u) := by
  by_cases hu : pi / 4 < u
  · rw [if_pos hu, if_pos hu, min_eq_right (by linarith), abs_of_nonpos (by linarith)]
    exact ⟨rfl, neg_sub _ _⟩
  · rw [if_neg hu, if_neg hu, min_eq_left (by linarith), abs_of_nonneg h.1]
    exact ⟨rfl, rfl⟩

lemma three_real : (3.0 : ℝ) = 3 := by norm_num

def coordinates (c : Chamber ℝ) : ℝ × ℝ × ℝ := (c.x, c.y, c.z)

/-- Every step changes one coordinate. -/
lemma coordinates_steps (c : Chamber ℝ) : c.lowerX.coordinates = (lowered c.x, c.y, c.z) ∧
    c.lowerY.coordinates = (c.x, lowered c.y, c.z) ∧
    c.reflectX.coordinates = (if pi / 4 < c.x then pi / 2 - c.x else c.x, c.y, c.z) ∧
    c.reflectY.coordinates = (c.x, if pi / 4 < c.y then pi / 2 - c.y else c.y, c.z) ∧
    c.lowerZ.coordinates = (c.x, c.y, lowered c.z) ∧
    c.reflectZ.coordinates = (c.x, c.y, if c.reflected = 1 then pi / 2 - c.z else c.z) ∧
    c.centerZ.coordinates = (c.x, c.y, if pi / 4 < c.z then c.z - pi / 2 else c.z) := by
  simp only [lowerX, lowerY, lowerZ, reflectX, reflectY, reflectZ, centerZ, lowered, Scalar.lt_real, Scalar.pi_real,
    Scalar.real_two, Scalar.real_four, three_real, decide_eq_true_eq]
  refine ⟨?_, ?_, ?_, ?_, ?_, ?_, ?_⟩ <;> split <;> rfl

/-- The coordinates are those of the chamber. -/
structure Inside (c : Chamber ℝ) : Prop where
  y_le : c.y ≤ pi / 4
  x_le : c.x ≤ c.y
  z_le : |c.z| ≤ c.x

/-- **The flips fold every coordinate.** -/
theorem flip_coordinates (hx : Near c.x) (hy : Near c.y) (hz : Near c.z) :
    c.flip.x = folded c.x ∧ c.flip.y = folded c.y ∧ |c.flip.z| = folded c.z := by
  have hs := coordinates_steps
  simp only [coordinates, Prod.mk.injEq] at hs
  obtain ⟨⟨hx1, hy1, hz1⟩, -⟩ := hs c
  obtain ⟨-, ⟨hx2, hy2, hz2⟩, -⟩ := hs c.lowerX
  obtain ⟨-, -, ⟨hx3, hy3, hz3⟩, -⟩ := hs c.lowerX.lowerY
  obtain ⟨-, -, -, ⟨hx4, hy4, hz4⟩, -⟩ := hs c.lowerX.lowerY.reflectX
  obtain ⟨-, -, -, -, ⟨hx5, hy5, hz5⟩, -⟩ := hs c.lowerX.lowerY.reflectX.reflectY
  obtain ⟨-, -, -, -, -, ⟨hx6, hy6, hz6⟩, -⟩ := hs c.lowerX.lowerY.reflectX.reflectY.lowerZ
  obtain ⟨-, -, -, -, -, -, hx7, hy7, hz7⟩ := hs c.lowerX.lowerY.reflectX.reflectY.lowerZ.reflectZ
  refine ⟨?_, ?_, ?_⟩
  · rw [flip, hx7, hx6, hx5, hx4, hx3, hx2, hx1, (folded_of_le hx.lowered).1, folded]
  · rw [flip, hy7, hy6, hy5, hy4, hy3, hy2, hy1, (folded_of_le hy.lowered).1, folded]
  · rw [flip, hz7, hz6, hz5, hz4, hz3, hz2, hz1]
    obtain ⟨h0, h1⟩ := hz.lowered
    split
    · rw [(folded_of_le ⟨sub_nonneg.mpr h1, by linarith⟩).2, sub_sub_cancel, min_comm, folded]
    · rw [(folded_of_le ⟨h0, h1⟩).2, folded]

end Chamber

/-! ### Reordering -/

lemma near_coordinate {d : ℕ → ℝ} (hd : ∀ i < 3, |d i| ≤ pi / 2) {i : ℕ} (hi : i < 3) : Chamber.Near (coordinate d i) := by
  have hp := Real.pi_pos
  obtain ⟨h0, h0'⟩ := abs_le.mp (hd 0 (by norm_num))
  obtain ⟨h1, h1'⟩ := abs_le.mp (hd 1 (by norm_num))
  obtain ⟨h2, h2'⟩ := abs_le.mp (hd 2 (by norm_num))
  have hs : |(d i + lastPhase d) / 2| ≤ pi / 2 := by
    rw [abs_le, lastPhase]
    interval_cases i <;> constructor <;> linarith
  have hco : coordinate d i = (d i + lastPhase d) / 2 - 2 * pi * ⌊(d i + lastPhase d) / 2 / (2 * pi)⌋ := by
    simp [coordinate]
  rw [hco]
  generalize (d i + lastPhase d) / 2 = u at hs
  obtain ⟨hl, hr⟩ := abs_le.mp hs
  rcases le_or_gt 0 u with hu | hu
  · have hfl : ⌊u / (2 * pi)⌋ = 0 :=
      Int.floor_eq_zero_iff.mpr ⟨by positivity, by rw [div_lt_one (by positivity)]; linarith⟩
    rw [hfl]
    exact .inl ⟨by simpa using hu, by simpa using hr⟩
  · have hfl : ⌊u / (2 * pi)⌋ = -1 := by
      rw [Int.floor_eq_iff, le_div_iff₀ (by positivity), div_lt_iff₀ (by positivity)]
      constructor <;> push_cast <;> linarith
    rw [hfl]
    exact .inr ⟨by push_cast; linarith, by push_cast; linarith⟩

lemma exists_order (d : ℕ → ℝ) : ∃ i j k, order d = (i, j, k) ∧ [k, i, j].Perm [0, 1, 2] ∧
    offCenter (coordinate d k) ≤ offCenter (coordinate d i) ∧
    offCenter (coordinate d i) ≤ offCenter (coordinate d j) := by
  set key : ℕ → ℝ × ℕ := fun i => (offCenter (coordinate d i), i)
  set le : ℝ × ℕ → ℝ × ℕ → Bool := fun p q => Scalar.le p.1 q.1
  have hpe : (([0, 1, 2].map key).mergeSort le).Perm ([0, 1, 2].map key) := List.mergeSort_perm _ _
  have hs : (([0, 1, 2].map key).mergeSort le).Pairwise fun p q => le p q = true :=
    List.pairwise_mergeSort (fun p q r => by simpa [le] using le_trans)
      (fun p q => by simpa [le] using le_total p.1 q.1) _
  have hk : ∀ p ∈ ([0, 1, 2].map key).mergeSort le, p = key p.2 := fun p hp => by
    obtain ⟨i, -, rfl⟩ := List.mem_map.mp (hpe.mem_iff.mp hp); rfl
  obtain ⟨p, q, r, hl⟩ := List.length_eq_three.mp (hpe.length_eq.trans rfl)
  have ho : order d = (q.2, r.2, p.2) := by simp only [key, le] at hl; rw [order, hl]; rfl
  have hpl := hpe.map Prod.snd
  rw [hl] at hs hk hpl
  simp only [List.pairwise_cons, List.mem_cons, forall_eq_or_imp] at hs hk
  refine ⟨q.2, r.2, p.2, ho, hpl, ?_, ?_⟩
  · have h := hs.1.1
    rw [hk.1, hk.2.1] at h
    simpa [le] using h
  · have h := hs.2.1.1
    rw [hk.2.1, hk.2.2.1] at h
    simpa [le] using h

/-- **Coordinates are brought into the chamber.**  For phases of at most a quarter turn, and whatever the gates
around the coordinates, reordering and flipping gives `π / 4 ≥ a ≥ b ≥ |c|`, and the flips keep the operator. -/
theorem flip_reaches_chamber {d : ℕ → ℝ} (hd : ∀ i < 3, |d i| ≤ pi / 2) {k₁l k₁r k₂l k₂r : Mat (Cplx ℝ)}
    (hl : k₁l.IsSmall) (hr : k₁r.IsSmall) (hl' : k₂l.IsSmall) (hr' : k₂r.IsSmall) (phase : ℝ) :
    ∃ i j k, order d = (i, j, k) ∧ [k, i, j].Perm [0, 1, 2] ∧
      let c : Chamber ℝ := ⟨coordinate d i, coordinate d j, coordinate d k, k₁l, k₁r, k₂l, k₂r, phase, 0⟩
      c.flip.Inside ∧ c.flip.decomposition.operator = c.decomposition.operator := by
  obtain ⟨i, j, k, ho, hp, hki, hij⟩ := exists_order d
  have hlt : ∀ n ∈ [k, i, j], n < 3 := fun n hn => by
    have hm := hp.mem_iff.mp hn
    simp at hm
    omega
  have hne : ∀ n ∈ [k, i, j], Chamber.Near (coordinate d n) := fun n hn => near_coordinate hd (hlt n hn)
  have hi := hne i (by simp)
  have hj := hne j (by simp)
  have hk := hne k (by simp)
  refine ⟨i, j, k, ho, hp, ?_⟩
  intro c
  obtain ⟨hx, hy, hz⟩ := Chamber.flip_coordinates (c := c) hi hj hk
  obtain ⟨-, hh⟩ := Chamber.held_flip (c := c) ⟨hl, hr, hl', hr'⟩ rfl
  rw [hi.offCenter, hk.offCenter] at hki
  rw [hi.offCenter, hj.offCenter] at hij
  refine ⟨⟨?_, ?_, ?_⟩, ?_⟩
  · rw [hy, Chamber.folded]
    rcases le_total (Chamber.lowered c.y) (pi / 4) with h | h
    · exact (min_le_left _ _).trans h
    · exact (min_le_right _ _).trans (by linarith)
  · rw [hx, hy]; exact hij
  · rw [hz, hx]; exact hki
  · rw [Chamber.operator_decomposition, Chamber.operator_decomposition, hh]

/-- Phases that are a quarter turn apart from zero, between quarter turns of all three kinds. -/
theorem flip_reaches_chamber_far : ∃ i j k, order (fun i => if i = 0 then pi / 2 else -(pi / 2)) = (i, j, k) ∧
    let d : ℕ → ℝ := fun i => if i = 0 then pi / 2 else -(pi / 2)
    let c : Chamber ℝ := ⟨coordinate d i, coordinate d j, coordinate d k, flipX, flipY, flipZ, flipX, 1, 0⟩
    c.flip.Inside ∧ c.flip.decomposition.operator = c.decomposition.operator := by
  have hd : ∀ i < 3, |if i = 0 then pi / 2 else -(pi / 2)| ≤ pi / 2 := fun i _ => by
    split
    · rw [abs_of_pos (by positivity)]
    · rw [abs_neg, abs_of_pos (by positivity)]
  obtain ⟨i, j, k, ho, -, hi⟩ :=
    flip_reaches_chamber hd ⟨_, _, _, _, rfl⟩ ⟨_, _, _, _, rfl⟩ ⟨_, _, _, _, rfl⟩ ⟨_, _, _, _, rfl⟩ 1
  exact ⟨i, j, k, ho, hi⟩

end Weyl

end QuantumCircuits

end
