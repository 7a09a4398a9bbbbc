import QuantumCircuits.Proofs.Operation.Resolve

/-!
# Log — Kept

What the log keeps of an operation.  Angles are checked when an operation is logged: an angle that counts
as whole turns is logged as zero, and an operation all of whose angles do is left out, with its parts
logged in its place.  What is logged does what the operation does, up to a sign that was lost with an
odd number of turns (`Operation.exists_factor`), if

* every angle is a whole number of turns or too far from any to be taken for one, and
* no sign is lost on a part of the registers only (`Operation.Faithful`): not in a general one-qubit gate
  under controls, nor in a rotation by selected angles.

How often signs are lost depends on the angles that are allowed, which is what an `AngleClass` says: with
no whole turns but zero (`angleClass_settled`) nothing is lost, and with any number of them
(`angleClass_definite`) a sign at most.
-/

noncomputable section

namespace QuantumCircuits

open Real List Base

variable {n : ℕ}
variable {x theta phi lam : ℝ} {j : ℕ} {k : ℤ}

/-! ### Classes of angles -/

/-- Angles that are whole turns or too far from them, and that stay so when whole turns are added up and
divided as definitions of gates do; the signs of whole turns are in `S`. -/
structure AngleClass (n : ℕ) (A : ℝ → Prop) (S : Submonoid ℂ) : Prop where
  definite {x : ℝ} : A x → Definite x
  far {x : ℝ} : Far x → A x
  neg {k : ℤ} : A (2 * π * k) → A (2 * π * (-k : ℤ))
  add {k l : ℤ} : A (2 * π * k) → A (2 * π * l) → A (2 * π * (k + l : ℤ))
  split {k : ℤ} {j : ℕ} : j ≤ n → A (2 * π * k) → A (2 * π * k / 2 ^ j)
  sign {k : ℤ} : A (2 * π * k) → (-1 : ℂ) ^ k ∈ S
  zero : A 0

/-- The angle is none, or too far from whole turns to be taken for one. -/
def Settled (x : ℝ) : Prop := x = 0 ∨ Far x

lemma Settled.snap (h : Settled x) : QuantumCircuits.snap x = x := by
  rcases h with rfl | h
  · exact snap_zero
  · rw [QuantumCircuits.snap, isZeroAngle_of_far h, if_neg (by simp)]

lemma not_far_turns (k : ℤ) : ¬ Far (2 * π * k) := by
  intro h
  have hk := h k
  norm_num at hk

lemma eq_zero_of_settled (h : Settled (2 * π * k)) : k = 0 := by
  rcases h with h | h
  · have hk : (k : ℝ) = 0 := by simpa [pi_ne_zero] using h
    exact_mod_cast hk
  · exact absurd h (not_far_turns k)

lemma angleClass_settled (n : ℕ) : AngleClass n Settled ⊥ where
  definite := by
    rintro x (rfl | h)
    · exact definite_zero
    · exact .inr h
  far := .inr
  neg h := by rw [eq_zero_of_settled h]; exact .inl (by simp)
  add h h' := by rw [eq_zero_of_settled h, eq_zero_of_settled h']; exact .inl (by simp)
  split _ h := by rw [eq_zero_of_settled h]; exact .inl (by simp)
  sign h := by rw [eq_zero_of_settled h]; exact Submonoid.mem_bot.mpr (zpow_zero _)
  zero := .inl rfl

lemma definite_split (k : ℤ) (hj : j ≤ 35) : Definite (2 * π * k / 2 ^ j) := by
  by_cases hd : (2 ^ j : ℤ) ∣ k
  · obtain ⟨l, rfl⟩ := hd
    refine .inl ⟨l, ?_⟩
    push_cast
    field_simp
  · refine .inr fun l => ?_
    have hn : k - 2 ^ j * l ≠ 0 := fun h => hd ⟨l, by linarith⟩
    have ho : (1 : ℝ) ≤ |(k : ℝ) - 2 ^ j * l| := by
      have := Int.one_le_abs hn
      exact_mod_cast this
    have hp : (2 : ℝ) ^ j ≤ 2 ^ 35 := pow_le_pow_right₀ one_le_two hj
    have hpi := two_le_pi
    have hs : 2 * π * k / 2 ^ j - 2 * π * l = 2 * π / 2 ^ j * (k - 2 ^ j * l) := by field_simp
    rw [hs, abs_mul, abs_of_pos (by positivity : 0 < 2 * π / 2 ^ j)]
    calc (1e-10 : ℝ) < 2 * π / 2 ^ 35 := by
          rw [lt_div_iff₀ (by positivity)]
          linarith
      _ ≤ 2 * π / 2 ^ j := by gcongr
      _ ≤ 2 * π / 2 ^ j * |(k : ℝ) - 2 ^ j * l| := le_mul_of_one_le_right (by positivity) ho

lemma angleClass_definite (hn : n ≤ 35) : AngleClass n Definite (Submonoid.powers (-1 : ℂ)) where
  definite h := h
  far h := .inr h
  neg _ := .inl ⟨_, rfl⟩
  add _ _ := .inl ⟨_, rfl⟩
  split hj _ := definite_split _ (hj.trans hn)
  sign {k} _ := by
    rcases Int.even_or_odd k with h | h
    · rw [h.neg_one_zpow]; exact one_mem _
    · rw [h.neg_one_zpow]; exact Submonoid.mem_powers _
  zero := definite_zero

section AngleClass

variable {A : ℝ → Prop} {S : Submonoid ℂ} (hA : AngleClass n A S)
include hA

lemma AngleClass.exists_turns (hx : A x) (h : snap x = 0) : ∃ k : ℤ, x = 2 * π * k ∧ A (2 * π * k) := by
  rcases (hA.definite hx).snap with ⟨⟨k, rfl⟩, -⟩ | ⟨hs, -⟩
  · exact ⟨k, rfl, hx⟩
  · refine ⟨0, ?_, by simpa using hA.zero⟩
    rw [← hs, h]
    simp

lemma AngleClass.of_snap (h : Definite x) : A (snap x) := by
  rcases h.snap with ⟨-, hs⟩ | ⟨hs, hze⟩
  · rw [hs]; exact hA.zero
  · rcases h with ⟨k, rfl⟩ | hfa
    · rw [isZeroAngle_turns] at hze; cases hze
    · rw [hs]; exact hA.far hfa

lemma AngleClass.of_snap_neg_snap (h : Definite x) : A (snap (-snap x)) := by
  rcases h.snap with ⟨-, hs⟩ | ⟨hs, -⟩
  · rw [hs, neg_zero, snap_zero]; exact hA.zero
  · rw [hs]; exact hA.of_snap h.neg

lemma AngleClass.pi_div {c : ℝ} (h1 : 1 ≤ c) (h8 : c ≤ 8) : A (π / c) ∧ A (-(π / c)) := by
  have hp := two_le_pi
  have hl : π / c ≤ π := div_le_self pi_pos.le h1
  have hg : 1 / 4 ≤ π / c := by
    rw [le_div_iff₀ (by linarith)]
    linarith
  have hfa : Far (π / c) := far_of_between (by norm_num; linarith) (by norm_num; linarith)
  exact ⟨hA.far hfa, hA.far hfa.neg⟩

lemma AngleClass.fraction (hk : A (2 * π * k)) (hj : j ≤ n) : A (2 * π * k / 2 ^ j) ∧ A (-(2 * π * k / 2 ^ j)) := by
  refine ⟨hA.split hj hk, ?_⟩
  have h := hA.split hj (hA.neg hk)
  rwa [Int.cast_neg, mul_neg, neg_div] at h

end AngleClass

/-! ### Signs that are lost -/

/-- The sign that is lost when an angle is logged as zero. -/
def turnSign (x : ℝ) : ℂ := if isZeroAngle x then (cos (x / 2) : ℂ) else 1

lemma turnSign_turns (k : ℤ) : turnSign (2 * π * k) = (-1) ^ k := by
  rw [turnSign, if_pos (isZeroAngle_turns k), show 2 * π * k / 2 = k * π by ring, cos_int_mul_pi]
  push_cast
  rfl

lemma turnSign_of_far (h : Far x) : turnSign x = 1 := by rw [turnSign, isZeroAngle_of_far h, if_neg (by simp)]

lemma turnSign_sq (h : Definite x) : turnSign x * turnSign x = 1 := by
  rcases h with ⟨k, rfl⟩ | h
  · rw [turnSign_turns, ← mul_zpow]; simp
  · rw [turnSign_of_far h, one_mul]

lemma turnSign_of_even (h : Definite x) (he : ∀ k : ℤ, x = 2 * π * k → Even k) : turnSign x = 1 := by
  rcases h with ⟨k, rfl⟩ | h
  · rw [turnSign_turns, (he k rfl).neg_one_zpow]
  · exact turnSign_of_far h

lemma AngleClass.turnSign_mem {A : ℝ → Prop} {S : Submonoid ℂ} (hA : AngleClass n A S) (hx : A x) : turnSign x ∈ S := by
  rcases hA.definite hx with ⟨k, rfl⟩ | h
  · rw [turnSign_turns]; exact hA.sign hx
  · rw [turnSign_of_far h]; exact one_mem S

lemma cos_sin_snap (h : Definite x) : (cos (snap x / 2) : ℂ) = turnSign x * cos (x / 2) ∧
      (sin (snap x / 2) : ℂ) = turnSign x * sin (x / 2) := by
  rcases h with ⟨k, rfl⟩ | h
  · have hh : 2 * π * k / 2 = k * π := by ring
    have hs : snap (2 * π * k) = 0 := by rw [snap, if_pos (isZeroAngle_turns k)]
    rw [turnSign_turns, hs, hh, cos_int_mul_pi, sin_int_mul_pi]
    push_cast
    rw [← mul_zpow]
    simp
  · have hs : snap x = x := by rw [snap, isZeroAngle_of_far h, if_neg (by simp)]
    rw [turnSign_of_far h, hs, one_mul, one_mul]
    exact ⟨rfl, rfl⟩

lemma square_u3_snapped (ht : Definite theta) (hp : Definite phi)
    (hl : Definite lam) : u3.square [snap theta, snap phi, snap lam] =
      turnSign theta • u3.square [theta, phi, lam] := by
  obtain ⟨hco, hs⟩ := cos_sin_snap ht
  rw [square_u3, square_u3, smul_square, square_inj, exp_angle_add, exp_angle_add,
    hp.exp_snap, hl.exp_snap, hco, hs]
  refine ⟨rfl, ?_, ?_, ?_⟩ <;> ring

lemma matrix_snapped (axis : Axis) (h : Definite x) :
    (axis.matrix (snap x)).asSquare = turnSign x • (axis.matrix x).asSquare := by
  obtain ⟨hco, hs⟩ := cos_sin_snap h
  cases axis with
  | x =>
    change rx.square [snap x] = _ • rx.square [x]
    rw [square_rx, square_rx, smul_square, square_inj, hco, hs]
    refine ⟨rfl, ?_, ?_, rfl⟩ <;> ring
  | y =>
    change ry.square [snap x] = _ • ry.square [x]
    rw [square_ry, square_ry, smul_square, square_inj, hco, hs]
    refine ⟨rfl, ?_, rfl, rfl⟩
    ring
  | z =>
    change rz.square [snap x] = _ • rz.square [x]
    have he : ∀ y : ℝ, Complex.exp ((y : ℝ) * Complex.I) = cos y + sin y * Complex.I := fun y => by
      rw [Complex.exp_mul_I, ← Complex.ofReal_cos, ← Complex.ofReal_sin]
    rw [square_rz, square_rz, smul_square, square_inj]
    simp only [neg_div, he, cos_neg, sin_neg]
    simp only [Complex.ofReal_neg, hco, hs]
    refine ⟨?_, by simp, by simp, ?_⟩ <;> ring

/-! ### The angles of operations -/

namespace Operation

variable {o : Operation} {cs ts : List ℕ} {axis : Axis} {xs : List ℝ} {os : List Operation}
  {r : Reach} {m : ℕ}

/-- The angles that are checked when an operation is logged; for a row of rotations, those of the
rotations in it. -/
def angles : Operation → List ℝ
  | .of b _ ps _ _ => if b.isAngular then ps else []
  | .ucr _ xs _ _ => xs
  | .pauliMultiplexor _ xs _ _ => rowAngles xs
  | .globalPhase a => [a]
  | _ => []

/-- No operation with several angles that is logged under controls: those may lose a sign there.  Nor is
it a diagonal, which is made of such. -/
def Unmixed : Operation → Prop
  | .of .u3 .plain _ _ _ => True
  | .of .u3 _ ps _ _ => (ps.map snap).all (· = 0) = true
  | .ucr _ _ _ _ => False
  | .diagonal _ _ => False
  | _ => True

/-- All angles of an operation are in a class, and it is unmixed. -/
def Fits (A : ℝ → Prop) (o : Operation) : Prop := (∀ x ∈ o.angles, A x) ∧ o.Unmixed

def Fine (A : ℝ → Prop) (os : List Operation) : Prop := ∀ o ∈ os, Fits A o

section Fine

variable {A : ℝ → Prop} {S : Submonoid ℂ}
variable {a : ℝ} {b : Base}

lemma fine_nil : Fine A [] := forall_mem_nil _

lemma fine_cons : Fine A (o :: os) ↔ Fits A o ∧ Fine A os := forall_mem_cons

lemma fine_append {os' : List Operation} : Fine A (os ++ os') ↔ Fine A os ∧ Fine A os' := List.forall_mem_append

lemma fine_flatMap {β : Type} {xs : List β} {f : β → List Operation} (h : ∀ x ∈ xs, Fine A (f x)) :
    Fine A (xs.flatMap f) := forall_mem_flatMap.mpr h

lemma unmixed_of {ps : List ℝ} (hb : b ≠ .u3) : (of b r ps cs ts).Unmixed := by
  cases b <;> first | exact absurd rfl hb | trivial

lemma fits_fixed : Fits A (of b r [] cs ts) := by
  refine ⟨by rw [angles, ite_self]; exact forall_mem_nil _, ?_⟩
  cases b <;> cases r <;> trivial

lemma fits_turn (hb : b ≠ .u3) (ha : A a) : Fits A (of b r [a] cs ts) := by
  refine ⟨fun x hx => ?_, unmixed_of hb⟩
  rw [angles] at hx
  split at hx
  · rwa [mem_singleton.mp hx]
  · cases hx

lemma fits_general (ht : A theta) (hp : A phi) (hl : A lam) : Fits A (general theta phi lam ts) :=
  ⟨by simp [angles, isAngular, ht, hp, hl], trivial⟩

lemma fits_globalPhase (ha : A a) : Fits A (.globalPhase a) := ⟨forall_mem_singleton.mpr ha, trivial⟩

attribute [local simp] fine_nil fine_cons fits_fixed fits_turn fits_general fits_globalPhase isAngular

variable (hA : AngleClass n A S)
include hA

lemma fine_chainParts (cs as : List ℕ) (t : ℕ) : Fine A (chainParts cs as t) := by
  obtain ⟨h8, hn⟩ := hA.pi_div (c := 8) (by norm_num) (by norm_num)
  have hcc : ∀ c d t, Fine A (ccxParts c d t) := fun c d t => by simp [ccxParts]
  have hs : Fine A (sweepParts cs as t) := by
    simp only [sweepParts, fine_append]
    refine ⟨⟨⟨hcc _ _ _, fine_flatMap fun i _ => ?_⟩, ?_⟩, fine_flatMap fun i _ => ?_⟩
    · simp [linkParts]
    · simp [turningParts]
    · simp [unlinkParts]
  rw [chainParts]
  split
  · unfold c3xParts
    split
    · simp
    · exact hcc _ _ _
    · simp [c3xControls, c3xTarget, h8, hn]
    · exact fine_nil
  · exact fine_append.mpr ⟨hs, hs⟩

lemma fine_placed {a : OneQubit.Angles ℝ} (h : a.Clear) (t : ℕ) : Fine A (placed a t) := by
  rw [placed, fine_append]
  refine ⟨?_, ?_⟩
  · rw [snapAll]
    split
    · exact fine_nil
    · simp [hA.of_snap h.theta, hA.of_snap h.phi, hA.of_snap h.lam]
  · split
    · exact fine_nil
    · simp [hA.of_snap h.phase]

lemma fine_unplaced {a : OneQubit.Angles ℝ} (h : a.Clear) (t : ℕ) : Fine A (unplaced a t) := by
  rw [unplaced, fine_append]
  refine ⟨?_, ?_⟩
  · split
    · exact fine_nil
    · simp [hA.of_snap_neg_snap h.phase]
  · rw [snapAll]
    split
    · exact fine_nil
    · rw [Option.bind_some, snapAll]
      split
      · exact fine_nil
      · simp [hA.of_snap_neg_snap h.theta, hA.of_snap_neg_snap h.phi, hA.of_snap_neg_snap h.lam]

lemma fine_halvesParts (h : Decided axis a) (cs : List ℕ) (t : ℕ) : Fine A (halvesParts axis a cs t) := by
  have hcl := rootAngles_clear h.theta h.phi h.lam h.phase
  have hfr : Fine A (if (readShape (axis.matrix a)).secondReal then [] else [on .h [t]]) := by
    split
    · exact fine_nil
    · simp
  have hch := fine_chainParts hA
  have hp := fine_placed hA hcl t
  have hu := fine_unplaced hA hcl t
  simp only [halvesParts, roundsParts, fine_append]
  exact ⟨⟨⟨hfr, ⟨⟨⟨hch _ _ _, hp⟩, hch _ _ _⟩, hu⟩⟩, ⟨⟨⟨hch _ _ _, hp⟩, hch _ _ _⟩, hu⟩⟩, hfr⟩

lemma fine_rotationParts (hk : A (2 * π * k)) (h0 : cs ≠ [])
    (hn : 1 ≤ n) (h : ∀ p ∈ turnsUnder cs.length axis (2 * π * k), Decided p.1 p.2) (t : ℕ) :
    Fine A (rotationParts axis (2 * π * k) cs t) := by
  obtain ⟨hh, hm⟩ := hA.fraction hk hn
  rw [pow_one] at hh hm
  rw [← neg_div] at hm
  match cs, h0 with
  | [c], _ => cases axis <;> simp [rotationParts, hh, hm]
  | c :: d :: cs, _ =>
    exact fine_halvesParts hA (h (axis, 2 * π * k) (by simp [turnsUnder])) _ t

lemma fine_stairParts (hk : A (2 * π * k)) (hj : j + cs.length ≤ n)
    (t : ℕ) : Fine A (stairParts (2 * π * k) j cs t) := by
  induction cs using reverseRecOn generalizing j t with
  | nil =>
    rw [stairParts_nil]
    exact fine_cons.mpr ⟨fits_turn (by decide) (hA.fraction hk (by simpa using hj)).1, fine_nil⟩
  | append_singleton cs c ih =>
    rw [length_append, length_singleton] at hj
    rw [stairParts_concat]
    exact fine_cons.mpr ⟨fits_turn (by decide) (hA.fraction hk (by omega)).1, ih (by omega) c⟩

/-! ### The angles of a row -/

omit hA in
def Fraction (A : ℝ → Prop) (j : ℕ) (x : ℝ) : Prop := ∃ k : ℤ, x = 2 * π * k / 2 ^ j ∧ A (2 * π * k)

lemma fraction_half_sum {y : ℝ} (hx : Fraction A j x) (hy : Fraction A j y) :
    Fraction A (j + 1) ((x + y) / 2) ∧ Fraction A (j + 1) ((x + -y) / 2) := by
  obtain ⟨k, rfl, hk⟩ := hx
  obtain ⟨l, rfl, hl⟩ := hy
  refine ⟨⟨k + l, ?_, hA.add hk hl⟩, k + -l, ?_, hA.add hk (hA.neg hl)⟩
  all_goals push_cast; ring

lemma fraction_demultiplex (hlen : xs.length = 2 ^ m) (hxs : ∀ x ∈ xs, Fraction A j x) (backwards : Bool) :
    ∀ x ∈ demultiplex (fun x y => (x + y) / 2) (fun x y => (x + -y) / 2) backwards xs, Fraction A (j + m) x := by
  refine demultiplex_induction (P := fun m _ xs ys => ∀ j, (∀ x ∈ xs, Fraction A j x) →
    ∀ y ∈ ys, Fraction A (j + m) y) (fun _ _ _ h => h) ?_ hlen backwards j hxs
  intro m bw xs ys zs _ _ hfi hs j hxs
  have hh : ∀ f : ℝ → ℝ → ℝ, (∀ x y, Fraction A j x → Fraction A j y → Fraction A (j + 1) (f x y)) →
      ∀ x ∈ (xs.take (2 ^ m)).zipWith f (xs.drop (2 ^ m)), Fraction A (j + 1) x := by
    intro f hf x hx
    rw [← map_uncurry_zip_eq_zipWith] at hx
    obtain ⟨⟨y, z⟩, hyz, rfl⟩ := mem_map.mp hx
    exact hf y z (hxs _ (mem_of_mem_take (of_mem_zip hyz).1)) (hxs _ (mem_of_mem_drop (of_mem_zip hyz).2))
  have hm := hh _ fun x y hx hy => (fraction_half_sum hA hx hy).1
  have hg := hh _ fun x y hx hy => (fraction_half_sum hA hx hy).2
  rw [show j + (m + 1) = j + 1 + m by ring]
  refine List.forall_mem_append.mpr ⟨hfi (j + 1) ?_, hs (j + 1) ?_⟩
  all_goals cases bw <;> assumption

/-! ### Parts of what is left out -/

section Whole

variable {ps : List ℝ} (hps : ∀ x ∈ ps, ∃ k : ℤ, x = 2 * π * k ∧ A (2 * π * k))
include hps

lemma fine_plainParts (hb : b.isAngular = true) (ts : List ℕ) : Fine A (plainParts b ps ts) := by
  obtain ⟨h2, hn2⟩ := hA.pi_div (c := 2) (by norm_num) (by norm_num)
  have hi : ∀ x ∈ ps, A x ∧ A (-x) := fun x hx => by
    obtain ⟨k, rfl, hk⟩ := hps x hx
    have hn := hA.neg hk
    rw [Int.cast_neg, mul_neg] at hn
    exact ⟨hk, hn⟩
  have h0 := hA.zero
  unfold plainParts
  split <;> simp_all

lemma fine_controlledParts (hb : b.isAngular = true) (hn : 1 ≤ n) (c t : ℕ) : Fine A (controlledParts b ps c t) := by
  have hi : ∀ x ∈ ps, A x ∧ A (x / 2) ∧ A (-x / 2) := fun x hx => by
    obtain ⟨k, rfl, hk⟩ := hps x hx
    have hh := hA.fraction hk hn
    rw [pow_one, ← neg_div] at hh
    exact ⟨hk, hh⟩
  have hs : (ps.map snap).all (· = 0) = true := by
    rw [all_eq_true]
    intro y hy
    obtain ⟨x, hx, rfl⟩ := mem_map.mp hy
    obtain ⟨k, rfl, -⟩ := hps x hx
    simp [snap, isZeroAngle_turns]
  have hu : Fits A (of .u3 .multi ps [c] [t]) := ⟨fun x hx => (hi x hx).1, hs⟩
  unfold controlledParts
  split <;> simp_all

lemma fine_rotations (ha : a ∈ ps) (h0 : cs ≠ [])
    (hn : 1 ≤ n) (h : ∀ p ∈ turnsUnder cs.length axis a, Decided p.1 p.2) (ts : List ℕ) :
    Fine A (ts.flatMap (rotationParts axis a cs)) := by
  obtain ⟨k, rfl, hk⟩ := hps a ha
  exact fine_flatMap fun t _ => fine_rotationParts hA hk h0 hn h t

lemma fine_generalParts (ht : theta ∈ ps) (hp : phi ∈ ps) (hla : lam ∈ ps)
    (hn : 1 ≤ n) (cs : List ℕ) (t : ℕ) : Fine A (generalParts theta phi lam cs t) := by
  obtain ⟨i, rfl, hi⟩ := hps theta ht
  obtain ⟨k, rfl, hk⟩ := hps phi hp
  obtain ⟨l, rfl, hl⟩ := hps lam hla
  have hs := (hA.fraction (hA.add hk hl) hn).1
  have hm : (2 * π * k + 2 * π * l) / 2 = 2 * π * (k + l : ℤ) / 2 ^ 1 := by push_cast; ring
  rw [← hm] at hs
  simp [generalParts, hi, hk, hl, hs]

lemma fine_multiParts (hb : b.isAngular = true)
    (ho : (of b .multi ps cs ts).Good n) : Fine A (multiParts b ps cs ts) := by
  obtain ⟨h2, hn2⟩ := hA.pi_div (c := 2) (by norm_num) (by norm_num)
  have hlen : (cs ++ ts).length ≤ n := Plan.length_le_of_lt ho.nodup ho.lt
  rw [length_append] at hlen
  have hcs : b ≠ .phase → cs ≠ [] := fun h => ho.shaped.2.1.resolve_right h
  have hn : b ≠ .phase → 1 ≤ n := fun h => by
    have := length_pos_of_ne_nil (hcs h)
    omega
  have har := ho.shaped.1
  have htwo := ho.shaped.2.2
  have hd := ho.decided
  have hi : ∀ a ∈ ps, A a := fun a ha => by obtain ⟨k, rfl, hk⟩ := hps a ha; exact hk
  cases takes har with
  | rx a | ry a | rz a =>
    exact fine_rotations hA hps (by simp) (hcs (by decide)) (hn (by decide)) hd ts
  | phase a =>
    obtain ⟨k, rfl, hk⟩ := hps a (by simp)
    exact fine_flatMap fun t _ => fine_stairParts hA hk (by omega) t
  | u3 theta phi lam =>
    exact fine_flatMap fun t _ => fine_generalParts hA hps (by simp) (by simp) (by simp) (hn (by decide)) cs t
  | rxx a | ryy a | rzz a =>
    obtain ⟨i, j, rfl⟩ := length_eq_two.mp htwo
    have ha := hi a (by simp)
    simp [multiParts, ha, h2, hn2]
  | x | y | z | h | s | sdg | t | tdg | xPow | yPow | zPow | swap => cases hb

end Whole

lemma exists_turns_of_vanishing (hxs : ∀ x ∈ xs, A x)
    (h : (xs.map snap).all (· = 0) = true) : ∀ x ∈ xs, ∃ k : ℤ, x = 2 * π * k ∧ A (2 * π * k) := by
  intro x hx
  rw [all_map, all_eq_true] at h
  exact hA.exists_turns (hxs x hx) (by simpa using h x hx)

lemma fine_rowParts (hxs : ∀ x ∈ rowAngles xs, A x)
    (hlen : xs.length = 2 ^ cs.length) (t : ℕ) : Fine A (rowParts axis xs cs t) := by
  obtain ⟨h2, hn2⟩ := hA.pi_div (c := 2) (by norm_num) (by norm_num)
  have ha : ∀ x, A x → Fits A (aboutAxis axis x t) := fun x hx => fits_turn (by cases axis <;> decide) hx
  have hn : ∀ c, Fine A (negationParts axis c t) := fun c => by
    rw [negationParts]
    split <;> simp [h2, hn2]
  rw [rowParts]
  split
  · next h =>
    subst h
    obtain ⟨x, rfl⟩ := length_eq_one_iff.mp hlen
    refine fine_cons.mpr ⟨ha x (hxs x ?_), fine_nil⟩
    rw [rowAngles, demultiplex_singleton]
    exact mem_singleton_self x
  · refine fine_flatMap fun p hp => ?_
    exact fine_cons.mpr ⟨ha _ (hxs _ (fst_mem_of_mem_zipIdx hp)), hn _⟩

/-- **The parts of what is left out** have angles of the same class, and are unmixed. -/
theorem fine_parts (ho : o.Good n) (hangles : ∀ x ∈ o.angles, A x) (hke : o.isKept = false) : Fine A o.parts := by
  have hv : o.gate.isTransparent = false → o.vanishes = true := fun h => by simpa [isKept, h] using hke
  have hlen := Plan.length_le_of_lt ho.nodup ho.lt
  cases o with
  | identity ts => cases hv rfl
  | diagonal zs qs => cases hv rfl
  | globalPhase a => exact fine_nil
  | pauliMultiplexor axis xs cs t => exact fine_rowParts hA hangles ho.shaped t
  | ucr axis xs cs t =>
    have ht := exists_turns_of_vanishing hA hangles (hv rfl)
    have hr := fraction_demultiplex hA (j := 0) ho.shaped
      (fun x hx => (ht x hx).imp fun k hk => by simpa using hk) false
    rw [qubits, length_append, length_singleton] at hlen
    refine fine_cons.mpr ⟨⟨fun x hx => ?_, trivial⟩, fine_nil⟩
    obtain ⟨k, rfl, hk⟩ := hr x hx
    exact (hA.fraction hk (by omega)).1
  | of b r ps cs ts =>
    by_cases htwo : b.onTwo = true ∧ r = .controlled
    · obtain ⟨htwo, rfl⟩ := htwo
      rw [parts, if_pos htwo]
      exact fine_cons.mpr ⟨⟨hangles, unmixed_of (by rintro rfl; cases htwo)⟩, fine_nil⟩
    have hg : (Gate.of b r).isTransparent = false := by
      cases r <;> simp_all [Gate.isTransparent]
    obtain ⟨hb, ha⟩ := Bool.and_eq_true_iff.mp (hv hg)
    rw [angles, if_pos hb] at hangles
    have ht := exists_turns_of_vanishing hA hangles ha
    cases r with
    | plain => exact fine_plainParts hA ht hb ts
    | controlled =>
      rw [parts, if_neg (by simpa using htwo)]
      have hon : cs.length = 1 := ho.shaped.2.1
      rw [qubits, length_append] at hlen
      exact fine_controlledParts hA ht hb (by omega) _ _
    | multi => exact fine_multiParts hA ht hb ho

end Fine

/-! ### What is logged -/

/-- No sign is lost on a part of the registers only. -/
def Faithful : Operation → Prop
  | .of .u3 .plain _ _ _ => True
  | .of .u3 _ ps _ ts => Even ts.length ∨ ∀ k : ℤ, ps.getD 0 0 = 2 * π * k → Even k
  | .ucr _ xs _ _ => ∀ k : ℤ, 2 * π * k ∈ xs → Even k
  | _ => True

lemma snap_eq_self (h : snap x ≠ 0) : snap x = x := by
  rw [snap] at h ⊢
  split at h
  · exact absurd rfl h
  · next hx => rw [if_neg hx]

lemma snapped_of_unmixed (hs : o.Shaped) (h : o.Unmixed) (hk : o.isKept = true) :
    o.snapped = o ∨ ∃ theta phi lam ts, o = general theta phi lam ts := by
  have hv : o.vanishes = false := by simp only [isKept, Bool.and_eq_true, Bool.not_eq_true'] at hk; exact hk.2
  cases o with
  | identity ts => exact .inl rfl
  | diagonal zs qs => exact .inl rfl
  | ucr axis xs cs t => exact absurd h id
  | pauliMultiplexor axis xs cs t => simp [isKept, gate, Gate.isTransparent] at hk
  | globalPhase a =>
    left
    rw [snapped, snap_eq_self (by simpa [vanishes] using hv)]
  | of b r ps cs ts =>
    have ha := hs.1
    by_cases hu : b = .u3
    · subst hu
      cases r with
      | plain =>
        obtain ⟨theta, phi, lam, rfl⟩ := length_eq_three.mp ha
        obtain rfl : cs = [] := hs.2.1
        exact .inr ⟨theta, phi, lam, ts, rfl⟩
      | controlled | multi =>
        have hal : (ps.map snap).all (· = 0) = true := h
        rw [vanishes, hal] at hv
        cases hv
    · left
      cases hb : b.isAngular with
      | false => rw [snapped, hb, if_neg (by simp)]
      | true =>
        have ho : b.arity = 1 := by cases b <;> simp_all [isAngular, arity]
        obtain ⟨a, rfl⟩ := length_eq_one_iff.mp (ha.trans ho)
        rw [snapped, hb, if_pos rfl, map_singleton, snap_eq_self (by simpa [vanishes, hb] using hv)]

lemma act_snapped_general (ht : Definite theta) (hp : Definite phi)
    (hl : Definite lam) (r : Reach) (cs ts : List ℕ) (V : Wave) :
    (of .u3 r [theta, phi, lam] cs ts).snapped.act V =
      gated (allOn cs) (fun V => turnSign theta ^ ts.length • u3.act [theta, phi, lam] ts V) V := by
  change gated (allOn cs) (selectEach ts fun _ => u3.square [snap theta, snap phi, snap lam]) V = _
  rw [square_u3_snapped ht hp hl]
  congr 1
  funext V
  rw [selectEach_const_smul]
  rfl

lemma act_snapped_controlled (ht : Definite theta) (hp : Definite phi) (hl : Definite lam)
    (h : Even ts.length ∨ ∀ k : ℤ, theta = 2 * π * k → Even k) (V : Wave) :
    (of .u3 r [theta, phi, lam] cs ts).snapped.act V = (of .u3 r [theta, phi, lam] cs ts).act V := by
  have ho : turnSign theta ^ ts.length = 1 := by
    rcases h with ⟨m, hm⟩ | h
    · rw [hm, ← two_mul, pow_mul, sq, turnSign_sq ht, one_pow]
    · rw [turnSign_of_even ht h, one_pow]
  rw [act_snapped_general ht hp hl, ho]
  simp only [one_smul]
  rfl

lemma act_snapped_ucr {t : ℕ} (hxs : ∀ x ∈ xs, Definite x) (h : ∀ k : ℤ, 2 * π * k ∈ xs → Even k) (V : Wave) :
    (ucr axis xs cs t).snapped.act V = (ucr axis xs cs t).act V := by
  have he : ∀ i, (axis.matrix ((xs.map snap).getD i 0)).asSquare =
      (axis.matrix (xs.getD i 0)).asSquare := fun i => by
    have hs : (xs.map snap).getD i 0 = snap (xs.getD i 0) := by
      have hm := getD_map xs 0 (n := i) snap
      rwa [snap_zero] at hm
    rw [hs]
    by_cases hi : i < xs.length
    · have hx : xs.getD i 0 ∈ xs := by rw [getD_eq_getElem _ _ hi]; exact getElem_mem hi
      rw [matrix_snapped axis (hxs _ hx), turnSign_of_even (hxs _ hx) fun k hk => h k (hk ▸ hx), one_smul]
    · rw [getD_eq_default _ _ (not_lt.mp hi), snap_zero]
  change select t (fun b => (axis.matrix ((xs.map snap).getD (indexOf cs b) 0)).asSquare) V = _
  simp only [he]
  rfl

section Factor

variable {A : ℝ → Prop} {S : Submonoid ℂ}
variable {p : Operation}

/-- All that has to hold of an operation so that it can be read back from the log. -/
structure Readable (n : ℕ) (A : ℝ → Prop) (o : Operation) : Prop where
  good : o.Good n
  angles : ∀ x ∈ o.angles, A x
  /-- If the operation is logged, it is logged as it is or with no sign lost. -/
  faithful : o.isKept = true → o.snapped = o ∨ o.snapped.Good n ∧ o.Faithful

lemma Good.act_smul (ho : o.Good n) (z : ℂ) (V : Wave) : o.act (z • V) = z • o.act V := by
  rw [← run_prims ho, run_smul, run_prims ho]

lemma acts_smul (ho : ∀ o ∈ os, o.Good n) (z : ℂ) (V : Wave) : acts os (z • V) = z • acts os V := by
  induction os generalizing V with
  | nil => rfl
  | cons o os ih =>
    rw [acts_cons, (ho o (by simp)).act_smul, ih fun p hp => ho p (by simp [hp])]
    rfl

lemma exists_factor_flatMap {f : Operation → List Operation}
    (ho : ∀ o ∈ os, o.Good n) (h : ∀ o ∈ os, ∃ z ∈ S, ∀ V, acts (f o) V = z • o.act V) :
    ∃ z ∈ S, ∀ V, acts (os.flatMap f) V = z • acts os V := by
  induction os with
  | nil => exact ⟨1, one_mem S, fun V => by simp⟩
  | cons o os ih =>
    have ho' : ∀ p ∈ os, p.Good n := fun p hp => ho p (by simp [hp])
    obtain ⟨z, hz, hac⟩ := h o (by simp)
    obtain ⟨w, hw, ha⟩ := ih ho' fun p hp => h p (by simp [hp])
    refine ⟨w * z, mul_mem hw hz, fun V => ?_⟩
    rw [flatMap_cons, acts_append, hac, ha, acts_smul ho', acts_cons, mul_smul]

lemma Readable.exists_act_snapped (hA : AngleClass m A S)
    (h : Readable n A o) (hk : o.isKept = true) : ∃ z ∈ S, ∀ V, o.snapped.act V = z • o.act V := by
  rcases h.faithful hk with he | ⟨-, hfa⟩
  · exact ⟨1, one_mem S, fun V => by rw [he, one_smul]⟩
  have hd : ∀ x ∈ o.angles, Definite x := fun x hx => hA.definite (h.angles x hx)
  by_cases hm : o.Unmixed
  · rcases snapped_of_unmixed h.good.shaped hm hk with he | ⟨theta, phi, lam, ts, rfl⟩
    · exact ⟨1, one_mem S, fun V => by rw [he, one_smul]⟩
    · simp only [Operation.angles, Base.isAngular, if_true, mem_cons, not_mem_nil, or_false,
        forall_eq_or_imp, forall_eq] at hd
      refine ⟨turnSign theta ^ ts.length, pow_mem (hA.turnSign_mem (h.angles theta (by
        simp [Operation.angles, isAngular]))) _, fun V => ?_⟩
      rw [act_snapped_general hd.1 hd.2.1 hd.2.2]
      rfl
  refine ⟨1, one_mem S, fun V => ?_⟩
  rw [one_smul]
  cases o with
  | identity | pauliMultiplexor | globalPhase => exact absurd trivial hm
  | diagonal zs qs => rfl
  | ucr axis xs cs t => exact act_snapped_ucr hd hfa V
  | of b r ps cs ts =>
    obtain rfl : b = .u3 := not_not.mp fun hb => hm (unmixed_of hb)
    obtain ⟨theta, phi, lam, rfl⟩ := length_eq_three.mp h.good.shaped.1
    simp only [Operation.angles, isAngular, if_true, mem_cons, not_mem_nil, or_false,
      forall_eq_or_imp, forall_eq] at hd
    cases r with
    | plain => exact absurd trivial hm
    | controlled | multi =>
      exact act_snapped_controlled hd.1 hd.2.1 hd.2.2 hfa V

variable (hA : AngleClass n A S)
include hA

/-- **Readable operations that are left out have readable parts.** -/
theorem Readable.parts (h : Readable n A o) (hk : o.isKept = false) : ∀ p ∈ o.parts, Readable n A p := by
  intro p hp
  have hgood := h.good.parts p hp
  obtain ⟨hangles, hu⟩ := fine_parts hA h.good h.angles hk p hp
  refine ⟨hgood, hangles, fun hpk => ?_⟩
  rcases snapped_of_unmixed hgood.shaped hu hpk with he | ⟨theta, phi, lam, ts, rfl⟩
  · exact .inl he
  · refine .inr ⟨⟨⟨⟨rfl, rfl, hgood.shaped.2.2⟩, hgood.nodup, hgood.lt⟩, ?_⟩, trivial⟩
    change ∀ p ∈ (general (snap theta) (snap phi) (snap lam) ts).turns, _
    simp [turns_plain]

lemma Readable.exists_factor_elementary (h : Readable n A o)
    (hk : o.isKept = false) {ps : List (Primitive ℝ)} (hp : o.primitives? = some ps) :
    ∃ z ∈ S, ∀ V, V = z • o.act V := by
  rcases primitives?_cases h.good.shaped hp with ⟨theta, phi, lam, ts, rfl, -⟩ | ⟨c, t, rfl, -⟩ | ⟨a, rfl, -⟩
  · have hze : snap theta = 0 ∧ snap phi = 0 ∧ snap lam = 0 := by
      simpa [isKept, gate, Gate.isTransparent, vanishes, isAngular] using hk
    have hd : ∀ x ∈ [theta, phi, lam], Definite x := fun x hx => hA.definite (h.angles x hx)
    simp only [mem_cons, not_mem_nil, or_false, forall_eq_or_imp, forall_eq] at hd
    refine ⟨turnSign theta ^ ts.length, pow_mem (hA.turnSign_mem (h.angles theta (by
      simp [Operation.angles, isAngular]))) _, fun V => ?_⟩
    have hi := acts_parts (o := identity ts) ⟨⟨trivial, h.good.nodup, h.good.lt⟩, by simp [turns]⟩ rfl V
    have hs := act_snapped_general hd.1 hd.2.1 hd.2.2 .plain [] ts V
    change (general (snap theta) (snap phi) (snap lam) ts).act V = _ at hs
    rw [hze.1, hze.2.1, hze.2.2] at hs
    exact hi.symm.trans hs
  · cases hk
  · have hze : snap a = 0 := by simpa [isKept, gate, Gate.isTransparent, vanishes] using hk
    have he := (hA.definite (h.angles a (by simp [Operation.angles]))).exp_snap
    refine ⟨1, one_mem S, fun V => ?_⟩
    rw [hze, Complex.ofReal_zero, zero_mul, Complex.exp_zero] at he
    rw [one_smul, act_globalPhase, ← he, one_smul]

lemma Readable.of_mem_kept (h : Readable n A o) (hp : p ∈ o.kept) :
    Readable n A p ∧ p.isKept = true ∧ (p = o ∨ p.Unmixed) := by
  induction hr : o.rank using Nat.strong_induction_on generalizing o with
  | _ m ih =>
    rw [kept_eq h.good.toValid] at hp
    cases hk : o.isKept with
    | true =>
      rw [hk, if_pos rfl, mem_singleton] at hp
      subst hp
      exact ⟨h, hk, .inl rfl⟩
    | false =>
      rw [hk, if_neg (by simp)] at hp
      obtain ⟨q, hq, hpq, -⟩ := mem_inner h.good.toValid hp
      obtain ⟨hre, hpk, hu⟩ := ih q.rank
        (hr ▸ (inside_parts h.good.toValid q hq).rank) (h.parts hA hk q hq) hpq rfl
      refine ⟨hre, hpk, .inr ?_⟩
      rcases hu with rfl | hu
      · exact (fine_parts hA h.good h.angles hk p hq).2
      · exact hu

lemma Readable.good_snapped (h : Readable n A o) (hp : p ∈ o.kept) : p.snapped.Good n := by
  obtain ⟨hr, hk, -⟩ := h.of_mem_kept hA hp
  rcases hr.faithful hk with he | ⟨hgood, -⟩
  · exact he.symm ▸ hr.good
  · exact hgood

/-- **What the log keeps of an operation does what the operation does**, up to the signs that are lost. -/
theorem Readable.exists_factor (h : Readable n A o) : ∃ z ∈ S, ∀ V, acts (o.kept.map snapped) V = z • o.act V := by
  -- by recursion on the definition of the operation, for what is left out
  induction hr : o.rank using Nat.strong_induction_on generalizing o with
  | _ m ih =>
    rw [kept_eq h.good.toValid]
    cases hk : o.isKept with
    | true =>
      obtain ⟨z, hz, ha⟩ := h.exists_act_snapped hA hk
      exact ⟨z, hz, ha⟩
    | false =>
      cases hpr : o.primitives? with
      | some ps =>
        obtain ⟨z, hz, ha⟩ := h.exists_factor_elementary hA hk hpr
        refine ⟨z, hz, fun V => ?_⟩
        rw [inner, hpr]
        exact ha V
      | none =>
        have hpa := h.parts hA hk
        have hgood : ∀ p ∈ o.parts, p.Good n := fun p hp => (hpa p hp).good
        obtain ⟨z, hz, hac⟩ := exists_factor_flatMap hgood fun p hp => ih p.rank
          (hr ▸ (inside_parts h.good.toValid p hp).rank) (hpa p hp) rfl
        refine ⟨z, hz, fun V => ?_⟩
        rw [inner, hpr, ← acts_parts h.good hpr, ← hac, ← map_flatMap]
        rfl

end Factor

/-! ### Settled angles -/

section Settled

lemma map_snap_of_settled (h : ∀ x ∈ xs, Settled x) : xs.map snap = xs :=
  (map_congr_left fun x hx => (h x hx).snap).trans (map_id xs)

lemma snapped_of_settled (h : ∀ x ∈ o.angles, Settled x) (hk : o.isKept = true) : o.snapped = o := by
  cases o with
  | identity ts => rfl
  | diagonal zs qs => rfl
  | pauliMultiplexor axis xs cs t => simp [isKept, gate, Gate.isTransparent] at hk
  | globalPhase a => rw [snapped, (h a (by simp [angles])).snap]
  | ucr axis xs cs t =>
    have hxs : xs.map snap = xs := map_snap_of_settled h
    rw [snapped, hxs]
  | of b r ps cs ts =>
    rw [snapped]
    split
    · next hb => rw [map_snap_of_settled (by simpa [angles, hb] using h)]
    · rfl

variable {os : List Operation} (hgood : ∀ o ∈ os, o.Good n)
  (hangles : ∀ o ∈ os, ∀ x ∈ o.angles, Settled x)
include hgood hangles

lemma readable_of_settled : ∀ o ∈ os, Readable n Settled o := fun o ho =>
  ⟨hgood o ho, hangles o ho, fun hk => .inl (snapped_of_settled (hangles o ho) hk)⟩

lemma acts_kept (V : Wave) : acts ((os.flatMap kept).map snapped) V = acts os V := by
  have hr := readable_of_settled hgood hangles
  obtain ⟨z, hz, ha⟩ := exists_factor_flatMap hgood (fun o ho => (hr o ho).exists_factor (angleClass_settled n))
  rw [Submonoid.mem_bot.mp hz] at ha
  rw [map_flatMap, ha, one_smul]

lemma of_mem_flatMap_kept : ∀ p ∈ os.flatMap kept, p.snapped.Good n ∧ p.isKept = true ∧ (p ∈ os ∨ p.Unmixed) := by
  intro p hp
  obtain ⟨o, ho, hp⟩ := mem_flatMap.mp hp
  have hr := readable_of_settled hgood hangles o ho
  refine ⟨hr.good_snapped (angleClass_settled n) hp, ?_⟩
  obtain ⟨-, hk, rfl | hu⟩ := hr.of_mem_kept (angleClass_settled n) hp
  · exact ⟨hk, .inl ho⟩
  · exact ⟨hk, .inr hu⟩

end Settled

end Operation

end QuantumCircuits

end
