import QuantumCircuits.Proofs.Meaning.Multi

/-!
# Operation — Inverse

What undoes gates.  `Base.inverse` gives the gate and the parameters that undo a base gate
(`Base.act_inverse`), and `Operation.inverse` puts it under the same controls
(`Operation.act_inverse`).  Primitives are undone one by one, the last one first (`run_inverse`), so
the matrix of a circuit can be cancelled (`Circuit.mul_operator_inj`).
-/

namespace QuantumCircuits

open Real List
open Complex (ofReal_neg I_mul_I)

variable {n : ℕ}
variable {b : Base} {ps : List ℝ} {cs : List ℕ}

/-! ### Base gates -/

lemma cos_sq_add_sin_sq_complex (x : ℝ) : (cos x : ℂ) * cos x + (sin x : ℂ) * sin x = 1 := by
  have h : cos x * cos x + sin x * sin x = 1 := by nlinarith [cos_sq_add_sin_sq x]
  exact_mod_cast h

namespace Base

variable {i j : ℕ} {ts : List ℕ}

/-- The gate that undoes a base gate, and its parameters. -/
def inverse : Base → List ℝ → Base × List ℝ
  | .s, ps => (.sdg, ps)
  | .sdg, ps => (.s, ps)
  | .t, ps => (.tdg, ps)
  | .tdg, ps => (.t, ps)
  | .xPow, [p, g] => (.xPow, [-p, g])
  | .yPow, [p, g] => (.yPow, [-p, g])
  | .zPow, [p, g] => (.zPow, [-p, g])
  | .u3, [theta, phi, lam] => (.u3, [-theta, -lam, -phi])
  | b, ps => (b, ps.map Neg.neg)

lemma onTwo_inverse (b : Base) (ps : List ℝ) : (b.inverse ps).1.onTwo = b.onTwo := by
  unfold inverse
  split <;> rfl

lemma square_phase_inverse (a : ℝ) : Base.phase.square [-a] * Base.phase.square [a] = 1 := by
  rw [square_phase, square_phase, square_mul, one_eq_square, exp_neg_mul_self]; simp

lemma square_u3_inverse (theta phi lam : ℝ) :
    Base.u3.square [-theta, -lam, -phi] * Base.u3.square [theta, phi, lam] = 1 := by
  have hs := cos_sq_add_sin_sq_complex (theta / 2)
  have hp := exp_neg_mul_self phi
  have hl := exp_neg_mul_self lam
  rw [square_u3, square_u3, square_mul, one_eq_square, square_inj, exp_angle_add, exp_angle_add,
    neg_div, cos_neg, sin_neg, ofReal_neg]
  set c : ℂ := ((cos (theta / 2) : ℝ) : ℂ)
  set s : ℂ := ((sin (theta / 2) : ℝ) : ℂ)
  set e : ℂ := Complex.exp (phi * Complex.I)
  set f : ℂ := Complex.exp (lam * Complex.I)
  set f' : ℂ := Complex.exp ((-lam : ℝ) * Complex.I)
  refine ⟨?_, ?_, ?_, ?_⟩
  · linear_combination hs + s * s * hp
  · linear_combination c * s * f * hp
  · linear_combination c * s * f' * hp
  · linear_combination hs + (s * s + c * c) * hl + c * c * f' * f * hp

lemma square_axis_inverse (axis : Axis) (a : ℝ) : (axis.matrix (-a)).asSquare * (axis.matrix a).asSquare = 1 := by
  have hs := cos_sq_add_sin_sq_complex (a / 2)
  cases axis with
  | x =>
    change rx.square [-a] * rx.square [a] = 1
    rw [square_rx, square_rx, square_mul, one_eq_square, square_inj, neg_div, cos_neg, sin_neg, ofReal_neg]
    set c : ℂ := ((cos (a / 2) : ℝ) : ℂ)
    set s : ℂ := ((sin (a / 2) : ℝ) : ℂ)
    refine ⟨?_, by ring, by ring, ?_⟩
    · linear_combination hs - s * s * I_mul_I
    · linear_combination hs - s * s * I_mul_I
  | y =>
    change ry.square [-a] * ry.square [a] = 1
    rw [square_ry, square_ry, square_mul, one_eq_square, square_inj, neg_div, cos_neg, sin_neg, ofReal_neg]
    refine ⟨?_, by ring, by ring, ?_⟩
    · linear_combination hs
    · linear_combination hs
  | z =>
    change rz.square [-a] * rz.square [a] = 1
    have hp := exp_neg_mul_self (a / 2)
    have hm := exp_neg_mul_self (-a / 2)
    rw [square_rz, square_rz, square_mul, one_eq_square, square_inj]
    refine ⟨?_, by ring, by ring, ?_⟩
    · rw [mul_zero, add_zero, ← hm, neg_div]
    · rw [mul_zero, zero_add, ← hp, neg_div]

lemma square_power_inverse (axis : Axis) (p g : ℝ) : powerSquare axis (-p) g * powerSquare axis p g = 1 := by
  have hp : (-p * π * (g + 1 / 2) : ℝ) = -(p * π * (g + 1 / 2)) := by ring
  rw [powerSquare, powerSquare, hp, smul_mul_smul_comm, exp_neg_mul_self, neg_mul, square_axis_inverse, one_smul]

lemma square_inverse (hb : b.onTwo = false) (hp : ps.length = b.arity) :
    (b.inverse ps).1.square (b.inverse ps).2 * b.square ps = 1 := by
  have hfo := square_phase_inverse (π / 4)
  have htwo := square_phase_inverse (π / 2)
  have hfo' := square_phase_inverse (-(π / 4))
  have htwo' := square_phase_inverse (-(π / 2))
  rw [neg_neg] at hfo' htwo'
  cases b <;> simp only [arity, length_eq_zero_iff, length_eq_one_iff, length_eq_two,
    length_eq_three, onTwo, Bool.true_eq_false] at hp hb
  case x | y | z =>
    subst hp
    simp [inverse, square_mul, one_eq_square]
  case h => subst hp; exact square_h_mul_h
  case s => rw [square_s_eq]; exact htwo
  case sdg => rw [inverse, square_s_eq]; exact htwo'
  case t => rw [square_t]; exact hfo
  case tdg => rw [inverse, square_t]; exact hfo'
  case rx => obtain ⟨a, rfl⟩ := hp; exact square_axis_inverse .x a
  case ry => obtain ⟨a, rfl⟩ := hp; exact square_axis_inverse .y a
  case rz => obtain ⟨a, rfl⟩ := hp; exact square_axis_inverse .z a
  case phase => obtain ⟨a, rfl⟩ := hp; exact square_phase_inverse a
  case xPow => obtain ⟨p, g, rfl⟩ := hp; exact square_power_inverse .x p g
  case yPow => obtain ⟨p, g, rfl⟩ := hp; exact square_power_inverse .y p g
  case zPow => obtain ⟨p, g, rfl⟩ := hp; exact square_power_inverse .z p g
  case u3 => obtain ⟨theta, phi, lam, rfl⟩ := hp; exact square_u3_inverse theta phi lam

lemma coupled_inverse {P : Square} (hP : P * P = 1) (a : ℝ) (hi : i ≠ j) (V : Wave) :
    coupled P (-a) i j (coupled P a i j V) = V := by
  have hs := cos_sq_add_sin_sq_complex (a / 2)
  have hp := Operation.select_pair hi P P V
  rw [hP, select_one, select_one] at hp
  simp only [coupled, Operation.select_sub, select_smul, hp, neg_div, cos_neg, sin_neg]
  funext b
  simp only [Pi.sub_apply, Pi.smul_apply, smul_eq_mul, ofReal_neg]
  set c : ℂ := ((cos (a / 2) : ℝ) : ℂ)
  set s : ℂ := ((sin (a / 2) : ℝ) : ℂ)
  linear_combination V b * hs - s * s * V b * I_mul_I

lemma exchange_exchange (hij : i ≠ j) (V : Wave) : exchange i j (exchange i j V) = V := by
  funext b
  refine congrArg V (funext fun k => ?_)
  rcases eq_or_ne k j with rfl | hj
  · simp [hij]
  · rcases eq_or_ne k i with rfl | hi
    · simp [hj]
    · simp [hi, hj]

/-- **The inverse of a base gate undoes it.** -/
theorem act_inverse (hp : ps.length = b.arity) (ht : b.onTwo = true → ts.length = 2) (hn : ts.Nodup) (V : Wave) :
    (b.inverse ps).1.act (b.inverse ps).2 ts (b.act ps ts V) = V := by
  by_cases hb : b.onTwo = true
  · obtain ⟨i, j, rfl⟩ := length_eq_two.mp (ht hb)
    have hi : i ≠ j := by simpa using hn
    have hx : Mat.pauliX.asSquare * Mat.pauliX.asSquare = (1 : Square) :=
      square_inverse (b := .x) rfl (length_nil)
    have hy : Mat.pauliY.asSquare * Mat.pauliY.asSquare = (1 : Square) :=
      square_inverse (b := .y) rfl (length_nil)
    have hz : Mat.pauliZ.asSquare * Mat.pauliZ.asSquare = (1 : Square) :=
      square_inverse (b := .z) rfl (length_nil)
    cases takes hp with
    | rxx a => exact coupled_inverse hx a hi V
    | ryy a => exact coupled_inverse hy a hi V
    | rzz a => exact coupled_inverse hz a hi V
    | swap => exact exchange_exchange hi V
    | _ => cases hb
  · have hb : b.onTwo = false := by simpa using hb
    have hb' : (b.inverse ps).1.onTwo = false := by rw [onTwo_inverse, hb]
    have hco : ∀ M : Square, ∀ t ∈ ts, Blind t fun _ => M := fun M t _ => blind_const t M
    rw [act_single hb, act_single hb', selectEach_selectEach hn (hco _) (hco _),
      square_inverse hb hp, selectEach_one]

lemma length_inverse (hp : ps.length = b.arity) : (b.inverse ps).2.length = (b.inverse ps).1.arity := by
  unfold inverse
  split <;> simp_all [arity]

lemma act_cases {C : (Wave → Wave) → Prop} (hp : ps.length = b.arity) (ht : b.onTwo = true → ts.length = 2)
    (each : C (selectEach ts fun _ => b.square ps))
    (pair : ∀ i ∈ ts, ∀ j ∈ ts, (∀ P a, C (coupled P a i j)) ∧ C (exchange i j)) : C (b.act ps ts) := by
  by_cases hb : b.onTwo = true
  · obtain ⟨i, j, rfl⟩ := length_eq_two.mp (ht hb)
    obtain ⟨hc, he⟩ := pair i (by simp) j (by simp)
    cases takes hp with
    | rxx a | ryy a | rzz a => exact hc _ a
    | swap => exact he
    | _ => cases hb
  · rwa [act_single (by simpa using hb)]

lemma respects_act (hps : ps.length = b.arity) (hts : b.onTwo = true → ts.length = 2) (h : ∀ t ∈ ts, t ∉ cs) :
    Respects (allOn cs) (b.act ps ts) := by
  have hb : ∀ t ∈ ts, Blind t (allOn cs) := fun t ht => blind_allOn (h t ht)
  refine act_cases hps hts (respects_selectEach hb _) fun i hi j hj => ⟨fun P a V W b hV => ?_, fun V W b hV => ?_⟩
  · have hp := (respects_select (hb i hi) fun _ => P).comp (respects_select (hb j hj) fun _ => P) V W b hV
    simp [coupled, Pi.sub_apply, Pi.smul_apply, hp, hV b rfl]
  · exact hV _ ((hb j hj _ _).trans (hb i hi _ _))

end Base

/-! ### Rotations under controls -/

/-- The rotations are among the given ones, or opposite to them. -/
def UpToSign (xs ys : List (Axis × ℝ)) : Prop := ∀ p ∈ xs, p ∈ ys ∨ (p.1, -p.2) ∈ ys

lemma UpToSign.refl (xs : List (Axis × ℝ)) : UpToSign xs xs := fun _ hp => .inl hp

lemma UpToSign.append {xs ys xs' ys' : List (Axis × ℝ)} (h : UpToSign xs ys) (h' : UpToSign xs' ys') :
    UpToSign (xs ++ xs') (ys ++ ys') := by
  intro p hp
  rcases mem_append.mp hp with hp | hp
  · exact (h p hp).imp (mem_append_left _) (mem_append_left _)
  · exact (h' p hp).imp (mem_append_right _) (mem_append_right _)

lemma upToSign_stairTurns (m : ℕ) (a : ℝ) : UpToSign (stairTurns m (-a)) (stairTurns m a) := by
  intro p hp
  obtain ⟨j, hj, rfl⟩ := mem_map.mp hp
  exact .inr (mem_map.mpr ⟨j, hj, by simp [neg_div]⟩)

lemma upToSign_turnsUnder (m : ℕ) (axis : Axis) (a : ℝ) : UpToSign (turnsUnder m axis (-a)) (turnsUnder m axis a) := by
  intro p hp
  rw [turnsUnder] at hp ⊢
  split_ifs at hp ⊢
  · rw [mem_singleton.mp hp, neg_neg]; exact .inr mem_cons_self
  · cases hp

lemma Base.turns_inverse (hps : ps.length = b.arity) (m : ℕ) :
    UpToSign ((b.inverse ps).1.turns (b.inverse ps).2 m) (b.turns ps m) := by
  have hs := upToSign_stairTurns
  have hu := upToSign_turnsUnder
  cases b
  case x | y | z | h | swap => exact .refl _
  case s => exact hs m (π / 2)
  case t => exact hs m (π / 4)
  case sdg =>
    have h := hs m (-(π / 2))
    rwa [neg_neg] at h
  case tdg =>
    have h := hs m (-(π / 4))
    rwa [neg_neg] at h
  case rx | ry | rz =>
    obtain ⟨a, rfl⟩ := length_eq_one_iff.mp hps
    exact hu m _ a
  case phase =>
    obtain ⟨a, rfl⟩ := length_eq_one_iff.mp hps
    exact hs m a
  case xPow | yPow | zPow =>
    obtain ⟨p, g, rfl⟩ := length_eq_two.mp hps
    simp only [inverse, turns, neg_mul]
    exact (hu _ _ _).append (hs _ _)
  case u3 =>
    obtain ⟨theta, phi, lam, rfl⟩ := length_eq_three.mp hps
    have hsu : (-lam + -phi) / 2 = -((phi + lam) / 2) := by ring
    simp only [inverse, turns, hsu]
    intro p hp
    simp only [mem_append] at hp ⊢
    rcases hp with ((hp | hp) | hp) | hp
    · exact (hu _ _ _ p hp).imp (fun h => .inl (.inr h)) fun h => .inl (.inr h)
    · exact (hu _ _ _ p hp).imp (fun h => .inl (.inl (.inr h))) fun h => .inl (.inl (.inr h))
    · exact (hu _ _ _ p hp).imp (fun h => .inl (.inl (.inl h))) fun h => .inl (.inl (.inl h))
    · exact (hs _ _ p hp).imp .inr .inr
  case rxx | ryy | rzz =>
    obtain ⟨a, rfl⟩ := length_eq_one_iff.mp hps
    exact (UpToSign.refl _).append (hu _ _ a)

/-! ### Operations -/

namespace Operation

variable {o : Operation} {t : ℕ}

def inverse : Operation → Operation
  | .of b r ps cs ts => .of (b.inverse ps).1 r (b.inverse ps).2 cs ts
  | .ucr axis angles cs t => .ucr axis (angles.map Neg.neg) cs t
  | .pauliMultiplexor axis angles cs t => .pauliMultiplexor axis (angles.map Neg.neg) cs t
  | .diagonal zs qs => .diagonal (zs.map (starRingEnd ℂ)) qs
  | .globalPhase a => .globalPhase (-a)
  | .identity ts => .identity ts

lemma qubits_inverse (o : Operation) : o.inverse.qubits = o.qubits := by
  cases o <;> rfl

lemma Shaped.inverse (ho : o.Shaped) : o.inverse.Shaped := by
  cases o with
  | of b r ps cs ts =>
    obtain ⟨hp, hcs, ht⟩ := ho
    refine ⟨Base.length_inverse hp, ?_, by rwa [Base.onTwo_inverse]⟩
    cases r with
    | plain | controlled => exact hcs
    | multi =>
      refine hcs.imp_right fun hb => ?_
      subst hb
      rfl
  | ucr axis angles cs t | pauliMultiplexor axis angles cs t => exact (length_map _).trans ho
  | diagonal zs qs =>
    obtain ⟨hlen, hq, hn⟩ := ho
    refine ⟨(length_map _).trans hlen, hq, fun z hz => ?_⟩
    obtain ⟨w, hw, rfl⟩ := mem_map.mp hz
    rw [RCLike.norm_conj]
    exact hn w hw
  | identity ts | globalPhase a => exact ho

lemma Valid.inverse (ho : o.Valid n) : o.inverse.Valid n where
  shaped := ho.shaped.inverse
  nodup := o.qubits_inverse ▸ ho.nodup
  lt := o.qubits_inverse ▸ ho.lt

lemma Good.inverse (ho : o.Good n) : o.inverse.Good n := by
  refine ⟨ho.toValid.inverse, ?_⟩
  cases o with
  | of b r ps cs ts =>
    intro p hp
    rcases Base.turns_inverse ho.shaped.1 cs.length p hp with h | h
    · exact ho.decided p h
    · simpa using (ho.decided _ h).neg
  | _ => simp [Operation.inverse, turns]

lemma blind_indexOf (h : t ∉ cs) : Blind t (indexOf cs) := by
  intro b x
  induction cs with
  | nil => rfl
  | cons c cs ih =>
    obtain ⟨hc, hcs⟩ := ne_and_not_mem_of_not_mem_cons h
    have hbi : Function.update b t x c = b c := Function.update_of_ne (Ne.symm hc) _ _
    change (Function.update b t x c).toNat + 2 * indexOf cs (Function.update b t x) = _
    rw [hbi, ih hcs]
    rfl

lemma select_inverse (axis : Axis) (angles : List ℝ) (h : t ∉ cs) (V : Wave) :
    select t (fun b => (axis.matrix ((angles.map Neg.neg).getD (indexOf cs b) 0)).asSquare)
      (select t (fun b => (axis.matrix (angles.getD (indexOf cs b) 0)).asSquare) V) = V := by
  have hbl := (blind_indexOf h).map fun i => (axis.matrix (angles.getD i 0)).asSquare
  have hn : ∀ i, (angles.map Neg.neg).getD i 0 = -angles.getD i 0 := fun i => by
    simp only [getD_eq_getElem?_getD, getElem?_map]
    cases angles[i]? <;> simp
  rw [select_select hbl]
  refine (congrFun (select_congr fun b => ?_) V).trans (select_one t V)
  rw [hn, Base.square_axis_inverse]

lemma exp_arg_conj_mul (z : ℂ) :
    Complex.exp ((starRingEnd ℂ z).arg * Complex.I) * Complex.exp (z.arg * Complex.I) = 1 := by
  rw [Complex.arg_conj]
  split
  · next h =>
    rw [h, Complex.exp_pi_mul_I]
    norm_num
  · exact exp_neg_mul_self z.arg

/-- **The inverse of an operation undoes it.** -/
theorem act_inverse (ho : o.Valid n) (V : Wave) : o.inverse.act (o.act V) = V := by
  obtain ⟨hs, hn, -⟩ := ho
  cases o with
  | identity ts => rfl
  | of b r ps cs ts =>
    obtain ⟨hp, -, hts⟩ := hs
    obtain ⟨-, htN, hd⟩ := nodup_append.mp hn
    have htwo : b.onTwo = true → ts.length = 2 := fun hb => by simpa [hb] using hts
    have hr : Respects (allOn cs) ((b.inverse ps).1.act (b.inverse ps).2 ts) :=
      Base.respects_act (Base.length_inverse hp) (by rwa [Base.onTwo_inverse]) fun t ht hc => hd t hc t ht rfl
    have hi : (fun V => (b.inverse ps).1.act (b.inverse ps).2 ts (b.act ps ts V)) = id :=
      funext (Base.act_inverse hp htwo htN)
    change gated _ _ (gated _ _ V) = V
    rw [gated_comp hr, hi, gated_id]
    rfl
  | ucr axis angles cs t | pauliMultiplexor axis angles cs t =>
    have ht : t ∉ cs := fun hm => (nodup_append.mp hn).2.2 t hm t (by simp) rfl
    exact select_inverse axis angles ht V
  | diagonal zs qs =>
    funext b
    have hco : (zs.map (starRingEnd ℂ)).getD (indexOf qs b) 1 = starRingEnd ℂ (zs.getD (indexOf qs b) 1) := by
      simp only [getD_eq_getElem?_getD, getElem?_map]
      cases zs[indexOf qs b]? <;> simp
    simp only [act, inverse, hco, ← mul_assoc, exp_arg_conj_mul, one_mul]
  | globalPhase a =>
    simp only [inverse, act_globalPhase, smul_smul, exp_neg_mul_self, one_smul]

/-- **Operations are undone by their inverses, the last one first.** -/
theorem acts_inverse {os : List Operation} (ho : ∀ o ∈ os, o.Valid n) (V : Wave) :
    acts (os.reverse.map inverse) (acts os V) = V := by
  induction os generalizing V with
  | nil => rfl
  | cons o os ih =>
    rw [reverse_cons, map_append, acts_append, acts_cons, ih fun p hp => ho p (mem_cons_of_mem _ hp)]
    exact act_inverse (ho o mem_cons_self) V

end Operation

/-! ### Primitives -/

namespace Primitive

variable {p : Primitive ℝ}

/-- The primitive that undoes a primitive; measurements and resets are taken to do nothing. -/
def inverse : Primitive ℝ → Primitive ℝ
  | .u3 theta phi lam q => .u3 (-theta) (-lam) (-phi) q
  | .phase t => .phase (-t)
  | p => p

lemma act_inverse (hp : p.Within n) (V : Wave) : p.inverse.act (p.act V) = V := by
  cases p with
  | u3 theta phi lam q =>
    change select q _ (select q _ V) = V
    rw [select_select (blind_const q _)]
    exact (congrFun (select_congr fun _ => Base.square_u3_inverse theta phi lam) V).trans (select_one q V)
  | cx c t =>
    have hbl : Blind t (under [c] flipSquare) := blind_under (by simpa using hp.2.2.symm) _
    change select t _ (select t _ V) = V
    rw [select_select hbl]
    refine (congrFun (select_congr fun b => ?_) V).trans (select_one t V)
    rw [under]
    split
    · exact flipSquare_mul_self
    · exact one_mul 1
  | phase t =>
    change _ • _ • V = V
    rw [smul_smul, exp_neg_mul_self, one_smul]
  | measure q | reset q => rfl

lemma Within.inverse (hp : p.Within n) : p.inverse.Within n := by
  cases p <;> exact hp

end Primitive

variable {ps : List (Primitive ℝ)}

lemma run_inverse (hp : ∀ p ∈ ps, p.Within n) (V : Wave) :
    run (ps.reverse.map Primitive.inverse) (run ps V) = V := by
  induction ps generalizing V with
  | nil => rfl
  | cons p ps ih =>
    rw [reverse_cons, map_append, run_append, run_cons, ih fun q hq => hp q (mem_cons_of_mem _ hq)]
    exact Primitive.act_inverse (hp p mem_cons_self) V

lemma exists_mul_matrixOf_run (hps : ∀ p ∈ ps, p.Within n) :
    ∃ L, L * matrixOf n (run ps) = 1 := by
  have hl : Local n (run (ps.reverse.map Primitive.inverse)) := by
    refine local_run fun p hp => ?_
    obtain ⟨q, hq, rfl⟩ := mem_map.mp hp
    exact (hps q (mem_reverse.mp hq)).inverse
  refine ⟨matrixOf n (run (ps.reverse.map Primitive.inverse)), ?_⟩
  rw [← matrixOf_comp hl, ← matrixOf_id]
  exact congrArg (matrixOf n) (funext (run_inverse hps))

lemma Circuit.mul_operator_inj {c : Circuit ℝ} (hn : c.numQubits = n)
    (hc : ∀ p ∈ c.steps, p.Within n) {A B : Matrix (Fin (2 ^ n)) (Fin (2 ^ n)) ℂ} :
    A * c.operator n = B * c.operator n ↔ A = B := by
  obtain ⟨L, hL⟩ := exists_mul_matrixOf_run hc
  rw [operator_eq_matrixOf hn hc]
  refine ⟨fun h => ?_, fun h => h ▸ rfl⟩
  have hR := mul_eq_one_comm.mp hL
  calc A = A * matrixOf n (run c.steps) * L := by rw [mul_assoc, hR, mul_one]
    _ = B * matrixOf n (run c.steps) * L := by rw [h]
    _ = B := by rw [mul_assoc, hR, mul_one]

end QuantumCircuits
