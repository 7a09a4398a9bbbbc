import QuantumCircuits.Proofs.Meaning.Halves
import QuantumCircuits.Proofs.Operation.Plans

/-!
# Operation — Rotation plans

Rotations under controls.  The matrix of a rotation passes the tests of the construction, and so
does the one-qubit gate that the construction takes from it, whatever the tolerances decide.
-/

noncomputable section

namespace QuantumCircuits

open Real ControlledRotation List Operation Cplx Mat
open OneQubit (u3)

/-! ### The tests of the construction -/

lemma det2_matrix (axis : Axis) (a : ℝ) : (axis.matrix a).det2 = .one := by
  have hu : cos (a / 2) ^ 2 + sin (a / 2) ^ 2 = 1 := cos_sq_add_sin_sq _
  apply value_injective
  cases axis with
  | x =>
    change (ofReal (cos (a / 2.0)) * .ofReal (cos (a / 2.0)) -
      ⟨0.0, -sin (a / 2.0)⟩ * ⟨0.0, -sin (a / 2.0)⟩ : Cplx ℝ).value = _
    apply Complex.ext <;> simp [-Complex.ofReal_cos, -Complex.ofReal_sin]
    linarith
  | y =>
    change (ofReal (cos (a / 2.0)) * .ofReal (cos (a / 2.0)) -
      .ofReal (-sin (a / 2.0)) * .ofReal (sin (a / 2.0)) : Cplx ℝ).value = _
    apply Complex.ext <;> simp [-Complex.ofReal_cos, -Complex.ofReal_sin]
    linarith
  | z =>
    change (Cplx.turn (-a / 2.0) * Cplx.turn (a / 2.0) - zero * zero : Cplx ℝ).value = _
    rw [value_sub, value_mul, value_mul, value_turn, value_turn, ← exp_angle_add]
    simp [neg_div]

/-- **A rotation passes the tests of the construction.** -/
theorem shape_matrix (axis : Axis) (a : ℝ) : shape (.ofMat (axis.matrix a)) = .ok (readShape (axis.matrix a)) := by
  have hr := matrix_real axis a
  have hu := matrix_unitary axis a
  have hd := det2_matrix axis a
  obtain ⟨p, q, r, s, hM⟩ := matrix_square2 axis a
  rw [hM] at hr hu hd ⊢
  have hU : (⟨2, 2, (Tensor.ofMat (square2 p q r s)).entries⟩ : Mat (Cplx ℝ)) = square2 p q r s := rfl
  have hs : (Tensor.ofMat (square2 p q r s)).shape = [2, 2] := rfl
  simp only [shape, hs, hU, hd, isUnitary_square2 hu, isClose_self, ne_eq,
    not_true_eq_false, if_false, Bool.not_true, Bool.false_eq_true, readShape]
  set second := close ((square2 p q r s).get 0 1).im 0.0 && close ((square2 p q r s).get 1 0).im 0.0
  cases hsn : second with
  | true => simp
  | false =>
    have hm := hr.resolve_left (by simp [hsn])
    simp only [hm.1, hm.2, close_zero, Bool.and_self, Bool.not_true, Bool.false_and, Bool.false_eq_true, if_false]

/-! ### The one-qubit gate and its inverse -/

def anglesOperand (xs : List ℝ) : Operand ℝ := .list (xs.map .real)

/-- An angle as an operand, unless it is zero. -/
def phaseOperand (x : ℝ) : Option (Operand ℝ) := if x = 0 then none else some (.real x)

lemma checkAngles_real (x : ℝ) : checkAngles (.real x) = .ok (phaseOperand (snap x)) := by
  have ha : checkAngle (.real x) = .ok (.real (snap x)) := by
    by_cases h : isZeroAngle x = true <;> simp [checkAngle, snap, h, Operand.toReal, bind, Except.bind]
  rw [checkAngles.eq_2 (.real x) (fun _ h => by cases h), ha]
  simp [bind, Except.bind, phaseOperand, (Operand.isNumber_real.mpr rfl).isZero, decide_eq_true_eq]

lemma checkAngles_snapAll (xs : List ℝ) : checkAngles (anglesOperand xs) = .ok ((snapAll xs).map anglesOperand) := by
  rw [anglesOperand, checkAngles_reals, snapAll]
  split <;> rfl

/-- The gates placed for a one-qubit unitary. -/
def factorOf (a : OneQubit.Angles ℝ) : Factor ℝ :=
  ⟨(snapAll [a.theta, a.phi, a.lam]).map anglesOperand, phaseOperand (snap a.phase)⟩

def inverseOf (a : OneQubit.Angles ℝ) : Factor ℝ :=
  ⟨((snapAll [a.theta, a.phi, a.lam]).bind fun xs =>
      snapAll [-xs.getD 0 0, -xs.getD 2 0, -xs.getD 1 0]).map anglesOperand,
    if snap a.phase = 0 then none else phaseOperand (snap (-snap a.phase))⟩

lemma ofAngles_real (a : OneQubit.Angles ℝ) :
    Factor.ofAngles (.real a.theta) (.real a.phi) (.real a.lam) (.real a.phase) = .ok (factorOf a) := by
  have hr : checkAngles (.list [.real a.theta, .real a.phi, .real a.lam]) = .ok _ :=
    checkAngles_snapAll [a.theta, a.phi, a.lam]
  simp [Factor.ofAngles, factorOf, hr, checkAngles_real, bind, Except.bind]

lemma factor_root (axis : Axis) (a : ℝ) :
    factor (root (readShape (axis.matrix a))) = .ok (factorOf (rootAngles axis a)) := by
  have hun := root_unitary (readShape_norm axis a)
  obtain ⟨p, q, r, s, hr⟩ := root_eq_square2 (readShape (axis.matrix a))
  have ha : rootAngles axis a = u3 (square2 p q r s) := by rw [rootAngles, hr]
  rw [hr] at hun ⊢
  have hbu : ∃ u, UnitaryOperator.build (.ofMat (square2 p q r s)) none = .ok u ∧
      u.data = .ofMat (square2 p q r s) := by
    have hs : UnitaryOperator.sideLength (Tensor.ofMat (square2 p q r s)).shape = .ok 2 := by
      simp [UnitaryOperator.sideLength, Tensor.ofMat, square2, isPowerOfTwo]
    simp only [UnitaryOperator.build, hs, isUnitary_square2 hun, bind, Except.bind,
      Bool.not_true, Bool.false_eq_true, if_false]
    exact ⟨_, rfl, rfl⟩
  obtain ⟨u, hu, hd⟩ := hbu
  have hm : ((Tensor.ofMat (square2 p q r s)).toMat?).getD (square2 p q r s) = square2 p q r s := rfl
  rw [factor, hu]
  simp [bind, Except.bind, hd, hm, ← ha, ofAngles_real]

lemma factorOf_inverse (a : OneQubit.Angles ℝ) : (factorOf a).inverse = .ok (inverseOf a) := by
  have hn : ∀ x : ℝ, (Operand.real x).negate = .ok (.real (-x)) := fun _ => rfl
  have hi : ∀ x y z : ℝ, invertAngles (anglesOperand [x, y, z]) =
      .ok (anglesOperand [-x, -z, -y]) := fun _ _ _ => rfl
  have hca : snapAll [a.theta, a.phi, a.lam] = none ∨
      snapAll [a.theta, a.phi, a.lam] = some [snap a.theta, snap a.phi, snap a.lam] := by
    rw [snapAll]
    split
    · exact Or.inl rfl
    · exact Or.inr rfl
  rcases hca with h | h <;> by_cases h' : snap a.phase = 0 <;>
    simp only [Factor.inverse, factorOf, inverseOf, phaseOperand, h, h', if_true, if_false,
      Option.map_some, Option.map_none, Option.bind_some, Option.bind_none, bind, Except.bind,
      hi, checkAngles_snapAll, hn, checkAngles_real, getD_cons_zero,
      getD_cons_succ]

/-! ### Their plans -/

namespace Plan

variable {n : ℕ} {x : Operand ℝ} {t : ℕ}

lemma stands_angles (ys : List ℝ) (hx : x.IsQubit n t) :
    Stands n (call (.of .u3 .plain) [anglesOperand ys, x]) [.of .u3 .plain ys [] [t]] () := by
  refine stands_call (o := .of .u3 .plain ys [] [t]) rfl (.cons ?_ (.cons hx.isQubits .nil))
  induction ys with
  | nil => exact Forall₂.nil
  | cons y ys ih => exact Forall₂.cons rfl ih

lemma stands_put_factor {f : Factor ℝ} {xs : Option (List ℝ)} {y : Option ℝ}
    (hr : f.rotation = xs.map anglesOperand) (hp : f.phase = y.map .real) (hx : x.IsQubit n t) :
    Stands n (f.put false x) ((xs.toList.map fun ys => .of .u3 .plain ys [] [t]) ++ y.toList.map .globalPhase) () ∧
      Stands n (f.put true x) (y.toList.map .globalPhase ++ xs.toList.map fun ys => .of .u3 .plain ys [] [t]) () := by
  have hs : Stands n (skip : Plan ℝ Unit) [] () := stands_pure ()
  have ht : ∀ a, Stands n (globalPhase (.real a)) [.globalPhase a] () := fun a =>
    stands_globalPhase rfl
  rw [Factor.put, Factor.put, hx.isInt, hr, hp]
  cases xs with
  | none =>
    cases y with
    | none => exact ⟨hs.bind hs, hs.bind hs⟩
    | some a => exact ⟨hs.bind (ht a), (ht a).bind hs⟩
  | some ys =>
    have hys := stands_angles ys hx
    cases y with
    | none => exact ⟨hys.bind hs, hs.bind hys⟩
    | some a => exact ⟨hys.bind (ht a), (ht a).bind hys⟩

lemma stands_put (a : OneQubit.Angles ℝ) (hx : x.IsQubit n t) :
    Stands n ((factorOf a).put false x) (placed a t) () := by
  have hp := (stands_put_factor (f := factorOf a) (y := if snap a.phase = 0 then none else some (snap a.phase)) rfl
    (by rw [factorOf, phaseOperand]; split <;> rfl) hx).1
  rw [placed]
  split <;> simp_all

lemma stands_put_inverse (a : OneQubit.Angles ℝ) (hx : x.IsQubit n t) :
    Stands n ((inverseOf a).put true x) (unplaced a t) () := by
  have hp := (stands_put_factor (f := inverseOf a)
    (y := if snap a.phase = 0 ∨ snap (-snap a.phase) = 0 then none else some (snap (-snap a.phase))) rfl
    (by rw [inverseOf, phaseOperand]; split <;> split <;> simp_all) hx).2
  rw [unplaced]
  split <;> simp_all

/-! ### Rotations -/

section Rotations

variable {xs : List (Operand ℝ)} {cs : List ℕ}
variable {z : Operand ℝ} {a : ℝ}

lemma length_le_of_lt {qs : List ℕ} (hn : qs.Nodup) (h : ∀ q ∈ qs, q < n) : qs.length ≤ n := by
  have hs : qs ⊆ range n := fun q hq => mem_range.mpr (h q hq)
  simpa using (hn.subperm hs).length_le

/-- **A matrix on one target under two or more controls**, if it passes the tests. -/
theorem stands_rounds {T : Tensor ℝ} {s : Shape ℝ} {a : OneQubit.Angles ℝ} (hs : shape T = .ok s)
    (ha : factor (root s) = .ok (factorOf a)) (hxs : Forall₂ (Operand.IsQubit n) xs cs)
    (hx : x.IsQubit n t) (h2 : 2 ≤ cs.length) (ht : t ∉ cs) (hn : cs.length < n) :
    Stands n (ControlledRotation.plan n (.list xs) x T) (roundsParts s.secondReal a cs t) () := by
  set half := (cs.length + 1) / 2
  set rest := cs.length / 2
  have hl : (Operand.list xs).length = .ok cs.length := by rw [← hxs.length_eq]; rfl
  have hcu : ∀ i j, Forall₂ (Operand.IsQubit n) ((xs.take j).drop i) ((cs.take j).drop i) :=
    fun i j => forall₂_drop _ (forall₂_take _ hxs)
  have hsu : ∀ i j, t ∉ (cs.take j).drop i := fun i j hm =>
    ht (mem_of_mem_take (mem_of_mem_drop hm))
  have hlen : ∀ i j, ((cs.take j).drop i).length = min j cs.length - i := by simp
  have hne : ∀ i j, i < min j cs.length → (cs.take j).drop i ≠ [] := by
    intro i j hi hni
    have := hlen i j
    rw [hni, length_nil] at this
    omega
  have hfi : Stands n (Chain.plan n (.list ((xs.take half).drop 0)) x (.list ((xs.take (2 * half - 2)).drop half)))
      (chainParts (cs.take half) ((cs.take (2 * half - 2)).drop half) t) () :=
    stands_chain (hcu 0 half) (hcu half (2 * half - 2)) hx (hsu _ _) (hne 0 half (by omega))
      (.inl (by rw [hlen]; simp; omega)) (by rw [hlen]; simp; omega)
  have hsn : Stands n (Chain.plan n (.list ((xs.take cs.length).drop half)) x
      (.list ((xs.take half).drop (half - rest + 2))))
      (chainParts (cs.drop half) ((cs.take half).drop (half - rest + 2)) t) () := by
    have h := stands_chain (hcu half cs.length) (hcu (half - rest + 2) half) hx (hsu _ _)
      (hne half cs.length (by omega)) (.inl (by rw [hlen, hlen]; omega)) (by rw [hlen, hlen]; omega)
    rwa [take_length] at h
  have hpu := stands_put a hx
  have hba := stands_put_inverse a hx
  have hfr : ∀ {p : Plan ℝ Unit} {os : List Operation}, Stands n p os () →
      Stands n (if (!s.secondReal) = true then do on .h x; p else p)
        ((if s.secondReal then [] else [Operation.on .h [t]]) ++ os) () := by
    intro p os hp
    cases s.secondReal with
    | true => exact hp
    | false => exact .before (stands_on rfl hx.isQubits) hp
  refine .after_get hs (.after_get ha ?_)
  refine .after_get (factorOf_inverse _) (.after_get hl ?_)
  rw [roundsParts, append_assoc, append_assoc, rounds]
  refine hfr ?_
  have hr : ∀ {first second p : Plan ℝ Unit} {os₁ os₂ os : List Operation},
      Stands n first os₁ () → Stands n second os₂ () → Stands n p os () → Stands n (do
          first
          (factorOf a).put false x
          second
          (inverseOf a).put true x
          p)
        (os₁ ++ placed a t ++ os₂ ++ unplaced a t ++ os) () := by
    intro _ _ _ _ _ _ hfi hsn hp
    simp only [append_assoc]
    exact hfi.bind (hpu.bind (hsn.bind (hba.bind hp)))
  refine hr (.after_get rfl (.after_get rfl hfi)) (.after_get rfl (.after_get rfl hsn)) ?_
  refine hr (.after_get rfl (.after_get rfl hfi)) (.after_get rfl (.after_get rfl hsn)) ?_
  simpa using hfr (stands_pure ())

lemma matrix_number (hz : z.IsNumber a) (axis : Axis) (word : String) (deepens : Bool) :
    ControlledRotation.matrix word axis.matrix deepens z = .ok (.ofMat (axis.matrix a)) := by
  have hbu : ∀ label, ∃ g, GateMatrix.build label (.ofMat (axis.matrix a)) = .ok g ∧ g.matrix = axis.matrix a := by
    intro label
    have hu := matrix_unitary axis a
    obtain ⟨p, q, r, s, hM⟩ := matrix_square2 axis a
    rw [hM] at hu ⊢
    rw [GateMatrix.build, isUnitary_square2 hu]
    exact ⟨_, rfl, rfl⟩
  have hr : GateMatrix.realAngle z = .ok a := by
    have ht := hz.toReal
    cases z with
    | int _ | bool _ | real _ => exact ht
    | _ => exact hz.elim
  obtain ⟨g, hg, hm⟩ := hbu ⟨word, [z], 0⟩
  have hro : GateMatrix.rotation word axis.matrix deepens z = .ok g := by
    cases z with
    | int _ | bool _ | real _ =>
      simp [GateMatrix.rotation, GateMatrix.unpacked, hr, hg, bind, Except.bind]
    | _ => exact hz.elim
  rw [matrix, hro, ← hm]
  rfl

/-- **A rotation of one target under controls.** -/
theorem stands_rotation (axis : Axis) (hz : z.IsNumber a)
    (hxs : Forall₂ (Operand.IsQubit n) xs cs) (hx : x.IsQubit n t) (h0 : cs ≠ []) (ht : t ∉ cs)
    (hn : cs.length < n) : Stands n (ControlledRotation.rotation n axis z (.list xs) x)
      (rotationParts axis a cs t) () := by
  have hlen : (Operand.list xs).length = .ok cs.length := by rw [← hxs.length_eq]; rfl
  refine .after_get hlen ?_
  match xs, cs, hxs with
  | [], [], .nil => exact absurd rfl h0
  | [y], [c], .cons hy .nil =>
    obtain ⟨w, hw, hne⟩ := hz.negate
    have hh : z.quotient 2.0 = .ok (.real (a / 2)) := by simpa using hz.quotient 2.0
    have hm : (do (← z.negate).quotient 2.0) = Except.ok (.real (-a / 2)) := by
      rw [hw]; change w.quotient 2.0 = _; simpa using hne.quotient 2.0
    rw [if_pos (by rfl)]
    refine .after_get rfl ?_
    cases axis with
    | x =>
      refine .before (stands_on rfl hx.isQubits) (.before (stands_cx hy hx) ?_)
      refine .after_get hm (.before (stands_turn rfl rfl hx.isQubits) ?_)
      refine .before (stands_cx hy hx) (.after_get hh ?_)
      exact .before (stands_turn rfl rfl hx.isQubits) (stands_on rfl hx.isQubits)
    | y | z =>
      refine .after_get hh (.before (stands_turn rfl rfl hx.isQubits) ?_)
      refine .before (stands_cx hy hx) (.after_get hm ?_)
      exact .before (stands_turn rfl rfl hx.isQubits) (stands_cx hy hx)
  | y :: y' :: ys, c :: c' :: cs', hxs =>
    rw [if_neg (by simp)]
    have hp := stands_rounds (shape_matrix axis a) (factor_root axis a) hxs hx (by simp) ht hn
    cases axis with
    | x => exact .after_get (matrix_number hz .x "RX" true) hp
    | y => exact .after_get (matrix_number hz .y "RY" true) hp
    | z => exact .after_get (matrix_number hz .z "RZ" false) hp

end Rotations

end Plan

end QuantumCircuits

end
