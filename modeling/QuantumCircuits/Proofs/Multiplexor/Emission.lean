import QuantumCircuits.Proofs.Log.Merge
import QuantumCircuits.Proofs.Multiplexor.Extract

/-!
# Multiplexor — Emission

What is emitted for a row of gates.  `Selects t os M` says that the operations `os` do to qubit `t` what
the matrix `M` does, which the other qubits select; such operations compose (`Selects.append`).  A gate is
emitted as its three angles and a phase (`selects_gateOps`), and the negations, Hadamard gates and
rotations between two gates are the pattern between them (`pattern_eq`), so a row of gates with patterns
in between is what a row comes down to (`selects_rowOps`), and it is what is emitted (`carries_emitRow`).
-/

noncomputable section

namespace QuantumCircuits

open Real List Operation Circuit Plan Base Complex UnitaryOperator
open OneQubit (u3)

variable {n : ℕ}
variable {is : List Item}

/-! ### Changes that carry operations out -/

namespace Circuit

variable {p : Plan ℝ Unit} {os : List Operation}

lemma carries_follow (hp : Stands n p os ()) (ho : ∀ o ∈ os, o.Valid n) : Carries n (follow p) (os.map .gate) :=
  Does.carries (does_follow hp ho)

lemma carries_call {o : Operation} (hp : Stands n p [o] ()) (ho : o.Good n) :
    Carries n (follow p) [.gate o] := carries_follow hp (forall_mem_singleton.2 ho.toValid)

lemma carries_ofOutcome {β : Type} {x : Outcome β} {r : β} {f : β → Change (Circuit ℝ) Unit}
    (hx : x = .ok r) (hf : Carries n (f r) is) : Carries n (Change.ofOutcome x >>= f) is := by
  subst hx
  exact hf

lemma carries_forM_mem {ι : Type} {xs : List ι} {f : ι → Change (Circuit ℝ) Unit} {g : ι → List Item}
    (h : ∀ x ∈ xs, Carries n (f x) (g x)) : Carries n (xs.forM f) (xs.flatMap g) := by
  induction xs with
  | nil => exact carries_pure
  | cons x xs ih =>
    exact (h x mem_cons_self).bind (ih fun y hy => h y (mem_cons_of_mem x hy))

lemma Carries.operator {x : Change (Circuit ℝ) Unit} (hx : Carries n x (os.map .gate))
    (hos : ∀ o ∈ os, o.Good n) {c : Circuit ℝ} {g : ℝ} (hc : c.Open n g) (hs : ∀ p ∈ c.steps, p.Within n) :
    ∃ c', c.after x = .ok c' ∧ c'.operator n = matrixOf n (acts os) * c.operator n := by
  obtain ⟨c', es, hp, hop, hs', -⟩ := hx c g hc
  rw [Item.flatMap_prims_gates] at hs'
  have hr : run (os.flatMap prims) = acts os := funext (run_flatMap fun o ho => run_prims (hos o ho))
  refine ⟨c', by rw [after, hp], ?_⟩
  rw [operator_append hc.numQubits hop.numQubits hs' (within_prims fun o ho => (hos o ho).toValid) hs, hr]

end Circuit

namespace Multiplexor

variable {t c k j : ℕ} {M : Mat (Cplx ℝ)} {b : Base} {x : Operand ℝ}

/-! ### Operations on the target -/

/-- Operations that do to qubit `t` what a matrix does that the other qubits select. -/
structure Selects (t : ℕ) (os : List Operation) (M : Register → Square) : Prop where
  blind : Blind t M
  acts : ∀ V, acts os V = select t M V

section Selects

variable {t : ℕ} {os os' : List Operation} {M N : Register → Square}

lemma selects_nil (t : ℕ) : Selects t [] fun _ => 1 := ⟨blind_const t 1, fun V => (select_one t V).symm⟩

lemma Selects.append (h : Selects t os M) (h' : Selects t os' N) : Selects t (os ++ os') fun b => N b * M b where
  blind := h'.blind.mul h.blind
  acts V := by rw [acts_append, h.acts, h'.acts, select_select h.blind]

lemma Selects.congr (h : Selects t os M) (hM : ∀ b, M b = N b) : Selects t os N := by
  obtain rfl : M = N := funext hM; exact h

lemma selects_gate (hb : b.onTwo = false) (ps : List ℝ) (t : ℕ) :
    Selects t [.of b .plain ps [] [t]] fun _ => b.square ps where
  blind := blind_const t _
  acts V := by rw [acts_cons, acts_nil, act_on_eq_select hb]

lemma selects_globalPhase (a : ℝ) (t : ℕ) : Selects t [.globalPhase a] fun _ => exp (a * I) • 1 where
  blind := blind_const t _
  acts V := by rw [select_const_smul, select_one]; rfl

lemma selects_cx (hct : c ≠ t) : Selects t [.cx c t] fun b => if b c then Base.x.square [] else 1 where
  blind := (blind_bit hct).map fun y => if y then x.square [] else 1
  acts V := by
    have ha : (cx c t).act = gated (allOn [c]) (select t fun _ => x.square []) :=
      congrArg (gated (allOn [c])) (act_single rfl [] [t])
    rw [acts_cons, acts_nil, ha, gated_select]
    simp [allOn_cons, allOn_nil, Bool.and_true]

end Selects

/-! ### Single gates -/

/-- The operations that a gate on the target is emitted as. -/
def gateOps (M : Mat (Cplx ℝ)) (t : ℕ) : List Operation :=
  [.general (u3 M).theta (u3 M).phi (u3 M).lam [t], .globalPhase (u3 M).phase]

lemma good_plain {ps : List ℝ} (hb : b.onTwo = false) (hp : ps.length = b.arity) (ht : t < n) :
    (of b .plain ps [] [t]).Good n where
  shaped := ⟨hp, rfl, by rw [hb]; exact fun h => nomatch h⟩
  nodup := nodup_singleton t
  lt := fun q hq => by rwa [mem_singleton.1 hq]
  decided := by simp [turns_plain]

lemma good_gateOps (M : Mat (Cplx ℝ)) (ht : t < n) : ∀ o ∈ gateOps M t, o.Good n := by
  intro o ho
  rcases mem_pair.1 ho with rfl | rfl
  · exact good_plain rfl rfl ht
  · exact good_globalPhase _

/-- **A gate is emitted exactly.** -/
theorem selects_gateOps (hM : M.IsGate) (t : ℕ) : Selects t (gateOps M t) fun _ => M.asSquare := by
  refine ((selects_gate rfl _ t).append (selects_globalPhase _ t)).congr fun b => ?_
  obtain ⟨p, q, r, s, rfl⟩ := hM.small
  rw [smul_mul_assoc, one_mul]
  exact square_u3_angles hM.unitary

lemma exists_build (hM : M.IsGate) : ∃ u : UnitaryOperator ℝ,
    build (.ofMat M) none = .ok u ∧ u.data.toMat? = some M ∧ u.numQubits = 1 := by
  have hu := hM.unitary
  obtain ⟨p, q, r, s, rfl⟩ := hM.small
  have hs : sideLength (Tensor.ofMat (Mat.square2 p q r s)).shape = .ok 2 := by
    simp [sideLength, Tensor.ofMat, Mat.square2, isPowerOfTwo]
  simp only [build, hs, isUnitary_square2 hu, bind, Except.bind, Bool.not_true, Bool.false_eq_true, if_false]
  exact ⟨_, rfl, rfl, rfl⟩

lemma positioned_qubit (hx : x.IsQubit n t) : x.positioned = .list [x] := by
  have hi := hx.isInt
  cases x with
  | int _ | bool _ => rfl
  | _ => exact absurd hi Bool.false_ne_true

lemma stands_plan {basis : OneQubit.Basis} {os : List Operation} {y : Operand ℝ} (hM : M.IsGate)
    (hy : y.positioned = .list [x]) (hg : Stands n (OneQubit.gates basis M x) os ()) :
    Stands n (OneQubit.plan basis (.array (.ofMat M)) y) os () := by
  obtain ⟨u, hu, hd, hn⟩ := exists_build hM
  rw [OneQubit.plan, hy]
  refine Stands.after_get rfl ?_
  refine Stands.after_get hu ?_
  rw [hn, hd]
  exact Stands.after_get (r := x) rfl hg

lemma stands_gates (M : Mat (Cplx ℝ)) (hx : x.IsQubit n t) : Stands n (OneQubit.gates .u3 M x) (gateOps M t) () :=
  .before (stands_u3 rfl rfl rfl hx.isQubits) (stands_globalPhase rfl)

lemma carries_emitGate (R : Routines ℝ) (hM : M.IsGate)
    (hx : x.IsQubit n t) : Carries n (emitGate R x M) ((gateOps M t).map .gate) := by
  obtain ⟨u, hu, hd, hn⟩ := exists_build hM
  have hq : Shannon.qubitsFor x 1 .unitaryQubits = .ok (.list [x]) := by
    have hi := hx.isInt
    cases x with
    | int _ | bool _ => rfl
    | _ => exact absurd hi Bool.false_ne_true
  refine carries_ofOutcome (r := u) hu ?_
  rw [hn, hd]
  refine carries_ofOutcome hq ?_
  have hp := carries_follow (stands_plan (y := .list [x]) hM rfl (stands_gates M hx)) fun o ho => (good_gateOps M hx.lt o ho).toValid
  have ha := hp.bind carries_pure
  rw [append_nil] at ha
  show Carries n (Shannon.expand R 1 0 (.list [x]) M >>= fun blocks =>
    if 2 < 1 then Shannon.mergeDiagonals R (.list [x]) blocks else pure ()) _
  rw [Shannon.expand, bind_assoc]
  exact ha

/-! ### Rows -/

/-- The operations that stand in a row of `N` gates for the `i`-th gate. -/
def stepOps (cs : List ℕ) (t N : ℕ) (M : Mat (Cplx ℝ)) (i : ℕ) : List Operation :=
  (if 0 < i then [.on .h [t], .turn .rz (-(π / 2)) [t]] else []) ++ gateOps M t ++
    if i + 1 < N then [.on .h [t], .cx (cs.getD (trailingZeros (i + 1)) 0) t, .globalPhase (-(π / 2 / 2))] else []

def rowOps (cs : List ℕ) (t : ℕ) (w : Row ℝ) : List Operation :=
  (range w.gates.size).flatMap fun i => stepOps cs t w.gates.size (w.gates.getD i default) i

/-- What stands behind a gate that is not the last one, by the value of the control. -/
def link (y : Bool) : Square := exp ((-(π / 2 / 2) : ℝ) * I) • ((if y then Base.x.square [] else 1) * Base.h.square [])

lemma pattern_eq (y : Bool) : rz.square [-(π / 2)] * h.square [] * link y = pattern y := by
  have hfl : h.square [] * (if y then x.square [] else 1) * h.square [] = diag 1 (if y then -1 else 1) := by
    cases y with
    | false =>
      rw [if_neg Bool.false_ne_true, if_neg Bool.false_ne_true, mul_one, square_h_mul_h, diag_one]
    | true =>
      rw [if_pos rfl, if_pos rfl, square_h_x_h]
      exact square_z []
  have hp : exp ((-(π / 2 / 2) : ℝ) * I) • rz.square [-(π / 2)] = diag 1 (-I) := by
    have h1 : exp ((-(π / 2 / 2) : ℝ) * I) * exp ((-(-(π / 2)) / 2 : ℝ) * I) = 1 := by
      rw [← exp_angle_add, show -(π / 2 / 2) + -(-(π / 2)) / 2 = 0 by ring, ofReal_zero, zero_mul, Complex.exp_zero]
    have h2 : exp ((-(π / 2 / 2) : ℝ) * I) * exp ((-(π / 2) / 2 : ℝ) * I) = -I := by
      rw [← exp_angle_add, show -(π / 2 / 2) + -(π / 2) / 2 = -(π / 2) by ring, exp_minus_quarter]
    rw [square_rz, smul_square, h1, h2, mul_zero, diag]
  calc rz.square [-(π / 2)] * h.square [] * link y = (exp ((-(π / 2 / 2) : ℝ) * I) • rz.square [-(π / 2)]) *
          (h.square [] * (if y then x.square [] else 1) * h.square []) := by
        rw [link, mul_smul_comm, smul_mul_assoc]
        simp [mul_assoc]
    _ = pattern y := by
        rw [hp, hfl, diag_mul, pattern]
        cases y <;> simp

lemma trailingZeros_lt {m : ℕ} (h0 : k ≠ 0) (hk : k < 2 ^ m) : trailingZeros k < m := by
  induction m generalizing k with
  | zero => omega
  | succ m ih =>
    rw [trailingZeros, dif_neg h0]
    split
    · exact Nat.succ_lt_succ (ih (by omega) (by rw [pow_succ'] at hk; omega))
    · exact Nat.succ_pos m

lemma testBit_indexOf (cs : List ℕ) (b : Register) (hj : j < cs.length) :
    (indexOf cs b).testBit j = b (cs.getD j 0) := by
  induction cs generalizing j with
  | nil => exact absurd hj (Nat.not_lt_zero j)
  | cons c cs ih =>
    change ((b c).toNat + 2 * indexOf cs b).testBit j = _
    cases j with
    | zero => cases hb : b c <;> simp [hb]
    | succ j =>
      have hh : ((b c).toNat + 2 * indexOf cs b) / 2 = indexOf cs b := by
        have hbi := Bool.toNat_le (b c)
        omega
      rw [Nat.testBit_succ, hh, ih (Nat.lt_of_succ_lt_succ hj)]
      rfl

section Row

variable {cs : List ℕ} {t : ℕ}
variable {w : Row ℝ} {i : ℕ}

lemma selects_front (t i : ℕ) : Selects t (if 0 < i then [.on .h [t], .turn .rz (-(π / 2)) [t]] else [])
      fun _ => if 0 < i then rz.square [-(π / 2)] * h.square [] else 1 := by
  split
  · exact (selects_gate rfl [] t).append (selects_gate rfl [-(π / 2)] t)
  · exact selects_nil t

lemma selects_back (hct : c ≠ t) :
    Selects t [.on .h [t], .cx c t, .globalPhase (-(π / 2 / 2))] fun b => link (b c) := by
  refine ((selects_gate rfl [] t).append ((selects_cx hct).append (selects_globalPhase _ t))).congr fun b => ?_
  rw [link, smul_mul_assoc, one_mul, smul_mul_assoc]

/-- **The first gates of a row** multiply with the patterns between them, up to what stands behind the last. -/
theorem selects_row (hw : w.Proper (2 ^ cs.length)) (ht : t ∉ cs) (hk : k ≤ 2 ^ cs.length) :
    Selects t ((range k).flatMap fun i => stepOps cs t w.gates.size (w.gates.getD i default) i) fun b =>
      (if 0 < k ∧ k < 2 ^ cs.length then link (b (cs.getD (trailingZeros k) 0)) else 1) *
        braid w.square (between 0 (indexOf cs b)) k := by
  induction k with
  | zero =>
    refine (selects_nil t).congr fun b => ?_
    rw [if_neg (by omega), one_mul, braid]
  | succ k ih =>
    rw [range_succ, flatMap_append, flatMap_singleton, hw.size]
    have hg := selects_gateOps (hw.isGate k hk) t
    have hba : Selects t (if k + 1 < 2 ^ cs.length then
          [.on .h [t], .cx (cs.getD (trailingZeros (k + 1)) 0) t, .globalPhase (-(π / 2 / 2))] else [])
        fun b => if k + 1 < 2 ^ cs.length then link (b (cs.getD (trailingZeros (k + 1)) 0)) else 1 := by
      split
      next hlt =>
        have hi : trailingZeros (k + 1) < cs.length := trailingZeros_lt k.succ_ne_zero hlt
        refine selects_back fun h => ht ?_
        rw [← h, getD_eq_getElem?_getD, getElem?_eq_getElem hi, Option.getD_some]
        exact getElem_mem hi
      next => exact selects_nil t
    have hp := ih (by omega)
    rw [hw.size] at hp
    refine (hp.append (((selects_front t k).append hg).append hba)).congr fun b => ?_
    have hbe : (if 0 < k then rz.square [-(π / 2)] * h.square [] else 1) *
        (if 0 < k ∧ k < 2 ^ cs.length then link (b (cs.getD (trailingZeros k) 0)) else 1) =
          between 0 (indexOf cs b) k := by
      rcases Nat.eq_zero_or_pos k with rfl | hpo
      · rw [if_neg (by omega), if_neg (by omega), mul_one]
        rfl
      · rw [if_pos hpo, if_pos ⟨hpo, hk⟩, pattern_eq, between, if_neg (by omega), Nat.zero_add,
          testBit_indexOf cs b (trailingZeros_lt (by omega) hk)]
    rw [braid, ← hbe, Row.square]
    simp [mul_assoc]

/-- **A row of gates.** -/
theorem selects_rowOps (hw : w.Proper (2 ^ cs.length)) (ht : t ∉ cs) :
    Selects t (rowOps cs t w) fun b => braid w.square (between 0 (indexOf cs b)) (2 ^ cs.length) := by
  have h := selects_row hw ht (Nat.le_refl (2 ^ cs.length))
  rw [rowOps, hw.size]
  rw [hw.size] at h
  exact h.congr fun b => by rw [if_neg fun h => Nat.lt_irrefl _ h.2, one_mul]

lemma getD_control (hnodup : (t :: cs).Nodup) (hlt : ∀ q ∈ t :: cs, q < n) (hj : j < cs.length) :
    cs.getD j 0 < n ∧ cs.getD j 0 ≠ t := by
  have hm : cs.getD j 0 ∈ cs := by
    rw [getD_eq_getElem?_getD, getElem?_eq_getElem hj, Option.getD_some]; exact getElem_mem hj
  exact ⟨hlt _ (mem_cons_of_mem t hm), fun h => (nodup_cons.1 hnodup).1 (h ▸ hm)⟩

lemma good_stepOps (hnodup : (t :: cs).Nodup) (hlt : ∀ q ∈ t :: cs, q < n) (M : Mat (Cplx ℝ)) :
    ∀ o ∈ stepOps cs t (2 ^ cs.length) M i, o.Good n := by
  have ht : t < n := hlt t mem_cons_self
  intro o ho
  rw [stepOps, mem_append, mem_append] at ho
  rcases ho with (ho | ho) | ho
  · split at ho
    · rcases mem_pair.1 ho with rfl | rfl
      · exact good_plain rfl rfl ht
      · exact good_plain rfl rfl ht
    · exact absurd ho not_mem_nil
  · exact good_gateOps M ht o ho
  · split at ho
    next hi =>
      obtain ⟨hc, hct⟩ := getD_control hnodup hlt (trailingZeros_lt i.succ_ne_zero hi)
      simp only [mem_cons, not_mem_nil, or_false] at ho
      rcases ho with rfl | rfl | rfl
      · exact good_plain rfl rfl ht
      · exact good_cx hc ht hct
      · exact good_globalPhase _
    next => exact absurd ho not_mem_nil

lemma good_rowOps (hw : w.Proper (2 ^ cs.length)) (hnodup : (t :: cs).Nodup) (hlt : ∀ q ∈ t :: cs, q < n) :
    ∀ o ∈ rowOps cs t w, o.Good n := by
  intro o ho
  rw [rowOps, hw.size] at ho
  obtain ⟨i, -, ho⟩ := mem_flatMap.1 ho
  exact good_stepOps hnodup hlt _ o ho

section Emit

variable {R : Routines ℝ} {controls target : Operand ℝ} (hnodup : (t :: cs).Nodup) (hlt : ∀ q ∈ t :: cs, q < n)
  (hcontrols : controls.IsSequence n cs) (htarget : target.IsQubit n t)
include htarget

lemma carries_front {f : Unit → Change (Circuit ℝ) Unit} (hf : Carries n (f ()) is) : Carries n (do
      follow (on .h target)
      f (← follow (turnBy .rz (-(Scalar.pi / 2.0)) target))) ([.gate (.on .h [t]), .gate (.turn .rz (-(π / 2)) [t])] ++ is) := by
  have ht : t < n := htarget.lt
  have ho := carries_call (stands_on (b := .h) rfl htarget.isQubits) (good_plain rfl rfl ht)
  have htu := carries_call (stands_turn (b := .rz) rfl isNumber_minusHalf htarget.isQubits) (good_plain rfl rfl ht)
  exact ho.bind (htu.bind hf)

include hnodup hlt hcontrols

lemma carries_back (hi : i + 1 < 2 ^ cs.length) : Carries n (do
      follow (on .h target)
      let c ← Change.ofOutcome (controls.item (trailingZeros (i + 1)))
      follow (cx c target)
      follow (globalPhase (.real (-(Scalar.pi / 4.0))))) [.gate (.on .h [t]),
        .gate (.cx (cs.getD (trailingZeros (i + 1)) 0) t), .gate (.globalPhase (-(π / 2 / 2)))] := by
  have ht : t < n := htarget.lt
  have hin := trailingZeros_lt i.succ_ne_zero hi
  obtain ⟨hc, hct⟩ := getD_control hnodup hlt hin
  obtain ⟨c, hit, hq⟩ := hcontrols.item hin
  have ho := carries_call (stands_on (b := .h) rfl htarget.isQubits) (good_plain rfl rfl ht)
  have hcx := carries_call (stands_cx hq htarget) (good_cx hc ht hct)
  have hn : (Operand.real (-(Scalar.pi / 4.0) : ℝ)).IsNumber (-(π / 2 / 2)) := by
    have hh : π / 2 / 2 = π / 4 := by ring
    simp [hh]
  have hp := carries_call (n := n) (stands_globalPhase hn) (good_globalPhase _)
  exact ho.bind (carries_ofOutcome hit (hcx.bind hp))

/-- **One gate of a row is emitted.** -/
theorem carries_step (hcs : cs ≠ []) (hM : M.IsGate) (hi : i < 2 ^ cs.length) : Carries n (do
      if 0 < i then
        follow (on .h target)
        follow (turnBy .rz (-(Scalar.pi / 2.0)) target)
      emitGate R target M
      if i + 1 < 2 ^ cs.length ∨ i = 0 then follow (on .h target)
      if i + 1 < 2 ^ cs.length then
        let c ← Change.ofOutcome (controls.item (trailingZeros (i + 1)))
        follow (cx c target)
        follow (globalPhase (.real (-(Scalar.pi / 4.0)))))
      ((stepOps cs t (2 ^ cs.length) M i).map .gate) := by
  have hg := carries_emitGate R hM htarget
  have htwo : 0 + 1 < 2 ^ cs.length := Nat.pow_le_pow_right (by decide : 1 ≤ 2) (length_pos_of_ne_nil hcs)
  rw [stepOps, append_assoc, map_append, map_append]
  rcases Nat.eq_zero_or_pos i with rfl | hp
  · have hba := carries_back hnodup hlt hcontrols htarget htwo
    rw [if_neg (Nat.lt_irrefl 0), if_neg (Nat.lt_irrefl 0), if_pos (.inr rfl), if_pos htwo, if_pos htwo]
    exact hg.bind hba
  · rw [if_pos hp, if_pos hp]
    refine carries_front htarget ?_
    by_cases hl : i + 1 < 2 ^ cs.length
    · rw [if_pos (.inl hl), if_pos hl, if_pos hl]
      exact hg.bind (carries_back hnodup hlt hcontrols htarget hl)
    · rw [if_neg (by omega), if_neg hl, if_neg hl]
      exact hg.bind carries_pure

/-- **A row of gates is emitted.** -/
theorem carries_emitRow (hcs : cs ≠ []) (hw : w.Proper (2 ^ cs.length)) :
    Carries n (emitRow R controls target w.gates.toList) ((rowOps cs t w).map .gate) := by
  have hs : w.gates.toList.length = 2 ^ cs.length := by rw [Array.length_toList, hw.size]
  have hzi : w.gates.toList.zipIdx = (range (2 ^ cs.length)).map fun i => (w.gates.getD i default, i) := by
    refine ext_getElem (by simp [hw.size]) fun i hi _ => ?_
    have hi' : i < w.gates.size := by simpa using hi
    simp [Array.getD_eq_getD_getElem?, hi']
  have ho : (rowOps cs t w).map Item.gate = ((range (2 ^ cs.length)).map fun i => (w.gates.getD i default, i)).flatMap
      fun p => (stepOps cs t (2 ^ cs.length) p.1 p.2).map .gate := by
    rw [rowOps, hw.size, map_flatMap, flatMap_map]
  rw [emitRow, hs, hzi, ho]
  refine carries_forM_mem fun p hp => ?_
  obtain ⟨i, hi, rfl⟩ := mem_map.1 hp
  rw [mem_range] at hi
  exact carries_step hnodup hlt hcontrols htarget hcs (hw.isGate i hi) hi

end Emit

end Row

end Multiplexor

end QuantumCircuits

end
