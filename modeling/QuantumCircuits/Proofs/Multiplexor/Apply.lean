import QuantumCircuits.Proofs.Multiplexor.Selected

/-!
# Multiplexor — Apply

What a circuit does after a call for gates that are selected by controls (`operator_apply`).  Controls that
the gates do not depend on can be left out before; gates count as equal there if their entries are close,
so gates that are close but not equal are merged (`not_operator_apply_close`).  The controls that are left come
out of a hash table, which keeps the order of fewer than eight (`ordered_of_lt`) but not of more.
-/

namespace QuantumCircuits.Multiplexor

open Real Cplx

variable {n : ℕ} {R : Routines ℝ} {cs : List ℕ} {t : ℕ}

/-- **Gates selected by controls**: the call goes through on every circuit that was made by calls, and
multiplies its matrix by the gates that the controls select, the first control being the lowest bit.  Where
controls may be left out, gates that are taken for equal have to be equal, and the controls that are left
have to keep their order. -/
theorem operator_apply (hR : R.Splits) {ms : List (Mat (Cplx ℝ))} (hlen : ms.length = 2 ^ cs.length)
    (hms : ∀ M ∈ ms, M.IsGate) {controls target : Operand ℝ} (hcontrols : controls.IsQubits n cs)
    (htarget : target.IsQubit n t) (hnodup : (t :: cs).Nodup) (simplifying : Bool)
    (hclose : simplifying = true → ∀ M ∈ ms, ∀ N ∈ ms, closeGates M N = true → M = N)
    (horder : simplifying = true → Ordered closeGates ms cs.length)
    {c : Circuit ℝ} {is : List Item} (hc : c.Made n is) :
    ∃ c', c.after (apply R (gatesOperand ms) controls target false simplifying .none) = .ok c' ∧
      c'.operator n = matrixOf n (select t fun b => (ms.getD (indexOf cs b) default).asSquare) * c.operator n := by
  have hl : ∀ q ∈ t :: cs, q < n := by
    obtain ⟨xs, -, hxs⟩ := Operand.IsSequence.items hcontrols
    exact List.forall_mem_cons.2 ⟨htarget.lt, forall_mem_of_forall₂ hxs.flip fun _ _ _ hq => hq.lt⟩
  obtain ⟨os, hca, hg, hs⟩ := exists_carries_apply hlen hms hcontrols htarget hnodup hl hR simplifying hclose horder
  obtain ⟨g, hop⟩ := hc.spec.1.isOpen
  obtain ⟨c', ha, ho⟩ := hca.operator hg hop hc.within
  exact ⟨c', ha, by rw [ho, funext hs.acts]⟩

/-! ### Close gates -/

lemma closeGates_rotated {c s c' s' : ℝ} : closeGates (rotated c s) (rotated c' s') = true ↔
    |c - c'| ≤ 1e-8 + 1e-5 * |c'| ∧ |s - s'| ≤ 1e-8 + 1e-5 * |s'| := by
  have hr : ∀ x y : ℝ, (ofReal x).isClose (.ofReal y) 1e-5 1e-8 = true ↔ |x - y| ≤ 1e-8 + 1e-5 * |y| := by
    intro x y
    rw [isClose_iff, value_ofReal, value_ofReal, ← Complex.ofReal_sub, Complex.norm_real, Complex.norm_real,
      Real.norm_eq_abs, Real.norm_eq_abs]
  have hn : |-s - -s'| ≤ 1e-8 + 1e-5 * |-s'| ↔ |s - s'| ≤ 1e-8 + 1e-5 * |s'| := by
    rw [abs_neg, ← abs_neg, neg_sub, neg_sub_neg]
  have he : closeGates (rotated c s) (rotated c' s') =
      ((ofReal c).isClose (.ofReal c') 1e-5 1e-8 && ((ofReal (-s)).isClose (.ofReal (-s')) 1e-5 1e-8 &&
        ((ofReal s).isClose (.ofReal s') 1e-5 1e-8 && ((ofReal c).isClose (.ofReal c') 1e-5 1e-8 && true)))) := rfl
  rw [he]
  simp only [Bool.and_eq_true, hr, hn]
  tauto

/-- A row of gates in which one of the two controls is left out. -/
theorem operator_apply_rotated : ∃ c' : Circuit ℝ, (Circuit.sized .reference 3 (.int 3)).after
      (apply exactRoutines (gatesOperand [rotated 1 0, rotated 0 1, rotated 1 0, rotated 0 1]) (.list [.int 1, .int 2])
        (.int 0) false true .none) = .ok c' ∧
    c'.operator 3 = matrixOf 3 (select 0 fun b => ([rotated 1 0, rotated 0 1, rotated 1 0, rotated 0 1].getD
      (indexOf [1, 2] b) default).asSquare) * (Circuit.sized .reference 3 (.int 3)).operator 3 := by
  have ha : closeGates (rotated 1 0) (rotated 0 1) = false ∧ closeGates (rotated 0 1) (rotated 1 0) = false := by
    simp only [← Bool.not_eq_true, closeGates_rotated]; norm_num
  refine operator_apply splits_exactRoutines rfl ?_ ?_ (isQubit_int three_pos) (by decide) true ?_
    (fun _ => ordered_of_lt rfl (by decide)) (Circuit.made_sized three_pos)
  · have ho : (rotated 1 0).IsGate := isGate_rotated (by norm_num)
    have hqa : (rotated 0 1).IsGate := isGate_rotated (by norm_num)
    simpa using ⟨ho, hqa, ho, hqa⟩
  · exact Operand.IsSequence.list (.cons (isQubit_int (by decide)) (.cons (isQubit_int (by decide)) .nil))
  · intro _; simp [ha]

lemma exists_merged {M N : Mat (Cplx ℝ)} (hM : M.IsGate) (hN : N.IsGate) (hMN : closeGates M N = true)
    (hNM : closeGates N M = true) : ∃ c' : Circuit ℝ, (Circuit.empty .reference 2).after
      (apply exactRoutines (gatesOperand [M, N]) (.list [.int 1]) (.int 0) false true .none) = .ok c' ∧
    c'.operator 2 = matrixOf 2 (select 0 fun _ => M.asSquare) := by
  have hr : repeats closeGates [M, N] 0 = true := by
    have hlo : agree closeGates [M, N] 0 1 = true := hMN
    have hh : agree closeGates [M, N] 1 0 = true := hNM
    simp [repeats, hlo, hh, List.range_succ]
  have hl : simplifyControls closeGates [M, N] 1 = .ok ([], [M]) := by
    rw [simplifyControls_eq rfl]; simp [keptBits, marks, hide, hr]
  obtain ⟨w, he, hw, hs⟩ := exists_selects splits_exactRoutines
    (show [M].length = 2 ^ ([] : List ℕ).length from rfl) (List.forall_mem_singleton.2 hM) List.not_mem_nil
  have hct : Operand.IsQubits 2 (.list [.int 1] : Operand ℝ) [1] :=
    (Operand.IsSequence.list (.cons (isQubit_int (by decide)) .nil)).isQubits
  have hca := carries_apply_simplifying rfl (by simpa using ⟨hM, hN⟩) hct (isQubit_int two_pos)
    (by decide) (by decide) false (List.nil_sublist _) hl
    (ordered_of_lt rfl (by decide)) he hw
  obtain ⟨c', ha, ho⟩ := hca.operator (good_selectedOps hw (by decide) (by decide) false)
    (Circuit.open_empty 2) (by simp [Circuit.steps_empty])
  refine ⟨c', ha, ?_⟩
  rw [ho, Circuit.operator_empty, mul_one]
  exact congrArg _ (funext hs.acts)

/-- **Two rotations that are close but not equal** are taken for one. -/
theorem not_operator_apply_close : ∃ c' : Circuit ℝ, (Circuit.empty .reference 2).after
      (apply exactRoutines (gatesOperand [rotated (3 / 5) (4 / 5), rotated (269997599997 / 450000000005)
        (360001799996 / 450000000005)]) (.list [.int 1]) (.int 0) false true .none) = .ok c' ∧
    c'.operator 2 ≠ matrixOf 2 (select 0 fun b => ([rotated (3 / 5) (4 / 5), rotated (269997599997 / 450000000005)
      (360001799996 / 450000000005)].getD (indexOf [1] b) default).asSquare) *
        (Circuit.empty .reference 2).operator 2 := by
  have hg : (rotated (3 / 5) (4 / 5)).IsGate := isGate_rotated (by norm_num)
  have hg' : (rotated (269997599997 / 450000000005) (360001799996 / 450000000005)).IsGate :=
    isGate_rotated (by norm_num)
  have hcl : closeGates (rotated (3 / 5) (4 / 5)) (rotated (269997599997 / 450000000005)
      (360001799996 / 450000000005)) = true ∧ closeGates (rotated (269997599997 / 450000000005)
      (360001799996 / 450000000005)) (rotated (3 / 5) (4 / 5)) = true := by
    rw [closeGates_rotated, closeGates_rotated]
    norm_num [abs_le]
  obtain ⟨c', ha, ho⟩ := exists_merged hg hg' hcl.1 hcl.2
  refine ⟨c', ha, fun he => ?_⟩
  rw [ho, Circuit.operator_empty, mul_one, matrixOf_eq_iff (local_select (by decide) _)
    (local_select (by decide) _)] at he
  have hco := he (fun b => if b 0 then 0 else 1) (fun q => decide (q = 1)) fun q hq => by simp; omega
  norm_num [select, indexOf, asSquare_rotated] at hco

end QuantumCircuits.Multiplexor
