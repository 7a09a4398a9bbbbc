import QuantumCircuits.Proofs.Log.Decompose

/-!
# Added phases

Two gates that are defined by rows of operations that add phases.  A phase under controls is a staircase of
rotations about the third axis (`adds_phase_under_controls`).  A diagonal is a row of rotations by selected
angles, level by level, in which each level leaves the means of neighbouring phases to the next
(`adds_phases_of_diagonal`).
-/

noncomputable section

namespace QuantumCircuits

open List Complex

variable {qs : List ℕ}

namespace Operation

/-! ### Diagonals -/

/-- The rotation at a level of a diagonal: of the qubit at that place, by angles that the qubits after it
select from. -/
def level (qs : List ℕ) (rows : List (List ℝ)) (l : ℕ) : Operation :=
  .ucr .z (rows.getD l []) (qs.drop (l + 1)) (qs.getD l 0)

lemma exists_levels (qs : List ℕ) (ps : List ℝ) : ∃ (rows : List (List ℝ)) (g : ℝ), rows.length = qs.length ∧
    diagonalParts qs ps = (range qs.length).map (level qs rows) ++ [.globalPhase g] := by
  induction qs generalizing ps with
  | nil => exact ⟨[], ps.headD 0, rfl, rfl⟩
  | cons q qs ih =>
    obtain ⟨rows, g, hlen, hp⟩ := ih (splitLevel ps).1
    refine ⟨(splitLevel ps).2 :: rows, g, by simp [hlen], ?_⟩
    rw [diagonalParts, hp, length_cons, range_succ_eq_map, map_cons, map_map]
    rfl

lemma totalAdded_levels (qs : List ℕ) (rows : List (List ℝ)) (g : ℝ) (b : Register) :
    totalAdded ((range qs.length).map (level qs rows) ++ [.globalPhase g]) b = g + ∑ l ∈ Finset.range qs.length,
        (if b (qs.getD l 0) then 1 / 2 else -1 / 2) * (rows.getD l []).getD (indexOf (qs.drop (l + 1)) b) 0 := by
  rw [totalAdded, map_append, sum_append, map_map, add_comm, map_singleton, sum_singleton, added]
  rfl

end Operation

/-! ### The gates -/

lemma Operand.IsQubits.lt {n : ℕ} {x : Operand ℝ} (h : x.IsQubits n qs) : ∀ q ∈ qs, q < n := by
  obtain ⟨xs, -, hxs⟩ := h; exact forall_mem_of_forall₂ hxs.flip fun _ _ _ hq => hq.lt

/-- **A phase under controls.**  The calls that the gate stands for are, for each target, rotations about the
third axis under controls and a phase.  Together they add the angle on every register in which all controls and
the target are on, and nothing on any other one. -/
theorem adds_phase_under_controls {n : ℕ} {c : Call ℝ} {a : ℝ} {cs ts : List ℕ}
    (hcall : Denotes n c.gate c.operands (.of .phase .multi [a] cs ts)) (hstate : c.controlState = .none)
    (hnodup : (cs ++ ts).Nodup) :
    ∃ blocks : List (List Operation), Plan.Stands n (Gate.plan n c) blocks.flatten () ∧
      List.Forall₂ (fun t block =>
        (∀ o ∈ block, (∃ x ds q, o = .turnUnder .rz x ds [q]) ∨ ∃ x q, o = .turn .phase x [q]) ∧
        (∀ b, Operation.totalAdded block b = if allOn cs b ∧ b t then a else 0) ∧
        ∀ V b, Operation.acts block V b =
          if allOn cs b ∧ b t then Complex.exp (a * Complex.I) * V b else V b) ts blocks := by
  obtain ⟨_, _, _, -, -, hcs, ht⟩ := Plan.forall₂_three hcall.means
  have hv : (Operation.of .phase .multi [a] cs ts).Valid n :=
    ⟨⟨rfl, .inr rfl, by simp [Base.onTwo]⟩, hnodup, fun q hq => (List.mem_append.mp hq).elim
      (Operand.IsQubits.lt hcs q) (Operand.IsQubits.lt ht q)⟩
  refine ⟨ts.map (Operation.stairParts a 0 cs), ?_, List.forall₂_map_right_iff.mpr
    (List.forall₂_same.mpr fun t _ => ?_)⟩
  · rw [← List.flatMap_def]; exact Gate.plan_stands hv rfl hstate hcall
  · have ha : ∀ b, Operation.totalAdded (Operation.stairParts a 0 cs t) b =
        if allOn cs b ∧ b t then a else 0 := fun b => by
      rw [Operation.sum_added_stairParts, pow_zero, div_one, allOn_append]
      simp
    refine ⟨fun o ho => Operation.mem_stairParts ho, ha, fun V b => ?_⟩
    rw [Operation.acts_addsPhases (Operation.addsPhases_stairParts a 0 cs t), ha]
    split <;> simp

/-- Two controls and two targets, the second one counted from the end. -/
theorem adds_phase_under_controls_two : ∃ blocks : List (List Operation),
    Plan.Stands 4 (Gate.plan 4 ⟨.of .phase .multi, [(.angle, .real 1), (.controlIndices, .list [.int 0, .int 1]),
      (.targetIndices, .list [.int 2, .int (-1)])], .none⟩) blocks.flatten () ∧
    List.Forall₂ (fun t block => ∀ b, Operation.totalAdded block b = if allOn [0, 1] b ∧ b t then 1 else 0)
      [2, 3] blocks := by
  have hco : (Operand.list [.int 0, .int 1] : Operand ℝ).IsQubits 4 [0, 1] :=
    (Operand.IsSequence.list (.cons ⟨rfl, rfl⟩ (.cons ⟨rfl, rfl⟩ .nil))).isQubits
  have ht : (Operand.list [.int 2, .int (-1)] : Operand ℝ).IsQubits 4 [2, 3] :=
    (Operand.IsSequence.list (.cons ⟨rfl, rfl⟩ (.cons ⟨rfl, rfl⟩ .nil))).isQubits
  have hca : Denotes 4 (.of .phase .multi) [(.angle, .real 1), (.controlIndices, .list [.int 0, .int 1]),
      (.targetIndices, .list [.int 2, .int (-1)])] (.of .phase .multi [1] [0, 1] [2, 3]) :=
    ⟨rfl, rfl, .cons rfl (.cons hco (.cons ht .nil))⟩
  obtain ⟨blocks, hs, hbl⟩ := adds_phase_under_controls (c := ⟨_, _, .none⟩) hca rfl (by decide)
  exact ⟨blocks, hs, hbl.imp fun _ _ h => h.2.1⟩

/-- **A diagonal of unit numbers.**  The calls that the gate stands for are one rotation about the third axis
for each qubit, by angles that the qubits after it select from, and a phase.  On every register they add the
phase of the number that the qubits spell, the first qubit being the lowest digit. -/
theorem adds_phases_of_diagonal {n : ℕ} {c : Call ℝ} {zs : List ℂ} {qs : List ℕ}
    (hcall : Denotes n c.gate c.operands (.diagonal zs qs)) (hstate : c.controlState = .none)
    (hqs : qs ≠ []) (hnodup : qs.Nodup) (hlength : zs.length = 2 ^ qs.length) (hunit : ∀ z ∈ zs, ‖z‖ = 1) :
    ∃ (rows : List (List ℝ)) (g : ℝ), rows.length = qs.length ∧ Plan.Stands n (Gate.plan n c)
        ((List.range qs.length).map (fun l => .ucr .z (rows.getD l []) (qs.drop (l + 1)) (qs.getD l 0)) ++
          [.globalPhase g]) () ∧
      (∀ b, g + ∑ l ∈ Finset.range qs.length, (if b (qs.getD l 0) then 1 / 2 else -1 / 2) *
          (rows.getD l []).getD (indexOf (qs.drop (l + 1)) b) 0 = (zs.getD (indexOf qs b) 1).arg) ∧
      ∀ V b, Operation.acts ((List.range qs.length).map (fun l =>
          .ucr .z (rows.getD l []) (qs.drop (l + 1)) (qs.getD l 0)) ++ [.globalPhase g]) V b =
        zs.getD (indexOf qs b) 1 * V b := by
  obtain ⟨_, _, -, -, hq⟩ := Plan.forall₂_two hcall.means
  have hv : (Operation.diagonal zs qs).Valid n :=
    ⟨⟨hlength, hqs, fun z hz => (Scalar.isClose_real _ _ _ _).mpr (.inr (by simp [hunit z hz]))⟩, hnodup,
      Operand.IsQubits.lt hq⟩
  obtain ⟨rows, g, hr, hpa⟩ := Operation.exists_levels qs (zs.map Complex.arg)
  have ha : ∀ b, Operation.totalAdded (Operation.diagonalParts qs (zs.map Complex.arg)) b =
      (zs.getD (indexOf qs b) 1).arg := fun b => by
    rw [Operation.sum_added_diagonalParts (by simpa using hlength), ← Complex.arg_one, List.getD_map]
  have hp := Operation.addsPhases_diagonalParts qs (zs.map Complex.arg)
  have hpl := Gate.plan_stands hv rfl hstate hcall
  rw [Operation.parts] at hpl
  rw [hpa] at ha hp hpl
  refine ⟨rows, g, hr, hpl, fun b => ?_, fun V b => ?_⟩
  · rw [← ha, Operation.totalAdded_levels]
  · have hm : zs.getD (indexOf qs b) 1 ∈ zs := by
      have hl : indexOf qs b < zs.length := hlength ▸ Operation.indexOf_lt qs b
      rw [List.getD_eq_getElem _ _ hl]
      exact List.getElem_mem hl
    have hpo := Complex.norm_mul_exp_arg_mul_I (zs.getD (indexOf qs b) 1)
    rw [hunit _ hm, Complex.ofReal_one, one_mul] at hpo
    have hac := Operation.acts_addsPhases hp V b
    rw [ha, hpo] at hac
    exact hac

/-- The powers of the imaginary unit on two qubits, the second of which is the lowest digit. -/
theorem adds_phases_of_diagonal_units : ∃ (rows : List (List ℝ)) (g : ℝ),
    Plan.Stands 2 (Gate.plan 2 ⟨.diagonal, [(.diagonalEntries, .list [.complex (.ofValue 1),
      .complex (.ofValue Complex.I), .complex (.ofValue (-1)), .complex (.ofValue (-Complex.I))]),
      (.qubitIndices, .list [.int 1, .int 0])], .none⟩)
      [.ucr .z (rows.getD 0 []) [0] 1, .ucr .z (rows.getD 1 []) [] 0, .globalPhase g] () ∧
    ∀ V b, Operation.acts [.ucr .z (rows.getD 0 []) [0] 1, .ucr .z (rows.getD 1 []) [] 0, .globalPhase g] V b =
      [1, Complex.I, -1, -Complex.I].getD (indexOf [1, 0] b) 1 * V b := by
  have hq : (Operand.list [.int 1, .int 0] : Operand ℝ).IsQubits 2 [1, 0] :=
    (Operand.IsSequence.list (.cons ⟨rfl, rfl⟩ (.cons ⟨rfl, rfl⟩ .nil))).isQubits
  have hca : Denotes 2 .diagonal [(.diagonalEntries, .list [.complex (.ofValue 1),
      .complex (.ofValue Complex.I), .complex (.ofValue (-1)), .complex (.ofValue (-Complex.I))]),
      (.qubitIndices, .list [.int 1, .int 0])] (.diagonal [1, Complex.I, -1, -Complex.I] [1, 0]) :=
    ⟨rfl, rfl, .cons (.inl rfl) (.cons hq .nil)⟩
  obtain ⟨rows, g, -, hs, -, ha⟩ := adds_phases_of_diagonal (c := ⟨_, _, .none⟩) hca rfl (by decide)
    (by decide) rfl (by simp)
  exact ⟨rows, g, hs, ha⟩

end QuantumCircuits

end
