import QuantumCircuits.Proofs.Operation.Primitives

/-!
# Operation — Resolve

Which operations come down to elementary ones when, again and again, each is replaced by the entries
of its definition.  Most do; the exceptions (`Operation.resolves`) are

* the identity, whose definition is a rotation by nothing and so is left out;
* a power of `Y` on its own whose rotation and phase are both left out;
* a gate under a list of controls with no target, whose definition has nothing to place.

Parts of an operation are never the first two and the third only in an operation that is the third
itself, so it is enough to look at the operation: `resolves_iff` says so one level down.
-/

namespace QuantumCircuits

open Real List Gate Base

/-! ### Angles that are not left out -/

lemma snap_ne_zero {x : ℝ} (hl : 1e-10 < |x|) (hh : |x| ≤ π) : snap x ≠ 0 := by
  have hp := two_le_pi
  obtain ⟨hle, hr⟩ := abs_le.mp hh
  have hfa : isZeroAngle x = false := by
    refine isZeroAngle_of_far fun k => ?_
    rcases lt_trichotomy k 0 with hk | rfl | hk
    · have hk' : (k : ℝ) ≤ -1 := by exact_mod_cast Int.le_sub_one_of_lt hk
      have ht : 2 * π * k ≤ 2 * π * (-1) := mul_le_mul_of_nonneg_left hk' (by linarith)
      exact lt_of_lt_of_le (by norm_num; linarith) (le_abs_self _)
    · simpa using hl
    · have hk' : (1 : ℝ) ≤ k := by exact_mod_cast hk
      have ht : 2 * π * 1 ≤ 2 * π * k := mul_le_mul_of_nonneg_left hk' (by linarith)
      exact lt_of_lt_of_le (by norm_num; linarith) (neg_le_abs _)
  rw [snap, hfa]
  rintro rfl
  norm_num at hl

lemma snap_pi_div_ne_zero {k : ℝ} (hk : 1 ≤ k) (hk' : k ≤ 8) : snap (π / k) ≠ 0 ∧ snap (-(π / k)) ≠ 0 := by
  have hp := two_le_pi
  have hl : (1 : ℝ) / 4 ≤ π / k := by
    rw [le_div_iff₀ (by linarith)]
    linarith
  have ha : |π / k| = π / k := abs_of_pos (by linarith)
  have hh : π / k ≤ π := div_le_self (by linarith) hk
  constructor
  · exact snap_ne_zero (by rw [ha]; norm_num; linarith) (by rwa [ha])
  · exact snap_ne_zero (by rw [abs_neg, ha]; norm_num; linarith) (by rwa [abs_neg, ha])

namespace Operation

variable {n : ℕ}
variable {o p : Operation} {b : Base} {ts cs : List ℕ} {ps : List ℝ} {c t : ℕ} {r : Reach} {os : List Operation}

/-- Full decomposition ends with the operation replaced by elementary ones. -/
def resolves : Operation → Prop
  | .identity _ => False
  | .of .yPow .plain [p, g] cs ts =>
    snap (p * π) ≠ 0 ∨ snap (phase (.of .yPow .plain [p, g] cs ts)) ≠ 0
  | .of _ .multi _ _ ts => ts ≠ []
  | _ => True

/-- The operation is one whose definition is never empty. -/
def Solid : Operation → Prop
  | .identity _ => False
  | .of .yPow .plain _ _ _ => False
  | .of _ .multi _ _ ts => ts ≠ []
  | _ => True

lemma Solid.resolves (h : o.Solid) : o.resolves := by
  cases o with
  | identity ts => exact h
  | of b r ps cs ts =>
    cases r with
    | plain =>
      cases b with
      | yPow => exact absurd h id
      | _ => trivial
    | controlled => cases b <;> trivial
    | multi => cases b <;> exact h
  | _ => trivial

/-! ### Parts are solid -/

/-- The phase that a gate adds besides its rotation.  Phases on their own are not counted. -/
noncomputable def ownPhase : Operation → ℝ
  | .globalPhase _ => 0
  | o => o.phase

lemma solid_multi (b : Base) (ps : List ℝ) (cs : List ℕ) (ht : ts ≠ []) : (of b .multi ps cs ts).Solid := by
  cases b <;> exact ht

lemma solid_of_rank (h : o.rank ≤ 2) : o.Solid ∧ o.ownPhase = 0 := by
  cases o with
  | identity ts | diagonal zs qs => simp [rank] at h
  | of b r ps cs ts => cases r <;> cases b <;> first | exact ⟨trivial, rfl⟩ | simp [rank] at h
  | _ => exact ⟨trivial, rfl⟩

lemma solid_stairParts (a : ℝ) (k : ℕ) (cs : List ℕ) (t : ℕ) :
    ∀ p ∈ stairParts a k cs t, p.Solid ∧ p.ownPhase = 0 := by
  fun_induction stairParts a k cs t with
  | case1 k cs t h => simp [Solid, ownPhase, phase]
  | case2 k cs t c h ih => simpa [Solid, ownPhase, phase] using ih

lemma solid_diagonalParts (qs : List ℕ) (phases : List ℝ) :
    ∀ p ∈ diagonalParts qs phases, p.Solid ∧ p.ownPhase = 0 := by
  induction qs generalizing phases with
  | nil => simp [diagonalParts, Solid, ownPhase]
  | cons q qs ih => simpa [diagonalParts, Solid, ownPhase, phase] using ih _

/-- **Parts are solid**, unless there are no targets, and add no phase besides their rotations. -/
theorem solid_parts (ho : o.Valid n) :
    ∀ p ∈ o.parts, (p.Solid ∨ ∃ b ps cs, o = of b .multi ps cs []) ∧ p.ownPhase = 0 := by
  -- the parts of simple operations are found by their rank
  have hs : o.rank ≤ 3 → ∀ p ∈ o.parts, p.Solid ∧ p.ownPhase = 0 := fun hl p hp =>
    solid_of_rank (by have := (inside_parts ho p hp).rank; omega)
  have hr := fun hl p hp => (hs hl p hp).imp_left (Or.inl (b := ∃ b ps cs, o = of b .multi ps cs []))
  cases o with
  | identity ts | pauliMultiplexor axis angles cs t => exact hr le_rfl
  | globalPhase a => exact hr (by simp [rank])
  | ucr axis angles cs t => exact forall_mem_singleton.mpr ⟨.inl trivial, rfl⟩
  | diagonal zs qs => exact fun p hp => (solid_diagonalParts qs _ p hp).imp_left .inl
  | of b r ps cs ts =>
    obtain ⟨hps, -, ht⟩ := ho.shaped
    cases r with
    | plain => exact hr (by cases b <;> simp [rank])
    | controlled =>
      by_cases hb : b.onTwo = true
      · rw [if_pos hb] at ht
        have hne : ts ≠ [] := by rintro rfl; simp at ht
        rw [parts, if_pos hb]
        exact forall_mem_singleton.mpr ⟨.inl (solid_multi b ps cs hne), by cases b <;> rfl⟩
      · cases takes hps with
        | rxx | ryy | rzz | swap => exact absurd rfl hb
        | rx | ry | rz | u3 => exact forall_mem_singleton.mpr ⟨.inl (cons_ne_nil _ _), rfl⟩
        | xPow | yPow | zPow =>
          exact forall_mem_cons.mpr ⟨⟨.inl trivial, rfl⟩, forall_mem_singleton.mpr ⟨.inl trivial, rfl⟩⟩
        | _ => exact hr (by simp [rank])
    | multi =>
      suffices h : ∀ p ∈ multiParts b ps cs ts, (p.Solid ∨ ts = []) ∧ p.ownPhase = 0 from fun p hp =>
        (h p hp).imp_left fun h => h.imp_right fun h => ⟨b, ps, cs, by rw [h]⟩
      cases takes hps with
      | rx | ry | rz => exact fun p hp => (hs (by simp [rank]) p hp).imp_left .inl
      | phase a =>
        exact forall_mem_flatMap.mpr fun t _ p hp => (solid_stairParts a 0 cs t p hp).imp_left .inl
      | xPow p g | yPow p g | zPow p g =>
        refine forall_mem_flatMap.mpr fun t _ => ?_
        unfold powerParts
        split <;> simp [Solid, ownPhase, phase]
      | u3 =>
        refine forall_mem_flatMap.mpr fun t _ => ?_
        repeat' refine forall_mem_cons.mpr ⟨⟨.inl (cons_ne_nil _ _), rfl⟩, ?_⟩
        exact forall_mem_nil _
      | rxx a | ryy a | rzz a | swap =>
        obtain ⟨i, j, rfl⟩ := length_eq_two.mp ht
        repeat' refine forall_mem_cons.mpr ⟨⟨.inl (by first | trivial | exact cons_ne_nil _ _), rfl⟩, ?_⟩
        exact forall_mem_nil _
      | x | y | z | h | s | sdg | t | tdg =>
        repeat' refine forall_mem_cons.mpr ⟨⟨by first | exact .inl trivial | exact ne_or_eq ts [], rfl⟩, ?_⟩
        exact forall_mem_nil _

/-! ### Parts that leave entries -/

lemma kept_of_isKept (ho : o.Valid n) (h : o.isKept = true) : o.kept = [o] := by rw [kept_eq ho, if_pos h]

lemma flatMap_kept_self (h : ∀ o ∈ os, o.kept = [o]) : os.flatMap kept = os := by
  rw [flatMap_congr h, flatMap_singleton']

lemma flatMap_kept_of_isKept (h : ∀ o ∈ os, o.Valid n ∧ o.isKept = true) : os.flatMap kept = os :=
  flatMap_kept_self fun o ho => kept_of_isKept (h o ho).1 (h o ho).2

lemma isKept_fixed (hb : b.isAngular = false)
    (hg : (Gate.of b r).isTransparent = false) : (of b r ps cs ts).isKept = true := by
  simp [isKept, gate, hg, vanishes, hb]

lemma isKept_of_angle {a : ℝ} (ha : a ∈ ps) (hs : snap a ≠ 0) (hg : (Gate.of b r).isTransparent = false) :
    (of b r ps cs ts).isKept = true := by
  simp only [isKept, gate, hg, vanishes, Bool.not_false, Bool.true_and, Bool.not_eq_true', Bool.and_eq_false_iff]
  exact .inr (by simpa using ⟨a, ha, hs⟩)

lemma inner_ne_nil (hpr : o.primitives? = none) (hp : p ∈ o.parts) (h : p.kept ≠ []) : o.inner ≠ [] := by
  rw [inner, hpr]; simpa using ⟨p, hp, h⟩

lemma kept_ne_nil (ho : o.Valid n) (hpr : o.primitives? = none)
    (hp : p ∈ o.parts) (h : p.kept ≠ []) : o.kept ≠ [] := by
  rw [kept_eq ho]
  split
  · simp
  · exact inner_ne_nil hpr hp h

lemma kept_ne_nil_of_isKept (ho : o.Valid n) (h : o.isKept = true) : o.kept ≠ [] := by
  simp [kept_of_isKept ho h]

lemma kept_cx (ho : o.Valid n) (h : cx c t ∈ o.parts) : (cx c t).kept ≠ [] :=
  kept_ne_nil_of_isKept (inside_parts ho _ h).valid (isKept_fixed rfl rfl)

lemma exists_cx_mem_chainParts (hcs : cs ≠ []) (as : List ℕ) (t : ℕ) : ∃ c d, cx c d ∈ chainParts cs as t := by
  rw [chainParts]
  split
  · rename_i hl
    rcases cs with _ | ⟨a, _ | ⟨b, _ | ⟨c, _ | ⟨d, cs⟩⟩⟩⟩
    · exact absurd rfl hcs
    · exact ⟨a, t, by simp [c3xParts]⟩
    · exact ⟨b, t, by simp [c3xParts, ccxParts]⟩
    · exact ⟨a, b, by simp [c3xParts, c3xControls]⟩
    · simp only [length_cons] at hl; omega
  · exact ⟨as.getD (as.length - 1) 0, t, by simp [sweepParts, ccxParts]⟩

lemma exists_cx_mem_rotationParts (axis : Axis) (a : ℝ) (hcs : cs ≠ []) (t : ℕ) :
    ∃ c d, cx c d ∈ rotationParts axis a cs t := by
  match cs, hcs with
  | [c], _ => exact ⟨c, t, by cases axis <;> simp [rotationParts]⟩
  | c :: d :: cs, _ =>
    have hn : (c :: d :: cs).take (((c :: d :: cs).length + 1) / 2) ≠ [] := by simp
    obtain ⟨e, f, hm⟩ := exists_cx_mem_chainParts hn
      (((c :: d :: cs).take (2 * (((c :: d :: cs).length + 1) / 2) - 2)).drop (((c :: d :: cs).length + 1) / 2)) t
    refine ⟨e, f, ?_⟩
    rw [rotationParts_halves, halvesParts, roundsParts]
    simp only [mem_append]
    exact .inl (.inl (.inr (.inl (.inl (.inl hm)))))

lemma exists_cx_mem_rowParts (axis : Axis) {angles : List ℝ} (hcs : cs ≠ [])
    (hlen : angles.length = 2 ^ cs.length) (t : ℕ) : ∃ c d, cx c d ∈ rowParts axis angles cs t := by
  have hp : 0 < (rowAngles angles).length := by
    rw [rowAngles, length_demultiplex, hlen]; exact Nat.two_pow_pos _
  obtain ⟨a, as, ha⟩ := exists_cons_of_length_pos hp
  refine ⟨cs.getD (negationControl cs.length 0) 0, t, ?_⟩
  rw [rowParts, if_neg hcs, ha]
  simp only [zipIdx_cons, flatMap_cons, negationParts]
  split <;> simp

section Lit

variable {a : ℝ} {cs ts : List ℕ} {t : ℕ}

lemma kept_rx (ho : (turn .rx a ts).Valid n) : (turn .rx a ts).kept ≠ [] := by
  have hm : general a (-(π / 2)) (π / 2) ts ∈ (turn .rx a ts).parts := by simp [parts, plainParts]
  refine kept_ne_nil ho rfl hm (kept_ne_nil_of_isKept (inside_parts ho _ hm).valid ?_)
  exact isKept_of_angle (a := π / 2) (by simp) (snap_pi_div_ne_zero (by norm_num) (by norm_num)).1 rfl

lemma kept_rz (ho : (turn .rz a ts).Valid n) : (turn .rz a ts).kept ≠ [] := by
  have hm : turn .rx (π / 2) ts ∈ (turn .rz a ts).parts := by simp [parts, plainParts]
  exact kept_ne_nil ho rfl hm (kept_rx (inside_parts ho _ hm).valid)

lemma kept_turnUnder (hb : b = .rx ∨ b = .ry ∨ b = .rz) (ho : (turnUnder b a cs [t]).Valid n) :
    (turnUnder b a cs [t]).kept ≠ [] := by
  have hcs : cs ≠ [] := ho.shaped.2.1.resolve_right (by rcases hb with rfl | rfl | rfl <;> simp)
  obtain ⟨axis, ha⟩ : ∃ axis, (turnUnder b a cs [t]).parts = rotationParts axis a cs t := by
    rcases hb with rfl | rfl | rfl
    exacts [⟨.x, by simp [parts, multiParts]⟩, ⟨.y, by simp [parts, multiParts]⟩, ⟨.z, by simp [parts, multiParts]⟩]
  obtain ⟨c, d, hm⟩ := exists_cx_mem_rotationParts axis a hcs t
  rw [← ha] at hm
  exact kept_ne_nil ho (by rcases hb with rfl | rfl | rfl <;> rfl) hm (kept_cx ho hm)

lemma kept_turn_controlled (hb : b = .rx ∨ b = .ry ∨ b = .rz)
    (ho : (of b .controlled [a] [c] [t]).Valid n) : (of b .controlled [a] [c] [t]).kept ≠ [] := by
  have hm : turnUnder b a [c] [t] ∈ (of b .controlled [a] [c] [t]).parts := by
    rcases hb with rfl | rfl | rfl <;> simp [parts, controlledParts, onTwo]
  exact kept_ne_nil ho (by rcases hb with rfl | rfl | rfl <;> rfl) hm
    (kept_turnUnder hb (inside_parts ho _ hm).valid)

lemma kept_general_under {theta phi lam : ℝ} (ho : (of .u3 .multi [theta, phi, lam] cs [t]).Valid n) :
    (of .u3 .multi [theta, phi, lam] cs [t]).kept ≠ [] := by
  have hm : turnUnder .rz lam cs [t] ∈ (of .u3 .multi [theta, phi, lam] cs [t]).parts := by
    simp [parts, multiParts, generalParts]
  exact kept_ne_nil ho rfl hm (kept_turnUnder (by simp) (inside_parts ho _ hm).valid)

lemma kept_multiplexor {axis : Axis} {angles : List ℝ} (ho : (pauliMultiplexor axis angles cs t).Valid n)
    (h : axis ≠ .y ∨ ∃ x ∈ angles, snap x ≠ 0) : (pauliMultiplexor axis angles cs t).kept ≠ [] := by
  by_cases hcs : cs = []
  · subst hcs
    obtain ⟨x, rfl⟩ := length_eq_one_iff.mp ho.shaped
    have hm : aboutAxis axis x t ∈ (pauliMultiplexor axis [x] [] t).parts := by simp [parts, rowParts]
    have hv := (inside_parts ho _ hm).valid
    refine kept_ne_nil ho rfl hm ?_
    cases axis with
    | x => exact kept_rx hv
    | y =>
      have hx : snap x ≠ 0 := by simpa using h
      exact kept_ne_nil_of_isKept hv (isKept_of_angle (a := x) (by simp) hx rfl)
    | z => exact kept_rz hv
  · obtain ⟨c, d, hm⟩ := exists_cx_mem_rowParts axis hcs ho.shaped t
    exact kept_ne_nil ho rfl hm (kept_cx ho hm)

end Lit

/-! ### One level down -/

lemma exists_lit (ho : o.Valid n) (hp : p ∈ o.parts) (hk : p.isKept = true) : ∃ p ∈ o.parts, p.kept ≠ [] :=
  ⟨p, hp, kept_ne_nil_of_isKept (inside_parts ho p hp).valid hk⟩

lemma snap_of_eighths : snap π ≠ 0 ∧ (snap (π / 2) ≠ 0 ∧ snap (-(π / 2)) ≠ 0) ∧
    (snap (π / 4) ≠ 0 ∧ snap (-(π / 4)) ≠ 0) ∧ snap (π / 8) ≠ 0 ∧ snap (-(π / 8)) ≠ 0 := by
  have ho := (snap_pi_div_ne_zero (k := 1) (by norm_num) (by norm_num)).1
  rw [div_one] at ho
  refine ⟨ho, ?_, ?_, ?_⟩ <;> exact snap_pi_div_ne_zero (by norm_num) (by norm_num)

attribute [local simp] isKept gate isTransparent vanishes isAngular onTwo snap_of_eighths

lemma plainParts_lit (ho : (of b .plain ps [] ts).Valid n)
    (hk : (of b .plain ps [] ts).isKept = true) (hb : b ≠ .yPow) (hu : b ≠ .u3) :
    ∃ p ∈ (of b .plain ps [] ts).parts, p.kept ≠ [] := by
  obtain ⟨hp, -, ht⟩ := ho.shaped
  cases takes hp with
  | yPow => exact absurd rfl hb
  | u3 => exact absurd rfl hu
  | xPow p g =>
    have hm : turn .rx (p * π) ts ∈ (of .xPow .plain [p, g] [] ts).parts := mem_cons_self
    exact ⟨_, hm, kept_rx (inside_parts ho _ hm).valid⟩
  | zPow p g =>
    have hm : turn .rz (p * π) ts ∈ (of .zPow .plain [p, g] [] ts).parts := mem_cons_self
    exact ⟨_, hm, kept_rz (inside_parts ho _ hm).valid⟩
  | rxx a | ryy a | rzz a | swap =>
    obtain ⟨i, j, rfl⟩ := length_eq_two.mp ht
    exact exists_lit ho mem_cons_self (by simp)
  | ry a | phase a => exact exists_lit ho mem_cons_self (by simpa using hk)
  | _ => exact exists_lit ho mem_cons_self (by simp)

lemma controlledParts_lit (ho : (of b .controlled ps [c] [t]).Valid n) (hb : b.onTwo = false) (hx : b ≠ .x) :
    ∃ p ∈ (of b .controlled ps [c] [t]).parts, p.kept ≠ [] := by
  have hps := ho.shaped.1
  have hv : ∀ p ∈ (of b .controlled ps [c] [t]).parts, p.Valid n := fun p hp =>
    (inside_parts ho p hp).valid
  cases takes hps with
  | x => exact absurd rfl hx
  | phase a => exact exists_lit ho (mem_cons_of_mem _ mem_cons_self) (by simp)
  | y | z | h | s | sdg | t | tdg => exact exists_lit ho mem_cons_self (by simp)
  | rx a | ry a | rz a =>
    exact ⟨_, mem_cons_self, kept_turnUnder (by simp) (hv _ mem_cons_self)⟩
  | xPow p g | yPow p g | zPow p g =>
    exact ⟨_, mem_cons_self, kept_turn_controlled (by simp) (hv _ mem_cons_self)⟩
  | u3 theta phi lam =>
    exact ⟨_, mem_cons_self, kept_general_under (hv _ mem_cons_self)⟩
  | rxx | ryy | rzz | swap => cases hb

lemma multiParts_lit (ho : (of b .multi ps cs ts).Valid n)
    (hk : (of b .multi ps cs ts).isKept = true) (ht : ts ≠ []) :
    ∃ p ∈ (of b .multi ps cs ts).parts, p.kept ≠ [] := by
  obtain ⟨hp, hcs, htwo⟩ := ho.shaped
  obtain ⟨t, ts', rfl⟩ := exists_cons_of_ne_nil ht
  have hr : ∀ b' x, (b' = .rx ∨ b' = .ry ∨ b' = .rz) → turnUnder b' x cs [t] ∈
      (of b .multi ps cs (t :: ts')).parts → ∃ p ∈ (of b .multi ps cs (t :: ts')).parts, p.kept ≠ [] :=
    fun b' x hb hm => ⟨_, hm, kept_turnUnder hb (inside_parts ho _ hm).valid⟩
  cases takes hp with
  | x | y | z | h | s | sdg | t | tdg => exact exists_lit ho mem_cons_self (by simp)
  | rx a | ry a | rz a =>
    obtain ⟨c, d, hm⟩ := exists_cx_mem_rotationParts _ a (hcs.resolve_right (by simp)) t
    exact exists_lit ho (mem_flatMap.mpr ⟨t, mem_cons_self, hm⟩) (by simp)
  | phase a =>
    cases hl : cs.getLast? with
    | none =>
      refine exists_lit (p := turn .phase a [t]) ho (mem_flatMap.mpr ⟨t, mem_cons_self, ?_⟩) (by simpa using hk)
      rw [stairParts]
      split <;> simp_all
    | some c =>
      refine hr .rz a (by simp) (mem_flatMap.mpr ⟨t, mem_cons_self, ?_⟩)
      rw [stairParts]
      split <;> simp_all
  | xPow p g | yPow p g | zPow p g =>
    refine hr _ (p * π) ?_ (mem_flatMap.mpr ⟨t, mem_cons_self, mem_cons_self⟩)
    simp
  | u3 theta phi lam => exact hr .rz lam (by simp) (by simp [parts, multiParts, generalParts])
  | rxx a | ryy a | rzz a | swap =>
    obtain ⟨j, rfl⟩ := length_eq_one_iff.mp (by simpa using htwo)
    exact exists_lit ho mem_cons_self (by simp)

/-- **The definition of an operation that resolves is not empty.** -/
theorem inner_ne_nil_of_resolves (ho : o.Valid n) (hk : o.isKept = true)
    (hpr : o.primitives? = none) (h : o.resolves) : o.inner ≠ [] := by
  suffices hl : ∃ p ∈ o.parts, p.kept ≠ [] by
    obtain ⟨p, hp, hl⟩ := hl
    exact inner_ne_nil hpr hp hl
  cases o with
  | identity ts => exact absurd h id
  | of b r ps cs ts =>
    obtain ⟨hps, hcs, ht⟩ := ho.shaped
    cases r with
    | plain =>
      subst hcs
      by_cases hb : b = .yPow
      · subst hb
        obtain ⟨p, g, rfl⟩ := length_eq_two.mp hps
        rcases h with h | h
        · have hm : turn .ry (p * π) ts ∈ (of .yPow .plain [p, g] [] ts).parts := by simp [parts, plainParts]
          exact ⟨_, hm, kept_ne_nil_of_isKept (inside_parts ho _ hm).valid
            (isKept_of_angle (a := p * π) (by simp) h rfl)⟩
        · have hm : .globalPhase (p * π * (g + 1 / 2) * ts.length) ∈ (of .yPow .plain [p, g] [] ts).parts := by
            simp [parts, plainParts]
          refine ⟨_, hm, kept_ne_nil_of_isKept (inside_parts ho _ hm).valid ?_⟩
          rw [phase] at h
          simpa using h
      · exact plainParts_lit ho hk hb (by rintro rfl; cases hpr)
    | controlled =>
      obtain ⟨c, rfl⟩ := length_eq_one_iff.mp hcs
      have hb : b.onTwo = false := by simpa using (Bool.and_eq_true_iff.mp hk).1
      rw [if_neg (Bool.eq_false_iff.mp hb)] at ht
      obtain ⟨t, rfl⟩ := length_eq_one_iff.mp (ht rfl)
      exact controlledParts_lit ho hb (by rintro rfl; cases hpr)
    | multi => exact multiParts_lit ho hk (by cases b <;> exact h)
  | ucr axis angles cs t =>
    have hm : .pauliMultiplexor axis angles cs t ∈ (ucr axis angles cs t).parts := by simp [parts]
    refine ⟨_, hm, kept_multiplexor (inside_parts ho _ hm).valid (.inr ?_)⟩
    simpa using hk
  | pauliMultiplexor axis angles cs t => cases hk
  | diagonal zs qs =>
    obtain ⟨q, qs, rfl⟩ := exists_cons_of_ne_nil ho.shaped.2.1
    have hm : ucr .z (splitLevel (zs.map Complex.arg)).2 qs q ∈ (diagonal zs (q :: qs)).parts := by
      simp [parts, diagonalParts]
    have hu := (inside_parts ho _ hm).valid
    have hm' : .pauliMultiplexor .z (splitLevel (zs.map Complex.arg)).2 qs q ∈
        (ucr .z (splitLevel (zs.map Complex.arg)).2 qs q).parts := by simp [parts]
    exact ⟨_, hm, kept_ne_nil hu rfl hm' (kept_multiplexor (inside_parts hu _ hm').valid (.inl (by simp)))⟩
  | globalPhase a => cases hpr

lemma mem_keptAt (ho : o.Valid n) {d : ℕ} (hp : p ∈ keptAt d o) :
    p.Valid n ∧ p.isKept = true ∧ p.rank ≤ o.rank ∧ (o.Solid → p.Solid) := by
  induction d generalizing o with
  | zero => cases hp
  | succ d ih =>
    rw [keptAt] at hp
    split at hp
    · rename_i hk
      obtain rfl := mem_singleton.mp hp
      exact ⟨ho, hk, le_rfl, id⟩
    · split at hp
      · cases hp
      · obtain ⟨q, hq, hp⟩ := mem_flatMap.mp hp
        have hi := inside_parts ho q hq
        obtain ⟨hv, hk, hr, hs⟩ := ih hi.valid hp
        refine ⟨hv, hk, hr.trans hi.rank.le, fun h => hs ((solid_parts ho q hq).1.resolve_right ?_)⟩
        rintro ⟨b, ps, cs, rfl⟩
        cases b <;> exact h rfl

lemma mem_inner (ho : o.Valid n) (hp : p ∈ o.inner) :
    ∃ q ∈ o.parts, p ∈ q.kept ∧ p.Valid n ∧ p.isKept = true ∧ p.rank < o.rank := by
  rw [inner] at hp
  split at hp
  · cases hp
  · obtain ⟨q, hq, hp⟩ := mem_flatMap.mp hp
    have hi := inside_parts ho q hq
    obtain ⟨hv, hk, hr, -⟩ := mem_keptAt hi.valid hp
    exact ⟨q, hq, hp, hv, hk, hr.trans_lt hi.rank⟩

lemma mem_inner_of_isKept (ho : o.Valid n) (hpr : o.primitives? = none)
    (hp : p ∈ o.parts) (hk : p.isKept = true) : p ∈ o.inner := by
  rw [inner, hpr]
  refine mem_flatMap.mpr ⟨p, hp, ?_⟩
  rw [kept_of_isKept (inside_parts ho p hp).valid hk]
  exact mem_singleton_self p

lemma inner_no_targets (ho : (of b .multi ps cs []).Valid n) :
    (of b .multi ps cs []).inner = [] ∨ ∃ p ∈ (of b .multi ps cs []).inner, ¬ p.resolves := by
  obtain ⟨hps, hcs, ht⟩ := ho.shaped
  have hm : ∀ b' ps', of b' .multi ps' cs [] ∈ (of b .multi ps cs []).parts → (of b' .multi ps' cs []).isKept = true →
      (of b .multi ps cs []).inner = [] ∨ ∃ p ∈ (of b .multi ps cs []).inner, ¬ p.resolves := by
    intro b' ps' hp hk
    refine .inr ⟨_, mem_inner_of_isKept ho (by cases b <;> rfl) hp hk, ?_⟩
    cases b' <;> exact fun h => h rfl
  cases takes hps with
  | x => exact hm .phase [π] (by simp [parts, multiParts]) (by simp)
  | y | z | h => exact hm .x [] (by simp [parts, multiParts]) (by simp)
  | s => exact hm .phase [π / 2] (by simp [parts, multiParts]) (by simp)
  | sdg => exact hm .phase [-(π / 2)] (by simp [parts, multiParts]) (by simp)
  | t => exact hm .phase [π / 4] (by simp [parts, multiParts]) (by simp)
  | tdg => exact hm .phase [-(π / 4)] (by simp [parts, multiParts]) (by simp)
  | rx a | ry a | rz a | phase a | xPow p g | yPow p g | zPow p g | u3 theta phi lam =>
    exact .inl rfl
  | rxx | ryy | rzz | swap => cases ht

lemma kept_of_vanishes (ho : o.Valid n) (h : o.isKept = false)
    (hp : o.primitives?.isSome = true) : o.kept = [] := by
  rw [kept_eq ho, if_neg (Bool.eq_false_iff.mp h), inner, if_pos hp]

lemma inner_identity (ho : (identity ts).Valid n) : (identity ts).inner = [] := by
  have hm : general 0 0 0 ts ∈ (identity ts).parts := by simp [parts]
  have hk : (general 0 0 0 ts).kept = [] := kept_of_vanishes (inside_parts ho _ hm).valid (by simp) rfl
  simp [inner, primitives?, parts, hk]

lemma inner_yPow {p g : ℝ} (ho : (of .yPow .plain [p, g] [] ts).Valid n)
    (ht : snap (p * π) = 0) (hp : snap (p * π * (g + 1 / 2) * ts.length) = 0) :
    (of .yPow .plain [p, g] [] ts).inner = [] := by
  have hry : turn .ry (p * π) ts ∈ (of .yPow .plain [p, g] [] ts).parts := by simp [parts, plainParts]
  have hv := (inside_parts ho _ hry).valid
  have hge : general (p * π) 0 0 ts ∈ (turn .ry (p * π) ts).parts := by simp [parts, plainParts]
  have hg : (general (p * π) 0 0 ts).kept = [] :=
    kept_of_vanishes (inside_parts hv _ hge).valid (by simp [ht]) rfl
  have hr : (turn .ry (p * π) ts).kept = [] := by
    rw [kept_eq hv, if_neg (by simp [ht])]
    simp [inner, primitives?, parts, plainParts, hg]
  have hph : (globalPhase (p * π * (g + 1 / 2) * ts.length)).kept = [] :=
    kept_of_vanishes (n := n) (light_globalPhase _).valid (by simp only [isKept, vanishes, hp]; simp) rfl
  simp only [inner, primitives?, parts, plainParts, flatMap_cons, hr, hph]
  rfl

/-- **One level down**: an operation resolves when its definition is not empty and all that is in it
resolves. -/
theorem resolves_iff (ho : o.Valid n) (hk : o.isKept = true) (hpr : o.primitives? = none) :
    o.resolves ↔ o.inner ≠ [] ∧ ∀ p ∈ o.inner, p.resolves := by
  constructor
  · refine fun h => ⟨inner_ne_nil_of_resolves ho hk hpr h, fun p hp => ?_⟩
    obtain ⟨q, hq, hp, -⟩ := mem_inner ho hp
    refine ((mem_keptAt (inside_parts ho q hq).valid hp).2.2.2 ((solid_parts ho q hq).1.resolve_right ?_)).resolves
    rintro ⟨b, ps, cs, rfl⟩
    cases b <;> exact h rfl
  · rintro ⟨hn, ha⟩
    cases o with
    | identity ts => exact absurd (inner_identity ho) hn
    | of b r ps cs ts =>
      cases r with
      | plain =>
        cases b with
        | yPow =>
          obtain ⟨hps, rfl, -⟩ := ho.shaped
          obtain ⟨p, g, rfl⟩ := length_eq_two.mp hps
          by_contra h
          rw [resolves, not_or, not_not, not_not] at h
          exact hn (inner_yPow ho h.1 h.2)
        | _ => trivial
      | controlled => cases b <;> trivial
      | multi =>
        refine (solid_multi b ps cs ?_).resolves
        rintro rfl
        obtain h | ⟨p, hp, h⟩ := inner_no_targets ho
        · exact hn h
        · exact h (ha p hp)
    | _ => trivial

end Operation

end QuantumCircuits
