import QuantumCircuits.Proofs.Log.Kept
import QuantumCircuits.Proofs.Log.Same

/-!
# Log — Update

Replaying a circuit's log.  The log holds angles after they were checked and the circuit's operations were
emitted before, so a replay can change what the circuit does.  It goes through for every circuit that was
built by calls (`Circuit.exists_update`), and keeps the circuit's matrix up to a sign if all its operations
are legible (`Operation.Legible`).

The sign that an operation loses with an odd number of turns stays global for a gate on its own.  Under
controls it does not: a general one-qubit gate under controls and a rotation by selected angles that are
logged, and that lose a sign on some registers only, come back as another operation
(`Operation.not_smul_of_unfaithful`).
-/

namespace QuantumCircuits

open Real List Operation Item Function

variable {n : ℕ}
variable {o : Operation} {os : List Operation}

namespace Operation

variable {b : Register}

/-- The operation can be read back from the log: its angles are definite, an entry of its own loses no
sign, and what is left out is carried out exactly. -/
structure Legible (n : ℕ) (o : Operation) : Prop where
  valid : o.Valid n
  definite : ∀ x ∈ o.angles, Definite x
  logged : o.isKept = true → o.snapped = o ∨ o.Good n ∧ o.snapped.Good n ∧ o.Faithful
  leftOut : o.isKept = false → o.Good n ∧ (n ≤ 35 ∨ ∀ x ∈ o.angles, Settled x)

lemma run_kept (h : ∀ p ∈ o.kept, p.snapped.Good n) (V : Wave) :
    run (o.kept.flatMap fun p => p.snapped.prims) V = acts (o.kept.map snapped) V := by
  have hg : ∀ p ∈ o.kept.map snapped, p.Good n := fun p hp => by
    obtain ⟨q, hq, rfl⟩ := mem_map.mp hp; exact h q hq
  rw [← run_flatMap (fun p hp V => run_prims (hg p hp) V), flatMap_map]

/-- **What is logged of a legible operation does what it does**, up to a sign. -/
theorem Legible.exists_sign (h : o.Legible n) : ∃ z ∈ Submonoid.powers (-1 : ℂ), ∀ V,
      run (o.kept.flatMap fun p => p.snapped.prims) V = z • run o.prims V := by
  cases hk : o.isKept with
  | true =>
    have ho : (o.kept.flatMap fun p => p.snapped.prims) = o.snapped.prims := by
      rw [kept_of_isKept h.valid hk, flatMap_singleton]
    rw [ho]
    rcases h.logged hk with he | ⟨hg, hsn, hfa⟩
    · exact ⟨1, one_mem _, fun V => by rw [he, one_smul]⟩
    · have hr : Readable n Definite o := ⟨hg, h.definite, fun _ => .inr ⟨hsn, hfa⟩⟩
      obtain ⟨z, hz, hac⟩ := hr.exists_act_snapped (angleClass_definite (Nat.zero_le 35)) hk
      exact ⟨z, hz, fun V => by rw [run_prims hsn, hac, run_prims hg]⟩
  | false =>
    obtain ⟨hg, han⟩ := h.leftOut hk
    have hl : ∀ {P : Prop}, o.isKept = true → P := fun h => by rw [hk] at h; cases h
    rcases han with hn | hs
    · have hr : Readable n Definite o := ⟨hg, h.definite, hl⟩
      obtain ⟨z, hz, ha⟩ := hr.exists_factor (angleClass_definite hn)
      refine ⟨z, hz, fun V => ?_⟩
      rw [run_kept fun p hp => hr.good_snapped (angleClass_definite hn) hp, ha, run_prims hg]
    · have hr : Readable n Settled o := ⟨hg, hs, hl⟩
      obtain ⟨z, hz, ha⟩ := hr.exists_factor (angleClass_settled n)
      refine ⟨z, bot_le (a := Submonoid.powers (-1 : ℂ)) hz, fun V => ?_⟩
      rw [run_kept fun p hp => hr.good_snapped (angleClass_settled n) hp, ha, run_prims hg]

lemma exists_sign_flatMap (ho : ∀ o ∈ os, o.Legible n) : ∃ z ∈ Submonoid.powers (-1 : ℂ), ∀ V,
      run (os.flatMap fun o => o.kept.flatMap fun p => p.snapped.prims) V = z • run (os.flatMap prims) V := by
  induction os with
  | nil => exact ⟨1, one_mem _, fun V => by simp [run]⟩
  | cons o os ih =>
    obtain ⟨z, hz, hon⟩ := (ho o (by simp)).exists_sign
    obtain ⟨w, hw, hr⟩ := ih fun p hp => ho p (by simp [hp])
    refine ⟨w * z, mul_mem hw hz, fun V => ?_⟩
    rw [flatMap_cons, flatMap_cons, run_append, run_append, hon, hr, run_smul, mul_smul]

/-! ### Signs that do not stay global -/

lemma Good.exists_act_ne_zero (ho : o.Good n) (hb : Below n b) : ∃ V, o.act V b ≠ 0 := by
  obtain ⟨i, rfl⟩ := exists_bits hb
  obtain ⟨L, hL⟩ := exists_mul_matrixOf_run (within_primsAt ho.toValid Recording.maxDepth)
  have hr : matrixOf n (run o.prims) * L = 1 := mul_eq_one_comm.mp hL
  have hon : (matrixOf n (run o.prims) * L) i i = (1 : Matrix _ _ ℂ) i i := by rw [hr]
  by_contra h
  push Not at h
  rw [Matrix.mul_apply, Matrix.one_apply_eq] at hon
  simp [matrixOf, run_prims ho, h] at hon

lemma Good.not_smul_of_signs (ho : o.Good n) {A : Wave → Wave} {b' : Register}
    (hb : Below n b) (hb' : Below n b') (hk : ∀ V, A V b = o.act V b)
    (hn : ∀ V, A V b' = -o.act V b') (z : ℂ) : ¬ ∀ V b, Below n b → A V b = z * o.act V b := by
  intro h
  obtain ⟨V, hV⟩ := ho.exists_act_ne_zero hb
  obtain ⟨W, hW⟩ := ho.exists_act_ne_zero hb'
  have hz : z = 1 := by
    have hVb := (hk V).symm.trans (h V b hb)
    exact (mul_right_cancel₀ hV ((one_mul _).trans hVb)).symm
  have hWb := (hn W).symm.trans (h W b' hb')
  rw [hz, one_mul] at hWb
  exact hW (self_eq_neg.mp hWb.symm)

lemma exists_indexOf {cs : List ℕ} (hcs : cs.Nodup) {i : ℕ} (hi : i < 2 ^ cs.length) :
    ∃ b : Register, indexOf cs b = i ∧ ∀ q, q ∉ cs → b q = false := by
  induction cs generalizing i with
  | nil => exact ⟨fun _ => false, by simp_all [indexOf], fun _ _ => rfl⟩
  | cons c cs ih =>
    obtain ⟨hc, hcs⟩ := nodup_cons.mp hcs
    rw [length_cons, pow_succ] at hi
    obtain ⟨b, hb, ho⟩ := ih hcs (i := i / 2) (by omega)
    refine ⟨update b c (i % 2 = 1), ?_, fun q hq => ?_⟩
    · have hr : indexOf cs (update b c (i % 2 = 1)) = indexOf cs b := by
        rw [indexOf, indexOf]
        refine foldr_ext _ _ _ fun d hd k => ?_
        have hn : d ≠ c := fun h => hc (h ▸ hd)
        rw [update_of_ne hn]
      change (update b c (decide (i % 2 = 1)) c).toNat + 2 * indexOf cs _ = i
      rw [hr, hb, update_self]
      rcases Nat.mod_two_eq_zero_or_one i with h | h <;> simp [h] <;> omega
    · simp only [mem_cons, not_or] at hq; rw [update_of_ne hq.1, ho q hq.2]

section Unfaithful

variable {r : Reach} {theta phi lam : ℝ} {cs ts : List ℕ}
variable {k : ℤ}

lemma below_of_off (hcs : ∀ c ∈ cs, c < n) (h : ∀ q, q ∉ cs → b q = false) :
    Below n b := fun q hq => h q fun hm => absurd (hcs q hm) (by omega)

lemma not_smul_general (ho : (of .u3 r [theta, phi, lam] cs ts).Good n) (hcs : cs ≠ [])
    (ha : ∀ x ∈ [theta, phi, lam], Definite x) (hod : ¬ Even ts.length)
    (ht : theta = 2 * π * k) (hk : ¬ Even k) (z : ℂ) :
    ¬ ∀ V b, Below n b → (of .u3 r [theta, phi, lam] cs ts).snapped.act V b =
      z * (of .u3 r [theta, phi, lam] cs ts).act V b := by
  have hs : turnSign theta ^ ts.length = -1 := by
    rw [ht, turnSign_turns, (Int.not_even_iff_odd.mp hk).neg_one_zpow, (Nat.not_even_iff_odd.mp hod).neg_one_pow]
  have hac := fun V => act_snapped_general (ha theta (by simp)) (ha phi (by simp)) (ha lam (by simp)) r cs ts V
  have hl : ∀ c ∈ cs, c < n := fun c hc => ho.lt c (by simp [qubits, hc])
  have hn : Below n fun _ => false := fun _ _ => rfl
  have hal : Below n fun q => decide (q ∈ cs) := below_of_off hl fun q hq => decide_eq_false hq
  refine ho.not_smul_of_signs hn hal (fun V => ?_) (fun V => ?_) z
  · have hof : allOn cs (fun _ => false) = false := by simpa [allOn] using exists_mem_of_ne_nil cs hcs
    rw [hac, act, gated_off (by simp [hof]), gated_off (by simp [hof])]
  · have hon : allOn cs (fun q => decide (q ∈ cs)) = true := by simp [allOn]
    rw [hac, act, gated_on hon, gated_on hon, hs]
    simp

lemma not_smul_ucr {axis : Axis} {xs : List ℝ} {t : ℕ} (ho : (ucr axis xs cs t).Good n)
    (ha : ∀ x ∈ xs, Definite x) {x : ℝ} (hx : x ∈ xs) (hsn : snap x ≠ 0)
    (hk : 2 * π * k ∈ xs) (hod : ¬ Even k) (z : ℂ) :
    ¬ ∀ V b, Below n b → (ucr axis xs cs t).snapped.act V b = z * (ucr axis xs cs t).act V b := by
  have hnd : cs.Nodup := (nodup_append.mp ho.nodup).1
  have hl : ∀ c ∈ cs, c < n := fun c hc => ho.lt c (by simp [qubits, hc])
  have hsh : xs.length = 2 ^ cs.length := ho.shaped
  -- where the controls select an angle, the logged operation has the sign of that angle
  have hs : ∀ y ∈ xs, ∃ b, Below n b ∧
      ∀ V, (ucr axis xs cs t).snapped.act V b = turnSign y * (ucr axis xs cs t).act V b := by
    intro y hy
    obtain ⟨i, hi, rfl⟩ := getElem_of_mem hy
    obtain ⟨b, hb, hof⟩ := exists_indexOf hnd (hsh ▸ hi)
    refine ⟨b, below_of_off hl hof, fun V => ?_⟩
    have he : (axis.matrix ((xs.map snap).getD (indexOf cs b) 0)).asSquare =
        turnSign xs[i] • (axis.matrix xs[i]).asSquare := by
      rw [hb, getD_eq_getElem _ _ (by simpa using hi), getElem_map, matrix_snapped axis (ha _ hy)]
    have hv : (axis.matrix (xs.getD (indexOf cs b) 0)).asSquare = (axis.matrix xs[i]).asSquare := by
      rw [hb, getD_eq_getElem _ _ hi]
    change select t (fun b => (axis.matrix ((xs.map snap).getD (indexOf cs b) 0)).asSquare) V b =
      _ * select t (fun b => (axis.matrix (xs.getD (indexOf cs b) 0)).asSquare) V b
    rw [select_at (M := fun b => (axis.matrix (xs.getD (indexOf cs b) 0)).asSquare) hv,
      select_at he, select_const_smul]
    rfl
  obtain ⟨b, hb, hke⟩ := hs x hx
  obtain ⟨b', hb', hn⟩ := hs _ hk
  refine ho.not_smul_of_signs hb hb' (fun V => ?_) (fun V => ?_) z
  · have hfa : turnSign x = 1 := by rw [turnSign, if_neg fun h => hsn (by rw [snap, if_pos h])]
    rw [hke, hfa, one_mul]
  · rw [hn, turnSign_turns, (Int.not_even_iff_odd.mp hod).neg_one_zpow, neg_one_mul]

end Unfaithful

/-- **Without faith, no phase helps**: an operation that is logged with a sign lost on some registers only
is no multiple of what it was. -/
theorem not_smul_of_unfaithful (ho : o.Good n) (ha : ∀ x ∈ o.angles, Definite x)
    (hke : o.isKept = true) (h : ¬ o.Faithful) (z : ℂ) :
    ¬ ∀ V b, Below n b → o.snapped.act V b = z * o.act V b := by
  cases o with
  | identity | diagonal | pauliMultiplexor | globalPhase => exact absurd trivial h
  | ucr axis xs cs t =>
    simp only [Faithful, not_forall] at h
    obtain ⟨k, hk, hod⟩ := h
    obtain ⟨x, hx, hs⟩ : ∃ x ∈ xs, snap x ≠ 0 := by
      simpa [isKept, gate, Gate.isTransparent, vanishes] using hke
    exact not_smul_ucr ho ha hx hs hk hod z
  | of b r ps cs ts =>
    obtain rfl : b = .u3 := not_not.mp fun hb => h (by cases b <;> first | exact absurd rfl hb | trivial)
    obtain ⟨theta, phi, lam, rfl⟩ := length_eq_three.mp ho.shaped.1
    cases r with
    | plain => exact absurd trivial h
    | controlled | multi =>
      simp only [Faithful, not_or, not_forall] at h
      obtain ⟨hod, k, ht, hk⟩ := h
      exact not_smul_general ho (by rintro rfl; simpa using ho.shaped.2.1) ha hod ht hk z

end Operation

/-! ### Replays -/

namespace Circuit

variable {c : Circuit ℝ}

/-- **A circuit that was made by calls can be updated**, and then holds the primitives of what its log
kept. -/
theorem exists_update {is : List Item} (h : Made n c is) :
    ∃ c', c.after update = .ok c' ∧ (Change.perform (convert c.framework) c).1 = .ok c' ∧
      c'.numQubits = n ∧ c'.steps = (is.flatMap Item.kept).flatMap fun i => i.snapped.prims := by
  obtain ⟨ho, -, hl⟩ := h.holds
  have he : Forall₂ (fun e i => Carries n (applyNamed e.gate e.operands) [i])
      c.log.toList ((is.flatMap Item.kept).map snapped) := by
    rw [forall₂_map_right_iff]
    exact hl.imp fun _ _ h => carries_applyNamed h
  obtain ⟨c', hr, ho', hs, -⟩ := ho.replay_carries he
  refine ⟨c', after_update hr, ?_, ho'.numQubits, by rw [hs, flatMap_map]⟩
  rw [fresh] at hr
  rw [perform_convert, hr]
  rfl

lemma steps_gates (os : List Operation) : (((os.map Item.gate).flatMap Item.kept).flatMap fun i => i.snapped.prims) =
      os.flatMap fun o => o.kept.flatMap fun p => p.snapped.prims := by
  rw [flatMap_kept_gates, flatMap_map, flatMap_assoc]
  rfl

lemma within_prims (hos : ∀ o ∈ os, o.Valid n) : ∀ p ∈ os.flatMap Operation.prims, p.Within n := by
  intro p hp; obtain ⟨o, ho, hp⟩ := mem_flatMap.mp hp; exact within_primsAt (hos o ho) _ p hp

lemma within_snapped (hos : ∀ o ∈ os, o.Valid n) :
    ∀ p ∈ os.flatMap fun o => o.kept.flatMap fun p => p.snapped.prims, p.Within n := by
  intro p hp
  obtain ⟨o, ho, hp⟩ := mem_flatMap.mp hp
  obtain ⟨q, hq, hp⟩ := mem_flatMap.mp hp
  exact within_primsAt (mem_keptAt (hos o ho) hq).1.snapped _ p hp

lemma operator_of_steps (hn : c.numQubits = n)
    (hs : c.steps = os.flatMap Operation.prims) (hg : ∀ o ∈ os, o.Good n) :
    Local n (acts os) ∧ c.operator n = matrixOf n (acts os) := by
  have hr : run c.steps = acts os := funext fun V => by rw [hs, run_flatMap fun o ho => run_prims (hg o ho)]
  have hw : ∀ p ∈ c.steps, p.Within n := hs ▸ within_prims fun o ho => (hg o ho).toValid
  rw [← hr]
  exact ⟨local_run hw, operator_eq_matrixOf hn hw⟩

lemma exists_update_gates (h : Made n c (os.map .gate)) :
    ∃ c', c.after update = .ok c' ∧ (Change.perform (convert c.framework) c).1 = .ok c' ∧
      c.operator n = matrixOf n (run (os.flatMap Operation.prims)) ∧
      c'.operator n = matrixOf n (run (os.flatMap fun o => o.kept.flatMap fun p => p.snapped.prims)) := by
  obtain ⟨c', ha, hco, hn, hs'⟩ := exists_update h
  obtain ⟨hop, hs, -⟩ := h.holds
  have hv : ∀ o ∈ os, o.Valid n := fun o ho => h.valid (mem_map_of_mem ho)
  rw [steps_gates] at hs'
  rw [flatMap_prims_gates] at hs
  refine ⟨c', ha, hco, ?_, ?_⟩
  · rw [operator_eq_matrixOf hop.numQubits (hs ▸ within_prims hv), hs]
  · rw [operator_eq_matrixOf hn (hs' ▸ within_snapped hv), hs']

lemma smul_iff_faithful (hk : o.isKept = true) (hg : o.Good n)
    (hs : o.snapped.Good n) (ha : ∀ x ∈ o.angles, Definite x) :
    (∃ z : ℂ, matrixOf n (run ([o].flatMap fun o => o.kept.flatMap fun p => p.snapped.prims)) =
      z • matrixOf n (run ([o].flatMap Operation.prims))) ↔ o.Faithful := by
  have hv : ∀ p ∈ [o], p.Valid n := by simpa using hg.toValid
  constructor
  · rintro ⟨z, hz⟩
    by_contra hu
    refine not_smul_of_unfaithful hg ha hk hu z fun V b hb => ?_
    rw [← matrixOf_smul, matrixOf_eq_iff (local_run (within_snapped hv))
      ((local_run (within_prims hv)).smul z)] at hz
    have hV := hz V b hb
    rw [flatMap_singleton, flatMap_singleton, kept_of_isKept hg.toValid hk,
      flatMap_singleton, run_prims hs, run_prims hg] at hV
    exact hV
  · intro hfa
    have hl : ∀ p ∈ [o], p.Legible n := by
      simpa using ⟨hg.toValid, ha, fun _ => .inr ⟨hg, hs, hfa⟩, fun h => by rw [hk] at h; cases h⟩
    obtain ⟨z, -, hr⟩ := exists_sign_flatMap hl
    exact ⟨z, congrArg (matrixOf n) (funext hr)⟩

/-- **What a replay keeps.**  A circuit that was made by gate calls can be updated, and converted to its
own framework, with the same result.  Its matrix stays the same up to a sign if all its operations are
legible.  For a circuit of one logged operation that is carried out exactly, faith is needed: without it,
the matrices differ by more than a factor. -/
theorem update_keeps_operator {c : Circuit ℝ} {os : List Operation} (h : Made n c (os.map .gate)) :
    ∃ c', c.after update = .ok c' ∧ (Change.perform (convert c.framework) c).1 = .ok c' ∧
      ((∀ o ∈ os, o.Legible n) → ∃ z : ℂ, (z = 1 ∨ z = -1) ∧ c'.operator n = z • c.operator n) ∧
      ∀ o, os = [o] → o.isKept = true → o.Good n → o.snapped.Good n → (∀ x ∈ o.angles, Definite x) →
        ((∃ z : ℂ, c'.operator n = z • c.operator n) ↔ o.Faithful) := by
  obtain ⟨c', haf, hco, hop, hop'⟩ := exists_update_gates h
  refine ⟨c', haf, hco, ?_⟩
  rw [hop, hop']
  refine ⟨fun hl => ?_, fun o ho hk hg hs ha => ?_⟩
  · obtain ⟨z, ⟨m, rfl⟩, hr⟩ := exists_sign_flatMap hl
    exact ⟨_, neg_one_pow_eq_or ℂ m, congrArg (matrixOf n) (funext hr)⟩
  · subst ho; exact smul_iff_faithful hk hg hs ha

/-! ### Two angles selected by one control -/

/-- A rotation of the first of two qubits by an angle that the second one selects. -/
abbrev selectedTurn (x y : ℝ) : Operation := .ucr .y [x, y] [1] 0

lemma denotes_selectedTurn (x y : ℝ) : Denotes 2 (.ucr .y)
    [(.angles, .list [.real x, .real y]), (.controlIndices, .list [.int 1]), (.targetIndex, .int 0)]
    (selectedTurn x y) :=
  ⟨rfl, rfl, .cons (.inl rfl) (.cons (Operand.IsSequence.list (.cons ⟨rfl, rfl⟩ .nil)).isQubits
    (.cons ⟨rfl, rfl⟩ .nil))⟩

lemma good_selectedTurn (x y : ℝ) : (selectedTurn x y).Good 2 :=
  ⟨⟨rfl, by simp [qubits], by simp [qubits]⟩, by simp [turns]⟩

lemma far_one : Far 1 := far_of_between (by norm_num) (by norm_num; linarith [two_le_pi])

lemma isKept_selectedTurn (k : ℤ) : (selectedTurn (2 * π * k) 1).isKept = true := by
  have hs : snap 1 = 1 := by rw [snap, isZeroAngle_of_far far_one, if_neg (by simp)]
  simp [isKept, Operation.gate, Gate.isTransparent, vanishes, hs]

lemma definite_selectedTurn (k : ℤ) : ∀ x ∈ (selectedTurn (2 * π * k) 1).angles, Definite x := by
  have ho : Definite 1 := .inr far_one
  simpa [angles] using ⟨.inl ⟨k, rfl⟩, ho⟩

lemma faithful_selectedTurn (k : ℤ) : (selectedTurn (2 * π * k) 1).Faithful ↔ Even k := by
  constructor
  · intro h; exact h k (by simp)
  · intro hk l hl
    rcases mem_cons.mp hl with hl | hl
    · have hlk : (l : ℝ) = k := by simpa [pi_ne_zero] using hl
      exact (Int.cast_injective hlk) ▸ hk
    · exact absurd (mem_singleton.mp hl ▸ far_one) (not_far_turns l)

/-- Two turns selected by a control, after one turn on its own, which is left out. -/
theorem update_keeps_two_turns : ∃ c, Made 2 c [.gate (.turn .ry (2 * π) [0]), .gate (selectedTurn (4 * π) 1)] ∧
    ∃ c', c.after update = .ok c' ∧ ∃ z : ℂ, (z = 1 ∨ z = -1) ∧ c'.operator 2 = z • c.operator 2 := by
  have ht : (turn .ry (2 * π) [0]).Good 2 :=
    ⟨⟨⟨rfl, rfl, by simp [Base.onTwo]⟩, by decide, by decide⟩, by simp [turns_plain]⟩
  have hfo : 4 * π = 2 * π * (2 : ℤ) := by push_cast; ring
  obtain ⟨c, hg⟩ := @exists_made 2 two_pos [turn .ry (2 * π) [0], selectedTurn (4 * π) 1]
    (by simpa using ⟨ht.toValid, (good_selectedTurn (4 * π) 1).toValid⟩)
  obtain ⟨c', ha, -, hs, -⟩ := update_keeps_operator hg
  refine ⟨c, hg, c', ha, hs ?_⟩
  have hze : isZeroAngle (2 * π) = true := by simpa using isZeroAngle_turns 1
  have hl : (turn .ry (2 * π) [0]).isKept = false := by
    simp [isKept, Operation.gate, Gate.isTransparent, vanishes, Base.isAngular, snap, hze]
  simp only [mem_cons, not_mem_nil, or_false, forall_eq_or_imp, forall_eq]
  refine ⟨⟨ht.toValid, ?_, fun h => ?_, fun _ => ⟨ht, .inl (by norm_num)⟩⟩,
    ⟨(good_selectedTurn _ _).toValid, ?_, fun _ => .inr ⟨good_selectedTurn _ _, ?_, ?_⟩, fun h => ?_⟩⟩
  · simpa [angles, Base.isAngular] using .inl ⟨1, by simp⟩
  · rw [hl] at h; cases h
  · rw [hfo]; exact definite_selectedTurn 2
  · exact good_selectedTurn _ _
  · rw [hfo]; exact (faithful_selectedTurn 2).mpr (by decide)
  · rw [hfo, isKept_selectedTurn] at h; cases h

/-- One turn selected by a control, beside an angle that is logged, comes back without its sign. -/
theorem not_update_keeps_turn : ∃ c c' : Circuit ℝ, (empty .reference 2).after (apply (.ucr .y)
      [(.angles, .list [.real (2 * π), .real 1]), (.controlIndices, .list [.int 1]), (.targetIndex, .int 0)]) =
        .ok c ∧ c.after update = .ok c' ∧ ∀ z : ℂ, c'.operator 2 ≠ z • c.operator 2 := by
  have hon : 2 * π = 2 * π * (1 : ℤ) := by simp
  obtain ⟨c, ha, hc⟩ := (made_sized two_pos).exists_call (bind_of_denotes (denotes_selectedTurn (2 * π) 1))
    (.gate (denotes_selectedTurn (2 * π) 1) (good_selectedTurn (2 * π) 1).toValid)
  have hg : Made 2 c ([selectedTurn (2 * π) 1].map .gate) := hc
  obtain ⟨c', hu, -, ho, ho'⟩ := exists_update_gates hg
  refine ⟨c, c', ha, hu, fun z hz => ?_⟩
  rw [ho, ho', hon] at hz
  have hfa := (smul_iff_faithful (isKept_selectedTurn 1) (good_selectedTurn _ _) (good_selectedTurn _ _)
    (definite_selectedTurn 1)).mp ⟨z, hz⟩
  exact absurd ((faithful_selectedTurn 1).mp hfa) (by decide)

end Circuit

/-! ### Replay

What a replay does to a log.  A checked operand passes its checks once more and stays what it was, and an
entry is logged again under its own name, since an operation that has an entry is not left out after its
angles were checked (`Item.Stands.kept_snapped`).  So a circuit comes out of a replay with the items that its
log stood for (`Circuit.Lists.exists_update`), and so do parts of the log that are taken out
(`Circuit.Lists.exists_parts`).
-/

open Change Operand Entry Slice

variable {e : Entry ℝ} {i : Item}

/-! ### Angles that were checked -/

lemma snap_snap (x : ℝ) : snap (snap x) = snap x := by
  by_cases h : isZeroAngle x = true
  · simp [snap, h]
  · simp [snap, h]

lemma map_snap_map_snap (xs : List ℝ) : (xs.map snap).map snap = xs.map snap := by
  rw [map_map]; exact map_congr_left fun x _ => snap_snap x

namespace Operation

lemma snapped_snapped (o : Operation) : o.snapped.snapped = o.snapped := by
  cases o with
  | of b r ps cs ts =>
    simp only [snapped]
    split
    · rw [map_snap_map_snap]
    · rfl
  | ucr axis angles cs t | pauliMultiplexor axis angles cs t => simp only [snapped, map_snap_map_snap]
  | globalPhase a => simp only [snapped, snap_snap]
  | _ => rfl

lemma isKept_snapped (o : Operation) : o.snapped.isKept = o.isKept := by
  cases o with
  | of b r ps cs ts =>
    cases hb : b.isAngular with
    | false => simp [isKept, snapped, hb, gate, vanishes]
    | true => simp only [isKept, snapped, hb, gate, vanishes, if_true, map_snap_map_snap]
  | ucr axis angles cs t | pauliMultiplexor axis angles cs t =>
    simp only [isKept, snapped, gate, vanishes, map_snap_map_snap]
  | globalPhase a => simp only [isKept, snapped, gate, vanishes, snap_snap]
  | _ => rfl

end Operation

namespace Item

lemma snapped_snapped (i : Item) : i.snapped.snapped = i.snapped := by
  cases i with
  | gate o => exact congrArg gate o.snapped_snapped
  | _ => rfl

/-- **What has an entry has one entry when it is replayed.** -/
theorem Stands.kept_snapped (h : Stands n e i) : i.snapped.kept = [i.snapped] := by
  cases i with
  | gate o =>
    obtain ⟨hv, hk, -, -⟩ := h
    have hs := kept_of_isKept hv.snapped ((isKept_snapped o).trans hk)
    simp [kept, snapped, hs]
  | _ => rfl

lemma Stands.replayed (h : Stands n e i) : Stands n e.replayed i := by
  cases i with
  | gate o =>
    obtain ⟨hv, hk, hr, he⟩ := h
    exact .intro hv hk hr he
  | measure qs | reset qs =>
    obtain ⟨x, k, rfl, hx, hq⟩ := h
    exact ⟨x, _, rfl, hx, hq⟩

end Item

namespace Circuit

variable {is : List Item} {c : Circuit ℝ} {es : List (Entry ℝ)} {g : ℝ}

/-! ### Replays -/

lemma flatMap_kept_snapped (h : Forall₂ (Stands n) es is) :
    (is.map Item.snapped).flatMap Item.kept = is.map Item.snapped := by
  induction h with
  | nil => rfl
  | cons he _ ih =>
    rw [map_cons, flatMap_cons, he.kept_snapped, ih]
    rfl

/-- **A replay logs each entry again.** -/
theorem Open.replay_stands (hc : c.Open n g) (h : Forall₂ (Stands n) es is) :
    ∃ c', replay es c.fresh = (es.map replayed, c', .ok ()) ∧
      c'.Open n (angleSum (is.flatMap fun i => i.snapped.prims)) ∧
      c'.steps = is.flatMap (fun i => i.snapped.prims) ∧ Forall₂ (Stands n) c'.log.toList (is.map snapped) := by
  have hca : Forall₂ (fun e i => Carries n (applyNamed e.gate e.operands) [i]) es (is.map snapped) :=
    forall₂_map_right_iff.mpr (h.imp fun _ _ he => carries_applyNamed he)
  obtain ⟨c', hr, ho, hs, hl⟩ := hc.replay_carries hca
  rw [flatMap_kept_snapped h] at hl
  rw [flatMap_map] at hs ho
  exact ⟨c', hr, ho, hs, hl⟩

namespace Lists

variable {c d : Circuit ℝ} {is js : List Item}

lemma sameCalls (hc : c.Lists n is) (hd : d.Lists n js) (h : js.map Item.snapped = is.map Item.snapped) :
    Forall₂ Entry.SameCall c.log.toList d.log.toList := by
  have hch : ∀ {c : Circuit ℝ} {is : List Item}, c.Lists n is →
      Forall₂ (fun e t => ∃ i, Stands n e i ∧ i.snapped = t) c.log.toList (is.map snapped) :=
    fun hc => forall₂_map_right_iff.mpr (hc.log.imp fun _ i he => ⟨i, he, rfl⟩)
  refine forall₂_of_common (hch hc) (h ▸ hch hd) ?_
  rintro e e' t ⟨i, hi, rfl⟩ ⟨j, hj, hij⟩
  exact hi.sameCall hj hij

lemma sameLog (hc : c.Lists n is) (hd : d.Lists n is) : c.sameLog d = true :=
  sameAll_iff.mpr (forall₂_of_common hc.log hd.log fun _ _ _ h h' => h.same h')

/-- **A replay goes through**, and leaves the items with their angles checked. -/
theorem exists_update (hc : c.Lists n is) : ∃ c', c.after update = .ok c' ∧ c'.Lists n (is.map snapped) ∧
      c'.steps = is.flatMap fun i => i.snapped.prims := by
  obtain ⟨g, ho⟩ := hc.isOpen
  obtain ⟨c', hr, ho', hs, hl⟩ := ho.replay_stands hc.log
  exact ⟨c', after_update hr, ⟨⟨_, ho'⟩, hl⟩, hs⟩

end Lists

/-! ### Parts of a log -/

lemma filterMap_range' {β : Type*} (xs : List β) (s m : ℕ) :
    (range' s m).filterMap (fun p => xs[p]?) = (xs.drop s).take m := by
  induction m generalizing s with
  | zero => simp
  | succ m ih =>
    rw [range'_succ, filterMap_cons, ih]
    by_cases hs : s < xs.length
    · rw [getElem?_eq_getElem hs, drop_eq_getElem_cons hs, take_succ_cons]
    · rw [getElem?_eq_none (by omega), drop_eq_nil_of_le (by omega), drop_eq_nil_of_le (by omega), take_nil, take_nil]

lemma forall₂_set {β γ : Type*} {R : β → γ → Prop} {xs : List β} {ys : List γ}
    (h : Forall₂ R xs ys) {p : ℕ} {x : β} (hx : ∀ y, ys[p]? = some y → R x y) : Forall₂ R (xs.set p x) ys := by
  induction h generalizing p with
  | nil => exact .nil
  | cons hy hr ih =>
    cases p with
    | zero => exact .cons (hx _ rfl) hr
    | succ p => exact .cons hy (ih hx)

lemma map_toNat_rangeMembers {a : ℤ} (ha : 0 ≤ a) (b : ℤ) :
    (rangeMembers a b 1).map Int.toNat = range' a.toNat (b - a).toNat := by
  have hco : rangeCount a b 1 = (b - a).toNat := by simp [rangeCount]
  rw [rangeMembers, hco, map_map, range'_eq_map_range]
  refine map_congr_left fun k _ => ?_
  simp only [Function.comp_apply]
  omega

def cut (m : ℕ) (k : ℤ) : ℕ := (clamp m 0 m k).toNat

lemma positions_until (m : ℕ) (k : ℤ) : positions ⟨none, some k, none⟩ m = .ok (range' 0 (cut m k)) := by
  have hm := map_toNat_rangeMembers le_rfl (clamp m 0 m k)
  simpa [positions, bounds, bind, Except.bind, cut] using hm

lemma positions_from (m : ℕ) (k : ℤ) :
    positions ⟨some k, none, none⟩ m = .ok (range' (cut m k) (m - cut m k)) := by
  have hcl : 0 ≤ clamp m 0 m k := by simp only [clamp]; grind
  have hlen : (m - clamp m 0 m k).toNat = m - cut m k := by simp only [cut]; omega
  have hm := map_toNat_rangeMembers hcl m
  rw [hlen] at hm
  simpa [positions, bounds, bind, Except.bind, cut] using hm

lemma forall₂_putBack {placed : List (ℕ × Entry ℝ)} {log : Array (Entry ℝ)} (h : Forall₂ (Stands n) log.toList is)
    (hpl : ∀ p ∈ placed, ∀ i, is[p.1]? = some i → Stands n p.2 i) :
    Forall₂ (Stands n) (placed.foldl (fun log p => log.setIfInBounds p.1 p.2) log).toList is := by
  induction placed generalizing log with
  | nil => exact h
  | cons p placed ih =>
    obtain ⟨hp, hpl⟩ := forall_mem_cons.mp hpl
    refine ih ?_ hpl
    rw [Array.toList_setIfInBounds]
    exact forall₂_set h hp

lemma Open.withLog (h : c.Open n g) (log : Array (Entry ℝ)) : Open n { c with log } g :=
  ⟨h.sink, h.reference, h.validating, h.detached⟩

/-- **Entries of a log go into a circuit of their own.** -/
theorem Lists.exists_excerpt (hc : c.Lists n is) (s m : ℕ) :
    ∃ a c₁, Change.perform (excerpt (range' s m)) c = (.ok a, c₁) ∧
      a.Lists n (((is.drop s).take m).map snapped) ∧ c₁.Lists n is := by
  obtain ⟨g, ho⟩ := hc.isOpen
  have hch : (range' s m).filterMap (fun p => c.log[p]?) = (c.log.toList.drop s).take m := by
    rw [← filterMap_range']; simp
  have hs : Forall₂ (Stands n) ((c.log.toList.drop s).take m) ((is.drop s).take m) :=
    forall₂_take _ (forall₂_drop _ hc.log)
  obtain ⟨a, hr, ho', -, hl⟩ := ho.replay_stands hs
  obtain ⟨placed, hpl⟩ : ∃ placed, placed =
      (range' s m).zip (((c.log.toList.drop s).take m).map Entry.replayed) := ⟨_, rfl⟩
  have hru : Change.perform (excerpt (range' s m)) c =
      (.ok a, { c with log := placed.foldl (fun log p => log.setIfInBounds p.1 p.2) c.log }) := by
    rw [excerpt, Change.perform_get_bind, hch]
    dsimp only
    rw [hr, hpl]
    rfl
  refine ⟨a, _, hru, ⟨⟨_, ho'⟩, hl⟩, ⟨⟨g, ho.withLog _⟩, forall₂_putBack hc.log ?_⟩⟩
  intro p hp i hi
  subst hpl
  obtain ⟨j, hj, rfl⟩ := getElem_of_mem hp
  simp only [getElem_zip, getElem_map, getElem_take, getElem_drop, List.getElem_range', one_mul] at hi ⊢
  obtain ⟨hlt, rfl⟩ := List.getElem?_eq_some_iff.mp hi
  exact (hc.log.get _ hlt).replayed

lemma Lists.exists_parts (hc : c.Lists n is) (k : ℤ) :
    ∃ m a c₁ b c₂, Change.perform (select (.slice ⟨none, some k, none⟩)) c = (.ok a, c₁) ∧
      Change.perform (select (.slice ⟨some k, none, none⟩)) c₁ = (.ok b, c₂) ∧
      a.Lists n ((is.take m).map snapped) ∧ b.Lists n ((is.drop m).map snapped) := by
  obtain ⟨a, c₁, hfi, ha, hc₁⟩ := hc.exists_excerpt 0 (cut c.log.size k)
  obtain ⟨b, c₂, hsn, hb, -⟩ := hc₁.exists_excerpt (cut c.log.size k) (c.log.size - cut c.log.size k)
  have hlen : is.length = c.log.size := hc.log.length_eq.symm
  have hs : c₁.log.size = c.log.size := hc₁.log.length_eq.trans hlen
  rw [take_of_length_le (by rw [length_drop, hlen])] at hb
  refine ⟨cut c.log.size k, a, c₁, b, c₂, ?_, ?_, ha, hb⟩
  · rw [select, perform_get_bind, selected, positions_until]; exact hfi
  · rw [select, perform_get_bind, selected, positions_from, hs]; exact hsn

end Circuit

end QuantumCircuits
