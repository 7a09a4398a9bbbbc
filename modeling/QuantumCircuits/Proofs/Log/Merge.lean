import QuantumCircuits.Proofs.Log.Control

/-!
# Log — Merge

Merging the global phases of a circuit.  The entries for phases on their own are left out, the others are
replayed, and one phase is added: the sum that the circuit has kept.  This sum also holds the phases that
gates bring along, powers of Pauli gates and diagonals, and the replay of these gates brings them in once
more (`Operation.replayedPhase`).

So the circuit comes out with that phase counted twice (`Circuit.mergeGlobalPhases_keeps_iff`): its
matrix, its global phase up to turns and, at a second merge, its log stay what they are exactly if the
phase is none that shows there.
-/

noncomputable section

namespace QuantumCircuits

open Real List Change Operation Entry Item

variable {n : ℕ}
variable {x : Operand ℝ} {r s : ℝ} {es : List (Entry ℝ)}

/-! ### Equal numbers and equal logs -/

lemma Operand.IsNumber.unique (hr : x.IsNumber r) (hs : x.IsNumber s) : r = s := by
  have ho := hr.toReal.symm.trans hs.toReal
  exact Except.ok.inj ho

namespace Entry

variable {e e' : Entry ℝ} {a b : ℝ}

lemma Unfolds.snap_eq_of_same (h : e.Unfolds n (.globalPhase a)) (h' : e'.Unfolds n (.globalPhase b))
    (hs : Entry.same e e' = true) : snap a = snap b := by
  cases h with
  | @intro operands k es _ _ _ hr _ =>
    cases h' with
    | @intro operands' k' es' _ _ _ hr' _ =>
      match operands, operands', hr.keys, hr.checked, hr'.keys, hr'.checked with
      | [(_, x)], [(_, y)], hk, .cons hx .nil, hk', .cons hy .nil =>
        obtain rfl : _ = Key.angle := (cons.inj hk).1
        obtain rfl : _ = Key.angle := (cons.inj hk').1
        refine (Operand.IsNumber.same_iff hx hy).mp ?_
        rw [Entry.same] at hs
        simp only [Bool.and_eq_true] at hs
        simpa [sameOperands] using hs.1.2

lemma Unfolds.of_snap_eq (h : e.Unfolds n (.globalPhase a)) (ha : snap a = snap b) : e.Unfolds n (.globalPhase b) := by
  cases h with
  | intro _ hk hr he =>
    refine .intro (light_globalPhase b).valid ?_ ?_ he
    · simpa [isKept, Operation.gate, vanishes, ha] using hk
    · have hs : (globalPhase b).snapped = (globalPhase a).snapped := by simp [Operation.snapped, ha]
      exact hs ▸ hr

end Entry

lemma exp_mul_I_eq_one_iff (x : ℝ) : Complex.exp (x * Complex.I) = 1 ↔ ∃ k : ℤ, x = k * (2 * π) := by
  rw [Complex.exp_eq_one_iff]
  refine exists_congr fun k => ?_
  rw [← mul_assoc, mul_left_inj' Complex.I_ne_zero]
  exact_mod_cast Iff.rfl

/-! ### What is replayed -/

namespace Operation

/-- What is logged of operations, the phases on their own apart. -/
def loggedGates (os : List Operation) : List Operation := (os.flatMap kept).filter fun o => o.gate ≠ .globalPhase

/-- The phase that a replay of the logged gates brings in. -/
def replayedPhase (os : List Operation) : ℝ := angleSum ((loggedGates os).flatMap fun o => o.snapped.prims)

lemma kept_globalPhase (g : ℝ) : (globalPhase g).kept = if snap g = 0 then [] else [globalPhase g] := by
  rw [kept_eq (light_globalPhase (n := 0) g).valid]
  by_cases hg : snap g = 0 <;> simp [isKept, gate, Gate.isTransparent, vanishes, inner, primitives?, hg]

lemma good_globalPhase (g : ℝ) : (globalPhase g).Good n := ⟨(light_globalPhase g).valid, by simp [turns]⟩

lemma phases_filter (os : List Operation) :
    phases (os.filter fun o => o.gate ≠ .globalPhase) = (os.map ownPhase).sum := by
  induction os with
  | nil => rfl
  | cons o os ih =>
    rw [map_cons, sum_cons, ← ih]
    cases o with
    | globalPhase a =>
      rw [filter_cons_of_neg (by simp [gate])]
      simp [ownPhase]
    | _ =>
      rfl

section Settled

variable {os : List Operation} (hgood : ∀ o ∈ os, o.Good n)
  (hangles : ∀ o ∈ os, ∀ x ∈ o.angles, Settled x)
include hgood hangles

lemma good_loggedGates : ∀ p ∈ loggedGates os, p.Good n ∧ p.snapped = p := by
  intro p hp
  have hp := mem_of_mem_filter hp
  have hs := snapped_of_mem_flatMap_kept hgood hangles p hp
  exact ⟨hs ▸ (of_mem_flatMap_kept hgood hangles p hp).1, hs⟩

lemma replayedPhase_eq : replayedPhase os = ownPhases os := by
  have hl := good_loggedGates hgood hangles
  have hpr : ∀ p ∈ loggedGates os, angleSum p.snapped.prims = p.phase := fun p hp => by
    rw [(hl p hp).2]; exact angleSum_primsAt (hl p hp).1 p.rank_lt_maxDepth
  rw [replayedPhase, angleSum_flatMap hpr, loggedGates, phases_filter]
  exact sum_map_flatMap fun o ho => (sums_kept (readable_of_settled hgood hangles o ho)).2

/-- **The logged gates and the sum of all phases** do what the operations do, with the phases that gates
bring along counted twice. -/
theorem acts_merged (V : Wave) : acts (loggedGates os ++ [globalPhase (phases os)]) V =
    Complex.exp (ownPhases os * Complex.I) • acts os V := by
  have hs := snapped_of_mem_flatMap_kept hgood hangles
  have hk : ∀ p ∈ os.flatMap kept, p.Good n := fun p hp =>
    hs p hp ▸ (of_mem_flatMap_kept hgood hangles p hp).1
  have ha : acts os V = acts (os.flatMap kept) V := by
    rw [← acts_kept hgood hangles V, map_congr_left hs, map_id']
  rw [acts_append, acts_cons, acts_nil, act_globalPhase, ha, acts_eq_smul hk, smul_smul,
    ← Complex.exp_add, ← bareAngles_kept (readable_of_settled hgood hangles)]
  push_cast
  rw [loggedGates]
  ring_nf

end Settled

end Operation

/-! ### Merging -/

namespace Circuit

variable {c : Circuit ℝ} {g : ℝ} {is : List Item} {os : List Operation}

lemma perform_updateWith (hc : c.Open n g) (h : Forall₂ (Stands n) es is) :
    ∃ c', Change.perform (updateWith es) c = (.ok (), c') ∧ c'.Open n (angleSum (is.flatMap fun i => i.snapped.prims)) ∧
      c'.steps = (is.flatMap fun i => i.snapped.prims) ∧
      Forall₂ (Stands n) c'.log.toList (is.map Item.snapped) := by
  obtain ⟨c', hr, ho, hs, hl⟩ := hc.replay_stands h
  refine ⟨c', ?_, ho, hs, hl⟩
  let d : Circuit ℝ := { c with log := es.toArray, detached := true }
  have hr : replay d.log.toList d.fresh = _ := hr
  exact (perform_update d).trans (by rw [hr])

lemma carries_globalPhase (hx : x.IsNumber g) : Carries n (apply .globalPhase [(.angle, x)]) [.gate (.globalPhase g)] :=
  carries_gate ⟨rfl, rfl, .cons hx .nil⟩ (light_globalPhase g).valid

/-- What is left of a log: the gates, and after them the phase if it is one. -/
def Merged (n : ℕ) (c : Circuit ℝ) (ks : List Operation) (g : ℝ) : Prop :=
  Forall₂ (Unfolds n) c.log.toList (ks ++ (globalPhase g).kept)

/-- **Merging goes through.** -/
theorem exists_merge {ks : List Operation} (hc : c.Open n g) (h : Forall₂ (Unfolds n) c.log.toList os)
    (hks : (os.filter fun o => o.gate ≠ .globalPhase) = ks) : ∃ c', c.after mergeGlobalPhases = .ok c' ∧
      c'.Open n (angleSum (ks.flatMap fun o => o.snapped.prims) + g) ∧
      c'.steps = (ks.map Operation.snapped ++ [globalPhase g]).flatMap Operation.prims ∧
      Merged n c' (ks.map Operation.snapped) g := by
  obtain ⟨ps, hps, hl⟩ := exists_positionsWithout (exists_gate_of_unfolds h) .globalPhase
  have hst : Forall₂ (Stands n) (c.log.toList.filter fun e => !e.isGate .globalPhase) (ks.map gate) :=
    forall₂_map_right_iff.mpr (hks ▸ forall₂_filter h .globalPhase)
  obtain ⟨c₁, hu, ho₁, hs₁, hl₁⟩ := perform_updateWith hc hst
  rw [flatMap_map] at ho₁ hs₁
  rw [map_map, forall₂_map_right_iff] at hl₁
  obtain ⟨c', es, hp, ho', hs', hl', he⟩ := carries_globalPhase hc.sink.globalPhase c₁ _ ho₁
  have hk : [Item.gate (.globalPhase g)].flatMap Item.kept = (globalPhase g).kept.map .gate :=
    flatMap_singleton ..
  rw [hk, forall₂_map_right_iff] at he
  refine ⟨c', ?_, ?_, ?_, ?_⟩
  · rw [after, mergeGlobalPhases, perform_get_bind, hps, perform_ofOutcome_bind, hl, perform_bind_ok hu, hp]
  · have hon : angleSum ([Item.gate (.globalPhase g)].flatMap Item.prims) = g := by
      exact angleSum_primsAt (good_globalPhase (n := n) g) (rank_lt_maxDepth _)
    rwa [hon] at ho'
  · rw [hs', hs₁, flatMap_append, flatMap_map]; rfl
  · rw [Merged, hl', Array.toList_append]
    exact rel_append (R := Unfolds n) (forall₂_map_right_iff.mpr hl₁) he

namespace Merged

variable {c c' : Circuit ℝ} {ks : List Operation} {a b : ℝ}

lemma length_filter_globalPhase (h : Merged n c ks a) (hk : ∀ o ∈ ks, o.gate ≠ .globalPhase) :
    (c.log.toList.filter fun e => e.isGate .globalPhase).length ≤ 1 := by
  have hco : ∀ {es os}, Forall₂ (Unfolds n) es os →
      (es.filter fun e => e.isGate .globalPhase).length = (os.filter fun o => o.gate = .globalPhase).length := by
    intro es os hes
    induction hes with
    | nil => rfl
    | @cons e o es os he _ ih =>
      have hga : e.isGate .globalPhase = decide (o.gate = .globalPhase) := by
        obtain ⟨-, -, -, -⟩ := he
        by_cases ho : o.gate = .globalPhase <;> simp [isGate, ho]
      by_cases ho : o.gate = .globalPhase <;> simp [hga, ho, ih]
  have hg : (ks.filter fun o => o.gate = .globalPhase) = [] := by simpa [filter_eq_nil_iff] using hk
  rw [hco h, filter_append, hg, nil_append, kept_globalPhase]
  split <;> simp [Operation.gate]

lemma of_snap_eq (h : Merged n c ks a) (hab : snap a = snap b) : Merged n c ks b := by
  have hp := forall₂_drop_append _ _ _ h
  have hp' : Forall₂ (Unfolds n) (c.log.toList.drop ks.length) (globalPhase b).kept := by
    rw [kept_globalPhase] at hp ⊢
    rw [← hab]
    by_cases ha : snap a = 0
    · rwa [if_pos ha] at hp ⊢
    · rw [if_neg ha] at hp ⊢
      generalize c.log.toList.drop ks.length = es at hp
      cases hp with
      | cons he hn => exact .cons (he.of_snap_eq hab) hn
  rw [Merged, ← take_append_drop ks.length c.log.toList]
  exact rel_append (forall₂_take_append _ _ _ h) hp'

/-- **Logs that differ in the phase after their gates** are equal exactly if the phases are logged alike. -/
theorem sameLog_iff (h : Merged n c ks a) (h' : Merged n c' ks b) : c.sameLog c' = true ↔ snap b = snap a := by
  constructor
  · intro hs
    have hen := sameAll_iff.mp hs
    rw [Merged, kept_globalPhase] at h h'
    have hlen := h.length_eq.symm.trans (hen.length_eq.trans h'.length_eq)
    by_cases ha : snap a = 0
    · by_cases hb : snap b = 0
      · rw [ha, hb]
      · simp [ha, hb] at hlen
    · by_cases hb : snap b = 0
      · simp [ha, hb] at hlen
      · -- both logs end with an entry for the phase
        rw [if_neg ha] at h
        rw [if_neg hb] at h'
        have hl : ks.length < (ks ++ [globalPhase a]).length := by simp
        have hl' : ks.length < (ks ++ [globalPhase b]).length := by simp
        have he := h.get (h.length_eq ▸ hl) hl
        have he' := h'.get (h'.length_eq ▸ hl') hl'
        simp only [get_eq_getElem, getElem_append_right le_rfl, Nat.sub_self, getElem_cons_zero] at he he'
        exact (he.snap_eq_of_same he' (hen.get _ _)).symm
  · intro hab
    exact sameAll_iff.mpr (forall₂_of_common h (h'.of_snap_eq hab) fun _ _ _ he he' => he.same he')

end Merged

section Made

variable {c : Circuit ℝ} {os : List Operation} {g : ℝ} (h : Made n c (os.map .gate))
include h

lemma Made.steps_gates : c.steps = os.flatMap Operation.prims := by rw [h.spec.2, flatMap_prims_gates]

lemma operator_merged {c' : Circuit ℝ} (hgood : ∀ o ∈ os, o.Good n)
    (hangles : ∀ o ∈ os, ∀ x ∈ o.angles, Settled x) (hn' : c'.numQubits = n)
    (hs' : c'.steps = ((loggedGates os).map Operation.snapped ++
      [globalPhase (angleSum (os.flatMap Operation.prims))]).flatMap Operation.prims) :
    c'.operator n = Complex.exp (ownPhases os * Complex.I) • c.operator n := by
  have hl := good_loggedGates hgood hangles
  have hph : angleSum (os.flatMap Operation.prims) = phases os :=
    angleSum_flatMap fun o ho => angleSum_primsAt (hgood o ho) o.rank_lt_maxDepth
  rw [map_congr_left fun p hp => (hl p hp).2, map_id', hph] at hs'
  have hm : ∀ o ∈ loggedGates os ++ [.globalPhase (phases os)], o.Good n := by
    intro o ho
    rcases mem_append.mp ho with ho | ho
    · exact (hl o ho).1
    · exact mem_singleton.mp ho ▸ good_globalPhase _
  obtain ⟨-, hop⟩ := operator_of_steps h.holds.1.numQubits h.steps_gates hgood
  obtain ⟨-, hop'⟩ := operator_of_steps hn' hs' hm
  rw [hop, hop', ← matrixOf_smul]
  exact congrArg (matrixOf n) (funext (acts_merged hgood hangles))

/-- **Merging the global phases** of a circuit that was made by gate calls.  It goes through, also a second
time, and leaves one phase on its own at most.  The circuit's phase grows by what a replay of its gates
brings in, and the second merge leaves the log as it is exactly if this does not show in the logged phase.

If the gates are carried out exactly, the circuit's phase grows by the phases that its gates bring along,
and its matrix stays what it is exactly if these are whole turns. -/
theorem mergeGlobalPhases_keeps_iff (hg : c.sink.globalPhase.IsNumber g) :
    ∃ c' g' c'', c.after mergeGlobalPhases = .ok c' ∧ c'.after mergeGlobalPhases = .ok c'' ∧
      (c'.log.toList.filter fun e => e.isGate .globalPhase).length ≤ 1 ∧
      c'.sink.globalPhase.IsNumber g' ∧ g' = g + Operation.replayedPhase os ∧
      (c'.sameLog c'' = true ↔ snap g' = snap g) ∧
      ((∀ o ∈ os, o.Good n) → (∀ o ∈ os, ∀ x ∈ o.angles, Settled x) → g' = g + Operation.ownPhases os ∧
        (c'.operator n = c.operator n ↔ ∃ k : ℤ, g' = g + k * (2 * π))) := by
  have hop := h.holds.1
  obtain rfl : g = angleSum ((os.map Item.gate).flatMap Item.prims) := hg.unique hop.sink.globalPhase
  rw [Item.flatMap_prims_gates] at hop hg ⊢
  have hlo : ((os.flatMap Operation.kept).filter fun o => o.gate ≠ .globalPhase) = Operation.loggedGates os := rfl
  obtain ⟨c', hm, hop', hst', hl'⟩ := exists_merge hop h.unfolds hlo
  have hga : ∀ o ∈ (Operation.loggedGates os).map Operation.snapped, o.gate ≠ .globalPhase := by
    intro o ho
    obtain ⟨p, hp, rfl⟩ := List.mem_map.mp ho
    rw [Operation.gate_snapped]
    exact of_decide_eq_true (List.mem_filter.mp hp).2
  have ha : (((Operation.loggedGates os).map Operation.snapped ++
      (Operation.globalPhase (angleSum (os.flatMap Operation.prims))).kept).filter
        fun o => o.gate ≠ .globalPhase) = (Operation.loggedGates os).map Operation.snapped := by
    rw [List.filter_append, List.filter_eq_self.mpr fun o ho => decide_eq_true (hga o ho),
      Operation.kept_globalPhase]
    split <;> simp [Operation.gate]
  obtain ⟨c'', hm', -, -, hl''⟩ := exists_merge hop' hl' ha
  have hs : ((Operation.loggedGates os).map Operation.snapped).map Operation.snapped =
      (Operation.loggedGates os).map Operation.snapped := by simp [Operation.snapped_snapped]
  rw [hs] at hl''
  have hph : angleSum ((Operation.loggedGates os).flatMap fun o => o.snapped.prims) +
      angleSum (os.flatMap Operation.prims) =
        angleSum (os.flatMap Operation.prims) + Operation.replayedPhase os := add_comm _ _
  rw [hph] at hop' hl''
  refine ⟨c', _, c'', hm, hm', hl'.length_filter_globalPhase hga, hop'.sink.globalPhase, rfl,
    hl'.sameLog_iff hl'', fun hgood hangles => ⟨?_, ?_⟩⟩
  · rw [Operation.replayedPhase_eq hgood hangles]
  · rw [operator_merged h hgood hangles hop'.numQubits hst', Operation.replayedPhase_eq hgood hangles,
      smul_operator_eq_iff hop.numQubits h.steps_gates fun o ho => (hgood o ho).toValid,
      exp_mul_I_eq_one_iff]
    simp [add_right_inj]

end Made

/-- A phase and two powers whose phases cancel. -/
theorem mergeGlobalPhases_keeps_powers : ∃ c, Made 1 c ([.globalPhase 1, power (1 / 2) 0,
      power (-1 / 2) 0].map .gate) ∧
    ∃ c' c'', c.after mergeGlobalPhases = .ok c' ∧ c'.after mergeGlobalPhases = .ok c'' ∧
      (c'.log.toList.filter fun e => e.isGate .globalPhase).length ≤ 1 ∧ c'.sameLog c'' = true ∧
      c'.operator 1 = c.operator 1 := by
  have hgood : ∀ o ∈ [.globalPhase 1, power (1 / 2) 0, power (-1 / 2) 0], o.Good 1 := by
    simp only [forall_mem_cons]
    exact ⟨good_globalPhase 1, good_power _ _, good_power _ _, by simp⟩
  have hangles : ∀ o ∈ [.globalPhase 1, power (1 / 2) 0, power (-1 / 2) 0], ∀ x ∈ o.angles, Settled x := by
    have hon : Settled 1 := .inr far_one
    simpa [angles, Base.isAngular] using hon
  obtain ⟨c, hma⟩ := exists_made one_pos fun o ho => (hgood o ho).toValid
  obtain ⟨c', g', c'', hm, hm', hon, -, -, hs, hk⟩ := mergeGlobalPhases_keeps_iff hma hma.holds.1.sink.globalPhase
  obtain ⟨hg', hop⟩ := hk hgood hangles
  have how : ownPhases [.globalPhase 1, power (1 / 2) 0, power (-1 / 2) 0] = 0 := by
    simp only [ownPhases, map_cons, map_nil, sum_cons, sum_nil, ownPhase_power]
    simp only [ownPhase]
    ring
  rw [how, add_zero] at hg'
  exact ⟨c, hma, c', c'', hm, hm', hon, hs.mpr (by rw [hg']), hop.mpr ⟨0, by rw [hg']; simp⟩⟩

/-- A half power of a negation comes out with its phase counted twice. -/
theorem not_mergeGlobalPhases_half_power : ∃ c c' : Circuit ℝ,
    (sized .reference 1 (.int 1)).after (apply (.of .xPow .plain)
      [(.power, .real (1 / 2)), (.globalShift, .real 0), (.qubitIndices, .int 0)]) = .ok c ∧
    c.after mergeGlobalPhases = .ok c' ∧ c'.operator 1 ≠ c.operator 1 := by
  obtain ⟨c, ha, hc⟩ := (made_sized one_pos).exists_call (bind_of_denotes (denotes_power (1 / 2) 0))
    (.gate (denotes_power _ _) (good_power _ _).toValid)
  have hm : Made 1 c ([power (1 / 2) 0].map .gate) := hc
  have ho := hm.holds.1
  obtain ⟨c', hme, ho', hs', -⟩ := exists_merge ho hm.unfolds rfl
  refine ⟨c, c', ha, hme, ?_⟩
  rw [operator_merged hm (by simpa using good_power (1 / 2) 0)
      (by simp [angles, Base.isAngular]) ho'.numQubits hs', Ne,
    smul_operator_eq_iff ho.numQubits hm.steps_gates (by simpa using (good_power _ _).toValid)]
  exact exp_ownPhases_half_power

end Circuit

end QuantumCircuits

end
