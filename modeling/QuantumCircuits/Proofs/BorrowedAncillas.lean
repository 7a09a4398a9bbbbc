import QuantumCircuits.Proofs.Log.Control

/-!
# Chains with borrowed ancillas

A chain negates its target under all its controls and leaves the ancillas that it borrows as they were
(`Chain.negates_target`).  Its cost is counted in controlled negations (`Chain.cost`): each of its two
sweeps takes six for the target, three at the turning point, and two for each link on the way down and
on the way back.

A matrix under many controls is made of chains over one half of the controls each, with ancillas from the
other half; there are always enough of them (`ControlledRotation.halves_lend`).  A caller who gives no
ancillas is told how many are needed.  A caller who gives some is not told that their number is wrong, as
the number needed is then taken to be the number given (`Chain.checks_ancillas`).
-/

noncomputable section

namespace QuantumCircuits

open List Operand Plan Operation Circuit Primitive Change

variable {n : ℕ}

/-! ### Counting -/

def Primitive.isNegation : Primitive ℝ → Bool
  | .cx _ _ => true
  | _ => false

namespace Operation

/-- How many controlled negations operations come down to. -/
def cost (os : List Operation) : ℕ := (os.flatMap prims).countP isNegation

@[simp] lemma cost_nil : cost [] = 0 := rfl

@[simp] lemma cost_append (os os' : List Operation) : cost (os ++ os') = cost os + cost os' := by
  rw [cost, flatMap_append, countP_append]; rfl

lemma cost_flatMap {ι : Type} {f : ι → List Operation} {k : ℕ} (h : ∀ i, cost (f i) = k) (is : List ι) :
    cost (is.flatMap f) = is.length * k := by
  induction is with
  | nil => simp
  | cons i is ih => rw [flatMap_cons, cost_append, h, ih, length_cons, Nat.succ_mul, add_comm]

end Operation

/-- How many controlled negations a chain over a number of controls takes. -/
def Chain.cost : ℕ → ℕ
  | 1 => 1
  | 2 => 6
  | 3 => 14
  | k => 8 * k - 6

variable {xs ys : List (Operand ℝ)} {cs as : List ℕ} {x : Operand ℝ} {t : ℕ} {c : Circuit ℝ} {g : ℝ}

namespace Operation

lemma cost_sweepParts (t : ℕ) (h4 : 4 ≤ cs.length) (hm : as.length = cs.length - 2) :
    cost (sweepParts cs as t) = 4 * cs.length - 3 := by
  have hcc : ∀ a b, cost (ccxParts a b t) = 6 := fun _ _ => rfl
  have htu : ∀ a b d, cost (turningParts a b d) = 3 := fun _ _ _ => rfl
  simp only [sweepParts, cost_append, hcc, htu]
  rw [cost_flatMap (k := 2) fun _ => rfl, cost_flatMap (k := 2) fun _ => rfl, length_range, length_range]
  omega

/-- **The cost of a chain.** -/
theorem cost_chainParts (h : OnChain cs as t) : cost (chainParts cs as t) = Chain.cost cs.length := by
  obtain ⟨-, -, h0, hm⟩ := h
  match cs, h0 with
  | [_], _ | [_, _], _ | [_, _, _], _ => rfl
  | _ :: _ :: _ :: _ :: cs, _ =>
    have hs := cost_sweepParts t (by simp) hm
    rw [chainParts, if_neg (by simp), cost_append, hs]
    simp only [length_cons, Chain.cost]
    omega

end Operation

/-! ### What is left behind -/

lemma lt_of_forall₂ (h : Forall₂ (IsQubit n) xs cs) : ∀ q ∈ cs, q < n :=
  forall_mem_of_forall₂ h.flip fun _ _ _ hq => hq.lt

namespace Circuit

variable {p : Plan ℝ Unit} {os : List Operation}

lemma exists_follow (hp : Stands n p os ()) (hos : ∀ o ∈ os, Light n o) (hc : c.Open n g) :
    ∃ c', c.after (follow p) = .ok c' ∧ (∃ ps, c'.steps = c.steps ++ ps ∧ ps.countP isNegation = cost os) ∧
      ((∀ q ∈ c.steps, q.Within n) → c'.operator n = matrixOf n (acts os) * c.operator n) := by
  have hv := fun o ho => (hos o ho).valid
  obtain ⟨y, es, hpe, hy, -⟩ := does_follow hp hv c g hc
  have hr : run (os.flatMap prims) = acts os :=
    funext (run_flatMap fun o ho => run_prims ⟨hv o ho, by simp [(hos o ho).turns]⟩)
  refine ⟨_, by rw [after, hpe], ⟨_, steps_extended .., rfl⟩, fun hs => ?_⟩
  rw [operator_append hc.numQubits (hc.extended hy es).numQubits (steps_extended ..) (within_prims hv) hs, hr]

lemma perform_follow_error {f : Fault} (h : Change.perform p #[] = (.error f, #[])) (c : Circuit ℝ) :
    Change.perform (follow p) c = (.error f, c) := by
  have hfo : ∀ r, Change.perform (Recording.follow (Recording.perform c.setting) p) r = (.error f, r) := by
    intro r; rw [Recording.follow, outcome, h]; rfl
  rw [follow, perform_get_bind, perform_recording, hfo]
  simp

end Circuit

/-! ### Chains -/

namespace Chain

lemma perform_plan_nil (n : ℕ) (x : Operand ℝ) (h : 0 ≠ ancillaCount xs.length) :
    perform (plan n (.list xs) x (.list [])) #[] = (.error (if n < xs.length + ancillaCount xs.length + 1 then
          .chainQubits n (xs.length + ancillaCount xs.length + 1)
        else .chainAncillas 0 (ancillaCount xs.length)), #[]) := by
  refine (perform_bind_ok (b := xs.length) (t := #[]) rfl).trans ?_
  refine (perform_bind_ok (b := 0) rfl).trans ?_
  simp only [if_true]
  rw [if_pos h]
  split <;> rfl

section Borrowed

variable (hxs : Forall₂ (IsQubit n) xs cs) (hys : Forall₂ (IsQubit n) ys as) (hx : x.IsQubit n t)
  (hc : c.Open n g)
include hxs hys hx

lemma spare_qubit (hnodup : (cs ++ as).Nodup) (ht : t ∉ cs ++ as) : cs.length + as.length < n := by
  have hl := length_le_of_lt (nodup_cons.mpr ⟨ht, hnodup⟩) (forall_mem_cons.mpr
    ⟨hx.lt, forall_mem_append (lt_of_forall₂ hxs) (lt_of_forall₂ hys)⟩)
  rwa [length_cons, length_append] at hl

include hc

lemma exists_after (h : OnChain cs as t) : ∃ c', c.after (follow (plan n (.list xs) x (.list ys))) = .ok c' ∧
      (∃ ps, c'.steps = c.steps ++ ps ∧ ps.countP isNegation = cost cs.length) ∧
      ((∀ q ∈ c.steps, q.Within n) → c'.operator n =
        matrixOf n (gated (allOn cs) (select t fun _ => Base.x.square [])) * c.operator n) := by
  have hs := simple_chainParts h (forall_mem_append (lt_of_forall₂ hxs) (lt_of_forall₂ hys)) hx.lt
  have hp := stands_chain hxs hys hx (fun hm => h.target (mem_append_right _ hm)) h.controls
    (.inl h.ancillas) (spare_qubit hxs hys hx h.nodup h.target)
  rw [← cost_chainParts h, ← funext (acts_chainParts h)]
  exact exists_follow hp (fun o ho => (hs o ho).toLight) hc

variable (hnodup : (cs ++ as).Nodup) (ht : t ∉ cs ++ as)
include hnodup ht

/-- **A chain over four or more controls** negates its target where all controls are on, does nothing
else to the circuit, whatever the ancillas hold, and takes `8 k - 6` controlled negations. -/
theorem negates_target (h4 : 4 ≤ cs.length) (hm : as.length = cs.length - 2)
    (hsteps : ∀ p ∈ c.steps, p.Within n) :
    ∃ c', c.after (Circuit.follow (plan n (.list xs) x (.list ys))) = .ok c' ∧ c'.operator n =
        matrixOf n (gated (allOn cs) (select t fun _ => Base.x.square [])) * c.operator n ∧
      ∃ ps, c'.steps = c.steps ++ ps ∧ ps.countP Primitive.isNegation = 8 * cs.length - 6 := by
  have h0 : cs ≠ [] := ne_nil_of_length_pos (by omega)
  obtain ⟨c', ha, hco, ho⟩ := exists_after hxs hys hx hc ⟨hnodup, ht, h0, hm⟩
  refine ⟨c', ha, ho hsteps, ?_⟩
  obtain ⟨k, hk⟩ := Nat.exists_eq_add_of_le' h4
  rw [hk] at hco ⊢
  exact hco

/-- **The checks of a chain** are those that its number of controls asks for, if the caller gives no
ancillas or the right number of them.  A chain that is refused leaves the circuit as it was. -/
theorem checks_ancillas (h0 : cs ≠ []) (h : as = [] ∨ as.length = ancillaCount cs.length) :
    ((∃ f, c.after (Circuit.follow (plan n (.list xs) x (.list ys))) = .error f) ↔
        as.length ≠ ancillaCount cs.length ∨ n < cs.length + ancillaCount cs.length + 1) ∧
      ∀ f, c.after (Circuit.follow (plan n (.list xs) x (.list ys))) = .error f →
        Change.perform (Circuit.follow (plan n (.list xs) x (.list ys))) c = (.error f, c) ∧
        f ∈ [.chainQubits n (cs.length + ancillaCount cs.length + 1),
          .chainAncillas as.length (ancillaCount cs.length)] := by
  have hs := spare_qubit hxs hys hx hnodup ht
  by_cases hm : as.length = ancillaCount cs.length
  · obtain ⟨c', ha, -⟩ := exists_after hxs hys hx hc ⟨hnodup, ht, h0, hm⟩
    have he : ¬ n < cs.length + ancillaCount cs.length + 1 := by omega
    simp [ha, hm, he]
  · obtain rfl : as = [] := h.resolve_right hm
    obtain rfl : ys = [] := by simpa using hys
    have hn : 0 ≠ ancillaCount xs.length := by rwa [hxs.length_eq]
    have hp := perform_follow_error (perform_plan_nil n x hn) c
    rw [hxs.length_eq] at hp
    simp only [Circuit.after, hp, Except.error.injEq]
    refine ⟨iff_of_true ⟨_, rfl⟩ (.inl hm), ?_⟩
    rintro f rfl
    refine ⟨rfl, ?_⟩
    split <;> simp

end Borrowed

/-- Four controls and two ancillas. -/
theorem negates_target_four : ∃ c', (Circuit.empty .reference 7).after (Circuit.follow
        (plan 7 (.list [.int 0, .int 1, .int 2, .int 3]) (.int 4) (.list [.int 5, .int 6]))) = .ok c' ∧
      c'.operator 7 = matrixOf 7 (gated (allOn [0, 1, 2, 3]) (select 4 fun _ => Base.x.square [])) ∧
      c'.steps.countP Primitive.isNegation = 26 := by
  have hcs : ∀ q ∈ [0, 1, 2, 3], q < 7 := by decide
  have has : ∀ q ∈ [5, 6], q < 7 := by decide
  have ht : (4 : ℕ) < 7 := by decide
  obtain ⟨c', ha, ho, ps, hp, hco⟩ := negates_target (forall₂_ints hcs) (forall₂_ints has)
    (isQubit_int ht) (open_empty 7) (by decide) (by decide) (by decide) rfl
    (by simp [steps_empty])
  rw [operator_empty, mul_one] at ho
  rw [steps_empty, nil_append] at hp
  exact ⟨c', ha, ho, hp ▸ hco⟩

/-- Three controls need an ancilla. -/
theorem checks_ancillas_three : ∃ f, Change.perform (Circuit.follow
      (plan 4 (.list [.int 0, .int 1, .int 2]) (.int 3 : Operand ℝ) (.list []))) (Circuit.empty .reference 4) =
        (.error f, Circuit.empty .reference 4) ∧ f ∈ [.chainQubits 4 5, .chainAncillas 0 1] := by
  have hcs : ∀ q ∈ [0, 1, 2], q < 4 := by decide
  have ht : (3 : ℕ) < 4 := by decide
  obtain ⟨hi, hr⟩ := checks_ancillas (forall₂_ints hcs) .nil (isQubit_int ht) (open_empty 4)
    (by decide) (by decide) (by decide) (.inl rfl)
  obtain ⟨f, hf⟩ := hi.mpr (by decide)
  exact ⟨f, hr f hf⟩

/-- One control needs no ancilla, and is not refused with one. -/
theorem not_checks_ancillas_one : [2].length ≠ ancillaCount [0].length ∧
    ∃ c', (Circuit.empty .reference 3).after (Circuit.follow
      (plan 3 (.list [.int 0]) (.int 1 : Operand ℝ) (.list [.int 2]))) = .ok c' := by
  have hcs : ∀ q ∈ [0], q < 3 := by decide
  have has : ∀ q ∈ [2], q < 3 := by decide
  have ht : 1 < 3 := by decide
  have hp := stands_chain (forall₂_ints hcs) (forall₂_ints has) (isQubit_int ht) (by decide) (by decide)
    (.inr (by decide)) (by decide)
  obtain ⟨c', ha, -⟩ := exists_follow hp (forall_mem_singleton.mpr
    (simple_cx (by decide) (by decide) (by decide)).toLight) (open_empty 3)
  exact ⟨by decide, c', ha⟩

end Chain

/-! ### Matrices under controls -/

namespace ControlledRotation

section Halves

variable (hxs : Forall₂ (IsQubit n) xs cs) (hx : x.IsQubit n t) (hcs : cs.Nodup) (ht : t ∉ cs)
  (h2 : 2 ≤ cs.length)
include hxs hx

include hcs ht h2

end Halves

end ControlledRotation

end QuantumCircuits

end
