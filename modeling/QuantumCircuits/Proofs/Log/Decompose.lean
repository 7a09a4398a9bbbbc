import QuantumCircuits.Proofs.Log.Built
import QuantumCircuits.Proofs.Operation.Resolve
import QuantumCircuits.Proofs.Log.Splice
import QuantumCircuits.Dag.Circuit

/-!
# Log — Decompose

Full decomposition of circuits that were built by calls.  The entries of such a circuit are whole, so
the layers end if and only if their leaves are final, and the leaves of an entry are final if and only
if what it stands for resolves (`Item.Stands.final_leaves_iff`).  A replay of final entries leaves
final entries.

Two things come in the way of this: a log in which nothing has a definition is given back as it is,
whatever its names, and a reset is never final.
-/

/-! ### Layers

Replacing entries by their definitions until all names are final.  The entries that are left at the
end are the leaves of the log (`Entry.leaves`): the entries, at any depth, with nothing in their
definition.  No layer changes the leaves, so

* if all leaves are final, the layers end with them, once as often as the definitions are deep
  (`layersToEnd_of_final`);
* if one is not, no number of layers is enough (`layers_not_final`), and `layersToEnd` says so
  (`layersToEnd_of_not_final`).

The log has to be `Whole`: every entry has its name and definition, and those with final names are
defined by nothing.
-/

namespace QuantumCircuits

open List Entry

variable {α : Type}

namespace Entry

/-- The name is one that a full decomposition ends with. -/
def isFinal (e : Entry α) : Bool := e.gate.any Circuit.isFinal

mutual

/-- The entries with empty definitions that an entry comes down to. -/
def leaves : Entry α → List (Entry α)
  | ⟨_, _, _, .entries (e :: es)⟩ => leavesOf (e :: es)
  | e => [e]

def leavesOf : List (Entry α) → List (Entry α)
  | [] => []
  | e :: es => leaves e ++ leavesOf es

end

mutual

/-- The entry and all that it is defined by have names and definitions, and what has a final name has
nothing in its definition. -/
def Whole : Entry α → Prop
  | ⟨some g, _, _, .entries es⟩ => (Circuit.isFinal g = true → es = []) ∧ WholeAll es
  | _ => False

def WholeAll : List (Entry α) → Prop
  | [] => True
  | e :: es => Whole e ∧ WholeAll es

end

def expanded (e : Entry α) : List (Entry α) :=
  match e.definition with
  | .entries (x :: xs) => x :: xs
  | _ => [e]

lemma leavesOf_eq (es : List (Entry α)) : leavesOf es = es.flatMap leaves := by
  induction es with
  | nil => rfl
  | cons e es ih => rw [leavesOf, ih, flatMap_cons]

lemma wholeAll_iff {es : List (Entry α)} : WholeAll es ↔ ∀ e ∈ es, Whole e := by
  induction es with
  | nil => simp [WholeAll]
  | cons e es ih => simp [WholeAll, ih]

lemma Whole.cases {e : Entry α} (h : e.Whole) : ∃ g es, e.gate = some g ∧
    e.definition = .entries es ∧ (Circuit.isFinal g = true → es = []) ∧ WholeAll es := by
  obtain ⟨gate, operands, gateAt, definition⟩ := e
  match gate, definition, h with
  | some g, .entries es, h =>
    exact ⟨g, es, rfl, rfl, h.1, h.2⟩

section Expanded

variable {e : Entry α}

lemma leaves_of_empty (h : e.definition = .entries []) : leaves e = [e] ∧ expanded e = [e] := by
  obtain ⟨gate, operands, gateAt, definition⟩ := e; cases h; exact ⟨by rw [leaves]; simp, rfl⟩

lemma leaves_of_cons {x : Entry α} {xs : List (Entry α)} (h : e.definition = .entries (x :: xs)) :
    leaves e = leavesOf (x :: xs) ∧ expanded e = x :: xs := by
  obtain ⟨gate, operands, gateAt, definition⟩ := e
  cases h
  exact ⟨by rw [leaves], rfl⟩

lemma Whole.parts (h : e.Whole) : e.parts = .ok e.expanded := by
  obtain ⟨g, es, -, hd, -, -⟩ := h.cases
  cases es <;> simp [Entry.parts, Entry.expanded, hd]

lemma Whole.expanded (h : e.Whole) : ∀ x ∈ e.expanded, x.Whole := by
  obtain ⟨g, es, -, hd, -, he⟩ := h.cases
  cases es with
  | nil => rw [(leaves_of_empty hd).2]; exact forall_mem_singleton.mpr h
  | cons x xs => rw [(leaves_of_cons hd).2]; exact wholeAll_iff.mp he

lemma Whole.leaves_expanded (h : e.Whole) : e.expanded.flatMap leaves = e.leaves := by
  obtain ⟨g, es, -, hd, -, -⟩ := h.cases
  cases es with
  | nil => rw [(leaves_of_empty hd).2, flatMap_singleton]
  | cons x xs => rw [(leaves_of_cons hd).2, (leaves_of_cons hd).1, leavesOf_eq]

lemma Whole.leaves_of_final (h : e.Whole) (hfi : e.isFinal = true) : e.leaves = [e] := by
  obtain ⟨g, es, hga, hd, he, -⟩ := h.cases
  have hg : Circuit.isFinal g = true := by simpa [isFinal, hga] using hfi
  rw [he hg] at hd
  exact (leaves_of_empty hd).1

lemma Whole.exists_cons (h : e.Whole) (hl : ∀ x ∈ e.leaves, x.isFinal = true)
    (hfi : e.isFinal = false) : ∃ x xs, e.definition = .entries (x :: xs) := by
  obtain ⟨g, es, -, hd, -, -⟩ := h.cases
  cases es with
  | nil =>
    rw [(leaves_of_empty hd).1] at hl
    rw [hl e (by simp)] at hfi
    cases hfi
  | cons x xs => exact ⟨x, xs, hd⟩

end Expanded

/-! ### Depth -/

lemma depths_le_iff {es : List (Entry α)} {k : ℕ} : depths es ≤ k ↔ ∀ e ∈ es, e.depth ≤ k := by
  induction es with
  | nil => simp [depths]
  | cons e es ih => simp [depths, ih]

lemma depth_eq (e : Entry α) : e.depth = definitionDepth e.definition + 1 := by
  obtain ⟨gate, operands, gateAt, definition⟩ := e; rw [depth]

lemma depth_expanded {e : Entry α} (h : e.Whole) {k : ℕ} (hk : 1 ≤ k) (he : e.depth ≤ k + 1) :
    ∀ x ∈ e.expanded, x.depth ≤ k := by
  obtain ⟨g, es, -, hd, -, -⟩ := h.cases
  rw [depth_eq, hd, definitionDepth] at he
  cases es with
  | nil =>
    rw [(leaves_of_empty hd).2, forall_mem_singleton, depth_eq, hd, definitionDepth, depths]
    exact hk
  | cons x xs =>
    rw [(leaves_of_cons hd).2]
    exact depths_le_iff.mp (by omega)

end Entry

namespace Circuit

variable {log : List (Entry α)} {x : Entry α}

lemma layer_eq (h : ∀ e ∈ log, e.Whole) : layer log = .ok (log.flatMap expanded) := by
  rw [layer, mapM_ok fun e he => (h e he).parts]; rfl

lemma whole_expanded (h : ∀ e ∈ log, e.Whole) : ∀ e ∈ log.flatMap expanded, e.Whole := by
  intro x hx; obtain ⟨e, he, hx⟩ := mem_flatMap.mp hx; exact (h e he).expanded x hx

lemma leaves_expanded (h : ∀ e ∈ log, e.Whole) : (log.flatMap expanded).flatMap leaves = log.flatMap leaves := by
  rw [flatMap_assoc]; exact flatMap_congr fun e he => (h e he).leaves_expanded

lemma mapM_gate {f : Entry α → Outcome GateName} (hf : ∀ e g, e.gate = some g → f e = .ok g)
    (h : ∀ e ∈ log, e.Whole) : log.mapM f = .ok (log.filterMap gate) := by
  induction log with
  | nil => rfl
  | cons e log ih =>
    obtain ⟨he, hl⟩ := forall_mem_cons.mp h
    obtain ⟨g, es, hg, -⟩ := he.cases
    simp [mapM_cons, hf e g hg, ih hl, bind, Except.bind, pure, Except.pure, hg]

lemma allFinal_eq (h : ∀ e ∈ log, e.Whole) : allFinal log = .ok (log.all Entry.isFinal) := by
  have hn : (log.filterMap Entry.gate).all isFinal = log.all Entry.isFinal := by
    induction log with
    | nil => rfl
    | cons e log ih =>
      obtain ⟨he, hl⟩ := List.forall_mem_cons.mp h
      obtain ⟨g, es, hg, -⟩ := he.cases
      simp [hg, Entry.isFinal, ih hl]
  rw [allFinal, mapM_gate (fun e g hg => by rw [hg]) h]
  simp [bind, Except.bind, hn]

lemma leaves_of_all_final (h : ∀ e ∈ log, e.Whole) (hfi : ∀ e ∈ log, e.isFinal = true) :
    log.flatMap leaves = log := by
  have hs : log.flatMap leaves = log.flatMap fun e => [e] :=
    flatMap_congr fun e he => (h e he).leaves_of_final (hfi e he)
  rw [hs, flatMap_singleton']

/-- **A log all of whose leaves are final is decomposed into its leaves.** -/
theorem layersToEnd_of_final {k : ℕ} (h : ∀ e ∈ log, e.Whole)
    (hl : ∀ x ∈ log.flatMap leaves, x.isFinal = true) (hk : ∀ e ∈ log, e.depth ≤ k) :
    layersToEnd (k + 1) log = .ok (log.flatMap leaves) := by
  induction k generalizing log with
  | zero =>
    -- every entry has some depth
    have hn : log = [] := eq_nil_iff_forall_not_mem.mpr fun e he => by
      have := hk e he
      rw [depth_eq] at this
      omega
    subst hn
    rfl
  | succ k ih =>
    rw [layersToEnd, allFinal_eq h]
    cases ha : log.all Entry.isFinal with
    | true =>
      rw [leaves_of_all_final h (all_eq_true.mp ha)]
      rfl
    | false =>
      obtain ⟨e, he, hno⟩ := all_eq_false.mp ha
      obtain ⟨x, xs, hde⟩ := (h e he).exists_cons
        (fun x hx => hl x (mem_flatMap.mpr ⟨e, he, hx⟩)) (by simpa using hno)
      have hk' : 1 ≤ k := by
        have hd := hk e he
        rw [depth_eq, hde, definitionDepth, depths, depth_eq] at hd
        omega
      have hs := ih (whole_expanded h) (by rwa [leaves_expanded h]) fun x hx => by
        obtain ⟨e, he, hx⟩ := mem_flatMap.mp hx; exact depth_expanded (h e he) hk' (hk e he) x hx
      rw [leaves_expanded h] at hs
      simp only [bind, Except.bind, layer_eq h, hs]
      rfl

lemma all_isFinal_of_leaf (h : ∀ e ∈ log, e.Whole) (hx : x ∈ log.flatMap leaves)
    (hfi : x.isFinal = false) : log.all Entry.isFinal = false := by
  rw [← Bool.not_eq_true, all_eq_true]
  intro ha
  rw [leaves_of_all_final h ha] at hx
  rw [ha x hx] at hfi
  cases hfi

lemma layersToEnd_of_not_final (k : ℕ) (h : ∀ e ∈ log, e.Whole)
    (hx : x ∈ log.flatMap leaves) (hfi : x.isFinal = false) :
    layersToEnd k log = .error (.unfit .recursion) := by
  induction k generalizing log with
  | zero => rfl
  | succ k ih =>
    have hs := ih (whole_expanded h) (by rwa [leaves_expanded h])
    rw [layersToEnd, allFinal_eq h, all_isFinal_of_leaf h hx hfi]
    simp only [bind, Except.bind, layer_eq h, hs]
    rfl

/-- **A log with a leaf that is not final never comes to an end.** -/
theorem layers_not_final (k : ℕ) (h : ∀ e ∈ log, e.Whole)
    (hx : x ∈ log.flatMap leaves) (hfi : x.isFinal = false) :
    ∃ log', layers k log = .ok log' ∧ allFinal log' = .ok false := by
  induction k generalizing log with
  | zero => exact ⟨log, rfl, by rw [allFinal_eq h, all_isFinal_of_leaf h hx hfi]⟩
  | succ k ih =>
    obtain ⟨log', hl, hn⟩ := ih (whole_expanded h) (by rwa [leaves_expanded h])
    exact ⟨log', by rw [layers, layer_eq h]; exact hl, hn⟩

end Circuit

/-! ### Decompose -/

open List Operation Entry

variable {n : ℕ}
variable {o : Operation}

/-! ### Entries and operations -/

lemma Entry.Unfolds.descend {P : Entry ℝ → Operation → Prop} (step : ∀ operands k es o, o.Valid n → o.isKept = true →
      Forall₂ (fun e p => Unfolds n e p ∧ P e p) es o.inner →
      Unfolds n ⟨some (.known o.gate), operands, k, .entries es⟩ o →
      P ⟨some (.known o.gate), operands, k, .entries es⟩ o) {e : Entry ℝ} (h : Unfolds n e o) : P e o := by
  -- the operations in a definition have smaller rank
  induction hr : o.rank using Nat.strong_induction_on generalizing e o with
  | _ r ih =>
    cases h with
    | @intro operands k es _ hv hk hre hes =>
      refine step operands k es o hv hk ?_ (.intro hv hk hre hes)
      have hm : ∀ p ∈ o.inner, p.rank < r := fun p hp => by
        obtain ⟨-, -, -, -, -, hra⟩ := mem_inner hv hp; omega
      rw [unfoldAll_iff] at hes
      revert hes hm
      generalize o.inner = os
      intro hes hm
      induction hes with
      | nil => exact .nil
      | cons he _ ihs =>
        obtain ⟨hp, ho⟩ := forall_mem_cons.mp hm
        exact .cons ⟨he, ih _ hp he rfl⟩ (ihs ho)

lemma Circuit.isFinal_gate (o : Operation) : isFinal (.known o.gate) = o.primitives?.isSome := by
  cases o with
  | of b r ps cs ts => cases b <;> cases r <;> rfl
  | ucr axis angles cs t => cases axis <;> rfl
  | _ => rfl

lemma Operation.inner_of_primitives? (h : o.primitives?.isSome = true) : o.inner = [] := by
  rw [inner, if_pos h]

lemma forall_mem_of_forall₂ {β γ : Type*} {R : β → γ → Prop} {P : β → Prop} {xs : List β}
    {ys : List γ} (h : Forall₂ R xs ys) (hi : ∀ x y, y ∈ ys → R x y → P x) : ∀ x ∈ xs, P x := by
  intro x hx
  obtain ⟨y, hy, hxy⟩ := exists_of_forall₂ h.flip x hx
  exact hi x y hy hxy

lemma forall_mem_iff_of_forall₂ {β γ : Type*} {P : β → Prop} {Q : γ → Prop} {xs : List β}
    {ys : List γ} (h : Forall₂ (fun x y => P x ↔ Q y) xs ys) : (∀ x ∈ xs, P x) ↔ ∀ y ∈ ys, Q y := by
  induction h with
  | nil => simp
  | cons hxy _ ih => simp [hxy, ih]

lemma exists_forall₂ {β γ : Type*} {R : β → γ → Prop} {xs : List β} (h : ∀ x ∈ xs, ∃ y, R x y) :
    ∃ ys, Forall₂ R xs ys := by
  induction xs with
  | nil => exact ⟨[], .nil⟩
  | cons x xs ih =>
    obtain ⟨⟨y, hy⟩, hxs⟩ := forall_mem_cons.mp h
    obtain ⟨ys, hys⟩ := ih hxs
    exact ⟨y :: ys, .cons hy hys⟩

namespace Entry

variable {e : Entry ℝ}

/-- Nothing is in the definition of the entry. -/
def isBare (e : Entry ℝ) : Bool := match e.definition with
  | .entries es => es.isEmpty
  | _ => false

lemma Unfolds.isBare (h : Unfolds n e o) : e.isBare = o.inner.isEmpty := by
  cases h with
  | @intro _ _ es _ _ _ _ he =>
    rw [unfoldAll_iff] at he
    change es.isEmpty = o.inner.isEmpty
    rw [Bool.eq_iff_iff, isEmpty_iff_length_eq_zero, isEmpty_iff_length_eq_zero, he.length_eq]

lemma Unfolds.whole (h : Unfolds n e o) : e.Whole := by
  refine h.descend (P := fun e _ => e.Whole) fun operands k es o hv hk he _ => ?_
  rw [Whole, wholeAll_iff]
  constructor
  · intro hfi
    rw [Circuit.isFinal_gate] at hfi
    rw [inner_of_primitives? hfi] at he
    cases he
    rfl
  · exact forall_mem_of_forall₂ he fun _ _ _ hx => hx.2

lemma Unfolds.leaves (h : Unfolds n e o) : ∀ x ∈ e.leaves, ∃ p, Unfolds n x p := by
  refine h.descend (P := fun e _ => ∀ x ∈ e.leaves, ∃ p, Unfolds n x p) fun operands k es o _ _ hes hs => ?_
  cases es with
  | nil =>
    rw [(leaves_of_empty rfl).1]
    exact forall_mem_singleton.mpr ⟨o, hs⟩
  | cons e es =>
    rw [(leaves_of_cons rfl).1, leavesOf_eq]
    intro x hx
    obtain ⟨e', he', hx⟩ := mem_flatMap.mp hx
    exact forall_mem_of_forall₂ hes (fun _ _ _ h => h.2) e' he' x hx

/-- **The leaves of an entry are final if and only if its operation resolves.** -/
theorem Unfolds.final_leaves_iff (h : Unfolds n e o) : (∀ x ∈ e.leaves, x.isFinal = true) ↔ o.resolves := by
  refine h.descend (P := fun e o => (∀ x ∈ e.leaves, x.isFinal = true) ↔ o.resolves)
    fun operands k es o hv hk he _ => ?_
  cases hp : o.primitives? with
  | some ps =>
    have hs : o.primitives?.isSome = true := by rw [hp]; rfl
    have hfi : Circuit.isFinal (.known o.gate) = true := by rw [Circuit.isFinal_gate, hs]
    rw [inner_of_primitives? hs] at he
    cases he
    rw [(leaves_of_empty rfl).1, forall_mem_singleton]
    obtain ⟨theta, phi, lam, ts, rfl, -⟩ | ⟨c, t, rfl, -⟩ | ⟨a, rfl, -⟩ := primitives?_cases hv.shaped hp
    all_goals exact ⟨fun _ => trivial, fun _ => hfi⟩
  | none =>
    rw [resolves_iff hv hk hp]
    cases es with
    | nil =>
      have hn : Circuit.isFinal (.known o.gate) = false := by rw [Circuit.isFinal_gate, hp]; rfl
      rw [(leaves_of_empty rfl).1, forall_mem_singleton]
      cases hi : o.inner with
      | nil => simp [isFinal, hn]
      | cons p ps => rw [hi] at he; cases he
    | cons e es =>
      have hne : o.inner ≠ [] := by rintro hi; rw [hi] at he; cases he
      rw [(leaves_of_cons rfl).1, leavesOf_eq, forall_mem_flatMap]
      rw [forall_mem_iff_of_forall₂ (he.imp fun _ _ h => h.2)]
      exact ⟨fun h => ⟨hne, h⟩, fun h => h.2⟩

end Entry

/-! ### Items -/

namespace Item

/-- The item comes down to entries with final names. -/
def resolves : Item → Prop
  | .gate o => o.resolves
  | .measure _ => True
  | .reset _ => False

def isElementary : Item → Bool
  | .gate o => o.primitives?.isSome
  | .measure _ | .reset _ => true

variable {e : Entry ℝ} {i : Item}

lemma Stands.whole (h : Stands n e i) : e.Whole := by
  cases i with
  | gate o => exact Unfolds.whole h
  | measure qs | reset qs =>
    obtain ⟨x, k, rfl, -⟩ := h
    simp [Whole, WholeAll]

lemma Stands.leaves (h : Stands n e i) : ∀ x ∈ e.leaves, ∃ j, Stands n x j := by
  cases i with
  | gate o =>
    intro x hx
    obtain ⟨p, hp⟩ := Unfolds.leaves h x hx
    exact ⟨.gate p, hp⟩
  | measure qs | reset qs =>
    have hs := h
    obtain ⟨x, k, rfl, -⟩ := h
    exact forall_mem_singleton.mpr ⟨_, hs⟩

lemma Stands.final_leaves_iff (h : Stands n e i) : (∀ x ∈ e.leaves, x.isFinal = true) ↔ i.resolves := by
  cases i with
  | gate o => exact Unfolds.final_leaves_iff h
  | measure qs | reset qs =>
    obtain ⟨x, k, rfl, -⟩ := h
    rw [(leaves_of_empty rfl).1, forall_mem_singleton, resolves]
    simp [isFinal, Circuit.isFinal]

lemma Stands.name_iff (h : Stands n e i) :
    e.isFinal = true ∨ e.gate = some (.known .reset) ↔ i.isElementary = true := by
  cases i with
  | gate o =>
    cases h with
    | intro hv _ _ _ =>
      have hn : o.gate ≠ .reset := by cases o <;> simp [Operation.gate]
      simp [isFinal, Circuit.isFinal_gate, isElementary, hn]
  | measure qs | reset qs =>
    obtain ⟨x, k, rfl, -⟩ := h
    simp [isFinal, Circuit.isFinal, isElementary]

lemma Stands.isBare (h : Stands n e i) (hi : i.isElementary = true) : e.isBare = true := by
  cases i with
  | gate o => rw [Unfolds.isBare h, inner_of_primitives? hi, isEmpty_nil]
  | measure qs | reset qs =>
    obtain ⟨x, k, rfl, -⟩ := h
    rfl

lemma isElementary_kept (hi : i.isElementary = true) : ∀ j ∈ i.kept, j.isElementary = true := by
  cases i with
  | gate o =>
    intro j hj
    obtain ⟨p, hp, rfl⟩ := mem_map.mp hj
    rw [Operation.kept, Recording.maxDepth, keptAt] at hp
    rw [isElementary] at hi
    split at hp
    · rwa [mem_singleton.mp hp, isElementary]
    · cases hp
  | measure qs | reset qs => exact forall_mem_singleton.mpr hi

lemma isElementary_snapped : i.snapped.isElementary = i.isElementary := by
  cases i with
  | gate o =>
    cases o with
    | of b r ps cs ts => cases b <;> cases r <;> rfl
    | _ => rfl
  | _ => rfl

end Item

/-! ### Circuits -/

namespace Circuit

open Item (Stands)

variable {log : List (Entry ℝ)}

lemma mapM_isElementary (h : ∀ e ∈ log, e.Whole) :
    log.mapM isElementary = .ok (log.map isBare) := by
  refine mapM_ok fun e he => ?_
  obtain ⟨g, es, -, hd, -⟩ := (h e he).cases
  simp [isElementary, isBare, hd]

section Log

variable {items : List Item} (h : Forall₂ (Stands n) log items)
include h

lemma whole_of_stands : ∀ e ∈ log, e.Whole := forall_mem_of_forall₂ h fun _ _ _ h => h.whole

lemma final_leaves_iff : (∀ x ∈ log.flatMap leaves, x.isFinal = true) ↔ ∀ i ∈ items, i.resolves := by
  rw [forall_mem_flatMap]; exact forall_mem_iff_of_forall₂ (h.imp fun _ _ h => h.final_leaves_iff)

lemma names_iff : (∀ e ∈ log, e.isFinal = true ∨ e.gate = some (.known .reset)) ↔ ∀ i ∈ items, i.isElementary = true :=
  forall_mem_iff_of_forall₂ (h.imp fun _ _ h => h.name_iff)

lemma exists_stands_leaves (hfi : ∀ x ∈ log.flatMap leaves, x.isFinal = true) :
    ∃ js, Forall₂ (Stands n) (log.flatMap leaves) js ∧ ∀ j ∈ js, j.isElementary = true := by
  have hs : ∀ x ∈ log.flatMap leaves, ∃ j, Stands n x j := by
    rw [forall_mem_flatMap]; exact forall_mem_of_forall₂ h fun _ _ _ h => h.leaves
  obtain ⟨js, hj⟩ := exists_forall₂ hs
  exact ⟨js, hj, (names_iff hj).mp fun x hx => .inl (hfi x hx)⟩

end Log

section Decompose

variable {c : Circuit ℝ} {items : List Item} {g : ℝ}
  (hlog : Forall₂ (Stands n) c.log.toList items) (reps : Operand ℝ)
include hlog

lemma decompose_of_flat (full : Bool) (hba : c.log.toList.all isBare = true) : c.decompose reps full = .ok c := by
  have ha : (c.log.toList.map isBare).all id = true := by rwa [all_map]
  simp only [decompose, mapM_isElementary (whole_of_stands hlog), bind, Except.bind, ha, if_true]
  rfl

lemma decompose_of_bare (hba : c.log.toList.all isBare = true) :
    c.decompose reps true = .ok c := decompose_of_flat hlog reps true hba

lemma decompose_of_not_bare (hba : c.log.toList.all isBare = false) : c.decompose reps true = (do
      let log ← layersToEnd (depths c.log.toList + 1) c.log.toList
      let _ ← (replay log c.fresh).2.2
      .ok (replay log c.fresh).2.1) := by
  have ha : (c.log.toList.map isBare).all id = false := by rwa [all_map]
  simp only [decompose, mapM_isElementary (whole_of_stands hlog), bind, Except.bind, ha,
    Bool.false_eq_true, if_false, if_true]

lemma decompose_of_final (hc : c.Open n g) (hba : c.log.toList.all isBare = false)
    (hr : ∀ i ∈ items, i.resolves) : ∃ c', c.decompose reps true = .ok c' ∧
      ∀ e ∈ c'.log.toList, e.isFinal = true ∨ e.gate = some (.known .reset) := by
  have hfi := (final_leaves_iff hlog).mpr hr
  obtain ⟨js, hjs, he⟩ := exists_stands_leaves hlog hfi
  obtain ⟨c', hre, -, -, hk⟩ := hc.replay_carries
    (forall₂_map_right_iff.mpr (hjs.imp fun _ _ h => carries_applyNamed h))
  refine ⟨c', ?_, ?_⟩
  · rw [decompose_of_not_bare hlog reps hba, layersToEnd_of_final (whole_of_stands hlog) hfi
      (depths_le_iff.mp (Nat.le_refl _))]
    simp [bind, Except.bind, hre]
  · rw [names_iff hk, forall_mem_flatMap, forall_mem_map]
    exact fun j hj => Item.isElementary_kept ((Item.isElementary_snapped).trans (he j hj))

lemma decompose_of_not_final (hba : c.log.toList.all isBare = false)
    (hr : ¬ ∀ i ∈ items, i.resolves) : c.decompose reps true = .error (.unfit .recursion) ∧
      ∀ k, ∃ log, layers k c.log.toList = .ok log ∧ allFinal log = .ok false := by
  obtain ⟨x, hx, hfi⟩ : ∃ x ∈ c.log.toList.flatMap leaves, ¬ x.isFinal = true := by
    by_contra ha
    exact hr ((final_leaves_iff hlog).mp fun x hx => by_contra fun hn => ha ⟨x, hx, hn⟩)
  have hfi' : x.isFinal = false := by simpa using hfi
  refine ⟨?_, fun k => layers_not_final k (whole_of_stands hlog) hx hfi'⟩
  rw [decompose_of_not_bare hlog reps hba, layersToEnd_of_not_final _ (whole_of_stands hlog) hx hfi']
  rfl

lemma isElementary_of_bare (hba : c.log.toList.all isBare = true)
    (hr : ∀ i ∈ items, i.resolves) : ∀ i ∈ items, i.isElementary = true := by
  rw [← names_iff hlog]
  intro e he
  obtain ⟨g, es, -, hd, -⟩ := (whole_of_stands hlog e he).cases
  have hes : es = [] := by simpa [isBare, hd] using all_eq_true.mp hba e he
  subst hes
  refine .inl ((final_leaves_iff hlog).mpr hr e (mem_flatMap.mpr ⟨e, he, ?_⟩))
  rw [(leaves_of_empty hd).1]
  exact mem_singleton_self e

lemma bare_of_isElementary (h : ∀ i ∈ items, i.isElementary = true) : c.log.toList.all isBare = true := by
  refine all_eq_true.mpr (forall_mem_of_forall₂ hlog fun e i hi hs => ?_); exact hs.isBare (h i hi)

end Decompose

/-- **Full decomposition ends with elementary entries only** exactly when all that stands in the log
resolves, which no reset does, or when all of it is elementary in the first place.  Otherwise the circuit
comes back as it is, or the layers never end. -/
theorem decomposes_fully_iff {c : Circuit ℝ} {is : List Item} (h : Made n c is) (reps : Operand ℝ) :
    ((∃ c', c.decompose reps true = .ok c' ∧
        ∀ e ∈ c'.log.toList, e.isFinal = true ∨ e.gate = some (.known .reset)) ↔
      (∀ i ∈ is.flatMap Item.kept, i.resolves) ∨ ∀ i ∈ is.flatMap Item.kept, i.isElementary = true) ∧
    ∀ f, c.decompose reps true = .error f →
      ∀ k, ∃ log, layers k c.log.toList = .ok log ∧ allFinal log = .ok false := by
  obtain ⟨ho, -, hlog⟩ := h.holds
  cases hba : c.log.toList.all isBare with
  | true =>
    have hs := decompose_of_bare hlog reps hba
    refine ⟨⟨?_, ?_⟩, fun f hf => by rw [hs] at hf; cases hf⟩
    · rintro ⟨c', hc', hn⟩
      obtain rfl : c = c' := by simpa using hs.symm.trans hc'
      exact .inr ((names_iff hlog).mp hn)
    · rintro (hr | he)
      · exact ⟨c, hs, (names_iff hlog).mpr (isElementary_of_bare hlog hba hr)⟩
      · exact ⟨c, hs, (names_iff hlog).mpr he⟩
  | false =>
    by_cases hr : ∀ i ∈ is.flatMap Item.kept, i.resolves
    · obtain ⟨c', hc', hn⟩ := decompose_of_final hlog reps ho hba hr
      exact ⟨⟨fun _ => .inl hr, fun _ => ⟨c', hc', hn⟩⟩, fun f hf => by rw [hc'] at hf; cases hf⟩
    · obtain ⟨her, hl⟩ := decompose_of_not_final hlog reps hba hr
      refine ⟨⟨?_, ?_⟩, fun _ _ => hl⟩
      · rintro ⟨c', hc', -⟩; rw [her] at hc'; cases hc'
      · rintro (h | he)
        · exact absurd h hr
        · rw [bare_of_isElementary hlog he] at hba; cases hba

/-- A power of `Y` with a measurement after it comes down to elementary entries. -/
theorem decomposes_fully_yPow : ∃ c, Made 1 c [.gate (.of .yPow .plain [1, 0] [] [0]), .measure [0]] ∧
    ∃ c', c.decompose (.int 1) true = .ok c' ∧
      ∀ e ∈ c'.log.toList, e.isFinal = true ∨ e.gate = some (.known .reset) := by
  have hv : (of .yPow .plain [1, 0] [] [0]).Valid 1 :=
    ⟨⟨rfl, rfl, by simp [Base.onTwo]⟩, nodup_singleton 0, by simp [Operation.qubits]⟩
  obtain ⟨c₁, hc₁⟩ := exists_made one_pos (List.forall_mem_singleton.mpr hv)
  obtain ⟨c, -, hc⟩ := hc₁.exists_call (bind_of_keys rfl) (.measure (isQubit_int one_pos).isQubits (List.nodup_singleton 0))
  refine ⟨c, hc, (decomposes_fully_iff hc (.int 1)).1.mpr (.inl ?_)⟩
  have hk : (of .yPow .plain [1, 0] [] [0]).kept = [.of .yPow .plain [1, 0] [] [0]] :=
    kept_of_isKept hv (isKept_fixed rfl rfl)
  have hp := (snap_pi_div_ne_zero (k := 1) (by norm_num) (by norm_num)).1
  simpa [Item.kept, hk, Item.resolves, Operation.resolves] using .inl (by simpa using hp)

lemma Made.stands_self {c : Circuit ℝ} (os : List Operation) (h : Made n c (os.map .gate))
    (hk : ∀ o ∈ os, o.isKept = true) : Forall₂ (Stands n) c.log.toList (os.map .gate) := by
  have hlog := h.unfolds
  rw [flatMap_kept_of_isKept fun o ho => ⟨h.valid (mem_map_of_mem ho), hk o ho⟩] at hlog
  exact forall₂_map_right_iff.mpr hlog

lemma denotes_negation : Denotes 1 (.of .x .plain) [(.qubitIndices, .int 0)] (.on .x [0]) :=
  ⟨rfl, rfl, .cons (isQubit_int one_pos).isQubits .nil⟩

lemma valid_negation : (on .x [0]).Valid 1 := valid_flips (by simp) (by simp)

lemma not_bare_of_negation {items : List Item} (h : Forall₂ (Stands 1) log items)
    (hm : .gate (.on .x [0]) ∈ items) : log.all isBare = false := by
  obtain ⟨e, he, hs⟩ := exists_of_forall₂ h _ hm
  have hn := inner_ne_nil_of_resolves valid_negation (isKept_fixed rfl rfl) rfl trivial
  rw [all_eq_false]
  exact ⟨e, he, by rw [Unfolds.isBare hs]; simp [hn]⟩

/-- The identity is given back as it is, and with a negation after it the layers never end. -/
theorem not_decomposes_identity : ∃ (c c' : Circuit ℝ) (e : Entry ℝ),
    (empty .reference 1).after (apply .identity [(.qubitIndices, .int 0)]) = .ok c ∧
    c.decompose (.int 1) true = .ok c ∧ c.log.toList = [e] ∧ e.gate = some (.known .identity) ∧
    c.after (apply (.of .x .plain) [(.qubitIndices, .int 0)]) = .ok c' ∧
    c'.decompose (.int 1) true = .error (.unfit .recursion) ∧
    ∀ k, ∃ log, layers k c'.log.toList = .ok log ∧ allFinal log = .ok false := by
  have hi : (identity [0]).Valid 1 := ⟨trivial, List.nodup_singleton 0, by simp [Operation.qubits]⟩
  have hd : Denotes 1 .identity [(.qubitIndices, .int 0)] (.identity [0]) :=
    ⟨rfl, rfl, .cons (isQubit_int one_pos).isQubits .nil⟩
  obtain ⟨c, ha, hc⟩ := (made_sized one_pos).exists_call (bind_of_denotes hd) (.gate hd hi)
  obtain ⟨c', ha', hc'⟩ := hc.exists_call (bind_of_denotes denotes_negation) (.gate denotes_negation valid_negation)
  have hlog := hc.stands_self [.identity [0]] (forall_mem_singleton.mpr rfl)
  have hlog' := hc'.stands_self [.identity [0], .on .x [0]]
    (forall_mem_cons.mpr ⟨rfl, forall_mem_singleton.mpr (isKept_fixed rfl rfl)⟩)
  obtain ⟨e, _, he, hn, hl⟩ := forall₂_cons_right_iff.mp hlog
  obtain rfl := forall₂_nil_right_iff.mp hn
  have hba : c.log.toList.all isBare = true := by
    rw [hl, all_cons, Unfolds.isBare he, inner_identity hi]; rfl
  have hba' := not_bare_of_negation hlog' (by simp)
  obtain ⟨her, hla⟩ := decompose_of_not_final hlog' (.int 1) hba' fun h => by
    exact h (.gate (.identity [0])) mem_cons_self
  refine ⟨c, c', e, ha, decompose_of_bare hlog (.int 1) hba, hl, ?_, ha', her, hla⟩
  cases he with
  | intro => rfl

end Circuit

/-! ### Query

What questions leave behind.  A circuit is asked which entries act on each qubit, which qubits are clean or
dirty, and for its dependency graph (`Circuit.Query`).  The graph is built without a trace.  The other
questions go through the log up to an entry whose qubits are none of the circuit's, and each entry with
qubits that they see loses its definition (`Circuit.visited`, `Entry.Stripped`).

Replays read names and operands only, so an update cannot tell (`Circuit.snd_replay_congr`), nor can a
reversal without inverses.  A reversal with inverses reads the definitions of composite entries, and taking
a circuit apart reads them all.  `Circuit.query_keeps_iff` puts this together.
-/

open Change Except

/-! ### Entries without their definitions -/

namespace Entry

section Alike

variable {α : Type} {e e' : Entry α}

/-- The entries differ in their definitions at most. -/
def Alike (e e' : Entry α) : Prop := e'.withoutDefinition = e.withoutDefinition

def Stripped (e e' : Entry α) : Prop := e' = e ∨ e.hasQubits = true ∧ e' = e.withoutDefinition

lemma Alike.gate (h : Alike e e') : e'.gate = e.gate := congrArg (·.gate) h

lemma Alike.operands (h : Alike e e') : e'.operands = e.operands := congrArg (·.operands) h

lemma Stripped.alike (h : Stripped e e') : Alike e e' := by
  obtain rfl | ⟨-, rfl⟩ := h <;> rfl

lemma withoutDefinition_eq_self : e.withoutDefinition = e ↔ e.definition = .lost := by
  obtain ⟨gate, operands, gateAt, definition⟩ := e; simp [withoutDefinition, eq_comm]

lemma forall₂_splice (rs : List (Option (List (Entry α)))) (i : ℕ) {es es' : List (Entry α)}
    (h : Forall₂ Alike es es') : Forall₂ Alike (splice rs i es) (splice rs i es') := by
  induction rs generalizing i es es' with
  | nil => exact h
  | cons r rs ih =>
    cases r with
    | none => exact ih (i + 1) h
    | some xs =>
      have hxs : Forall₂ Alike xs xs := forall₂_same.mpr fun _ _ => rfl
      exact ih (i + 1) (rel_append (rel_append (forall₂_take _ h) hxs) (forall₂_drop _ h))

end Alike

variable {α : Type} [Scalar α]

lemma turned_withoutDefinition (e : Entry α) : e.withoutDefinition.turned = e.turned.map withoutDefinition := by
  have hke : e.withoutDefinition.invertingKey? = e.invertingKey? := rfl
  rw [turned, turned, hke]
  cases e.invertingKey? with
  | some kf =>
    obtain ⟨k, f⟩ := kf
    have hge : e.withoutDefinition.get? k = e.get? k := rfl
    have hp : ∀ x, e.withoutDefinition.put k x = (e.put k x).withoutDefinition := by
      intro x
      by_cases hk : (e.operands.any fun p => p.1 == k) = true <;> simp [put, withoutDefinition, hk]
    simp only [change, hge, hp]
    cases e.get? k with
    | none => rfl
    | some x => cases hf : f x <;> simp [hf, bind, Except.bind, Except.map]
  | none =>
    have hg : e.withoutDefinition.gate = e.gate := rfl
    simp only [hg]
    cases e.gate with
    | none => rfl
    | some g =>
      dsimp only
      cases flippedGate? g <;> rfl

/-- The same fault, or inverted entries that differ in their definitions at most. -/
def AlikeOutcome : Outcome (List (Inverted α)) → Outcome (List (Inverted α)) → Prop
  | .ok is, .ok is' =>
    Forall₂ Alike (is.map (·.entry)) (is'.map (·.entry)) ∧ is'.map (·.replacement) = is.map (·.replacement)
  | .error f, .error f' => f' = f
  | _, _ => False

/-- **Questions before a reversal.**  As long as composite entries keep their definitions, what a log is
inverted to differs in definitions at most. -/
theorem alike_invertAll {es es' : List (Entry α)}
    (h : Forall₂ (fun e e' => e' = e ∨ e.isComposite = false ∧ e' = e.withoutDefinition) es es') :
    AlikeOutcome (invertAll es).2 (invertAll es').2 := by
  induction h with
  | nil => exact ⟨.nil, rfl⟩
  | @cons e e' es es' he _ ih =>
    have hfi : AlikeOutcome ((invert e).2.map ([·])) ((invert e').2.map ([·])) := by
      obtain rfl | ⟨hco, rfl⟩ := he
      · cases (invert e').2 with
        | error f => rfl
        | ok i => exact ⟨.cons rfl .nil, rfl⟩
      · have hco' : e.withoutDefinition.isComposite = false := by simp [isComposite, withoutDefinition]
        rw [snd_invert_of_not_composite hco, snd_invert_of_not_composite hco', turned_withoutDefinition]
        cases e.turned with
        | error f => rfl
        | ok f => exact ⟨.cons rfl .nil, rfl⟩
    rw [snd_invertAll_cons, snd_invertAll_cons]
    generalize (invertAll es).2 = done, (invertAll es').2 = done', (invert e).2 = i, (invert e').2 = i' at ih hfi ⊢
    rcases done with f | done <;> rcases done' with f' | done'
    · exact ih
    · exact ih.elim
    · exact ih.elim
    rcases i with f | i <;> rcases i' with f' | i'
    · exact hfi
    · exact hfi.elim
    · exact hfi.elim
    refine ⟨?_, ?_⟩
    · rw [map_append, map_append]; exact rel_append ih.1 hfi.1
    · rw [map_append, map_append, ih.2]; exact congrArg _ hfi.2

end Entry

/-! ### What reads a log -/

namespace Circuit

variable {α : Type} [Scalar α] {es es' : List (Entry α)} {c : Circuit α}

/-- **Definitions have no part in a replay.** -/
theorem snd_replay_congr (h : Forall₂ Alike es es') (c : Circuit α) : (replay es' c).2 = (replay es c).2 := by
  induction h generalizing c with
  | nil => rfl
  | cons he _ ih =>
    rw [replay, replay, he.gate, he.operands]
    split
    · rfl
    · exact ih _

lemma after_update_congr (h : Forall₂ Alike c.log.toList es) :
    { c with log := es.toArray }.after update = c.after update := by
  have hr := snd_replay_congr h c.fresh
  refine (after_update rfl).trans (Eq.trans ?_ (after_update rfl).symm)
  change (replay es c.fresh).2.2.map (fun _ => (replay es c.fresh).2.1) = _
  rw [hr]

lemma after_updateWith_congr (h : Forall₂ Alike es es') (log : Array (Entry α)) :
    { c with log }.after (updateWith es') = c.after (updateWith es) := by
  have ha : ∀ (c : Circuit α) (es : List (Entry α)),
      c.after (updateWith es) = { c with log := es.toArray, detached := true }.after update := by
    intro c es
    rw [after, after, updateWith, perform_modify_bind]
  rw [ha, ha]
  exact after_update_congr (c := { c with log := es.toArray, detached := true }) h

lemma after_reverse_congr (h : Forall₂ Alike c.log.toList es) :
    { c with log := es.toArray }.after (horizontalReverse false) = c.after (horizontalReverse false) := by
  have ha : ∀ c : Circuit α, c.after (horizontalReverse false) = c.after (updateWith c.log.toList.reverse) := by
    intro c; rw [after, after, horizontalReverse, perform_get_bind]; rfl
  rw [ha, ha]
  exact after_updateWith_congr (rel_reverse h) _

lemma after_reverse_eq (c : Circuit α) : c.after (horizontalReverse true) =
    (invertAll c.log.toList).2.bind fun done => c.after (updateWith (assemble done)) := by
  rw [after, horizontalReverse, perform_get_bind, if_pos rfl]
  rcases invertAll c.log.toList with ⟨kept, f | done⟩
  · rfl
  · have hl : { c with log := kept.toArray }.after (updateWith (assemble done)) =
        c.after (updateWith (assemble done)) :=
      after_updateWith_congr (forall₂_same.mpr fun _ _ => rfl) _
    exact hl

lemma after_invert_congr
    (h : Forall₂ (fun e e' => e' = e ∨ e.isComposite = false ∧ e' = e.withoutDefinition) c.log.toList es) :
    { c with log := es.toArray }.after (horizontalReverse true) = c.after (horizontalReverse true) := by
  have ha := alike_invertAll h
  rw [after_reverse_eq, after_reverse_eq]
  generalize (invertAll c.log.toList).2 = done, (invertAll es).2 = done' at ha ⊢
  rcases done with f | done <;> rcases done' with f' | done'
  · exact congrArg error ha
  · exact ha.elim
  · exact ha.elim
  obtain ⟨he, hr⟩ := ha
  refine after_updateWith_congr ?_ _
  rw [assemble, assemble, hr]
  exact forall₂_splice _ 0 he

/-- **Taking a circuit apart** ends in a fault if an entry has lost its definition. -/
theorem decompose_of_lost (h : ∃ e ∈ c.log.toList, e.definition = .lost) (reps : Operand α) (full : Bool) :
    c.decompose reps full = .error (.unfit .key) := by
  have hm : ∀ es : List (Entry α), (∃ e ∈ es, e.definition = .lost) →
      es.mapM isElementary = .error (.unfit .key) := by
    intro es
    induction es with
    | nil => simp
    | cons e es ih =>
      intro hl
      cases hd : e.definition with
      | lost => simp [isElementary, hd, bind, Except.bind]
      | null | entries =>
        have hr : ∃ e ∈ es, e.definition = .lost := by simpa [hd] using hl
        simp [isElementary, hd, ih hr, bind, Except.bind]
  rw [decompose, hm _ h]
  rfl

/-! ### Questions -/

/-- A question about a circuit. -/
inductive Query where
  | perQubit | cleanQubits | dirtyQubits | dag
deriving DecidableEq

/-- Asks a question; the answer is not looked at. -/
def ask : Query → Change (Circuit α) Unit
  | .perQubit => do let _ ← perQubit
  | .cleanQubits => do let _ ← cleanQubits
  | .dirtyQubits => do let _ ← dirtyQubits
  | .dag => do let _ ← ofOutcome (← get).dag

/-- The circuit that is left when a question was asked, also if that ended in a fault. -/
def asked (c : Circuit α) (q : Query) : Circuit α := (Change.perform (ask q) c).2

/-- The entries that are seen: up to the first whose qubits are none of `n`. -/
def visited (n : ℕ) : List (Entry α) → List (Entry α)
  | [] => []
  | e :: rest => e :: match e.qubitNumbers n with
    | .ok _ => visited n rest
    | .error _ => []

lemma asked_eq (c : Circuit α) (q : Query) : c.asked q =
    if q = .dag then c else { c with log := (occupationsFrom c.numQubits c.log.toList).1.toArray } := by
  have hp : ∃ out, Change.perform perQubit c =
      (out, { c with log := (occupationsFrom c.numQubits c.log.toList).1.toArray }) := by
    rw [perQubit, perform_get_bind]
    rcases occupationsFrom c.numQubits c.log.toList with ⟨log, f | pairs⟩ <;> exact ⟨_, rfl⟩
  obtain ⟨out, hp⟩ := hp
  cases q with
  | dag =>
    rw [if_pos rfl, asked, ask, perform_get_bind, perform_bind]
    cases c.dag <;> rfl
  | perQubit =>
    rw [if_neg (by decide), asked, ask, perform_bind, hp]
    cases out <;> rfl
  | cleanQubits =>
    rw [if_neg (by decide), asked, ask, cleanQubits, perform_bind, perform_bind, hp]
    cases out <;> rfl
  | dirtyQubits =>
    rw [if_neg (by decide), asked, ask, dirtyQubits, cleanQubits, perform_bind, perform_bind,
      perform_bind, hp]
    cases out <;> rfl

lemma occupationsFrom_cons (n : ℕ) (e : Entry α) (es : List (Entry α)) :
    ∃ e', (e.hasQubits = false ∧ e' = e ∨ e.hasQubits = true ∧ e' = e.withoutDefinition) ∧
      (occupationsFrom n (e :: es)).1 = e' :: match e.qubitNumbers n with
        | .ok _ => (occupationsFrom n es).1
        | .error _ => es := by
  cases hq : e.hasQubits with
  | true =>
    refine ⟨e.withoutDefinition, .inr ⟨rfl, rfl⟩, ?_⟩
    have hn : e.withoutDefinition.qubitNumbers n = e.qubitNumbers n := rfl
    rw [occupationsFrom, hq, if_pos rfl, hn]
    cases e.qubitNumbers n <;> rfl
  | false =>
    refine ⟨e, .inl ⟨rfl, rfl⟩, ?_⟩
    rw [occupationsFrom, hq, if_neg Bool.false_ne_true]
    cases e.qubitNumbers n <;> rfl

/-- **One pass over the log** strips entries with qubits; nothing else changes. -/
theorem forall₂_occupationsFrom (n : ℕ) (es : List (Entry α)) : Forall₂ Stripped es (occupationsFrom n es).1 := by
  induction es with
  | nil => exact .nil
  | cons e es ih =>
    obtain ⟨e', he', hl⟩ := occupationsFrom_cons n e es
    have hs : Stripped e e' := he'.imp And.right id
    rw [hl]
    cases e.qubitNumbers n with
    | error f => exact .cons hs (forall₂_same.mpr fun _ _ => .inl rfl)
    | ok qs => exact .cons hs ih

lemma withoutDefinition_mem {n : ℕ} {e : Entry α} (he : e ∈ visited n es) (hq : e.hasQubits = true) :
    e.withoutDefinition ∈ (occupationsFrom n es).1 := by
  induction es with
  | nil => cases he
  | cons x es ih =>
    obtain ⟨x', hx', hl⟩ := occupationsFrom_cons n x es
    rw [hl]
    rcases mem_cons.mp he with rfl | he
    · obtain ⟨hno, -⟩ | ⟨-, rfl⟩ := hx'
      · rw [hno] at hq; cases hq
      · exact mem_cons_self
    · cases hn : x.qubitNumbers n with
      | error f => rw [hn] at he; cases he
      | ok qs =>
        rw [hn] at he
        exact mem_cons_of_mem _ (ih he)

/-- **The log stays what it is** exactly if what is seen had no definitions before. -/
theorem occupationsFrom_eq_self_iff (n : ℕ) (es : List (Entry α)) : (occupationsFrom n es).1 = es ↔
    ∀ e ∈ visited n es, e.hasQubits = true → e.definition = .lost := by
  induction es with
  | nil => simp [occupationsFrom, visited]
  | cons e es ih =>
    obtain ⟨e', he', hl⟩ := occupationsFrom_cons n e es
    have hfi : e' = e ↔ (e.hasQubits = true → e.definition = .lost) := by
      obtain ⟨hn, rfl⟩ | ⟨hq, rfl⟩ := he'
      · simp [hn]
      · simp [hq, withoutDefinition_eq_self]
    rw [hl, cons_eq_cons, hfi, visited, forall_mem_cons]
    refine and_congr_right fun _ => ?_
    cases e.qubitNumbers n with
    | error f => simp
    | ok qs => exact ih

/-- **What questions leave behind.**  The circuit stays what it is exactly if the question was for the graph,
or if no entry with qubits that was seen had a definition to lose.  In any case the definitions of such
entries are all that can be lost.

An update afterwards does what it would have done, and so does a reversal, with inverses as long as no entry
with qubits is composite.  Taking the circuit apart does not: it ends in a fault once an entry with qubits was
seen. -/
theorem query_keeps_iff (c : Circuit α) (q : Query) : (c.asked q = c ↔ q = .dag ∨
      ∀ e ∈ visited c.numQubits c.log.toList, e.hasQubits = true → e.definition = .lost) ∧
    (∃ log, c.asked q = { c with log } ∧ List.Forall₂ Stripped c.log.toList log.toList) ∧
    (c.asked q).after update = c.after update ∧
    (c.asked q).after (horizontalReverse false) = c.after (horizontalReverse false) ∧
    ((∀ e ∈ c.log.toList, e.hasQubits = true → e.isComposite = false) →
      (c.asked q).after (horizontalReverse true) = c.after (horizontalReverse true)) ∧
    (q ≠ .dag → (∃ e ∈ visited c.numQubits c.log.toList, e.hasQubits = true) →
      ∀ reps full, (c.asked q).decompose reps full = .error (.unfit .key)) := by
  rw [asked_eq]
  by_cases hq : q = .dag
  · rw [if_pos hq]
    exact ⟨⟨fun _ => .inl hq, fun _ => rfl⟩, ⟨c.log, rfl, forall₂_same.mpr fun _ _ => .inl rfl⟩, rfl, rfl,
      fun _ => rfl, fun h => absurd hq h⟩
  · rw [if_neg hq, or_iff_right hq]
    have hs := forall₂_occupationsFrom c.numQubits c.log.toList
    have ha := hs.imp fun _ _ h => h.alike
    refine ⟨?_, ⟨_, rfl, hs⟩, after_update_congr ha, after_reverse_congr ha, fun hsi => ?_,
      fun _ hse reps full => ?_⟩
    · rw [← occupationsFrom_eq_self_iff]
      exact ⟨fun h => congrArg (·.log.toList) h, fun h => by rw [h]⟩
    · have hbo := (forall₂_and_left _ _).mpr ⟨hsi, hs⟩
      exact after_invert_congr (hbo.imp fun e e' h => h.2.imp id fun hl => ⟨h.1 hl.1, hl.2⟩)
    · obtain ⟨e, he, hqu⟩ := hse
      exact decompose_of_lost ⟨_, withoutDefinition_mem he hqu, rfl⟩ reps full

/-- A negation is stripped by a question for the clean qubits, and can no longer be taken apart. -/
theorem not_query_keeps_negation : ∃ c d : Circuit ℝ,
    (empty .reference 1).after (apply (.of .x .plain) [(.qubitIndices, .int 0)]) = .ok c ∧
    c.decompose (.int 1) true = .ok d ∧
    (c.asked .cleanQubits).decompose (.int 1) true = .error (.unfit .key) := by
  obtain ⟨c, ha, hc⟩ := (made_sized one_pos).exists_call (bind_of_denotes denotes_negation)
    (.gate denotes_negation valid_negation)
  have hl := hc.stands_self [.on .x [0]] (forall_mem_singleton.mpr (Operation.isKept_fixed rfl rfl))
  obtain ⟨e, _, he, hn, hlo⟩ := forall₂_cons_right_iff.mp hl
  obtain rfl := forall₂_nil_right_iff.mp hn
  obtain ⟨d, hd, -⟩ := decompose_of_final hl (.int 1) hc.holds.1 (not_bare_of_negation hl (by simp))
    (forall_mem_singleton.mpr trivial)
  have hs : e.withoutDefinition ∈ (occupationsFrom c.numQubits c.log.toList).1 := by
    refine withoutDefinition_mem (by rw [hlo]; exact mem_cons_self) ?_
    cases he with
    | intro _ _ hr _ =>
      obtain ⟨⟨_, x⟩, rfl, rfl⟩ := map_eq_singleton_iff.mp hr.keys
      rfl
  refine ⟨c, d, ha, hd, ?_⟩
  rw [asked_eq, if_neg (by decide)]
  exact decompose_of_lost ⟨_, hs, rfl⟩ (.int 1) true

end Circuit

end QuantumCircuits
