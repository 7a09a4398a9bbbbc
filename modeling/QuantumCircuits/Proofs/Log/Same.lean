import QuantumCircuits.Proofs.Log.Decompose

/-!
# Log — Same

When entries of a log are equal.  What a checked operand stands for fixes it, up to the ways in which
equal numbers are written (`Slot.Checked.same`), so that entries that stand for the same operation hold
the same operands (`Recorded.sameOperands`) and, as their definitions are those of the operation, are equal
at every depth (`Entry.Unfolds.same`).
-/

namespace QuantumCircuits

open List Operand Entry

variable {n : ℕ}
variable {qs : List ℕ} {x y : Operand ℝ} {xs ys : Operands ℝ}

lemma forall₂_of_common {β γ δ : Type*} {P : β → δ → Prop} {Q : γ → δ → Prop} {R : β → γ → Prop}
    {bs : List β} {cs : List γ} {ds : List δ} (hbs : Forall₂ P bs ds) (hcs : Forall₂ Q cs ds)
    (h : ∀ b c d, P b d → Q c d → R b c) : Forall₂ R bs cs := by
  induction hbs generalizing cs with
  | nil =>
    cases hcs
    exact .nil
  | cons hb _ ih =>
    cases hcs with
    | cons hc hcs => exact .cons (h _ _ _ hb hc) (ih hcs)

/-! ### Operands -/

namespace Operand

variable {xs ys : List (Operand ℝ)}
variable {r s : ℝ}

lemma IsNumber.toCplx? (h : x.IsNumber r) : x.toCplx? = some (.ofReal r) := by
  cases x with
  | int i =>
    obtain rfl := h
    rfl
  | bool b =>
    obtain rfl := h
    cases b <;> simp [toCplx?, toReal?]
  | real z =>
    obtain rfl := h
    rfl
  | _ => exact h.elim

lemma IsNumber.eq_of_toInt? (h : x.IsNumber r) {i : ℤ} (hi : x.toInt? = some i) : r = i := by
  cases x with
  | int j =>
    cases hi
    exact h
  | bool b =>
    cases hi
    obtain rfl := h
    cases b <;> simp
  | real z => cases hi
  | _ => exact h.elim

lemma IsNumber.same_iff (hx : x.IsNumber r) (hy : y.IsNumber s) : x.same y = true ↔ r = s := by
  have hw : ∀ i j, x.toInt? = some i → y.toInt? = some j → ((i == j) = true ↔ r = s) := by
    intro i j hi hj; rw [hx.eq_of_toInt? hi, hy.eq_of_toInt? hj, beq_iff_eq, Int.cast_inj]
  cases x with
  | int i | bool b =>
    cases y with
    | int j | bool c => exact hw _ _ rfl rfl
    | real w => simp [Operand.same, Operand.toInt?, hx.toCplx?, hy.toCplx?, Cplx.ofReal]
    | _ => exact hy.elim
  | real z =>
    cases y with
    | int j | bool c | real w => simp [Operand.same, Operand.toInt?, hx.toCplx?, hy.toCplx?, Cplx.ofReal]
    | _ => exact hy.elim
  | _ => exact hx.elim

lemma IsIndex.same {q : ℕ} (hx : x.IsIndex n q) (hy : y.IsIndex n q) : x.same y = true := by
  obtain ⟨hx, hxq, -⟩ := hx
  obtain ⟨hy, hyq, -⟩ := hy
  cases x with
  | int i | bool b =>
    cases y with
    | int j | bool c => simp [Operand.same, hxq, hyq]
    | _ => cases hy
  | _ => cases hx

lemma sameAll_iff : sameAll xs ys = true ↔ Forall₂ (fun x y => x.same y = true) xs ys := by
  induction xs generalizing ys with
  | nil => cases ys <;> simp [sameAll]
  | cons x xs ih => cases ys <;> simp [sameAll, ih]

lemma IsChecked.same (hx : x.IsChecked n qs) (hy : y.IsChecked n qs) : x.same y = true := by
  cases hx with
  | one hx =>
    cases hy with
    | one hy => exact hx.same hy
    | list hlen => exact absurd rfl hlen
  | list hlen hx =>
    cases hy with
    | one => exact absurd rfl hlen
    | list _ hy =>
      exact sameAll_iff.mpr (forall₂_of_common hx hy fun _ _ _ => IsIndex.same)

end Operand

/-- **Checked operands that stand for the same are equal.** -/
theorem Slot.Checked.same {s : Slot} (hx : s.Checked n x) (hy : s.Checked n y) : x.same y = true := by
  cases s with
  | angle r | factor r => exact (IsNumber.same_iff hx hy).mpr rfl
  | angles rs =>
    obtain ⟨xs, rfl, hxs⟩ := hx
    obtain ⟨ys, rfl, hys⟩ := hy
    exact sameAll_iff.mpr (forall₂_of_common hxs hys fun _ _ _ hr hs => (hr.same_iff hs).mpr rfl)
  | turns rs | entries zs =>
    obtain rfl := hx
    obtain rfl := hy
    simp [Operand.same, sameAll_iff, toInt?, toCplx?, toReal?]
  | qubit q => exact IsIndex.same hx hy
  | qubits qs => exact IsChecked.same hx hy
  | word s =>
    obtain rfl := hx
    obtain rfl := hy
    simp [Operand.same]

/-! ### Entries -/

lemma Entry.sameOperands_of_forall₂ (hn : (ys.map Prod.fst).Nodup)
    (h : Forall₂ (fun p q => p.1 = q.1 ∧ p.2.same q.2 = true) xs ys) : sameOperands xs ys = true := by
  have hfo : ∀ p ∈ xs, ∃ q ∈ ys, p.1 = q.1 ∧ p.2.same q.2 = true :=
    forall_mem_of_forall₂ h fun p q hq hpq => ⟨q, hq, hpq⟩
  rw [sameOperands, Bool.and_eq_true, beq_iff_eq, all_eq_true]
  refine ⟨h.length_eq, fun p hp => ?_⟩
  obtain ⟨q, hq, hk, hs⟩ := hfo p hp
  dsimp only
  rw [hk, Circuit.lookup_of_mem hn hq]
  exact hs

/-- **Entries for the same operation hold the same operands.** -/
theorem Recorded.sameOperands {g : Gate} {o : Operation} (hxs : Recorded n g xs o)
    (hys : Recorded n g ys o) : sameOperands xs ys = true := by
  have hn : (ys.map Prod.fst).Nodup := hys.keys ▸ (Circuit.signature_eq o.gate).1
  refine sameOperands_of_forall₂ hn ?_
  have hk : xs.map Prod.fst = ys.map Prod.fst := hxs.keys.trans hys.keys.symm
  have hx := hxs.checked
  have hy := hys.checked
  clear hxs hys hn
  generalize o.slots = slots at hx hy
  induction slots generalizing xs ys with
  | nil =>
    obtain rfl := map_eq_nil_iff.mp (forall₂_nil_left_iff.mp hx)
    obtain rfl := map_eq_nil_iff.mp (forall₂_nil_left_iff.mp hy)
    exact .nil
  | cons slot slots ih =>
    match xs, ys, hk, hx, hy with
    | p :: xs, q :: ys, hk, .cons hp hx, .cons hq hy =>
      obtain ⟨hke, hk⟩ := cons.inj hk
      exact .cons ⟨hke, hp.same hq⟩ (ih hk hx hy)

lemma Operation.gate_snapped (o : Operation) : o.snapped.gate = o.gate := by cases o <;> rfl

namespace Entry

variable {e e' : Entry ℝ} {o : Operation}

/-- The entries name the same gate with the same operands, whatever their definitions. -/
def SameCall (e e' : Entry ℝ) : Prop := e.gate = e'.gate ∧ sameOperands e.operands e'.operands = true

lemma sameAll_iff {es es' : List (Entry ℝ)} :
    sameAll es es' = true ↔ Forall₂ (fun e e' => same e e' = true) es es' := by
  induction es generalizing es' with
  | nil => cases es' <;> simp [sameAll]
  | cons e es ih => cases es' <;> simp [sameAll, ih]

lemma Unfolds.sameCall {o' : Operation} (h : Unfolds n e o) (h' : Unfolds n e' o')
    (ho : o'.snapped = o.snapped) : SameCall e e' := by
  cases h with
  | intro _ _ hr _ =>
    cases h' with
    | intro _ _ hr' _ =>
      have hs : o'.gate = o.gate := by rw [← o'.gate_snapped, ho, o.gate_snapped]
      rw [ho, hs] at hr'
      exact ⟨by rw [hs], hr.sameOperands hr'⟩

/-- **Entries for the same operation are equal**, definitions included. -/
theorem Unfolds.same (h : Unfolds n e o) (h' : Unfolds n e' o) : Entry.same e e' = true := by
  revert e'
  refine h.descend (P := fun e o => ∀ {e'}, Unfolds n e' o → Entry.same e e' = true)
    fun operands k es o _ _ hes hs e' h' => ?_
  obtain ⟨-, ho⟩ := hs.sameCall h' rfl
  cases h' with
  | @intro operands' k' es' _ _ _ _ hes' =>
    rw [unfoldAll_iff] at hes'
    have ha := forall₂_of_common hes hes' fun _ _ _ he he' => he.2 he'
    rw [Entry.same, ho, sameDefinition, sameAll_iff.mpr ha]
    simp

end Entry

/-! ### Items -/

namespace Item.Stands

variable {e e' : Entry ℝ} {i j : Item}

lemma sameOperands_qubits (hx : x.IsChecked n qs)
    (hy : y.IsChecked n qs) : sameOperands [(.qubitIndices, x)] [(.qubitIndices, y)] = true :=
  sameOperands_of_forall₂ (nodup_singleton _) (.cons ⟨rfl, hx.same hy⟩ .nil)

lemma sameCall (h : Stands n e i) (h' : Stands n e' j) (hi : j.snapped = i.snapped) : e.SameCall e' := by
  cases i with
  | gate o =>
    cases j with
    | gate p => exact Unfolds.sameCall h h' (Item.gate.inj hi)
    | _ => cases hi
  | measure qs | reset qs =>
    obtain ⟨x, k, rfl, hx, -⟩ := h
    cases j <;> cases hi
    obtain ⟨y, k', rfl, hy, -⟩ := h'
    exact ⟨rfl, sameOperands_qubits hx hy⟩

/-- **Entries that stand for the same item are equal.** -/
theorem same (h : Stands n e i) (h' : Stands n e' i) : Entry.same e e' = true := by
  cases i with
  | gate o => exact Unfolds.same h h'
  | measure qs | reset qs =>
    obtain ⟨x, k, rfl, hx, -⟩ := h
    obtain ⟨y, k', rfl, hy, -⟩ := h'
    simp [Entry.same, sameOperands_qubits hx hy, Entry.sameDefinition, Entry.sameAll]

end Item.Stands

end QuantumCircuits
