import QuantumCircuits.Proofs.Log.Addition

/-!
# Log — Mapping

Changing the mapping of a circuit.  A mapping is a sequence of whole numbers that gives a new qubit for each
qubit of the circuit.  It passes the checks exactly if it is a permutation of the qubits (`passes_iff`): the
numbers without repetitions are those of all qubits, and there are no more of them.

The qubits are exchanged in the entries of the log, whose definitions stay what they were, and then the log is
replayed.  The replay makes the definitions anew, so a circuit whose mapping was changed lists its items on
the new qubits (`Circuit.Lists.exists_changeMapping`), and permutations act on the logs of circuits
(`Circuit.changeMapping_acts`).
-/

namespace QuantumCircuits

open List

open Operand (IsWhole)

variable {n : ℕ}
variable {zs : List ℤ}

/-! ### Permutations of qubits -/

/-- The qubit to which a permutation moves a qubit. -/
def newQubit (π : Equiv.Perm (Fin n)) (q : ℕ) : ℕ := if h : q < n then π ⟨q, h⟩ else q

def wholesOf (π : Equiv.Perm (Fin n)) : List ℤ := ofFn fun q => ((π q : ℕ) : ℤ)

section Permutation

variable (π ρ : Equiv.Perm (Fin n))
variable {q : ℕ}

lemma newQubit_mul (q : ℕ) : newQubit (ρ * π) q = newQubit ρ (newQubit π q) := by
  by_cases hq : q < n <;> simp [newQubit, hq]

lemma newQubit_of_le (hq : n ≤ q) : newQubit π q = q := dif_neg (by omega)

lemma newQubit_one (q : ℕ) : newQubit (1 : Equiv.Perm (Fin n)) q = q := by simp [newQubit]

lemma embeds_newQubit : Circuit.Embeds n n (newQubit π) where
  lt q hq := by simp [newQubit, hq]
  injOn q hq r hr h := by
    have h' : π ⟨q, hq⟩ = π ⟨r, hr⟩ := Fin.ext (by simpa [newQubit, hq, hr] using h)
    exact congrArg Fin.val (π.injective h')

def newQubits : Equiv.Perm ℕ where
  toFun := newQubit π
  invFun := newQubit π⁻¹
  left_inv q := by rw [← newQubit_mul, inv_mul_cancel, newQubit_one]
  right_inv q := by rw [← newQubit_mul, mul_inv_cancel, newQubit_one]

lemma getD_wholesOf (hq : q < n) : (wholesOf π).getD q 0 = newQubit π q := by simp [wholesOf, newQubit, hq]

end Permutation

/-! ### Checks -/

lemma eraseDups_of_nodup (h : zs.Nodup) : zs.eraseDups = zs := by
  induction zs with
  | nil => rfl
  | cons z zs ih =>
    obtain ⟨hz, hzs⟩ := nodup_cons.mp h
    have hfi : zs.filter (fun y => !y == z) = zs := by
      refine filter_eq_self.mpr fun y hy => ?_; simpa using fun hyz : y = z => hz (hyz ▸ hy)
    rw [eraseDups_cons, hfi, ih hzs]

lemma perm_wholesOf (π : Equiv.Perm (Fin n)) : (wholesOf π).Perm ((range n).map Int.ofNat) := by
  have hp := π.ofFn_comp_perm fun q => ((q : ℕ) : ℤ)
  have hr : ofFn (fun q : Fin n => ((q : ℕ) : ℤ)) = (range n).map Int.ofNat :=
    ext_getElem (by simp) fun _ _ _ => by simp
  exact hr ▸ hp

lemma exists_wholesOf (h : zs.Perm ((range n).map Int.ofNat)) : ∃ π : Equiv.Perm (Fin n), zs = wholesOf π := by
  have hlen : zs.length = n := by simpa using h.length_eq
  have hn : zs.Nodup := h.nodup_iff.mpr (nodup_range.map Int.ofNat_injective)
  have hm : ∀ q : Fin n, ∃ r : Fin n, zs[q] = ((r : ℕ) : ℤ) := fun q => by
    have hq : q < zs.length := hlen.symm ▸ q.2
    obtain ⟨r, hr, he⟩ := mem_map.mp (h.mem_iff.mp (getElem_mem hq))
    exact ⟨⟨r, mem_range.mp hr⟩, he.symm⟩
  choose f hf using hm
  have hi : Function.Injective f := fun q r hqr => by
    have he : zs[q] = zs[r] := by rw [hf, hf, hqr]
    exact Fin.ext (hn.getElem_inj_iff.mp he)
  refine ⟨Equiv.ofBijective f (Finite.injective_iff_bijective.mp hi), ?_⟩
  exact ext_getElem (by simp [hlen, wholesOf]) fun q hq _ => by simpa [wholesOf] using hf ⟨q, hlen ▸ hq⟩

/-- **Whole numbers pass the checks exactly if they are those of a permutation.** -/
theorem passes_iff (zs : List ℤ) : ((zs.eraseDups.mergeSort fun (a b : ℤ) => decide (a ≤ b)) = (range n).map Int.ofNat ∧
      zs.length = n) ↔ ∃ π : Equiv.Perm (Fin n), zs = wholesOf π := by
  have hn : ((range n).map Int.ofNat).Nodup := nodup_range.map Int.ofNat_injective
  constructor
  · rintro ⟨hs, hlen⟩
    -- all qubits are among the numbers, and these are not more
    have hsu : (range n).map Int.ofNat ⊆ zs := fun z hz => by
      rw [← hs] at hz; exact mem_eraseDups.mp ((mergeSort_perm _ _).mem_iff.mp hz)
    have hp := (subperm_of_subset hn hsu).perm_of_length_le (by simp [hlen])
    exact exists_wholesOf hp.symm
  · rintro ⟨π, rfl⟩
    have hp := perm_wholesOf π
    refine ⟨?_, by simp [wholesOf]⟩
    rw [eraseDups_of_nodup (hp.nodup_iff.mpr hn)]
    refine ((mergeSort_perm _ _).trans hp).eq_of_pairwise (fun (a b : ℤ) _ _ (h : a ≤ b) => le_antisymm h) ?_ ?_
    · have ht : ∀ a b c : ℤ, decide (a ≤ b) → decide (b ≤ c) → decide (a ≤ c) := by
        simpa using fun a b c => le_trans
      have hto : ∀ a b : ℤ, decide (a ≤ b) || decide (b ≤ a) := by simpa using fun a b => le_total a b
      simpa using pairwise_mergeSort ht hto (wholesOf π)
    · rw [pairwise_map]; exact pairwise_lt_range.imp fun h => Int.ofNat_le.mpr h.le

/-! ### What a change of the mapping does -/

/-- The operand is a sequence of the whole numbers of a permutation. -/
def Operand.Permutes (x : Operand ℝ) (π : Equiv.Perm (Fin n)) : Prop :=
  ∃ xs, x.isSequence = true ∧ x.items = .ok xs ∧ Forall₂ IsWhole xs (wholesOf π)

namespace Circuit

open Item (Stands)

variable {is : List Item} {x : Operand ℝ}

lemma filterMap_toInt? {xs : List (Operand ℝ)} (h : Forall₂ IsWhole xs zs) : xs.filterMap Operand.toInt? = zs := by
  induction h with
  | nil => rfl
  | cons hx _ ih => rw [filterMap_cons_some hx.toInt?, ih]

section Passing

variable {c : Circuit ℝ} {xs : List (Operand ℝ)}

lemma perform_changeMapping_refused (hn : c.numQubits = n) (hit : x.items = .ok xs)
    (h : ¬ ∃ π : Equiv.Perm (Fin n), Forall₂ IsWhole xs (wholesOf π)) :
    ∃ f, Change.perform (changeMapping x) c = (.error f, c) := by
  rw [changeMapping, Change.perform_get_bind, hit, Change.perform_ofOutcome_bind, hn]
  by_cases hi : (!xs.all Operand.isInt) = true
  · exact ⟨.mappingType, by rw [if_pos hi]; rfl⟩
  obtain ⟨zs, hzs⟩ := (all_isInt_iff xs).mp (by simpa using hi)
  rw [if_neg hi, filterMap_toInt? hzs]
  by_cases hu : (zs.eraseDups.mergeSort fun (a b : ℤ) => decide (a ≤ b)) ≠ (range n).map Int.ofNat
  · exact ⟨.mappingNotUnique, by rw [if_pos hu]; rfl⟩
  have hlen : xs.length ≠ n := fun hlen => by
    obtain ⟨π, rfl⟩ := (passes_iff zs).mp ⟨not_not.mp hu, hzs.length_eq ▸ hlen⟩; exact h ⟨π, hzs⟩
  exact ⟨.addCount, by rw [if_neg hu, if_pos hlen]; rfl⟩

lemma looksUp_moved : LooksUp xs.length (moved (.list xs)) (tableOf xs) where
  index {y q} hy := by
    have hi : (Operand.list xs).item q = .ok (tableOf xs q) := item_of_lt rfl rfl hy.lt
    have hin := hy.isInt
    cases y with
    | int i | bool b => simp only [moved, hy.toInt?, hi]
    | _ => cases hin
  list {ys qs} hys := by
    simp only [moved, bind, Except.bind]
    rw [mapM_of_forall₂ hys]
    intro y q hy
    rw [hy.toInt?]
    exact item_of_lt rfl rfl hy.lt

lemma moveAll_of_looksUp {es : List (Entry ℝ)} {f : Operand ℝ → Outcome (Operand ℝ)}
    {table : ℕ → Operand ℝ} (h : Forall₂ (Stands n) es is) (hf : LooksUp n f table) :
    moveAll f es = (es.map (Entry.placed table), .ok ()) := by
  induction h with
  | nil => rfl
  | cons he _ ih =>
    obtain ⟨g, slots, hr, -⟩ := Item.Stands.read he
    simp [moveAll, hr.mapQubits hf, ih, map_cons]

lemma perform_changeMapping_permutes {π : Equiv.Perm (Fin n)} (hc : c.Lists n is)
    (hse : x.isSequence = true) (hi : x.items = .ok xs) (hxs : Forall₂ IsWhole xs (wholesOf π)) :
    Change.perform (changeMapping x) c =
      Change.perform update { c with log := (c.log.toList.map (Entry.placed (tableOf xs))).toArray } := by
  obtain ⟨g, ho⟩ := hc.isOpen
  obtain ⟨hs, hlen⟩ := (passes_iff (wholesOf π)).mpr ⟨π, rfl⟩
  have hlen' : xs.length = n := hxs.length_eq.trans hlen
  have hin : xs.all Operand.isInt = true := (all_isInt_iff xs).mpr ⟨_, hxs⟩
  have hm := moveAll_of_looksUp hc.log (hlen' ▸ looksUp_moved)
  rw [changeMapping, Change.perform_get_bind, hi,
    Change.perform_ofOutcome_bind, ho.numQubits, if_neg (by simp [hin]),
    filterMap_toInt? hxs, if_neg (not_not.mpr hs), if_neg (not_not.mpr hlen'), if_pos hse]
  dsimp only
  rw [hm]
  rfl

end Passing

/-- **A circuit lists its items on the new qubits** after its mapping was changed. -/
theorem Lists.exists_changeMapping {c : Circuit ℝ} {π : Equiv.Perm (Fin n)}
    (hc : c.Lists n is) (hx : x.Permutes π) : ∃ c', c.after (changeMapping x) = .ok c' ∧
      c'.Lists n (is.map fun i => i.snapped.onQubits (newQubit π)) ∧
      c'.steps = is.flatMap fun i => (i.snapped.onQubits (newQubit π)).prims := by
  obtain ⟨xs, hse, hi, hxs⟩ := hx
  obtain ⟨g, ho⟩ := hc.isOpen
  have hr := perform_changeMapping_permutes hc hse hi hxs
  have hlen : xs.length = n := by simpa [wholesOf] using hxs.length_eq
  have ht : ∀ q < n, (tableOf xs q).IsWhole (newQubit π q) := fun q hq =>
    getD_wholesOf π hq ▸ isWhole_tableOf hxs (hlen.symm ▸ hq)
  have hca : Forall₂ (fun e i => Carries n (applyNamed e.gate e.operands) [i])
      (c.log.toList.map (Entry.placed (tableOf xs))) (is.map fun i => i.snapped.onQubits (newQubit π)) := by
    rw [forall₂_map_left_iff, forall₂_map_right_iff, ← placesOf_natCast n (newQubit π)]
    exact hc.log.imp fun e i h => h.carries_placed (fun q hq => ht q (h.lt q hq))
      ((embeds_newQubit π).proper h.lt h.nodup)
  let d : Circuit ℝ := { c with log := (c.log.toList.map (Entry.placed (tableOf xs))).toArray }
  obtain ⟨c', hre, ho', hs, hl⟩ := (ho.withLog d.log).replay_carries hca
  rw [(embeds_newQubit π).flatMap_kept hc.log] at hl
  refine ⟨c', ?_, ⟨⟨_, ho'⟩, hl⟩, by rw [hs, flatMap_map]⟩
  rw [after, hr]
  exact after_update (c := d) hre

section Acts

variable {c : Circuit ℝ} {is : List Item}

lemma Lists.exists_changeMapping_twice {y : Operand ℝ} {π ρ : Equiv.Perm (Fin n)} (hc : c.Lists n is)
    (hx : x.Permutes π) (hy : y.Permutes ρ) : ∃ c₁ c₂, c.after (changeMapping x) = .ok c₁ ∧ c₁.numQubits = n ∧
      c₁.after (changeMapping y) = .ok c₂ ∧ c₂.Lists n (is.map fun i => i.snapped.onQubits (newQubit (ρ * π))) := by
  obtain ⟨c₁, ha₁, hc₁, -⟩ := hc.exists_changeMapping hx
  obtain ⟨c₂, ha₂, hc₂, -⟩ := hc₁.exists_changeMapping hy
  obtain ⟨g, ho⟩ := hc₁.isOpen
  refine ⟨c₁, c₂, ha₁, ho.numQubits, ha₂, ?_⟩
  have hco : (is.map fun i => i.snapped.onQubits (newQubit π)).map (fun i => i.snapped.onQubits (newQubit ρ)) =
      is.map fun i => i.snapped.onQubits (newQubit (ρ * π)) := by
    rw [map_map]
    refine map_congr_left fun i _ => ?_
    rw [Function.comp_apply, Item.snapped_onQubits, Item.snapped_snapped, Item.onQubits_onQubits]
    exact Item.onQubits_congr fun q _ => (newQubit_mul π ρ q).symm
  exact hco ▸ hc₂

lemma Lists.sameCalls_one {d : Circuit ℝ} (hc : c.Lists n is)
    (hd : d.Lists n (is.map fun i => i.snapped.onQubits (newQubit (1 : Equiv.Perm (Fin n))))) :
    Forall₂ Entry.SameCall c.log.toList d.log.toList := by
  refine hc.sameCalls hd ?_
  rw [map_map]
  refine map_congr_left fun i _ => ?_
  rw [Function.comp_apply, Item.onQubits_id fun q _ => newQubit_one q, Item.snapped_snapped]

lemma permutes_reversed : (Operand.list ((range n).reverse.map fun (i : ℕ) => .int i)).Permutes
    (Fin.revPerm : Equiv.Perm (Fin n)) := by
  refine ⟨_, rfl, rfl, ?_⟩
  have hr : wholesOf (Fin.revPerm : Equiv.Perm (Fin n)) = (range n).reverse.map fun (i : ℕ) => (i : ℤ) :=
    ext_getElem (by simp [wholesOf]) fun q hq _ => by
      simp only [wholesOf, List.getElem_ofFn, getElem_map, getElem_reverse, length_range,
        getElem_range, Fin.revPerm_apply, Fin.val_rev]
      omega
  rw [hr]
  exact forall₂_map_map fun i _ => Operand.isWhole_int i

lemma after_verticalReverse (hn : c.numQubits = n) : c.after verticalReverse =
    c.after (changeMapping (.list ((range n).reverse.map fun (i : ℕ) => .int i))) := by
  rw [after, verticalReverse, Change.perform_get_bind, hn, ← after]

/-- **Permutations act on logs.**  Of a circuit that was made by calls, every permutation moves the qubits of
each entry.  A mapping and then another one leave the same log, definitions included, as their product; the
one that moves nothing, or a mapping and then its inverse, leave the gates and their parameters, and so do two
reversals.  A sequence that is not a permutation of the qubits is refused and changes nothing. -/
theorem changeMapping_acts (hc : Made n c is) :
    (∀ (π : Equiv.Perm (Fin n)) x, Operand.Permutes x π → ∃ c', c.after (changeMapping x) = .ok c' ∧
      List.Forall₂ (fun e e' => (e.placed fun q => .int (newQubit π q)).SameCall e') c.log.toList c'.log.toList) ∧
    (∀ (π ρ : Equiv.Perm (Fin n)) x y z, Operand.Permutes x π → Operand.Permutes y ρ →
      Operand.Permutes z (ρ * π) → ∃ c₁ c₂ c₃, c.after (changeMapping x) = .ok c₁ ∧
        c₁.after (changeMapping y) = .ok c₂ ∧ c.after (changeMapping z) = .ok c₃ ∧ c₂.sameLog c₃ = true) ∧
    (∀ x, Operand.Permutes x (1 : Equiv.Perm (Fin n)) → ∃ c', c.after (changeMapping x) = .ok c' ∧
      List.Forall₂ Entry.SameCall c.log.toList c'.log.toList) ∧
    (∀ (π : Equiv.Perm (Fin n)) x y, Operand.Permutes x π → Operand.Permutes y π⁻¹ →
      ∃ c₁ c₂, c.after (changeMapping x) = .ok c₁ ∧ c₁.after (changeMapping y) = .ok c₂ ∧
        List.Forall₂ Entry.SameCall c.log.toList c₂.log.toList) ∧
    (∃ c₁ c₂, c.after verticalReverse = .ok c₁ ∧ c₁.after verticalReverse = .ok c₂ ∧
      List.Forall₂ Entry.SameCall c.log.toList c₂.log.toList) ∧
    ∀ x, Operand.isSequence x = true → (¬ ∃ π : Equiv.Perm (Fin n), x.Permutes π) →
      ∃ f, Change.perform (changeMapping x) c = (.error f, c) := by
  have hl := hc.spec.1
  obtain ⟨g, ho⟩ := hl.isOpen
  refine ⟨fun π x hx => ?_, fun π ρ x y z hx hy hz => ?_, fun x hx => ?_, fun π x y hx hy => ?_, ?_, fun x hx hba => ?_⟩
  · obtain ⟨c', ha, hc', -⟩ := hl.exists_changeMapping hx
    refine ⟨c', ha, forall₂_of_common hl.log (forall₂_map_right_iff.mp hc'.log) ?_⟩
    exact fun e e' i he he' => sameCall_placed he he'
  · obtain ⟨c₁, c₂, ha₁, -, ha₂, hc₂⟩ := hl.exists_changeMapping_twice hx hy
    obtain ⟨c₃, ha₃, hc₃, -⟩ := hl.exists_changeMapping hz
    exact ⟨c₁, c₂, c₃, ha₁, ha₂, ha₃, hc₂.sameLog hc₃⟩
  · obtain ⟨c', ha, hc', -⟩ := hl.exists_changeMapping hx; exact ⟨c', ha, hl.sameCalls_one hc'⟩
  · obtain ⟨c₁, c₂, ha₁, -, ha₂, hc₂⟩ := hl.exists_changeMapping_twice hx hy
    rw [inv_mul_cancel] at hc₂
    exact ⟨c₁, c₂, ha₁, ha₂, hl.sameCalls_one hc₂⟩
  · obtain ⟨c₁, c₂, ha₁, hn, ha₂, hc₂⟩ :=
      hl.exists_changeMapping_twice (permutes_reversed) permutes_reversed
    have hs : (Fin.revPerm * Fin.revPerm : Equiv.Perm (Fin n)) = 1 := by ext q; simp
    rw [hs] at hc₂
    exact ⟨c₁, c₂, by rw [after_verticalReverse ho.numQubits, ha₁],
      by rw [after_verticalReverse hn, ha₂], hl.sameCalls_one hc₂⟩
  · cases hi : x.items with
    | error f =>
      refine ⟨f, ?_⟩
      rw [changeMapping, Change.perform_get_bind, hi]
      rfl
    | ok xs =>
      refine perform_changeMapping_refused ho.numQubits hi ?_
      rintro ⟨π, hxs⟩
      exact hba ⟨π, xs, hx, hi, hxs⟩

/-- A controlled negation, under the exchange of two qubits. -/
theorem changeMapping_acts_cx : ∃ c : Circuit ℝ, Made 2 c [.gate (.cx 0 1)] ∧
    (∃ c₁ c₂, c.after verticalReverse = .ok c₁ ∧ c₁.after verticalReverse = .ok c₂ ∧
      List.Forall₂ Entry.SameCall c.log.toList c₂.log.toList) ∧
    (Change.perform (changeMapping (.list [.int 1, .int 1])) c).2 = c := by
  obtain ⟨c, hc⟩ := exists_made_cx (s := 0) (t := 1) (by decide) (by decide) (by decide)
  obtain ⟨-, -, -, -, hr, hre⟩ := changeMapping_acts hc
  refine ⟨c, hc, hr, ?_⟩
  obtain ⟨f, hf⟩ := hre (.list [.int 1, .int 1]) rfl fun ⟨π, xs, _, hi, hxs⟩ => by
    cases hi
    have hzs : [1, 1] = wholesOf π :=
      isWhole_unique (.cons (Operand.isWhole_int 1) (.cons (Operand.isWhole_int 1) .nil)) hxs
    have hn := (perm_wholesOf π).nodup_iff.mpr (nodup_range.map Int.ofNat_injective)
    rw [← hzs] at hn
    simp at hn
  rw [hf]

end Acts

end Circuit

end QuantumCircuits
