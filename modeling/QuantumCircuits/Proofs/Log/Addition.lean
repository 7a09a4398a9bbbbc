import QuantumCircuits.Proofs.Log.Moved
import QuantumCircuits.Session.Basic

/-!
# Log — Addition

Adding a circuit to another one.  The entries of its log are performed on the other circuit, one after the
other, with the qubits that an operand gives in the place of their own.

An addition looks at the operand only to see that it holds as many whole numbers as there are qubits.
Whether these name qubits, and different ones, is left to the entries, each of which looks at its own qubits
(`Circuit.exists_perform_placed`).  So the entries up to the first one that is refused stay, and qubits that
do not meet in an entry may be put on the same one (`Circuit.add_goes_through_iff`).  Where the qubits are
put on different ones, every entry is logged as it was, on the new qubits, and additions that follow each
other compose (`Circuit.add_composes`).
-/

namespace QuantumCircuits

open List Operation Change

open Operand (IsIndex IsWhole)

variable {m n p : ℕ}
variable {zs : List ℤ} {d : Circuit ℝ} {x : Operand ℝ} {xs : List (Operand ℝ)} {q : ℕ}

/-! ### Positions -/

/-- The operand gives positions: one on its own, or a sequence of them. -/
structure Operand.Positions (x : Operand ℝ) (xs : List (Operand ℝ)) : Prop where
  isSequence : x.positioned.isSequence = true
  items : x.positioned.items = .ok xs

lemma Operand.HasItems.positions (h : x.HasItems xs) : x.Positions xs where
  isSequence := by
    cases x with
    | list _ | tuple _ | range _ _ _ => rfl
    | _ => exact h.elim
  items := by
    cases x with
    | list _ | tuple _ | range _ _ _ => exact h.items
    | _ => exact h.elim

/-- The operand gives a position for each of `m` qubits, counted from the start. -/
def Operand.Maps (x : Operand ℝ) (m : ℕ) (σ : ℕ → ℕ) : Prop :=
  ∃ xs, x.Positions xs ∧ List.Forall₂ IsWhole xs ((List.range m).map fun q => (σ q : ℤ))

lemma Operand.HasItems.maps (h : x.HasItems ((List.range m).map fun q : ℕ => .int q)) : x.Maps m id := by
  refine ⟨_, h.positions, ?_⟩
  rw [forall₂_map_left_iff, forall₂_map_right_iff, forall₂_same]
  exact fun q _ => Operand.isWhole_int q

def tableOf (xs : List (Operand ℝ)) (q : ℕ) : Operand ℝ := xs.getD q .none

lemma item_of_lt (hs : x.isSequence = true)
    (hi : x.items = .ok xs) (hq : q < xs.length) : x.item q = .ok (tableOf xs q) :=
  Operand.item_of_items (fun ys h => by simp [h, Operand.isSequence] at hs) hi hq

lemma looksUp_relocate (hs : x.isSequence = true)
    (hi : x.items = .ok xs) : LooksUp xs.length (Circuit.relocate x) (tableOf xs) where
  index {y q} hy := by
    have hy' : y.isSequence = false := by
      have hin := hy.isInt
      cases y with
      | int i | bool b => rfl
      | _ => cases hin
    have hit : (Operand.list xs).item q = .ok (tableOf xs q) := item_of_lt rfl rfl hy.lt
    simp [Circuit.relocate, hy', Operand.toList, hi, hy.toInt?, hit, bind, Except.bind]
  list {ys qs} hys := by
    simp only [Circuit.relocate, Operand.isSequence, Operand.items, if_true, bind, Except.bind]
    rw [mapM_of_forall₂ hys]
    intro y q hy
    rw [hy.toInt?]
    exact item_of_lt hs hi hy.lt

lemma isWhole_tableOf (h : Forall₂ IsWhole xs zs) (hq : q < xs.length) : (tableOf xs q).IsWhole (zs.getD q 0) :=
  Operand.forall₂_getD h (h.length_eq ▸ hq) _ _

lemma all_isInt_iff (xs : List (Operand ℝ)) : xs.all Operand.isInt = true ↔ ∃ zs, Forall₂ IsWhole xs zs := by
  induction xs with
  | nil => exact ⟨fun _ => ⟨[], .nil⟩, fun _ => rfl⟩
  | cons x xs ih =>
    rw [all_cons, Bool.and_eq_true, ih]
    constructor
    · rintro ⟨hx, zs, hzs⟩
      cases x with
      | int i => exact ⟨i :: zs, .cons ⟨rfl, rfl⟩ hzs⟩
      | bool b => exact ⟨_ :: zs, .cons ⟨rfl, rfl⟩ hzs⟩
      | _ => cases hx
    · rintro ⟨_, hzs⟩
      cases hzs with
      | cons hx hzs => exact ⟨hx.isInt, _, hzs⟩

/-- The whole numbers that positions give for the qubits of an entry. -/
def Entry.wholes (zs : List ℤ) (e : Entry ℝ) : List ℤ := e.qubits.map fun x => zs.getD (x.toInt?.getD 0).toNat 0

/-- The qubits are both among those of the entry. -/
def Entry.Joins (i j : ℕ) (e : Entry ℝ) : Prop :=
  ∃ x ∈ e.qubits, ∃ y ∈ e.qubits, x.toInt? = some (i : ℤ) ∧ y.toInt? = some (j : ℤ)

/-! ### Circuits with names -/

namespace Session

lemma lookup_filter {β : Type} {u v : String} (h : u ≠ v) (xs : List (String × β)) :
    (xs.filter fun e => e.1 != v).lookup u = xs.lookup u := by
  induction xs with
  | nil => rfl
  | cons x xs ih =>
    obtain ⟨w, b⟩ := x
    by_cases hw : w = v
    · subst hw; simp [lookup_cons, ih, show (u == w) = false by simpa using h]
    · simp [lookup_cons, ih, hw]

lemma exists_change {β : Type} {s : Session ℝ} {v : String} {d' : Circuit ℝ} {b : β}
    {x : Change (Circuit ℝ) β} (hv : s.circuits.lookup v = some d) (hx : perform x d = (.ok b, d')) :
    ∃ s', perform (change v x) s = (.ok b, s') ∧ s'.circuits.lookup v = some d' ∧
      ∀ u, u ≠ v → s'.circuits.lookup u = s.circuits.lookup u := by
  have hci : perform (circuit v) s = (.ok d, s) := by rw [circuit, perform_get_bind, hv]; rfl
  refine ⟨{ s with circuits := (v, d') :: s.circuits.filter fun e => e.1 != v }, ?_, ?_, ?_⟩
  · rw [change, perform_bind_ok hci, hx]; rfl
  · simp
  · intro u hu; simp [lookup_cons, show (u == v) = false by simpa using hu, lookup_filter hu]

end Session

namespace Circuit

open Item (Stands)

variable {e : Entry ℝ} {i : Item} {σ : ℕ → ℕ} {c : Circuit ℝ} {a : ℝ} {is : List Item} {qs : List ℕ}

/-! ### What an addition does -/

section Checks

variable (hx : x.Positions xs)
include hx

lemma addPositions_eq (m : ℕ) : addPositions m x =
    if !(xs.all Operand.isInt) then .error .addIndexType
    else if xs.length ≠ m then .error .addCount else .ok x.positioned := by
  simp [addPositions, hx.isSequence, hx.items, bind, Except.bind]

lemma perform_add_refused (h : ¬ (xs.all Operand.isInt = true ∧ xs.length = c.numQubits))
    (d : Circuit ℝ) : ∃ f, Change.perform (add c x) d = (.error f, d) := by
  obtain ⟨f, hf⟩ : ∃ f, addPositions c.numQubits x = .error f := by
    rw [addPositions_eq hx]
    by_cases hi : xs.all Operand.isInt = true
    · exact ⟨.addCount, by simp [hi, show xs.length ≠ c.numQubits from fun hlen => h ⟨hi, hlen⟩]⟩
    · exact ⟨.addIndexType, by simp [hi]⟩
  refine ⟨f, ?_⟩
  rw [add, hf]
  rfl

lemma perform_add (hm : c.numQubits = m) (hc : Forall₂ (Stands m) c.log.toList is) (hlen : xs.length = m)
    (hi : xs.all Operand.isInt = true) (d : Circuit ℝ) : Change.perform (add c x) d = Change.perform
      ((c.log.toList.map (Entry.placed (tableOf xs))).forM fun e => applyNamed e.gate e.operands) d := by
  have hp : addPositions c.numQubits x = .ok x.positioned := by rw [addPositions_eq hx, hm]; simp [hi, hlen]
  have hma : c.log.toList.mapM (Entry.mapQubits (relocate x.positioned)) =
      .ok (c.log.toList.map (Entry.placed (tableOf xs))) := by
    subst hlen
    refine mapM_of_forall₂ (forall₂_same.mpr fun e he => ?_) fun e e' (h : e = e' ∧
      e.mapQubits (relocate x.positioned) = .ok (e.placed (tableOf xs))) => h.1 ▸ h.2
    obtain ⟨i, -, hs⟩ := exists_of_forall₂ hc.flip e he
    obtain ⟨g, slots, hr, -⟩ := Item.Stands.read hs
    exact ⟨rfl, hr.mapQubits (looksUp_relocate hx.isSequence hx.items)⟩
  rw [add, hp, perform_ofOutcome_bind, hma, perform_ofOutcome_bind]

end Checks

section Run

variable {es : List (Entry ℝ)} {table : ℕ → Operand ℝ} {ζ : ℕ → ℤ}

/-- The qubits that a table of whole numbers names. -/
def placesOf (p : ℕ) (ζ : ℕ → ℤ) (q : ℕ) : ℕ := placeOf p (ζ q)

/-- **Entries that fit their new qubits go through**, and each is logged as it was. -/
theorem carries_placed (h : Forall₂ (Stands m) es is) (ht : ∀ q < m, (table q).IsWhole (ζ q))
    (hp : ∀ i ∈ is, Proper p (i.qubits.map ζ)) :
    Carries p ((es.map (Entry.placed table)).forM fun e => applyNamed e.gate e.operands)
      (is.map fun i => i.snapped.onQubits (placesOf p ζ)) := by
  refine carries_forM ?_
  induction h with
  | nil => exact .nil
  | cons he _ ih =>
    refine .cons ?_ (ih fun i hi => hp i (mem_cons_of_mem _ hi))
    exact Item.Stands.carries_placed he (fun q hq => ht q (he.lt q hq)) (hp _ mem_cons_self)

lemma kept_moved (h : Stands m e i) (hp : Proper p (i.qubits.map ζ)) :
    (i.snapped.onQubits (placesOf p ζ)).kept = [i.snapped.onQubits (placesOf p ζ)] := by
  cases i with
  | gate o =>
    obtain ⟨hv, hk, -, -⟩ := h
    have hv' : (o.snapped.onQubits (placesOf p ζ)).Valid p := by
      refine hv.snapped.onQubits ?_ fun q hq => placeOf_lt (hp.inRange _ (mem_map_of_mem ?_))
      · have hn := hp.nodup
        rw [map_map] at hn
        rwa [o.qubits_snapped]
      · rwa [o.qubits_snapped] at hq
    have hs := kept_of_isKept hv' ((isKept_onQubits _ _).trans ((isKept_snapped o).trans hk))
    simp [Item.kept, Item.snapped, Item.onQubits, hs]
  | _ => rfl

lemma flatMap_kept_moved (h : Forall₂ (Stands m) es is) (hp : ∀ i ∈ is, Proper p (i.qubits.map ζ)) :
    (is.map fun i => i.snapped.onQubits (placesOf p ζ)).flatMap Item.kept =
      is.map fun i => i.snapped.onQubits (placesOf p ζ) := by
  induction h with
  | nil => rfl
  | cons he _ ih =>
    rw [map_cons, flatMap_cons, kept_moved he (hp _ mem_cons_self), ih fun i hi => hp i (mem_cons_of_mem _ hi)]
    rfl

lemma exists_perform_placed (h : Forall₂ (Stands m) es is)
    (ht : ∀ q < m, (table q).IsWhole (ζ q)) (hp : ∀ i ∈ is, Proper p (i.qubits.map ζ)) (hd : d.Open p a) :
    ∃ d' new a', Change.perform ((es.map (Entry.placed table)).forM fun e => applyNamed e.gate e.operands) d =
        (.ok (), d') ∧ d'.Open p a' ∧ d'.log = d.log ++ new.toArray ∧
      Forall₂ (Stands p) new (is.map fun i => i.snapped.onQubits (placesOf p ζ)) := by
  obtain ⟨d', new, hr, ho, -, hl, hn⟩ := carries_placed h ht hp d a hd
  rw [flatMap_kept_moved h hp] at hn
  exact ⟨d', new, _, hr, ho, hl, hn⟩

/-- **The first entry that does not fit is refused**, and what was added before it stays. -/
theorem exists_perform_refused (h : Forall₂ (Stands m) es is)
    (he : Stands m e i) (ht : ∀ q < m, (table q).IsWhole (ζ q))
    (hp : ∀ i ∈ is, Proper p (i.qubits.map ζ)) (hba : ¬ Proper p (i.qubits.map ζ))
    (rest : List (Entry ℝ)) (hd : d.Open p a) : ∃ f d', Change.perform
        ((es.map (Entry.placed table)).forM fun e => applyNamed e.gate e.operands) d = (.ok (), d') ∧
      Change.perform (((es ++ e :: rest).map (Entry.placed table)).forM
        fun e => applyNamed e.gate e.operands) d = (.error f, d') := by
  obtain ⟨d', new, a', hr, ho, -, -⟩ := exists_perform_placed h ht hp hd
  obtain ⟨f, hf⟩ := he.refused_placed (fun q hq => ht q (he.lt q hq)) hba ho
  refine ⟨f, d', hr, ?_⟩
  rw [forM_eq_forM] at hr ⊢
  rw [map_append, forM_append, perform_bind_ok hr, map_cons, forM_cons, perform_bind, hf]

end Run

/-! ### Additions that follow each other -/

/-- A circuit is put on other qubits of a circuit on `p` qubits: different ones for its `m` qubits. -/
structure Embeds (m p : ℕ) (σ : ℕ → ℕ) : Prop where
  lt : ∀ q < m, σ q < p
  injOn : ∀ q < m, ∀ r < m, σ q = σ r → q = r

lemma Embeds.of_le (h : m ≤ p) : Embeds m p id := ⟨fun _ hq => hq.trans_le h, fun _ _ _ _ h => h⟩

lemma Embeds.comp {τ : ℕ → ℕ} (hσ : Embeds m n σ) (hτ : Embeds n p τ) : Embeds m p (τ ∘ σ) where
  lt q hq := hτ.lt _ (hσ.lt q hq)
  injOn q hq r hr h := hσ.injOn q hq r hr (hτ.injOn _ (hσ.lt q hq) _ (hσ.lt r hr) h)

lemma proper_of_injOn (hl : ∀ q ∈ qs, σ q < p) (hi : ∀ q ∈ qs, ∀ r ∈ qs, σ q = σ r → q = r) (hn : qs.Nodup) :
    Proper p (qs.map fun q => (σ q : ℤ)) where
  inRange := forall_mem_map.mpr fun q hq => ⟨by omega, by exact_mod_cast hl q hq⟩
  nodup := by
    rw [map_map]; refine hn.map_on fun q hq r hr h => hi q hq r hr ?_; simpa [placeOf] using h

lemma Embeds.proper (hσ : Embeds m p σ) (hl : ∀ q ∈ qs, q < m)
    (hn : qs.Nodup) : Proper p (qs.map fun q => (σ q : ℤ)) :=
  proper_of_injOn (fun q hq => hσ.lt q (hl q hq)) (fun q hq r hr => hσ.injOn q (hl q hq) r (hl r hr)) hn

lemma placesOf_natCast (p : ℕ) (σ : ℕ → ℕ) : placesOf p (fun q => (σ q : ℤ)) = σ := by
  funext q; simp [placesOf, placeOf]

lemma Embeds.proper_items (hσ : Embeds m p σ) (hes : Forall₂ (Stands m) es is) :
    ∀ i ∈ is, Proper p (i.qubits.map fun q => (σ q : ℤ)) := fun i hi => by
  obtain ⟨e, -, he⟩ := exists_of_forall₂ hes i hi
  exact hσ.proper he.lt he.nodup

lemma Embeds.flatMap_kept (hσ : Embeds m p σ) (he : Forall₂ (Stands m) es is) :
    (is.map fun i => i.snapped.onQubits σ).flatMap Item.kept = is.map fun i => i.snapped.onQubits σ := by
  have hk := flatMap_kept_moved he (hσ.proper_items he)
  rwa [placesOf_natCast] at hk

/-- **A circuit that is put on other qubits** carries out its items there. -/
theorem carries_add (hm : c.numQubits = m) (hc : Forall₂ (Stands m) c.log.toList is) (hx : x.Maps m σ)
    (hσ : Embeds m p σ) : Carries p (add c x) (is.map fun i => i.snapped.onQubits σ) := by
  obtain ⟨xs, hpo, hxs⟩ := hx
  have hlen : xs.length = m := by simpa using hxs.length_eq
  have hi : xs.all Operand.isInt = true := (all_isInt_iff xs).mpr ⟨_, hxs⟩
  have hw : ∀ q < m, (tableOf xs q).IsWhole (σ q) := fun q hq => by
    have hq' := isWhole_tableOf hxs (hlen.symm ▸ hq)
    rwa [getD_eq_getElem?_getD, getElem?_map, getElem?_range hq] at hq'
  have hp := carries_placed hc hw (hσ.proper_items hc)
  rw [placesOf_natCast] at hp
  intro d a hd
  rw [perform_add hpo hm hc hlen hi]
  exact hp d a hd

lemma exists_add_on (hm : c.numQubits = m) (hc : Forall₂ (Stands m) c.log.toList is) (hx : x.Maps m σ)
    (hσ : Embeds m p σ) (hd : d.Open p a) : ∃ d' new a', Change.perform (add c x) d = (.ok (), d') ∧ d'.Open p a' ∧
      d'.log = d.log ++ new.toArray ∧ Forall₂ (Stands p) new (is.map fun i => i.snapped.onQubits σ) := by
  obtain ⟨d', new, hr, ho, -, hl, hn⟩ := carries_add hm hc hx hσ d a hd
  rw [hσ.flatMap_kept hc] at hn
  exact ⟨d', new, _, hr, ho, hl, hn⟩

/-- **What is added is the entry on its new qubits.** -/
theorem sameCall_placed {e' : Entry ℝ} (h : Stands m e i)
    (h' : Stands p e' (i.snapped.onQubits σ)) : (e.placed fun q => .int (σ q)).SameCall e' := by
  have ht : ∀ q ∈ i.qubits, IsIndex p (.int (σ q) : Operand ℝ) (σ q) := fun q hq =>
    ⟨rfl, rfl, h'.lt (σ q) (by simpa using ⟨q, hq, rfl⟩)⟩
  cases i with
  | gate o =>
    have hg := (Entry.Unfolds.read h).gate
    have hr := Entry.Unfolds.recorded_placed h ht
    cases h' with
    | intro _ _ hr' _ =>
      rw [snapped_onQubits, snapped_snapped] at hr'
      refine ⟨hg.trans ?_, hr.sameOperands (hr.gate ▸ hr')⟩
      rw [hr.gate]
  | measure qs | reset qs =>
    obtain ⟨x, k, rfl, hx, -⟩ := h
    obtain ⟨y, k', rfl, hy, -⟩ := h'
    exact ⟨rfl, Item.Stands.sameOperands_qubits (hx.placed_checked ht) hy⟩

/-- **Additions that follow each other compose.**  A circuit that was made by calls is put on qubits of a new
circuit, and this on qubits of a third one.  That adds the same entries, definitions included, as putting it
there at once, and each of them is the entry of the first circuit with its qubits moved.  The first circuit
stays as it is. -/
theorem add_composes {c b d : Circuit ℝ} {is : List Item} {f : Framework} {size : Operand ℝ} {a : ℝ}
    {x y z : Operand ℝ} {σ τ : ℕ → ℕ} (hc : Made m c is) (hf : f.isReference = true)
    (hb : Circuit.new f size = .ok b) (hn : b.numQubits = n) (hd : d.Open p a)
    (hσ : Embeds m n σ) (hτ : Embeds n p τ) (hx : x.Maps m σ) (hy : y.Maps n τ) (hz : z.Maps m (τ ∘ σ)) :
    ∃ b' d₁ d₂ new₁ new₂, b.after (add c x) = .ok b' ∧ d.after (add b' y) = .ok d₁ ∧
      d.after (add c z) = .ok d₂ ∧ d₁.log = d.log ++ new₁.toArray ∧ d₂.log = d.log ++ new₂.toArray ∧
      Entry.sameAll new₁ new₂ = true ∧
      List.Forall₂ (fun e e' => (e.placed fun q => .int (τ (σ q))).SameCall e') c.log.toList new₁ ∧
      List.Forall₂ (fun e e' => (e.placed fun q => .int (τ (σ q))).SameCall e') c.log.toList new₂ ∧
      ∀ (s : Session ℝ) (u v : String), s.circuits.lookup u = some c → s.circuits.lookup v = some d →
        u ≠ v → ∃ s', Change.perform (Session.change v (add c z)) s = (.ok (), s') ∧
          s'.circuits.lookup v = some d₂ ∧ s'.circuits.lookup u = some c := by
  have hl := hc.spec.1
  obtain ⟨hne, -⟩ := lists_new hf hb
  rw [hn] at hne
  obtain ⟨g, ho⟩ := hne.isOpen
  obtain ⟨b', new, g', ha, ho', hlo, hst⟩ := exists_add_on hl.numQubits hl.log hx hσ ho
  have hl' : b'.Lists n ((is.flatMap Item.kept).map fun i => i.snapped.onQubits σ) := by
    refine ⟨⟨g', ho'⟩, ?_⟩
    have hem := forall₂_nil_right_iff.mp hne.log
    simpa [hlo, hem] using hst
  obtain ⟨d₁, new₁, -, ha₁, -, hlo₁, hst₁⟩ := exists_add_on ho'.numQubits hl'.log hy hτ hd
  obtain ⟨d₂, new₂, -, ha₂, -, hlo₂, hst₂⟩ := exists_add_on hl.numQubits hl.log hz (hσ.comp hτ) hd
  -- both additions put the items on the same qubits
  have hco : ((is.flatMap Item.kept).map fun i => i.snapped.onQubits σ).map
      (fun i => i.snapped.onQubits τ) = (is.flatMap Item.kept).map fun i => i.snapped.onQubits (τ ∘ σ) := by
    simp [Item.snapped_snapped, Item.onQubits_onQubits]
  rw [hco] at hst₁
  have hm : ∀ new, Forall₂ (Stands p) new ((is.flatMap Item.kept).map fun i => i.snapped.onQubits (τ ∘ σ)) →
      Forall₂ (fun e e' => (e.placed fun q => .int (τ (σ q))).SameCall e') c.log.toList new := by
    intro new hne
    rw [forall₂_map_right_iff] at hne
    exact forall₂_of_common hl.log hne fun e e' i he he' => sameCall_placed he he'
  refine ⟨b', d₁, d₂, new₁, new₂, by rw [after, ha], by rw [after, ha₁], by rw [after, ha₂], hlo₁,
    hlo₂, ?_, hm _ hst₁, hm _ hst₂, ?_⟩
  · exact Entry.sameAll_iff.mpr (forall₂_of_common hst₁ hst₂ fun _ _ _ h h' => h.same h')
  · intro s u v hu hv huv
    obtain ⟨s', hs', hv', hr⟩ := Session.exists_change hv ha₂
    exact ⟨s', hs', hv', (hr u huv).trans hu⟩

lemma exists_made_cx {s t : ℕ} (hs : s < 2) (ht : t < 2) (hst : s ≠ t) : ∃ c, Made 2 c [.gate (.cx s t)] :=
  @exists_made 2 (by decide) [.cx s t] (forall_mem_singleton.mpr (good_cx hs ht hst).toValid)

/-- A controlled negation that goes to three qubits and from there to four. -/
theorem add_composes_cx : ∃ c b' d₁ d₂ : Circuit ℝ, ∃ new₁ new₂ : List (Entry ℝ), Made 2 c [.gate (.cx 1 0)] ∧
    (sized .reference 3 (.int 3)).after (add c (.list [.int 2, .int 0])) = .ok b' ∧
    (empty .reference 4).after (add b' (.list [.int 3, .int 1, .int 0])) = .ok d₁ ∧
    (empty .reference 4).after (add c (.list [.int 0, .int 3])) = .ok d₂ ∧
    d₁.log = new₁.toArray ∧ d₂.log = new₂.toArray ∧ Entry.sameAll new₁ new₂ = true := by
  obtain ⟨c, hc⟩ := exists_made_cx (s := 1) (t := 0) (by decide) (by decide) (by decide)
  let σ : ℕ → ℕ := fun q => if q = 0 then 2 else 0
  let τ : ℕ → ℕ := fun q => if q = 0 then 3 else if q = 1 then 1 else 0
  have hi (k : ℕ) : IsWhole (.int k : Operand ℝ) k := ⟨rfl, rfl⟩
  obtain ⟨b', d₁, d₂, new₁, new₂, hb', hd₁, hd₂, hl₁, hl₂, hs, -⟩ :=
    add_composes (n := 3) (σ := σ) (τ := τ) hc rfl (new_int .reference three_pos) rfl (open_empty 4)
      ⟨by decide, by decide⟩ ⟨by decide, by decide⟩
      (x := .list [.int 2, .int 0]) ⟨_, ⟨rfl, rfl⟩, .cons (hi 2) (.cons (hi 0) .nil)⟩
      (y := .list [.int 3, .int 1, .int 0])
      ⟨_, ⟨rfl, rfl⟩, .cons (hi 3) (.cons (hi 1) (.cons (hi 0) .nil))⟩
      (z := .list [.int 0, .int 3]) ⟨_, ⟨rfl, rfl⟩, .cons (hi 0) (.cons (hi 3) .nil)⟩
  exact ⟨c, b', d₁, d₂, new₁, new₂, hc, hb', hd₁, hd₂, by simpa [empty] using hl₁,
    by simpa [empty] using hl₂, hs⟩

/-! ### Parts of a log -/

/-- **A circuit that is added on its own qubits** adds its items. -/
theorem Lists.exists_add {js : List Item} (hx : x.HasItems ((range n).map fun q : ℕ => .int q))
    (hc : c.Lists n is) (hd : d.Lists n js) :
    ∃ c', c.after (add d x) = .ok c' ∧ c'.Lists n (is ++ js.map Item.snapped) := by
  obtain ⟨c', hr, hl, -⟩ := hc.exists_perform (carries_add hd.numQubits hd.log hx.maps (.of_le le_rfl))
  refine ⟨c', by rw [after, hr], ?_⟩
  rw [(Embeds.of_le le_rfl).flatMap_kept hd.log] at hl
  simpa only [Item.onQubits_id (σ := id) fun _ _ => rfl] using hl

/-- **Replays keep the calls of a circuit that was built by calls.**  A replay goes through and leaves the
same gates with the same operands, a second one changes neither the log, definitions included, nor the
primitives, and the log can be cut in two anywhere and put together again. -/
theorem update_keeps_calls {c : Circuit ℝ} {is : List Item} (h : Made n c is) :
    ∃ c', c.after update = .ok c' ∧ List.Forall₂ Entry.SameCall c.log.toList c'.log.toList ∧
      (∃ c'', c'.after update = .ok c'' ∧ c'.sameLog c'' = true ∧ c''.steps = c'.steps) ∧
      ∀ (k : ℤ) (x : Operand ℝ), x.HasItems ((List.range n).map fun q : ℕ => .int q) →
        ∃ a c₁ b c₂ d, Change.perform (select (.slice ⟨none, some k, none⟩)) c = (.ok a, c₁) ∧
          Change.perform (select (.slice ⟨some k, none, none⟩)) c₁ = (.ok b, c₂) ∧
          a.after (add b x) = .ok d ∧ List.Forall₂ Entry.SameCall c.log.toList d.log.toList := by
  have hl := h.spec.1
  obtain ⟨c', hu, hl', hst⟩ := hl.exists_update
  obtain ⟨c'', hu', hl'', hst'⟩ := hl'.exists_update
  have hs : ∀ is : List Item, (is.map Item.snapped).map Item.snapped = is.map Item.snapped :=
    fun is => by simp [Item.snapped_snapped]
  refine ⟨c', hu, hl.sameCalls hl' (hs _), ⟨c'', hu', ?_, ?_⟩, fun k x hx => ?_⟩
  · rw [hs] at hl''; exact hl'.sameLog hl''
  · rw [hst', hst, flatMap_map]; simp [Item.snapped_snapped]
  · obtain ⟨m, a, c₁, b, c₂, hfi, hse, ha, hb⟩ := hl.exists_parts k
    obtain ⟨d, had, hd⟩ := ha.exists_add hx hb
    refine ⟨a, c₁, b, c₂, d, hfi, hse, had, hl.sameCalls hd ?_⟩
    rw [map_append, hs, hs, hs, ← map_append, take_append_drop]

open Real in
/-- Rotations that are selected among a full turn, which counts as zero, and another angle, under a control
state. -/
theorem update_keeps_calls_selected : ∃ c : Circuit ℝ,
    Made 2 c [.gate (.on .x [0]), .gate (selectedTurn (2 * π * (1 : ℤ)) 1), .gate (.on .x [0])] ∧
    c.log.size = 3 ∧ ∃ c', c.after update = .ok c' ∧ List.Forall₂ Entry.SameCall c.log.toList c'.log.toList ∧
      (∃ c'', c'.after update = .ok c'' ∧ c'.sameLog c'' = true ∧ c''.steps = c'.steps) ∧
      ∃ a c₁ b c₂ d, Change.perform (select (.slice ⟨none, some (-1), none⟩)) c = (.ok a, c₁) ∧
        Change.perform (select (.slice ⟨some (-1), none, none⟩)) c₁ = (.ok b, c₂) ∧
        a.after (add b (.list [.int 0, .int 1])) = .ok d ∧
        List.Forall₂ Entry.SameCall c.log.toList d.log.toList := by
  have hv := (good_selectedTurn (2 * π * (1 : ℤ)) 1).toValid
  have hd := denotes_selectedTurn (2 * π * (1 : ℤ)) 1
  obtain ⟨c, -, hm⟩ := (made_sized two_pos).exists_call (bind_state hd rfl (stateText [false]))
    (.selected hd hv rfl)
  have hsi := hm.spec.1.log.length_eq
  obtain ⟨c', hu, hca, hs, hp⟩ := update_keeps_calls hm
  refine ⟨c, hm, hsi.trans ?_, c', hu, hca, hs, hp (-1) _ rfl⟩
  have hfl : (on .x [0]).kept = [.on .x [0]] :=
    kept_of_isKept (valid_flips (n := 2) (by simp) (by simp)) rfl
  have hse := kept_of_isKept hv (isKept_selectedTurn 1)
  change (flatMap Item.kept [.gate (.on .x [0]), .gate (selectedTurn (2 * π * (1 : ℤ)) 1),
    .gate (.on .x [0])]).length = 3
  simp only [flatMap_cons, Item.kept, hfl, hse]
  rfl

/-! ### Additions that are refused -/

lemma exists_first {β γ : Type} {R : β → γ → Prop} {P : γ → Prop} {bs : List β} {cs : List γ}
    (h : Forall₂ R bs cs) (hba : ¬ ∀ c ∈ cs, P c) :
    ∃ bs₁ b bs₂ cs₁ c, bs = bs₁ ++ b :: bs₂ ∧ Forall₂ R bs₁ cs₁ ∧ R b c ∧ (∀ c ∈ cs₁, P c) ∧ ¬ P c := by
  induction h with
  | nil => simp at hba
  | @cons b c bs cs hb _ ih =>
    by_cases hc : P c
    · obtain ⟨bs₁, b', bs₂, cs₁, c', rfl, hbs, hb', hcs, hc'⟩ := ih fun hcs =>
        hba (forall_mem_cons.mpr ⟨hc, hcs⟩)
      exact ⟨b :: bs₁, b', bs₂, c :: cs₁, c', rfl, .cons hb hbs, hb', forall_mem_cons.mpr ⟨hc, hcs⟩, hc'⟩
    · exact ⟨[], b, bs, [], c, rfl, .nil, hb, by simp, hc⟩

lemma qubits_of_stands (h : Stands m e i) : Forall₂ (IsIndex m) e.qubits i.qubits := by
  obtain ⟨g, slots, hr, hq⟩ := h.read
  change Forall₂ _ ((e.operands.filter fun x => x.1.isQubit).flatMap fun x => x.2.indices) _
  rw [← hq]
  have ho := hr.operands
  clear hr hq
  generalize e.operands = operands at ho ⊢
  induction ho with
  | nil => exact .nil
  | @cons s x slots operands hx _ ih =>
    obtain ⟨k, x⟩ := x
    obtain ⟨hfi, hx⟩ := hx
    rw [flatMap_cons]
    cases s with
    | qubit q =>
      rw [filter_cons_of_pos (p := fun x : Key × Operand ℝ => x.1.isQubit) hfi, flatMap_cons,
        Operand.IsIndex.indices hx]
      exact .cons hx ih
    | qubits qs =>
      rw [filter_cons_of_pos (p := fun x : Key × Operand ℝ => x.1.isQubit) hfi, flatMap_cons]
      exact rel_append (Operand.IsChecked.indices hx) ih
    | word s => exact hfi.elim
    | _ =>
      rw [filter_cons_of_neg (by simp [hfi.2])]
      exact ih

lemma wholes_of_stands (h : Stands m e i) (zs : List ℤ) : e.wholes zs = i.qubits.map fun q => zs.getD q 0 := by
  have hq := qubits_of_stands h
  rw [Entry.wholes]
  generalize e.qubits = xs at hq ⊢
  generalize i.qubits = qs at hq ⊢
  induction hq with
  | nil => rfl
  | cons hx _ ih => rw [map_cons, map_cons, ih, hx.toInt?]; rfl

lemma joins_of_stands (h : Stands m e i) (q r : ℕ) : e.Joins q r ↔ q ∈ i.qubits ∧ r ∈ i.qubits := by
  have hm : ∀ q : ℕ, (∃ x ∈ e.qubits, x.toInt? = some (q : ℤ)) ↔ q ∈ i.qubits := fun q => by
    have hqs := qubits_of_stands h
    constructor
    · rintro ⟨x, hx, hq⟩
      obtain ⟨r, hr, hi⟩ := exists_of_forall₂ hqs.flip x hx
      have hqr : (r : ℤ) = q := Option.some.inj (hi.toInt?.symm.trans hq)
      exact (by exact_mod_cast hqr : r = q) ▸ hr
    · intro hq; obtain ⟨x, hx, hi⟩ := exists_of_forall₂ hqs q hq; exact ⟨x, hx, hi.toInt?⟩
  rw [← hm, ← hm]
  exact ⟨fun ⟨x, hx, y, hy, hq, hr⟩ => ⟨⟨x, hx, hq⟩, y, hy, hr⟩, fun ⟨⟨x, hx, hq⟩, y, hy, hr⟩ => ⟨x, hx, y, hy, hq, hr⟩⟩

/-- Every two qubits, and every single one, are among the qubits of some entry. -/
def Ties (m : ℕ) (c : Circuit ℝ) : Prop := ∀ i < m, ∀ j < m, ∃ e ∈ c.log.toList, e.Joins i j

/-- The positions are as many as there are qubits, and name different qubits of a circuit on `p` qubits. -/
def NameApart (m p : ℕ) (xs : List (Operand ℝ)) : Prop := xs.length = m ∧ ∃ zs, Forall₂ IsWhole xs zs ∧ Proper p zs

def Takes (d c : Circuit ℝ) (x : Operand ℝ) : Prop := ∃ d', d.after (add c x) = .ok d'

section Takes

variable {c d : Circuit ℝ} {is : List Item} {a : ℝ} {x : Operand ℝ} {xs : List (Operand ℝ)}

lemma add_cases (hc : c.Lists m is) (hd : d.Open p a) (hx : x.Positions xs) :
    (¬ (xs.all Operand.isInt = true ∧ xs.length = m) ∧ ∃ f, Change.perform (add c x) d = (.error f, d)) ∨
    ∃ zs, Forall₂ IsWhole xs zs ∧ xs.length = m ∧ (((∀ e ∈ c.log.toList, Proper p (e.wholes zs)) ∧ d.Takes c x) ∨
        ∃ es e rest new f d', c.log.toList = es ++ e :: rest ∧ (∀ e ∈ es, Proper p (e.wholes zs)) ∧
          ¬ Proper p (e.wholes zs) ∧ Change.perform (add c x) d = (.error f, d') ∧
          d'.log = d.log ++ new.toArray ∧ (es = [] → d' = d) ∧ Forall₂ (fun e e' =>
            (e.placed fun q => .int (placeOf p (zs.getD q 0))).SameCall e') es new) := by
  obtain ⟨g, ho⟩ := hc.isOpen
  by_cases hch : xs.all Operand.isInt = true ∧ xs.length = m
  swap
  · exact .inl ⟨hch, perform_add_refused hx (by rwa [ho.numQubits]) d⟩
  obtain ⟨hin, hlen⟩ := hch
  obtain ⟨zs, hzs⟩ := (all_isInt_iff xs).mp hin
  refine .inr ⟨zs, hzs, hlen, ?_⟩
  have ht : ∀ q < m, (tableOf xs q).IsWhole (zs.getD q 0) := fun q hq =>
    isWhole_tableOf hzs (hlen.symm ▸ hq)
  have hpe := perform_add hx ho.numQubits hc.log hlen hin d
  have hen : ∀ {es : List (Entry ℝ)} {is : List Item}, Forall₂ (Stands m) es is →
      (∀ i ∈ is, Proper p (i.qubits.map fun q => zs.getD q 0)) → ∀ e ∈ es, Proper p (e.wholes zs) := by
    intro es is h hp
    exact forall_mem_of_forall₂ h fun e i hi he => (wholes_of_stands he zs).symm ▸ hp i hi
  by_cases hp : ∀ i ∈ is, Proper p (i.qubits.map fun q => zs.getD q 0)
  · obtain ⟨d', new, a', hr, -, -, -⟩ := exists_perform_placed hc.log ht hp hd
    exact .inl ⟨hen hc.log hp, d', by rw [after, hpe, hr]⟩
  · obtain ⟨es, e, rest, js, i, hl, hes, he, hj, hba⟩ := exists_first hc.log hp
    obtain ⟨f, d', hr, hre⟩ := exists_perform_refused hes he ht hj hba rest hd
    obtain ⟨d'', new, a', hr', -, hl', hn⟩ := exists_perform_placed hes ht hj hd
    obtain rfl : d' = d'' := congrArg Prod.snd (hr.symm.trans hr')
    refine .inr ⟨es, e, rest, new, f, d', hl, hen hes hj, wholes_of_stands he zs ▸ hba,
      by rw [hpe, hl, hre], hl', ?_, ?_⟩
    · rintro rfl; exact (congrArg Prod.snd hr).symm
    · rw [forall₂_map_right_iff] at hn
      exact forall₂_of_common hes hn fun e e' i he he' => sameCall_placed he he'

lemma isWhole_unique {zs' : List ℤ} (h : Forall₂ IsWhole xs zs) (h' : Forall₂ IsWhole xs zs') : zs = zs' := by
  refine forall₂_eq_eq_eq ▸ forall₂_of_common h.flip h'.flip fun z z' x hz hz' => ?_
  exact Option.some.inj (hz.toInt?.symm.trans hz'.toInt?)

/-- **An addition goes through exactly if every entry fits its new qubits.** -/
theorem takes_iff (hc : c.Lists m is) (hd : d.Open p a) (hx : x.Positions xs) : d.Takes c x ↔
    xs.length = m ∧ ∃ zs, Forall₂ IsWhole xs zs ∧ ∀ e ∈ c.log.toList, Proper p (e.wholes zs) := by
  have hfa : ∀ {f d'}, Change.perform (add c x) d = (.error f, d') → ¬ d.Takes c x := by
    rintro f d' h ⟨d'', h'⟩; rw [after, h] at h'; cases h'
  rcases add_cases hc hd hx with ⟨hch, f, hf⟩ | ⟨zs, hzs, hlen, hfi | hr⟩
  · refine iff_of_false (hfa hf) ?_
    rintro ⟨hlen, zs, hzs, -⟩
    exact hch ⟨(all_isInt_iff xs).mpr ⟨zs, hzs⟩, hlen⟩
  · exact iff_of_true hfi.2 ⟨hlen, zs, hzs, hfi.1⟩
  · obtain ⟨es, e, rest, new, f, d', hl, -, hba, hf, -⟩ := hr
    refine iff_of_false (hfa hf) ?_
    rintro ⟨-, zs', hzs', hp⟩
    rw [isWhole_unique hzs' hzs] at hp
    exact hba (hp e (by simp [hl]))

lemma proper_iff (zs : List ℤ) : Proper p zs ↔ (∀ q < zs.length, InRange p (zs.getD q 0)) ∧
    ∀ q < zs.length, ∀ r < zs.length, placeOf p (zs.getD q 0) = placeOf p (zs.getD r 0) → q = r := by
  have hg : ∀ q (hq : q < zs.length), zs.getD q 0 = zs[q] := fun q hq => getD_eq_getElem zs 0 hq
  constructor
  · rintro ⟨hra, hn⟩
    refine ⟨fun q hq => hg q hq ▸ hra _ (getElem_mem hq), fun q hq r hr h => ?_⟩
    rw [hg q hq, hg r hr] at h
    have hq' : q < (zs.map (placeOf p)).length := by simpa using hq
    have hr' : r < (zs.map (placeOf p)).length := by simpa using hr
    have hi := nodup_iff_injective_getElem.mp hn
    exact congrArg Fin.val (@hi ⟨q, hq'⟩ ⟨r, hr'⟩ (by simpa using h))
  · rintro ⟨hra, hi⟩
    refine ⟨fun z hz => ?_, nodup_iff_injective_getElem.mpr fun q r h => ?_⟩
    · obtain ⟨q, hq, rfl⟩ := getElem_of_mem hz; exact hg q hq ▸ hra q hq
    · have hq : q.1 < zs.length := by simpa using q.2
      have hr : r.1 < zs.length := by simpa using r.2
      refine Fin.ext (hi q hq r hr ?_)
      rw [hg q hq, hg r hr]
      simpa using h

lemma Proper.wholes (h : Proper p zs) (hlen : zs.length = m) (he : Stands m e i) : Proper p (e.wholes zs) := by
  subst hlen
  obtain ⟨hra, hi⟩ := (proper_iff zs).mp h
  rw [wholes_of_stands he]
  refine ⟨forall_mem_map.mpr fun q hq => hra q (he.lt q hq), ?_⟩
  rw [map_map]
  exact he.nodup.map_on fun q hq r hr h => hi q (he.lt q hq) r (he.lt r hr) h

lemma Ties.proper (h : c.Ties m) (hc : c.Lists m is) (hlen : zs.length = m)
    (hzs : ∀ e ∈ c.log.toList, Proper p (e.wholes zs)) : Proper p zs := by
  subst hlen
  have hm : ∀ q < zs.length, ∀ r < zs.length, ∃ i : Item, q ∈ i.qubits ∧ r ∈ i.qubits ∧
      Proper p (i.qubits.map fun q => zs.getD q 0) := by
    intro q hq r hr
    obtain ⟨e, he, hj⟩ := h q hq r hr
    obtain ⟨i, -, hs⟩ := exists_of_forall₂ hc.log.flip e he
    obtain ⟨hqi, hri⟩ := (joins_of_stands hs q r).mp hj
    exact ⟨i, hqi, hri, wholes_of_stands hs zs ▸ hzs e he⟩
  refine (proper_iff zs).mpr ⟨fun q hq => ?_, fun q hq r hr heq => ?_⟩
  · obtain ⟨i, hqi, -, hp⟩ := hm q hq q hq; exact hp.inRange _ (mem_map_of_mem hqi)
  · obtain ⟨i, hqi, hri, hp⟩ := hm q hq r hr
    have hn := hp.nodup
    rw [map_map] at hn
    exact inj_on_of_nodup_map hn hqi hri heq

lemma exists_of_not_ties (h : ¬ c.Ties m) (hc : c.Lists m is) (hmp : m ≤ p) :
    ∃ zs : List ℤ, zs.length = m ∧ ¬ Proper p zs ∧ ∀ e ∈ c.log.toList, Proper p (e.wholes zs) := by
  simp only [Ties, not_forall, not_exists, not_and] at h
  obtain ⟨i, hi, j, hj, ha⟩ := h
  -- the first of the two is put on the second, or out of range if it is the second
  let ζ : ℕ → ℤ := fun q => if q = i then if i = j then (p : ℤ) else j else q
  have hg : ∀ q < m, ((range m).map ζ).getD q 0 = ζ q := fun q hq => by
    rw [getD_eq_getElem?_getD, getElem?_map, getElem?_range hq]; rfl
  refine ⟨(range m).map ζ, by simp, fun hp => ?_, fun e he => ?_⟩
  · obtain ⟨hra, hin⟩ := (proper_iff _).mp hp
    simp only [length_map, length_range] at hra hin
    by_cases hij : i = j
    · have ho := hra i hi
      rw [hg i hi] at ho
      simp [ζ, hij, InRange] at ho
    · exact hij (hin i hi j hj (by rw [hg i hi, hg j hj]; simp [ζ, hij]))
  · obtain ⟨k, -, hk⟩ := exists_of_forall₂ hc.log.flip e he
    have hk : Stands m e k := hk
    have hjo := ha e he
    rw [joins_of_stands hk, not_and] at hjo
    -- on the qubits of one entry, nothing is put on another one of them
    have hm : e.wholes ((range m).map ζ) = k.qubits.map fun q => ((if q = i then j else q : ℕ) : ℤ) := by
      rw [wholes_of_stands hk]
      refine map_congr_left fun q hq => (hg q (hk.lt q hq)).trans ?_
      by_cases hqi : q = i
      · have hij : i ≠ j := fun h => hjo (hqi ▸ hq) (h ▸ hqi ▸ hq)
        simp [ζ, hqi, hij]
      · simp [ζ, hqi]
    rw [hm]
    refine proper_of_injOn (fun q hq => ?_) (fun q hq r hr h => ?_) hk.nodup
    · have hqm := hk.lt q hq
      split <;> omega
    · split at h <;> split at h <;> subst_vars <;> first | rfl | exact absurd ‹_› (hjo ‹_›)

/-- **Which additions go through.**  They are those that put the qubits of every entry on different qubits.
All those that name different qubits are among them, and no others exactly if every two qubits of the circuit
that is added meet in an entry.  What is refused before the first entry changes nothing, and what is refused at
a later one has added those before it. -/
theorem add_goes_through_iff (hc : Made m c is) (hd : d.Open p a) :
    (∀ x xs, Operand.Positions x xs → (d.Takes c x ↔ xs.length = m ∧
      ∃ zs, List.Forall₂ IsWhole xs zs ∧ ∀ e ∈ c.log.toList, Proper p (e.wholes zs))) ∧
    (∀ x xs, Operand.Positions x xs → NameApart m p xs → d.Takes c x) ∧
    (c.Ties m → ∀ x xs, Operand.Positions x xs → (d.Takes c x ↔ NameApart m p xs)) ∧
    (m ≤ p → (∀ x xs, Operand.Positions x xs → (d.Takes c x ↔ NameApart m p xs)) → c.Ties m) ∧
    ∀ x xs f d', Operand.Positions x xs → Change.perform (add c x) d = (.error f, d') → d' = d ∨
      ∃ zs es e rest new, List.Forall₂ IsWhole xs zs ∧ c.log.toList = es ++ e :: rest ∧ es ≠ [] ∧
        (∀ e ∈ es, Proper p (e.wholes zs)) ∧ ¬ Proper p (e.wholes zs) ∧ d'.log = d.log ++ new.toArray ∧
        List.Forall₂ (fun e e' => (e.placed fun q => .int (placeOf p (zs.getD q 0))).SameCall e') es new := by
  have hl := hc.spec.1
  have ha : ∀ {xs zs}, xs.length = m → Forall₂ IsWhole xs zs → Proper p zs →
      ∀ e ∈ c.log.toList, Proper p (e.wholes zs) := by
    intro xs zs hlen hzs hp
    exact forall_mem_of_forall₂ hl.log fun e i _ he =>
      Proper.wholes hp (hzs.length_eq.symm.trans hlen) he
  refine ⟨fun x xs hx => takes_iff hl hd hx, ?_, ?_, ?_, ?_⟩
  · rintro x xs hx ⟨hlen, zs, hzs, hp⟩
    exact (takes_iff hl hd hx).mpr ⟨hlen, zs, hzs, ha hlen hzs hp⟩
  · intro ht x xs hx
    rw [takes_iff hl hd hx]
    refine and_congr_right fun hlen => exists_congr fun zs => and_congr_right fun hzs => ?_
    exact ⟨ht.proper hl (hzs.length_eq.symm.trans hlen), ha hlen hzs⟩
  · intro hm hi
    by_contra ht
    obtain ⟨zs, hlen, hba, hfi⟩ := exists_of_not_ties ht hl hm
    have hzs : Forall₂ IsWhole (zs.map Operand.int) zs := by
      rw [forall₂_map_left_iff]; exact forall₂_same.mpr fun z _ => Operand.isWhole_int z
    have hx : (Operand.list (zs.map Operand.int)).Positions (zs.map Operand.int) := ⟨rfl, rfl⟩
    have hta := (takes_iff hl hd hx).mpr ⟨by simpa using hlen, zs, hzs, hfi⟩
    obtain ⟨-, zs', hzs', hp⟩ := (hi _ _ hx).mp hta
    exact hba (isWhole_unique hzs' hzs ▸ hp)
  · intro x xs f d' hx hfa
    rcases add_cases hl hd hx with ⟨-, f', hf'⟩ | ⟨zs, hzs, hlen, ⟨-, d'', ho⟩ | hr⟩
    · exact .inl (congrArg Prod.snd (hfa.symm.trans hf'))
    · rw [after, hfa] at ho; cases ho
    · obtain ⟨es, e, rest, new, f', d'', hlo, hes, hba, hf', hlo', hn, hne⟩ := hr
      obtain rfl : d' = d'' := congrArg Prod.snd (hfa.symm.trans hf')
      by_cases hem : es = []
      · exact .inl (hn hem)
      · exact .inr ⟨zs, es, e, rest, new, hzs, hlo, hem, hes, hba, hlo', hne⟩

/-- A controlled negation is added to different qubits only. -/
theorem add_goes_through_iff_cx : ∃ c : Circuit ℝ, Made 2 c [.gate (.cx 0 1)] ∧ ∀ z w : ℤ,
    ((empty .reference 3).Takes c (.list [.int z, .int w]) ↔ Proper 3 [z, w]) := by
  obtain ⟨c, hc⟩ := exists_made_cx (s := 0) (t := 1) (by decide) (by decide) (by decide)
  refine ⟨c, hc, fun z w => ?_⟩
  have ht : c.Ties 2 := by
    have hse : (cx 0 1).kept = [.cx 0 1] :=
      kept_of_isKept (good_cx (n := 2) (by decide) (by decide) (by decide)).toValid rfl
    have hl := hc.spec.1.log
    simp only [flatMap_cons, flatMap_nil, Item.kept, hse] at hl
    obtain ⟨e, he, hs⟩ := exists_of_forall₂ hl (.gate (.cx 0 1)) (by simp)
    intro i hi j hj
    refine ⟨e, he, (joins_of_stands hs i j).mpr ?_⟩
    have hm : ∀ q < 2, q ∈ (Item.gate (.cx 0 1)).qubits := by decide
    exact ⟨hm i hi, hm j hj⟩
  have hzs : Forall₂ IsWhole [(.int z : Operand ℝ), .int w] [z, w] :=
    .cons (Operand.isWhole_int z) (.cons (Operand.isWhole_int w) .nil)
  rw [(add_goes_through_iff hc (open_empty 3)).2.2.1 ht (.list [.int z, .int w]) _ ⟨rfl, rfl⟩]
  refine ⟨?_, fun h => ⟨rfl, _, hzs, h⟩⟩
  rintro ⟨-, zs, hzs', hp⟩
  exact isWhole_unique hzs' hzs ▸ hp

lemma exists_made_flips : ∃ c e₁ e₂, Made 2 c [.gate (.on .x [0]), .gate (.on .x [1])] ∧
    c.Lists 2 [.gate (.on .x [0]), .gate (.on .x [1])] ∧ c.log.toList = [e₁, e₂] ∧
    Stands 2 e₁ (.gate (.on .x [0])) ∧ Stands 2 e₂ (.gate (.on .x [1])) := by
  have hv : ∀ q < 2, (on .x [q]).Valid 2 := fun q hq =>
    valid_flips (by simp) (by simpa using hq)
  obtain ⟨c, hm⟩ : ∃ c, Made 2 c ([.on .x [0], .on .x [1]].map .gate) :=
    exists_made (by decide) (by simpa using ⟨hv 0 (by decide), hv 1 (by decide)⟩)
  have hl : c.Lists 2 [.gate (.on .x [0]), .gate (.on .x [1])] := by
    have hs : ∀ q < 2, (on .x [q]).kept = [.on .x [q]] := fun q hq =>
      kept_of_isKept (hv q hq) rfl
    simpa [Item.kept, hs] using hm.spec.1
  obtain ⟨e₁, es, he₁, hr, hes⟩ := forall₂_cons_right_iff.mp hl.log
  obtain ⟨e₂, es', he₂, hn, hes'⟩ := forall₂_cons_right_iff.mp hr
  rw [hes', forall₂_nil_right_iff.mp hn] at hes
  exact ⟨c, e₁, e₂, hm, hl, hes, he₁, he₂⟩

/-- **Two negations of different qubits** may be added to one qubit, and where the second one has no qubit
the first one stays. -/
theorem not_add_refuses_equal : ∃ c : Circuit ℝ, Made 2 c [.gate (.on .x [0]), .gate (.on .x [1])] ∧
    (empty .reference 2).Takes c (.list [.int 0, .int 0]) ∧ ¬ NameApart 2 2 [.int 0, .int 0] ∧
    ∃ f d', Change.perform (add c (.list [.int 0, .int 2])) (empty .reference 2) = (.error f, d') ∧
      d'.log.size = 1 := by
  obtain ⟨c, e₁, e₂, hm, hli, hl, he₁, he₂⟩ := exists_made_flips
  have hzs : ∀ z w : ℤ, Forall₂ IsWhole [(.int z : Operand ℝ), .int w] [z, w] := fun z w =>
    .cons (Operand.isWhole_int z) (.cons (Operand.isWhole_int w) .nil)
  have hp : ∀ z : ℤ, Proper 2 [z] ↔ InRange 2 z := fun z =>
    ⟨fun h => h.inRange z (by simp), fun h => ⟨by simpa using h, by simp⟩⟩
  have hfi : ∀ z w : ℤ, e₁.wholes [z, w] = [z] := fun z w => wholes_of_stands he₁ _
  have hse : ∀ z w : ℤ, e₂.wholes [z, w] = [w] := fun z w => wholes_of_stands he₂ _
  have ho : ¬ Proper 2 (e₂.wholes [0, 2]) := by simp [hse, hp, InRange]
  have hpo : ∀ z w : ℤ, Operand.Positions (.list [.int z, .int w] : Operand ℝ) [.int z, .int w] :=
    fun z w => ⟨rfl, rfl⟩
  refine ⟨c, hm, (takes_iff hli (open_empty 2) (hpo 0 0)).mpr
    ⟨rfl, _, hzs 0 0, by simp [hl, hfi, hse, hp, InRange]⟩, ?_, ?_⟩
  · rintro ⟨-, zs, hzs', h⟩
    have hn := (isWhole_unique hzs' (hzs 0 0) ▸ h).nodup
    simp at hn
  · rcases add_cases hli (open_empty 2) (hpo 0 2) with ⟨hch, -⟩ | ⟨zs, hzs', -, ⟨hft, -⟩ | hr⟩
    · exact absurd ⟨rfl, rfl⟩ hch
    · obtain rfl := isWhole_unique hzs' (hzs 0 2); exact absurd (hft e₂ (by simp [hl])) ho
    · obtain ⟨es, e, rest, new, f, d', hs, hes, hba, hfa, hl', -, hne⟩ := hr
      obtain rfl := isWhole_unique hzs' (hzs 0 2)
      refine ⟨f, d', hfa, ?_⟩
      have hon : es.length = 1 := by
        rw [hl] at hs
        rcases es with _ | ⟨e', _ | ⟨e'', es⟩⟩
        · obtain ⟨rfl, -⟩ := cons.inj hs; simp [hfi, hp, InRange] at hba
        · rfl
        · obtain ⟨-, h⟩ := cons.inj hs
          obtain ⟨rfl, -⟩ := cons.inj h
          exact absurd (hes e₂ (by simp)) ho
      simpa [hl', hon, empty] using hne.length_eq.symm

end Takes

end Circuit

end QuantumCircuits
