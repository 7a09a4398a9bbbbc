import QuantumCircuits.Proofs.Log.Indices

/-!
# Log — Moved

Entries whose qubits are looked up in a table.  `Entry.placed` puts what a table gives for a qubit in the
place of the qubit, in every qubit operand of an entry, and `Operation.onQubits` does the same to the
operation that the entry stands for.

The table may give any whole numbers.  Where these name different qubits of a circuit on `p` qubits
(`Proper`), the entry goes through there and is logged as the moved operation (`Item.Stands.carries_placed`).
Where they do not, it is refused by its checks, and nothing changes (`Item.Stands.refused_placed`): what is
in a log turns by an angle that is not zero, so that its qubits are looked at.
-/

namespace QuantumCircuits

open List Operation Entry

open Operand (IsIndex IsChecked)

variable {m p : ℕ} {table : ℕ → Operand ℝ}
variable {e : Entry ℝ} {i : Item} {g : Gate} {xs : List (Operand ℝ)} {o : Operation} {f : Fault} {ss : List Slot}
  {c : Circuit ℝ} {a : ℝ}

/-! ### Operations on other qubits -/

def Slot.onQubits (σ : ℕ → ℕ) : Slot → Slot
  | .qubit q => .qubit (σ q)
  | .qubits qs => .qubits (qs.map σ)
  | s => s

namespace Operation

def onQubits (σ : ℕ → ℕ) : Operation → Operation
  | .identity ts => .identity (ts.map σ)
  | .of b r ps cs ts => .of b r ps (cs.map σ) (ts.map σ)
  | .ucr axis angles cs t => .ucr axis angles (cs.map σ) (σ t)
  | .pauliMultiplexor axis angles cs t => .pauliMultiplexor axis angles (cs.map σ) (σ t)
  | .diagonal zs qs => .diagonal zs (qs.map σ)
  | .globalPhase a => .globalPhase a

variable {σ τ : ℕ → ℕ} {o : Operation}

@[simp]
lemma qubits_onQubits (σ : ℕ → ℕ) (o : Operation) : (o.onQubits σ).qubits = o.qubits.map σ := by
  cases o <;> simp [onQubits, qubits]

@[simp]
lemma snapped_onQubits (σ : ℕ → ℕ) (o : Operation) : (o.onQubits σ).snapped = o.snapped.onQubits σ := by
  cases o <;> rfl

@[simp]
lemma isKept_onQubits (σ : ℕ → ℕ) (o : Operation) : (o.onQubits σ).isKept = o.isKept := by
  cases o <;> rfl

lemma onQubits_onQubits (σ τ : ℕ → ℕ) (o : Operation) : (o.onQubits σ).onQubits τ = o.onQubits (τ ∘ σ) := by
  cases o <;> simp [onQubits]

lemma onQubits_congr (h : ∀ q ∈ o.qubits, σ q = τ q) : o.onQubits σ = o.onQubits τ := by
  have hm : ∀ {qs : List ℕ}, (∀ q ∈ qs, q ∈ o.qubits) → qs.map σ = qs.map τ := fun hqs =>
    map_congr_left fun q hq => h q (hqs q hq)
  cases o with
  | identity ts => exact congrArg identity (hm fun q hq => hq)
  | diagonal zs qs => exact congrArg (diagonal zs) (hm fun q hq => hq)
  | of b r ps cs ts =>
    simp [onQubits, hm fun q hq => mem_append_left ts hq, hm fun q hq => mem_append_right cs hq]
  | ucr axis angles cs t | pauliMultiplexor axis angles cs t =>
    simp only [onQubits, hm fun q hq => mem_append_left [t] hq, h t (mem_append_right cs (mem_singleton_self t))]
  | globalPhase a => rfl

lemma onQubits_id (h : ∀ q ∈ o.qubits, σ q = q) : o.onQubits σ = o := by
  rw [onQubits_congr h]
  cases o <;> simp [onQubits]

lemma Shaped.onQubits (h : o.Shaped) (σ : ℕ → ℕ) : (o.onQubits σ).Shaped := by
  cases o with
  | of b r ps cs ts =>
    cases r <;> simpa [onQubits, Shaped] using h
  | ucr axis angles cs t | pauliMultiplexor axis angles cs t | diagonal zs qs =>
    simpa [onQubits, Shaped] using h
  | _ => trivial

lemma slots_onQubits (h : o.Shaped) (σ : ℕ → ℕ) : (o.onQubits σ).slots = o.slots.map (Slot.onQubits σ) := by
  cases o with
  | of b r ps cs ts =>
    obtain ⟨-, hcs, hts⟩ := h
    have hp : (b.slots ps).map (Slot.onQubits σ) = b.slots ps := by cases b <;> rfl
    have hct : r.slots (cs.map σ) = (r.slots cs).map (Slot.onQubits σ) := by
      cases r with
      | controlled =>
        obtain ⟨c, rfl⟩ := length_eq_one_iff.mp hcs
        rfl
      | _ => rfl
    have ht : b.targetSlots r (ts.map σ) = (b.targetSlots r ts).map (Slot.onQubits σ) := by
      unfold Base.targetSlots
      split at hts
      · obtain ⟨t, u, rfl⟩ := length_eq_two.mp hts; simp [*, Slot.onQubits]
      · cases r with
        | controlled =>
          obtain ⟨t, rfl⟩ := length_eq_one_iff.mp (hts rfl)
          simp [*, Slot.onQubits]
        | _ => simp [*, Slot.onQubits]
    simp [onQubits, slots, hp, hct, ht]
  | _ => rfl

lemma Valid.onQubits (h : o.Valid m) (hn : (o.qubits.map σ).Nodup) (hl : ∀ q ∈ o.qubits, σ q < p) :
    (o.onQubits σ).Valid p where
  shaped := h.shaped.onQubits σ
  nodup := by rwa [qubits_onQubits]
  lt := by rw [qubits_onQubits]; exact forall_mem_map.mpr hl

lemma Good.onQubits (h : o.Good m) (hn : (o.qubits.map σ).Nodup) (hl : ∀ q ∈ o.qubits, σ q < p) :
    (o.onQubits σ).Good p where
  toValid := h.toValid.onQubits hn hl
  decided := by
    have hd := h.decided
    cases o <;> simpa only [onQubits, turns, length_map] using hd

lemma qubits_snapped (o : Operation) : o.snapped.qubits = o.qubits := by cases o <;> rfl

end Operation

namespace Item

def qubits : Item → List ℕ
  | .gate o => o.qubits
  | .measure qs | .reset qs => qs

def onQubits (σ : ℕ → ℕ) : Item → Item
  | .gate o => .gate (o.onQubits σ)
  | .measure qs => .measure (qs.map σ)
  | .reset qs => .reset (qs.map σ)

variable {σ τ : ℕ → ℕ}

@[simp] lemma qubits_snapped (i : Item) : i.snapped.qubits = i.qubits := by
  cases i with
  | gate o => exact o.qubits_snapped
  | _ => rfl

@[simp]
lemma qubits_onQubits (σ : ℕ → ℕ) (i : Item) : (i.onQubits σ).qubits = i.qubits.map σ := by
  cases i with
  | gate o => exact o.qubits_onQubits σ
  | _ => rfl

@[simp]
lemma snapped_onQubits (σ : ℕ → ℕ) (i : Item) : (i.onQubits σ).snapped = i.snapped.onQubits σ := by
  cases i with
  | gate o => exact congrArg gate (o.snapped_onQubits σ)
  | _ => rfl

lemma onQubits_onQubits (σ τ : ℕ → ℕ) (i : Item) : (i.onQubits σ).onQubits τ = i.onQubits (τ ∘ σ) := by
  cases i with
  | gate o => exact congrArg gate (o.onQubits_onQubits σ τ)
  | _ => simp [onQubits]

lemma onQubits_congr (h : ∀ q ∈ i.qubits, σ q = τ q) : i.onQubits σ = i.onQubits τ := by
  cases i with
  | gate o => exact congrArg gate (onQubits_congr h)
  | measure qs => exact congrArg measure (map_congr_left h)
  | reset qs => exact congrArg reset (map_congr_left h)

lemma onQubits_id (h : ∀ q ∈ i.qubits, σ q = q) : i.onQubits σ = i := by
  cases i with
  | gate o => exact congrArg gate (onQubits_id h)
  | measure qs => exact congrArg measure ((map_congr_left h).trans (map_id' qs))
  | reset qs => exact congrArg reset ((map_congr_left h).trans (map_id' qs))

end Item

/-! ### Entries on other qubits -/

/-- What a table gives for the qubits of an operand. -/
def Operand.placed {α : Type} (table : ℕ → Operand α) : Operand α → Operand α
  | .list xs => .list (xs.map fun x => table (x.toInt?.getD 0).toNat)
  | x => table (x.toInt?.getD 0).toNat

/-- The entry with what a table gives in the place of its qubits. -/
def Entry.placed {α : Type} (table : ℕ → Operand α) (e : Entry α) : Entry α :=
  { e with operands := e.operands.map fun x => if x.1.isQubit then (x.1, x.2.placed table) else x }

lemma Entry.keys_placed {α : Type} (table : ℕ → Operand α) (e : Entry α) :
    (e.placed table).operands.map Prod.fst = e.operands.map Prod.fst := by
  rw [placed, map_map]
  refine map_congr_left fun x _ => ?_
  rw [Function.comp_apply]
  split <;> rfl

section Placed

variable {x : Operand ℝ} {q : ℕ} {qs : List ℕ} {σ : ℕ → ℕ}
variable {s : Slot} {k : Key} {ζ : ℕ → ℤ}

lemma Operand.IsIndex.placed (h : x.IsIndex m q) (table : ℕ → Operand ℝ) : x.placed table = table q := by
  obtain ⟨hi, hq, -⟩ := h
  cases x with
  | int i | bool b => simp [placed, hq]
  | _ => cases hi

lemma Operand.placed_list (h : Forall₂ (IsIndex m) xs qs)
    (table : ℕ → Operand ℝ) : (list xs).placed table = .list (qs.map table) := by
  refine congrArg list ?_
  induction h with
  | nil => rfl
  | cons hx _ ih => rw [map_cons, map_cons, ih, hx.toInt?]; rfl

lemma forall₂_map_map {β γ δ : Type} {R : γ → δ → Prop} {f : β → γ} {g : β → δ} {bs : List β}
    (h : ∀ b ∈ bs, R (f b) (g b)) : Forall₂ R (bs.map f) (bs.map g) := by
  rwa [forall₂_map_left_iff, forall₂_map_right_iff, forall₂_same]

lemma Operand.IsChecked.placed_eq (h : x.IsChecked m qs) (table : ℕ → Operand ℝ) :
    (∃ q, qs = [q] ∧ x.placed table = table q) ∨ qs.length ≠ 1 ∧ x.placed table = .list (qs.map table) := by
  cases h with
  | one hx => exact .inl ⟨_, rfl, hx.placed table⟩
  | list hlen hxs => exact .inr ⟨hlen, placed_list hxs table⟩

lemma Operand.IsChecked.lt (h : x.IsChecked m qs) : ∀ q ∈ qs, q < m :=
  forall_mem_of_forall₂ h.indices.flip fun _ _ _ h => h.lt

lemma Operand.IsChecked.placed (h : x.IsChecked m qs) (ht : ∀ q ∈ qs, (table q).IsQubit p (σ q)) :
    (x.placed table).IsQubits p (qs.map σ) := by
  obtain ⟨q, rfl, he⟩ | ⟨-, he⟩ := h.placed_eq table <;> rw [he]
  · exact (ht q (mem_singleton_self q)).isQubits
  · exact (IsSequence.list (forall₂_map_map ht)).isQubits

lemma Operand.IsChecked.placed_checked (h : x.IsChecked m qs)
    (ht : ∀ q ∈ qs, (table q).IsIndex p (σ q)) : (x.placed table).IsChecked p (qs.map σ) := by
  obtain ⟨q, rfl, he⟩ | ⟨hlen, he⟩ := h.placed_eq table <;> rw [he]
  · exact .one (ht q (mem_singleton_self q))
  · exact .list (by simpa using hlen) (forall₂_map_map ht)

lemma Operand.IsChecked.placed_names (h : x.IsChecked m qs)
    (ht : ∀ q ∈ qs, (table q).IsWhole (ζ q)) : (x.placed table).Names (qs.map ζ) := by
  obtain ⟨q, rfl, he⟩ | ⟨-, he⟩ := h.placed_eq table <;> rw [he]
  · exact (ht q (mem_singleton_self q)).names
  · exact names_list (forall₂_map_map ht)

lemma Slot.Checked.placed (h : s.Checked m x) (hfi : s.Fits k)
    (ht : ∀ q ∈ s.qubitList, (table q).IsQubit p (σ q)) :
    (s.onQubits σ).Means p (if k.isQubit then x.placed table else x) := by
  cases s with
  | qubit q =>
    rw [if_pos (show k.isQubit = true from hfi), IsIndex.placed h]
    exact ht q (mem_singleton_self q)
  | qubits qs =>
    rw [if_pos (show k.isQubit = true from hfi)]
    exact IsChecked.placed h ht
  | word s => exact hfi.elim
  | _ =>
    rw [if_neg (by simp [hfi.2])]
    exact h.means

lemma Slot.Checked.placed_checked (h : s.Checked m x) (hfi : s.Fits k)
    (ht : ∀ q ∈ s.qubitList, (table q).IsIndex p (σ q)) :
    (s.onQubits σ).Checked p (if k.isQubit then x.placed table else x) := by
  cases s with
  | qubit q =>
    rw [if_pos (show k.isQubit = true from hfi), IsIndex.placed h]
    exact ht q (mem_singleton_self q)
  | qubits qs =>
    rw [if_pos (show k.isQubit = true from hfi)]
    exact IsChecked.placed_checked h ht
  | word s => exact hfi.elim
  | _ =>
    rw [if_neg (by simp [hfi.2])]
    exact h

lemma Slot.Checked.placed_names (h : s.Checked m x) (hfi : s.Fits k)
    (htu : s.vanishes = false) (ht : ∀ q ∈ s.qubitList, (table q).IsWhole (ζ q)) :
    Decides p (k, if k.isQubit then x.placed table else x) (s.qubitList.map ζ) := by
  cases s with
  | qubit q =>
    have hk : k.isQubit = true := hfi
    refine .inl ⟨hk, ?_⟩
    rw [if_pos hk, IsIndex.placed h]
    exact (ht q (mem_singleton_self q)).names
  | qubits qs =>
    have hk : k.isQubit = true := hfi
    refine .inl ⟨hk, ?_⟩
    rw [if_pos hk]
    exact IsChecked.placed_names h ht
  | word s => exact hfi.elim
  | angle r | angles rs | turns rs | factor r | entries zs =>
    refine .inr ⟨rfl, _, hfi, ?_, rfl, htu⟩
    rw [if_neg (by simp [hfi.2])]
    exact Slot.Checked.means h

end Placed

/-! ### What is in a log -/

/-- How the operands of an entry are read. -/
structure Entry.Read (m : ℕ) (e : Entry ℝ) (g : Gate) (slots : List Slot) : Prop where
  gate : e.gate = some (.known g)
  transparent : g.isTransparent = false
  keys : e.operands.map Prod.fst = g.keys
  operands : Forall₂ (fun (s : Slot) x => s.Fits x.1 ∧ s.Checked m x.2) slots e.operands
  turns : ∀ s ∈ slots, s.vanishes = false

lemma Operation.isTransparent_of_isKept (h : o.isKept = true) : o.gate.isTransparent = false ∧ o.vanishes = false := by
  simpa [isKept] using h

lemma Entry.Unfolds.read (h : e.Unfolds m o) : e.Read m o.gate o.snapped.slots := by
  cases h with
  | @intro operands k es _ hv hk hr _ =>
    obtain ⟨hg, ht⟩ := isTransparent_of_isKept ((isKept_snapped o).trans hk)
    rw [← any_vanishes hv.snapped.shaped, any_eq_false] at ht
    have hfi := slots_fits hg
    rw [← hr.keys, forall₂_map_right_iff] at hfi
    exact
      { gate := rfl
        transparent := hr.gate ▸ hg
        keys := hr.gate ▸ hr.keys
        operands := forall₂_and hfi (forall₂_map_right_iff.mp hr.checked)
        turns := fun s hs => by simpa using ht s hs }

/-- **Every entry of a log can be read**, and turns by an angle that is not zero if it turns at all. -/
theorem Item.Stands.read (h : i.Stands m e) :
    ∃ g slots, e.Read m g slots ∧ slots.flatMap Slot.qubitList = i.qubits := by
  cases i with
  | gate o =>
    refine ⟨_, _, Unfolds.read h, ?_⟩
    obtain ⟨hv, -, -, -⟩ := h
    exact (flatMap_slots hv.snapped.shaped).trans o.qubits_snapped
  | measure qs | reset qs =>
    obtain ⟨x, k, rfl, hx, -⟩ := h
    exact ⟨_, [.qubits qs], ⟨rfl, rfl, rfl, .cons ⟨rfl, hx⟩ .nil, by simp [Slot.vanishes]⟩,
      by simp [Slot.qubitList, qubits]⟩

lemma Entry.Read.forall₂_placed (h : e.Read m g ss)
    {R : Slot → Key × Operand ℝ → Prop}
    (hR : ∀ s ∈ ss, ∀ k x, s.Fits k → s.Checked m x → R s (k, if k.isQubit then x.placed table else x)) :
    Forall₂ R ss (e.placed table).operands := by
  have ho := h.operands
  rw [placed, forall₂_map_right_iff]
  clear h
  generalize e.operands = operands at ho
  induction ho with
  | nil => exact .nil
  | @cons s x ss operands hx _ ih =>
    refine .cons ?_ (ih fun t ht => hR t (mem_cons_of_mem s ht))
    have hs := hR s mem_cons_self x.1 x.2 hx.1 hx.2
    split <;> simpa [*] using hs

/-- The function finds qubits in a table. -/
structure LooksUp (m : ℕ) (f : Operand ℝ → Outcome (Operand ℝ)) (table : ℕ → Operand ℝ) : Prop where
  index : ∀ {x q}, IsIndex m x q → f x = .ok (table q)
  list : ∀ {xs qs}, Forall₂ (IsIndex m) xs qs → f (.list xs) = .ok (.list (qs.map table))

lemma LooksUp.checked {f : Operand ℝ → Outcome (Operand ℝ)} {x : Operand ℝ} {qs : List ℕ} (hf : LooksUp m f table)
    (h : x.IsChecked m qs) : f x = .ok (x.placed table) := by
  cases h with
  | one hx => rw [hf.index hx, hx.placed]
  | list _ hxs => rw [hf.list hxs, Operand.placed_list hxs]

lemma Circuit.mapQubits_cons {f : Operand ℝ → Outcome (Operand ℝ)} (k : Key) (y : Operand ℝ) (rest : Operands ℝ)
    (g : Option GateName) (m : ℕ) (d : Definition (Entry ℝ)) :
    mapQubits f ⟨g, (k, y) :: rest, m, d⟩ = (if k.isQubit then f y else .ok y) >>= fun z =>
      (mapQubits f ⟨g, rest, m, d⟩).map fun e => { e with operands := (k, z) :: e.operands } := by
  simp only [mapQubits, mapM_cons]
  generalize (rest.mapM _ : Outcome (Operands ℝ)) = out
  split
  · cases f y with
    | error f => rfl
    | ok z => cases out <;> rfl
  · cases out <;> rfl

lemma Entry.Read.mapQubits (h : e.Read m g ss)
    {f : Operand ℝ → Outcome (Operand ℝ)} (hf : LooksUp m f table) :
    e.mapQubits f = .ok (e.placed table) := by
  have ho : ∀ {s : Slot} {x : Key × Operand ℝ}, s.Fits x.1 ∧ s.Checked m x.2 →
      (if x.1.isQubit then f x.2 else .ok x.2) = .ok (if x.1.isQubit then x.2.placed table else x.2) := by
    rintro s ⟨k, x⟩ ⟨hfi, hx⟩
    by_cases hk : k.isQubit = true
    · simp only [hk, if_true]
      cases s with
      | qubit q => rw [hf.checked (.one hx)]
      | qubits qs => rw [hf.checked hx]
      | word s => exact hfi.elim
      | _ => simp [hfi.2] at hk
    · simp [hk, Bool.false_eq_true]
  obtain ⟨gate, operands, k, d⟩ := e
  have hop : Forall₂ _ ss operands := h.operands
  simp only [placed]
  clear h
  induction hop with
  | nil => rfl
  | @cons s x ss operands hx _ ih =>
    rw [Circuit.mapQubits_cons, ho hx, ih]
    simp only [bind, Except.bind, Except.map, map_cons]
    split <;> rfl

namespace Item.Stands

open Circuit (Carries applyNamed)

variable {e : Entry ℝ} {i : Item} {ζ : ℕ → ℤ}

lemma lt (h : i.Stands m e) : ∀ q ∈ i.qubits, q < m := by
  cases i with
  | gate o =>
    obtain ⟨hv, -, -, -⟩ := h
    exact hv.lt
  | measure qs | reset qs =>
    obtain ⟨x, k, rfl, hx, -⟩ := h
    exact hx.lt

lemma nodup (h : i.Stands m e) : i.qubits.Nodup := by
  cases i with
  | gate o =>
    obtain ⟨hv, -, -, -⟩ := h
    exact hv.nodup
  | measure qs | reset qs =>
    obtain ⟨x, k, rfl, hx, hq⟩ := h
    exact hq

end Item.Stands

namespace Entry.Unfolds

variable {e : Entry ℝ} {o : Operation} {σ : ℕ → ℕ}

lemma denotes_placed (h : e.Unfolds m o) (ht : ∀ q ∈ o.qubits, (table q).IsQubit p (σ q)) :
    Denotes p o.gate (e.placed table).operands (o.snapped.onQubits σ) := by
  have hr := h.read
  obtain ⟨hv, -, -, -⟩ := h
  have hsh := hv.snapped.shaped
  refine ⟨?_, ?_, ?_⟩
  · cases o <;> rfl
  · rw [keys_placed, hr.keys]
    cases o <;> rfl
  · have hsl := flatMap_slots hsh
    rw [o.qubits_snapped] at hsl
    rw [slots_onQubits hsh, forall₂_map_left_iff, forall₂_map_right_iff]
    refine hr.forall₂_placed fun s hs k x hfi hx => hx.placed hfi fun q hq => ht q ?_
    exact hsl ▸ mem_flatMap.mpr ⟨s, hs, hq⟩

lemma recorded_placed (h : e.Unfolds m o) (ht : ∀ q ∈ o.qubits, (table q).IsIndex p (σ q)) :
    Recorded p o.gate (e.placed table).operands (o.snapped.onQubits σ) := by
  have hr := h.read
  obtain ⟨hg, hk, -⟩ := h.denotes_placed fun q hq => (ht q hq).isQubit
  obtain ⟨hv, -, -, -⟩ := h
  have hsh := hv.snapped.shaped
  refine ⟨hg, hk, ?_⟩
  rw [slots_onQubits hsh, forall₂_map_left_iff, forall₂_map_right_iff]
  refine hr.forall₂_placed fun s hs k x hfi hx => hx.placed_checked hfi fun q hq => ht q ?_
  rw [← o.qubits_snapped, ← flatMap_slots hsh]
  exact mem_flatMap.mpr ⟨s, hs, hq⟩

end Entry.Unfolds

lemma Call.refused_of_validate {c : Call ℝ} (hs : c.controlState = .none)
    (hg : c.gate.isTransparent = false) (h : validate p c.operands = .error f) : c.Refused p := by
  have ho : c.offPositions = .ok [] := by
    rw [offPositions, hs]
    cases Gate.controls c <;> rfl
  rcases hp : Gate.precondition c with f' | _
  · exact ⟨f', by rw [check, hp]; rfl⟩
  · refine ⟨f, ?_⟩
    rw [check_of_ok hp ho]
    simp only [isEmpty_nil, if_true, hg, Bool.false_eq_true, if_false, h]
    rfl

lemma Circuit.perform_apply_refused {args : Operands ℝ}
    {call : Call ℝ} (hc : c.Open p a) (hbi : g.bind args = .ok call)
    (h : call.check p = .error f) : Change.perform (apply g args) c = (.error f, c) := by
  rw [perform_apply_ok hbi, perform_perform, perform_recording]
  have hs : c.setting = ⟨p, true⟩ := by rw [setting, hc.numQubits, hc.validating]
  rw [hs, Recording.perform_refused h]
  simp

namespace Item.Stands

open Circuit (Carries applyNamed)

variable {e : Entry ℝ} {i : Item} {ζ : ℕ → ℤ}

/-- **An entry goes through on other qubits**, if the table names different ones. -/
theorem carries_placed (h : i.Stands m e) (ht : ∀ q ∈ i.qubits, (table q).IsWhole (ζ q))
    (hp : Proper p (i.qubits.map ζ)) : Carries p (applyNamed (e.placed table).gate (e.placed table).operands)
      [i.snapped.onQubits fun q => placeOf p (ζ q)] := by
  have hi : ∀ q ∈ i.qubits, InRange p (ζ q) := fun q hq => hp.inRange _ (mem_map_of_mem hq)
  have hqu : ∀ q ∈ i.qubits, (table q).IsQubit p (placeOf p (ζ q)) := fun q hq =>
    (ht q hq).isQubit (hi q hq)
  have hn : (i.qubits.map fun q => placeOf p (ζ q)).Nodup := by
    have hpl := hp.nodup
    rwa [map_map] at hpl
  cases i with
  | gate o =>
    have hd := Unfolds.denotes_placed h hqu
    obtain ⟨hv, -, -, -⟩ := h
    have hv' : (o.snapped.onQubits fun q => placeOf p (ζ q)).Valid p :=
      hv.snapped.onQubits (by rwa [o.qubits_snapped])
        fun q hq => placeOf_lt (hi q (by rwa [o.qubits_snapped] at hq))
    exact Circuit.carries_gate hd hv'
  | measure qs =>
    obtain ⟨x, k, rfl, hx, -⟩ := h
    exact Circuit.carries_measure (hx.placed hqu) hn
  | reset qs =>
    obtain ⟨x, k, rfl, hx, -⟩ := h
    exact Circuit.carries_reset (hx.placed hqu) hn

/-- **An entry is refused on other qubits**, and nothing changes, if the table does not name different ones. -/
theorem refused_placed (h : i.Stands m e) (ht : ∀ q ∈ i.qubits, (table q).IsWhole (ζ q))
    (hp : ¬ Proper p (i.qubits.map ζ)) (hc : c.Open p a) :
    ∃ f, Change.perform (applyNamed (e.placed table).gate (e.placed table).operands) c = (.error f, c) := by
  obtain ⟨g, slots, hr, hqs⟩ := h.read
  have hm : ∀ s ∈ slots, ∀ q ∈ s.qubitList, q ∈ i.qubits := fun s hs q hq =>
    hqs ▸ mem_flatMap.mpr ⟨s, hs, hq⟩
  obtain ⟨f, hf⟩ : ∃ f, validate p (e.placed table).operands = .error f := by
    refine @validateFrom_error p [] [] _ (slots.map fun s => s.qubitList.map ζ) ?_ .nil ?_ []
    · rw [forall₂_map_right_iff]
      refine (hr.forall₂_placed fun s hs k x hfi hx => ?_).flip
      exact hx.placed_names hfi (hr.turns s hs) fun q hq => ht q (hm s hs q hq)
    · have hfl : (slots.map fun s => s.qubitList.map ζ).flatten = i.qubits.map ζ := by
        rw [← hqs, map_flatMap, flatMap_def]
      rw [hfl]
      exact fun hra hn => hp ⟨hra, hn⟩
  have hbi : g.bind (e.placed table).operands = .ok ⟨g, (e.placed table).operands, .none⟩ :=
    Circuit.bind_of_keys ((keys_placed table e).trans hr.keys)
  obtain ⟨f, hf⟩ := Call.refused_of_validate (c := ⟨g, (e.placed table).operands, .none⟩) rfl hr.transparent hf
  refine ⟨f, ?_⟩
  rw [show (e.placed table).gate = some (.known g) from hr.gate]
  exact Circuit.perform_apply_refused hc hbi hf

end Item.Stands

/-! ### Renamed

What operations do on other qubits.  A permutation of all qubits renames the qubits of an operation
(`Operation.onQubits`) and of a wave (`renamed`), and an operation does to the renamed wave what it does to
the wave, renamed (`Operation.acts_onQubits`).
-/

variable {ρ : Equiv.Perm ℕ}

/-- The wave whose qubits have the names that a permutation takes back. -/
def renamed (ρ : Equiv.Perm ℕ) (V : Wave) : Wave := fun b => V (b ∘ ρ.symm)

lemma update_comp_symm (b : Register) (t : ℕ) (y : Bool) :
    Function.update b t y ∘ ρ.symm = Function.update (b ∘ ρ.symm) (ρ t) y := by
  rw [Function.update_comp_equiv, Equiv.symm_symm]

lemma select_renamed (t : ℕ) {M N : Register → Square} (h : ∀ b, M b = N (b ∘ ρ.symm)) (V : Wave) :
    select t M (renamed ρ V) = renamed ρ (select (ρ t) N V) := by
  funext b
  simp [select, renamed, update_comp_symm, h, Function.comp_apply, Equiv.symm_apply_apply]

lemma selectEach_renamed (ts : List ℕ) (M : Square) (V : Wave) :
    selectEach ts (fun _ => M) (renamed ρ V) = renamed ρ (selectEach (ts.map ρ) (fun _ => M) V) := by
  induction ts generalizing V with
  | nil => rfl
  | cons t ts ih =>
    rw [List.map_cons, selectEach_cons, selectEach_cons, select_renamed t (N := fun _ => M) fun _ => rfl, ih]

lemma allOn_comp_symm (cs : List ℕ) (b : Register) : allOn (cs.map ρ) (b ∘ ρ.symm) = allOn cs b := by
  simp [allOn, List.all_map, Function.comp_def]

lemma indexOf_comp_symm (cs : List ℕ) (b : Register) : indexOf (cs.map ρ) (b ∘ ρ.symm) = indexOf cs b := by
  simp [indexOf, List.foldr_map]

lemma gated_renamed {cs : List ℕ} {A B : Wave → Wave} (h : ∀ V, A (renamed ρ V) = renamed ρ (B V))
    (V : Wave) : gated (allOn cs) A (renamed ρ V) = renamed ρ (gated (allOn (cs.map ρ)) B V) := by
  funext b
  simp [gated, h, renamed, allOn_comp_symm]

namespace Base

lemma coupled_renamed (P : Square) (a : ℝ) (i j : ℕ) (V : Wave) :
    coupled P a i j (renamed ρ V) = renamed ρ (coupled P a (ρ i) (ρ j) V) := by
  rw [coupled, select_renamed j (N := fun _ => P) fun _ => rfl, select_renamed i (N := fun _ => P) fun _ => rfl]
  rfl

lemma exchange_renamed (i j : ℕ) (V : Wave) : exchange i j (renamed ρ V) = renamed ρ (exchange (ρ i) (ρ j) V) := by
  funext b
  simp [exchange, renamed, update_comp_symm, Function.comp_apply, Equiv.symm_apply_apply]

lemma act_renamed (b : Base) (ps : List ℝ) (ts : List ℕ) (V : Wave) :
    b.act ps ts (renamed ρ V) = renamed ρ (b.act ps (ts.map ρ) V) := by
  cases hb : b.onTwo with
  | false => rw [act_single hb, act_single hb, selectEach_renamed]
  | true =>
    rcases ps with _ | ⟨a, _ | ⟨a', ps⟩⟩ <;> rcases ts with _ | ⟨i, _ | ⟨j, _ | ⟨k, ts⟩⟩⟩ <;> cases b <;> first
        | exact absurd hb Bool.false_ne_true
        | exact selectEach_renamed _ _ V
        | exact coupled_renamed _ a i j V
        | exact exchange_renamed i j V

end Base

namespace Operation

/-- **An operation on renamed qubits.** -/
theorem act_onQubits (o : Operation) (V : Wave) : o.act (renamed ρ V) = renamed ρ ((o.onQubits ρ).act V) := by
  cases o with
  | identity ts => rfl
  | of b r ps cs ts => exact gated_renamed (Base.act_renamed b ps ts) V
  | ucr axis angles cs t | pauliMultiplexor axis angles cs t =>
    exact select_renamed t (fun b => by rw [indexOf_comp_symm]) V
  | diagonal zs qs =>
    funext b
    simp [act, onQubits, renamed, indexOf_comp_symm]
  | globalPhase a => rfl

lemma acts_onQubits (os : List Operation) (V : Wave) :
    acts os (renamed ρ V) = renamed ρ (acts (os.map (onQubits ρ)) V) := by
  induction os generalizing V with
  | nil => rfl
  | cons o os ih => rw [List.map_cons, acts_cons, acts_cons, act_onQubits, ih]

end Operation

end QuantumCircuits
