import QuantumCircuits.Proofs.Operation.Reading

/-!
# Operation — Denotes

The operations that calls and entries of a log stand for.  An operation has a list of slots, one for
each operand of its gate; named operands denote the operation when they stand, one by one, for what
is in the slots (`Denotes`).  Operands that denote an operation pass the checks of the log, and what
is logged denotes the operation with its angles as they are logged (`Denotes.validate`).
-/

noncomputable section

namespace QuantumCircuits

open List Operand

variable {o : Operation} {n : ℕ} {slot : Slot} {g : Gate}

/-! ### Slots -/

/-- What an operand is to be read as. -/
inductive Slot where
  | angle (r : ℝ)
  | angles (rs : List ℝ)
  /-- The angles among which control qubits select. -/
  | turns (rs : List ℝ)
  /-- A number that is no angle. -/
  | factor (r : ℝ)
  | qubit (q : ℕ)
  | qubits (qs : List ℕ)
  | entries (zs : List ℂ)
  | word (s : String)
deriving Inhabited

/-- The operand is a list of complex numbers. -/
def Operand.HasEntries (x : Operand ℝ) (zs : List ℂ) : Prop :=
  x = .list (zs.map fun z => .complex (.ofValue z)) ∨
  x = .tuple (zs.map fun z => .complex (.ofValue z)) ∨
  x = .array ⟨[zs.length], .complex, (zs.map Cplx.ofValue).toArray⟩

namespace Slot

/-- The operand stands for what is in the slot. -/
def Means (n : ℕ) : Slot → Operand ℝ → Prop
  | .angle r, x | .factor r, x => x.IsNumber r
  | .angles rs, x => x.IsNumbers rs
  | .turns rs, x => x = .list (rs.map .real) ∨ x = .tuple (rs.map .real)
  | .qubit q, x => x.IsQubit n q
  | .qubits qs, x => x.IsQubits n qs
  | .entries zs, x => x.HasEntries zs
  | .word s, x => x = .text s

/-- The operand stands for what is in the slot, and was checked: qubits are counted from the start, and
sequences are lists. -/
def Checked (n : ℕ) : Slot → Operand ℝ → Prop
  | .qubit q, x => x.IsIndex n q
  | .qubits qs, x => x.IsChecked n qs
  | .angles rs, x => ∃ xs, x = .list xs ∧ Forall₂ IsNumber xs rs
  | .turns rs, x => x = .list (rs.map .real)
  | .entries zs, x => x = .list (zs.map fun z => .complex (.ofValue z))
  | s, x => s.Means n x

lemma Checked.means {x : Operand ℝ} (h : slot.Checked n x) : slot.Means n x := by
  cases slot with
  | qubit q => exact IsIndex.isQubit h
  | qubits qs => exact IsChecked.isQubits h
  | angles rs =>
    obtain ⟨xs, rfl, hxs⟩ := h
    exact hxs
  | turns rs | entries zs => exact .inl h
  | _ => exact h

/-- Operands under the key are checked as what is in the slot. -/
def Fits : Slot → Key → Prop
  | .angle _, k | .angles _, k | .turns _, k => k.isAngle = true ∧ k.isQubit = false
  | .qubit _, k | .qubits _, k => k.isQubit = true
  | .factor _, k | .entries _, k => k.isAngle = false ∧ k.isQubit = false
  | .word _, _ => False

def snapped : Slot → Slot
  | .angle r => .angle (snap r)
  | .angles rs => .angles (rs.map snap)
  | .turns rs => .turns (rs.map snap)
  | s => s

/-- The slot holds angles, all of which count as zero. -/
def vanishes : Slot → Bool
  | .angle r => snap r = 0
  | .angles rs | .turns rs => (rs.map snap).all (· = 0)
  | _ => false

def qubitList : Slot → List ℕ
  | .qubit q => [q]
  | .qubits qs => qs
  | _ => []

end Slot

/-! ### Checks -/

section Checks

variable {k : Key} {x : Operand ℝ}
variable {r : ℝ} {rs : List ℝ}

lemma checkAngles_number (h : x.IsNumber r) :
    ∃ y, checkAngles x = .ok (if snap r = 0 then none else some y) ∧ y.IsNumber (snap r) := by
  obtain ⟨y, hy, hn⟩ := h.checkAngle
  have hl : ∀ xs, x ≠ .list xs := by rintro xs rfl; exact h
  refine ⟨y, ?_, hn⟩
  rw [checkAngles.eq_2 x hl, hy]
  simp only [bind, Except.bind, hn.isZero, decide_eq_true_eq]

lemma checkAngles_numbers {xs : List (Operand ℝ)} (h : Forall₂ IsNumber xs rs) : ∃ ys, checkAngles (.list xs) =
        .ok (if (rs.map snap).all (· = 0) then none else some (.list ys)) ∧
      Forall₂ IsNumber ys (rs.map snap) := by
  obtain ⟨ys, hys, hn⟩ := exists_mapM_forall₂ h fun _ _ hx => hx.checkAngle
  rw [← forall₂_map_right_iff] at hn
  have hze : ys.all isZero = (rs.map snap).all (· = 0) := by
    clear hys
    generalize rs.map snap = ts at hn
    induction hn with
    | nil => rfl
    | cons hy _ ih => simp only [all_cons, hy.isZero, ih]
  refine ⟨ys, ?_, hn⟩
  simp only [checkAngles, hys, bind, Except.bind, hze]

lemma checkAngles_reals (rs : List ℝ) : checkAngles (.list (rs.map .real)) =
      .ok (if (rs.map snap).all (· = 0) then none else some (.list ((rs.map snap).map .real))) := by
  have ha : ∀ r : ℝ, checkAngle (.real r) = .ok (.real (snap r)) := by
    intro r
    by_cases h : isZeroAngle r = true <;> simp [checkAngle, snap, h, toReal, bind, Except.bind]
  have hm : (rs.map real).mapM checkAngle = .ok ((rs.map snap).map .real) := by
    rw [mapM_map, map_map]; exact mapM_ok fun r _ => ha r
  have hze : ((rs.map snap).map real).all isZero = (rs.map snap).all (· = 0) := by
    rw [all_map]
    congr 1
    funext r
    exact (isNumber_real.mpr rfl).isZero
  simp only [checkAngles, hm, bind, Except.bind, hze]

section Steps

variable {v w : Operand ℝ} (rest : Operands ℝ) (qubits : List (Operand ℝ)) (done : Operands ℝ)

lemma validateFrom_qubit (hk : k.isQubit = true) (hv : x.toPlain = .ok v) (hw : checkQubits n v = .ok w) :
    validateFrom n ((k, x) :: rest) qubits done = validateFrom n rest (qubits ++ w.indices) ((k, w) :: done) := by
  rw [validateFrom]
  simp [hk, hv, hw, bind, Except.bind]

lemma validateFrom_angle (hk : k.isQubit = false) (ha : k.isAngle = true) (hv : x.toPlain = .ok v)
    (hn : v ≠ .none) {c : Bool} (hw : checkAngles v = .ok (if c then none else some w)) :
    validateFrom n ((k, x) :: rest) qubits done =
      if c then .ok none else validateFrom n rest qubits ((k, w) :: done) := by
  rw [validateFrom]
  simp only [hk, ha, hv, hw, bind, Except.bind, Bool.false_eq_true, if_false, if_true]
  cases c <;> simp

lemma validateFrom_other (hk : k.isQubit = false) (ha : k.isAngle = false)
    (hv : x.toPlain = .ok v) (hn : v ≠ .none) : validateFrom n ((k, x) :: rest) qubits done =
      validateFrom n rest qubits ((k, v) :: done) := by
  rw [validateFrom]
  simp [hk, ha, hv, bind, Except.bind]

end Steps

lemma Operand.IsNumber.toPlain (h : x.IsNumber r) : ∃ v, x.toPlain = .ok v ∧ v.IsNumber r ∧ v ≠ .none := by
  cases x with
  | int i => exact ⟨.int i, rfl, h, by simp⟩
  | bool b =>
    refine ⟨.int (if b then 1 else 0), rfl, ?_, by simp⟩
    simp only [IsNumber] at h ⊢
    cases b <;> simp [h]
  | real y => exact ⟨.real y, rfl, h, by simp⟩
  | _ => exact h.elim

lemma Operand.IsNumbers.toPlain (h : x.IsNumbers rs) : ∃ xs, x.toPlain = .ok (.list xs) ∧ Forall₂ IsNumber xs rs := by
  cases x with
  | list xs => exact ⟨xs, rfl, h⟩
  | tuple xs => exact ⟨xs, rfl, h⟩
  | _ => exact h.elim

lemma nest_length (xs : List (Operand ℝ)) : nest [xs.length] xs = .list xs := by
  rw [nest]
  congr 1
  refine ext_getElem (by simp) fun i hi _ => ?_
  have hl : i < xs.length := by simpa using hi
  simp [nest, headD_eq_head?_getD, head?_take, getElem?_eq_getElem hl]

lemma Operand.HasEntries.toPlain {zs : List ℂ} (h : x.HasEntries zs) :
    x.toPlain = .ok (.list (zs.map fun z => .complex (.ofValue z))) := by
  rcases h with rfl | rfl | rfl
  · rfl
  · rfl
  · have he : ((zs.map Cplx.ofValue).toArray.toList.map (ofEntryPlain .complex)) =
        zs.map fun z => complex (.ofValue z) := by
      rw [map_map]
      rfl
    have hn := nest_length (zs.map fun z => complex (.ofValue z))
    rw [length_map] at hn
    rw [toPlain, plain, he, hn]
    simp

/-- **One operand of a call, checked**: the call turns out to be no operation, or the check goes on
with the operand as it is logged. -/
theorem Slot.Means.validateFrom (hfi : slot.Fits k) (hx : slot.Means n x)
    (rest : Operands ℝ) (qubits : List (Operand ℝ)) (done : Operands ℝ) :
    ∃ w ys, slot.snapped.Checked n w ∧ Forall₂ (IsIndex n) ys slot.qubitList ∧
      QuantumCircuits.validateFrom n ((k, x) :: rest) qubits done = if slot.vanishes then .ok none
        else QuantumCircuits.validateFrom n rest (qubits ++ ys) ((k, w) :: done) := by
  cases slot with
  | angle r =>
    obtain ⟨v, hv, hn, hno⟩ := IsNumber.toPlain hx
    obtain ⟨w, hw, hs⟩ := checkAngles_number hn
    refine ⟨w, [], hs, .nil, ?_⟩
    rw [append_nil]
    exact validateFrom_angle rest qubits done hfi.2 hfi.1 hv hno (by simpa [Slot.vanishes] using hw)
  | angles rs =>
    obtain ⟨xs, hv, hn⟩ := IsNumbers.toPlain hx
    obtain ⟨ys, hw, hs⟩ := checkAngles_numbers hn
    refine ⟨.list ys, [], ⟨ys, rfl, hs⟩, .nil, ?_⟩
    rw [append_nil]
    exact validateFrom_angle rest qubits done hfi.2 hfi.1 hv (by simp) hw
  | turns rs =>
    have hv : x.toPlain = .ok (.list (rs.map .real)) := by rcases hx with rfl | rfl <;> rfl
    refine ⟨_, [], rfl, .nil, ?_⟩
    rw [append_nil]
    exact validateFrom_angle rest qubits done hfi.2 hfi.1 hv (by simp) (checkAngles_reals rs)
  | factor r =>
    obtain ⟨v, hv, hn, hno⟩ := IsNumber.toPlain hx
    refine ⟨v, [], hn, .nil, ?_⟩
    rw [append_nil]
    exact validateFrom_other rest qubits done hfi.2 hfi.1 hv hno
  | qubit q =>
    obtain ⟨v, w, hv, hw, hi⟩ := IsQubit.check hx
    refine ⟨w, w.indices, hi, (IsChecked.one hi).indices, ?_⟩
    exact validateFrom_qubit rest qubits done hfi hv hw
  | qubits qs =>
    obtain ⟨v, w, hv, hw, hch⟩ := IsQubits.check hx
    refine ⟨w, w.indices, hch, hch.indices, ?_⟩
    exact validateFrom_qubit rest qubits done hfi hv hw
  | entries zs =>
    refine ⟨_, [], rfl, .nil, ?_⟩
    rw [append_nil]
    exact validateFrom_other rest qubits done hfi.2 hfi.1 hx.toPlain (by simp)
  | word s => exact hfi.elim

/-- **All operands of a call, checked.** -/
theorem validateFrom_slots {ss : List Slot} {os : Operands ℝ}
    (h : Forall₂ (fun (s : Slot) p => s.Fits p.1 ∧ s.Means n p.2) ss os)
    {qubits : List (Operand ℝ)} {qs : List ℕ} (hq : Forall₂ (IsIndex n) qubits qs)
    (hn : (qs ++ ss.flatMap Slot.qubitList).Nodup) (done : Operands ℝ) :
    ∃ os', os'.map Prod.fst = os.map Prod.fst ∧
      Forall₂ (Slot.Checked n) (ss.map Slot.snapped) (os'.map Prod.snd) ∧
      validateFrom n os qubits done =
        .ok (if ss.any Slot.vanishes then none else some (done.reverse ++ os')) := by
  induction h generalizing qubits qs done with
  | nil =>
    refine ⟨[], rfl, .nil, ?_⟩
    rw [flatMap_nil, append_nil] at hn
    simp [validateFrom, distinctIndices_of_nodup hq hn]
  | @cons slot p ss os hp _ ih =>
    obtain ⟨k, x⟩ := p
    obtain ⟨w, ys, hw, hys, he⟩ := hp.2.validateFrom hp.1 os qubits done
    obtain ⟨os', hk, hch, hr⟩ := ih (rel_append hq hys)
      (by rwa [flatMap_cons, ← append_assoc] at hn) ((k, w) :: done)
    refine ⟨(k, w) :: os', by simp [hk], .cons hw hch, ?_⟩
    rw [he, hr, any_cons]
    cases slot.vanishes <;> simp

end Checks

/-! ### Operations -/

/-- The slots of the operands that say how far a gate turns. -/
def Base.slots (b : Base) (ps : List ℝ) : List Slot :=
  match b with
  | .rx | .ry | .rz | .phase | .rxx | .ryy | .rzz => [.angle (ps.getD 0 0)]
  | .xPow | .yPow | .zPow => [.factor (ps.getD 0 0), .factor (ps.getD 1 0)]
  | .u3 => [.angles ps]
  | _ => []

def Base.targetSlots (b : Base) (r : Reach) (ts : List ℕ) : List Slot :=
  if b.onTwo then [.qubit (ts.getD 0 0), .qubit (ts.getD 1 0)]
  else match r with
    | .controlled => [.qubit (ts.getD 0 0)]
    | .plain | .multi => [.qubits ts]

def Reach.slots (r : Reach) (cs : List ℕ) : List Slot :=
  match r with
  | .plain => []
  | .controlled => [.qubit (cs.getD 0 0)]
  | .multi => [.qubits cs]

namespace Operation

/-- What the operands of a call of the operation's gate stand for, in order. -/
def slots : Operation → List Slot
  | .identity ts => [.qubits ts]
  | .of b r ps cs ts => b.slots ps ++ r.slots cs ++ b.targetSlots r ts
  | .ucr _ angles cs t => [.turns angles, .qubits cs, .qubit t]
  | .pauliMultiplexor axis angles cs t => [.turns angles, .word axis.text, .qubits cs, .qubit t]
  | .diagonal zs qs => [.entries zs, .qubits qs]
  | .globalPhase a => [.angle a]

end Operation

/-- The names of a gate's operands, the control state apart. -/
def Gate.keys (g : Gate) : List Key := g.signature.filter (· ≠ .controlState)

/-- A gate with named operands stands for an operation. -/
structure Denotes (n : ℕ) (g : Gate) (operands : Operands ℝ) (o : Operation) : Prop where
  gate : g = o.gate
  keys : operands.map Prod.fst = o.gate.keys
  means : Forall₂ (Slot.Means n) o.slots (operands.map Prod.snd)

/-- The same for operands that were checked. -/
structure Recorded (n : ℕ) (g : Gate) (operands : Operands ℝ) (o : Operation) : Prop where
  gate : g = o.gate
  keys : operands.map Prod.fst = o.gate.keys
  checked : Forall₂ (Slot.Checked n) o.slots (operands.map Prod.snd)

lemma Slot.exists_means (h : ∀ q ∈ slot.qubitList, q < n) : ∃ x, slot.Means n x := by
  cases slot with
  | angle r | factor r => exact ⟨.real r, rfl⟩
  | angles rs => exact ⟨.list (rs.map .real), forall₂_map_left_iff.mpr (forall₂_same.mpr fun _ _ => rfl)⟩
  | turns rs | entries zs => exact ⟨_, .inl rfl⟩
  | qubit q => exact ⟨.int q, isQubit_int (h q (mem_singleton_self q))⟩
  | qubits qs => exact ⟨_, isQubits_ints h⟩
  | word s => exact ⟨_, rfl⟩

lemma Recorded.denotes {os : Operands ℝ} (h : Recorded n g os o) : Denotes n g os o :=
  ⟨h.gate, h.keys, h.checked.imp fun _ _ hx => hx.means⟩

namespace Operation

lemma slots_fits (h : o.gate.isTransparent = false) : Forall₂ Slot.Fits o.slots o.gate.keys := by
  cases o with
  | of b r ps cs ts =>
    cases b <;> cases r <;> simp_all [slots, Base.slots, Reach.slots, Base.targetSlots, Base.onTwo, gate,
      Gate.keys, Gate.signature, Base.parameters, Slot.Fits, Key.isAngle, Key.isQubit,
      Gate.isTransparent]
  | pauliMultiplexor => cases h
  | _ =>
    simp [slots, gate, Gate.keys, Gate.signature, Slot.Fits, Key.isAngle, Key.isQubit]

lemma flatMap_slots (h : o.Shaped) : o.slots.flatMap Slot.qubitList = o.qubits := by
  cases o with
  | of b r ps cs ts =>
    obtain ⟨-, hcs, hts⟩ := h
    have hp : (b.slots ps).flatMap Slot.qubitList = [] := by cases b <;> rfl
    have hct : (r.slots cs).flatMap Slot.qubitList = cs := by
      cases r with
      | plain => exact hcs.symm
      | controlled =>
        obtain ⟨c, rfl⟩ := length_eq_one_iff.mp hcs
        rfl
      | multi => exact append_nil cs
    have ht : (b.targetSlots r ts).flatMap Slot.qubitList = ts := by
      rw [Base.targetSlots.eq_def]
      cases hb : b.onTwo with
      | true =>
        obtain ⟨i, j, rfl⟩ := length_eq_two.mp (by simpa [hb] using hts)
        rfl
      | false =>
        cases r with
        | controlled =>
          obtain ⟨t, rfl⟩ := length_eq_one_iff.mp (by simpa [hb] using hts)
          rfl
        | plain | multi => exact append_nil ts
    rw [slots, flatMap_append, flatMap_append, hp, hct, ht]
    rfl
  | _ => simp [slots, qubits, Slot.qubitList]

lemma Valid.exists_denotes (h : o.Valid n) : ∃ operands, Denotes n o.gate operands o := by
  have hm : ∀ s ∈ o.slots, ∃ x, s.Means n x := fun s hs => Slot.exists_means fun q hq =>
    h.lt q (flatMap_slots h.shaped ▸ mem_flatMap.mpr ⟨s, hs, hq⟩)
  choose! x hx using hm
  have hlen : (o.slots.map x).length = o.gate.keys.length := by
    cases o with
    | of b r ps cs ts => cases b <;> cases r <;> rfl
    | _ => rfl
  refine ⟨o.gate.keys.zip (o.slots.map x), rfl, map_fst_zip hlen.ge, ?_⟩
  rw [map_snd_zip hlen.le, forall₂_map_right_iff, forall₂_same]
  exact hx

lemma slots_snapped (h : o.Shaped) : o.snapped.slots = o.slots.map Slot.snapped := by
  cases o with
  | of b r ps cs ts =>
    have hp : b.slots (if b.isAngular then ps.map snap else ps) = (b.slots ps).map Slot.snapped := by
      cases b with
      | rx | ry | rz | phase | rxx | ryy | rzz =>
        obtain ⟨a, rfl⟩ := length_eq_one_iff.mp h.1
        rfl
      | _ => rfl
    have hct : (r.slots cs).map Slot.snapped = r.slots cs := by cases r <;> rfl
    have ht : (b.targetSlots r ts).map Slot.snapped = b.targetSlots r ts := by
      rw [Base.targetSlots.eq_def]
      split
      · rfl
      · cases r <;> rfl
    rw [snapped, slots, slots, map_append, map_append, hp, hct, ht]
  | _ => rfl

lemma Valid.snapped (ho : o.Valid n) : o.snapped.Valid n := by
  obtain ⟨hs, hn, hl⟩ := ho
  cases o with
  | of b r ps cs ts =>
    refine ⟨⟨?_, hs.2⟩, hn, hl⟩
    split
    · exact (length_map _).trans hs.1
    · exact hs.1
  | ucr axis angles cs t | pauliMultiplexor axis angles cs t =>
    exact ⟨(length_map _).trans hs, hn, hl⟩
  | identity ts | diagonal zs qs | globalPhase a => exact ⟨hs, hn, hl⟩

lemma any_vanishes (h : o.Shaped) : o.slots.any Slot.vanishes = o.vanishes := by
  cases o with
  | of b r ps cs ts =>
    have hp : (b.slots ps).any Slot.vanishes = (b.isAngular && (ps.map snap).all (· = 0)) := by
      cases b with
      | rx | ry | rz | phase | rxx | ryy | rzz =>
        obtain ⟨a, rfl⟩ := length_eq_one_iff.mp h.1
        simp [Base.slots, Slot.vanishes, Base.isAngular]
      | u3 => simp [Base.slots, Slot.vanishes, Base.isAngular]
      | _ => rfl
    have hct : (r.slots cs).any Slot.vanishes = false := by cases r <;> rfl
    have ht : (b.targetSlots r ts).any Slot.vanishes = false := by
      rw [Base.targetSlots.eq_def]
      split
      · rfl
      · cases r <;> rfl
    rw [slots, any_append, any_append, hp, hct, ht, vanishes, Bool.or_false, Bool.or_false]
  | _ => simp [slots, Slot.vanishes, vanishes]

end Operation

lemma forall₂_and {β γ : Type} {R S : β → γ → Prop} {xs : List β} {ys : List γ}
    (hR : Forall₂ R xs ys) (hS : Forall₂ S xs ys) : Forall₂ (fun x y => R x y ∧ S x y) xs ys := by
  induction hR with
  | nil => exact .nil
  | cons hx _ ih =>
    cases hS with
    | cons hx' hr => exact .cons ⟨hx, hx'⟩ (ih hr)

lemma exists_of_forall₂ {β γ : Type*} {R : β → γ → Prop} {xs : List β} {ys : List γ}
    (h : Forall₂ R xs ys) : ∀ y ∈ ys, ∃ x ∈ xs, R x y := by
  intro y hy
  obtain ⟨i, hi, rfl⟩ := getElem_of_mem hy
  have hi' : i < xs.length := h.length_eq ▸ hi
  exact ⟨_, getElem_mem hi', h.get hi' hi⟩

/-- **Operands that denote an operation pass the checks**, unless nothing is turned, and what is
logged denotes the operation as it is logged. -/
theorem Denotes.validate {operands : Operands ℝ}
    (h : Denotes n g operands o) (ho : o.Valid n) (hl : g.isTransparent = false) :
    ∃ operands', Recorded n g operands' o.snapped ∧
      QuantumCircuits.validate n operands = .ok (if o.vanishes then none else some operands') := by
  obtain rfl := h.gate
  have hp : Forall₂ (fun (s : Slot) p => s.Fits p.1 ∧ s.Means n p.2) o.slots operands := by
    have hfi := Operation.slots_fits hl
    rw [← h.keys, forall₂_map_right_iff] at hfi
    have hm := forall₂_map_right_iff.mp h.means
    exact forall₂_and hfi hm
  obtain ⟨operands', hk, hch, he⟩ := validateFrom_slots hp .nil
    (by simpa [Operation.flatMap_slots ho.shaped] using ho.nodup) []
  have hg : o.snapped.gate = o.gate := by cases o <;> rfl
  refine ⟨operands', ⟨hg.symm, ?_, ?_⟩, ?_⟩
  · rw [hg, hk, h.keys]
  · rw [Operation.slots_snapped ho.shaped]; exact hch
  · rw [QuantumCircuits.validate, he, Operation.any_vanishes ho.shaped]; rfl

end QuantumCircuits

end
