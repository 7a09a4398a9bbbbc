import QuantumCircuits.Proofs.Log.Faults
import QuantumCircuits.Proofs.Log.Update

/-!
# Log — Reverse

Reversing a circuit.  The entries of the log are inverted, the last one first, and replayed.  An entry for
a gate on its own or under controls is inverted as the operation that it stands for
(`Entry.exists_turned`).  An entry for a rotation by selected angles is not: its angles are taken for the
three angles of a general one-qubit gate, so that it has too few to be inverted or is left with three,
which no number of controls selects from (`Circuit.fails_triple`).  So a circuit is reversed if and only
if nothing in it selects (`Circuit.horizontalReverse_inverts`).
-/

namespace QuantumCircuits

open Real List Change Operation Entry Plan Base Recording Operand.IsNumber
open Operand (real position negate)
open Prod (fst snd)

variable {n : ℕ}
variable {es : List (Entry ℝ)} {x : Operand ℝ} {rs xs : List ℝ} {axis : Axis} {cs : List ℕ} {t : ℕ}

/-! ### Changes that always end in a fault -/

namespace Change

variable {σ β γ : Type}

/-- Whatever the state is, the change ends in a fault. -/
def Fails (x : Change σ β) : Prop := ∀ s, ∃ f, (perform x s).1 = .error f

lemma fails_ofOutcome (f : Fault) : Fails (ofOutcome (.error f) : Change σ β) := fun _ => ⟨f, rfl⟩

lemma Fails.exists_perform {x : Change σ β} (hx : Fails x) (s : σ) : ∃ f t, perform x s = (.error f, t) := by
  obtain ⟨f, hf⟩ := hx s; exact ⟨f, _, Prod.ext hf rfl⟩

lemma Fails.bind {x : Change σ β} (hx : Fails x) (f : β → Change σ γ) : Fails (x >>= f) := by
  intro s
  obtain ⟨e, t, he⟩ := hx.exists_perform s
  exact ⟨e, by rw [perform_bind, he]⟩

lemma fails_bind (x : Change σ β) {f : β → Change σ γ} (hf : ∀ b, Fails (f b)) : Fails (x >>= f) := by
  intro s
  rw [perform_bind]
  obtain ⟨out, t⟩ := perform x s
  cases out with
  | error e => exact ⟨e, rfl⟩
  | ok b => exact hf b t

lemma fails_forM {xs : List γ} {f : γ → Change σ PUnit} {x : γ} (hx : x ∈ xs) (h : Fails (f x)) :
    Fails (xs.forM f) := by
  induction xs with
  | nil => cases hx
  | cons y ys ih =>
    rcases mem_cons.mp hx with rfl | hx
    · exact h.bind _
    · exact fails_bind _ fun _ => ih hx

end Change

namespace Recording

variable {α : Type} {body : Change (Recording α) Unit}

lemma fails_within (h : Fails body) (g : Gate)
    (operands : Operands α) : Fails (within g operands body) := fun r => h { r with entries := #[] }

lemma fails_flipping (h : Fails body)
    (flip : Change (Recording α) Unit) (positions : List ℕ) : Fails (flipping flip positions body) := by
  rw [flipping]
  split
  · exact h
  · refine fails_bind _ fun _ r => ?_
    obtain ⟨f, t, hf⟩ := h.exists_perform r
    exact exists_andFinally_error hf flip

variable [Scalar α]

lemma fails_logged (h : Fails body) (setting : Setting)
    (c : Call α) : Fails (logged setting c body) := by
  rw [logged]
  split
  · exact h
  · split
    · exact fails_ofOutcome _
    · exact h
    · exact fails_within h _ _

lemma fails_performAt {setting : Setting} {c : Call α} (hc : elementary? c = none)
    (h : ∀ d, Fails (follow (performAt setting d) (Gate.plan setting.numQubits c))) (d : ℕ) :
    Fails (performAt setting d c) := by
  cases d with
  | zero => exact fails_ofOutcome _
  | succ d =>
    rw [performAt, hc]
    exact fails_bind _ fun _ => fails_bind _ fun positions =>
      fails_flipping (fails_logged (h d) setting c) _ positions

omit [Scalar α] in
lemma fails_follow {perform : Call α → Change (Recording α) Unit} {p : Plan α Unit}
    (h : (∃ c ∈ p.outcome.1.toList, Fails (perform c)) ∨ ∃ f, p.outcome.2 = .error f) :
    Fails (follow perform p) := by
  rcases h with ⟨c, hc, h⟩ | ⟨f, hf⟩
  · exact (fails_forM hc h).bind _
  · refine fails_bind _ fun _ => ?_
    change Fails (ofOutcome p.outcome.2)
    rw [hf]
    exact fails_ofOutcome f

end Recording

/-! ### Three angles to select from -/

section Triple

variable (a b c : ℝ)

lemma outcome_multiplexedRotation (axis controls target : Operand ℝ) :
    ∃ f, (multiplexedRotation (.list [.real a, .real b, .real c]) axis controls target).outcome.2 = .error f := by
  refine ⟨.angleCount 3, ?_⟩
  have hg : Grid.ofOperand (.list [.real a, .real b, .real c]) = .ok (gridOf [a, b, c]) :=
    ofOperand_turns (n := 0) (by simp) (.inl rfl)
  have ht : isPowerOfTwo 3 = false := by decide
  change (perform (multiplexedRotation (.list [.real a, .real b, .real c]) axis controls target) #[]).1 = _
  rw [multiplexedRotation, hg, perform_bind_ok (x := get (.ok (gridOf [a, b, c]))) (perform_ofOutcome_ok _ _)]
  simp only [gridOf, isEmpty_cons, headD_cons, length_cons, length_nil, zero_add, Nat.reduceAdd, ht]
  rfl

lemma fails_multiplexor (setting : Setting) (axis controls target state : Operand ℝ) (d : ℕ) :
    Fails (performAt setting d ⟨.pauliMultiplexor, [(.angles, .list [.real a, .real b, .real c]),
      (.rotationAxis, axis), (.controlIndices, controls), (.targetIndex, target)], state⟩) := by
  refine fails_performAt rfl (fun _ => fails_follow (.inr ?_)) d
  exact outcome_multiplexedRotation a b c axis controls target

lemma fails_ucr (setting : Setting) (axis : Axis) (controls target state : Operand ℝ) (d : ℕ) :
    Fails (performAt setting d ⟨.ucr axis, [(.angles, .list [.real a, .real b, .real c]),
      (.controlIndices, controls), (.targetIndex, target)], state⟩) := by
  refine fails_performAt rfl (fun d => fails_follow (.inl ?_)) d
  exact ⟨_, mem_singleton.mpr rfl, fails_multiplexor a b c setting (.text axis.text) controls.listed target .none d⟩

end Triple

/-- The entry is that of a rotation with three angles to select from. -/
def Entry.IsTriple (e : Entry ℝ) : Prop := ∃ axis a b c controls target, e.gate = some (.known (.ucr axis)) ∧
  e.operands = [(.angles, .list [.real a, .real b, .real c]), (.controlIndices, controls), (.targetIndex, target)]

namespace Circuit

variable {e : Entry ℝ}

lemma fails_triple (h : e.IsTriple) : Fails (applyNamed e.gate e.operands) := by
  obtain ⟨axis, a, b, c, controls, target, hg, ho⟩ := h
  rw [hg, ho]
  intro circuit
  change ∃ f, (Change.perform (apply (.ucr axis) _) circuit).1 = .error f
  rw [perform_apply_ok (k := ⟨.ucr axis, _, .none⟩) rfl, perform_perform, perform_recording]
  exact fails_ucr a b c circuit.setting axis controls target .none _ ⟨circuit.sink, #[]⟩

lemma replay_error (he : e ∈ es) (h : Fails (applyNamed e.gate e.operands)) (c : Circuit ℝ) :
    ∃ es' c' f, replay es c = (es', c', .error f) := by
  induction es generalizing c with
  | nil => cases he
  | cons e' es ih =>
    rw [replay]
    rcases hr : Change.perform (applyNamed e'.gate e'.operands) c with ⟨out, t⟩
    cases out with
    | error f => exact ⟨_, _, f, rfl⟩
    | ok u =>
      rcases mem_cons.mp he with rfl | he
      · obtain ⟨f, hf⟩ := h c; rw [hr] at hf; cases hf
      · obtain ⟨es', c', f, hre⟩ := ih he t; exact ⟨e'.replayed :: es', c', f, by simp only [hre]⟩

end Circuit

/-! ### Entries that are inverted in place -/

lemma Operand.IsNumbers.cases (h : x.IsNumbers rs) :
    ∃ xs, (x = .list xs ∨ x = .tuple xs) ∧ Forall₂ Operand.IsNumber xs rs := by
  cases x with
  | list xs => exact ⟨xs, .inl rfl, h⟩
  | tuple xs => exact ⟨xs, .inr rfl, h⟩
  | _ => exact h.elim

lemma negateAngles_three {theta phi lam : ℝ} (h : x.IsNumbers [theta, phi, lam]) :
    ∃ y, negateAngles x = .ok y ∧ y.IsNumbers [-theta, -lam, -phi] := by
  obtain ⟨xs, hx, hxs⟩ := h.cases
  obtain ⟨a, b, c, rfl, ha, hb, hc⟩ := forall₂_three hxs.flip
  obtain ⟨a', ha', hn⟩ := negate ha
  obtain ⟨b', hb', hnb⟩ := negate hb
  obtain ⟨c', hc', hnc⟩ := negate hc
  refine ⟨.list [a', c', b'], ?_, .cons hn (.cons hnc (.cons hnb .nil))⟩
  have he : negateAngles x = (do
      .ok (Operand.list [← a.negate, ← c.negate, ← b.negate])) := by rcases hx with rfl | rfl <;> rfl
  rw [he, ha', hb', hc']
  rfl

lemma negateAngles_turns {y : Operand ℝ} (hx : (Slot.turns rs).Means n x)
    (h : negateAngles x = .ok y) : ∃ a b c, y = .list [.real a, .real b, .real c] := by
  match rs with
  | [] | [a] | [a, b] => rcases hx with rfl | rfl <;> cases h
  | a :: b :: c :: rs =>
    refine ⟨-a, -c, -b, ?_⟩
    have hi : ∀ k < 3, x.item (k : ℕ) = .ok (.real ((a :: b :: c :: rs).getD k 0)) := by
      intro k hk
      have hp : position ((a :: b :: c :: rs).map real).length (k : ℕ) = .ok k := by
        rw [position, if_pos ⟨by omega, by simp; omega⟩]
        rfl
      have he : x.item (k : ℕ) = (do
          let i ← position ((a :: b :: c :: rs).map real).length (k : ℕ)
          .ok (((a :: b :: c :: rs).map real).getD i .none)) := by
        rcases hx with rfl | rfl <;> rfl
      rw [he, hp]
      interval_cases k <;> rfl
    have h0 := hi 0 (by decide)
    have h1 := hi 1 (by decide)
    have h2 := hi 2 (by decide)
    rw [negateAngles] at h
    simp only [Nat.cast_ofNat, Nat.cast_zero, Nat.cast_one] at h0 h1 h2
    rw [h0, h1, h2] at h
    cases h
    rfl

namespace Entry

variable {e : Entry ℝ} {k : Key} {x y : Operand ℝ} {ys : Operands ℝ} {f : Operand ℝ → Outcome (Operand ℝ)}

lemma get?_eq_none (h : k ∉ e.operands.map fst) : e.get? k = none := Circuit.lookup_eq_none h

lemma get?_head (h : e.operands = (k, x) :: ys) : e.get? k = some x := by rw [get?, h, lookup_cons_self]

lemma put_head (h : e.operands = (k, x) :: ys) (hk : k ∉ ys.map fst) (y : Operand ℝ) :
    e.put k y = { e with operands := (k, y) :: ys } := by
  have hr : (ys.map fun p => if p.1 == k then (k, y) else p) = ys := by
    refine (map_congr_left fun p hp => ?_).trans (map_id ys)
    rw [if_neg]
    · rfl
    · simpa using fun he : p.1 = k => hk (he ▸ mem_map_of_mem hp)
  rw [put, h, any_cons, beq_self_eq_true, Bool.true_or, if_pos rfl, map_cons, hr]
  simp

/-- An entry is inverted in place, and what comes of it stands for an operation. -/
structure Turns (n : ℕ) (e f : Entry ℝ) (o : Operation) : Prop where
  inPlace : e.isComposite = false
  turned : e.turned = .ok f
  gate : f.gate = some (.known o.gate)
  denotes : Denotes n o.gate f.operands o

lemma turned_of_key (hke : e.invertingKey? = some (k, f))
    (h : e.operands = (k, x) :: ys) (hk : k ∉ ys.map fst) :
    e.isComposite = false ∧ e.turned = (f x).map fun y => { e with operands := (k, y) :: ys } := by
  constructor
  · rw [isComposite, hke]; rfl
  · rw [turned, hke]
    change e.change k f = _
    rw [change, get?_head h]
    cases hy : f x with
    | error f =>
      simp only [hy]
      rfl
    | ok y =>
      simp only [hy]
      exact congrArg Except.ok (put_head h hk y)

lemma turns_of_key {o : Operation}
    (hke : e.invertingKey? = some (k, f)) (h : e.operands = (k, x) :: ys) (hk : k ∉ ys.map fst)
    (hy : f x = .ok y) (hg : e.gate = some (.known o.gate)) (ho : Denotes n o.gate ((k, y) :: ys) o) :
    Turns n e { e with operands := (k, y) :: ys } o := by
  obtain ⟨hp, ht⟩ := turned_of_key hke h hk
  exact ⟨hp, by rw [ht, hy]; rfl, hg, ho⟩

lemma invertingKey?_angle (h : e.operands = (.angle, x) :: ys) : e.invertingKey? = some (.angle, negate) := by
  simp [invertingKey?, get?_head h]

lemma invertingKey?_angles (h : e.operands = (.angles, x) :: ys) (hys : Key.angle ∉ ys.map fst) :
    e.invertingKey? = some (.angles, negateAngles) := by
  have ha : e.get? .angle = none := get?_eq_none (by rw [h]; simpa using hys)
  simp [invertingKey?, ha, get?_head h]

lemma invertingKey?_power (h : e.operands = (.power, x) :: ys) (hys : Key.angle ∉ ys.map fst)
    (hys' : Key.angles ∉ ys.map fst) : e.invertingKey? = some (.power, negate) := by
  have ha : e.get? .angle = none := get?_eq_none (by rw [h]; simpa using hys)
  have hangles : e.get? .angles = none := get?_eq_none (by rw [h]; simpa using hys')
  simp [invertingKey?, ha, hangles, get?_head h]

lemma invertingKey?_eq_none (h : ∀ k ∈ [Key.angle, .angles, .power, .diagonal, .gates], k ∉ e.operands.map fst) :
    e.invertingKey? = none := by
  have hg : ∀ k ∈ [Key.angle, .angles, .power, .diagonal, .gates], e.get? k = none :=
    fun k hk => get?_eq_none (h k hk)
  simp [invertingKey?, hg]

end Entry

namespace Operation

def controlKeys (r : Reach) : List Key :=
  if r = .plain then [] else if r = .controlled then [.controlIndex] else [.controlIndices]

def targetKeys (b : Base) (r : Reach) : List Key :=
  if b.onTwo then if r = .plain then [.firstQubit, .secondQubit] else [.firstTarget, .secondTarget]
  else if r = .plain then [.qubitIndices] else if r = .controlled then [.targetIndex] else [.targetIndices]

/-- The names of the qubit operands of a gate. -/
def places (b : Base) (r : Reach) : List Key := controlKeys r ++ targetKeys b r

lemma keys_of (b : Base) (r : Reach) : (Gate.of b r).keys = b.parameters ++ places b r := by
  cases b <;> cases r <;> rfl

lemma isQubit_places (b : Base) (r : Reach) : ∀ k ∈ places b r, k.isQubit = true := by
  cases b <;> cases r <;> decide

lemma not_mem_places {k : Key} (hk : k.isQubit = false) (b : Base) (r : Reach) : k ∉ places b r := by
  intro h; rw [isQubit_places b r k h] at hk; cases hk

lemma length_slots (b : Base) (ps : List ℝ) : (b.slots ps).length = b.parameters.length := by
  cases b <;> rfl

section Turned

variable {b : Base} {r : Reach} {ps : List ℝ} {cs ts : List ℕ} {operands : Operands ℝ}

lemma exists_operands (h : Recorded n (.of b r) operands (.of b r ps cs ts)) :
    ∃ xs ys, operands = xs ++ ys ∧ xs.map fst = b.parameters ∧ ys.map fst = places b r ∧
      Forall₂ (Slot.Checked n) (b.slots ps) (xs.map snd) ∧
      Forall₂ (Slot.Checked n) (r.slots cs ++ b.targetSlots r ts) (ys.map snd) := by
  have hk : operands.map fst = b.parameters ++ places b r := h.keys.trans (keys_of b r)
  obtain ⟨xs, ys, rfl, hxs, hys⟩ := map_eq_append_iff.mp hk
  have hch := h.checked
  rw [slots, append_assoc, map_append] at hch
  have hlen : (b.slots ps).length = (xs.map snd).length := by rw [length_slots, length_map, ← hxs, length_map]
  refine ⟨xs, ys, rfl, hxs, hys, ?_, ?_⟩
  · simpa [← hlen] using forall₂_take_append _ _ _ hch
  · simpa [← hlen] using forall₂_drop_append _ _ _ hch

lemma gate_inverse : (of b r ps cs ts).inverse.gate = .of (b.inverse ps).1 r := rfl

lemma keys_inverse : (Gate.of (b.inverse ps).1 r).keys = b.parameters ++ places b r := by
  rw [← keys_of]
  cases b with
  | s | sdg | t | tdg => cases r <;> rfl
  | xPow | yPow | zPow | u3 =>
    rw [Base.inverse.eq_def]
    split <;> simp_all
  | _ => rfl

lemma denotes_inverse (xs : Operands ℝ) {ys : Operands ℝ} (hxs : xs.map fst = b.parameters)
    (hys : ys.map fst = places b r)
    (hpa : Forall₂ (Slot.Means n) ((b.inverse ps).1.slots (b.inverse ps).2) (xs.map snd))
    (hp : Forall₂ (Slot.Means n) (r.slots cs ++ b.targetSlots r ts) (ys.map snd)) :
    Denotes n (.of (b.inverse ps).1 r) (xs ++ ys) (of b r ps cs ts).inverse := by
  refine ⟨rfl, ?_, ?_⟩
  · rw [gate_inverse, keys_inverse, map_append, hxs, hys]
  · have ht : (b.inverse ps).1.targetSlots r ts = b.targetSlots r ts := by
      rw [targetSlots.eq_def, targetSlots.eq_def, onTwo_inverse]
    rw [inverse, slots, ht, append_assoc, map_append]
    exact rel_append hpa hp

/-- **An entry of a gate is inverted as the gate**, on its own or under controls. -/
theorem exists_turned_of (h : Recorded n (.of b r) operands (.of b r ps cs ts))
    (hps : ps.length = b.arity) (k : ℕ) (d : Definition (Entry ℝ)) :
    ∃ f, Turns n ⟨some (.known (.of b r)), operands, k, d⟩ f (of b r ps cs ts).inverse := by
  obtain ⟨xs, ys, rfl, hxs, hys, hch, hpl⟩ := exists_operands h
  have hpa := hch.imp fun _ _ hx => hx.means
  replace hpl := hpl.imp fun _ _ hx => hx.means
  have hn : ∀ {k : Key}, k.isQubit = false → k ∉ ys.map fst := fun hk => hys ▸ not_mem_places hk b r
  -- where nothing says how far the gate turns
  have hfi : b.parameters = [] → invertingKey? (⟨some (.known (.of b r)), xs ++ ys, k, d⟩ : Entry ℝ) = none := by
    intro hb
    rw [hb, map_eq_nil_iff] at hxs
    subst hxs
    refine invertingKey?_eq_none ?_
    simp only [forall_mem_cons, nil_append]
    exact ⟨hn rfl, hn rfl, hn rfl, hn rfl, hn rfl, by simp⟩
  cases takes hps with
  | x | y | z | h | swap | s | sdg | t | tdg =>
    refine ⟨⟨some (.known (.of (Base.inverse _ []).1 r)), xs ++ ys, k, d⟩, ?_, ?_, rfl,
      denotes_inverse xs hxs hys hpa hpl⟩
    · simp [isComposite, flippedGate?, isSelfInverse, flip?, isInvolution]
    · rw [Entry.turned, hfi rfl]; rfl
  | rx a | ry a | rz a | phase a | rxx a | ryy a | rzz a =>
    obtain ⟨⟨_, x⟩, rfl, rfl⟩ := map_eq_singleton_iff.mp hxs
    obtain ⟨_, hx, ha⟩ := forall₂_one hpa
    obtain rfl : x = _ := (cons.inj hx).1
    obtain ⟨y, hy, hne⟩ := negate ha
    exact ⟨_, turns_of_key (invertingKey?_angle rfl) rfl (hn rfl) hy rfl
      (denotes_inverse [(.angle, y)] rfl hys (.cons hne .nil) hpl)⟩
  | xPow p g | yPow p g | zPow p g =>
    obtain ⟨⟨_, x⟩, _, rfl, rfl, hr⟩ := map_eq_cons_iff.mp hxs
    obtain ⟨⟨_, z⟩, rfl, rfl⟩ := map_eq_singleton_iff.mp hr
    obtain ⟨_, _, hx, hp, hg⟩ := forall₂_two hpa
    cases hx
    obtain ⟨y, hy, hne⟩ := negate hp
    have hr : ∀ {k : Key}, k.isQubit = false → k ≠ .globalShift →
        k ∉ ((Key.globalShift, z) :: ys).map fst := fun hk hk' => by simpa [hk'] using hn hk
    exact ⟨_, turns_of_key (invertingKey?_power rfl (hr rfl (by decide))
      (hr rfl (by decide))) rfl (hr rfl (by decide)) hy rfl
      (denotes_inverse [(.power, y), (.globalShift, z)] rfl hys (.cons hne (.cons hg .nil)) hpl)⟩
  | u3 theta phi lam =>
    obtain ⟨⟨_, x⟩, rfl, rfl⟩ := map_eq_singleton_iff.mp hxs
    obtain ⟨_, hx, ha⟩ := forall₂_one hpa
    obtain rfl : x = _ := (cons.inj hx).1
    obtain ⟨y, hy, hne⟩ := negateAngles_three ha
    exact ⟨_, turns_of_key (invertingKey?_angles rfl (hn rfl)) rfl (hn rfl) hy rfl
      (denotes_inverse [(.angles, y)] rfl hys (.cons hne .nil) hpl)⟩

end Turned

/-- A rotation by selected angles that is logged is part of the operation. -/
def Selects : Operation → Prop
  | .ucr _ xs _ _ => ∃ x ∈ xs, snap x ≠ 0
  | .diagonal zs qs => ∃ axis xs cs t, .ucr axis xs cs t ∈ (diagonal zs qs).parts ∧ ∃ x ∈ xs, snap x ≠ 0
  | _ => False

lemma isKept_ucr : (ucr axis xs cs t).isKept = true ↔ (ucr axis xs cs t).Selects := by
  simp [isKept, gate, Gate.isTransparent, vanishes, Selects]

end Operation

namespace Entry

variable {e : Entry ℝ} {o : Operation} {i : Inverted ℝ}

/-- **An entry is inverted as what it stands for**, if this is not made of rotations by selected
angles. -/
theorem Unfolds.exists_turns (h : e.Unfolds n o) (hu : ∀ axis xs cs t, o ≠ .ucr axis xs cs t)
    (hd : ∀ zs qs, o ≠ .diagonal zs qs) : ∃ f, Turns n e f o.snapped.inverse := by
  obtain @⟨operands, k, es, o, hv, hk, hr, hi⟩ := h
  cases o with
  | of b r ps cs ts => exact exists_turned_of hr hv.snapped.shaped.1 _ _
  | ucr axis xs cs t => exact absurd rfl (hu axis xs cs t)
  | diagonal zs qs => exact absurd rfl (hd zs qs)
  | pauliMultiplexor axis xs cs t => simp [isKept, Operation.gate, Gate.isTransparent] at hk
  | identity ts =>
    rw [inner_identity hv] at hi
    cases hi
    refine ⟨⟨some (.known .identity), operands, k, .entries []⟩, ?_, ?_, rfl, hr.denotes⟩
    · simp [isComposite]
    · have hke : operands.map fst = [Key.qubitIndices] := hr.keys
      rw [turned, invertingKey?_eq_none (by rw [hke]; decide)]
      rfl
  | globalPhase a =>
    obtain ⟨⟨_, x⟩, rfl, rfl⟩ := map_eq_singleton_iff.mp hr.keys
    obtain ⟨_, hx, ha⟩ := forall₂_one hr.denotes.means
    cases hx
    obtain ⟨y, hy, hn⟩ := negate ha
    exact ⟨_, turns_of_key (invertingKey?_angle rfl) rfl (by simp) hy rfl ⟨rfl, rfl, .cons hn .nil⟩⟩

lemma replacement_eq_none (h : e.isComposite = false) (hi : (invert e).2 = .ok i) :
    i.replacement = none ∧ e.turned = .ok i.entry := by
  rw [snd_invert_of_not_composite h] at hi
  cases ht : e.turned with
  | error f => rw [ht] at hi; cases hi
  | ok f => rw [ht] at hi; cases hi; exact ⟨rfl, rfl⟩

lemma Unfolds.triple (h : e.Unfolds n (.ucr axis xs cs t))
    (hi : (invert e).2 = .ok i) : i.replacement = none ∧ i.entry.IsTriple := by
  obtain @⟨_, k, es, _, -, -, hr, -⟩ := h
  have hke : _ = [Key.angles, .controlIndices, .targetIndex] := hr.keys
  obtain ⟨⟨_, x⟩, _, rfl, rfl, hre⟩ := map_eq_cons_iff.mp hke
  obtain ⟨⟨_, y⟩, _, rfl, rfl, hl⟩ := map_eq_cons_iff.mp hre
  obtain ⟨⟨_, z⟩, rfl, rfl⟩ := map_eq_singleton_iff.mp hl
  obtain ⟨_, _, _, hx, htu, -⟩ := forall₂_three hr.denotes.means
  cases hx
  have hn : ∀ {k}, k.isQubit = false → k ∉ [(Key.controlIndices, y), (.targetIndex, z)].map fst := by
    rintro k hk hm
    simp only [map_cons, map_nil, mem_cons, not_mem_nil, or_false] at hm
    rcases hm with rfl | rfl <;> cases hk
  obtain ⟨hp, ht⟩ := turned_of_key
    (e := ⟨some (.known (.ucr axis)), (.angles, x) :: [(.controlIndices, y), (.targetIndex, z)], k, .entries es⟩)
    (invertingKey?_angles rfl (hn rfl)) rfl (hn rfl)
  obtain ⟨hno, he⟩ := replacement_eq_none hp hi
  refine ⟨hno, ?_⟩
  rw [ht] at he
  cases hangles : negateAngles x with
  | error f => rw [hangles] at he; cases he
  | ok y' =>
    obtain ⟨a, b, c, rfl⟩ := negateAngles_turns htu hangles
    rw [hangles] at he
    exact ⟨axis, a, b, c, y, z, congrArg gate (Except.ok.inj he).symm, congrArg operands (Except.ok.inj he).symm⟩

end Entry

/-! ### Logs that are inverted -/

namespace Entry

section Splice

variable {α : Type} {T : Entry α → Prop} {done : List (Inverted α)}

lemma exists_mem_splice {os : List (Option (List (Entry α)))} (hs : ∀ xs, some xs ∈ os → ∃ x ∈ xs, T x)
    (h : ∃ o ∈ os, o ≠ none) (i : ℕ) (log : List (Entry α)) : ∃ x ∈ splice os i log, T x := by
  induction os generalizing i log with
  | nil => simp at h
  | cons o os ih =>
    by_cases hr : ∃ o ∈ os, o ≠ none
    · have hi := ih (fun xs hxs => hs xs (mem_cons_of_mem _ hxs)) hr
      cases o with
      | none => exact hi _ _
      | some xs => exact hi _ _
    · push Not at hr
      cases o with
      | none =>
        obtain ⟨o, ho, hn⟩ := h
        rcases mem_cons.mp ho with rfl | ho
        · exact absurd rfl hn
        · exact absurd (hr o ho) hn
      | some xs =>
        obtain ⟨x, hx, hT⟩ := hs xs mem_cons_self
        refine ⟨x, ?_, hT⟩
        rw [splice, splice_of_forall_none hr]
        simp [hx]

lemma exists_mem_assemble (hs : ∀ i ∈ done, ∀ xs, i.replacement = some xs → ∃ x ∈ xs, T x)
    (h : ∃ i ∈ done, i.replacement ≠ none ∨ T i.entry) : ∃ x ∈ assemble done, T x := by
  by_cases hn : ∃ i ∈ done, i.replacement ≠ none
  · refine exists_mem_splice (fun xs hxs => ?_) ?_ 0 _
    · obtain ⟨i, hi, hxs⟩ := mem_map.mp hxs; exact hs i hi xs hxs
    · obtain ⟨i, hi, hne⟩ := hn; exact ⟨_, mem_map_of_mem hi, hne⟩
  · push Not at hn
    obtain ⟨i, hi, hne | hT⟩ := h
    · exact absurd (hn i hi) hne
    · refine ⟨i.entry, ?_, hT⟩
      rw [assemble, splice_of_forall_none (by simpa using hn)]
      exact mem_map_of_mem hi

variable [Scalar α]

lemma forall₂_invertAll {es : List (Entry α)} (h : (invertAll es).2 = .ok done) :
    Forall₂ (fun e i => (invert e).2 = .ok i) es.reverse done := by
  induction es generalizing done with
  | nil =>
    cases h
    exact .nil
  | cons e es ih =>
    rw [snd_invertAll_cons] at h
    cases hes : (invertAll es).2 with
    | error f => rw [hes] at h; cases h
    | ok done' =>
      cases he : (invert e).2 with
      | error f => rw [hes, he] at h; cases h
      | ok i =>
        rw [hes, he] at h
        cases h
        rw [reverse_cons]
        exact rel_append (ih hes) (.cons he .nil)

lemma assemble_inPlace {es fs : List (Entry α)}
    (h : Forall₂ (fun e f => e.isComposite = false ∧ e.turned = .ok f) es fs) :
    ∃ done, (invertAll es).2 = .ok done ∧ assemble done = fs.reverse := by
  have hd : (invertAll es).2 = .ok (fs.reverse.map fun f => ⟨f, none⟩) := by
    induction h with
    | nil => rw [invertAll]; rfl
    | cons h _ ih =>
      rw [snd_invertAll_cons, ih, snd_invert_of_not_composite h.1, h.2]
      simp [Except.bind, Except.map]
  refine ⟨_, hd, ?_⟩
  rw [assemble, splice_of_forall_none (by simp), map_map]
  exact map_id _

end Splice

variable {e : Entry ℝ} {o : Operation} {i : Inverted ℝ}

lemma Unfolds.invert_cases (h : e.Unfolds n o) (hi : (invert e).2 = .ok i) :
    ((∀ zs qs, o ≠ .diagonal zs qs) → i.replacement = none) ∧
      ((∃ axis xs cs t, o = .ucr axis xs cs t) → i.entry.IsTriple) := by
  by_cases hu : ∃ axis xs cs t, o = .ucr axis xs cs t
  · obtain ⟨axis, xs, cs, t, rfl⟩ := hu
    obtain ⟨hn, ht⟩ := h.triple hi
    exact ⟨fun _ => hn, fun _ => ht⟩
  · refine ⟨fun hd => ?_, fun h => absurd h hu⟩
    push Not at hu
    obtain ⟨f, hf⟩ := h.exists_turns hu hd
    exact (replacement_eq_none hf.inPlace hi).1

lemma exists_triple {os : List Operation} (h : List.Forall₂ (Unfolds n) es os)
    {done : List (Inverted ℝ)} (hdo : (invertAll es).2 = .ok done)
    (hd : ∀ zs qs e i, .diagonal zs qs ∈ os → Unfolds n e (.diagonal zs qs) → (invert e).2 = .ok i →
      ∃ xs, i.replacement = some xs ∧ ∃ x ∈ xs, IsTriple x)
    (hs : ∃ o ∈ os, (∃ axis xs cs t, o = .ucr axis xs cs t) ∨ ∃ zs qs, o = .diagonal zs qs) :
    ∃ x ∈ assemble done, x.IsTriple := by
  have ha := forall₂_invertAll hdo
  refine exists_mem_assemble (fun i hi xs hxs => ?_) ?_
  · obtain ⟨e, he, hin⟩ := exists_of_forall₂ ha i hi
    obtain ⟨o, ho, hu⟩ := exists_of_forall₂ h.flip e (mem_reverse.mp he)
    by_cases hdi : ∃ zs qs, o = .diagonal zs qs
    · obtain ⟨zs, qs, rfl⟩ := hdi
      obtain ⟨xs', hxs', x, hx, ht⟩ := hd zs qs e i ho hu hin
      rw [hxs] at hxs'
      cases hxs'
      exact ⟨x, hx, ht⟩
    · push Not at hdi
      rw [(hu.invert_cases hin).1 hdi] at hxs
      cases hxs
  · obtain ⟨o, ho, hk⟩ := hs
    obtain ⟨e, he, hu⟩ := exists_of_forall₂ h o ho
    obtain ⟨i, hi, hin⟩ := exists_of_forall₂ ha.flip e (mem_reverse.mpr he)
    refine ⟨i, hi, ?_⟩
    rcases hk with huc | ⟨zs, qs, rfl⟩
    · exact .inr ((hu.invert_cases hin).2 huc)
    · obtain ⟨xs, hxs, -⟩ := hd zs qs e i ho hu hin; exact .inl (by simp [hxs])

lemma Unfolds.exists_replacement {zs : List ℂ} {qs : List ℕ} (h : e.Unfolds n (.diagonal zs qs))
    (hs : (diagonal zs qs).Selects) (hi : (invert e).2 = .ok i) :
    ∃ xs, i.replacement = some xs ∧ ∃ x ∈ xs, x.IsTriple := by
  obtain @⟨operands, k, es, _, hv, -, hre, hin⟩ := h
  obtain ⟨axis, xs, cs, t, hp, hn⟩ := hs
  have hm := mem_inner_of_isKept hv rfl hp (isKept_ucr.mpr hn)
  rw [unfoldAll_iff] at hin
  have hk : operands.map fst = [Key.diagonalEntries, .qubitIndices] := hre.keys
  have hke : invertingKey? (⟨some (.known .diagonal), operands, k, .entries es⟩ : Entry ℝ) = none :=
    invertingKey?_eq_none (by rw [hk]; decide)
  have hne : es ≠ [] := by rintro rfl; rw [forall₂_nil_left_iff.mp hin] at hm; cases hm
  have hco : isComposite (⟨some (.known .diagonal), operands, k, .entries es⟩ : Entry ℝ) = true := by
    rw [isComposite, hke]
    cases es with
    | nil => exact absurd rfl hne
    | cons e es => rfl
  change (invert ⟨some (.known .diagonal), operands, k, .entries es⟩).2 = .ok i at hi
  rw [snd_invert_of_composite hco] at hi
  cases hd : (invertAll es).2 with
  | error f => rw [hd] at hi; cases hi
  | ok done =>
    rw [hd] at hi
    cases hi
    refine ⟨_, rfl, exists_triple hin hd (fun zs' qs' e i hm' => ?_) ⟨_, hm, .inl ⟨_, _, _, _, rfl⟩⟩⟩
    -- what a diagonal is defined by lies deeper than a diagonal
    obtain ⟨-, -, -, -, -, hr⟩ := mem_inner hv hm'
    exact absurd hr (lt_irrefl _)

end Entry

/-! ### Circuits -/

namespace Circuit

variable {ps : List Operation}

section Reverse

variable {c c' : Circuit ℝ} {done : List (Inverted ℝ)} {f : Fault}

lemma after_horizontalReverse {out : Outcome Unit} (h : (invertAll c.log.toList).2 = .ok done)
    (hr : replay (assemble done) c.fresh = (es, c', out)) :
    c.after (horizontalReverse true) = out.map fun _ => c' := by
  have hi : invertAll c.log.toList = (_, .ok done) := Prod.ext rfl h
  rw [after, horizontalReverse, perform_get_bind, if_pos rfl, hi]
  exact after_update hr

lemma after_horizontalReverse_of_invertAll (h : (invertAll c.log.toList).2 = .error f) :
    c.after (horizontalReverse true) = .error f := by
  have hi : invertAll c.log.toList = (_, .error f) := Prod.ext rfl h
  rw [after, horizontalReverse, perform_get_bind, if_pos rfl, hi]
  rfl

end Reverse

lemma exists_turned (h : Forall₂ (Unfolds n) es ps)
    (hu : ∀ axis xs cs t, .ucr axis xs cs t ∉ ps) (hd : ∀ zs qs, .diagonal zs qs ∉ ps) :
    ∃ fs, Forall₂ (fun e f => e.isComposite = false ∧ e.turned = .ok f) es fs ∧
      Forall₂ (fun f o => Carries n (applyNamed f.gate f.operands) [.gate o]) fs
        (ps.map fun p => p.snapped.inverse) := by
  induction h with
  | nil => exact ⟨[], .nil, .nil⟩
  | @cons e p es ps he _ ih =>
    obtain ⟨fs, hfs, hca⟩ := ih (fun axis xs cs t h => hu axis xs cs t (mem_cons_of_mem _ h))
      fun zs qs h => hd zs qs (mem_cons_of_mem _ h)
    obtain ⟨f, hf⟩ := he.exists_turns (fun axis xs cs t h => hu axis xs cs t (h ▸ mem_cons_self))
      fun zs qs h => hd zs qs (h ▸ mem_cons_self)
    obtain ⟨hv, -⟩ := he
    refine ⟨f :: fs, .cons ⟨hf.inPlace, hf.turned⟩ hfs, .cons ?_ hca⟩
    rw [hf.gate]
    exact carries_gate hf.denotes hv.snapped.inverse

/-- **A circuit whose log stands for operations that do not select is reversed**: the log that it gets
stands for what undoes them, the last one first. -/
theorem exists_reversed {c : Circuit ℝ} {g : ℝ} (ho : c.Open n g)
    (h : Forall₂ (Unfolds n) c.log.toList ps) (hu : ∀ axis xs cs t, .ucr axis xs cs t ∉ ps)
    (hd : ∀ zs qs, .diagonal zs qs ∉ ps) :
    ∃ c' g', c.after (horizontalReverse true) = .ok c' ∧ c'.Open n g' ∧
      c'.steps = ((ps.map snapped).reverse.map Operation.inverse).flatMap prims ∧ Forall₂ (Unfolds n) c'.log.toList
        (((ps.map snapped).reverse.map Operation.inverse).flatMap kept) := by
  obtain ⟨fs, hfs, hca⟩ := exists_turned h hu hd
  obtain ⟨done, hdo, ha⟩ := assemble_inPlace hfs
  have hi : ((ps.map fun p => p.snapped.inverse).reverse) = (ps.map snapped).reverse.map Operation.inverse := by
    rw [map_reverse, map_map]; rfl
  have hr : Forall₂ (fun e i => Carries n (applyNamed e.gate e.operands) [i]) fs.reverse
      (((ps.map snapped).reverse.map Operation.inverse).map .gate) :=
    hi ▸ forall₂_map_right_iff.mpr (forall₂_reverse_iff.mpr hca)
  obtain ⟨c', hre, ho', hs', hl⟩ := ho.replay_carries hr
  rw [Item.flatMap_prims_gates] at hs'
  rw [Item.flatMap_kept_gates, forall₂_map_right_iff] at hl
  rw [← ha] at hre
  exact ⟨c', _, after_horizontalReverse hdo hre, ho', hs', hl⟩

section Settled

variable {c : Circuit ℝ} {os : List Operation} (hgood : ∀ o ∈ os, o.Good n)
  (hangles : ∀ o ∈ os, ∀ x ∈ o.angles, Settled x)
include hgood hangles

/-- **A circuit in which nothing selects is reversed.** -/
theorem exists_inverse (h : Made n c (os.map .gate)) (hse : ∀ o ∈ os, ¬ o.Selects)
    (hd : ∀ zs qs, .diagonal zs qs ∉ os) :
    ∃ c', c.after (horizontalReverse true) = .ok c' ∧ c'.operator n * c.operator n = 1 := by
  have hk := of_mem_flatMap_kept hgood hangles
  have ha := acts_kept hgood hangles
  have hu := h.unfolds
  obtain ⟨hoe, hs, -⟩ := h.holds
  rw [Item.flatMap_prims_gates] at hs
  set ps := os.flatMap kept
  have huc : ∀ axis xs cs t, .ucr axis xs cs t ∉ ps := fun axis xs cs t hp =>
    (hk _ hp).2.2.elim (fun ho => hse _ ho (isKept_ucr.mp (hk _ hp).2.1)) id
  obtain ⟨c', g', hr, hoe', hs', -⟩ := exists_reversed hoe hu huc fun zs qs hp => (hk _ hp).2.2.elim (hd zs qs) id
  refine ⟨c', hr, ?_⟩
  have hsn : ∀ p ∈ ps.map snapped, p.Good n := forall_mem_map.mpr fun p hp => (hk p hp).1
  obtain ⟨-, hop⟩ := operator_of_steps hoe.numQubits hs hgood
  obtain ⟨hl, hop'⟩ := operator_of_steps hoe'.numQubits hs'
    (forall_mem_map.mpr fun p hp => (hsn p (mem_reverse.mp hp)).inverse)
  rw [hop, hop', ← matrixOf_comp hl, ← matrixOf_id]
  refine congrArg (matrixOf n) (funext fun V => ?_)
  rw [← ha, acts_inverse fun p hp => (hsn p hp).toValid]
  rfl

/-- **A circuit in which something selects cannot be reversed**, if its diagonals do. -/
theorem exists_fault_of_selects (h : Made n c (os.map .gate)) (hs : ∃ o ∈ os, o.Selects)
    (hdi : ∀ zs qs, .diagonal zs qs ∈ os → (diagonal zs qs).Selects) :
    ∃ f, c.after (horizontalReverse true) = .error f := by
  cases hd : (invertAll c.log.toList).2 with
  | error f => exact ⟨f, after_horizontalReverse_of_invertAll hd⟩
  | ok done =>
    obtain ⟨o, ho, hs⟩ := hs
    obtain ⟨hk, hki⟩ : o.isKept = true ∧ ((∃ axis xs cs t, o = .ucr axis xs cs t) ∨ ∃ zs qs, o = .diagonal zs qs) := by
      cases o with
      | ucr axis xs cs t => exact ⟨isKept_ucr.mpr hs, .inl ⟨_, _, _, _, rfl⟩⟩
      | diagonal zs qs => exact ⟨rfl, .inr ⟨_, _, rfl⟩⟩
      | _ => exact hs.elim
    have hm : o ∈ os.flatMap kept := by
      refine mem_flatMap.mpr ⟨o, ho, ?_⟩
      rw [kept_of_isKept (hgood o ho).toValid hk]
      exact mem_singleton_self o
    obtain ⟨x, hx, ht⟩ := exists_triple h.unfolds hd (fun zs qs e i hm he hi =>
      he.exists_replacement (hdi zs qs
        ((of_mem_flatMap_kept hgood hangles _ hm).2.2.resolve_right id)) hi) ⟨o, hm, hki⟩
    obtain ⟨es, c', f, hr⟩ := replay_error hx (fails_triple ht) c.fresh
    exact ⟨f, after_horizontalReverse hd hr⟩

/-- **Reversing a circuit.**  For a circuit that was made by gate calls whose angles are none or too far
from whole turns to be taken for one, and that are carried out exactly: if nothing in it selects, the
reversal goes through and the circuit's matrix is the inverse of what it was; otherwise it ends in a
fault.  Diagonals that do not select are left aside. -/
theorem horizontalReverse_inverts (h : Made n c (os.map .gate))
    (hdiagonal : ∀ zs qs, .diagonal zs qs ∈ os → (Operation.diagonal zs qs).Selects) :
    ((∀ o ∈ os, ¬ o.Selects) →
      ∃ c', c.after (horizontalReverse true) = .ok c' ∧ c'.operator n * c.operator n = 1) ∧
    ((∃ o ∈ os, o.Selects) → ∃ f, c.after (horizontalReverse true) = .error f) :=
  ⟨fun hs => exists_inverse hgood hangles h hs fun zs qs ho => hs _ ho (hdiagonal zs qs ho),
    fun hs => exists_fault_of_selects hgood hangles h hs hdiagonal⟩

end Settled

/-- A phase, a rotation under a control and a power of a negation. -/
theorem horizontalReverse_inverts_three : ∃ c, Made 2 c [.gate (.on .t [0]),
      .gate (.of .ry .controlled [1] [0] [1]), .gate (.of .xPow .plain [1 / 3, 0] [] [1])] ∧
    ∃ c', c.after (horizontalReverse true) = .ok c' ∧ c'.operator 2 * c.operator 2 = 1 := by
  have hgood : ∀ o ∈ [.on .t [0], .of .ry .controlled [1] [0] [1], .of .xPow .plain [1 / 3, 0] [] [1]],
      Good 2 o := by
    simp only [forall_mem_cons]
    refine ⟨⟨⟨⟨rfl, rfl, by decide⟩, by decide, by decide⟩, by simp [turns_plain]⟩,
      ⟨⟨⟨rfl, rfl, by decide⟩, by decide, by decide⟩, by simp [Operation.turns, Base.turns, turnsUnder]⟩,
      ⟨⟨⟨rfl, rfl, by decide⟩, by decide, by decide⟩, by simp [turns_plain]⟩, by simp⟩
  have hangles : ∀ o ∈ [on .t [0], .of .ry .controlled [1] [0] [1],
      .of .xPow .plain [1 / 3, 0] [] [1]], ∀ x ∈ o.angles, Settled x := by
    have hon : Settled 1 := .inr far_one
    simpa [angles, isAngular] using hon
  obtain ⟨c, hg⟩ := exists_made (by decide) fun o ho => (hgood o ho).toValid
  exact ⟨c, hg, (horizontalReverse_inverts hgood hangles hg (by simp)).1 (by simp [Selects])⟩

/-- Two angles to select from are too few to be inverted. -/
theorem not_horizontalReverse_selected : ∃ c f, (empty .reference 2 : Circuit ℝ).after (apply (.ucr .y)
      [(.angles, .list [.real (3 / 10), .real (1 / 2)]), (.controlIndices, .list [.int 1]),
        (.targetIndex, .int 0)]) = .ok c ∧ c.after (horizontalReverse true) = .error f := by
  have hfa : ∀ x : ℝ, 3 / 10 ≤ x → x ≤ 1 / 2 → Far x := fun x hl hh =>
    far_of_between (by norm_num; linarith) (by norm_num; linarith [two_le_pi])
  obtain ⟨c, ha, hc⟩ := (made_sized two_pos).exists_call (bind_of_denotes (denotes_selectedTurn (3 / 10) (1 / 2)))
    (.gate (denotes_selectedTurn (3 / 10) (1 / 2)) (good_selectedTurn _ _).toValid)
  have hg : Made 2 c ([selectedTurn (3 / 10) (1 / 2)].map .gate) := hc
  have hgood : ∀ o ∈ [selectedTurn (3 / 10) (1 / 2)], o.Good 2 := by simpa using good_selectedTurn _ _
  have hangles : ∀ o ∈ [selectedTurn (3 / 10) (1 / 2)], ∀ x ∈ o.angles, Settled x := by
    simpa [angles] using
      ⟨.inr (hfa _ le_rfl (by norm_num)), .inr (hfa _ (by norm_num) (by norm_num))⟩
  have hsn : snap (3 / 10) = 3 / 10 := Settled.snap (.inr (hfa _ le_rfl (by norm_num)))
  have hs : (selectedTurn (3 / 10) (1 / 2)).Selects := ⟨3 / 10, by simp, by rw [hsn]; norm_num⟩
  obtain ⟨f, hf⟩ := exists_fault_of_selects hgood hangles hg ⟨_, mem_singleton_self _, hs⟩ (by simp)
  exact ⟨c, f, ha, hf⟩

end Circuit

end QuantumCircuits
