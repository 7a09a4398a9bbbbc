import QuantumCircuits.Proofs.Log.Reverse
import QuantumCircuits.Proofs.Log.Sound

/-!
# Log — Indices

Which rotations are rejected because of their qubits.  The whole numbers that a call names its qubits by
are `Proper` if they are in range, counted from the end if negative, and name different qubits.

The angles of a call come first and are looked at first, and a call all of whose angles count as zero is
not checked any further.  So a rotation by any other angle is rejected exactly if its qubits are not proper
(`Recording.faulty_of_improper`).  A rotation by zero is rejected only if one of the calls that it stands for
is.  Of some gates, one of these calls names all qubits again and has no angle that could be zero
(`Gate.rechecks`); these gates reject what is not proper by all angles.  The others do not: nothing notices
that a qubit is named twice in a rotation by zero about the second axis.
-/

namespace QuantumCircuits

open List Change Recording

variable {n : ℕ}
variable {b : Base} {xs : List (Operand ℝ)} {qs : List ℕ} {c : Call ℝ} {x : Operand ℝ} {k : Key}
  {slot : Slot}

/-! ### Whole numbers for qubits -/

/-- The whole number names a qubit of a circuit on `n` qubits. -/
def InRange (n : ℕ) (i : ℤ) : Prop := -(n : ℤ) ≤ i ∧ i < n

def placeOf (n : ℕ) (i : ℤ) : ℕ := (if 0 ≤ i then i else i + n).toNat

/-- The whole numbers name qubits, and different ones. -/
structure Proper (n : ℕ) (is : List ℤ) : Prop where
  inRange : ∀ i ∈ is, InRange n i
  nodup : (is.map (placeOf n)).Nodup

namespace Operand

/-- The operand is a whole number. -/
structure IsWhole (x : Operand ℝ) (i : ℤ) : Prop where
  isInt : x.isInt = true
  toInt? : x.toInt? = some i

/-- The operand is a whole number or a sequence of whole numbers. -/
def Names (x : Operand ℝ) (is : List ℤ) : Prop := ∃ xs, x.listed.HasItems xs ∧ Forall₂ IsWhole xs is

variable {x : Operand ℝ} {xs : List (Operand ℝ)} {i : ℤ} {is : List ℤ}

lemma isWhole_int (i : ℤ) : IsWhole (.int i) i := ⟨rfl, rfl⟩

lemma IsWhole.listed (h : x.IsWhole i) : x.listed = .list [x] := if_pos h.isInt

lemma IsWhole.names (h : x.IsWhole i) : x.Names [i] := ⟨[x], by rw [h.listed]; rfl, .cons h .nil⟩

lemma names_list (h : Forall₂ IsWhole xs is) : (Operand.list xs).Names is := ⟨xs, rfl, h⟩

lemma Names.listed (h : x.Names is) : x.listed.Names is := by
  obtain ⟨xs, hxs, hi⟩ := h; exact ⟨xs, by rwa [hxs.listed], hi⟩

lemma IsWhole.isQubit (h : x.IsWhole i) (hi : InRange n i) : x.IsQubit n (placeOf n i) := by
  refine ⟨h.isInt, ?_⟩; rw [Sink.wrap, h.toInt?]; exact if_pos hi

lemma forall₂_isQubit (h : Forall₂ IsWhole xs is) (his : ∀ i ∈ is, InRange n i) :
    Forall₂ (IsQubit n) xs (is.map (placeOf n)) := by
  induction h with
  | nil => exact .nil
  | cons hx _ ih =>
    obtain ⟨hi, his⟩ := forall_mem_cons.mp his
    exact .cons (hx.isQubit hi) (ih his)

lemma Names.isQubits (h : x.Names is) (hi : ∀ i ∈ is, InRange n i) : x.IsQubits n (is.map (placeOf n)) := by
  obtain ⟨xs, hxs, h⟩ := h; exact ⟨xs, hxs, forall₂_isQubit h hi⟩

lemma IsWhole.checkIndex (h : x.IsWhole i) (hi : ¬ InRange n i) : ∃ f, checkIndex n x = .error f := by
  refine ⟨.indexRange x.indexText (n - 1), ?_⟩
  rw [InRange] at hi
  simp only [QuantumCircuits.checkIndex, h.isInt, h.toInt?, Bool.not_true, Bool.false_eq_true, if_false,
    Option.getD_some]
  exact if_pos (by omega)

lemma mapM_checkIndex_error (h : Forall₂ IsWhole xs is) (his : ∃ i ∈ is, ¬ InRange n i) :
    ∃ f, xs.mapM (QuantumCircuits.checkIndex n) = .error f := by
  induction h with
  | nil => simp at his
  | @cons x i xs is hx _ ih =>
    rw [mapM_cons]
    by_cases hi : InRange n i
    · obtain ⟨f, hf⟩ := ih (by simpa [hi] using his)
      rw [hf]
      rcases QuantumCircuits.checkIndex n x with e | y
      · exact ⟨e, rfl⟩
      · exact ⟨f, rfl⟩
    · obtain ⟨f, hf⟩ := hx.checkIndex hi; exact ⟨f, by rw [hf]; rfl⟩

lemma checkQubits_list_error (h : Forall₂ IsWhole xs is) (hi : ∃ i ∈ is, ¬ InRange n i) :
    ∃ f, checkQubits n (.list xs) = .error f := by
  match xs, h with
  | [], .nil => simp at hi
  | [x], .cons hx .nil => exact hx.checkIndex (by simpa using hi)
  | x :: y :: xs, h =>
    obtain ⟨f, hf⟩ := mapM_checkIndex_error h hi
    exact ⟨f, by simp only [checkQubits, hf, bind, Except.bind]⟩

lemma Names.check_error (h : x.Names is) (his : ∃ i ∈ is, ¬ InRange n i) :
    ∃ v f, x.toPlain = .ok v ∧ checkQubits n v = .error f := by
  obtain ⟨xs, hxs, h⟩ := h
  by_cases hin : x.isInt = true
  · rw [Operand.listed, if_pos hin] at hxs
    obtain rfl : xs = [x] := hxs
    obtain ⟨i, hx, rfl⟩ : ∃ i, x.IsWhole i ∧ is = [i] := by
      obtain ⟨i, rest, hi, hr, rfl⟩ := forall₂_cons_left_iff.mp h
      obtain rfl := forall₂_nil_left_iff.mp hr
      exact ⟨i, hi, rfl⟩
    have hi : ¬ InRange n i := by simpa using his
    cases x with
    | int j =>
      obtain ⟨f, hf⟩ := hx.checkIndex hi
      exact ⟨_, f, rfl, hf⟩
    | bool b =>
      have hx' : (int (if b then 1 else 0) : Operand ℝ).IsWhole i := ⟨rfl, hx.toInt?⟩
      obtain ⟨f, hf⟩ := hx'.checkIndex hi
      exact ⟨_, f, rfl, hf⟩
    | _ => cases hin
  · rw [Operand.listed, if_neg hin] at hxs
    obtain ⟨f, hf⟩ := checkQubits_list_error h his
    exact ⟨_, f, hxs.toPlain, hf⟩

lemma toInt?_of_isIndex (h : Forall₂ (IsIndex n) xs qs) : xs.map Operand.toInt? = qs.map fun q : ℕ => some (q : ℤ) := by
  induction h with
  | nil => rfl
  | cons hx _ ih => rw [map_cons, map_cons, hx.toInt?, ih]

lemma nodup_of_distinctIndices (h : Forall₂ (IsIndex n) xs qs) (hxs : distinctIndices xs = true) : qs.Nodup := by
  rw [distinctIndices_iff, toInt?_of_isIndex h] at hxs; exact hxs.of_map _

end Operand

/-! ### Checks of qubits -/

/-- The operand stands under the name of a qubit operand, and holds whole numbers. -/
def NamesQubits (p : Key × Operand ℝ) (is : List ℤ) : Prop := p.1.isQubit = true ∧ p.2.Names is

/-- The operand names qubits by whole numbers, or it holds angles that are not all zero. -/
def Decides (n : ℕ) (x : Key × Operand ℝ) (is : List ℤ) : Prop := NamesQubits x is ∨ is = [] ∧
  ∃ s : Slot, s.Fits x.1 ∧ s.Means n x.2 ∧ s.qubitList = [] ∧ s.vanishes = false

/-- **Operands whose whole numbers do not name different qubits do not pass**, together with those that
were checked before, unless they turn by zero. -/
theorem validateFrom_error {os : Operands ℝ} {iss : List (List ℤ)}
    (h : Forall₂ (Decides n) os iss) (hxs : Forall₂ (Operand.IsIndex n) xs qs)
    (hbad : (∀ i ∈ iss.flatten, InRange n i) → ¬ (qs ++ iss.flatten.map (placeOf n)).Nodup)
    (done : Operands ℝ) : ∃ f, validateFrom n os xs done = .error f := by
  induction h generalizing xs qs done with
  | nil =>
    have hd : distinctIndices xs ≠ true := fun h =>
      hbad (by simp) (by simpa using Operand.nodup_of_distinctIndices hxs h)
    exact ⟨_, if_neg hd⟩
  | @cons x is os iss hx _ ih =>
    obtain ⟨k, x⟩ := x
    rcases hx with hx | ⟨rfl, s, hfi, hm, hq, ht⟩
    · by_cases hi : ∀ i ∈ is, InRange n i
      · obtain ⟨v, w, hv, hw, hch⟩ := (hx.2.isQubits hi).check
        rw [validateFrom_qubit os xs done hx.1 hv hw]
        refine ih (rel_append hxs hch.indices) (fun hr hn => hbad ?_ ?_) _
        · rw [flatten_cons]; exact forall_mem_append.mpr ⟨hi, hr⟩
        · rwa [flatten_cons, map_append, ← append_assoc]
      · obtain ⟨v, f, hv, hf⟩ := hx.2.check_error (show ∃ i ∈ is, ¬ InRange n i by simpa using hi)
        refine ⟨f, ?_⟩
        rw [validateFrom]
        simp [show k.isQubit = true from hx.1, hv, hf, bind, Except.bind]
    · obtain ⟨w, ys, -, hys, he⟩ := hm.validateFrom hfi os xs done
      rw [hq, forall₂_nil_right_iff] at hys
      rw [he, ht, hys, append_nil, if_neg Bool.false_ne_true]
      exact ih hxs (by simpa using hbad) _

/-- The call fails, at whatever depth and whatever the circuit on `n` qubits. -/
def Call.Faulty (n : ℕ) (c : Call ℝ) : Prop := ∀ d, Fails (performAt ⟨n, true⟩ d c)

namespace Recording

lemma faulty_of_error {f : Fault} (hg : c.gate.isTransparent = false)
    (h : validate n c.operands = .error f) : c.Faulty n := by
  intro d
  cases d with
  | zero => exact fails_ofOutcome _
  | succ d =>
    rw [performAt]
    refine fails_bind _ fun _ => fails_bind _ fun positions => fails_flipping (fun r => ⟨f, ?_⟩) _ _
    rw [perform_logged_error hg h]

lemma faulty_of_improper {g : Gate} {os : Operands ℝ} {iss : List (List ℤ)}
    (hg : g.isTransparent = false) (h : Forall₂ (Decides n) os iss)
    (hbad : ¬ Proper n iss.flatten) (state : Operand ℝ) : Call.Faulty n ⟨g, os, state⟩ := by
  obtain ⟨f, hf⟩ := validateFrom_error h .nil (fun hr hn => hbad ⟨hr, hn⟩) []
  exact faulty_of_error (c := ⟨g, os, state⟩) hg hf

end Recording

/-! ### Plans that come to a call -/

namespace Plan

variable {β γ : Type} {P : Call ℝ → Prop}
variable {g : Gate} {f : β → Plan ℝ γ}

def Extends (cs ds : Array (Call ℝ)) : Prop := cs.toList <+: ds.toList

instance : IsPreorder (Array (Call ℝ)) Extends where
  refl _ := prefix_rfl
  trans _ _ _ h h' := h.trans h'

abbrev Adds (p : Plan ℝ β) : Prop := Keeps Extends p

/-- The plan ends in a fault or comes to a call with a property. -/
def Meets (P : Call ℝ → Prop) (p : Plan ℝ β) : Prop := ∀ cs,
  (∃ f, (perform p cs).1 = .error f) ∨ ∃ c ∈ (perform p cs).2.toList, P c

lemma adds_call (g : Gate) (xs : List (Operand ℝ)) : Adds (call g xs) := keeps_modify fun cs => by simp [Extends]

lemma adds_get (x : Outcome β) : Adds (Plan.get x) := keeps_ofOutcome x

lemma adds_joined (x y : Operand ℝ) : Adds (joined x y) := (adds_get _).bind fun _ => adds_get _

lemma meets_callUnder {state : Operand ℝ} (h : P ⟨g, g.keys.zip xs, state⟩) : Meets P (callUnder state g xs) := by
  intro cs
  rw [callUnder, perform_modify]
  exact .inr ⟨_, by rw [Array.toList_push]; exact mem_append_right _ (mem_singleton_self _), h⟩

lemma meets_call (h : P ⟨g, g.keys.zip xs, .none⟩) : Meets P (call g xs) := meets_callUnder h

/-- What comes after the call only adds to the plan; where it is made of calls, this is seen by going through it. -/
lemma Meets.bind {p : Plan ℝ β} (hp : Meets P p) (hf : ∀ b, Adds (f b) := by
    intro; repeat' first | with_reducible refine .bind ?_ fun _ => ?_ | exact adds_call _ _ | exact adds_get _ |
      exact adds_joined _ _) : Meets P (p >>= f) := by
  intro cs
  rw [perform_bind]
  have hcs := hp cs
  rcases hr : perform p cs with ⟨e | b, ds⟩ <;> rw [hr] at hcs
  · exact .inl ⟨e, rfl⟩
  · rcases hcs with ⟨f, hf⟩ | ⟨c, hc, hP⟩
    · cases hf
    · exact .inr ⟨c, (hf b ds).subset hc, hP⟩

lemma meets_bind (p : Plan ℝ β) (hf : ∀ b, Meets P (f b)) : Meets P (p >>= f) := by
  intro cs
  rw [perform_bind]
  rcases perform p cs with ⟨e | b, ds⟩
  · exact .inl ⟨e, rfl⟩
  · exact hf b ds

lemma meets_get {x : Outcome β} {b : β} (hx : x = .ok b) (hf : Meets P (f b)) :
    Meets P (Plan.get x >>= f) := by
  subst hx
  exact hf

lemma meets_forM {x : γ} {f : γ → Plan ℝ PUnit} (h : Meets P (f x)) : Meets P ([x].forM f) :=
  h.bind fun _ => keeps_pure _

lemma meets_joined {y : Operand ℝ} {f : Operand ℝ → Plan ℝ γ}
    (hx : x.HasItems xs) (hf : Meets P (f (.list (xs ++ [y])))) : Meets P (joined x y >>= f) := by
  have hl : x.toList = .ok (.list xs) := by rw [Operand.toList, hx.items]; rfl
  have hj : joined x y = get (.ok (.list (xs ++ [y]))) := by rw [joined, hl]; rfl
  rw [hj]
  exact hf

end Plan

lemma faulty_of_meets (hc : elementary? c = none) (h : Plan.Meets (Call.Faulty n) (Gate.plan n c)) : c.Faulty n := by
  refine fails_performAt hc fun d => fails_follow ?_
  rcases h #[] with hf | ⟨c, hc, hfa⟩
  · exact .inr hf
  · exact .inl ⟨c, hc, hfa d⟩

/-! ### Rotations and their qubits -/

/-- The qubit operands of a call that turns by angles, with the whole numbers for its controls and for its
targets. -/
inductive Aims : Gate → Operands ℝ → List ℤ → List ℤ → Prop where
  | plain {b : Base} {x : Operand ℝ} {ts : List ℤ} (hb : b.isAngular = true) (htwo : b.onTwo = false)
      (hx : x.Names ts) : Aims (.of b .plain) [(.qubitIndices, x)] [] ts
  | coupled {b : Base} {x y : Operand ℝ} {i j : ℤ} (hb : b.isAngular = true) (htwo : b.onTwo = true)
      (hx : x.IsWhole i) (hy : y.IsWhole j) :
      Aims (.of b .plain) [(.firstQubit, x), (.secondQubit, y)] [] [i, j]
  | controlled {b : Base} {x y : Operand ℝ} {c t : ℤ} (hb : b.isAngular = true) (htwo : b.onTwo = false)
      (hx : x.IsWhole c) (hy : y.IsWhole t) :
      Aims (.of b .controlled) [(.controlIndex, x), (.targetIndex, y)] [c] [t]
  | controlledCoupled {b : Base} {x y z : Operand ℝ} {c i j : ℤ} (hb : b.isAngular = true)
      (htwo : b.onTwo = true) (hx : x.IsWhole c) (hy : y.IsWhole i) (hz : z.IsWhole j) :
      Aims (.of b .controlled) [(.controlIndex, x), (.firstTarget, y), (.secondTarget, z)] [c] [i, j]
  | multi {b : Base} {x y : Operand ℝ} {cs ts : List ℤ} (hb : b.isAngular = true) (htwo : b.onTwo = false)
      (hcs : cs ≠ []) (hx : x.Names cs) (hy : y.Names ts) :
      Aims (.of b .multi) [(.controlIndices, x), (.targetIndices, y)] cs ts
  | multiCoupled {b : Base} {x y z : Operand ℝ} {cs : List ℤ} {i j : ℤ} (hb : b.isAngular = true)
      (htwo : b.onTwo = true) (hcs : cs ≠ []) (hx : x.Names cs) (hy : y.IsWhole i) (hz : z.IsWhole j) :
      Aims (.of b .multi) [(.controlIndices, x), (.firstTarget, y), (.secondTarget, z)] cs [i, j]
  /-- Rotations by selected angles. -/
  | selected {axis : Axis} {x y : Operand ℝ} {cs : List ℤ} {t : ℤ} (hx : x.Names cs) (hy : y.IsWhole t) :
      Aims (.ucr axis) [(.controlIndices, x), (.targetIndex, y)] cs [t]

namespace Gate

def angleKey : Gate → Key
  | .of .u3 _ | .ucr _ => .angles
  | _ => .angle

/-- The number of angles under a number of controls. -/
def angleCount : Gate → ℕ → ℕ
  | .of .u3 _, _ => 3
  | .ucr _, m => 2 ^ m
  | _, _ => 1

def angleSlot : Gate → List ℝ → Slot
  | .of .u3 _, ps => .angles ps
  | .ucr _, ps => .turns ps
  | _, ps => .angle (ps.getD 0 0)

/-- Whatever its angles are, the gate stands for calls of which one checks all its qubits. -/
def rechecks : Gate → Bool
  | .of .ry .plain | .of .phase .plain | .of .u3 .plain => false
  | .of _ .plain | .of _ .controlled => true
  | .of b .multi => b.onTwo
  | _ => false

lemma rechecks_controlled (b : Base) : (Gate.of b .controlled).rechecks = true := by cases b <;> rfl

/-- What a call of the gate asks for that turns by the angles. -/
def turning : Gate → List ℝ → List ℕ → List ℕ → Operation
  | .of b r, ps, cs, ts => .of b r ps cs ts
  | .ucr axis, ps, cs, ts => .ucr axis ps cs (ts.headD 0)
  | _, _, _, _ => .identity []

end Gate

/-- The gates that turn qubits one by one. -/
inductive Base.TurnsOne : Base → Prop
  | rx : TurnsOne .rx
  | ry : TurnsOne .ry
  | rz : TurnsOne .rz
  | phase : TurnsOne .phase
  | u3 : TurnsOne .u3

/-- The gates that turn two qubits together. -/
inductive Base.TurnsTwo : Base → Prop
  | rxx : TurnsTwo .rxx
  | ryy : TurnsTwo .ryy
  | rzz : TurnsTwo .rzz

lemma turnsOne (hb : b.isAngular = true) (htwo : b.onTwo = false) : b.TurnsOne := by
  cases b with
  | rx | ry | rz | phase | u3 => constructor
  | rxx | ryy | rzz => cases htwo
  | _ => cases hb

lemma turnsTwo (hb : b.isAngular = true) (htwo : b.onTwo = true) : b.TurnsTwo := by
  cases b with
  | rxx | ryy | rzz => constructor
  | swap => cases hb
  | _ => cases htwo

/-! ### Gates that check their qubits by all angles -/

section Rechecks

variable {x y z w : Operand ℝ} {i j : ℤ} {cs ts : List ℤ} (state : Operand ℝ)

open Plan

section Pair

variable (hx : x.IsWhole i) (hy : y.IsWhole j) (hbad : ¬ Proper n [i, j])
include hx hy hbad

lemma faulty_cx : Call.Faulty n ⟨.of .x .controlled, [(.controlIndex, x), (.targetIndex, y)], state⟩ :=
  faulty_of_improper rfl (.cons (.inl ⟨rfl, hx.names⟩) (.cons (.inl ⟨rfl, hy.names⟩) .nil)) hbad state

lemma meets_cx : Meets (Call.Faulty n) (cx x y) := meets_call (faulty_cx .none hx hy hbad)

lemma meets_rotation (axis : Axis) (a : Operand ℝ) :
    Meets (Call.Faulty n) (ControlledRotation.rotation n axis a (.list [x]) y) := by
  have hcx := meets_cx hx hy hbad
  have hlen : (Operand.list [x]).length = .ok 1 := rfl
  have hi : (Operand.list [x]).item 0 = .ok x := rfl
  unfold ControlledRotation.rotation
  rw [hlen, hi]
  refine meets_get rfl ?_
  rw [if_pos rfl]
  refine meets_get rfl ?_
  cases axis with
  | x =>
    exact meets_bind _ fun _ => hcx.bind
  | y | z =>
    exact meets_bind _ fun _ => meets_bind _ fun _ => hcx.bind

lemma faulty_rotation (hb : b = .rx ∨ b = .ry ∨ b = .rz) (a : Operand ℝ) (hz : z.listed = .list [x]) :
    Call.Faulty n ⟨.of b .multi, [(.angle, a), (.controlIndices, z), (.targetIndices, y)], state⟩ := by
  have hp : ∀ axis, Meets (Call.Faulty n) (rotations n axis a z.listed y.listed) := by
    intro axis
    have hi : (Operand.list [y]).items = .ok [y] := rfl
    have ht : (Operand.list [x]).toList = .ok (.list [x]) := rfl
    rw [hz, hy.listed, rotations, hi, ht]
    exact meets_get rfl (meets_forM (meets_get rfl (meets_rotation hx hy hbad axis a)))
  rcases hb with rfl | rfl | rfl <;> exact faulty_of_meets rfl (hp _)

lemma faulty_general (a : Operand ℝ) :
    Call.Faulty n ⟨.of .u3 .multi, [(.angles, a), (.controlIndices, x), (.targetIndices, y)], state⟩ := by
  have hi : (Operand.list [y]).items = .ok [y] := rfl
  have hm : ∀ b, Meets (Call.Faulty n) (turnUnder .rz b (.list [x]) y) := fun b =>
    meets_call (faulty_rotation .none hx hy hbad (.inr (.inr rfl)) b rfl)
  refine faulty_of_meets rfl ?_
  change Meets (Call.Faulty n) (generals a x.listed y.listed)
  rw [hx.listed, hy.listed, generals, hi]
  exact meets_get rfl (meets_forM (meets_bind _ fun b => (hm b).bind))

lemma faulty_controlled (hb : b.isAngular = true) (htwo : b.onTwo = false) (a : Operand ℝ) :
    Call.Faulty n ⟨.of b .controlled,
      [((Gate.of b .controlled).angleKey, a), (.controlIndex, x), (.targetIndex, y)], state⟩ := by
  cases turnsOne hb htwo with
  | rx | ry | rz =>
    exact faulty_of_meets rfl (meets_call (faulty_rotation .none hx hy hbad (by simp) a hx.listed))
  | phase =>
    exact faulty_of_meets rfl (meets_bind _ fun _ => meets_bind _ fun _ => (meets_cx hx hy hbad).bind)
  | u3 => exact faulty_of_meets rfl (meets_call (faulty_general .none hx hy hbad a))

lemma faulty_coupled (hb : b.isAngular = true) (htwo : b.onTwo = true) (a : Operand ℝ) :
    Call.Faulty n ⟨.of b .plain, [(.angle, a), (.firstQubit, x), (.secondQubit, y)], state⟩ := by
  have hcx := meets_cx hx hy hbad
  cases turnsTwo hb htwo with
  | rxx => exact faulty_of_meets rfl (meets_bind _ fun _ => hcx.bind)
  | ryy => exact faulty_of_meets rfl (meets_bind _ fun _ => meets_bind _ fun _ => hcx.bind)
  | rzz => exact faulty_of_meets rfl hcx.bind

end Pair

lemma faulty_multiCoupled (hb : b.isAngular = true) (htwo : b.onTwo = true) (a : Operand ℝ)
    (hz : z.Names cs) (hx : x.IsWhole i) (hy : y.IsWhole j) (hbad : ¬ Proper n (cs ++ [i, j])) :
    Call.Faulty n ⟨.of b .multi,
      [(.angle, a), (.controlIndices, z), (.firstTarget, x), (.secondTarget, y)], state⟩ := by
  obtain ⟨zs, hzs, hcs⟩ := hz
  have ha : (Operand.list (zs ++ [x])).Names (cs ++ [i]) := Operand.names_list (rel_append hcs (.cons hx .nil))
  have hm : Meets (Call.Faulty n) (Plan.under .x (.list (zs ++ [x])) y) := by
    have hq : Forall₂ (Decides n) [(.controlIndices, .list (zs ++ [x])), (.targetIndices, y)]
        [cs ++ [i], [j]] := .cons (.inl ⟨rfl, ha⟩) (.cons (.inl ⟨rfl, hy.names⟩) .nil)
    exact meets_call (faulty_of_improper rfl hq (by simpa using hbad) .none)
  cases turnsTwo hb htwo with
  | rxx | ryy =>
    exact faulty_of_meets rfl (meets_bind _ fun _ => meets_bind _ fun _ => meets_joined hzs hm.bind)
  | rzz => exact faulty_of_meets rfl (meets_joined hzs hm.bind)

lemma faulty_turn {g : Gate} (hg : g.isTransparent = false) (hw : slot.Means n w) (hfi : slot.Fits k)
    (hs : slot.qubitList = []) (ht : slot.vanishes = false) (hx : x.Names ts) (hbad : ¬ Proper n ts) :
    Call.Faulty n ⟨g, [(k, w), (.qubitIndices, x)], .none⟩ := by
  have ho : Forall₂ (Decides n) [(k, w), (.qubitIndices, x)] [[], ts] :=
    .cons (.inr ⟨rfl, slot, hfi, hw, hs, ht⟩) (.cons (.inl ⟨rfl, hx⟩) .nil)
  exact faulty_of_improper hg ho (by simpa using hbad) .none

lemma faulty_rx {a : Operand ℝ} {r : ℝ} (ha : a.IsNumber r) (hx : x.Names ts) (hbad : ¬ Proper n ts) :
    Call.Faulty n ⟨.of .rx .plain, [(.angle, a), (.qubitIndices, x)], state⟩ := by
  obtain ⟨hq, -⟩ := snap_pi_div_ne_zero (k := 2) (by norm_num) (by norm_num)
  have han : (Slot.angles [r, -(Real.pi / 2), Real.pi / 2]).Means n
      (.list [a, .real (-(Scalar.pi / 2.0)), .real (Scalar.pi / 2.0)]) :=
    .cons ha (.cons isNumber_minusHalf (.cons isNumber_half .nil))
  exact faulty_of_meets rfl (meets_call (faulty_turn rfl han ⟨rfl, rfl⟩ rfl
    (by simp [Slot.vanishes, hq]) hx hbad))

lemma faulty_rz (a : Operand ℝ) (hx : x.Names ts) (hbad : ¬ Proper n ts) :
    Call.Faulty n ⟨.of .rz .plain, [(.angle, a), (.qubitIndices, x)], state⟩ := by
  obtain ⟨hq, -⟩ := snap_pi_div_ne_zero (k := 2) (by norm_num) (by norm_num)
  have ha : (Slot.angle (Real.pi / 2)).Means n (.real (Scalar.pi / 2.0)) := isNumber_half
  exact faulty_of_meets rfl (meets_call (faulty_turn (k := .angle) rfl ha ⟨rfl, rfl⟩ rfl
    (by simp [Slot.vanishes, hq]) hx.listed hbad)).bind

end Rechecks

section Aims

variable {g : Gate} {x : Operand ℝ} {qubits : Operands ℝ} {cs ts : List ℤ} {ps : List ℝ}

lemma Aims.namesQubits (h : Aims g qubits cs ts) : ∃ iss, Forall₂ NamesQubits qubits iss ∧ iss.flatten = cs ++ ts := by
  cases h with
  | plain _ _ hx => exact ⟨[ts], .cons ⟨rfl, hx⟩ .nil, by simp⟩
  | @coupled _ _ _ i j _ _ hx hy =>
    exact ⟨[[i], [j]], .cons ⟨rfl, hx.names⟩ (.cons ⟨rfl, hy.names⟩ .nil), rfl⟩
  | @controlled _ _ _ c t _ _ hx hy =>
    exact ⟨[[c], [t]], .cons ⟨rfl, hx.names⟩ (.cons ⟨rfl, hy.names⟩ .nil), rfl⟩
  | @controlledCoupled _ _ _ _ c i j _ _ hx hy hz =>
    exact ⟨[[c], [i], [j]], .cons ⟨rfl, hx.names⟩ (.cons ⟨rfl, hy.names⟩ (.cons ⟨rfl, hz.names⟩ .nil)), rfl⟩
  | multi _ _ _ hx hy => exact ⟨[cs, ts], .cons ⟨rfl, hx⟩ (.cons ⟨rfl, hy⟩ .nil), by simp⟩
  | @multiCoupled _ _ _ _ _ i j _ _ _ hx hy hz =>
    exact ⟨[cs, [i], [j]], .cons ⟨rfl, hx⟩ (.cons ⟨rfl, hy.names⟩ (.cons ⟨rfl, hz.names⟩ .nil)), by simp⟩
  | @selected _ _ _ _ t hx hy => exact ⟨[cs, [t]], .cons ⟨rfl, hx⟩ (.cons ⟨rfl, hy.names⟩ .nil), by simp⟩

lemma Base.arity_of_isAngular (hb : b.isAngular = true) (r : Reach) (m : ℕ) : b.arity = (Gate.of b r).angleCount m := by
  cases b <;> first | rfl | cases hb

lemma Gate.angleSlot_fits (g : Gate) (ps : List ℝ) :
    (g.angleSlot ps).Fits g.angleKey ∧ (g.angleSlot ps).qubitList = [] := by
  cases g with
  | of b r => cases b <;> exact ⟨⟨rfl, rfl⟩, rfl⟩
  | _ => exact ⟨⟨rfl, rfl⟩, rfl⟩

/-- **A rotation by an angle that is not zero fails on qubits that are not proper.** -/
theorem Aims.faulty_of_turns (h : Aims g qubits cs ts) (hg : g.isTransparent = false)
    (hx : (g.angleSlot ps).Means n x) (ht : (g.angleSlot ps).vanishes = false)
    (hbad : ¬ Proper n (cs ++ ts)) (state : Operand ℝ) : Call.Faulty n ⟨g, (g.angleKey, x) :: qubits, state⟩ := by
  obtain ⟨iss, hi, hfl⟩ := h.namesQubits
  obtain ⟨hfi, hq⟩ := g.angleSlot_fits ps
  exact faulty_of_improper hg (.cons (.inr ⟨rfl, _, hfi, hx, hq, ht⟩)
    (hi.imp fun _ _ => .inl)) (by simpa [hfl] using hbad) state

/-- **Some gates fail on qubits that are not proper by all angles.** -/
theorem Aims.faulty_of_rechecks (h : Aims g qubits cs ts) (hg : g.rechecks = true)
    (hx : (g.angleSlot ps).Means n x) (hbad : ¬ Proper n (cs ++ ts)) (state : Operand ℝ) :
    Call.Faulty n ⟨g, (g.angleKey, x) :: qubits, state⟩ := by
  cases h with
  | @plain b q _ hb htwo hq =>
    cases turnsOne hb htwo with
    | rx => exact faulty_rx state hx hq hbad
    | rz => exact faulty_rz state x hq hbad
    | ry | phase | u3 => cases hg
  | @coupled b _ _ _ _ hb htwo hy hz =>
    cases turnsTwo hb htwo <;> exact faulty_coupled state hy hz hbad hb htwo x
  | controlled hb htwo hy hz => exact faulty_controlled state hy hz hbad hb htwo x
  | @controlledCoupled b _ _ _ _ _ _ hb htwo hy hz hw =>
    have hm := faulty_multiCoupled state hb htwo x hy.names hz hw hbad
    cases turnsTwo hb htwo <;> exact faulty_of_meets rfl (Plan.meets_callUnder hm)
  | multi _ htwo => exact absurd hg (by simp [Gate.rechecks, htwo])
  | @multiCoupled b _ _ _ _ _ _ hb htwo _ hy hz hw =>
    cases turnsTwo hb htwo <;> exact faulty_multiCoupled state hb htwo x hy hz hw hbad
  | selected => cases hg

lemma Aims.denotes (h : Aims g qubits cs ts) (hr : ∀ i ∈ cs ++ ts, InRange n i)
    (hx : (g.angleSlot ps).Means n x) : Denotes n g ((g.angleKey, x) :: qubits)
      (g.turning ps (cs.map (placeOf n)) (ts.map (placeOf n))) := by
  have ho : ∀ {y : Operand ℝ} {i}, y.IsWhole i → i ∈ cs ++ ts → y.IsQubit n (placeOf n i) :=
    fun hy hi => hy.isQubit (hr _ hi)
  have hm : ∀ {y : Operand ℝ} {is}, y.Names is → is ⊆ cs ++ ts → y.IsQubits n (is.map (placeOf n)) :=
    fun hy his => hy.isQubits fun i hi => hr i (his hi)
  cases h with
  | plain hb htwo hy => cases turnsOne hb htwo <;> exact ⟨rfl, rfl, .cons hx (.cons (hm hy (by simp)) .nil)⟩
  | coupled hb htwo hy hz =>
    cases turnsTwo hb htwo <;> exact ⟨rfl, rfl, .cons hx (.cons (ho hy (by simp)) (.cons (ho hz (by simp)) .nil))⟩
  | controlled hb htwo hy hz =>
    cases turnsOne hb htwo <;> exact ⟨rfl, rfl, .cons hx (.cons (ho hy (by simp)) (.cons (ho hz (by simp)) .nil))⟩
  | controlledCoupled hb htwo hy hz hw =>
    cases turnsTwo hb htwo <;> exact ⟨rfl, rfl,
      .cons hx (.cons (ho hy (by simp)) (.cons (ho hz (by simp)) (.cons (ho hw (by simp)) .nil)))⟩
  | multi hb htwo _ hy hz =>
    cases turnsOne hb htwo <;> exact ⟨rfl, rfl, .cons hx (.cons (hm hy (by simp)) (.cons (hm hz (by simp)) .nil))⟩
  | multiCoupled hb htwo _ hy hz hw =>
    cases turnsTwo hb htwo <;> exact ⟨rfl, rfl,
      .cons hx (.cons (hm hy (by simp)) (.cons (ho hz (by simp)) (.cons (ho hw (by simp)) .nil)))⟩
  | selected hy hz =>
    exact ⟨rfl, rfl, .cons hx (.cons (hm hy (by simp)) (.cons (ho hz (by simp)) .nil))⟩

lemma Aims.shaped (h : Aims g qubits cs ts) (hp : ps.length = g.angleCount cs.length) :
    (g.turning ps (cs.map (placeOf n)) (ts.map (placeOf n))).Shaped ∧
      (g.turning ps (cs.map (placeOf n)) (ts.map (placeOf n))).qubits = (cs ++ ts).map (placeOf n) := by
  cases h with
  | plain hb htwo | coupled hb htwo | controlled hb htwo | controlledCoupled hb htwo =>
    exact ⟨⟨hp.trans (Base.arity_of_isAngular hb _ _).symm, rfl, by simp [htwo]⟩, rfl⟩
  | multi hb htwo hcs | multiCoupled hb htwo hcs =>
    exact ⟨⟨hp.trans (Base.arity_of_isAngular hb _ _).symm, .inl (by simpa using hcs), by simp [htwo]⟩,
      (map_append ..).symm⟩
  | selected =>
    exact ⟨by simpa [Gate.turning, Operation.Shaped, Gate.angleCount] using hp,
      by simp [Gate.turning, Operation.qubits]⟩

lemma placeOf_lt {i : ℤ} (h : InRange n i) : placeOf n i < n := ((Operand.isWhole_int i).isQubit h).lt

lemma Aims.valid (h : Aims g qubits cs ts) (hps : ps.length = g.angleCount cs.length)
    (hp : Proper n (cs ++ ts)) : (g.turning ps (cs.map (placeOf n)) (ts.map (placeOf n))).Valid n := by
  obtain ⟨hs, hqs⟩ := h.shaped (n := n) hps
  refine ⟨hs, hqs ▸ hp.nodup, fun q hq => ?_⟩
  rw [hqs] at hq
  obtain ⟨i, hi, rfl⟩ := mem_map.mp hq
  exact placeOf_lt (hp.inRange i hi)

end Aims

/-! ### Calls -/

/-- The call turns by angles: what its operands are, apart from whether the whole numbers name qubits. -/
structure Call.Turns (n : ℕ) (call : Call ℝ) (qubits : Operands ℝ) (ps : List ℝ) (cs ts : List ℤ) : Prop where
  aims : Aims call.gate qubits cs ts
  angles : ∃ x, (call.gate.angleSlot ps).Means n x ∧ call.operands = (call.gate.angleKey, x) :: qubits
  count : ps.length = call.gate.angleCount cs.length
  state : call.controlState = .none ∨ .controlState ∈ call.gate.signature ∧
    ∃ values, call.controlState = stateText values ∧ values.length = cs.length

section Turns

variable {call : Call ℝ} {qubits : Operands ℝ} {ps : List ℝ} {cs ts : List ℤ}

/-- **A rotation of proper qubits goes through.** -/
theorem Call.Turns.exists_asks (h : call.Turns n qubits ps cs ts) (hp : Proper n (cs ++ ts)) :
    ∃ is, Circuit.Asks n call is := by
  obtain ⟨ha, ⟨x, hx, ho⟩, hco, hs⟩ := h
  obtain ⟨g, operands, state⟩ := call
  obtain rfl : operands = (g.angleKey, x) :: qubits := ho
  have hd := ha.denotes hp.inRange hx
  have hv := ha.valid hco hp
  rcases hs with hs | ⟨hsi, values, hs, hva⟩
  · obtain rfl : state = .none := hs; exact ⟨_, .gate hd hv⟩
  · obtain rfl : state = stateText values := hs
    have hlen : values.length = (cs.map (placeOf n)).length := by simpa using hva
    cases ha with
    | @plain b | @coupled b => cases b <;> simp [Gate.signature, Base.parameters, Base.onTwo] at hsi
    | controlled | controlledCoupled | multi | multiCoupled =>
      exact ⟨_, .state hd hv (by simp) hlen⟩
    | selected => exact ⟨_, .selected hd hv hlen⟩

lemma snap_eq_zero_iff (x : ℝ) : snap x = 0 ↔ isZeroAngle x = true := by
  rw [snap]
  split
  · next h => simp [h]
  · next h =>
    refine iff_of_false (fun h0 => h ?_) h
    rw [h0]
    simpa using isZeroAngle_turns 0

lemma all_snap (ps : List ℝ) : (ps.map snap).all (· = 0) = ps.all isZeroAngle := by
  rw [all_map]
  congr 1
  funext x
  rw [Function.comp, Bool.eq_iff_iff, decide_eq_true_iff]
  exact snap_eq_zero_iff x

lemma Call.Turns.vanishes (h : call.Turns n qubits ps cs ts) :
    (call.gate.angleSlot ps).vanishes = ps.all isZeroAngle := by
  have ho : ∀ {ps : List ℝ}, ps.length = 1 → (Slot.angle (ps.getD 0 0)).vanishes = ps.all isZeroAngle := by
    intro ps hp
    obtain ⟨p, rfl⟩ := length_eq_one_iff.mp hp
    rw [← all_snap]
    simp [Slot.vanishes]
  obtain ⟨ha, -, hco, -⟩ := h
  obtain ⟨g, operands, state⟩ := call
  cases g with
  | of b r => cases b <;> first | exact ho hco | exact all_snap ps
  | ucr axis => exact all_snap ps
  | _ => cases ha

lemma Call.Turns.faulty (h : call.Turns n qubits ps cs ts)
    (hl : call.gate.rechecks = true ∨ ps.all isZeroAngle = false) (hbad : ¬ Proper n (cs ++ ts)) :
    call.Faulty n := by
  have hv := h.vanishes
  obtain ⟨ha, ⟨x, hx, ho⟩, -, -⟩ := h
  obtain ⟨g, operands, state⟩ := call
  obtain rfl : operands = (g.angleKey, x) :: qubits := ho
  by_cases hg : g.rechecks = true
  · exact ha.faulty_of_rechecks hg hx hbad state
  · have hga : g.isTransparent = false := by
      cases ha with
      | controlledCoupled => exact absurd (Gate.rechecks_controlled _) hg
      | plain | coupled | controlled _ htwo | multi | multiCoupled | selected => first | rfl | exact htwo
    exact ha.faulty_of_turns hga hx (hv.trans (hl.resolve_left hg)) hbad state

end Turns

/-! ### Rotations by zero -/

namespace Recording

lemma validate_idle (hfi : slot.Fits k) (hx : slot.Means n x)
    (hze : slot.vanishes = true) (rest : Operands ℝ) : validate n ((k, x) :: rest) = .ok none := by
  obtain ⟨w, ys, -, -, hv⟩ := hx.validateFrom hfi rest [] []
  rw [validate, hv, if_pos hze]

lemma perform_idle {d : ℕ} (hp : Gate.precondition c = .ok ())
    (hpo : flippedAround c = .ok []) (h : validate n c.operands = .ok none) (r : Recording ℝ) :
    Change.perform (performAt ⟨n, true⟩ (d + 1) c) r = Change.perform (body n d c) r := by
  rw [perform_performAt hp hpo]
  simp only [flipping, isEmpty_nil, if_true, logged, h]
  split <;> rfl

lemma error_follow_call (perform : Call ℝ → Change (Recording ℝ) Unit) (g : Gate) (xs : List (Operand ℝ))
    (r : Recording ℝ) : (∃ f, (Change.perform (follow perform (Plan.call g xs)) r).1 = .error f) ↔
      ∃ f, (Change.perform (perform ⟨g, g.keys.zip xs, .none⟩) r).1 = .error f := by
  have hfo : follow perform (Plan.call g xs) = (do
      (do perform ⟨g, g.keys.zip xs, .none⟩; pure ())
      ofOutcome (.ok ())) := rfl
  rw [hfo, perform_bind, perform_bind]
  rcases Change.perform (perform ⟨g, g.keys.zip xs, .none⟩) r with ⟨f | u, t⟩
  · exact Iff.rfl
  · simp [perform_pure, perform_ofOutcome_ok]

variable {x y z : Operand ℝ} {theta phi lam : ℝ} {ts : List ℤ} {r : Recording ℝ} {qs : List (Primitive ℝ)}
  {a : ℝ}

lemma error_emit_iff (hx : x.Names ts) (hz : z.IsNumbers [theta, phi, lam]) (hr : r.sink.Holds n qs a) :
    (∃ f, (Change.perform (emit (Sink.gate .u3 x y z)) r).1 = .error f) ↔ ∃ i ∈ ts, ¬ InRange n i := by
  constructor
  · rintro ⟨f, hf⟩
    by_contra hra
    have hq := hx.isQubits (by simpa using hra)
    obtain ⟨w, es, hru, -⟩ := does_u3 (y := y) hq hz r qs a hr
    rw [hru] at hf
    cases hf
  · rintro ⟨i, hi, ho⟩
    obtain ⟨xs, hxs, hwh⟩ := hx
    obtain ⟨w, hw, hi⟩ : ∃ w ∈ xs, w.IsWhole i := exists_of_forall₂ hwh i hi
    have hwr : Sink.wrap n w = .error (.unfit .index) := by rw [Sink.wrap, hi.toInt?]; exact if_neg ho
    have he : (Change.perform (emit (Sink.gate .u3 x y z)) r).1 =
        (Change.perform (Sink.gate .u3 x y z) r.sink).1 := rfl
    rw [he, Sink.gate, perform_get_bind]
    simp only [hr.content]
    rw [Sink.primitiveGate, perform_get_bind]
    simp only [hxs.items, hr.numQubits]
    rw [perform_ofOutcome_bind]
    refine fails_forM hw ?_ r.sink
    refine fails_bind _ fun _ => fails_bind _ fun _ => fails_bind _ fun _ => ?_
    rw [hwr]
    exact (fails_ofOutcome _).bind _

lemma error_general_iff (hx : x.Names ts) (hz : z.IsNumbers [theta, phi, lam])
    (hze : [theta, phi, lam].all isZeroAngle = true) (hr : r.sink.Holds n qs a) (state : Operand ℝ) (d : ℕ) :
    (∃ f, (Change.perform (performAt ⟨n, true⟩ (d + 1)
        ⟨.of .u3 .plain, [(.angles, z), (.qubitIndices, x)], state⟩) r).1 = .error f) ↔
      ∃ i ∈ ts, ¬ InRange n i := by
  have ha : (Slot.angles [theta, phi, lam]).Means n z := hz
  have hfi : (Slot.angles [theta, phi, lam]).Fits .angles := ⟨rfl, rfl⟩
  have hv := validate_idle hfi ha ((all_snap _).trans hze) [(.qubitIndices, x)]
  rw [perform_idle rfl rfl hv]
  exact error_emit_iff hx hz hr

/-- **A rotation by zero of a gate that does not look at its qubits again** fails on qubits out of range,
and only on these. -/
theorem error_zero_iff {call : Call ℝ} {qubits : Operands ℝ} {ps : List ℝ} {cs : List ℤ}
    (h : call.Turns n qubits ps cs ts) (hp : call.gate = .of b .plain)
    (hl : call.gate.rechecks = false) (hze : ps.all isZeroAngle = true) (hr : r.sink.Holds n qs a) :
    (∃ f, (Change.perform (perform ⟨n, true⟩ call) r).1 = .error f) ↔ ∃ i ∈ ts, ¬ InRange n i := by
  have hva := h.vanishes.trans hze
  obtain ⟨ha, ⟨x, hx, ho⟩, hco, -⟩ := h
  obtain ⟨g, operands, state⟩ := call
  obtain rfl : operands = (g.angleKey, x) :: qubits := ho
  obtain rfl : g = .of b .plain := hp
  obtain ⟨hfi, -⟩ := (Gate.of b .plain).angleSlot_fits ps
  have hv := validate_idle hfi hx hva qubits
  have hzr : isZeroAngle (0 : ℝ) = true := (snap_eq_zero_iff 0).mp snap_zero
  have hi := Operand.isNumber_int_zero
  cases ha with
  | @plain _ q _ hb htwo hq =>
    have hge := fun z {theta phi lam : ℝ} (hz : z.IsNumbers [theta, phi, lam]) hze =>
      (error_follow_call (performAt ⟨n, true⟩ 15) (.of .u3 .plain) [z, _] r).trans
        (error_general_iff hq hz hze hr .none 14)
    cases turnsOne hb htwo with
    | ry =>
      obtain ⟨p, rfl⟩ := length_eq_one_iff.mp hco
      rw [perform, maxDepth, perform_idle rfl rfl hv]
      exact hge (.list [x, .int 0, .int 0]) (.cons hx (.cons hi (.cons hi .nil))) (by simpa [hzr] using hze)
    | phase =>
      obtain ⟨p, rfl⟩ := length_eq_one_iff.mp hco
      rw [perform, maxDepth, perform_idle rfl rfl hv]
      exact hge (.list [.int 0, .int 0, x]) (.cons hi (.cons hi (.cons hx .nil))) (by simpa [hzr] using hze)
    | u3 =>
      obtain ⟨theta, phi, lam, rfl⟩ := length_eq_three.mp hco
      exact error_general_iff hq hx hze hr state 15
    | rx | rz => cases hl
  | coupled hb htwo => cases turnsTwo hb htwo <;> cases hl

end Recording

/-! ### Two angles, one choice of qubits -/

namespace Circuit

/-- The call of the gate with the operands ends in a fault. -/
def Rejects (c : Circuit ℝ) (g : Gate) (args : Operands ℝ) : Prop := ∃ f, c.after (apply g args) = .error f

section Rejects

variable {c : Circuit ℝ} {a : ℝ} {g : Gate} {args : Operands ℝ} {call : Call ℝ} {qubits : Operands ℝ}
  {ps : List ℝ} {cs ts : List ℤ}

lemma rejects_iff_error (hc : c.Open n a) (hbi : g.bind args = .ok call) : c.Rejects g args ↔
    ∃ f, (Change.perform (Recording.perform ⟨n, true⟩ call) ⟨c.sink, #[]⟩).1 = .error f := by
  have hs : c.setting = ⟨n, true⟩ := by rw [setting, hc.validating, hc.numQubits]
  have hr := perform_apply_ok hbi c
  rw [perform_perform, perform_recording, hs] at hr
  rw [Rejects, after, hr]
  rcases Change.perform (Recording.perform ⟨n, true⟩ call) ⟨c.sink, #[]⟩ with ⟨f | u, r⟩ <;> simp

lemma not_rejects_of_proper (hc : c.Open n a) (hbi : g.bind args = .ok call)
    (h : call.Turns n qubits ps cs ts) (hp : Proper n (cs ++ ts)) : ¬ c.Rejects g args := by
  obtain ⟨is, ha⟩ := h.exists_asks hp
  obtain ⟨c', es, hr, -⟩ := carries_of_asks ha c a hc
  rintro ⟨f, hf⟩
  rw [apply_of_bind hbi, after, hr] at hf
  cases hf

/-- **A rotation is rejected exactly if its qubits are not proper**, if it is by an angle that is not zero
or of a gate that looks at its qubits again. -/
theorem rejects_iff_not_proper (hc : c.Open n a) (hbi : g.bind args = .ok call)
    (h : call.Turns n qubits ps cs ts) (hl : g.rechecks = true ∨ ps.all isZeroAngle = false) :
    c.Rejects g args ↔ ¬ Proper n (cs ++ ts) := by
  refine ⟨fun hr hp => not_rejects_of_proper hc hbi h hp hr, fun hbad => ?_⟩
  rw [rejects_iff_error hc hbi]
  rw [← Gate.gate_of_bind hbi] at hl
  exact h.faulty hl hbad maxDepth _

/-- **A rotation by zero of a gate that does not look again** is rejected exactly if a qubit is out of
range. -/
theorem rejects_iff_not_inRange (hc : c.Open n a) (hbi : (Gate.of b .plain).bind args = .ok call)
    (h : call.Turns n qubits ps cs ts) (hl : (Gate.of b .plain).rechecks = false)
    (hze : ps.all isZeroAngle = true) : c.Rejects (.of b .plain) args ↔ ∃ i ∈ ts, ¬ InRange n i := by
  have hg := Gate.gate_of_bind hbi
  rw [rejects_iff_error hc hbi]
  exact error_zero_iff h hg (hg ▸ hl) hze hc.sink

/-- **Whether a rotation is rejected because of its qubits does not depend on the angles**, if the gate looks
at its qubits by all angles, or both calls are by angles that are not zero, or the qubits are proper.  For
the gates without controls that do not look at their qubits again, the answers for two choices of angles
differ exactly if one of them counts as zero and the other does not, and qubits in range are named twice. -/
theorem rejects_iff_rejects (hc : c.Open n a) {args₁ args₂ : Operands ℝ} {call₁ call₂ : Call ℝ}
    {ps₁ ps₂ : List ℝ} (hbind₁ : g.bind args₁ = .ok call₁) (hbind₂ : g.bind args₂ = .ok call₂)
    (h₁ : call₁.Turns n qubits ps₁ cs ts) (h₂ : call₂.Turns n qubits ps₂ cs ts) :
    (g.rechecks = true ∨ Proper n (cs ++ ts) ∨ (ps₁.all isZeroAngle = false ∧ ps₂.all isZeroAngle = false) →
      (c.Rejects g args₁ ↔ c.Rejects g args₂)) ∧
    ∀ b, g = .of b .plain → g.rechecks = false → ((c.Rejects g args₁ ↔ c.Rejects g args₂) ↔
        (ps₁.all isZeroAngle = ps₂.all isZeroAngle ∨ Proper n (cs ++ ts) ∨ ∃ i ∈ ts, ¬ InRange n i)) := by
  constructor
  · rintro (hg | hp | ⟨ht₁, ht₂⟩)
    · rw [rejects_iff_not_proper hc hbind₁ h₁ (.inl hg), rejects_iff_not_proper hc hbind₂ h₂ (.inl hg)]
    · exact iff_of_false (not_rejects_of_proper hc hbind₁ h₁ hp) (not_rejects_of_proper hc hbind₂ h₂ hp)
    · rw [rejects_iff_not_proper hc hbind₁ h₁ (.inr ht₁), rejects_iff_not_proper hc hbind₂ h₂ (.inr ht₂)]
  · rintro b rfl hl
    have ho : (∃ i ∈ ts, ¬ InRange n i) → ¬ Proper n (cs ++ ts) := by
      rintro ⟨i, hi, hn⟩ hp; exact hn (hp.inRange i (mem_append_right cs hi))
    have hd : (¬ Proper n (cs ++ ts) ↔ ∃ i ∈ ts, ¬ InRange n i) ↔
        (Proper n (cs ++ ts) ∨ ∃ i ∈ ts, ¬ InRange n i) := by
      generalize (∃ i ∈ ts, ¬ InRange n i) = out at ho
      tauto
    rcases hzero₁ : ps₁.all isZeroAngle with _ | _ <;> rcases hzero₂ : ps₂.all isZeroAngle with _ | _
    · rw [rejects_iff_not_proper hc hbind₁ h₁ (.inr hzero₁), rejects_iff_not_proper hc hbind₂ h₂ (.inr hzero₂)]
      simp
    · rw [rejects_iff_not_proper hc hbind₁ h₁ (.inr hzero₁), rejects_iff_not_inRange hc hbind₂ h₂ hl hzero₂]
      simp only [Bool.false_eq_true, false_or]
      exact hd
    · rw [rejects_iff_not_inRange hc hbind₁ h₁ hl hzero₁, rejects_iff_not_proper hc hbind₂ h₂ (.inr hzero₂)]
      simp only [Bool.true_eq_false, false_or]
      exact iff_comm.trans hd
    · rw [rejects_iff_not_inRange hc hbind₁ h₁ hl hzero₁, rejects_iff_not_inRange hc hbind₂ h₂ hl hzero₂]
      simp

end Rejects

def repeated : Operands ℝ := [(.qubitIndices, .list [.int 0, .int 0])]

lemma not_proper_repeated : ¬ Proper 1 ([] ++ [0, 0]) := fun h => by simpa using h.nodup

lemma turns_repeated (hb : b = .rx ∨ b = .ry) (p : ℝ) :
    Call.Turns 1 ⟨.of b .plain, (.angle, .real p) :: repeated, .none⟩ repeated [p] [] [0, 0] := by
  have hn : (Operand.list [.int 0, .int 0]).Names [0, 0] :=
    Operand.names_list (.cons (Operand.isWhole_int 0) (.cons (Operand.isWhole_int 0) .nil))
  rcases hb with rfl | rfl <;> exact ⟨.plain rfl rfl hn, ⟨.real p, rfl, rfl⟩, rfl, .inl rfl⟩

/-- A rotation of a qubit named twice about the first axis, by nothing and by one. -/
theorem rejects_iff_rejects_repeated :
    (empty .reference 1 : Circuit ℝ).Rejects (.of .rx .plain) ((.angle, .real 0) :: repeated) ↔
      (empty .reference 1 : Circuit ℝ).Rejects (.of .rx .plain) ((.angle, .real 1) :: repeated) :=
  (rejects_iff_rejects (open_empty 1) (g := .of .rx .plain) rfl rfl (turns_repeated (.inl rfl) 0)
    (turns_repeated (.inl rfl) 1)).1 (.inl rfl)

/-- About the second axis, it goes through by nothing and is rejected by one. -/
theorem not_rejects_iff_repeated :
    ¬ ((empty .reference 1 : Circuit ℝ).Rejects (.of .ry .plain) ((.angle, .real 0) :: repeated) ↔
      (empty .reference 1 : Circuit ℝ).Rejects (.of .ry .plain) ((.angle, .real 1) :: repeated)) := by
  have hze : [(0 : ℝ)].all isZeroAngle = true := by simpa using (snap_eq_zero_iff 0).mp snap_zero
  have ho : [(1 : ℝ)].all isZeroAngle = false := by simpa using isZeroAngle_of_far far_one
  rw [rejects_iff_not_inRange (open_empty 1) rfl (turns_repeated (.inr rfl) 0) rfl hze,
    rejects_iff_not_proper (open_empty 1) rfl (turns_repeated (.inr rfl) 1) (.inr ho)]
  intro h
  obtain ⟨i, hi, hou⟩ := h.mpr not_proper_repeated
  obtain rfl : i = 0 := by simpa using hi
  exact hou (by simp [InRange])

end Circuit

end QuantumCircuits
