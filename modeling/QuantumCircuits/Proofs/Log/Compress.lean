import QuantumCircuits.Proofs.Log.Merge

/-!
# Log — Compress

What is left of a log when small rotations are taken out.  An entry stays if it has no angle, or one angle
that reaches the bound (`Entry.Stays`).  Whether it does depends on the item it stands for alone, and not on
how its angles are written (`Item.Stands.stays_iff`), so that a replay changes nothing about it, and taking
out twice is taking out once with the larger bound (`Circuit.Lists.exists_compress`).
-/

namespace QuantumCircuits

open List Change
open Operand (toReal? IsNumber)
open Plan (forall₂_one)

variable {n : ℕ} {b r : ℝ} {e : Entry ℝ} {i : Item} {x : Operand ℝ}

namespace Entry

/-- The angles in an entry, if there are any. -/
noncomputable def angles? (e : Entry ℝ) : Option (List (Option ℝ)) :=
  ((e.get? .angle).map fun x => [x.toReal?]).or
    ((e.get? .angles).map fun x => (x.items.toOption.getD [.none]).map toReal?)

/-- The entry has no angle, or an angle that is not below the bound. -/
def Stays (b : ℝ) (e : Entry ℝ) : Prop := ∀ xs, e.angles? = some xs → ∃ r, some r ∈ xs ∧ b ≤ |r|

open Classical in
/-- The entry has the given angles, and is taken out unless it stays. -/
structure Holds (e : Entry ℝ) (rs : Option (List ℝ)) : Prop where
  angles : e.angles? = rs.map (map some)
  isNegligible (b : ℝ) : Circuit.isNegligible b e = .ok (decide ¬ e.Stays b)

end Entry

lemma toReal?_number (h : x.IsNumber r) : x.toReal? = some r := by
  cases x with
  | int i | bool b | real z => simp_all [IsNumber, toReal?]
  | _ => exact h.elim

lemma isSmall_number (h : x.IsNumber r) : Circuit.isSmall b x = .ok (decide (|r| < b)) := by
  cases x with
  | complex z => exact h.elim
  | _ => simp [Circuit.isSmall, toReal?_number h]

lemma holds_none (ha : e.get? .angle = none) (hs : e.get? .angles = none) : e.Holds none :=
  ⟨by simp [Entry.angles?, ha, hs], fun b => by simp [Circuit.isNegligible, Entry.Stays, Entry.angles?, ha, hs]⟩

lemma holds_one (ha : e.get? .angle = some x) (hx : x.IsNumber r) : e.Holds (some [r]) := by
  have he : e.angles? = some [some r] := by simp [Entry.angles?, ha, toReal?_number hx]
  exact ⟨he, fun b => by simp [Circuit.isNegligible, Entry.Stays, ha, he, isSmall_number hx]⟩

lemma holds_several {xs : List (Operand ℝ)} {rs : List ℝ} (ha : e.get? .angle = none)
    (hs : e.get? .angles = some (.list xs)) (hxs : Forall₂ IsNumber xs rs) : e.Holds (some rs) := by
  have hre : xs.map toReal? = rs.map some := by
    rw [← forall₂_eq_eq_eq, forall₂_map_left_iff, forall₂_map_right_iff]
    exact hxs.imp fun _ _ => toReal?_number
  have he : e.angles? = some (rs.map some) := by simp [Entry.angles?, ha, hs, Operand.items, Except.toOption, hre]
  refine ⟨he, fun b => ?_⟩
  have hm : xs.mapM (Circuit.isSmall b) = .ok (rs.map fun r => decide (|r| < b)) :=
    mapM_of_forall₂ hxs fun _ _ => isSmall_number
  simp only [Circuit.isNegligible, ha, hs, Operand.items, hm, bind, Except.bind]
  congr 1
  rw [Bool.eq_iff_iff]
  simp [Entry.Stays, he]

namespace Operation

def angles? : Operation → Option (List ℝ)
  | .of b _ ps _ _ => if b.isAngular then some ps else none
  | .ucr _ rs _ _ | .pauliMultiplexor _ rs _ _ => some rs
  | .globalPhase a => some [a]
  | _ => none

lemma holds_of {o : Base} {s : Reach} {ps : List ℝ} {cs ts : List ℕ} {operands : Operands ℝ}
    (h : Recorded n (.of o s) operands (.of o s ps cs ts)) (hps : ps.length = o.arity)
    (he : e.operands = operands) : e.Holds (of o s ps cs ts).angles? := by
  obtain ⟨xs, ys, rfl, hxs, hys, hch, -⟩ := exists_operands h
  have hn : ∀ k : Key, k.isQubit = false → e.get? k = xs.lookup k := fun k hk => by
    have hno : ys.lookup k = none := Circuit.lookup_eq_none (hys ▸ not_mem_places hk o s)
    rw [Entry.get?, he, lookup_append, hno, Option.or_none]
  cases takes hps with
  | rx a | ry a | rz a | phase a | rxx a | ryy a | rzz a =>
    obtain ⟨⟨_, x⟩, rfl, rfl⟩ := map_eq_singleton_iff.mp hxs
    obtain ⟨_, hx, ha⟩ := forall₂_one hch
    cases hx
    exact holds_one (hn .angle rfl) ha
  | u3 theta phi lam =>
    obtain ⟨⟨_, x⟩, rfl, rfl⟩ := map_eq_singleton_iff.mp hxs
    obtain ⟨_, hx, zs, rfl, hzs⟩ := forall₂_one hch
    cases hx
    exact holds_several (hn .angle rfl) (hn .angles rfl) hzs
  | xPow p g | yPow p g | zPow p g =>
    obtain ⟨⟨_, x⟩, _, rfl, rfl, hr⟩ := map_eq_cons_iff.mp hxs
    obtain ⟨⟨_, z⟩, rfl, rfl⟩ := map_eq_singleton_iff.mp hr
    exact holds_none (hn .angle rfl) (hn .angles rfl)
  | _ =>
    obtain rfl := map_eq_nil_iff.mp hxs
    exact holds_none (hn .angle rfl) (hn .angles rfl)

end Operation

namespace Item

/-- The angles of an item as its entry holds them. -/
noncomputable def angles? : Item → Option (List ℝ)
  | .gate o => o.snapped.angles?
  | _ => none

/-- The item has no angle, or an angle that is not below the bound. -/
def Stays (b : ℝ) (i : Item) : Prop := ∀ rs, i.angles? = some rs → ∃ r ∈ rs, b ≤ |r|

lemma stays_snapped (i : Item) : i.snapped.Stays b ↔ i.Stays b := by
  cases i with
  | gate o => simp only [Stays, snapped, angles?, Operation.snapped_snapped]
  | _ => rfl

/-- **The entry of an item holds its angles**, and no others. -/
theorem Stands.holds (h : Stands n e i) : e.Holds i.angles? := by
  cases i with
  | gate o =>
    obtain @⟨operands, k, es, o, hv, hk, hr, -⟩ := h
    have hno : ∀ {j : Key}, o.snapped.gate.keys.contains j = false → operands.lookup j = none := fun hj =>
      Circuit.lookup_eq_none (hr.keys ▸ by simpa using hj)
    cases o with
    | of o s ps cs ts => exact Operation.holds_of hr hv.snapped.shaped.1 rfl
    | pauliMultiplexor axis rs cs t => simp [Operation.isKept, Operation.gate, Gate.isTransparent] at hk
    | identity ts | diagonal zs qs => exact holds_none (hno rfl) (hno rfl)
    | ucr axis rs cs t =>
      have ha := hno (j := .angle) rfl
      obtain ⟨⟨_, x⟩, _, rfl, rfl, -⟩ := map_eq_cons_iff.mp hr.keys
      obtain ⟨rfl, -⟩ := forall₂_cons.mp hr.checked
      exact holds_several ha rfl (forall₂_map_left_iff.mpr (forall₂_same.mpr fun _ _ => rfl))
    | globalPhase a =>
      obtain ⟨⟨_, x⟩, rfl, rfl⟩ := map_eq_singleton_iff.mp hr.keys
      obtain ⟨_, hx, ha⟩ := forall₂_one hr.checked
      cases hx
      exact holds_one rfl ha
  | measure qs | reset qs =>
    obtain ⟨x, k, rfl, -⟩ := h
    exact holds_none rfl rfl

lemma Stands.stays_iff (h : Stands n e i) : e.Stays b ↔ i.Stays b := by
  simp [Entry.Stays, Stays, h.holds.angles]

/-- An item has an angle that reaches the larger of two bounds if it has one for each. -/
lemma stays_max (i : Item) (p q : ℝ) : i.Stays (Real.pi * max p q) ↔
    i.Stays (Real.pi * p) ∧ i.Stays (Real.pi * q) := by
  have ha : Antitone fun p => i.Stays (Real.pi * p) := fun p q hpq h rs hrs => by
    obtain ⟨r, hr, hb⟩ := h rs hrs
    exact ⟨r, hr, (mul_le_mul_of_nonneg_left hpq Real.pi_pos.le).trans hb⟩
  exact iff_of_eq (ha.map_max)

end Item

namespace Circuit

open Item (Stands)

variable {is : List Item} {c : Circuit ℝ} {y : Operand ℝ} {p q : ℝ}

open Classical in
lemma filterMapM_stays {es : List (Entry ℝ)} (h : Forall₂ (Stands n) es is) :
    (es.filterMapM fun e => do Except.ok (if ← isNegligible b e then none else some e)) =
      (Except.ok (es.filter fun e => e.Stays b) : Outcome (List (Entry ℝ))) := by
  induction h with
  | nil => rfl
  | @cons e i es is he _ ih =>
    rw [filterMapM_cons, ih, he.holds.isNegligible]
    by_cases hs : e.Stays b <;> simp [hs, bind, Except.bind, pure, Except.pure]

open Classical in
/-- The circuit with the entries that stay, before they are replayed. -/
noncomputable def staying (b : ℝ) (c : Circuit ℝ) : Circuit ℝ :=
  { c with log := (c.log.toList.filter fun e => e.Stays b).toArray }

open Classical in
lemma Lists.staying (hc : c.Lists n is) (b : ℝ) : (c.staying b).Lists n (is.filter (Item.Stays b)) := by
  obtain ⟨g, ho⟩ := hc.isOpen
  exact ⟨⟨g, ho.withLog _⟩, rel_filter (fun e i h => by simpa using h.stays_iff) hc.log⟩

open Classical in
/-- **Small rotations are taken out of a log, and the rest is replayed.** -/
theorem Lists.exists_compress (hc : c.Lists n is) (hx : x.IsNumber p) (hp : p ∈ Set.Icc 0 1) :
    ∃ c', c.after (compress x) = .ok c' ∧ c'.Lists n ((is.filter (Item.Stays (Real.pi * p))).map Item.snapped) := by
  obtain ⟨c', hu, hl, -⟩ := (hc.staying (Real.pi * p)).exists_update
  refine ⟨c', ?_, hl⟩
  have hr : Change.perform (compress x) c = Change.perform update (c.staying (Real.pi * p)) := by
    have hin : (!(Scalar.le 0.0 p && Scalar.le p 1.0)) = false := by simp [hp.1, hp.2]
    simp only [compress, toReal?_number hx, hin, Bool.false_eq_true, if_false]
    rw [perform_get_bind, Scalar.pi_real, filterMapM_stays hc.log, perform_ofOutcome_bind, perform_modify_bind]
    rfl
  rw [after, hr]
  exact hu

open Classical in
lemma filter_stays_twice (is : List Item) (p q : ℝ) :
    (((is.filter (Item.Stays (Real.pi * p))).map Item.snapped).filter (Item.Stays (Real.pi * q))).map Item.snapped =
      (is.filter (Item.Stays (Real.pi * max p q))).map Item.snapped := by
  rw [filter_map, map_map, filter_filter]
  simp [Function.comp_def, Item.snapped_snapped, Item.stays_snapped, Item.stays_max, Bool.decide_and, Bool.and_comm]

open Classical in
/-- **Taking small rotations out of a log keeps the other entries.**  For a share of a half turn, the entries
that are left are those without an angle and those with an angle that reaches it, in their order and with their
operands.  A second share leaves what the larger of the two leaves, and the same share takes nothing more. -/
theorem compress_keeps (h : Made n c is) (hx : x.IsNumber p) (hy : y.IsNumber q) (hp : p ∈ Set.Icc 0 1)
    (hq : q ∈ Set.Icc 0 1) : ∃ c', c.after (compress x) = .ok c' ∧
      Forall₂ Entry.SameCall (c.log.toList.filter fun e => e.Stays (Real.pi * p)) c'.log.toList ∧
      (∃ d d', c'.after (compress y) = .ok d ∧ c.after (compress (.real (max p q))) = .ok d' ∧ d.sameLog d' = true) ∧
      ∃ d, c'.after (compress x) = .ok d ∧ c'.sameLog d = true := by
  have hc := h.spec.1
  obtain ⟨c', hr, hc'⟩ := hc.exists_compress hx hp
  obtain ⟨d, hd, hl⟩ := hc'.exists_compress hy hq
  obtain ⟨d', hd', hl'⟩ := hc.exists_compress (x := .real (max p q)) rfl
    ⟨hp.1.trans (le_max_left p q), max_le hp.2 hq.2⟩
  obtain ⟨f, hf, hl''⟩ := hc'.exists_compress hx hp
  rw [filter_stays_twice] at hl hl''
  rw [max_self] at hl''
  refine ⟨c', hr, ?_, ⟨d, d', hd, hd', hl.sameLog hl'⟩, f, hf, hc'.sameLog hl''⟩
  exact (hc.staying (Real.pi * p)).sameCalls hc' (by simp [Item.snapped_snapped])

open Classical in
/-- A rotation and a negation, compressed by a quarter and then by a half. -/
theorem compress_keeps_rotation : ∃ c c' d : Circuit ℝ,
    Made 1 c [.gate (.of .rx .plain [Real.pi / 4] [] [0]), .gate (.on .x [0])] ∧
    c.after (compress (.real (1 / 4))) = .ok c' ∧ c'.after (compress (.real (1 / 2))) = .ok d ∧
    Forall₂ Entry.SameCall (c.log.toList.filter fun e => e.Stays (Real.pi * (1 / 4))) c'.log.toList := by
  have hro : (Operation.of .rx .plain [Real.pi / 4] [] [0]).Valid 1 :=
    ⟨⟨rfl, rfl, by simp [Base.onTwo]⟩, by simp [Operation.qubits], by simp [Operation.qubits]⟩
  obtain ⟨c, hm⟩ := @exists_made 1 one_pos [.of .rx .plain [Real.pi / 4] [] [0], .on .x [0]]
    (by simpa using ⟨hro, Operation.valid_flips (by simp) (by simp)⟩)
  obtain ⟨c', hc, hs, ⟨d, _, hd, -⟩, -⟩ := compress_keeps hm (x := .real (1 / 4)) (y := .real (1 / 2)) rfl rfl
    ⟨by norm_num, by norm_num⟩ ⟨by norm_num, by norm_num⟩
  exact ⟨c, c', d, hm, hc, hd, hs⟩

end Circuit

end QuantumCircuits
