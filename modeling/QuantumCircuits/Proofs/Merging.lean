import Mathlib.Analysis.Real.Pi.Bounds
import QuantumCircuits.Proofs.Multiplexor.Emission
import QuantumCircuits.Proofs.Splitting.Prepared

/-!
# Merging

The rotations that a state is undone with.  Qubit 0 is turned by an angle that the qubits above it select.
The circuit is put together from two smaller ones, the second one reversed, with a negation between them and
one at the end.  Without the last negation it does the rotation and leaves a negation over, and backwards it
does the negation first (`Halved`).  The two negations that are left over in the middle cancel, so this goes
on from the smaller circuits to the larger (`Halved.join`).

Circuits are put together from what their logs hold.  An angle that counts as zero is not in the log, so the
rotation is by the angles whose sums and differences are the checked ones (`exists_selected`).
-/

noncomputable section

namespace QuantumCircuits.Merging

open List Operation Circuit Plan
open Multiplexor (Selects selects_nil selects_gate selects_cx good_plain)

variable {k m n : ℕ} {axis : Axis} {xs ys : List ℝ} {os ps : List Operation} {f : Framework} {c d : Circuit ℝ}

/-! ### The angles -/

/-- The two halves of a list, put together one by one. -/
def halves (g : ℝ → ℝ → ℝ) (xs : List ℝ) : List ℝ := (xs.take (xs.length / 2)).zipWith g (xs.drop (xs.length / 2))

/-- Halves of the sums of the two halves of a list. -/
abbrev means (xs : List ℝ) : List ℝ := halves (fun x y => (x + y) / 2) xs

abbrev gaps (xs : List ℝ) : List ℝ := halves (fun x y => (x + -y) / 2) xs

/-- The angles of the rotations that are called for in the end. -/
def combined : ℕ → List ℝ → List ℝ
  | 0, xs => [xs.headD 0]
  | k + 1, xs => combined k (means xs) ++ combined k (gaps xs)

lemma length_combined (k : ℕ) (xs : List ℝ) : (combined k xs).length = 2 ^ k := by
  induction k generalizing xs with
  | zero => rfl
  | succ k ih => rw [combined, length_append, ih, ih, pow_succ, mul_two]

lemma length_halves (g : ℝ → ℝ → ℝ) (h : xs.length = 2 ^ (k + 1)) : (halves g xs).length = 2 ^ k := by
  rw [halves, length_zipWith, length_take, length_drop]; omega

/-- The angle that the qubits above qubit 0 select, the first of them as the lowest digit. -/
def chosen (k : ℕ) (xs : List ℝ) (b : Register) : ℝ := xs.getD (indexOf (range' 1 k) b) 0

lemma chosen_succ (h : xs.length = 2 ^ (k + 1)) (b : Register) :
    chosen k (means xs) b + signOf (b (k + 1)) * chosen k (gaps xs) b = chosen (k + 1) xs b := by
  have hlen : xs.length = 2 * 2 ^ k := by rw [h, pow_succ, mul_comm]
  have hl : indexOf (range' 1 k) b < 2 ^ k := by simpa using indexOf_lt (range' 1 k) b
  have hh : xs.length / 2 = 2 ^ k := by omega
  rw [chosen, chosen, chosen, means, gaps, halves, halves, hh, getD_selected hlen hl, range'_1_concat,
    indexOf_concat, length_range', add_comm 1 k]

/-! ### Rotations with a negation left over -/

/-- The rotation of qubit 0 that is selected. -/
def turned (axis : Axis) (k : ℕ) (xs : List ℝ) (b : Register) : Square := (axis.matrix (chosen k xs b)).asSquare

/-- The negation of qubit 0 by the last of the qubits above it, if there is one. -/
def leftover (axis : Axis) (k : ℕ) (b : Register) : Square := left axis (k ≠ 0 && b k)

/-- Operations on the first qubits do the selected rotation, with a negation left over after it, or before
it if they are done in reverse order. -/
structure Halved (axis : Axis) (k : ℕ) (xs : List ℝ) (os : List Operation) : Prop where
  good : ∀ o ∈ os, o.Good (k + 1)
  forth : Selects 0 os fun b => leftover axis k b * turned axis k xs b
  back : Selects 0 os.reverse fun b => turned axis k xs b * leftover axis k b

lemma leftover_conj (axis : Axis) (k l : ℕ) (b : Register) :
    leftover axis k b * leftover axis l b * leftover axis k b = leftover axis l b := by
  rw [leftover, leftover, left_mul_left, left_mul_left, Bool.xor_right_comm, Bool.xor_self, Bool.false_xor]

lemma selects_leftover (ha : axis ≠ .x) (hk : k ≠ 0) : Selects 0 [.cx k 0] (leftover axis k) :=
  (selects_cx hk).congr fun b => by simp [leftover, left, reversing, ha, hk]

lemma leftover_succ (axis : Axis) (k : ℕ) (b : Register) : leftover axis (k + 1) b = left axis (b (k + 1)) := by
  simp [leftover]

lemma turned_mul_turned (h : xs.length = 2 ^ (k + 1)) (b : Register) :
    turned axis k (gaps xs) b * leftover axis (k + 1) b * turned axis k (means xs) b =
        leftover axis (k + 1) b * turned axis (k + 1) xs b ∧
      turned axis k (means xs) b * leftover axis (k + 1) b * turned axis k (gaps xs) b =
        turned axis (k + 1) xs b * leftover axis (k + 1) b := by
  rw [leftover_succ, turned, turned, turned, ← chosen_succ h, matrix_mul_left, matrix_mul_left, matrix_mul_left,
    mul_assoc, mul_assoc, matrix_mul, matrix_mul, mul_add, ← mul_assoc (signOf _), signOf_mul_self, one_mul]
  exact ⟨by rw [add_comm (chosen k (means xs) b)], rfl⟩

/-- **Two circuits with a negation between them**, the second one reversed. -/
theorem Halved.join (ha : axis ≠ .x) (hxs : xs.length = 2 ^ (k + 1)) (h : Halved axis k (means xs) os)
    (h' : Halved axis k (gaps xs) ps) : Halved axis (k + 1) xs (os ++ .cx (k + 1) 0 :: ps.reverse) where
  good := by
    have hcx : (cx (k + 1) 0).Good (k + 2) := good_cx (by omega) (by omega) (by omega)
    have hm : ∀ {o : Operation}, o.Good (k + 1) → o.Good (k + 2) := fun ho =>
      { ho with lt := fun q hq => (ho.lt q hq).trans (Nat.lt_succ_self _) }
    intro o ho
    rcases mem_append.mp ho with ho | ho
    · exact hm (h.good o ho)
    · rcases mem_cons.mp ho with rfl | ho
      · exact hcx
      · exact hm (h'.good o (mem_reverse.mp ho))
  forth := by
    have hcx := selects_leftover ha k.succ_ne_zero
    refine (h.forth.append (hcx.append h'.back)).congr fun b => ?_
    rw [← (turned_mul_turned hxs b).1]
    -- the negations that the two circuits leave over cancel
    calc _ = turned axis k (gaps xs) b * (leftover axis k b * leftover axis (k + 1) b * leftover axis k b) *
          turned axis k (means xs) b := by simp [mul_assoc]
      _ = _ := by rw [leftover_conj]
  back := by
    have hcx := selects_leftover ha k.succ_ne_zero
    rw [reverse_append, reverse_cons, reverse_reverse, append_assoc]
    refine (h'.forth.append (hcx.append h.back)).congr fun b => ?_
    rw [← (turned_mul_turned hxs b).2]
    calc _ = turned axis k (means xs) b * (leftover axis k b * leftover axis (k + 1) b * leftover axis k b) *
          turned axis k (gaps xs) b := by simp [mul_assoc]
      _ = _ := by rw [leftover_conj]

/-! ### Single rotations -/

section Single

variable {a : ℝ}

lemma kept_about (h : snap a = 0) (axis : Axis) :
    (aboutAxis axis a 0).kept = (aboutAxis axis a 0).parts.flatMap kept := by
  have hv : (aboutAxis axis a 0).isKept = false := by
    cases axis <;> simp [isKept, vanishes, aboutAxis, rotationAbout, Base.isAngular, h]
  rw [kept_eq (Splitting.good_aboutAxis axis a one_pos).toValid, hv, if_neg Bool.false_ne_true,
    Operation.inner, if_neg]
  cases axis <;> simp [primitives?, aboutAxis, rotationAbout]

lemma kept_ry (h : snap a = 0) : (aboutAxis .y a 0).kept = [] := by
  have hg : (general a 0 0 [0]).kept = [] := by
    rw [kept_eq (good_plain rfl rfl one_pos).toValid,
      if_neg (by simp [isKept, vanishes, Base.isAngular, h, snap_zero])]
    rfl
  rw [kept_about h]
  simp [parts, plainParts, aboutAxis, rotationAbout, hg]

lemma kept_rz : (aboutAxis .z 0 0).kept = [aboutAxis .x (Real.pi / 2) 0, aboutAxis .x (-(Real.pi / 2)) 0] := by
  have hk : ∀ {r : ℝ}, snap r ≠ 0 → (aboutAxis .x r 0).kept = [aboutAxis .x r 0] := fun {r} hr =>
    kept_of_isKept (Splitting.good_aboutAxis .x r one_pos).toValid (isKept_of_angle (by simp) hr rfl)
  obtain ⟨hpo, hn⟩ := snap_pi_div_ne_zero (k := 2) (by norm_num) (by norm_num)
  have hp : (aboutAxis .z 0 0).parts =
      [aboutAxis .x (Real.pi / 2) 0, aboutAxis .y 0 0, aboutAxis .x (-(Real.pi / 2)) 0] := by
    simp [parts, plainParts, aboutAxis, rotationAbout]
  rw [kept_about snap_zero, hp]
  simp [hk hpo, hk hn, kept_ry snap_zero]

lemma snapped_about (axis : Axis) (a : ℝ) : (aboutAxis axis a 0).snapped = aboutAxis axis (snap a) 0 := by
  cases axis <;> rfl

lemma selects_about (axis : Axis) (a : ℝ) : Selects 0 [aboutAxis axis a 0] fun _ => (axis.matrix a).asSquare := by
  cases axis <;> exact selects_gate rfl [_] 0

lemma matrix_zero (axis : Axis) : (axis.matrix 0).asSquare = 1 := by
  cases axis with
  | x =>
    change Base.rx.square [0] = 1
    rw [Base.square_rx, one_eq_square]
    simp
  | y => exact Base.square_ry_zero
  | z => exact Base.square_rz_zero

lemma halved_zero {x : ℝ} (hg : ∀ o ∈ os, o.Good 1) (h : Selects 0 os fun _ => (axis.matrix x).asSquare)
    (h' : Selects 0 os.reverse fun _ => (axis.matrix x).asSquare) : Halved axis 0 [x] os :=
  ⟨hg, h.congr fun _ => (one_mul _).symm, h'.congr fun _ => (mul_one _).symm⟩

/-- **One rotation**, from what the log keeps of it. -/
theorem halved_kept (h : axis = .y ∨ axis = .z ∧ snap a = a) :
    Halved axis 0 [snap a] ((aboutAxis axis a 0).kept.map snapped) := by
  by_cases hs : snap a = 0
  · rw [hs]
    rcases h with rfl | ⟨rfl, ha⟩
    · rw [kept_ry hs]
      have hn : Selects 0 [] fun _ => (Axis.y.matrix 0).asSquare := matrix_zero .y ▸ selects_nil 0
      exact halved_zero (by simp) hn hn
    · obtain rfl : a = 0 := ha.symm.trans hs
      obtain ⟨hp, hne⟩ := snap_pi_div_ne_zero (k := 2) (by norm_num) (by norm_num)
      have hx := selects_about .x
      have hr : ∀ r : ℝ, Selects 0 [aboutAxis .x r 0, aboutAxis .x (-r) 0] fun _ =>
          (Axis.z.matrix 0).asSquare := fun r =>
        ((hx r).append (hx (-r))).congr fun _ => by rw [matrix_mul, neg_add_cancel, matrix_zero, matrix_zero]
      rw [kept_rz, map_cons, map_cons, map_nil, snapped_about, snapped_about, snap_eq_self hp, snap_eq_self hne]
      refine halved_zero ?_ (hr _) ?_
      · simpa using ⟨Splitting.good_aboutAxis .x _ one_pos, Splitting.good_aboutAxis .x _ one_pos⟩
      · simpa using hr (-(Real.pi / 2))
  · have hk : (aboutAxis axis a 0).isKept = true := by
      cases axis <;> exact isKept_of_angle (mem_singleton_self a) hs rfl
    rw [kept_of_isKept (Splitting.good_aboutAxis axis a one_pos).toValid hk, map_singleton, snapped_about]
    exact halved_zero (by simpa using Splitting.good_aboutAxis axis _ one_pos) (selects_about axis _)
      (selects_about axis _)

end Single

/-! ### Circuits -/

/-- The first qubits of a circuit, as a list of positions. -/
abbrev lowest (k : ℕ) : Operand ℝ := .list ((range (k + 1)).map fun i : ℕ => .int i)

/-- The negation of qubit 0 by another qubit. -/
abbrev flip (k : ℕ) : Change (Circuit ℝ) Unit := follow (Plan.cx (.int k) (.int 0))

lemma carries_flip (hk : k < m) (h0 : k ≠ 0) : Carries m (flip k) [.gate (.cx k 0)] :=
  carries_call (stands_cx (isQubit_int hk) (isQubit_int (q := 0) (by omega))) (good_cx hk (by omega) h0)

lemma carries_turnBy (axis : Axis) (a : ℝ) :
    Carries 1 (follow (turnBy (rotationAbout axis) a (.int 0))) [.gate (aboutAxis axis a 0)] := by
  refine carries_call ?_ (Splitting.good_aboutAxis axis a one_pos)
  exact stands_turn (by cases axis <;> rfl) (Operand.isNumber_real.mpr rfl)
    (Operand.IsQubit.isQubits (isQubit_int one_pos))

lemma carries_add_lowest (hc : c.Lists (k + 1) (os.map .gate)) (hk : k < m) :
    Carries m (add c (lowest k)) ((os.map snapped).map .gate) := by
  have hm : (lowest k).Maps (k + 1) id := Operand.HasItems.maps rfl
  have ha := carries_add hc.numQubits hc.log hm (.of_le hk)
  have hi : (os.map Item.gate).map (fun i => i.snapped.onQubits id) = (os.map snapped).map .gate := by
    rw [map_map, map_map]
    exact map_congr_left fun o _ => Item.onQubits_id (i := .gate o.snapped) fun q _ => rfl
  rwa [hi] at ha

lemma exists_new (os : List Operation) (hf : f.isReference = true) {x : Change (Circuit ℝ) Unit}
    (hx : Carries m x (os.map .gate)) : ∃ c, (empty f m).after x = .ok c ∧
      c.Lists m ((os.flatMap kept).map .gate) ∧ c.steps = os.flatMap prims := by
  have ho : (empty f m : Circuit ℝ).Open m 0 ∧ (empty f m : Circuit ℝ).steps = [] := open_sized hf m (.int m)
  obtain ⟨c, hr, hl, hs⟩ := Lists.exists_perform ⟨⟨0, ho.1⟩, .nil⟩ hx
  refine ⟨c, by rw [Circuit.after, hr], ?_, ?_⟩
  · rwa [nil_append, Item.flatMap_kept_gates] at hl
  · rw [hs, ho.2, nil_append, Item.flatMap_prims_gates]

lemma exists_reverse (hc : c.Lists n (os.map .gate)) : ∃ d, c.after (horizontalReverse false) = .ok d ∧
    d.Lists n ((os.map snapped).reverse.map .gate) := by
  obtain ⟨g, ho⟩ := hc.isOpen
  obtain ⟨d, hr, ho', -, hl⟩ := perform_updateWith ho (rel_reverse hc.log)
  refine ⟨d, ?_, ⟨_, ho'⟩, ?_⟩
  · rw [Circuit.after, horizontalReverse, Change.perform_get_bind]
    simp [Bool.false_eq_true, hr]
  · simpa [← map_reverse, Item.snapped, Function.comp_def] using hl

lemma kept_of_lists (hc : c.Lists n (os.map .gate)) : ∀ o ∈ os.map snapped, o.kept = [o] := by
  rw [forall_mem_map]
  intro o ho
  obtain ⟨e, -, he⟩ := exists_of_forall₂ hc.log (.gate o) (mem_map_of_mem ho)
  exact map_injective_iff.mpr (fun _ _ h => Item.gate.inj h) he.kept_snapped

/-- Angles that are left of others after those that count as zero were left out. -/
structure Leaves (axis : Axis) (k : ℕ) (xs ys : List ℝ) : Prop where
  length : xs.length = 2 ^ k
  length_left : ys.length = 2 ^ k
  snaps : combined k ys = (combined k xs).map snap
  clear : ∀ a ∈ combined k xs, axis = .y ∨ axis = .z ∧ snap a = a

lemma Leaves.halves (h : Leaves axis (k + 1) xs ys) :
    Leaves axis k (means xs) (means ys) ∧ Leaves axis k (gaps xs) (gaps ys) := by
  have hs := h.snaps
  have hcl := h.clear
  rw [combined, combined, map_append] at hs
  rw [combined, List.forall_mem_append] at hcl
  obtain ⟨hm, hg⟩ := append_inj hs (by rw [length_map, length_combined, length_combined])
  exact ⟨⟨length_halves _ h.length, length_halves _ h.length_left, hm, hcl.1⟩,
    ⟨length_halves _ h.length, length_halves _ h.length_left, hg, hcl.2⟩⟩

/-- The circuit without its last negation goes through, and its log holds the rotation by some angles. -/
def Reaches (f : Framework) (axis : Axis) (k : ℕ) (xs ys : List ℝ) : Prop :=
  ∃ (c : Circuit ℝ) (os : List Operation), selected f (rotationAbout axis) k xs false = .ok c ∧ c.Lists (k + 1) (os.map .gate) ∧
    Halved axis k ys (os.map snapped)

lemma map_zip_halves (xs : List ℝ) : (((xs.take (xs.length / 2)).zip (xs.drop (xs.length / 2))).map
      fun p => (0.5 : ℝ) * p.1 + 0.5 * p.2) = means xs ∧
    (((xs.take (xs.length / 2)).zip (xs.drop (xs.length / 2))).map fun p => (0.5 : ℝ) * p.1 - 0.5 * p.2) = gaps xs := by
  rw [zip_eq_zipWith, map_zipWith, map_zipWith]
  constructor <;> · congr; funext x y; norm_num; ring

/-- The last negation, unless it is left out. -/
def ending (k : ℕ) (closing : Bool) : List Operation := if closing then [.cx k 0] else []

lemma exists_selected_succ (ha : axis ≠ .x) (hf : f.isReference = true) (hys : ys.length = 2 ^ (k + 1))
    (h : Reaches f axis k (means xs) (means ys)) (h' : Reaches f axis k (gaps xs) (gaps ys)) :
    ∃ os, Halved axis (k + 1) ys os ∧ os.map snapped = os ∧ ∀ closing,
      ∃ c, selected f (rotationAbout axis) (k + 1) xs closing = .ok c ∧
        c.Lists (k + 2) ((os ++ ending (k + 1) closing).map .gate) ∧
        c.steps = (os ++ ending (k + 1) closing).flatMap prims := by
  obtain ⟨c, os, hc, hl, hh⟩ := h
  obtain ⟨d, ps, hd, hl', hh'⟩ := h'
  obtain ⟨e, he, hl''⟩ := exists_reverse hl'
  have hfl := carries_flip (k + 1).lt_succ_self k.succ_ne_zero
  have hfi := carries_add_lowest hl (k.lt_succ_self.trans (k + 1).lt_succ_self)
  have hsn := carries_add_lowest hl'' (k.lt_succ_self.trans (k + 1).lt_succ_self)
  have hs : ∀ os : List Operation, (os.map snapped).map snapped = os.map snapped := fun os => by
    rw [map_map]; exact map_congr_left fun o _ => snapped_snapped o
  rw [map_reverse, hs] at hsn
  refine ⟨_, hh.join ha hys hh', ?_, fun closing => ?_⟩
  · rw [map_append, map_cons, map_reverse, hs, hs]; rfl
  have hcl : Carries (k + 2) (if closing then flip (k + 1) else pure ()) ((ending (k + 1) closing).map .gate) := by
    cases closing
    · exact carries_pure
    · exact hfl
  set all := os.map snapped ++ .cx (k + 1) 0 :: (ps.map snapped).reverse ++ ending (k + 1) closing with hall
  have hal : Carries (k + 2) (do add c (lowest k); flip (k + 1); add e (lowest k); if closing then flip (k + 1))
      (all.map .gate) := by
    have hbi := hfi.bind (f := fun _ => do flip (k + 1); add e (lowest k); if closing then flip (k + 1))
      (hfl.bind (hsn.bind hcl))
    simpa only [hall, map_append, map_cons, append_assoc, cons_append, nil_append] using hbi
  have hk : all.flatMap kept = all := by
    have hcx : (cx (k + 1) 0).kept = [.cx (k + 1) 0] :=
      kept_of_isKept (good_cx (n := k + 2) (by omega) (by omega) (by omega)).toValid rfl
    refine flatMap_kept_self ?_
    rw [hall, ending]
    simp only [List.forall_mem_append, forall_mem_cons, mem_reverse]
    exact ⟨⟨kept_of_lists hl, hcx, kept_of_lists hl'⟩, by split <;> simp [hcx]⟩
  obtain ⟨r, hr, hl, hst⟩ := exists_new _ hf hal
  rw [hk] at hl
  refine ⟨r, ?_, hl, hst⟩
  rw [selected, (map_zip_halves xs).1, (map_zip_halves xs).2, hc, hd]
  change (d.after _).bind _ = _
  rw [he]
  exact hr

/-- **The circuit without its last negation goes through**, and does the rotation by the angles that are
left, with a negation left over. -/
theorem reaches (ha : axis ≠ .x) (hf : f.isReference = true) (h : Leaves axis k xs ys) : Reaches f axis k xs ys := by
  induction k generalizing xs ys with
  | zero =>
    obtain ⟨a, rfl⟩ := length_eq_one_iff.mp h.length
    obtain ⟨y, rfl⟩ := length_eq_one_iff.mp h.length_left
    obtain rfl : y = snap a := by simpa [combined] using h.snaps
    obtain ⟨c, hc, hl, -⟩ := exists_new [aboutAxis axis a 0] hf (carries_turnBy axis a)
    rw [flatMap_singleton] at hl
    exact ⟨c, _, hc, hl, halved_kept (h.clear a (by simp [combined]))⟩
  | succ k ih =>
    obtain ⟨os, hh, hs, hcl⟩ := exists_selected_succ ha hf h.length_left (ih h.halves.1) (ih h.halves.2)
    obtain ⟨c, hc, hl, -⟩ := hcl false
    rw [ending, if_neg Bool.false_ne_true, append_nil] at hl
    exact ⟨c, os, hc, hl, by rwa [hs]⟩

/-- The circuit has the matrix of the selected rotation. -/
def Rotates (axis : Axis) (k : ℕ) (xs : List ℝ) (c : Circuit ℝ) : Prop :=
  c.operator (k + 1) = matrixOf (k + 1) (select 0 (turned axis k xs))

lemma rotates_of_selects (hn : c.numQubits = k + 1) (hs : c.steps = os.flatMap prims)
    (hg : ∀ o ∈ os, o.Good (k + 1)) (h : Selects 0 os (turned axis k xs)) : Rotates axis k xs c := by
  rw [Rotates, (operator_of_steps hn hs hg).2, funext h.acts]

/-- **Rotations by the angles that are left**, in the three ways in which the last negation is done. -/
theorem rotates_of_leaves (ha : axis ≠ .x) (hf : f.isReference = true) (h : Leaves axis (k + 1) xs ys) :
    (∃ c, selected f (rotationAbout axis) (k + 1) xs true = .ok c ∧ Rotates axis (k + 1) ys c) ∧
    ∃ c r, selected f (rotationAbout axis) (k + 1) xs false = .ok c ∧ c.after (horizontalReverse false) = .ok r ∧
      (∃ d, c.after (flip (k + 1)) = .ok d ∧ Rotates axis (k + 1) ys d) ∧
      ∃ d, (empty f (k + 2)).after (do flip (k + 1); add r (lowest (k + 1))) = .ok d ∧ Rotates axis (k + 1) ys d := by
  obtain ⟨os, hh, hsn, hcl⟩ :=
    exists_selected_succ ha hf h.length_left (reaches ha hf h.halves.1) (reaches ha hf h.halves.2)
  have hcx : (cx (k + 1) 0).Good (k + 2) := good_cx (by omega) (by omega) (by omega)
  have hfl := carries_flip (k + 1).lt_succ_self k.succ_ne_zero
  have ho := selects_leftover ha k.succ_ne_zero
  have hse : ∀ b, leftover axis (k + 1) b * leftover axis (k + 1) b = 1 := fun b => by
    rw [leftover, left_mul_left, Bool.xor_self]; rfl
  have hfo : Selects 0 (os ++ [.cx (k + 1) 0]) (turned axis (k + 1) ys) :=
    (hh.forth.append ho).congr fun b => by rw [← mul_assoc, hse, one_mul]
  have hba : Selects 0 (.cx (k + 1) 0 :: os.reverse) (turned axis (k + 1) ys) :=
    (ho.append hh.back).congr fun b => by rw [mul_assoc, hse, mul_one]
  have hg : ∀ o ∈ os ++ [.cx (k + 1) 0], o.Good (k + 2) := forall_mem_append hh.good (by simpa using hcx)
  refine ⟨?_, ?_⟩
  · obtain ⟨c, hc, hl, hs⟩ := hcl true; exact ⟨c, hc, rotates_of_selects hl.numQubits hs hg hfo⟩
  · obtain ⟨c, hc, hl, hs⟩ := hcl false
    rw [ending, if_neg Bool.false_ne_true, append_nil] at hl hs
    obtain ⟨r, hr, hl'⟩ := exists_reverse hl
    refine ⟨c, r, hc, hr, ?_, ?_⟩
    · obtain ⟨d, hru, hl'', hs'⟩ := hl.exists_perform hfl
      refine ⟨d, by rw [Circuit.after, hru], rotates_of_selects hl''.numQubits ?_ hg hfo⟩
      rw [hs', hs, flatMap_append]
      rfl
    · have had := carries_add_lowest hl' (k + 1).lt_succ_self
      rw [map_reverse, hsn, hsn] at had
      obtain ⟨d, hd, hl'', hs'⟩ := exists_new (.cx (k + 1) 0 :: os.reverse) hf (hfl.bind (f := fun _ => add r (lowest (k + 1))) had)
      refine ⟨d, hd, rotates_of_selects hl''.numQubits hs' ?_ hba⟩
      simpa [or_comm] using hg

/-- **Rotations by selected angles.**  The circuit for a list of `2 ^ m` angles goes through and turns qubit 0
by the angle that the `m` qubits above it select, and does nothing else.  So it does without its last negation
if that follows, or if it comes first and the gates are in reverse order.  With one angle that is always so;
with more, none of the angles that they are combined to may count as whole turns but zero. -/
theorem selected_rotates (haxis : axis = .y ∨ axis = .z) (hf : f.isReference = true) (hxs : xs.length = 2 ^ m)
    (hsnap : m ≠ 0 → ∀ a ∈ combined m xs, snap a = a) :
    (∃ c, selected f (rotationAbout axis) m xs true = .ok c ∧ Rotates axis m xs c) ∧
    (m ≠ 0 → ∃ c r, selected f (rotationAbout axis) m xs false = .ok c ∧
      c.after (horizontalReverse false) = .ok r ∧ (∃ d, c.after (flip m) = .ok d ∧ Rotates axis m xs d) ∧
      ∃ d, (Circuit.empty f (m + 1)).after (do flip m; add r (lowest m)) = .ok d ∧ Rotates axis m xs d) := by
  cases m with
  | zero =>
    obtain ⟨a, rfl⟩ := length_eq_one_iff.mp hxs
    obtain ⟨c, hc, hli, hs⟩ := exists_new [aboutAxis axis a 0] hf (carries_turnBy axis a)
    refine ⟨⟨c, hc, rotates_of_selects hli.numQubits hs ?_ (selects_about axis a)⟩, fun h => absurd rfl h⟩
    simpa using Splitting.good_aboutAxis axis a one_pos
  | succ k =>
    have hsnap := hsnap k.succ_ne_zero
    have hl : Leaves axis (k + 1) xs xs :=
      ⟨hxs, hxs, ((map_congr_left hsnap).trans (map_id' _)).symm, fun a ha => haxis.imp id fun h => ⟨h, hsnap a ha⟩⟩
    obtain ⟨hcl, ho⟩ := rotates_of_leaves (by rcases haxis with rfl | rfl <;> simp) hf hl
    exact ⟨hcl, fun _ => ho⟩

lemma combined_four : combined 2 [4, 2, 3, 1] = [5 / 2, 1, 1 / 2, 0] := by
  norm_num [combined, means, gaps, halves]

theorem selected_rotates_four : (∀ a ∈ combined 2 [4, 2, 3, 1], snap a = a) ∧
    (∃ c, selected .reference .rz 2 [4, 2, 3, 1] true = .ok c ∧ Rotates .z 2 [4, 2, 3, 1] c) ∧
    ((2 : ℕ) ≠ 0 → ∃ c r, selected .reference .rz 2 [4, 2, 3, 1] false = .ok c ∧
      c.after (horizontalReverse false) = .ok r ∧
      (∃ d, c.after (flip 2) = .ok d ∧ Rotates .z 2 [4, 2, 3, 1] d) ∧
      ∃ d, (Circuit.empty .reference 3).after (do flip 2; add r (lowest 2)) = .ok d ∧
        Rotates .z 2 [4, 2, 3, 1] d) := by
  have hs : ∀ a ∈ combined 2 [4, 2, 3, 1], snap a = a := by
    have hp := Real.pi_gt_three
    have hfa : ∀ {x : ℝ}, 1e-10 < x → x < 5 → snap x = x := fun h0 h1 =>
      Settled.snap (.inr (far_of_between h0 (by norm_num; linarith)))
    rw [combined_four]
    simp only [forall_mem_cons, not_mem_nil, IsEmpty.forall_iff, implies_true, and_true]
    exact ⟨hfa (by norm_num) (by norm_num), hfa (by norm_num) (by norm_num), hfa (by norm_num) (by norm_num),
      snap_zero⟩
  exact ⟨hs, selected_rotates (.inr rfl) rfl rfl fun _ => hs⟩

/-- A little more than a full turn, and no whole number of turns. -/
def fullTurn : ℝ := 6.28318530718

lemma snap_fullTurn : snap fullTurn = 0 := by
  have hl := Real.pi_gt_d20
  have hh := Real.pi_lt_d20
  have hfl : ⌊fullTurn / (2 * Real.pi)⌋ = 1 := by
    rw [Int.floor_eq_iff, fullTurn]
    constructor
    · rw [le_div_iff₀ (by linarith)]
      linarith
    · rw [div_lt_iff₀ (by linarith)]
      linarith
  rw [snap, if_pos]
  rw [isZeroAngle_iff, hfl, fullTurn]
  refine .inr (abs_le.mpr ⟨?_, ?_⟩) <;> norm_num at hl hh ⊢ <;> linarith

/-- Two full turns to select from are left out, although each of them is a change of sign. -/
theorem not_selected_rotates_fullTurn : ∃ c, selected .reference .ry 1 [fullTurn, fullTurn] true = .ok c ∧
    ¬ Rotates .y 1 [fullTurn, fullTurn] c := by
  have hl : Leaves .y 1 [fullTurn, fullTurn] [0, 0] := by
    refine ⟨rfl, rfl, ?_, fun a _ => .inl rfl⟩
    simp [combined, means, gaps, halves, snap_fullTurn, snap_zero]
  obtain ⟨⟨c, hc, hr⟩, -⟩ := rotates_of_leaves (f := .reference) (by simp) rfl hl
  refine ⟨c, hc, fun h => ?_⟩
  have he := congrFun₂ (hr.symm.trans h) 0 0
  rw [matrixOf_select (Nat.succ_pos _), matrixOf_select (Nat.succ_pos _), if_pos fun _ _ _ => rfl,
    if_pos fun _ _ _ => rfl] at he
  have ht : ∀ x : ℝ, turned .y 1 [x, x] (bits 0) false false = Real.cos (x / 2) := fun x => by
    have hch : chosen 1 [x, x] (bits 0) = x := rfl
    rw [turned, hch]
    change Base.ry.square [x] false false = _
    rw [Base.square_ry]
    rfl
  have hco : Real.cos (fullTurn / 2) = 1 := by
    have ho := (ht fullTurn).symm.trans (he.symm.trans (ht 0))
    rw [zero_div, Real.cos_zero] at ho
    exact_mod_cast ho
  have hp := Real.pi_gt_three
  rw [Real.cos_eq_one_iff_of_lt_of_lt] at hco
  · norm_num [fullTurn] at hco
  · norm_num [fullTurn]; linarith
  · norm_num [fullTurn]; linarith

end QuantumCircuits.Merging

end
