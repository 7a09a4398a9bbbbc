import Mathlib.Data.List.GetD
import QuantumCircuits.Proofs.Operation.Basic

/-!
# Operation — Reading

What loosely typed operands stand for: numbers, qubits and lists of them.  A qubit may be counted
from the end, and a list of qubits may be a list, a tuple, a range or a single number; `IsQubits`
holds of all of these.  The library's operations on operands, taken to what the operands stand for,
are arithmetic and list operations.
-/

namespace QuantumCircuits

open List

/-! ### Lists -/

section MapM

variable {β γ δ : Type} {f : β → Outcome γ} {xs : List β} {zs : List δ} {P : β → δ → Prop}

lemma exists_mapM_forall₂ {Q : γ → δ → Prop} (h : Forall₂ P xs zs)
    (hf : ∀ x z, P x z → ∃ y, f x = .ok y ∧ Q y z) : ∃ ys, xs.mapM f = .ok ys ∧ Forall₂ Q ys zs := by
  induction h with
  | nil => exact ⟨[], rfl, .nil⟩
  | cons hx _ ih =>
    obtain ⟨y, hy, hz⟩ := hf _ _ hx
    obtain ⟨ys, hys, hr⟩ := ih
    exact ⟨y :: ys, by simp [mapM_cons, hy, hys, bind, Except.bind, pure, Except.pure], .cons hz hr⟩

lemma mapM_of_forall₂ {g : δ → γ} (h : Forall₂ P xs zs)
    (hf : ∀ x z, P x z → f x = .ok (g z)) : xs.mapM f = .ok (zs.map g) := by
  obtain ⟨ys, hys, hzs⟩ := exists_mapM_forall₂ (Q := fun y z => y = g z) h fun x z hx => ⟨_, hf x z hx, rfl⟩
  rw [hys, forall₂_eq_eq_eq.le _ _ (forall₂_map_right_iff.mpr hzs)]

lemma mapM_ok {g : β → γ} (h : ∀ x ∈ xs, f x = .ok (g x)) : xs.mapM f = .ok (xs.map g) :=
  mapM_of_forall₂ (forall₂_same.mpr h) fun _ _ hx => hx

end MapM

namespace Operand

variable {i : ℕ}

/-! ### Numbers -/

def IsNumber : Operand ℝ → ℝ → Prop
  | .int i, r => r = i
  | .bool b, r => r = if b then 1 else 0
  | .real x, r => r = x
  | _, _ => False

def IsNumbers : Operand ℝ → List ℝ → Prop
  | .list xs, rs | .tuple xs, rs => Forall₂ IsNumber xs rs
  | _, _ => False

@[simp] lemma isNumber_real {x r : ℝ} : IsNumber (.real x) r ↔ r = x := Iff.rfl

lemma isNumber_int_zero : IsNumber (.int 0) 0 := by simp [IsNumber]

section Numbers

variable {x y : Operand ℝ} {r s : ℝ}

lemma IsNumber.toReal (h : IsNumber x r) : x.toReal = .ok r := by
  cases x <;> simp only [IsNumber] at h
  · subst h; simp [toReal]
  · subst h; simp [toReal, realOfInt]
  · subst h; rfl

lemma IsNumber.isReal (h : IsNumber x r) : x.isReal = true := by
  cases x <;> simp_all [IsNumber, isReal]

lemma IsNumber.mapNumber (h : IsNumber x r) (f : ℝ → ℝ) (g : Cplx ℝ → Cplx ℝ) :
    x.mapNumber f g = .ok (.real (f r)) := by
  have ht := h.toReal
  cases x <;> simp only [IsNumber] at h <;> simp [mapNumber, ht, bind, Except.bind]

lemma IsNumber.times (h : IsNumber x r) (c : ℝ) : x.times c = .ok (.real (r * c)) := h.mapNumber _ _

lemma IsNumber.plus (h : IsNumber x r) (c : ℝ) : x.plus c = .ok (.real (r + c)) := h.mapNumber _ _

lemma IsNumber.quotient (h : IsNumber x r) (c : ℝ) : x.quotient c = .ok (.real (r / c)) := h.mapNumber _ _

lemma IsNumber.negate (h : IsNumber x r) : ∃ y, x.negate = .ok y ∧ IsNumber y (-r) := by
  cases x with
  | int i => exact ⟨.int (-i), rfl, by simpa [IsNumber] using h⟩
  | bool b =>
    refine ⟨_, rfl, ?_⟩
    simp only [IsNumber] at h ⊢
    cases b <;> simp [h]
  | real x => exact ⟨.real (-x), rfl, by simpa [IsNumber] using h⟩
  | _ => exact h.elim

lemma IsNumber.toInt? {i : Int} (h : IsNumber x r) (hi : x.toInt? = some i) : r = i := by
  cases x with
  | int j =>
    simp only [IsNumber, toInt?, Option.some.injEq] at h hi
    rw [h, hi]
  | bool b =>
    simp only [IsNumber, toInt?, Option.some.injEq] at h hi
    cases b <;> simp [h, ← hi]
  | real x => cases hi
  | _ => exact h.elim

lemma IsNumber.sum (hx : IsNumber x r) (hy : IsNumber y s) : ∃ z, x.sum y = .ok z ∧ IsNumber z (r + s) := by
  have hp := hy.plus r
  rw [add_comm] at hp
  unfold Operand.sum
  split
  case h_1 i j hi hj =>
    refine ⟨_, rfl, ?_⟩
    simp [IsNumber, hx.toInt? hi, hy.toInt? hj]
  case h_2 =>
    refine ⟨.real (r + s), ?_, rfl⟩
    simp [hx.isReal, hx.toReal, hp, bind, Except.bind]

lemma IsNumber.checkAngle (h : IsNumber x r) : ∃ y, checkAngle x = .ok y ∧ IsNumber y (snap r) := by
  have ht := h.toReal
  have hch : QuantumCircuits.checkAngle x = .ok (if isZeroAngle r then .real 0.0 else x) := by
    cases x <;> simp only [IsNumber] at h <;> simp [QuantumCircuits.checkAngle, ht, bind, Except.bind]
  refine ⟨_, hch, ?_⟩
  by_cases hz : isZeroAngle r = true
  · simp [hz, snap, IsNumber]
  · simpa [hz, snap] using h

lemma IsNumber.isZero (h : IsNumber x r) : x.isZero = decide (r = 0) := by
  cases x <;> simp only [IsNumber] at h <;> subst h <;> simp [isZero, toReal?]

end Numbers

/-! ### Lists -/

section Lists

variable {x : Operand ℝ} {rs : List ℝ}

lemma IsNumbers.items (h : IsNumbers x rs) : ∃ xs, x.items = .ok xs ∧ Forall₂ IsNumber xs rs := by
  cases x with
  | list xs => exact ⟨xs, rfl, h⟩
  | tuple xs => exact ⟨xs, rfl, h⟩
  | _ => exact h.elim

lemma item_of_items {xs : List (Operand ℝ)} (hs : ∀ ys, x ≠ .set ys)
    (hit : x.items = .ok xs) (hi : i < xs.length) : x.item i = .ok (xs.getD i .none) := by
  have hp : position xs.length (i : Int) = .ok i := by
    rw [position, if_pos ⟨Int.natCast_nonneg i, by exact_mod_cast hi⟩]
    rfl
  rw [item.eq_2 x i hs]
  simp [hit, hp, bind, Except.bind]

lemma forall₂_getD {β γ : Type} {R : β → γ → Prop} {xs : List β} {ys : List γ}
    (h : Forall₂ R xs ys) (hi : i < ys.length) (x : β) (y : γ) : R (xs.getD i x) (ys.getD i y) := by
  have hi' : i < xs.length := h.length_eq ▸ hi
  rw [getD_eq_getElem _ _ hi', getD_eq_getElem _ _ hi]
  exact h.get hi' hi

lemma IsNumbers.item (h : IsNumbers x rs) (hi : i < rs.length) : ∃ y, x.item i = .ok y ∧ IsNumber y (rs.getD i 0) := by
  obtain ⟨xs, hit, hxs⟩ := h.items
  have hs : ∀ ys, x ≠ .set ys := by rintro ys rfl; exact h
  exact ⟨_, item_of_items hs hit (hxs.length_eq ▸ hi), forall₂_getD hxs hi .none 0⟩

end Lists

/-! ### Qubits -/

/-- The operand is a qubit of a circuit on `n` qubits. -/
structure IsQubit (n : ℕ) (x : Operand ℝ) (q : ℕ) : Prop where
  isInt : x.isInt = true
  wrap : Sink.wrap n x = .ok q

/-- The operand is a sequence with the given items. -/
def HasItems : Operand ℝ → List (Operand ℝ) → Prop
  | .list xs, ys | .tuple xs, ys => ys = xs
  | .range a b s, ys => rangeCount a b s < 2 ^ (63 : Nat) ∧ ys = (rangeMembers a b s).map .int
  | _, _ => False

def IsSequence (n : ℕ) (x : Operand ℝ) (qs : List ℕ) : Prop := ∃ xs, x.HasItems xs ∧ Forall₂ (IsQubit n) xs qs

/-- The operand is a sequence of qubits, or one qubit. -/
def IsQubits (n : ℕ) (x : Operand ℝ) (qs : List ℕ) : Prop := IsSequence n x.listed qs

section Qubits

variable {n q : ℕ} {x : Operand ℝ} {xs ys : List (Operand ℝ)} {qs rs : List ℕ}

lemma HasItems.items (h : x.HasItems xs) : x.items = .ok xs := by
  cases x with
  | list _ | tuple _ => exact congrArg _ h.symm
  | range a b s => rw [items, if_neg (not_le.mpr h.1), ← h.2]
  | _ => exact h.elim

lemma HasItems.ne_set (h : x.HasItems xs) (ys : List (Operand ℝ)) : x ≠ .set ys := by rintro rfl; exact h

lemma HasItems.listed (h : x.HasItems xs) : x.listed = x := by
  cases x with
  | list _ | tuple _ | range _ _ _ => rfl
  | _ => exact h.elim

lemma HasItems.rebuild (h : x.HasItems xs) (ys : List (Operand ℝ)) : (x.rebuild ys).HasItems ys := by
  cases x with
  | list _ | tuple _ | range _ _ _ => exact rfl
  | _ => exact h.elim

lemma IsSequence.list (h : Forall₂ (IsQubit n) xs qs) : IsSequence n (.list xs) qs := ⟨xs, rfl, h⟩

lemma IsSequence.listed (h : IsSequence n x qs) : x.listed = x :=
  let ⟨_, hx, _⟩ := h
  hx.listed

lemma IsSequence.isQubits (h : IsSequence n x qs) : IsQubits n x qs := by rw [IsQubits, h.listed]; exact h

lemma IsQubits.listed (h : IsQubits n x qs) : IsQubits n x.listed qs := IsSequence.isQubits h

lemma IsQubit.isQubits (h : IsQubit n x q) : IsQubits n x [q] := by
  have hl : x.listed = .list [x] := if_pos h.isInt
  rw [IsQubits, hl]
  exact .list (.cons h .nil)

lemma IsSequence.items (h : IsSequence n x qs) : ∃ xs, x.items = .ok xs ∧ Forall₂ (IsQubit n) xs qs :=
  let ⟨xs, hx, hxs⟩ := h
  ⟨xs, hx.items, hxs⟩

lemma IsSequence.length (h : IsSequence n x qs) : x.length = .ok qs.length := by
  obtain ⟨xs, hx, hxs⟩ := h; rw [Operand.length, hx.items, ← hxs.length_eq]; rfl

lemma IsSequence.item (h : IsSequence n x qs) (hi : i < qs.length) :
    ∃ y, x.item i = .ok y ∧ IsQubit n y (qs.getD i 0) := by
  obtain ⟨xs, hx, hxs⟩ := h
  exact ⟨_, item_of_items hx.ne_set hx.items (hxs.length_eq ▸ hi), forall₂_getD hxs hi .none 0⟩

lemma IsSequence.toList (h : IsSequence n x qs) : ∃ xs, x.toList = .ok (.list xs) ∧ Forall₂ (IsQubit n) xs qs := by
  obtain ⟨xs, hx, hxs⟩ := h
  refine ⟨xs, ?_, hxs⟩
  rw [Operand.toList, hx.items]
  rfl

lemma IsSequence.dropFirst (h : IsSequence n x qs) : ∃ y, x.dropFirst = .ok y ∧ IsSequence n y qs.tail := by
  obtain ⟨xs, hx, hxs⟩ := h
  refine ⟨x.rebuild (xs.drop 1), ?_, xs.drop 1, hx.rebuild _, ?_⟩
  · rw [dropFirst.eq_2 x hx.ne_set, hx.items]; rfl
  · rw [← drop_one]; exact forall₂_drop 1 hxs

lemma IsSequence.dropLast (h : IsSequence n x qs) : ∃ y, x.dropLast = .ok y ∧ IsSequence n y qs.dropLast := by
  obtain ⟨xs, hx, hxs⟩ := h
  refine ⟨x.rebuild xs.dropLast, ?_, xs.dropLast, hx.rebuild _, ?_⟩
  · rw [dropLast.eq_2 x hx.ne_set, hx.items]; rfl
  · rw [dropLast_eq_take, dropLast_eq_take, hxs.length_eq]; exact forall₂_take _ hxs

lemma IsSequence.last (h : IsSequence n x qs) (h0 : qs ≠ []) :
    ∃ y, x.item (-1) = .ok y ∧ IsQubit n y (qs.getLastD 0) := by
  obtain ⟨xs, hx, hxs⟩ := h
  have hpo : 0 < qs.length := length_pos_iff.mpr h0
  have hp : position xs.length (-1) = .ok (qs.length - 1) := by
    rw [position, if_neg (by omega), if_pos (by rw [hxs.length_eq]; omega), hxs.length_eq]
    congr 1
    omega
  have hl : qs.getLastD 0 = qs.getD (qs.length - 1) 0 := by
    obtain ⟨ds, c, rfl⟩ := eq_nil_or_concat qs |>.resolve_left h0
    simp
  refine ⟨xs.getD (qs.length - 1) .none, ?_, ?_⟩
  · rw [item.eq_2 x (-1) hx.ne_set, hx.items]; simp [hp, bind, Except.bind]
  · rw [hl]; exact forall₂_getD hxs (by omega) .none 0

/-! ### Checks of qubits -/

/-- The operand is a qubit, counted from the start. -/
structure IsIndex (n : ℕ) (x : Operand ℝ) (q : ℕ) : Prop where
  isInt : x.isInt = true
  toInt? : x.toInt? = some (q : Int)
  lt : q < n

lemma IsQubit.toInt? (h : IsQubit n x q) :
    ∃ i : Int, x.toInt? = some i ∧ -(n : Int) ≤ i ∧ i < n ∧ (if 0 ≤ i then i else i + n).toNat = q := by
  have hw := h.wrap
  rw [Sink.wrap] at hw
  split at hw
  case h_1 => cases hw
  case h_2 i hi =>
    split at hw
    case isTrue hr => exact ⟨i, hi, hr.1, hr.2, Except.ok.inj hw⟩
    case isFalse => cases hw

lemma IsQubit.lt (h : IsQubit n x q) : q < n := by
  obtain ⟨i, -, hl, hh, rfl⟩ := h.toInt?
  split <;> omega

lemma IsIndex.isQubit (h : IsIndex n x q) : IsQubit n x q := by
  have hl := h.lt
  refine ⟨h.isInt, ?_⟩
  simp only [Sink.wrap, h.toInt?]
  rw [if_pos (by omega), if_pos (by omega), Int.toNat_natCast]

lemma IsQubit.checkIndex (h : IsQubit n x q) : ∃ y, checkIndex n x = .ok y ∧ IsIndex n y q := by
  obtain ⟨i, hi, hl, hh, hq⟩ := h.toInt?
  have hch : QuantumCircuits.checkIndex n x = .ok (if 0 ≤ i then x else .int (n + i)) := by
    simp only [QuantumCircuits.checkIndex, h.isInt, Bool.not_true, Bool.false_eq_true, if_false, hi, Option.getD_some]
    rw [if_neg (by omega)]
  refine ⟨_, hch, ?_⟩
  split
  case isTrue h0 =>
    refine ⟨h.isInt, hi.trans ?_, h.lt⟩
    rw [if_pos h0] at hq
    rw [← hq, Int.toNat_of_nonneg h0]
  case isFalse h0 =>
    refine ⟨rfl, ?_, h.lt⟩
    rw [if_neg h0] at hq
    rw [Operand.toInt?, ← hq, Int.toNat_of_nonneg (by omega), add_comm]

lemma mapM_checkIndex (h : Forall₂ (IsQubit n) xs qs) :
    ∃ ys, xs.mapM (checkIndex n) = .ok ys ∧ Forall₂ (IsIndex n) ys qs :=
  exists_mapM_forall₂ h fun _ _ hx => hx.checkIndex

lemma IsIndex.indices (h : IsIndex n x q) : x.indices = [x] := by
  have hi := h.isInt
  cases x with
  | int i | bool b => rfl
  | _ => cases hi

/-- What is left of an operand for several qubits after its check: one index, or a list of none or
several of them. -/
inductive IsChecked (n : ℕ) : Operand ℝ → List ℕ → Prop where
  | one {x : Operand ℝ} {q : ℕ} (h : IsIndex n x q) : IsChecked n x [q]
  | list {xs : List (Operand ℝ)} {qs : List ℕ} (hlen : qs.length ≠ 1)
      (h : Forall₂ (IsIndex n) xs qs) : IsChecked n (.list xs) qs

lemma IsChecked.isQubits (h : IsChecked n x qs) : IsQubits n x qs := by
  cases h with
  | one h => exact h.isQubit.isQubits
  | list _ h => exact (IsSequence.list (h.imp fun _ _ hy => hy.isQubit)).isQubits

lemma IsChecked.indices (h : IsChecked n x qs) : Forall₂ (IsIndex n) x.indices qs := by
  cases h with
  | one h => exact h.indices ▸ .cons h .nil
  | list _ h => exact h

lemma checkQubits_list (h : Forall₂ (IsQubit n) xs qs) : ∃ w, checkQubits n (.list xs) = .ok w ∧ IsChecked n w qs := by
  match xs, h with
  | [x], .cons hx .nil =>
    obtain ⟨y, hy, hi⟩ := hx.checkIndex
    exact ⟨y, hy, .one hi⟩
  | [], .nil => exact ⟨.list [], rfl, .list (by simp) .nil⟩
  | x :: x' :: xs, h =>
    have hlen : qs.length ≠ 1 := by simp [← h.length_eq]
    obtain ⟨ys, hys, hi⟩ := mapM_checkIndex h
    refine ⟨.list ys, ?_, .list hlen hi⟩
    simp [checkQubits, hys, bind, Except.bind]

lemma IsQubit.check (h : IsQubit n x q) : ∃ v w, x.toPlain = .ok v ∧ checkQubits n v = .ok w ∧ IsIndex n w q := by
  have hin := h.isInt
  cases x with
  | int i =>
    obtain ⟨w, hw, hi⟩ := h.checkIndex
    exact ⟨.int i, w, rfl, hw, hi⟩
  | bool b =>
    have h' : IsQubit n (.int (if b then 1 else 0)) q := ⟨rfl, h.wrap⟩
    obtain ⟨w, hw, hi⟩ := h'.checkIndex
    exact ⟨_, w, rfl, hw, hi⟩
  | _ => cases hin

lemma HasItems.toPlain (h : x.HasItems xs) : x.toPlain = .ok (.list xs) := by
  cases x with
  | list _ | tuple _ => exact congrArg (fun ys => Except.ok (list ys)) h.symm
  | range a b s => rw [toPlain, if_neg (not_le.mpr h.1), plain, ← h.2]
  | _ => exact h.elim

lemma IsQubits.check (h : IsQubits n x qs) : ∃ v w, x.toPlain = .ok v ∧ checkQubits n v = .ok w ∧ IsChecked n w qs := by
  obtain ⟨xs, hx, hxs⟩ := h
  by_cases hi : x.isInt = true
  · rw [Operand.listed, if_pos hi] at hx
    obtain rfl : xs = [x] := hx
    obtain ⟨q, rs, hq, hn, rfl⟩ := forall₂_cons_left_iff.mp hxs
    obtain rfl := forall₂_nil_left_iff.mp hn
    obtain ⟨v, w, hv, hw, hin⟩ := hq.check
    exact ⟨v, w, hv, hw, .one hin⟩
  · rw [Operand.listed, if_neg hi] at hx
    obtain ⟨w, hw, hch⟩ := checkQubits_list hxs
    exact ⟨_, w, hx.toPlain, hw, hch⟩

lemma distinctIndices_of_nodup (h : Forall₂ (IsIndex n) xs qs) (hq : qs.Nodup) : distinctIndices xs = true := by
  induction h with
  | nil => rfl
  | cons hx hr ih =>
    rename_i x q xs qs
    obtain ⟨hn, hnd⟩ := nodup_cons.mp hq
    have ha : xs.any (sameIndex x) = false := by
      rw [any_eq_false]
      intro y hy hs
      obtain ⟨i, hi, rfl⟩ := getElem_of_mem hy
      have hi' : i < qs.length := hr.length_eq ▸ hi
      have hin : IsIndex n xs[i] qs[i] := hr.get hi hi'
      have he : (q : Int) = (qs[i] : ℕ) := by simpa [sameIndex, hx.toInt?, hin.toInt?] using hs
      exact hn (by rw [Int.ofNat_inj.mp he]; exact getElem_mem hi')
    rw [distinctIndices, ha, ih hnd]
    rfl

end Qubits

end Operand

variable {n q : ℕ} {qs : List ℕ}

lemma isQubit_int (h : q < n) : Operand.IsQubit n (.int q) q := Operand.IsIndex.isQubit ⟨rfl, rfl, h⟩

lemma forall₂_ints (h : ∀ q ∈ qs, q < n) : Forall₂ (Operand.IsQubit n) (qs.map fun q : ℕ => .int q) qs := by
  rw [forall₂_map_left_iff]; exact forall₂_same.mpr fun q hq => isQubit_int (h q hq)

lemma isQubits_ints (h : ∀ q ∈ qs, q < n) : Operand.IsQubits n (.list (qs.map fun q : ℕ => .int q)) qs :=
  (Operand.IsSequence.list (forall₂_ints h)).isQubits

end QuantumCircuits
