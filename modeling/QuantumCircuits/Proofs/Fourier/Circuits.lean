import QuantumCircuits.Proofs.AddedPhases
import QuantumCircuits.Proofs.Splitting.Prepared

/-!
# Fourier — Circuits

The Fourier transform on the qubits of a circuit.  Its gates are put on a circuit of their own, which is
reversed if the inverse is wanted, and then added to the given qubits.

A turn by an angle that counts as none has no entry; only the two negations in its definition have one
(`kept_turned`).  What is logged stands for itself, and so does what undoes it (`Steady`), so the reversed
log is that of the adjoint, gate by gate.
-/

/-! ### Transform

What the gates of the Fourier transform do.  The plan goes through the qubits from the last one down; each
gets a Hadamard gate and then turns under it, one for each of its partners (`stands_plan`).  The turns of
qubit `j` together add half a turn times the number that the qubits before it spell, as a fraction of `2 ^ j`
(`totalAdded_turns`), so a stage is the transform of one more digit, and the stages together are the
transform with its digits in reverse (`acts_stages`).  The exchanges put the digits in order
(`acts_exchanges`).
-/

noncomputable section

namespace QuantumCircuits

open List Operation Plan Scalar Complex

lemma Scalar.twoPow_real (k : ℤ) : (twoPow k : ℝ) = 2 ^ k := by
  cases k with
  | ofNat m => simp [twoPow]
  | negSucc m => simp [twoPow, zpow_negSucc]

namespace Fourier

open Real
open Splitting (before indexOf_before_succ indexOf_before_reversed indexOf_range_bits)

variable {n x d j k m : ℕ}

/-! ### The gates -/

def turned (j k : ℕ) : Operation := .of .phase .controlled [π * 2 ^ ((k : ℤ) - j)] [j] [k]

/-- The qubits that are turned under qubit `j`, from the nearest one down. -/
def partners (n d j : ℕ) : List ℕ := (range (turnCount n d j)).map fun i => j - 1 - i

def stageParts (n d j : ℕ) : List Operation := on .h [j] :: (partners n d j).map (turned j)

/-- The exchange of a qubit with the one as far from the end. -/
def exchanged (n i : ℕ) : Operation := on .swap [i, n - i - 1]

def parts (n d : ℕ) (swapping : Bool) : List Operation :=
  (range n).reverse.flatMap (stageParts n d) ++
    if swapping then (range (n / 2)).map (exchanged n) else []

lemma mem_partners : k ∈ partners n d j ↔ k < j ∧ d ≤ k + (n - j - 1) := by
  simp only [partners, turnCount, mem_map, mem_range]
  constructor
  · rintro ⟨i, hi, rfl⟩; omega
  · rintro ⟨hk, hd⟩; exact ⟨j - 1 - k, by omega, by omega⟩

lemma stands_stage (hj : j < n) : Stands n (stage n d j) (stageParts n d j) () := by
  have hs : ∀ k ∈ partners n d j, Stands n
      (controlledTurn .phase (.real (Scalar.pi * twoPow ((k : ℤ) - j))) (.int j) (.int k))
      [turned j k] () := fun k hk => by
    have hk' : k < n := (mem_partners.mp hk).1.trans hj
    refine stands_call (o := turned j k) rfl (.cons ?_ (.cons (isQubit_int hj) (.cons (isQubit_int hk') .nil)))
    rw [twoPow_real]
    rfl
  have ht := stands_forM hs
  rw [← map_eq_flatMap] at ht
  exact .before (stands_on rfl (isQubit_int hj).isQubits) ht

lemma stands_exchanged {i : ℕ} (hi : i < n / 2) :
    Stands n (call (.of .swap .plain) [.int i, .int (n - i - 1 : ℕ)]) [exchanged n i] () :=
  stands_call (o := exchanged n i) rfl (.cons (isQubit_int (by omega)) (.cons (isQubit_int (by omega)) .nil))

/-- **What the plan stands for.** -/
theorem stands_plan (n d : ℕ) (swapping : Bool) : Stands n (plan n d swapping) (parts n d swapping) () := by
  refine (stands_forM fun j hj => stands_stage (by simpa using hj)).bind ?_
  cases swapping with
  | false => exact stands_pure ()
  | true =>
    rw [if_pos rfl, if_pos rfl, map_eq_flatMap]
    exact stands_forM fun i hi => stands_exchanged (mem_range.mp hi)

/-! ### Pairs of qubits -/

/-- The pairs of a qubit and one that is turned under it, in order. -/
def pairs (n d : ℕ) : List (ℕ × ℕ) := (range n).reverse.flatMap fun j => (partners n d j).map fun k => (j, k)

lemma mem_pairs : (j, k) ∈ pairs n d ↔ k < j ∧ j < n ∧ (j : ℤ) - k ≤ n - 1 - d := by
  have hm : (j, k) ∈ pairs n d ↔ j < n ∧ k ∈ partners n d j := by simp [pairs]
  rw [hm, mem_partners]
  omega

lemma nodup_pairs (n d : ℕ) : (pairs n d).Nodup := by
  refine nodup_flatMap.mpr ⟨fun j _ => ?_, ?_⟩
  · have hp : (partners n d j).Nodup := by
      refine nodup_range.map_on fun i hi i' hi' h => ?_; rw [turnCount, mem_range] at hi hi'; omega
    exact hp.map fun k k' h => (Prod.mk.inj h).2
  · refine (nodup_reverse.mpr nodup_range).imp fun {j j'} hn => ?_
    rw [Function.onFun, disjoint_left]
    simp only [mem_map]
    rintro _ ⟨k, -, rfl⟩ ⟨k', -, h⟩
    exact hn (Prod.mk.inj h).1.symm

lemma filter_parts (n d : ℕ) (swapping : Bool) :
    (parts n d swapping).filter (fun o => o.gate = .of .phase .controlled) =
      (pairs n d).map fun q => turned q.1 q.2 := by
  have hs : ∀ j, (stageParts n d j).filter (fun o => o.gate = .of .phase .controlled) =
      (partners n d j).map (turned j) := fun j => by
    rw [stageParts, filter_cons_of_neg (by simp [gate]), filter_eq_self]
    simp [turned, gate]
  have hr : (if swapping then (range (n / 2)).map (exchanged n) else []).filter
      (fun o => o.gate = .of .phase .controlled) = [] := by
    rw [filter_eq_nil_iff]
    cases swapping <;> simp [exchanged, gate]
  rw [parts, filter_append, hr, append_nil, filter_flatMap, pairs, map_flatMap]
  refine flatMap_congr fun j _ => ?_
  rw [hs, map_map]
  rfl

/-! ### The turns of one qubit -/

lemma stageParts_zero (n j : ℕ) : stageParts n 0 j = on .h [j] :: ((range j).map (turned j)).reverse := by
  have hp : partners n 0 j = (range j).reverse := by
    refine ext_getElem (by simp [partners, turnCount]) fun i hi hi' => ?_
    simp [partners]
  rw [stageParts, hp, map_reverse]

lemma totalAdded_turns (j c : ℕ) (b : Register) : totalAdded ((range c).map (turned j)) b =
      if b j then π * indexOf (range c) b / 2 ^ j else 0 := by
  induction c with
  | zero => simp [indexOf]
  | succ c ih =>
    have hl : totalAdded [turned j c] b = if b j then π * (2 ^ c * (b c).toNat) / 2 ^ j else 0 := by
      have hp : (2 : ℝ) ^ ((c : ℤ) - j) = 2 ^ c / 2 ^ j := by
        rw [zpow_sub₀ two_ne_zero, zpow_natCast, zpow_natCast]
      cases hj : b j <;> cases hc : b c <;> simp [turned, added, hj, hc, hp, mul_div_assoc]
    rw [totalAdded] at ih hl ⊢
    rw [range_succ, map_append, map_append, sum_append, ih, map_singleton, hl, indexOf_concat, length_range]
    push_cast
    split
    · ring
    · ring

/-- **One stage**: the digit of the qubit is transformed, and the qubits before it turn the phase where it
is on. -/
theorem acts_stageParts (n j : ℕ) (V : Wave) (b : Register) : acts (stageParts n 0 j) V b = (1 / √2 : ℝ) *
      ((V (Function.update b j false) + (if b j then -1 else 1) * V (Function.update b j true)) *
        exp ((if b j then π * indexOf (range j) b / 2 ^ j else 0 : ℝ) * I)) := by
  have hp : ∀ o ∈ ((range j).map (turned j)).reverse, o.AddsPhases := by
    simp only [mem_reverse, forall_mem_map]; exact fun k _ => addsPhases_phase _ _ _ _
  have ht : totalAdded ((range j).map (turned j)).reverse b = totalAdded ((range j).map (turned j)) b := by
    rw [totalAdded, map_reverse, sum_reverse, totalAdded]
  have hd : (on .h [j]).act V b = (1 / √2 : ℝ) *
      (V (Function.update b j false) + (if b j then -1 else 1) * V (Function.update b j true)) := by
    rw [act_plain rfl, selectEach_cons, selectEach_nil, Base.square_h, select]
    cases b j
    · simp [mul_add]
    · simp [mul_add]
  rw [stageParts_zero, acts_cons, acts_addsPhases hp, ht, totalAdded_turns, hd]
  ring

/-! ### The stages -/

/-- The `m`-th power of the first `2 ^ n`-th root of one. -/
def rootPow (n m : ℕ) : ℂ := exp (2 * π * I * m / 2 ^ n)

lemma rootPow_add (n l m : ℕ) : rootPow n (l + m) = rootPow n l * rootPow n m := by
  rw [rootPow, rootPow, rootPow, ← Complex.exp_add]
  congr 1
  push_cast
  ring

lemma rootPow_double (n m : ℕ) : rootPow (n + 1) (2 * m) = rootPow n m := by
  rw [rootPow, rootPow]
  congr 1
  push_cast
  ring

lemma rootPow_whole (n m : ℕ) : rootPow n (2 ^ n * m) = 1 := by
  rw [rootPow, ← exp_nat_mul_two_pi_mul_I m]
  congr 1
  push_cast
  field_simp

lemma rootPow_half (n : ℕ) : rootPow (n + 1) (2 ^ n) = -1 := by
  rw [rootPow, ← exp_pi_mul_I]
  congr 1
  push_cast
  field_simp
  ring

lemma rootPow_eq_exp (n m : ℕ) : rootPow (n + 1) m = exp ((π * m / 2 ^ n : ℝ) * I) := by
  rw [rootPow]
  congr 1
  push_cast
  ring

/-- The register with the first `n` qubits as in a number. -/
def spelled (n x : ℕ) (b : Register) : Register := fun q => if q < n then x.testBit q else b q

lemma spelled_low (hx : x < 2 ^ n) (b : Register) : spelled (n + 1) x b = Function.update (spelled n x b) n false := by
  funext q
  rcases eq_or_ne q n with rfl | hq
  · simp [spelled, Nat.testBit_lt_two_pow hx]
  · rw [Function.update_of_ne hq, spelled, spelled]; exact if_congr (by omega) rfl rfl

lemma spelled_high (hx : x < 2 ^ n) (b : Register) :
    spelled (n + 1) (2 ^ n + x) b = Function.update (spelled n x b) n true := by
  funext q
  rcases eq_or_ne q n with rfl | hq
  · simp [spelled, Nat.testBit_two_pow_add_eq, Nat.testBit_lt_two_pow hx]
  · rw [Function.update_of_ne hq, spelled, spelled]
    rcases lt_or_gt_of_ne hq with hl | hg
    · rw [if_pos (by omega), if_pos hl, Nat.testBit_two_pow_add_gt hl]
    · rw [if_neg (by omega), if_neg (by omega)]

lemma indexOf_spelled (hx : x < 2 ^ n) (b : Register) : indexOf (range n) (spelled n x b) = x := by
  have hbi : indexOf (range n) (spelled n x b) = indexOf (range n) (bits x) :=
    foldr_ext _ _ _ fun q hq k => by rw [spelled, if_pos (mem_range.mp hq), bits]
  rw [hbi, indexOf_range_bits, Nat.mod_eq_of_lt hx]

lemma rootPow_before_succ (n x : ℕ) (b : Register) :
    rootPow (n + 1) (x * indexOf (before (n + 1)) b) = rootPow n (x * indexOf (before n) b) *
        exp ((if b n then π * x / 2 ^ n else 0 : ℝ) * I) ∧
      rootPow (n + 1) ((2 ^ n + x) * indexOf (before (n + 1)) b) =
        (if b n then -1 else 1) * rootPow (n + 1) (x * indexOf (before (n + 1)) b) := by
  rw [indexOf_before_succ]
  constructor
  · rw [show x * (2 * indexOf (before n) b + (b n).toNat) = 2 * (x * indexOf (before n) b) + x * (b n).toNat by ring,
      rootPow_add, rootPow_double, rootPow_eq_exp]
    cases b n <;> simp
  · rw [add_mul, rootPow_add, show 2 ^ n * (2 * indexOf (before n) b + (b n).toNat) =
      2 ^ (n + 1) * indexOf (before n) b + 2 ^ n * (b n).toNat by ring, rootPow_add, rootPow_whole]
    cases b n
    · simp [rootPow]
    · simp [rootPow_half]

/-- **The stages**: a transform with the digits of its result in reverse. -/
theorem acts_stages (m n : ℕ) (V : Wave) (b : Register) : acts ((range n).reverse.flatMap (stageParts m 0)) V b =
      (1 / √2 : ℝ) ^ n * ∑ x ∈ Finset.range (2 ^ n), rootPow n (x * indexOf (before n) b) * V (spelled n x b) := by
  induction n generalizing V with
  | zero =>
    have ha : spelled 0 0 b = b := funext fun q => if_neg (Nat.not_lt_zero q)
    simp [rootPow, ha]
  | succ n ih =>
    -- the last qubit comes first, so its digit is the highest one of the number that is summed over
    have ht : ∀ x ∈ Finset.range (2 ^ n),
        rootPow n (x * indexOf (before n) b) * acts (stageParts m 0 n) V (spelled n x b) = (1 / √2 : ℝ) *
          (rootPow (n + 1) (x * indexOf (before (n + 1)) b) * V (spelled (n + 1) x b) +
            rootPow (n + 1) ((2 ^ n + x) * indexOf (before (n + 1)) b) * V (spelled (n + 1) (2 ^ n + x) b)) := by
      intro x hx
      have hx' := Finset.mem_range.mp hx
      have hn : spelled n x b n = b n := if_neg (lt_irrefl n)
      obtain ⟨hl, hh⟩ := rootPow_before_succ n x b
      rw [acts_stageParts, hn, indexOf_spelled hx', spelled_low hx', spelled_high hx', hh, hl]
      ring
    rw [range_succ, reverse_append, reverse_singleton, singleton_append,
      flatMap_cons, acts_append, ih, Finset.sum_congr rfl ht, ← Finset.mul_sum,
      Finset.sum_add_distrib, pow_succ 2, mul_two, Finset.sum_range_add]
    ring

/-! ### The exchanges -/

/-- The register with the first `m` and the last `m` of `n` qubits exchanged. -/
def partlyReversed (n m : ℕ) (b : Register) : Register := fun q =>
  if q < n ∧ (q < m ∨ n - 1 - q < m) then b (n - 1 - q) else b q

lemma partlyReversed_update (hm : m < n / 2) (b : Register) :
    partlyReversed n m (Function.update (Function.update b m (b (n - m - 1))) (n - m - 1) (b m)) =
      partlyReversed n (m + 1) b := by
  funext q
  simp only [partlyReversed, Function.update_apply]
  by_cases hq : q = m
  · subst hq
    rw [if_neg (by omega), if_neg (by omega), if_pos rfl, if_pos (by omega), Nat.sub_right_comm]
  · by_cases hq' : q = n - m - 1
    · subst hq'
      rw [if_neg (by omega), if_pos rfl, if_pos (by omega), show n - 1 - (n - m - 1) = m by omega]
    · have hi : (q < n ∧ (q < m ∨ n - 1 - q < m)) ↔ (q < n ∧ (q < m + 1 ∨ n - 1 - q < m + 1)) := by omega
      refine if_ctx_congr hi (fun h => ?_) fun _ => ?_
      · rw [if_neg (by omega), if_neg (by omega)]
      · rw [if_neg hq', if_neg hq]

lemma acts_exchanged (hm : m ≤ n / 2) (V : Wave) (b : Register) :
    acts ((range m).map (exchanged n)) V b = V (partlyReversed n m b) := by
  induction m generalizing b with
  | zero =>
    have hn : partlyReversed n 0 b = b := funext fun q => if_neg (by omega)
    rw [hn]
    rfl
  | succ m ih =>
    have hl : ∀ W : Wave, acts [exchanged n m] W b =
        W (Function.update (Function.update b m (b (n - m - 1))) (n - m - 1) (b m)) := fun W =>
      gated_on (p := allOn []) rfl (Base.exchange m (n - m - 1)) W
    rw [range_succ, map_append, acts_append, map_singleton, hl, ih (by omega), partlyReversed_update (by omega)]

lemma partlyReversed_half (n : ℕ) (b : Register) :
    partlyReversed n (n / 2) b = b ∘ newQubit (Fin.revPerm : Equiv.Perm (Fin n)) := by
  funext q
  by_cases hq : q < n
  · have hn : newQubit (Fin.revPerm : Equiv.Perm (Fin n)) q = n - 1 - q := by simp [newQubit, hq]; omega
    rw [Function.comp_apply, hn, partlyReversed]
    split
    · rfl
    · exact congrArg b (by omega)
  · rw [Function.comp_apply, newQubit_of_le _ (not_lt.mp hq), partlyReversed, if_neg (by omega)]

/-! ### The transform -/

lemma spelled_reversed (n x : ℕ) (b : Register) :
    spelled n x (b ∘ newQubit (Fin.revPerm : Equiv.Perm (Fin n))) = spelled n x b := by
  funext q
  by_cases hq : q < n
  · rw [spelled, spelled, if_pos hq, if_pos hq]
  · rw [spelled, spelled, if_neg hq, if_neg hq, Function.comp_apply, newQubit_of_le _ (not_lt.mp hq)]

/-- **The gates of the transform** sum over all numbers, each turned by the product with the number that the
qubits spell. -/
theorem acts_parts (n : ℕ) (V : Wave) (b : Register) : acts (parts n 0 true) V b =
    (1 / √2 : ℝ) ^ n * ∑ x ∈ Finset.range (2 ^ n), rootPow n (x * indexOf (range n) b) * V (spelled n x b) := by
  rw [parts, if_pos rfl, acts_append, acts_exchanged le_rfl, partlyReversed_half, acts_stages]
  simp [indexOf_before_reversed, spelled_reversed]

lemma basisWave_spelled (hx : x < 2 ^ n) (hk : k < 2 ^ n) (b : Register) :
    basisWave n k (spelled n x b) = if x = k then 1 else 0 := by
  rw [← basisWave_bits hx hk, basisWave, basisWave]
  refine if_congr (forall₂_congr fun q hq => ?_) rfl rfl
  rw [spelled, if_pos hq, bits]

/-- **The matrix of the transform.** -/
theorem matrixOf_parts (n : ℕ) (y x : Fin (2 ^ n)) : matrixOf n (acts (parts n 0 true)) y x =
    (1 / √(2 ^ n) : ℝ) * exp (2 * π * I * (x * y : ℕ) / 2 ^ n) := by
  have hs : ∀ k ∈ Finset.range (2 ^ n), rootPow n (k * y) * basisWave n x (spelled n k (bits y)) =
      if k = x then rootPow n (x * y) else 0 := fun k hk => by
    rw [basisWave_spelled (Finset.mem_range.mp hk) x.isLt]
    split_ifs with h
    · rw [h, mul_one]
    · rw [mul_zero]
  have hr : √(2 ^ n) = √2 ^ n := by
    rw [sqrt_eq_iff_eq_sq (by positivity) (by positivity), ← pow_mul, mul_comm, pow_mul, sq_sqrt two_pos.le]
  rw [matrixOf, acts_parts, indexOf_range_bits, Nat.mod_eq_of_lt y.isLt, Finset.sum_congr rfl hs,
    Finset.sum_ite_eq', if_pos (Finset.mem_range.mpr x.isLt), ← ofReal_pow, div_pow, one_pow, hr]
  rfl

end Fourier

end QuantumCircuits

end

/-! ### Circuits -/

namespace QuantumCircuits

open Real List Change Operation Base Circuit

/-! ### Operations that stand for themselves in a log -/

/-- The operation is logged as it is, and so is what undoes it. -/
structure Operation.Steady (n : ℕ) (o : Operation) : Prop where
  good : o.Good n
  single : ∃ b r ps cs ts, o = .of b r ps cs ts
  kept : o.kept = [o]
  snapped : o.snapped = o
  kept_inverse : o.inverse.kept = [o.inverse]
  snapped_inverse : o.inverse.snapped = o.inverse

namespace Operation

variable {n : ℕ} {os : List Operation} (h : ∀ o ∈ os, o.Steady n)
include h

lemma map_snapped_of_steady : os.map snapped = os := (map_congr_left fun o ho => (h o ho).snapped).trans (map_id' os)

lemma snapped_inverses_of_steady : (os.reverse.map inverse).map snapped = os.reverse.map inverse := by
  rw [map_map]; exact map_congr_left fun o ho => (h o (mem_reverse.mp ho)).snapped_inverse

lemma kept_inverses_of_steady : (os.reverse.map inverse).flatMap kept = os.reverse.map inverse := by
  rw [flatMap_map, map_eq_flatMap]
  exact flatMap_congr fun o ho => (h o (mem_reverse.mp ho)).kept_inverse

end Operation

namespace Fourier

variable {n d j k : ℕ}
variable {a x : ℝ} {swapping : Bool} {o : Operation}

lemma steady_fixed {b : Base} {r : Reach} {cs ts : List ℕ} (ho : (of b r [] cs ts).Good n)
    (hb : b.isAngular = false) (hr : (Gate.of b r).isTransparent = false) (hse : b.inverse [] = (b, [])) :
    (of b r [] cs ts).Steady n := by
  have hs : (of b r [] cs ts).snapped = .of b r [] cs ts := by simp [snapped]
  have hi : (of b r [] cs ts).inverse = .of b r [] cs ts := by simp [Operation.inverse, hse]
  have hk := kept_of_isKept ho.toValid (isKept_fixed hb hr)
  exact ⟨ho, ⟨_, _, _, _, _, rfl⟩, hk, hs, by rw [hi, hk], by rw [hi, hs]⟩

lemma steady_cx (hj : j < n) (hk : k < n) (hjk : j ≠ k) : (cx j k).Steady n :=
  steady_fixed (good_cx hj hk hjk) rfl rfl rfl

lemma good_turn (a : ℝ) (hj : j < n) (hk : k < n) (hjk : j ≠ k) : (of .phase .controlled [a] [j] [k]).Good n where
  shaped := ⟨rfl, rfl, by simp [onTwo]⟩
  nodup := by simpa [qubits] using hjk
  lt := by simp [qubits, hj, hk]
  decided := by simp [Operation.turns, Base.turns, stairTurns]

lemma steady_turn (hl : 1e-10 < |a|) (hh : |a| ≤ π) (hj : j < n) (hk : k < n) (hjk : j ≠ k) :
    (of .phase .controlled [a] [j] [k]).Steady n := by
  have hs : snap a ≠ 0 := snap_ne_zero hl hh
  have hs' : snap (-a) ≠ 0 := snap_ne_zero (by rwa [abs_neg]) (by rwa [abs_neg])
  have hg := fun x => good_turn x hj hk hjk
  have hke : ∀ x, snap x ≠ 0 →
      (of .phase .controlled [x] [j] [k]).kept = [.of .phase .controlled [x] [j] [k]] := fun x hx =>
    kept_of_isKept (hg x).toValid (isKept_of_angle (by simp) hx rfl)
  have hsn : ∀ x, snap x ≠ 0 →
      (of .phase .controlled [x] [j] [k]).snapped = .of .phase .controlled [x] [j] [k] := fun x hx => by
    simp [snapped, isAngular, snap_eq_self hx]
  exact ⟨hg a, ⟨_, _, _, _, _, rfl⟩, hke a hs, hsn a hs, hke (-a) hs', hsn (-a) hs'⟩

lemma snap_of_small (hx : |x| ≤ 1e-10) : snap x = 0 := (snap_eq_zero_iff x).mpr ((isZeroAngle_iff x).mpr (.inl hx))

lemma kept_phase_of_small (hx : |x| ≤ 1e-10) (hk : k < n) : (turn .phase x [k]).kept = [] := by
  have hv : (turn .phase x [k]).Valid n :=
    ⟨⟨rfl, rfl, by simp [onTwo]⟩, by simp [qubits], by simpa [qubits] using hk⟩
  have hp : general 0 0 x [k] ∈ (turn .phase x [k]).parts := mem_singleton_self _
  have hg : (general 0 0 x [k]).kept = [] :=
    kept_of_vanishes (inside_parts hv _ hp).valid (by simp [isKept, vanishes, isAngular, snap_of_small hx]) rfl
  rw [kept_eq hv, if_neg (by simp [isKept, vanishes, isAngular, snap_of_small hx])]
  simp [Operation.inner, primitives?, Operation.parts, plainParts, hg]

lemma kept_turn_of_small (ha : |a| ≤ 1e-10) (hj : j < n) (hk : k < n) (hjk : j ≠ k) :
    (Operation.of .phase .controlled [a] [j] [k]).kept = [cx j k, cx j k] := by
  have hv := (good_turn a hj hk hjk).toValid
  have hp : (of .phase .controlled [a] [j] [k]).parts = [.turn .phase (a / 2) [j], cx j k,
      .turn .phase (-a / 2) [k], cx j k, .turn .phase (a / 2) [k]] := rfl
  have hh : |a / 2| ≤ 1e-10 := by rw [abs_div, abs_two]; linarith [abs_nonneg a]
  have hh' : |-a / 2| ≤ 1e-10 := by rwa [neg_div, abs_neg]
  rw [kept_eq hv, if_neg (by simp [isKept, vanishes, isAngular, snap_of_small ha]), Operation.inner,
    if_neg (by simp [primitives?]), hp]
  simp only [flatMap_cons, flatMap_nil, (steady_cx hj hk hjk).kept, kept_phase_of_small hh hj,
    kept_phase_of_small hh hk, kept_phase_of_small hh' hk]
  rfl

/-! ### The gates of the transform in a log -/

lemma mem_parts (ho : o ∈ parts n d swapping) :
    (∃ j < n, o = on .h [j]) ∨ (∃ k j, k < j ∧ j < n ∧ o = turned j k) ∨ ∃ i < n / 2, o = exchanged n i := by
  rcases mem_append.mp ho with ho | ho
  · obtain ⟨j, hj, ho⟩ := mem_flatMap.mp ho
    have hj' : j < n := by simpa using hj
    rcases mem_cons.mp ho with rfl | ho
    · exact .inl ⟨j, hj', rfl⟩
    · obtain ⟨k, hk, rfl⟩ := mem_map.mp ho
      exact .inr (.inl ⟨k, j, (mem_partners.mp hk).1, hj', rfl⟩)
  · split at ho
    · obtain ⟨i, hi, rfl⟩ := mem_map.mp ho; exact .inr (.inr ⟨i, mem_range.mp hi, rfl⟩)
    · cases ho

lemma steady_on_h (hj : j < n) : (on .h [j]).Steady n :=
  steady_fixed ⟨⟨⟨rfl, rfl, by simp [onTwo]⟩, by simp [qubits],
    by simpa [qubits] using hj⟩, by simp [Operation.turns, Base.turns, stairTurns]⟩ rfl rfl rfl

lemma steady_exchanged {i : ℕ} (hi : i < n / 2) : (exchanged n i).Steady n :=
  steady_fixed ⟨⟨⟨rfl, rfl, rfl⟩, by simp [qubits]; omega, by simp [qubits]; omega⟩,
    by simp [Operation.turns, Base.turns, stairTurns]⟩ rfl rfl rfl

lemma angle_bounds (h : k < j) : 0 < π * 2 ^ ((k : ℤ) - j) ∧ π * 2 ^ ((k : ℤ) - j) ≤ π := by
  have hp : (2 : ℝ) ^ ((k : ℤ) - j) ≤ 1 := zpow_le_one_of_nonpos₀ one_le_two (by omega)
  exact ⟨mul_pos pi_pos (zpow_pos two_pos _), mul_le_of_le_one_right pi_pos.le hp⟩

lemma steady_kept (ho : o ∈ (parts n d swapping).flatMap kept) : o.Steady n := by
  obtain ⟨p, hp, ho⟩ := mem_flatMap.mp ho
  have hs : p.Steady n → o.Steady n := fun h => by rw [h.kept, mem_singleton] at ho; exact ho ▸ h
  rcases mem_parts hp with ⟨j, hj, rfl⟩ | ⟨k, j, hk, hj, rfl⟩ | ⟨i, hi, rfl⟩
  · exact hs (steady_on_h hj)
  · obtain ⟨hpo, hl⟩ := angle_bounds hk
    rw [← abs_of_pos hpo] at hl
    rcases lt_or_ge 1e-10 |π * 2 ^ ((k : ℤ) - j)| with hlo | hsm
    · exact hs (steady_turn hlo hl hj (hk.trans hj) hk.ne')
    · rw [turned, kept_turn_of_small hsm hj (hk.trans hj) hk.ne'] at ho
      have hcx : o = cx j k := by simpa using ho
      exact hcx ▸ steady_cx hj (hk.trans hj) hk.ne'
  · exact hs (steady_exchanged hi)

lemma valid_parts (ho : o ∈ parts n d swapping) : o.Valid n := by
  rcases mem_parts ho with ⟨j, hj, rfl⟩ | ⟨k, j, hk, hj, rfl⟩ | ⟨i, hi, rfl⟩
  · exact (steady_on_h hj).good.toValid
  · exact (good_turn _ hj (hk.trans hj) hk.ne').toValid
  · exact (steady_exchanged hi).good.toValid

lemma kept_parts (hn : n ≤ 35) (swapping : Bool) : (parts n d swapping).flatMap kept = parts n d swapping := by
  have hke : ∀ o ∈ parts n d swapping, o.kept = [o] := fun o ho => by
    rcases mem_parts ho with ⟨j, hj, rfl⟩ | ⟨k, j, hk, hj, rfl⟩ | ⟨i, hi, rfl⟩
    · exact (steady_on_h hj).kept
    · obtain ⟨hp, hle⟩ := angle_bounds hk
      have hpo : (2 : ℝ) ^ (-34 : ℤ) ≤ 2 ^ ((k : ℤ) - j) := zpow_le_zpow_right₀ one_le_two (by omega)
      have hl : 1e-10 < π * 2 ^ ((k : ℤ) - j) := by
        have hm : 2 * (2 : ℝ) ^ (-34 : ℤ) ≤ π * 2 ^ ((k : ℤ) - j) :=
          mul_le_mul two_le_pi hpo (by positivity) pi_pos.le
        exact lt_of_lt_of_le (by norm_num) hm
      rw [← abs_of_pos hp] at hle hl
      exact (steady_turn hl hle hj (hk.trans hj) hk.ne').kept
    · exact (steady_exchanged hi).kept
  rw [flatMap_congr hke, flatMap_singleton']

/-! ### The circuit of the transform -/

/-- What the log of the transform, or of its inverse, stands for. -/
noncomputable def logged (n d : ℕ) (swapping inverse : Bool) : List Operation :=
  if inverse then ((parts n d swapping).flatMap Operation.kept).reverse.map Operation.inverse
  else (parts n d swapping).flatMap kept

lemma exists_scratch {f : Framework} (hf : f.isReference = true) (hn : 0 < n) (swapping inverse : Bool) :
    ∃ b c : Circuit ℝ, new f (.int n) = .ok b ∧ b.after (do
        follow (plan n d swapping)
        if inverse then horizontalReverse true) = .ok c ∧
      c.Lists n ((logged n d swapping inverse).map .gate) := by
  have hne := new_int f hn
  obtain ⟨hl, -⟩ := lists_new hf hne
  obtain ⟨c, hr, hc, -⟩ := hl.exists_perform (does_follow (stands_plan n d swapping)
    fun o ho => valid_parts ho).carries
  rw [List.nil_append, Item.flatMap_kept_gates] at hc
  cases inverse with
  | false =>
    refine ⟨_, c, hne, ?_, hc⟩
    rw [Circuit.after, Change.perform_bind_ok hr]
    rfl
  | true =>
    have hs : ∀ o ∈ (parts n d swapping).flatMap Operation.kept, o.Steady n := fun o ho => steady_kept ho
    have hse : ∀ o ∈ (parts n d swapping).flatMap Operation.kept,
        (∀ axis xs cs t, o ≠ .ucr axis xs cs t) ∧ ∀ zs qs, o ≠ .diagonal zs qs := fun o ho => by
      obtain ⟨_, _, _, _, _, rfl⟩ := (hs o ho).single
      exact ⟨fun _ _ _ _ h => Operation.noConfusion h, fun _ _ h => Operation.noConfusion h⟩
    obtain ⟨g, hop⟩ := hc.isOpen
    have hu : Forall₂ (Entry.Unfolds n) c.log.toList ((parts n d swapping).flatMap kept) :=
      forall₂_map_right_iff (f := Item.gate) |>.mp hc.log
    obtain ⟨c', g', hre, hop', -, hlo⟩ := exists_reversed hop hu
      (fun _ _ _ _ ho => (hse _ ho).1 _ _ _ _ rfl) fun _ _ ho => (hse _ ho).2 _ _ rfl
    rw [map_snapped_of_steady hs, Operation.kept_inverses_of_steady hs] at hlo
    refine ⟨_, c', hne, ?_, ⟨⟨g', hop'⟩, List.forall₂_map_right_iff.mpr hlo⟩⟩
    rw [Circuit.after, Change.perform_bind_ok hr]
    exact hre

lemma map_snapped_logged (n d : ℕ) (swapping inverse : Bool) :
    (logged n d swapping inverse).map snapped = logged n d swapping inverse := by
  cases inverse with
  | false => exact map_snapped_of_steady fun o ho => steady_kept ho
  | true => exact snapped_inverses_of_steady fun o ho => steady_kept ho

/-- **The transform on qubits of a circuit** goes through, and its entries stand for its gates on these. -/
theorem exists_apply {p : ℕ} {c : Circuit ℝ} {x degree : Operand ℝ} {σ : ℕ → ℕ} (hc : c.Open p a)
    (hn : 0 < n) (hx : x.Names ((range n).map fun q => (σ q : ℤ))) (hσ : Embeds n p σ)
    (hd : degree.IsWhole d) (swapping inverse : Bool) :
    ∃ c' new, perform (apply x swapping degree inverse) c = (.ok (), c') ∧ c'.log = c.log ++ new.toArray ∧
      Forall₂ (Item.Stands p) new ((logged n d swapping inverse).map fun o => .gate (o.onQubits σ)) := by
  obtain ⟨b, s, hne, ha, hl⟩ := exists_scratch hc.reference hn swapping inverse
  obtain ⟨xs, hi, hxs⟩ := hx
  have hlen : x.listed.length = .ok n := by
    rw [Operand.length, hi.items]; exact congrArg Except.ok (by simpa using hxs.length_eq)
  have hm : x.listed.Maps n σ := ⟨xs, hi.positions, hxs⟩
  obtain ⟨c', new, a', had, -, hlo, hst⟩ := exists_add_on hl.numQubits hl.log hm hσ hc
  refine ⟨c', new, ?_, hlo, ?_⟩
  · have hs : ¬ (d : ℤ) < 0 := by omega
    rw [apply]
    simp only [hd.isInt, hd.toInt?, Option.getD_some, Bool.not_true, Bool.false_eq_true, if_false, hs,
      hlen, Int.toNat_natCast]
    rw [perform_ofOutcome_bind, perform_get_bind, hne, perform_ofOutcome_bind, ha, perform_ofOutcome_bind]
    exact had
  · have hi' : (((logged n d swapping inverse).map Item.gate).map fun i => i.snapped.onQubits σ) =
        (logged n d swapping inverse).map fun o => .gate (o.onQubits σ) := by
      conv_rhs => rw [← map_snapped_logged]
      rw [map_map, map_map]
      rfl
    rw [← hi']
    exact hst

open Matrix in
/-- **The Fourier transform.**  The plan issues a Hadamard gate for each qubit, turns and exchanges.  With
nothing left out and with exchanges their matrix is that of the transform.  Whatever is left out, there is one
turn, by `π * 2 ^ (k - j)`, for each two qubits `k < j` that are near enough to each other.  The transform goes
through on distinct qubits of any circuit, and so does its inverse: the entries of one stand for gates, on these
qubits, and the entries of the other for what undoes these, the last one first, which is their adjoint. -/
theorem apply_emits_transform {p : ℕ} {c : Circuit ℝ} {a : ℝ} {x degree : Operand ℝ} {σ : ℕ → ℕ}
    (hc : c.Open p a) (hn : 0 < n) (hx : x.Names ((List.range n).map fun q => (σ q : ℤ)))
    (hσ : Circuit.Embeds n p σ) (hdegree : degree.IsWhole d) (swapping : Bool) :
    ∃ issued os : List Operation, Plan.Stands n (plan n d swapping) issued () ∧
      (d = 0 → swapping = true → ∀ y x : Fin (2 ^ n), matrixOf n (acts issued) y x =
        (1 / √(2 ^ n) : ℝ) * Complex.exp (2 * π * Complex.I * (x * y : ℕ) / 2 ^ n)) ∧
      (∃ pairs : List (ℕ × ℕ), pairs.Nodup ∧ (∀ j k, (j, k) ∈ pairs ↔ k < j ∧ j < n ∧ (j : ℤ) - k ≤ n - 1 - d) ∧
        issued.filter (fun o => o.gate = .of .phase .controlled) =
          pairs.map fun q => .of .phase .controlled [π * 2 ^ ((q.2 : ℤ) - q.1)] [q.1] [q.2]) ∧
      os = issued.flatMap Operation.kept ∧ (n ≤ 35 → os = issued) ∧
      (∃ c' new, Change.perform (apply x swapping degree false) c = (.ok (), c') ∧ c'.log = c.log ++ new.toArray ∧
        List.Forall₂ (Item.Stands p) new (os.map fun o => .gate (o.onQubits σ))) ∧
      (∃ c' new, Change.perform (apply x swapping degree true) c = (.ok (), c') ∧ c'.log = c.log ++ new.toArray ∧
        List.Forall₂ (Item.Stands p) new ((os.reverse.map Operation.inverse).map fun o => .gate (o.onQubits σ))) ∧
      matrixOf n (acts (os.reverse.map Operation.inverse)) = (matrixOf n (acts os))ᴴ := by
  refine ⟨parts n d swapping, (parts n d swapping).flatMap kept, stands_plan n d swapping, ?_,
    ⟨pairs n d, nodup_pairs n d, fun j k => mem_pairs, filter_parts n d swapping⟩, rfl,
    fun hn => kept_parts hn swapping, exists_apply hc hn hx hσ hdegree swapping false,
    exists_apply hc hn hx hσ hdegree swapping true,
    matrixOf_acts_inverse fun o ho => (steady_kept ho).good⟩
  rintro rfl rfl
  exact matrixOf_parts n

/-- The inverse on two of three qubits, in reverse order. -/
theorem apply_emits_transform_two : ∃ issued : List Operation, Plan.Stands 2 (plan 2 0 true) issued () ∧
    matrixOf 2 (acts issued) 1 1 = Complex.I / 2 ∧
    ∃ c' new, Change.perform (apply (.list [.int 2, .int 0]) true (.int 0) true) (Circuit.empty .reference 3) =
        (.ok (), c') ∧ c'.log = new.toArray ∧
      List.Forall₂ (Item.Stands 3) new ((issued.reverse.map Operation.inverse).map fun o =>
        .gate (o.onQubits fun q => if q = 0 then 2 else 0)) := by
  have hn : (Operand.list [.int 2, .int 0] : Operand ℝ).Names
      ((range 2).map fun q => ((if q = 0 then 2 else 0 : ℕ) : ℤ)) :=
    ⟨_, rfl, .cons ⟨rfl, rfl⟩ (.cons ⟨rfl, rfl⟩ .nil)⟩
  have he : Embeds 2 3 fun q => if q = 0 then 2 else 0 := ⟨by decide, by decide⟩
  obtain ⟨issued, os, hs, hm, -, -, hsa, -, ⟨c', new, hp, hl, hne⟩, -⟩ :=
    apply_emits_transform (open_empty 3) two_pos hn he (Operand.isWhole_int 0) true
  rw [hsa (by decide)] at hne
  refine ⟨issued, hs, ?_, c', new, hp, hl.trans Array.empty_append, hne⟩
  have hex : Complex.exp (2 * π * Complex.I * (1 * 1 : ℕ) / 2 ^ 2) = Complex.I := by
    refine Eq.trans (congrArg Complex.exp ?_) Complex.exp_pi_div_two_mul_I; push_cast; ring
  have hr : √(2 ^ 2 : ℝ) = 2 := sqrt_sq two_pos.le
  refine (hm rfl rfl 1 1).trans ?_
  rw [hr]
  change _ * Complex.exp (2 * π * Complex.I * (1 * 1 : ℕ) / 2 ^ 2) = _
  rw [hex]
  push_cast
  ring

end Fourier

end QuantumCircuits
