import Mathlib.Data.Nat.Bitwise
import QuantumCircuits.Proofs.Log.Stages
import QuantumCircuits.Proofs.Multiplexor.Emission

/-!
# Multiplexor — Selected

Gates that are selected by controls, from the call to the operations.  A row of gates with the diagonal
behind it does what the gates do that the controls select (`exists_selects`).  Before that, controls that
the gates do not depend on can be left out; then the gates that are left are selected by the controls that
are left (`carries_apply_simplifying`).  If gates that are taken for equal are equal, nothing changes by it
(`exists_carries_apply`).
-/

/-! ### Repetition

Which controls the search for repetitions leaves out, and what it keeps.  The gates repeat at bit `s`
of their position (`repeats`) if no two gates whose positions differ in that bit only are told apart.
The search marks the gates whose position has such a bit (`searchRepetition_eq`): what is left are the
gates at the positions that have none, and the controls of all other bits (`simplifyControls_eq`).

Positions without certain bits are counted by the bits that they may have (`withoutBits`), so the gate at a
position is found, among those that are left, where the remaining bits of the position say
(`getElem?_withoutBits`).  Where just equal gates are not told apart, the gates repeat at a bit if and only if
flipping it changes none of them, so the search keeps the controls that matter (`simplifyControls_spec`).
-/

namespace QuantumCircuits

open List

variable {β : Type}

/-! ### Marks -/

def hide (p : ℕ → Bool) (marked : List (Option β)) : List (Option β) := marked.mapIdx fun j z => if p j then none else z

section Hide

variable {p q : ℕ → Bool} {marked : List (Option β)}

@[simp] lemma length_hide : (hide p marked).length = marked.length := length_mapIdx

lemma hide_congr (h : ∀ j < marked.length, p j = q j) : hide p marked = hide q marked := by
  refine ext_getElem (by simp) fun j hj _ => ?_
  simp [hide, getElem_mapIdx, h j (by simpa using hj)]

lemma hide_hide : hide p (hide q marked) = hide (fun j => p j || q j) marked := by
  refine ext_getElem (by simp) fun j _ _ => ?_
  simp only [hide, getElem_mapIdx]
  by_cases h : p j = true <;> simp [h]

lemma set_none (j : ℕ) : marked.set j none = hide (· == j) marked := by
  refine ext_getElem (by simp) fun i _ _ => ?_
  simp [hide, getElem_mapIdx, getElem_set, beq_iff_eq, @eq_comm _ i]

lemma hide_false (h : ∀ j < marked.length, p j = false) : hide p marked = marked := by
  refine ext_getElem (by simp) fun j hj _ => ?_
  simp [hide, h j (by simpa using hj)]

end Hide

/-! ### The search -/

section Search

variable {close : β → β → Bool} {gates : List β} {d m t base k : ℕ} {marked : List (Option β)}

/-- The gates at two positions are not told apart. -/
def agree (close : β → β → Bool) (gates : List β) (i j : ℕ) : Bool :=
  match gates[i]?, gates[j]? with
  | some x, some y => close x y
  | _, _ => false

/-- The gates repeat at bit `s`: no two of them that differ in it only are told apart. -/
def repeats (close : β → β → Bool) (gates : List β) (s : ℕ) : Bool :=
  agree close gates (2 ^ s) 0 && (range gates.length).all fun i => i.testBit s || agree close gates i (i + 2 ^ s)

lemma gateAt_of_lt {i : ℕ} (h : i < gates.length) : gateAt gates i = .ok gates[i] := by
  rw [gateAt, getElem?_eq_getElem h]

lemma agree_of_lt {i j : ℕ} (hi : i < gates.length) (hj : j < gates.length) :
    agree close gates i j = close gates[i] gates[j] := by
  rw [agree, getElem?_eq_getElem hi, getElem?_eq_getElem hj]

/-- A check of the gates at some positions says whether each of them is repeated at a distance, and then the
repetitions are marked. -/
def Checks (close : β → β → Bool) (gates : List β) (d : ℕ) (p : ℕ → Bool) (marked : List (Option β))
    (r : Outcome (Bool × List (Option β))) : Prop :=
  ∃ valid after, r = .ok (valid, after) ∧ (valid = true ↔ ∀ j, p j = true → agree close gates j (j + d) = true) ∧
    (valid = true → after = hide (fun j => d ≤ j && p (j - d)) marked)

section Checks

variable {p q : ℕ → Bool} {r : Outcome (Bool × List (Option β))}

lemma Checks.congr (h : Checks close gates d p marked r) (hp : ∀ j, p j = q j) : Checks close gates d q marked r := by
  obtain rfl : p = q := funext hp; exact h

lemma checks_none : Checks close gates d (fun _ => false) marked (.ok (true, marked)) :=
  ⟨true, marked, rfl, by simp, fun _ => (hide_false fun _ _ => by simp).symm⟩

lemma Checks.or {next : List (Option β) → Outcome (Bool × List (Option β))} (h : Checks close gates d p marked r)
    (hn : ∀ after, after.length = marked.length → Checks close gates d q after (next after)) :
    Checks close gates d (fun j => p j || q j) marked (r.bind fun v => if v.1 then next v.2 else .ok (false, v.2)) := by
  obtain ⟨valid, after, rfl, hv, ha⟩ := h
  cases valid with
  | false => exact ⟨false, after, rfl, ⟨nofun, fun h => hv.2 fun j hj => h j (by simp [hj])⟩, nofun⟩
  | true =>
    obtain rfl := ha rfl
    obtain ⟨valid, after, hr, hv', ha⟩ := hn _ length_hide
    refine ⟨valid, after, hr, hv'.trans ⟨fun h j hj => ?_, fun h j hj => h j (by simp [hj])⟩, fun h => ?_⟩
    · exact (Bool.or_eq_true _ _ ▸ hj).elim (hv.1 rfl j) (h j)
    · rw [ha h, hide_hide]
      exact hide_congr fun j _ => by rw [← Bool.and_or_distrib_left, Bool.or_comm (q _)]

lemma checks_verifyRepetition (hlen : marked.length = gates.length) (hk : base + d + k ≤ gates.length) :
    Checks close gates d (fun j => base ≤ j && j < base + k) marked (verifyRepetition close gates d k base marked) := by
  induction k generalizing base marked with
  | zero => exact checks_none.congr fun j => by grind
  | succ k ih =>
    have hi : ¬ marked.length ≤ base + d := by omega
    have hs : verifyRepetition close gates d (k + 1) base marked =
        (Except.ok (agree close gates base (base + d), if agree close gates base (base + d) then
          marked.set (base + d) none else marked)).bind fun v => if v.1 then
            verifyRepetition close gates d k (base + 1) v.2 else .ok (false, v.2) := by
      rw [verifyRepetition, gateAt_of_lt (by omega), gateAt_of_lt (by omega), agree_of_lt (by omega) (by omega)]
      show (if _ then (if marked.length ≤ base + d then _ else _) else _) = _
      rw [if_neg hi]
      simp only [Except.bind]
      split <;> rfl
    have ho : Checks close gates d (· == base) marked (.ok (agree close gates base (base + d),
        if agree close gates base (base + d) then marked.set (base + d) none else marked)) :=
      ⟨_, _, rfl, by simp, fun h => by
        rw [if_pos h, set_none]
        exact hide_congr fun j _ => by grind⟩
    rw [hs]
    exact (ho.or fun after ha => ih (ha.trans hlen) (show base + 1 + d + k ≤ gates.length by omega)).congr fun j => by grind

lemma checks_verifyBlocks (hd : 0 < d) (hlen : marked.length = gates.length) (hk : base + 2 * d * k ≤ gates.length) :
    Checks close gates d (fun j => base ≤ j && j < base + 2 * d * k && (j - base) / d % 2 == 0) marked
      (verifyBlocks close gates d k base marked) := by
  induction k generalizing base marked with
  | zero => exact checks_none.congr fun j => by grind
  | succ k ih =>
    have hs : base + 2 * d * (k + 1) = base + 2 * d + 2 * d * k := by ring
    rw [hs] at hk
    refine ((checks_verifyRepetition hlen (by omega)).or fun after ha =>
      ih (ha.trans hlen) hk).congr fun j => ?_
    rw [hs]
    rcases Nat.lt_or_ge j (base + 2 * d) with hj | hj
    · rcases Nat.lt_or_ge j (base + d) with hj' | hj'
      · have hq : (j - base) / d = 0 := Nat.div_eq_of_lt (by omega)
        grind
      · have hq : (j - base) / d = 1 := Nat.div_eq_of_lt_le (by omega) (by omega)
        grind
    · have hq : (j - base) / d = (j - (base + 2 * d)) / d + 2 := by
        rw [show j - base = j - (base + 2 * d) + 2 * d by omega, Nat.add_mul_div_right _ _ hd]
      grind

end Checks

/-- The gates, with those marked that have a bit below `t` at which the gates repeat. -/
def marks (close : β → β → Bool) (gates : List β) (t : ℕ) : List (Option β) :=
  hide (fun j => (range t).any fun s => repeats close gates s && j.testBit s) (gates.map some)

lemma length_marks : (marks close gates t).length = gates.length := by rw [marks, length_hide, length_map]

lemma marks_zero : marks close gates 0 = gates.map some := hide_false fun _ _ => rfl

lemma marks_succ : marks close gates (t + 1) =
    if repeats close gates t then hide (·.testBit t) (marks close gates t) else marks close gates t := by
  have hs : ∀ j : ℕ, ((range (t + 1)).any fun s => repeats close gates s && j.testBit s) =
      ((repeats close gates t && j.testBit t) || (range t).any fun s => repeats close gates s && j.testBit s) := by
    intro j
    rw [range_succ, any_append, Bool.or_comm]
    simp
  unfold marks
  split
  next h =>
    rw [hide_hide]
    exact hide_congr fun j _ => by rw [hs, h, Bool.true_and]
  next h =>
    rw [Bool.not_eq_true] at h
    exact hide_congr fun j _ => by rw [hs, h, Bool.false_and, Bool.false_or]

/-- **One distance**: the search marks the gates and notes the control if the gates repeat, and goes on. -/
theorem searchRepetition_succ (hlen : gates.length = 2 ^ m) (ht : t < m) (fuel : ℕ) (found : List ℤ) :
    searchRepetition close gates (fuel + 1) (2 ^ t) (m - t) found (marks close gates t) =
      searchRepetition close gates fuel (2 ^ (t + 1)) (m - (t + 1 : ℕ))
        (if repeats close gates t then found ++ [(m - t : ℤ)] else found) (marks close gates (t + 1)) := by
  have hs : gates.length = 2 * 2 ^ t * 2 ^ (m - (t + 1)) := by
    rw [hlen, ← pow_succ', ← pow_add, Nat.add_sub_cancel' ht]
  have hp : 0 < 2 ^ t := Nat.two_pow_pos t
  have hr : 0 < 2 ^ (m - (t + 1)) := Nat.two_pow_pos _
  have hft : 2 * 2 ^ t ≤ gates.length := by rw [hs]; exact Nat.le_mul_of_pos_right _ hr
  have hm : gates.length % (2 * 2 ^ t) = 0 := by rw [hs, Nat.mul_mod_right]
  have hco : (gates.length + 2 * 2 ^ t - 1) / (2 * 2 ^ t) = 2 ^ (m - (t + 1)) := by
    rw [Nat.add_sub_assoc (by omega), hs, Nat.mul_add_div (by omega), Nat.div_eq_of_lt (by omega), Nat.add_zero]
  have hl : (m - t - 1 : ℤ) = (m - (t + 1 : ℕ) : ℤ) := by push_cast; ring
  rw [searchRepetition, if_neg (by omega), gateAt_of_lt (by omega), gateAt_of_lt (by omega)]
  show (if close _ _ then _ else _) = _
  have ha : agree close gates (2 ^ t) 0 = close (gates.get ⟨2 ^ t, by omega⟩) (gates.get ⟨0, by omega⟩) :=
    agree_of_lt (by omega) (by omega)
  rw [get_eq_getElem, get_eq_getElem] at ha
  rw [← ha, ← pow_succ', hl]
  have hch : Checks close gates (2 ^ t) (fun j => j < gates.length && !j.testBit t) (marks close gates t)
      (verifyBlocks close gates (2 ^ t) (2 ^ (m - (t + 1))) 0 (marks close gates t)) := by
    refine (checks_verifyBlocks hp length_marks (by rw [Nat.zero_add, hs])).congr fun j => ?_
    grind
  obtain ⟨valid, after, hbl, hva, haf⟩ := hch
  have hal : repeats close gates t = (agree close gates (2 ^ t) 0 && valid) := by
    rw [repeats, Bool.eq_iff_iff, Bool.and_eq_true, Bool.and_eq_true, hva, all_eq_true]
    refine and_congr_right fun _ => forall_congr' fun j => ?_
    rw [mem_range]
    grind
  rw [marks_succ, hal]
  by_cases hfi : agree close gates (2 ^ t) 0 = true
  · rw [if_pos hfi, pow_succ', hco, hbl, hfi, Bool.true_and]
    show searchRepetition close gates fuel (2 * 2 ^ t) _ (if (valid && gates.length % (2 * 2 ^ t) == 0) = true then _ else _)
      _ = _
    rw [hm, beq_self_eq_true, Bool.and_true]
    cases hv : valid with
    | false => rfl
    | true =>
      rw [if_pos rfl, if_pos rfl, if_pos rfl, haf hv]
      congr 1
      refine hide_congr fun j hj => ?_
      rw [length_marks] at hj
      rcases Nat.lt_or_ge j (2 ^ t) with hlt | hg
      · have hq : j / 2 ^ t = 0 := Nat.div_eq_of_lt hlt
        grind
      · have hq : j / 2 ^ t = (j - 2 ^ t) / 2 ^ t + 1 := by
          rw [← Nat.add_div_right _ hp, Nat.sub_add_cancel hg]
        grind
  · rw [Bool.not_eq_true] at hfi; simp [hfi]

/-- **All distances.** -/
theorem searchRepetition_eq (hlen : gates.length = 2 ^ m) (ht : t ≤ m) {fuel : ℕ} (hfu : m - t < fuel)
    (found : List ℤ) : searchRepetition close gates fuel (2 ^ t) (m - t) found (marks close gates t) =
      .ok (found ++ ((range' t (m - t)).filter (repeats close gates)).map fun s : ℕ => (m : ℤ) - s,
        marks close gates m) := by
  induction fuel generalizing t found with
  | zero => exact absurd hfu (Nat.not_lt_zero _)
  | succ fuel ih =>
    rcases Nat.lt_or_ge t m with hlt | hg
    · rw [searchRepetition_succ hlen hlt, ih hlt (by omega)]
      have hr : range' t (m - t) = t :: range' (t + 1) (m - (t + 1)) := by
        rw [show m - t = m - (t + 1) + 1 by omega, range'_succ]
      rw [hr, filter_cons]
      split <;> simp
    · obtain rfl : t = m := Nat.le_antisymm ht hg
      have hl : gates.length < 2 * 2 ^ t := by
        rw [hlen]
        have := Nat.two_pow_pos t
        omega
      rw [searchRepetition, if_pos hl, Nat.sub_self]
      simp

/-- The bits of a position that the gates depend on. -/
def keptBits (close : β → β → Bool) (gates : List β) (m : ℕ) : List ℕ :=
  (range m).filter fun s => !repeats close gates s

lemma map_succ_range (m : ℕ) : (range m).map (· + 1) = ((range m).map (m - ·)).reverse := by
  refine ext_getElem (by simp) fun i hi _ => ?_
  have hi' : i < m := by simpa using hi
  simp only [getElem_map, getElem_range, getElem_reverse, length_map, length_range]
  omega

lemma repetitions_eq (hlen : gates.length = 2 ^ m) : repetitions close gates m =
    .ok (((range m).filter (repeats close gates)).map fun s : ℕ => (m : ℤ) - s, marks close gates m) := by
  have hfu : m - 0 < gates.length := by rw [hlen, Nat.sub_zero]; exact Nat.lt_two_pow_self
  have hs : searchRepetition close gates _ _ _ _ _ = _ := searchRepetition_eq hlen (Nat.zero_le m) hfu []
  rw [pow_zero, Nat.sub_zero, Nat.cast_zero, sub_zero, nil_append, marks_zero, ← range_eq_range'] at hs
  exact hs

lemma filter_controls (close : β → β → Bool) (gates : List β) (m : ℕ) : (((range m).map (· + 1)).filter fun c : ℕ =>
      !((((range m).filter (repeats close gates)).map fun s : ℕ => (m : ℤ) - s).contains (c : ℤ))) =
      ((keptBits close gates m).map (m - ·)).reverse := by
  rw [map_succ_range, filter_reverse, filter_map, keptBits]
  congr 2
  refine filter_congr fun s hs => ?_
  rw [mem_range] at hs
  rw [Function.comp_apply, Bool.eq_iff_iff, Bool.not_eq_true', Bool.not_eq_true', ← Bool.not_eq_true, ← Bool.not_eq_true,
    contains_iff_mem]
  refine not_congr ⟨fun h => ?_, fun h => ?_⟩
  · obtain ⟨s', hs', he⟩ := mem_map.1 h
    rw [mem_filter, mem_range] at hs'
    obtain rfl : s' = s := by omega
    exact hs'.2
  · exact mem_map.2 ⟨s, mem_filter.2 ⟨mem_range.2 hs, h⟩, by omega⟩

/-- **The controls and gates that are left.** -/
theorem simplifyControls_eq (hlen : gates.length = 2 ^ m) : simplifyControls close gates m =
      .ok (((keptBits close gates m).map (m - ·)).reverse, (marks close gates m).filterMap id) := by
  cases m with
  | zero =>
    rw [simplifyControls, hlen, if_neg (by decide), marks_zero]
    rfl
  | succ m =>
    rw [simplifyControls, hlen, if_pos (Nat.one_lt_two_pow m.succ_ne_zero), repetitions_eq hlen, ← filter_controls]
    rfl

end Search

/-! ### What is left -/

/-- The values at the positions below `2 ^ m` that have none of some bits. -/
def withoutBits (p : ℕ → Bool) (m : ℕ) (f : ℕ → β) : List β :=
  (range (2 ^ m)).filterMap fun j => if (range m).any fun s => p s && j.testBit s then none else some (f j)

section WithoutBits

variable {p : ℕ → Bool} {m : ℕ} {f : ℕ → β}

lemma withoutBits_succ : withoutBits p (m + 1) f = withoutBits p m f ++ if p m then [] else withoutBits p m fun j => f (2 ^ m + j) := by
  have ha : ∀ j : ℕ, ((range (m + 1)).any fun s => p s && j.testBit s) =
      ((range m).any (fun s => p s && j.testBit s) || (p m && j.testBit m)) := by
    intro j
    rw [range_succ, any_append, any_cons, any_nil, Bool.or_false]
  have hr : range (2 ^ (m + 1)) = range (2 ^ m) ++ (range (2 ^ m)).map (2 ^ m + ·) := by
    rw [pow_succ', Nat.two_mul, range_add]
  rw [withoutBits, hr, filterMap_append, filterMap_map]
  congr 1
  · refine filterMap_congr fun j hj => ?_
    rw [ha, Nat.testBit_lt_two_pow (mem_range.1 hj), Bool.and_false, Bool.or_false]
  · have hbi : ∀ j ∈ range (2 ^ m), ((range (m + 1)).any fun s => p s && (2 ^ m + j).testBit s) =
        ((range m).any (fun s => p s && j.testBit s) || p m) := by
      intro j hj
      rw [ha, Nat.testBit_two_pow_add_eq, Nat.testBit_lt_two_pow (mem_range.1 hj), Bool.not_false, Bool.and_true]
      congr 1
      rw [Bool.eq_iff_iff, any_eq_true, any_eq_true]
      refine exists_congr fun s => and_congr_right fun hs => ?_
      rw [Nat.testBit_two_pow_add_gt (mem_range.1 hs)]
    by_cases hp : p m = true
    · rw [if_pos hp, filterMap_eq_nil_iff]
      intro j hj
      rw [Function.comp_apply, hbi j hj, hp, Bool.or_true, if_pos rfl]
    · rw [if_neg hp]
      refine filterMap_congr fun j hj => ?_
      rw [Bool.not_eq_true] at hp
      rw [Function.comp_apply, hbi j hj, hp, Bool.or_false]

lemma length_withoutBits : (withoutBits p m f).length = 2 ^ ((range m).filter fun s => !p s).length := by
  induction m generalizing f with
  | zero => rfl
  | succ m ih =>
    rw [withoutBits_succ, range_succ, filter_append, length_append, length_append, ih]
    by_cases hp : p m = true
    · simp [hp]
    · rw [Bool.not_eq_true] at hp
      rw [hp, if_neg Bool.false_ne_true, ih, ← Nat.two_mul, ← pow_succ']
      simp [hp]

lemma indexOf_congr {cs : List ℕ} {b b' : Register} (h : ∀ c ∈ cs, b c = b' c) : indexOf cs b = indexOf cs b' := by
  induction cs with
  | nil => rfl
  | cons c cs ih =>
    change (b c).toNat + 2 * indexOf cs b = (b' c).toNat + 2 * indexOf cs b'
    rw [h c mem_cons_self, ih fun c' hc' => h c' (mem_cons_of_mem c hc')]

/-- **The value at a position is found where the remaining bits of the position say**, if it does not
depend on the others. -/
theorem getElem?_withoutBits (h : ∀ x < 2 ^ m, ∀ s < m, p s = true → x.testBit s = false → f (x + 2 ^ s) = f x) {x : ℕ}
    (hx : x < 2 ^ m) : (withoutBits p m f)[indexOf ((range m).filter fun s => !p s) x.testBit]? = some (f x) := by
  induction m generalizing f x with
  | zero =>
    obtain rfl : x = 0 := by simpa using hx
    rfl
  | succ m ih =>
    have hbi : (range (m + 1)).filter (fun s => !p s) =
        (range m).filter (fun s => !p s) ++ if p m then [] else [m] := by
      rw [range_succ, filter_append]
      cases hp : p m <;> simp [hp]
    have hlt : ∀ y : ℕ, indexOf ((range m).filter fun s => !p s) y.testBit < (withoutBits p m f).length := fun y => by
      rw [length_withoutBits]; exact Operation.indexOf_lt _ _
    have hl : ∀ y < 2 ^ m, ∀ s < m, p s = true → y.testBit s = false → f (y + 2 ^ s) = f y := fun y hy s hs =>
      h y (by rw [pow_succ']; omega) s (by omega)
    rw [hbi, withoutBits_succ]
    rcases Nat.lt_or_ge x (2 ^ m) with hx' | hx'
    · have hi : indexOf ((range m).filter (fun s => !p s) ++ if p m then [] else [m]) x.testBit =
          indexOf ((range m).filter fun s => !p s) x.testBit := by
        split
        · rw [append_nil]
        · rw [Operation.indexOf_concat, Nat.testBit_lt_two_pow hx', Bool.toNat_false, Nat.mul_zero, Nat.add_zero]
      rw [hi, getElem?_append_left (hlt x), ih hl hx']
    · obtain ⟨y, rfl⟩ := Nat.exists_eq_add_of_le hx'
      have hy : y < 2 ^ m := by rw [pow_succ'] at hx; omega
      have hi : indexOf ((range m).filter fun s => !p s) (2 ^ m + y).testBit =
          indexOf ((range m).filter fun s => !p s) y.testBit :=
        indexOf_congr fun s hs => Nat.testBit_two_pow_add_gt (mem_range.1 (mem_filter.1 hs).1) y
      by_cases hp : p m = true
      · have hsa : f (2 ^ m + y) = f y := by
          rw [Nat.add_comm]
          exact h y (by rw [pow_succ']; omega) m (Nat.lt_succ_self m) hp (Nat.testBit_lt_two_pow hy)
        rw [if_pos hp, if_pos hp, append_nil, append_nil, hi, ih hl hy, hsa]
      · have hh : ∀ z < 2 ^ m, ∀ s < m, p s = true → z.testBit s = false →
            f (2 ^ m + (z + 2 ^ s)) = f (2 ^ m + z) := by
          intro z hz s hs hps hbt
          rw [← Nat.add_assoc]
          exact h (2 ^ m + z) (by rw [pow_succ']; omega) s (by omega) hps (by rwa [Nat.testBit_two_pow_add_gt hs])
        rw [if_neg hp, if_neg hp, Operation.indexOf_concat, Nat.testBit_two_pow_add_eq, Nat.testBit_lt_two_pow hy, Bool.not_false,
          Bool.toNat_true, Nat.mul_one, hi, ← length_withoutBits (f := f), getElem?_append_right (by omega), Nat.add_sub_cancel,
          ih hh hy]

end WithoutBits

section Simplified

variable {close : β → β → Bool} {gates : List β} {m s x : ℕ}

lemma filterMap_marks (hlen : gates.length = 2 ^ m) (x : β) :
    (marks close gates m).filterMap id = withoutBits (repeats close gates) m fun j => gates.getD j x := by
  have hm : marks close gates m = (range (2 ^ m)).map fun j =>
      if (range m).any fun s => repeats close gates s && j.testBit s then none else some (gates.getD j x) := by
    refine ext_getElem (by rw [length_marks, hlen, length_map, length_range]) fun j hj _ => ?_
    rw [length_marks] at hj
    simp only [marks, hide, getElem_mapIdx, getElem_map, getElem_range, getD_eq_getElem?_getD,
      getElem?_eq_getElem hj, Option.getD_some]
  rw [hm, filterMap_map]
  rfl

lemma mem_of_mem_marks {x : β} (h : some x ∈ marks close gates m) : x ∈ gates := by
  obtain ⟨j, hj, hg⟩ := getElem_of_mem h
  have hj' : j < gates.length := length_marks ▸ hj
  have hm : (if (range m).any fun s => repeats close gates s && j.testBit s then none else some (gates.get ⟨j, hj'⟩)) =
      some x := by
    rw [← hg]
    simp [marks, hide, getElem_mapIdx, getElem_map, get_eq_getElem]
  split at hm
  · exact absurd hm.symm (Option.some_ne_none x)
  · rw [← Option.some.inj hm]; exact get_mem gates _

lemma getElem?_of_repeats (hcl : ∀ x ∈ gates, ∀ y ∈ gates, close x y = true → x = y)
    (hs : repeats close gates s = true) (hx : x < gates.length) (hbi : x.testBit s = false) :
    gates[x + 2 ^ s]? = gates[x]? := by
  rw [repeats, Bool.and_eq_true, all_eq_true] at hs
  have ha := hs.2 x (mem_range.2 hx)
  rw [hbi, Bool.false_or, agree, getElem?_eq_getElem hx] at ha
  cases hy : gates[x + 2 ^ s]? with
  | none =>
    rw [hy] at ha
    exact absurd ha Bool.false_ne_true
  | some y =>
    rw [hy] at ha
    rw [getElem?_eq_getElem hx, hcl _ (getElem_mem hx) y (mem_of_getElem? hy) ha]

/-- **Leaving out controls changes no selection**, if only equal gates are not told apart: there is a gate
left for each value of the controls that are left, and it is the one that all controls select. -/
theorem exists_simplified (hlen : gates.length = 2 ^ m) (hcl : ∀ x ∈ gates, ∀ y ∈ gates, close x y = true → x = y) :
    ∃ left, simplifyControls close gates m = .ok (((keptBits close gates m).map (m - ·)).reverse, left) ∧
      left.length = 2 ^ (keptBits close gates m).length ∧ (∀ x ∈ left, x ∈ gates) ∧
      ∀ x < 2 ^ m, left[indexOf (keptBits close gates m) x.testBit]? = gates[x]? := by
  have hp : 0 < gates.length := hlen ▸ Nat.two_pow_pos m
  refine ⟨_, simplifyControls_eq hlen, ?_, fun x hx => ?_, fun x hx => ?_⟩
  · rw [filterMap_marks hlen (gates.get ⟨0, hp⟩), length_withoutBits]; rfl
  · obtain ⟨z, hz, hzx⟩ := mem_filterMap.1 hx
    obtain rfl : z = some x := hzx
    exact mem_of_mem_marks hz
  · have hx' : x < gates.length := hlen.symm ▸ hx
    rw [filterMap_marks hlen (gates.get ⟨0, hp⟩)]
    refine (getElem?_withoutBits (fun y hy s _ hs hbi => ?_) hx).trans ?_
    · rw [getD_eq_getElem?_getD, getD_eq_getElem?_getD, getElem?_of_repeats hcl hs (hlen.symm ▸ hy) hbi]
    · rw [getD_eq_getElem?_getD, getElem?_eq_getElem hx', Option.getD_some]

lemma xor_two_pow (h : x.testBit s = false) : x ^^^ 2 ^ s = x + 2 ^ s := by
  have he : Even (x / 2 ^ s) := by
    rw [Nat.testBit_eq_decide_div_mod_eq, decide_eq_false_iff_not] at h
    exact Nat.even_iff.2 (by omega)
  have hx := Nat.div_add_mod x (2 ^ s)
  have hp := Nat.two_pow_pos s
  rw [← Nat.div_add_mod (x ^^^ 2 ^ s) (2 ^ s), Nat.xor_div_two_pow, Nat.xor_mod_two_pow, Nat.div_self hp,
    Nat.mod_self, Nat.xor_zero, Nat.xor_one_of_even he, Nat.mul_add_one]
  omega

lemma repeats_iff_flip (hlen : gates.length = 2 ^ m)
    (hcl : ∀ x ∈ gates, ∀ y ∈ gates, (close x y = true ↔ x = y)) (hs : s < m) :
    repeats close gates s = true ↔ ∀ x < 2 ^ m, gates[x ^^^ 2 ^ s]? = gates[x]? := by
  have hbi : 2 ^ s < 2 ^ m := Nat.pow_lt_pow_right one_lt_two hs
  have ha : ∀ {i j}, i < 2 ^ m → j < 2 ^ m → gates[i]? = gates[j]? → agree close gates i j = true := by
    intro i j hi hj hij
    rw [← hlen] at hi hj
    rw [getElem?_eq_getElem hi, getElem?_eq_getElem hj, Option.some_inj] at hij
    exact agree_of_lt hi hj ▸ (hcl _ (getElem_mem hi) _ (getElem_mem hj)).2 hij
  constructor
  · intro h x hx
    have hd := fun {y : ℕ} (hy : y < 2 ^ m) =>
      getElem?_of_repeats (fun x hx y hy => (hcl x hx y hy).1) h (hlen.symm ▸ hy)
    cases hxs : x.testBit s with
    | false => rw [xor_two_pow hxs, hd hx hxs]
    | true =>
      have hfl : (x ^^^ 2 ^ s).testBit s = false := by simp [hxs]
      rw [← hd (Nat.xor_lt_two_pow hx hbi) hfl, ← xor_two_pow hfl, Nat.xor_assoc, Nat.xor_self, Nat.xor_zero]
  · intro h
    rw [repeats, Bool.and_eq_true, all_eq_true]
    refine ⟨ha hbi (Nat.two_pow_pos m) ?_, fun x hx => ?_⟩
    · simpa using h 0 (Nat.two_pow_pos m)
    · have hx' : x < 2 ^ m := by simpa [hlen] using hx
      cases hxs : x.testBit s with
      | true => rfl
      | false =>
        rw [Bool.false_or, ← xor_two_pow hxs]
        exact ha hx' (Nat.xor_lt_two_pow hx' hbi) (h x hx').symm

/-- **Which controls are kept.**  If just equal gates are not told apart, a control is kept if and only if
flipping its bit of the position changes some gate.  There is one gate left for each value of the controls
that are kept, and it is the one that all controls select. -/
theorem simplifyControls_spec (hlen : gates.length = 2 ^ m)
    (hclose : ∀ x ∈ gates, ∀ y ∈ gates, (close x y = true ↔ x = y)) :
    ∃ controls left, simplifyControls close gates m = .ok (controls, left) ∧ controls.Pairwise (· < ·) ∧
      (∀ i, i ∈ controls ↔ (1 ≤ i ∧ i ≤ m) ∧ ¬ ∀ x < 2 ^ m, gates[x ^^^ 2 ^ (m - i)]? = gates[x]?) ∧
      left.length = 2 ^ controls.length ∧
      ∀ x < 2 ^ m, left[indexOf (controls.reverse.map (m - ·)) x.testBit]? = gates[x]? := by
  obtain ⟨left, ho, hl, -, hse⟩ := exists_simplified hlen fun x hx y hy => (hclose x hx y hy).1
  have hk : ∀ s, s ∈ keptBits close gates m ↔ s < m ∧ ¬ ∀ x < 2 ^ m, gates[x ^^^ 2 ^ s]? = gates[x]? := by
    intro s
    rw [keptBits, mem_filter, mem_range]
    refine and_congr_right fun hs => ?_
    rw [← repeats_iff_flip hlen hclose hs]
    simp
  refine ⟨_, left, ho, ?_, fun i => ?_, by simpa using hl, fun x hx => ?_⟩
  · rw [pairwise_reverse, pairwise_map]
    refine ((pairwise_lt_range).sublist filter_sublist).imp_of_mem fun {a b} ha hb hab => ?_
    have hlt := ((hk b).1 hb).1
    omega
  · rw [mem_reverse, mem_map]
    constructor
    · rintro ⟨s, hs, rfl⟩
      obtain ⟨hsm, hfl⟩ := (hk s).1 hs
      rw [Nat.sub_sub_self hsm.le]
      exact ⟨by omega, hfl⟩
    · rintro ⟨hi, hfl⟩; exact ⟨m - i, (hk _).2 ⟨by omega, hfl⟩, by omega⟩
  · have hbi : ((keptBits close gates m).map (m - ·)).reverse.reverse.map (m - ·) = keptBits close gates m := by
      rw [reverse_reverse, map_map]
      exact (map_congr_left fun s hs => Nat.sub_sub_self ((hk s).1 hs).1.le).trans (map_id _)
    rw [hbi, hse x hx]

/-- Eight gates that do not depend on the middle bit. -/
theorem simplifyControls_spec_eight : ∃ controls left,
    simplifyControls (· == ·) [5, 6, 5, 6, 7, 8, 7, 8] 3 = .ok (controls, left) ∧ 2 ∉ controls ∧
      left.length = 2 ^ controls.length ∧
      ∀ x < 8, left[indexOf (controls.reverse.map (3 - ·)) x.testBit]? = [5, 6, 5, 6, 7, 8, 7, 8][x]? := by
  have hlen : [5, 6, 5, 6, 7, 8, 7, 8].length = 2 ^ 3 := rfl
  have hcl : ∀ x ∈ [5, 6, 5, 6, 7, 8, 7, 8], ∀ y ∈ [5, 6, 5, 6, 7, 8, 7, 8], ((x == y) = true ↔ x = y) :=
    fun x _ y _ => beq_iff_eq
  obtain ⟨controls, left, ho, -, hk, hl, hs⟩ := simplifyControls_spec hlen hcl
  exact ⟨controls, left, ho, fun h => ((hk 2).1 h).2 (by decide), hl, hs⟩

end Simplified

/-! ### The order of the controls -/

/-- **Fewer than eight controls come back in order**: each has a slot of its own. -/
theorem order_of_sublist {m : ℕ} (hm : m < 8) {xs : List ℕ} (h : xs.Sublist ((range m).map (· + 1))) :
    HashTable.order xs = xs := by
  have ha : ∀ ys ∈ ((range 7).map (· + 1)).sublists, HashTable.order ys = ys := by decide +kernel
  exact ha xs (mem_sublists.2 (h.trans ((range_sublist.2 (by omega)).map _)))

/-- The eighth control takes the slot before the first. -/
example : HashTable.order [1, 8] = [8, 1] := by decide +kernel

/-- The controls that are left are given back in order. -/
def Ordered (close : β → β → Bool) (gates : List β) (m : ℕ) : Prop :=
  ∀ kept left, simplifyControls close gates m = .ok (kept, left) → HashTable.order kept = kept

lemma ordered_of_lt {close : β → β → Bool} {gates : List β} {m : ℕ} (hlen : gates.length = 2 ^ m) (hm : m < 8) :
    Ordered close gates m := by
  intro kept left h
  rw [simplifyControls_eq hlen, ← filter_controls] at h
  cases h
  exact order_of_sublist hm filter_sublist

end QuantumCircuits

/-! ### Selected -/

noncomputable section

namespace QuantumCircuits.Multiplexor

open Real List Change Operation Operand Circuit
open Tensor (ofMat)

variable {n : ℕ} {R : Routines ℝ} {cs : List ℕ} {t : ℕ}
variable {w : Row ℝ} {bs : List ℕ} {ms : List (Mat (Cplx ℝ))}

/-! ### The diagonal -/

/-- The diagonal behind a row, as an operation. -/
def diagonalOp (cs : List ℕ) (t : ℕ) (w : Row ℝ) : Operation := .diagonal (w.diagonal.toList.map Cplx.value) (t :: cs)

lemma selects_diagonalOp (hw : w.Proper (2 ^ cs.length)) (ht : t ∉ cs) :
    Selects t [diagonalOp cs t w] fun b => w.diagAt (indexOf cs b) where
  blind := (blind_indexOf ht).map w.diagAt
  acts V := by
    funext b
    have hi : indexOf (t :: cs) b = (b t).toNat + 2 * indexOf cs b := rfl
    have hlt : indexOf (t :: cs) b < w.diagonal.size := by
      rw [hw.length, ← pow_succ']; exact indexOf_lt (t :: cs) b
    have hg : (w.diagonal.toList.map Cplx.value).getD (indexOf (t :: cs) b) 1 =
        (w.diagonal.getD (indexOf (t :: cs) b) .zero).value := by
      rw [getD_eq_getElem?_getD, getElem?_map, Array.getElem?_toList, Array.getElem?_eq_getElem hlt,
        Array.getD_eq_getD_getElem?, Array.getElem?_eq_getElem hlt]
      rfl
    have hu := hw.unit (indexOf (t :: cs) b) (hw.length ▸ hlt)
    have htu := abs_mul_exp_arg (w.diagonal.getD (indexOf (t :: cs) b) .zero).value
    rw [hu, Complex.ofReal_one, one_mul] at htu
    have ha : acts [diagonalOp cs t w] V b =
        Complex.exp (((w.diagonal.toList.map Cplx.value).getD (indexOf (t :: cs) b) 1).arg * Complex.I) * V b := rfl
    have hs : select t (fun b => w.diagAt (indexOf cs b)) V b =
        (if b t then (w.diagonal.getD (2 * indexOf cs b + 1) .zero).value
          else (w.diagonal.getD (2 * indexOf cs b) .zero).value) * V b := select_of_diagonal rfl V
    rw [ha, hs, hg, htu, hi]
    cases b t with
    | false => rw [Bool.toNat_false, Nat.zero_add, if_neg Bool.false_ne_true]
    | true => rw [Bool.toNat_true, Nat.add_comm, if_pos rfl]

lemma good_diagonalOp (hw : w.Proper (2 ^ cs.length)) (hnodup : (t :: cs).Nodup)
    (hlt : ∀ q ∈ t :: cs, q < n) : (diagonalOp cs t w).Good n where
  shaped := by
    refine ⟨by rw [length_map, Array.length_toList, hw.length, length_cons, pow_succ'], cons_ne_nil t cs,
      fun z hz => ?_⟩
    obtain ⟨y, hy, rfl⟩ := mem_map.1 hz
    obtain ⟨k, hk, hg⟩ := getElem_of_mem hy
    have hk' : k < w.diagonal.size := by simpa using hk
    have hu := hw.unit k (hw.length ▸ hk')
    rw [Array.getD_eq_getD_getElem?, Array.getElem?_eq_getElem hk', Option.getD_some] at hu
    rw [← hg, Array.getElem_toList, hu]
    simp [Scalar.isClose]
  nodup := hnodup
  lt := hlt
  decided := fun p hp => absurd hp not_mem_nil

/-! ### What the controls that are left select -/

/-- The operations of selected gates: a row, and the diagonal behind it unless it is left out. -/
def selectedOps (upToDiagonal : Bool) (cs : List ℕ) (t : ℕ) (w : Row ℝ) : List Operation :=
  rowOps cs t w ++ if upToDiagonal ∨ cs = [] then [] else [diagonalOp cs t w]

lemma selectedOps_true (cs : List ℕ) (t : ℕ) (w : Row ℝ) : selectedOps true cs t w = rowOps cs t w := by
  rw [selectedOps, if_pos (Or.inl rfl), append_nil]

lemma selectedOps_false (hcs : cs ≠ []) (t : ℕ) (w : Row ℝ) :
    selectedOps false cs t w = rowOps cs t w ++ [diagonalOp cs t w] := by
  have hk : ¬ (false = true ∨ cs = []) := by simpa using hcs
  rw [selectedOps, if_neg hk]

lemma selectedOps_nil (upToDiagonal : Bool) (t : ℕ) (hw : w.gates.size = 1) :
    selectedOps upToDiagonal [] t w = gateOps (w.gates.getD 0 default) t := by
  rw [selectedOps, if_pos (Or.inr rfl), append_nil, rowOps, hw]
  simp [stepOps]

lemma carries_emitSelected (upToDiagonal : Bool)
    (he : extract R ms (cs.length + 1) = .ok w) (hw : w.Proper (2 ^ cs.length)) (hnodup : (t :: cs).Nodup)
    (hlt : ∀ q ∈ t :: cs, q < n) {controls target : Operand ℝ} (hcontrols : controls.IsSequence n cs)
    (htarget : target.IsQubit n t) : Carries n (emitSelected R controls target upToDiagonal .none ms)
      ((selectedOps upToDiagonal cs t w).map .gate) := by
  refine carries_ofOutcome hcontrols.length ?_
  by_cases hcs : cs = []
  · subst hcs
    obtain rfl : ⟨ms.toArray, Array.replicate 2 .one⟩ = w := Except.ok.inj he
    obtain ⟨M, rfl⟩ := length_eq_one_iff.1 hw.size
    have hM : M.IsGate := hw.isGate 0 Nat.one_pos
    rw [selectedOps_nil upToDiagonal t hw.size, if_pos (length_nil)]
    exact carries_emitGate R hM htarget
  · have hco : ¬ cs.length = 0 := fun h => hcs (length_eq_zero_iff.1 h)
    rw [if_neg hco]
    refine carries_ofOutcome he (carries_ofOutcome (r := []) rfl ?_)
    have hr := carries_emitRow (R := R) hnodup hlt hcontrols htarget hcs hw
    cases upToDiagonal with
    | true =>
      have ha := hr.bind carries_pure
      rw [append_nil] at ha
      rw [selectedOps_true]
      exact ha
    | false =>
      rw [selectedOps_false hcs, map_append]
      refine hr.bind ?_
      obtain ⟨xs, hi, hxs⟩ := hcontrols.items
      refine carries_ofOutcome hi ?_
      refine carries_call ?_ (good_diagonalOp hw hnodup hlt)
      have hen : (array ⟨[w.diagonal.size], .complex, w.diagonal⟩ : Operand ℝ).HasEntries
          (w.diagonal.toList.map Cplx.value) := by
        refine .inr (.inr ?_)
        have hba : (w.diagonal.toList.map Cplx.value).map Cplx.ofValue = w.diagonal.toList := by
          rw [map_map]; exact map_id _
        rw [hba, length_map, Array.length_toList, Array.toArray_toList]
      have hq : (list (target :: xs)).IsQubits n (t :: cs) := (IsSequence.list (.cons htarget hxs)).isQubits
      exact Plan.stands_call (o := diagonalOp cs t w) rfl (.cons hen (.cons hq .nil))

lemma good_selectedOps (hw : w.Proper (2 ^ cs.length)) (hnodup : (t :: cs).Nodup)
    (hlt : ∀ q ∈ t :: cs, q < n) (upToDiagonal : Bool) : ∀ o ∈ selectedOps upToDiagonal cs t w, o.Good n := by
  intro o ho
  rcases mem_append.1 ho with ho | ho
  · exact good_rowOps hw hnodup hlt o ho
  · split at ho
    · exact absurd ho not_mem_nil
    · rw [mem_singleton.1 ho]; exact good_diagonalOp hw hnodup hlt

/-- **With its diagonal, the row does what the gates do that the controls select.** -/
theorem exists_selects (hR : R.Splits) (hlen : ms.length = 2 ^ cs.length) (hms : ∀ M ∈ ms, M.IsGate) (ht : t ∉ cs) :
    ∃ w, extract R ms (cs.length + 1) = .ok w ∧ w.Proper (2 ^ cs.length) ∧
      Selects t (selectedOps false cs t w) fun b => (ms.getD (indexOf cs b) default).asSquare := by
  obtain ⟨w, he, hw, hv⟩ := exists_extract hR hlen hms
  refine ⟨w, he, hw, ?_⟩
  have hr := selects_rowOps hw ht
  by_cases hcs : cs = []
  · subst hcs
    obtain rfl : ⟨ms.toArray, Array.replicate 2 .one⟩ = w := Except.ok.inj he
    obtain ⟨M, rfl⟩ := length_eq_one_iff.1 hlen
    exact selects_gateOps (hms M mem_cons_self) t
  · rw [selectedOps_false hcs]
    exact (hr.append (selects_diagonalOp hw ht)).congr fun b => hv _ (indexOf_lt cs b)

/-! ### Calls -/

def gatesOperand (ms : List (Mat (Cplx ℝ))) : Operand ℝ := .list (ms.map fun M => .array (.ofMat M))

lemma checkGates_eq {m : ℕ} (hlen : ms.length = 2 ^ m) (hms : ∀ M ∈ ms, M.IsGate)
    {controls : Operand ℝ} (hcontrols : controls.length = .ok m) :
    checkGates (gatesOperand ms) controls = .ok (ms, m) := by
  have hs : ∀ M ∈ ms, (ofMat M).shape = [2, 2] ∧ (⟨2, 2, (ofMat M).entries⟩ : Mat (Cplx ℝ)) = M ∧
      (ofMat M).isUnitary ⟨1e-10, 1e-8⟩ = true := by
    intro M hM
    have hg := hms M hM
    obtain ⟨a, b, c, d, rfl⟩ := hg.small
    exact ⟨rfl, rfl, isUnitary_square2 hg.unitary⟩
  have ht : gateTensors (gatesOperand ms) = .ok (ms.map ofMat) := by
    show (ms.map fun M => array (ofMat M)).mapM _ = _
    rw [mapM_map]
    refine mapM_ok fun M hM => ?_
    exact if_pos (hs M hM).1
  have hba : (ms.map ofMat).map (fun t => (⟨2, 2, t.entries⟩ : Mat (Cplx ℝ))) = ms := by
    rw [map_map]; exact (map_congr_left fun M hM => (hs M hM).2.1).trans (map_id ms)
  have hu : ((ms.map ofMat).all fun t => t.isUnitary ⟨1e-10, 1e-8⟩) = true := by
    rw [all_map, all_eq_true]; exact fun M hM => (hs M hM).2.2
  have hp : isPowerOfTwo (ms.map ofMat).length = true := by
    rw [length_map, hlen]; exact Plan.isPowerOfTwo_two_pow m
  have hl : Nat.log2 (ms.map ofMat).length = m := by rw [length_map, hlen, Nat.log2_two_pow]
  rw [checkGates, ht]
  show (if !isPowerOfTwo (ms.map ofMat).length then _ else _) = _
  rw [hp, if_neg (by decide)]
  rw [hcontrols, hl]
  show (if m ≠ m then _ else (if !((ms.map ofMat).all fun t => t.isUnitary ⟨1e-10, 1e-8⟩) then _ else _)) = _
  rw [if_neg (not_not.2 rfl), hu, if_neg (by decide), hba]

/-- The controls that belong to some bits of the position of a gate. -/
def controlsAt (cs : List ℕ) (bs : List ℕ) : List ℕ := bs.map fun s => cs.getD s 0

lemma indexOf_controlsAt (hbs : ∀ s ∈ bs, s < cs.length) (b : Register) :
    indexOf (controlsAt cs bs) b = indexOf bs (indexOf cs b).testBit := by
  have hm : ∀ bs : List ℕ, indexOf (controlsAt cs bs) b = indexOf bs fun s => b (cs.getD s 0) := by
    intro bs
    induction bs with
    | nil => rfl
    | cons s bs ih => exact congrArg ((b (cs.getD s 0)).toNat + 2 * ·) ih
  rw [hm]
  exact indexOf_congr fun s hs => (testBit_indexOf cs b (hbs s hs)).symm

lemma controlsAt_sublist (hbs : bs.Sublist (range cs.length)) : (controlsAt cs bs).Sublist cs := by
  have ha : controlsAt cs (range cs.length) = cs := by
    refine ext_getElem (by simp [controlsAt]) fun i _ hi => ?_
    simp [controlsAt, hi]
  calc (controlsAt cs bs).Sublist (controlsAt cs (range cs.length)) := hbs.map _
    _ = cs := ha

lemma exists_controls {xs : List (Operand ℝ)} (hxs : Forall₂ (IsQubit n) xs cs) (target : Operand ℝ)
    (hbs : ∀ s ∈ bs, s < cs.length) : ∃ ys, ((bs.map (cs.length - ·)).mapM fun (i : ℕ) =>
        (list (target :: xs)).item (cs.length + 1 - i)) = .ok ys ∧ Forall₂ (IsQubit n) ys (controlsAt cs bs) := by
  refine ⟨bs.map fun s => xs.getD s .none, ?_, ?_⟩
  · rw [mapM_map]
    refine mapM_ok fun s hs => ?_
    have hs' := hbs s hs
    have hp : ((cs.length : ℤ) + 1 - ((cs.length - s : ℕ) : ℤ)) = ((s + 1 : ℕ) : ℤ) := by omega
    rw [Function.comp_apply, hp]
    have hi : s + 1 < (target :: xs).length := by simpa [hxs.length_eq] using hs'
    exact item_of_items (x := .list (target :: xs)) (fun ys => nofun) rfl hi
  · rw [controlsAt, forall₂_map_left_iff, forall₂_map_right_iff, forall₂_same]
    exact fun s hs => forall₂_getD hxs (hbs s hs) _ _

section Apply

variable {ms : List (Mat (Cplx ℝ))} {controls target : Operand ℝ} (hlen : ms.length = 2 ^ cs.length)
  (hms : ∀ M ∈ ms, M.IsGate) (hcontrols : controls.IsQubits n cs) (htarget : target.IsQubit n t)
  (hnodup : (t :: cs).Nodup) (hlt : ∀ q ∈ t :: cs, q < n)
include hlen hms hcontrols htarget hnodup hlt

lemma carries_apply_plain (upToDiagonal : Bool) (he : extract R ms (cs.length + 1) = .ok w)
    (hw : w.Proper (2 ^ cs.length)) : Carries n (apply R (gatesOperand ms) controls target upToDiagonal false .none)
      ((selectedOps upToDiagonal cs t w).map .gate) := by
  obtain ⟨xs, hi, hxs⟩ := IsSequence.items hcontrols
  have hch := checkGates_eq hlen hms (IsSequence.length hcontrols)
  refine carries_ofOutcome hch (carries_ofOutcome hi ?_)
  exact carries_emitSelected upToDiagonal he hw hnodup hlt hcontrols htarget

lemma carries_apply_simplifying (upToDiagonal : Bool) (hbs : bs.Sublist (range cs.length)) {left : List (Mat (Cplx ℝ))}
    (hl : simplifyControls closeGates ms cs.length = .ok ((bs.map (cs.length - ·)).reverse, left))
    (hor : Ordered closeGates ms cs.length)
    (he : extract R left (bs.length + 1) = .ok w) (hw : w.Proper (2 ^ bs.length)) :
    Carries n (apply R (gatesOperand ms) controls target upToDiagonal true .none)
      ((selectedOps upToDiagonal (controlsAt cs bs) t w).map .gate) := by
  obtain ⟨xs, hi, hxs⟩ := IsSequence.items hcontrols
  have hch := checkGates_eq hlen hms (IsSequence.length hcontrols)
  obtain ⟨ys, hys, hqs⟩ := exists_controls hxs target fun s hs => mem_range.1 (hbs.subset hs)
  have hco : (controlsAt cs bs).length = bs.length := length_map ..
  have hsu := (controlsAt_sublist hbs).cons_cons t
  rw [← hco] at he hw
  rw [← reverse_reverse (map _ _), ← hor _ _ hl] at hys
  refine carries_ofOutcome hch (carries_ofOutcome hi ?_)
  refine carries_ofOutcome hl (carries_ofOutcome hys ?_)
  exact carries_emitSelected upToDiagonal he hw (hsu.nodup hnodup) (fun q hq => hlt q (hsu.subset hq))
    (.list hqs) htarget

/-- **Selected gates are carried out**, whether or not controls are left out before, if gates that are taken
for equal are equal and the controls that are left keep their order. -/
theorem exists_carries_apply (hR : R.Splits) (simplifying : Bool)
    (hcl : simplifying = true → ∀ M ∈ ms, ∀ N ∈ ms, closeGates M N = true → M = N)
    (hor : simplifying = true → Ordered closeGates ms cs.length) :
    ∃ os, Carries n (apply R (gatesOperand ms) controls target false simplifying .none) (os.map .gate) ∧
      (∀ o ∈ os, o.Good n) ∧ Selects t os fun b => (ms.getD (indexOf cs b) default).asSquare := by
  have ht : t ∉ cs := (nodup_cons.1 hnodup).1
  cases simplifying with
  | false =>
    obtain ⟨w, he, hw, hse⟩ := exists_selects hR hlen hms ht
    exact ⟨selectedOps false cs t w, carries_apply_plain hlen hms hcontrols htarget hnodup hlt false he hw,
      good_selectedOps hw hnodup hlt false, hse⟩
  | true =>
    obtain ⟨left, hsi, hl, hm, hg⟩ := exists_simplified hlen (hcl rfl)
    have hbs : (keptBits closeGates ms cs.length).Sublist (range cs.length) := filter_sublist
    have hsu := controlsAt_sublist hbs
    have hco : (controlsAt cs (keptBits closeGates ms cs.length)).length = (keptBits closeGates ms cs.length).length :=
      length_map ..
    rw [← hco] at hl
    obtain ⟨w, he, hw, hse⟩ := exists_selects hR hl (fun M hM => hms M (hm M hM))
      fun h => ht (hsu.subset h)
    refine ⟨selectedOps false _ t w, carries_apply_simplifying hlen hms hcontrols htarget hnodup hlt false hbs hsi
        (hor rfl) (hco ▸ he) (hco ▸ hw), good_selectedOps hw ((hsu.cons_cons t).nodup hnodup)
        (fun q hq => hlt q ((hsu.cons_cons t).subset hq)) false, hse.congr fun b => ?_⟩
    rw [indexOf_controlsAt fun s hs => mem_range.1 (hbs.subset hs), getD_eq_getElem?_getD,
      hg _ (indexOf_lt cs b), ← getD_eq_getElem?_getD]

end Apply

end QuantumCircuits.Multiplexor

end
