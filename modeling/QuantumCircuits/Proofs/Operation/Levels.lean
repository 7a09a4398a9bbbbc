import QuantumCircuits.Proofs.Meaning.Multiplexed

/-!
# Operation — Levels

The parts of an operation that a circuit can carry out are operations that it can carry out, and they
lie deeper: their rank is smaller, and no other rotations stand under two or more controls
(`Operation.inside_parts`).  Together they do what it does (`Operation.acts_parts`).
-/

/-! ### Light

Operations that are made of gates on one qubit and negations with one control (`Light`), and those
among them that add no phase (`Simple`).  Chains, rotations under controls and rows of selected
rotations have such parts only.
-/

namespace QuantumCircuits.Operation

open Real List

variable {n : ℕ}
variable {t c : ℕ} {axis : Axis} {b : Base} {a : ℝ} {cs : List ℕ} {xs : List ℝ}

/-! ### Light operations -/

/-- The operation is made of gates on one qubit and negations with one control. -/
structure Light (n : ℕ) (o : Operation) : Prop where
  valid : o.Valid n
  rank : o.rank ≤ 2
  turns : o.turns = []

/-- A light operation that adds no phase. -/
structure Simple (n : ℕ) (o : Operation) : Prop extends Light n o where
  phase : o.phase = 0

lemma turns_plain (b : Base) (ps : List ℝ) (ts : List ℕ) : (of b .plain ps [] ts).turns = [] := by
  simp only [turns, length_nil]
  unfold Base.turns
  split <;> rfl

lemma simple_plain {ps : List ℝ} {ts : List ℕ} (hb : b.onTwo = false)
    (hr : (of b .plain ps [] ts).rank ≤ 2) (hp : ps.length = b.arity) (hts : ts.Nodup)
    (hlt : ∀ t ∈ ts, t < n) : Simple n (of b .plain ps [] ts) where
  valid := ⟨⟨hp, rfl, by simp [hb]⟩, hts, hlt⟩
  rank := hr
  turns := turns_plain b ps ts
  phase := by
    cases b with
    | xPow | yPow | zPow => exact absurd hr (by simp [rank])
    | _ => rfl

lemma simple_on (hb : b ∈ [.h, .s, .sdg, .t, .tdg]) (ht : t < n) : Simple n (on b [t]) := by
  have hlt : ∀ q ∈ [t], q < n := by simpa using ht
  simp only [mem_cons, not_mem_nil, or_false] at hb
  rcases hb with rfl | rfl | rfl | rfl | rfl <;> exact simple_plain rfl (by simp [rank]) rfl (nodup_singleton t) hlt

lemma simple_turn (hb : b ∈ [.rx, .ry, .rz, .phase]) (ht : t < n) : Simple n (turn b a [t]) := by
  have hlt : ∀ q ∈ [t], q < n := by simpa using ht
  simp only [mem_cons, not_mem_nil, or_false] at hb
  rcases hb with rfl | rfl | rfl | rfl <;> exact simple_plain rfl (by simp [rank]) rfl (nodup_singleton t) hlt

lemma simple_cx (hct : c ≠ t) (hc : c < n) (ht : t < n) : Simple n (cx c t) where
  valid := ⟨⟨rfl, rfl, by simp [Base.onTwo]⟩, by simpa [qubits] using hct, by simp [qubits, hc, ht]⟩
  rank := by simp [rank]
  turns := rfl
  phase := rfl

/-! ### Chains -/

section Chains

variable {a b c q : ℕ} (ha : a < n) (hb : b < n) (hc : c < n) (hq : q < n)
include ha hb hc

lemma simple_linkParts (hac : a ≠ c) (hbc : b ≠ c) : ∀ o ∈ linkParts a b c, Simple n o := by
  simp [linkParts, simple_on, simple_cx, *]

lemma simple_unlinkParts (hac : a ≠ c) (hbc : b ≠ c) : ∀ o ∈ unlinkParts a b c, Simple n o := by
  simp [unlinkParts, simple_on, simple_cx, *]

lemma simple_turningParts (hac : a ≠ c) (hbc : b ≠ c) : ∀ o ∈ turningParts a b c, Simple n o := by
  simp [turningParts, simple_on, simple_cx, *]

lemma simple_ccxParts (hab : a ≠ b) (hac : a ≠ c) (hbc : b ≠ c) : ∀ o ∈ ccxParts a b c, Simple n o := by
  simp [ccxParts, simple_on, simple_cx, *]

include hq

lemma simple_c3xParts_three (hab : a ≠ b) (hac : a ≠ c) (hbc : b ≠ c) (haq : a ≠ q) (hbq : b ≠ q)
    (hcq : c ≠ q) : ∀ o ∈ c3xParts [a, b, c] q, Simple n o := by
  have hal : Simple n (turn .phase (π / 8) [a, b, c, q]) :=
    simple_plain rfl (by simp [rank]) rfl (by simp [*]) (by simp [*])
  simp [c3xParts, c3xControls, c3xTarget, simple_on, simple_turn, simple_cx, *]

end Chains

lemma simple_c3xParts (hcs : cs.Nodup) (ht : t ∉ cs) (hlt : ∀ c ∈ cs, c < n)
    (htn : t < n) : ∀ o ∈ c3xParts cs t, Simple n o := by
  match cs with
  | [] => simp [c3xParts]
  | [c] =>
    simp only [mem_singleton, forall_eq] at ht hlt
    simpa [c3xParts] using simple_cx (Ne.symm ht) hlt htn
  | [c, d] =>
    simp only [mem_cons, not_mem_nil, or_false, not_or, forall_eq_or_imp, forall_eq] at ht hlt
    have hcd : c ≠ d := by simpa using hcs
    exact simple_ccxParts hlt.1 hlt.2 htn hcd (Ne.symm ht.1) (Ne.symm ht.2)
  | [a, b, c] =>
    simp only [mem_cons, not_mem_nil, or_false, not_or, forall_eq_or_imp, forall_eq] at ht hlt
    have hd : (a ≠ b ∧ a ≠ c) ∧ b ≠ c := by simpa using hcs
    exact simple_c3xParts_three hlt.1 hlt.2.1 hlt.2.2 htn hd.1.1 hd.1.2 hd.2 (Ne.symm ht.1)
      (Ne.symm ht.2.1) (Ne.symm ht.2.2)
  | _ :: _ :: _ :: _ :: _ => simp [c3xParts]

lemma forall_mem_append {β : Type} {P : β → Prop} {xs ys : List β} (hxs : ∀ x ∈ xs, P x)
    (hys : ∀ x ∈ ys, P x) : ∀ x ∈ xs ++ ys, P x :=
  List.forall_mem_append.mpr ⟨hxs, hys⟩

lemma simple_walk {c a : ℕ → ℕ} {j : ℕ} (h : Apart c a j) (hc : ∀ k ≤ j + 1, c k < n)
    (ha : ∀ i ≤ j, a i < n) : ∀ o ∈ walk c a j, Simple n o := by
  induction j with
  | zero =>
    exact simple_turningParts (hc 0 (by omega)) (hc 1 le_rfl) (ha 0 le_rfl)
      (h.control 0 le_rfl 0 (by omega)).symm (h.control 0 le_rfl 1 le_rfl).symm
  | succ j ih =>
    have hl := ih (h.mono (by omega)) (fun k hk => hc k (by omega)) fun i hi => ha i (by omega)
    have hcj := hc (j + 2) le_rfl
    have haj := ha j (by omega)
    have haj' := ha (j + 1) le_rfl
    have hca := (h.control (j + 1) le_rfl (j + 2) le_rfl).symm
    have haa := h.ancilla j (by omega) (j + 1) le_rfl (by omega)
    exact forall_mem_append (forall_mem_append (simple_linkParts hcj haj haj' hca haa) hl)
      (simple_unlinkParts hcj haj haj' hca haa)

lemma simple_chainParts {as : List ℕ} (h : OnChain cs as t)
    (hlt : ∀ q ∈ cs ++ as, q < n) (ht : t < n) : ∀ o ∈ chainParts cs as t, Simple n o := by
  obtain ⟨hn, htg, -, hm⟩ := h
  have hcs : ∀ k < cs.length, cs.getD k 0 ∈ cs ++ as := fun k hk =>
    mem_append_left _ (getD_mem hk)
  have has : ∀ i < as.length, as.getD i 0 ∈ cs ++ as := fun i hi =>
    mem_append_right _ (getD_mem hi)
  rw [chainParts]
  split
  · exact simple_c3xParts (nodup_append.mp hn).1 (fun hme => htg (mem_append_left _ hme))
      (fun c hc => hlt c (mem_append_left _ hc)) ht
  · rename_i hk
    rw [sweepParts_eq (by omega) hm]
    have hw := simple_walk (apart_of_nodup hn (m := cs.length - 3) (by omega) (by omega))
      (fun k hk' => hlt _ (hcs k (by omega))) fun i hi => hlt _ (has i (by omega))
    have hne : ∀ q ∈ cs ++ as, q ≠ t := fun q hq he => htg (he ▸ hq)
    have hl := has (cs.length - 3) (by omega)
    have hfi := hcs (cs.length - 1) (by omega)
    have hd : cs.getD (cs.length - 1) 0 ≠ as.getD (cs.length - 3) 0 :=
      (nodup_append.mp hn).2.2 _ (getD_mem (by omega)) _ (getD_mem (by omega))
    have hcc := simple_ccxParts (hlt _ hfi) (hlt _ hl) ht hd (hne _ hfi) (hne _ hl)
    exact forall_mem_append (forall_mem_append hcc hw) (forall_mem_append hcc hw)

/-! ### Rotations under controls -/

lemma simple_general (hxs : xs.length = 3) (ht : t < n) : Simple n (of .u3 .plain xs [] [t]) :=
  simple_plain rfl (by simp [rank]) hxs (nodup_singleton t) (by simpa using ht)

lemma light_globalPhase (a : ℝ) : Light n (.globalPhase a) where
  valid := ⟨trivial, nodup_nil, by simp [qubits]⟩
  rank := by simp [rank]
  turns := rfl

lemma snapAll_length {ys : List ℝ} (h : snapAll xs = some ys) : ys.length = xs.length := by
  rw [snapAll] at h
  split at h
  · cases h
  · rw [← Option.some.inj h, length_map]

lemma simple_snapAll {xs : Option (List ℝ)} (hxs : ∀ ys, xs = some ys → ys.length = 3)
    (ht : t < n) : ∀ o ∈ xs.toList.map fun xs => of .u3 .plain xs [] [t], Simple n o := by
  intro o ho
  obtain ⟨ys, hys, rfl⟩ := mem_map.mp ho
  exact simple_general (hxs ys (Option.mem_toList.mp hys)) ht

section Placed

variable (a : OneQubit.Angles ℝ) {t : ℕ}

lemma simple_placed_angles (ht : t < n) :
    ∀ o ∈ (snapAll [a.theta, a.phi, a.lam]).toList.map fun xs => of .u3 .plain xs [] [t], Simple n o :=
  simple_snapAll (fun _ hys => snapAll_length hys) ht

lemma simple_unplaced_angles (ht : t < n) : ∀ o ∈ ((snapAll [a.theta, a.phi, a.lam]).bind fun xs =>
        snapAll [-xs.getD 0 0, -xs.getD 2 0, -xs.getD 1 0]).toList.map
      fun xs => of .u3 .plain xs [] [t], Simple n o := by
  refine simple_snapAll (fun ys hys => ?_) ht
  obtain ⟨xs, -, hxs⟩ := Option.bind_eq_some_iff.mp hys
  exact snapAll_length hxs

lemma light_placed (ht : t < n) : ∀ o ∈ placed a t, Light n o := by
  refine forall_mem_append (fun o ho => (simple_placed_angles a ht o ho).toLight) ?_
  split
  · simp
  · simpa using light_globalPhase _

lemma light_unplaced (ht : t < n) : ∀ o ∈ unplaced a t, Light n o := by
  refine forall_mem_append ?_ fun o ho => (simple_unplaced_angles a ht o ho).toLight
  split
  · simp
  · simpa using light_globalPhase _

end Placed

lemma simple_rotationParts_one (hct : c ≠ t) (hc : c < n)
    (ht : t < n) : ∀ o ∈ rotationParts axis a [c] t, Simple n o := by
  cases axis <;> simp [rotationParts, simple_on, simple_turn, simple_cx, *]

section Rotations

variable {axis : Axis} {a : ℝ} {cs : List ℕ} {t : ℕ} (hcs : cs.Nodup) (ht : t ∉ cs)
  (hlt : ∀ c ∈ cs, c < n) (htn : t < n)
include hcs ht hlt htn

lemma simple_firstHalf (h2 : 2 ≤ cs.length) : ∀ o ∈ chainParts (cs.take ((cs.length + 1) / 2))
      ((cs.take (2 * ((cs.length + 1) / 2) - 2)).drop ((cs.length + 1) / 2)) t, Simple n o :=
  simple_chainParts (onChain_first hcs ht h2) (fun q hq => hlt q ((first_sublist cs _ _).subset hq)) htn

lemma simple_secondHalf (h2 : 2 ≤ cs.length) : ∀ o ∈ chainParts (cs.drop ((cs.length + 1) / 2))
      ((cs.take ((cs.length + 1) / 2)).drop ((cs.length + 1) / 2 - cs.length / 2 + 2)) t, Simple n o := by
  refine simple_chainParts (onChain_second hcs ht h2) (fun q hq => hlt q ?_) htn
  rw [mem_append, or_comm, ← mem_append] at hq
  exact (second_sublist cs _ _).subset hq

lemma light_roundsParts (real : Bool) (a : OneQubit.Angles ℝ) (h2 : 2 ≤ cs.length) :
    ∀ o ∈ roundsParts real a cs t, Light n o := by
  have hfi := fun o ho => (simple_firstHalf hcs ht hlt htn h2 o ho).toLight
  have hs := fun o ho => (simple_secondHalf hcs ht hlt htn h2 o ho).toLight
  have hfr : ∀ o ∈ if real then [] else [on .h [t]], Light n o := by
    split
    · simp
    · simpa using (simple_on (by simp) htn).toLight
  have hr := forall_mem_append (forall_mem_append (forall_mem_append hfi
    (light_placed a htn)) hs) (light_unplaced a htn)
  exact forall_mem_append (forall_mem_append (forall_mem_append hfr hr) hr) hfr

lemma light_rotationParts (h0 : cs ≠ []) : ∀ o ∈ rotationParts axis a cs t, Light n o := by
  match cs, h0 with
  | [c], _ =>
    simp only [mem_singleton, forall_eq] at ht hlt
    exact fun o ho => (simple_rotationParts_one (Ne.symm ht) hlt htn o ho).toLight
  | c :: d :: cs, _ =>
    exact light_roundsParts hcs ht hlt htn _ _ (by simp)

end Rotations

/-! ### Selected rotations -/

lemma simple_aboutAxis (ht : t < n) : Simple n (aboutAxis axis a t) := by
  cases axis <;> exact simple_turn (by simp [Plan.rotationAbout]) ht

lemma simple_negationParts (hct : c ≠ t) (hc : c < n) (ht : t < n) : ∀ o ∈ negationParts axis c t, Simple n o := by
  rw [negationParts]
  split <;> simp [simple_turn, simple_cx, *]

lemma simple_rowParts {angles : List ℝ}
    (hlen : angles.length = 2 ^ cs.length) (ht : t ∉ cs) (hlt : ∀ c ∈ cs, c < n) (htn : t < n) :
    ∀ o ∈ rowParts axis angles cs t, Simple n o := by
  rw [rowParts]
  split
  · exact forall_mem_singleton.mpr (simple_aboutAxis htn)
  · rename_i h0
    intro o ho
    obtain ⟨⟨a, i⟩, hai, ho⟩ := mem_flatMap.mp ho
    have hi : i < 2 ^ cs.length := by
      have hlt := (mem_zipIdx' hai).1
      rwa [rowAngles, length_demultiplex, hlen] at hlt
    have hm := getD_mem (negationControl_lt (length_pos_iff.mpr h0) hi)
    have hn : cs.getD (negationControl cs.length i) 0 ≠ t := fun he => ht (he ▸ hm)
    rcases mem_cons.mp ho with rfl | ho
    · exact simple_aboutAxis htn
    · exact simple_negationParts hn (hlt _ hm) htn o ho

/-! ### Levels -/

open Base

variable {ps : List ℝ} {o : Operation} {i j m : ℕ} {ts cs : List ℕ} {x : Axis × ℝ}

/-! ### Inside an operation -/

/-- One operation can stand in the definition of another. -/
@[mk_iff]
structure Inside (n : ℕ) (o p : Operation) : Prop where
  valid : p.Valid n
  rank : p.rank < o.rank
  turns : ∀ x ∈ p.turns, x ∈ o.turns

lemma Light.inside {p : Operation} (h : Light n p) (ho : 2 < o.rank) : Inside n o p where
  valid := h.valid
  rank := h.rank.trans_lt ho
  turns := by simp [h.turns]

lemma turns_single (b : Base) (r : Reach) (ps : List ℝ) (c : ℕ) (ts : List ℕ) :
    (of b r ps [c] ts).turns = if b.onTwo then b.turns ps 1 else [] := by
  cases b with
  | rxx | ryy | rzz | swap => rfl
  | _ =>
    rw [turns, length_singleton]
    unfold Base.turns
    split <;> first | rfl | simp_all

lemma turns_globalPhase (a : ℝ) : (globalPhase a).turns = [] := rfl

attribute [local simp] inside_iff valid_iff Shaped qubits rank onTwo arity turns_plain turns_single turns_globalPhase

lemma inside_multi (hb : b.onTwo = false) (hp : ps.length = b.arity) (hcs : cs ≠ [] ∨ b = .phase)
    (hr : (of b .multi ps cs ts).rank < o.rank) (hnodup : (cs ++ ts).Nodup)
    (hlt : ∀ q ∈ cs ++ ts, q < n) (ht : ∀ x ∈ b.turns ps cs.length, x ∈ o.turns) :
    Inside n o (of b .multi ps cs ts) :=
  ⟨⟨⟨hp, hcs, by rw [hb]; simp⟩, hnodup, hlt⟩, hr, ht⟩

lemma inside_plainParts_two (hb : b.onTwo = true) (hp : ps.length = b.arity) (hij : i ≠ j) (hi : i < n) (hj : j < n) :
    ∀ p ∈ plainParts b ps [i, j], Inside n (of b .plain ps [] [i, j]) p := by
  cases takes hp with
  | rxx | ryy | rzz | swap => simp [plainParts, hij.symm, *]
  | _ => cases hb

lemma inside_plainParts (hb : b.onTwo = false) (hp : ps.length = b.arity) (ht : ts.Nodup) (hlt : ∀ t ∈ ts, t < n) :
    ∀ p ∈ plainParts b ps ts, Inside n (of b .plain ps [] ts) p := by
  cases takes hp with
  | rxx | ryy | rzz | swap => cases hb
  | u3 => simp [plainParts]
  | _ => simpa [plainParts, ht] using hlt

lemma inside_controlledParts {c t : ℕ} (hb : b.onTwo = false)
    (hp : ps.length = b.arity) (hct : c ≠ t) (hc : c < n) (ht : t < n) :
    ∀ p ∈ controlledParts b ps c t, Inside n (of b .controlled ps [c] [t]) p := by
  cases takes hp with
  | rxx | ryy | rzz | swap => cases hb
  | _ => simp [controlledParts, *]

/-! ### Under controls -/

lemma mem_turnsUnder : x ∈ turnsUnder m axis a ↔ 2 ≤ m ∧ x = (axis, a) := by
  rw [turnsUnder]
  split <;> simp [*]

lemma stairTurns_of_le (h : m ≤ 1) : stairTurns m a = [] := by simp [stairTurns, Nat.sub_eq_zero_of_le h]

lemma mem_stairTurns : x ∈ stairTurns m a ↔ ∃ j < m - 1, x = (.z, a / 2 ^ j) := by
  simp [stairTurns, eq_comm]

section Under

variable {o : Operation} {cs : List ℕ} {t : ℕ} (hnodup : (cs ++ [t]).Nodup)
  (hlt : ∀ q ∈ cs ++ [t], q < n)
include hnodup hlt

lemma inside_stairParts {k : ℕ} (hr : 3 < o.rank)
    (ht : ∀ j < cs.length - 1, (.z, a / 2 ^ (k + j)) ∈ o.turns) : ∀ p ∈ stairParts a k cs t, Inside n o p := by
  induction cs using reverseRecOn generalizing k t with
  | nil =>
    rw [stairParts_nil]
    simpa using ⟨hlt t (by simp), lt_trans (by simp) hr⟩
  | append_singleton cs c ih =>
    rw [stairParts_concat]
    refine forall_mem_cons.mpr ⟨inside_multi rfl rfl (.inl (by simp)) hr hnodup hlt ?_, ?_⟩
    · intro x hx
      obtain ⟨hlen, rfl⟩ := mem_turnsUnder.mp hx
      simpa using ht 0 (by omega)
    · refine ih (nodup_append.mp hnodup).1 (fun q hq => hlt q (mem_append_left _ hq)) ?_
      intro j hj
      rw [length_append, length_singleton] at ht
      have hn := ht (j + 1) (by omega)
      rwa [← add_assoc, add_right_comm] at hn

lemma inside_turnUnder (hb : b.onTwo = false) (ha : b.arity = 1) (hbt : ∀ m, b.turns [a] m = turnsUnder m axis a)
    (hr : (of b .multi [a] cs [t]).rank < o.rank) (h0 : cs ≠ [])
    (ht : ∀ x ∈ turnsUnder cs.length axis a, x ∈ o.turns) : Inside n o (turnUnder b a cs [t]) :=
  inside_multi hb ha.symm (.inl h0) hr hnodup hlt (by rwa [hbt])

lemma inside_powerParts {p g : ℝ} (hb : b.onTwo = false)
    (ha : b.arity = 1) (hbt : ∀ a m, b.turns [a] m = turnsUnder m axis a)
    (hbr : ∀ a, (of b .multi [a] cs [t]).rank < o.rank) (hr : 4 < o.rank) (h0 : cs ≠ [])
    (ht : ∀ x ∈ turnsUnder cs.length axis (p * π), x ∈ o.turns)
    (hs : ∀ x ∈ stairTurns (cs.length - 1) (p * π * (g + 1 / 2)), x ∈ o.turns) :
    ∀ q ∈ powerParts b p g cs t, Inside n o q := by
  simp only [powerParts, mem_cons, not_mem_nil, or_false, forall_eq_or_imp, forall_eq]
  refine ⟨inside_turnUnder hnodup hlt hb ha (hbt _) (hbr _) h0 ht, ?_⟩
  have hl : cs.dropLast ++ [cs.getLastD 0] = cs := by
    rw [getLastD_eq_getLast?, getLast?_eq_some_getLast h0]; exact dropLast_append_getLast h0
  split
  · refine inside_multi rfl rfl (.inr rfl) hr ?_ ?_ ?_
    · rw [hl]; exact (nodup_append.mp hnodup).1
    · rw [hl]; exact fun q hq => hlt q (mem_append_left _ hq)
    · rwa [length_dropLast]
  · obtain ⟨c, ds, rfl⟩ := exists_cons_of_ne_nil h0
    simpa using ⟨hlt c (by simp), lt_trans (by simp) hr⟩

lemma inside_generalParts {theta phi lam : ℝ} (hr : 4 < o.rank) (h0 : cs ≠ [])
    (htu : ∀ x ∈ Base.u3.turns [theta, phi, lam] cs.length, x ∈ o.turns) :
    ∀ q ∈ generalParts theta phi lam cs t, Inside n o q := by
  obtain ⟨c, ds, rfl⟩ := exists_cons_of_ne_nil h0
  simp only [Base.turns, mem_append, or_imp, forall_and] at htu
  obtain ⟨⟨⟨hl, hth⟩, hph⟩, hs⟩ := htu
  simp only [generalParts, mem_cons, not_mem_nil, or_false, forall_eq_or_imp, forall_eq]
  have ht : ∀ {b a}, (of b .multi [a] (c :: ds) [t]).rank = 3 →
      (of b .multi [a] (c :: ds) [t]).rank < o.rank := fun h => by omega
  refine ⟨?_, ?_, ?_, ?_⟩
  · exact inside_turnUnder hnodup hlt rfl rfl (fun _ => rfl) (ht rfl) h0 hl
  · exact inside_turnUnder hnodup hlt rfl rfl (fun _ => rfl) (ht rfl) h0 hth
  · exact inside_turnUnder hnodup hlt rfl rfl (fun _ => rfl) (ht rfl) h0 hph
  · have hp : (ds ++ [c]).Perm (c :: ds) := perm_append_singleton c ds
    refine inside_multi rfl rfl (.inr rfl) hr ?_ ?_ hs
    · exact hp.nodup_iff.mpr (nodup_append.mp hnodup).1
    · exact fun q hq => hlt q (mem_append_left _ (hp.subset hq))

end Under

lemma inside_multiParts_two (hb : b.onTwo = true)
    (hp : ps.length = b.arity) (hcs : cs ≠ []) (hnodup : (cs ++ [i, j]).Nodup) (hlt : ∀ q ∈ cs ++ [i, j], q < n) :
    ∀ p ∈ multiParts b ps cs [i, j], Inside n (of b .multi ps cs [i, j]) p := by
  have hi : (cs ++ [i]).Nodup := hnodup.sublist (by simp)
  have hj : (cs ++ [j]).Nodup := hnodup.sublist (by simp)
  have hji : j ≠ i := (by simpa using hnodup.sublist (sublist_append_right cs [i, j]) : i ≠ j).symm
  obtain ⟨hlt, hin, hjn⟩ : (∀ q ∈ cs, q < n) ∧ i < n ∧ j < n := by simpa [or_imp, forall_and] using hlt
  cases takes hp with
  | rxx | ryy | rzz | swap =>
    simp only [multiParts, mem_cons, not_mem_nil, or_false, forall_eq_or_imp, forall_eq]
    simp +contextual [turns, Base.turns, or_imp, stairTurns_of_le, *]
  | _ => cases hb

lemma inside_multiParts (hb : b.onTwo = false)
    (hps : ps.length = b.arity) (hcs : cs ≠ [] ∨ b = .phase) (hnodup : (cs ++ ts).Nodup)
    (hlt : ∀ q ∈ cs ++ ts, q < n) : ∀ p ∈ multiParts b ps cs ts, Inside n (of b .multi ps cs ts) p := by
  have hts := nodup_append.mp hnodup
  have he : ∀ t ∈ ts, (cs ++ [t]).Nodup ∧ ∀ q ∈ cs ++ [t], q < n := fun t ht =>
    have hs : (cs ++ [t]).Sublist (cs ++ ts) := (Sublist.refl cs).append (singleton_sublist.mpr ht)
    ⟨hnodup.sublist hs, fun q hq => hlt q (hs.subset hq)⟩
  have h0 : b ≠ .phase → cs ≠ [] := hcs.resolve_right
  cases takes hps with
  | x | y | z | h | s | sdg | t | tdg =>
    have h0 := h0 (by simp)
    simp only [multiParts, mem_cons, not_mem_nil, or_false, forall_eq_or_imp, forall_eq]
    simp +contextual [turns, Base.turns, or_imp, hnodup, hts.2.1, h0, List.forall_mem_append.mp hlt, stairTurns_of_le]
  | rx a | ry a | rz a =>
    intro p hp
    obtain ⟨t, ht, hp⟩ := mem_flatMap.mp hp
    refine (light_rotationParts hts.1 (fun hm => hts.2.2 t hm t ht rfl) ?_ ?_ (h0 (by simp)) p hp).inside (by simp [rank])
    · exact fun c hc => hlt c (mem_append_left _ hc)
    · exact hlt t (mem_append_right _ ht)
  | phase a =>
    intro p hp
    obtain ⟨t, ht, hp⟩ := mem_flatMap.mp hp
    refine inside_stairParts (he t ht).1 (he t ht).2 (by simp [rank]) (fun j hj => ?_) p hp
    exact mem_stairTurns.mpr ⟨j, hj, by rw [zero_add]⟩
  | xPow e g | yPow e g | zPow e g =>
    intro p hp
    obtain ⟨t, ht, hp⟩ := mem_flatMap.mp hp
    exact inside_powerParts (he t ht).1 (he t ht).2 rfl rfl (fun _ _ => rfl)
      (fun _ => by simp [rank]) (by simp [rank]) (h0 (by simp)) (fun x hx => mem_append_left _ hx)
      (fun x hx => mem_append_right _ hx) p hp
  | u3 theta phi lam =>
    intro p hp
    obtain ⟨t, ht, hp⟩ := mem_flatMap.mp hp
    exact inside_generalParts (o := of .u3 .multi [theta, phi, lam] cs ts) (he t ht).1 (he t ht).2
      (by simp [rank]) (h0 (by simp)) (fun _ h => h) p hp
  | rxx | ryy | rzz | swap => cases hb

/-! ### Diagonals -/

lemma inside_diagonalParts (hr : 4 < o.rank) {qs : List ℕ} {phases : List ℝ}
    (hlen : phases.length = 2 ^ qs.length) (hq : qs.Nodup) (hlt : ∀ q ∈ qs, q < n) :
    ∀ p ∈ diagonalParts qs phases, Inside n o p := by
  induction qs generalizing phases with
  | nil => simpa [diagonalParts] using Nat.zero_lt_of_lt hr
  | cons q qs ih =>
    have hs := splitLevel_spec (by rw [hlen, length_cons, pow_succ, mul_comm])
    have hpe : (qs ++ [q]).Perm (q :: qs) := perm_append_singleton q qs
    refine forall_mem_cons.mpr ⟨⟨⟨hs.2.1, ?_, ?_⟩, hr, by simp [turns]⟩, ?_⟩
    · exact hpe.nodup_iff.mpr hq
    · exact fun p hp => hlt p (hpe.subset hp)
    · exact ih hs.1 (nodup_cons.mp hq).2 fun p hp => hlt p (mem_cons_of_mem _ hp)

/-! ### The parts of an operation -/

/-- **The parts of an operation that can be carried out can be carried out, and lie deeper.** -/
theorem inside_parts (ho : o.Valid n) : ∀ p ∈ o.parts, Inside n o p := by
  cases o with
  | identity ts =>
    simpa [parts] using ⟨ho.nodup, ho.lt⟩
  | of b r ps cs ts =>
    obtain ⟨⟨hps, hcs, ht⟩, hnodup, hlt⟩ := ho
    cases r with
    | plain =>
      subst hcs
      by_cases hb : b.onTwo = true
      · rw [if_pos hb] at ht
        obtain ⟨i, j, rfl⟩ := length_eq_two.mp ht
        exact inside_plainParts_two hb hps (by simpa [qubits] using hnodup) (hlt i (by simp [qubits]))
          (hlt j (by simp [qubits]))
      · exact inside_plainParts (by simpa using hb) hps hnodup hlt
    | controlled =>
      obtain ⟨c, rfl⟩ := length_eq_one_iff.mp hcs
      rw [parts]
      by_cases hb : b.onTwo = true
      · rw [if_pos hb] at ht ⊢
        refine forall_mem_singleton.mpr ⟨⟨⟨hps, .inl (by simp), ?_⟩, hnodup, hlt⟩, ?_, fun _ h => h⟩
        · rwa [if_pos hb]
        · cases b with
          | rxx | ryy | rzz | swap => simp [rank]
          | _ => cases hb
      · rw [if_neg hb] at ht ⊢
        obtain ⟨t, rfl⟩ := length_eq_one_iff.mp (ht rfl)
        exact inside_controlledParts (by simpa using hb) hps (by simpa [qubits] using hnodup)
          (hlt c (by simp [qubits])) (hlt t (by simp [qubits]))
    | multi =>
      by_cases hb : b.onTwo = true
      · rw [if_pos hb] at ht
        obtain ⟨i, j, rfl⟩ := length_eq_two.mp ht
        have hcs' : cs ≠ [] := hcs.resolve_right fun h => by subst h; cases hb
        exact inside_multiParts_two hb hps hcs' hnodup hlt
      · exact inside_multiParts (by simpa using hb) hps hcs hnodup hlt
  | ucr axis angles cs t =>
    exact forall_mem_singleton.mpr ⟨⟨ho.shaped, ho.nodup, ho.lt⟩, by simp [rank], by simp [turns]⟩
  | pauliMultiplexor axis angles cs t =>
    have hd := nodup_append.mp ho.nodup
    intro p hp
    refine (simple_rowParts ho.shaped ?_ ?_ ?_ p hp).inside (by simp [rank])
    · exact fun hm => hd.2.2 t hm t (by simp) rfl
    · exact fun c hc => ho.lt c (mem_append_left _ hc)
    · exact ho.lt t (mem_append_right _ (by simp))
  | diagonal zs qs =>
    exact inside_diagonalParts (by simp [rank]) (by simpa using ho.shaped.1) ho.nodup ho.lt
  | globalPhase a => simp [parts]

lemma Good.parts (ho : o.Good n) : ∀ p ∈ o.parts, p.Good n := fun p hp =>
  have hi := inside_parts ho.toValid p hp
  ⟨hi.valid, fun x hx => ho.decided x (hi.turns x hx)⟩

/-- **The parts of an operation do what it does.** -/
theorem acts_parts (ho : o.Good n) (hp : o.primitives? = none) (V : Wave) : acts o.parts V = o.act V := by
  obtain ⟨⟨hs, hnodup, hlt⟩, hde⟩ := ho
  cases o with
  | identity ts =>
    rw [parts, acts_cons, acts_nil, act_plain rfl, square_general_ry, square_ry_zero]
    exact selectEach_one ts V
  | of b r ps cs ts =>
    obtain ⟨hps, hcs, hts⟩ := hs
    obtain ⟨hcn, htn, hd⟩ := nodup_append.mp hnodup
    cases r with
    | plain =>
      subst hcs
      by_cases hb : b.onTwo = true
      · rw [if_pos hb] at hts
        obtain ⟨i, j, rfl⟩ := length_eq_two.mp hts
        exact acts_plainParts_two hb hps (by simpa using htn) V
      · refine acts_plainParts (by simpa using hb) hps htn ?_ V
        rintro rfl
        cases hp
    | controlled =>
      obtain ⟨c, rfl⟩ := length_eq_one_iff.mp hcs
      rw [parts]
      by_cases hb : b.onTwo = true
      · rw [if_pos hb]; rfl
      · rw [if_neg hb] at hts ⊢
        obtain ⟨t, rfl⟩ := length_eq_one_iff.mp (hts rfl)
        refine acts_controlledParts (by simpa using hb) hps (hd c (by simp) t (by simp)) ?_ V
        rintro rfl
        cases hp
    | multi =>
      by_cases hb : b.onTwo = true
      · rw [if_pos hb] at hts
        obtain ⟨i, j, rfl⟩ := length_eq_two.mp hts
        exact acts_multiParts_two hb hps (by simpa using htn)
          (fun hi => hd i hi i (by simp) rfl) (fun hj => hd j hj j (by simp) rfl) V
      · exact acts_multiParts (by simpa using hb) hps hcs hcn htn (fun t ht hm => hd t hm t ht rfl) hde V
  | ucr axis angles cs t => rfl
  | pauliMultiplexor axis angles cs t =>
    exact acts_rowParts hs (fun hm => (nodup_append.mp hnodup).2.2 t hm t (by simp) rfl) V
  | diagonal zs qs =>
    funext b
    rw [parts, acts_diagonalParts (by simpa using hs.1), act]
    have hlt : indexOf qs b < zs.length := hs.1 ▸ indexOf_lt qs b
    simp [getD, hlt]
  | globalPhase a => cases hp

end QuantumCircuits.Operation
