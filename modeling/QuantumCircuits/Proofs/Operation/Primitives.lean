import QuantumCircuits.Proofs.Operation.Levels
import QuantumCircuits.Proofs.Operation.Inverse

/-!
# Operation — Primitives

The primitives that an operation comes down to (`Operation.prims`), through the parts of its parts.
They do what the operation does (`Operation.run_prims`), stay within its circuit's qubits and add the
phase that it adds.
-/

/-! ### Phases

The phases that operations add for good.  The parts of an operation add the phase that it adds
(`Operation.phases_parts`): what rotations under controls add on the way they take back.
-/

namespace QuantumCircuits.Operation

open Real List

variable {n : ℕ}

attribute [local simp] phase

variable {b : Base} {ps xs : List ℝ} {os : List Operation} {cs ts : List ℕ}

noncomputable def phases (os : List Operation) : ℝ := (os.map phase).sum

@[simp] lemma phases_nil : phases [] = 0 := rfl

@[simp] lemma phases_cons (o : Operation) (os : List Operation) : phases (o :: os) = o.phase + phases os := by
  simp [phases]

@[simp] lemma phases_append (os os' : List Operation) : phases (os ++ os') = phases os + phases os' := by
  simp [phases]

lemma phases_eq_zero (h : ∀ o ∈ os, o.phase = 0) : phases os = 0 := sum_eq_zero (by simpa using h)

lemma phases_simple (h : ∀ o ∈ os, Simple n o) : phases os = 0 := phases_eq_zero fun o ho => (h o ho).phase

lemma phases_flatMap {β : Type} {ts : List β} {f : β → List Operation}
    (h : ∀ t ∈ ts, phases (f t) = 0) : phases (ts.flatMap f) = 0 := by
  induction ts with
  | nil => rfl
  | cons t ts ih =>
    rw [flatMap_cons, phases_append, h t mem_cons_self, ih fun s hs => h s (mem_cons_of_mem _ hs), add_zero]

lemma phases_angles (xs : Option (List ℝ)) (t : ℕ) : phases (xs.toList.map fun xs => of .u3 .plain xs [] [t]) = 0 :=
  phases_eq_zero fun o ho => by obtain ⟨ys, -, rfl⟩ := mem_map.mp ho; rfl

lemma phases_placed (a : OneQubit.Angles ℝ) (t : ℕ) : phases (placed a t) = snap a.phase := by
  rw [placed, phases_append, phases_angles, zero_add]
  split
  · exact Eq.symm ‹_›
  · simp

lemma phases_unplaced {a : OneQubit.Angles ℝ} (h : Definite a.phase) (t : ℕ) :
    phases (unplaced a t) = -snap a.phase := by
  rw [unplaced, phases_append, phases_angles, add_zero, h.snap_neg_snap]
  split
  · rename_i hze
    rw [neg_eq_zero, or_self] at hze
    rw [hze, neg_zero, phases_nil]
  · simp

lemma phases_rotationParts {axis : Axis} {a : ℝ} {t : ℕ} (h0 : cs ≠ [])
    (hcs : cs.Nodup) (ht : t ∉ cs) (hl : ∀ c ∈ cs, c < n) (htn : t < n)
    (h : ∀ p ∈ turnsUnder cs.length axis a, Decided p.1 p.2) : phases (rotationParts axis a cs t) = 0 := by
  match cs, h0 with
  | [c], _ =>
    simp only [mem_singleton, forall_eq] at ht hl
    exact phases_simple (simple_rotationParts_one (Ne.symm ht) hl htn)
  | c :: d :: cs, _ =>
    rw [rotationParts_halves]
    have hd : Decided axis a := h (axis, a) (by simp [turnsUnder])
    have hfr : phases (if (readShape (axis.matrix a)).secondReal then [] else [on .h [t]]) = 0 := by
      split
      · rfl
      · simp
    simp only [halvesParts, roundsParts, phases_append, hfr, phases_placed, phases_unplaced hd.phase,
      phases_simple (simple_firstHalf hcs ht hl htn (by simp)),
      phases_simple (simple_secondHalf hcs ht hl htn (by simp))]
    ring

lemma phases_stairParts (a : ℝ) (k : ℕ) (cs : List ℕ) (t : ℕ) : phases (stairParts a k cs t) = 0 := by
  induction cs using reverseRecOn generalizing k t with
  | nil => simp [stairParts_nil]
  | append_singleton cs c ih => simp [stairParts_concat, ih]

lemma phases_diagonalParts {qs : List ℕ} (h : xs.length = 2 ^ qs.length) :
    phases (diagonalParts qs xs) = xs.sum / 2 ^ qs.length := by
  induction qs generalizing xs with
  | nil =>
    obtain ⟨x, rfl⟩ := length_eq_one_iff.mp h
    simp [diagonalParts]
  | cons q qs ih =>
    have hlen : xs.length = 2 * 2 ^ qs.length := by rw [h, length_cons, pow_succ, mul_comm]
    have hze : (ucr .z (splitLevel xs).2 qs q).phase = 0 := rfl
    obtain ⟨hl, -, hs, -⟩ := splitLevel_spec hlen
    rw [diagonalParts, phases_cons, ih hl, hs, hze, zero_add, length_cons, pow_succ, div_div, mul_comm]

/-! ### The tables -/

lemma phases_plainParts (hp : ps.length = b.arity) (ht : b.onTwo = true → ts.length = 2) :
    phases (plainParts b ps ts) = (of b .plain ps [] ts).phase := by
  cases takes hp with
  | rxx a | ryy a | rzz a | swap =>
    obtain ⟨i, j, rfl⟩ := length_eq_two.mp (ht rfl)
    simp [plainParts]
  | _ => simp [plainParts]

lemma phases_controlledParts (hp : ps.length = b.arity) (c t : ℕ) : phases (controlledParts b ps c t) = 0 := by
  cases takes hp <;> simp [controlledParts]

lemma phases_powerParts (b : Base) (p g : ℝ) (cs : List ℕ) (t : ℕ) : phases (powerParts b p g cs t) = 0 := by
  rw [powerParts]
  split <;> simp

lemma phases_multiParts (hp : ps.length = b.arity)
    (hcs : cs ≠ [] ∨ b = .phase) (hts : b.onTwo = true → ts.length = 2) (hn : (cs ++ ts).Nodup)
    (hl : ∀ q ∈ cs ++ ts, q < n) (hd : ∀ p ∈ b.turns ps cs.length, Decided p.1 p.2) :
    phases (multiParts b ps cs ts) = 0 := by
  obtain ⟨hcn, -, hdi⟩ := nodup_append.mp hn
  cases takes hp with
  | rx a | ry a | rz a =>
    exact phases_flatMap fun t ht => phases_rotationParts (hcs.resolve_right (by simp)) hcn
      (fun hm => hdi t hm t ht rfl) (fun c hc => hl c (mem_append_left _ hc))
      (hl t (mem_append_right _ ht)) hd
  | phase a => exact phases_flatMap fun t _ => phases_stairParts a 0 cs t
  | xPow p g | yPow p g | zPow p g => exact phases_flatMap fun t _ => phases_powerParts _ p g cs t
  | u3 theta phi lam => exact phases_flatMap fun t _ => by simp [generalParts]
  | rxx a | ryy a | rzz a | swap =>
    obtain ⟨i, j, rfl⟩ := length_eq_two.mp (hts rfl)
    simp [multiParts]
  | _ => simp [multiParts]

/-- **The parts of an operation add the phase that it adds.** -/
theorem phases_parts {o : Operation} (ho : o.Good n) (hpr : o.primitives? = none) : phases o.parts = o.phase := by
  obtain ⟨⟨hs, hn, hl⟩, hd⟩ := ho
  cases o with
  | identity ts => simp [parts]
  | of b r ps cs ts =>
    obtain ⟨hp, hcs, ht⟩ := hs
    have htwo : b.onTwo = true → ts.length = 2 := fun hb => by rwa [if_pos hb] at ht
    cases r with
    | plain =>
      subst hcs
      exact phases_plainParts hp htwo
    | controlled =>
      rw [parts]
      split
      · simp
      · rw [phases_controlledParts hp]
        cases b <;> rfl
    | multi =>
      rw [parts, phases_multiParts hp hcs htwo hn hl hd]
      cases b <;> rfl
  | ucr axis angles cs t => simp [parts]
  | pauliMultiplexor axis angles cs t =>
    have hdi := nodup_append.mp hn
    exact phases_simple (simple_rowParts hs (fun hm => hdi.2.2 t hm t (by simp) rfl)
      (fun c hc => hl c (mem_append_left _ hc)) (hl t (mem_append_right _ (by simp))))
  | diagonal zs qs => exact phases_diagonalParts (by simpa using hs.1)
  | globalPhase a => cases hpr

end QuantumCircuits.Operation

/-! ### Primitives -/

noncomputable section

namespace QuantumCircuits

open List Recording
open Primitive (angle)

namespace Operation

variable {o : Operation} {d d' : ℕ} {ps : List (Primitive ℝ)} {os : List Operation}

/-- The primitives that an operation comes down to, with the depth of definitions bounded. -/
def primsAt : ℕ → Operation → List (Primitive ℝ)
  | 0, _ => []
  | d + 1, o => match o.primitives? with
    | some ps => ps
    | none => o.parts.flatMap (primsAt d)

/-- The primitives that an operation comes down to. -/
def prims (o : Operation) : List (Primitive ℝ) := primsAt maxDepth o

variable {n : ℕ} {f : Operation → List (Primitive ℝ)}

lemma primsAt_eq (ho : o.Valid n) (hd : o.rank < d) (hd' : o.rank < d') : primsAt d o = primsAt d' o := by
  induction d generalizing o d' with
  | zero => omega
  | succ d ih =>
    obtain ⟨d', rfl⟩ := Nat.exists_eq_succ_of_ne_zero (by omega : d' ≠ 0)
    rw [primsAt, primsAt]
    cases o.primitives? with
    | some ps => rfl
    | none =>
      refine flatMap_congr fun p hp => ?_
      have hi := inside_parts ho p hp
      exact ih hi.valid (by have := hi.rank; omega) (by have := hi.rank; omega)

lemma keptAt_eq (ho : o.Valid n) (hd : o.rank < d) (hd' : o.rank < d') : keptAt d o = keptAt d' o := by
  induction d generalizing o d' with
  | zero => omega
  | succ d ih =>
    obtain ⟨d', rfl⟩ := Nat.exists_eq_succ_of_ne_zero (by omega : d' ≠ 0)
    rw [keptAt, keptAt]
    congr 2
    refine flatMap_congr fun p hp => ?_
    have hi := inside_parts ho p hp
    exact ih hi.valid (by have := hi.rank; omega) (by have := hi.rank; omega)

lemma rank_lt_maxDepth (o : Operation) : o.rank < maxDepth := by
  cases o with
  | of b r ps cs ts => cases b <;> cases r <;> simp [rank, maxDepth]
  | _ => simp [rank, maxDepth]

lemma inner_eq (ho : o.Valid n) (hd : o.rank < d + 1) :
    (if o.primitives?.isSome then [] else o.parts.flatMap (keptAt d)) = o.inner := by
  rw [inner]
  congr 1
  refine flatMap_congr fun p hp => ?_
  have hi := inside_parts ho p hp
  exact keptAt_eq hi.valid (by have := hi.rank; omega) p.rank_lt_maxDepth

lemma kept_eq (ho : o.Valid n) : o.kept = if o.isKept then [o] else o.inner := by
  rw [kept, maxDepth, keptAt, ← inner_eq ho o.rank_lt_maxDepth]

lemma primitives?_cases (ho : o.Shaped) (h : o.primitives? = some ps) :
    (∃ theta phi lam ts, o = general theta phi lam ts ∧ ps = ts.map (.u3 theta phi lam)) ∨
    (∃ c t, o = cx c t ∧ ps = [.cx c t]) ∨ ∃ a, o = .globalPhase a ∧ ps = [.phase a] := by
  cases o with
  | of b r angles cs ts =>
    obtain ⟨hp, hcs, ht⟩ := ho
    cases b <;> cases r <;> cases h
    · obtain rfl := length_eq_zero_iff.mp hp
      obtain ⟨c, rfl⟩ := length_eq_one_iff.mp hcs
      obtain ⟨t, rfl⟩ := length_eq_one_iff.mp (ht rfl)
      exact .inr (.inl ⟨c, t, rfl, rfl⟩)
    · subst hcs
      obtain ⟨theta, phi, lam, rfl⟩ := length_eq_three.mp hp
      exact .inl ⟨theta, phi, lam, ts, rfl, rfl⟩
  | globalPhase a =>
    cases h
    exact .inr (.inr ⟨a, rfl, rfl⟩)
  | _ => cases h

lemma run_primitives? (ho : o.Shaped) (h : o.primitives? = some ps) (V : Wave) : run ps V = o.act V := by
  obtain ⟨theta, phi, lam, ts, rfl, rfl⟩ | ⟨c, t, rfl, rfl⟩ | ⟨a, rfl, rfl⟩ :=
    primitives?_cases ho h
  · rw [act_plain rfl, run, foldl_map]; rfl
  · rw [run_cons, run_nil, act, Base.act_single rfl, Base.square_x]
    exact (congrFun (gated_select _) V).symm
  · rfl

lemma run_flatMap
    (h : ∀ o ∈ os, ∀ V, run (f o) V = o.act V) (V : Wave) : run (os.flatMap f) V = acts os V := by
  induction os generalizing V with
  | nil => rfl
  | cons o os ih =>
    rw [flatMap_cons, run_append, h o mem_cons_self, ih fun p hp => h p (mem_cons_of_mem _ hp), acts_cons]

/-- **The primitives of an operation do what it does.** -/
theorem run_primsAt (ho : o.Good n) (hd : o.rank < d) (V : Wave) : run (primsAt d o) V = o.act V := by
  induction d generalizing o V with
  | zero => omega
  | succ d ih =>
    rw [primsAt]
    cases h : o.primitives? with
    | some ps => exact run_primitives? ho.shaped h V
    | none =>
      refine (run_flatMap (fun p hp W => ?_) V).trans (acts_parts ho h V)
      have hr := (inside_parts ho.toValid p hp).rank
      exact ih (ho.parts p hp) (by omega) W

lemma run_prims (ho : o.Good n) (V : Wave) : run o.prims V = o.act V := run_primsAt ho o.rank_lt_maxDepth V

lemma run_prims_parts (ho : o.Valid n) (hpr : o.primitives? = none)
    (hpa : ∀ p ∈ o.parts, p.Good n) (V : Wave) : run o.prims V = acts o.parts V := by
  rw [prims, maxDepth, primsAt, hpr]
  refine run_flatMap (fun p hp W => run_primsAt (hpa p hp) ?_ W) V
  have hr := (inside_parts ho p hp).rank
  have hd := o.rank_lt_maxDepth
  rw [maxDepth] at hd
  omega

lemma within_primsAt (ho : o.Valid n) (d : ℕ) : ∀ p ∈ primsAt d o, p.Within n := by
  induction d generalizing o with
  | zero => simp [primsAt]
  | succ d ih =>
    rw [primsAt]
    cases h : o.primitives? with
    | some ps =>
      obtain ⟨hs, hn, hl⟩ := ho
      obtain ⟨theta, phi, lam, ts, rfl, rfl⟩ | ⟨c, t, rfl, rfl⟩ | ⟨a, rfl, rfl⟩ :=
        primitives?_cases hs h
      · intro p hp; obtain ⟨t, ht, rfl⟩ := mem_map.mp hp; exact hl t ht
      · refine forall_mem_singleton.mpr ⟨hl c (by simp [qubits]), hl t (by simp [qubits]), ?_⟩
        simpa [qubits] using hn
      · exact forall_mem_singleton.mpr trivial
    | none =>
      intro p hp
      obtain ⟨o', ho', hp⟩ := mem_flatMap.mp hp
      exact ih (inside_parts ho o' ho').valid p hp

def angleSum (ps : List (Primitive ℝ)) : ℝ := (ps.map angle).sum

@[simp] lemma angleSum_nil : angleSum [] = 0 := rfl

@[simp] lemma angleSum_append (ps qs : List (Primitive ℝ)) : angleSum (ps ++ qs) = angleSum ps + angleSum qs := by
  simp [angleSum]

lemma angleSum_flatMap
    (h : ∀ o ∈ os, angleSum (f o) = o.phase) : angleSum (os.flatMap f) = phases os := by
  induction os with
  | nil => rfl
  | cons o os ih =>
    rw [flatMap_cons, angleSum_append, h o mem_cons_self, ih fun p hp => h p (mem_cons_of_mem _ hp), phases_cons]

/-- **The primitives of an operation add the phase that it adds.** -/
theorem angleSum_primsAt (ho : o.Good n) (hd : o.rank < d) : angleSum (primsAt d o) = o.phase := by
  induction d generalizing o with
  | zero => omega
  | succ d ih =>
    rw [primsAt]
    cases h : o.primitives? with
    | some ps =>
      obtain ⟨theta, phi, lam, ts, rfl, rfl⟩ | ⟨c, t, rfl, rfl⟩ | ⟨a, rfl, rfl⟩ :=
        primitives?_cases ho.shaped h
      · simp [angleSum, angle, phase, Function.comp_def]
      · simp [angleSum, angle, phase]
      · simp [angleSum, angle, phase]
    | none =>
      refine (angleSum_flatMap fun p hp => ?_).trans (phases_parts ho h)
      have hr := (inside_parts ho.toValid p hp).rank
      exact ih (ho.parts p hp) (by omega)

end Operation

end QuantumCircuits

end

/-! ### Adjoint

What undoes operations is their adjoint.  The matrix of what acts on one qubit has an entry for two numbers
only where these agree on all other qubits (`matrixOf_select`), so its adjoint acts on the same qubit by the
adjoint matrices.  Every primitive is undone by its adjoint (`Primitive.matrixOf_inverse`), and so is what
operations come down to (`Operation.matrixOf_acts_inverse`).
-/

namespace QuantumCircuits

open Matrix List Primitive
open Function (update_self update_of_ne update)

variable {n : ℕ}
variable {t : ℕ} {ps : List (Primitive ℝ)}

/-! ### One qubit -/

lemma basisWave_update (ht : t < n) (i j : Fin (2 ^ n)) (y : Bool) : basisWave n j (update (bits i) t y) =
      if (∀ q < n, q ≠ t → bits i q = bits j q) ∧ y = bits j t then 1 else 0 := by
  refine if_congr ⟨fun h => ⟨fun q hq hqt => ?_, ?_⟩, fun h q hq => ?_⟩ rfl rfl
  · exact (update_of_ne hqt y (bits i)).symm.trans (h q hq)
  · exact (update_self t y (bits i)).symm.trans (h t ht)
  · rcases eq_or_ne q t with rfl | hqt
    · exact (update_self q y (bits i)).trans h.2
    · exact (update_of_ne hqt y (bits i)).trans (h.1 q hq hqt)

lemma matrixOf_select (ht : t < n) (M : Register → Square) (i j : Fin (2 ^ n)) : matrixOf n (select t M) i j =
      if ∀ q < n, q ≠ t → bits i q = bits j q then M (bits i) (bits i t) (bits j t) else 0 := by
  rw [matrixOf, select, basisWave_update ht, basisWave_update ht]
  cases bits j t <;> simp

lemma adjoint_select (ht : t < n) {M : Register → Square} (hM : Blind t M) :
    matrixOf n (select t fun b => (M b)ᴴ) = (matrixOf n (select t M))ᴴ := by
  ext i j
  rw [conjTranspose_apply, matrixOf_select ht, matrixOf_select ht]
  by_cases h : ∀ q < n, q ≠ t → bits i q = bits j q
  · have hbi : update (bits i) t (bits j t) = bits j := by
      funext q
      rcases eq_or_ne q t with rfl | hqt
      · exact update_self q _ _
      · rw [update_of_ne hqt]
        rcases lt_or_ge q n with hq | hq
        · exact h q hq hqt
        · have hp : 2 ^ n ≤ 2 ^ q := Nat.pow_le_pow_right two_pos hq
          rw [bits, bits, Nat.testBit_lt_two_pow (i.isLt.trans_le hp), Nat.testBit_lt_two_pow (j.isLt.trans_le hp)]
    have hs : M (bits j) = M (bits i) := (congrArg M hbi).symm.trans (hM _ _)
    rw [if_pos h, if_pos fun q hq hqt => (h q hq hqt).symm, hs, conjTranspose_apply]
  · rw [if_neg h, if_neg fun h' => h fun q hq hqt => (h' q hq hqt).symm, star_zero]

/-! ### Primitives -/

lemma adjoint_u3 (theta phi lam : ℝ) : Base.u3.square [-theta, -lam, -phi] = (Base.u3.square [theta, phi, lam])ᴴ := by
  rw [Base.square_u3, Base.square_u3, square_conjTranspose, square_inj, neg_div, Real.cos_neg, Real.sin_neg]
  simp only [map_neg, map_mul, Complex.conj_ofReal, Operation.conj_exp_angle]
  refine ⟨trivial, ?_, ?_, ?_⟩
  · push_cast; ring
  · push_cast; ring
  · rw [neg_add, add_comm (-lam)]

namespace Primitive

lemma matrixOf_inverse {p : Primitive ℝ} (hp : p.Within n) : matrixOf n p.inverse.act = (matrixOf n p.act)ᴴ := by
  cases p with
  | u3 theta phi lam q =>
    refine Eq.trans ?_ (adjoint_select hp (blind_const q _))
    exact congrArg (matrixOf n) (select_congr fun _ => adjoint_u3 theta phi lam)
  | cx c t =>
    obtain ⟨-, ht, hct⟩ := hp
    refine Eq.trans ?_ (adjoint_select ht (blind_under (by simpa using hct.symm) _))
    refine congrArg (matrixOf n) (select_congr fun b => ?_)
    rw [under]
    split
    · rw [flipSquare, square_conjTranspose]; simp
    · exact conjTranspose_one.symm
  | phase t =>
    change matrixOf n (fun V => _ • id V) = (matrixOf n fun V => _ • id V)ᴴ
    rw [matrixOf_smul, matrixOf_smul, matrixOf_id, conjTranspose_smul, conjTranspose_one]
    exact congrArg (· • _) (Operation.conj_exp_angle t).symm
  | measure q | reset q =>
    change matrixOf n id = (matrixOf n id)ᴴ
    rw [matrixOf_id, conjTranspose_one]

end Primitive

lemma Primitive.local_inverses (hps : ∀ p ∈ ps, p.Within n) : Local n (run (ps.reverse.map inverse)) :=
  local_run (forall_mem_map.mpr fun p hp => (hps p (mem_reverse.mp hp)).inverse)

lemma matrixOf_run_inverse (hps : ∀ p ∈ ps, p.Within n) :
    matrixOf n (run (ps.reverse.map inverse)) = (matrixOf n (run ps))ᴴ := by
  induction ps with
  | nil =>
    change matrixOf n id = (matrixOf n id)ᴴ
    rw [matrixOf_id, conjTranspose_one]
  | cons p ps ih =>
    obtain ⟨hp, hps⟩ := forall_mem_cons.mp hps
    calc matrixOf n (run ((p :: ps).reverse.map inverse))
        = matrixOf n (fun V => p.inverse.act (run (ps.reverse.map inverse) V)) := by
          rw [reverse_cons, map_append]
          exact congrArg (matrixOf n) (funext fun V => run_append _ _ V)
      _ = (matrixOf n p.act)ᴴ * (matrixOf n (run ps))ᴴ := by
          rw [matrixOf_comp (local_act hp.inverse), matrixOf_inverse hp, ih hps]
      _ = (matrixOf n (run (p :: ps)))ᴴ := by rw [← conjTranspose_mul, ← matrixOf_comp (local_run hps)]; rfl

/-! ### Operations -/

namespace Operation

variable {os : List Operation} (hos : ∀ o ∈ os, o.Good n)
include hos

lemma within_flatMap_prims : ∀ p ∈ os.flatMap prims, p.Within n := fun p hp => by
  obtain ⟨o, ho, hp⟩ := mem_flatMap.mp hp; exact within_primsAt (hos o ho).toValid _ p hp

lemma run_flatMap_prims : run (os.flatMap prims) = acts os :=
  funext fun V => run_flatMap (fun o ho => run_prims (hos o ho)) V

lemma local_acts : Local n (acts os) := run_flatMap_prims hos ▸ local_run (within_flatMap_prims hos)

/-- **What undoes operations is their adjoint.** -/
theorem matrixOf_acts_inverse : matrixOf n (acts (os.reverse.map inverse)) = (matrixOf n (acts os))ᴴ := by
  have hl : Local n (acts (os.reverse.map inverse)) :=
    local_acts (forall_mem_map.mpr fun o ho => (hos o (mem_reverse.mp ho)).inverse)
  have hle : matrixOf n (acts (os.reverse.map inverse)) * matrixOf n (acts os) = 1 := by
    rw [← matrixOf_comp hl, ← matrixOf_id]
    exact congrArg (matrixOf n) (funext fun V => acts_inverse (fun o ho => (hos o ho).toValid) V)
  have ha : (matrixOf n (acts os))ᴴ * matrixOf n (acts os) = 1 := by
    have hw := within_flatMap_prims hos
    rw [← run_flatMap_prims hos, ← matrixOf_run_inverse hw, ← matrixOf_comp (local_inverses hw), ← matrixOf_id]
    exact congrArg (matrixOf n) (funext (run_inverse hw))
  exact left_inv_eq_right_inv hle (mul_eq_one_comm.mp ha)

end Operation

end QuantumCircuits
