import QuantumCircuits.Proofs.Log.Moved

/-!
# Log — Control

Putting a circuit under control.  The entries of the log are performed again on a larger circuit, each as
the gate with more controls: `Circuit.operandsUnder` moves its qubits up and puts the new controls before
its own (`Circuit.exists_operandsUnder`), so that the entry stands for `Operation.guarded`.  Entries of
identities, of rotations by selected angles and of diagonals have no such gate, and end in a fault.

A circuit whose entries all have one is put under control up to the phases that its gates bring along
(`Circuit.control_applies`).
-/

/-! ### Guarded

Operations under the control of the first `k` qubits, with their own qubits behind these
(`Operation.guarded`).  `Operation.underControl` is what a circuit of operations comes to when it is put
under control: the gates that its log keeps, without phases on their own, each under the controls, and one
phase of the controls for the phase that the circuit has added up.

Powers of negations add a phase for good, and are logged as gates that bring this phase along.  So it comes
twice, once under the controls and once in the sum: `Operation.acts_underControl` says what is put under
control, and `Operation.ownPhases` what is too much.
-/

noncomputable section

namespace QuantumCircuits

open Real List Complex

variable {n k : ℕ}

/-! ### Gates on later qubits -/

namespace Base

lemma onLater_coupled (P : Square) (a : ℝ) (i j : ℕ) : onLater k (coupled P a i j) = coupled P a (i + k) (j + k) := by
  funext V b
  have hi := onLater_select (k := k) i fun _ => P
  have hj := onLater_select (k := k) j fun _ => P
  have hp : onLater k (fun V => select i (fun _ => P) (select j (fun _ => P) V)) V b =
      select (i + k) (fun _ => P) (select (j + k) (fun _ => P) V) b := by
    rw [← onLater_comp, hi, hj]
  have hs : V (join k b (later k b)) = V b := by rw [join_later]
  simp only [onLater, coupled, Pi.sub_apply, Pi.smul_apply, hs] at hp ⊢
  rw [hp]

lemma onLater_exchange (i j : ℕ) : onLater k (exchange i j) = exchange (i + k) (j + k) := by
  funext V b
  have hj := update_join (k := k) b (Function.update (later k b) i (later k b j)) j (later k b i)
  rw [← update_join, join_later] at hj
  simp only [onLater, exchange, ← hj]
  rfl

lemma onLater_act (b : Base) (ps : List ℝ) (ts : List ℕ) : onLater k (b.act ps ts) = b.act ps (ts.map (· + k)) := by
  have hp := onLater_selectEach (k := k) ts (b.square ps)
  cases b with
  | rxx | ryy | rzz =>
    rcases ps with _ | ⟨a, _ | ⟨a', ps⟩⟩ <;> rcases ts with _ | ⟨i, _ | ⟨j, _ | ⟨l, ts⟩⟩⟩ <;>
      first | exact hp | exact onLater_coupled _ a i j
  | swap =>
    rcases ts with _ | ⟨i, _ | ⟨j, _ | ⟨l, ts⟩⟩⟩ <;> first | exact hp | exact onLater_exchange i j
  | _ => exact hp

end Base

namespace Operation

variable {o : Operation} {os : List Operation}

/-- The operation under the control of `k` qubits, with its own qubits behind them. -/
def guarded (k : ℕ) : Operation → Operation
  | .of b _ ps cs ts => .of b .multi ps (range k ++ cs.map (· + k)) (ts.map (· + k))
  | o => o

lemma act_guarded (b : Base) (r : Reach) (ps : List ℝ) (cs ts : List ℕ) : ((of b r ps cs ts).guarded k).act =
      gated (allOn (range k)) (onLater k (of b r ps cs ts).act) := by
  change gated (allOn (range k ++ cs.map (· + k))) (b.act ps (ts.map (· + k))) = _
  rw [gated_allOn_append, ← Base.onLater_act, ← onLater_gated]
  rfl

lemma Valid.guarded {b : Base} {r : Reach} {ps : List ℝ} {cs ts : List ℕ}
    (h : (of b r ps cs ts).Valid n) (hk : 1 ≤ k) : ((of b r ps cs ts).guarded k).Valid (n + k) where
  shaped := by
    obtain ⟨hp, -, ht⟩ := h.shaped
    refine ⟨hp, .inl ?_, ?_⟩
    · simp [Nat.one_le_iff_ne_zero.mp hk]
    · split
      · next hb => simpa [hb] using ht
      · exact fun hr => by cases hr
  nodup := by
    have hqs : (range k ++ (cs ++ ts).map (· + k)).Nodup := by
      refine Nodup.append nodup_range (h.nodup.map fun _ _ => Nat.add_right_cancel) ?_
      intro q hq hq'
      obtain ⟨q', -, rfl⟩ := mem_map.mp hq'
      have := mem_range.mp hq
      omega
    simpa [Operation.guarded, qubits] using hqs
  lt := by
    intro q hq
    have hm : q ∈ range k ++ (cs ++ ts).map (· + k) := by simpa [Operation.guarded, qubits] using hq
    rcases mem_append.mp hm with hq | hq
    · have := mem_range.mp hq
      omega
    · obtain ⟨q', hq', rfl⟩ := mem_map.mp hq
      have := h.lt q' hq'
      omega

/-- The gate has a form under controls, or is a phase on its own. -/
def Controllable (o : Operation) : Prop := (∃ b r, o.gate = .of b r) ∨ o.gate = .globalPhase

def phaseUnder (k : ℕ) (a : ℝ) : Operation := .of .phase (if k = 1 then .plain else .multi) [a] (range (k - 1)) [k - 1]

/-! ### Phases -/

def ownPhases (os : List Operation) : ℝ := (os.map ownPhase).sum

def bareAngle : Operation → ℝ
  | .globalPhase a => a
  | _ => 0

lemma phase_eq (o : Operation) : o.phase = o.ownPhase + o.bareAngle := by
  cases o <;> simp [ownPhase, bareAngle, phase]

lemma ownPhase_of_not_kept (h : o.isKept = false) : o.ownPhase = 0 := by
  cases o with
  | of b r ps cs ts => cases r <;> cases b <;> first | rfl | cases h
  | diagonal zs qs => cases h
  | _ => rfl

lemma sum_map_flatMap {f : Operation → List Operation} {w : Operation → ℝ}
    (h : ∀ o ∈ os, ((f o).map w).sum = w o) : ((os.flatMap f).map w).sum = (os.map w).sum := by
  induction os with
  | nil => rfl
  | cons o os ih =>
    rw [flatMap_cons, map_append, sum_append, h o mem_cons_self,
      ih fun p hp => h p (mem_cons_of_mem _ hp), map_cons, sum_cons]

lemma sums_kept (h : Readable n Settled o) :
    (o.kept.map phase).sum = o.phase ∧ (o.kept.map ownPhase).sum = o.ownPhase := by
  -- by recursion on the definition of the operation, for what is left out
  induction hr : o.rank using Nat.strong_induction_on generalizing o with
  | _ m ih =>
    rw [kept_eq h.good.toValid]
    cases hk : o.isKept with
    | true => simp
    | false =>
      rw [if_neg (by simp), inner, ownPhase_of_not_kept hk]
      cases hpr : o.primitives? with
      | some ps =>
        refine ⟨?_, rfl⟩
        rcases primitives?_cases h.good.shaped hpr with ⟨theta, phi, lam, ts, rfl, -⟩ |
          ⟨c, t, rfl, -⟩ | ⟨a, rfl, -⟩
        · rfl
        · rfl
        · have hze : snap a = 0 := by simpa [isKept, gate, Gate.isTransparent, vanishes] using hk
          rw [(h.angles a (by simp [angles])).snap] at hze
          simp [phase, hze]
      | none =>
        have hpa : ∀ p ∈ o.parts, (p.kept.map phase).sum = p.phase ∧
            (p.kept.map ownPhase).sum = p.ownPhase := fun p hp =>
          ih p.rank (hr ▸ (inside_parts h.good.toValid p hp).rank) (h.parts (angleClass_settled n) hk p hp) rfl
        simp only [Option.isSome_none, Bool.false_eq_true, if_false]
        rw [sum_map_flatMap fun p hp => (hpa p hp).1, sum_map_flatMap fun p hp => (hpa p hp).2]
        refine ⟨phases_parts h.good hpr, sum_eq_zero ?_⟩
        exact forall_mem_map.mpr fun p hp => (solid_parts h.good.toValid p hp).2

lemma bareAngles_kept (h : ∀ o ∈ os, Readable n Settled o) :
    ((os.flatMap kept).map bareAngle).sum + ownPhases os = phases os := by
  have hs : ∀ o ∈ os, _ := fun o ho => sums_kept (h o ho)
  have hp : ((os.flatMap kept).map phase).sum = phases os := sum_map_flatMap fun o ho => (hs o ho).1
  have how : ((os.flatMap kept).map ownPhase).sum = ownPhases os := sum_map_flatMap fun o ho => (hs o ho).2
  have hsp : phase = fun o => bareAngle o + ownPhase o := funext fun o => by rw [phase_eq, add_comm]
  rw [← hp, ← how, hsp, sum_map_add]

lemma acts_eq_smul (h : ∀ o ∈ os, o.Good n) (V : Wave) : acts os V = exp ((os.map bareAngle).sum * I) •
      acts (os.filter fun o => o.gate ≠ .globalPhase) V := by
  induction os generalizing V with
  | nil => simp
  | cons o os ih =>
    obtain ⟨-, ho⟩ := forall_mem_cons.mp h
    rw [acts_cons, ih ho, map_cons, sum_cons]
    cases o with
    | globalPhase a =>
      have hfi : ∀ p ∈ os.filter fun o => o.gate ≠ .globalPhase, p.Good n := fun p hp =>
        ho p (mem_of_mem_filter hp)
      rw [filter_cons_of_neg (by simp [gate]), act_globalPhase, acts_smul hfi, smul_smul, ← Complex.exp_add]
      congr 2
      simp only [bareAngle]
      push_cast
      ring
    | _ =>
      rw [filter_cons_of_pos (by simp [gate]), acts_cons]
      simp [bareAngle]

lemma acts_guarded (h : ∀ o ∈ os, ∃ b r ps cs ts, o = of b r ps cs ts) (V : Wave) :
    acts (os.map (guarded k)) V = gated (allOn (range k)) (onLater k (acts os)) V := by
  induction os generalizing V with
  | nil =>
    have hn : onLater k (acts []) = id := onLater_id
    rw [hn, gated_id]
    rfl
  | cons o os ih =>
    obtain ⟨⟨b, r, ps, cs, ts, rfl⟩, ho⟩ := forall_mem_cons.mp h
    rw [map_cons, acts_cons, ih ho, act_guarded, gated_onLater_comp]
    rfl

lemma acts_guarded_phase (hk : 1 ≤ k)
    (h : ∀ o ∈ os, ∃ b r ps cs ts, o = of b r ps cs ts) (g : ℝ) (V : Wave) : acts (os.map (guarded k) ++ if g = 0 then [] else [phaseUnder k g]) V =
      gated (allOn (range k)) (onLater k fun V => exp (g * I) • acts os V) V := by
  rw [acts_append, acts_guarded h]
  by_cases hg : g = 0
  · simp [hg]
  · have hr : range k = range (k - 1) ++ [k - 1] := by
      rw [← range_succ, Nat.succ_eq_add_one, Nat.sub_add_cancel hk]
    rw [if_neg hg, acts_cons, acts_nil, hr]
    exact act_phase_gated g (k - 1) (range (k - 1)) _ V

lemma exists_of_controllable (h : o.Controllable) (hg : o.gate ≠ .globalPhase) :
    ∃ b r ps cs ts, o = of b r ps cs ts := by
  rcases h with ⟨b, r, hb⟩ | hb
  · cases o <;> cases hb
    exact ⟨_, _, _, _, _, rfl⟩
  · exact absurd hb hg

/-! ### What is put under control -/

section Settled

variable (hgood : ∀ o ∈ os, o.Good n) (hangles : ∀ o ∈ os, ∀ x ∈ o.angles, Settled x)

/-- The gates that are logged, without phases on their own, under the control of the first `k` qubits, and
the phase of the circuit. -/
def underControl (k : ℕ) (os : List Operation) : List Operation :=
  ((os.flatMap kept).filter fun o => o.gate ≠ .globalPhase).map (guarded k) ++
    if phases os = 0 then [] else [phaseUnder k (phases os)]

include hgood hangles

lemma snapped_of_mem_flatMap_kept : ∀ p ∈ os.flatMap kept, p.snapped = p := by
  intro p hp
  obtain ⟨o, ho, hp⟩ := mem_flatMap.mp hp
  obtain ⟨hp, hk, -⟩ := (readable_of_settled hgood hangles o ho).of_mem_kept (angleClass_settled n) hp
  exact snapped_of_settled hp.angles hk

/-- **What is put under control**: the operations, with the phases that gates bring along counted twice. -/
theorem acts_underControl (hk : 1 ≤ k) (h : ∀ p ∈ os.flatMap kept, p.Controllable) (V : Wave) :
    acts (underControl k os) V = gated (allOn (range k))
      (onLater k fun V => Complex.exp (ownPhases os * Complex.I) • acts os V) V := by
  have hs := snapped_of_mem_flatMap_kept hgood hangles
  have hke : ∀ p ∈ os.flatMap kept, p.Good n := fun p hp =>
    hs p hp ▸ (of_mem_flatMap_kept hgood hangles p hp).1
  have ha : ∀ V, acts os V = acts (os.flatMap kept) V := fun V => by
    rw [← acts_kept hgood hangles V, map_congr_left hs, map_id']
  have ho : ∀ p ∈ (os.flatMap kept).filter fun o => o.gate ≠ .globalPhase,
      ∃ b r ps cs ts, p = of b r ps cs ts := fun p hp => by
    obtain ⟨hp, hg⟩ := mem_filter.mp hp
    exact exists_of_controllable (h p hp) (of_decide_eq_true hg)
  have hph := bareAngles_kept (readable_of_settled hgood hangles)
  rw [underControl, acts_guarded_phase hk ho, ← hph]
  congr 2
  funext V
  rw [ha, acts_eq_smul hke, smul_smul, ← Complex.exp_add]
  push_cast
  ring_nf

end Settled

end Operation

/-! ### Control -/

open Operation Slot
open Operand (int truthy toInt?)
open Prod (fst snd)

/-! ### Entries under controls -/

namespace Circuit

open Change (Fails fails_bind fails_forM fails_ofOutcome)

variable {x y : Operand ℝ} {qs own ts : List ℕ} {key key' : Key} {vs xs us : Operands ℝ} {q : ℕ} {p : Key × Operand ℝ}
  {os : List Operation} {r : Reach} {b : Base} {e : Entry ℝ} {c : Circuit ℝ} {es : List (Entry ℝ)}

/-- A qubit behind `k` others. -/
def raised (k q : ℕ) : Operand ℝ := .int (q + k : ℕ)

lemma looksUp_raise (n k : ℕ) : LooksUp n (raise k) (raised k) where
  index {x q} h := by
    obtain ⟨hi, hq, -⟩ := h
    cases x with
    | int i | bool b =>
      rw [raise, hq]
      simp [raised]
    | _ => cases hi
  list {xs qs} h := by
    have hm : xs.mapM (fun i : Operand ℝ => i.sum (.int k)) = .ok (qs.map (raised k)) :=
      mapM_of_forall₂ h fun x q hx => by
        have hk : (int k : Operand ℝ).toInt? = some (k : Int) := rfl
        simp only [Operand.sum, hx.toInt?, hk]
        rfl
    simp [raise, Operand.items, hm, bind, Except.bind]

lemma isQubit_raised (hq : q < n) (k : ℕ) : (raised k q).IsQubit (n + k) (q + k) :=
  isQubit_int (Nat.add_lt_add_right hq k)

/-- The controls of a gate after they were moved up, if it has any. -/
def HasRaised (n k : ℕ) (args : Operands ℝ) (own : List ℕ) : Prop :=
  args.lookup .controlIndices = none ∧ own = [] ∨
    ∃ x, x.IsChecked n own ∧ args.lookup .controlIndices = some (Operand.placed (raised k) x)

lemma operandsUnder_eq {args args' : Operands ℝ} (h : args.mapM (operandUnder k) = .ok args')
    (hk : k < 2 ^ 63) (ho : HasRaised n k args' own) :
    operandsUnder k args = .ok (args'.filter (fun p => p.1 ≠ .controlIndices) ++
      [(.controlIndices, .list ((range k ++ own.map (· + k)).map fun q : ℕ => .int q))]) := by
  have hl : ¬ (2 : Int) ^ 63 ≤ (k : Int) := by
    push Not
    exact_mod_cast hk
  rw [operandsUnder, h]
  simp only [bind, Except.bind, if_neg hl]
  rcases ho with ⟨hn, rfl⟩ | ⟨x, hx, hs⟩
  · simp [hn, firstNumbers]
  obtain ⟨q, rfl, he⟩ | ⟨-, he⟩ := hx.placed_eq (raised k)
  · simp [hs, he, firstNumbers, raised, toInt?]
  · have hlt : ∀ q : ℕ, ¬ (q : Int) < 0 := fun q => by omega
    simp [hs, he, firstNumbers, filter_map, Function.comp_def, raised, toInt?, hlt]

lemma operandUnder_qubit (hke : key.isQubit = true)
    (hu : key.underControl? = some key') (hx : x.IsChecked n qs) :
    operandUnder k (key, x) = .ok (key', x.placed (raised k)) := by
  simp only [operandUnder, hke, if_true, hu, (looksUp_raise n k).checked hx]
  rfl

lemma mapM_operandUnder_parameters (h : ∀ p ∈ xs, p.1.isQubit = false) : xs.mapM (operandUnder k) = .ok xs := by
  refine (mapM_ok fun p hp => ?_).trans (by rw [map_id])
  rw [operandUnder, h p hp]
  rfl

lemma exists_controlsUnder {cs : List ℕ} (hke : us.map fst = controlKeys r)
    (hs : Forall₂ (Checked n) (r.slots cs) (us.map snd)) (hp : r = .plain → cs = [])
    (ho : r = .controlled → cs.length = 1) :
    ∃ us', us.mapM (operandUnder k) = .ok us' ∧ HasRaised n k us' cs ∧ ∀ p ∈ us', p.1 = .controlIndices := by
  have hr : ∀ key x, key.isQubit = true → key.underControl? = some .controlIndices → x.IsChecked n cs →
      ∃ us', [(key, x)].mapM (operandUnder k) = .ok us' ∧ HasRaised n k us' cs ∧ ∀ p ∈ us', p.1 = .controlIndices := by
    intro key x hke hu hx
    refine ⟨[(.controlIndices, x.placed (raised k))], ?_, .inr ⟨x, hx, rfl⟩, by simp⟩
    rw [mapM_cons, operandUnder_qubit hke hu hx]
    rfl
  cases r with
  | plain =>
    obtain rfl := map_eq_nil_iff.mp hke
    exact ⟨[], rfl, .inl ⟨rfl, hp rfl⟩, by simp⟩
  | controlled =>
    obtain ⟨c, rfl⟩ := length_eq_one_iff.mp (ho rfl)
    obtain ⟨⟨key, x⟩, rfl, rfl⟩ := map_eq_singleton_iff.mp hke
    exact hr _ x rfl rfl (.one (forall₂_cons.mp hs).1)
  | multi =>
    obtain ⟨⟨key, x⟩, rfl, rfl⟩ := map_eq_singleton_iff.mp hke
    exact hr _ x rfl rfl (forall₂_cons.mp hs).1

lemma exists_targetUnder (hke : key.isQubit = true)
    (hu : key.underControl? = some .targetIndices) (hx : x.IsChecked n ts) :
    ∃ vs', [(key, x)].mapM (operandUnder k) = .ok vs' ∧ vs'.map fst = [.targetIndices] ∧
      Forall₂ (Means (n + k)) [.qubits (ts.map (· + k))] (vs'.map snd) := by
  refine ⟨[(.targetIndices, x.placed (raised k))], ?_, rfl,
    .cons (hx.placed fun q hq => isQubit_raised (hx.lt q hq) k) .nil⟩
  rw [mapM_cons, operandUnder_qubit hke hu hx]
  rfl

lemma exists_targetsUnder_two {i j : ℕ} (hke : key.isQubit = true)
    (hke' : key'.isQubit = true) (hu : key.underControl? = some .firstTarget)
    (hu' : key'.underControl? = some .secondTarget) (hx : x.IsIndex n i) (hy : y.IsIndex n j) :
    ∃ vs', [(key, x), (key', y)].mapM (operandUnder k) = .ok vs' ∧ vs'.map fst = [.firstTarget, .secondTarget] ∧
      Forall₂ (Means (n + k)) [.qubit (i + k), .qubit (j + k)] (vs'.map snd) := by
  refine ⟨[(.firstTarget, raised k i), (.secondTarget, raised k j)], ?_, rfl,
    .cons (isQubit_raised hx.lt k) (.cons (isQubit_raised hy.lt k) .nil)⟩
  rw [mapM_cons, operandUnder_qubit hke hu (.one hx), hx.placed, mapM_cons,
    operandUnder_qubit hke' hu' (.one hy), hy.placed]
  rfl

lemma exists_targetsUnder (hke : vs.map fst = targetKeys b r)
    (hs : Forall₂ (Checked n) (b.targetSlots r ts) (vs.map snd))
    (hsh : if b.onTwo then ts.length = 2 else r = .controlled → ts.length = 1) :
    ∃ vs', vs.mapM (operandUnder k) = .ok vs' ∧ vs'.map fst = targetKeys b .multi ∧
      Forall₂ (Means (n + k)) (b.targetSlots .multi (ts.map (· + k))) (vs'.map snd) := by
  cases htwo : b.onTwo with
  | true =>
    simp only [htwo, if_true, targetKeys, Base.targetSlots] at hke hs hsh ⊢
    obtain ⟨i, j, rfl⟩ := length_eq_two.mp hsh
    have hke' : ∃ key key', vs.map fst = [key, key'] ∧ key.isQubit = true ∧ key'.isQubit = true ∧
        key.underControl? = some .firstTarget ∧ key'.underControl? = some .secondTarget := by
      cases r <;> exact ⟨_, _, hke, rfl, rfl, rfl, rfl⟩
    obtain ⟨key, key', hke, hky, hky', hu, hu'⟩ := hke'
    obtain ⟨⟨key, x⟩, ws, rfl, rfl, hw⟩ := map_eq_cons_iff.mp hke
    obtain ⟨⟨key', y⟩, rfl, rfl⟩ := map_eq_singleton_iff.mp hw
    obtain ⟨hx, hr⟩ := forall₂_cons.mp hs
    exact exists_targetsUnder_two hky hky' hu hu' hx (forall₂_cons.mp hr).1
  | false =>
    simp only [htwo, Bool.false_eq_true, if_false, targetKeys, Base.targetSlots] at hke hs hsh ⊢
    have hke' : ∃ key, vs.map fst = [key] ∧ key.isQubit = true ∧ key.underControl? = some .targetIndices := by
      cases r <;> exact ⟨_, hke, rfl, rfl⟩
    obtain ⟨key, hke, hky, hu⟩ := hke'
    obtain ⟨⟨key, x⟩, rfl, rfl⟩ := map_eq_singleton_iff.mp hke
    refine exists_targetUnder hky hu ?_
    cases r with
    | plain | multi => exact (forall₂_cons.mp hs).1
    | controlled =>
      obtain ⟨t, rfl⟩ := length_eq_one_iff.mp (hsh rfl)
      exact .one (forall₂_cons.mp hs).1

lemma means_of_checked {ps : List ℝ} {xs : List (Operand ℝ)} (h : Forall₂ (Checked n) (b.slots ps) xs) (m : ℕ) :
    Forall₂ (Means m) (b.slots ps) xs := by
  have hsl : ∀ s ∈ b.slots ps, ∀ x, s.Checked n x → s.Means m x := by
    intro s hs x hx
    cases b with
    | rx | ry | rz | phase | rxx | ryy | rzz =>
      obtain rfl := mem_singleton.mp hs
      exact hx
    | u3 =>
      obtain rfl := mem_singleton.mp hs
      obtain ⟨xs, rfl, hxs⟩ := hx
      exact hxs
    | xPow | yPow | zPow =>
      rcases mem_cons.mp hs with rfl | hs
      · exact hx
      · obtain rfl := mem_singleton.mp hs; exact hx
    | _ => cases hs
  exact ((forall₂_and_left _ _).mpr ⟨hsl, h⟩).imp fun s x hx => hx.1 x hx.2

lemma lookup_swap (h : p.1 ∉ vs.map fst) (xs : Operands ℝ) (key : Key) :
    (xs ++ vs ++ [p]).lookup key = (xs ++ p :: vs).lookup key := by
  obtain ⟨key', x⟩ := p
  by_cases hke : key = key'
  · subst hke; simp [lookup_append, lookup_eq_none h]
  · simp [lookup_append, lookup_cons, beq_eq_false_iff_ne.mpr hke]

lemma bind_swap (g : Gate) (h : p.1 ∉ vs.map fst) (xs : Operands ℝ) :
    g.bind (xs ++ vs ++ [p]) = g.bind (xs ++ p :: vs) := by
  have hp : Gate.pick (xs ++ vs ++ [p]) = Gate.pick (xs ++ p :: vs) := by
    funext key; rw [Gate.pick, Gate.pick, lookup_swap h]
  have ha : ∀ f : Key × Operand ℝ → Bool, (xs ++ vs ++ [p]).any f = (xs ++ p :: vs).any f := by
    intro f; simp [Bool.or_comm]
  rw [Gate.bind, Gate.bind, hp, ha]

lemma isQubit_parameters (b : Base) : ∀ key ∈ b.parameters, key.isQubit = false := by
  cases b <;> decide

lemma controlIndices_not_mem_targetKeys (b : Base) : Key.controlIndices ∉ targetKeys b .multi := by
  cases b <;> decide

lemma HasRaised.append (h : HasRaised n k us own)
    (hxs : Key.controlIndices ∉ xs.map fst) (hv : Key.controlIndices ∉ vs.map fst) :
    HasRaised n k (xs ++ (us ++ vs)) own := by
  have hl : (xs ++ (us ++ vs)).lookup .controlIndices = us.lookup .controlIndices := by
    rw [lookup_append, lookup_append, lookup_eq_none hxs, lookup_eq_none hv, Option.none_or, Option.or_none]
  rwa [HasRaised, hl]

lemma filter_ne_self (h : key ∉ xs.map fst) : (xs.filter fun p => p.1 ≠ key) = xs :=
  filter_eq_self.mpr fun p hp => decide_eq_true fun he => h (mem_map.mpr ⟨p, hp, he⟩)

section Under

variable {b : Base} {r : Reach} {ps : List ℝ} {cs ts : List ℕ} {operands : Operands ℝ}

/-- The controls of a gate that is put under `k` more. -/
def controlsUnder (k : ℕ) (cs : List ℕ) : Operand ℝ := .list ((range k ++ cs.map (· + k)).map fun q : ℕ => .int q)

/-- **The operands of a gate, under controls.** -/
theorem exists_operandsUnder (h : Recorded n (.of b r) operands (.of b r ps cs ts))
    (ho : (of b r ps cs ts).Valid n) (hk : k < 2 ^ 63) :
    ∃ xs vs, operandsUnder k operands = .ok (xs ++ vs ++ [(.controlIndices, controlsUnder k cs)]) ∧
      xs.map fst = b.parameters ∧ vs.map fst = targetKeys b .multi ∧
      Forall₂ (Means (n + k)) (b.slots ps) (xs.map snd) ∧
      Forall₂ (Means (n + k)) (b.targetSlots .multi (ts.map (· + k))) (vs.map snd) := by
  obtain ⟨hps, hcs, hts⟩ := ho.shaped
  obtain ⟨xs, ys, rfl, hxs, hys, hpa, hpl⟩ := exists_operands h
  obtain ⟨us, vs, rfl, hu, hvs⟩ := map_eq_append_iff.mp hys
  have hlen : (r.slots cs).length = (us.map snd).length := by
    rw [length_map, ← length_map (f := fst), hu]
    cases r <;> rfl
  rw [map_append] at hpl
  have hct : Forall₂ (Checked n) (r.slots cs) (us.map snd) := by
    simpa [← hlen] using forall₂_take_append _ _ _ hpl
  have hta : Forall₂ (Checked n) (b.targetSlots r ts) (vs.map snd) := by
    simpa [← hlen] using forall₂_drop_append _ _ _ hpl
  have hx : ∀ p ∈ xs, p.1.isQubit = false := fun p hp =>
    isQubit_parameters b p.1 (hxs ▸ mem_map_of_mem hp)
  obtain ⟨us', hu', hra, hky⟩ := exists_controlsUnder hu hct
    (fun hr => by subst hr; exact hcs) fun hr => by subst hr; exact hcs
  obtain ⟨vs', hvs', hke, hm⟩ := exists_targetsUnder hvs hta hts
  have hma : (xs ++ (us ++ vs)).mapM (operandUnder k) = .ok (xs ++ (us' ++ vs')) := by
    rw [mapM_append, mapM_operandUnder_parameters hx, mapM_append, hu', hvs']; rfl
  have hx' : Key.controlIndices ∉ xs.map fst := fun hme => by cases isQubit_parameters b _ (hxs ▸ hme)
  have hv' : Key.controlIndices ∉ vs'.map fst := hke ▸ controlIndices_not_mem_targetKeys b
  refine ⟨xs, vs', ?_, hxs, hke, means_of_checked hpa _, hm⟩
  rw [operandsUnder_eq hma hk (hra.append hx' hv'), filter_append, filter_append,
    filter_ne_self hx', filter_ne_self hv', filter_eq_nil_iff.mpr fun p hp => by simp [hky p hp]]
  rfl

lemma nameUnderControl_of (b : Base) (r : Reach) :
    Gate.nameUnderControl (Gate.of b r).name = some (Gate.of b .multi).name := by
  cases b <;> cases r <;> decide

lemma ofText_multi (b : Base) : GateName.ofText (Gate.of b .multi).name = .known (.of b .multi) := by
  cases b <;> decide

/-- **An entry of a gate is performed under controls as the gate under these controls.** -/
theorem carries_performUnder (h : e.Unfolds n (.of b r ps cs ts)) (hk : 1 ≤ k) (hk' : k < 2 ^ 63) :
    Carries (n + k) (performUnder k e) [.gate ((of b r ps cs ts).snapped.guarded k)] := by
  obtain @⟨operands, j, es, _, ho, -, hr, -⟩ := h
  have hv := ho.snapped
  obtain ⟨xs, vs, har, hxs, hvs, hp, ht⟩ := exists_operandsUnder hr hv hk'
  have hn : Key.controlIndices ∉ vs.map fst := hvs ▸ controlIndices_not_mem_targetKeys b
  have ha : performUnder k ⟨some (.known (.of b r)), operands, j, .entries es⟩ =
      apply (.of b .multi) (xs ++ (.controlIndices, controlsUnder k cs) :: vs) := by
    unfold performUnder
    simp only [GateName.text, nameUnderControl_of, ofText_multi, har, applyNamed]
    rw [apply, ← bind_swap _ hn]
    rfl
  change Carries (n + k) (performUnder k ⟨some (.known (.of b r)), operands, j, .entries es⟩) _
  rw [ha]
  refine carries_gate ⟨rfl, ?_, ?_⟩ (hv.guarded hk)
  · rw [map_append, hxs, map_cons, hvs]; exact (keys_of b .multi).symm
  · have hl : ∀ q ∈ range k ++ cs.map (· + k), q < n + k := fun q hq =>
      (hv.guarded hk).lt q (mem_append_left _ hq)
    rw [map_append, map_cons, Operation.snapped, guarded, slots, append_assoc]
    exact rel_append hp (.cons (isQubits_ints hl) ht)

end Under

/-! ### Entries that cannot be performed under controls -/

lemma ofText_nameUnderControl {g : Gate} (ho : ∀ b r, g ≠ .of b r) (hp : g ≠ .globalPhase) :
    ∃ s, Gate.nameUnderControl g.name = some s ∧ GateName.ofText s = .unknown s := by
  cases g with
  | of b r => exact absurd rfl (ho b r)
  | globalPhase => exact absurd rfl hp
  | ucr axis => exact ⟨"MC" ++ (Gate.ucr axis).name, by cases axis <;> decide, by cases axis <;> decide⟩
  | identity => exact ⟨"MCIdentity", by decide, by decide⟩
  | pauliMultiplexor => exact ⟨"MCPauliMultiplexor", by decide, by decide⟩
  | diagonal => exact ⟨"MCDiagonal", by decide, by decide⟩
  | measure => exact ⟨"MCmeasure", by decide, by decide⟩
  | reset => exact ⟨"MCreset_qubit", by decide, by decide⟩
  | custom => exact ⟨"MCcustom_gate", by decide, by decide⟩

lemma fails_performUnder {o : Operation} (h : e.Unfolds n o) (ho : ¬ o.Controllable) (k : Int) :
    Fails (performUnder k e) := by
  obtain @⟨operands, j, es, _, -, -, -, -⟩ := h
  obtain ⟨s, hs, hu⟩ := ofText_nameUnderControl (fun b r hg => ho (.inl ⟨b, r, hg⟩)) fun hg => ho (.inr hg)
  unfold performUnder
  simp only [GateName.text, hs]
  exact fails_bind _ fun args => by rw [hu]; exact fails_ofOutcome _

/-! ### Circuits -/

lemma filterMap_positions {β : Type} (f : β → Bool) (l : List β) :
    ((l.zipIdx.filterMap fun p => if f p.1 then none else some p.2).filterMap fun i => l[i]?) =
      l.filter fun x => !f x := by
  have hg : ∀ p ∈ l.zipIdx, ((if f p.1 then none else some p.2 : Option ℕ).bind fun i => l[i]?) =
      if f p.1 then none else some p.1 := fun p hp => by
    have hp := mk_mem_zipIdx_iff_getElem?.mp hp
    split <;> simp [hp]
  rw [filterMap_filterMap, filterMap_congr hg]
  have hm : (l.zipIdx.filterMap fun p => if f p.1 then none else some p.1) =
      (l.zipIdx.map fst).filterMap fun x => if f x then none else some x := by
    rw [filterMap_map]
    rfl
  rw [hm, zipIdx_map_fst, ← filterMap_eq_filter]
  refine filterMap_congr fun x _ => ?_
  cases hx : f x <;> simp [Option.guard, hx]

lemma mapM_bind_of_ok {β γ : Type} {l : List β} {f : β → Outcome Unit} (h : ∀ x ∈ l, f x = .ok ())
    (y : Outcome γ) : (l.mapM f >>= fun _ => y) = y := by
  rw [mapM_ok h]
  rfl

lemma exists_positionsWithout (h : ∀ e ∈ c.log.toList, ∃ name, e.gate = some name) (g : Gate) :
    ∃ ps, c.positionsWithout g = .ok ps ∧
      (ps.filterMap fun p => c.log[p]?) = c.log.toList.filter fun e => !e.isGate g := by
  refine ⟨c.log.toList.zipIdx.filterMap fun p => if p.1.isGate g then none else some p.2, ?_, ?_⟩
  · refine mapM_bind_of_ok (fun e he => ?_) _
    obtain ⟨name, hn⟩ := h e he
    simp [hn]
  · simpa using filterMap_positions (fun e : Entry ℝ => e.isGate g) c.log.toList

lemma control_eq (hn : c.numQubits = n) (hk : 1 ≤ k) (h : ∀ e ∈ c.log.toList, ∃ name, e.gate = some name) :
    c.control (.int k) = (sized c.framework (n + k) (.int (n + k : ℕ))).after (do
      (c.log.toList.filter fun e => !e.isGate .globalPhase).forM (performUnder k)
      phaseStep k c.sink.globalPhase) := by
  obtain ⟨ps, hp, hl⟩ := exists_positionsWithout h .globalPhase
  have hs : (int c.numQubits : Operand ℝ).sum (.int k) = .ok (.int (n + k : ℕ)) := by rw [hn]; rfl
  unfold control
  simp only [hp, hs, new_int c.framework (show 0 < n + k by omega), bind, Except.bind]
  rw [hl]
  rfl

lemma truthy_of_isNumber {r : ℝ} (h : x.IsNumber r) : x.truthy = decide (r ≠ 0) := by
  cases x with
  | int i =>
    obtain rfl := h
    by_cases hi : i = 0 <;> simp [truthy, hi]
  | bool b =>
    obtain rfl := h
    cases b <;> simp [truthy]
  | real y =>
    obtain rfl := h
    simp [truthy]
  | _ => cases h

lemma valid_phaseUnder (hk : 1 ≤ k) (a : ℝ) : (phaseUnder k a).Valid (n + k) where
  shaped := by
    refine ⟨rfl, ?_, fun _ => rfl⟩
    by_cases h : k = 1
    · simp [h]
    · simp [h]
  nodup := by
    have hr : (range (k - 1) ++ [k - 1]).Nodup := by rw [← range_succ]; exact nodup_range
    exact hr
  lt := by
    intro q hq
    have hm : q ∈ range (k - 1) ++ [k - 1] := hq
    rw [← range_succ, mem_range] at hm
    omega

/-- **The phase of a circuit becomes a phase of the controls.** -/
theorem carries_phaseStep {g : ℝ} (hx : x.IsNumber g) (hk : 1 ≤ k) (hk' : k < 2 ^ 63) :
    Carries (n + k) (phaseStep k x) ((if g = 0 then [] else [phaseUnder k g]).map .gate) := by
  have hl : ¬ (2 : Int) ^ 63 ≤ (k : Int) := by
    push Not
    exact_mod_cast hk'
  have ht := truthy_of_isNumber hx
  have hv := valid_phaseUnder (n := n) hk g
  unfold phaseStep
  by_cases hg : g = 0
  · rw [ht, if_neg (by simp [hg]), if_pos hg]
    exact carries_pure
  rw [ht, if_pos (by simp [hg]), if_neg hl, if_neg hg]
  by_cases ho : k = 1
  · subst ho
    refine carries_gate ⟨rfl, rfl, .cons hx (.cons ?_ .nil)⟩ hv
    exact (isQubit_int (Nat.succ_pos n)).isQubits
  · have hct : (firstNumbers (k : Int)).dropLast = (range (k - 1)).map fun q : ℕ => (int q : Operand ℝ) := by
      obtain ⟨m, rfl⟩ := Nat.exists_eq_add_of_le' hk; simp [firstNumbers, range_succ]
    have htg : (int (k - 1) : Operand ℝ) = .int (k - 1 : ℕ) := by rw [Nat.cast_sub hk, Nat.cast_one]
    have hga : phaseUnder k g = .of .phase .multi [g] (range (k - 1)) [k - 1] := by rw [phaseUnder, if_neg ho]
    rw [if_neg (by exact_mod_cast ho), hct, htg]
    rw [hga] at hv ⊢
    refine carries_gate ⟨rfl, rfl, .cons hx (.cons ?_ (.cons ?_ .nil))⟩ hv
    · exact isQubits_ints fun q hq => hv.lt q (mem_append_left _ hq)
    · exact (isQubit_int (hv.lt (k - 1) (mem_append_right _ (mem_singleton_self _)))).isQubits

lemma forall₂_filter (h : Forall₂ (Entry.Unfolds n) es os) (g : Gate) :
    Forall₂ (Entry.Unfolds n) (es.filter fun e => !e.isGate g) (os.filter fun o => o.gate ≠ g) := by
  refine rel_filter (fun e o he => ?_) h
  obtain ⟨-, -, -, -⟩ := he
  by_cases ho : o.gate = g <;> simp [Entry.isGate, ho]

section Settled

variable {c : Circuit ℝ} {os : List Operation} (hgood : ∀ o ∈ os, o.Good n)
  (hangles : ∀ o ∈ os, ∀ x ∈ o.angles, Settled x) (h : Made n c (os.map .gate)) (hk : 1 ≤ k)

lemma exists_gate_of_unfolds (h : Forall₂ (Entry.Unfolds n) es os) : ∀ e ∈ es, ∃ name, e.gate = some name :=
  forall_mem_of_forall₂ h fun e o _ he => by obtain ⟨-, -, -, -⟩ := he; exact ⟨_, rfl⟩

lemma after_of_fails {x : Change (Circuit ℝ) Unit} (hx : Fails x) (c : Circuit ℝ) : ∃ f, c.after x = .error f := by
  obtain ⟨f, c', hf⟩ := hx.exists_perform c
  exact ⟨f, by rw [after, hf]⟩

include h hk in
/-- **A circuit with a gate that has no form under controls.** -/
theorem exists_fault_of_not_controllable (hn : ∃ p ∈ os.flatMap kept, ¬ p.Controllable) :
    ∃ f, c.control (.int k) = .error f := by
  obtain ⟨ho, -, -⟩ := h.holds
  obtain ⟨p, hp, hn⟩ := hn
  have hfi := forall₂_filter h.unfolds .globalPhase
  have hm : p ∈ (os.flatMap kept).filter fun o => o.gate ≠ .globalPhase :=
    mem_filter.mpr ⟨hp, decide_eq_true fun hg => hn (.inr hg)⟩
  have hex : ∃ e ∈ c.log.toList.filter fun e => !e.isGate .globalPhase, Fails (performUnder k e) := by
    obtain ⟨i, hi, rfl⟩ := getElem_of_mem hm
    have hi' := hfi.length_eq ▸ hi
    exact ⟨_, getElem_mem hi', fails_performUnder (hfi.get hi' hi) hn k⟩
  obtain ⟨e, he, hfa⟩ := hex
  rw [control_eq ho.numQubits hk (exists_gate_of_unfolds h.unfolds)]
  exact after_of_fails ((fails_forM he hfa).bind _) _

lemma smul_operator_eq_iff (hn : c.numQubits = n) (hs : c.steps = os.flatMap prims)
    (hv : ∀ o ∈ os, o.Valid n) (z : ℂ) : z • c.operator n = c.operator n ↔ z = 1 := by
  have hw : ∀ p ∈ c.steps, p.Within n := hs ▸ within_prims hv
  have hne : c.operator n ≠ 0 := by
    obtain ⟨L, hL⟩ := exists_mul_matrixOf_run hw
    intro hze
    rw [← operator_eq_matrixOf hn hw, hze, mul_zero] at hL
    exact zero_ne_one hL
  exact ⟨fun hsm => smul_left_injective ℂ hne (hsm.trans (one_smul ℂ _).symm), fun ho => by rw [ho, one_smul]⟩

include h in
lemma Made.smul_operator_eq_iff (z : ℂ) : z • c.operator n = c.operator n ↔ z = 1 := by
  obtain ⟨hop, hs, -⟩ := h.holds
  rw [Item.flatMap_prims_gates] at hs
  exact Circuit.smul_operator_eq_iff hop.numQubits hs (fun o ho => h.valid (mem_map_of_mem ho)) z

variable (hk' : k < 2 ^ 63)
include hgood hangles h hk hk'

lemma carries_underControl (hct : ∀ p ∈ os.flatMap kept, p.Controllable) : Carries (n + k) (do
      (c.log.toList.filter fun e => !e.isGate .globalPhase).forM (performUnder k)
      phaseStep k c.sink.globalPhase) ((underControl k os).map .gate) := by
  obtain ⟨hop, -, -⟩ := h.holds
  have ha : angleSum (os.flatMap prims) = phases os :=
    angleSum_flatMap fun o ho => angleSum_primsAt (hgood o ho) o.rank_lt_maxDepth
  rw [Item.flatMap_prims_gates, ha] at hop
  have hr : ∀ o ∈ (os.flatMap kept).filter fun o => o.gate ≠ .globalPhase, ∀ e : Entry ℝ,
      e.Unfolds n o → Carries (n + k) (performUnder k e) [.gate (o.guarded k)] := by
    intro o ho e he
    obtain ⟨ho, hg⟩ := mem_filter.mp ho
    obtain ⟨b, r, ps, cs, ts, rfl⟩ := exists_of_controllable (hct o ho) (of_decide_eq_true hg)
    have hca := carries_performUnder he hk hk'
    rwa [snapped_of_mem_flatMap_kept hgood hangles _ ho] at hca
  have hfo : Forall₂ (fun e o => Carries (n + k) (performUnder k e) [.gate o])
      (c.log.toList.filter fun e => !e.isGate .globalPhase)
      (((os.flatMap kept).filter fun o => o.gate ≠ .globalPhase).map (guarded k)) := by
    rw [forall₂_map_right_iff]
    have hfi := (forall₂_filter h.unfolds .globalPhase).flip
    exact (((forall₂_and_left _ _).mpr ⟨hr, hfi⟩).imp fun o e ho => ho.1 e ho.2).flip
  rw [underControl, map_append]
  exact (carries_forM (forall₂_map_right_iff.mpr hfo)).bind (carries_phaseStep hop.sink.globalPhase hk hk')

/-- **A circuit whose gates have a form under controls.** -/
theorem exists_control (hu : ∀ o ∈ underControl k os, o.Good (n + k))
    (hct : ∀ p ∈ os.flatMap kept, p.Controllable) :
    ∃ c', c.control (.int k) = .ok c' ∧ c'.numQubits = n + k ∧ c'.operator (n + k) =
        controlledMatrix k (exp (ownPhases os * Complex.I) • c.operator n) := by
  obtain ⟨ho, hs, -⟩ := h.holds
  rw [Item.flatMap_prims_gates] at hs
  have hca := carries_underControl hgood hangles h hk hk' hct
  obtain ⟨hsi, he⟩ := open_sized ho.reference (n + k) (.int (n + k : ℕ))
  obtain ⟨c', -, hr, ho', hs', -, -⟩ := hca _ _ hsi
  refine ⟨c', ?_, ho'.numQubits, ?_⟩
  · rw [control_eq ho.numQubits hk (exists_gate_of_unfolds h.unfolds), after, hr]
  · rw [he, nil_append, Item.flatMap_prims_gates] at hs'
    obtain ⟨hl, hop⟩ := operator_of_steps ho.numQubits hs hgood
    obtain ⟨-, hop'⟩ := operator_of_steps ho'.numQubits hs' hu
    rw [hop, hop', ← matrixOf_smul, ← matrixOf_gated_onLater (hl.smul _)]
    exact congrArg (matrixOf (n + k)) (funext (acts_underControl hgood hangles hk hct))

/-- **Putting a circuit under control.**  For a circuit that was made by gate calls whose angles are none or
too far from whole turns to be taken for one, and `k` controls so that all is carried out exactly: if some
entry of its log has no form under controls, the call ends in a fault.  Otherwise it returns a circuit on `k`
more qubits, which applies the circuit's matrix where the first `k` qubits are all on, with the phases
that gates bring along counted once more.  So this is the circuit's matrix under control exactly if these
phases are whole turns. -/
theorem control_applies (hunder : ∀ o ∈ Operation.underControl k os, o.Good (n + k)) :
    ((∀ p ∈ os.flatMap Operation.kept, p.Controllable) → ∃ c', c.control (.int k) = .ok c' ∧
      c'.numQubits = n + k ∧
      c'.operator (n + k) = controlledMatrix k (Complex.exp (Operation.ownPhases os * Complex.I) • c.operator n) ∧
      (c'.operator (n + k) = controlledMatrix k (c.operator n) ↔
        Complex.exp (Operation.ownPhases os * Complex.I) = 1)) ∧
    ((∃ p ∈ os.flatMap Operation.kept, ¬ p.Controllable) → ∃ f, c.control (.int k) = .error f) := by
  refine ⟨fun hco => ?_, exists_fault_of_not_controllable h hk⟩
  obtain ⟨c', hcn, hn, ho⟩ := exists_control hgood hangles h hk hk' hunder hco
  refine ⟨c', hcn, hn, ho, ?_⟩
  rw [ho, controlledMatrix_inj]
  exact h.smul_operator_eq_iff _

end Settled

/-! ### A power of a negation under control -/

abbrev power (p g : ℝ) : Operation := .of .xPow .plain [p, g] [] [0]

lemma denotes_power (p g : ℝ) : Denotes 1 (.of .xPow .plain)
    [(.power, .real p), (.globalShift, .real g), (.qubitIndices, .int 0)] (power p g) :=
  ⟨rfl, rfl, .cons rfl (.cons rfl (.cons (isQubit_int Nat.one_pos).isQubits .nil))⟩

lemma good_power (p g : ℝ) : (power p g).Good 1 :=
  ⟨⟨⟨rfl, rfl, by decide⟩, by simp [Operation.qubits], by simp [Operation.qubits]⟩,
    by simp [turns_plain]⟩

lemma good_guarded_power (p g : ℝ) : ((power p g).guarded 1).Good 2 :=
  ⟨(good_power p g).guarded le_rfl,
    by simp [guarded, Operation.turns, Base.turns, turnsUnder, stairTurns]⟩

lemma ownPhase_power (p g : ℝ) : (power p g).ownPhase = p * π * (g + 1 / 2) := by simp [ownPhase, phase]

lemma good_phaseUnder_one (a : ℝ) : (phaseUnder 1 a).Good 2 :=
  ⟨valid_phaseUnder le_rfl a, by simp [phaseUnder, Operation.turns, Base.turns, stairTurns]⟩

lemma exp_ownPhases_half_power : exp (ownPhases [power (1 / 2) 0] * Complex.I) ≠ 1 := by
  intro ho
  have how : ownPhases [power (1 / 2) 0] = π / 4 := by
    simp only [ownPhases, map_cons, map_nil, sum_cons, sum_nil, ownPhase_power]; ring
  have hs := congrArg im ho
  rw [how, exp_ofReal_mul_I_im, one_im, sin_pi_div_four] at hs
  exact absurd hs (by positivity)

lemma good_underControl (hke : os.flatMap kept = os)
    (hg : ∀ o ∈ os, o.gate ≠ .globalPhase → (o.guarded k).Good (n + k))
    (hph : (phaseUnder k (phases os)).Good (n + k)) : ∀ o ∈ underControl k os, o.Good (n + k) := by
  intro o ho
  rw [underControl, hke] at ho
  rcases mem_append.mp ho with ho | ho
  · obtain ⟨p, hp, rfl⟩ := mem_map.mp ho
    obtain ⟨hp, hga⟩ := mem_filter.mp hp
    exact hg p hp (of_decide_eq_true hga)
  · split at ho
    · cases ho
    · exact mem_singleton.mp ho ▸ hph

/-- A phase, a rotation and a power whose phase is a whole turn. -/
theorem control_applies_three : ∃ c, Made 1 c [.gate (.globalPhase 1), .gate (.turn .ry 1 [0]),
      .gate (power 2 (1 / 2))] ∧
    ∃ c', c.control (.int 1) = .ok c' ∧ c'.operator 2 = controlledMatrix 1 (c.operator 1) := by
  have hgood : ∀ o ∈ [.globalPhase 1, .turn .ry 1 [0], power 2 (1 / 2)], o.Good 1 := by
    simp only [List.forall_mem_cons]
    exact ⟨⟨⟨trivial, by simp [Operation.qubits], by simp [Operation.qubits]⟩, by simp [Operation.turns]⟩,
      ⟨⟨⟨rfl, rfl, by decide⟩, by decide, by decide⟩, by simp [Operation.turns_plain]⟩,
      good_power _ _, by simp⟩
  have hangles : ∀ o ∈ [.globalPhase 1, .turn .ry 1 [0], power 2 (1 / 2)], ∀ x ∈ o.angles, Settled x := by
    have hon : Settled 1 := .inr far_one
    simpa [Operation.angles, Base.isAngular] using hon
  obtain ⟨c, hg⟩ := exists_made (by decide) fun o ho => (hgood o ho).toValid
  have hke : [.globalPhase 1, .turn .ry 1 [0], power 2 (1 / 2)].flatMap Operation.kept =
      [.globalPhase 1, .turn .ry 1 [0], power 2 (1 / 2)] := by
    have hs : snap 1 = 1 := Settled.snap (.inr far_one)
    refine flatMap_kept_of_isKept (n := 1) fun o ho => ⟨(hgood o ho).toValid, ?_⟩
    simp only [List.mem_cons, List.not_mem_nil, or_false] at ho
    rcases ho with rfl | rfl | rfl <;>
      simp [Operation.isKept, Operation.gate, Gate.isTransparent, Operation.vanishes, Base.isAngular, hs]
  have ht' : ((Operation.turn .ry 1 [0]).guarded 1).Good 2 :=
    ⟨(hgood _ (by simp)).guarded le_rfl, by simp [Operation.guarded, Operation.turns, Base.turns, turnsUnder]⟩
  have hu := good_underControl (n := 1) (k := 1) hke (by
    simp only [List.forall_mem_cons]
    exact ⟨fun h => absurd rfl h, fun _ => ht', fun _ => good_guarded_power _ _, by simp⟩)
    (good_phaseUnder_one _)
  have hco : ∀ p ∈ [.globalPhase 1, .turn .ry 1 [0], power 2 (1 / 2)].flatMap Operation.kept, p.Controllable := by
    rw [hke]
    simp only [List.forall_mem_cons]
    exact ⟨.inr rfl, .inl ⟨_, _, rfl⟩, .inl ⟨_, _, rfl⟩, by simp⟩
  obtain ⟨c', hcn, -, -, hi⟩ := (control_applies hgood hangles hg le_rfl (by norm_num) hu).1 hco
  have how : Operation.ownPhases [.globalPhase 1, .turn .ry 1 [0], power 2 (1 / 2)] = 2 * π := by
    simp only [Operation.ownPhases, map_cons, map_nil, sum_cons, sum_nil, ownPhase_power]
    simp only [ownPhase, phase]
    ring
  refine ⟨c, hg, c', hcn, hi.mpr ?_⟩
  rw [how]
  push_cast
  exact exp_two_pi_mul_I

/-- A half power of a negation comes with its phase counted twice. -/
theorem not_control_half_power : ∃ c c' : Circuit ℝ, (empty .reference 1).after (apply (.of .xPow .plain)
      [(.power, .real (1 / 2)), (.globalShift, .real 0), (.qubitIndices, .int 0)]) = .ok c ∧
    c.control (.int 1) = .ok c' ∧ c'.operator 2 ≠ controlledMatrix 1 (c.operator 1) := by
  obtain ⟨c, ha, hc⟩ := (made_sized one_pos).exists_call (bind_of_denotes (denotes_power (1 / 2) 0))
    (.gate (denotes_power (1 / 2) 0) (good_power _ _).toValid)
  have hg : Made 1 c ([power (1 / 2) 0].map .gate) := hc
  have hke : [power (1 / 2) 0].flatMap kept = [power (1 / 2) 0] :=
    flatMap_kept_of_isKept (by simpa using ⟨(good_power _ _).toValid, rfl⟩)
  have hu := good_underControl (k := 1) hke
    (forall_mem_singleton.mpr fun _ => good_guarded_power _ _) (good_phaseUnder_one _)
  have hco : ∀ p ∈ [power (1 / 2) 0].flatMap kept, p.Controllable := by
    rw [hke]; exact forall_mem_singleton.mpr (.inl ⟨_, _, rfl⟩)
  obtain ⟨c', hcn, -, ho⟩ := exists_control (by simpa using good_power (1 / 2) 0)
    (by simp [Operation.angles, Base.isAngular]) hg le_rfl (by norm_num) hu hco
  refine ⟨c, c', ha, hcn, ?_⟩
  rw [ho, Ne, controlledMatrix_inj, hg.smul_operator_eq_iff]
  exact exp_ownPhases_half_power

end Circuit

end QuantumCircuits

end
