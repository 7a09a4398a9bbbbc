import QuantumCircuits.Proofs.Operation.Circuits

/-!
# Control states

What a controlled gate with a control state does.  The gate should apply where each control has its
value in the state.  The library flips qubits around the gate, and flips those whose *numbers* are
positions of zeros in the state, so the gate applies as it should exactly when these are the controls
that have to be off and the flips leave the gate itself alone (`applies_under_state_iff`).
-/

/-! ### States

Calls with a control state.  The positions at which the state has a zero are flipped before and after
the gate: not the controls at these positions, but the qubits with these numbers.  So the call does the
same as three calls, which `Operation.around` lists (`Recording.does_perform_state`).
-/

namespace QuantumCircuits

open Operation List Plan

variable {n : ℕ}
variable {P : List ℕ} {values : List Bool} {o : Operation} {i : ℕ}

/-! ### Control states -/

def stateText (values : List Bool) : Operand ℝ := .text (String.ofList (values.map fun x => if x then '1' else '0'))

/-- The positions at which a control state has a zero. -/
def zerosOf (values : List Bool) : List ℕ := values.zipIdx.filterMap fun p => if p.1 then none else some p.2

lemma mem_zerosOf : i ∈ zerosOf values ↔ values[i]? = some false := by
  simp only [zerosOf, mem_filterMap, Prod.exists, mem_zipIdx_iff_getElem?]
  constructor
  · rintro ⟨x, j, hj, hx⟩
    cases x with
    | false =>
      obtain rfl : j = i := by simpa using hx
      exact hj
    | true => simp at hx
  · intro h; exact ⟨false, i, h, rfl⟩

lemma nodup_zerosOf (values : List Bool) : (zerosOf values).Nodup := by
  refine Nodup.filterMap ?_ ?_
  · rintro ⟨x, i⟩ ⟨y, j⟩ k hx hy
    cases x <;> cases y <;> simp_all
  · refine Nodup.of_map Prod.snd ?_; rw [zipIdx_map_snd]; exact nodup_range'

lemma lt_of_mem_zerosOf (h : i ∈ zerosOf values) : i < values.length := by
  rw [mem_zerosOf] at h; exact (List.getElem?_eq_some_iff.mp h).1

lemma items_stateText (values : List Bool) :
    (stateText values).items = .ok (values.map fun x => .text (if x then "1" else "0")) := by
  simp only [stateText, Operand.items, String.toList_ofList, map_map]
  refine congrArg _ (map_congr_left fun x _ => ?_)
  cases x <;> rfl

lemma openPositions_stateText {controls : Operand ℝ} (h : controls.length = .ok values.length) :
    Gate.openPositions (stateText values) controls = .ok (zerosOf values) := by
  have hi := items_stateText values
  rw [stateText] at hi ⊢
  simp only [Gate.openPositions, hi, h, bind, Except.bind, length_map, ne_eq,
    not_true_eq_false, if_false, zipIdx_map, filterMap_map]
  refine congrArg _ (filterMap_congr fun p _ => ?_)
  obtain ⟨x, i⟩ := p
  cases x <;> rfl

/-! ### Flips around a call -/

namespace Operation

/-- An operation between flips of qubits, if there are any to flip. -/
def around (P : List ℕ) (o : Operation) : List Operation :=
  if P = [] then [o] else [on .x P, o, on .x P]

lemma valid_flips (hP : P.Nodup) (hl : ∀ q ∈ P, q < n) : (on .x P).Valid n :=
  ⟨⟨rfl, rfl, by simp [Base.onTwo]⟩, hP, hl⟩

lemma good_flips (hP : P.Nodup) (hl : ∀ q ∈ P, q < n) : (on .x P).Good n := ⟨valid_flips hP hl, by simp [turns_plain]⟩

lemma act_flips (hP : P.Nodup) (V : Wave) : (on .x P).act V = flips P V := by
  rw [act_plain rfl, Base.square_x]; exact selectEach_flipSquare hP V

lemma forall_mem_around {p : Operation → Prop} (ho : p o) (hfl : p (on .x P)) : ∀ o' ∈ around P o, p o' := by
  rw [around]
  split <;> simp [ho, hfl]

lemma acts_around (hP : P.Nodup) (o : Operation) (V : Wave) : acts (around P o) V = flips P (o.act (flips P V)) := by
  rw [around]
  split
  · next h =>
    have hn : ∀ V, flips P V = V := fun V => by subst h; funext b; simp [flips, flip_nil]
    rw [acts_cons, acts_nil, hn, hn]
  · rw [acts_cons, acts_cons, acts_cons, acts_nil, act_flips hP, act_flips hP]

end Operation

namespace Recording

variable {d : ℕ} {x : Change (Recording ℝ) Unit} {os : List Operation} {c : Call ℝ}

lemma does_andFinally {y : Change (Recording ℝ) Unit} {ps ps' : List (Primitive ℝ)}
    {os' : List Operation} (hx : Does n x ps os) (hy : Does n y ps' os') :
    Does n (x.andFinally y) (ps ++ ps') (os ++ os') := by
  intro r qs g h
  obtain ⟨z, es, hr, hz, -⟩ := hx r qs g h
  obtain ⟨z', es', hr', -, -⟩ := hy ⟨r.sink.holding (qs ++ ps) z, r.entries ++ es.toArray⟩ _ _ (h.holding hz)
  -- both go through, so this is one after the other
  have hbi : Change.perform (x.andFinally y) r = Change.perform (x >>= fun _ => y) r := by
    rw [Change.perform_bind_ok hr, hr']
    change (x.andFinally y) r = _
    simp [Change.andFinally, hr, hr']
  rw [hbi]
  exact hx.bind hy r qs g h

lemma does_flip (hP : P.Nodup) (hl : ∀ q ∈ P, q < n) (hd : 1 < d) :
    Does n (performAt ⟨n, true⟩ d (flipCall P)) (on .x P).prims (on .x P).kept := by
  have hqs : (Operand.list (P.map fun (i : ℕ) => .int i)).IsQubits n P := by
    refine (Operand.IsSequence.list ?_).isQubits
    refine forall₂_map_left_iff.mpr (forall₂_same.mpr fun q hq => ?_)
    exact Operand.IsIndex.isQubit ⟨rfl, rfl, hl q hq⟩
  have hde : Denotes n (flipCall (α := ℝ) P).gate (flipCall P).operands (on .x P) := ⟨rfl, rfl, .cons hqs .nil⟩
  have hv := valid_flips hP hl
  have hr : (on .x P).rank < d := by simpa [rank] using hd
  rw [prims, kept, primsAt_eq hv (rank_lt_maxDepth _) hr, keptAt_eq hv (rank_lt_maxDepth _) hr]
  exact does_performAt hde rfl hv hr

lemma does_flipping (hP : P.Nodup) (hl : ∀ q ∈ P, q < n) (hd : 1 < d) (hx : Does n x o.prims o.kept) :
    Does n (flipping (performAt ⟨n, true⟩ d (flipCall P)) P x) ((around P o).flatMap prims)
      ((around P o).flatMap kept) := by
  cases P with
  | nil => simpa [around, flipping] using hx
  | cons q P =>
    have hfl := does_flip hP hl hd
    have hdo := hfl.bind (f := fun _ => x.andFinally (performAt ⟨n, true⟩ d (flipCall (q :: P))))
      (does_andFinally hx hfl)
    simpa [around, flipping] using hdo

/-! ### Calls with a control state -/

lemma does_performAt_flipped (hc : Denotes n c.gate c.operands o) (ho : o.Valid n) (hfl : flippedAround c = .ok P)
    (hP : P.Nodup) (hl : ∀ q ∈ P, q < n) (hpl : Gate.plan n c = Gate.plan n ⟨c.gate, c.operands, .none⟩)
    (hd : o.rank < d + 1) (hd' : 1 < d) :
    Does n (performAt ⟨n, true⟩ (d + 1) c) ((around P o).flatMap prims) ((around P o).flatMap kept) := by
  have hbo := does_body hc ho hd fun h => by
    rw [hpl]
    refine does_follow (Gate.plan_stands ho h rfl hc) fun c p hp hc => ?_
    have hi := inside_parts ho p hp
    exact does_performAt hc.2 hc.1 hi.valid (by have := hi.rank; omega)
  rw [primsAt_eq ho hd (rank_lt_maxDepth _)] at hbo
  have hdo := does_flipping hP hl hd' (does_logged hc ho hbo)
  intro r qs g h
  rw [perform_performAt (precondition_ok hc) hfl]
  exact hdo r qs g h

lemma lt_of_mem_zerosOf_qubits (ho : o.Valid n)
    (hlen : values.length ≤ o.qubits.length) : ∀ q ∈ zerosOf values, q < n := by
  intro q hq
  have hl := length_le_of_lt ho.nodup ho.lt
  have hlt := lt_of_mem_zerosOf hq
  omega

section State

variable {b : Base} {r : Reach} {ps : List ℝ} {cs ts : List ℕ}

lemma get_controlIndices (hc : Denotes n c.gate c.operands (.of b .multi ps cs ts)) :
    (c.get .controlIndices).IsQubits n cs := by
  obtain ⟨xs, hca, hm⟩ := operands_of_denotes hc
  rw [hca]
  cases b with
  | x | y | z | h | s | sdg | t | tdg =>
    obtain ⟨x, y, rfl, hx, -⟩ := forall₂_two hm
    exact hx
  | rx | ry | rz | phase | u3 =>
    obtain ⟨x, y, z, rfl, -, hy, -⟩ := forall₂_three hm
    exact hy
  | xPow | yPow | zPow =>
    obtain ⟨x, y, z, w, rfl, -, -, hz, -⟩ := forall₂_four hm
    exact hz
  | rxx | ryy | rzz =>
    obtain ⟨x, y, z, w, rfl, -, hy, -⟩ := forall₂_four hm
    exact hy
  | swap =>
    obtain ⟨x, y, z, rfl, hx, -⟩ := forall₂_three hm
    exact hx

lemma flippedAround_state (hc : Denotes n c.gate c.operands (.of b r ps cs ts))
    (ho : (of b r ps cs ts).Shaped) (hr : r ≠ .plain)
    (htwo : ¬(r = .controlled ∧ b.onTwo = true)) (hs : c.controlState = stateText values)
    (hlen : values.length = cs.length) : flippedAround c = .ok (zerosOf values) := by
  have hg : c.gate = .of b r := hc.gate
  cases r with
  | plain => exact absurd rfl hr
  | controlled =>
    have hb : b.onTwo = false := by simpa using htwo
    have hon : values.length = 1 := hlen.trans ho.2.1
    rw [flippedAround, hs, Gate.controls, hg]
    simp only [hb, Bool.false_eq_true, if_false, Option.elim_some]
    exact openPositions_stateText (hon ▸ rfl)
  | multi =>
    rw [flippedAround, hs, Gate.controls, hg]
    refine openPositions_stateText ?_
    rw [hlen]
    exact Operand.IsSequence.length (get_controlIndices hc)

lemma plan_state (hc : Denotes n c.gate c.operands (.of b r ps cs ts))
    (htwo : ¬(r = .controlled ∧ b.onTwo = true)) : Gate.plan n c = Gate.plan n ⟨c.gate, c.operands, .none⟩ := by
  have hg : c.gate = .of b r := hc.gate
  cases r with
  | controlled =>
    have hb : b.onTwo = false := by simpa using htwo
    simp [Gate.plan, hg, hb, Bool.false_eq_true]
  | plain | multi => simp [Gate.plan, hg]

lemma lt_of_mem_zerosOf_controls (ho : (of b r ps cs ts).Valid n)
    (hlen : values.length = cs.length) : ∀ q ∈ zerosOf values, q < n :=
  lt_of_mem_zerosOf_qubits ho (by simp [qubits, hlen])

lemma does_performAt_state (hc : Denotes n c.gate c.operands (.of b r ps cs ts))
    (ho : (of b r ps cs ts).Valid n) (hr : r ≠ .plain)
    (htwo : ¬(r = .controlled ∧ b.onTwo = true)) (hs : c.controlState = stateText values)
    (hlen : values.length = cs.length) (hd : (of b r ps cs ts).rank < d + 1) (hd' : 1 < d) :
    Does n (performAt ⟨n, true⟩ (d + 1) c) ((around (zerosOf values) (.of b r ps cs ts)).flatMap prims)
      ((around (zerosOf values) (.of b r ps cs ts)).flatMap kept) :=
  does_performAt_flipped hc ho (flippedAround_state hc ho.shaped hr htwo hs hlen) (nodup_zerosOf values)
    (lt_of_mem_zerosOf_controls ho hlen) (plan_state hc htwo) hd hd'

lemma does_follow_one {perform : Call ℝ → Change (Recording ℝ) Unit} {p : Plan ℝ Unit} {m : Call ℝ}
    (hp : p.outcome = (#[m], .ok ())) {qs : List (Primitive ℝ)}
    (hm : Does n (perform m) qs os) : Does n (follow perform p) qs os := by
  have hd := (hm.bind does_pure).bind does_pure
  simp only [append_nil] at hd
  rw [follow, hp]
  exact hd

lemma exists_call_multi (hb : b.onTwo = true)
    (hc : Denotes n c.gate c.operands (.of b .controlled ps cs ts)) (hcs : cs.length = 1) :
    ∃ m : Call ℝ, Denotes n m.gate m.operands (.of b .multi ps cs ts) ∧
      m.controlState = c.controlState ∧ ∀ {d qs os}, Does n (performAt ⟨n, true⟩ d m) qs os →
        Does n (performAt ⟨n, true⟩ (d + 1) c) qs os := by
  obtain ⟨xs, hca, hm⟩ := operands_of_denotes hc
  have hg : c.gate = .of b .controlled := hc.gate
  have hlen := hm.length_eq
  have hde := denotes_zip (Gate.multi_of_controlled hb hcs hm)
  refine ⟨⟨.of b .multi, (Gate.of b .multi).keys.zip xs, c.controlState⟩, hde, rfl, ?_⟩
  intro d qs os hd r ps' g h
  have hfl : flippedAround c = .ok [] := by simp [flippedAround, Gate.controls, hg, hb]
  have hp : Gate.plan n c = callUnder c.controlState (.of b .multi) xs := by
    have hxs : ((Gate.of b .controlled).keys.zip xs).map Prod.snd = xs :=
      map_snd_zip (hlen ▸ (slots_length (.of b .controlled ps cs ts)).le)
    rw [hca]
    simp [Gate.plan, gate, hb, hxs]
  have he : elementary? c = none := by
    refine elementary?_none hc ?_
    cases b with
    | x => cases hb
    | _ => rfl
  have hl : logged ⟨n, true⟩ c (body n d c) = body n d c := by rw [logged, hg]; simp [Gate.isTransparent, hb]
  rw [perform_performAt (precondition_ok hc) hfl, hl, body, he, hp]
  exact does_follow_one (p := callUnder c.controlState (.of b .multi) xs) rfl hd r ps' g h

lemma flatMap_around_multi (hb : b.onTwo = true) (ho : (of b .controlled ps cs ts).Valid n) (P : List ℕ) :
    (around P (.of b .controlled ps cs ts)).flatMap prims = (around P (.of b .multi ps cs ts)).flatMap prims ∧
    (around P (.of b .controlled ps cs ts)).flatMap kept = (around P (.of b .multi ps cs ts)).flatMap kept := by
  have hn : (of b .controlled ps cs ts).primitives? = none := by
    cases b with
    | x => cases hb
    | _ => rfl
  have hp : (of b .controlled ps cs ts).parts = [.of b .multi ps cs ts] := by simp [parts, hb]
  have hi := inside_parts ho (.of b .multi ps cs ts) (by simp [hp])
  have hr : (of b .multi ps cs ts).rank < 15 := by
    cases b <;> simp [rank]
  have hpr : (of b .controlled ps cs ts).prims = (of b .multi ps cs ts).prims := by
    rw [prims, prims, ← primsAt_eq hi.valid hr (rank_lt_maxDepth _)]
    simp [maxDepth, primsAt.eq_2, hn, hp]
  have hk : (of b .controlled ps cs ts).kept = (of b .multi ps cs ts).kept := by
    have hfa : (of b .controlled ps cs ts).isKept = false := by
      simp [isKept, gate, Gate.isTransparent, hb]
    rw [kept_eq ho, hfa, Operation.inner, hn, hp]
    simp
  simp only [around]
  split <;> simp [hpr, hk]

/-- **A call with a control state** does what it does without, between flips. -/
theorem does_perform_state (hc : Denotes n c.gate c.operands (.of b r ps cs ts))
    (ho : (of b r ps cs ts).Valid n) (hr : r ≠ .plain) (hs : c.controlState = stateText values)
    (hlen : values.length = cs.length) :
    Does n (perform ⟨n, true⟩ c) ((around (zerosOf values) (.of b r ps cs ts)).flatMap prims)
      ((around (zerosOf values) (.of b r ps cs ts)).flatMap kept) := by
  by_cases htwo : r = .controlled ∧ b.onTwo = true
  · obtain ⟨rfl, hb⟩ := htwo
    obtain ⟨m, hm, hms, hd⟩ := exists_call_multi hb hc ho.shaped.2.1
    have hi := inside_parts ho (.of b .multi ps cs ts) (by simp [parts, hb])
    have hra : (of b .multi ps cs ts).rank < 14 + 1 := by
      cases b <;> simp [rank]
    obtain ⟨hp, hk⟩ := flatMap_around_multi hb ho (zerosOf values)
    rw [hp, hk]
    exact hd (does_performAt_state hm hi.valid (by simp) (fun h => by simp at h)
      (hms.trans hs) hlen hra (by omega))
  · exact does_performAt_state hc ho hr htwo hs hlen (rank_lt_maxDepth _) (by decide)

end State

/-- **Rotations by selected angles with a control state** are between flips too. -/
theorem does_perform_selected {axis : Axis} {angles : List ℝ} {cs : List ℕ} {t : ℕ}
    (hc : Denotes n c.gate c.operands (.ucr axis angles cs t))
    (ho : (ucr axis angles cs t).Valid n) (hs : c.controlState = stateText values)
    (hlen : values.length = cs.length) :
    Does n (perform ⟨n, true⟩ c) ((around (zerosOf values) (.ucr axis angles cs t)).flatMap prims)
      ((around (zerosOf values) (.ucr axis angles cs t)).flatMap kept) := by
  have hg : c.gate = .ucr axis := hc.gate
  obtain ⟨xs, hca, hm⟩ := operands_of_denotes hc
  obtain ⟨x, y, z, rfl, -, hy, -⟩ := forall₂_three hm
  have hct : (c.get .controlIndices).IsQubits n cs := by rw [hca]; exact hy
  have hfl : flippedAround c = .ok (zerosOf values) := by
    rw [flippedAround, hs, Gate.controls, hg]
    refine openPositions_stateText ?_
    rw [hlen]
    exact Operand.IsSequence.length hct
  have hl : ∀ q ∈ zerosOf values, q < n := lt_of_mem_zerosOf_qubits ho (by simp [qubits, hlen])
  have hp : Gate.plan n c = Gate.plan n ⟨c.gate, c.operands, .none⟩ := by rw [hca]; rfl
  exact does_performAt_flipped hc ho hfl (nodup_zerosOf values) hl hp (rank_lt_maxDepth _) (by decide)

end Recording

/-! ### Control states -/

variable {c t : ℕ}

/-! ### Gates stay within their targets -/

lemma local_selectEach {ts : List ℕ} (h : ∀ t ∈ ts, t < n) (M : Register → Square) : Local n (selectEach ts M) := by
  induction ts with
  | nil => exact local_id n
  | cons t ts ih =>
    exact (ih fun s hs => h s (mem_cons_of_mem _ hs)).comp (local_select (h t mem_cons_self) M)

lemma Local.sub {A B : Wave → Wave} (hA : Local n A) (hB : Local n B) : Local n fun V => A V - B V := by
  intro V i
  simp only [Pi.sub_apply, matrixOf, sub_mul, Finset.sum_sub_distrib]
  rw [hA V i, hB V i]
  rfl

namespace Base

variable {i j : ℕ} {Q : List ℕ} {P : Square} {a : ℝ}

lemma local_coupled (hi : i < n) (hj : j < n) : Local n (coupled P a i j) :=
  ((local_id n).smul _).sub (((local_select hi _).comp (local_select hj _)).smul _)

lemma local_exchange (hi : i < n) (hj : j < n) : Local n (exchange i j) := by
  intro V k
  obtain ⟨l, hl⟩ := exists_update hi k (bits k j)
  obtain ⟨m, hm⟩ := exists_update hj l (bits k i)
  rw [hl] at hm
  simp only [matrixOf, exchange, ← hm, basisWave_fin]
  simp

variable {b : Base} {ps : List ℝ} {ts : List ℕ}

lemma local_act (hp : ps.length = b.arity) (ht : b.onTwo = true → ts.length = 2)
    (hl : ∀ t ∈ ts, t < n) : Local n (b.act ps ts) :=
  act_cases hp ht (local_selectEach hl _) fun i hi j hj =>
    ⟨fun _ _ => local_coupled (hl i hi) (hl j hj), local_exchange (hl i hi) (hl j hj)⟩

lemma ignores_coupled (hi : i ∉ Q) (hj : j ∉ Q) : Ignores Q (coupled P a i j) := by
  intro V; simp only [coupled, ignores_select hi _ _, ignores_select hj _ _]; rfl

lemma ignores_exchange (hi : i ∉ Q) (hj : j ∉ Q) : Ignores Q (exchange i j) := by
  intro V
  funext b
  simp [exchange, flips, flip_update hi, flip_update hj, flip_of_notMem hi, flip_of_notMem hj]

lemma ignores_act (hp : ps.length = b.arity) (ht : b.onTwo = true → ts.length = 2)
    (hQ : ∀ t ∈ ts, t ∉ Q) : Ignores Q (b.act ps ts) :=
  act_cases hp ht (ignores_selectEach hQ _) fun i hi j hj =>
    ⟨fun _ _ => ignores_coupled (hQ i hi) (hQ j hj), ignores_exchange (hQ i hi) (hQ j hj)⟩

end Base

/-! ### Calls with a control state -/

section Call

variable {b : Base} {r : Reach} {ps : List ℝ} {cs ts : List ℕ} {values : List Bool}

lemma Operation.Valid.targets (ho : (Operation.of b r ps cs ts).Valid n) :
    ps.length = b.arity ∧ (b.onTwo = true → ts.length = 2) ∧ cs.Nodup ∧ (∀ t ∈ ts, t ∉ cs) ∧
      (∀ c ∈ cs, c < n) ∧ ∀ t ∈ ts, t < n := by
  obtain ⟨⟨hp, -, hts⟩, hn, hl⟩ := ho
  obtain ⟨hcs, -, hd⟩ := List.nodup_append.mp hn
  have hl' := List.forall_mem_append.mp hl
  exact ⟨hp, fun hb => by simpa [hb] using hts, hcs, fun t ht hc => hd t hc t ht rfl, hl'.1, hl'.2⟩

/-- **A call with a control state goes through**, and flips the positions of zeros around the gate
under its controls. -/
theorem exists_operator_under_state {os : Operands ℝ} (hr : r ≠ .plain)
    (hca : Denotes n (.of b r) os (.of b r ps cs ts))
    (ho : (of b r ps cs ts).Good n) (hlen : values.length = cs.length) {c : Circuit ℝ}
    {g : ℝ} (hc : c.Open n g) (hs : ∀ p ∈ c.steps, p.Within n) :
    ∃ c', c.after (Circuit.apply (.of b r) (os ++ [(.controlState, stateText values)])) = .ok c' ∧
      c'.operator n = matrixOf n (flipsAround (zerosOf values) cs (b.act ps ts)) * c.operator n := by
  have hbi := Circuit.bind_state hca (Circuit.signature_of_controlled b hr) (stateText values)
  have hd := Recording.does_perform_state (c := ⟨.of b r, os, stateText values⟩) hca ho.toValid hr rfl hlen
  have hl := Recording.lt_of_mem_zerosOf_controls ho.toValid hlen
  have hg : ∀ o ∈ around (zerosOf values) (.of b r ps cs ts), o.Good n :=
    forall_mem_around ho (good_flips (nodup_zerosOf values) hl)
  have hw : ∀ p ∈ (around (zerosOf values) (.of b r ps cs ts)).flatMap prims, p.Within n := fun p hp => by
    obtain ⟨o, ho, hp⟩ := mem_flatMap.mp hp; exact within_primsAt (hg o ho).toValid _ p hp
  obtain ⟨c', ha, hop⟩ := (Circuit.does_apply hbi hd).operator hw hc hs
  refine ⟨c', ha, hop.trans ?_⟩
  congr 2
  funext V
  rw [run_flatMap fun o ho V => run_prims (hg o ho) V, acts_around (nodup_zerosOf values)]
  rfl

/-- **A gate with a control state applies where its controls have the values in the state** exactly when
it does nothing at all, or when the positions of zeros, taken as qubits, are those controls that have to
be off, and flipping them leaves the gate as it is. -/
theorem applies_under_state_iff {operands : Operands ℝ} (hr : r ≠ .plain)
    (hcall : Denotes n (.of b r) operands (.of b r ps cs ts))
    (ho : (Operation.of b r ps cs ts).Good n) (hlen : values.length = cs.length) {c : Circuit ℝ}
    {g : ℝ} (hc : c.Open n g) (hsteps : ∀ p ∈ c.steps, p.Within n) :
    ∃ c', c.after (Circuit.apply (.of b r) (operands ++ [(.controlState, stateText values)])) = .ok c' ∧
      (c'.operator n = matrixOf n (gated (matching cs values) (b.act ps ts)) * c.operator n ↔
        matrixOf n (b.act ps ts) = 1 ∨ ((∀ p ∈ cs.zip values, p.1 ∈ zerosOf values ↔ p.2 = false) ∧
            matrixOf n (fun V => flips (zerosOf values) (b.act ps ts (flips (zerosOf values) V))) =
              matrixOf n (b.act ps ts))) := by
  obtain ⟨hp, hts, hcs, hd, hcl, htl⟩ := ho.toValid.targets
  obtain ⟨c', ha, hop⟩ := exists_operator_under_state hr hcall ho hlen hc hsteps
  refine ⟨c', ha, ?_⟩
  rw [hop, Circuit.mul_operator_inj hc.numQubits hsteps]
  exact matrixOf_flipsAround (Base.local_act hp hts htl)
    (fun Q hQ => Base.ignores_act hp hts fun t ht hm => hd t ht (hQ hm)) hcs hlen hcl
    (Recording.lt_of_mem_zerosOf_controls ho.toValid hlen)

end Call

lemma denotes_cx (hc : c < n) (ht : t < n) :
    Denotes n (.of .x .controlled) [(.controlIndex, .int c), (.targetIndex, .int t)] (cx c t) :=
  ⟨rfl, rfl, .cons (Operand.IsIndex.isQubit ⟨rfl, rfl, hc⟩) (.cons (Operand.IsIndex.isQubit ⟨rfl, rfl, ht⟩) .nil)⟩

lemma good_cx (hc : c < n) (ht : t < n) (hct : c ≠ t) : (cx c t).Good n where
  shaped := ⟨rfl, rfl, fun _ => rfl⟩
  nodup := by simpa [qubits] using hct
  lt := by simp [qubits, hc, ht]
  decided := by simp [turns, Base.turns, stairTurns]

/-- With the first qubit as its control, a negation does apply where this is off. -/
theorem applies_under_state_first : ∃ c', (Circuit.empty .reference 2).after (Circuit.apply (.of .x .controlled)
        [(.controlIndex, .int 0), (.targetIndex, .int 1), (.controlState, stateText [false])]) = .ok c' ∧
      c'.operator 2 = matrixOf 2 (gated (matching [0] [false]) (Base.x.act [] [1])) := by
  obtain ⟨c', ha, hi⟩ := applies_under_state_iff (by decide)
    (denotes_cx (n := 2) (c := 0) (t := 1) (by decide) (by decide))
    (good_cx (by decide) (by decide) (by decide)) (show [false].length = [0].length from rfl)
    (Circuit.open_empty 2)
    (by simp [Circuit.steps_empty])
  rw [Circuit.operator_empty, mul_one] at hi
  refine ⟨c', ha, hi.mpr (.inr ⟨by decide, congrArg (matrixOf 2) (funext fun V => ?_)⟩)⟩
  rw [Base.ignores_act rfl (by simp [Base.onTwo]) (by decide), flips_flips]

/-- With the second qubit as its control, the first one is flipped instead, and a negation does not
apply where its control is off. -/
theorem not_applies_under_state_second :
    ∃ c', (Circuit.empty .reference 3).after (Circuit.apply (.of .x .controlled)
        [(.controlIndex, .int 1), (.targetIndex, .int 2), (.controlState, stateText [false])]) = .ok c' ∧
      c'.operator 3 ≠ matrixOf 3 (gated (matching [1] [false]) (Base.x.act [] [2])) := by
  have hg : (Operation.cx 1 2).Good 3 := good_cx (by decide) (by decide) (by decide)
  obtain ⟨c', ha, ho⟩ := exists_operator_under_state
    (by decide) (denotes_cx (c := 1) (t := 2) (by decide) (by decide)) hg
    (show [false].length = [1].length from rfl) (Circuit.open_empty 3) (by simp [Circuit.steps_empty])
  have hl : Local 3 (Base.x.act [] [2]) := Base.local_act rfl (by simp [Base.onTwo]) (by decide)
  refine ⟨c', ha, fun h => ?_⟩
  rw [ho, Circuit.operator_empty, mul_one, matrixOf_flipsAround hl
    (fun Q hQ => Base.ignores_act rfl (by simp [Base.onTwo]) fun t ht hm =>
      hg.toValid.targets.2.2.2.1 t ht (hQ hm)) (by decide) rfl (by decide) (Recording.lt_of_mem_zerosOf_controls hg.toValid rfl)] at h
  obtain hon | ⟨hag, -⟩ := h
  · rw [← matrixOf_id, matrixOf_eq_iff hl (local_id 3)] at hon
    have h := hon (fun b => if b 2 then 1 else 0) (fun _ => false) fun _ _ => rfl
    rw [Base.act_single rfl] at h
    simp [select] at h
  · exact absurd (hag (1, false) (by decide)) (by decide)

end QuantumCircuits
