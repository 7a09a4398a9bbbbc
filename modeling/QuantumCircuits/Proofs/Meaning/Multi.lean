import QuantumCircuits.Proofs.Operation.RotationPlans

/-!
# Meaning — Multi-controlled

Gates under a list of controls do what their definitions do (`acts_multiParts`).  A phase is a
staircase of rotations, each by half the angle before (`acts_stairParts`); everything else is a
controlled gate between inverse gates, or a row of controlled gates, over which the control
distributes.
-/

namespace QuantumCircuits.Operation

open Real List Base
open Complex (I)

variable {cs ts : List ℕ} {b : Base} {t c : ℕ} {axis : Axis} {ps : List ℝ}

/-! ### Rows of operations under the same controls -/

lemma acts_gated {p : Register → Bool} (os : List Operation) {os' : List Operation}
    (h : Forall₂ (fun o o' => o'.act = gated p o.act ∧ Respects p o.act) os os') (V : Wave) :
    acts os' V = gated p (acts os) V := by
  have hr : ∀ {os os' : List Operation}, Forall₂ (fun o o' => o'.act = gated p o.act ∧ Respects p o.act) os os' →
        Respects p (acts os) := by
    intro os os' h
    induction h with
    | nil => exact respects_id p
    | cons h _ ih => exact ih.comp h.2
  induction h generalizing V with
  | nil => exact (congrFun (gated_id p) V).symm
  | cons h hs ih => rw [acts_cons, ih, h.1, gated_comp (hr hs)]; rfl

lemma acts_flatMap (hcs : ∀ t ∈ ts, t ∉ cs) {f : ℕ → List Operation} {M : Square}
    (hf : ∀ t ∈ ts, ∀ V, acts (f t) V = gated (allOn cs) (select t fun _ => M) V) (V : Wave) :
    acts (ts.flatMap f) V = gated (allOn cs) (selectEach ts fun _ => M) V := by
  induction ts generalizing V with
  | nil => exact (congrFun (gated_id _) V).symm
  | cons t ts ih =>
    have hr : ∀ s ∈ ts, s ∉ cs := fun s hs => hcs s (mem_cons_of_mem _ hs)
    rw [flatMap_cons, acts_append, hf t mem_cons_self, ih hr (fun s hs => hf s (mem_cons_of_mem _ hs)),
      gated_comp (respects_selectEach (fun s hs => blind_allOn (hr s hs)) _)]
    rfl

/-! ### Rotations and phases -/

lemma rotationParts_halves (axis : Axis) (a : ℝ) (c d : ℕ) (cs : List ℕ) (t : ℕ) :
    rotationParts axis a (c :: d :: cs) t = halvesParts axis a (c :: d :: cs) t := by
  cases axis <;> rfl

/-- **A rotation of one target under controls.** -/
theorem acts_rotationParts {a : ℝ} (h0 : cs ≠ [])
    (hcs : cs.Nodup) (ht : t ∉ cs) (h : ∀ p ∈ turnsUnder cs.length axis a, Decided p.1 p.2)
    (V : Wave) : acts (rotationParts axis a cs t) V =
      gated (allOn cs) (select t fun _ => (axis.matrix a).asSquare) V := by
  match cs, h0 with
  | [c], _ => exact acts_rotationParts_one axis a (by simpa [eq_comm] using ht) V
  | c :: d :: cs, _ =>
    exact acts_halvesParts (h (axis, a) (by simp [turnsUnder])) hcs ht (by simp) V

/-! ### Powers and general gates -/

lemma act_phase_gated_of_perm (ds : List ℕ) (h : ∀ r, allOn (ds ++ [c]) r = allOn cs r)
    (x : ℝ) (A : Wave → Wave) (V : Wave) : (of .phase .multi [x] ds [c]).act (gated (allOn cs) A V) =
      gated (allOn cs) (fun V => Complex.exp (x * I) • A V) V := by
  rw [← gated_congr h, ← gated_congr h, act_phase_gated]

/-- **A power of a Pauli gate under controls.** -/
theorem acts_powerParts (hb : b.onTwo = false)
    (hs : ∀ a, b.square [a] = (axis.matrix a).asSquare) (p g : ℝ) (h0 : cs ≠ [])
    (t : ℕ) (V : Wave) : acts (powerParts b p g cs t) V =
      gated (allOn cs) (select t fun _ => powerSquare axis p g) V := by
  have hl : cs.dropLast ++ [cs.getLastD 0] = cs := by
    obtain ⟨ds, c, rfl⟩ := eq_nil_or_concat cs |>.resolve_left h0; simp
  have hp : acts (powerParts b p g cs t) V =
      gated (allOn cs) (fun V => Complex.exp ((p * π * (g + 1 / 2) : ℝ) * I) • b.act [p * π] [t] V) V := by
    rw [powerParts, acts_cons, acts_cons, acts_nil]
    split
    · exact act_phase_gated_of_perm _ (fun r => by rw [hl]) _ _ V
    · rename_i hlen
      match cs, h0, hlen with
      | [c], _, _ => exact act_phase_gated_of_perm [] (fun r => rfl) _ _ V
      | c :: d :: cs, _, hlen => exact absurd (by simp) hlen
  rw [hp]
  congr 1
  funext V
  rw [act_single hb, hs]
  exact (select_const_smul t _ _ V).symm

lemma square_general_eq (theta phi lam : ℝ) : Complex.exp (((phi + lam) / 2 : ℝ) * I) •
      (rz.square [phi] * (ry.square [theta] * rz.square [lam])) = u3.square [theta, phi, lam] := by
  rw [square_rz, square_ry, square_rz, square_u3, square_mul, square_mul, smul_square, square_inj]
  have he : ∀ x y z : ℝ, Complex.exp (x * I) * Complex.exp (y * I) *
      Complex.exp (z * I) = Complex.exp ((x + y + z : ℝ) * I) := by
    intro x y z
    rw [exp_angle_add, exp_angle_add]
  have h00 := he ((phi + lam) / 2) (-phi / 2) (-lam / 2)
  have h01 := he ((phi + lam) / 2) (-phi / 2) (lam / 2)
  have h10 := he ((phi + lam) / 2) (phi / 2) (-lam / 2)
  have h11 := he ((phi + lam) / 2) (phi / 2) (lam / 2)
  rw [(by ring : (phi + lam) / 2 + -phi / 2 + -lam / 2 = 0), Complex.ofReal_zero, zero_mul, Complex.exp_zero] at h00
  rw [(by ring : (phi + lam) / 2 + -phi / 2 + lam / 2 = lam)] at h01
  rw [(by ring : (phi + lam) / 2 + phi / 2 + -lam / 2 = phi)] at h10
  rw [(by ring : (phi + lam) / 2 + phi / 2 + lam / 2 = phi + lam)] at h11
  refine ⟨?_, ?_, ?_, ?_⟩
  · linear_combination (cos (theta / 2) : ℂ) * h00
  · linear_combination -(sin (theta / 2) : ℂ) * h01
  · linear_combination (sin (theta / 2) : ℂ) * h10
  · linear_combination (cos (theta / 2) : ℂ) * h11

/-- **The general one-qubit gate under controls.** -/
theorem acts_generalParts (theta phi lam : ℝ) (h0 : cs ≠ []) (ht : t ∉ cs)
    (V : Wave) : acts (generalParts theta phi lam cs t) V =
      gated (allOn cs) (select t fun _ => u3.square [theta, phi, lam]) V := by
  have hp : ∀ r, allOn (cs.tail ++ [cs.headD 0]) r = allOn cs r := by
    intro r
    cases cs with
    | nil => exact absurd rfl h0
    | cons c cs => simp [allOn_append, Bool.and_comm]
  have hr : ∀ M : Square, Respects (allOn cs) (select t fun _ => M) := fun M =>
    respects_select (blind_allOn ht) _
  have ha : ∀ {b : Base} (x : ℝ), b.onTwo = false → (turnUnder b x cs [t]).act =
      gated (allOn cs) (select t fun _ => b.square [x]) := by
    intro b x hb
    rw [act, act_single hb]
    rfl
  rw [generalParts, acts_cons, acts_cons, acts_cons, acts_cons, acts_nil, ha lam rfl,
    ha theta rfl, ha phi rfl, gated_comp (hr _),
    gated_comp ((hr _).comp (hr _)),
    act_phase_gated_of_perm _ hp]
  congr 1
  funext V
  rw [select_select (blind_const t _), select_select (blind_const t _), ← square_general_eq,
    select_const_smul, mul_assoc]

/-! ### The table -/

lemma respects_plain (hb : b.onTwo = false) (ps : List ℝ)
    (h : ∀ t ∈ ts, t ∉ cs) : Respects (allOn cs) (of b .plain ps [] ts).act := by
  rw [act_plain hb]
  exact respects_selectEach (fun t ht => blind_allOn (h t ht)) _

lemma respects_cx (ht : t ∉ cs) : Respects (allOn cs) (cx c t).act := by
  have h : Respects (allOn cs) (of .x .plain [] [] [t]).act := respects_plain rfl [] (by simpa using ht)
  exact h.gated _

lemma act_under_concat (cs : List ℕ) (c t : ℕ) : (under .x (cs ++ [c]) [t]).act = gated (allOn cs) (cx c t).act :=
  gated_allOn_append cs [c] _

/-- **A gate on two qubits under controls does what its definition does.** -/
theorem acts_multiParts_two {i j : ℕ} (hb : b.onTwo = true)
    (hp : ps.length = b.arity) (hij : i ≠ j) (hi : i ∉ cs) (hj : j ∉ cs) (V : Wave) :
    acts (multiParts b ps cs [i, j]) V = gated (allOn cs) (b.act ps [i, j]) V := by
  have ho : ∀ {b : Base} (ps : List ℝ) {t : ℕ}, b.onTwo = false → t ∉ cs →
      (of b .multi ps cs [t]).act = gated (allOn cs) (of b .plain ps [] [t]).act ∧
        Respects (allOn cs) (of b .plain ps [] [t]).act := fun ps _ hb ht =>
    ⟨rfl, respects_plain hb ps (by simpa using ht)⟩
  have hcx : (under .x (cs ++ [i]) [j]).act = gated (allOn cs) (cx i j).act ∧
      Respects (allOn cs) (cx i j).act := ⟨act_under_concat cs i j, respects_cx hj⟩
  cases b <;> simp only [arity, length_eq_zero_iff, length_eq_one_iff, onTwo, Bool.false_eq_true] at hp hb
  case rxx =>
    obtain ⟨a, rfl⟩ := hp
    rw [multiParts, acts_gated [on .h [i], on .h [j], cx i j, turn .rz a [j], cx i j, on .h [i], on .h [j]]]
    · congr 1
      funext V
      rw [← acts_plainParts_two rfl rfl hij]
      simp [plainParts, acts_cons, acts_nil, act_plain (b := .h) rfl, selectEach_cons, selectEach_nil]
    · exact .cons (ho [] rfl hi) (.cons (ho [] rfl hj) (.cons hcx (.cons (ho [a] rfl hj)
        (.cons hcx (.cons (ho [] rfl hi) (.cons (ho [] rfl hj) .nil))))))
  case ryy =>
    obtain ⟨a, rfl⟩ := hp
    rw [multiParts, acts_gated (plainParts .ryy [a] [i, j])]
    · congr 1; funext V; exact acts_plainParts_two rfl rfl hij V
    · exact .cons (ho _ rfl hi) (.cons (ho _ rfl hj) (.cons hcx (.cons (ho [a] rfl hj)
        (.cons hcx (.cons (ho _ rfl hi) (.cons (ho _ rfl hj) .nil))))))
  case rzz =>
    obtain ⟨a, rfl⟩ := hp
    rw [multiParts, acts_gated (plainParts .rzz [a] [i, j])]
    · congr 1; funext V; exact acts_plainParts_two rfl rfl hij V
    · exact .cons hcx (.cons (ho [a] rfl hj) (.cons hcx .nil))
  case swap =>
    have hin : ∀ V, (cx j i).act ((cx j i).act V) = V := by
      intro V
      funext r
      rw [act_cx, act_cx]
      simp only [Function.update_self, Function.update_of_ne hij.symm, Function.update_idem,
        Bool.xor_assoc, Bool.xor_self, Bool.xor_false, Function.update_eq_self]
    have hs : ∀ V, swap.act ps [i, j] V = swap.act ps [j, i] V := by
      intro V
      funext r
      simp only [Base.act, exchange]
      rw [Function.update_comm hij]
    rw [multiParts, acts_cons, acts_cons, acts_cons, acts_nil, hcx.1, gated_conj (respects_cx hi) hin]
    congr 1
    funext V
    rw [hs, ← acts_plainParts_two rfl (by simpa [arity] using hp) hij.symm]
    rfl

/-- **A gate on single qubits under controls does what its definition does.** -/
theorem acts_multiParts (hb : b.onTwo = false)
    (hp : ps.length = b.arity) (h0 : cs ≠ [] ∨ b = .phase) (hcs : cs.Nodup) (hts : ts.Nodup)
    (hd : ∀ t ∈ ts, t ∉ cs) (hde : ∀ p ∈ b.turns ps cs.length, Decided p.1 p.2) (V : Wave) :
    acts (multiParts b ps cs ts) V = gated (allOn cs) (b.act ps ts) V := by
  rw [act_single hb]
  have hbe : ∀ {A B M N : Square}, A * B = 1 → A * M * B = N → ∀ V,
      selectEach ts (fun _ => A) (gated (allOn cs) (selectEach ts fun _ => M)
        (selectEach ts (fun _ => B) V)) = gated (allOn cs) (selectEach ts fun _ => N) V :=
    fun hA hN V => gated_between hd hts hA hN V
  have hm : ∀ (M N : Square) V, selectEach ts (fun _ => M) (selectEach ts (fun _ => N) V) =
      selectEach ts (fun _ => M * N) V := fun M N V =>
    selectEach_selectEach hts (fun s _ => blind_const s M) (fun s _ => blind_const s N) V
  have hu : ∀ (b' : Base) (ps' : List ℝ) V, b'.onTwo = false → (of b' .multi ps' cs ts).act V =
      gated (allOn cs) (selectEach ts fun _ => b'.square ps') V := by
    intro b' ps' V hb'
    rw [act, act_single hb']
  cases b <;> simp only [arity, length_eq_zero_iff, length_eq_one_iff,
    length_eq_two, length_eq_three, onTwo, Bool.true_eq_false, reduceCtorEq,
    or_false] at hp hb h0
  case x =>
    subst hp
    simp only [multiParts, acts_cons, acts_nil, act_plain (b := .h) rfl, hu .phase _ _ rfl]
    rw [square_phase_pi]
    exact hbe square_h_mul_h square_h_z_h V
  case y =>
    subst hp
    refine hbe ?_ square_s_x_sdg V
    rw [square_s_eq, square_sdg, square_phase_mul_neg]
  case z =>
    subst hp
    exact hbe square_h_mul_h square_h_x_h V
  case h =>
    subst hp
    simp only [multiParts, acts_cons, acts_nil, act_plain (b := .h) rfl, act_plain (b := .s) rfl,
      act_plain (b := .sdg) rfl, act_plain (b := .t) rfl, act_plain (b := .tdg) rfl, hm,
      hu .x _ _ rfl]
    rw [← mul_assoc, ← mul_assoc]
    exact hbe square_tilt_mul square_tilt_x V
  case s => rw [square_s_eq]; exact hu _ _ V rfl
  case sdg => rw [square_sdg]; exact hu _ _ V rfl
  case t => rw [square_t]; exact hu _ _ V rfl
  case tdg => rw [square_tdg]; exact hu _ _ V rfl
  case rx | ry | rz =>
    obtain ⟨a, rfl⟩ := hp
    exact acts_flatMap hd (fun t ht V => acts_rotationParts h0 hcs (hd t ht) hde V) V
  case phase =>
    obtain ⟨a, rfl⟩ := hp
    refine acts_flatMap hd (fun t ht V => ?_) V
    rw [acts_stairParts, pow_zero, div_one]
  case xPow | yPow | zPow =>
    obtain ⟨p, g, rfl⟩ := hp
    exact acts_flatMap hd (fun t ht V => acts_powerParts rfl (fun _ => rfl) p g h0 t V) V
  case u3 =>
    obtain ⟨theta, phi, lam, rfl⟩ := hp
    exact acts_flatMap hd (fun t ht V => acts_generalParts theta phi lam h0 (hd t ht) V) V

end QuantumCircuits.Operation

/-! ### Multi-controlled plans

Gates under a list of controls: each target in turn, by rotations under the controls.
-/

namespace QuantumCircuits.Plan

open List Operation Operand

variable {n : ℕ} {x y z : Operand ℝ} {cs ts : List ℕ}
variable {a : ℝ} {xs : List (Operand ℝ)} {b : Base}

/-! ### Rotations and phases -/

lemma stands_rotations (axis : Axis) (hz : z.IsNumber a) (hx : x.IsSequence n cs)
    (hy : y.IsSequence n ts) (h0 : cs ≠ []) (hts : ∀ t ∈ ts, t ∉ cs ∧ cs.length < n) :
    Stands n (rotations n axis z x y) (ts.flatMap (rotationParts axis a cs)) () := by
  obtain ⟨ys, hi, hys⟩ := hy.items
  obtain ⟨xs, hto, hxs⟩ := hx.toList
  refine .after_get hi (stands_forM_qubits hys fun w t ht hw => ?_)
  exact .after_get hto (stands_rotation axis hz hxs hw h0 (hts t ht).1 (hts t ht).2)

lemma forall₂_concat {β γ : Type} {R : β → γ → Prop} {xs : List β} {ys : List γ} {y : γ}
    (h : Forall₂ R xs (ys ++ [y])) : ∃ xs' x, xs = xs' ++ [x] ∧ Forall₂ R xs' ys ∧ R x y := by
  have hr := rel_reverse h
  rw [reverse_append, reverse_singleton, singleton_append] at hr
  obtain ⟨x, rest, hx, hre, hxs⟩ := forall₂_cons_right_iff.mp hr
  refine ⟨rest.reverse, x, ?_, ?_, hx⟩
  · rw [← reverse_cons, ← hxs, reverse_reverse]
  · simpa using rel_reverse hre

lemma staircase_concat (angle : Operand ℝ) (k : ℕ) (xs : List (Operand ℝ)) (c x : Operand ℝ) :
    staircase angle k (xs ++ [c]) x = (do
      turnUnder .rz (← Plan.get (angle.quotient (Scalar.npow 2.0 k))) (.list (xs ++ [c])) x
      staircase angle (k + 1) xs c) := by
  rw [staircase]
  split
  · simp_all
  · rename_i c' hc'
    rw [getLast?_concat, Option.some.injEq] at hc'
    rw [dropLast_concat, ← hc']

lemma stands_staircase (hz : z.IsNumber a) {t : ℕ} (k : ℕ) (hxs : Forall₂ (IsQubit n) xs cs) (hx : x.IsQubit n t) :
    Stands n (staircase z k xs x) (stairParts a k cs t) () := by
  have hq : ∀ k, z.quotient (Scalar.npow 2.0 k) = .ok (.real (a / 2 ^ k)) := fun k => by
    simpa using hz.quotient (Scalar.npow 2.0 k)
  induction cs using reverseRecOn generalizing k xs x t with
  | nil =>
    obtain rfl := forall₂_nil_right_iff.mp hxs
    rw [staircase, stairParts_nil]
    exact .after_get (hq k) (stands_turn rfl rfl hx.isQubits)
  | append_singleton cs c ih =>
    obtain ⟨xs', w, rfl, hxs', hw⟩ := forall₂_concat hxs
    rw [staircase_concat, stairParts_concat]
    refine .after_get (hq k) (.before ?_ (ih (k + 1) hxs' hw))
    exact stands_turnUnder rfl rfl (IsSequence.list hxs).isQubits hx.isQubits

lemma stands_phases (hz : z.IsNumber a) (hx : x.IsSequence n cs) (hy : y.IsSequence n ts) :
    Stands n (phases z x y) (ts.flatMap (stairParts a 0 cs)) () := by
  obtain ⟨ys, hi, hys⟩ := hy.items
  obtain ⟨xs, hi', hxs⟩ := hx.items
  refine .after_get hi (stands_forM_qubits hys fun w t _ hw => ?_)
  exact .after_get hi' (stands_staircase hz 0 hxs hw)

/-! ### Powers and general gates -/

lemma stands_powers {w : Operand ℝ} {p g : ℝ}
    (hs : ∀ r t, (Operation.turnUnder b r cs [t]).slots = [.angle r, .qubits cs, .qubits [t]])
    (hz : z.IsNumber p) (hw : w.IsNumber g) (hx : x.IsSequence n cs) (hy : y.IsSequence n ts) (h0 : cs ≠ []) :
    Stands n (powers b z w x y) (ts.flatMap (powerParts b p g cs)) () := by
  obtain ⟨ys, hi, hys⟩ := hy.items
  refine .after_get hi (stands_forM_qubits hys fun v t _ hv => ?_)
  have hp : (real (p * Real.pi)).multiply (.real (g + 0.5)) = .ok (.real (p * Real.pi * (g + 1 / 2))) := by
    refine Eq.trans (b := .ok (.real ((g + 0.5) * (p * Real.pi)))) rfl ?_
    rw [Scalar.real_half, mul_comm]
  refine .after_get (hz.times _) (.before (stands_turnUnder (hs _ t) rfl hx.isQubits hv.isQubits) ?_)
  refine .after_get hx.length (.after_get (hz.times _) (.after_get (hw.plus _) ?_))
  refine .after_get hp ?_
  by_cases h1 : 1 < cs.length
  · obtain ⟨u, hu, hse⟩ := hx.dropLast
    obtain ⟨l, hl, hla⟩ := hx.last h0
    rw [if_pos h1, if_pos h1]
    exact .after_get hu (.after_get hl (stands_turnUnder rfl rfl hse.isQubits hla.isQubits))
  · obtain ⟨l, hl, hfi⟩ := hx.item (length_pos_iff.mpr h0)
    have hh : cs.headD 0 = cs.getD 0 0 := by cases cs <;> rfl
    rw [if_neg h1, if_neg h1, hh]
    exact .after_get hl (stands_turn rfl rfl hfi.isQubits)

lemma stands_generals {theta phi lam : ℝ} (hz : z.IsNumbers [theta, phi, lam])
    (hx : x.IsSequence n cs) (hy : y.IsSequence n ts) (h0 : cs ≠ []) :
    Stands n (generals z x y) (ts.flatMap (generalParts theta phi lam cs)) () := by
  obtain ⟨ys, hi, hys⟩ := hy.items
  obtain ⟨z₀, hz₀, ht⟩ := hz.item (i := 0) (by simp)
  obtain ⟨z₁, hz₁, hp⟩ := hz.item (i := 1) (by simp)
  obtain ⟨z₂, hz₂, hla⟩ := hz.item (i := 2) (by simp)
  obtain ⟨s, hs, hsu⟩ := hp.sum hla
  obtain ⟨u, hu, hse⟩ := hx.dropFirst
  obtain ⟨l, hl, hfi⟩ := hx.item (length_pos_iff.mpr h0)
  have hh : cs.headD 0 = cs.getD 0 0 := by cases cs <;> rfl
  have hto : (do (← z.item 1).sum (← z.item 2)) = Except.ok s := by
    rw [show z.item 1 = .ok z₁ from hz₁, show z.item 2 = .ok z₂ from hz₂]; exact hs
  refine .after_get hi (stands_forM_qubits hys fun v t _ hv => ?_)
  refine .after_get hz₂ (.before (stands_turnUnder rfl hla hx.isQubits hv.isQubits) ?_)
  refine .after_get hz₀ (.before (stands_turnUnder rfl ht hx.isQubits hv.isQubits) ?_)
  refine .after_get hz₁ (.before (stands_turnUnder rfl hp hx.isQubits hv.isQubits) ?_)
  refine .after_get hto (.after_get (hsu.quotient _) (.after_get hu (.after_get hl ?_)))
  rw [hh]
  exact stands_turnUnder rfl (by simp) hse.isQubits hfi.isQubits

/-! ### The table -/

lemma stands_joined {c : ℕ} (hx : x.IsSequence n cs) (hy : y.IsQubit n c) :
    ∃ w, Stands n (joined x y) [] w ∧ w.IsQubits n (cs ++ [c]) := by
  obtain ⟨xs, ht, hxs⟩ := hx.toList
  refine ⟨.list (xs ++ [y]), .after_get ht (stands_get rfl), ?_⟩
  exact (IsSequence.list (rel_append hxs (.cons hy .nil))).isQubits

/-- **The plan of a gate under a list of controls.** -/
theorem stands_ofMulti {ps : List ℝ} (hps : ps.length = b.arity)
    (h0 : cs ≠ [] ∨ b = .phase) (hts : b.onTwo = true → ts.length = 2) (hd : ∀ t ∈ ts, t ∉ cs ∧ cs.length < n)
    (h : List.Forall₂ (Slot.Means n) (b.slots ps ++ [.qubits cs] ++ b.targetSlots .multi ts) xs) :
    Stands n (ofMulti n b xs) (Operation.multiParts b ps cs ts) () := by
  have hh := isNumber_half
  have hm := isNumber_minusHalf
  have hli : ∀ {x qs}, IsQubits n x qs → IsQubits n x.listed qs := fun hq =>
    hq.listed
  have ho : ∀ {x q}, IsQubit n x q → IsQubits n x [q] := fun hq => hq.isQubits
  cases takes hps with
  | x =>
    obtain ⟨c, t, rfl, hc, ht⟩ := forall₂_two h
    exact .before (stands_on rfl (hli ht)) <|
      .before (stands_turnUnder rfl rfl (hli hc) (hli ht)) (stands_on rfl (hli ht))
  | y | z =>
    obtain ⟨c, t, rfl, hc, ht⟩ := forall₂_two h
    exact .before (stands_on rfl (hli ht)) <|
      .before (stands_under rfl (hli hc) (hli ht)) (stands_on rfl (hli ht))
  | h =>
    obtain ⟨c, t, rfl, hc, ht⟩ := forall₂_two h
    have ht' := hli ht
    exact .before (stands_on rfl ht') <| .before (stands_on rfl ht') <| .before (stands_on rfl ht') <|
      .before (stands_under rfl (hli hc) ht') <| .before (stands_on rfl ht') <|
        .before (stands_on rfl ht') (stands_on rfl ht')
  | s | sdg | t | tdg =>
    obtain ⟨c, t, rfl, hc, ht⟩ := forall₂_two h
    exact stands_turnUnder rfl (by simp) (hli hc) (hli ht)
  | rx a | ry a | rz a =>
    obtain ⟨w, c, t, rfl, hw, hc, ht⟩ := forall₂_three h
    exact stands_rotations _ hw hc ht (h0.resolve_right (by simp)) hd
  | phase a =>
    obtain ⟨w, c, t, rfl, hw, hc, ht⟩ := forall₂_three h
    exact stands_phases hw hc ht
  | xPow p g | yPow p g | zPow p g =>
    obtain ⟨u, w, c, t, rfl, hu, hw, hc, ht⟩ := forall₂_four h
    exact stands_powers (fun _ _ => rfl) hu hw hc ht (h0.resolve_right (by simp))
  | u3 theta phi lam =>
    obtain ⟨w, c, t, rfl, hw, hc, ht⟩ := forall₂_three h
    exact stands_generals hw hc ht (h0.resolve_right (by simp))
  | rxx a =>
    obtain ⟨i, j, rfl⟩ := length_eq_two.mp (hts rfl)
    obtain ⟨w, c, p, q, rfl, hw, hc, hp, hq⟩ := forall₂_four h
    obtain ⟨l, hl, ha⟩ := stands_joined hc hp
    have hc' := hli hc
    exact .before (stands_under rfl hc' (ho hp)) <| .before (stands_under rfl hc' (ho hq)) <|
      hl.bind <| .before (stands_under rfl ha (ho hq)) <|
      .before (stands_turnUnder rfl hw hc' (ho hq)) <|
      hl.bind <| .before (stands_under rfl ha (ho hq)) <|
      .before (stands_under rfl hc' (ho hp)) (stands_under rfl hc' (ho hq))
  | ryy a =>
    obtain ⟨i, j, rfl⟩ := length_eq_two.mp (hts rfl)
    obtain ⟨w, c, p, q, rfl, hw, hc, hp, hq⟩ := forall₂_four h
    obtain ⟨l, hl, ha⟩ := stands_joined hc hp
    have hc' := hli hc
    exact .before (stands_turnUnder rfl hh hc' (ho hp)) <| .before (stands_turnUnder rfl hh hc' (ho hq)) <|
      hl.bind <| .before (stands_under rfl ha (ho hq)) <|
      .before (stands_turnUnder rfl hw hc' (ho hq)) <|
      hl.bind <| .before (stands_under rfl ha (ho hq)) <|
      .before (stands_turnUnder rfl hm hc' (ho hp)) (stands_turnUnder rfl hm hc' (ho hq))
  | rzz a =>
    obtain ⟨i, j, rfl⟩ := length_eq_two.mp (hts rfl)
    obtain ⟨w, c, p, q, rfl, hw, hc, hp, hq⟩ := forall₂_four h
    obtain ⟨l, hl, ha⟩ := stands_joined hc hp
    exact hl.bind <| .before (stands_under rfl ha (ho hq)) <|
      .before (stands_turnUnder rfl hw (hli hc) (ho hq)) <|
      hl.bind (stands_under rfl ha (ho hq))
  | swap =>
    obtain ⟨i, j, rfl⟩ := length_eq_two.mp (hts rfl)
    obtain ⟨c, p, q, rfl, hc, hp, hq⟩ := forall₂_three h
    obtain ⟨l, hl, ha⟩ := stands_joined hc hp
    exact .before (stands_cx hq hp) <| hl.bind <| .before (stands_under rfl ha (ho hq)) (stands_cx hq hp)

end QuantumCircuits.Plan
