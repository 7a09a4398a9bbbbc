import QuantumCircuits.Proofs.Operation.Denotes

/-!
# Operation — Plans

The calls that a gate is defined by stand for the parts of the operation that the call stands for.
`Plan.Stands` relates a plan to the operations its calls denote; it goes through plans one step after
the other.
-/

namespace QuantumCircuits

open List Operation Operand

/-! ### Changes -/

namespace Change

variable {σ β γ : Type}

lemma perform_bind (x : Change σ β) (f : β → Change σ γ) (s : σ) : perform (x >>= f) s = match perform x s with
      | (.ok b, s) => perform (f b) s
      | (.error e, s) => (.error e, s) := by
  change ExceptT.bindCont f (perform x s).1 (perform x s).2 = _
  rcases perform x s with ⟨_ | _, _⟩ <;> rfl

lemma perform_pure (b : β) (s : σ) : perform (pure b : Change σ β) s = (.ok b, s) := rfl

lemma perform_ofOutcome_ok (b : β) (s : σ) : perform (ofOutcome (.ok b) : Change σ β) s = (.ok b, s) := rfl

lemma perform_modify (f : σ → σ) (s : σ) : perform (modify f : Change σ PUnit) s = (.ok (), f s) := rfl

lemma perform_ofOutcome_bind (b : β) (f : β → Change σ γ) (s : σ) :
    perform (ofOutcome (.ok b) >>= f) s = perform (f b) s := rfl

lemma perform_get_bind (f : σ → Change σ γ) (s : σ) : perform (get >>= f) s = perform (f s) s := rfl

lemma perform_modify_bind (g : σ → σ) (f : PUnit → Change σ γ) (s : σ) :
    perform (modify g >>= f) s = perform (f ()) (g s) := rfl

lemma perform_bind_ok {x : Change σ β} {f : β → Change σ γ} {s t : σ} {b : β}
    (h : perform x s = (.ok b, t)) : perform (x >>= f) s = perform (f b) t := by
  rw [perform_bind, h]

end Change

namespace Plan

variable {n : ℕ} {β γ : Type}
variable {xs : List (Operand ℝ)} {b : Base} {os : List Operation} {o : Operation} {f : β → Plan ℝ γ} {r' : γ} {r : β}
  {x y z : Operand ℝ} {p g : ℝ} {ts : List ℕ} {ps : List ℝ} {c t : ℕ}

/-- The plan's calls stand for operations, and it ends with a value. -/
def Stands (n : ℕ) (p : Plan ℝ β) (os : List Operation) (r : β) : Prop :=
  ∃ calls : List (Call ℝ), (∀ acc, Change.perform p acc = (.ok r, acc ++ calls.toArray)) ∧
    Forall₂ (fun c o => c.controlState = .none ∧ Denotes n c.gate c.operands o) calls os

lemma stands_pure (r : β) : Stands n (pure r) [] r := ⟨[], fun acc => by rw [Change.perform_pure]; simp, .nil⟩

lemma stands_get {x : Outcome β} (h : x = .ok r) : Stands n (Plan.get x) [] r := by
  subst h; exact ⟨[], fun acc => by rw [get, Change.perform_ofOutcome_ok]; simp, .nil⟩

lemma Stands.bind {p : Plan ℝ β} {os' : List Operation}
    (hp : Stands n p os r) (hf : Stands n (f r) os' r') : Stands n (p >>= f) (os ++ os') r' := by
  obtain ⟨calls, hca, ho⟩ := hp
  obtain ⟨calls', hca', ho'⟩ := hf
  refine ⟨calls ++ calls', fun acc => ?_, rel_append ho ho'⟩
  rw [Change.perform_bind_ok (hca acc), hca']
  simp

lemma Stands.after_get {x : Outcome β}
    (hx : x = .ok r) (hf : Stands n (f r) os r') : Stands n (Plan.get x >>= f) os r' :=
  (stands_get hx).bind hf

lemma Stands.before {p : Plan ℝ Unit} {f : Unit → Plan ℝ γ}
    (hp : Stands n p [o] ()) (hf : Stands n (f ()) os r') : Stands n (p >>= f) (o :: os) r' :=
  hp.bind hf

lemma slots_length (o : Operation) : o.slots.length = o.gate.keys.length := by
  cases o with
  | of b r ps cs ts => cases b <;> cases r <;> rfl
  | _ => rfl

lemma denotes_zip (h : Forall₂ (Slot.Means n) o.slots xs) : Denotes n o.gate (o.gate.keys.zip xs) o := by
  have hlen : o.gate.keys.length = xs.length := (slots_length o).symm.trans h.length_eq
  exact ⟨rfl, map_fst_zip hlen.le, by rwa [map_snd_zip hlen.ge]⟩

/-- **A call stands for the operation that its operands denote.** -/
theorem stands_call {ss : List Slot} (hs : o.slots = ss) (h : Forall₂ (Slot.Means n) ss xs) :
    Stands n (call o.gate xs) [o] () := by
  subst hs
  exact ⟨[⟨o.gate, o.gate.keys.zip xs, .none⟩], fun _ => rfl, .cons ⟨rfl, denotes_zip h⟩ .nil⟩

section Calls

variable {b : Base} {x y z w : Operand ℝ} {cs ts : List ℕ} {c t : ℕ} {r theta phi lam : ℝ}

lemma stands_on (hs : (Operation.on b ts).slots = [.qubits ts]) (hx : x.IsQubits n ts) :
    Stands n (on b x) [Operation.on b ts] () :=
  stands_call hs (.cons hx .nil)

lemma stands_turn (hs : (Operation.turn b r ts).slots = [.angle r, .qubits ts])
    (hy : y.IsNumber r) (hx : x.IsQubits n ts) : Stands n (turn b y x) [Operation.turn b r ts] () :=
  stands_call hs (.cons hy (.cons hx .nil))

lemma stands_u3 (hx : x.IsNumber theta) (hy : y.IsNumber phi) (hz : z.IsNumber lam)
    (hw : w.IsQubits n ts) : Stands n (u3 x y z w) [general theta phi lam ts] () :=
  stands_call (o := general theta phi lam ts) rfl (.cons (.cons hx (.cons hy (.cons hz .nil))) (.cons hw .nil))

lemma stands_cx (hx : x.IsQubit n c) (hy : y.IsQubit n t) : Stands n (cx x y) [Operation.cx c t] () :=
  stands_call (o := Operation.cx c t) rfl (.cons hx (.cons hy .nil))

lemma stands_under (hs : (Operation.under b cs ts).slots = [.qubits cs, .qubits ts])
    (hx : x.IsQubits n cs) (hy : y.IsQubits n ts) : Stands n (under b x y) [Operation.under b cs ts] () :=
  stands_call hs (.cons hx (.cons hy .nil))

lemma stands_turnUnder (hs : (Operation.turnUnder b r cs ts).slots = [.angle r, .qubits cs, .qubits ts])
    (hz : z.IsNumber r) (hx : x.IsQubits n cs) (hy : y.IsQubits n ts) :
    Stands n (turnUnder b z x y) [Operation.turnUnder b r cs ts] () :=
  stands_call hs (.cons hz (.cons hx (.cons hy .nil)))

lemma stands_globalPhase (hx : x.IsNumber r) : Stands n (globalPhase x) [Operation.globalPhase r] () :=
  stands_call (o := Operation.globalPhase r) rfl (.cons hx .nil)

end Calls

/-! ### Operands in slots -/

section Slots

variable {β γ : Type} {R : β → γ → Prop} {a b c d : β} {xs : List γ}

lemma forall₂_one (h : Forall₂ R [a] xs) : ∃ x, xs = [x] ∧ R a x := by
  obtain ⟨x, rest, hx, hn, rfl⟩ := forall₂_cons_left_iff.mp h
  obtain rfl := forall₂_nil_left_iff.mp hn
  exact ⟨x, rfl, hx⟩

lemma forall₂_two (h : Forall₂ R [a, b] xs) : ∃ x y, xs = [x, y] ∧ R a x ∧ R b y := by
  obtain ⟨x, rest, hx, hr, rfl⟩ := forall₂_cons_left_iff.mp h
  obtain ⟨y, rfl, hy⟩ := forall₂_one hr
  exact ⟨x, y, rfl, hx, hy⟩

lemma forall₂_three (h : Forall₂ R [a, b, c] xs) : ∃ x y z, xs = [x, y, z] ∧ R a x ∧ R b y ∧ R c z := by
  obtain ⟨x, rest, hx, hr, rfl⟩ := forall₂_cons_left_iff.mp h
  obtain ⟨y, z, rfl, hy, hz⟩ := forall₂_two hr
  exact ⟨x, y, z, rfl, hx, hy, hz⟩

lemma forall₂_four (h : Forall₂ R [a, b, c, d] xs) : ∃ x y z w, xs = [x, y, z, w] ∧ R a x ∧ R b y ∧ R c z ∧ R d w := by
  obtain ⟨x, rest, hx, hr, rfl⟩ := forall₂_cons_left_iff.mp h
  obtain ⟨y, z, w, rfl, hy, hz, hw⟩ := forall₂_three hr
  exact ⟨x, y, z, w, rfl, hx, hy, hz, hw⟩

end Slots

/-! ### Plain gates -/

lemma isNumber_half : (real (Scalar.pi / 2.0 : ℝ)).IsNumber (Real.pi / 2) := by simp

lemma isNumber_minusHalf : (real (-(Scalar.pi / 2.0) : ℝ)).IsNumber (-(Real.pi / 2)) := by simp

lemma stands_power (hs : ∀ r, (Operation.turn b r ts).slots = [.angle r, .qubits ts])
    (hx : x.IsNumber p) (hy : y.IsNumber g) (hz : z.IsQubits n ts) :
    Stands n (power b x y z) [Operation.turn b (p * Real.pi) ts,
      .globalPhase (p * Real.pi * (g + 1 / 2) * ts.length)] () := by
  have hp : (real (p * Real.pi)).multiply (.real (g + 0.5)) = .ok (.real ((g + 0.5) * (p * Real.pi))) := rfl
  refine .after_get (hx.times _) (.before (stands_turn (hs _) rfl hz.listed) ?_)
  refine .after_get (hx.times _) (.after_get (hy.plus _) (.after_get hp ?_))
  refine .after_get (IsSequence.length hz) (.after_get rfl ?_)
  refine stands_globalPhase ?_
  rw [isNumber_real, Scalar.ofNat_real, Scalar.real_half]
  ring

/-- **The plan of a plain gate.** -/
theorem stands_ofPlain (hu : b ≠ .u3) (hps : ps.length = b.arity) (ht : b.onTwo = true → ts.length = 2)
    (h : List.Forall₂ (Slot.Means n) (b.slots ps ++ b.targetSlots .plain ts) xs) :
    Stands n (ofPlain b xs) (Operation.plainParts b ps ts) () := by
  have hh := isNumber_half
  have hm := isNumber_minusHalf
  have hze := isNumber_int_zero
  cases takes hps with
  | x | y | h =>
    obtain ⟨q, rfl, hq⟩ := forall₂_one h
    exact stands_u3 (by simp) (by first | exact hze | exact hh) (by simp) hq
  | z | s | sdg | t | tdg =>
    obtain ⟨q, rfl, hq⟩ := forall₂_one h
    exact stands_turn rfl (by simp) hq
  | rx a =>
    obtain ⟨x, q, rfl, hx, hq⟩ := forall₂_two h
    exact stands_u3 hx hm hh hq
  | ry a =>
    obtain ⟨x, q, rfl, hx, hq⟩ := forall₂_two h
    exact stands_u3 hx hze hze hq
  | rz a =>
    obtain ⟨x, q, rfl, hx, hq⟩ := forall₂_two h
    obtain ⟨y, hy, hn⟩ := IsNumber.negate hx
    have hq' := IsQubits.listed hq
    exact .before (stands_turn rfl hh hq') <| .after_get hy <|
      .before (stands_turn rfl hn hq') (stands_turn rfl hm hq')
  | phase a =>
    obtain ⟨x, q, rfl, hx, hq⟩ := forall₂_two h
    exact stands_u3 hze hze hx hq
  | xPow p g | yPow p g | zPow p g =>
    obtain ⟨x, y, q, rfl, hx, hy, hq⟩ := forall₂_three h
    exact stands_power (fun _ => rfl) hx hy hq
  | u3 => exact absurd rfl hu
  | rxx a =>
    obtain ⟨i, j, rfl⟩ := length_eq_two.mp (ht rfl)
    obtain ⟨x, p, q, rfl, hx, hp, hq⟩ := forall₂_three h
    have hpq : (list [p, q]).IsQubits n [i, j] := (IsSequence.list (.cons hp (.cons hq .nil))).isQubits
    exact .before (stands_on rfl hpq) <| .before (stands_cx hp hq) <|
      .before (stands_turn rfl hx (IsQubit.isQubits hq)) <| .before (stands_cx hp hq) (stands_on rfl hpq)
  | ryy a =>
    obtain ⟨i, j, rfl⟩ := length_eq_two.mp (ht rfl)
    obtain ⟨x, p, q, rfl, hx, hp, hq⟩ := forall₂_three h
    have hp' := IsQubit.isQubits hp
    have hq' := IsQubit.isQubits hq
    exact .before (stands_turn rfl hh hp') <| .before (stands_turn rfl hh hq') <|
      .before (stands_cx hp hq) <| .before (stands_turn rfl hx hq') <| .before (stands_cx hp hq) <|
        .before (stands_turn rfl hm hp') (stands_turn rfl hm hq')
  | rzz a =>
    obtain ⟨i, j, rfl⟩ := length_eq_two.mp (ht rfl)
    obtain ⟨x, p, q, rfl, hx, hp, hq⟩ := forall₂_three h
    exact .before (stands_cx hp hq) <| .before (stands_turn rfl hx (IsQubit.isQubits hq)) (stands_cx hp hq)
  | swap =>
    obtain ⟨i, j, rfl⟩ := length_eq_two.mp (ht rfl)
    obtain ⟨p, q, rfl, hp, hq⟩ := forall₂_two h
    exact .before (stands_cx hp hq) <| .before (stands_cx hq hp) (stands_cx hp hq)

/-! ### Gates with one control -/

lemma stands_controlledPower {w : Operand ℝ}
    (hs : ∀ r, (of b .controlled [r] [c] [t]).slots = [.angle r, .qubit c, .qubit t])
    (hx : x.IsNumber p) (hy : y.IsNumber g) (hz : z.IsQubit n c) (hw : w.IsQubit n t) :
    Stands n (controlledPower b x y z w) [.of b .controlled [p * Real.pi] [c] [t],
      Operation.turn .phase (p * Real.pi * (g + 1 / 2)) [c]] () := by
  have hp : (real (p * Real.pi)).multiply (.real (g + 0.5)) = .ok (.real ((g + 0.5) * (p * Real.pi))) := rfl
  have ht : Stands n (controlledTurn b (.real (p * Real.pi)) z w) [.of b .controlled [p * Real.pi] [c] [t]] () :=
    stands_call (hs _) (.cons rfl (.cons hz (.cons hw .nil)))
  refine .after_get (hx.times _) (.before ht ?_)
  refine .after_get (hx.times _) (.after_get (hy.plus _) (.after_get hp ?_))
  refine stands_turn rfl ?_ hz.isQubits
  rw [isNumber_real, Scalar.real_half]
  ring

/-- **The plan of a gate with one control.** -/
theorem stands_ofControlled (hb : b.onTwo = false) (hx : b ≠ .x) (hps : ps.length = b.arity)
    (h : List.Forall₂ (Slot.Means n) (b.slots ps ++ [.qubit c, .qubit t]) xs) :
    Stands n (ofControlled b xs) (Operation.controlledParts b ps c t) () := by
  have ho : ∀ {x q}, IsQubit n x q → IsQubits n x [q] := fun hq => hq.isQubits
  have he : (real (Scalar.pi / 8.0 : ℝ)).IsNumber (Real.pi / 8) := by simp
  have hm : (real (-(Scalar.pi / 8.0) : ℝ)).IsNumber (-(Real.pi / 8)) := by simp
  cases takes hps with
  | x => exact absurd rfl hx
  | y | z =>
    obtain ⟨p, q, rfl, hp, hq⟩ := forall₂_two h
    exact .before (stands_on rfl (ho hq)) <| .before (stands_cx hp hq) (stands_on rfl (ho hq))
  | h =>
    obtain ⟨p, q, rfl, hp, hq⟩ := forall₂_two h
    have hq' := ho hq
    exact .before (stands_on rfl hq') <| .before (stands_on rfl hq') <| .before (stands_on rfl hq') <|
      .before (stands_cx hp hq) <| .before (stands_on rfl hq') <| .before (stands_on rfl hq') (stands_on rfl hq')
  | s | sdg =>
    obtain ⟨p, q, rfl, hp, hq⟩ := forall₂_two h
    exact .before (stands_on rfl (ho hp)) <| .before (stands_cx hp hq) <|
      .before (stands_on rfl (ho hq)) <| .before (stands_cx hp hq) (stands_on rfl (ho hq))
  | t =>
    obtain ⟨p, q, rfl, hp, hq⟩ := forall₂_two h
    exact .before (stands_turn rfl he (ho hq)) <| .before (stands_cx hp hq) <|
      .before (stands_turn rfl hm (ho hq)) <| .before (stands_cx hp hq) (stands_turn rfl he (ho hp))
  | tdg =>
    obtain ⟨p, q, rfl, hp, hq⟩ := forall₂_two h
    exact .before (stands_turn rfl hm (ho hp)) <| .before (stands_cx hp hq) <|
      .before (stands_turn rfl he (ho hq)) <| .before (stands_cx hp hq) (stands_turn rfl hm (ho hq))
  | rx a | ry a | rz a =>
    obtain ⟨x, p, q, rfl, hx, hp, hq⟩ := forall₂_three h
    exact stands_turnUnder rfl hx (ho hp) (ho hq)
  | phase a =>
    obtain ⟨x, p, q, rfl, hx, hp, hq⟩ := forall₂_three h
    obtain ⟨y, hy, hn⟩ := IsNumber.negate hx
    refine .after_get (IsNumber.quotient hx _) ?_
    refine .before (stands_turn rfl (by simp) (ho hp)) (.before (stands_cx hp hq) ?_)
    refine .after_get hy (.after_get (hn.quotient _) ?_)
    refine .before (stands_turn rfl (by simp) (ho hq)) (.before (stands_cx hp hq) ?_)
    exact .after_get (IsNumber.quotient hx _) (stands_turn rfl (by simp) (ho hq))
  | xPow e g | yPow e g | zPow e g =>
    obtain ⟨x, y, p, q, rfl, hx, hy, hp, hq⟩ := forall₂_four h
    exact stands_controlledPower (fun _ => rfl) hx hy hp hq
  | u3 =>
    obtain ⟨x, p, q, rfl, hx, hp, hq⟩ := forall₂_three h
    exact stands_call (o := .of .u3 .multi [_, _, _] [c] [t]) rfl (.cons hx (.cons (ho hp) (.cons (ho hq) .nil)))
  | rxx | ryy | rzz | swap => cases hb

end Plan

end QuantumCircuits

/-! ### Chain plans

Negations under controls: the plans of small ones, and of chains with borrowed ancillas.
-/

namespace QuantumCircuits.Plan

open List Operand Chain

variable {n : ℕ}

open Operation (ccxParts c3xParts linkParts unlinkParts turningParts sweepParts chainParts)

variable {xs : List (Operand ℝ)}

/-! ### Repetition -/

lemma stands_forM {ι : Type} {is : List ι} {f : ι → Plan ℝ Unit} {ps : ι → List Operation}
    (h : ∀ i ∈ is, Stands n (f i) (ps i) ()) : Stands n (is.forM f) (is.flatMap ps) () := by
  induction is with
  | nil => exact stands_pure ()
  | cons i is ih =>
    exact (h i mem_cons_self).bind (ih fun j hj => h j (mem_cons_of_mem _ hj))

lemma stands_forM_qubits {qs : List ℕ} {f : Operand ℝ → Plan ℝ Unit}
    {ps : ℕ → List Operation} (hxs : Forall₂ (IsQubit n) xs qs)
    (h : ∀ x, ∀ q ∈ qs, x.IsQubit n q → Stands n (f x) (ps q) ()) :
    Stands n (xs.forM f) (qs.flatMap ps) () := by
  induction hxs with
  | nil => exact stands_pure ()
  | cons hx _ ih =>
    exact (h _ _ mem_cons_self hx).bind (ih fun x q hq => h x q (mem_cons_of_mem _ hq))

/-! ### Small negations -/

section Small

variable {x y z t : Operand ℝ} {a b c q : ℕ}

lemma stands_ccx (hx : x.IsQubit n a) (hy : y.IsQubit n b) (ht : t.IsQubit n q) :
    Stands n (ControlledX.ccx (.list [x, y]) t) (ccxParts a b q) () := by
  have ht' := ht.isQubits
  refine .after_get rfl ?_
  refine .before (stands_on rfl ht') (.after_get rfl (.before (stands_cx hy ht) ?_))
  refine .before (stands_on rfl ht') (.after_get rfl (.before (stands_cx hx ht) ?_))
  refine .before (stands_on rfl ht') (.after_get rfl (.before (stands_cx hy ht) ?_))
  refine .before (stands_on rfl ht') (.after_get rfl (.before (stands_cx hx ht) ?_))
  refine .before (stands_on rfl ht') (.before (stands_on rfl ht') ?_)
  refine .after_get rfl (.before (stands_on rfl hy.isQubits) ?_)
  refine .after_get rfl (.after_get rfl (.before (stands_cx hx hy) ?_))
  refine .after_get rfl (.before (stands_on rfl hx.isQubits) ?_)
  refine .after_get rfl (.before (stands_on rfl hy.isQubits) ?_)
  exact .after_get rfl (.after_get rfl (stands_cx hx hy))

lemma stands_c3x_three (hx : x.IsQubit n a) (hy : y.IsQubit n b) (hz : z.IsQubit n c) (ht : t.IsQubit n q) :
    Stands n (ControlledX.c3x (.list [x, y, z]) t) (c3xParts [a, b, c] q) () := by
  have hy' := hy.isQubits
  have hz' := hz.isQubits
  have ht' := ht.isQubits
  have ha : (list [x, y, z, t]).IsQubits n [a, b, c, q] :=
    (IsSequence.list (.cons hx (.cons hy (.cons hz (.cons ht .nil))))).isQubits
  have hp : ∀ {w ts}, IsQubits n w ts →
      Stands n (turnBy .phase (Scalar.pi / 8.0) w) [Operation.turn .phase (Real.pi / 8) ts] () :=
    fun hw => stands_turn rfl (by simp) hw
  have hm : ∀ {w ts}, IsQubits n w ts →
      Stands n (turnBy .phase (-(Scalar.pi / 8.0)) w) [Operation.turn .phase (-(Real.pi / 8)) ts] () :=
    fun hw => stands_turn rfl (by simp) hw
  refine .after_get rfl (.before (stands_on rfl ht') ?_)
  refine .after_get rfl (.before (hp ha) ?_)
  refine .after_get rfl (.after_get (r := y) rfl (.after_get (r := z) rfl ?_))
  -- the part on the controls
  refine .before (stands_cx hx hy) (.before (hm hy') (.before (stands_cx hx hy) ?_))
  refine .before (stands_cx hy hz) (.before (hm hz') (.before (stands_cx hx hz) ?_))
  refine .before (hp hz') (.before (stands_cx hy hz) (.before (hm hz') ?_))
  refine .before (stands_cx hx hz) ?_
  -- the part on the target
  refine .before (stands_cx hz ht) (.before (hm ht') (.before (stands_cx hy ht) ?_))
  refine .before (hp ht') (.before (stands_cx hz ht) (.before (hm ht') ?_))
  refine .before (stands_cx hx ht) (.before (hp ht') (.before (stands_cx hz ht) ?_))
  refine .before (hm ht') (.before (stands_cx hy ht) (.before (hp ht') ?_))
  refine .before (stands_cx hz ht) (.before (hm ht') (.before (stands_cx hx ht) ?_))
  exact stands_on rfl ht'

lemma stands_c3x {cs : List ℕ} (hxs : Forall₂ (IsQubit n) xs cs)
    (h0 : cs ≠ []) (h4 : cs.length < 4) (ht : t.IsQubit n q) :
    Stands n (ControlledX.c3x (.list xs) t) (c3xParts cs q) () := by
  match xs, cs, hxs with
  | [], [], .nil => exact absurd rfl h0
  | [x], [a], .cons hx .nil => exact .after_get rfl (.after_get rfl (stands_cx hx ht))
  | [x, y], [a, b], .cons hx (.cons hy .nil) =>
    exact .after_get rfl (.after_get (r := x) rfl (.after_get (r := y) rfl (stands_ccx hx hy ht)))
  | [x, y, z], [a, b, c], .cons hx (.cons hy (.cons hz .nil)) => exact stands_c3x_three hx hy hz ht
  | _ :: _ :: _ :: _ :: _, _ :: _ :: _ :: _ :: _, _ => simp at h4; omega

lemma stands_link (hx : x.IsQubit n a) (hy : y.IsQubit n b) (hz : z.IsQubit n c) :
    Stands n (link x y z) (linkParts a b c) () :=
  .before (stands_on rfl hz.isQubits) <| .before (stands_on rfl hz.isQubits) <|
    .before (stands_cx hx hz) <| .before (stands_on rfl hz.isQubits) (stands_cx hy hz)

lemma stands_turningPoint (hx : x.IsQubit n a) (hy : y.IsQubit n b) (hz : z.IsQubit n c) :
    Stands n (turningPoint x y z) (turningParts a b c) () :=
  .before (stands_on rfl hz.isQubits) <| .before (stands_on rfl hz.isQubits) <|
    .before (stands_cx hx hz) <| .before (stands_on rfl hz.isQubits) <| .before (stands_cx hy hz) <|
    .before (stands_on rfl hz.isQubits) <| .before (stands_cx hx hz) <|
    .before (stands_on rfl hz.isQubits) (stands_on rfl hz.isQubits)

end Small

/-! ### Chains -/

section Chain

variable {xs ys : List (Operand ℝ)} {cs as : List ℕ} {x : Operand ℝ} {t : ℕ}
variable {j : ℕ}

lemma item_list (hxs : Forall₂ (IsQubit n) xs cs) {i : Int} (hi : i = j)
    (hj : j < cs.length) : (list xs).item i = .ok (xs.getD j .none) := by
  rw [hi]
  exact item_of_items nofun rfl (hxs.length_eq ▸ hj)

lemma isQubit_getD (hxs : Forall₂ (IsQubit n) xs cs) (hj : j < cs.length) : (xs.getD j .none).IsQubit n (cs.getD j 0) :=
  forall₂_getD hxs hj .none 0

lemma sameOperand_eq_false {y : Operand ℝ} {q : ℕ} (hx : x.IsQubit n t) (hy : y.IsQubit n q)
    (h : q ≠ t) : sweep.sameOperand y x = false := by
  obtain ⟨i, hi, -, -, rfl⟩ := hx.toInt?
  obtain ⟨j, hj, -, -, rfl⟩ := hy.toInt?
  have hij : j ≠ i := fun he => h (by rw [he])
  simp [sweep.sameOperand, hi, hj, hij]

lemma sameOperand_self (hx : x.IsQubit n t) : sweep.sameOperand x x = true := by
  obtain ⟨i, hi, -⟩ := hx.toInt?; simp [sweep.sameOperand, hi]

lemma sweepParts_down (t : ℕ) (h4 : 4 ≤ cs.length) : sweepParts cs as t = ((List.range (cs.length - 2)).flatMap fun i =>
        if i = 0 then ccxParts (cs.getD (cs.length - 1) 0) (as.getD (as.length - 1) 0) t
        else linkParts (cs.getD (cs.length - i - 1) 0) (as.getD (as.length - i - 1) 0) (as.getD (as.length - i) 0)) ++
      (turningParts (cs.getD 0 0) (cs.getD 1 0) (as.getD 0 0) ++ (List.range (as.length - 1)).flatMap fun i =>
          unlinkParts (cs.getD (2 + i) 0) (as.getD i 0) (as.getD (i + 1) 0)) := by
  have hk : cs.length - 2 = (cs.length - 3) + 1 := by omega
  rw [hk, range_succ_eq_map, flatMap_cons, if_pos rfl, flatMap_map, sweepParts,
    append_assoc, append_assoc, append_assoc]
  congr 2

lemma item_targets (hys : Forall₂ (IsQubit n) ys as) (hx : x.IsQubit n t) (ht : t ∉ as) {i : ℕ} (hi : i ≤ as.length) :
    ∃ he, (list (x :: ys.reverse)).item i = .ok he ∧ sweep.sameOperand he x = decide (i = 0) ∧
      he.IsQubit n (if i = 0 then t else as.getD (as.length - i) 0) := by
  have hts : Forall₂ (IsQubit n) (x :: ys.reverse) (t :: as.reverse) := .cons hx (rel_reverse hys)
  have hlen : i < (t :: as.reverse).length := by simp; omega
  refine ⟨_, item_list hts rfl hlen, ?_⟩
  have hq := isQubit_getD hts hlen
  cases i with
  | zero => exact ⟨sameOperand_self hx, hx⟩
  | succ i =>
    have hl : i < as.length := by omega
    have hg : (t :: as.reverse).getD (i + 1) 0 = as.getD (as.length - (i + 1)) 0 := by
      rw [getD_cons_succ, getD_eq_getElem _ _ (by simpa using hl), getD_eq_getElem _ _ (by omega), getElem_reverse]
      congr 1
      omega
    rw [hg] at hq
    refine ⟨sameOperand_eq_false hx hq ?_, hq⟩
    intro heq
    apply ht
    rw [← heq, getD_eq_getElem _ _ (by omega)]
    exact getElem_mem _

/-- **Down a chain and back up.** -/
theorem stands_sweep (hxs : Forall₂ (IsQubit n) xs cs)
    (hys : Forall₂ (IsQubit n) ys as) (hx : x.IsQubit n t) (ht : t ∉ as)
    (h4 : 4 ≤ cs.length) (hm : as.length = cs.length - 2) :
    Stands n (sweep xs ys x) (sweepParts cs as t) () := by
  have hlx := hxs.length_eq
  have hly := hys.length_eq
  rw [sweepParts_down t h4]
  simp only [sweep, hlx, hly]
  refine .bind (r := ()) (stands_forM fun i hi => ?_) ?_
  · have hi' : i < cs.length - 2 := mem_range.mp hi
    obtain ⟨he, hh, hs, hq⟩ := item_targets hys hx ht (hm ▸ hi'.le)
    refine .after_get hh ?_
    have hct : (list xs).item ((cs.length : Int) - i - 1) = .ok _ :=
      item_list hxs (j := cs.length - i - 1) (by omega) (by omega)
    have han : (list ys).item ((as.length : Int) - i - 1) = .ok _ :=
      item_list hys (j := as.length - i - 1) (by omega) (by omega)
    have hc := isQubit_getD hxs (j := cs.length - i - 1) (by omega)
    have ha := isQubit_getD hys (j := as.length - i - 1) (by omega)
    cases i with
    | zero =>
      rw [hs]
      exact .after_get hct (.after_get han (stands_ccx hc ha hq))
    | succ i =>
      rw [hs]
      exact .after_get hct (.after_get han (stands_link hc ha hq))
  -- the turning point, and the way back
  obtain ⟨he, hh, -, hq⟩ := item_targets hys hx ht le_rfl
  have hl : as.length = cs.length - 2 := hm
  rw [if_neg (by omega), Nat.sub_self] at hq
  have hfi : (list xs).item ((cs.length : Int) - (cs.length - 2 : ℕ) - 2) = .ok _ :=
    item_list hxs (j := 0) (by omega) (by omega)
  have hsn : (list xs).item ((cs.length : Int) - (cs.length - 2 : ℕ) - 1) = .ok _ :=
    item_list hxs (j := 1) (by omega) (by omega)
  refine .after_get hfi (.after_get hsn (.after_get (hl ▸ hh) ?_))
  refine .bind (r := ()) (stands_turningPoint (isQubit_getD hxs (by omega))
    (isQubit_getD hxs (by omega)) hq) (stands_forM fun i hi => ?_)
  have hi' : i < as.length - 1 := mem_range.mp hi
  have hth : (list ys).item ((i : Int) + 1) = .ok _ := item_list hys (j := i + 1) (by omega) (by omega)
  have hn : (list ys).item (i : Int) = .ok _ := item_list hys rfl (by omega)
  have hct : (list xs).item (2 + (i : Int)) = .ok _ := item_list hxs (j := 2 + i) (by omega) (by omega)
  have ht' := isQubit_getD hys (j := i + 1) (by omega)
  refine .after_get hth (.after_get hn ?_)
  refine .before (stands_cx (isQubit_getD hys (by omega)) ht') (.before (stands_on rfl ht'.isQubits) ?_)
  refine .after_get hct (.before (stands_cx (isQubit_getD hxs (by omega)) ht') ?_)
  exact .before (stands_on rfl ht'.isQubits) (stands_on rfl ht'.isQubits)

/-- **The negation under all controls, with borrowed ancillas.**  Up to three controls do not look at the
ancillas, so any number of them will do. -/
theorem stands_chain (hxs : Forall₂ (IsQubit n) xs cs)
    (hys : Forall₂ (IsQubit n) ys as) (hx : x.IsQubit n t) (ht : t ∉ as) (h0 : cs ≠ [])
    (hm : as.length = cs.length - 2 ∨ as ≠ [] ∧ cs.length < 4) (hn : cs.length + as.length < n) :
    Stands n (plan n (.list xs) x (.list ys)) (chainParts cs as t) () := by
  have hg : (if as.length = 0 then ancillaCount cs.length else as.length) = as.length := by
    rw [ite_eq_right_iff, ancillaCount]
    rcases hm with hm | ⟨ha, -⟩
    · omega
    · exact fun h => absurd (length_eq_zero_iff.mp h) ha
  have hcs : (list xs).length = .ok cs.length := by rw [← hxs.length_eq]; rfl
  have ha : (list ys).length = .ok as.length := by rw [← hys.length_eq]; rfl
  refine .after_get hcs (.after_get ha ?_)
  simp only [hg]
  rw [if_neg (by omega), if_neg (by simp), chainParts]
  by_cases h4 : cs.length < 4
  · rw [if_pos h4, if_pos h4]; exact stands_c3x hxs h0 h4 hx
  · rw [if_neg h4, if_neg h4]
    have hs := stands_sweep hxs hys hx ht (by omega) (hm.resolve_right fun h => h4 h.2)
    exact .after_get rfl (.bind hs hs)

end Chain

end QuantumCircuits.Plan
