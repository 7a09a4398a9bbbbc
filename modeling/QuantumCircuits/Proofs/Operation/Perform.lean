import QuantumCircuits.Proofs.Operation.Primitives

/-!
# Operation — Perform

What performing a call adds to a circuit.  A call that denotes an operation goes through, emits the
primitives that the operation comes down to and logs entries for the operations that it keeps, each
with the definition that it has (`Recording.does_performAt`).
-/

noncomputable section

namespace QuantumCircuits

open List Change Operation Entry Plan Gate Sink Operand.IsSequence

mutual

/-- An entry of the log stands for an operation, and what it is defined by for the operations that this
is defined by. -/
inductive Entry.Unfolds (n : ℕ) : Entry ℝ → Operation → Prop where
  | intro {operands : Operands ℝ} {gateAt : ℕ} {es : List (Entry ℝ)} {o : Operation} :
    o.Valid n → o.isKept = true → Recorded n o.gate operands o.snapped → UnfoldAll n es o.inner →
      Unfolds n ⟨some (.known o.gate), operands, gateAt, .entries es⟩ o

/-- The same for entries one by one. -/
inductive Entry.UnfoldAll (n : ℕ) : List (Entry ℝ) → List Operation → Prop where
  | nil : UnfoldAll n [] []
  | cons {e : Entry ℝ} {o : Operation} {es : List (Entry ℝ)} {os : List Operation} :
    Unfolds n e o → UnfoldAll n es os → UnfoldAll n (e :: es) (o :: os)

end

lemma Entry.unfoldAll_iff {n : ℕ} {es : List (Entry ℝ)} {os : List Operation} :
    UnfoldAll n es os ↔ Forall₂ (Unfolds n) es os := by
  induction es generalizing os with
  | nil =>
    constructor <;> rintro ⟨⟩ <;> constructor
  | cons e es ih =>
    constructor
    · rintro ⟨⟩
      next he hes => exact .cons he (ih.mp hes)
    · rintro ⟨⟩
      next he hes => exact .cons he (ih.mpr hes)

namespace Sink

/-- The sink holds primitives on `n` qubits and a global phase. -/
structure Holds (n : ℕ) (s : Sink ℝ) (ps : List (Primitive ℝ)) (g : ℝ) : Prop where
  numQubits : s.numQubits = n
  content : s.content = .primitives ps.toArray
  globalPhase : s.globalPhase.IsNumber g

/-- The sink with other primitives and another global phase. -/
def holding (s : Sink ℝ) (ps : List (Primitive ℝ)) (x : Operand ℝ) : Sink ℝ :=
  { s with content := .primitives ps.toArray, globalPhase := x }

lemma Holds.holding {n : ℕ} {s : Sink ℝ} {ps : List (Primitive ℝ)} {g : ℝ} (h : s.Holds n ps g)
    {qs : List (Primitive ℝ)} {x : Operand ℝ} {g' : ℝ} (hx : x.IsNumber g') : (s.holding qs x).Holds n qs g' :=
  ⟨h.numQubits, rfl, hx⟩

end Sink

namespace Recording

variable {n : ℕ} {f : Operation → List (Primitive ℝ)} {g : Operation → List Operation} {s : Sink ℝ}
variable {o : Operation} {c : Call ℝ} {d : ℕ} {ts : List ℕ} {y z x : Operand ℝ} {ps qs : List (Primitive ℝ)}

/-- The change emits primitives and logs entries for operations, whatever was there before. -/
def Does (n : ℕ) (x : Change (Recording ℝ) Unit) (ps : List (Primitive ℝ)) (os : List Operation) :
    Prop :=
  ∀ (r : Recording ℝ) (qs : List (Primitive ℝ)) (g : ℝ), r.sink.Holds n qs g →
    ∃ y es, Change.perform x r = (.ok (), ⟨r.sink.holding (qs ++ ps) y, r.entries ++ es.toArray⟩) ∧
      y.IsNumber (g + angleSum ps) ∧ List.Forall₂ (Entry.Unfolds n) es os

lemma does_pure : Does n (pure ()) [] [] := by
  intro r qs g h
  refine ⟨r.sink.globalPhase, [], ?_, by simpa using h.globalPhase, .nil⟩
  rw [perform_pure, append_nil, Array.append_empty, holding, ← h.content]

variable {os : List Operation}

lemma Does.bind {x : Change (Recording ℝ) Unit} {f : Unit → Change (Recording ℝ) Unit}
    {ps' : List (Primitive ℝ)} {os' : List Operation} (hx : Does n x ps os)
    (hf : Does n (f ()) ps' os') : Does n (x >>= f) (ps ++ ps') (os ++ os') := by
  intro r qs g h
  obtain ⟨y, es, hr, hy, he⟩ := hx r qs g h
  obtain ⟨y', es', hr', hy', he'⟩ := hf ⟨r.sink.holding (qs ++ ps) y, r.entries ++ es.toArray⟩ _ _ (h.holding hy)
  refine ⟨y', es ++ es', ?_, ?_, rel_append he he'⟩
  · rw [perform_bind_ok hr, hr']; simp [holding]
  · simpa [add_assoc] using hy'

lemma does_forM {perform : Call ℝ → Change (Recording ℝ) Unit}
    {cs : List (Call ℝ)}
    {R : Call ℝ → Operation → Prop} (h : ∀ c o, o ∈ os → R c o → Does n (perform c) (f o) (g o))
    (hca : Forall₂ R cs os) : Does n (cs.forM perform) (os.flatMap f) (os.flatMap g) := by
  induction hca with
  | nil => exact does_pure
  | cons hc _ ih =>
    exact (h _ _ mem_cons_self hc).bind (ih fun c o ho => h c o (mem_cons_of_mem _ ho))

lemma does_follow {perform : Call ℝ → Change (Recording ℝ) Unit}
    {p : Plan ℝ Unit} (hp : Stands n p os ())
    (h : ∀ c : Call ℝ, ∀ o ∈ os, c.controlState = .none ∧ Denotes n c.gate c.operands o →
      Does n (perform c) (f o) (g o)) : Does n (follow perform p) (os.flatMap f) (os.flatMap g) := by
  obtain ⟨calls, hr, hca⟩ := hp
  have hou : p.outcome = (calls.toArray, .ok ()) := by simp [outcome, hr #[]]
  have hd := (does_forM (fun c o ho hc => h c o ho hc) hca).bind (does_pure)
  rw [append_nil, append_nil] at hd
  rw [follow, hou]
  exact hd

lemma does_within {os : Operands ℝ} {body : Change (Recording ℝ) Unit}
    (hbo : Does n body ps o.inner) (ho : o.Valid n)
    (hk : o.isKept = true) (hop : Recorded n o.gate os o.snapped) :
    Does n (within o.gate os body) ps [o] := by
  intro r qs x h
  obtain ⟨y, es, hr, hy, he⟩ := hbo { r with entries := #[] } qs x h
  refine ⟨y, [new o.gate os es], ?_, hy, .cons (.intro ho hk hop (unfoldAll_iff.mpr he)) .nil⟩
  have hw : Change.perform (within o.gate os body) r =
      match Change.perform body { r with entries := #[] } with
      | (out, s) =>
        (out, { s with entries := r.entries.push (new o.gate os s.entries.toList) }) :=
    rfl
  rw [hw, hr]
  simp

lemma does_emit {x : Change (Sink ℝ) Unit}
    (h : ∀ s qs g, Sink.Holds n s qs g → ∃ y, Change.perform x s = (.ok (), s.holding (qs ++ ps) y) ∧
      y.IsNumber (g + angleSum ps)) : Does n (emit x) ps [] := by
  intro r qs g hr
  obtain ⟨y, hru, hy⟩ := h r.sink qs g hr
  refine ⟨y, [], ?_, hy, .nil⟩
  have he : Change.perform (emit x) r = match Change.perform x r.sink with
      | (out, sink) => (out, { r with sink }) := rfl
  rw [he, hru, Array.append_empty]

lemma perform_push (h : s.content = .primitives qs.toArray)
    (p : Primitive ℝ) : Change.perform (push p) s = (.ok (), s.holding (qs ++ [p]) s.globalPhase) := by
  rw [push, perform_modify, h]
  simp [holding]

lemma realAt_ok {rs : List ℝ} (h : x.IsNumbers rs) {i : ℕ} (hi : i < rs.length) :
    realAt x i = .ok (rs.getD i 0) := by
  obtain ⟨y, hy, hn⟩ := h.item hi
  rw [realAt, angleAt, hy]
  exact hn.toReal

lemma holding_self (h : s.content = .primitives qs.toArray) :
    s.holding qs s.globalPhase = s := by
  rw [holding, ← h]

lemma perform_forM_push {xs : List (Operand ℝ)} {p : ℕ → Primitive ℝ}
    {f : Operand ℝ → Change (Sink ℝ) Unit} (hxs : Forall₂ (Operand.IsQubit n) xs ts)
    (hf : ∀ x t, x.IsQubit n t → ∀ s, Change.perform (f x) s = Change.perform (push (p t)) s)
    (h : s.content = .primitives qs.toArray) :
    Change.perform (xs.forM f) s = (.ok (), s.holding (qs ++ ts.map p) s.globalPhase) := by
  induction hxs generalizing s qs with
  | nil =>
    rw [map_nil, append_nil, holding_self h]
    rfl
  | @cons x t xs ts hx _ ih =>
    have hs := (hf x t hx s).trans (perform_push h (p t))
    refine (perform_bind_ok hs).trans ((ih rfl).trans ?_)
    simp [holding]

lemma does_u3 {theta phi lam : ℝ} (hx : x.IsQubits n ts) (hz : z.IsNumbers [theta, phi, lam]) :
    Does n (emit (gate .u3 x y z)) (ts.map (.u3 theta phi lam)) [] := by
  obtain ⟨xs, hi, hxs⟩ := items hx
  refine does_emit fun s qs g hs => ⟨s.globalPhase, ?_, ?_⟩
  · rw [Sink.gate, perform_get_bind]
    simp only [hs.content]
    rw [primitiveGate, perform_get_bind]
    simp only [hi, hs.numQubits]
    rw [perform_ofOutcome_bind]
    refine perform_forM_push hxs (fun x t hx s => ?_) hs.content
    simp only [realAt_ok hz (i := 0) (by simp), realAt_ok hz (i := 1) (by simp),
      realAt_ok hz (i := 2) (by simp), hx.wrap]
    rfl
  · have hze : angleSum (ts.map (.u3 theta phi lam)) = 0 := by
      simp [angleSum, Primitive.angle, Function.comp_def]
    rw [hze, add_zero]
    exact hs.globalPhase

lemma does_cx {c t : ℕ} (hx : x.IsQubit n c) (hy : y.IsQubit n t) :
    Does n (emit (gate .x y x z)) [.cx c t] [] := by
  obtain ⟨xs, hi, hxs⟩ := items hy.isQubits
  obtain ⟨w, hw, hq⟩ := item hx.isQubits (i := 0) (by simp)
  refine does_emit fun s qs g hs => ⟨s.globalPhase, ?_, ?_⟩
  · rw [Sink.gate, perform_get_bind]
    simp only [hs.content]
    rw [primitiveGate, perform_get_bind]
    simp only [hi, hs.numQubits]
    rw [perform_ofOutcome_bind]
    refine perform_forM_push hxs (fun x t hx s => ?_) hs.content
    have hit : Operand.item _ 0 = .ok w := hw
    have hct : wrap n w = .ok c := hq.wrap
    simp only [hit]
    rw [perform_ofOutcome_bind, hct, hx.wrap]
    rfl
  · have hze : angleSum [.cx c t] = 0 := by simp [angleSum, Primitive.angle]
    rw [hze, add_zero]
    exact hs.globalPhase

lemma does_phase {a : ℝ} (hx : x.IsNumber a) : Does n (emit (phase x)) [.phase a] [] := by
  refine does_emit fun s qs g hs => ?_
  obtain ⟨y, hy, hsu⟩ := hs.globalPhase.sum hx
  refine ⟨y, ?_, by simpa [angleSum, Primitive.angle] using hsu⟩
  rw [Sink.phase, perform_get_bind, hx.toReal, perform_ofOutcome_bind]
  simp only [hs.content]
  rw [perform_bind_ok (perform_push hs.content _), hy, perform_ofOutcome_bind, perform_modify]
  rfl

/-! ### Calls -/

lemma operands_of_denotes (hc : Denotes n c.gate c.operands o) :
    ∃ xs, c = ⟨o.gate, o.gate.keys.zip xs, c.controlState⟩ ∧ Forall₂ (Slot.Means n) o.slots xs := by
  refine ⟨c.operands.map Prod.snd, ?_, hc.means⟩
  obtain ⟨g, operands, state⟩ := c
  have hzi : operands = o.gate.keys.zip (operands.map Prod.snd) := by
    rw [← hc.keys]; exact zip_of_prod rfl rfl
  rw [← hzi, ← hc.gate]

lemma precondition_ok (hc : Denotes n c.gate c.operands o) : precondition c = .ok () := by
  obtain ⟨xs, hca, hm⟩ := operands_of_denotes hc
  rw [hca]
  cases o with
  | of b r ps cs ts =>
    cases r with
    | multi =>
      cases b with
      | phase =>
        obtain ⟨x, y, z, rfl, -, hy, -⟩ := forall₂_three hm
        have hlen : y.listed.length = .ok cs.length := length hy
        change (do let _ ← y.listed.length; pure ()) = _
        rw [hlen]
        rfl
      | swap =>
        obtain ⟨y, z, w, rfl, hy, -⟩ := forall₂_three hm
        obtain ⟨ys, hi, -⟩ := items hy
        change (do let _ ← y.listed.items; pure ()) = _
        rw [hi]
        rfl
      | _ => rfl
    | _ => cases b <;> rfl
  | _ => rfl

lemma does_elementary (hc : Denotes n c.gate c.operands o)
    (ho : o.Shaped) (h : o.primitives? = some ps) :
    ∃ x, elementary? c = some x ∧ Does n (emit x) ps [] := by
  obtain ⟨xs, hca, hm⟩ := operands_of_denotes hc
  rw [hca]
  obtain ⟨theta, phi, lam, ts, rfl, rfl⟩ | ⟨c, t, rfl, rfl⟩ | ⟨a, rfl, rfl⟩ :=
    primitives?_cases ho h
  · obtain ⟨x, y, rfl, hx, hy⟩ := forall₂_two hm; exact ⟨_, rfl, does_u3 hy hx⟩
  · obtain ⟨x, y, rfl, hx, hy⟩ := forall₂_two hm; exact ⟨_, rfl, does_cx hx hy⟩
  · obtain ⟨x, rfl, hx⟩ := forall₂_one hm; exact ⟨_, rfl, does_phase hx⟩

lemma elementary?_none (hc : Denotes n c.gate c.operands o) (h : o.primitives? = none) : elementary? c = none := by
  obtain ⟨xs, hca, -⟩ := operands_of_denotes hc
  rw [hca]
  cases o with
  | of b r ps cs ts =>
    cases r with
    | plain =>
      cases b with
      | u3 => cases h
      | _ => rfl
    | controlled =>
      cases b with
      | x => cases h
      | _ => rfl
    | multi => cases b <;> rfl
  | globalPhase a => cases h
  | _ => rfl

lemma does_logged (hc : Denotes n c.gate c.operands o) (ho : o.Valid n)
    {body : Change (Recording ℝ) Unit} (hbo : Does n body ps o.inner) :
    Does n (logged ⟨n, true⟩ c body) ps o.kept := by
  rw [logged, kept_eq ho, hc.gate]
  cases ht : o.gate.isTransparent with
  | true =>
    have hk : o.isKept = false := by simp [isKept, ht]
    simp only [hk, Bool.true_or, if_true, Bool.false_eq_true, if_false]
    exact hbo
  | false =>
    obtain ⟨operands, hr, hv⟩ := hc.validate ho (hc.gate ▸ ht)
    rw [hc.gate] at hr
    have hk : o.isKept = !o.vanishes := by simp [isKept, ht]
    simp only [hv, hk, Bool.not_true, Bool.or_false, Bool.false_eq_true, if_false]
    cases hva : o.vanishes with
    | true => exact hbo
    | false => exact does_within hbo ho (by rw [hk, hva]; rfl) hr

def body (n d : ℕ) (c : Call ℝ) : Change (Recording ℝ) Unit :=
  match elementary? c with
  | some x => emit x
  | none => follow (performAt ⟨n, true⟩ d) (plan n c)

/-- The qubits that are flipped around a call. -/
def flippedAround (c : Call ℝ) : Outcome (List ℕ) := (controls c).elim (.ok []) (openPositions c.controlState)

lemma perform_performAt {ps : List ℕ} (hpr : precondition c = .ok ())
    (hp : flippedAround c = .ok ps) (r : Recording ℝ) :
    Change.perform (performAt ⟨n, true⟩ (d + 1) c) r =
      Change.perform (flipping (performAt ⟨n, true⟩ d (flipCall ps)) ps
        (logged ⟨n, true⟩ c (body n d c))) r := by
  rw [performAt, hpr, perform_ofOutcome_bind]
  rw [flippedAround] at hp
  cases hct : controls c with
  | none | some controls =>
    rw [hct] at hp
    simp only [Option.elim_none, Option.elim_some] at hp
    simp only [hp]
    rw [perform_ofOutcome_bind, body]
    cases elementary? c <;> rfl

lemma does_body (hc : Denotes n c.gate c.operands o) (ho : o.Valid n) (hd : o.rank < d + 1)
    (hp : o.primitives? = none → Does n (follow (performAt ⟨n, true⟩ d) (plan n c))
      (o.parts.flatMap (primsAt d)) (o.parts.flatMap (keptAt d))) :
    Does n (body n d c) (o.primsAt (d + 1)) o.inner := by
  rw [primsAt, body, ← inner_eq ho hd]
  cases h : o.primitives? with
  | some ps =>
    obtain ⟨x, hx, hdo⟩ := does_elementary hc ho.shaped h
    rw [hx]
    exact hdo
  | none =>
    rw [elementary?_none hc h]
    exact hp h

/-- **A call that denotes an operation goes through**, emits its primitives and logs it. -/
theorem does_performAt (hc : Denotes n c.gate c.operands o)
    (hs : c.controlState = .none) (ho : o.Valid n) (hd : o.rank < d) :
    Does n (performAt ⟨n, true⟩ d c) (o.primsAt d) (o.keptAt d) := by
  induction d generalizing c o with
  | zero => omega
  | succ d ih =>
    have hpo : flippedAround c = .ok [] := by
      rw [flippedAround, hs]
      cases controls c <;> rfl
    have hbo := does_body hc ho hd fun h => does_follow (plan_stands ho h hs hc) fun c p hp hc => by
        have hi := inside_parts ho p hp
        exact ih hc.2 hc.1 hi.valid (by have := hi.rank; omega)
    intro r qs g hr
    rw [perform_performAt (precondition_ok hc) hpo, keptAt_eq ho hd o.rank_lt_maxDepth]
    exact does_logged hc ho hbo r qs g hr

lemma does_perform (hc : Denotes n c.gate c.operands o) (hs : c.controlState = .none) (ho : o.Valid n) :
    Does n (perform ⟨n, true⟩ c) o.prims o.kept :=
  does_performAt hc hs ho o.rank_lt_maxDepth

end Recording

end QuantumCircuits

end
