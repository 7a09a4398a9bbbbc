import QuantumCircuits.Proofs.Operation.Perform

/-!
# Operation — Circuits

Calls on a circuit.  `Circuit.Does` is `Recording.Does` for changes of a whole circuit: the change
goes through, adds primitives and logs entries.  A gate called with operands that denote an operation
does so (`Circuit.does_apply`), and so does an entry of the log when it is performed again
(`Circuit.does_applyNamed`).
-/

namespace QuantumCircuits.Circuit

open List

open Operation (angleSum)
open Gate (pick of)

variable {n : ℕ}
variable {c : Circuit ℝ} {g : ℝ} {ps : List (Primitive ℝ)} {os : List Operation} {args : Operands ℝ}

/-- A circuit of the library's own on `n` qubits that checks and logs its calls. -/
structure Open (n : ℕ) (c : Circuit ℝ) (g : ℝ) : Prop where
  sink : c.sink.Holds n c.steps g
  reference : c.framework.isReference = true
  validating : c.validating = true
  detached : c.detached = false

/-- The circuit with other primitives, another global phase and more entries in its log. -/
def extended (c : Circuit ℝ) (ps : List (Primitive ℝ)) (x : Operand ℝ) (es : List (Entry ℝ)) : Circuit ℝ :=
  { c with sink := c.sink.holding (c.steps ++ ps) x, log := c.log ++ es.toArray }

@[simp] lemma steps_extended (c : Circuit ℝ) (ps : List (Primitive ℝ)) (x : Operand ℝ)
    (es : List (Entry ℝ)) : (c.extended ps x es).steps = c.steps ++ ps := by
  simp [steps, primitives, extended, Sink.holding]

@[simp] lemma log_extended (c : Circuit ℝ) (ps : List (Primitive ℝ)) (x : Operand ℝ)
    (es : List (Entry ℝ)) : (c.extended ps x es).log = c.log ++ es.toArray := rfl

lemma Open.extended {g' : ℝ} (hc : c.Open n g)
    {x : Operand ℝ} (hx : x.IsNumber g') (es : List (Entry ℝ)) : (c.extended ps x es).Open n g' where
  sink := by rw [steps_extended]; exact hc.sink.holding hx
  reference := hc.reference
  validating := hc.validating
  detached := hc.detached

/-- The change adds primitives and logs entries for operations, whatever was there before. -/
def Does (n : ℕ) (x : Change (Circuit ℝ) Unit) (ps : List (Primitive ℝ)) (os : List Operation) : Prop :=
  ∀ (c : Circuit ℝ) (g : ℝ), c.Open n g → ∃ y es, Change.perform x c = (.ok (), c.extended ps y es) ∧
    y.IsNumber (g + angleSum ps) ∧ Forall₂ (Entry.Unfolds n) es os

lemma Open.numQubits (hc : c.Open n g) : c.numQubits = n := hc.sink.numQubits

lemma new_int (f : Framework) {m : ℕ} (hm : 0 < m) : new f (.int m : Operand ℝ) = .ok (sized f m (.int m)) := by
  have hp : ¬ (m : Int) < 1 := by omega
  simp [new, Operand.isInt, Operand.toInt?, hp]

section New

variable {α : Type}

lemma eq_sized_of_new {f : Framework} {size : Operand α} {c : Circuit α} (h : new f size = .ok c) :
    c = sized f c.numQubits size := by
  rw [new] at h
  split at h
  · cases h
  · dsimp only at h
    split at h <;> cases h
    rfl

variable [Scalar α]

lemma perform_convert (f : Framework) (c : Circuit α) : Change.perform (convert f) c =
    ((replay c.log.toList (c.freshIn f)).2.2.map fun _ => (replay c.log.toList (c.freshIn f)).2.1,
      { c with log := (replay c.log.toList (c.freshIn f)).1.toArray }) := by
  rw [convert, Change.perform_get_bind]
  rcases replay c.log.toList (c.freshIn f) with ⟨es, target, _ | _⟩ <;> rfl

lemma perform_update (c : Circuit α) : Change.perform update c =
    match replay c.log.toList c.fresh with
    | (_, target, .ok _) => (.ok (), target)
    | (es, _, .error f) => (.error f, { c with log := es.toArray }) := by
  rw [update, Change.perform_get_bind, Change.perform_bind, perform_convert, fresh]
  rcases replay c.log.toList (c.freshIn c.framework) with ⟨es, target, _ | _⟩ <;> rfl

lemma after_update {c c' : Circuit α} {es : List (Entry α)} {out : Outcome Unit}
    (h : replay c.log.toList c.fresh = (es, c', out)) : c.after update = out.map fun _ => c' := by
  rw [after, perform_update, h]
  cases out <;> rfl

end New

lemma open_sized {f : Framework} (hf : f.isReference = true) (m : ℕ) (x : Operand ℝ) :
    (sized f m x).Open m 0 ∧ (sized f m x).steps = [] := by
  have hco : (sized f m x : Circuit ℝ).sink.content = .primitives #[] := if_pos hf
  have hsteps : (sized f m x : Circuit ℝ).steps = [] := by rw [steps, primitives, hco]
  refine ⟨⟨⟨rfl, ?_, Operand.isNumber_int_zero⟩, hf, rfl, rfl⟩, hsteps⟩
  rw [hco, hsteps]

lemma Open.fresh (hc : c.Open n g) : c.fresh.Open n 0 ∧ c.fresh.steps = [] := by
  rw [Circuit.fresh, freshIn, hc.numQubits]; exact open_sized hc.reference n c.sink.size

lemma open_empty (n : ℕ) : (empty .reference n : Circuit ℝ).Open n 0 where
  sink := ⟨rfl, rfl, Operand.isNumber_int_zero⟩
  reference := rfl
  validating := rfl
  detached := rfl

lemma steps_empty (n : ℕ) : (empty .reference n : Circuit ℝ).steps = [] := rfl

lemma operator_empty (n : ℕ) : (empty .reference n : Circuit ℝ).operator n = 1 := by
  rw [operator_eq_matrixOf (open_empty n).numQubits (by simp [steps_empty]), steps_empty]
  exact matrixOf_id n

lemma operator_append {c' : Circuit ℝ} (hn : c.numQubits = n) (hn' : c'.numQubits = n)
    (h : c'.steps = c.steps ++ ps) (hp : ∀ p ∈ ps, p.Within n) (hsteps : ∀ p ∈ c.steps, p.Within n) :
    c'.operator n = matrixOf n (run ps) * c.operator n := by
  have hw : ∀ p ∈ c'.steps, p.Within n := h ▸ forall_mem_append.mpr ⟨hsteps, hp⟩
  rw [operator_eq_matrixOf hn' hw, operator_eq_matrixOf hn hsteps, ← matrixOf_comp (local_run hp), h]
  exact congrArg (matrixOf n) (funext (run_append _ _))

lemma Does.operator {x : Change (Circuit ℝ) Unit}
    (hx : Does n x ps os) (hp : ∀ p ∈ ps, p.Within n) (hc : c.Open n g) (hsteps : ∀ p ∈ c.steps, p.Within n) :
    ∃ c', c.after x = .ok c' ∧ c'.operator n = matrixOf n (run ps) * c.operator n := by
  obtain ⟨y, es, hr, hy, -⟩ := hx c g hc
  exact ⟨c.extended ps y es, by rw [after, hr], operator_append hc.numQubits
    (hc.extended hy es).numQubits (steps_extended ..) hp hsteps⟩

lemma perform_recording {α : Type} (x : Change (Recording α) Unit) (c : Circuit α) :
    Change.perform (recording x) c = ((Change.perform x ⟨c.sink, #[]⟩).1, { c with
      sink := (Change.perform x ⟨c.sink, #[]⟩).2.sink
      log := if c.detached then c.log else c.log ++ (Change.perform x ⟨c.sink, #[]⟩).2.entries }) :=
  rfl

lemma does_recording {x : Change (Recording ℝ) Unit} (hx : Recording.Does n x ps os) : Does n (recording x) ps os := by
  intro c g hc
  obtain ⟨y, es, hr, hy, he⟩ := hx ⟨c.sink, #[]⟩ c.steps g hc.sink
  refine ⟨y, es, ?_, hy, he⟩
  rw [perform_recording, hr]
  simp [hc.detached, extended]

lemma Open.setting (hc : c.Open n g) : c.setting = ⟨n, true⟩ := by
  rw [Circuit.setting, hc.validating, hc.numQubits]

/-- **A call on a circuit.** -/
theorem does_perform {c : Call ℝ}
    (hx : Recording.Does n (Recording.perform ⟨n, true⟩ c) ps os) : Does n (perform c) ps os := by
  intro d g hd
  rw [perform, Change.perform_get_bind, hd.setting]
  exact does_recording hx d g hd

/-- **The calls of a plan on a circuit.** -/
theorem does_follow {p : Plan ℝ Unit} (hp : Plan.Stands n p os ()) (hos : ∀ o ∈ os, o.Valid n) :
    Does n (follow p) (os.flatMap Operation.prims) (os.flatMap Operation.kept) := by
  intro d g hd
  rw [follow, Change.perform_get_bind, hd.setting]
  exact does_recording (Recording.does_follow hp fun c o ho hc => Recording.does_perform hc.2 hc.1 (hos o ho)) d g hd

lemma does_apply {g : Gate} {call : Call ℝ} (hbi : g.bind args = .ok call)
    (hx : Recording.Does n (Recording.perform ⟨n, true⟩ call) ps os) : Does n (apply g args) ps os := by
  intro c x hc
  rw [apply, hbi, Change.perform_ofOutcome_bind]
  exact does_perform hx c x hc

lemma lookup_of_mem (h : (args.map Prod.fst).Nodup) {p : Key × Operand ℝ}
    (hp : p ∈ args) : args.lookup p.1 = some p.2 := by
  induction args with
  | nil => cases hp
  | cons q args ih =>
    obtain ⟨hq, ha⟩ := nodup_cons.mp h
    rcases mem_cons.mp hp with rfl | hp
    · exact lookup_cons_self
    · have hn : (p.1 == q.1) = false := by
        rw [beq_eq_false_iff_ne]; exact fun he => hq (he ▸ mem_map_of_mem hp)
      rw [lookup_cons, hn]
      exact ih ha hp

lemma lookup_eq_none {xs : Operands ℝ} {key : Key} (h : key ∉ xs.map Prod.fst) : xs.lookup key = none := by
  rw [lookup_eq_none_iff]; intro p hp; simpa using fun he => h (mem_map.mpr ⟨p, hp, he.symm⟩)

lemma signature_eq (g : Gate) : g.keys.Nodup ∧ (g.signature = g.keys ∨ g.signature = g.keys ++ [.controlState]) := by
  cases g with
  | of b r => cases b <;> cases r <;> decide
  | ucr a => cases a <;> decide
  | _ => decide

lemma signature_of_controlled (b : Base) {r : Reach} (hr : r ≠ .plain) :
    (of b r).signature = (of b r).keys ++ [.controlState] := by
  cases r with
  | plain => exact absurd rfl hr
  | controlled | multi => cases b <;> rfl

lemma mapM_pick {operands : Operands ℝ} (h : (operands.map Prod.fst).Nodup) (rest : Operands ℝ) :
    (operands.map Prod.fst).mapM (fun k => do Except.ok (k, ← pick (operands ++ rest) k)) = .ok operands := by
  rw [mapM_map]
  refine (mapM_ok fun p hp => ?_).trans (by rw [map_id])
  simp only [Function.comp, pick, lookup_append, lookup_of_mem h hp]
  rfl

section Binding

variable {g : Gate} {operands : Operands ℝ} {o : Operation}

section Keys

variable (hkeys : operands.map Prod.fst = g.keys)
include hkeys

lemma key_of_keys {p : Key × Operand ℝ} (hp : p ∈ operands) : p.1 ∈ g.signature ∧ p.1 ≠ .controlState := by
  have hp' : p.1 ∈ g.keys := hkeys ▸ mem_map_of_mem hp
  simpa [Gate.keys] using hp'

lemma any_key_of_keys : (operands.any fun p => !(g.signature.contains p.1)) = false := by
  rw [any_eq_false]; intro p hp; simpa using (key_of_keys hkeys hp).1

lemma filter_of_keys : (operands.filter fun p => p.1 ≠ .controlState) = operands :=
  filter_eq_self.mpr fun p hp => by simpa using (key_of_keys hkeys hp).2

lemma lookup_of_keys : operands.lookup .controlState = none :=
  lookup_eq_none fun hm => by obtain ⟨p, hp, hk⟩ := mem_map.mp hm; exact (key_of_keys hkeys hp).2 hk

lemma bind_last (hsi : g.signature = g.keys ++ [.controlState]) {rest : Operands ℝ} {state : Operand ℝ}
    (ha : ((operands ++ rest).any fun p => !(g.signature.contains p.1)) = false)
    (hs : pick (operands ++ rest) .controlState = .ok state) :
    g.bind (operands ++ rest) = .ok ⟨g, operands, state⟩ := by
  have hl : (operands ++ [(Key.controlState, state)]).lookup Key.controlState = some state := by
    rw [lookup_append, lookup_of_keys hkeys]; rfl
  rw [Gate.bind, ha]
  rw [hsi, ← hkeys, mapM_append, mapM_pick (hkeys ▸ (signature_eq g).1) rest]
  simp only [mapM_cons, mapM_nil, hs, bind, Except.bind, pure, Except.pure,
    filter_append, filter_of_keys hkeys, hl, Option.getD_some]
  simp

lemma bind_of_keys : g.bind operands = .ok ⟨g, operands, .none⟩ := by
  obtain ⟨hn, hs⟩ := signature_eq g
  have hp := mapM_pick (hkeys ▸ hn) []
  have hl := lookup_of_keys hkeys
  rw [append_nil] at hp
  rcases hs with hsi | hsi
  · rw [Gate.bind, any_key_of_keys hkeys]
    simp only [Bool.false_eq_true, if_false]
    rw [hsi, ← hkeys, hp]
    simp only [bind, Except.bind, filter_of_keys hkeys, hl, Option.getD_none]
  · have hst : pick operands .controlState = .ok .none := by rw [pick, hl]; rfl
    have ha := any_key_of_keys hkeys
    rw [← append_nil operands] at ha hst
    simpa using bind_last hkeys hsi ha hst

end Keys

lemma bind_of_denotes (h : Denotes n g operands o) : g.bind operands = .ok ⟨g, operands, .none⟩ :=
  bind_of_keys (h.gate ▸ h.keys)

lemma bind_state (h : Denotes n g operands o) (hs : g.signature = g.keys ++ [.controlState])
    (state : Operand ℝ) : g.bind (operands ++ [(.controlState, state)]) = .ok ⟨g, operands, state⟩ := by
  have hkeys : operands.map Prod.fst = g.keys := h.gate ▸ h.keys
  refine bind_last hkeys hs ?_ ?_
  · rw [any_append, any_key_of_keys hkeys, hs]; simp
  · rw [pick, lookup_append, lookup_of_keys hkeys]; rfl

end Binding

/-- **An entry of the log performed again.** -/
theorem does_applyNamed {e : Entry ℝ} {o : Operation} (he : e.Unfolds n o) :
    Does n (applyNamed e.gate e.operands) o.snapped.prims o.snapped.kept := by
  obtain ⟨ho, -, hr, -⟩ := he
  exact does_apply (bind_of_denotes hr.denotes) (Recording.does_perform hr.denotes rfl ho.snapped)

section Calls

variable {g : Gate} {operands : Operands ℝ} {o : Operation} (hcall : Denotes n g operands o)
  {c : Circuit ℝ} {a : ℝ} (hc : c.Open n a) (hsteps : ∀ p ∈ c.steps, p.Within n)
include hcall hc hsteps

/-- **A call that denotes an operation goes through**, and its primitives are run. -/
theorem exists_operator_run (ho : o.Valid n) : ∃ c', c.after (apply g operands) = .ok c' ∧
      c'.operator n = matrixOf n (run o.prims) * c.operator n :=
  (does_apply (bind_of_denotes hcall) (Recording.does_perform hcall rfl ho)).operator
    (Operation.within_primsAt ho _) hc hsteps

lemma exists_operator (ho : o.Good n) :
    ∃ c', c.after (apply g operands) = .ok c' ∧ c'.operator n = matrixOf n o.act * c.operator n := by
  have hr : run o.prims = o.act := funext (Operation.run_prims ho)
  rw [← hr]
  exact exists_operator_run hcall hc hsteps ho.toValid

end Calls

end QuantumCircuits.Circuit
