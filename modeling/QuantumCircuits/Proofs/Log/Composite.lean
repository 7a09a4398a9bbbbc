import QuantumCircuits.Preparation.Basic
import QuantumCircuits.Proofs.Log.Faults
import QuantumCircuits.Circuit.Query
import QuantumCircuits.Synthesis.Fourier

/-!
# Log — Composite

Changes of a circuit that are composed of calls.  A property of changes is *inherited* if it goes through
sequences and holds of formed calls and of plans (`Circuit.Inherited`).  Such a property holds of circuits
that are added, of the Fourier transform and of states.  Unitaries on three qubits or more end in an
exchange of blocks in the log; where the property holds of that too, it holds of all unitaries and of
selected gates.
-/

/-! ### Formed

The calls that gates are composed of are formed like those that are made from outside: every operand
stands under a key of the gate's signature, and the control state is kept apart (`Call.Formed`).  Plans
make such calls only (`Plan.Formed`).  All of them are built from `Plan.callUnder`, so the property goes
through sequences, loops and cases.
-/

namespace QuantumCircuits

open List Change
open OneQubit (plan gates Basis)

variable {α : Type}

lemma exists_of_bind_ok {β γ : Type} {x : Outcome β} {f : β → Outcome γ} {c : γ}
    (h : (x >>= f) = .ok c) : ∃ b, x = .ok b ∧ f b = .ok c := by
  cases x with
  | error e => cases h
  | ok b => exact ⟨b, rfl, h⟩

lemma forall₂_of_mapM {β γ : Type} {f : β → Outcome γ} {xs : List β} {ys : List γ}
    (h : xs.mapM f = .ok ys) : Forall₂ (fun x y => f x = .ok y) xs ys := by
  induction xs generalizing ys with
  | nil =>
    cases h
    exact .nil
  | cons x xs ih =>
    rw [mapM_cons] at h
    rcases hx : f x with e | y <;> rw [hx] at h
    · cases h
    rcases hxs : xs.mapM f with e | zs <;> rw [hxs] at h
    · cases h
    cases h
    exact .cons hx (ih hxs)

namespace Call

/-- The operands stand under keys of the gate's signature, and none of them is a control state. -/
def Formed (c : Call α) : Prop := ∀ p ∈ c.operands, p.1 ∈ c.gate.signature ∧ p.1 ≠ .controlState

/-- If all calls before are formed, so are all calls after. -/
def KeepFormed (cs ds : Array (Call α)) : Prop := (∀ c ∈ cs, c.Formed) → ∀ c ∈ ds, c.Formed

instance : IsPreorder (Array (Call α)) KeepFormed where
  refl _ h := h
  trans _ _ _ h h' hcs := h' (h hcs)

lemma formed_flipCall (ps : List ℕ) : (Recording.flipCall ps : Call α).Formed := by
  intro p hp; obtain rfl := mem_singleton.1 hp; exact ⟨mem_singleton_self _, nofun⟩

lemma formed_of_bind [Scalar α] {g : Gate} {args : Operands α} {call : Call α}
    (h : g.bind args = .ok call) : call.Formed := by
  rw [Gate.bind] at h
  split at h
  · cases h
  · obtain ⟨operands, ho, h⟩ := exists_of_bind_ok h
    cases h
    intro p hp
    obtain ⟨hm, hke⟩ := mem_filter.1 hp
    obtain ⟨k, hk, hp⟩ := exists_of_forall₂ (forall₂_of_mapM ho) p hm
    obtain ⟨x, -, hp⟩ := exists_of_bind_ok hp
    cases hp
    exact ⟨hk, by simpa using hke⟩

end Call

namespace Plan

variable {β γ : Type} {p : Plan α β}

def Formed (p : Plan α β) : Prop := Keeps Call.KeepFormed p

lemma Formed.mem_outcome (h : Formed p) : ∀ c ∈ p.outcome.1, c.Formed := h #[] (by simp)

@[simp] lemma formed_pure (b : β) : Formed (pure b : Plan α β) := keeps_pure b

@[simp] lemma formed_fail (f : Fault) : Formed (fail f : Plan α β) := keeps_fail f

@[simp] lemma formed_skip : Formed (skip : Plan α Unit) := keeps_pure ()

@[simp] lemma formed_get (x : Outcome β) : Formed (Plan.get x : Plan α β) := keeps_ofOutcome x

lemma Formed.bind {f : β → Plan α γ} (hp : Formed p) (hf : ∀ b, Formed (f b)) :
    Formed (p >>= f) := Keeps.bind hp hf

lemma formed_forM {xs : List γ} {f : γ → Plan α PUnit} (h : ∀ x, Formed (f x)) : Formed (forM xs f) :=
  keeps_forM fun x _ => h x

@[simp]
lemma formed_callUnder (state : Operand α) (g : Gate) (xs : List (Operand α)) : Formed (callUnder state g xs) := by
  refine keeps_modify fun cs hcs c hc => ?_
  rcases Array.mem_push.1 hc with hc | rfl
  · exact hcs c hc
  · intro p hp; simpa using mem_filter.1 (of_mem_zip hp).1

@[simp] lemma formed_call (g : Gate) (xs : List (Operand α)) : Formed (call g xs) := formed_callUnder _ g xs

/-! ### Definitions of gates

Each plan is gone through from left to right: sequences and loops are taken apart, cases are split, and
what is left are the short forms of calls. -/

attribute [local simp] on turn turnBy Plan.u3 cx controlledTurn under turnUnder globalPhase

@[simp] lemma formed_put (f : ControlledRotation.Factor α) (inverse : Bool) (q : Operand α) :
    Formed (f.put inverse q) := by
  unfold ControlledRotation.Factor.put
  repeat' first | with_reducible refine .bind ?_ fun _ => ?_ | split | simp

variable [Scalar α]

@[simp] lemma formed_ofPlain (b : Base) (xs : List (Operand α)) : Formed (ofPlain b xs) := by
  unfold ofPlain power
  split <;> repeat' first | with_reducible refine .bind ?_ fun _ => ?_ | simp

@[simp] lemma formed_ofControlled (b : Base) (xs : List (Operand α)) : Formed (ofControlled b xs) := by
  unfold ofControlled controlledPower
  split <;> repeat' first | with_reducible refine .bind ?_ fun _ => ?_ | simp

@[simp] lemma formed_ccx (cs t : Operand α) : Formed (ControlledX.ccx cs t) := by
  unfold ControlledX.ccx ControlledX.control
  repeat' first | with_reducible refine .bind ?_ fun _ => ?_ | split | simp

@[simp] lemma formed_c3x (cs t : Operand α) : Formed (ControlledX.c3x cs t) := by
  unfold ControlledX.c3x ControlledX.control
  repeat' first | with_reducible refine .bind ?_ fun _ => ?_ | split | simp

@[simp] lemma formed_sweep (cs as : List (Operand α)) (t : Operand α) : Formed (Chain.sweep cs as t) := by
  unfold Chain.sweep Chain.link Chain.turningPoint
  repeat' first
    | with_reducible refine .bind ?_ fun _ => ?_ | with_reducible refine formed_forM fun _ => ?_ | split | simp

@[simp] lemma formed_chain (n : ℕ) (cs t as : Operand α) : Formed (Chain.plan n cs t as) := by
  unfold Chain.plan
  repeat' first | with_reducible refine .bind ?_ fun _ => ?_ | split | simp

@[simp] lemma formed_controlledRotation (n : ℕ) (cs t : Operand α) (M : Tensor α) :
    Formed (ControlledRotation.plan n cs t M) := by
  unfold ControlledRotation.plan ControlledRotation.rounds
  repeat' first | with_reducible refine .bind ?_ fun _ => ?_ | split | simp

@[simp] lemma formed_rotations (n : ℕ) (axis : Axis) (a cs ts : Operand α) :
    Formed (rotations n axis a cs ts) := by
  unfold rotations ControlledRotation.rotation
  repeat' first
    | with_reducible refine .bind ?_ fun _ => ?_ | with_reducible refine formed_forM fun _ => ?_ | split | simp

@[simp] lemma formed_staircase (a : Operand α) (k : ℕ) (cs : List (Operand α)) (t : Operand α) :
    Formed (staircase a k cs t) := by
  fun_induction staircase a k cs t with
  | case1 k cs t hn => exact (formed_get _).bind fun _ => formed_call _ _
  | case2 k cs t last hl ih =>
    exact (formed_get _).bind fun _ => (formed_call _ _).bind fun _ => ih

@[simp] lemma formed_phases (a cs ts : Operand α) : Formed (phases a cs ts) := by
  unfold phases
  repeat' first
    | with_reducible refine .bind ?_ fun _ => ?_ | with_reducible refine formed_forM fun _ => ?_ | simp

@[simp] lemma formed_powers (b : Base) (p g cs ts : Operand α) : Formed (powers b p g cs ts) := by
  unfold powers
  repeat' first
    | with_reducible refine .bind ?_ fun _ => ?_ | with_reducible refine formed_forM fun _ => ?_ | split | simp

@[simp] lemma formed_generals (angles cs ts : Operand α) : Formed (generals angles cs ts) := by
  unfold generals
  repeat' first
    | with_reducible refine .bind ?_ fun _ => ?_ | with_reducible refine formed_forM fun _ => ?_ | simp

@[simp] lemma formed_ofMulti (n : ℕ) (b : Base) (xs : List (Operand α)) : Formed (ofMulti n b xs) := by
  unfold ofMulti joined
  split <;> repeat' first | with_reducible refine .bind ?_ fun _ => ?_ | simp

@[simp] lemma formed_multiplexedRotation (angles axis cs t : Operand α) :
    Formed (multiplexedRotation angles axis cs t) := by
  unfold multiplexedRotation negation
  repeat' first
    | with_reducible refine .bind ?_ fun _ => ?_ | with_reducible refine formed_forM fun _ => ?_ | split | simp

@[simp] lemma formed_diagonalLevels (qs : Operand α) (m l : ℕ) (ps : List α) :
    Formed (diagonalLevels qs m l ps) := by
  induction m generalizing l ps with
  | zero => simp [diagonalLevels]
  | succ m ih =>
    exact (formed_get _).bind fun _ => (formed_get _).bind fun _ => (formed_call _ _).bind fun _ => ih _ _

@[simp] lemma formed_diagonalGate (es qs : Operand α) : Formed (diagonalGate es qs) := by
  unfold diagonalGate
  repeat' first | with_reducible refine .bind ?_ fun _ => ?_ | split | simp

/-- **Gates are composed of formed calls.** -/
theorem formed_plan (n : ℕ) (c : Call α) : Formed (Gate.plan n c) := by
  unfold Gate.plan
  repeat' first | with_reducible refine .bind ?_ fun _ => ?_ | split | simp

/-! ### Other plans -/

@[simp] lemma formed_oneQubit (basis : Basis) (u qs : Operand α) : Formed (plan basis u qs) := by
  unfold plan gates
  repeat' first | with_reducible refine .bind ?_ fun _ => ?_ | split | simp

@[simp] lemma formed_interleave (first second : Operand α) (Ms : List (Mat (Cplx α))) :
    Formed (TwoQubit.interleave first second Ms) := by
  fun_induction TwoQubit.interleave first second Ms with
  | case1 r l rest ih =>
    refine (formed_oneQubit _ _ _).bind fun _ => (formed_oneQubit _ _ _).bind fun _ => ?_
    split
    · exact (formed_call _ _).bind fun _ => ih
    · exact ih
  | case2 => exact formed_skip

@[simp] lemma formed_twoQubit (R : Routines α) (u qs : Operand α) : Formed (TwoQubit.plan R u qs) := by
  unfold TwoQubit.plan TwoQubit.gates
  repeat' first | with_reducible refine .bind ?_ fun _ => ?_ | split | simp

@[simp] lemma formed_signedRotations (cs t : Operand α) (angles : List α) :
    Formed (Shannon.signedRotations cs t angles) := by
  unfold Shannon.signedRotations
  repeat' first
    | with_reducible refine .bind ?_ fun _ => ?_ | with_reducible refine formed_forM fun _ => ?_ | split | simp

end Plan

/-! ### Composite -/

open Circuit Plan

variable {α : Type}

/-! ### The exchange of blocks -/

/-- The circuits differ at most in their logs. -/
def Circuit.SameButLog (c d : Circuit α) : Prop := d = { c with log := d.log }

instance : IsPreorder (Circuit α) SameButLog where
  refl _ := rfl
  trans c d e h h' := by rw [SameButLog] at h h' ⊢; rw [h', h]

namespace Shannon

lemma sameButLog_putEntries (b : Block) (es : List (Entry α)) : Keeps SameButLog (putEntries b es) :=
  keeps_modify fun _ => rfl

lemma sameButLog_isolate (first : Operand α) (b : Block) : Keeps SameButLog (isolate first b) :=
  keeps_get.bind fun _ => sameButLog_putEntries _ _

variable [Scalar α]

lemma sameButLog_replayBlock (b : Block) : Keeps SameButLog (replayBlock b : Change (Circuit α) (Circuit α)) :=
  keeps_get.bind fun _ => (sameButLog_putEntries _ _).bind fun _ => (keeps_ofOutcome _).bind fun _ =>
    keeps_pure _

lemma sameButLog_mergeFrom (R : Routines α) (first : Operand α) (current : Circuit α) (bs : List Block) :
    Keeps SameButLog (mergeFrom R first current bs) := by
  induction bs generalizing current with
  | nil => exact keeps_pure _
  | cons b bs ih =>
    exact (sameButLog_isolate _ _).bind fun _ => (keeps_ofOutcome _).bind fun _ =>
      (sameButLog_replayBlock _).bind fun _ => (keeps_ofOutcome _).bind fun _ => (ih _).bind fun _ =>
        keeps_pure _

lemma sameButLog_rebuilt (R : Routines α) (qubits : Operand α) (b c : Block) (rest : List Block) :
    Keeps SameButLog (rebuilt R qubits b c rest) :=
  (keeps_ofOutcome _).bind fun _ => (sameButLog_isolate _ _).bind fun _ =>
    (sameButLog_isolate _ _).bind fun _ => (sameButLog_replayBlock _).bind fun _ =>
    (sameButLog_replayBlock _).bind fun _ => keeps_get.bind fun _ => (keeps_ofOutcome _).bind fun _ =>
    (sameButLog_mergeFrom _ _ _ _).bind fun _ => (keeps_ofOutcome _).bind fun _ =>
    keeps_get.bind fun _ => keeps_pure _

end Shannon

/-! ### Inherited properties -/

variable [Scalar α]

/-- A property of changes that goes through sequences and that calls have. -/
structure Circuit.Inherited (P : ∀ {β : Type}, Change (Circuit α) β → Prop) : Prop where
  pure {β : Type} (b : β) : P (Pure.pure b)
  fail {β : Type} (f : Fault) : P (fail f : Change (Circuit α) β)
  get : P (MonadState.get : Change (Circuit α) (Circuit α))
  bind {β γ : Type} {x : Change (Circuit α) β} {f : β → Change (Circuit α) γ} (hx : P x)
    (hf : ∀ b, P (f b)) : P (x >>= f)
  andFinally {x y : Change (Circuit α) Unit} (hx : P x) (hy : P y) : P (x.andFinally y)
  perform {call : Call α} (h : call.Formed) : P (perform call)
  follow {p : Plan α Unit} (h : p.Formed) : P (follow p)

lemma Circuit.inherited_keeps {R : Circuit α → Circuit α → Prop} [IsPreorder (Circuit α) R]
    (hr : ∀ {call : Call α}, call.Formed → Keeps R (perform call))
    (hfo : ∀ {p : Plan α Unit}, p.Formed → Keeps R (follow p)) :
    Inherited fun x => Keeps R x where
  pure := keeps_pure
  fail := keeps_fail
  get := keeps_get
  bind := Keeps.bind
  andFinally := Keeps.andFinally
  perform := hr
  follow := hfo

namespace Circuit.Inherited

variable {P : ∀ {β : Type}, Change (Circuit α) β → Prop} (H : Inherited P)
include H

lemma ofOutcome {β : Type} (out : Outcome β) : P (ofOutcome out) := by
  cases out with
  | ok b => exact H.pure b
  | error f => exact H.fail f

lemma forM {β : Type} (xs : List β) {f : β → Change (Circuit α) PUnit} (h : ∀ x, P (f x)) : P (xs.forM f) := by
  induction xs with
  | nil => exact H.pure _
  | cons x xs ih => exact H.bind (h x) fun _ => ih

/-! ### Calls from outside -/

lemma apply (g : Gate) (args : Operands α) : P (apply g args) := by
  rw [Circuit.apply]
  cases h : g.bind args with
  | error f => exact H.fail f
  | ok call => exact H.perform (Call.formed_of_bind h)

lemma applyNamed (name : Option GateName) (args : Operands α) : P (applyNamed name args) := by
  match name with
  | some (.known g) => exact H.apply g args
  | some (.unknown _) | none => exact H.fail _

omit H in
lemma keeps_replay {R : Circuit α → Circuit α → Prop} [IsPreorder (Circuit α) R]
    (H : Inherited fun x => Keeps R x) (es : List (Entry α)) (c : Circuit α) : R c (replay es c).2.1 := by
  induction es generalizing c with
  | nil => exact refl_of R c
  | cons e es ih =>
    have he := H.applyNamed e.gate e.operands c
    rw [replay]
    rcases hr : Change.perform (Circuit.applyNamed e.gate e.operands) c with ⟨_ | _, t⟩ <;> rw [hr] at he
    · exact he
    · exact trans_of R he (ih t)

lemma measureAll : P (measureAll : Change (Circuit α) Unit) := H.bind H.get fun _ => H.apply _ _

lemma add (other : Circuit α) (indices : Operand α) : P (add other indices) :=
  H.bind (H.ofOutcome _) fun _ => H.bind (H.ofOutcome _) fun _ => H.forM _ fun _ => H.applyNamed _ _

lemma fourier (qubits : Operand α) (swapping : Bool) (degree : Operand α) (inverse : Bool) :
    P (Fourier.apply qubits swapping degree inverse) := by
  unfold Fourier.apply
  dsimp only
  repeat' first
    | with_reducible refine H.bind ?_ fun _ => ?_
    | with_reducible exact H.fail _
    | with_reducible exact H.get
    | with_reducible exact H.ofOutcome _
    | with_reducible exact H.add _ _
    | split

lemma preparation (R : Routines α) (p : Preparation) (output : Framework)
    (state qubits percentage order : Operand α) : P (p.apply R output state qubits percentage order) := by
  exact H.bind (H.ofOutcome _) fun _ => H.bind (H.ofOutcome _) fun _ => H.add _ _

/-! ### Unitaries -/

lemma expand (R : Routines α) (k depth : ℕ) (qubits : Operand α) (U : Mat (Cplx α)) :
    P (Shannon.expand R k depth qubits U) := by
  induction k generalizing depth qubits U with
  | zero => exact H.fail _
  | succ k ih =>
    match k with
    | 0 => exact H.bind (H.follow (formed_oneQubit _ _ _)) fun _ => H.pure _
    | 1 =>
      exact H.bind H.get fun _ => H.bind (H.follow (formed_twoQubit _ _ _)) fun _ =>
        H.bind H.get fun _ => H.pure _
    | k + 2 =>
      -- two selections around the rotations, each a multiplexed rotation between two smaller unitaries
      have hs : ∀ lower last A B, P (do
          let d := Shannon.demultiplexed R A B
          let before ← Shannon.expand R (k + 2) (depth + 1) lower d.before
          Circuit.follow (Plan.call (.ucr .z) [.list (d.angles.map .real), lower, last])
          let behind ← Shannon.expand R (k + 2) (depth + 1) lower d.behind
          Pure.pure (before ++ behind)) := fun _ _ _ _ =>
        H.bind (ih _ _ _) fun _ => H.bind (H.follow (formed_call _ _)) fun _ =>
          H.bind (ih _ _ _) fun _ => H.pure _
      exact H.bind (H.ofOutcome _) fun _ => H.bind (H.ofOutcome _) fun _ =>
        H.bind (hs _ _ _ _) fun _ => H.bind (H.follow (formed_signedRotations _ _ _)) fun _ =>
          H.bind (hs _ _ _ _) fun _ => H.pure _

variable (hmerge : ∀ (R : Routines α) qubits bs, P (Shannon.mergeDiagonals R qubits bs))
include hmerge

lemma shannon (R : Routines α) (unitary qubits : Operand α) : P (Shannon.apply R unitary qubits) := by
  refine H.bind (H.ofOutcome _) fun u => H.bind (H.ofOutcome _) fun qs => ?_
  split
  · exact H.fail _
  · refine H.bind (H.expand _ _ _ _ _) fun blocks => ?_
    split
    · exact hmerge _ _ _
    · exact H.pure _

lemma synthesis (R : Routines α) (s : Synthesis) (u qubits : Operand α) : P (s.apply R u qubits) := by
  cases s with
  | oneQubit b => exact H.follow (formed_oneQubit _ _ _)
  | twoQubit => exact H.follow (formed_twoQubit _ _ _)
  | shannon => exact H.shannon hmerge R u qubits

/-! ### Selected gates -/

lemma emitRow (R : Routines α) (cs target : Operand α) (gs : List (Mat (Cplx α))) :
    P (Multiplexor.emitRow R cs target gs) := by
  refine H.forM _ fun (M, i) => ?_
  repeat' first
    | with_reducible refine H.bind ?_ fun _ => ?_
    | with_reducible exact H.ofOutcome _
    | with_reducible exact H.pure _
    | exact H.follow (formed_call _ _)
    | exact H.shannon hmerge _ _ _
    | split

lemma multiplexor (R : Routines α) (gs cs target : Operand α) (upToDiagonal simplifying : Bool)
    (state : Operand α) : P (Multiplexor.apply R gs cs target upToDiagonal simplifying state) := by
  have hfl : ∀ positions, P (Circuit.perform (Recording.flipCall positions)) :=
    fun _ => H.perform (Call.formed_flipCall _)
  unfold Multiplexor.apply Multiplexor.emitSelected Multiplexor.emitGate
  repeat' first
    | with_reducible refine H.bind ?_ fun _ => ?_
    | with_reducible refine H.andFinally ?_ (hfl _)
    | with_reducible exact hfl _
    | with_reducible exact H.emitRow hmerge _ _ _ _
    | with_reducible exact H.shannon hmerge _ _ _
    | with_reducible exact H.ofOutcome _
    | with_reducible exact H.pure _
    | with_reducible exact H.follow (Plan.formed_call _ _)
    | split

end Circuit.Inherited

end QuantumCircuits
