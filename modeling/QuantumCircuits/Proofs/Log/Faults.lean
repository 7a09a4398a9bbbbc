import QuantumCircuits.Proofs.Operation.Circuits

/-!
# Log — Faults

What a call that ends in a fault leaves behind.  Nothing is taken back: whatever was logged and emitted
before the fault stays, so that a circuit only ever grows (`Circuit.Grows`).  It stays exactly as it was
if the call is refused (`Call.Refused`): by the checks that are made before anything is logged, which are
those of its own operands or, if it has controls that have to be off, those of the flips before it.  A
call that passes them, and that is logged under its own name, leaves at least one entry more.

The checks of a call come before those of its parts and before anything is emitted, but behind the flips
of its controls.  So a call under a control state that its own checks refuse leaves the flips.
-/

namespace QuantumCircuits

open List Change Recording Call

variable {α : Type}
variable {n : ℕ} {f : Fault}

/-! ### Changes that relate the states before and after -/

namespace Change

variable {σ β γ : Type} {R : σ → σ → Prop} {x : Change σ β}

/-- Whether it ends in a fault or not, the change takes every state to a related one. -/
def Keeps (R : σ → σ → Prop) (x : Change σ β) : Prop := ∀ s, R s (perform x s).2

lemma keeps_modify {f : σ → σ} (h : ∀ s, R s (f s)) : Keeps R (modify f : Change σ PUnit) := h

lemma keeps_get_bind {f : σ → Change σ β} (h : ∀ s, R s (perform (f s) s).2) : Keeps R (get >>= f) := h

lemma perform_andFinally (x : Change σ β) (y : Change σ Unit) (s : σ) :
    (perform (x.andFinally y) s).2 = (perform y (perform x s).2).2 := by
  change ((x.andFinally y) s).2 = _
  simp only [andFinally]
  rcases perform y (perform x s).2 with ⟨_ | _, _⟩ <;> rfl

lemma exists_andFinally_error {s t : σ} (h : perform x s = (.error f, t))
    (y : Change σ Unit) : ∃ e, (perform (x.andFinally y) s).1 = .error e := by
  change ∃ e, ((x.andFinally y) s).1 = .error e
  simp only [andFinally, h]
  rcases perform y t with ⟨e | _, _⟩
  · exact ⟨e, rfl⟩
  · exact ⟨f, rfl⟩

variable [IsPreorder σ R]

lemma keeps_pure (b : β) : Keeps R (pure b : Change σ β) := fun s => refl_of R s

lemma keeps_fail (f : Fault) : Keeps R (fail f : Change σ β) := fun s => refl_of R s

lemma keeps_get : Keeps R (get : Change σ σ) := fun s => refl_of R s

lemma keeps_ofOutcome (x : Outcome β) : Keeps R (ofOutcome x : Change σ β) := by
  cases x with
  | ok b => exact keeps_pure b
  | error f => exact keeps_fail f

lemma Keeps.bind {f : β → Change σ γ} (hx : Keeps R x)
    (hf : ∀ b, Keeps R (f b)) : Keeps R (x >>= f) := by
  intro s
  rw [perform_bind]
  have hs := hx s
  rcases hp : perform x s with ⟨_ | b, t⟩ <;> rw [hp] at hs
  · exact hs
  · exact trans_of R hs (hf b t)

lemma keeps_forM {xs : List γ} {f : γ → Change σ PUnit} (h : ∀ x ∈ xs, Keeps R (f x)) : Keeps R (xs.forM f) := by
  induction xs with
  | nil => exact keeps_pure _
  | cons x xs ih =>
    exact (h x (by simp)).bind fun _ => ih fun y hy => h y (by simp [hy])

lemma Keeps.andFinally {y : Change σ Unit} (hx : Keeps R x) (hy : Keeps R y) :
    Keeps R (x.andFinally y) := by
  intro s
  rw [perform_andFinally]
  exact trans_of R (hx s) (hy _)

end Change

/-! ### Emitted operations -/

/-- All that was emitted is still there, in its place. -/
def Content.Grows : Content α → Content α → Prop
  | .primitives ps, .primitives qs => ps.toList <+: qs.toList
  | .foreign c, .foreign d => c.calls.toList <+: d.calls.toList
  | _, _ => False

/-- All that a sink holds is still there, in its place. -/
structure Sink.Grows (s t : Sink α) : Prop where
  content : s.content.Grows t.content
  measured : s.measured <+: t.measured
  measurementKeys : s.measurementKeys ⊆ t.measurementKeys
  framework : t.framework = s.framework
  size : t.size = s.size
  numQubits : t.numQubits = s.numQubits

lemma Content.Grows.refl (c : Content α) : c.Grows c := by
  cases c <;> exact prefix_rfl

lemma Content.Grows.trans {c d e : Content α} (h : c.Grows d) (h' : d.Grows e) : c.Grows e := by
  match c, d, e with
  | .primitives _, .primitives _, .primitives _ => exact IsPrefix.trans h h'
  | .foreign _, .foreign _, .foreign _ => exact IsPrefix.trans h h'

instance : IsPreorder (Sink α) Sink.Grows where
  refl _ := ⟨.refl _, prefix_rfl, Subset.refl _, rfl, rfl, rfl⟩
  trans _ _ _ h h' :=
    ⟨h.content.trans h'.content, h.measured.trans h'.measured,
      Subset.trans h.measurementKeys h'.measurementKeys, h'.framework.trans h.framework,
      h'.size.trans h.size, h'.numQubits.trans h.numQubits⟩

namespace Sink

/-- Changes of a sink that take nothing out of it. -/
abbrev Keeping {β : Type} (x : Change (Sink α) β) : Prop := Keeps Sink.Grows x

lemma grows_of_content {s t : Sink α} (h : s.content.Grows t.content)
    (hr : t = { s with content := t.content, globalPhase := t.globalPhase }) : s.Grows t := by
  rw [hr]
  exact ⟨h, prefix_rfl, Subset.refl _, rfl, rfl, rfl⟩

lemma keeping_remember (q : Operand α) : Keeping (remember q) := by
  refine keeps_modify fun s => ?_
  split
  · exact refl_of Grows s
  · exact ⟨.refl _, prefix_append _ _, Subset.refl _, rfl, rfl, rfl⟩

lemma keeping_push (p : Primitive α) : Keeping (push p) := by
  refine keeps_modify fun s => ?_
  rcases h : s.content with ps | c
  · exact grows_of_content (by simp [h, Content.Grows]) rfl
  · exact refl_of Grows s

lemma keeping_send (i : Instruction α) : Keeping (send i) := by
  refine keeps_modify fun s => ?_
  rcases h : s.content with ps | c
  · exact refl_of Grows s
  · exact grows_of_content (by simp [h, Content.Grows, Foreign.push]) rfl

variable [Scalar α]

lemma keeping_gate (g : Native) (targets controls angles : Operand α) : Keeping (gate g targets controls angles) := by
  refine keeps_get.bind fun s => ?_
  rcases s.content with ps | c
  · refine keeps_get.bind fun s => (keeps_ofOutcome _).bind fun ts => keeps_forM fun t _ => ?_
    split
    · exact (keeps_ofOutcome _).bind fun _ => (keeps_ofOutcome _).bind fun _ =>
        (keeps_ofOutcome _).bind fun _ => (keeps_ofOutcome _).bind fun _ => keeping_push _
    · exact (keeps_ofOutcome _).bind fun _ => (keeps_ofOutcome _).bind fun _ =>
        (keeps_ofOutcome _).bind fun _ => keeping_push _
  · refine keeps_get.bind fun s => (keeps_ofOutcome _).bind fun _ => (keeps_ofOutcome _).bind fun cs =>
      (keeps_ofOutcome _).bind fun ts => keeps_forM fun t _ => ?_
    exact (keeps_ofOutcome _).bind fun _ => (keeps_ofOutcome _).bind fun _ => keeping_send _

lemma keeping_sendPhase (t : Operand α) : Keeping (sendPhase t) := by
  refine keeps_get_bind fun s => ?_
  split
  · next c h _ =>
    rcases c.phase.sum t with f | x
    · exact refl_of Grows s
    · exact grows_of_content (t := { s with content := .foreign { c with phase := x } })
        (by simp [h, Content.Grows]) rfl
  · exact keeping_send _ s

lemma keeping_phase (t : Operand α) : Keeping (phase t) := by
  refine keeps_get.bind fun s => (keeps_ofOutcome _).bind fun x => ?_
  have hs : Keeping (do
      let total ← ofOutcome (s.globalPhase.sum t)
      modify fun s => { s with globalPhase := total }) :=
    (keeps_ofOutcome _).bind fun _ => keeps_modify fun s => grows_of_content (.refl _) rfl
  split
  · exact (keeping_push _).bind fun _ => hs
  · exact (keeping_sendPhase _).bind fun _ => hs

lemma keeping_measure (qubits : Operand α) : Keeping (measure qubits) := by
  refine keeps_get.bind fun s => (keeps_ofOutcome _).bind fun qs => ?_
  have hke : ∀ key : String, Keeping (modify fun s : Sink α => { s with
      measurementKeys := (s.measurementKeys ++ [key]).mergeSort fun a b => decide (a ≤ b) }) :=
    fun key => keeps_modify fun s => by refine ⟨.refl _, prefix_rfl, fun k hk => ?_, rfl, rfl, rfl⟩; simp [hk]
  split
  · exact keeps_forM fun q _ => (keeps_ofOutcome _).bind fun _ => (keeping_push _).bind fun _ =>
      keeping_remember q
  · exact keeps_forM fun q _ => (keeps_ofOutcome _).bind fun _ => (keeping_push _).bind fun _ =>
      keeping_remember q
  · exact (keeping_send _).bind fun _ => keeps_forM fun q _ => keeping_remember q
  · exact (keeps_forM fun q _ => (keeps_ofOutcome _).bind fun _ => (keeping_send _).bind fun _ =>
      hke _).bind fun _ => keeps_forM fun q _ => keeping_remember q
  · exact keeps_forM fun q _ => (keeping_send _).bind fun _ => keeping_remember q
  · exact keeps_forM fun q _ => (keeping_send _).bind fun _ => keeping_remember q

lemma keeping_reset (qubits : Operand α) : Keeping (reset qubits) := by
  refine keeps_get.bind fun s => (keeps_ofOutcome _).bind fun qs => keeps_forM fun q _ => ?_
  split
  · exact (keeps_ofOutcome _).bind fun _ => keeping_push _
  · exact (keeps_ofOutcome _).bind fun _ => keeping_send _

end Sink

/-! ### Recordings -/

/-- All that was emitted and logged at the present level is still there, in its place. -/
structure Recording.Grows (r t : Recording α) : Prop where
  sink : r.sink.Grows t.sink
  entries : r.entries.toList <+: t.entries.toList

instance : IsPreorder (Recording α) Grows where
  refl r := ⟨refl_of Sink.Grows r.sink, prefix_rfl⟩
  trans _ _ _ h h' := ⟨trans_of Sink.Grows h.sink h'.sink, h.entries.trans h'.entries⟩

namespace Recording

/-- Changes of a recording that take nothing out of it. -/
abbrev Keeping {β : Type} (x : Change (Recording α) β) : Prop := Keeps Grows x

variable {x : Change (Sink α) Unit}

lemma keeping_emit (h : Sink.Keeping x) : Keeping (emit x) := fun r => ⟨h r.sink, prefix_rfl⟩

section

variable {R : Recording α → Recording α → Prop} [IsPreorder (Recording α) R]

lemma keeps_flipping {flip body : Change (Recording α) Unit} (hfl : Keeps R flip) (hbo : Keeps R body)
    (ps : List ℕ) : Keeps R (flipping flip ps body) := by
  unfold flipping
  split
  · exact hbo
  · exact hfl.bind fun _ => hbo.andFinally hfl

lemma keeps_follow {perform : Call α → Change (Recording α) Unit} {p : Plan α Unit}
    (h : ∀ c ∈ p.outcome.1, Keeps R (perform c)) : Keeps R (follow perform p) :=
  (keeps_forM fun c hc => h c (Array.mem_toList_iff.1 hc)).bind fun _ => keeps_ofOutcome _

end

lemma perform_within (g : Gate) (os : Operands α) (body : Change (Recording α) Unit)
    (r : Recording α) : (Change.perform (within g os body) r).2 =
      let s := (Change.perform body { r with entries := #[] }).2
      { s with entries := r.entries.push (Entry.new g os s.entries.toList) } := rfl

variable {body : Change (Recording α) Unit}

lemma keeping_within (h : Keeping body) (g : Gate)
    (os : Operands α) : Keeping (within g os body) := by
  intro r
  rw [perform_within]
  exact ⟨(h { r with entries := #[] }).sink, by simp⟩

variable [Scalar α] {c : Call α}

lemma keeping_elementary (h : elementary? c = some x) : Sink.Keeping x := by
  unfold elementary? at h
  split at h <;> cases h
  · exact Sink.keeping_gate _ _ _ _
  · exact Sink.keeping_gate _ _ _ _
  · exact Sink.keeping_phase _
  · exact Sink.keeping_measure _
  · exact Sink.keeping_reset _

lemma keeps_logged {R : Recording α → Recording α → Prop} [IsPreorder (Recording α) R]
    {setting : Setting} (h : Keeps R body)
    (hw : ∀ operands, validate setting.numQubits c.operands = .ok (some operands) →
      Keeps R (within c.gate operands body)) : Keeps R (logged setting c body) := by
  unfold logged
  split
  · exact h
  · split
    · exact keeps_fail _
    · exact h
    · next operands ho => exact hw operands ho

lemma keeping_logged (h : Keeping body) (setting : Setting)
    (c : Call α) : Keeping (logged setting c body) :=
  keeps_logged h fun _ _ => keeping_within h _ _

/-- **A call takes nothing back**, at whatever depth it faults. -/
theorem keeping_performAt (setting : Setting) (depth : ℕ) (c : Call α) : Keeping (performAt setting depth c) := by
  induction depth generalizing c with
  | zero => exact keeps_fail _
  | succ depth ih =>
    refine (keeps_ofOutcome _).bind fun _ => (keeps_ofOutcome _).bind fun positions => ?_
    refine keeps_flipping (ih _) (keeping_logged ?_ _ _) _
    split
    · next x hx => exact keeping_emit (keeping_elementary hx)
    · exact keeps_follow fun c _ => ih c

lemma keeping_perform (setting : Setting) (c : Call α) : Keeping (perform setting c) := keeping_performAt _ _ _

end Recording

/-! ### Circuits -/

/-- All that the circuit holds is still there, in its place. -/
structure Circuit.Grows (c d : Circuit α) : Prop where
  sink : c.sink.Grows d.sink
  log : c.log.toList <+: d.log.toList
  detached : d.detached = c.detached
  validating : d.validating = c.validating

namespace Circuit

lemma grows_recording {x : Change (Recording α) Unit} (h : Keeping x) (c : Circuit α) :
    c.Grows (Change.perform (recording x) c).2 := by
  rw [perform_recording]
  refine ⟨(h ⟨c.sink, #[]⟩).sink, ?_, rfl, rfl⟩
  split
  · exact prefix_rfl
  · simp

end Circuit

/-! ### Calls that are refused -/

variable [Scalar α]

namespace Call

/-- The positions of the controls that have to be off. -/
def offPositions (c : Call α) : Outcome (List ℕ) := (Gate.controls c).elim (.ok []) (Gate.openPositions c.controlState)

/-- The checks that are made before anything is logged: on the flips of controls that have to be off if
there are such controls, and else on the operands of the call itself. -/
def check (n : ℕ) (c : Call α) : Outcome Unit := do
  Gate.precondition c
  let positions ← c.offPositions
  let first := if positions.isEmpty then c else flipCall positions
  if first.gate.isTransparent then .ok () else discard (validate n first.operands)

variable {c : Call α} {ps : List ℕ}

lemma check_of_ok (hp : Gate.precondition c = .ok ())
    (ho : c.offPositions = .ok ps) : c.check n =
      let first := if ps.isEmpty then c else flipCall ps
      if first.gate.isTransparent then .ok () else discard (validate n first.operands) := by
  rw [check, hp, ho]
  rfl

lemma check_eq_error
    (hp : Gate.precondition c = .ok ()) (ho : c.offPositions = .ok ps)
    (h : c.check n = .error f) :
    let first := if ps.isEmpty then c else flipCall ps
    first.gate.isTransparent = false ∧ validate n first.operands = .error f := by
  intro first
  rw [check_of_ok hp ho] at h
  change (if first.gate.isTransparent then Except.ok () else discard (validate n first.operands)) = _ at h
  rcases hg : first.gate.isTransparent with _ | _ <;> rw [hg] at h
  · refine ⟨rfl, ?_⟩
    rcases hv : validate n first.operands with e | x <;> rw [hv] at h <;> cases h
    rfl
  · cases h

/-- The call does not pass the checks that are made before anything is logged. -/
def Refused (n : ℕ) (c : Call α) : Prop := ∃ f, c.check n = .error f

lemma exists_of_not_refused (h : ¬ c.Refused n) :
    ∃ positions, Gate.precondition c = .ok () ∧ c.offPositions = .ok positions ∧
      let first := if positions.isEmpty then c else flipCall positions
      first.gate.isTransparent = false → ∀ f, validate n first.operands ≠ .error f := by
  rcases hp : Gate.precondition c with e | _
  · exact absurd ⟨e, by rw [check, hp]; rfl⟩ h
  rcases ho : c.offPositions with e | positions
  · exact absurd ⟨e, by rw [check, hp, ho]; rfl⟩ h
  refine ⟨positions, rfl, rfl, fun hg f hf => h ⟨f, ?_⟩⟩
  rw [check_of_ok hp ho]
  simp only [hg, hf]
  rfl

/-- The call has an entry of its own: its gate is not one that only stands for others, and its angles
are not all zero. -/
def IsLogged (n : ℕ) (c : Call α) : Prop := c.gate.isTransparent = false ∧ validate n c.operands ≠ .ok none

end Call

namespace Recording

variable {d : ℕ} {c : Call α}

lemma perform_logged_error {body : Change (Recording α) Unit}
    (hg : c.gate.isTransparent = false) (h : validate n c.operands = .error f) (r : Recording α) :
    Change.perform (logged ⟨n, true⟩ c body) r = (.error f, r) := by
  simp only [logged, hg, h]
  rfl

lemma size_lt_logged {x : Change (Recording α) Unit} (hc : c.IsLogged n)
    (h : ∀ f, validate n c.operands ≠ .error f) (r : Recording α) :
    r.entries.size < (Change.perform (logged ⟨n, true⟩ c x) r).2.entries.size := by
  obtain ⟨hg, hn⟩ := hc
  rcases hv : validate n c.operands with f | _ | operands
  · exact absurd hv (h f)
  · exact absurd hv hn
  · simp only [logged, hg, hv]
    exact Nat.lt_of_lt_of_eq (Nat.lt_succ_self _) (Array.size_push _).symm

lemma exists_performAt (setting : Setting) (d : ℕ) (c : Call α) :
    ∃ body, Keeping body ∧ performAt setting (d + 1) c = (do
      ofOutcome (Gate.precondition c)
      let positions ← ofOutcome c.offPositions
      flipping (performAt setting d (flipCall positions)) positions (logged setting c body)) := by
  refine ⟨_, ?_, by rw [performAt, offPositions]; rcases Gate.controls c with _ | _ <;> rfl⟩
  split
  · next x hx => exact keeping_emit (keeping_elementary hx)
  · exact keeps_follow fun c _ => keeping_performAt _ _ c

lemma offPositions_flipCall (ps : List ℕ) : (flipCall ps : Call α).offPositions = .ok [] := rfl

lemma isLogged_flipCall (n : ℕ) (ps : List ℕ) : (flipCall ps : Call α).IsLogged n := by
  refine ⟨rfl, fun h => ?_⟩
  simp only [validate, flipCall, validateFrom, Operand.toPlain, Key.isQubit, bind, Except.bind] at h
  rw [if_pos trivial] at h
  split at h
  · cases h
  · split at h <;> cases h

lemma exists_perform_logged (hp : Gate.precondition c = .ok ())
    (ho : c.offPositions = .ok []) : ∃ body, ∀ r, Change.perform (performAt ⟨n, true⟩ (d + 1) c) r =
      Change.perform (logged ⟨n, true⟩ c body) r := by
  obtain ⟨body, -, hbo⟩ := exists_performAt ⟨n, true⟩ d c
  refine ⟨body, fun r => ?_⟩
  rw [hbo, hp, ho]
  rfl

lemma exists_perform_flipped {ps : List ℕ}
    (hp : Gate.precondition c = .ok ()) (ho : c.offPositions = .ok ps) (h : ps ≠ []) :
    ∃ rest : Unit → Change (Recording α) Unit, (∀ u, Keeping (rest u)) ∧ ∀ r,
      Change.perform (performAt ⟨n, true⟩ (d + 1) c) r =
        Change.perform (performAt ⟨n, true⟩ d (flipCall ps) >>= rest) r := by
  obtain ⟨body, hk, hbo⟩ := exists_performAt ⟨n, true⟩ d c
  refine ⟨fun _ => (logged ⟨n, true⟩ c body).andFinally (performAt ⟨n, true⟩ d (flipCall ps)),
    fun _ => (keeping_logged hk _ _).andFinally (keeping_performAt _ _ _), fun r => ?_⟩
  rw [hbo, hp, ho]
  simp [perform_ofOutcome_bind, flipping, List.isEmpty_iff, h]

lemma perform_refused_first (hp : Gate.precondition c = .ok ()) (ho : c.offPositions = .ok [])
    (hg : c.gate.isTransparent = false) (h : validate n c.operands = .error f) (r : Recording α) :
    Change.perform (performAt ⟨n, true⟩ (d + 1) c) r = (.error f, r) := by
  obtain ⟨body, hbo⟩ := exists_perform_logged hp ho
  rw [hbo, perform_logged_error hg h]

/-- **A refused call changes nothing.** -/
theorem perform_refused (h : c.check n = .error f)
    (r : Recording α) : Change.perform (perform ⟨n, true⟩ c) r = (.error f, r) := by
  rw [perform, maxDepth]
  rcases hp : Gate.precondition c with e | _
  · obtain ⟨body, -, hbo⟩ := exists_performAt ⟨n, true⟩ 15 c
    have he : e = f := by simpa [check, hp, bind, Except.bind] using h
    rw [hbo, hp, he]
    rfl
  rcases ho : c.offPositions with e | positions
  · obtain ⟨body, -, hbo⟩ := exists_performAt ⟨n, true⟩ 15 c
    have he : e = f := by simpa [check, hp, ho, bind, Except.bind] using h
    rw [hbo, hp, ho, he]
    rfl
  obtain ⟨hg, hv⟩ := check_eq_error hp ho h
  by_cases hpo : positions = []
  · subst hpo; exact perform_refused_first hp ho hg hv r
  · obtain ⟨rest, -, hr⟩ := exists_perform_flipped (n := n) hp ho hpo
    rw [hr, perform_bind]
    simp only [List.isEmpty_iff, hpo, if_false] at hg hv
    rw [perform_refused_first rfl (offPositions_flipCall _) hg hv]

lemma exists_fault (hg : c.gate.isTransparent = false)
    (h : validate n c.operands = .error f) (r : Recording α) :
    ∃ e, (Change.perform (perform ⟨n, true⟩ c) r).1 = .error e := by
  obtain ⟨body, -, hbo⟩ := exists_performAt ⟨n, true⟩ 15 c
  rw [perform, maxDepth, hbo]
  rcases Gate.precondition c with e | _
  · exact ⟨e, rfl⟩
  rcases c.offPositions with e | positions
  · exact ⟨e, rfl⟩
  simp only [perform_ofOutcome_bind, flipping]
  split
  · exact ⟨f, by rw [perform_logged_error hg h]⟩
  · rw [perform_bind]
    rcases Change.perform (performAt ⟨n, true⟩ 15 (flipCall positions)) r with ⟨e | _, t⟩
    · exact ⟨e, rfl⟩
    · exact exists_andFinally_error (perform_logged_error hg h t) _

/-- **A call that is not refused leaves an entry**, if it is one that is logged. -/
theorem size_lt_perform (hc : c.IsLogged n) (h : ¬ c.Refused n)
    (r : Recording α) : r.entries.size < (Change.perform (perform ⟨n, true⟩ c) r).2.entries.size := by
  rw [perform, maxDepth]
  obtain ⟨positions, hpe, ho, hfi⟩ := exists_of_not_refused h
  by_cases hpo : positions = []
  · subst hpo
    obtain ⟨body, hbo⟩ := exists_perform_logged (n := n) (d := 15) hpe ho
    rw [hbo]
    exact size_lt_logged hc (hfi hc.1) r
  · obtain ⟨rest, hk, hr⟩ := exists_perform_flipped (n := n) (d := 15) hpe ho hpo
    obtain ⟨body, hbo⟩ := exists_perform_logged (n := n) (d := 14) (c := (flipCall positions : Call α))
      rfl (offPositions_flipCall _)
    simp only [List.isEmpty_iff, hpo, if_false] at hfi
    have hfl := size_lt_logged (x := body) (isLogged_flipCall n positions) (hfi rfl) r
    rw [hr, perform_bind]
    rw [← hbo] at hfl
    rcases hp : Change.perform (performAt ⟨n, true⟩ 15 (flipCall positions)) r with ⟨_ | u, s⟩ <;> rw [hp] at hfl
    · exact hfl
    · have hpr := (hk u s).entries.length_le
      simp only [Array.length_toList] at hpr
      exact hfl.trans_le hpr

end Recording

namespace Circuit

variable {g : Gate} {args : Operands α}

lemma perform_perform (call : Call α) (c : Circuit α) : Change.perform (perform call) c =
      Change.perform (recording (Recording.perform c.setting call)) c := by
  rw [perform, perform_get_bind]

lemma perform_apply_error (h : g.bind args = .error f)
    (c : Circuit α) : Change.perform (apply g args) c = (.error f, c) := by
  rw [apply, h]
  rfl

lemma perform_apply_ok {k : Call α} (h : g.bind args = .ok k) (c : Circuit α) :
    Change.perform (apply g args) c = Change.perform (perform k) c := by
  rw [apply, h]
  rfl

/-- **What a fault leaves behind.**  A call that ends in a fault keeps all that the circuit holds in its
place.  The circuit is exactly as before if the operands do not fit the gate or the call is refused by the
checks before anything is logged; and if the call is one that is logged, only then. -/
theorem fault_leaves_iff {g : Gate} {args : Operands α} {c d : Circuit α} {f : Fault}
    (hvalidating : c.validating = true) (hfault : Change.perform (apply g args) c = (.error f, d)) :
    c.Grows d ∧ (∀ e, g.bind args = .error e → d = c) ∧ ∀ call, g.bind args = .ok call →
        (call.Refused c.numQubits → d = c) ∧
          (call.IsLogged c.numQubits → c.detached = false → (d = c ↔ call.Refused c.numQubits)) := by
  have hd : d = (Change.perform (apply g args) c).2 := by rw [hfault]
  rcases hbi : g.bind args with e | call
  · rw [perform_apply_error hbi] at hd
    refine ⟨?_, fun _ _ => hd, fun _ h => by cases h⟩
    subst hd
    exact ⟨refl_of Sink.Grows _, prefix_rfl, rfl, rfl⟩
  have hs : c.setting = ⟨c.numQubits, true⟩ := by rw [setting, hvalidating]
  rw [perform_apply_ok hbi, perform_perform] at hd
  have hg := grows_recording (keeping_perform c.setting call) c
  rw [← hd] at hg
  refine ⟨hg, ⟨fun _ h => (by cases h), ?_⟩⟩
  rintro _ ⟨⟩
  rw [hs] at hd
  have hr : call.Refused c.numQubits → d = c := by
    rintro ⟨e, he⟩; rw [hd, perform_recording, perform_refused he]; simp
  refine ⟨hr, fun hl ha => ⟨fun hdc => ?_, hr⟩⟩
  by_contra h
  have hlt := size_lt_perform hl h ⟨c.sink, #[]⟩
  rw [perform_recording, ha] at hd
  have hlo := congrArg (fun c => c.log.size) (hd.symm.trans hdc)
  simp only [Bool.false_eq_true, if_false, Array.size_append, Nat.add_eq_left] at hlo
  exact absurd hlo hlt.ne'

/-- A negation whose control is its target, with the state that the control has to be in. -/
def selfControlled (state : Operand ℝ) : Call ℝ :=
  ⟨.of .x .controlled, [(.controlIndex, .int 0), (.targetIndex, .int 0)], state⟩

lemma bind_selfControlled (state : Operand ℝ) :
    (Gate.of .x .controlled).bind [(.controlIndex, .int 0), (.targetIndex, .int 0), (.controlState, state)] =
      .ok (selfControlled state) := rfl

lemma validate_selfControlled (state : Operand ℝ) :
    validate 1 (selfControlled state).operands = .error (.duplicateQubits "[0, 0]") := rfl

lemma check_selfControlled : (selfControlled .none).check 1 = .error (.duplicateQubits "[0, 0]") := rfl

/-- Without a state, the call is refused. -/
theorem fault_leaves_selfControlled : ∃ d, Change.perform (apply (.of .x .controlled)
        [(.controlIndex, .int 0), (.targetIndex, .int 0), (.controlState, .none)])
        (empty .reference 1 : Circuit ℝ) = (.error (.duplicateQubits "[0, 0]"), d) ∧
      d = empty .reference 1 := by
  have hfa := perform_apply_ok (bind_selfControlled .none) (empty .reference 1)
  rw [perform_perform, perform_recording] at hfa
  exact ⟨_, hfa, ((fault_leaves_iff rfl hfa).2.2 _ (bind_selfControlled .none)).1 ⟨_, check_selfControlled⟩⟩

lemma not_refused_selfControlled : ¬ (selfControlled (.text "0")).Refused 1 := by
  rintro ⟨f, hf⟩; cases hf

/-- With a control that has to be off, the same call leaves the flips of its control. -/
theorem not_unchanged_selfControlled : ∃ f d, Change.perform (apply (.of .x .controlled)
        [(.controlIndex, .int 0), (.targetIndex, .int 0), (.controlState, .text "0")])
        (empty .reference 1 : Circuit ℝ) = (.error f, d) ∧ d.log ≠ #[] := by
  have hca := perform_apply_ok (bind_selfControlled (.text "0")) (empty .reference 1)
  have hs : (empty .reference 1 : Circuit ℝ).setting = ⟨1, true⟩ := rfl
  rw [perform_perform, perform_recording, hs] at hca
  have hi := validate_selfControlled (.text "0")
  obtain ⟨f, hf⟩ := exists_fault rfl hi ⟨(empty .reference 1 : Circuit ℝ).sink, #[]⟩
  have hlt := size_lt_perform ⟨rfl, by rw [hi]; rintro ⟨⟩⟩ not_refused_selfControlled
    ⟨(empty .reference 1 : Circuit ℝ).sink, #[]⟩
  refine ⟨f, _, hca.trans (Prod.ext hf rfl), fun hl => ?_⟩
  have hsi := congrArg Array.size hl
  simp only [empty, Bool.false_eq_true, if_false, Array.size_append, Array.size_empty, Nat.zero_add] at hsi
  exact absurd hsi hlt.ne'

end Circuit

end QuantumCircuits
