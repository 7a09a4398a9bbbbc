import QuantumCircuits.Exchange.Synthesis
import QuantumCircuits.Proofs.Log.Composite

/-!
# Log — Attached

Where calls are logged.  A circuit adds what it logs to a list that it holds beside its log, and the two
are the same list until the log is exchanged for another one: then the circuit is `detached`, and what is
called afterwards goes through without an entry.  A replay that goes through attaches the circuit again.

`Command` collects the calls of the interface, and `Command.linkChange` says what each of them does to the
link: a call that exchanges the log and whose replay ends in a fault cuts it, and so does every rebuilding
of the circuit from outside that goes through.  After any calls, faults included, a circuit is attached if
and only if every cut was followed by a replay that went through (`Dialogue.attached_iff`), and then, and
only then, calls add their entries at the end of the log.
-/

namespace QuantumCircuits

open Change Circuit Recording

variable {α : Type}
variable {g : Gate} {args : Operands α} {call : Call α}

lemma Change.related_bind {σ β γ : Type} {R : σ → σ → Prop} [IsPreorder σ R] (x : Change σ β)
    {f : β → Change σ γ} (hf : ∀ b, Keeps R (f b)) (s : σ) : R (perform x s).2 (perform (x >>= f) s).2 := by
  rw [perform_bind]
  rcases perform x s with ⟨_ | b, t⟩
  · exact refl_of R t
  · exact hf b t

lemma Change.exists_of_andFinally_ok {σ β : Type} {x : Change σ β} {y : Change σ Unit} {b : β} {s t : σ}
    (h : perform (x.andFinally y) s = (.ok b, t)) : ∃ u, perform x s = (.ok b, u) ∧ perform y u = (.ok (), t) := by
  change (x.andFinally y) s = _ at h
  simp only [andFinally] at h
  rcases hx : perform x s with ⟨f | b', u⟩ <;> rw [hx] at h <;>
    rcases hy : perform y u with ⟨g | _, v⟩ <;> simp only [hy] at h <;> cases h
  exact ⟨u, rfl, hy⟩

/-! ### The link -/

/-- What a call does to the link between a circuit's log and the list that calls are added to. -/
inductive LinkChange where
  | keeps | restores | cuts
deriving DecidableEq, Repr

/-- Whether a circuit is detached after a change of its link. -/
def LinkChange.detached : LinkChange → Bool → Bool
  | .keeps, b => b
  | .restores, _ => false
  | .cuts, _ => true

@[simp]
lemma LinkChange.detached_restores (done b : Bool) :
    (if done then .restores else .keeps : LinkChange).detached b = (!done && b) := by
  cases done <;> rfl

@[simp]
lemma LinkChange.detached_cuts (done b : Bool) :
    (if done then .cuts else .keeps : LinkChange).detached b = (done || b) := by
  cases done <;> rfl

namespace Circuit

variable {full : Bool} {x : Change (Circuit α) Unit} {c c' : Circuit α}

/-- Whether and where calls are logged is the same for both circuits. -/
structure SameLink (c d : Circuit α) : Prop where
  detached : d.detached = c.detached
  validating : d.validating = c.validating

instance : IsPreorder (Circuit α) SameLink where
  refl _ := ⟨rfl, rfl⟩
  trans _ _ _ h h' := ⟨h'.detached.trans h.detached, h'.validating.trans h.validating⟩

/-- A change of a circuit has a given effect on its link; what is validated stays so. -/
def Links (x : Change (Circuit α) Unit) (c : Circuit α) (l : LinkChange) : Prop :=
  (Change.perform x c).2.detached = l.detached c.detached ∧
    (c.validating = true → (Change.perform x c).2.validating = true)

lemma links_of_sameLink (h : Keeps SameLink x) (c : Circuit α) : Links x c .keeps :=
  ⟨(h c).detached, fun hv => (h c).validating.trans hv⟩

lemma Links.bind {l : LinkChange} (h : Links x c l)
    {y : Change (Circuit α) Unit} (hy : Keeps SameLink y) : Links (x >>= fun _ => y) c l := by
  have hs : SameLink _ _ := related_bind x (fun _ => hy) c
  exact ⟨hs.detached.trans h.1, fun hv => hs.validating.trans (h.2 hv)⟩

lemma link_new {f : Framework} {size : Operand α} (h : new f size = .ok c) :
    c.detached = false ∧ c.validating = true := by
  rw [eq_sized_of_new h]
  exact ⟨rfl, rfl⟩

lemma sameLink_recording (x : Change (Recording α) Unit) : Keeps SameLink (recording x) := fun _ => ⟨rfl, rfl⟩

/-- The link is not cut, and what is validated stays so. -/
structure NotCut (c d : Circuit α) : Prop where
  detached : d.detached = true → c.detached = true
  validating : c.validating = true → d.validating = true

instance : IsPreorder (Circuit α) NotCut where
  refl _ := ⟨id, id⟩
  trans _ _ _ h h' := ⟨h.detached ∘ h'.detached, h'.validating ∘ h.validating⟩

lemma notCut_of_sameLink {β : Type} {x : Change (Circuit α) β} (h : Keeps SameLink x) : Keeps NotCut x :=
  fun c => ⟨(h c).detached.symm.trans, (h c).validating.trans⟩

lemma links_of_notCut (h : Keeps NotCut x) (c : Circuit α) :
    Links x c (if (Change.perform x c).2.detached then .keeps else .restores) := by
  refine ⟨?_, (h c).validating⟩
  cases hx : (Change.perform x c).2.detached with
  | false => rfl
  | true => exact ((h c).detached hx).symm

variable [Scalar α] {reps : Operand α}

lemma inherited_sameLink : Inherited (α := α) fun x => Keeps SameLink x :=
  inherited_keeps (fun _ => keeps_get.bind fun _ => sameLink_recording _)
    (fun _ => keeps_get.bind fun _ => sameLink_recording _)

lemma sameLink_convert (f : Framework) : Keeps SameLink (convert f : Change (Circuit α) (Circuit α)) := by
  intro c; rw [perform_convert]; exact ⟨rfl, rfl⟩

/-! ### Replays -/

/-- The log can be replayed on a circuit like this one. -/
def replays (c : Circuit α) (log : List (Entry α)) : Bool := (replay log c.fresh).2.2.toBool

lemma link_replay_fresh (c : Circuit α) (log : List (Entry α)) :
    (replay log c.fresh).2.1.detached = false ∧ (replay log c.fresh).2.1.validating = true := by
  have h := inherited_sameLink.keeps_replay log c.fresh
  exact ⟨h.detached, h.validating⟩

lemma link_update (c : Circuit α) : (Change.perform update c).1.toBool = c.replays c.log.toList ∧
    (Change.perform update c).2.detached = (!(c.replays c.log.toList) && c.detached) ∧
    (Change.perform update c).2.validating = (c.replays c.log.toList || c.validating) := by
  have ht := link_replay_fresh c c.log.toList
  rw [perform_update, replays]
  rcases hr : replay c.log.toList c.fresh with ⟨es, target, f | u⟩
  · exact ⟨rfl, rfl, rfl⟩
  · rw [hr] at ht; exact ⟨rfl, ht.1, ht.2⟩

lemma link_updateWith (c : Circuit α) (log : List (Entry α)) :
    (Change.perform (updateWith log) c).2.detached = !(c.replays log) ∧
    (Change.perform (updateWith log) c).2.validating = (c.replays log || c.validating) := by
  have h := link_update { c with log := log.toArray, detached := true }
  rw [updateWith, perform_modify_bind]
  simpa [replays, fresh, freshIn, framework, numQubits] using h.2

/-- A change of the log's entries that ends in a fault or in a replay. -/
def Rewrites (x : Change (Circuit α) Unit) (c : Circuit α) : Prop :=
  ∃ log, (∃ f, Change.perform x c = (.error f, { c with log := log })) ∨
    Change.perform x c = Change.perform update { c with log := log }

lemma rewrites_changeMapping (ps : Operand α) (c : Circuit α) : Rewrites (changeMapping ps) c := by
  rw [Rewrites, changeMapping, perform_get_bind]
  cases ps.items with
  | error f => exact ⟨c.log, .inl ⟨f, rfl⟩⟩
  | ok xs =>
    rw [perform_ofOutcome_bind]
    by_cases hi : (!xs.all Operand.isInt) = true
    · exact ⟨c.log, .inl ⟨.mappingType, by rw [if_pos hi]; rfl⟩⟩
    rw [if_neg hi]
    by_cases hu : ((xs.filterMap Operand.toInt?).eraseDups.mergeSort
        fun (a b : Int) => decide (a ≤ b)) ≠ (List.range c.numQubits).map Int.ofNat
    · exact ⟨c.log, .inl ⟨.mappingNotUnique, by rw [if_pos hu]; rfl⟩⟩
    rw [if_neg hu]
    by_cases hco : xs.length ≠ c.numQubits
    · exact ⟨c.log, .inl ⟨.addCount, by rw [if_pos hco]; rfl⟩⟩
    rw [if_neg hco]
    dsimp only
    rcases moveAll (moved (if ps.isSequence = true then .list xs else ps)) c.log.toList with
      ⟨log, f | _⟩
    · exact ⟨log.toArray, .inl ⟨f, rfl⟩⟩
    · exact ⟨log.toArray, .inr rfl⟩

lemma rewrites_verticalReverse (c : Circuit α) : Rewrites verticalReverse c := by
  rw [Rewrites, verticalReverse, perform_get_bind]; exact rewrites_changeMapping _ c

lemma rewrites_compress (share : Operand α) (c : Circuit α) : Rewrites (compress share) c := by
  rw [Rewrites, compress]
  cases share.toReal? with
  | none => exact ⟨c.log, .inl ⟨_, rfl⟩⟩
  | some p =>
    dsimp only
    by_cases hr : (!(Scalar.le 0.0 p && Scalar.le p 1.0)) = true
    · exact ⟨c.log, .inl ⟨.compression, by rw [if_pos hr]; rfl⟩⟩
    rw [if_neg hr]
    rw [perform_get_bind]
    generalize (c.log.toList.filterMapM fun e => (isNegligible _ e >>= _ : Outcome (Option (Entry α)))) = kept
    cases kept with
    | error f => exact ⟨c.log, .inl ⟨f, rfl⟩⟩
    | ok kept => exact ⟨kept.toArray, .inr rfl⟩

/-- What exchanging the log for another one and replaying it does to the link. -/
def exchangeLink (c : Circuit α) : Outcome (List (Entry α)) → LinkChange
  | .error _ => .keeps
  | .ok log => if c.replays log then .restores else .cuts

lemma links_update (c : Circuit α) :
    Links update c (if (Change.perform update c).1.toBool then .restores else .keeps) := by
  obtain ⟨hd, hde, hva⟩ := link_update c
  rw [Links, hd, hde, hva, LinkChange.detached_restores]
  exact ⟨rfl, fun hv => by rw [hv, Bool.or_true]⟩

lemma Rewrites.links (h : Rewrites x c) :
    Links x c (if (Change.perform x c).1.toBool then .restores else .keeps) := by
  obtain ⟨log, ⟨f, hfa⟩ | hu⟩ := h
  · rw [Links, hfa]; exact ⟨rfl, id⟩
  · rw [Links, hu]; exact links_update { c with log := log }

lemma links_exchange {β : Type} (out : Outcome β) (f : β → List (Entry α)) (c : Circuit α) :
    Links (ofOutcome out >>= fun b => updateWith (f b)) c (c.exchangeLink (out.map f)) := by
  cases out with
  | error _ => exact ⟨rfl, id⟩
  | ok b =>
    obtain ⟨hd, hv⟩ := link_updateWith c (f b)
    rw [Links, perform_ofOutcome_bind, hd, hv]
    dsimp only [Except.map, exchangeLink]
    cases c.replays (f b) <;> simp [LinkChange.detached]

lemma links_mergeGlobalPhases (c : Circuit α) : Links mergeGlobalPhases c
    (c.exchangeLink ((c.positionsWithout .globalPhase).map fun ps => ps.filterMap fun p => c.log[p]?)) := by
  have h := (links_exchange (c.positionsWithout .globalPhase) (fun ps => ps.filterMap fun p => c.log[p]?) c).bind
    (inherited_sameLink.apply .globalPhase [(.angle, c.sink.globalPhase)])
  rw [bind_assoc] at h
  rw [Links, mergeGlobalPhases, perform_get_bind]
  exact h

lemma exists_of_replayed {log : Outcome (List (Entry α))}
    (h : (log >>= fun es => (replay es c.fresh).2.2 >>= fun _ => .ok (replay es c.fresh).2.1) = .ok c') :
    ∃ es, (replay es c.fresh).2.1 = c' := by
  cases log with
  | error f => cases h
  | ok es =>
    refine ⟨es, ?_⟩
    rcases hr : replay es c.fresh with ⟨es', target, f | u⟩ <;> simp only [bind, Except.bind, hr] at h <;> cases h
    rfl

def isFlat (c : Circuit α) : Bool := (c.log.toList.mapM Entry.isElementary).toOption.any fun bs => bs.all id

lemma decompose_cases (h : c.decompose reps full = .ok c') :
    c.isFlat = true ∧ c = c' ∨ c.isFlat = false ∧ ∃ es, (replay es c.fresh).2.1 = c' := by
  rw [decompose] at h
  rw [isFlat]
  cases hba : c.log.toList.mapM Entry.isElementary with
  | error f =>
    rw [hba] at h
    cases h
  | ok bs =>
    rw [hba] at h
    by_cases ha : bs.all id = true
    · exact .inl ⟨ha, by simpa [bind, Except.bind, pure, Except.pure, ha] using h⟩
    · rw [Bool.not_eq_true] at ha
      refine .inr ⟨ha, ?_⟩
      change (if bs.all id = true then _ else _) = _ at h
      rw [ha, if_neg Bool.false_ne_true] at h
      split at h
      · exact exists_of_replayed h
      · split at h
        · exact exists_of_replayed h
        · cases h

lemma link_decompose (h : c.decompose reps full = .ok c') :
    c'.detached = (c.isFlat && c.detached) ∧ (c.validating = true → c'.validating = true) := by
  obtain ⟨hfl, rfl⟩ | ⟨hfl, es, rfl⟩ := decompose_cases h
  · exact ⟨by rw [hfl, Bool.true_and], id⟩
  · have ht := link_replay_fresh c es
    exact ⟨by rw [hfl, Bool.false_and, ht.1], fun _ => ht.2⟩

lemma links_decompose (reps : Operand α) (full : Bool) (c : Circuit α) :
    Links (do set (← ofOutcome ((← get).decompose reps full))) c
      (if (c.decompose reps full).toBool && !c.isFlat then .restores else .keeps) := by
  have hr : Change.perform (do set (← ofOutcome ((← get).decompose reps full))) c =
      match c.decompose reps full with
      | .ok c' => (.ok (), c')
      | .error f => (.error f, c) := by
    rw [perform_get_bind]
    cases c.decompose reps full <;> rfl
  rw [Links, hr, LinkChange.detached_restores]
  cases hp : c.decompose reps full with
  | error f => exact ⟨rfl, id⟩
  | ok c' =>
    obtain ⟨hd, hv⟩ := link_decompose hp
    refine ⟨hd.trans ?_, hv⟩
    rw [Except.toBool, Bool.true_and, Bool.not_not]

/-! ### Unitaries -/

lemma notCut_update : Keeps NotCut (update : Change (Circuit α) Unit) := by
  intro c
  obtain ⟨-, hd, hv⟩ := link_update c
  refine ⟨fun h => ?_, fun h => by rw [hv, h, Bool.or_true]⟩
  rw [hd, Bool.and_eq_true] at h
  exact h.2

lemma inherited_notCut : Inherited (α := α) fun x => Keeps NotCut x :=
  inherited_keeps (fun h => notCut_of_sameLink (inherited_sameLink.perform h))
    (fun h => notCut_of_sameLink (inherited_sameLink.follow h))

lemma notCut_mergeDiagonals (R : Routines α) (qs : Operand α) (bs : List Shannon.Block) :
    Keeps NotCut (Shannon.mergeDiagonals R qs bs) := by
  match bs with
  | [] | [_] => exact keeps_pure _
  | b :: c :: rest =>
    have hr : Keeps NotCut (restart : Change (Circuit α) Unit) := keeps_modify fun _ => ⟨nofun, fun _ => rfl⟩
    have hl : ∀ log : List (Entry α), Keeps NotCut (modify fun c : Circuit α => { c with log := log.toArray }) :=
      fun _ => keeps_modify fun _ => ⟨id, id⟩
    have hbl : Keeps NotCut (Shannon.rebuilt R qs b c rest) := fun d => by
      rw [Shannon.sameButLog_rebuilt R qs b c rest d]
      exact ⟨id, id⟩
    exact hbl.bind fun log => hr.bind fun _ => (hl log).bind fun _ => notCut_update

end Circuit

/-! ### Changes from outside -/

namespace Dialogue

/-- The circuits of two dialogues have the same link. -/
def SameLink (d e : Dialogue α) : Prop := d.circuit.SameLink e.circuit

instance : IsPreorder (Dialogue α) SameLink where
  refl d := refl_of Circuit.SameLink d.circuit
  trans _ _ _ h h' := trans_of Circuit.SameLink h h'

variable {β : Type}

lemma sameLink_onCircuit {x : Change (Circuit α) β} (h : Change.Keeps Circuit.SameLink x) :
    Change.Keeps SameLink (onCircuit x) := fun d => h d.circuit

lemma sameLink_onExchange (x : Change (Exchange α) β) : Keeps SameLink (onExchange x) := fun d => refl_of SameLink d

lemma sameLink_onCopy (x : Change (Dialogue α) β) : Keeps SameLink (onCopy x) := fun d => refl_of SameLink d

lemma link_replaceBy {x : Change (Dialogue α) (Circuit α)} (hx : Keeps SameLink x) (d : Dialogue α) :
    (perform (x >>= replaceBy) d).2.circuit.detached = ((perform (x >>= replaceBy) d).1.toBool || d.circuit.detached) ∧
    (perform (x >>= replaceBy) d).2.circuit.validating = d.circuit.validating := by
  have h := hx d
  rw [perform_bind]
  rcases hr : perform x d with ⟨_ | built, e⟩ <;> rw [hr] at h
  · exact ⟨h.detached, h.validating⟩
  · exact ⟨rfl, h.validating⟩

variable [Scalar α]

lemma sameLink_askAbout (name : String) (details : List (String × Datum α)) :
    Keeps SameLink (askAbout name details) := by
  refine Keeps.bind ?_ fun _ => sameLink_onExchange _
  refine keeps_get.bind fun d => ?_
  split
  · exact keeps_pure _
  · exact keeps_fail _

lemma sameLink_optimizeBlocks : Keeps SameLink (optimizeBlocks : Change (Dialogue α) (Circuit α)) := by
  refine keeps_get.bind fun d => Keeps.bind ?_ fun c => Keeps.bind ?_ fun _ =>
    (sameLink_onExchange _).bind fun _ => (keeps_ofOutcome _).bind fun _ => sameLink_onExchange _
  · refine keeps_get.bind fun d => ?_
    dsimp only
    split
    · exact keeps_pure _
    · exact sameLink_onCircuit (sameLink_convert _)
  · rw [contentOf]
    split
    · exact keeps_pure _
    · exact keeps_fail _

lemma sameLink_unitary : Keeps SameLink (unitary : Change (Dialogue α) (Operand α)) := by
  refine keeps_get.bind fun d => ?_
  dsimp only
  split
  · exact keeps_pure _
  · exact keeps_pure _
  · exact (sameLink_askAbout _ _).bind fun _ => keeps_ofOutcome _
  all_goals exact (sameLink_onCopy _).bind fun _ => keeps_ofOutcome _

end Dialogue

/-! ### Commands -/

/-- The calls that change a circuit. -/
inductive Method (α : Type) where
  | gate (g : Gate) (args : Operands α)
  | measureAll
  | add (other : Circuit α) (indices : Operand α)
  | fourier (qubits : Operand α) (swapping : Bool) (degree : Operand α) (inverse : Bool)
  | prepare (R : Routines α) (p : Preparation) (output : Framework) (state qubits percentage order : Operand α)
  | unitary (R : Routines α) (s : Synthesis) (U qubits : Operand α)
  | multiplexor (R : Routines α) (gates controls target : Operand α) (upToDiagonal simplifying : Bool)
      (state : Operand α)
  | restart
  | update
  | compress (share : Operand α)
  | changeMapping (positions : Operand α)
  | verticalReverse
  | horizontalReverse (inverting : Bool)
  | mergeGlobalPhases
  | removeMeasurements

namespace Method

variable [Scalar α]

def run : Method α → Change (Circuit α) Unit
  | .gate g args => Circuit.apply g args
  | .measureAll => Circuit.measureAll
  | .add other indices => Circuit.add other indices
  | .fourier qubits swapping degree inverse => Fourier.apply qubits swapping degree inverse
  | .prepare R p output state qubits percentage order =>
    p.apply R output state qubits percentage order
  | .unitary R s U qubits => s.apply R U qubits
  | .multiplexor R gates controls target upToDiagonal simplifying state =>
    Multiplexor.apply R gates controls target upToDiagonal simplifying state
  | .restart => Circuit.restart
  | .update => Circuit.update
  | .compress share => Circuit.compress share
  | .changeMapping positions => Circuit.changeMapping positions
  | .verticalReverse => Circuit.verticalReverse
  | .horizontalReverse inverting => Circuit.horizontalReverse inverting
  | .mergeGlobalPhases => Circuit.mergeGlobalPhases
  | .removeMeasurements => Circuit.removeMeasurements

def linkChange (m : Method α) (c : Circuit α) : LinkChange :=
  match m with
  | .gate .. | .measureAll | .add .. | .fourier .. | .prepare .. => .keeps
  | .unitary .. | .multiplexor .. => if (perform m.run c).2.detached then .keeps else .restores
  | .restart => .restores
  | .update | .compress _ | .changeMapping _ | .verticalReverse =>
    if (perform m.run c).1.toBool then .restores else .keeps
  | .horizontalReverse true => c.exchangeLink ((Entry.invertAll c.log.toList).2.map Entry.assemble)
  | .horizontalReverse false => c.exchangeLink (.ok c.log.toList.reverse)
  | .mergeGlobalPhases =>
    c.exchangeLink ((c.positionsWithout .globalPhase).map fun ps => ps.filterMap fun p => c.log[p]?)
  | .removeMeasurements =>
    c.exchangeLink ((c.positionsWithout .measure).map fun ps => ps.filterMap fun p => c.log[p]?)

lemma links_run (m : Method α) (c : Circuit α) : Circuit.Links m.run c (m.linkChange c) := by
  open Circuit in
  cases m with
  | gate g args => exact links_of_sameLink (inherited_sameLink.apply g args) c
  | measureAll => exact links_of_sameLink inherited_sameLink.measureAll c
  | add other indices => exact links_of_sameLink (inherited_sameLink.add other indices) c
  | fourier qubits swapping degree inverse =>
    exact links_of_sameLink (inherited_sameLink.fourier qubits swapping degree inverse) c
  | prepare R p output state qubits percentage order =>
    exact links_of_sameLink (inherited_sameLink.preparation R p output state qubits percentage order) c
  | unitary R s U qubits =>
    exact links_of_notCut (inherited_notCut.synthesis notCut_mergeDiagonals R s U qubits) c
  | multiplexor R gates controls target upToDiagonal simplifying state =>
    exact links_of_notCut (inherited_notCut.multiplexor notCut_mergeDiagonals R gates controls target
      upToDiagonal simplifying state) c
  | restart => exact ⟨rfl, fun _ => rfl⟩
  | update => exact links_update c
  | compress share => exact (rewrites_compress share c).links
  | changeMapping positions => exact (rewrites_changeMapping positions c).links
  | verticalReverse => exact (rewrites_verticalReverse c).links
  | horizontalReverse inverting =>
    cases inverting with
    | false =>
      obtain ⟨hd, hv⟩ := links_exchange (.ok c.log.toList.reverse) id c
      exact ⟨hd, hv⟩
    | true =>
      obtain ⟨hd, hv⟩ := links_exchange (Entry.invertAll c.log.toList).2 Entry.assemble
        { c with log := (Entry.invertAll c.log.toList).1.toArray }
      exact ⟨hd, hv⟩
  | mergeGlobalPhases => exact links_mergeGlobalPhases c
  | removeMeasurements =>
    obtain ⟨hd, hv⟩ := links_exchange (c.positionsWithout .measure) (fun ps => ps.filterMap fun p => c.log[p]?) c
    exact ⟨hd, hv⟩

end Method

/-- The calls of the interface that change the circuit at hand.  A decomposition gives a new circuit,
which is worked with from then on. -/
inductive Command (α : Type) where
  | method (m : Method α)
  | decompose (reps : Operand α) (full : Bool)
  | transpile
  | rebuild (R : Routines α) (r : Realization α) (output : Framework)

namespace Command

open Dialogue (onCircuit)

variable [Scalar α]

def run : Command α → Change (Dialogue α) Unit
  | .method m => onCircuit m.run
  | .decompose reps full => onCircuit (do set (← ofOutcome ((← get).decompose reps full)))
  | .transpile => Dialogue.transpile
  | .rebuild R r output => Dialogue.rebuild R r output

def linkChange (q : Command α) (d : Dialogue α) : LinkChange :=
  match q with
  | .method m => m.linkChange d.circuit
  | .decompose reps full =>
    if (d.circuit.decompose reps full).toBool && !d.circuit.isFlat then .restores else .keeps
  | .transpile | .rebuild .. => if (perform q.run d).1.toBool then .cuts else .keeps

/-- **What one call does to the link.** -/
theorem link_run (q : Command α) (d : Dialogue α) :
    (Change.perform q.run d).2.circuit.detached = (q.linkChange d).detached d.circuit.detached ∧
    (d.circuit.validating = true → (Change.perform q.run d).2.circuit.validating = true) := by
  cases q with
  | method m => exact m.links_run d.circuit
  | decompose reps full => exact links_decompose reps full d.circuit
  | transpile =>
    obtain ⟨hd, hv⟩ := Dialogue.link_replaceBy Dialogue.sameLink_optimizeBlocks d
    exact ⟨hd.trans (LinkChange.detached_cuts _ _).symm, hv.trans⟩
  | rebuild R r output =>
    obtain ⟨hd, hv⟩ := Dialogue.link_replaceBy
      (Dialogue.sameLink_unitary.bind fun u => Dialogue.sameLink_onExchange (r.prepare R output u)) d
    rw [bind_assoc] at hd hv
    exact ⟨hd.trans (LinkChange.detached_cuts _ _).symm, hv.trans⟩

end Command

/-! ### Entries at the end of the log -/

namespace Recording

variable [Scalar α]
variable {n : ℕ} {c : Call α}

lemma exists_push_of_logged {body : Change (Recording α) Unit}
    {r t : Recording α} (hc : c.IsLogged n) (h : Change.perform (logged ⟨n, true⟩ c body) r = (.ok (), t)) :
    ∃ e : Entry α, e.gate = some (.known c.gate) ∧ validate n c.operands = .ok (some e.operands) ∧
      t.entries = r.entries.push e := by
  obtain ⟨hg, hn⟩ := hc
  rcases hv : validate n c.operands with f | _ | operands
  · rw [perform_logged_error hg hv] at h; cases h
  · exact absurd hv hn
  · simp only [logged, hg, hv] at h
    have ht : t = (Change.perform (within c.gate operands body) r).2 := by
      exact (congrArg Prod.snd h).symm
    rw [ht, perform_within]
    exact ⟨_, rfl, rfl, rfl⟩

lemma exists_push_of_flipped {d : ℕ} {ps : List ℕ} {r t : Recording α}
    (h : Change.perform (performAt ⟨n, true⟩ (d + 1) (flipCall ps)) r = (.ok (), t)) :
    ∃ e : Entry α, e.gate = some (.known (.of .x .plain)) ∧ t.entries = r.entries.push e := by
  obtain ⟨body, hbo⟩ := exists_perform_logged (c := (flipCall ps : Call α))
    rfl (offPositions_flipCall _)
  rw [hbo] at h
  obtain ⟨e, hg, -, he⟩ := exists_push_of_logged (isLogged_flipCall n ps) h
  exact ⟨e, hg, he⟩

/-- **A call that goes through adds its entry**, between the flips of the controls that have to be off. -/
theorem exists_entries {r t : Recording α} (hc : c.IsLogged n)
    (h : Change.perform (perform ⟨n, true⟩ c) r = (.ok (), t)) :
    ∃ (e : Entry α) (before after : List (Entry α)), e.gate = some (.known c.gate) ∧
      validate n c.operands = .ok (some e.operands) ∧
      t.entries.toList = r.entries.toList ++ (before ++ e :: after) ∧
      (∀ x ∈ before ++ after, x.gate = some (.known (.of .x .plain))) ∧
      (c.offPositions = .ok [] → before ++ after = []) := by
  rw [perform, maxDepth] at h
  obtain ⟨body, -, hbo⟩ := exists_performAt ⟨n, true⟩ 15 c
  rw [hbo] at h
  rcases hp : Gate.precondition c with f | _ <;> rw [hp] at h
  · cases h
  rcases hof : c.offPositions with f | positions <;> rw [hof] at h
  · cases h
  simp only [perform_ofOutcome_bind, flipping] at h
  split at h
  · obtain ⟨e, hg, ho, he⟩ := exists_push_of_logged hc h
    exact ⟨e, [], [], hg, ho, by simp [he], by simp, fun _ => rfl⟩
  · next hpo =>
    rw [perform_bind] at h
    rcases hfi : Change.perform (performAt ⟨n, true⟩ 15 (flipCall positions)) r with ⟨f | _, s⟩ <;> rw [hfi] at h
    · cases h
    obtain ⟨u, hca, hl⟩ := exists_of_andFinally_ok h
    obtain ⟨x, hx, hs⟩ := exists_push_of_flipped hfi
    obtain ⟨e, hg, ho, hu⟩ := exists_push_of_logged hc hca
    obtain ⟨y, hy, ht⟩ := exists_push_of_flipped hl
    refine ⟨e, [x], [y], hg, ho, by simp [ht, hu, hs], by simp [hx, hy], fun hn => ?_⟩
    cases hn
    exact absurd rfl hpo

end Recording

lemma Gate.gate_of_bind [Scalar α]
    (h : g.bind args = .ok call) : call.gate = g := by
  rw [Gate.bind] at h
  split at h
  · cases h
  · obtain ⟨operands, -, h⟩ := exists_of_bind_ok h; cases h; rfl

lemma Circuit.exists_recording_after [Scalar α] {c c' : Circuit α} (hbi : g.bind args = .ok call)
    (hv : c.validating = true) (h : c.after (apply g args) = .ok c') :
    ∃ t, Change.perform (Recording.perform ⟨c.numQubits, true⟩ call) ⟨c.sink, #[]⟩ = (.ok (), t) ∧
      c'.log = if c.detached then c.log else c.log ++ t.entries := by
  have hs : c.setting = ⟨c.numQubits, true⟩ := by rw [setting, hv]
  rw [after, perform_apply_ok hbi, perform_perform, perform_recording, hs] at h
  generalize Change.perform (Recording.perform ⟨c.numQubits, true⟩ call) ⟨c.sink, #[]⟩ = done at h
  obtain ⟨f | _, t⟩ := done <;> cases h
  exact ⟨t, rfl, rfl⟩

/-! ### Runs -/

/-- Every cut is followed by a change that restores the link. -/
def LinkChange.Mended : List LinkChange → Prop
  | [] => True
  | l :: ls => (l = .cuts → .restores ∈ ls) ∧ Mended ls

lemma LinkChange.foldl_detached (ls : List LinkChange) (b : Bool) :
    ls.foldl (fun b l => l.detached b) b = false ↔ (b = false ∨ .restores ∈ ls) ∧ Mended ls := by
  induction ls generalizing b with
  | nil => simp [Mended]
  | cons l ls ih =>
    rw [List.foldl_cons, ih]
    cases l <;> simp [Mended, LinkChange.detached]
    tauto

namespace Dialogue

variable [Scalar α]

/-- What is left after calls that go through or end in faults. -/
def runAll (qs : List (Command α)) (d : Dialogue α) : Dialogue α := qs.foldl (fun d q => (perform q.run d).2) d

def linkChanges : List (Command α) → Dialogue α → List LinkChange
  | [], _ => []
  | q :: qs, d => q.linkChange d :: linkChanges qs (perform q.run d).2

lemma link_runAll (qs : List (Command α)) (d : Dialogue α) :
    (runAll qs d).circuit.detached = (linkChanges qs d).foldl (fun b l => l.detached b) d.circuit.detached ∧
    (d.circuit.validating = true → (runAll qs d).circuit.validating = true) := by
  induction qs generalizing d with
  | nil => exact ⟨rfl, id⟩
  | cons q qs ih =>
    obtain ⟨hd, hva⟩ := q.link_run d
    obtain ⟨hr, hv⟩ := ih (perform q.run d).2
    rw [linkChanges, List.foldl_cons, ← hd]
    exact ⟨hr, hv ∘ hva⟩

/-- **Calls are added at the end of the log as long as every cut is mended.**  After any calls on a new
circuit, faults included, the circuit is attached if and only if every call that cut the link was followed
by one that restored it.  A gate call that goes through leaves what was logged in its place.  Where the
circuit is attached, the call adds its entry at the end, with its operands as they are validated, between
the flips of the controls that have to be off if there are any; where it is detached, it adds nothing. -/
theorem attached_iff {f : Framework} {size : Operand α} {c₀ : Circuit α}
    (hnew : Circuit.new f size = .ok c₀) (x : Exchange α) (qs : List (Command α)) :
    ((runAll qs ⟨x, c₀⟩).circuit.detached = false ↔ LinkChange.Mended (linkChanges qs ⟨x, c₀⟩)) ∧
    ∀ (g : Gate) (args : Operands α) (call : Call α) (c c' : Circuit α),
      c = (runAll qs ⟨x, c₀⟩).circuit → g.bind args = .ok call →
      call.IsLogged c.numQubits → c.after (Circuit.apply g args) = .ok c' →
      ∃ (e : Entry α) (before after : List (Entry α)), e.gate = some (.known g) ∧
        validate c.numQubits call.operands = .ok (some e.operands) ∧
        c'.log.toList = c.log.toList ++ (if c.detached then [] else before ++ e :: after) ∧
        (∀ x ∈ before ++ after, x.gate = some (.known (.of .x .plain))) ∧
        (call.offPositions = .ok [] → before ++ after = []) := by
  obtain ⟨ha, hva⟩ := link_new hnew
  obtain ⟨hd, hv⟩ := link_runAll qs ⟨x, c₀⟩
  constructor
  · rw [hd, LinkChange.foldl_detached]; exact and_iff_right (.inl ha)
  · rintro g args call c c' rfl hbi hl haf
    obtain ⟨t, ht, hlog⟩ := exists_recording_after hbi (hv hva) haf
    obtain ⟨e, before, after, hg, ho, he, hfl, hp⟩ := exists_entries hl ht
    refine ⟨e, before, after, by rw [hg, Gate.gate_of_bind hbi], ho, ?_, hfl, hp⟩
    rw [hlog]
    split <;> simp_all

end Dialogue

/-! ### A circuit that is optimized -/

/-- A controlled negation of the second of two qubits. -/
def negation : Call ℝ := ⟨.of .x .controlled, [(.controlIndex, .int 0), (.targetIndex, .int 1)], .none⟩

lemma isLogged_negation : negation.IsLogged 2 := ⟨rfl, by rintro ⟨⟩⟩

/-- On a new circuit the negation is logged. -/
theorem Dialogue.attached_iff_negation :
    ∃ c' : Circuit ℝ, (Circuit.empty .qiskit 2).after (Circuit.apply negation.gate negation.operands) = .ok c' ∧
      ∃ e : Entry ℝ, e.gate = some (.known negation.gate) ∧ c'.log.toList = [e] := by
  refine ⟨_, rfl, ?_⟩
  have hn : new .qiskit (.int 2) = .ok (empty .qiskit 2 : Circuit ℝ) := rfl
  obtain ⟨-, hca⟩ := attached_iff hn ⟨[], #[], ""⟩ []
  obtain ⟨e, before, after, hg, -, hl, -, hfl⟩ :=
    hca negation.gate negation.operands negation _ _ rfl rfl isLogged_negation rfl
  obtain ⟨rfl, rfl⟩ := List.append_eq_nil_iff.1 (hfl rfl)
  exact ⟨e, hg, hl⟩

/-- The replies of a framework that finds nothing to change. -/
def unchangedReplies : Exchange ℝ := ⟨[.record [("same", .null)], .record [("same", .null)]], #[], ""⟩

lemma validate_noPhase (n : ℕ) : validate n [(.angle, (.int 0 : Operand ℝ))] = .ok none := by
  have hfi : (Slot.angle 0).Fits .angle := ⟨rfl, rfl⟩
  have hm : (Slot.angle 0).Means n (.int 0) := by simp [Slot.Means, Operand.IsNumber]
  obtain ⟨w, ys, -, -, h⟩ := hm.validateFrom hfi [] [] []
  rw [validate, h]
  simp [Slot.vanishes, snap_zero]

lemma perform_phase_zero :
    perform (Sink.phase (.int 0)) (Sink.empty .qiskit 2 : Sink ℝ) = (.ok (), Sink.empty .qiskit 2) := by
  have hr : (Operand.int 0 : Operand ℝ).toReal = .ok ((0 : ℤ) : ℝ) :=
    Operand.IsNumber.toReal (by simp [Operand.IsNumber])
  rw [Sink.phase, perform_get_bind, hr]
  rfl

lemma perform_noPhase : perform (apply .globalPhase [(.angle, .int 0)])
    (empty .qiskit 2) = (.ok (), (empty .qiskit 2 : Circuit ℝ)) := by
  have hbi : Gate.globalPhase.bind [(.angle, .int 0)] =
    .ok (⟨.globalPhase, [(.angle, .int 0)], .none⟩ : Call ℝ) := rfl
  have hr : perform ⟨2, true⟩ ⟨.globalPhase, [(.angle, .int 0)], .none⟩ =
      emit (Sink.phase (.int 0 : Operand ℝ)) := by
    change logged ⟨2, true⟩ ⟨.globalPhase, [(.angle, .int 0)], .none⟩ _ = _
    simp only [logged, validate_noPhase]
    rfl
  have he : ∀ r : Recording ℝ, perform (emit (Sink.phase (.int 0))) r = ((perform (Sink.phase (.int 0)) r.sink).1,
        { r with sink := (perform (Sink.phase (.int 0)) r.sink).2 }) := fun _ => rfl
  have hs : (empty .qiskit 2 : Circuit ℝ).setting = ⟨2, true⟩ := rfl
  rw [perform_apply_ok hbi, perform_perform, perform_recording, hs, hr]
  simp only [empty, he, perform_phase_zero]
  rfl

lemma build_unchanged : Import.build .qiskit (empty .qiskit 2 : Circuit ℝ)
    (Foreign.empty .qiskit 2) = .ok (empty .qiskit 2) := by
  change after _ (apply .globalPhase [(.angle, .int 0)]) = _
  rw [after, perform_noPhase]

lemma perform_fromForeign_unchanged {x x' : Exchange ℝ}
    (h : perform (Import.reduce .qiskit (Foreign.empty .qiskit 2)) x = (.ok (Foreign.empty .qiskit 2), x')) :
    perform (Import.fromForeign .qiskit .qiskit (Foreign.empty .qiskit 2)) x = (.ok (empty .qiskit 2), x') := by
  have hn : (new .qiskit (.int 2) : Outcome (Circuit ℝ)) = .ok (empty .qiskit 2) := rfl
  have hr : perform (Import.fromReduced .qiskit .qiskit (Foreign.empty .qiskit 2)) x =
      (.ok (Foreign.empty .qiskit 2, .ok (empty .qiskit 2)), x') := by
    change perform (ofOutcome (new .qiskit (.int 2)) >>= _) x = _
    rw [hn, perform_ofOutcome_bind, perform_bind_ok h, build_unchanged]
    rfl
  rw [Import.fromForeign, perform_bind_ok hr]
  rfl

lemma perform_optimizeBlocks_unchanged : ∃ x, perform Dialogue.optimizeBlocks ⟨unchangedReplies, empty .qiskit 2⟩ =
      (.ok (empty .qiskit 2), ⟨x, empty .qiskit 2⟩) := by
  have has : ∀ details, ∃ asked, perform (Dialogue.ask "pass_manager_run" details)
      ⟨unchangedReplies, empty .qiskit 2⟩ = (.ok (.record [("same", .null)]),
        ⟨⟨[.record [("same", .null)]], asked, ""⟩, empty .qiskit 2⟩) := fun _ => ⟨_, rfl⟩
  obtain ⟨asked, ha⟩ := has [("passes", Dialogue.blockPasses), ("circuit", (Foreign.empty .qiskit 2).toDatum)]
  obtain ⟨x, hx⟩ : ∃ x, perform (Import.reduce .qiskit (Foreign.empty .qiskit 2))
      (⟨[.record [("same", .null)]], asked, ""⟩ : Exchange ℝ) = (.ok (Foreign.empty .qiskit 2), x) :=
    ⟨_, rfl⟩
  have hfr := perform_fromForeign_unchanged hx
  refine ⟨x, ?_⟩
  rw [Dialogue.optimizeBlocks, perform_get_bind, perform_bind_ok (by rfl),
    perform_bind_ok (by rfl), perform_bind_ok ha,
    perform_bind_ok (by rfl)]
  exact congrArg (fun p => (p.1, (⟨p.2, empty .qiskit 2⟩ : Dialogue ℝ))) hfr

lemma perform_transpile_unchanged : ∃ x, perform Dialogue.transpile ⟨unchangedReplies, empty .qiskit 2⟩ =
      (.ok (), ⟨x, (empty .qiskit 2).exchanged (empty .qiskit 2)⟩) := by
  obtain ⟨x, hx⟩ := perform_optimizeBlocks_unchanged
  refine ⟨x, ?_⟩
  rw [Dialogue.transpile, perform_bind_ok hx]
  rfl

/-- **After an optimization nothing is logged.**  The circuit is rebuilt from outside, which cuts the link,
and a call that goes through afterwards has no entry. -/
theorem Dialogue.not_attached_transpile : ∃ c' : Circuit ℝ,
      (runAll [.transpile] ⟨unchangedReplies, Circuit.empty .qiskit 2⟩).circuit.after
        (Circuit.apply negation.gate negation.operands) = .ok c' ∧
      negation.IsLogged 2 ∧ c'.log = #[] ∧
      linkChanges [.transpile] ⟨unchangedReplies, Circuit.empty .qiskit 2⟩ = [.cuts] := by
  obtain ⟨x, hx⟩ := perform_transpile_unchanged
  have hr : perform (Command.run .transpile) ⟨unchangedReplies, Circuit.empty .qiskit 2⟩ = _ := hx
  have ha : (runAll [.transpile] ⟨unchangedReplies, empty .qiskit 2⟩).circuit =
      (empty .qiskit 2).exchanged (Circuit.empty .qiskit 2) := congrArg (·.2.circuit) hr
  refine ⟨_, by rw [ha]; rfl, isLogged_negation, rfl, ?_⟩
  simp only [linkChanges, Command.linkChange, hr]
  rfl

end QuantumCircuits
