import QuantumCircuits.Proofs.ControlState

/-!
# Log — Built

Circuits that are built by calls.  A call asks for operations, for measurements or for resets: these
are `Item`s.  `Circuit.Asks` lists the calls with the items that they ask for.  Every such call goes through
(`carries_of_asks`), and so does every entry of a log that stands for an item (`carries_applyNamed`).
-/

noncomputable section

namespace QuantumCircuits

open List

open Operation (angleSum around of qubits ucr)
open Recording (within perform_push)

variable {n : ℕ}

/-! ### Items -/

/-- What a call asks for. -/
inductive Item where
  | gate (o : Operation)
  | measure (qs : List ℕ)
  | reset (qs : List ℕ)
deriving Inhabited

namespace Item

/-- The primitives that an item comes down to. -/
def prims : Item → List (Primitive ℝ)
  | .gate o => o.prims
  | .measure qs => qs.map .measure
  | .reset qs => qs.map .reset

/-- The items that have entries of their own when an item is logged. -/
def kept : Item → List Item
  | .gate o => o.kept.map .gate
  | .measure qs => [.measure qs]
  | .reset qs => [.reset qs]

def snapped : Item → Item
  | .gate o => .gate o.snapped
  | i => i

def Stands (n : ℕ) (e : Entry ℝ) : Item → Prop
  | .gate o => e.Unfolds n o
  | .measure qs => ∃ x k, e = ⟨some (.known .measure), [(.qubitIndices, x)], k, .entries []⟩ ∧
    x.IsChecked n qs ∧ qs.Nodup
  | .reset qs => ∃ x k, e = ⟨some (.known .reset), [(.qubitIndices, x)], k, .entries []⟩ ∧ x.IsChecked n qs ∧ qs.Nodup

lemma flatMap_prims_gates (os : List Operation) :
    (os.map gate).flatMap prims = os.flatMap Operation.prims := flatMap_map ..

lemma flatMap_kept_gates (os : List Operation) : (os.map gate).flatMap kept = (os.flatMap Operation.kept).map gate := by
  rw [flatMap_map, map_flatMap]; rfl

end Item

namespace Circuit

open Item (Stands)

variable {is js : List Item} {x : Change (Circuit ℝ) Unit} {qs : List ℕ} {g : ℝ} {c : Circuit ℝ} {call : Call ℝ}
  {o : Operation} {s : Sink ℝ} {ps : List (Primitive ℝ)} {es : List (Entry ℝ)}

/-- The change goes through on any circuit, adds what items come down to and logs what they keep. -/
def Carries (n : ℕ) (x : Change (Circuit ℝ) Unit) (is : List Item) : Prop :=
  ∀ (c : Circuit ℝ) (g : ℝ), c.Open n g → ∃ c' es, Change.perform x c = (.ok (), c') ∧
    c'.Open n (g + angleSum (is.flatMap Item.prims)) ∧ c'.steps = c.steps ++ is.flatMap Item.prims ∧
    c'.log = c.log ++ es.toArray ∧ Forall₂ (Stands n) es (is.flatMap Item.kept)

lemma carries_pure : Carries n (pure ()) [] := fun c g hc =>
  ⟨c, [], rfl, by simpa using hc, by simp, by simp, .nil⟩

lemma Carries.bind {f : Unit → Change (Circuit ℝ) Unit} (hx : Carries n x is) (hf : Carries n (f ()) js) :
    Carries n (x >>= f) (is ++ js) := by
  intro c g hc
  obtain ⟨c₁, es₁, hr₁, ho₁, hs₁, hl₁, he₁⟩ := hx c g hc
  obtain ⟨c₂, es₂, hr₂, ho₂, hs₂, hl₂, he₂⟩ := hf c₁ _ ho₁
  refine ⟨c₂, es₁ ++ es₂, (Change.perform_bind_ok hr₁).trans hr₂, ?_, ?_, ?_, ?_⟩
  · simpa [add_assoc] using ho₂
  · simp [hs₂, hs₁]
  · simp [hl₂, hl₁]
  · rw [flatMap_append]; exact rel_append he₁ he₂

lemma carries_forM {f : Entry ℝ → Change (Circuit ℝ) Unit}
    (h : Forall₂ (fun e i => Carries n (f e) [i]) es is) : Carries n (es.forM f) is := by
  induction h with
  | nil => exact carries_pure
  | cons hx _ ih => exact hx.bind ih

lemma Does.carries {os : List Operation}
    (hx : Does n x (os.flatMap Operation.prims) (os.flatMap Operation.kept)) : Carries n x (os.map .gate) := by
  intro c g hc
  obtain ⟨y, es, hr, hy, he⟩ := hx c g hc
  refine ⟨_, es, hr, ?_, ?_, rfl, ?_⟩
  · rw [Item.flatMap_prims_gates]; exact hc.extended hy es
  · rw [Item.flatMap_prims_gates, steps_extended]
  · rw [Item.flatMap_kept_gates, forall₂_map_right_iff]; exact he

lemma Does.carries_one (hx : Does n x o.prims o.kept) : Carries n x [.gate o] := by
  have ho : Does n x ([o].flatMap Operation.prims) ([o].flatMap Operation.kept) := by simpa using hx
  exact ho.carries

/-! ### Measurements and resets -/

/-- The sink takes primitives, and may remember more. -/
def Pushes (n : ℕ) (x : Change (Sink ℝ) Unit) (qs : List (Primitive ℝ)) : Prop :=
  ∀ {s : Sink ℝ} {ps : List (Primitive ℝ)} {g : ℝ}, s.Holds n ps g → s.framework.isReference = true →
    ∃ s', Change.perform x s = (.ok (), s') ∧ s'.Holds n (ps ++ qs) g ∧ s'.framework = s.framework

lemma pushes_forM {xs : List (Operand ℝ)} {p : ℕ → Primitive ℝ} {f : Operand ℝ → Change (Sink ℝ) Unit}
    (hxs : Forall₂ (Operand.IsQubit n) xs qs) (hf : ∀ x q, x.IsQubit n q → Pushes n (f x) [p q]) :
    Pushes n (xs.forM f) (qs.map p) := by
  intro s ps g hs hre
  induction hxs generalizing s ps with
  | nil => exact ⟨s, rfl, by simpa using hs, rfl⟩
  | @cons x q xs qs hx _ ih =>
    obtain ⟨s₁, hr₁, hs₁, hfw₁⟩ := hf x q hx hs hre
    obtain ⟨s₂, hr₂, hs₂, hfw₂⟩ := ih hs₁ (hfw₁ ▸ hre)
    exact ⟨s₂, (Change.perform_bind_ok hr₁).trans hr₂, by simpa using hs₂, hfw₂.trans hfw₁⟩

lemma pushes_measure {x : Operand ℝ} (hx : x.IsQubits n qs) : Pushes n (Sink.measure x) (qs.map .measure) := by
  obtain ⟨xs, hi, hxs⟩ := Operand.IsSequence.items hx
  have hp : Pushes n (xs.forM fun q => do
      Sink.push (.measure (← Change.ofOutcome (Sink.wrap n q)))
      Sink.remember q) (qs.map .measure) := pushes_forM hxs fun x q hx s ps g hs _ => by
    rw [hx.wrap, Change.perform_ofOutcome_bind,
      Change.perform_bind_ok (perform_push hs.content _), Sink.remember, Change.perform_modify]
    refine ⟨_, rfl, ?_, ?_⟩
    · split <;> exact ⟨hs.numQubits, rfl, hs.globalPhase⟩
    · split <;> rfl
  intro s ps g hs hr
  have hpu := hp hs hr
  rw [Sink.measure, Change.perform_get_bind, hi, Change.perform_ofOutcome_bind, hs.numQubits]
  cases hf : s.framework with
  | reference | alternate => rwa [hf] at hpu
  | _ => rw [hf] at hr; cases hr

lemma pushes_reset {x : Operand ℝ} (hx : x.IsQubits n qs) : Pushes n (Sink.reset x) (qs.map .reset) := by
  obtain ⟨xs, hi, hxs⟩ := Operand.IsSequence.items hx
  intro s ps g hs hr
  rw [Sink.reset, Change.perform_get_bind, hi, Change.perform_ofOutcome_bind, hs.numQubits, hs.content]
  refine pushes_forM hxs (fun x q hx s ps g hs _ => ?_) hs hr
  rw [hx.wrap, Change.perform_ofOutcome_bind, perform_push hs.content]
  exact ⟨_, rfl, hs.holding hs.globalPhase, rfl⟩

lemma carries_qubits {g : Gate} {x : Operand ℝ} {qs : List ℕ} {out : Change (Sink ℝ) Unit} {i : Item}
    (hbi : g.bind [(.qubitIndices, x)] = .ok ⟨g, [(.qubitIndices, x)], .none⟩)
    (hct : Gate.controls ⟨g, [(.qubitIndices, x)], .none⟩ = none)
    (hp : Gate.precondition (α := ℝ) ⟨g, [(.qubitIndices, x)], .none⟩ = .ok ())
    (hg : g.isTransparent = false)
    (he : Recording.elementary? (α := ℝ) ⟨g, [(.qubitIndices, x)], .none⟩ = some out)
    (hx : x.IsQubits n qs) (hq : qs.Nodup)
    (ho : Pushes n out i.prims)
    (ha : angleSum i.prims = 0) (hke : i.kept = [i])
    (hst : ∀ y, y.IsChecked n qs → Stands n (Entry.new g [(.qubitIndices, y)] []) i) :
    Carries n (apply g [(.qubitIndices, x)]) [i] := by
  intro c a hc
  have hsl : Forall₂ (fun (s : Slot) p => s.Fits p.1 ∧ s.Means n p.2) [.qubits qs]
      [((.qubitIndices, x) : Key × Operand ℝ)] := .cons ⟨rfl, hx⟩ .nil
  obtain ⟨operands, hk, hch, hv⟩ := validateFrom_slots hsl .nil (by simpa [Slot.qubitList] using hq) []
  obtain ⟨⟨k, y⟩, rfl⟩ : ∃ p, operands = [p] := length_eq_one_iff.mp (by simpa using congrArg length hk)
  obtain rfl : k = .qubitIndices := by simpa using hk
  have hy : y.IsChecked n qs := by
    cases hch with
    | cons h _ => exact h
  obtain ⟨s', hru, hs', hfw⟩ := ho hc.sink hc.reference
  let e := Entry.new g [(.qubitIndices, y)] []
  have hs1 : c.setting = ⟨n, true⟩ := by rw [setting, hc.validating, hc.numQubits]
  have hr : Change.perform (Recording.perform ⟨n, true⟩ ⟨g, [(.qubitIndices, x)], .none⟩)
      ⟨c.sink, #[]⟩ = (.ok (), ⟨s', #[e]⟩) := by
    have hl : Recording.logged ⟨n, true⟩ ⟨g, [(.qubitIndices, x)], .none⟩ (Recording.emit out) =
        within g [(.qubitIndices, y)] (Recording.emit out) := by
      simp only [Recording.logged, hg, Bool.not_true, Bool.or_false, Bool.false_eq_true, if_false]
      rw [validate, hv]
      rfl
    rw [Recording.perform, Recording.maxDepth, Recording.performAt, hp, Change.perform_ofOutcome_bind, hct, he]
    rw [Change.perform_ofOutcome_bind]
    simp only [Recording.flipping, isEmpty_nil, if_true, hl]
    have hw : Change.perform (within g [(.qubitIndices, y)] (Recording.emit out))
        ⟨c.sink, #[]⟩ = ((Change.perform out c.sink).1, ⟨(Change.perform out c.sink).2, #[e]⟩) := rfl
    rw [hw, hru]
  let c' : Circuit ℝ := { c with sink := s', log := c.log ++ #[e] }
  have hse : c'.steps = c.steps ++ i.prims := by rw [steps, primitives, hs'.content]
  refine ⟨c', [e], ?_, ?_, ?_, rfl, ?_⟩
  · rw [apply, hbi, Change.perform_ofOutcome_bind, perform, Change.perform_get_bind, hs1]
    rw [perform_recording, hr]
    simp [hc.detached, c']
  · refine ⟨?_, ?_, hc.validating, hc.detached⟩
    · simpa [ha, hse] using hs'
    · change s'.framework.isReference = true; rw [hfw]; exact hc.reference
  · simpa using hse
  · simpa [hke] using hst y hy

lemma carries_measure {x : Operand ℝ} (hx : x.IsQubits n qs) (hq : qs.Nodup) :
    Carries n (apply .measure [(.qubitIndices, x)]) [.measure qs] :=
  carries_qubits rfl rfl rfl rfl rfl hx hq (pushes_measure hx)
    (by simp [Item.prims, angleSum, Primitive.angle, Function.comp_def]) rfl
    fun y hy => ⟨y, 0, rfl, hy, hq⟩

lemma carries_reset {x : Operand ℝ} (hx : x.IsQubits n qs) (hq : qs.Nodup) :
    Carries n (apply .reset [(.qubitIndices, x)]) [.reset qs] :=
  carries_qubits rfl rfl rfl rfl rfl hx hq (pushes_reset hx)
    (by simp [Item.prims, angleSum, Primitive.angle, Function.comp_def]) rfl
    fun y hy => ⟨y, 0, rfl, hy, hq⟩

/-! ### Calls -/

/-- The call asks for items. -/
inductive Asks (n : ℕ) : Call ℝ → List Item → Prop where
  | gate {g : Gate} {operands : Operands ℝ} {o : Operation} :
    Denotes n g operands o → o.Valid n → Asks n ⟨g, operands, .none⟩ [.gate o]
  /-- A gate under controls, with a control state. -/
  | state {b : Base} {r : Reach} {operands : Operands ℝ} {ps : List ℝ} {cs ts : List ℕ} {values : List Bool} :
    Denotes n (.of b r) operands (.of b r ps cs ts) → (of b r ps cs ts).Valid n →
      r ≠ .plain → values.length = cs.length →
      Asks n ⟨.of b r, operands, stateText values⟩ ((around (zerosOf values) (.of b r ps cs ts)).map .gate)
  /-- Rotations by selected angles, with a control state. -/
  | selected {axis : Axis} {operands : Operands ℝ} {angles : List ℝ} {cs : List ℕ} {t : ℕ} {values : List Bool} :
    Denotes n (.ucr axis) operands (.ucr axis angles cs t) → (ucr axis angles cs t).Valid n →
      values.length = cs.length →
      Asks n ⟨.ucr axis, operands, stateText values⟩ ((around (zerosOf values) (.ucr axis angles cs t)).map .gate)
  | measure {x : Operand ℝ} {qs : List ℕ} :
    x.IsQubits n qs → qs.Nodup → Asks n ⟨.measure, [(.qubitIndices, x)], .none⟩ [.measure qs]
  | reset {x : Operand ℝ} {qs : List ℕ} :
    x.IsQubits n qs → qs.Nodup → Asks n ⟨.reset, [(.qubitIndices, x)], .none⟩ [.reset qs]

lemma apply_of_bind {g : Gate} {args : Operands ℝ} (h : g.bind args = .ok call) : apply g args = perform call := by
  rw [apply, h]; rfl

/-- **Every call goes through.** -/
theorem carries_of_asks (h : Asks n call is) : Carries n (perform call) is := by
  cases h with
  | gate hd ho =>
    exact (does_perform (Recording.does_perform hd rfl ho)).carries_one
  | state hd ho hr hlen =>
    exact (does_perform (Recording.does_perform_state hd ho hr rfl hlen)).carries
  | selected hd ho hlen =>
    exact (does_perform (Recording.does_perform_selected hd ho rfl hlen)).carries
  | measure hx hq => exact carries_measure hx hq
  | reset hx hq => exact carries_reset hx hq

lemma valid_of_asks (h : Asks n call is) (ho : Item.gate o ∈ is) : o.Valid n := by
  have ha : ∀ {p : Operation} {values : List Bool}, p.Valid n → values.length ≤ p.qubits.length →
      Item.gate o ∈ (around (zerosOf values) p).map Item.gate → o.Valid n := by
    intro p values hv hlen hm
    obtain ⟨q, hq, hqo⟩ := mem_map.mp hm
    cases hqo
    exact Operation.forall_mem_around hv (Operation.valid_flips (nodup_zerosOf values)
      (Recording.lt_of_mem_zerosOf_qubits hv hlen)) o hq
  cases h with
  | gate _ hv =>
    cases mem_singleton.mp ho
    exact hv
  | state _ hv _ hlen => exact ha hv (by simp [qubits, hlen]) ho
  | selected _ hv hlen => exact ha hv (by simp [qubits, hlen]) ho
  | measure | reset => cases mem_singleton.mp ho

lemma carries_gate {g : Gate} {operands : Operands ℝ} (hd : Denotes n g operands o) (ho : o.Valid n) :
    Carries n (apply g operands) [.gate o] :=
  apply_of_bind (bind_of_denotes hd) ▸ carries_of_asks (.gate hd ho)

/-- **An entry of the log goes through again.** -/
theorem carries_applyNamed {e : Entry ℝ} {i : Item} (h : Stands n e i) :
    Carries n (applyNamed e.gate e.operands) [i.snapped] := by
  cases i with
  | gate o => exact (does_applyNamed h).carries_one
  | measure qs =>
    obtain ⟨x, k, rfl, hx, hq⟩ := h
    exact carries_measure hx.isQubits hq
  | reset qs =>
    obtain ⟨x, k, rfl, hx, hq⟩ := h
    exact carries_reset hx.isQubits hq

lemma replay_carries (h : Forall₂ (fun e i => Carries n (applyNamed e.gate e.operands) [i]) es is) (hc : c.Open n g) :
    ∃ c' new, replay es c = (es.map Entry.replayed, c', .ok ()) ∧
      c'.Open n (g + angleSum (is.flatMap Item.prims)) ∧ c'.steps = c.steps ++ is.flatMap Item.prims ∧
      c'.log = c.log ++ new.toArray ∧ Forall₂ (Stands n) new (is.flatMap Item.kept) := by
  induction h generalizing c g with
  | nil => exact ⟨c, [], rfl, by simpa using hc, by simp, by simp, .nil⟩
  | @cons e i es is he _ ih =>
    obtain ⟨c₁, new₁, hr, ho₁, hs₁, hl₁, hn₁⟩ := he c g hc
    obtain ⟨c₂, new₂, hre, ho₂, hs₂, hl₂, hn₂⟩ := ih ho₁
    refine ⟨c₂, new₁ ++ new₂, ?_, ?_, ?_, ?_, ?_⟩
    · rw [replay, hr]; simp [hre, map_cons]
    · simpa [add_assoc] using ho₂
    · simp [hs₂, hs₁]
    · simp [hl₂, hl₁]
    · rw [flatMap_cons]; exact rel_append (by simpa using hn₁) hn₂

/-- **A replay carries out what its entries ask for.** -/
theorem Open.replay_carries (hc : c.Open n g)
    (h : Forall₂ (fun e i => Carries n (applyNamed e.gate e.operands) [i]) es is) :
    ∃ c', replay es c.fresh = (es.map Entry.replayed, c', .ok ()) ∧
      c'.Open n (angleSum (is.flatMap Item.prims)) ∧ c'.steps = is.flatMap Item.prims ∧
      Forall₂ (Stands n) c'.log.toList (is.flatMap Item.kept) := by
  obtain ⟨hfr, he⟩ := hc.fresh
  obtain ⟨c', new, hr, ho, hs, hl, hne⟩ := Circuit.replay_carries h hfr
  have hn : c.fresh.log = #[] := rfl
  rw [zero_add] at ho
  rw [he, nil_append] at hs
  rw [hn, Array.empty_append] at hl
  exact ⟨c', hr, ho, hs, hl ▸ hne⟩

end Circuit

end QuantumCircuits

end

/-! ### Made

Circuits that are made by calls of gates.  A gate is called with named operands in any order; once they
are matched with its signature, `Circuit.Asks` tells what the call asks for.  `Circuit.Made` follows such calls
from a new circuit on, and `Made.holds` says what is in the circuit and its log then.
-/

namespace QuantumCircuits.Circuit

open Item (Stands)

variable {n : ℕ}
variable {is js : List Item} {c : Circuit ℝ} {g : Gate} {args : Operands ℝ} {o : Operation}

/-- The circuit is a new one of the library's own, or comes from one by calls of gates. -/
inductive Made (n : ℕ) : Circuit ℝ → List Item → Prop where
  | new {f : Framework} {size : Operand ℝ} {c : Circuit ℝ} :
    f.isReference = true → Circuit.new f size = .ok c → c.numQubits = n → Made n c []
  | call {c c' : Circuit ℝ} {is js : List Item} {g : Gate} {args : Operands ℝ} {call : Call ℝ} :
    Made n c is → g.bind args = .ok call → Asks n call js → c.after (apply g args) = .ok c' → Made n c' (is ++ js)

/-- The circuit is one of the library's own on `n` qubits, and its log stands for items. -/
structure Lists (n : ℕ) (c : Circuit ℝ) (is : List Item) : Prop where
  isOpen : ∃ g, c.Open n g
  log : List.Forall₂ (Stands n) c.log.toList is

lemma Lists.numQubits (h : c.Lists n is) : c.numQubits = n := h.isOpen.elim fun _ ho => ho.numQubits

lemma lists_new {f : Framework} {size : Operand ℝ} (hf : f.isReference = true)
    (h : Circuit.new f size = .ok c) : c.Lists c.numQubits [] ∧ c.steps = [] := by
  rw [eq_sized_of_new h]
  obtain ⟨ho, hs⟩ := open_sized hf c.numQubits size
  exact ⟨⟨⟨0, ho⟩, .nil⟩, hs⟩

lemma Lists.exists_perform {x : Change (Circuit ℝ) Unit} (hc : c.Lists n is) (hx : Carries n x js) :
    ∃ c', Change.perform x c = (.ok (), c') ∧ c'.Lists n (is ++ js.flatMap Item.kept) ∧
      c'.steps = c.steps ++ js.flatMap Item.prims := by
  obtain ⟨g, ho⟩ := hc.isOpen
  obtain ⟨c', es, hr, ho', hs, hl, he⟩ := hx c g ho
  refine ⟨c', hr, ⟨⟨_, ho'⟩, ?_⟩, hs⟩
  rw [hl, Array.toList_append]
  exact List.rel_append hc.log he

/-- **What a circuit holds that was made by calls**: the primitives of its items, their phases and entries
for what they keep. -/
theorem Made.holds (h : Made n c is) : c.Open n (Operation.angleSum (is.flatMap Item.prims)) ∧
    c.steps = is.flatMap Item.prims ∧ List.Forall₂ (Stands n) c.log.toList (is.flatMap Item.kept) := by
  induction h with
  | @new f size c hf hn hsi =>
    have hc := eq_sized_of_new hn
    rw [hsi] at hc
    obtain ⟨ho, hs⟩ := open_sized hf n size
    rw [hc]
    exact ⟨by simpa using ho, hs, .nil⟩
  | @call c c' is js g args call _ hbi has ha ih =>
    obtain ⟨ho, hs, hl⟩ := ih
    obtain ⟨c₁, es, hr, ho₁, hs₁, hl₁, he⟩ := carries_of_asks has c _ ho
    rw [after, apply_of_bind hbi, hr] at ha
    cases ha
    refine ⟨by simpa using ho₁, by simp [hs₁, hs], ?_⟩
    rw [hl₁, Array.toList_append, List.flatMap_append]
    exact List.rel_append hl he

theorem Made.spec (h : Made n c is) : c.Lists n (is.flatMap Item.kept) ∧ c.steps = is.flatMap Item.prims :=
  ⟨⟨⟨_, h.holds.1⟩, h.holds.2.2⟩, h.holds.2.1⟩

lemma Made.exists_call {call : Call ℝ} (h : Made n c is) (hbi : g.bind args = .ok call) (has : Asks n call js) :
    ∃ c', c.after (apply g args) = .ok c' ∧ Made n c' (is ++ js) := by
  obtain ⟨c', hr, -⟩ := h.spec.1.exists_perform (carries_of_asks has)
  have ha : c.after (apply g args) = .ok c' := by rw [after, apply_of_bind hbi, hr]
  exact ⟨c', ha, .call h hbi has ha⟩

lemma made_sized (hn : 0 < n) : Made n (sized .reference n (.int n)) [] := .new rfl (new_int .reference hn) rfl

lemma exists_made (hn : 0 < n) {os : List Operation} (h : ∀ o ∈ os, o.Valid n) : ∃ c, Made n c (os.map .gate) := by
  induction os using List.reverseRecOn with
  | nil => exact ⟨_, made_sized hn⟩
  | append_singleton os o ih =>
    have hv := h o (by simp)
    obtain ⟨operands, hd⟩ := hv.exists_denotes
    obtain ⟨c, hc⟩ := ih fun o ho => h o (by simp [ho])
    obtain ⟨c', -, hc'⟩ := hc.exists_call (bind_of_denotes hd) (.gate hd hv)
    exact ⟨c', by rwa [List.map_append]⟩

lemma Made.valid (h : Made n c is) (ho : Item.gate o ∈ is) : o.Valid n := by
  induction h with
  | new => cases ho
  | call _ _ ha _ ih =>
    rcases List.mem_append.mp ho with ho | ho
    · exact ih ho
    · exact valid_of_asks ha ho

lemma Made.unfolds {os : List Operation} (h : Made n c (os.map .gate)) :
    List.Forall₂ (Entry.Unfolds n) c.log.toList (os.flatMap Operation.kept) := by
  obtain ⟨-, -, hl⟩ := h.holds
  rwa [Item.flatMap_kept_gates, List.forall₂_map_right_iff] at hl

end QuantumCircuits.Circuit
