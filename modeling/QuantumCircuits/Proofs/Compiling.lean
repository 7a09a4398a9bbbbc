import QuantumCircuits.Compiler
import QuantumCircuits.Proofs.Dag.Graph
import QuantumCircuits.Proofs.PreparedKets
import QuantumCircuits.Proofs.Splitting.Prepared

/-!
# Compiling

Lists of states and operators.  Each is compiled on its own, and its circuit is put on its qubits of one circuit
that is large enough for all of them, so the log is that of the parts, one behind the other, on these qubits
(`compile_concatenates`).  A state or operator that stands alone is compiled the same way, but not optimized, and
an array need not have as many entries as the qubits have states (`compile_forms_agree`).
-/

noncomputable section

namespace QuantumCircuits.Compiler

open List Circuit Change
open Item (Stands)
open StateVector (build cleared squareSum)

variable {R : Routines ℝ} {comp : Compiler} {n : ℕ} {v : StateVector ℝ} {d : Circuit ℝ} {p : Operand ℝ} {qs : List ℕ}

def wires (qs : List ℕ) : Operand ℝ := .list (qs.map fun (q : ℕ) => .int q)

/-- A state or operator and its circuit, the entries of which stand for items, with distinct qubits to put it on,
as many as it has. -/
structure Piece (R : Routines ℝ) (comp : Compiler) where
  primitive : Operand ℝ
  part : Circuit ℝ
  items : List Item
  qubits : List ℕ
  compiles : compileOne R comp primitive = .ok part
  fits : checkQubits primitive (wires qubits) = .ok ()
  numQubits : part.numQubits = qubits.length
  log : Forall₂ (Stands qubits.length) part.log.toList items
  nodup : qubits.Nodup

namespace Piece

def pair (w : Piece R comp) : Operand ℝ × Operand ℝ := (w.primitive, wires w.qubits)

def operand (w : Piece R comp) : Operand ℝ := .tuple [w.primitive, wires w.qubits]

/-- The qubit where a qubit of the circuit is put. -/
def place (w : Piece R comp) (q : ℕ) : ℕ := w.qubits.getD q 0

def moved (w : Piece R comp) : List Item := w.items.map fun i => i.snapped.onQubits w.place

/-- The entries of the circuit on their new qubits. -/
def entries (w : Piece R comp) : List (Entry ℝ) := w.part.log.toList.map (Entry.placed fun q => .int (w.place q))

lemma maps (w : Piece R comp) : (wires w.qubits).Maps w.qubits.length w.place := by
  have hqs : w.qubits = (range w.qubits.length).map w.place :=
    ext_getElem (by simp) fun q hq _ => by simp [place, hq]
  refine ⟨_, ⟨rfl, rfl⟩, ?_⟩
  conv_lhs => rw [hqs]
  rw [map_map]
  exact forall₂_map_map fun q _ => Operand.isWhole_int _

lemma embeds (w : Piece R comp) {p : ℕ} (hl : ∀ q ∈ w.qubits, q < p) : Embeds w.qubits.length p w.place where
  lt q hq := by rw [place, getD_eq_getElem _ _ hq]; exact hl _ (getElem_mem hq)
  injOn q hq r hr h := by
    rw [place, place, getD_eq_getElem _ _ hq, getD_eq_getElem _ _ hr] at h
    exact (w.nodup.getElem_inj_iff).mp h

end Piece

/-- **All pieces are put on their qubits**, one after the other. -/
theorem exists_addAll {p : ℕ} (ws : List (Piece R comp)) (hlt : ∀ w ∈ ws, ∀ q ∈ w.qubits, q < p)
    {a : ℝ} (hd : d.Open p a) : ∃ d' new a', (ws.map Piece.pair).foldlM (fun circuit p => do
        let part ← compileOne R comp p.1
        circuit.after (add part p.2)) d = .ok d' ∧
      d'.Open p a' ∧ d'.log = d.log ++ new.toArray ∧ Forall₂ (Stands p) new (ws.flatMap Piece.moved) := by
  induction ws generalizing d a with
  | nil => exact ⟨d, [], a, rfl, hd, by simp, .nil⟩
  | cons w ws ih =>
    obtain ⟨hw, hws⟩ := forall_mem_cons.mp hlt
    obtain ⟨d₁, new₁, a₁, ha, ho₁, hl₁, hn₁⟩ := exists_add_on w.numQubits w.log w.maps (w.embeds hw) hd
    obtain ⟨d', new, a', hal, ho, hl, hn⟩ := ih hws ho₁
    refine ⟨d', new₁ ++ new, a', ?_, ho, by rw [hl, hl₁]; simp, rel_append hn₁ hn⟩
    rw [map_cons, foldlM_cons, Piece.pair, w.compiles]
    change (d.after (add w.part (wires w.qubits)) >>= _) = _
    rw [Circuit.after, ha]
    exact hal

/-! ### The size -/

lemma largest_wires (m : ℕ) (qs : List ℕ) :
    largest (.int m : Operand ℝ) (qs.map fun (q : ℕ) => .int q) = .ok (.int (qs.foldl max m : ℕ)) := by
  induction qs generalizing m with
  | nil => rfl
  | cons q qs ih =>
    have hs : (if Scalar.lt (Scalar.ofInt m : ℝ) (Scalar.ofInt q) then (.int q : Operand ℝ) else .int m) =
        .int (max m q : ℕ) := by
      by_cases h : m < q
      · simp [h, max_eq_right h.le]
      · simp [h, max_eq_left (not_lt.mp h)]
    change (Except.ok _ >>= _) = _
    rw [hs]
    exact ih (max m q)

lemma foldlM_largest (m : ℕ) (ws : List (Piece R comp)) :
    (ws.map Piece.pair).foldlM (fun m p => do largest m (← p.2.items)) (.int m) =
      .ok (.int ((ws.flatMap Piece.qubits).foldl max m : ℕ)) := by
  induction ws generalizing m with
  | nil => rfl
  | cons w ws ih =>
    rw [map_cons, foldlM_cons, flatMap_cons, foldl_append]
    change (largest (.int m) (w.qubits.map fun (q : ℕ) => .int q) >>= _) = _
    rw [largest_wires]
    exact ih _

/-! ### Single states and operators -/

/-- The operand is a state or an operator of `n` qubits, or an array with an entry or a row for each of their
states. -/
def IsOn (n : ℕ) : Operand ℝ → Prop
  | .state v => v.numQubits = n
  | .operator u => u.numQubits = n
  | x => ∃ rest, arrayShape? x = some (2 ^ n :: rest)

lemma checkQubits_wires_iff : checkQubits p (wires qs) = .ok () ↔ IsOn qs.length p := by
  have hlen : (wires qs).length = .ok qs.length := congrArg Except.ok (length_map _)
  have hi : ∀ b : Bool, (if b = true then Except.ok () else .error Fault.primitiveQubits) = .ok () ↔ b = true :=
    fun b => by cases b <;> simp
  rw [checkQubits, hlen]
  refine (hi _).trans ?_
  have hco : ∀ (m : ℕ) (rest : List ℕ), (2 ^ qs.length == m) = true ↔
      ∃ r, some (m :: rest) = some (2 ^ qs.length :: r) := fun m rest => by simp [@eq_comm ℕ m]
  have hn : false = true ↔ ∃ r, some [] = some (2 ^ qs.length :: r) := by simp
  cases p with
  | state v => exact beq_iff_eq.trans eq_comm
  | operator u => exact beq_iff_eq.trans eq_comm
  | array t =>
    obtain ⟨_ | ⟨m, rest⟩, element, entries⟩ := t
    exacts [hn, hco m rest]
  | objects shape xs =>
    rcases shape with _ | ⟨m, rest⟩
    exacts [hn, hco m rest]
  | texts shape xs =>
    rcases shape with _ | ⟨m, rest⟩
    exacts [hn, hco m rest]
  | _ => exact iff_of_false Bool.false_ne_true nofun

/-! ### Lists -/

lemma Piece.checkPrimitive (w : Piece R comp) : Compiler.checkPrimitive w.primitive = .ok () := by
  have h := w.compiles
  unfold compileOne at h
  cases hch : Compiler.checkPrimitive w.primitive with
  | ok => rfl
  | error f =>
    rw [hch] at h
    cases h

/-- **A list is compiled** to the items of its pieces on their qubits, and this circuit is optimized. -/
theorem exists_compileAll (hf : comp.framework.isReference = true) (ws : List (Piece R comp)) :
    ∃ d, (comp.optimizer = none → compile R comp (.list (ws.map Piece.operand)) = .ok d) ∧
      (∀ o, comp.optimizer = some o → compile R comp (.list (ws.map Piece.operand)) = o.optimize d) ∧
      d.numQubits = (ws.flatMap Piece.qubits).foldl max 0 + 1 ∧
      Forall₂ (Stands d.numQubits) d.log.toList (ws.flatMap Piece.moved) := by
  set m := (ws.flatMap Piece.qubits).foldl max 0
  have hp : (ws.map Piece.operand).mapM (fun x => do
      let (p, qubits) ← pairOf x
      Compiler.checkPrimitive p
      checkQubits p qubits
      .ok (p, qubits)) = .ok (ws.map Piece.pair) := by
    refine mapM_of_forall₂ (P := fun x w => x = w.operand) (forall₂_map_left_iff.mpr (forall₂_same.mpr
      fun w _ => rfl)) ?_
    rintro _ w rfl
    change (Compiler.checkPrimitive w.primitive >>= _) = _
    rw [w.checkPrimitive]
    rw [w.fits]
    rfl
  have hn := new_int comp.framework m.succ_pos
  have hs : (.int (m : ℕ) : Operand ℝ).sum (.int 1) = .ok (.int (m + 1 : ℕ)) := rfl
  obtain ⟨hl, -⟩ := lists_new hf hn
  obtain ⟨a, hop⟩ := hl.isOpen
  obtain ⟨d, new, a', ha, hop', hlo, hst⟩ := exists_addAll ws (fun w hw q hq =>
    Nat.lt_succ_of_le (le_foldl_max (mem_flatMap.mpr ⟨w, hw, hq⟩))) hop
  have hok : ∀ {β γ : Type} (b : β) (f : β → Outcome γ), (Except.ok b >>= f) = f b := fun _ _ => rfl
  have ht : (ws.map Piece.pair).foldlM (fun m p => do largest m (← p.2.items)) (.int 0) =
      .ok (.int (m : ℕ)) := foldlM_largest 0 ws
  refine ⟨d, fun hno => ?_, fun o ho => ?_, hop'.numQubits, ?_⟩
  · change compileAll R comp _ = _
    rw [compileAll, hp, hok, ht, hok, hs, hok, hn, hok, ha, hok, hno]
  · change compileAll R comp _ = _
    rw [compileAll, hp, hok, ht, hok, hs, hok, hn, hok, ha, hok, optimize, ho]
  · rw [hop'.numQubits, hlo, Array.toList_append, forall₂_nil_right_iff.mp hl.log]; exact hst

lemma condition_row (hv : v.IsKet) :
    perform (Preparation.condition (.real 0.0) (.text "row")) v = (.ok (), v) := by
  have hn : cleared v.data (0.0 : ℝ) = [] := by
    have hze : Scalar.truncate ((0.0 : ℝ) / 100 * v.data.entries.size) = 0 := by
      change (if (0 : ℝ) ≤ _ then ⌊_⌋ else _) = 0; norm_num
    rw [cleared, hze]
    rfl
  rcases hv.changeIndexing_cases (.text "row") with ⟨h, -⟩ | ⟨-, h⟩ | ⟨-, h, -⟩
  · simp at h
  · rw [Preparation.condition, perform_bind_ok h]
    rcases hv.compress_cases (.real 0.0) with ⟨x, hx, h⟩ | ⟨f, hx, -⟩ <;> cases hx
    rw [h, hn]
    rfl
  · exact absurd rfl h

/-- **A state of two qubits that is prepared by splitting** is a piece of a circuit. -/
theorem exists_part (hf : comp.framework.isReference = true) (hp : comp.preparation = .splitting)
    (hv : v.IsKet) (hn : v.numQubits = 2) :
    ∃ part is, compileOne R comp (.state v) = .ok part ∧ part.Lists 2 is := by
  have hne := new_int comp.framework (Nat.zero_lt_two)
  obtain ⟨hl, -⟩ := lists_new hf hne
  obtain ⟨b, ha, ⟨is, hb⟩, -⟩ := Splitting.exists_lists_reversed
    (Splitting.stands_plan (n := 2) (hn ▸ hv.size)) (fun o ho => (Splitting.good_of_mem_parts ho).1) hl
  have hm : (Operand.range 0 2 1 : Operand ℝ).Maps 2 id :=
    ⟨[.int 0, .int 1], ⟨rfl, rfl⟩, .cons (Operand.isWhole_int 0) (.cons (Operand.isWhole_int 1) .nil)⟩
  obtain ⟨a, hop⟩ := hl.isOpen
  obtain ⟨d, new, a', had, hop', hlo, hs⟩ := exists_add_on hb.numQubits hb.log hm ⟨fun q hq => hq,
    fun q _ r _ h => h⟩ hop
  have hci : perform (Preparation.splitting.circuitFor R comp.framework (.range 0 2 1) (.real 0.0) (.text "row")) v =
      (.ok (b, .range 0 2 1), v) := by
    have hqs : Shannon.qubitsFor (.range 0 2 1 : Operand ℝ) 2 .stateQubits = .ok (.range 0 2 1) := rfl
    rw [Preparation.circuitFor, perform_get_bind, hn, hqs,
      perform_ofOutcome_bind, perform_bind_ok (condition_row hv), perform_get_bind,
      hn]
    change perform (ofOutcome (Circuit.new _ _) >>= _) v = _
    rw [hne, perform_ofOutcome_bind]
    change perform (ofOutcome (after _ (do follow (Splitting.plan 2 _); verticalReverse)) >>= _) v = _
    rw [ha, perform_ofOutcome_bind]
    rfl
  have hk : (Preparation.vectorOf (.state v) >>= Preparation.ketOf) = .ok v := by
    change Preparation.ketOf v = _; rw [Preparation.ketOf, hv.kind]
  refine ⟨d, is.map fun i => i.snapped.onQubits id, ?_, ⟨a', hop'⟩, ?_⟩
  · change Preparation.prepare R comp.preparation comp.framework (.state v) _ _ = _
    rw [hp, Preparation.prepare]
    change (Circuit.new comp.framework (.int v.numQubits) >>= _) = _
    rw [hn, hne]
    change Circuit.after _ (Preparation.apply _ _ _ _ (.range 0 2 1) _ _) = _
    rw [Circuit.after, Preparation.apply, hk, perform_ofOutcome_bind, hci, perform_ofOutcome_bind]
    dsimp only
    rw [had]
  · rw [hlo, Array.toList_append, forall₂_nil_right_iff.mp hl.log]; exact hs

def plain : Compiler := ⟨.reference, .splitting, .shannon, none⟩

lemma isReference_plain : plain.framework.isReference = true := rfl

def three : Tensor ℝ := .vector #[.one, .zero, .zero]

lemma exists_ket : ∃ v part is, build .ket three none = .ok v ∧ v.numQubits = 2 ∧
    compileOne .byRotations plain (.state v) = .ok part ∧ part.Lists 2 is := by
  have hno : StateVector.checkNormalization three = true := by
    have hs : squareSum three = .one := by apply Cplx.value_injective; simp [squareSum, three, Tensor.vector]
    rw [StateVector.checkNormalization, hs]
    simp [Cplx.isClose]
  obtain ⟨v, hbu, hn, hv⟩ : ∃ v, build .ket three none = .ok v ∧ v.numQubits = 2 ∧ v.IsKet := by
    rw [build, hno]; exact ⟨_, rfl, rfl, rfl, rfl, rfl⟩
  obtain ⟨part, is, hp, hl⟩ := exists_part isReference_plain rfl hv hn
  exact ⟨v, part, is, hbu, hn, hp, hl⟩

lemma exists_of_compile_pair
    (h : compile R comp (.list [.tuple [p, wires qs]]) = .ok d) :
    IsOn qs.length p ∧ ∃ part, compileOne R comp p = .ok part := by
  obtain ⟨pairs, hp, h⟩ := exists_of_bind_ok (show compileAll R comp _ = _ from h)
  obtain ⟨top, -, h⟩ := exists_of_bind_ok h
  obtain ⟨size, -, h⟩ := exists_of_bind_ok h
  obtain ⟨c, -, h⟩ := exists_of_bind_ok h
  obtain ⟨c', hc', -⟩ := exists_of_bind_ok h
  obtain ⟨pair, hpa, hp⟩ := exists_of_bind_ok hp
  cases hp
  obtain ⟨⟨⟩, -, hpa⟩ := exists_of_bind_ok (show (checkPrimitive p >>= _) = _ from hpa)
  obtain ⟨⟨⟩, hfi, hpa⟩ := exists_of_bind_ok hpa
  cases hpa
  obtain ⟨c₁, hc₁, -⟩ := exists_of_bind_ok hc'
  obtain ⟨part, hpr, -⟩ := exists_of_bind_ok hc₁
  exact ⟨checkQubits_wires_iff.mp hfi, part, hpr⟩

/-- **The two ways to compile one state or operator.**  By itself, it is never optimized; on the first qubits of a
list, it is.  Apart from that the logs hold the same calls, unless it is an array that does not have an entry or
a row for each state of the qubits: such an array is padded by itself and refused in a list.  What is refused by
itself is refused in a list. -/
theorem compile_forms_agree (hf : comp.framework.isReference = true) (hn : 0 < n) {p : Operand ℝ}
    (hp : ∀ xs, p ≠ .list xs) :
    (∀ d, compile R comp (.list [.tuple [p, wires (range n)]]) = .ok d →
      IsOn n p ∧ ∃ part, compile R comp p = .ok part) ∧
    ∀ part, compile R comp p = .ok part → part.numQubits = n → IsOn n p →
      ∀ is, Forall₂ (Stands n) part.log.toList is →
        ∃ d : Circuit ℝ, d.numQubits = n ∧ Forall₂ Entry.SameCall part.log.toList d.log.toList ∧
          (comp.optimizer = none → compile R comp (.list [.tuple [p, wires (range n)]]) = .ok d) ∧
          ∀ o, comp.optimizer = some o → compile R comp (.list [.tuple [p, wires (range n)]]) = o.optimize d := by
  have ho : compile R comp p = compileOne R comp p := by
    cases p <;> first | rfl | exact absurd rfl (hp _)
  rw [ho]
  refine ⟨fun d h => by simpa using exists_of_compile_pair h, fun part hpa hsi hon is hlo => ?_⟩
  have hl : (range n).length = n := length_range
  obtain ⟨d, hno, hso, hnu, hs⟩ := exists_compileAll hf [(⟨p, part, is, range n, hpa,
    checkQubits_wires_iff.mpr (by rwa [hl]), by rw [hsi, hl], by rwa [hl], nodup_range⟩ : Piece R comp)]
  have hm : d.numQubits = n := by
    have hg : n - 1 ≤ (range n).foldl max 0 := le_foldl_max (mem_range.mpr (by omega))
    have hle : (range n).foldl max 0 ≤ n - 1 := (foldl_max_le_iff _ 0 _).mpr ⟨by omega, fun q hq => by
      have := mem_range.mp hq
      omega⟩
    rw [hnu, flatMap_singleton]
    change (range n).foldl max 0 + 1 = n
    omega
  refine ⟨d, hm, ?_, hno, hso⟩
  rw [hm, flatMap_singleton] at hs
  refine forall₂_of_common hlo (forall₂_map_right_iff.mp hs) fun e e' i he he' => he.sameCall he' ?_
  rw [Item.onQubits_id, Item.snapped_snapped]
  intro q hq
  have hq' : q < n := he.lt q (by rwa [Item.qubits_snapped] at hq)
  simp [Piece.place, hq']

theorem compile_forms_agree_ket : ∃ (v : StateVector ℝ) (part d : Circuit ℝ),
    compile .byRotations plain (.state v) = .ok part ∧
    compile .byRotations plain (.list [.tuple [.state v, wires (range 2)]]) = .ok d ∧
    Forall₂ Entry.SameCall part.log.toList d.log.toList := by
  obtain ⟨v, part, is, -, hn, hp, hl⟩ := exists_ket
  obtain ⟨d, -, hlo, hco, -⟩ := (compile_forms_agree (p := .state v) isReference_plain
    Nat.zero_lt_two nofun).2 part hp hl.numQubits hn is hl.log
  exact ⟨v, part, d, hp, hco rfl, hlo⟩

/-- Three entries are compiled by themselves, and not in a list. -/
theorem not_compile_forms_agree : ∃ part : Circuit ℝ, part.numQubits = 2 ∧
    compile .byRotations plain (.array three) = .ok part ∧
    compile .byRotations plain (.list [.tuple [.array three, wires (range 2)]]) = .error .primitiveQubits := by
  obtain ⟨v, part, is, hbu, -, hp, hl⟩ := exists_ket
  refine ⟨part, hl.numQubits, ?_, rfl⟩
  change (StateVector.build .ket three none >>= _) = _
  rw [hbu]
  exact hp

end QuantumCircuits.Compiler

end
