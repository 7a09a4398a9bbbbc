import Mathlib
import QuantumCircuits.Proofs.Dag.Chains

/-!
# Dag — Depth

The depth of the dependency graph of a circuit.  Operations are added one by one, qubit by qubit, and the
edge to a new operation is lost if the node before it has a child already that passes for the new one
(`Graph.connect_spec`).  What is known about the graph all the same is kept in `Circuit.Records`: its edges
are sound, and a node that is followed has a child.

So the depth is at most the length of the longest chain, and an edge that is lost does no harm unless there
are twins (`Dag.Twins`): two operations of one name that come right after the same operation, where nothing
up to the second depends on the first.  Without twins the depth is the length of the longest chain
(`Circuit.dag_depth`).
-/

namespace QuantumCircuits

open List Change Dag.Circuit

namespace Dag

variable {q : ℕ}

/-- The operations at places `j` and `k` have one name and come right after the one at `i`, and no operation
from the first to the second shares a qubit with the first. -/
def TwinsAt (ops : List Op) (i j k : ℕ) : Prop :=
  RightAfter ops i j ∧ RightAfter ops i k ∧ ops[j]?.map Op.name = ops[k]?.map Op.name ∧
    ∀ m ≤ k, j < m → ∀ q ∈ qubitsAt ops j, q ∉ qubitsAt ops m

/-- There are two operations which can be mistaken for each other. -/
def Twins (ops : List Op) : Prop := ∃ k < ops.length, ∃ j < k, ∃ i < j, TwinsAt ops i j k

instance (ops : List Op) (i j k : ℕ) : Decidable (TwinsAt ops i j k) :=
  inferInstanceAs (Decidable (_ ∧ _ ∧ _ ∧ _))

instance (ops : List Op) : Decidable (Twins ops) :=
  inferInstanceAs (Decidable (∃ k < ops.length, ∃ j < k, ∃ i < j, TwinsAt ops i j k))

variable {n : ℕ} {ops : List Op}

lemma last_lt (hq : q < n) : last n ops q < n + ops.length := by
  rcases last_cases n ops q with ⟨hs, -⟩ | ⟨l, hl, hn, -⟩
  · omega
  · have := lt_of_mem_qubitsAt hl
    omega

lemma Follows.lt {i j : ℕ} (h : Follows n ops i j) (ho : ∀ o ∈ ops, ∀ q ∈ o.qubits, q < n) :
    i < j ∧ j < n + ops.length := by
  obtain ⟨m, q, hq, rfl, rfl⟩ := h
  obtain ⟨p, hp, hqp⟩ := exists_of_mem_qubitsAt hq
  have hlt := lt_of_mem_qubitsAt hq
  have hl : last n (ops.take m) q < n + (ops.take m).length := last_lt (ho p (mem_of_getElem? hp) q hqp)
  rw [length_take] at hl
  omega

lemma not_follows_nil (n i j : ℕ) : ¬ Follows n [] i j := by
  rintro ⟨m, q, hq, -⟩; exact absurd (lt_of_mem_qubitsAt hq) (Nat.not_lt_zero _)

lemma Twins.append (h : Twins ops) (o : Op) : Twins (ops ++ [o]) := by
  obtain ⟨k, hk, j, hj, i, hij, hr, hr', hn, hi⟩ := h
  have hs : ∀ m ≤ k, (ops ++ [o])[m]? = ops[m]? := fun m hm => getElem?_append_left (by omega)
  refine ⟨k, by rw [length_append]; omega, j, hj, i, hij, hr.append o, hr'.append o, ?_, fun m hm hjm q hq => ?_⟩
  · rw [hs j hj.le, hs k le_rfl, hn]
  · rw [qubitsAt_append_of_lt (by omega)] at hq ⊢
    exact hi m hm hjm q hq

namespace Circuit

variable {α : Type}

/-- What is known about the graph of operations. -/
structure Records (n : ℕ) (ops : List Op) (d : Circuit) : Prop where
  size : d.graph.size = n + ops.length
  wires : d.wires.length = n
  lasts : ∀ q < n, ∃ w, d.wires[q]? = some w ∧ w.getLast? = some (last n ops q)
  names : ∀ m o, ops[m]? = some o → (d.graph.node (n + m)).name = some o.name
  fresh : ∀ i, (d.graph.node i).depth = none
  sound : d.graph.Sound n ops
  followed : ∀ i j, Follows n ops i j → (d.graph.node i).children ≠ []

/-- The graph while the node `v` is put on wires, whose last nodes are told by `f`. -/
structure During (d₀ : Circuit) (f : ℕ → ℕ) (v : ℕ) (done : List ℕ) (d : Circuit) : Prop where
  size : d.graph.size = d₀.graph.size
  names : ∀ k, (d.graph.node k).name = (d₀.graph.node k).name
  fresh : ∀ k, (d.graph.node k).depth = none
  parents : ∀ p ∈ (d.graph.node v).parents, p < d₀.graph.size
  wires : ∀ q, d.wires[q]? = (d₀.wires[q]?).map fun w => if q ∈ done then w ++ [v] else w
  children : ∀ i, (d.graph.node i).children = (d₀.graph.node i).children ∨
    (∃ q ∈ done, i = f q) ∧ (d.graph.node i).children = (d₀.graph.node i).children ++ [v]
  edges : ∀ q ∈ done, v ∈ (d.graph.node (f q)).children ∨ ∃ k ∈ (d₀.graph.node (f q)).children, d₀.graph.Passes k v

variable {d₀ d : Circuit} {f : ℕ → ℕ} {v : ℕ} {done : List ℕ}

lemma perform_onGraph {β : Type} (x : Change Graph β) (d : Circuit) : perform (onGraph x) d =
      ((perform x d.graph).1, { d with graph := (perform x d.graph).2 }) := rfl

lemma During.occupy (h : During d₀ f v done d) (ho : d₀.graph.Ordered) (hv : v < d₀.graph.size)
    (hl : (d₀.graph.node v).children = []) (hf : ∀ q ∈ done, f q < v) {w : List ℕ}
    (hw : d₀.wires[q]? = some w) (hla : w.getLast? = some (f q)) (hq : q ∉ done) (hfq : f q < v) :
    ∃ d', perform (Circuit.occupy (α := α) v (.int q)) d = (.ok (), d') ∧ During d₀ f v (q :: done) d' := by
  have hl' : (d.graph.node v).children = [] := by
    rcases h.children v with hs | ⟨⟨r, hr, rfl⟩, -⟩
    · rw [hs, hl]
    · exact absurd (hf r hr) (lt_irrefl _)
  have ho' : d.graph.Ordered := by
    intro i j hj
    rw [h.size]
    rcases h.children i with hs | ⟨⟨r, hr, rfl⟩, hn⟩
    · exact ho i j (hs ▸ hj)
    · rw [hn] at hj
      rcases mem_append.mp hj with hj | hj
      · exact ho _ j hj
      · exact mem_singleton.mp hj ▸ ⟨hf r hr, hv⟩
  obtain ⟨g, hco, hsi, hfi, hpa, cs, hch, hcs⟩ :=
    Graph.connect_spec ho' hfq (h.size ▸ hv) hl' (h.size ▸ h.parents) h.fresh
  have hwi : d.wires[q]? = some w := by rw [h.wires, hw, Option.map_some, if_neg hq]
  have hke : (d.graph.node (f q)).children ⊆ cs := by
    rcases hcs with ⟨-, rfl⟩ | ⟨-, rfl⟩
    · exact Subset.refl _
    · exact subset_append_left _ _
  refine ⟨⟨g, d.wires.set q (w ++ [v])⟩, ?_, ?_⟩
  · have hnn : ¬ (q : ℤ) < 0 := by omega
    simp only [Circuit.occupy, hnn, if_false, Int.toNat_natCast]
    rw [perform_get_bind]
    simp only [hwi, hla]
    rw [perform_bind_ok (perform_modify _ d), perform_onGraph, hco]
  · refine ⟨hsi.trans h.size, fun k => ((hfi k).1).trans (h.names k), fun k => (hfi k).2,
      fun p hp => h.size ▸ hpa p hp, fun r => ?_, fun i => ?_, fun r hr => ?_⟩
    · by_cases hr : r = q
      · subst hr
        have hlt := (List.getElem?_eq_some_iff.mp hwi).1
        simp [hw, hlt]
      · simp [getElem?_set_ne (Ne.symm hr), h.wires, hr]
    · rw [hch]
      split
      · rename_i hi
        subst hi
        rcases h.children (f q) with hs | ⟨-, hn⟩
        · rw [← hs]; exact hcs.imp And.right fun hn => ⟨⟨q, mem_cons_self, rfl⟩, hn.2⟩
        · rcases hcs with ⟨-, rfl⟩ | ⟨hnt, -⟩
          · exact .inr ⟨⟨q, mem_cons_self, rfl⟩, hn⟩
          · exact absurd (hn ▸ mem_append_right _ mem_cons_self) hnt
      · exact (h.children i).imp id fun ⟨⟨r, hr, hi⟩, hn⟩ => ⟨⟨r, mem_cons_of_mem _ hr, hi⟩, hn⟩
    · have hg : (d.graph.node (f r)).children ⊆ (g.node (f r)).children := by
        rw [hch]
        split
        · rename_i he
          exact he ▸ hke
        · exact Subset.refl _
      rcases mem_cons.mp hr with rfl | hr
      · rcases hcs with ⟨⟨k, hk, hps⟩, -⟩ | ⟨-, hn⟩
        · -- the child that passes for the node was there before the operation
          by_cases hkv : k = v
          · exact .inl (hg (hkv ▸ hk))
          · obtain ⟨hna, hno⟩ := hps.resolve_left hkv
            refine .inr ⟨k, ?_, by rw [← h.names, ← h.names, hna], ?_⟩
            · rcases h.children (f r) with hs | ⟨-, hn⟩
              · exact hs ▸ hk
              · rw [hn] at hk
                exact (mem_append.mp hk).resolve_right fun hv => hkv (mem_singleton.mp hv)
            · rcases h.children k with hs | ⟨-, hn⟩
              · rw [← hs, hno]
              · rw [hno] at hn
                exact absurd hn.symm (append_ne_nil_of_right_ne_nil _ (cons_ne_nil _ _))
        · refine .inl ?_; rw [hch, if_pos rfl, hn]; exact mem_append_right _ mem_cons_self
      · exact (h.edges r hr).imp (fun hv => hg hv) id

lemma During.occupyAll {qs : List ℕ} (h : During d₀ f v done d) (ho : d₀.graph.Ordered)
    (hv : v < d₀.graph.size) (hl : (d₀.graph.node v).children = []) (hf : ∀ q ∈ done, f q < v)
    (hqs : ∀ q ∈ qs, f q < v ∧ ∃ w, d₀.wires[q]? = some w ∧ w.getLast? = some (f q)) (hn : qs.Nodup)
    (hd : ∀ q ∈ qs, q ∉ done) :
    ∃ d', perform ((qs.map fun q : ℕ => (.int q : Operand α)).forM (Circuit.occupy v)) d = (.ok (), d') ∧
      During d₀ f v (qs.reverse ++ done) d' := by
  induction qs generalizing done d with
  | nil => exact ⟨d, rfl, h⟩
  | cons q qs ih =>
    obtain ⟨⟨hfq, w, hw, hla⟩, hqs⟩ := forall_mem_cons.mp hqs
    obtain ⟨hq, hd⟩ := forall_mem_cons.mp hd
    obtain ⟨hne, hn⟩ := nodup_cons.mp hn
    obtain ⟨d₁, hru, h₁⟩ := h.occupy ho hv hl hf hw hla hq hfq
    have hd₁ : ∀ r ∈ qs, r ∉ q :: done := by
      intro r hr hm
      rcases mem_cons.mp hm with rfl | hm
      · exact hne hr
      · exact hd r hr hm
    obtain ⟨d', hru', h'⟩ := ih h₁ (forall_mem_cons.mpr ⟨hfq, hf⟩) hqs hn hd₁
    refine ⟨d', ?_, by simpa using h'⟩
    rw [map_cons, List.forM, perform_bind_ok hru, hru']

def pushed (d : Circuit) (name : String) : Circuit := { d with graph := d.graph.push ⟨some name, [], [], none⟩ }

lemma node_pushed (d : Circuit) (name : String) (k : ℕ) : (d.pushed name).graph.node k =
    if k = d.graph.size then ⟨some name, [], [], none⟩ else d.graph.node k := by
  by_cases hk : k = d.graph.size
  · simp [pushed, Graph.node, hk]
  · simp [pushed, Graph.node, Array.getElem?_push, hk]

lemma children_pushed (d : Circuit) (name : String) (k : ℕ) :
    ((d.pushed name).graph.node k).children = (d.graph.node k).children := by
  rw [node_pushed]
  split
  · rename_i hk
    simp [Graph.node, hk]
  · rfl

lemma During.subset (h : During d₀ f v done d) (i : ℕ) : (d₀.graph.node i).children ⊆ (d.graph.node i).children := by
  rcases h.children i with hs | ⟨-, hn⟩
  · rw [hs]; exact Subset.refl _
  · rw [hn]; exact subset_append_left _ _

variable {o : Op}

section Step

variable (h : Records n ops d) {d' : Circuit}
include h

lemma Records.ordered (ho : ∀ o ∈ ops, ∀ q ∈ o.qubits, q < n) : d.graph.Ordered := fun i j hj => by
  rw [h.size]; exact (h.sound i j hj).lt ho

lemma Records.exists_during (hop : ∀ o ∈ ops, ∀ q ∈ o.qubits, q < n) (hn : o.qubits.Nodup) (ho : ∀ q ∈ o.qubits, q < n)
    {os : Operands α} (hoc : occupied os = o.qubits.map fun q : ℕ => .int q) :
    ∃ d', perform (addOperation (some o.name) os) d = (.ok (), d') ∧
      During (d.pushed o.name) (last n ops) (n + ops.length) o.qubits.reverse d' := by
  have hsi : (d.pushed o.name).graph.size = d.graph.size + 1 := Array.size_push ..
  have hor : (d.pushed o.name).graph.Ordered := by
    intro i j hj
    rw [children_pushed] at hj
    have := h.ordered hop i j hj
    omega
  have hl : (d.pushed o.name).graph.node (n + ops.length) = ⟨some o.name, [], [], none⟩ := by
    rw [node_pushed, if_pos h.size.symm]
  have hs : During (d.pushed o.name) (last n ops) (n + ops.length) [] (d.pushed o.name) := by
    refine ⟨rfl, fun _ => rfl, fun k => ?_, ?_, fun q => by simp, fun _ => .inl rfl, by simp⟩
    · rw [node_pushed]
      split
      · rfl
      · exact h.fresh k
    · rw [hl]; simp
  obtain ⟨d', hr, hd⟩ := hs.occupyAll hor (by have := h.size; omega) (by rw [hl])
    (by simp) (fun q hq => ⟨last_lt (ho q hq), h.lasts q (ho q hq)⟩) hn (by simp)
  refine ⟨d', ?_, by simpa using hd⟩
  have ha : perform (onGraph (Graph.add (some o.name))) d = (.ok (n + ops.length), d.pushed o.name) := by
    rw [perform_onGraph, ← h.size]; rfl
  rw [addOperation, perform_bind_ok ha, hoc]
  exact hr

/-- **What is known stays known** when an operation is added. -/
theorem Records.append
    (hd : During (d.pushed o.name) (last n ops) (n + ops.length) o.qubits.reverse d') :
    Records n (ops ++ [o]) d' := by
  have hch := hd.children
  have hs := hd.subset
  simp only [children_pushed] at hch hs
  refine ⟨?_, ?_, fun q hq => ?_, fun m p hm => ?_, hd.fresh, fun i j hj => ?_, fun i j hj => ?_⟩
  · rw [hd.size, length_append, length_singleton, ← Nat.add_assoc, ← h.size]
    exact Array.size_push ..
  · have hn : ∀ q, d'.wires[q]? = none ↔ d.wires[q]? = none := fun q => by
      rw [hd.wires, Option.map_eq_none_iff]; rfl
    simp only [getElem?_eq_none_iff, h.wires] at hn
    exact Nat.le_antisymm ((hn n).mpr le_rfl) ((hn _).mp le_rfl)
  · obtain ⟨w, hw, hla⟩ := h.lasts q hq
    refine ⟨_, (hd.wires q).trans (congrArg _ hw), ?_⟩
    rw [last_append]
    by_cases hme : q ∈ o.qubits <;> simp [hme, hla]
  · rw [hd.names, node_pushed]
    rcases Nat.lt_trichotomy m ops.length with hl | rfl | hl
    · rw [if_neg (by have := h.size; omega)]
      exact h.names m p (by rwa [getElem?_append_left hl] at hm)
    · rw [if_pos h.size.symm]; simp only [getElem?_concat_length, Option.some.injEq] at hm; rw [hm]
    · rw [getElem?_eq_none (by simpa using hl)] at hm
      cases hm
  · rw [follows_append]
    rcases hch i with hsa | ⟨⟨q, hq, hi⟩, hne⟩
    · exact .inl (h.sound i j (hsa ▸ hj))
    · rw [hne] at hj
      rcases mem_append.mp hj with hj | hj
      · exact .inl (h.sound i j hj)
      · exact .inr ⟨mem_singleton.mp hj, q, mem_reverse.mp hq, hi⟩
  · rcases (follows_append n ops o i j).mp hj with hj | ⟨-, q, hq, rfl⟩
    · obtain ⟨k, hk⟩ := exists_mem_of_ne_nil _ (h.followed i j hj); exact ne_nil_of_mem (hs i hk)
    · rcases hd.edges q (mem_reverse.mpr hq) with hv | ⟨k, hk, -⟩
      · exact ne_nil_of_mem hv
      · exact ne_nil_of_mem (hd.subset _ hk)

lemma Records.idle {l : ℕ} (hle : (d.graph.node (n + l)).children = []) :
    ∀ m, l < m → ∀ q ∈ qubitsAt ops l, q ∉ qubitsAt ops m := by
  intro m hlm q hl hm
  obtain ⟨j, hj⟩ := exists_follows hl hm hlm
  exact h.followed _ _ hj hle

lemma Records.children_of_unused (hq : q < n) (hu : ∀ m, q ∉ qubitsAt ops m) : (d.graph.node q).children = [] := by
  refine eq_nil_iff_forall_not_mem.mpr fun j hj => ?_
  obtain ⟨m, r, hr, hl, -⟩ := h.sound q j hj
  rcases last_cases n (ops.take m) r with ⟨hs, -⟩ | ⟨l, -, hn, -⟩
  · rw [hl, hs] at hu; exact hu m hr
  · omega

/-- **An edge that is lost does no harm** without twins: the child that passes for the new operation leads to
it. -/
theorem Records.linked_append (hop : ∀ o ∈ ops, ∀ q ∈ o.qubits, q < n) (ho : ∀ q ∈ o.qubits, q < n)
    (hd : During (d.pushed o.name) (last n ops) (n + ops.length) o.qubits.reverse d')
    (hli : d.graph.Linked n ops) (ht : ¬ Twins (ops ++ [o])) : d'.graph.Linked n (ops ++ [o]) := by
  have hsu := hd.subset
  have he := hd.edges
  simp only [children_pushed, mem_reverse] at hsu he
  intro i j hij
  rcases (follows_append n ops o i j).mp hij with hij | ⟨rfl, q, hq, rfl⟩
  · obtain ⟨k, hk, hp⟩ := hli i j hij; exact ⟨k, hk, hp.mono hsu⟩
  · rcases he q hq with hv | ⟨k, hk, hna, hlf⟩
    · exact ⟨1, le_rfl, .cons hv (.refl _)⟩
    · rw [children_pushed] at hlf
      rcases last_cases n ops q with ⟨hse, hn⟩ | ⟨m, hm, hla, hle⟩
      · rw [hse, h.children_of_unused (ho q hq) hn] at hk; cases hk
      · rw [hla] at hk ⊢
        obtain ⟨l, rfl, hri⟩ := (h.sound _ _ hk).rightAfter hop
        obtain ⟨hml, p, -, hl, -⟩ := id hri
        have hlt := lt_of_mem_qubitsAt hl
        have hi := h.idle hlf
        by_cases hs : ∃ r ∈ qubitsAt ops l, r ∈ o.qubits
        · -- the operation comes right after the child, which has no others
          obtain ⟨r, hrl, hro⟩ := hs
          have hla' : last n ops r = n + l := by
            rcases last_cases n ops r with ⟨-, hn⟩ | ⟨l', hl', hno, hle'⟩
            · exact absurd hrl (hn l)
            · rcases Nat.lt_trichotomy l l' with hlt | rfl | hlt
              · exact absurd hl' (hi l' hlt r hrl)
              · exact hno
              · exact absurd hrl (hle' l hlt)
          have hv : n + ops.length ∈ (d'.graph.node (n + l)).children := by
            rcases he r hro with hv | ⟨k, hk', -⟩
            · exact hla' ▸ hv
            · rw [hla', hlf] at hk'; cases hk'
          exact ⟨2, by omega, .cons (hsu _ hk) (.cons hv (.refl _))⟩
        · refine absurd ⟨ops.length, by simp, l, hlt, m, hml, hri.append o, ?_, ?_, ?_⟩ ht
          · refine ⟨hml.trans hlt, q, by rwa [qubitsAt_append_of_lt (hml.trans hlt)], by rwa [qubitsAt_length],
              fun k hk hmk => ?_⟩
            rw [qubitsAt_append_of_lt hk]
            exact hle k hmk
          · obtain ⟨x, hx, -⟩ := exists_of_mem_qubitsAt hl
            rw [node_pushed, node_pushed, if_pos h.size.symm, if_neg (by have := h.size; omega),
              h.names l x hx] at hna
            rw [getElem?_append_left hlt, hx, getElem?_concat_length]
            exact hna
          · intro k hk hlk r hr hrk
            rw [qubitsAt_append_of_lt hlt] at hr
            rcases Nat.lt_or_eq_of_le hk with hk | rfl
            · rw [qubitsAt_append_of_lt hk] at hrk; exact hi k hlk r hr hrk
            · rw [qubitsAt_length] at hrk; exact hs ⟨r, hr, hrk⟩

end Step

/-! ### The whole graph -/

lemma records_empty (n : ℕ) : Records n [] (empty n) := by
  have hs : (empty n).graph.size = n := by simp [empty]
  have hn : ∀ i, ((empty n).graph.node i).children = [] ∧ ((empty n).graph.node i).depth = none := by
    intro i
    by_cases hi : i < n <;> simp [empty, Graph.node, hi]
  refine ⟨hs, by simp [empty], fun q hq => ⟨[q], by simp [empty, hq], rfl⟩, by simp, fun i => (hn i).2,
    fun i j hj => ?_, fun i j h => absurd h (not_follows_nil n i j)⟩
  rw [(hn i).1] at hj
  cases hj

end Circuit

end Dag

/-- The entry stands for an operation on qubits of `n`. -/
structure Entry.ActsAs {α : Type} (n : ℕ) (e : Entry α) (o : Dag.Op) : Prop where
  name : e.gate.map GateName.text = some o.name
  occupied : occupied e.operands = o.qubits.map fun q : ℕ => .int q
  nodup : o.qubits.Nodup
  lt : ∀ q ∈ o.qubits, q < n

namespace Circuit

open Dag (ChainOf Op Twins)

variable {α : Type} {n : ℕ}
variable {a b : ℕ} {ops : List Op}

/-- **The graph of a log**, entry by entry. -/
theorem exists_records {es : List (Entry α)} (h : Forall₂ (Entry.ActsAs n) es ops)
    {ops₀ : List Op} {d₀ : Dag.Circuit} (h₀ : d₀.Records n ops₀) (ho₀ : ∀ o ∈ ops₀, ∀ q ∈ o.qubits, q < n)
    (hl₀ : ¬ Twins ops₀ → d₀.graph.Linked n ops₀) :
    ∃ d, Change.perform (es.forM fun e => addOperation (e.gate.map GateName.text) e.operands) d₀ =
        (.ok (), d) ∧ d.Records n (ops₀ ++ ops) ∧ (¬ Twins (ops₀ ++ ops) → d.graph.Linked n (ops₀ ++ ops)) := by
  induction h generalizing ops₀ d₀ with
  | nil => exact ⟨d₀, rfl, by rwa [append_nil], by rwa [append_nil]⟩
  | @cons e o es ops he _ ih =>
    obtain ⟨d₁, hr, hd⟩ := h₀.exists_during ho₀ he.nodup he.lt he.occupied
    have ho₁ : ∀ p ∈ ops₀ ++ [o], ∀ q ∈ p.qubits, q < n := by
      intro p hp
      rcases mem_append.mp hp with hp | hp
      · exact ho₀ p hp
      · exact mem_singleton.mp hp ▸ he.lt
    obtain ⟨d, hr', hre, hl⟩ := ih (h₀.append hd) ho₁ fun ht =>
      h₀.linked_append ho₀ he.lt hd (hl₀ fun h => ht (h.append o)) ht
    rw [append_assoc, singleton_append] at hre hl
    refine ⟨d, ?_, hre, hl⟩
    rw [List.forM, he.name, perform_bind_ok hr, hr']

/-- **The depth of the graph.** -/
theorem exists_depth {d : Dag.Circuit} (hn : 0 < n) (h : d.Records n ops)
    (ho : ∀ o ∈ ops, ∀ q ∈ o.qubits, q < n) :
    ∃ k d', Change.perform depth d = (.ok k, d') ∧ k ≤ Dag.layers n ops ∧
      (d.graph.Linked n ops → k = Dag.layers n ops) := by
  have hqu : ∀ q ∈ range n, ∀ s : Dag.Circuit, d.graph.Measured s.graph →
      ∃ k s', Change.perform (onGraph (Dag.Graph.depth q)) s = (.ok k, s') ∧ d.graph.IsDepth q k ∧
        d.graph.Measured s'.graph := by
    intro q hq s hs
    have hlt := mem_range.mp hq
    obtain ⟨k, g, hr, hk, hg⟩ := Dag.Graph.depthAt_spec (h.ordered ho) s.graph.bound q s.graph hs
      (by have := h.size; omega) (by have := hs.1; simp only [Dag.Graph.bound]; omega)
    refine ⟨k, { s with graph := g }, ?_, hk, hg⟩
    rw [perform_onGraph, Dag.Graph.depth, perform_get_bind, hr]
  have hst : d.graph.Measured d.graph := ⟨rfl, fun i => ⟨rfl, fun k hk => by rw [h.fresh i] at hk; cases hk⟩⟩
  obtain ⟨ks, d', hma, hks, -⟩ := exists_mapM hqu hst
  have hu : ks.foldl max 0 ≤ Dag.layers n ops := by
    refine (foldl_max_le_iff ks 0 _).mpr ⟨Nat.zero_le _, fun k hk => ?_⟩
    obtain ⟨m, hm, rfl⟩ := getElem_of_mem hk
    obtain ⟨⟨j, hpa⟩, -⟩ := hks.get (hks.length_eq ▸ hm) hm
    exact Dag.path_le_layers h.sound ho hpa
  refine ⟨ks.foldl max 0, d', ?_, hu, fun hl => le_antisymm hu ?_⟩
  · rw [depth, perform_get_bind, h.wires]
    simp only [hn.ne', if_false]
    rw [perform_bind_ok hma]
    rfl
  · refine (foldl_max_le_iff _ 0 _).mpr ⟨Nat.zero_le _, fun k hk => ?_⟩
    obtain ⟨q, hq, rfl⟩ := mem_map.mp hk
    obtain ⟨p, hp, k, hle, hpa⟩ := Dag.exists_path_layering hl ho (mem_range.mp hq)
    have hp' : p < (range n).length := by rwa [length_range]
    obtain ⟨-, hgr⟩ := hks.get hp' (hks.length_eq ▸ hp')
    simp only [get_eq_getElem, getElem_range] at hgr
    exact hle.trans ((hgr ⟨_, hpa⟩).trans (le_foldl_max (getElem_mem _)))

section Dag

variable {c : Circuit α} {ops : List Op}

lemma dag_of_perform {d : Dag.Circuit} (h : Change.perform (c.log.toList.forM fun e =>
      Dag.Circuit.addOperation (e.gate.map GateName.text) e.operands) (Dag.Circuit.empty c.numQubits) =
        (.ok (), d)) : c.dag = .ok d := by
  rw [dag, h]

lemma exists_dag (h : Forall₂ (Entry.ActsAs c.numQubits) c.log.toList ops) :
    ∃ d, c.dag = .ok d ∧ d.Records c.numQubits ops ∧ (¬ Twins ops → d.graph.Linked c.numQubits ops) := by
  obtain ⟨d, hr, hre, hl⟩ := exists_records h (records_empty c.numQubits) (by simp)
    fun _ i j hi => absurd hi (Dag.not_follows_nil c.numQubits i j)
  exact ⟨d, dag_of_perform hr, hre, hl⟩

/-- **The depth of a circuit.**  For a log of named entries on qubits that are given by different whole numbers
within the circuit: the number of greedy layers is the length of the longest chain of entries in which
neighbours share a qubit.  The graph is built and has a depth, which is this length at most, and equal to
it if there are no twins. -/
theorem dag_depth (hn : 0 < c.numQubits) (h : List.Forall₂ (Entry.ActsAs c.numQubits) c.log.toList ops) :
    IsGreatest {k | ∃ s, ChainOf s ops ∧ s.length = k} (Dag.layers c.numQubits ops) ∧
    ∃ d k d', c.dag = .ok d ∧ Change.perform Dag.Circuit.depth d = (.ok k, d') ∧
      k ≤ Dag.layers c.numQubits ops ∧ (¬ Twins ops → k = Dag.layers c.numQubits ops) := by
  have hop : ∀ o ∈ ops, ∀ q ∈ o.qubits, q < c.numQubits := by
    intro o ho
    obtain ⟨m, hm, rfl⟩ := getElem_of_mem ho
    exact (h.get (h.length_eq ▸ hm) hm).lt
  obtain ⟨d, hda, hr, hl⟩ := exists_dag h
  obtain ⟨k, d', hd, hle, he⟩ := exists_depth hn hr hop
  exact ⟨Dag.isGreatest_layers hop, d, k, d', hda, hd, hle, fun ht => he (hl ht)⟩

end Dag

/-! ### Controlled negations on four qubits -/

abbrev negation (a b : ℕ) : Entry ℝ := .new (.of .x .controlled) [(.controlIndex, .int a), (.targetIndex, .int b)] []

noncomputable abbrev negate (a b : ℕ) : Change (Circuit ℝ) Unit :=
  apply (.of .x .controlled) [(.controlIndex, .int a), (.targetIndex, .int b)]

/-- A circuit with a given log and given primitives. -/
def drawn (log : Array (Entry ℝ)) (steps : Array (Primitive ℝ)) : Circuit ℝ :=
  ⟨log, false, true, { Sink.empty .reference 4 with content := .primitives steps }⟩

lemma perform_negate (log : Array (Entry ℝ)) (ss : Array (Primitive ℝ))
    (h : a < 4 ∧ b < 4 ∧ a ≠ b) : Change.perform (negate a b) (drawn log ss) =
      (.ok (), drawn (log.push (negation a b)) (ss.push (.cx a b))) := by
  obtain ⟨ha, hb, hab⟩ := h
  interval_cases a <;> interval_cases b <;> first | rfl | exact absurd rfl hab

lemma actsAs_negation (h : a < 4 ∧ b < 4 ∧ a ≠ b) : (negation a b).ActsAs 4 ⟨"CX", [a, b]⟩ :=
  ⟨rfl, rfl, by simpa using h.2.2, by simp [h.1, h.2.1]⟩

/-- Three controlled negations, each on a qubit of the one before. -/
theorem dag_depth_three : ∃ (c : Circuit ℝ) (d d' : Dag.Circuit),
    (empty .reference 4).after (do negate 0 1; negate 1 2; negate 2 3) = .ok c ∧
    c.dag = .ok d ∧ Change.perform Dag.Circuit.depth d = (.ok 3, d') := by
  have ha : Forall₂ (Entry.ActsAs 4) [negation 0 1, negation 1 2, negation 2 3]
      [⟨"CX", [0, 1]⟩, ⟨"CX", [1, 2]⟩, ⟨"CX", [2, 3]⟩] :=
    .cons (actsAs_negation (by decide)) (.cons (actsAs_negation (by decide))
      (.cons (actsAs_negation (by decide)) .nil))
  obtain ⟨-, d, k, d', hda, hd, -, he⟩ :=
    dag_depth (c := drawn #[negation 0 1, negation 1 2, negation 2 3] #[.cx 0 1, .cx 1 2, .cx 2 3]) (by decide) ha
  have ht : k = 3 := (he (by decide)).trans (by decide)
  refine ⟨_, d, d', ?_, hda, ht ▸ hd⟩
  change (drawn #[] #[]).after _ = _
  rfl

/-- Of two controlled negations that come right after the same one, on its control and on its target, the
second is lost, and with it the longest chain. -/
theorem not_dag_depth_twins : ∃ (c : Circuit ℝ) (d d' : Dag.Circuit),
    (empty .reference 4).after (do negate 0 1; negate 0 2; negate 1 3; negate 1 3) = .ok c ∧
    c.dag = .ok d ∧ Change.perform Dag.Circuit.depth d = (.ok 2, d') ∧
    List.Forall₂ (Entry.ActsAs 4) c.log.toList [⟨"CX", [0, 1]⟩, ⟨"CX", [0, 2]⟩, ⟨"CX", [1, 3]⟩, ⟨"CX", [1, 3]⟩] ∧
    ∃ s, ChainOf s [⟨"CX", [0, 1]⟩, ⟨"CX", [0, 2]⟩, ⟨"CX", [1, 3]⟩, ⟨"CX", [1, 3]⟩] ∧ s.length = 3 := by
  have ha : List.Forall₂ (Entry.ActsAs 4) [negation 0 1, negation 0 2, negation 1 3, negation 1 3]
      [⟨"CX", [0, 1]⟩, ⟨"CX", [0, 2]⟩, ⟨"CX", [1, 3]⟩, ⟨"CX", [1, 3]⟩] :=
    .cons (actsAs_negation (by decide)) (.cons (actsAs_negation (by decide))
      (.cons (actsAs_negation (by decide)) (.cons (actsAs_negation (by decide)) .nil)))
  have hv : (Change.perform (do
      [negation 0 1, negation 0 2, negation 1 3, negation 1 3].forM fun e =>
        Dag.Circuit.addOperation (e.gate.map GateName.text) e.operands
      Dag.Circuit.depth) (Dag.Circuit.empty 4)).1 = .ok 2 := by cbv
  obtain ⟨d, hp, -⟩ := exists_records ha (Dag.Circuit.records_empty 4) (by simp)
    fun _ i j hi => absurd hi (Dag.not_follows_nil 4 i j)
  rw [Change.perform_bind_ok hp] at hv
  refine ⟨drawn #[negation 0 1, negation 0 2, negation 1 3, negation 1 3] #[.cx 0 1, .cx 0 2, .cx 1 3, .cx 1 3],
    d, _, ?_, dag_of_perform hp, Prod.ext hv rfl, ha, ?_⟩
  · change (drawn #[] #[]).after _ = _
    rw [after, perform_bind_ok (perform_negate _ _ (by decide)),
      perform_bind_ok (perform_negate _ _ (by decide)),
      perform_bind_ok (perform_negate _ _ (by decide)), perform_negate _ _ (by decide)]
    rfl
  · exact ⟨[⟨"CX", [0, 1]⟩, ⟨"CX", [1, 3]⟩, ⟨"CX", [1, 3]⟩], ⟨by decide, by simp [Op.Shares], by simp⟩, rfl⟩

end Circuit

end QuantumCircuits
