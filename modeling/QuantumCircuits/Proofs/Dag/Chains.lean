import QuantumCircuits.Proofs.Dag.Graph

/-!
# Dag — Chains

Operations on qubits in a row, and how far they depend on each other.  A chain is a part of the row in which
neighbours share a qubit (`Dag.ChainOf`).  The greedy layering puts each operation into the first layer after
those of the operations before it on its qubits (`Dag.layering`); the number of layers is the length of
the longest chain (`Dag.isGreatest_layers`).

As nodes of a graph, the `n` qubits come first and the operations after them.  An operation follows the node
that is the last on one of its qubits (`Dag.last`, `Dag.Follows`).  Paths along such edges are chains
(`Dag.exists_chain_of_path`), and if each operation can be reached from the nodes that it follows, there are
paths that are long enough (`Dag.exists_path_layering`).
-/

namespace QuantumCircuits.Dag

open List

variable {q i j m k : ℕ}

/-- A named operation on qubits. -/
structure Op where
  name : String
  qubits : List ℕ
deriving Inhabited, DecidableEq

def Op.Shares (o p : Op) : Prop := ∃ q ∈ o.qubits, q ∈ p.qubits

/-- A part of a row of operations in which neighbours share a qubit. -/
structure ChainOf (s ops : List Op) : Prop where
  sublist : s.Sublist ops
  linked : s.IsChain Op.Shares
  acts : ∀ o ∈ s, o.qubits ≠ []

variable {n : ℕ} {ops : List Op} {o : Op}

/-! ### Greedy layers -/

/-- The layers that the qubits have come to after one more operation. -/
def place (f : ℕ → ℕ) (o : Op) : ℕ → ℕ := fun q =>
  if q ∈ o.qubits then (o.qubits.map f).foldl max 0 + 1 else f q

def layering (ops : List Op) : ℕ → ℕ := ops.foldl place fun _ => 0

def layers (n : ℕ) (ops : List Op) : ℕ := ((range n).map (layering ops)).foldl max 0

lemma layering_append (ops : List Op) (o : Op) : layering (ops ++ [o]) = place (layering ops) o := by
  simp [layering]

lemma le_place (f : ℕ → ℕ) (o : Op) (q : ℕ) : f q ≤ place f o q := by
  rw [place]
  split
  · rename_i hq
    exact (le_foldl_max (mem_map_of_mem hq)).trans (Nat.le_succ _)
  · exact le_rfl

lemma exists_place_eq (f : ℕ → ℕ) (hq : q ∈ o.qubits) : ∃ r ∈ o.qubits, place f o q = f r + 1 := by
  rw [place, if_pos hq]
  rcases foldl_max_mem (o.qubits.map f) 0 with hze | hm
  · have hl := le_foldl_max (mem_map_of_mem (f := f) hq)
    rw [hze] at hl ⊢
    exact ⟨q, hq, by rw [Nat.le_zero.mp hl]⟩
  · obtain ⟨r, hr, hma⟩ := mem_map.mp hm; exact ⟨r, hr, by rw [← hma]⟩

lemma ChainOf.length_le {s : List Op} (h : ChainOf (s ++ [o]) ops) : ∀ q ∈ o.qubits, s.length + 1 ≤ layering ops q := by
  induction ops using reverseRecOn generalizing s o with
  | nil => simpa using h.sublist
  | append_singleton ops p ih =>
    intro q hq
    rw [layering_append]
    obtain ⟨s₁, s₂, hs, hs₁, hs₂⟩ := sublist_append_iff.mp h.sublist
    rcases sublist_singleton.mp hs₂ with rfl | rfl
    · -- the new operation is none of the chain
      rw [append_nil] at hs
      exact (ih ⟨hs ▸ hs₁, h.linked, h.acts⟩ q hq).trans (le_place _ p q)
    · -- the chain ends with the new operation
      obtain ⟨rfl, hop⟩ := append_inj' hs rfl
      obtain rfl : o = p := by simpa using hop
      rw [place, if_pos hq]
      refine Nat.succ_le_succ ?_
      induction s using reverseRecOn with
      | nil => exact Nat.zero_le _
      | append_singleton s p _ =>
        have hl := isChain_append.mp h.linked
        obtain ⟨r, hr, hr'⟩ := hl.2.2 p (by simp) o (by simp)
        have hsh := ih ⟨hs₁, hl.1, fun o ho => h.acts o (mem_append_left _ ho)⟩ r hr
        rw [length_append, length_singleton]
        exact hsh.trans (le_foldl_max (mem_map_of_mem hr'))

lemma exists_chain_layering (ops : List Op) (q : ℕ) : layering ops q = 0 ∨
    ∃ s o, ChainOf (s ++ [o]) ops ∧ q ∈ o.qubits ∧ s.length + 1 = layering ops q := by
  induction ops using reverseRecOn generalizing q with
  | nil => exact .inl rfl
  | append_singleton ops p ih =>
    rw [layering_append]
    by_cases hq : q ∈ p.qubits
    · obtain ⟨r, hr, hp⟩ := exists_place_eq (layering ops) hq
      refine .inr ?_
      rcases ih r with hze | ⟨s, o, hch, ho, hlen⟩
      · refine ⟨[], p, ⟨sublist_append_right _ _, isChain_singleton p, ?_⟩, hq, ?_⟩
        · simpa using ne_nil_of_mem hq
        · rw [hp, hze]; rfl
      · refine ⟨s ++ [o], p, ⟨hch.sublist.append (Sublist.refl _), ?_, ?_⟩, hq, ?_⟩
        · refine isChain_append.mpr ⟨hch.linked, isChain_singleton p, fun x hx y hy => ?_⟩
          obtain rfl : o = x := by simpa using hx
          obtain rfl : p = y := by simpa using hy
          exact ⟨r, ho, hr⟩
        · intro x hx
          rcases mem_append.mp hx with hx | hx
          · exact hch.acts x hx
          · exact mem_singleton.mp hx ▸ ne_nil_of_mem hq
        · rw [hp, ← hlen, length_append, length_singleton]
    · rw [place, if_neg hq]
      refine (ih q).imp id ?_
      rintro ⟨s, o, hch, ho, hlen⟩
      exact ⟨s, o, ⟨hch.sublist.trans (sublist_append_left _ _), hch.linked, hch.acts⟩, ho, hlen⟩

/-- **The layers are as many as the longest chain has operations.** -/
theorem isGreatest_layers (hop : ∀ o ∈ ops, ∀ q ∈ o.qubits, q < n) :
    IsGreatest {k | ∃ s, ChainOf s ops ∧ s.length = k} (layers n ops) := by
  constructor
  · rcases foldl_max_mem ((range n).map (layering ops)) 0 with hze | hm
    · exact ⟨[], ⟨nil_sublist _, isChain_nil, by simp⟩, hze.symm⟩
    · obtain ⟨q, -, hq⟩ := mem_map.mp hm
      rcases exists_chain_layering ops q with hze | ⟨s, o, hch, -, hlen⟩
      · exact ⟨[], ⟨nil_sublist _, isChain_nil, by simp⟩, by rw [layers, ← hq, hze]; rfl⟩
      · exact ⟨s ++ [o], hch, by rw [layers, ← hq, ← hlen, length_append, length_singleton]⟩
  · rintro k ⟨s, hch, rfl⟩
    induction s using reverseRecOn with
    | nil => exact Nat.zero_le _
    | append_singleton s o _ =>
      have ho : o ∈ s ++ [o] := by simp
      obtain ⟨q, hq⟩ := exists_mem_of_ne_nil _ (hch.acts o ho)
      have hl := hop o (hch.sublist.subset ho) q hq
      rw [length_append, length_singleton]
      exact (hch.length_le q hq).trans (le_foldl_max (mem_map_of_mem (mem_range.mpr hl)))

/-! ### Operations as nodes -/

/-- The qubits of the operation at a place, none where there is no operation. -/
def qubitsAt (ops : List Op) (i : ℕ) : List ℕ := (ops[i]?.map Op.qubits).getD []

lemma qubitsAt_append_of_lt (hi : i < ops.length) (o : Op) : qubitsAt (ops ++ [o]) i = qubitsAt ops i := by
  rw [qubitsAt, qubitsAt, getElem?_append_left hi]

lemma qubitsAt_length (ops : List Op) (o : Op) : qubitsAt (ops ++ [o]) ops.length = o.qubits := by
  simp [qubitsAt]

lemma qubitsAt_take (hi : i < m) : qubitsAt (ops.take m) i = qubitsAt ops i := by
  rw [qubitsAt, qubitsAt, getElem?_take_of_lt hi]

lemma exists_of_mem_qubitsAt (hq : q ∈ qubitsAt ops i) : ∃ o, ops[i]? = some o ∧ q ∈ o.qubits := by
  rw [qubitsAt] at hq
  cases ho : ops[i]? with
  | none => rw [ho] at hq; cases hq
  | some o => exact ⟨o, rfl, by rwa [ho] at hq⟩

lemma lt_of_mem_qubitsAt (hq : q ∈ qubitsAt ops i) : i < ops.length := by
  obtain ⟨o, ho, -⟩ := exists_of_mem_qubitsAt hq; exact (List.getElem?_eq_some_iff.mp ho).1

def last (n : ℕ) (ops : List Op) (q : ℕ) : ℕ := (ops.zipIdx n).foldl (fun w p => if q ∈ p.1.qubits then p.2 else w) q

lemma last_append (n : ℕ) (ops : List Op) (o : Op) (q : ℕ) :
    last n (ops ++ [o]) q = if q ∈ o.qubits then n + ops.length else last n ops q := by
  simp [last, zipIdx_append]

lemma last_cases (n : ℕ) (ops : List Op) (q : ℕ) : (last n ops q = q ∧ ∀ m, q ∉ qubitsAt ops m) ∨
      ∃ m, q ∈ qubitsAt ops m ∧ last n ops q = n + m ∧ ∀ l, m < l → q ∉ qubitsAt ops l := by
  induction ops using reverseRecOn with
  | nil => exact .inl ⟨rfl, by simp [qubitsAt]⟩
  | append_singleton ops p ih =>
    rw [last_append]
    have hn : ∀ l, q ∈ qubitsAt (ops ++ [p]) l → q ∈ qubitsAt ops l ∨ l = ops.length ∧ q ∈ p.qubits := by
      intro l hl
      have hlt := lt_of_mem_qubitsAt hl
      rw [length_append, length_singleton] at hlt
      rcases Nat.lt_or_eq_of_le (Nat.lt_succ_iff.mp hlt) with hlt | rfl
      · exact .inl (by rwa [qubitsAt_append_of_lt hlt] at hl)
      · exact .inr ⟨rfl, by rwa [qubitsAt_length] at hl⟩
    by_cases hq : q ∈ p.qubits
    · refine .inr ⟨ops.length, by rwa [qubitsAt_length], by rw [if_pos hq], fun l hl hme => ?_⟩
      have hlt := lt_of_mem_qubitsAt hme
      rw [length_append, length_singleton] at hlt
      omega
    · rw [if_neg hq]
      rcases ih with ⟨hla, hno⟩ | ⟨m, hm, hla, hle⟩
      · exact .inl ⟨hla, fun m hm => (hn m hm).elim (hno m) fun h => hq h.2⟩
      · refine .inr ⟨m, by rwa [qubitsAt_append_of_lt (lt_of_mem_qubitsAt hm)], hla, fun l hl hme => ?_⟩
        exact (hn l hme).elim (hle l hl) fun h => hq h.2

/-- The node of an operation comes right after another one on one of its qubits. -/
def Follows (n : ℕ) (ops : List Op) (i j : ℕ) : Prop :=
  ∃ m q, q ∈ qubitsAt ops m ∧ i = last n (ops.take m) q ∧ j = n + m

lemma follows_append (n : ℕ) (ops : List Op) (o : Op) (i j : ℕ) : Follows n (ops ++ [o]) i j ↔
    Follows n ops i j ∨ j = n + ops.length ∧ ∃ q ∈ o.qubits, i = last n ops q := by
  constructor
  · rintro ⟨m, q, hq, rfl, rfl⟩
    have hl := lt_of_mem_qubitsAt hq
    rw [length_append, length_singleton] at hl
    rcases Nat.lt_or_eq_of_le (Nat.lt_succ_iff.mp hl) with hl | rfl
    · rw [qubitsAt_append_of_lt hl] at hq
      rw [take_append_of_le_length hl.le]
      exact .inl ⟨m, q, hq, rfl, rfl⟩
    · rw [qubitsAt_length] at hq; exact .inr ⟨rfl, q, hq, by rw [take_left' rfl]⟩
  · rintro (⟨m, q, hq, rfl, rfl⟩ | ⟨rfl, q, hq, rfl⟩)
    · have hl := lt_of_mem_qubitsAt hq
      refine ⟨m, q, by rwa [qubitsAt_append_of_lt hl], ?_, rfl⟩
      rw [take_append_of_le_length hl.le]
    · exact ⟨ops.length, q, by rwa [qubitsAt_length], by rw [take_left' rfl], rfl⟩

/-- The operation at a place comes right after the one at another place, on one of its qubits. -/
def RightAfter (ops : List Op) (i j : ℕ) : Prop :=
  i < j ∧ ∃ q ∈ qubitsAt ops i, q ∈ qubitsAt ops j ∧ ∀ k < j, i < k → q ∉ qubitsAt ops k

instance (ops : List Op) (i j : ℕ) : Decidable (RightAfter ops i j) := inferInstanceAs (Decidable (_ ∧ _))

lemma Follows.rightAfter (h : Follows n ops (n + m) j) (ho : ∀ o ∈ ops, ∀ q ∈ o.qubits, q < n) :
    ∃ l, j = n + l ∧ RightAfter ops m l := by
  obtain ⟨l, q, hq, hla, rfl⟩ := h
  obtain ⟨p, hp, hqp⟩ := exists_of_mem_qubitsAt hq
  have hlt := ho p (mem_of_getElem? hp) q hqp
  rcases last_cases n (ops.take l) q with ⟨hs, -⟩ | ⟨m', hm, hn, hl⟩
  · omega
  · obtain rfl : m = m' := by omega
    have hml : m < l := (lt_of_mem_qubitsAt hm).trans_le (length_take_le l ops)
    rw [qubitsAt_take hml] at hm
    refine ⟨l, rfl, hml, q, hm, hq, fun k hk hmk => ?_⟩
    rw [← qubitsAt_take hk]
    exact hl k hmk

lemma RightAfter.append (h : RightAfter ops i j) (o : Op) : RightAfter (ops ++ [o]) i j := by
  obtain ⟨hij, q, hi, hj, hbe⟩ := h
  have hl := lt_of_mem_qubitsAt hj
  have hs : ∀ k ≤ j, qubitsAt (ops ++ [o]) k = qubitsAt ops k := fun k hk =>
    qubitsAt_append_of_lt (by omega) o
  refine ⟨hij, q, by rwa [hs i hij.le], by rwa [hs j le_rfl], fun k hk hik => ?_⟩
  rw [hs k hk.le]
  exact hbe k hk hik

lemma exists_follows {l : ℕ} (hl : q ∈ qubitsAt ops l) (hm : q ∈ qubitsAt ops m) (hlm : l < m) :
    ∃ j, Follows n ops (n + l) j := by
  induction m using Nat.strong_induction_on with
  | h m ih =>
    have hl' : q ∈ qubitsAt (ops.take m) l := by rwa [qubitsAt_take hlm]
    rcases last_cases n (ops.take m) q with ⟨-, hn⟩ | ⟨k, hk, hls, hla⟩
    · exact absurd hl' (hn l)
    · have hkm : k < m := (lt_of_mem_qubitsAt hk).trans_le (length_take_le m ops)
      rcases Nat.lt_trichotomy l k with hlt | rfl | hlt
      · exact ih k hkm (by rwa [qubitsAt_take hkm] at hk) hlt
      · exact ⟨n + m, m, q, hm, hls.symm, rfl⟩
      · exact absurd hl' (hla l hlt)

/-! ### Paths -/

variable {g : Graph}

/-- Every edge leads to an operation that comes right after. -/
def Graph.Sound (g : Graph) (n : ℕ) (ops : List Op) : Prop := ∀ i, ∀ j ∈ (g.node i).children, Follows n ops i j

/-- Every operation can be reached from the nodes that it comes right after. -/
def Graph.Linked (g : Graph) (n : ℕ) (ops : List Op) : Prop :=
  ∀ i j, Follows n ops i j → ∃ k, 1 ≤ k ∧ Graph.Path g i j k

lemma exists_chain_of_path (hg : g.Sound n ops) (hop : ∀ o ∈ ops, ∀ q ∈ o.qubits, q < n)
    (h : Graph.Path g i j k) : ∀ m o, i = n + m → ops[m]? = some o → o.qubits ≠ [] →
      ∃ s, ChainOf (o :: s) (ops.drop m) ∧ s.length = k := by
  induction h with
  | refl =>
    rintro m o - hm ho
    obtain ⟨hlt, rfl⟩ := List.getElem?_eq_some_iff.mp hm
    refine ⟨[], ⟨?_, isChain_singleton _, by simpa using ho⟩, rfl⟩
    rw [drop_eq_getElem_cons hlt]
    exact (nil_sublist _).cons_cons _
  | cons hj _ ih =>
    rintro m o rfl hm ho
    obtain ⟨l, rfl, hml, q, hqm, hql, -⟩ := (hg _ _ hj).rightAfter hop
    obtain ⟨o', ho', hqo⟩ := exists_of_mem_qubitsAt hqm
    obtain rfl : o' = o := by simpa using ho'.symm.trans hm
    obtain ⟨p, hp, hq⟩ := exists_of_mem_qubitsAt hql
    obtain ⟨s, ⟨hs, hl, ha⟩, hlen⟩ := ih l p rfl hp (ne_nil_of_mem hq)
    refine ⟨p :: s, ⟨?_, isChain_cons_cons.mpr ⟨⟨q, hqo, hq⟩, hl⟩, forall_mem_cons.mpr ⟨ho, ha⟩⟩, by simp [hlen]⟩
    obtain ⟨hlt, rfl⟩ := List.getElem?_eq_some_iff.mp hm
    rw [drop_eq_getElem_cons hlt]
    have hd : (ops.drop l).Sublist (ops.drop (m + 1)) := drop_sublist_drop_left ops hml
    exact (hs.trans hd).cons_cons _

/-- **Paths from qubits are chains**, so no longer than there are layers. -/
theorem path_le_layers (hg : g.Sound n ops) (ho : ∀ o ∈ ops, ∀ q ∈ o.qubits, q < n)
    (h : Graph.Path g q j k) : k ≤ layers n ops := by
  cases h with
  | refl => exact Nat.zero_le _
  | cons hj hre =>
    obtain ⟨m, r, hr, -, rfl⟩ := hg _ _ hj
    obtain ⟨o, hm, hr⟩ := exists_of_mem_qubitsAt hr
    obtain ⟨s, ⟨hs, hl, ha⟩, rfl⟩ := exists_chain_of_path hg ho hre m o rfl hm (ne_nil_of_mem hr)
    exact (isGreatest_layers ho).2 ⟨o :: s, ⟨hs.trans (drop_sublist m ops), hl, ha⟩, rfl⟩

/-- **There are paths as long as the layers.** -/
theorem exists_path_layering (hg : g.Linked n ops) (hop : ∀ o ∈ ops, ∀ q ∈ o.qubits, q < n)
    (hq : q < n) : ∃ p < n, ∃ k, layering ops q ≤ k ∧ Graph.Path g p (last n ops q) k := by
  induction ops using reverseRecOn generalizing q with
  | nil => exact ⟨q, hq, 0, le_rfl, .refl q⟩
  | append_singleton ops o ih =>
    have hg' : g.Linked n ops := fun i j h => hg i j ((follows_append n ops o i j).mpr (.inl h))
    have hop' : ∀ o ∈ ops, ∀ q ∈ o.qubits, q < n := fun p hp => hop p (mem_append_left _ hp)
    rw [layering_append, last_append]
    by_cases ho : q ∈ o.qubits
    · obtain ⟨r, hr, hpl⟩ := exists_place_eq (layering ops) ho
      obtain ⟨p, hp, k, hk, hpa⟩ := ih hg' hop' (hop o (by simp) r hr)
      obtain ⟨k', hk', he⟩ := hg _ _ ((follows_append n ops o _ _).mpr (.inr ⟨rfl, r, hr, rfl⟩))
      refine ⟨p, hp, k + k', by omega, ?_⟩
      rw [if_pos ho]
      exact hpa.trans he
    · rw [place, if_neg ho, if_neg ho]; exact ih hg' hop' hq

end QuantumCircuits.Dag
