import QuantumCircuits.Proofs.Operation.Plans
import QuantumCircuits.Dag.Circuit

/-!
# Dag — Graph

Graphs whose edges lead to later nodes (`Graph.Ordered`).  In such a graph a comparison of nodes always comes
to an end (`Graph.exists_memberAt`), and so does the search for the depth of a node, which is the length
of the longest path from there (`Graph.depthAt_spec`).

A new edge is lost if the set of children has a node that is taken for the child: one of the same name, and
both without children of their own (`Graph.connect_spec`).
-/

namespace QuantumCircuits

open List Change

variable {k : ℕ} {ks : List ℕ}

/-! ### The largest of some numbers -/

lemma foldl_max_le_iff (ks : List ℕ) (a m : ℕ) : ks.foldl max a ≤ m ↔ a ≤ m ∧ ∀ k ∈ ks, k ≤ m := by
  induction ks generalizing a with
  | nil => simp
  | cons k ks ih => simp [ih, and_assoc]

lemma le_foldl_max (hk : k ∈ ks) : k ≤ ks.foldl max 0 := ((foldl_max_le_iff ks 0 _).mp le_rfl).2 k hk

lemma foldl_max_mem (ks : List ℕ) (a : ℕ) : ks.foldl max a = a ∨ ks.foldl max a ∈ ks := by
  induction ks generalizing a with
  | nil => exact .inl rfl
  | cons k ks ih =>
    rw [foldl_cons]
    rcases ih (max a k) with h | h
    · rw [h]
      rcases le_total a k with hl | hl
      · exact .inr (by simp [hl])
      · exact .inl (by simp [hl])
    · exact .inr (mem_cons_of_mem _ h)

lemma Change.exists_mapM {σ β γ : Type} {f : β → Change σ γ} {Inv : σ → Prop} {R : β → γ → Prop}
    {xs : List β} (h : ∀ x ∈ xs, ∀ s, Inv s → ∃ b s', perform (f x) s = (.ok b, s') ∧ R x b ∧ Inv s') {s : σ}
    (hs : Inv s) : ∃ bs s', perform (xs.mapM f) s = (.ok bs, s') ∧ Forall₂ R xs bs ∧ Inv s' := by
  induction xs generalizing s with
  | nil => exact ⟨[], s, rfl, .nil, hs⟩
  | cons x xs ih =>
    obtain ⟨hx, hxs⟩ := forall_mem_cons.mp h
    obtain ⟨b, s₁, hb, hR, hs₁⟩ := hx s hs
    obtain ⟨bs, s', hbs, hRs, hs'⟩ := ih hxs hs₁
    refine ⟨b :: bs, s', ?_, .cons hR hRs, hs'⟩
    rw [mapM_cons, perform_bind_ok hb, perform_bind_ok hbs]
    rfl

namespace Dag.Graph

variable {g g₀ : Graph}
variable {i j : ℕ} {set : List ℕ}

lemma node_setIfInBounds (g : Graph) (i j : ℕ) (a : Node) :
    node (g.setIfInBounds i a) j = if i = j ∧ i < g.size then a else node g j := by
  by_cases hij : i = j
  · subst hij
    by_cases hi : i < g.size <;> simp [node, hi]
  · simp [node, Array.getElem?_setIfInBounds_ne hij, hij]

def Ordered (g : Graph) : Prop := ∀ i, ∀ j ∈ (g.node i).children, i < j ∧ j < g.size

/-- A way down from a node to another, with the number of edges. -/
inductive Path (g : Graph) : ℕ → ℕ → ℕ → Prop where
  | refl (i : ℕ) : Path g i i 0
  | cons {i j l k : ℕ} : j ∈ (g.node i).children → Path g j l k → Path g i l (k + 1)

lemma Path.trans {l a b : ℕ} (h : Path g i j a) (h' : Path g j l b) : Path g i l (a + b) := by
  induction h with
  | refl => rwa [Nat.zero_add]
  | @cons _ _ _ k hj _ ih =>
    rw [Nat.add_right_comm]
    exact .cons hj (ih h')

lemma Path.mono (hch : ∀ i, (g₀.node i).children ⊆ (g.node i).children) (h : Path g₀ i j k) : Path g i j k := by
  induction h with
  | refl => exact .refl _
  | cons hj _ ih => exact .cons (hch _ hj) ih

/-! ### Comparing nodes -/

lemma exists_memberAt_of {d : ℕ} (h : ∀ j ∈ set, ∃ b, equalAt g d j i = .ok b) :
    ∃ b, memberAt g d i set = .ok b := by
  induction set with
  | nil => exact ⟨false, by rw [memberAt]⟩
  | cons j set ih =>
    obtain ⟨⟨b', hb'⟩, hs⟩ := forall_mem_cons.mp h
    obtain ⟨b, hb⟩ := ih hs
    rw [memberAt, hb, hb']
    split
    · exact ⟨true, rfl⟩
    · split
      · cases b' <;> exact ⟨_, rfl⟩
      · exact ⟨b, rfl⟩

/-- **A comparison comes to an end**: with each look at children the nodes are later ones. -/
theorem exists_equalAt (h : g.Ordered) : ∀ d i j, i < g.size → j < g.size → g.size ≤ d + i → g.size ≤ d + j →
    ∃ b, equalAt g d i j = .ok b := by
  intro d
  induction d with
  | zero => intro i j hi _ hd; omega
  | succ d ih =>
    intro i j hi hj hdi hdj
    have hin : ∀ ks, ks ⊆ (g.node i).children → ∃ b, includedAt g d ks (g.node j).children = .ok b := by
      intro ks hks
      induction ks with
      | nil => exact ⟨true, by rw [includedAt]⟩
      | cons k ks ihks =>
        obtain ⟨hk, hr⟩ := cons_subset.mp hks
        obtain ⟨b, hb⟩ := ihks hr
        obtain ⟨hik, hks⟩ := h i k hk
        obtain ⟨b', hb'⟩ := exists_memberAt_of fun l hl => by
          obtain ⟨hjl, hls⟩ := h j l hl
          exact ih l k hls hks (by omega) (by omega)
        rw [includedAt, hb, hb']
        cases b' <;> exact ⟨_, rfl⟩
    rw [equalAt]
    split
    · exact hin _ (Subset.refl _)
    · exact ⟨false, rfl⟩

lemma exists_memberAt (h : g.Ordered) (hi : i < g.size) (hs : ∀ j ∈ set, j < g.size) :
    ∃ b, memberAt g g.bound i set = .ok b :=
  exists_memberAt_of fun j hj =>
    exists_equalAt h g.bound j i (hs j hj) hi (by simp [bound]; omega) (by simp [bound]; omega)

/-- The node is taken for another one that has no children. -/
def Passes (g : Graph) (j i : ℕ) : Prop := (g.node j).name = (g.node i).name ∧ (g.node j).children = []

instance (g : Graph) (j i : ℕ) : Decidable (g.Passes j i) := inferInstanceAs (Decidable (_ ∧ _))

lemma memberAt_leaf (hi : (g.node i).children = []) (d : ℕ) (set : List ℕ) :
    ∃ b, memberAt g (d + 1) i set = .ok b ∧ (b = true ↔ ∃ j ∈ set, j = i ∨ g.Passes j i) := by
  induction set with
  | nil => exact ⟨false, by rw [memberAt], by simp⟩
  | cons j set ih =>
    obtain ⟨b, hb, hif⟩ := ih
    have he : equalAt g (d + 1) j i = .ok (decide (g.Passes j i)) := by
      rw [equalAt, hi]
      by_cases hp : g.Passes j i
      · simp [hp, hp.1, hp.2, includedAt]
      · have hco : ¬ ((g.node j).name == (g.node i).name &&
            (g.node j).children.length == ([] : List ℕ).length) = true := by
          simpa [Passes] using hp
        simp only [hco, hp]
        rfl
    rw [memberAt, hb, he]
    by_cases hij : j = i
    · exact ⟨true, by simp [hij], by simp [hij]⟩
    · by_cases hp : g.Passes j i
      · exact ⟨true, by simp [Ne.symm hij, hp, hp.1.symm, bind, Except.bind], by simp [hp]⟩
      · refine ⟨b, ?_, by simp [hif, hij, hp]⟩
        simp [Ne.symm hij, hp, bind, Except.bind]

/-! ### New edges -/

/-- The graph with the children of a node exchanged. -/
def withChildren (g : Graph) (i : ℕ) (children : List ℕ) : Graph := g.setIfInBounds i { g.node i with children }

/-- The graph with the parents of a node exchanged. -/
def withParents (g : Graph) (i : ℕ) (parents : List ℕ) : Graph := g.setIfInBounds i { g.node i with parents }

lemma node_modified (hi : i < g.size) (f : Node → Node) (k : ℕ) :
    node (g.setIfInBounds i (f (g.node i))) k = if i = k then f (g.node k) else g.node k := by
  rw [node_setIfInBounds]
  by_cases hk : i = k
  · subst hk; simp [hi]
  · simp [hk]

lemma node_withChildren (hi : i < g.size) (cs : List ℕ) (k : ℕ) :
    (g.withChildren i cs).node k = if i = k then { g.node k with children := cs } else g.node k :=
  node_modified hi (fun a => { a with children := cs }) k

lemma node_withParents (hi : i < g.size) (ps : List ℕ) (k : ℕ) :
    (g.withParents i ps).node k = if i = k then { g.node k with parents := ps } else g.node k :=
  node_modified hi (fun a => { a with parents := ps }) k

lemma size_withChildren (g : Graph) (i : ℕ) (cs : List ℕ) : (g.withChildren i cs).size = g.size :=
  Array.size_setIfInBounds

lemma size_withParents (g : Graph) (i : ℕ) (ps : List ℕ) : (g.withParents i ps).size = g.size :=
  Array.size_setIfInBounds

/-- **A new edge** to a node without children.  It is there afterwards unless another child passes for the
node; no other edge changes. -/
theorem connect_spec (h : g.Ordered) (hij : i < j) (hj : j < g.size)
    (hle : (g.node j).children = []) (hpa : ∀ p ∈ (g.node j).parents, p < g.size)
    (hd : ∀ k, (g.node k).depth = none) :
    ∃ g', perform (connect i j) g = (.ok (), g') ∧ g'.size = g.size ∧
      (∀ k, (g'.node k).name = (g.node k).name ∧ (g'.node k).depth = none) ∧
      (∀ p ∈ (g'.node j).parents, p < g.size) ∧
      ∃ cs, (∀ k, (g'.node k).children = if i = k then cs else (g.node k).children) ∧
        ((∃ k ∈ (g.node i).children, k = j ∨ g.Passes k j) ∧ cs = (g.node i).children ∨
          j ∉ (g.node i).children ∧ cs = (g.node i).children ++ [j]) := by
  have hi := hij.trans hj
  obtain ⟨b, hb, hif⟩ := memberAt_leaf hle g.size (g.node i).children
  obtain ⟨cs, hcs⟩ : ∃ cs, cs = if b then (g.node i).children else (g.node i).children ++ [j] := ⟨_, rfl⟩
  have hla : ∀ k ∈ cs, i < k ∧ k < g.size := by
    subst hcs
    cases b with
    | true => exact h i
    | false => simpa [or_imp, forall_and, hij, hj] using ⟨fun k hk => (h i k hk).1, fun k hk => (h i k hk).2⟩
  have ho : (g.withChildren i cs).Ordered := by
    intro k l hl
    rw [size_withChildren]
    rw [node_withChildren hi] at hl
    split at hl
    · rename_i hik
      exact hik ▸ hla l hl
    · exact h k l hl
  have hs : ((g.withChildren i cs).node j).parents = (g.node j).parents := by
    rw [node_withChildren hi, if_neg hij.ne]
  obtain ⟨b', hb'⟩ := exists_memberAt ho (by rwa [size_withChildren])
    (by rwa [hs, size_withChildren] : ∀ p ∈ ((g.withChildren i cs).node j).parents, p < _)
  obtain ⟨ps, hps⟩ : ∃ ps, ps = if b' then ((g.withChildren i cs).node j).parents
      else ((g.withChildren i cs).node j).parents ++ [i] := ⟨_, rfl⟩
  have hn : ∀ k, ((g.withChildren i cs).withParents j ps).node k =
      if j = k then { (g.withChildren i cs).node k with parents := ps } else (g.withChildren i cs).node k :=
    node_withParents (by rwa [size_withChildren]) ps
  have hfi : ∀ k, (((g.withChildren i cs).withParents j ps).node k).name = (g.node k).name ∧
      (((g.withChildren i cs).withParents j ps).node k).depth = none ∧
      (((g.withChildren i cs).withParents j ps).node k).children =
        if i = k then cs else (g.node k).children := by
    intro k
    rw [hn, node_withChildren hi]
    by_cases hik : i = k <;> by_cases hjk : j = k <;> simp [hik, hjk, hd]
  refine ⟨_, ?_, by rw [size_withParents, size_withChildren], fun k => ⟨(hfi k).1, (hfi k).2.1⟩, ?_,
    cs, fun k => (hfi k).2.2, ?_⟩
  · have hin : g.insert j (g.node i).children = .ok cs := by rw [insert, bound, hb, hcs]; rfl
    have hin' : (g.withChildren i cs).insert i ((g.withChildren i cs).node j).parents = .ok ps := by
      rw [insert, hb', hps]; rfl
    have hno := (hfi i).2.1
    rw [connect, perform_get_bind, hin, perform_ofOutcome_bind,
      perform_bind_ok (t := g.withChildren i cs) (perform_modify _ g),
      perform_get_bind, hin',
      perform_ofOutcome_bind,
      perform_bind_ok (t := (g.withChildren i cs).withParents j ps) (perform_modify _ (g.withChildren i cs)),
      perform_get_bind, hno]
    rfl
  · rw [hn, if_pos rfl, hps, hs]
    intro p hp
    split at hp
    · exact hpa p hp
    · rcases mem_append.mp hp with hp | hp
      · exact hpa p hp
      · exact mem_singleton.mp hp ▸ hi
  · cases b with
    | true => exact .inl ⟨hif.mp rfl, hcs⟩
    | false => exact .inr ⟨fun hm => Bool.false_ne_true (hif.mpr ⟨j, hm, .inl rfl⟩), hcs⟩

/-! ### Depths -/

/-- The length of the longest path from a node. -/
def IsDepth (g : Graph) (i k : ℕ) : Prop := IsGreatest {k | ∃ j, Path g i j k} k

lemma isDepth_leaf (hi : (g.node i).children = []) : g.IsDepth i 0 := by
  refine ⟨⟨i, .refl i⟩, ?_⟩
  rintro k ⟨j, hp⟩
  cases hp with
  | refl => exact le_rfl
  | cons hj _ =>
    rw [hi] at hj
    cases hj

lemma isDepth_of_children (hi : (g.node i).children ≠ [])
    (hks : Forall₂ g.IsDepth (g.node i).children ks) : g.IsDepth i (ks.foldl max 0 + 1) := by
  have hpa := exists_of_forall₂ hks
  have hd := exists_of_forall₂ hks.flip
  have hme : ks.foldl max 0 ∈ ks := by
    obtain ⟨j, hj⟩ := exists_mem_of_ne_nil _ hi
    obtain ⟨k, hk, -⟩ := hd j hj
    rcases foldl_max_mem ks 0 with hze | hme
    · have hl := le_foldl_max hk
      rw [hze] at hl ⊢
      exact Nat.le_zero.mp hl ▸ hk
    · exact hme
  constructor
  · obtain ⟨j, hj, ⟨l, hp⟩, -⟩ := hpa _ hme; exact ⟨l, .cons hj hp⟩
  · rintro m ⟨l, hp⟩
    cases hp with
    | refl => exact Nat.zero_le _
    | cons hj hr =>
      obtain ⟨k, hk, -, hg⟩ := hd _ hj
      exact Nat.succ_le_succ ((hg ⟨l, hr⟩).trans (le_foldl_max hk))

/-- The graph, with depths of some nodes noted. -/
def Measured (g₀ g : Graph) : Prop :=
  g.size = g₀.size ∧ ∀ i, (g.node i).children = (g₀.node i).children ∧ ∀ k, (g.node i).depth = some k → g₀.IsDepth i k

lemma Measured.note (h : Measured g₀ g) (hk : g₀.IsDepth i k) :
    Measured g₀ (g.setIfInBounds i { g.node i with depth := some k }) := by
  obtain ⟨hs, hn⟩ := h
  refine ⟨by rwa [Array.size_setIfInBounds], fun j => ?_⟩
  rw [node_setIfInBounds]
  split
  · rename_i hi
    obtain ⟨rfl, -⟩ := hi
    exact ⟨(hn i).1, fun k' hk' => Option.some.inj hk' ▸ hk⟩
  · exact hn j

/-- **The search for the depth** comes to an end and finds it. -/
theorem depthAt_spec (h : g₀.Ordered) : ∀ d i g, Measured g₀ g → i < g₀.size → g₀.size ≤ d + i →
    ∃ k g', perform (depthAt d i) g = (.ok k, g') ∧ g₀.IsDepth i k ∧ Measured g₀ g' := by
  intro d
  induction d with
  | zero => intro i g _ hi hd; omega
  | succ d ih =>
    intro i g hg hi hd
    obtain ⟨hch, hn⟩ := hg.2 i
    rw [depthAt, perform_get_bind]
    by_cases he : (g.node i).children = []
    · have hze := isDepth_leaf (hch ▸ he : (g₀.node i).children = [])
      refine ⟨0, _, ?_, hze, hg.note hze⟩
      simp only [he, isEmpty_nil, if_true]
      rfl
    · have hno : (g.node i).children.isEmpty = false := by simpa using he
      cases hde : (g.node i).depth with
      | some k =>
        refine ⟨k, g, ?_, hn k hde, hg⟩
        simp only [hno, hde]
        rfl
      | none =>
        have hbe : ∀ j ∈ (g.node i).children, ∀ g, Measured g₀ g →
            ∃ k g', perform (depthAt d j) g = (.ok k, g') ∧ g₀.IsDepth j k ∧ Measured g₀ g' := by
          intro j hj g hg
          obtain ⟨hl, hs⟩ := h i j (hch ▸ hj)
          exact ih j g hg hs (by omega)
        obtain ⟨ks, g₁, hm, hk, hg₁⟩ := exists_mapM hbe hg
        have hi' := isDepth_of_children (hch ▸ he) (hch ▸ hk)
        refine ⟨_, _, ?_, hi', hg₁.note hi'⟩
        simp only [hno, hde, Bool.false_eq_true, if_false]
        rw [perform_bind_ok hm]
        rfl

end Dag.Graph

end QuantumCircuits
