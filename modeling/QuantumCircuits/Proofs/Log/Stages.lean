import QuantumCircuits.Proofs.Log.Update

/-!
# Log — Stages

Decomposition in stages.  A log is replaced by its definitions a number of times and then replayed, so
the definitions that the next stage finds are new ones, made from checked angles.  Where every angle that
is taken for zero is zero (`Operation.Exact`), checking changes nothing at any depth:

* an operation is logged as it is, and the definitions of its entry come back in the replay;
* what is left out of a log does nothing (`Operation.run_inner`).

So `a` layers and then `b` layers are `a + b` layers, with the same calls in the log, and no stage changes
the operator of the circuit (`Circuit.decompose_in_stages`).  A decomposition is a circuit of its own: the
one that it comes from stays what it was.
-/

namespace QuantumCircuits

open List Operation Circuit Entry

variable {n : ℕ}

/-! ### Layers of a list -/

section Stage

variable {β : Type*} {f : β → List β} {xs : List β}

/-- Every member of a list is replaced by others, a number of times. -/
def stage (f : β → List β) (k : ℕ) : List β → List β := (flatMap f)^[k]

lemma stage_stage (f : β → List β) (a b : ℕ) (xs : List β) : stage f b (stage f a xs) = stage f (a + b) xs := by
  rw [stage, stage, stage, Nat.add_comm, Function.iterate_add_apply]

lemma stage_of_fixed (h : ∀ x ∈ xs, f x = [x]) (k : ℕ) : stage f k xs = xs := by
  have hl : xs.flatMap f = xs := (flatMap_congr h).trans (flatMap_singleton' xs)
  exact Function.iterate_fixed hl k

end Stage

/-! ### Operations with exact angles -/

namespace Operation

variable {o : Operation} {d : ℕ}

/-- The operation is met, at some depth, while another one is carried out. -/
inductive Meets : Operation → Operation → Prop where
  | self (o : Operation) : Meets o o
  | part {o p q : Operation} : o.primitives? = none → p ∈ o.parts → Meets p q → Meets o q

/-- Every angle that is taken for zero while the operation is carried out is zero. -/
def Exact (o : Operation) : Prop :=
  ∀ p, o.Meets p → p.gate.isTransparent = false → ∀ x ∈ p.angles, isZeroAngle x = true → x = 0

lemma exact_of_parts (ha : ∀ x ∈ o.angles, isZeroAngle x = true → x = 0)
    (hpa : o.primitives? = none → ∀ p ∈ o.parts, p.Exact) : o.Exact := by
  intro p hp
  cases hp with
  | self => exact fun _ => ha
  | part hn hq hp => exact hpa hn _ hq p hp

namespace Exact

variable (h : o.Exact)
variable {p : Operation}
include h

lemma part (hn : o.primitives? = none) (hp : p ∈ o.parts) : p.Exact := fun q hq => h q (.part hn hp hq)

lemma snap_eq (hg : o.gate.isTransparent = false) {x : ℝ} (hx : x ∈ o.angles) : snap x = x := by
  rw [snap]
  split
  · next hze => exact (h o (.self o) hg x hx hze).symm
  · rfl

lemma of_mem_keptAt (hp : p ∈ keptAt d o) : p.Exact := by
  induction d generalizing o with
  | zero => cases hp
  | succ d ih =>
    rw [keptAt] at hp
    split at hp
    · rwa [mem_singleton.mp hp]
    · split at hp
      · cases hp
      · next hpr =>
        obtain ⟨q, hq, hp⟩ := mem_flatMap.mp hp
        exact ih (h.part (by simpa using hpr) hq) hp

lemma of_mem_inner (hp : p ∈ o.inner) : p.Exact := by
  rw [inner] at hp
  split at hp
  · cases hp
  · next hpr =>
    obtain ⟨q, hq, hp⟩ := mem_flatMap.mp hp
    exact (h.part (by simpa using hpr) hq).of_mem_keptAt hp

lemma snapped_eq (hk : o.isKept = true) : o.snapped = o := by
  have hg : o.gate.isTransparent = false := by
    simp only [isKept, Bool.and_eq_true, Bool.not_eq_true'] at hk; exact hk.1
  have hm : ∀ xs : List ℝ, (∀ x ∈ xs, x ∈ o.angles) → xs.map snap = xs := fun xs hxs =>
    (map_congr_left fun x hx => h.snap_eq hg (hxs x hx)).trans (map_id xs)
  cases o with
  | identity ts => rfl
  | diagonal zs qs => rfl
  | pauliMultiplexor axis xs cs t => cases hg
  | globalPhase a => rw [snapped, h.snap_eq hg (by simp [angles])]
  | ucr axis xs cs t => rw [snapped, hm xs fun _ hx => hx]
  | of b r ps cs ts =>
    rw [snapped]
    split
    · next hb => rw [hm ps (by simp [angles, hb])]
    · rfl

lemma run_elementary {ps : List (Primitive ℝ)} (hsh : o.Shaped) (hk : o.isKept = false)
    (hp : o.primitives? = some ps) (V : Wave) : run ps V = V := by
  rcases primitives?_cases hsh hp with ⟨theta, phi, lam, ts, rfl, rfl⟩ | ⟨c, t, rfl, -⟩ | ⟨a, rfl, rfl⟩
  · have hze : snap theta = 0 ∧ snap phi = 0 ∧ snap lam = 0 := by
      simpa [isKept, gate, Gate.isTransparent, vanishes, Base.isAngular] using hk
    have hs : ∀ x ∈ [theta, phi, lam], snap x = x := fun x hx =>
      h.snap_eq rfl (by simpa [angles, Base.isAngular] using hx)
    simp only [mem_cons, not_mem_nil, or_false, forall_eq_or_imp, forall_eq] at hs
    obtain ⟨rfl, rfl, rfl⟩ : theta = 0 ∧ phi = 0 ∧ lam = 0 :=
      ⟨hs.1.symm.trans hze.1, hs.2.1.symm.trans hze.2.1, hs.2.2.symm.trans hze.2.2⟩
    have ho : Base.u3.square [0, 0, 0] = 1 := by simp [Base.square_u3, one_eq_square]
    rw [run_primitives? hsh hp, act_plain rfl, ho, selectEach_one]
  · cases hk
  · have hze : snap a = 0 := by simpa [isKept, gate, Gate.isTransparent, vanishes] using hk
    rw [h.snap_eq rfl (by simp [angles])] at hze
    subst hze
    simp [Primitive.act]

end Exact

lemma prims_of_none (ho : o.Valid n) (hn : o.primitives? = none) : o.prims = o.parts.flatMap prims := by
  rw [prims, Recording.maxDepth, primsAt, hn]
  refine flatMap_congr fun p hp => ?_
  have hi := inside_parts ho p hp
  have hd := o.rank_lt_maxDepth
  rw [Recording.maxDepth] at hd
  exact primsAt_eq hi.valid (by have := hi.rank; omega) p.rank_lt_maxDepth

lemma run_flatMap_congr {β : Type*} {xs : List β} {f g : β → List (Primitive ℝ)}
    (h : ∀ x ∈ xs, ∀ V, run (f x) V = run (g x) V) (V : Wave) : run (xs.flatMap f) V = run (xs.flatMap g) V := by
  induction xs generalizing V with
  | nil => rfl
  | cons x xs ih =>
    obtain ⟨hx, hxs⟩ := forall_mem_cons.mp h
    rw [flatMap_cons, flatMap_cons, run_append, run_append, hx, ih hxs]

/-- **What is left out of a log does nothing**: the operations that are kept do what the whole does. -/
theorem run_keptAt (ho : o.Valid n) (h : o.Exact) (hd : o.rank < d) (V : Wave) :
    run ((keptAt d o).flatMap prims) V = run o.prims V := by
  induction d generalizing o V with
  | zero => omega
  | succ d ih =>
    rw [keptAt]
    cases hk : o.isKept with
    | true => simp
    | false =>
      rw [if_neg (by simp)]
      cases hpr : o.primitives? with
      | some ps =>
        have hpi : o.prims = ps := by rw [prims, Recording.maxDepth, primsAt, hpr]
        rw [hpi, h.run_elementary ho.shaped hk hpr]
        rfl
      | none =>
        rw [if_neg (by simp), prims_of_none ho hpr, flatMap_assoc]
        refine run_flatMap_congr (fun p hp W => ?_) V
        have hi := inside_parts ho p hp
        exact ih hi.valid (h.part hpr hp) (by have := hi.rank; omega) W

lemma run_inner (ho : o.Valid n) (h : o.Exact) (hn : o.primitives? = none)
    (V : Wave) : run (o.inner.flatMap prims) V = run o.prims V := by
  rw [inner, hn, prims_of_none ho hn]
  refine (congrArg (run · V) flatMap_assoc).trans (run_flatMap_congr (fun p hp W => ?_) V)
  exact run_keptAt (inside_parts ho p hp).valid (h.part hn hp) p.rank_lt_maxDepth W

end Operation

/-! ### Stages of items -/

namespace Item

/-- Every angle that is taken for zero while the item is carried out is zero. -/
def Exact : Item → Prop
  | .gate o => o.Exact
  | .measure _ | .reset _ => True

/-- What stands in the place of an item one layer further. -/
noncomputable def expanded : Item → List Item
  | .gate o => if o.inner = [] then [.gate o] else o.inner.map .gate
  | i => [i]

variable {e : Entry ℝ} {i : Item}

lemma Exact.expanded (h : i.Exact) : ∀ j ∈ i.expanded, j.Exact := by
  cases i with
  | gate o =>
    rw [expanded]
    split
    · exact forall_mem_singleton.mpr h
    · intro j hj; obtain ⟨p, hp, rfl⟩ := mem_map.mp hj; exact Exact.of_mem_inner h hp
  | measure qs | reset qs => exact forall_mem_singleton.mpr trivial

lemma Exact.of_mem_kept (h : i.Exact) : ∀ j ∈ i.kept, j.Exact := by
  cases i with
  | gate o =>
    intro j hj
    obtain ⟨p, hp, rfl⟩ := mem_map.mp hj
    exact Exact.of_mem_keptAt h hp
  | measure qs | reset qs => exact forall_mem_singleton.mpr trivial

namespace Stands

variable (h : Stands n e i)
include h

lemma snapped_eq (he : i.Exact) : i.snapped = i := by
  cases i with
  | gate o =>
    obtain ⟨-, hk, -, -⟩ := h
    exact congrArg gate (Exact.snapped_eq he hk)
  | measure qs | reset qs => rfl

lemma expanded : Forall₂ (Stands n) e.expanded i.expanded := by
  cases i with
  | gate o =>
    have hs : Forall₂ (Stands n) [e] [gate o] := .cons h .nil
    obtain ⟨hv, hk, hre, hes⟩ := h
    have hfo := unfoldAll_iff.mp hes
    rw [expanded]
    generalize o.inner = os at hfo
    cases hfo with
    | nil => exact hs
    | cons he hr => exact forall₂_map_right_iff.mpr (.cons he hr)
  | measure qs | reset qs =>
    obtain ⟨x, k, rfl, hx⟩ := h
    exact .cons ⟨x, k, rfl, hx⟩ .nil

lemma expanded_of_isBare (hba : e.isBare = true) : i.expanded = [i] := by
  cases i with
  | gate o =>
    rw [Unfolds.isBare h, List.isEmpty_iff] at hba
    rw [Item.expanded, if_pos hba]
  | measure qs | reset qs => rfl

lemma within : ∀ p ∈ i.prims, p.Within n := by
  have hl : ∀ {x : Operand ℝ} {qs : List ℕ}, x.IsChecked n qs → ∀ q ∈ qs, q < n := by
    intro x qs hx; exact forall_mem_of_forall₂ hx.indices.flip fun _ _ _ hq => hq.lt
  cases i with
  | gate o =>
    obtain ⟨hv, -, -, -⟩ := h
    exact within_primsAt hv _
  | measure qs | reset qs =>
    obtain ⟨x, k, rfl, hx, -⟩ := h
    intro p hp
    obtain ⟨q, hq, rfl⟩ := mem_map.mp hp
    exact hl hx q hq

/-- **A layer changes nothing of what is done.** -/
theorem run_expanded (he : i.Exact) (V : Wave) : run (i.expanded.flatMap Item.prims) V = run i.prims V := by
  cases i with
  | gate o =>
    obtain ⟨hv, -, -, -⟩ := h
    rw [Item.expanded]
    split
    · simp
    · next hi =>
      have hn : o.primitives? = none := by
        by_contra hs
        exact hi (inner_of_primitives? (Option.isSome_iff_ne_none.mpr hs))
      rw [flatMap_prims_gates]
      exact run_inner hv he hn V
  | measure qs | reset qs => simp [Item.expanded]

end Stands

end Item

/-! ### Stages of logs -/

namespace Entry

variable {α : Type} {log : List (Entry α)}

lemma layers_eq (h : ∀ e ∈ log, e.Whole) (k : ℕ) : layers k log = .ok (stage expanded k log) := by
  induction k generalizing log with
  | zero => rfl
  | succ k ih =>
    rw [layers, layer_eq h]
    exact ih (whole_expanded h)

lemma Whole.expanded_of_depth {e : Entry α} (h : e.Whole) (hd : e.depth ≤ 1) : e.expanded = [e] := by
  obtain ⟨g, es, -, hde, -⟩ := h.cases
  rw [depth_eq, hde, definitionDepth] at hd
  cases es with
  | nil => exact (leaves_of_empty hde).2
  | cons x xs =>
    rw [depths, depth_eq] at hd
    omega

lemma expanded_of_mem_stage {k : ℕ} (h : ∀ e ∈ log, e.Whole) (hd : ∀ e ∈ log, e.depth ≤ k + 1) :
    ∀ e ∈ stage expanded k log, e.expanded = [e] := by
  induction k generalizing log with
  | zero => exact fun e he => (h e he).expanded_of_depth (hd e he)
  | succ k ih =>
    refine ih (whole_expanded h) ?_
    rw [forall_mem_flatMap]
    exact fun e he => depth_expanded (h e he) (by omega) (hd e he)

lemma stage_min (h : ∀ e ∈ log, e.Whole) (k : ℕ) : stage expanded (min k (depths log)) log = stage expanded k log := by
  rcases Nat.le_total k (depths log) with hk | hk
  · rw [Nat.min_eq_left hk]
  · obtain ⟨m, rfl⟩ := Nat.exists_eq_add_of_le hk
    have hfl := expanded_of_mem_stage h fun e he =>
      (depths_le_iff.mp le_rfl e he).trans (Nat.le_succ (depths log))
    rw [Nat.min_eq_right hk, ← stage_stage, stage_of_fixed hfl]

end Entry

/-! ### Stages of circuits -/

namespace Circuit

open Real
open Item (Stands)

variable {c : Circuit ℝ} {is : List Item}
variable {log : List (Entry ℝ)}

lemma stands_stage (h : Forall₂ (Stands n) log is) (k : ℕ) :
    Forall₂ (Stands n) (stage Entry.expanded k log) (stage Item.expanded k is) := by
  induction k generalizing log is with
  | zero => exact h
  | succ k ih =>
    refine ih ?_
    induction h with
    | nil => exact .nil
    | cons he _ ih => exact rel_append he.expanded ih

lemma exists_stands (h : Forall₂ (Stands n) log is) : ∀ i ∈ is, ∃ e ∈ log, Stands n e i := by
  have hfl : Forall₂ (fun i e => Stands n e i) is log := h.flip
  exact forall_mem_of_forall₂ hfl fun i e he hs => ⟨e, he, hs⟩

lemma stage_of_bare (h : Forall₂ (Stands n) log is)
    (hba : log.all Entry.isBare = true) (k : ℕ) : stage Item.expanded k is = is := by
  refine stage_of_fixed (fun i hi => ?_) k
  obtain ⟨e, he, hs⟩ := exists_stands h i hi
  exact hs.expanded_of_isBare (all_eq_true.mp hba e he)

lemma stage_spec (h : Forall₂ (Stands n) log is) (he : ∀ i ∈ is, i.Exact)
    (k : ℕ) : (∀ i ∈ stage Item.expanded k is, i.Exact) ∧
      ∀ V, run ((stage Item.expanded k is).flatMap Item.prims) V = run (is.flatMap Item.prims) V := by
  induction k generalizing log is with
  | zero => exact ⟨he, fun _ => rfl⟩
  | succ k ih =>
    have hn : ∀ i ∈ is.flatMap Item.expanded, i.Exact := by
      rw [forall_mem_flatMap]; exact fun i hi => (he i hi).expanded
    have hl : ∀ V, run ((is.flatMap Item.expanded).flatMap Item.prims) V = run (is.flatMap Item.prims) V := by
      rw [flatMap_assoc]
      refine run_flatMap_congr fun i hi W => ?_
      obtain ⟨e, -, hs⟩ := exists_stands h i hi
      exact hs.run_expanded (he i hi) W
    obtain ⟨hla, hr⟩ := ih (stands_stage h 1) hn
    exact ⟨hla, fun V => (hr V).trans (hl V)⟩

lemma decompose_stage (h : c.Lists n is) (hba : c.log.toList.all isBare = false) (k : ℕ) :
    c.decompose (.int k) false = (do
      let _ ← (replay (stage Entry.expanded k c.log.toList) c.fresh).2.2
      .ok (replay (stage Entry.expanded k c.log.toList) c.fresh).2.1) := by
  have hw := whole_of_stands h.log
  have ha : (c.log.toList.map isBare).all id = false := by rwa [all_map]
  have hl : layers (min ((k : ℤ)).toNat (depths c.log.toList)) c.log.toList =
      .ok (stage expanded k c.log.toList) := by
    rw [layers_eq hw, Int.toNat_natCast, stage_min hw]
  simp only [decompose, mapM_isElementary hw, bind, Except.bind, ha, Bool.false_eq_true, if_false,
    Operand.toInt?, hl]

/-- The circuit does what the items of its log do, and their angles are exact. -/
structure Tracks (n : ℕ) (c : Circuit ℝ) (is : List Item) : Prop extends c.Lists n is where
  exact : ∀ i ∈ is, i.Exact
  within : ∀ p ∈ c.steps, p.Within n
  run : ∀ V, QuantumCircuits.run c.steps V = QuantumCircuits.run (is.flatMap Item.prims) V

lemma Made.within (h : Made n c is) : ∀ p ∈ c.steps, p.Within n := by
  obtain ⟨hl, hs⟩ := h.spec
  rw [hs, forall_mem_flatMap]
  intro i hi
  cases i with
  | gate o => exact within_primsAt (h.valid hi) _
  | measure qs | reset qs =>
    obtain ⟨e, -, hst⟩ := exists_stands hl.log _ (mem_flatMap.mpr ⟨_, hi, mem_singleton_self _⟩)
    exact hst.within

lemma Made.tracks (h : Made n c is) (he : ∀ i ∈ is, i.Exact) : c.Tracks n (is.flatMap Item.kept) := by
  obtain ⟨hl, hs⟩ := h.spec
  refine ⟨hl, ?_, h.within, fun V => ?_⟩
  · rw [forall_mem_flatMap]; exact fun i hi => (he i hi).of_mem_kept
  · rw [hs, flatMap_assoc]
    refine (run_flatMap_congr (fun i hi W => ?_) V).symm
    cases i with
    | gate o =>
      rw [Item.kept, Item.flatMap_prims_gates]
      exact run_keptAt (h.valid hi) (he _ hi) o.rank_lt_maxDepth W
    | measure qs | reset qs => rw [Item.kept, flatMap_singleton]

/-- **One stage**: the circuit is decomposed, tracks the items some layers further, and has the operator
that it had. -/
theorem Tracks.exists_decompose (h : c.Tracks n is) (k : ℕ) :
    ∃ c', c.decompose (.int k) false = .ok c' ∧ c'.Tracks n (stage Item.expanded k is) ∧
      c'.operator n = c.operator n := by
  rcases hba : c.log.toList.all Entry.isBare with _ | _
  · obtain ⟨g, ho⟩ := h.isOpen
    have hs := stands_stage h.log k
    obtain ⟨he, hr⟩ := stage_spec h.log h.exact k
    obtain ⟨c', hre, ho', hse, hl⟩ := ho.replay_stands hs
    have hsn : ∀ i ∈ stage Item.expanded k is, i.snapped = i := fun i hi => by
      obtain ⟨e, -, hs⟩ := exists_stands hs i hi; exact hs.snapped_eq (he i hi)
    have hw : ∀ p ∈ (stage Item.expanded k is).flatMap Item.prims, p.Within n := by
      rw [List.forall_mem_flatMap]
      intro i hi
      obtain ⟨e, -, hs⟩ := exists_stands hs i hi
      exact hs.within
    rw [List.flatMap_congr fun i hi => congrArg Item.prims (hsn i hi)] at hse
    rw [(List.map_congr_left hsn).trans (List.map_id _)] at hl
    have ht : c'.Tracks n (stage Item.expanded k is) := ⟨⟨⟨_, ho'⟩, hl⟩, he, hse ▸ hw, fun V => by rw [hse]⟩
    refine ⟨c', ?_, ht, ?_⟩
    · rw [decompose_stage h.toLists hba, hre]; rfl
    · rw [operator_eq_matrixOf ho'.numQubits ht.within, operator_eq_matrixOf ho.numQubits h.within]
      exact congrArg (matrixOf n) (funext fun V => ((ht.run V).trans (hr V)).trans (h.run V).symm)
  · refine ⟨c, decompose_of_flat h.log _ false hba, ?_, rfl⟩; rwa [stage_of_bare h.log hba]

/-- **Decomposing in stages is decomposing at once.**  Both ways go through and leave the same calls in the
log, with the same definitions, and no stage changes the operator of the circuit. -/
theorem decompose_in_stages (h : Made n c is) (hexact : ∀ i ∈ is, i.Exact) (a b : ℕ) :
    ∃ c₁ c₂ c₃, c.decompose (.int a) false = .ok c₁ ∧ c₁.decompose (.int b) false = .ok c₂ ∧
      c.decompose (.int (a + b : ℕ)) false = .ok c₃ ∧
      List.Forall₂ Entry.SameCall c₂.log.toList c₃.log.toList ∧ c₂.sameLog c₃ = true ∧
      c₁.operator n = c.operator n ∧ c₂.operator n = c.operator n ∧ c₃.operator n = c.operator n := by
  have ht := h.tracks hexact
  obtain ⟨c₁, hc₁, ht₁, ho₁⟩ := ht.exists_decompose a
  obtain ⟨c₂, hc₂, ht₂, ho₂⟩ := ht₁.exists_decompose b
  obtain ⟨c₃, hc₃, ht₃, ho₃⟩ := ht.exists_decompose (a + b)
  rw [stage_stage] at ht₂
  exact ⟨c₁, c₂, c₃, hc₁, hc₂, hc₃, ht₂.toLists.sameCalls ht₃.toLists rfl,
    ht₂.toLists.sameLog ht₃.toLists, ho₁, ho₂.trans ho₁, ho₃⟩

/-- A controlled `Z` in two stages: `H` and a controlled negation, then general gates with an angle that
is zero. -/
theorem decompose_in_stages_cz : ∃ c : Circuit ℝ, Made 2 c [.gate (.of .z .controlled [] [0] [1])] ∧
    (∀ i ∈ [Item.gate (.of .z .controlled [] [0] [1])], i.Exact) ∧
    ∃ c₁ c₂ c₃, c.decompose (.int (1 : ℕ)) false = .ok c₁ ∧ c₁.decompose (.int (1 : ℕ)) false = .ok c₂ ∧
      c.decompose (.int (1 + 1 : ℕ)) false = .ok c₃ ∧
      List.Forall₂ Entry.SameCall c₂.log.toList c₃.log.toList ∧ c₂.sameLog c₃ = true ∧
      c₁.operator 2 = c.operator 2 ∧ c₂.operator 2 = c.operator 2 ∧ c₃.operator 2 = c.operator 2 := by
  have hv : (Operation.of .z .controlled [] [0] [1]).Valid 2 :=
    ⟨⟨rfl, rfl, by simp [Base.onTwo]⟩, by simp [Operation.qubits], by simp [Operation.qubits]⟩
  have ha : ∀ k : ℝ, 1 ≤ k → k ≤ 8 → isZeroAngle (π / k) = false := fun k hk hk' => by
    by_contra hze
    exact (snap_pi_div_ne_zero hk hk').1 (if_pos (by simpa using hze))
  have hg : (Operation.general (π / 2) 0 π [1]).Exact := by
    have hh := ha 2 (by norm_num) (by norm_num)
    have hp := ha 1 (by norm_num) (by norm_num)
    rw [div_one] at hp
    refine Operation.exact_of_parts ?_ (fun hn => by cases hn)
    simp [angles, Base.isAngular, hh, hp]
  have hfl : (cx 0 1).Exact :=
    exact_of_parts (by simp [angles, Base.isAngular]) fun hn => by cases hn
  have ht : (on .h [1]).Exact :=
    exact_of_parts (by simp [angles, Base.isAngular]) fun _ =>
      forall_mem_singleton.mpr hg
  have he : (of .z .controlled [] [0] [1]).Exact := by
    refine exact_of_parts (by simp [angles, Base.isAngular]) fun _ => ?_
    change ∀ p ∈ [Operation.on .h [1], Operation.cx 0 1, Operation.on .h [1]], p.Exact
    simp [ht, hfl]
  obtain ⟨c, hm⟩ := exists_made two_pos (List.forall_mem_singleton.mpr hv)
  have hal : ∀ i ∈ [Item.gate (.of .z .controlled [] [0] [1])], i.Exact := List.forall_mem_singleton.mpr he
  exact ⟨c, hm, hal, decompose_in_stages hm hal 1 1⟩

end Circuit

end QuantumCircuits
