import QuantumCircuits.Proofs.Log.Mapping

/-!
# Row pairs

Gates on pairs of rows that differ in one bit.  `applySelected` runs through the pairs and applies to each the
gate that the bits above select.  The rows are told apart by that bit, the bits below and the bits above
(`rowNumber`), and no row is in two pairs; so a run leaves in each row what the gate of its pair makes of it
(`foldl_pairs`), which is the direct sum of the gates (`applySelected_eq_mul`).  The gates that `disentanglers`
finds for the pairs of a vector move the norm of each pair to its first row (`disentangles_pairs`).  For a gate under
controls the pairs are found label by label (`foldlM_visit`, `applyControlled_applies`).
-/

noncomputable section

namespace QuantumCircuits

variable {β : Type} {m c i j : ℕ}

namespace Mat

variable {f g : ℕ → ℕ → β}

lemma ofFn_congr (h : ∀ r < m, ∀ s < c, f r s = g r s) : ofFn m c f = ofFn m c g := by
  rw [ofFn, ofFn, mk.injEq]
  refine ⟨rfl, rfl, Array.map_congr_left fun k hk => ?_⟩
  have hk : k < c * m := by simpa [mul_comm] using hk
  exact h _ (Nat.div_lt_of_lt_mul hk) _ (Nat.mod_lt k (Nat.pos_of_mul_pos_right (Nat.zero_lt_of_lt hk)))

lemma set_ofFn (hj : j < c) (x : β) :
    (ofFn m c f).set i j x = ofFn m c fun r s => if r = i ∧ s = j then x else f r s := by
  rw [Mat.set, ofFn, ofFn, mk.injEq]
  refine ⟨rfl, rfl, Array.ext (by simp) fun k hk _ => ?_⟩
  have he : i * c + j = k ↔ k / c = i ∧ k % c = j := by
    rw [Nat.div_mod_unique (Nat.zero_lt_of_lt hj), mul_comm, add_comm]
    simp [hj]
  rw [Array.getElem_setIfInBounds (by simpa using hk)]
  simp [he]

end Mat

namespace Disentangle

open Mat

section Pairs

variable [Add β] [Mul β] {f : ℕ → ℕ → β} {r s : ℕ}

/-- Two rows after a gate, and the other rows. -/
def turned [Inhabited β] (G : Mat β) (i j : ℕ) (f : ℕ → ℕ → β) (r s : ℕ) : β :=
  if r = i then G.get 0 0 * f i s + G.get 0 1 * f j s
  else if r = j then G.get 1 0 * f i s + G.get 1 1 * f j s else f r s

variable [Inhabited β] {G : Mat β}

lemma applyToRows_ofFn (hi : i < m) (hj : j < m) (hij : i ≠ j) :
    applyToRows G i j (ofFn m c f) = ofFn m c (turned G i j f) := by
  -- the first `d` columns
  have hd : ∀ d ≤ c, (List.range d).foldl (fun N s =>
      (N.set i s (G.get 0 0 * (ofFn m c f).get i s + G.get 0 1 * (ofFn m c f).get j s)).set j s
        (G.get 1 0 * (ofFn m c f).get i s + G.get 1 1 * (ofFn m c f).get j s)) (ofFn m c f) =
      ofFn m c fun r s => if s < d then turned G i j f r s else f r s := fun d hd => by
    induction d with
    | zero => simp
    | succ d ih =>
      rw [List.range_succ, List.foldl_append, ih (by omega), List.foldl_cons, List.foldl_nil, set_ofFn hd, set_ofFn hd,
        get_ofFn f hi hd, get_ofFn f hj hd]
      refine ofFn_congr fun r _ s _ => ?_
      grind [turned]
  exact (hd c le_rfl).trans (ofFn_congr fun r _ s hs => if_pos hs)

end Pairs

/-! ### Rows that differ in one bit -/

section Selected

variable {σ h l t j : ℕ} (k d : ℕ)

/-- The number of a row without the bit that tells the rows of its pair apart. -/
def pairNumber (σ r : ℕ) : ℕ := r / (2 * σ) * σ + r % σ

lemma two_pow_eq : 2 ^ k * (2 * 2 ^ d) = 2 ^ (k + d + 1) := by ring

/-- The rows by the bit that a gate acts on, the bits below it and the bits above. -/
def rowNumber : (Fin 2 × Fin (2 ^ d)) × Fin (2 ^ k) ≃ Fin (2 ^ (k + d + 1)) :=
  (Equiv.prodComm _ _).trans <| ((Equiv.refl _).prodCongr finProdFinEquiv).trans <|
    finProdFinEquiv.trans (finCongr (two_pow_eq k d))

lemma pairRow_eq (hl : l < σ) : pairRow σ (h * σ + l) = l + 2 * σ * h := by
  have hd : (h * σ + l) / σ = h := by rw [mul_comm, Nat.mul_add_div (by omega), Nat.div_eq_of_lt hl, add_zero]
  rw [pairRow, hd]
  ring

lemma pairNumber_eq (hl : l < σ) (ht : t < 2) :
    (l + σ * t + 2 * σ * h) / (2 * σ) = h ∧ pairNumber σ (l + σ * t + 2 * σ * h) = h * σ + l := by
  have hd := ((Nat.div_mod_unique (d := h) (by omega)).mpr ⟨rfl, show l + σ * t < 2 * σ by nlinarith⟩).1
  have hm : (l + σ * t + 2 * σ * h) % σ = l := by
    rw [show l + σ * t + 2 * σ * h = l + σ * (t + 2 * h) by ring, Nat.add_mul_mod_self_left, Nat.mod_eq_of_lt hl]
  exact ⟨hd, by rw [pairNumber, hd, hm]⟩

lemma rowNumber_zero (l : Fin (2 ^ d)) (h : Fin (2 ^ k)) :
    pairRow (2 ^ d) (h * 2 ^ d + l) = rowNumber k d ((0, l), h) := pairRow_eq l.2

lemma rowNumber_one (l : Fin (2 ^ d)) (h : Fin (2 ^ k)) :
    pairRow (2 ^ d) (h * 2 ^ d + l) + 2 ^ d = rowNumber k d ((1, l), h) := by
  rw [pairRow_eq l.2]
  simp [rowNumber]
  ring

/-- The number of a pair is made of the bits above and the bits below. -/
lemma lt_two_pow_iff : j < 2 ^ (k + d) ↔ ∃ (h : Fin (2 ^ k)) (l : Fin (2 ^ d)), j = h * 2 ^ d + l := by
  constructor
  · exact fun hj => ⟨⟨j / 2 ^ d, Nat.div_lt_of_lt_mul (by rwa [← pow_add, add_comm])⟩,
      ⟨_, Nat.mod_lt j (Nat.two_pow_pos d)⟩, by rw [mul_comm, Nat.div_add_mod]⟩
  · rintro ⟨h, l, rfl⟩
    rw [pow_add]
    nlinarith [Nat.succ_le_of_lt h.2, l.2]

lemma pairRow_spec (hj : j < 2 ^ (k + d)) : pairRow (2 ^ d) j + 2 ^ d < 2 ^ (k + d + 1) ∧
    pairNumber (2 ^ d) (pairRow (2 ^ d) j) = j ∧ pairNumber (2 ^ d) (pairRow (2 ^ d) j + 2 ^ d) = j := by
  obtain ⟨h, l, rfl⟩ := (lt_two_pow_iff k d).mp hj
  rw [rowNumber_one, rowNumber_zero]
  exact ⟨Fin.is_lt _, (pairNumber_eq l.2 two_pos).2, (pairNumber_eq l.2 one_lt_two).2⟩

section Run

variable [Add β] [Mul β] [Inhabited β] {f : ℕ → ℕ → β}

/-- What a row becomes by the gate of its pair. -/
def turnedRow (gate : ℕ → Mat β) (σ : ℕ) (f : ℕ → ℕ → β) (r : ℕ) : ℕ → β :=
  turned (gate (pairNumber σ r)) (pairRow σ (pairNumber σ r)) (pairRow σ (pairNumber σ r) + σ) f r

/-- **A run over pairs of rows**: the first ones have had their gates, and the others have not. -/
lemma foldl_pairs (gate : ℕ → Mat β) {J : ℕ} (hJ : J ≤ 2 ^ (k + d)) : (List.range J).foldl (fun M j =>
      applyToRows (gate j) (pairRow (2 ^ d) j) (pairRow (2 ^ d) j + 2 ^ d) M) (ofFn (2 ^ (k + d + 1)) c f) =
    ofFn (2 ^ (k + d + 1)) c fun r s => if pairNumber (2 ^ d) r < J then turnedRow gate (2 ^ d) f r s else f r s := by
  induction J with
  | zero => simp
  | succ J ih =>
    have hd := Nat.two_pow_pos d
    obtain ⟨hlt, hfi, hse⟩ := pairRow_spec k d hJ
    rw [List.range_succ, List.foldl_append, ih (by omega), List.foldl_cons, List.foldl_nil,
      applyToRows_ofFn (by omega) hlt (by omega)]
    refine ofFn_congr fun r _ s _ => ?_
    by_cases hr : pairNumber (2 ^ d) r = J
    · -- the rows of the pair are still as they were
      simp [turned, turnedRow, hr, hfi, hse]
    · rw [turned, if_neg (by rintro rfl; exact hr hfi), if_neg (by rintro rfl; exact hr hse)]
      exact if_congr (by omega) rfl rfl

/-- **Gates that the bits above select.** -/
lemma exists_applySelected (gates : Array (Mat β)) (f : ℕ → ℕ → β) : ∃ g,
    applySelected (k + d + 1) k gates (ofFn (2 ^ (k + d + 1)) c f) = ofFn (2 ^ (k + d + 1)) c g ∧
    ∀ t l h s, g (rowNumber k d ((t, l), h)) s = turned (gates.getD h default) (rowNumber k d ((0, l), h))
      (rowNumber k d ((1, l), h)) f (rowNumber k d ((t, l), h)) s := by
  have hg := foldl_pairs (c := c) (f := f) k d (fun j => gates.getD (pairRow (2 ^ d) j / (2 * 2 ^ d)) default) le_rfl
  refine ⟨_, Eq.trans ?_ hg, fun t l h s => ?_⟩
  · simp [applySelected, show k + d + 1 - k = d + 1 by omega, pow_succ']
  · have ht : pairNumber (2 ^ d) (rowNumber k d ((t, l), h)) = h * 2 ^ d + l := (pairNumber_eq l.2 t.2).2
    have hd : (rowNumber k d ((0, l), h) : ℕ) / (2 * 2 ^ d) = h := (pairNumber_eq l.2 two_pos).1
    rw [turnedRow, ht, if_pos ((lt_two_pow_iff k d).mpr ⟨h, l, rfl⟩), rowNumber_one, rowNumber_zero, hd]

end Run

variable [CommRing β] [Inhabited β]

def table (m c : ℕ) (f : ℕ → ℕ → β) : Matrix (Fin m) (Fin c) β := .of fun r s => f r s

/-- The direct sum of the gates, each with an identity for the bits below. -/
def selection (gates : Array (Mat β)) : Matrix (Fin (2 ^ (k + d + 1))) (Fin (2 ^ (k + d + 1))) β :=
  Matrix.reindex (rowNumber k d) (rowNumber k d) <| Matrix.blockDiagonal fun h : Fin (2 ^ k) =>
    Matrix.kronecker (table 2 2 (gates.getD h default).get) (1 : Matrix (Fin (2 ^ d)) (Fin (2 ^ d)) β)

/-- **Selected gates are a direct sum.**  On `k + d + 1` qubits, one gate for each value of the `k` bits above is
applied to the rows of a matrix: the result is the product with the direct sum of the gates.  Each row is in one
pair, and no row or gate is out of range. -/
theorem applySelected_eq_mul (gates : Vector (Mat β) (2 ^ k)) (f : ℕ → ℕ → β) :
    (∃ g, applySelected? (k + d + 1) k gates.toArray (ofFn (2 ^ (k + d + 1)) c f) = .ok (ofFn (2 ^ (k + d + 1)) c g) ∧
      table (2 ^ (k + d + 1)) c g = selection k d gates.toArray * table (2 ^ (k + d + 1)) c f) ∧
    (∀ r < 2 ^ (k + d + 1), ∃! j, j < 2 ^ (k + d) ∧ (r = pairRow (2 ^ d) j ∨ r = pairRow (2 ^ d) j + 2 ^ d)) ∧
    ∀ j < 2 ^ (k + d), pairRow (2 ^ d) j + 2 ^ d < 2 ^ (k + d + 1) ∧ pairRow (2 ^ d) j / 2 ^ (d + 1) < 2 ^ k := by
  refine ⟨?_, fun r hr => ?_, fun j hj => ?_⟩
  · obtain ⟨g, hg, hrow⟩ := exists_applySelected (c := c) k d gates.toArray f
    refine ⟨g, by rw [applySelected?, if_neg (by simp), hg], ?_⟩
    ext r s
    obtain ⟨⟨⟨t, l⟩, h⟩, rfl⟩ := (rowNumber k d).surjective r
    rw [Matrix.mul_apply, ← (rowNumber k d).sum_comp, table, Matrix.of_apply, hrow, turned]
    fin_cases t <;> simp [selection, table, Matrix.blockDiagonal_apply, Fintype.sum_prod_type, Matrix.one_apply, Fin.val_inj]
  · obtain ⟨⟨⟨t, l⟩, h⟩, hx⟩ := (rowNumber k d).surjective ⟨r, hr⟩
    have hx : r = rowNumber k d ((t, l), h) := by rw [hx]
    have hn : pairNumber (2 ^ d) r = h * 2 ^ d + l := hx ▸ (pairNumber_eq l.2 t.2).2
    refine ⟨h * 2 ^ d + l, ⟨(lt_two_pow_iff k d).mpr ⟨h, l, rfl⟩, ?_⟩, fun j hj => ?_⟩
    · rw [rowNumber_one, rowNumber_zero, hx]
      fin_cases t <;> simp
    · obtain ⟨-, hfi, hse⟩ := pairRow_spec k d hj.1
      rcases hj.2 with rfl | rfl
      · rw [← hn, hfi]
      · rw [← hn, hse]
  · obtain ⟨h, l, rfl⟩ := (lt_two_pow_iff k d).mp hj
    refine ⟨(pairRow_spec k d hj).1, ?_⟩
    have hd := (pairNumber_eq (h := h) l.2 two_pos).1
    rw [pairRow_eq l.2, pow_succ', ← add_zero (l : ℕ), ← mul_zero (2 ^ d), hd]
    exact h.2

end Selected

/-! ### A step of disentangling -/

section Step

open Finset

variable {k s : ℕ} {x y : Cplx ℝ} {a : ℕ → Cplx ℝ}

def pairNorm (x y : Cplx ℝ) : ℝ := √(‖x.value‖ ^ 2 + ‖y.value‖ ^ 2)

lemma sq_pairNorm (x y : Cplx ℝ) : pairNorm x y ^ 2 = ‖x.value‖ ^ 2 + ‖y.value‖ ^ 2 := Real.sq_sqrt (by positivity)

lemma pairNorm_eq_zero : pairNorm x y = 0 ↔ x.value = 0 ∧ y.value = 0 := by
  rw [← sq_eq_zero_iff, sq_pairNorm, add_eq_zero_iff_of_nonneg (by positivity) (by positivity)]
  simp

/-- **The gate for a pair** moves its norm to the first row. -/
lemma exists_toBasis (h : pairNorm x y = 0 ∨ tiny ≤ pairNorm x y) : ∃ G, toBasis #[x, y] true = .ok G ∧
    (G.get 0 0 * x + G.get 0 1 * y).value = pairNorm x y ∧ (G.get 1 0 * x + G.get 1 1 * y).value = 0 := by
  have ht : (0 : ℝ) < tiny := by norm_num [tiny]
  have hn : Scalar.sqrt ((#[x, y] : Array (Cplx ℝ)).foldl (fun s z => s + z.normSq) 0.0) = pairNorm x y := by
    simp [pairNorm, Complex.normSq_eq_norm_sq]
  rw [toBasis, hn]
  simp only [Scalar.lt_real, decide_eq_true_eq, Scalar.real_one]
  rcases h with h | h
  · obtain ⟨hx, hy⟩ := pairNorm_eq_zero.mp h
    exact ⟨_, if_pos (h ▸ ht), by simp [hx, hy, h], by simp [hx, hy]⟩
  · have hp : (pairNorm x y : ℂ) ≠ 0 := by exact_mod_cast (ht.trans_le h).ne'
    have hs : starRingEnd ℂ x.value * x.value + starRingEnd ℂ y.value * y.value = (pairNorm x y : ℂ) ^ 2 := by
      rw [Complex.conj_mul', Complex.conj_mul']
      exact_mod_cast (sq_pairNorm x y).symm
    refine ⟨_, if_neg (not_lt.mpr h), ?_, ?_⟩
    · have hfi : starRingEnd ℂ x.value * (pairNorm x y : ℂ)⁻¹ * x.value +
          starRingEnd ℂ y.value * (pairNorm x y : ℂ)⁻¹ * y.value = pairNorm x y := by
        field_simp
        exact hs
      simpa [square2, Mat.get] using hfi
    · simp [square2, Mat.get]
      ring

/-- The norm of the pair of entries that differ in bit `s` and have the bits of `i` above. -/
def pairLength (a : ℕ → Cplx ℝ) (s i : ℕ) : ℝ := pairNorm (a (2 * i * 2 ^ s)) (a ((2 * i + 1) * 2 ^ s))

lemma disentanglers_eq {G : ℕ → Mat (Cplx ℝ)} (h : ∀ i < 2 ^ k,
    toBasis #[a (2 * i * 2 ^ s), a ((2 * i + 1) * 2 ^ s)] true = .ok (G i)) :
    disentanglers (ofFn (2 ^ (k + s + 1)) 1 fun r _ => a r) 0 s (k + s + 1) = .ok ((List.range (2 ^ k)).map G) := by
  have hr : ∀ i < 2 * 2 ^ k, i * 2 ^ s < 2 ^ (k + s + 1) := fun i hi => by
    rw [← two_pow_eq]
    nlinarith [Nat.two_pow_pos s]
  have hk : k + s + 1 - s - 1 = k := by omega
  rw [disentanglers, mapM_ok (g := G)]
  · simp [hk]
    rfl
  · intro i hi
    have hi : i < 2 ^ k := by simpa [hk] using hi
    have hl := hr (2 * i) (by omega)
    have hh := hr (2 * i + 1) (by omega)
    simp [get_ofFn _ hl one_pos, get_ofFn _ hh one_pos]
    rw [if_pos (by exact ⟨hl, one_pos⟩), if_pos (by exact ⟨hh, one_pos⟩)]
    exact h i hi

/-- **A step of disentangling.**  The entries of a vector stand at the multiples of `2 ^ s`, in pairs that are zero
or not tiny.  The gates that are found for the pairs, applied to the rows that the upper bits select, leave the
norm of each pair at its first row and nothing elsewhere. -/
theorem disentangles_pairs (hsupport : ∀ r < 2 ^ (k + s + 1), ¬ 2 ^ s ∣ r → (a r).value = 0)
    (hpairs : ∀ i < 2 ^ k, pairLength a s i = 0 ∨ tiny ≤ pairLength a s i) :
    ∃ gates, ∃ b : ℕ → Cplx ℝ, disentanglers (ofFn (2 ^ (k + s + 1)) 1 fun r _ => a r) 0 s (k + s + 1) = .ok gates ∧
      applySelected? (k + s + 1) k gates.toArray (ofFn (2 ^ (k + s + 1)) 1 fun r _ => a r) =
        .ok (ofFn (2 ^ (k + s + 1)) 1 fun r _ => b r) ∧
      (∀ r < 2 ^ (k + s + 1), ¬ 2 ^ (s + 1) ∣ r → (b r).value = 0) ∧
      (∀ i < 2 ^ k, (b (2 * i * 2 ^ s)).value = pairLength a s i) ∧
      ∑ r ∈ range (2 ^ (k + s + 1)), ‖(b r).value‖ ^ 2 = ∑ r ∈ range (2 ^ (k + s + 1)), ‖(a r).value‖ ^ 2 := by
  choose! G hG hfi hse using fun i hi => exists_toBasis (hpairs i hi)
  obtain ⟨g, hg, hrow⟩ := exists_applySelected (c := 1) k s ((List.range (2 ^ k)).map G).toArray fun r _ => a r
  have hfirst : ∀ t h, (rowNumber k s ((t, 0), h) : ℕ) = (2 * h + t) * 2 ^ s := fun t h => by
    simp [rowNumber]
    ring
  have hz : ∀ t l h, l ≠ 0 → (a (rowNumber k s ((t, l), h))).value = 0 := fun t l h hl =>
    hsupport _ (Fin.is_lt _) fun hd => hl (Fin.ext (by
      have hd : 2 ^ s ∣ (l : ℕ) + 2 ^ s * t + 2 * 2 ^ s * h := hd
      have hd := (Nat.dvd_add_left ⟨t, rfl⟩).mp ((Nat.dvd_add_left ⟨2 * h, by ring⟩).mp hd)
      exact Nat.eq_zero_of_dvd_of_lt hd l.2))
  have hb : ∀ t l h, (g (rowNumber k s ((t, l), h)) 0).value =
      if l = 0 ∧ t = 0 then (pairLength a s h : ℂ) else 0 := fun t l h => by
    have hGh : ((List.range (2 ^ k)).map G).toArray.getD h default = G h := by simp
    rw [hrow, hGh]
    by_cases hl : l = 0
    · subst hl
      fin_cases t <;> simp [turned, hfirst, -Cplx.value_add, hfi, hse, pairLength]
    · fin_cases t <;> simp [turned, Fin.val_inj, hz _ _ _ hl, hl]
  refine ⟨_, fun r => g r 0, disentanglers_eq hG, ?_, fun r hr hd => ?_, fun i hi => ?_, ?_⟩
  · rw [applySelected?, if_neg (by simp), hg]
    exact congrArg _ (ofFn_congr fun r _ j hj => by rw [Nat.lt_one_iff.mp hj])
  · obtain ⟨⟨⟨t, l⟩, h⟩, hx⟩ := (rowNumber k s).surjective ⟨r, hr⟩
    have hx : (rowNumber k s ((t, l), h) : ℕ) = r := by rw [hx]
    rw [← hx, hb, if_neg]
    rintro ⟨rfl, rfl⟩
    exact hd ⟨h, by rw [← hx, hfirst, pow_succ]; simp; ring⟩
  · have hi' := hb 0 0 ⟨i, hi⟩
    rw [hfirst] at hi'
    simpa using hi'
  · rw [sum_range, sum_range, ← (rowNumber k s).sum_comp, ← (rowNumber k s).sum_comp]
    simp only [Fintype.sum_prod_type, Fin.sum_univ_two, ← sum_add_distrib, hb]
    refine sum_congr rfl fun l _ => sum_congr rfl fun h _ => ?_
    by_cases hl : l = 0
    · subst hl
      simp [hfirst, pairLength, sq_pairNorm]
    · simp [hl, hz _ _ _ hl]

/-- The second basis vector becomes the first. -/
theorem disentangles_pairs_second : ∃ gates, ∃ b : ℕ → Cplx ℝ,
    disentanglers (ofFn 4 1 fun r _ => if r = 1 then .one else .zero) 0 0 2 = .ok gates ∧
    applySelected? 2 1 gates.toArray (ofFn 4 1 fun r _ => if r = 1 then .one else .zero) =
      .ok (ofFn 4 1 fun r _ => b r) ∧ (b 0).value = 1 := by
  set a : ℕ → Cplx ℝ := fun r => if r = 1 then .one else .zero with ha
  have hfi : pairLength a 0 0 = 1 := by simp [pairLength, pairNorm, ha]
  obtain ⟨gates, b, hg, hw, -, hl, -⟩ := disentangles_pairs (k := 1) (s := 0) (a := a)
    (fun r _ h => absurd (one_dvd r) h) fun i hi => by
      obtain rfl | rfl : i = 0 ∨ i = 1 := by omega
      · exact .inr (by rw [hfi]; norm_num [tiny])
      · exact .inl (pairNorm_eq_zero.mpr (by simp [ha]))
  exact ⟨gates, b, hg, hw, by simpa [hfi] using hl 0 two_pos⟩

end Step

/-! ### Gates under controls -/

section Controlled

open List

variable {C : List ℕ} {t n m d e f r : ℕ}

/-- The bits of a row by labels; label 0 is the most significant one. -/
def labelled (n r : ℕ) : Register := fun l => r.testBit (n - 1 - l)

/-- Labels of controls and of a target that is none of them, on `n` qubits. -/
structure AreLabels (n : ℕ) (C : List ℕ) (t : ℕ) : Prop where
  nodup : (t :: C).Nodup
  lt : ∀ l ∈ t :: C, l < n

/-- How many labels are neither controls nor the target. -/
def freeCount (C : List ℕ) (t : ℕ) (ls : List ℕ) : ℕ := ls.countP (· ∉ t :: C)

lemma AreLabels.freeCount_range (h : AreLabels n C t) : freeCount C t (range n) + C.length + 1 = n := by
  have hp : (range n).filter (· ∈ t :: C) ~ t :: C :=
    (perm_ext_iff_of_nodup (nodup_range.filter _) h.nodup).mpr fun l => by simpa using h.lt l
  have hn := length_eq_countP_add_countP (l := range n) (· ∈ t :: C)
  simp only [countP_eq_length_filter (p := (· ∈ t :: C)), hp.length_eq, length_range, length_cons] at hn
  simp only [freeCount]
  simp at hn ⊢
  omega

/-- The row begins as `e` or `f` says and has ones at the controls from `m` on. -/
abbrev Follows (C : List ℕ) (n m e f r : ℕ) : Prop :=
  (r / 2 ^ (n - m) = e ∨ r / 2 ^ (n - m) = f) ∧ ∀ l ∈ C, m ≤ l → labelled n r l

lemma follows_succ (hm : m < n) : Follows C n m e f r ↔ (m ∉ C ∧ Follows C n (m + 1) (2 * e) (2 * f) r) ∨
    Follows C n (m + 1) (2 * e + 1) (2 * f + 1) r := by
  have hd : r / 2 ^ (n - m) = r / 2 ^ (n - (m + 1)) / 2 := by
    rw [Nat.div_div_eq_div_mul, ← pow_succ, show n - (m + 1) + 1 = n - m by omega]
  have hb : labelled n r m ↔ r / 2 ^ (n - (m + 1)) % 2 = 1 := by
    rw [labelled, Nat.testBit_eq_decide_div_mod_eq, decide_eq_true_iff, show n - 1 - m = n - (m + 1) by omega]
  have hC : (∀ l ∈ C, m ≤ l → labelled n r l) ↔ (m ∈ C → labelled n r m) ∧ ∀ l ∈ C, m + 1 ≤ l → labelled n r l := by
    grind
  rw [Follows, Follows, Follows, hC, hb, hd]
  generalize r / 2 ^ (n - (m + 1)) = q
  by_cases hm : m ∈ C <;> simp [hm] <;> grind

/-- The rows of a pair as far as `m` labels tell: the same before the target, then apart by its weight. -/
structure Apart (t m e f : ℕ) : Prop where
  lt : e < 2 ^ m ∧ f < 2 ^ m
  before : m ≤ t → e = f
  behind : t < m → f = e + 2 ^ (m - 1 - t) ∧ e / 2 ^ (m - 1 - t) % 2 = 0

lemma Apart.bit (h : Apart t m e f) {x : ℕ} (hx : x < 2) (ht : m ≠ t) : Apart t (m + 1) (2 * e + x) (2 * f + x) := by
  have hlt := h.lt
  refine ⟨by omega, fun hm => by rw [h.before (by omega)], fun hm => ?_⟩
  obtain ⟨hf, he⟩ := h.behind (by omega)
  have hp : 2 ^ (m + 1 - 1 - t) = 2 * 2 ^ (m - 1 - t) := by rw [← pow_succ', show m - 1 - t + 1 = m + 1 - 1 - t by omega]
  have hd : (2 * e + x) / 2 = e := by omega
  rw [hp, ← Nat.div_div_eq_div_mul, hd]
  exact ⟨by omega, he⟩

lemma Apart.target (h : Apart t t e f) : Apart t (t + 1) (2 * e) (2 * f + 1) := by
  have hlt := h.lt
  have he := h.before le_rfl
  exact ⟨by omega, by omega, fun _ => by simp [he]⟩

variable {β : Type} [Inhabited β]

section Run

variable [Add β] [Mul β] {G : Mat β} {a g : ℕ → ℕ → β}

/-- A row after a gate on the bit of weight `w`. -/
def gateRow (G : Mat β) (w : ℕ) (a : ℕ → ℕ → β) (r s : ℕ) : β :=
  if r / w % 2 = 0 then G.get 0 0 * a r s + G.get 0 1 * a (r + w) s else G.get 1 0 * a (r - w) s + G.get 1 1 * a r s

/-- Applies a gate to the rows that are found from the other labels. -/
def visit (C : List ℕ) (t : ℕ) (G : Mat β) (ls : List ℕ) (s : ℕ × ℕ × ℕ) (bits : List ℕ) (M : Mat β) : Outcome (Mat β) := do
  let (i, j, _) ← ls.foldlM (readLabel bits (C.map Int.ofNat) t) s
  if M.rows ≤ i ∨ M.rows ≤ j then .error (.unfit .index)
  .ok (applyToRows G i j M)

lemma visit_cons {ls bits : List ℕ} {s s' : ℕ × ℕ × ℕ} {l : ℕ} {M : Mat β}
    (h : readLabel bits (C.map Int.ofNat) t s l = .ok s') : visit C t G (l :: ls) s bits M = visit C t G ls s' bits M := by
  rw [visit, foldlM_cons, h]
  rfl

/-- The gate on the two rows that all labels give. -/
lemma Apart.applyToRows_eq (h : Apart t n e f) (ht : t < n) (he : g e = a e) (hf : g f = a f) : applyToRows G e f
    (ofFn (2 ^ n) c g) = ofFn (2 ^ n) c fun r => if r = e ∨ r = f then gateRow G (2 ^ (n - 1 - t)) a r else g r := by
  obtain ⟨hw, he'⟩ := h.behind ht
  have hp := Nat.two_pow_pos (n - 1 - t)
  have hf' : f / 2 ^ (n - 1 - t) % 2 = 1 := by
    rw [hw, Nat.add_div_right _ hp]
    omega
  rw [applyToRows_ofFn h.lt.1 h.lt.2 (by omega)]
  refine ofFn_congr fun r _ s _ => ?_
  grind [turned, gateRow]

/-- **A run over all bits at the free labels** from some label on visits each row that follows once. -/
lemma foldlM_visit (h : AreLabels n C t) (hd : m + d = n) (hef : Apart t m e f) (pre : List ℕ)
    (hg : ∀ r, Follows C n m e f r → g r = a r) : (bitLists (freeCount C t (range' m d))).foldlM (fun M bits =>
      visit C t G (range' m d) (e, f, pre.length) (pre ++ bits) M) (ofFn (2 ^ n) c g) =
    .ok (ofFn (2 ^ n) c fun r => if Follows C n m e f r then gateRow G (2 ^ (n - 1 - t)) a r else g r) := by
  -- on how many labels are left; `Follows` says which rows a run over them visits
  induction d generalizing m e f pre g with
  | zero =>
    obtain rfl : m = n := hd
    have hF : ∀ r, Follows C m m e f r ↔ r = e ∨ r = f := fun r => by
      simp only [Follows, Nat.sub_self, pow_zero, Nat.div_one, and_iff_left_iff_imp]
      exact fun _ l hl hle => absurd (h.lt l (mem_cons_of_mem t hl)) (by omega)
    have hv : visit C t G [] (e, f, pre.length) pre (ofFn (2 ^ m) c g) = .ok (applyToRows G e f (ofFn (2 ^ m) c g)) :=
      if_neg (by simp [Mat.ofFn, hef.lt])
    simp only [range'_zero, freeCount, countP_nil, bitLists, foldlM_cons, append_nil, hv, hF]
    exact congrArg _ (hef.applyToRows_eq (h.lt t mem_cons_self) (hg e (by simp [hF])) (hg f (by simp [hF])))
  | succ d ih =>
    have hm : m < n := by omega
    by_cases hfix : m ∈ t :: C
    · -- the bits of a control and of the target are known, so all runs go on from the same rows
      obtain ⟨e', f', hr, hs, hef'⟩ : ∃ e' f',
          (∀ bits, readLabel bits (C.map Int.ofNat) t (e, f, pre.length) m = .ok (e', f', pre.length)) ∧
          (∀ r, Follows C n m e f r ↔ Follows C n (m + 1) e' f' r) ∧ Apart t (m + 1) e' f' := by
        by_cases hC : m ∈ C
        · have hmt : m ≠ t := by rintro rfl; exact (nodup_cons.mp h.nodup).1 hC
          exact ⟨2 * e + 1, 2 * f + 1, by simp [readLabel, hC], by simp [follows_succ hm, hC], hef.bit one_lt_two hmt⟩
        · obtain rfl := (mem_cons.mp hfix).resolve_right hC
          refine ⟨2 * e, 2 * f + 1, by simp [readLabel, hC], fun r => ?_, hef.target⟩
          rw [follows_succ hm, hef.before le_rfl]
          simp [hC, Follows]
          tauto
      have hk : freeCount C t (range' m (d + 1)) = freeCount C t (range' (m + 1) d) := countP_cons_of_neg (by grind)
      rw [hk]
      simp only [range'_succ, visit_cons (hr _), hs]
      exact ih (by omega) hef' pre fun r hr => hg r ((hs r).mpr hr)
    · obtain ⟨hmt, hC⟩ : m ≠ t ∧ m ∉ C := by simpa using hfix
      have hr : ∀ x bits, readLabel (pre ++ x :: bits) (C.map Int.ofNat) t (e, f, pre.length) m =
          .ok (2 * e + x, 2 * f + x, (pre ++ [x]).length) := by simp [readLabel, hC, hmt]
      -- the rows with 0 at the label, then those with 1
      have hz := ih (m := m + 1) (by omega) (hef.bit two_pos hmt) (pre ++ [0]) fun r hr =>
        hg r ((follows_succ hm).mpr (.inl ⟨hC, hr⟩))
      have ho := ih (m := m + 1) (by omega) (hef.bit one_lt_two hmt) (pre ++ [1])
        (g := fun r => if Follows C n (m + 1) (2 * e) (2 * f) r then gateRow G (2 ^ (n - 1 - t)) a r else g r) fun r hr => by
          have hn : ¬ Follows C n (m + 1) (2 * e) (2 * f) r := fun hr' => by have := hr.1; have := hr'.1; omega
          rw [if_neg hn, hg r ((follows_succ hm).mpr (.inr hr))]
      simp only [append_assoc, singleton_append] at hz ho
      have hk : freeCount C t (range' m (d + 1)) = freeCount C t (range' (m + 1) d) + 1 := countP_cons_of_pos (by grind)
      rw [hk, bitLists, foldlM_append]
      simp only [range'_succ, foldlM_map, visit_cons (hr _ _)]
      rw [hz]
      refine ho.trans (congrArg _ (ofFn_congr fun r _ s _ => ?_))
      simp only [follows_succ hm, hC]
      grind

lemma AreLabels.applyControlled_eq (h : AreLabels n C t) (G : Mat β) (a : ℕ → ℕ → β) :
    applyControlled n (C.map Int.ofNat) t G (ofFn (2 ^ n) c a) = .ok (ofFn (2 ^ n) c fun r =>
      if ∀ l ∈ C, labelled n r l then gateRow G (2 ^ (n - 1 - t)) a r else a r) := by
  have hk := h.freeCount_range
  have her : (C.map Int.ofNat).eraseDups = C.map Int.ofNat :=
    eraseDups_of_nodup ((nodup_cons.mp h.nodup).2.map Int.ofNat_injective)
  have hfree : n - C.length - 1 = freeCount C t (range n) := by omega
  have hrun := foldlM_visit (c := c) (G := G) (a := a) h (zero_add n) ⟨⟨one_pos, one_pos⟩, fun _ => rfl, by simp⟩ [] fun _ _ => rfl
  rw [← range_eq_range', ← hfree] at hrun
  simp only [applyControlled, length_map, her, show n - C.length - 1 + C.length + 1 = n by omega,
    show ¬ n < C.length + 1 by omega, if_false]
  refine Eq.trans (congrArg (fun step => foldlM step _ _) (funext₂ fun M bits => bind_assoc ..)) (hrun.trans ?_)
  exact congrArg _ (ofFn_congr fun r hr s _ => congrFun (if_congr (by simp [Follows, Nat.div_eq_of_lt hr]) rfl rfl) s)

end Run

/-! ### Diagonals -/

lemma diagonalIndex_eq {L : List ℕ} (hL : ∀ l ∈ L, l < n) :
    diagonalIndex n (L.map Int.ofNat) r = .ok (indexOf L.reverse (labelled n r)) := by
  rw [diagonalIndex, foldlM_map, indexOf, foldr_reverse]
  generalize 0 = k
  induction L generalizing k with
  | nil => rfl
  | cons l L ih =>
    obtain ⟨hl, hL⟩ := forall_mem_cons.mp hL
    rw [foldlM_cons, foldl_cons, ← ih hL]
    simp [labelBit, Operand.position, hl, bind, Except.bind, labelled, Nat.toNat_testBit, Nat.shiftRight_eq_div_pow, add_comm]

/-- The largest number is spelled by ones. -/
lemma indexOf_add_one_eq (cs : List ℕ) (b : Register) : indexOf cs b + 1 = 2 ^ cs.length ↔ ∀ c ∈ cs, b c := by
  induction cs with
  | nil => simp [indexOf]
  | cons c cs ih =>
    have hlt := Operation.indexOf_lt cs b
    have hs : indexOf (c :: cs) b = (b c).toNat + 2 * indexOf cs b := rfl
    rw [hs, length_cons, pow_succ', forall_mem_cons, ← ih]
    cases b c <;> simp <;> omega

variable [CommRing β] {G : Mat β}

/-- The diagonal of a gate under `k` controls: ones but for the last two entries. -/
def controlledDiagonal (k : ℕ) (G : Mat β) : Array β :=
  .ofFn fun i : Fin (2 ^ (k + 1)) => if i.val / 2 + 1 = 2 ^ k then G.get (i % 2) (i % 2) else 1

/-- The factor of a row. -/
def factor (C : List ℕ) (t n : ℕ) (G : Mat β) (r : ℕ) : β :=
  if ∀ l ∈ C, labelled n r l then G.get (labelled n r t).toNat (labelled n r t).toNat else 1

lemma getElem?_controlledDiagonal : (controlledDiagonal C.length G)[indexOf (C ++ [t]).reverse (labelled n r)]? =
    some (factor C t n G r) := by
  have hlt := Operation.indexOf_lt C.reverse (labelled n r)
  have hall := indexOf_add_one_eq C.reverse (labelled n r)
  have hbit := (labelled n r t).toNat_lt
  simp only [length_reverse, mem_reverse] at hlt hall
  have hs : indexOf (C ++ [t]).reverse (labelled n r) = (labelled n r t).toNat + 2 * indexOf C.reverse (labelled n r) := by
    simp [indexOf]
  rw [hs, controlledDiagonal, Array.getElem?_ofFn, dif_pos (by rw [pow_succ]; omega), factor]
  simp [Nat.add_mul_div_left, Nat.div_eq_of_lt hbit, Nat.mod_eq_of_lt hbit, hall]

lemma AreLabels.applyDiagonal_eq (h : AreLabels n C t) (G : Mat β) (a : ℕ → ℕ → β) :
    applyDiagonal n ((C ++ [t]).map Int.ofNat) (controlledDiagonal C.length G) (ofFn (2 ^ n) c a) =
      .ok (ofFn (2 ^ n) c fun r s => a r s * factor C t n G r) := by
  have hfs : diagonalFactors n ((C ++ [t]).map Int.ofNat) (controlledDiagonal C.length G) =
      .ok ((range (2 ^ n)).map (factor C t n G)).toArray := by
    rw [diagonalFactors, ← toArray_range, List.mapM_toArray, mapM_ok (g := factor C t n G) fun r _ => ?_]
    · rfl
    · rw [diagonalIndex_eq fun l hl => h.lt l (by simpa [or_comm] using hl)]
      simp only [bind, Except.bind, getElem?_controlledDiagonal]
  rw [applyDiagonal, hfs]
  refine congrArg Except.ok (ofFn_congr fun r (hr : r < 2 ^ n) s (hs : s < c) => ?_)
  rw [if_pos (by simpa using hr), get_ofFn a hr hs]
  simp [hr]

/-- **A gate under controls** is applied to the pairs of rows that differ at the target only and have ones at the
controls, to each pair once, and the other rows stay.  A diagonal gate does what the diagonal on controls and target
does. -/
theorem applyControlled_applies (h : AreLabels n C t) (G : Mat β) (a : ℕ → ℕ → β) :
    applyControlled n (C.map Int.ofNat) t G (ofFn (2 ^ n) c a) = .ok (ofFn (2 ^ n) c fun r =>
      if ∀ l ∈ C, labelled n r l then gateRow G (2 ^ (n - 1 - t)) a r else a r) ∧
    (G.get 0 1 = 0 → G.get 1 0 = 0 → applyControlled n (C.map Int.ofNat) t G (ofFn (2 ^ n) c a) =
      applyDiagonal n ((C ++ [t]).map Int.ofNat) (controlledDiagonal C.length G) (ofFn (2 ^ n) c a)) := by
  refine ⟨h.applyControlled_eq G a, fun h01 h10 => ?_⟩
  rw [h.applyControlled_eq, h.applyDiagonal_eq]
  refine congrArg Except.ok (ofFn_congr fun r _ s _ => ?_)
  have hb : labelled n r t = decide (r / 2 ^ (n - 1 - t) % 2 = 1) := Nat.testBit_eq_decide_div_mod_eq
  rw [factor, hb]
  split
  · rcases Nat.mod_two_eq_zero_or_one (r / 2 ^ (n - 1 - t)) with hr | hr <;> simp [gateRow, hr, h01, h10, mul_comm]
  · exact (mul_one _).symm

/-- A gate on the last of three qubits under the first one, and a diagonal one. -/
theorem applyControlled_applies_three : AreLabels 3 [0] 2 ∧ applyControlled 3 [0] 2 (square2 1 2 3 4)
    (ofFn 8 1 fun r _ => (r : ℤ)) = .ok (ofFn 8 1 fun r _ => [0, 1, 2, 3, 14, 32, 20, 46].getD r 0) ∧
    applyControlled 3 [0] 2 (square2 2 0 0 3) (ofFn 8 1 fun r _ => (r : ℤ)) =
      applyDiagonal 3 [0, 2] #[1, 1, 2, 3] (ofFn 8 1 fun r _ => (r : ℤ)) := by
  have h : AreLabels 3 [0] 2 := ⟨by decide, by decide⟩
  have hd : controlledDiagonal 1 (square2 2 0 0 3 : Mat ℤ) = #[1, 1, 2, 3] := by decide
  refine ⟨h, (applyControlled_applies (c := 1) h (square2 1 2 3 4 : Mat ℤ) fun r _ => r).1.trans ?_, ?_⟩
  · exact congrArg _ (ofFn_congr fun r hr _ _ => by interval_cases r <;> rfl)
  · rw [← hd]
    exact (applyControlled_applies (c := 1) h (square2 2 0 0 3 : Mat ℤ) fun r _ => r).2 rfl rfl

end Controlled

end Disentangle

end QuantumCircuits

end
