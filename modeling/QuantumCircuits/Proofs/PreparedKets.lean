import QuantumCircuits.Preparation.Basic
import QuantumCircuits.Proofs.Operation.Plans

/-!
# Prepared kets

What preparing a state leaves of it.  A ket is put into the asked order and compressed where it stands, and
whoever handed it in finds it so.  Compressing clears entries, and no order makes up for an entry that is lost
(`eq_of_perm_of_cleared`), so the ket is as it was if and only if each of the two steps left it alone
(`Preparation.exists_left_eq`): the order turns nothing around, and what is cleared was zero before.
-/

noncomputable section

namespace QuantumCircuits

open List Change Scalar

/-! ### Entries -/

section Entries

variable {es : Array (Cplx ℝ)} {is : List ℕ}

/-- The entries with those at the given positions cleared. -/
def clearedAt (es : Array (Cplx ℝ)) (is : List ℕ) : Array (Cplx ℝ) := is.foldl (fun a i => a.setIfInBounds i .zero) es

@[simp] lemma size_clearedAt (es : Array (Cplx ℝ)) (is : List ℕ) : (clearedAt es is).size = es.size := by
  induction is generalizing es with
  | nil => rfl
  | cons i is ih => exact (ih _).trans Array.size_setIfInBounds

lemma getD_clearedAt (es : Array (Cplx ℝ)) (is : List ℕ) (j : ℕ) :
    (clearedAt es is).getD j .zero = if j ∈ is then .zero else es.getD j .zero := by
  induction is generalizing es with
  | nil => rfl
  | cons i is ih =>
    have ho : (es.setIfInBounds i .zero).getD j .zero = if j = i then .zero else es.getD j .zero := by
      rw [Array.getD_eq_getD_getElem?, Array.getElem?_setIfInBounds, Array.getD_eq_getD_getElem?]
      by_cases hi : i = j
      · rw [if_pos hi, if_pos hi.symm]
        split <;> rfl
      · rw [if_neg hi, if_neg (Ne.symm hi)]
    change (clearedAt (es.setIfInBounds i .zero) is).getD j .zero = _
    rw [ih, ho]
    by_cases hj : j ∈ is <;> by_cases hi : j = i <;> simp [hj, hi]

lemma getElem_eq_getD {j : ℕ} (h : j < es.size) : es[j] = es.getD j .zero := by simp [Array.getD, h]

lemma clearedAt_eq_self_iff : clearedAt es is = es ↔ ∀ i ∈ is, es.getD i .zero = .zero := by
  refine ⟨fun h i hi => ?_, fun h => Array.ext (size_clearedAt es is) fun j hj hj' => ?_⟩
  · have ha := getD_clearedAt es is i
    rwa [h, if_pos hi] at ha
  · rw [getElem_eq_getD hj, getD_clearedAt, getElem_eq_getD hj']
    by_cases hm : j ∈ is
    · rw [if_pos hm, h j hm]
    · rw [if_neg hm]

lemma eq_of_perm_of_cleared {cs rs : List (Cplx ℝ)}
    (h : Forall₂ (fun c r => c = r ∨ c = .zero) cs rs) (hp : cs.Perm rs) : cs = rs := by
  classical
  -- there are at least as many zeros, and as many only where nothing was cleared
  have hco : rs.countP (· = .zero) ≤ cs.countP (· = .zero) ∧
      (cs.countP (· = .zero) ≤ rs.countP (· = .zero) → cs = rs) := by
    clear hp
    induction h with
    | nil => exact ⟨le_rfl, fun _ => rfl⟩
    | @cons c r cs rs hcr _ ih =>
      obtain ⟨hl, he⟩ := ih
      rw [countP_cons, countP_cons]
      by_cases hs : c = r
      · subst hs; exact ⟨by omega, fun h => by rw [he (by omega)]⟩
      · obtain rfl := hcr.resolve_left hs
        rw [if_neg (by simpa using Ne.symm hs), if_pos (by simp)]
        exact ⟨by omega, fun h => by omega⟩
  exact hco.2 (hp.countP_eq _).le

lemma forall₂_clearedAt (es : Array (Cplx ℝ)) (is : List ℕ) :
    Forall₂ (fun c r => c = r ∨ c = .zero) (clearedAt es is).toList es.toList := by
  rw [forall₂_iff_get]
  refine ⟨by simp, fun j hj hj' => ?_⟩
  simp only [get_eq_getElem, Array.getElem_toList]
  rw [getElem_eq_getD (by simpa using hj), getElem_eq_getD (by simpa using hj'), getD_clearedAt]
  split
  · exact .inr rfl
  · exact .inl rfl

/-- The entries with their second half backwards. -/
def folded (es : Array (Cplx ℝ)) : Array (Cplx ℝ) :=
  es.extract 0 (es.size / 2) ++ (es.extract (es.size / 2) es.size).reverse

lemma halves_append (es : Array (Cplx ℝ)) : es.extract 0 (es.size / 2) ++ es.extract (es.size / 2) es.size = es := by
  rw [Array.extract_append_extract, Nat.zero_min, Nat.max_eq_right (Nat.div_le_self _ _), Array.extract_size]

lemma perm_folded (es : Array (Cplx ℝ)) : (folded es).toList.Perm es.toList := by
  conv_rhs => rw [← halves_append es]
  rw [folded, Array.toList_append, Array.toList_append, Array.toList_reverse]
  exact (reverse_perm _).append_left _

@[simp] lemma size_folded (es : Array (Cplx ℝ)) : (folded es).size = es.size := (perm_folded es).length_eq

lemma folded_eq_self_iff : folded es = es ↔
    (es.extract (es.size / 2) es.size).reverse = es.extract (es.size / 2) es.size := by
  conv_lhs => rhs; rw [← halves_append es]
  exact Array.append_right_inj _

/-- **Another order and cleared entries** leave entries alone only if both do. -/
theorem clearedAt_eq_iff_of_perm {rs : Array (Cplx ℝ)} (hp : rs.toList.Perm es.toList) :
    clearedAt rs is = es ↔ rs = es ∧ ∀ i ∈ is, es.getD i .zero = .zero := by
  constructor
  · intro h
    have hcl : clearedAt rs is = rs := by
      refine Array.toList_inj.mp (eq_of_perm_of_cleared (forall₂_clearedAt _ _) ?_)
      rw [h]
      exact hp.symm
    obtain rfl : rs = es := hcl.symm.trans h
    exact ⟨rfl, clearedAt_eq_self_iff.mp hcl⟩
  · rintro ⟨rfl, hze⟩; exact clearedAt_eq_self_iff.mpr hze

end Entries

/-! ### Kets -/

namespace StateVector

variable {v : StateVector ℝ} {es : Array (Cplx ℝ)} {order percentage : Operand ℝ}

/-- The vector is a column with one entry for each state of its qubits. -/
structure IsKet (v : StateVector ℝ) : Prop where
  kind : v.kind = .ket
  shape : v.data.shape = [v.data.entries.size, 1]
  size : v.data.entries.size = 2 ^ v.numQubits

def withEntries (v : StateVector ℝ) (es : Array (Cplx ℝ)) : StateVector ℝ :=
  { v with data := { v.data with entries := es } }

def cleared (data : Tensor ℝ) (x : ℝ) : List ℕ := takeTo (bySize data) (truncate (x / 100 * data.entries.size))

lemma withEntries_data_eq_iff : (v.withEntries es).data = v.data ↔ es = v.data.entries := by
  refine ⟨congrArg Tensor.entries, ?_⟩; rintro rfl; rfl

lemma IsKet.withEntries (hv : v.IsKet) (h : es.size = v.data.entries.size) : (v.withEntries es).IsKet where
  kind := hv.kind
  shape := by change v.data.shape = [es.size, 1]; rw [hv.shape, h]
  size := h.trans hv.size

lemma IsKet.column (hv : v.IsKet) (h : es.size = v.data.entries.size) :
    Tensor.column { v.data with entries := es } = { v.data with entries := es } := by
  rw [Tensor.column, h, ← hv.shape]

lemma IsKet.changeIndexing_cases (hv : v.IsKet) (order : Operand ℝ) :
    (order = .text "snake" ∧ perform (changeIndexing order) v = (.ok (), v.withEntries
        (if 3 ≤ v.numQubits then folded v.data.entries else v.data.entries))) ∨
      (order = .text "row" ∧ perform (changeIndexing order) v = (.ok (), v)) ∨
      order ≠ .text "snake" ∧ order ≠ .text "row" ∧ perform (changeIndexing order) v = (.error .indexing, v) := by
  have hsh := fun es => @IsKet.column v es hv
  obtain ⟨kind, label, data, shape, n, scale, normalized, padded⟩ := v
  obtain rfl : kind = .ket := hv.kind
  rw [changeIndexing, perform_get_bind]
  split
  · refine .inl ⟨rfl, ?_⟩
    by_cases h3 : 3 ≤ n
    · have he : (data.entries.size % 2 != 0) = false := by
        have hsi : data.entries.size = 2 ^ n := hv.size
        rw [hsi, ← Nat.sub_add_cancel (by omega : 1 ≤ n), pow_succ]
        simp
      have hs : snake data = .ok { data with entries := folded data.entries } := by
        rw [snake, Tensor.size, he]; rfl
      rw [if_pos h3, if_pos h3, hs, perform_ofOutcome_bind]
      rw [hsh _ (size_folded _)]
      rfl
    · rw [if_neg h3, if_neg h3]; rfl
  · exact .inr (.inl ⟨rfl, rfl⟩)
  · next hs hr => exact .inr (.inr ⟨hs, hr, rfl⟩)

lemma IsKet.compress_cases (hv : v.IsKet) (percentage : Operand ℝ) :
    (∃ x, percentage.toReal = .ok x ∧ perform (compress percentage) v =
        (.ok (), v.withEntries (clearedAt v.data.entries (cleared v.data x)))) ∨
      ∃ f, percentage.toReal = .error f ∧ perform (compress percentage) v = (.error f, v) := by
  have hs := fun es => @IsKet.column v es hv
  obtain ⟨kind, label, data, shape, n, scale, normalized, padded⟩ := v
  obtain rfl : kind = .ket := hv.kind
  rw [compress]
  rcases percentage.toReal with f | x
  · exact .inr ⟨f, rfl, rfl⟩
  · refine .inl ⟨x, rfl, ?_⟩
    have hp : x / 100.0 * ofNat data.size = x / 100 * data.entries.size := by
      rw [ofNat_real, Tensor.size]; norm_num
    rw [perform_ofOutcome_bind, perform_get_bind]
    dsimp only
    rw [hp, isFinite_real]
    have hn : isNumber (x / 100 * data.entries.size : ℝ) = true := by simp [isNumber]
    rw [hn]
    change (Except.ok (), StateVector.mk .ket label (Tensor.column { data with
      entries := clearedAt data.entries (cleared data x) }) shape n scale normalized padded) = _
    rw [hs _ (size_clearedAt _ _)]
    rfl

/-- Neither the order nor the compression has anything to change. -/
def IsSettled (v : StateVector ℝ) (percentage order : Operand ℝ) : Prop :=
  (order = .text "snake" → 3 ≤ v.numQubits →
    (v.data.entries.extract (v.data.entries.size / 2) v.data.entries.size).reverse =
      v.data.entries.extract (v.data.entries.size / 2) v.data.entries.size) ∧
  (order = .text "snake" ∨ order = .text "row" → ∀ x, percentage.toReal = .ok x →
    ∀ i ∈ cleared v.data x, v.data.entries.getD i .zero = .zero)

lemma IsKet.condition_cases (hv : v.IsKet) (percentage order : Operand ℝ) :
    ∃ es, (perform (Preparation.condition percentage order) v).2 = v.withEntries es ∧
      es.size = v.data.entries.size ∧ (es = v.data.entries ↔ v.IsSettled percentage order) := by
  rw [Preparation.condition]
  -- the order may go wrong or put the entries into another order, and only then they are compressed
  have hst : ∀ rs : Array (Cplx ℝ), rs.toList.Perm v.data.entries.toList →
      perform (changeIndexing order) v = (.ok (), v.withEntries rs) →
      ∃ es, (perform (changeIndexing order >>= fun _ => compress percentage) v).2 = v.withEntries es ∧
        es.size = v.data.entries.size ∧ (es = v.data.entries ↔ rs = v.data.entries ∧
          ∀ x, percentage.toReal = .ok x → ∀ i ∈ cleared v.data x, v.data.entries.getD i .zero = .zero) := by
    intro rs hp ho
    have hs : rs.size = v.data.entries.size := hp.length_eq
    rw [perform_bind_ok ho]
    rcases (hv.withEntries hs).compress_cases percentage with ⟨x, hx, hco⟩ | ⟨f, hf, hco⟩
    · refine ⟨clearedAt rs (cleared (v.withEntries rs).data x), by rw [hco]; rfl,
        (size_clearedAt _ _).trans hs, ?_⟩
      rw [clearedAt_eq_iff_of_perm hp]
      refine and_congr_right fun hrs => ?_
      subst hrs
      simp [hx, StateVector.withEntries]
    · exact ⟨rs, by rw [hco], hs, by simp [hf]⟩
  rcases hv.changeIndexing_cases order with ⟨rfl, ho⟩ | ⟨rfl, ho⟩ | ⟨hsn, hr, ho⟩
  · obtain ⟨es, hl, hs, hi⟩ := hst _ (by split; exacts [perm_folded _, .refl _]) ho
    refine ⟨es, hl, hs, hi.trans ?_⟩
    by_cases h3 : 3 ≤ v.numQubits <;> simp [IsSettled, h3, folded_eq_self_iff]
  · obtain ⟨es, hl, hs, hi⟩ := hst v.data.entries (.refl _) ho
    exact ⟨es, hl, hs, hi.trans (by simp [IsSettled])⟩
  · refine ⟨v.data.entries, ?_, rfl, by simp [IsSettled, hsn, hr]⟩
    rw [perform_bind, ho]
    rfl

end StateVector

/-! ### Preparing -/

namespace Preparation

variable {v : StateVector ℝ} (R : Routines ℝ) (p : Preparation) (output : Framework)
  (qubits percentage order : Operand ℝ)

/-- What is left of a ket when it was prepared. -/
def left (v : StateVector ℝ) : StateVector ℝ := (perform (p.circuitFor R output qubits percentage order) v).2

lemma left_cases (v : StateVector ℝ) : (∃ f, Shannon.qubitsFor qubits v.numQubits .stateQubits = .error f ∧
        p.left R output qubits percentage order v = v) ∨
      ∃ qs, Shannon.qubitsFor qubits v.numQubits .stateQubits = .ok qs ∧
        p.left R output qubits percentage order v = (perform (condition percentage order) v).2 := by
  rw [left, circuitFor, perform_get_bind]
  rcases Shannon.qubitsFor qubits v.numQubits .stateQubits with f | qs
  · exact .inl ⟨f, rfl, rfl⟩
  refine .inr ⟨qs, rfl, ?_⟩
  rw [perform_ofOutcome_bind, perform_bind]
  rcases perform (condition percentage order) v with ⟨_ | _, w⟩
  · rfl
  dsimp only
  rw [perform_get_bind]
  rcases Circuit.new output (.int w.numQubits) with _ | c
  · rfl
  rw [perform_ofOutcome_bind]
  rcases c.after (p.build R w.numQubits w.data.entries) with _ | _ <;> rfl

/-- **A ket is left as it was** if it is not taken or if it is settled. -/
theorem exists_left_eq (hv : v.IsKet) :
    ∃ es, p.left R output qubits percentage order v = v.withEntries es ∧ es.size = v.data.entries.size ∧
      (es = v.data.entries ↔ ∀ qs, Shannon.qubitsFor qubits v.numQubits .stateQubits = .ok qs →
        v.IsSettled percentage order) := by
  rcases left_cases R p output qubits percentage order v with ⟨f, hf, hl⟩ | ⟨qs, hq, hl⟩
  · exact ⟨v.data.entries, hl, rfl, by simp [hf]⟩
  · obtain ⟨es, he, hs, hi⟩ := hv.condition_cases percentage order
    exact ⟨es, hl.trans he, hs, hi.trans (by simp [hq])⟩

/-- The state of three qubits with only the last of them on. -/
def lastOn : Tensor ℝ := .vector #[.zero, .zero, .zero, .zero, .one, .zero, .zero, .zero]

lemma exists_build_lastOn : ∃ v, StateVector.build .ket lastOn none = .ok v ∧ v.IsKet ∧ v.numQubits = 3 ∧
    v.data.entries = lastOn.entries := by
  have hn : StateVector.checkNormalization lastOn = true := by
    have hs : StateVector.squareSum lastOn = .one := by
      apply Cplx.value_injective; simp [StateVector.squareSum, lastOn, Tensor.vector]
    rw [StateVector.checkNormalization, hs]
    simp [Cplx.isClose]
  have hbu : StateVector.build .ket lastOn none = .ok ⟨.ket, StateVector.defaultLabel, lastOn.column, [8], 3,
      lastOn.norm, true, true⟩ := by
    rw [StateVector.build, hn]
    rfl
  exact ⟨_, hbu, ⟨rfl, rfl, rfl⟩, rfl, rfl⟩

/-- **What preparing leaves of a ket.**  It is a ket again, with the same entries if and only if it was not
taken, for its qubits, or there was nothing to change: the order asked for is the present one, or there are
less than three qubits, or the second half of the entries reads the same backwards; and the entries that a
compression clears, the smallest ones, are zero.  Then preparing it once more, on the same circuit or on a
new one, comes to the same. -/
theorem prepare_leaves_ket_iff (hv : v.IsKet) : let w := p.left R output qubits percentage order v
    w.IsKet ∧ (w.data = v.data ↔ ∀ qs, Shannon.qubitsFor qubits v.numQubits .stateQubits = .ok qs →
        (order = .text "snake" → 3 ≤ v.numQubits →
          (v.data.entries.extract (v.data.entries.size / 2) v.data.entries.size).reverse =
            v.data.entries.extract (v.data.entries.size / 2) v.data.entries.size) ∧
        (order = .text "snake" ∨ order = .text "row" → ∀ x, percentage.toReal = .ok x →
          ∀ i ∈ StateVector.cleared v.data x, v.data.entries.getD i .zero = .zero)) ∧
      (w.data = v.data → (∀ c, perform (p.apply R output (.state w) qubits percentage order) c =
          perform (p.apply R output (.state v) qubits percentage order) c) ∧
        p.prepare R output (.state w) percentage order = p.prepare R output (.state v) percentage order) := by
  intro w
  obtain ⟨es, hl, hs, hi⟩ := exists_left_eq R p output qubits percentage order hv
  have hw : w = v.withEntries es := hl
  clear_value w
  subst hw
  refine ⟨hv.withEntries hs, StateVector.withEntries_data_eq_iff.trans hi, fun hd => ?_⟩
  obtain rfl := StateVector.withEntries_data_eq_iff.mp hd
  exact ⟨fun _ => rfl, rfl⟩

/-- A tenth of eight entries is less than one, so none is cleared, and the rows are in order. -/
theorem prepare_leaves_ket_row : ∃ v, StateVector.build .ket lastOn none = .ok v ∧
    (merging.left .byRotations .reference (.range 0 3 1) (.real 10) (.text "row") v).data = v.data := by
  obtain ⟨v, hbu, hv, -, he⟩ := exists_build_lastOn
  refine ⟨v, hbu, (prepare_leaves_ket_iff .byRotations merging .reference _ _ _ hv).2.1.mpr fun qs _ => ?_⟩
  refine ⟨fun h => absurd h (by simp), fun _ x hx i hi => ?_⟩
  cases hx
  have hn : Scalar.truncate (10 / 100 * v.data.entries.size : ℝ) = 0 := by
    have hs : v.data.entries.size = 8 := by rw [he]; rfl
    rw [hs]
    change (if (0 : ℝ) ≤ 10 / 100 * (8 : ℕ) then ⌊(10 / 100 * (8 : ℕ) : ℝ)⌋ else _) = 0
    rw [if_pos (by norm_num), Int.floor_eq_zero_iff]
    constructor <;> norm_num
  rw [StateVector.cleared, hn] at hi
  cases hi

/-- The snake order is still there after a state was prepared in it, however it was. -/
theorem not_prepare_leaves_ket_snake : ∃ v, StateVector.build .ket lastOn none = .ok v ∧
    ∀ R p output, (left R p output (.range 0 3 1) (.real 0) (.text "snake") v).data ≠ v.data := by
  obtain ⟨v, hbu, hv, hn, he⟩ := exists_build_lastOn
  refine ⟨v, hbu, fun R p output hd => ?_⟩
  obtain ⟨es, hle, -, hi⟩ := exists_left_eq R p output (.range 0 3 1) (.real 0) (.text "snake") hv
  rw [hle] at hd
  have hq : Shannon.qubitsFor (.range 0 3 1 : Operand ℝ) v.numQubits .stateQubits = .ok (.range 0 3 1) := by
    rw [hn]; rfl
  have hba := (hi.mp (StateVector.withEntries_data_eq_iff.mp hd) _ hq).1 rfl hn.ge
  rw [he] at hba
  have hfi : (Cplx.zero : Cplx ℝ) = .one := by
    have hl := congrArg Array.toList hba
    simp only [lastOn, Tensor.vector, size_toArray, length_cons, length_nil, extract_toArray,
      reverse_toArray] at hl
    exact head_eq_of_cons_eq hl
  exact absurd (congrArg Cplx.value hfi) (by simp)

end Preparation

end QuantumCircuits

end
