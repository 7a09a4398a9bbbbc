import Mathlib.Tactic

/-!
# Exact — Register

States of qubits as functions.  A `Register` assigns a bit to every qubit and a `Wave` an amplitude
to every register, so no number of qubits is fixed here.

`select t M` applies to qubit `t` the two-by-two matrix that `M` picks by the other qubits.  Gates,
controlled gates and phases on a control all have this form, and `select_select` multiplies two of
them that have the same target: what a row of gates does to its target is a product of two-by-two
matrices, one for each value of the other qubits.

`selectEach` is the same on each of a list of qubits in turn.
-/

namespace QuantumCircuits

open List
open Function (update update_of_ne)

variable {t s : ℕ} {M N : Register → Square} {cs ts : List ℕ} {β : Type*} {f : Register → β}

abbrev Register := ℕ → Bool

abbrev Wave := Register → ℂ

abbrev Square := Matrix Bool Bool ℂ

/-! ### Two-by-two matrices -/

def square (a b c d : ℂ) : Square := fun i j => cond i (cond j d c) (cond j b a)

@[simp] lemma square_false_false (a b c d : ℂ) : square a b c d false false = a := rfl

@[simp] lemma square_false_true (a b c d : ℂ) : square a b c d false true = b := rfl

@[simp] lemma square_true_false (a b c d : ℂ) : square a b c d true false = c := rfl

@[simp] lemma square_true_true (a b c d : ℂ) : square a b c d true true = d := rfl

lemma eq_square (M : Square) : M = square (M false false) (M false true) (M true false) (M true true) := by
  ext i j
  cases i <;> cases j <;> rfl

lemma square_inj {a b c d a' b' c' d' : ℂ} :
    square a b c d = square a' b' c' d' ↔ a = a' ∧ b = b' ∧ c = c' ∧ d = d' := by
  constructor
  · intro h
    exact ⟨congrFun (congrFun h false) false, congrFun (congrFun h false) true,
      congrFun (congrFun h true) false, congrFun (congrFun h true) true⟩
  · rintro ⟨rfl, rfl, rfl, rfl⟩; rfl

lemma square_mul (a b c d a' b' c' d' : ℂ) : square a b c d * square a' b' c' d' =
      square (a * a' + b * c') (a * b' + b * d') (c * a' + d * c') (c * b' + d * d') := by
  ext i j
  cases i <;> cases j <;> simp [Matrix.mul_apply, add_comm]

lemma one_eq_square : (1 : Square) = square 1 0 0 1 := by
  ext i j
  cases i <;> cases j <;> simp

lemma smul_square (z a b c d : ℂ) : z • square a b c d = square (z * a) (z * b) (z * c) (z * d) := by
  ext i j
  cases i <;> cases j <;> simp

lemma square_conjTranspose (a b c d : ℂ) : (square a b c d).conjTranspose =
      square (starRingEnd ℂ a) (starRingEnd ℂ c) (starRingEnd ℂ b) (starRingEnd ℂ d) := by
  ext i j
  cases i <;> cases j <;> rfl

/-! ### What a function of registers depends on -/

def Blind {β : Type*} (t : ℕ) (f : Register → β) : Prop := ∀ b y, f (update b t y) = f b

lemma blind_const (t : ℕ) (x : β) : Blind t fun _ => x := fun _ _ => rfl

lemma blind_bit {c : ℕ} (h : c ≠ t) : Blind t fun b => b c := fun b y => update_of_ne h y b

lemma Blind.map {γ : Type*} (h : Blind t f) (g : β → γ) : Blind t fun b => g (f b) :=
  fun b y => congrArg g (h b y)

lemma Blind.map₂ {γ δ : Type*} {g : Register → γ}
    (hf : Blind t f) (hg : Blind t g) (k : β → γ → δ) : Blind t fun b => k (f b) (g b) :=
  fun b y => by simp [hf b y, hg b y]

lemma Blind.mul [Mul β] {g : Register → β} (hf : Blind t f)
    (hg : Blind t g) : Blind t fun b => f b * g b :=
  hf.map₂ hg (· * ·)

lemma blind_all (h : t ∉ cs) : Blind t fun b => cs.all b := by
  intro b y
  induction cs with
  | nil => rfl
  | cons c cs ih =>
    simp only [mem_cons, not_or] at h
    simp [all_cons, ih h.2, update_of_ne (Ne.symm h.1)]

/-- The matrix `M` where all of `cs` are on, and nothing elsewhere. -/
def under {β : Type*} [One β] (cs : List ℕ) (M : β) (b : Register) : β :=
  if cs.all b then M else 1

lemma blind_under [One β] (h : t ∉ cs) (M : β) : Blind t (under cs M) :=
  (blind_all h).map fun x => if x then M else 1

/-! ### One qubit -/

/-- Applies to qubit `t` the matrix that the register picks. -/
def select (t : ℕ) (M : Register → Square) (V : Wave) : Wave := fun b =>
  M b (b t) false * V (update b t false) + M b (b t) true * V (update b t true)

lemma select_congr (h : ∀ b, M b = N b) : select t M = select t N := by rw [funext h]

lemma update_bit {b : Register} {y : Bool} (h : b t = y) : update b t y = b := by
  rw [← h, Function.update_eq_self]

@[simp] lemma select_one (t : ℕ) (V : Wave) : select t (fun _ => 1) V = V := by
  funext b
  cases h : b t <;> simp [select, Matrix.one_apply, h, update_bit h]

/-- **Two gates on one qubit**: the second matrix times the first. -/
theorem select_select (hN : Blind t N) (V : Wave) : select t M (select t N V) = select t (fun b => M b * N b) V := by
  funext b
  simp only [select, hN b, Function.update_self, Function.update_idem, Matrix.mul_apply,
    Fintype.univ_bool, Finset.sum_insert, Finset.mem_singleton, Finset.sum_singleton,
    Bool.true_eq_false, not_false_eq_true]
  ring

lemma select_comm (hs : s ≠ t) (hM : Blind t M)
    (hN : Blind s N) (V : Wave) : select s M (select t N V) = select t N (select s M V) := by
  funext b
  simp only [select, hN b, hM b, update_of_ne hs, update_of_ne hs.symm, Function.update_comm hs]
  ring

lemma select_smul (t : ℕ) (M : Register → Square) (z : ℂ) (V : Wave) : select t M (z • V) = z • select t M V := by
  funext b; simp only [select, Pi.smul_apply, smul_eq_mul]; ring

lemma select_add (t : ℕ) (M : Register → Square) (V W : Wave) : select t M (V + W) = select t M V + select t M W := by
  funext b; simp only [select, Pi.add_apply]; ring

/-! ### Several qubits -/

/-- Applies a selected matrix to each of a list of qubits in turn. -/
def selectEach (ts : List ℕ) (M : Register → Square) (V : Wave) : Wave := ts.foldl (fun V t => select t M V) V

@[simp] lemma selectEach_nil (M : Register → Square) (V : Wave) : selectEach [] M V = V := rfl

@[simp] lemma selectEach_cons (t : ℕ) (ts : List ℕ) (M : Register → Square) (V : Wave) :
    selectEach (t :: ts) M V = selectEach ts M (select t M V) := rfl

lemma selectEach_one (ts : List ℕ) (V : Wave) : selectEach ts (fun _ => 1) V = V := by
  induction ts with
  | nil => rfl
  | cons t ts ih => rw [selectEach_cons, select_one, ih]

lemma select_selectEach (hs : s ∉ ts) (hM : ∀ t ∈ ts, Blind t M) (hN : Blind s N) (V : Wave) :
    select s M (selectEach ts N V) = selectEach ts N (select s M V) := by
  induction ts generalizing V with
  | nil => rfl
  | cons t ts ih =>
    simp only [mem_cons, not_or] at hs
    rw [selectEach_cons, ih hs.2 (fun t ht => hM t (mem_cons_of_mem _ ht)),
      select_comm hs.1 (hM t mem_cons_self) hN, selectEach_cons]

/-- **Two rows of gates on the same qubits**: the products of the matrices. -/
theorem selectEach_selectEach (hts : ts.Nodup) (hM : ∀ t ∈ ts, Blind t M) (hN : ∀ t ∈ ts, Blind t N) (V : Wave) :
    selectEach ts M (selectEach ts N V) = selectEach ts (fun b => M b * N b) V := by
  induction ts generalizing V with
  | nil => rfl
  | cons t ts ih =>
    obtain ⟨ht, hts⟩ := nodup_cons.mp hts
    have hM' : ∀ s ∈ ts, Blind s M := fun s hs => hM s (mem_cons_of_mem _ hs)
    have hN' : ∀ s ∈ ts, Blind s N := fun s hs => hN s (mem_cons_of_mem _ hs)
    simp only [selectEach_cons]
    rw [select_selectEach ht hM' (hN t mem_cons_self), ih hts hM' hN', select_select (hN t mem_cons_self)]

lemma selectEach_smul (ts : List ℕ) (M : Register → Square) (z : ℂ) (V : Wave) :
    selectEach ts M (z • V) = z • selectEach ts M V := by
  induction ts generalizing V with
  | nil => rfl
  | cons t ts ih => rw [selectEach_cons, select_smul, ih, selectEach_cons]

/-! ### Gated

Operators under control.  `gated p A` applies `A` where the register passes the test `p` and leaves
the other amplitudes alone.  An operator *respects* a test (`Respects`) when it does not mix the
registers that pass with those that fail, which is so for a gate on a qubit that the test does not
look at.  Then control goes through composition (`gated_comp`), and a pair of inverse operators
around a controlled one may be moved under the control (`gated_conj`).
-/

variable {p : Register → Bool} {A B : Wave → Wave} {t : ℕ} {b : Register}

def gated (p : Register → Bool) (A : Wave → Wave) (V : Wave) : Wave := fun b =>
  if p b then A V b else V b

/-- What `A` makes of a wave on the part where `p` has some value depends on that part only. -/
def Respects (p : Register → Bool) (A : Wave → Wave) : Prop :=
  ∀ (V W : Wave) (b : Register), (∀ b', p b' = p b → V b' = W b') → A V b = A W b

def allOn (cs : List ℕ) : Register → Bool := fun b => cs.all b

@[simp] lemma allOn_nil (b : Register) : allOn [] b = true := rfl

@[simp] lemma allOn_cons (c : ℕ) (cs : List ℕ) (b : Register) : allOn (c :: cs) b = (b c && allOn cs b) := rfl

lemma allOn_append (cs ds : List ℕ) (b : Register) : allOn (cs ++ ds) b = (allOn cs b && allOn ds b) := List.all_append

lemma blind_allOn {cs : List ℕ} (h : t ∉ cs) : Blind t (allOn cs) := blind_all h

/-! ### Respecting a test -/

lemma respects_id (p : Register → Bool) : Respects p id := fun _ _ b h => h b rfl

lemma Respects.comp (hA : Respects p A) (hB : Respects p B) : Respects p fun V => A (B V) := by
  intro V W b h; refine hA _ _ _ fun b' hb' => hB _ _ _ fun b'' hb'' => h b'' ?_; rw [hb'', hb']

lemma respects_select (hp : Blind t p) (M : Register → Square) : Respects p (select t M) := by
  intro V W b h; simp [select, h _ (hp b _)]

lemma respects_selectEach {ts : List ℕ} (hp : ∀ t ∈ ts, Blind t p)
    (M : Register → Square) : Respects p (selectEach ts M) := by
  induction ts with
  | nil => exact respects_id p
  | cons t ts ih =>
    exact (ih fun s hs => hp s (List.mem_cons_of_mem _ hs)).comp (respects_select (hp t List.mem_cons_self) M)

lemma Respects.gated (hA : Respects p A) (q : Register → Bool) : Respects p (gated q A) := by
  intro V W b h; simp [QuantumCircuits.gated, hA V W b h, h b rfl]

/-! ### Rules for control -/

@[simp] lemma gated_id (p : Register → Bool) : gated p id = id := by funext V b; simp [gated]

lemma gated_on (h : p b = true) (A : Wave → Wave) (V : Wave) : gated p A V b = A V b := if_pos h

lemma gated_off (h : ¬p b = true) (A : Wave → Wave) (V : Wave) : gated p A V b = V b := if_neg h

lemma gated_comp (hA : Respects p A) (B : Wave → Wave)
    (V : Wave) : gated p A (gated p B V) = gated p (fun V => A (B V)) V := by
  funext b
  by_cases hb : p b = true
  · rw [gated_on hb, gated_on hb]; exact hA _ _ _ fun b' hb' => gated_on (hb'.trans hb) B V
  · rw [gated_off hb, gated_off hb, gated_off hb]

/-- **Inverse operators around a controlled one may stand under the control.** -/
theorem gated_conj {C : Wave → Wave} (hA : Respects p A) (hi : ∀ V, A (C V) = V) (V : Wave) :
    A (gated p B (C V)) = gated p (fun V => A (B (C V))) V := by
  funext b
  by_cases hb : p b = true
  · rw [gated_on hb]; exact hA _ _ _ fun b' hb' => gated_on (hb'.trans hb) B (C V)
  · rw [gated_off hb]
    conv_rhs => rw [← hi V]
    exact hA _ _ _ fun b' hb' => gated_off (by rwa [hb']) B (C V)

lemma gated_gated (p q : Register → Bool) (A : Wave → Wave) : gated p (gated q A) = gated (fun b => p b && q b) A := by
  funext V b
  cases hp : p b <;> simp [gated, hp]

lemma gated_congr {q : Register → Bool} (h : ∀ b, p b = q b) (A : Wave → Wave) : gated p A = gated q A := by
  rw [funext h]

lemma gated_allOn_append (cs ds : List ℕ) (A : Wave → Wave) :
    gated (allOn (cs ++ ds)) A = gated (allOn cs) (gated (allOn ds) A) := by
  rw [gated_gated]
  exact gated_congr (allOn_append cs ds) A

lemma gated_select (M : Register → Square) : gated p (select t M) = select t fun b => if p b then M b else 1 := by
  funext V b
  cases hp : p b
  · have ho := congrFun (select_one t V) b
    simp only [gated, hp, Bool.false_eq_true, if_false]
    simpa [select, hp] using ho.symm
  · simp [gated, select, hp]

end QuantumCircuits
