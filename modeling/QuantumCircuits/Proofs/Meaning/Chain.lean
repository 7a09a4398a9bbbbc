import QuantumCircuits.Proofs.Meaning.Controlled

/-!
# Meaning — Chain

Negations under many controls.  Two controls and three controls are settled register by register.
For more, a walk down the ancillas and back acts on each of them by a Pauli gate that only the
controls pick (`acts_walk`): nothing, the third or the second one, and the last ancilla gets the
second, which flips it, exactly when all controls before it are on.  A negation of the target by the
last ancilla, between two such walks, is therefore made once more or once less when these controls
are on, and nothing is left of it when they are not (`acts_chainParts`).
-/

noncomputable section

namespace QuantumCircuits

open Real List Base Complex
open Function (update update_of_ne update_self update_idem update_eq_self)

variable {t s : ℕ} {M : Register → Square} {f : Register → Bool}

/-! ### Links -/

namespace Base

/-- What a link does to its ancilla before it looks at the next one. -/
def bend (x : Bool) : Square :=
  Base.tdg.square [] * (if x then Base.x.square [] else 1) * Base.t.square [] * Base.h.square []

def unbend (x : Bool) : Square :=
  Base.h.square [] * Base.tdg.square [] * (if x then Base.x.square [] else 1) * Base.t.square []

/-- What a flip becomes on the other side of a link. -/
def bent (x : Bool) : Square := if x then y.square [] else z.square []

lemma t_mul_tdg : Base.t.square [] * Base.tdg.square [] = 1 := by
  rw [square_t, square_tdg, square_phase_mul_neg]

lemma tdg_mul_t_mul (M : Square) : Base.tdg.square [] * (Base.t.square [] * M) = M := by
  rw [← mul_assoc, tdg_mul_t, one_mul]

lemma t_mul_tdg_mul (M : Square) : Base.t.square [] * (Base.tdg.square [] * M) = M := by
  rw [← mul_assoc, t_mul_tdg, one_mul]

lemma x_mul_x_mul (M : Square) : x.square [] * (x.square [] * M) = M := by
  rw [← mul_assoc, square_x_mul_x, one_mul]

lemma unbend_mul_bend (x : Bool) : unbend x * bend x = 1 := by
  calc unbend x * bend x = h.square [] * Base.tdg.square [] * ((if x then Base.x.square [] else 1) *
          (Base.t.square [] * Base.tdg.square []) * (if x then Base.x.square [] else 1)) *
          t.square [] * h.square [] := by simp only [unbend, bend, mul_assoc]
    _ = h.square [] * (tdg.square [] * t.square []) * h.square [] := by
      cases x <;> simp only [t_mul_tdg, mul_one, if_true, if_false, Bool.false_eq_true, square_x_mul_x, mul_assoc]
    _ = 1 := by rw [tdg_mul_t, mul_one, square_h_mul_h]

lemma tdg_x_t_x : tdg.square [] * x.square [] * Base.t.square [] * x.square [] *
    (tdg.square [] * x.square [] * Base.t.square []) = -y.square [] := by
  rw [tdg_x_t, square_x, square_y, square_mul, square_mul, ← neg_one_smul ℂ (QuantumCircuits.square _ _ _ _),
    smul_square, square_inj]
  have hr := root_half
  have hI := I_mul_I
  set r : ℂ := ((1 / √2 : ℝ) : ℂ)
  refine ⟨by ring, ?_, ?_, by ring⟩
  · linear_combination 2 * I * hr + r * r * hI
  · linear_combination -2 * I * hr + r * r * hI

lemma square_h_y_h : h.square [] * y.square [] * h.square [] = -y.square [] := by
  rw [square_h, square_y, square_mul, square_mul, ← neg_one_smul ℂ (QuantumCircuits.square _ _ _ _),
    smul_square, square_inj, ofReal_neg]
  have hr := root_half
  refine ⟨?_, ?_, ?_, ?_⟩
  · ring
  · linear_combination 2 * I * hr
  · linear_combination -2 * I * hr
  · ring

lemma unbend_x_bend (x : Bool) : unbend x * Base.x.square [] * bend x = bent x := by
  cases x with
  | false =>
    simp only [unbend, bend, bent, if_false, Bool.false_eq_true, mul_one]
    rw [mul_assoc (h.square []), tdg_mul_t, mul_one, one_mul, square_h_x_h]
  | true =>
    calc unbend true * x.square [] * bend true = h.square [] * (tdg.square [] * x.square [] * t.square [] *
            x.square [] * (tdg.square [] * x.square [] * t.square [])) *
            h.square [] := by simp [unbend, bend, mul_assoc]
      _ = bent true := by rw [tdg_x_t_x, mul_neg, neg_mul, square_h_y_h, neg_neg]; rfl

end Base

/-! ### A gate between two gates that it controls -/

lemma select_of_antidiagonal {b : Register} {x y : ℂ} (h : M b = square 0 x y 0) (V : Wave) :
    select s M V b = (if b s then y else x) * V (update b s (!b s)) := by
  rw [select_at h]
  cases hb : b s <;> simp [select, hb]

/-- The matrix `M` is diagonal, or antidiagonal where `f` says so. -/
def Flips (f : Register → Bool) (M : Register → Square) : Prop :=
  ∀ b, ∃ x y, M b = if f b then square 0 x y 0 else square x 0 0 y

/-- The register with `s` flipped where `f` says so. -/
def flipAt (s : ℕ) (f : Register → Bool) (b : Register) : Register := update b s (f b ^^ b s)

/-- **A gate on `t` passes a gate that flips `s`**, and is then picked with `s` flipped. -/
theorem select_past (hs : s ≠ t) (hMt : Blind t M) (hM : Flips f M)
    (N : Register → Square) (V : Wave) :
    select s M (select t N V) = select t (fun b => N (flipAt s f b)) (select s M V) := by
  funext b
  obtain ⟨x, y, hMb⟩ := hM b
  have hbt : flipAt s f b t = b t := update_of_ne hs.symm _ _
  have hco : ∀ (W : Wave) z, select s M W (update b t z) =
      (if b s then y else x) * W (update (flipAt s f b) t z) := by
    intro W z
    have hMz := (hMt b z).trans hMb
    cases hf : f b with
    | false =>
      rw [hf] at hMz
      rw [select_of_diagonal hMz, update_of_ne hs, flipAt, hf, Bool.false_xor, update_eq_self]
    | true =>
      rw [hf] at hMz
      rw [select_of_antidiagonal hMz, update_of_ne hs, flipAt, hf, Bool.true_xor, Function.update_comm hs]
  have hb : ∀ r : Register, update r t (r t) = r := fun r => update_eq_self t r
  calc select s M (select t N V) b = (if b s then y else x) * select t N V (flipAt s f b) := by
        rw [← hb b, hco, hb, ← hbt, hb]
    _ = select t (fun b => N (flipAt s f b)) (select s M V) b := by simp only [select.eq_1 t, hco, hbt]; ring

lemma Blind.flipAt {β : Type} {N : Register → β} (hs : s ≠ t) (hN : Blind t N)
    (hf : Blind t f) : Blind t fun b => N (flipAt s f b) := by
  intro b z
  simp only [QuantumCircuits.flipAt]
  rw [hf, update_of_ne hs, Function.update_comm hs.symm, hN]

/-- **A gate on `s` between two gates on `t` that `s` controls.**  Where the gate leaves the control
alone the two cancel; where it flips the control, one of them is made and the other is not. -/
theorem select_sandwich (hs : s ≠ t) {K L Q : Register → Square}
    (hK : Blind s K) (hKt : Blind t K) (hQs : Blind s Q) (hQt : Blind t Q) (hMt : Blind t M)
    (hL : ∀ b, L b * K b = 1) (hQ : ∀ b, Q b * Q b = 1)
    (hM : Flips f M) (hf : Blind t f) (V : Wave) :
    select t (fun b => L b * if b s then Q b else 1)
        (select s M (select t (fun b => (if b s then Q b else 1) * K b) V)) =
      select t (fun b => if f b then L b * Q b * K b else 1) (select s M V) := by
  have hbl : Blind t fun b => (if b s then Q b else 1) * K b :=
    ((blind_bit hs).map₂ hQt fun x q => if x then q else 1).mul hKt
  rw [select_past hs hMt hM, select_select (hbl.flipAt hs hf)]
  refine congrFun (select_congr fun b => ?_) _
  rw [flipAt, update_self, hK, hQs]
  cases f b <;> cases b s <;> simp [hL, mul_assoc, ← mul_assoc (Q b) (Q b), hQ]

def sixteenths (k : ℤ) : ℂ := exp ((k * (π / (8 : ℕ)) : ℝ) * I)

lemma sixteenths_add (j k : ℤ) : sixteenths (j + k) = sixteenths j * sixteenths k := by
  rw [sixteenths, sixteenths, sixteenths, ← exp_angle_add]; push_cast; ring_nf

lemma sixteenths_zero : sixteenths 0 = 1 := by simp [sixteenths]

lemma sixteenths_eight : sixteenths 8 = -1 := by
  have h : ((8 : ℤ) : ℝ) * (π / (8 : ℕ)) = π := by push_cast; ring
  rw [sixteenths, h, exp_pi_mul_I]

/-! ### Walks -/

namespace Operation

variable {c q m b j d : ℕ} {a : ℕ → ℕ} {cs as : List ℕ}

/-- Down from an ancilla to the first one and back. -/
def walk (c a : ℕ → ℕ) : ℕ → List Operation
  | 0 => turningParts (c 0) (c 1) (a 0)
  | j + 1 =>
    linkParts (c (j + 2)) (a j) (a (j + 1)) ++ walk c a j ++ unlinkParts (c (j + 2)) (a j) (a (j + 1))

def upTo (c : ℕ → ℕ) (j : ℕ) (b : Register) : Bool := allOn ((range (j + 1)).map c) b

def walkSquare (c : ℕ → ℕ) : ℕ → Register → Square
  | 0, b => if b (c 1) then bent (b (c 0)) else 1
  | j + 1, b => if upTo c (j + 1) b then bent (b (c (j + 2))) else 1

/-- What a walk over the first `m` ancillas does. -/
def walkWave (c a : ℕ → ℕ) : ℕ → Wave → Wave
  | 0, V => V
  | m + 1, V => select (a m) (walkSquare c m) (walkWave c a m V)

/-- The ancillas up to `m` differ from each other and from the controls. -/
structure Apart (c a : ℕ → ℕ) (m : ℕ) : Prop where
  control : ∀ i ≤ m, ∀ k ≤ m + 1, a i ≠ c k
  ancilla : ∀ i ≤ m, ∀ k ≤ m, i ≠ k → a i ≠ a k

lemma Apart.mono {c : ℕ → ℕ} {n : ℕ} (h : Apart c a n) (hm : m ≤ n) : Apart c a m :=
  ⟨fun i hi k hk => h.control i (hi.trans hm) k (by omega),
    fun i hi k hk => h.ancilla i (hi.trans hm) k (hk.trans hm)⟩

lemma upTo_succ (c : ℕ → ℕ) (j : ℕ) (b : Register) : upTo c (j + 1) b = (upTo c j b && b (c (j + 1))) := by
  rw [upTo, range_succ, map_append, allOn_append]; simp [upTo]

lemma blind_upTo {c : ℕ → ℕ} (h : ∀ k ≤ j, q ≠ c k) : Blind q (upTo c j) := by
  apply blind_allOn
  simp only [mem_map, mem_range, not_exists, not_and]
  intro k hk
  exact (h k (by omega)).symm

lemma blind_walkSquare {c : ℕ → ℕ} (h : ∀ k ≤ j + 1, q ≠ c k) : Blind q (walkSquare c j) := by
  cases j with
  | zero =>
    exact (blind_bit (h 1 le_rfl).symm).map₂ (blind_bit (h 0 (by omega)).symm) fun x y => if x then bent y else 1
  | succ j =>
    exact (blind_upTo fun k hk => h k (by omega)).map₂ (blind_bit (h (j + 2) le_rfl).symm)
      fun x y => if x then bent y else 1

lemma bent_true : bent true = square 0 (-I) I 0 := by simp [bent]

lemma bent_false : bent false = square 1 0 0 (-1) := by simp [bent]

lemma bent_mul_self (x : Bool) : bent x * bent x = 1 := by
  cases x
  · rw [bent_false, square_mul, one_eq_square]; simp
  · rw [bent_true, square_mul, one_eq_square]; simp

lemma walkSquare_mul_self (c : ℕ → ℕ) (j : ℕ) (b : Register) : walkSquare c j b * walkSquare c j b = 1 := by
  cases j <;> simp only [walkSquare] <;> split <;> simp [bent_mul_self]

lemma flips_walkSquare (c : ℕ → ℕ) (j : ℕ) : Flips (upTo c (j + 1)) (walkSquare c j) := by
  have h : ∀ x y : Bool, ∃ z w, (if x then bent y else 1) =
      if (x && y) then square 0 z w 0 else square z 0 0 w := by
    intro x y
    cases x <;> cases y
    · exact ⟨1, 1, one_eq_square⟩
    · exact ⟨1, 1, one_eq_square⟩
    · exact ⟨1, -1, bent_false⟩
    · exact ⟨-I, I, bent_true⟩
  intro b
  cases j with
  | zero =>
    obtain ⟨z, w, hzw⟩ := h (b (c 1)) (b (c 0))
    refine ⟨z, w, ?_⟩
    rw [walkSquare, hzw]
    simp [upTo, range_succ, Bool.and_comm]
  | succ j =>
    obtain ⟨z, w, hzw⟩ := h (upTo c (j + 1) b) (b (c (j + 2)))
    refine ⟨z, w, ?_⟩
    rw [walkSquare, hzw, upTo_succ c (j + 1)]

lemma select_walkWave {c : ℕ → ℕ} {N : Register → Square} (hq : ∀ i < m, q ≠ a i)
    (hN : ∀ i < m, Blind (a i) N) (hc : ∀ k ≤ m, q ≠ c k) (V : Wave) :
    select q N (walkWave c a m V) = walkWave c a m (select q N V) := by
  induction m with
  | zero => rfl
  | succ m ih =>
    rw [walkWave, select_comm (hq m (by omega)) (hN m (by omega))
      (blind_walkSquare fun k hk => hc k (by omega)), ih (fun i hi => hq i (by omega))
      (fun i hi => hN i (by omega)) (fun k hk => hc k (by omega)), walkWave]

lemma walkWave_walkWave {c : ℕ → ℕ} (h : Apart c a m) (V : Wave) :
    walkWave c a (m + 1) (walkWave c a (m + 1) V) = V := by
  have hbl : Blind (a m) (walkSquare c m) := blind_walkSquare fun k hk => h.control m le_rfl k hk
  have ho : ∀ V, select (a m) (fun b => walkSquare c m b * walkSquare c m b) V = V := by
    intro V; rw [funext (walkSquare_mul_self c m), select_one]
  induction m generalizing V with
  | zero => exact (select_select hbl V).trans (ho V)
  | succ m ih =>
    have hl : Apart c a m := h.mono (by omega)
    have hco : ∀ V, select (a (m + 1)) (walkSquare c (m + 1)) (walkWave c a (m + 1) V) =
        walkWave c a (m + 1) (select (a (m + 1)) (walkSquare c (m + 1)) V) :=
      select_walkWave (fun i hi => h.ancilla (m + 1) le_rfl i (by omega) (by omega))
        (fun i hi => blind_walkSquare fun k hk => h.control i (by omega) k hk)
        (fun k hk => h.control (m + 1) le_rfl k (by omega))
    calc walkWave c a (m + 2) (walkWave c a (m + 2) V) = select (a (m + 1)) (walkSquare c (m + 1)) (walkWave c a (m + 1)
            (select (a (m + 1)) (walkSquare c (m + 1)) (walkWave c a (m + 1) V))) := rfl
      _ = walkWave c a (m + 1) (walkWave c a (m + 1) V) := by rw [← hco, select_select hbl, ho]
      _ = V := ih hl V (blind_walkSquare fun k hk => hl.control m le_rfl k hk)
          fun V => by rw [funext (walkSquare_mul_self c m), select_one]

lemma acts_linkParts (hc : t ≠ c) (hq : t ≠ q) (V : Wave) : acts (linkParts c q t) V =
      select t (fun b => (if b q then Base.x.square [] else 1) * Base.bend (b c)) V := by
  rw [acts_eq_select (t := t) (by simp [linkParts, OnQubit, onTwo, hc, hq])]
  refine congrFun (select_congr fun b => ?_) V
  simp [picks, pick, linkParts, bend, mul_assoc]

lemma acts_unlinkParts (hc : t ≠ c) (hq : t ≠ q) (V : Wave) : acts (unlinkParts c q t) V =
      select t (fun b => Base.unbend (b c) * if b q then Base.x.square [] else 1) V := by
  rw [acts_eq_select (t := t) (by simp [unlinkParts, OnQubit, onTwo, hc, hq])]
  refine congrFun (select_congr fun b => ?_) V
  simp [picks, pick, unlinkParts, unbend, mul_assoc]

lemma acts_turningParts (hc : t ≠ c) (hd : t ≠ d) (V : Wave) :
    acts (turningParts c d t) V = select t (fun b => if b d then bent (b c) else 1) V := by
  rw [acts_eq_select (t := t) (by simp [turningParts, OnQubit, onTwo, hc, hd])]
  refine congrFun (select_congr fun b => ?_) V
  have h : picks (turningParts c d t) b =
      unbend (b c) * (if b d then x.square [] else 1) * bend (b c) := by
    simp [picks, pick, turningParts, unbend, bend, mul_assoc]
  rw [h]
  cases b d
  · simp [unbend_mul_bend]
  · simp only [if_true, unbend_x_bend]

/-- **A walk acts on each ancilla by what the controls before it pick.** -/
theorem acts_walk {c : ℕ → ℕ} (h : Apart c a j) (V : Wave) : acts (walk c a j) V = walkWave c a (j + 1) V := by
  induction j generalizing V with
  | zero =>
    exact acts_turningParts (h.control 0 le_rfl 0 (by omega)) (h.control 0 le_rfl 1 (by omega)) V
  | succ j ih =>
    have hc : a (j + 1) ≠ c (j + 2) := h.control _ le_rfl _ le_rfl
    have ha : a (j + 1) ≠ a j := h.ancilla _ le_rfl _ (by omega) (by omega)
    have hcj : a j ≠ c (j + 2) := h.control _ (by omega) _ le_rfl
    have hbe : ∀ q, q ≠ c (j + 2) → Blind q fun b : Register => bend (b (c (j + 2))) :=
      fun q hq => (blind_bit hq.symm).map bend
    -- the ancillas below the next one do not meet the link
    have hbl : ∀ i < j, Blind (a i) fun b : Register =>
        (if b (a j) then x.square [] else 1) * bend (b (c (j + 2))) := fun i hi =>
      ((blind_bit (h.ancilla j (by omega) i (by omega) (by omega))).map
        fun x => if x then Base.x.square [] else 1).mul (hbe _ (h.control i (by omega) _ le_rfl))
    rw [walk, acts_append, acts_append, acts_linkParts hc ha, ih (h.mono (by omega)),
      acts_unlinkParts hc ha, walkWave, ← select_walkWave
        (fun i hi => h.ancilla _ le_rfl i (by omega) (by omega)) hbl
        (fun k hk => h.control _ le_rfl k (by omega)),
      select_sandwich ha.symm (hbe _ hcj) (hbe _ hc) (blind_const _ _) (blind_const _ _)
        (blind_walkSquare fun k hk => h.control _ le_rfl k (by omega))
        (fun b => unbend_mul_bend _) (fun _ => square_x_mul_x) (flips_walkSquare c j)
        (blind_upTo fun k hk => h.control _ le_rfl k (by omega))]
    simp only [unbend_x_bend]
    rfl

/-! ### Two and three controls -/

lemma x_tdg_x : x.square [] * tdg.square [] * x.square [] = exp ((-(π / 4) : ℝ) * I) • Base.t.square [] := by
  rw [square_x, square_tdg, square_t, square_phase, square_phase, square_mul,
    square_mul, smul_square, square_inj, exp_neg_mul_self]
  simp

lemma picks_ccx (c d t : ℕ) (b : Register) :
    picks [on .h [t], cx d t, on .tdg [t], cx c t, on .t [t], cx d t, on .tdg [t], cx c t, on .t [t],
      on .h [t]] b = if b c && b d then (-I) • x.square [] else 1 := by
  simp only [picks, foldl, pick, allOn_cons, allOn_nil, Bool.and_true]
  cases b c <;> cases b d <;> simp only [Bool.false_eq_true, if_true, if_false, one_mul, mul_one,
    Bool.and_true, Bool.and_false, Bool.and_self]
  · simp only [t_mul_tdg_mul, square_h_mul_h]
  · simp only [t_mul_tdg_mul, x_mul_x_mul, square_h_mul_h]
  · simp only [tdg_mul_t_mul, t_mul_tdg_mul, Base.x_mul_x_mul, Base.square_h_mul_h]
  · calc Base.h.square [] * (Base.t.square [] * (Base.x.square [] * (Base.tdg.square [] *
          (Base.x.square [] * (Base.t.square [] * (Base.x.square [] * (Base.tdg.square [] *
          (x.square [] * h.square []))))))))
        = Base.h.square [] * (Base.t.square [] * (Base.x.square [] * Base.tdg.square [] *
            Base.x.square []) * (Base.t.square [] * (Base.x.square [] * Base.tdg.square [] *
            x.square []))) * h.square [] := by simp [mul_assoc]
      _ = (-I) • x.square [] := by
        have hs : exp ((-(π / 4) : ℝ) * I) * exp ((-(π / 4) : ℝ) * I) = -I := by
          rw [← exp_angle_add, (by ring : -(π / 4) + -(π / 4) = -(π / 2)), exp_minus_quarter]
        have ht : Base.t.square [] * Base.t.square [] * (Base.t.square [] * Base.t.square []) = z.square [] := by
          rw [square_t, square_phase_mul, square_phase_mul, ← square_phase_pi]; congr 2; ring
        rw [x_tdg_x, mul_smul_comm, smul_mul_smul_comm, hs, ht, mul_smul_comm, smul_mul_assoc]
        exact congrArg _ square_h_z_h

lemma acts_ccx_controls (hcd : c ≠ d) (V : Wave) (b : Register) :
    acts [on .t [d], cx c d, on .t [c], on .tdg [d], cx c d] V b = (if b c && b d then I else 1) * V b := by
  have hp := half_phases (π / 2) (b d) (b c)
  rw [exp_quarter, (by ring : π / 2 / 2 = π / 4), Bool.and_comm] at hp
  simp only [acts_cons, acts_nil, act_t, act_tdg, act_cx, act_phase, update_self,
    update_of_ne hcd, update_idem, Bool.xor_assoc, Bool.xor_self, Bool.xor_false,
    update_eq_self, ← hp]
  ring

lemma acts_ccxParts (hcd : c ≠ d) (hct : t ≠ c) (hd : t ≠ d) (V : Wave) :
    acts (ccxParts c d t) V = gated (allOn [c, d]) (select t fun _ => x.square []) V := by
  have hs : ccxParts c d t = [on .h [t], cx d t, on .tdg [t], cx c t, on .t [t], cx d t,
      on .tdg [t], cx c t, on .t [t], on .h [t]] ++ [on .t [d], cx c d, on .t [c], on .tdg [d], cx c d] := rfl
  funext b
  rw [hs, acts_append, acts_ccx_controls hcd, acts_eq_select (t := t)
    (by simp [OnQubit, onTwo, hct, hd]), select_at (picks_ccx c d t b)]
  have ha : allOn [c, d] b = (b c && b d) := by simp
  cases h : (b c && b d)
  · rw [gated_off (by simp [ha, h])]
    simp
  · rw [gated_on (ha.trans h), if_pos rfl, if_pos rfl, select_const_smul, Pi.smul_apply,
      smul_eq_mul, ← mul_assoc, mul_neg, I_mul_I, neg_neg, one_mul]

lemma act_phase_plus (t : ℕ) (V : Wave) (r : Register) :
    (turn .phase (π / 8) [t]).act V r = sixteenths (r t).toInt * V r := by
  rw [act_phase]
  cases r t <;> simp [sixteenths]

lemma act_phase_minus (t : ℕ) (V : Wave) (r : Register) :
    (turn .phase (-(π / 8)) [t]).act V r = sixteenths (-(r t).toInt) * V r := by
  rw [act_phase]
  cases r t <;> simp [sixteenths]

lemma acts_c3xControls {a : ℕ} (ha : a ≠ b) (hac : a ≠ c) (hbc : b ≠ c) (V : Wave)
    (r : Register) : acts (c3xControls a b c) V r =
      sixteenths (-(r b ^^ r a).toInt - (r c ^^ r b).toInt + (r c ^^ r b ^^ r a).toInt - (r c ^^ r a).toInt) * V r := by
  have hb : (r b ^^ r a ^^ r a) = r b := by cases r a <;> cases r b <;> rfl
  have hc : (r c ^^ r a ^^ r b ^^ r a ^^ r b) = r c := by
    cases r a <;> cases r b <;> cases r c <;> rfl
  simp only [c3xControls, acts_cons, acts_nil, act_cx, act_phase_plus, act_phase_minus,
    update_self, update_of_ne ha, update_of_ne hac,
    update_of_ne hbc, update_idem, hb, hc, update_eq_self]
  simp only [← mul_assoc, ← sixteenths_add]
  congr 2
  cases r a <;> cases r b <;> cases r c <;> rfl

lemma acts_c3xTarget {a : ℕ} (ha : a ≠ t) (hbt : b ≠ t) (hct : c ≠ t) (V : Wave)
    (r : Register) : acts (c3xTarget a b c t) V r =
      sixteenths (-(r t ^^ r c).toInt + (r t ^^ r c ^^ r b).toInt - (r t ^^ r b).toInt +
        (r t ^^ r b ^^ r a).toInt - (r t ^^ r a ^^ r b ^^ r c).toInt + (r t ^^ r a ^^ r c).toInt -
        (r t ^^ r a).toInt) * V r := by
  have ht : (r t ^^ r a ^^ r c ^^ r b ^^ r c ^^ r a ^^ r c ^^ r b ^^ r c) = r t := by
    cases r a <;> cases r b <;> cases r c <;> cases r t <;> rfl
  simp only [c3xTarget, acts_cons, acts_nil, act_cx, act_phase_plus, act_phase_minus,
    update_self, update_of_ne ha, update_of_ne hbt,
    update_of_ne hct, update_idem, ht, update_eq_self]
  simp only [← mul_assoc, ← sixteenths_add]
  congr 2
  cases r a <;> cases r b <;> cases r c <;> cases r t <;> rfl

lemma act_phase_each {a : ℕ} (V : Wave) (r : Register) : (turn .phase (π / 8) [a, b, c, t]).act V r =
      sixteenths ((r t).toInt + (r c).toInt + (r b).toInt + (r a).toInt) * V r := by
  have h : (turn .phase (π / 8) [a, b, c, t]).act V = acts [turn .phase (π / 8) [a],
      turn .phase (π / 8) [b], turn .phase (π / 8) [c], turn .phase (π / 8) [t]] V := by
    simp [acts_cons, acts_nil, act_plain (b := .phase) rfl, selectEach_cons, selectEach_nil]
  rw [h]
  simp only [acts_cons, acts_nil, act_phase_plus]
  simp [← mul_assoc, ← sixteenths_add, add_assoc]

lemma acts_c3x_phases {a : ℕ} (ha : a ≠ b) (hac : a ≠ c) (hbc : b ≠ c) (hat : a ≠ t)
    (hbt : b ≠ t) (hct : c ≠ t) (V : Wave) :
    acts (turn .phase (π / 8) [a, b, c, t] :: (c3xControls a b c ++ c3xTarget a b c t)) V =
      gated (allOn [a, b, c]) (selectEach [t] fun _ => z.square []) V := by
  funext r
  have hz : ∀ V : Wave, selectEach [t] (fun _ => z.square []) V r = (if r t then -1 else 1) * V r := by
    intro V; rw [square_z, selectEach_cons, selectEach_nil, select_diagonal]
  rw [acts_cons, acts_append, acts_c3xTarget hat hbt hct, acts_c3xControls ha hac hbc,
    act_phase_each, ← mul_assoc, ← mul_assoc, ← sixteenths_add, ← sixteenths_add]
  simp only [gated, allOn_cons, allOn_nil, Bool.and_true, hz]
  cases r a <;> cases r b <;> cases r c <;> cases r t <;> simp [Bool.toInt, sixteenths_zero, sixteenths_eight]

/-- **The negation under one, two or three controls.** -/
theorem acts_c3xParts (hcs : cs.Nodup) (ht : t ∉ cs) (h0 : cs ≠ []) (h4 : cs.length < 4) (V : Wave) :
    acts (c3xParts cs t) V = gated (allOn cs) (select t fun _ => x.square []) V := by
  match cs, h0, h4 with
  | [c], _, _ =>
    simp only [c3xParts, acts_cons, acts_nil, act, act_single (b := .x) rfl]
    rfl
  | [c, d], _, _ =>
    simp only [nodup_cons, mem_cons, not_mem_nil, or_false, not_or] at hcs ht
    exact acts_ccxParts hcs.1 ht.1 ht.2 V
  | [a, b, c], _, _ =>
    simp only [nodup_cons, mem_cons, not_mem_nil, or_false, not_or] at hcs ht
    obtain ⟨⟨ha, hac⟩, hbc, -⟩ := hcs
    obtain ⟨hta, htb, htc⟩ := ht
    calc acts (c3xParts [a, b, c] t) V
        = selectEach [t] (fun _ => h.square []) (acts (turn .phase (π / 8) [a, b, c, t] ::
            (c3xControls a b c ++ c3xTarget a b c t)) (selectEach [t] (fun _ => h.square []) V)) := by
          simp [c3xParts, cons_append, nil_append, acts_cons, acts_append, acts_nil, act_plain (b := .h) rfl]
      _ = gated (allOn [a, b, c]) (selectEach [t] fun _ => x.square []) V := by
          rw [acts_c3x_phases ha hac hbc (Ne.symm hta) (Ne.symm htb) (Ne.symm htc)]
          exact gated_between (by simp [hta, htb, htc]) (nodup_singleton t) square_h_mul_h square_h_z_h V

/-! ### More controls -/

lemma walk_eq (c a : ℕ → ℕ) (j : ℕ) : walk c a j =
    ((range j).flatMap fun i => linkParts (c (j - i + 1)) (a (j - i - 1)) (a (j - i))) ++
      turningParts (c 0) (c 1) (a 0) ++ (range j).flatMap fun i => unlinkParts (c (2 + i)) (a i) (a (i + 1)) := by
  induction j with
  | zero => simp [walk]
  | succ j ih =>
    have hd : ((range (j + 1)).flatMap fun i =>
        linkParts (c (j + 1 - i + 1)) (a (j + 1 - i - 1)) (a (j + 1 - i))) =
        linkParts (c (j + 2)) (a j) (a (j + 1)) ++
          (range j).flatMap fun i => linkParts (c (j - i + 1)) (a (j - i - 1)) (a (j - i)) := by
      rw [range_succ_eq_map, flatMap_cons, flatMap_map]
      simp [Nat.succ_eq_add_one, Nat.add_sub_add_right]
    rw [hd, walk, ih, range_succ, flatMap_append, add_comm j 2]
    simp [append_assoc]

lemma sweepParts_eq (hk : 4 ≤ cs.length) (hm : as.length = cs.length - 2) (t : ℕ) : sweepParts cs as t =
      ccxParts (cs.getD (cs.length - 1) 0) (as.getD (cs.length - 3) 0) t ++
        walk (fun i => cs.getD i 0) (fun i => as.getD i 0) (cs.length - 3) := by
  have h1 : as.length - 1 = cs.length - 3 := by omega
  rw [walk_eq, sweepParts, h1]
  simp only [append_assoc]
  congr 2
  refine flatMap_congr fun i hi => ?_
  have hi' : i < cs.length - 3 := mem_range.mp hi
  rw [(by omega : cs.length - (i + 1) - 1 = cs.length - 3 - i + 1),
    (by omega : as.length - (i + 1) - 1 = cs.length - 3 - i - 1),
    (by omega : as.length - i - 1 = cs.length - 3 - i)]

lemma upTo_getD (h : cs ≠ []) (b : Register) : upTo (fun i => cs.getD i 0) (cs.length - 1) b = allOn cs b := by
  have hlen : cs.length - 1 + 1 = cs.length := Nat.sub_add_cancel (length_pos_iff.mpr h)
  have hm : (range cs.length).map (fun i => cs.getD i 0) = cs := by
    apply ext_getElem
    · simp
    · intro i h₁ h₂; simp [getD, h₂]
  rw [upTo, hlen, hm]

lemma getD_mem {xs : List ℕ} {i : ℕ} (h : i < xs.length) : xs.getD i 0 ∈ xs := by simp [getD, h]

lemma apart_of_nodup (h : (cs ++ as).Nodup) (hm : m < as.length) (hk : m + 1 < cs.length) :
    Apart (fun i => cs.getD i 0) (fun i => as.getD i 0) m := by
  obtain ⟨-, ha, hd⟩ := nodup_append.mp h
  refine ⟨fun i hi k hk' he => ?_, fun i hi k hk' hik he => hik ?_⟩
  · exact hd _ (getD_mem (by omega : k < cs.length)) _ (getD_mem (by omega : i < as.length)) he.symm
  · have hi' : i < as.length := by omega
    have hk' : k < as.length := by omega
    simp only [getD, getElem?_eq_getElem hi', getElem?_eq_getElem hk', Option.getD_some] at he
    exact (ha.getElem_inj_iff).mp he

lemma walkWave_between {c : ℕ → ℕ} (h : Apart c a m) (ht : ∀ i ≤ m, t ≠ a i)
    (htc : ∀ k ≤ m + 1, t ≠ c k) (hqa : ∀ i ≤ m, a i ≠ q) (hqt : t ≠ q) (V : Wave) :
    let negate := gated (allOn [q, a m]) (select t fun _ => x.square [])
    walkWave c a (m + 1) (negate (walkWave c a (m + 1) (negate V))) =
      select t (fun b => if upTo c (m + 1) b then (if b q then x.square [] else 1) else 1) V := by
  intro negate
  -- the negation as a gate that the ancilla switches on
  set Q : Register → Square := fun b => if b q then x.square [] else 1 with hQd
  have hQ : ∀ s, s ≠ q → Blind s Q := fun s hs =>
    (blind_bit hs.symm).map fun x => if x then Base.x.square [] else 1
  have hn : ∀ V, negate V = select t (fun b => (if b (a m) then Q b else 1) * 1) V := by
    intro V
    refine congrFun ((gated_select _).trans (select_congr fun b => ?_)) V
    cases hb : b (a m) <;> cases hq : b q <;> simp [hQd, hb, hq]
  have hQQ : ∀ b, Q b * Q b = 1 := by
    intro b
    simp only [hQd]
    split
    · exact square_x_mul_x
    · exact one_mul 1
  have hbe : ∀ (W : Wave) (N : Register → Square), (∀ i < m, Blind (a i) N) →
      select t N (walkWave c a m W) = walkWave c a m (select t N W) := fun W N hN =>
    select_walkWave (fun i hi => ht i hi.le) hN (fun k hk => htc k (by omega)) W
  have hsw : ∀ i < m, Blind (a i) fun b => (if b (a m) then Q b else 1) * (1 : Square) :=
    fun i hi => ((blind_bit (h.ancilla m le_rfl i hi.le (by omega))).map₂ (hQ _ (hqa i hi.le))
      fun x q => if x then q else 1).mul (blind_const _ 1)
  have hP : ∀ i ≤ m, Blind (a i) fun b => if upTo c (m + 1) b then Q b else 1 := fun i hi =>
    (blind_upTo fun k hk => h.control i hi k hk).map₂ (hQ _ (hqa i hi)) fun x q => if x then q else 1
  have hsa := select_sandwich (Q := Q) (ht m le_rfl).symm
    (blind_const _ _) (blind_const _ _) (hQ _ (hqa m le_rfl)) (hQ _ hqt)
    (blind_walkSquare fun k hk => htc k hk) (fun _ => one_mul 1) hQQ (flips_walkSquare c m)
    (blind_upTo htc)
  simp only [one_mul, mul_one] at hsa hn hsw
  calc walkWave c a (m + 1) (negate (walkWave c a (m + 1) (negate V)))
      = select (a m) (walkSquare c m) (walkWave c a m (select t (fun b => if b (a m) then Q b else 1)
          (select (a m) (walkSquare c m) (select t (fun b => if b (a m) then Q b else 1) (walkWave c a m V))))) := by
        rw [hn, hn, walkWave, walkWave, hbe _ _ hsw, ← hbe V _ hsw]
    _ = select t (fun b => if upTo c (m + 1) b then Q b else 1) (walkWave c a (m + 1) (walkWave c a (m + 1) V)) := by
        rw [hsa, ← hbe _ _ fun i hi => hP i hi.le,
          select_comm (ht m le_rfl).symm (blind_walkSquare fun k hk => htc k hk) (hP m le_rfl)]
        rfl
    _ = select t (fun b => if upTo c (m + 1) b then Q b else 1) V := by rw [walkWave_walkWave h]

/-- Controls, ancillas and a target that a chain can be built on. -/
structure OnChain (cs as : List ℕ) (t : ℕ) : Prop where
  nodup : (cs ++ as).Nodup
  target : t ∉ cs ++ as
  controls : cs ≠ []
  ancillas : as.length = cs.length - 2

/-- **The negation under any number of controls, with borrowed ancillas.** -/
theorem acts_chainParts (h : OnChain cs as t) (V : Wave) :
    acts (chainParts cs as t) V = gated (allOn cs) (select t fun _ => x.square []) V := by
  obtain ⟨hn, ht, h0, hm⟩ := h
  obtain ⟨hcs, has, hd⟩ := nodup_append.mp hn
  simp only [mem_append, not_or] at ht
  rw [chainParts]
  split
  · exact acts_c3xParts hcs ht.1 h0 ‹_› V
  · have hk : 4 ≤ cs.length := by omega
    set c : ℕ → ℕ := fun i => cs.getD i 0
    set a : ℕ → ℕ := fun i => as.getD i 0
    have hap : Apart c a (cs.length - 3) := apart_of_nodup hn (by omega) (by omega)
    have hta : ∀ i ≤ cs.length - 3, t ≠ a i := fun i hi h =>
      ht.2 (h ▸ getD_mem (by omega : i < as.length))
    have htc : ∀ k ≤ cs.length - 1, t ≠ c k := fun k hk' h =>
      ht.1 (h ▸ getD_mem (by omega : k < cs.length))
    have hl : ∀ i ≤ cs.length - 3, a i ≠ c (cs.length - 1) := fun i hi h =>
      hd _ (getD_mem (by omega : cs.length - 1 < cs.length)) _ (getD_mem (by omega : i < as.length)) h.symm
    rw [sweepParts_eq hk hm, acts_append, acts_append, acts_append, acts_walk hap,
      acts_ccxParts (hl _ le_rfl).symm (htc _ le_rfl) (hta _ le_rfl), acts_walk hap,
      acts_ccxParts (hl _ le_rfl).symm (htc _ le_rfl) (hta _ le_rfl)]
    refine (walkWave_between hap hta (fun k hk' => htc k (by omega)) hl (htc _ le_rfl) V).trans ?_
    rw [gated_select]
    refine congrFun (select_congr fun b => ?_) V
    have hal : allOn cs b = (upTo c (cs.length - 3 + 1) b && b (c (cs.length - 1))) := by
      have hs := upTo_succ c (cs.length - 3 + 1) b
      rw [(by omega : cs.length - 3 + 1 + 1 = cs.length - 1)] at hs
      rw [← hs, upTo_getD h0]
    rw [hal]
    cases upTo c (cs.length - 3 + 1) b <;> simp

end Operation

end QuantumCircuits

end
