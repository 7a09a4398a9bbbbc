import QuantumCircuits.Proofs.Meaning.Multi

/-!
# Meaning — Multiplexed

Rotations by selected angles, and diagonals.  The row of rotations with negations between them is a
palindrome around its middle negation, and so is each half of it.  `demultiplex` halves the angles in
the same way, so by induction (`demultiplex_induction`) the angles of a row, each with the sign that the
negations before it give it, sum up to the selected one (`rowSum_demultiplex`).  One negation by the
last control is left over, and the negation at the end takes it away.  A diagonal is a product of selected
rotations, one for each qubit, and a phase (`acts_diagonalParts`).
-/

noncomputable section

namespace QuantumCircuits.Operation

open Real List

variable {m i h t : ℕ} {xs as ps angles : List ℝ} {ns cs qs : List ℕ} {axis : Axis}

/-! ### Rows -/

/-- The positions of the controls in a row without its last negation. -/
def ruler : ℕ → List ℕ
  | 0 => []
  | m + 1 => ruler m ++ m :: ruler m

/-- Rotations with negations after each of them, as long as there are any. -/
def weave (axis : Axis) (cs : List ℕ) (t : ℕ) : List ℝ → List ℕ → List Operation
  | a :: as, n :: ns =>
    aboutAxis axis a t :: (negationParts axis (cs.getD n 0) t ++ weave axis cs t as ns)
  | as, _ => as.map fun a => aboutAxis axis a t

lemma length_ruler (m : ℕ) : (ruler m).length + 1 = 2 ^ m := by
  induction m with
  | zero => rfl
  | succ m ih =>
    rw [ruler, length_append, length_cons, pow_succ]
    omega

lemma trailingZeros_add {k : ℕ} (h0 : k ≠ 0) (hk : k < 2 ^ m) : trailingZeros (2 ^ m + k) = trailingZeros k := by
  induction m generalizing k with
  | zero => omega
  | succ m ih =>
    rw [trailingZeros, trailingZeros.eq_1 k, dif_neg (by positivity), dif_neg h0]
    have hm : (2 ^ (m + 1) + k) % 2 = k % 2 := by omega
    rw [hm]
    split
    · have hd : (2 ^ (m + 1) + k) / 2 = 2 ^ m + k / 2 := by omega
      rw [hd, ih (by omega) (by omega)]
    · rfl

lemma trailingZeros_two_pow (m : ℕ) : trailingZeros (2 ^ m) = m := by
  induction m with
  | zero => simp [trailingZeros]
  | succ m ih =>
    rw [trailingZeros, dif_neg (by positivity), if_pos (by omega),
      (by rw [pow_succ]; omega : 2 ^ (m + 1) / 2 = 2 ^ m), ih]

lemma map_trailingZeros (m : ℕ) : (range (2 ^ m - 1)).map (fun i => trailingZeros (i + 1)) = ruler m := by
  induction m with
  | zero => rfl
  | succ m ih =>
    have hp : 0 < 2 ^ m := by positivity
    have hs : 2 ^ (m + 1) - 1 = (2 ^ m - 1) + (1 + (2 ^ m - 1)) := by rw [pow_succ]; omega
    have hsn : (range (2 ^ m - 1)).map (fun i => trailingZeros (2 ^ m - 1 + (1 + i) + 1)) = ruler m := by
      rw [← ih]
      refine map_congr_left fun i hi => ?_
      have hi' : i < 2 ^ m - 1 := mem_range.mp hi
      rw [(by omega : 2 ^ m - 1 + (1 + i) + 1 = 2 ^ m + (i + 1)), trailingZeros_add (by omega) (by omega)]
    rw [hs, range_add, map_append, ih, range_add, ruler]
    simp only [map_map, Function.comp_def, hsn, range_one, map_cons, add_zero, cons_append, nil_append]
    rw [Nat.sub_add_cancel hp, trailingZeros_two_pow]

lemma map_negationControl : (range (2 ^ m)).map (negationControl m) = ruler m ++ [m - 1] := by
  have hp : 0 < 2 ^ m := by positivity
  rw [(Nat.sub_add_cancel hp).symm, range_succ, map_append, ← map_trailingZeros]
  congr 1
  · refine map_congr_left fun i hi => ?_
    have hi' : i < 2 ^ m - 1 := mem_range.mp hi
    rw [negationControl, if_neg (by omega)]
  · simp [negationControl, Nat.sub_add_cancel hp]

lemma weave_append (axis : Axis) (cs : List ℕ) (t : ℕ)
    (h : as.length = ns.length + 1) (as' : List ℝ) (n : ℕ) (ns' : List ℕ) :
    weave axis cs t (as ++ as') (ns ++ n :: ns') =
      weave axis cs t as ns ++ negationParts axis (cs.getD n 0) t ++ weave axis cs t as' ns' := by
  induction ns generalizing as with
  | nil =>
    obtain ⟨a, rfl⟩ := length_eq_one_iff.mp h
    simp [weave]
  | cons k ns ih =>
    match as, h with
    | a :: as, h =>
      have h' : as.length = ns.length + 1 := by simpa using h
      simp [cons_append, weave, ih h', append_assoc]

lemma flatMap_zip_eq_weave (axis : Axis) (cs : List ℕ) (t : ℕ) : ∀ (as : List ℝ) (ns : List ℕ), as.length = ns.length →
      ((as.zip ns).flatMap fun p => aboutAxis axis p.1 t :: negationParts axis (cs.getD p.2 0) t) =
        weave axis cs t as ns
  | [], [], _ => rfl
  | a :: as, n :: ns, h => by
    simp only [List.zip_cons_cons, List.flatMap_cons, weave, List.cons_append,
      flatMap_zip_eq_weave axis cs t as ns (by simpa using h)]

lemma rowParts_eq (t : ℕ) (h0 : cs ≠ []) (h : (rowAngles angles).length = 2 ^ cs.length) :
    rowParts axis angles cs t = weave axis cs t (rowAngles angles) (ruler cs.length) ++
      negationParts axis (cs.getD (cs.length - 1) 0) t := by
  have hlen : (rowAngles angles).length = (ruler cs.length).length + 1 := by rw [h, length_ruler]
  have hzi : (rowAngles angles).zipIdx.map (fun p => (p.1, negationControl cs.length p.2)) =
      (rowAngles angles).zip (ruler cs.length ++ [cs.length - 1]) := by
    rw [← map_negationControl, ← h, zipIdx_eq_zip_range', zip_map_right, range_eq_range']
    rfl
  have ha := weave_append axis cs t hlen [] (cs.length - 1) []
  rw [append_nil, weave.eq_2 axis cs t [] [] (by simp), map_nil, append_nil] at ha
  rw [rowParts, if_neg h0, ← ha, ← flatMap_zip_eq_weave axis cs t _ _ (by simpa using hlen), ← hzi, flatMap_map]

/-! ### The angles of a row -/

section Angles

lemma length_demultiplex {β : Type} {mean gap : β → β → β} (backwards : Bool) (xs : List β) :
    (demultiplex mean gap backwards xs).length = xs.length := by
  fun_induction demultiplex mean gap backwards xs with
  | case1 backwards xs h means gaps first second hl =>
    cases backwards <;> simp [first, second, means, gaps] <;> omega
  | case2 backwards xs h means gaps first second hl ih₁ ih₂ =>
    rw [length_append, ih₁, ih₂]
    cases backwards <;> simp [first, second, means, gaps] <;> omega

variable {mean gap : ℝ → ℝ → ℝ}

lemma demultiplex_singleton (backwards : Bool) (x : ℝ) : demultiplex mean gap backwards [x] = [x] := by
  rw [demultiplex]
  cases backwards <;> simp

lemma demultiplex_eq {backwards : Bool} (h0 : h ≠ 0) (hxs : xs.length = 2 * h) : demultiplex mean gap backwards xs =
      demultiplex mean gap false (cond backwards ((xs.take h).zipWith gap (xs.drop h))
        ((xs.take h).zipWith mean (xs.drop h))) ++
      demultiplex mean gap true (cond backwards ((xs.take h).zipWith mean (xs.drop h))
        ((xs.take h).zipWith gap (xs.drop h))) := by
  have hh : xs.length / 2 = h := by omega
  have hd : xs.drop (2 * h) = [] := drop_eq_nil_of_le (by omega)
  rw [demultiplex.eq_1 mean gap backwards xs]
  simp only [hh, hd, append_nil]
  split
  case isFalse => rfl
  case isTrue hl =>
    have h1 : h = 1 := by omega
    match xs, hxs with
    | [x, y], _ => cases backwards <;> simp [h1, demultiplex_singleton]
    | [], hxs | [_], hxs | _ :: _ :: _ :: _, hxs => simp [h1] at hxs

lemma demultiplex_induction {P : ℕ → Bool → List ℝ → List ℝ → Prop} (one : ∀ bw x, P 0 bw [x] [x])
    (two : ∀ m bw (xs ys zs : List ℝ), xs.length = 2 * 2 ^ m → ys.length = 2 ^ m →
      P m false (cond bw ((xs.take (2 ^ m)).zipWith gap (xs.drop (2 ^ m)))
        ((xs.take (2 ^ m)).zipWith mean (xs.drop (2 ^ m)))) ys →
      P m true (cond bw ((xs.take (2 ^ m)).zipWith mean (xs.drop (2 ^ m)))
        ((xs.take (2 ^ m)).zipWith gap (xs.drop (2 ^ m)))) zs → P (m + 1) bw xs (ys ++ zs))
    (hxs : xs.length = 2 ^ m) (backwards : Bool) : P m backwards xs (demultiplex mean gap backwards xs) := by
  induction m generalizing xs backwards with
  | zero =>
    obtain ⟨x, rfl⟩ := length_eq_one_iff.mp hxs
    rw [demultiplex_singleton]
    exact one backwards x
  | succ m ih =>
    have hp : xs.length = 2 * 2 ^ m := by rw [hxs, pow_succ, mul_comm]
    have hh : ∀ f : ℝ → ℝ → ℝ, ((xs.take (2 ^ m)).zipWith f (xs.drop (2 ^ m))).length = 2 ^ m := by
      intro f; simp only [length_zipWith, length_take, length_drop]; omega
    rw [demultiplex_eq (by positivity) hp]
    refine two m backwards xs _ _ hp ?_ (ih ?_ false) (ih ?_ true)
    · rw [length_demultiplex]
      cases backwards <;> exact hh _
    all_goals cases backwards <;> exact hh _

end Angles

/-! ### Signs -/

def signOf (c : Bool) : ℝ := (-1) ^ c.toNat

lemma signOf_mul_self (c : Bool) : signOf c * signOf c = 1 := by cases c <;> norm_num [signOf]

lemma signOf_xor (c d : Bool) : signOf (c ^^ d) = signOf c * signOf d := by
  cases c <;> cases d <;> norm_num [signOf]

/-- The negations of a row whose controls are on are odd in number. -/
def parity (cs : List ℕ) (b : Register) (ns : List ℕ) : Bool := ns.foldr (fun n odd => b (cs.getD n 0) ^^ odd) false

/-- The sum of the angles of a row, each with the sign that the negations before it give it. -/
def rowSum (cs : List ℕ) (b : Register) : List ℝ → List ℕ → ℝ
  | a :: as, n :: ns => a + signOf (b (cs.getD n 0)) * rowSum cs b as ns
  | as, _ => as.sum

lemma parity_append (cs : List ℕ) (b : Register) (ns ns' : List ℕ) :
    parity cs b (ns ++ ns') = (parity cs b ns ^^ parity cs b ns') := by
  induction ns with
  | nil => simp [parity]
  | cons n ns ih =>
    change (_ ^^ parity cs b (ns ++ ns')) = _
    rw [ih, ← Bool.xor_assoc]
    rfl

lemma rowSum_append (cs : List ℕ) (b : Register) (h : as.length = ns.length + 1) (as' : List ℝ) (n : ℕ) (ns' : List ℕ) :
    rowSum cs b (as ++ as') (ns ++ n :: ns') = rowSum cs b as ns +
      signOf (parity cs b ns) * (signOf (b (cs.getD n 0)) * rowSum cs b as' ns') := by
  induction ns generalizing as with
  | nil =>
    obtain ⟨a, rfl⟩ := length_eq_one_iff.mp h
    simp [rowSum, parity, signOf]
  | cons k ns ih =>
    obtain ⟨a, as, rfl⟩ := exists_cons_of_length_eq_add_one h
    have hp : parity cs b (k :: ns) = (b (cs.getD k 0) ^^ parity cs b ns) := rfl
    rw [cons_append, cons_append, rowSum, rowSum, ih (by simpa using h), hp, signOf_xor]
    ring

/-- The last of the first `m` controls, if there is any. -/
def lastOf (cs : List ℕ) (m : ℕ) (b : Register) : Bool := m ≠ 0 && b (cs.getD (m - 1) 0)

lemma parity_ruler (cs : List ℕ) (b : Register) (m : ℕ) : parity cs b (ruler m) = lastOf cs m b := by
  cases m with
  | zero => rfl
  | succ m =>
    have hm : parity cs b (m :: ruler m) = (b (cs.getD m 0) ^^ parity cs b (ruler m)) := rfl
    rw [ruler, parity_append, hm]
    cases parity cs b (ruler m) <;> simp [lastOf]

lemma indexOf_concat (cs : List ℕ) (c : ℕ) (b : Register) :
    indexOf (cs ++ [c]) b = indexOf cs b + 2 ^ cs.length * (b c).toNat := by
  induction cs with
  | nil => simp [indexOf]
  | cons d cs ih =>
    change (b d).toNat + 2 * indexOf (cs ++ [c]) b = (b d).toNat + 2 * indexOf cs b + _
    rw [ih, length_cons, pow_succ]
    ring

lemma indexOf_lt (cs : List ℕ) (b : Register) : indexOf cs b < 2 ^ cs.length := by
  induction cs with
  | nil => exact Nat.one_pos
  | cons c cs ih =>
    change (b c).toNat + 2 * indexOf cs b < 2 ^ (cs.length + 1)
    have hc : (b c).toNat ≤ 1 := Bool.toNat_le (b c)
    omega

lemma getD_halves (f : ℝ → ℝ → ℝ) (hxs : xs.length = 2 * h) (hi : i < h) :
    ((xs.take h).zipWith f (xs.drop h)).getD i 0 = f (xs.getD i 0) (xs.getD (i + h) 0) := by
  have h1 : i < xs.length := by omega
  have h2 : h + i < xs.length := by omega
  simp [getD_eq_getElem?_getD, getElem?_zipWith, getElem?_take_of_lt hi,
    getElem?_drop, getElem?_eq_getElem h1, getElem?_eq_getElem h2, Nat.add_comm i h]

lemma getD_selected (hxs : xs.length = 2 * h) (hi : i < h) (c : Bool) :
    ((xs.take h).zipWith (fun x y => (x + y) / 2) (xs.drop h)).getD i 0 +
      signOf c * ((xs.take h).zipWith (fun x y => (x + -y) / 2) (xs.drop h)).getD i 0 =
      xs.getD (i + h * c.toNat) 0 := by
  rw [getD_halves _ hxs hi, getD_halves _ hxs hi]
  cases c <;> simp only [signOf, Bool.toNat_false, Bool.toNat_true, pow_zero, pow_one, mul_zero, mul_one,
    add_zero] <;> ring

/-- **A row without its last negation** sums up to the selected angle, with the sign of the negation that
is left over if it runs backwards. -/
theorem rowSum_demultiplex (hm : m ≤ cs.length) (hxs : xs.length = 2 ^ m) (b : Register) (backwards : Bool) :
    rowSum cs b (demultiplex (fun x y => (x + y) / 2) (fun x y => (x + -y) / 2) backwards xs) (ruler m) =
      (if backwards then signOf (lastOf cs m b) else 1) * xs.getD (indexOf (cs.take m) b) 0 := by
  refine demultiplex_induction (P := fun m bw xs ys => m ≤ cs.length → rowSum cs b ys (ruler m) =
    (if bw then signOf (lastOf cs m b) else 1) * xs.getD (indexOf (cs.take m) b) 0) ?_ ?_ hxs backwards hm
  · intro bw x _
    cases bw <;> simp [rowSum, ruler, lastOf, signOf, indexOf]
  · intro m bw xs ys zs hxs hys hfi hsn hlt
    have hla : lastOf cs (m + 1) b = b (cs.getD m 0) := by simp [lastOf]
    have hi : indexOf (cs.take (m + 1)) b = indexOf (cs.take m) b + 2 ^ m * (b (cs.getD m 0)).toNat := by
      rw [take_succ_eq_append_getElem hlt, indexOf_concat, length_take_of_le (by omega), getD_eq_getElem _ _ hlt]
    have hil : indexOf (cs.take m) b < 2 ^ m := by
      have hbo := indexOf_lt (cs.take m) b
      rwa [length_take_of_le (by omega)] at hbo
    have hl := signOf_mul_self (lastOf cs m b)
    have hs := signOf_mul_self (b (cs.getD m 0))
    rw [ruler, rowSum_append cs b (hys.trans (length_ruler m).symm), hfi (by omega),
      hsn (by omega), parity_ruler, hi, hla, ← getD_selected hxs hil]
    cases bw with
    | false =>
      simp only [Bool.false_eq_true, if_false, if_true, cond_false]
      linear_combination signOf (b (cs.getD m 0)) * ((xs.take (2 ^ m)).zipWith (fun x y => (x + -y) / 2)
        (xs.drop (2 ^ m))).getD (indexOf (cs.take m) b) 0 * hl
    | true =>
      simp only [Bool.false_eq_true, if_false, if_true, cond_true]
      linear_combination signOf (b (cs.getD m 0)) * ((xs.take (2 ^ m)).zipWith (fun x y => (x + y) / 2)
        (xs.drop (2 ^ m))).getD (indexOf (cs.take m) b) 0 * hl - ((xs.take (2 ^ m)).zipWith
        (fun x y => (x + -y) / 2) (xs.drop (2 ^ m))).getD (indexOf (cs.take m) b) 0 * hs

/-! ### Selected rotations -/

/-- The matrix of the negation between rotations about an axis. -/
def reversing (axis : Axis) : Square := if axis = .x then Base.z.square [] else Base.x.square []

lemma matrix_mul (axis : Axis) (a b : ℝ) :
    (axis.matrix a).asSquare * (axis.matrix b).asSquare = (axis.matrix (a + b)).asSquare := by
  cases axis with
  | x =>
    change Base.rx.square [a] * Base.rx.square [b] = Base.rx.square [a + b]
    have h : (a + b) / 2 = a / 2 + b / 2 := by ring
    have hI := Complex.I_mul_I
    rw [Base.square_rx, Base.square_rx, Base.square_rx, square_mul, square_inj, h, cos_add, sin_add]
    push_cast
    refine ⟨?_, ?_, ?_, ?_⟩
    · linear_combination (Complex.sin (a / 2) * Complex.sin (b / 2)) * hI
    · ring
    · ring
    · linear_combination (Complex.sin (a / 2) * Complex.sin (b / 2)) * hI
  | y => exact Base.square_ry_mul a b
  | z => exact Base.square_rz_mul a b

lemma matrix_mul_reversing (axis : Axis) (a : ℝ) :
    (axis.matrix a).asSquare * reversing axis = reversing axis * (axis.matrix (-a)).asSquare := by
  cases axis with
  | x =>
    change Base.rx.square [a] * Base.z.square [] = Base.z.square [] * Base.rx.square [-a]
    rw [Base.square_rx, Base.square_rx, Base.square_z, square_mul, square_mul, square_inj, neg_div, cos_neg, sin_neg]
    simp
  | y =>
    change Base.ry.square [a] * Base.x.square [] = Base.x.square [] * Base.ry.square [-a]
    rw [← Base.square_x_ry_x, ← mul_assoc, ← mul_assoc, Base.square_x_mul_x, one_mul]
  | z =>
    change Base.rz.square [a] * Base.x.square [] = Base.x.square [] * Base.rz.square [-a]
    rw [← Base.square_x_rz_x, ← mul_assoc, ← mul_assoc, Base.square_x_mul_x, one_mul]

lemma reversing_mul_reversing (axis : Axis) : reversing axis * reversing axis = 1 := by
  cases axis with
  | x =>
    change Base.z.square [] * Base.z.square [] = 1
    rw [Base.square_z, square_mul, one_eq_square]
    simp
  | y => exact Base.square_x_mul_x
  | z => exact Base.square_x_mul_x

def left (axis : Axis) (c : Bool) : Square := if c then reversing axis else 1

lemma left_mul_left (axis : Axis) (c d : Bool) : left axis c * left axis d = left axis (c ^^ d) := by
  have hs := reversing_mul_reversing axis
  cases c <;> cases d <;> simp [left, hs]

lemma matrix_mul_left (axis : Axis) (c : Bool) (a : ℝ) :
    (axis.matrix a).asSquare * left axis c = left axis c * (axis.matrix (signOf c * a)).asSquare := by
  cases c with
  | false => simp [left, signOf]
  | true => simpa [left, signOf] using matrix_mul_reversing axis a

lemma picks_append (os os' : List Operation) (b : Register) : picks (os ++ os') b = picks os' b * picks os b := by
  have hfo : ∀ (os : List Operation) (M : Square), os.foldl (fun N o => o.pick b * N) M = picks os b * M := by
    intro os
    induction os with
    | nil => exact fun M => (one_mul M).symm
    | cons o os ih =>
      intro M
      rw [picks, foldl_cons, foldl_cons, ih, ih (o.pick b * 1), mul_one, mul_assoc]
  rw [picks, foldl_append]
  exact hfo os' _

lemma pick_aboutAxis (axis : Axis) (a : ℝ) (t : ℕ) (b : Register) :
    (aboutAxis axis a t).pick b = (axis.matrix a).asSquare := by
  cases axis <;> rfl

lemma square_ry_x_ry : Base.ry.square [-(π / 2)] * Base.x.square [] * Base.ry.square [π / 2] = Base.z.square [] := by
  have h4 : π / 2 / 2 = π / 4 := by ring
  have h4' : -(π / 2) / 2 = -(π / 4) := by ring
  have hr := Base.root_half
  rw [Base.square_ry, Base.square_ry, Base.square_x, Base.square_z, square_mul, square_mul,
    square_inj, h4, h4', cos_neg, sin_neg, cos_pi_div_four, sin_pi_div_four, Base.sqrt_two_div_two]
  push_cast at hr ⊢
  refine ⟨?_, ?_, ?_, ?_⟩
  · linear_combination 2 * hr
  · ring
  · ring
  · linear_combination -2 * hr

lemma picks_negationParts (axis : Axis) (c t : ℕ) (b : Register) :
    picks (negationParts axis c t) b = left axis (b c) := by
  have hx := square_ry_x_ry
  have ho : Base.ry.square [-(π / 2)] * Base.ry.square [π / 2] = 1 := by
    rw [Base.square_ry_mul, neg_add_cancel, Base.square_ry_zero]
  cases axis <;> cases h : b c <;>
    simp [picks, negationParts, pick, left, reversing, h, -Base.square_x, -Base.square_z, ho, ← hx, mul_assoc]

lemma picks_weave (axis : Axis) (cs : List ℕ) (t : ℕ) (b : Register)
    (h : as.length = ns.length + 1) : picks (weave axis cs t as ns) b =
      left axis (parity cs b ns) * (axis.matrix (rowSum cs b as ns)).asSquare := by
  induction ns generalizing as with
  | nil =>
    obtain ⟨a, rfl⟩ := length_eq_one_iff.mp h
    simp [weave, picks, pick_aboutAxis, rowSum, parity, left]
  | cons n ns ih =>
    obtain ⟨a, as, rfl⟩ := exists_cons_of_length_eq_add_one h
    have hp : parity cs b (n :: ns) = (parity cs b ns ^^ b (cs.getD n 0)) := Bool.xor_comm _ _
    have hco : picks [aboutAxis axis a t] b = (axis.matrix a).asSquare := by simp [picks, pick_aboutAxis]
    rw [weave, ← singleton_append, picks_append, picks_append, hco, picks_negationParts,
      ih (by simpa using h), mul_assoc (left axis _) _ (left axis _), matrix_mul_left, ← mul_assoc,
      left_mul_left, mul_assoc, matrix_mul, hp, rowSum, add_comm a]

lemma lt_of_mem_ruler {n : ℕ} (h : n ∈ ruler m) : n < m := by
  induction m with
  | zero => cases h
  | succ m ih =>
    simp only [ruler, mem_append, mem_cons] at h
    grind

lemma negationControl_lt (hm : 0 < m) (hi : i < 2 ^ m) : negationControl m i < m := by
  have hme : negationControl m i ∈ ruler m ++ [m - 1] := by
    rw [← map_negationControl]; exact mem_map_of_mem (mem_range.mpr hi)
  rcases mem_append.mp hme with h | h
  · exact lt_of_mem_ruler h
  · rw [mem_singleton.mp h]; omega

lemma onQubit_negationParts {c : ℕ} (h : c ≠ t) : ∀ o ∈ negationParts axis c t, OnQubit t o := by
  cases axis <;> simp [negationParts, OnQubit, Base.onTwo, h.symm]

lemma onQubit_weave (as : List ℝ) (h : ∀ n ∈ ns, cs.getD n 0 ≠ t) : ∀ o ∈ weave axis cs t as ns, OnQubit t o := by
  have ha : ∀ a, OnQubit t (aboutAxis axis a t) := fun a => by
    cases axis <;> exact ⟨rfl, rfl, not_mem_nil⟩
  fun_induction weave axis cs t as ns with
  | case1 a as n ns ih =>
    intro o ho
    rcases mem_cons.mp ho with rfl | ho
    · exact ha a
    rcases mem_append.mp ho with ho | ho
    · exact onQubit_negationParts (h n mem_cons_self) o ho
    · exact ih (fun k hk => h k (mem_cons_of_mem _ hk)) o ho
  | case2 as ns _ =>
    intro o ho
    obtain ⟨a, -, rfl⟩ := mem_map.mp ho
    exact ha a

/-- **A row of rotations and negations is the rotation by the selected angle.** -/
theorem acts_rowParts (hlen : angles.length = 2 ^ cs.length) (ht : t ∉ cs) (V : Wave) :
    acts (rowParts axis angles cs t) V =
      select t (fun b => (axis.matrix (angles.getD (indexOf cs b) 0)).asSquare) V := by
  by_cases h0 : cs = []
  · subst h0
    obtain ⟨a, rfl⟩ := length_eq_one_iff.mp hlen
    have hb : (Plan.rotationAbout axis).onTwo = false := by cases axis <;> rfl
    cases axis <;> rfl
  have hp : 0 < cs.length := length_pos_iff.mpr h0
  have hct : ∀ n < cs.length, cs.getD n 0 ≠ t := fun n hn he =>
    ht (he ▸ getD_eq_getElem _ _ hn ▸ getElem_mem hn)
  have hr : (rowAngles angles).length = 2 ^ cs.length := by rw [rowAngles, length_demultiplex, hlen]
  rw [rowParts_eq t h0 hr, acts_eq_select]
  · refine congrFun (select_congr fun b => ?_) V
    have hl : lastOf cs cs.length b = b (cs.getD (cs.length - 1) 0) := by simp [lastOf, h0]
    have hs := rowSum_demultiplex le_rfl hlen b false
    rw [take_length, if_neg Bool.false_ne_true, one_mul] at hs
    rw [picks_append, picks_negationParts, picks_weave axis cs t b (hr.trans (length_ruler _).symm),
      rowAngles, hs, parity_ruler, hl, ← mul_assoc, left_mul_left, Bool.xor_self]
    exact one_mul _
  · intro o ho
    rcases mem_append.mp ho with ho | ho
    · exact onQubit_weave _ (fun n hn => hct n (lt_of_mem_ruler hn)) o ho
    · exact onQubit_negationParts (hct _ (by omega)) o ho

/-! ### Diagonals -/

/-- Phases are split in pairs: into their means, and what the second one has more than the first. -/
lemma splitLevel_spec (h : ps.length = 2 * m) :
    (splitLevel ps).1.length = m ∧ (splitLevel ps).2.length = m ∧ (splitLevel ps).1.sum = ps.sum / 2 ∧
    ∀ i < m, (splitLevel ps).1.getD i 0 = (ps.getD (2 * i) 0 + ps.getD (2 * i + 1) 0) / 2 ∧
      (splitLevel ps).2.getD i 0 = ps.getD (2 * i + 1) 0 - ps.getD (2 * i) 0 := by
  induction m generalizing ps with
  | zero =>
    obtain rfl := length_eq_zero_iff.mp h
    simp [splitLevel]
  | succ m ih =>
    rcases ps with _ | ⟨p, _ | ⟨q, rest⟩⟩
    · exact absurd h (by simp)
    · simp only [length_cons, length_nil] at h; omega
    · have hr : rest.length = 2 * m := by simp only [length_cons] at h; omega
      obtain ⟨hc, hd, hs, hg⟩ := ih hr
      refine ⟨congrArg (· + 1) hc, congrArg (· + 1) hd, ?_, fun i hi => ?_⟩
      · simp only [splitLevel, splitPhases, sum_cons, hs, Scalar.real_two]
        ring
      · cases i with
        | zero => simp [splitLevel, splitPhases]
        | succ i => simpa [splitLevel, splitPhases, mul_add] using hg i (by omega)

lemma addsPhases_ucr (angles : List ℝ) (cs : List ℕ) (t : ℕ) : (ucr .z angles cs t).AddsPhases := by
  intro V b
  have hd : (Axis.z.matrix (angles.getD (indexOf cs b) 0)).asSquare = _ := Base.square_rz _
  rw [added, if_pos rfl, exp_halfTurn, act, select_of_diagonal hd]

lemma addsPhases_globalPhase (a : ℝ) : (globalPhase a).AddsPhases := fun _ _ => rfl

lemma addsPhases_diagonalParts (qs : List ℕ) (ps : List ℝ) : ∀ o ∈ diagonalParts qs ps, o.AddsPhases := by
  induction qs generalizing ps with
  | nil => exact forall_mem_singleton.mpr (addsPhases_globalPhase _)
  | cons q qs ih => exact forall_mem_cons.mpr ⟨addsPhases_ucr _ _ _, ih _⟩

/-- **What the levels of a diagonal add**: the phase that the qubits select.  The rotation of the first qubit
adds half the gap between two neighbouring phases or takes it away, and the levels that follow add their
mean. -/
theorem sum_added_diagonalParts (h : ps.length = 2 ^ qs.length)
    (b : Register) : totalAdded (diagonalParts qs ps) b = ps.getD (indexOf qs b) 0 := by
  induction qs generalizing ps with
  | nil =>
    obtain ⟨p, rfl⟩ := length_eq_one_iff.mp h
    simp [diagonalParts, added, indexOf]
  | cons q qs ih =>
    have hlen : ps.length = 2 * 2 ^ qs.length := by rw [h, length_cons, pow_succ, mul_comm]
    obtain ⟨hl, -, -, hs⟩ := splitLevel_spec hlen
    obtain ⟨hm, hg⟩ := hs _ (indexOf_lt qs b)
    have hi : indexOf (q :: qs) b = (b q).toNat + 2 * indexOf qs b := rfl
    rw [diagonalParts, totalAdded_cons, ih hl, hm, added, if_pos rfl, hg, hi]
    cases b q with
    | false =>
      rw [Bool.toNat_false, zero_add, halfTurn]
      simp only [Bool.false_eq_true, if_false]
      ring
    | true =>
      rw [Bool.toNat_true, add_comm 1, halfTurn]
      simp only [if_true]
      ring

/-- **Rotations level by level and a phase make a diagonal.** -/
theorem acts_diagonalParts (h : ps.length = 2 ^ qs.length) (V : Wave) (b : Register) :
    acts (diagonalParts qs ps) V b = Complex.exp (ps.getD (indexOf qs b) 0 * Complex.I) * V b := by
  rw [acts_addsPhases (addsPhases_diagonalParts qs ps), sum_added_diagonalParts h]

end QuantumCircuits.Operation

end

/-! ### Multiplexed plans

Rotations by selected angles, and diagonals.  The angles are read as a grid of one axis, and the
library's arithmetic on its rows is that of the real numbers in them.
-/

namespace QuantumCircuits.Plan

open List Grid

open Except (ok)
open Operand (real complex)
open Operation (of)

variable {n : ℕ} {xs : List (Operand ℝ)}

open Operation (rowAngles negationParts rowParts diagonalParts aboutAxis negationControl_lt
  length_demultiplex)

variable {x xc xt y : Operand ℝ} {axis : Axis} {t m : ℕ} {qs cs : List ℕ} {zs : List ℂ} {rs : List ℝ} {k : CellKind}

/-! ### Angles as a grid -/

lemma isPowerOfTwo_two_pow (m : ℕ) : isPowerOfTwo (2 ^ m) = true := by
  simp [isPowerOfTwo, Nat.and_two_pow_sub_one_eq_mod]

lemma stack_cells (hk : k.join k = k) (h0 : xs ≠ []) :
    stack (xs.map fun y => ⟨[], k, [y]⟩) = .ok ⟨[xs.length], k, xs⟩ := by
  obtain ⟨x, xs, rfl⟩ := exists_cons_of_ne_nil h0
  have hfo : (xs.map fun y => (⟨[], k, [y]⟩ : Grid ℝ)).foldl (fun j h => j.join h.kind) k = k := by
    induction xs with
    | nil => rfl
    | cons y ys ih => simpa [hk] using ih
  have hce : (xs.map fun y => (⟨[], k, [y]⟩ : Grid ℝ)).flatMap (·.cells) = xs := by
    rw [flatMap_map]; exact flatMap_singleton' xs
  simp [stack, hfo, hce]

lemma ofOperandAt_cells (hk : k.join k = k)
    (h0 : xs ≠ []) (hx : x = .list xs ∨ x = .tuple xs)
    (hce : ∀ y ∈ xs, ofOperandAt 63 y = .ok ⟨[], k, [y]⟩) :
    ofOperandAt depth x = .ok ⟨[xs.length], k, xs⟩ := by
  have hs : (do stack (← xs.mapM (ofOperandAt 63))) = ok ⟨[xs.length], k, xs⟩ := by
    rw [mapM_ok hce]; exact stack_cells hk h0
  rcases hx with rfl | rfl
  · exact hs
  · exact hs

def gridOf (rs : List ℝ) : Grid ℝ := ⟨[rs.length], .real, rs.map .real⟩

lemma ofOperand_turns (h0 : rs ≠ []) (hx : (Slot.turns rs).Means n x) : ofOperand x = .ok (gridOf rs) := by
  have ha : ofOperandAt depth x = .ok ⟨[(rs.map real).length], .real, rs.map .real⟩ := by
    refine ofOperandAt_cells rfl (by simpa using h0) hx fun y hy => ?_
    obtain ⟨r, -, rfl⟩ := mem_map.mp hy
    rfl
  rw [ofOperand, ha]
  simp only [bind, Except.bind, gridOf, map_map, length_map]
  rfl

def rowOf (r : ℝ) : Outcome (List (Operand ℝ)) := .ok [.real r]

lemma rows_gridOf (rs : List ℝ) : (gridOf rs).rows.map ok = rs.map rowOf := by
  rw [rows, map_map]
  refine ext_getElem (by simp [gridOf]) fun i hi hi' => ?_
  have hl : i < rs.length := by simpa using hi'
  simp [gridOf, rowOf, width, take_one, hl]

lemma mean_rowOf (rs : List ℝ) (x y : ℝ) : (gridOf rs).mean (rowOf x) (rowOf y) = rowOf ((x + y) / 2) := by
  change ok [real ((y + x) / 2.0)] = ok [real ((x + y) / 2)]; rw [Scalar.real_two, add_comm]

lemma gap_rowOf (rs : List ℝ) (x y : ℝ) : (gridOf rs).gap (rowOf x) (rowOf y) = rowOf ((x + -y) / 2) := by
  change ok [real ((-y + x) / 2.0)] = ok [real ((x + -y) / 2)]; rw [Scalar.real_two, add_comm]

lemma demultiplex_map {β γ : Type} {mean gap : β → β → β} {mean' gap' : γ → γ → γ} {f : γ → β}
    (hm : ∀ x y, mean (f x) (f y) = f (mean' x y)) (hga : ∀ x y, gap (f x) (f y) = f (gap' x y))
    (backwards : Bool) (xs : List γ) :
    demultiplex mean gap backwards (xs.map f) = (demultiplex mean' gap' backwards xs).map f := by
  have hzi : ∀ (g : β → β → β) (g' : γ → γ → γ), (∀ x y, g (f x) (f y) = f (g' x y)) →
      ∀ ys zs : List γ, (ys.map f).zipWith g (zs.map f) = (ys.zipWith g' zs).map f := by
    intro g g' hg ys zs
    rw [zipWith_map, map_zipWith]
    simp only [hg]
  have hfi : ∀ (backwards : Bool) (g g' : List γ),
      cond backwards (g.map f) (g'.map f) = (cond backwards g g').map f := fun _ _ _ => (Bool.apply_cond _).symm
  fun_induction demultiplex mean' gap' backwards xs with
  | case1 backwards xs h means gaps first second hl =>
    rw [demultiplex]
    simp only [length_map, ← map_take, ← map_drop, hzi _ _ hm, hzi _ _ hga, hfi, ← map_append]
    exact if_pos hl
  | case2 backwards xs h means gaps first second hl ih₁ ih₂ =>
    rw [demultiplex, map_append, ← ih₁, ← ih₂]
    simp only [length_map, ← map_take, ← map_drop, hzi _ _ hm, hzi _ _ hga, hfi, ← map_append]
    exact if_neg hl

lemma demultiplexed_gridOf (rs : List ℝ) :
    (gridOf rs).demultiplexed false 0 rs.length = .ok ((rowAngles rs).map fun r => [.real r]) := by
  rw [demultiplexed, rows_gridOf]
  simp only [take_zero, drop_zero, nil_append]
  rw [take_of_length_le (by simp), drop_of_length_le (by simp), append_nil,
    demultiplex_map (mean_rowOf rs) (gap_rowOf rs)]
  rw [mapM_map]
  exact mapM_ok fun r _ => rfl

/-! ### Rotations by selected angles -/

lemma axisOf_text (axis : Axis) : axisOf (.text axis.text : Operand ℝ) = .ok axis := by
  cases axis <;> rfl

lemma stands_negation {i : ℕ} (hc : xc.IsSequence n cs) (ht : xt.IsQubit n t) (hi : i < cs.length) :
    Stands n (negation axis xc i xt) (negationParts axis (cs.getD i 0) t) () := by
  obtain ⟨x, hx, hq⟩ := hc.item hi
  have hcx : Stands n (get (xc.item i) >>= fun x => cx x xt) [Operation.cx (cs.getD i 0) t] () :=
    .after_get hx (stands_cx hq ht)
  rw [negation, negationParts]
  split
  · refine .before (stands_turn rfl isNumber_half ht.isQubits) (.after_get hx ?_)
    exact .before (stands_cx hq ht) (stands_turn rfl isNumber_minusHalf ht.isQubits)
  · exact hcx

lemma stands_aboutAxis {r : ℝ} (hy : y.IsNumber r)
    (hx : x.IsQubit n t) : Stands n (turn (rotationAbout axis) y x) [aboutAxis axis r t] () := by
  cases axis <;> exact stands_turn rfl hy hx.isQubits

/-- **The plan of a rotation by selected angles.** -/
theorem stands_multiplexedRotation
    {xa : Operand ℝ} (hlen : rs.length = 2 ^ cs.length) (ha : (Slot.turns rs).Means n xa)
    (hc : xc.IsQubits n cs) (ht : xt.IsQubit n t) :
    Stands n (multiplexedRotation xa (.text axis.text) xc xt) (rowParts axis rs cs t) () := by
  have h0 : rs ≠ [] := ne_nil_of_length_pos (hlen ▸ by positivity)
  have hpo : isPowerOfTwo rs.length = true := hlen ▸ isPowerOfTwo_two_pow cs.length
  refine .after_get (ofOperand_turns h0 ha) ?_
  simp only [gridOf, isEmpty_cons, Bool.false_eq_true, if_false, headD_cons, hpo, Bool.not_true]
  refine .after_get (Operand.IsSequence.length hc) ?_
  simp only [hlen, ne_eq, not_true_eq_false, if_false]
  refine .after_get (axisOf_text axis) ?_
  rw [rowParts]
  by_cases hcs : cs = []
  · subst hcs; obtain ⟨r, rfl⟩ := length_eq_one_iff.mp hlen; exact stands_aboutAxis rfl ht
  have hps : 0 < cs.length := length_pos_iff.mpr hcs
  rw [if_neg hcs, if_neg hps.ne']
  have hr := demultiplexed_gridOf rs
  simp only [gridOf, hlen] at hr
  refine .after_get hr ?_
  rw [zipIdx_map, forM_eq_forM, forM_map, ← forM_eq_forM]
  refine stands_forM fun p hp => ?_
  have hi : p.2 < 2 ^ cs.length := by
    have hl := (mem_zipIdx' hp).1
    rwa [rowAngles, length_demultiplex, hlen] at hl
  exact .before (stands_aboutAxis rfl ht) (stands_negation hc ht (negationControl_lt hps hi))

/-! ### Diagonals -/

lemma mapM_item (h : x.IsSequence n qs) (l : ℕ) (hm : l + m ≤ qs.length) :
    ∃ xs, ((range m).mapM fun i => x.item (l + i : ℕ)) = .ok xs ∧
      Forall₂ (Operand.IsQubit n) xs ((qs.drop l).take m) := by
  obtain ⟨xs, hx, hxs⟩ := h
  have hlen := hxs.length_eq
  refine ⟨(range m).map fun i => xs.getD (l + i) .none, mapM_ok fun i hi => ?_, ?_⟩
  · exact Operand.item_of_items hx.ne_set hx.items (by have := mem_range.mp hi; omega)
  · refine forall₂_iff_get.mpr ⟨by simp; omega, fun i hi hi' => ?_⟩
    have him : i < m := by simpa using hi
    have hg := Operand.forall₂_getD hxs (i := l + i) (by omega) .none 0
    rw [getD_eq_getElem qs 0 (by omega)] at hg
    simpa using hg

lemma stands_diagonalLevels (h : x.IsSequence n qs) {l : ℕ} (hm : l + m = qs.length) (ps : List ℝ) :
    Stands n (diagonalLevels x m l ps) (diagonalParts (qs.drop l) ps) () := by
  induction m generalizing l ps with
  | zero =>
    rw [drop_of_length_le (by omega), diagonalParts, diagonalLevels]
    exact stands_globalPhase (by rw [Operand.isNumber_real, Scalar.real_zero])
  | succ m ih =>
    obtain ⟨xs, hxs, hqs⟩ := mapM_item h (l + 1) (m := m) (by omega)
    obtain ⟨y, hy, hq⟩ := h.item (i := l) (by omega)
    have hl : l < qs.length := by omega
    rw [take_of_length_le (by simp; omega)] at hqs
    rw [drop_eq_getElem_cons hl, diagonalParts, diagonalLevels]
    refine .after_get hxs (.after_get hy ?_)
    rw [getD_eq_getElem _ _ hl] at hq
    refine .before (stands_call (o := .ucr .z (splitLevel ps).2 (qs.drop (l + 1)) qs[l]) rfl ?_)
      (ih (by omega) _)
    exact .cons (.inl rfl) (.cons (Operand.IsSequence.list hqs).isQubits (.cons hq .nil))

lemma ofOperand_entries (h0 : zs ≠ []) (hx : x.HasEntries zs) :
    ofOperand x = .ok ⟨[zs.length], .complex, zs.map fun z => .complex (.ofValue z)⟩ := by
  have ha : ofOperandAt depth x = .ok ⟨[zs.length], .complex, zs.map fun z => .complex (.ofValue z)⟩ := by
    have hce : x = .list (zs.map fun z => .complex (.ofValue z)) ∨
        x = .tuple (zs.map fun z => .complex (.ofValue z)) →
        ofOperandAt depth x = .ok ⟨[(zs.map fun z => complex (.ofValue z)).length], .complex, _⟩ :=
      fun hx => ofOperandAt_cells rfl (by simpa using h0) hx fun y hy => by
        obtain ⟨z, -, rfl⟩ := mem_map.mp hy; rfl
    rw [length_map] at hce
    rcases hx with hx | hx | rfl
    · exact hce (.inl hx)
    · exact hce (.inr hx)
    · simp only [ofOperandAt, map_map]; rfl
  rw [ofOperand, ha]
  simp only [bind, Except.bind, map_map]
  rfl

lemma items_entries (hx : x.HasEntries zs) : x.items = .ok (zs.map fun z => .complex (.ofValue z)) := by
  rcases hx with rfl | rfl | rfl
  · rfl
  · rfl
  · simp only [Operand.items, map_map]; rfl

/-- **The plan of a diagonal.** -/
theorem stands_diagonalGate (ho : (Operation.diagonal zs qs).Shaped) (hx : x.HasEntries zs) (hy : y.IsQubits n qs) :
    Stands n (diagonalGate x y) (diagonalParts qs (zs.map Complex.arg)) () := by
  obtain ⟨hlen, h0, hu⟩ := ho
  have hp : 0 < qs.length := length_pos_iff.mpr h0
  have htwo : 2 ≤ 2 ^ qs.length := Nat.le_self_pow hp.ne' 2
  have hn : zs ≠ [] := ne_nil_of_length_pos (by omega)
  have hfi : ¬(2 ^ qs.length < 2 ∨ (!isPowerOfTwo (2 ^ qs.length)) = true) := by
    simp only [isPowerOfTwo_two_pow, Bool.not_true, Bool.false_eq_true, or_false]; omega
  have hce : (zs.map fun z => complex (.ofValue z)).mapM Operand.toCplx = .ok (zs.map Cplx.ofValue) := by
    rw [mapM_map]; exact mapM_ok fun z _ => rfl
  have hal : (zs.map Cplx.ofValue).all onUnitCircle = true := by rw [all_map, all_eq_true]; exact hu
  refine .after_get (items_entries hx) ?_
  simp only [length_map, hlen]
  rw [if_neg hfi, Nat.log2_two_pow]
  refine .after_get (Operand.IsSequence.length hy) ?_
  simp only [ne_eq, not_true_eq_false, if_false]
  refine .after_get (ofOperand_entries hn hx) (.after_get hce ?_)
  simp only [hal, hlen, Bool.not_true, Bool.false_eq_true, if_false, beq_self_eq_true, Bool.true_or]
  have ha : (zs.map Cplx.ofValue).map Cplx.arg = zs.map Complex.arg := by rw [map_map]; rfl
  rw [ha]
  exact stands_diagonalLevels hy (Nat.zero_add _) _

end QuantumCircuits.Plan

namespace QuantumCircuits.Gate

open Plan

variable {n : ℕ}

lemma multi_of_controlled {b : Base} {ps : List ℝ} {cs ts : List ℕ} {xs : List (Operand ℝ)}
    (hb : b.onTwo = true) (hcs : cs.length = 1)
    (h : List.Forall₂ (Slot.Means n) (Operation.of b .controlled ps cs ts).slots xs) :
    List.Forall₂ (Slot.Means n) (Operation.of b .multi ps cs ts).slots xs := by
  obtain ⟨c, rfl⟩ := List.length_eq_one_iff.mp hcs
  cases b with
  | rxx | ryy | rzz =>
    obtain ⟨x, y, z, w, rfl, hx, hy, hz, hw⟩ := forall₂_four h
    exact .cons hx (.cons (Operand.IsQubit.isQubits hy) (.cons hz (.cons hw .nil)))
  | swap =>
    obtain ⟨y, z, w, rfl, hy, hz, hw⟩ := forall₂_three h
    exact .cons (Operand.IsQubit.isQubits hy) (.cons hz (.cons hw .nil))
  | _ => cases hb

/-- **The calls that a gate is defined by stand for the parts of the operation.** -/
theorem plan_stands {o : Operation} {c : Call ℝ} (ho : o.Valid n)
    (hp : o.primitives? = none) (hs : c.controlState = .none)
    (hc : Denotes n c.gate c.operands o) : Stands n (plan n c) o.parts () := by
  obtain ⟨g, operands, state⟩ := c
  obtain ⟨rfl, -, hm⟩ := hc
  obtain rfl : state = .none := hs
  simp only at hm
  simp only [plan]
  generalize operands.map Prod.snd = xs at hm
  cases o with
  | identity ts =>
    obtain ⟨q, rfl, hq⟩ := forall₂_one hm
    have hze := Operand.isNumber_int_zero
    exact stands_u3 hze hze hze hq
  | of b r ps cs ts =>
    obtain ⟨hps, hcs, hts⟩ := ho.shaped
    cases r with
    | plain =>
      have hu : b ≠ .u3 := by rintro rfl; cases hp
      exact stands_ofPlain hu hps (by simpa using hts) (by simpa [Operation.slots, Reach.slots] using hm)
    | controlled =>
      simp only [Operation.parts, Operation.gate]
      by_cases hb : b.onTwo = true
      · rw [if_pos hb, if_pos hb]
        exact stands_call rfl (multi_of_controlled hb hcs hm)
      · have hx : b ≠ .x := by rintro rfl; cases hp
        rw [if_neg hb] at hts ⊢
        obtain ⟨c, rfl⟩ := List.length_eq_one_iff.mp hcs
        obtain ⟨t, rfl⟩ := List.length_eq_one_iff.mp (hts rfl)
        rw [if_neg hb]
        refine stands_ofControlled (by simpa using hb) hx hps ?_
        simpa [Operation.slots, Reach.slots, Base.targetSlots, hb] using hm
    | multi =>
      refine stands_ofMulti hps hcs (by simpa using hts) (fun t ht => ?_) hm
      have hsu : (cs ++ [t]).Sublist (cs ++ ts) := (List.Sublist.refl cs).append (List.singleton_sublist.mpr ht)
      have hn : (cs ++ [t]).Nodup := ho.nodup.sublist hsu
      have hlen := length_le_of_lt hn fun q hq => ho.lt q (hsu.subset hq)
      refine ⟨fun hme => ?_, by simpa using hlen⟩
      exact List.disjoint_of_nodup_append hn hme (List.mem_singleton.mpr rfl)
  | ucr axis angles cs t =>
    obtain ⟨x, y, z, rfl, hx, hy, hz⟩ := forall₂_three hm
    exact stands_call (o := .pauliMultiplexor axis angles cs t) rfl
      (.cons hx (.cons rfl (.cons (Operand.IsQubits.listed hy) (.cons hz .nil))))
  | pauliMultiplexor axis angles cs t =>
    obtain ⟨x, w, y, z, rfl, hx, rfl, hy, hz⟩ := forall₂_four hm
    exact stands_multiplexedRotation ho.shaped hx hy hz
  | diagonal zs qs =>
    obtain ⟨x, y, rfl, hx, hy⟩ := forall₂_two hm
    exact stands_diagonalGate ho.shaped hx hy
  | globalPhase a => cases hp

end QuantumCircuits.Gate
