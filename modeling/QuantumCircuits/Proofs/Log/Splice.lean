import Mathlib.Data.List.Basic
import QuantumCircuits.Circuit.Rearrange
import QuantumCircuits.Scalar.Machine

/-!
# Log — Splice

Reversing a log that holds composite entries.  The inverse of a log is the inverses of its entries,
the last one first, and that of a composite entry is the inverse of what it is defined by (`adjoints`).
`Entry.assemble` puts the inverses of composite entries into the reversed log one after the other, at
the places that the entries had before the first one was put in.  So the log comes out right exactly
when nothing has moved (`assemble_eq_adjoints_iff`): in the log and in every definition, all composite
entries behind the first one stand for a single elementary entry each.
-/

namespace QuantumCircuits

open List

variable {α : Type}

/-- The entries that are to take the place of an entry. -/
def Inverted.final (i : Inverted α) : List (Entry α) := i.replacement.getD [i.entry]

namespace Entry

/-! ### Splicing -/

/-- Only the last of the replacements, if any, is not a single entry. -/
def Fits : List (Option (List (Entry α))) → Prop
  | [] => True
  | none :: rest => Fits rest
  | some xs :: rest => (xs.length = 1 ∨ ∀ o ∈ rest, o = none) ∧ Fits rest

variable {os : List (Option (List (Entry α)))}

lemma fits_concat {o : Option (List (Entry α))} :
    Fits (os ++ [o]) ↔ Fits os ∧ (o ≠ none → ∀ xs, some xs ∈ os → xs.length = 1) := by
  induction os with
  | nil => cases o <;> simp [Fits]
  | cons o' os ih =>
    cases o' with
    | none => simpa [Fits] using ih
    | some xs =>
      simp only [cons_append, Fits, ih, forall_mem_append, mem_cons, Option.some.injEq, forall_eq_or_imp]
      cases o with
      | none => simp
      | some ys =>
        tauto

lemma fits_of_forall_none (h : ∀ o ∈ os, o = none) : Fits os := by
  induction os with
  | nil => trivial
  | cons o os ih =>
    obtain rfl := h o mem_cons_self
    exact ih fun o ho => h o (mem_cons_of_mem _ ho)

lemma splice_of_forall_none (h : ∀ o ∈ os, o = none) (i : ℕ)
    (log : List (Entry α)) : splice os i log = log := by
  induction os generalizing i with
  | nil => rfl
  | cons o os ih =>
    obtain rfl := h o mem_cons_self
    exact ih (fun o ho => h o (mem_cons_of_mem _ ho)) (i + 1)

lemma splice_some (pre : List (Entry α)) (xs : List (Entry α)) (e : Entry α) (rest : List (Entry α))
    (os : List (Option (List (Entry α)))) : splice (some xs :: os) pre.length (pre ++ e :: rest) =
      splice os (pre.length + 1) (pre ++ xs ++ rest) := by
  rw [splice, take_left, ← drop_drop, drop_left, drop_one, tail_cons]

lemma splice_of_fits (pre : List (Entry α)) {items : List (Inverted α)} (h : Fits (items.map (·.replacement))) :
    splice (items.map (·.replacement)) pre.length (pre ++ items.map (·.entry)) = pre ++ items.flatMap (·.final) := by
  induction items generalizing pre with
  | nil => rfl
  | cons i items ih =>
    obtain ⟨e, o⟩ := i
    cases o with
    | none =>
      have hs := ih (pre ++ [e]) h
      simpa [Inverted.final, splice] using hs
    | some xs =>
      obtain ⟨hxs, hr⟩ := h
      rw [map_cons, map_cons, splice_some, flatMap_cons, ← append_assoc]
      obtain ho | hn := hxs
      · have hs := ih (pre ++ xs) hr
        rwa [length_append, ho] at hs
      · have hfi : items.flatMap (·.final) = items.map (·.entry) := by
          rw [map_eq_flatMap]
          refine flatMap_congr fun i hi => ?_
          rw [Inverted.final, hn _ (mem_map_of_mem hi)]
          rfl
        rw [splice_of_forall_none hn, hfi]
        rfl

lemma length_splice_le (h : ∀ xs, some xs ∈ os → xs ≠ [])
    (i : ℕ) (log : List (Entry α)) : log.length ≤ (splice os i log).length := by
  induction os generalizing i log with
  | nil => exact Nat.le_refl _
  | cons o os ih =>
    have hr := ih fun xs hxs => h xs (mem_cons_of_mem _ hxs)
    cases o with
    | none => exact hr (i + 1) log
    | some xs =>
      have hxs : 0 < xs.length := length_pos_iff.mpr (h xs mem_cons_self)
      refine Nat.le_trans ?_ (hr (i + 1) _)
      simp only [length_append, length_take, length_drop]
      omega

section Count

variable (p : Entry α → Bool)

/-- How many of the entries in the replacements pass a test. -/
def countIn (os : List (Option (List (Entry α)))) : ℕ := (os.flatMap fun o => o.getD []).countP p

lemma countP_splice (os : List (Option (List (Entry α)))) (i : ℕ) (log : List (Entry α)) :
    log.countP p + countIn p os ≤ (splice os i log).countP p + os.countP Option.isSome := by
  induction os generalizing i log with
  | nil => simp [countIn, splice]
  | cons o os ih =>
    cases o with
    | none => simpa [countIn, splice] using ih (i + 1) log
    | some xs =>
      have hs := ih (i + 1) (log.take i ++ xs ++ log.drop (i + 1))
      have hd : (log.drop i).countP p ≤ (log.drop (i + 1)).countP p + 1 := by
        rw [← drop_drop]
        cases log.drop i with
        | nil => simp
        | cons e rest =>
          rw [drop_one, tail_cons, countP_cons]
          split <;> omega
      have hl : log.countP p = (log.take i).countP p + (log.drop i).countP p := by
        rw [← countP_append, take_append_drop]
      simp only [splice, countIn, flatMap_cons, countP_append, Option.getD_some,
        countP_cons, Option.isSome_some, if_true] at hs ⊢
      omega

variable {p} {items : List (Inverted α)}

/-- The entries that are to be replaced are those that pass the test. -/
def Marks (p : Entry α → Bool) (items : List (Inverted α)) : Prop := ∀ i ∈ items, p i.entry = i.replacement.isSome

lemma Marks.countP (h : Marks p items) :
    (items.map (·.entry)).countP p = (items.map (·.replacement)).countP Option.isSome := by
  rw [countP_map, countP_map]
  exact countP_congr fun i hi => by simp [h i hi]

lemma countP_splice_pos (hm : Marks p items) {q : List (Entry α)}
    {i : ℕ} (hi : i < q.length) (hq : q.countP p = 0) (hs : ∃ o ∈ items.map (·.replacement), o ≠ none) :
    0 < (splice (items.map (·.replacement)) i (q ++ items.map (·.entry))).countP p := by
  induction items generalizing q i with
  | nil => simp at hs
  | cons item items ih =>
    obtain ⟨e, o⟩ := item
    have hma : p e = o.isSome := hm _ mem_cons_self
    have hr : Marks p items := fun i hi => hm i (mem_cons_of_mem _ hi)
    cases o with
    | none =>
      have hst := ih hr (q := q ++ [e]) (i := i + 1) (by simpa using hi)
        (by simpa [countP_append, hq] using hma) (by simpa using hs)
      simpa [splice] using hst
    | some xs =>
      have hco := countP_splice p (items.map (·.replacement)) (i + 1)
        ((q ++ e :: items.map (·.entry)).take i ++ xs ++ (q ++ e :: items.map (·.entry)).drop (i + 1))
      have hd : (q ++ e :: items.map (·.entry)).drop (i + 1) =
          q.drop (i + 1) ++ e :: items.map (·.entry) := drop_append_of_le_length (by omega)
      rw [hd] at hco
      simp only [countP_append, countP_cons, hma, Option.isSome_some, if_true, hr.countP] at hco
      simp only [map_cons, splice, hd]
      omega

lemma fits_of_countP_splice (hm : Marks p items)
    (hn : ∀ xs, some xs ∈ items.map (·.replacement) → xs ≠ []) {pre : List (Entry α)} (hp : pre.countP p = 0)
    (h : (splice (items.map (·.replacement)) pre.length (pre ++ items.map (·.entry))).countP p = 0) :
    Fits (items.map (·.replacement)) ∧ countIn p (items.map (·.replacement)) = 0 := by
  have hcl : countIn p (items.map (·.replacement)) = 0 := by
    have hco := countP_splice p (items.map (·.replacement)) pre.length (pre ++ items.map (·.entry))
    rw [countP_append, hp, hm.countP, h] at hco
    omega
  refine ⟨?_, hcl⟩
  clear hcl
  induction items generalizing pre with
  | nil => trivial
  | cons item items ih =>
    obtain ⟨e, o⟩ := item
    have hma : p e = o.isSome := hm _ mem_cons_self
    have hr : Marks p items := fun i hi => hm i (mem_cons_of_mem _ hi)
    have hn' : ∀ xs, some xs ∈ items.map (·.replacement) → xs ≠ [] := fun xs hxs =>
      hn xs (mem_cons_of_mem _ hxs)
    cases o with
    | none =>
      have hp' : (pre ++ [e]).countP p = 0 := by simpa [countP_append, hp] using hma
      exact ih hr hn' hp' (by simpa [splice] using h)
    | some xs =>
      have hxs : xs ≠ [] := hn xs (by simp)
      rw [map_cons, map_cons, splice_some] at h
      have hcl : (pre ++ xs).countP p = 0 := by
        have hco := countP_splice p (items.map (·.replacement)) (pre.length + 1) (pre ++ xs ++ items.map (·.entry))
        rw [countP_append, hr.countP, h] at hco
        omega
      by_cases hl : ∀ o ∈ items.map (·.replacement), o = none
      · exact ⟨.inr hl, fits_of_forall_none hl⟩
      · simp only [not_forall] at hl
        obtain ⟨o, ho, hs⟩ := hl
        have hlen : (pre ++ xs).length ≤ pre.length + 1 := by
          by_contra hlt
          have hpo := countP_splice_pos hr (Nat.lt_of_not_le hlt) hcl ⟨o, ho, hs⟩
          omega
        have hon : xs.length = 1 := by
          have := length_pos_iff.mpr hxs
          rw [length_append] at hlen
          omega
        refine ⟨.inl hon, ih hr hn' hcl ?_⟩
        rwa [length_append, hon]

end Count

/-! ### The inverse of a log -/

section Adjoint

variable [Scalar α]

/-- The entry is inverted by what it is defined by. -/
def isComposite (e : Entry α) : Bool :=
  e.invertingKey?.isNone && (match e.gate with
      | some g => (flippedGate? g).isNone && !isSelfInverse g
      | none => false)
    && match e.definition with
      | .entries (_ :: _) => true
      | _ => false

/-- The inverse of an entry that is not composite. -/
def turned (e : Entry α) : Outcome (Entry α) :=
  match e.invertingKey? with
  | some (k, f) => e.change k f
  | none => match e.gate with
    | none => .error (.unfit .key)
    | some g => .ok (match flippedGate? g with
      | some h => { e with gate := some h }
      | none => e)

mutual

def adjoint : Entry α → Outcome (List (Entry α))
  | ⟨gate, operands, gateAt, definition⟩ =>
    let e : Entry α := ⟨gate, operands, gateAt, definition⟩
    if e.isComposite then adjointDefinition definition else do .ok [← e.turned]

def adjointDefinition : Definition (Entry α) → Outcome (List (Entry α))
  | .lost | .null => .ok []
  | .entries es => adjoints es

def adjoints : List (Entry α) → Outcome (List (Entry α))
  | [] => .ok []
  | e :: es => do
    let later ← adjoints es
    .ok (later ++ (← adjoint e))

end

mutual

/-- How many elementary entries an entry stands for. -/
def weight : Entry α → Nat
  | ⟨gate, operands, gateAt, definition⟩ =>
    let e : Entry α := ⟨gate, operands, gateAt, definition⟩
    if e.isComposite then definitionWeight definition else 1

def definitionWeight : Definition (Entry α) → Nat
  | .lost | .null => 0
  | .entries es => weights es

def weights : List (Entry α) → Nat
  | [] => 0
  | e :: es => weights es + weight e

end

mutual

/-- No definition in the entry moves its own parts. -/
def isStraight : Entry α → Bool
  | ⟨gate, operands, gateAt, definition⟩ =>
    let e : Entry α := ⟨gate, operands, gateAt, definition⟩
    !e.isComposite || definitionIsStraight definition

def definitionIsStraight : Definition (Entry α) → Bool
  | .lost | .null => true
  | .entries es => areStraight es

/-- In the log and in every definition, composite entries behind a composite entry stand for one
elementary entry each. -/
def areStraight : List (Entry α) → Bool
  | [] => true
  | e :: es => isStraight e && areStraight es && (!e.isComposite || es.all fun f => !f.isComposite || weight f == 1)

end

/-! ### Inverting in place -/

omit [Scalar α] in
lemma get?_put (e : Entry α) (k : Key) (x : Operand α) : (e.put k x).get? k = some x := by
  obtain ⟨gate, operands, gateAt, definition⟩ := e
  unfold put get?
  split
  · next h =>
    induction operands with
    | nil => simp at h
    | cons p operands ih =>
      by_cases hp : p.1 = k
      · simp [hp]
      · have hne : (k == p.1) = false := beq_eq_false_iff_ne.mpr (Ne.symm hp)
        have h' : operands.any (fun p => p.1 == k) = true := by simpa [hp] using h
        rw [map_cons, if_neg (by simpa using hp), lookup_cons, hne]
        exact ih h'
  · next h =>
    have hn : operands.lookup k = none := by
      rw [lookup_eq_none_iff]
      intro p hp
      have hp' : ¬p.1 = k := by rintro rfl; exact h (any_eq_true.mpr ⟨p, hp, beq_self_eq_true _⟩)
      exact bne_iff_ne.mpr (Ne.symm hp')
    simp [lookup_append, hn]

lemma isComposite_turned {e f : Entry α} (he : e.isComposite = false) (h : e.turned = .ok f) :
    f.isComposite = false := by
  unfold turned at h
  cases hk : e.invertingKey? with
  | some kf =>
    obtain ⟨k, g⟩ := kf
    rw [hk] at h
    have hge : (e.get? k).isSome = true :=
      find?_some (p := fun q : Key × (Operand α → Outcome (Operand α)) => (e.get? q.1).isSome) hk
    obtain ⟨x, hx⟩ := Option.isSome_iff_exists.mp hge
    simp only [change, hx] at h
    cases hy : g x with
    | error t =>
      rw [hy] at h
      cases h
    | ok y =>
      rw [hy] at h
      cases h
      have hm := mem_of_find?_eq_some hk
      have hs : (e.put k y).invertingKey?.isSome = true := by
        rw [invertingKey?, find?_isSome]; refine ⟨(k, g), hm, ?_⟩; simp [get?_put]
      simp [isComposite, Option.isNone_eq_false_iff.mpr hs]
  | none =>
    rw [hk] at h
    simp only at h
    cases hg : e.gate with
    | none =>
      rw [hg] at h
      cases h
    | some g =>
      rw [hg] at h
      simp only at h
      cases hfl : flippedGate? g with
      | none =>
        rw [hfl] at h
        cases h
        exact he
      | some g' =>
        rw [hfl] at h
        cases h
        have hba : (flippedGate? g').isSome = true := by
          unfold flippedGate? at hfl
          split at hfl
          · next b r =>
            cases b <;> simp [Base.flip?] at hfl <;> subst hfl <;> rfl
          · cases hfl
        simp [isComposite, Option.isNone_eq_false_iff.mpr hba]

lemma length_fst_invertAll (es : List (Entry α)) : (invertAll es).1.length = es.length := by
  induction es with
  | nil => rfl
  | cons e es ih =>
    rw [invertAll]
    rcases h : invertAll es with ⟨kept, _ | done⟩
    · simpa [h] using ih
    · rcases invert e with ⟨e', _ | i⟩ <;> simpa [h] using ih

lemma snd_invertAll_cons (e : Entry α) (es : List (Entry α)) : (invertAll (e :: es)).2 =
      (invertAll es).2.bind fun done => (invert e).2.map fun i => done ++ [i] := by
  rw [invertAll]
  rcases invertAll es with ⟨kept, _ | done⟩
  · rfl
  · rcases invert e with ⟨e', _ | i⟩ <;> rfl

lemma snd_invert_of_not_composite {e : Entry α} (h : e.isComposite = false) :
    (invert e).2 = e.turned.map fun f => ⟨f, none⟩ := by
  obtain ⟨gate, operands, gateAt, definition⟩ := e
  rw [invert.eq_def, turned]
  cases hk : invertingKey? ⟨gate, operands, gateAt, definition⟩ with
  | some kf =>
    obtain ⟨k, f⟩ := kf
    cases hch : change ⟨gate, operands, gateAt, definition⟩ k f <;> simp only [hk, hch] <;> rfl
  | none =>
    cases gate with
    | none =>
      simp only [hk]
      rfl
    | some g =>
      cases hfl : flippedGate? g with
      | some g' =>
        simp only [hk, hfl]
        rfl
      | none =>
        by_cases hs : isSelfInverse g = true
        · simp only [hk, hfl, hs, if_true]; rfl
        · -- nothing else is left of the definition
          have hbo : invertDefinition definition = none := by
            match definition with
            | .lost | .null | .entries [] => rw [invertDefinition]
            | .entries (e :: es) => simp [isComposite, hk, hfl, hs] at h
          simp only [hk, hfl, hs, hbo]
          rfl

lemma snd_invert_of_composite {gate : Option GateName} {os : Operands α} {gateAt : ℕ}
    {es : List (Entry α)} (h : isComposite ⟨gate, os, gateAt, .entries es⟩ = true) :
    (invert ⟨gate, os, gateAt, .entries es⟩).2 = (invertAll es).2.map fun done =>
      ⟨⟨gate, os, gateAt, .entries (invertAll es).1⟩, some (assemble done)⟩ := by
  have h' := h
  simp only [isComposite, Bool.and_eq_true] at h'
  obtain ⟨⟨hk, hg⟩, hd⟩ := h'
  cases es with
  | nil => cases hd
  | cons e es =>
    cases gate with
    | none => cases hg
    | some g =>
      simp only [Bool.and_eq_true, Option.isNone_iff_eq_none, Bool.not_eq_true'] at hk hg
      rw [invert.eq_def]
      simp only [hk, invertDefinition]
      simp only [hg.1, hg.2]
      rcases invertAll (e :: es) with ⟨kept, _ | done⟩ <;> rfl

/-! ### What is assembled -/

/-- An inverted entry is that of an entry with the given inverse: it is to be replaced if the entry is
composite, by the right entries if these did not move, and otherwise by some that are still composite. -/
structure Inverts (e : Entry α) (fs : List (Entry α)) (i : Inverted α) : Prop where
  marked : i.entry.isComposite = i.replacement.isSome
  composite : e.isComposite = i.replacement.isSome
  ne_nil : i.final ≠ []
  length : fs.length = e.weight
  clean : fs.countP isComposite = 0
  right : e.isStraight = true → i.final = fs
  wrong : e.isStraight = false → 0 < i.final.countP isComposite

/-- The same for the entries of a log, the last one first. -/
inductive InvertsAll : List (Entry α) → List (Entry α) → List (Inverted α) → Prop where
  | nil : InvertsAll [] [] []
  | cons {e : Entry α} {es fs gs : List (Entry α)} {i : Inverted α} {done : List (Inverted α)} :
    InvertsAll es fs done → Inverts e gs i → InvertsAll (e :: es) (fs ++ gs) (done ++ [i])

namespace InvertsAll

variable {es fs : List (Entry α)} {done : List (Inverted α)} (h : InvertsAll es fs done)
include h

lemma marks : Marks isComposite done := by
  induction h with
  | nil => exact fun i hi => absurd hi not_mem_nil
  | cons _ hi ih => exact forall_mem_append.mpr ⟨ih, forall_mem_singleton.mpr hi.marked⟩

lemma ne_nil : ∀ xs, some xs ∈ done.map (·.replacement) → xs ≠ [] := by
  intro xs hxs
  obtain ⟨i, hi, hr⟩ := mem_map.mp hxs
  have hfi : i.final ≠ [] := by
    clear hxs
    induction h with
    | nil => cases hi
    | cons _ hi' ih =>
      rcases mem_append.mp hi with hi | hi
      · exact ih hi
      · obtain rfl := mem_singleton.mp hi; exact hi'.ne_nil
  rwa [Inverted.final, hr, Option.getD_some] at hfi

lemma length_eq : done.length = es.length := by
  induction h with
  | nil => rfl
  | cons _ _ ih => simp [ih]

lemma clean : fs.countP isComposite = 0 := by
  induction h with
  | nil => rfl
  | cons _ hi ih => rw [countP_append, ih, hi.clean]

lemma length : fs.length = weights es := by
  induction h with
  | nil => rfl
  | cons _ hi ih => rw [length_append, ih, hi.length, weights]

lemma final (he : areStraight es = true) : done.flatMap (·.final) = fs := by
  induction h with
  | nil => rfl
  | cons _ hi ih =>
    simp only [areStraight, Bool.and_eq_true] at he
    rw [flatMap_append, ih he.1.2, flatMap_singleton, hi.right he.1.1]

lemma single (he : areStraight es = true) : (∀ xs, some xs ∈ done.map (·.replacement) → xs.length = 1) ↔
      (es.all fun f => !f.isComposite || weight f == 1) = true := by
  induction h with
  | nil => simp
  | @cons e es fs gs i done _ hi ih =>
    simp only [areStraight, Bool.and_eq_true] at he
    have hw : ∀ xs, i.replacement = some xs → xs.length = e.weight := fun xs hxs => by
      rw [← hi.length, ← hi.right he.1.1, Inverted.final, hxs, Option.getD_some]
    have hco := hi.composite
    rw [map_append, all_cons, Bool.and_eq_true, ← ih he.1.2]
    simp only [mem_append, map_cons, map_nil, mem_singleton, or_imp, forall_and]
    refine (and_congr_right fun _ => ?_).trans and_comm
    cases hr : i.replacement with
    | none => simp [hco, hr]
    | some xs => simp [hco, hr, hw xs hr]

lemma straight_iff : areStraight es = true ↔ Fits (done.map (·.replacement)) ∧
      countIn isComposite (done.map (·.replacement)) = 0 := by
  induction h with
  | nil => simp [areStraight, Fits, countIn]
  | @cons e es fs gs i done h hi ih =>
    have hcu : countIn isComposite ((done ++ [i]).map (·.replacement)) =
        countIn isComposite (done.map (·.replacement)) + (i.replacement.getD []).countP isComposite := by
      simp [countIn]
    have hst : e.isStraight = true ↔ (i.replacement.getD []).countP isComposite = 0 := by
      cases hr : i.replacement with
      | none =>
        have hco : e.isComposite = false := by rw [hi.composite, hr]; rfl
        have hst : e.isStraight = true := by
          obtain ⟨gate, operands, gateAt, definition⟩ := e; simp [isStraight, hco]
        simp [hst]
      | some xs =>
        have hfi : i.final = xs := by rw [Inverted.final, hr, Option.getD_some]
        cases hs : e.isStraight with
        | true => simp [← hfi, hi.right hs, hi.clean]
        | false =>
          have hp := hi.wrong hs
          rw [hfi] at hp
          simp [Nat.ne_of_gt hp]
    have hr : e.isComposite = true ↔ i.replacement ≠ none := by rw [hi.composite, Option.isSome_iff_ne_none]
    rw [hcu, map_append, map_singleton, fits_concat, areStraight, Nat.add_eq_zero_iff]
    simp only [Bool.and_eq_true, Bool.or_eq_true, Bool.not_eq_true', hst, ← hr]
    constructor
    · rintro ⟨⟨he, hes⟩, hl⟩
      refine ⟨⟨(ih.mp hes).1, fun hcm => ?_⟩, (ih.mp hes).2, he⟩
      exact (h.single hes).mpr (hl.resolve_left (by simp [hcm]))
    · rintro ⟨⟨hft, hsi⟩, hcl, he⟩
      have hes := ih.mpr ⟨hft, hcl⟩
      refine ⟨⟨he, hes⟩, ?_⟩
      cases hcm : e.isComposite with
      | false => exact .inl rfl
      | true => exact .inr ((h.single hes).mp (hsi hcm))

lemma assemble_of_straight (he : areStraight es = true) : assemble done = fs := by
  have hfi := splice_of_fits [] (h.straight_iff.mp he).1
  rwa [nil_append, nil_append, h.final he] at hfi

lemma countP_assemble_pos (he : areStraight es = false) : 0 < (assemble done).countP isComposite := by
  refine Nat.pos_of_ne_zero fun hze => ?_
  have hfi := fits_of_countP_splice h.marks h.ne_nil countP_nil hze
  rw [h.straight_iff.mpr hfi] at he
  cases he

lemma assemble_ne_nil (he : es ≠ []) : assemble done ≠ [] := by
  have hl := length_splice_le h.ne_nil 0 (done.map (·.entry))
  rw [length_map, h.length_eq] at hl
  have hp := length_pos_iff.mpr he
  exact length_pos_iff.mp (Nat.lt_of_lt_of_le hp hl)

end InvertsAll

/-- Both end in the same fault, or in results that are related. -/
inductive Agree {β γ : Type} (R : β → γ → Prop) : Outcome β → Outcome γ → Prop where
  | fault (f : Fault) : Agree R (.error f) (.error f)
  | result {b : β} {c : γ} : R b c → Agree R (.ok b) (.ok c)

mutual

lemma inverts_invert : ∀ e : Entry α, Agree (Inverts e) (adjoint e) (invert e).2
  | ⟨gate, operands, gateAt, definition⟩ => by
    rw [adjoint]
    cases hco : isComposite ⟨gate, operands, gateAt, definition⟩ with
    | false =>
      rw [snd_invert_of_not_composite hco]
      simp only [Bool.false_eq_true, if_false]
      cases ht : turned ⟨gate, operands, gateAt, definition⟩ with
      | error f => exact .fault f
      | ok f =>
        have hcl := isComposite_turned hco ht
        exact .result ⟨hcl, hco, cons_ne_nil _ _, by simp [weight, hco],
          by simp [hcl], fun _ => rfl, fun hs => by simp [isStraight, hco] at hs⟩
    | true =>
      simp only [if_true]
      cases definition with
      | lost | null => simp [isComposite] at hco
      | entries es =>
        have he : es ≠ [] := by rintro rfl; simp [isComposite] at hco
        have hke : isComposite ⟨gate, operands, gateAt, .entries (invertAll es).1⟩ = true := by
          have hlen := length_fst_invertAll es
          cases hk : (invertAll es).1 with
          | nil =>
            rw [hk] at hlen
            exact absurd (length_eq_zero_iff.mp hlen.symm) he
          | cons k ks =>
            obtain ⟨x, xs, rfl⟩ := exists_cons_of_ne_nil he
            exact hco
        rw [adjointDefinition, snd_invert_of_composite hco]
        have ha := inverts_invertAll es
        generalize adjoints es = fs, (invertAll es).2 = done at ha ⊢
        cases ha with
        | fault f => exact .fault f
        | result ha =>
          exact .result ⟨hke, hco, ha.assemble_ne_nil he,
            by simp [weight, hco, definitionWeight, ha.length], ha.clean,
            fun hs => ha.assemble_of_straight (by simpa [isStraight, hco, definitionIsStraight] using hs),
            fun hs => ha.countP_assemble_pos (by simpa [isStraight, hco, definitionIsStraight] using hs)⟩

lemma inverts_invertAll : ∀ es : List (Entry α), Agree (InvertsAll es) (adjoints es) (invertAll es).2
  | [] => by rw [adjoints, invertAll]; exact .result .nil
  | e :: es => by
    rw [adjoints, snd_invertAll_cons]
    have ha := inverts_invertAll es
    have hin := inverts_invert e
    generalize adjoints es = fs, (invertAll es).2 = done at ha ⊢
    generalize adjoint e = gs, (invert e).2 = i at hin ⊢
    cases ha with
    | fault f => exact .fault f
    | result ha =>
      cases hin with
      | fault f => exact .fault f
      | result hin => exact .result (.cons ha hin)

end

/-- **A reversed log is the inverses of its entries, the last one first,** exactly when it ends in a
fault or is straight. -/
theorem assemble_eq_adjoints_iff (log : List (Entry α)) : (invertAll log).2.map assemble = adjoints log ↔
      ∀ inverse, adjoints log = .ok inverse → areStraight log = true := by
  have ha := inverts_invertAll log
  generalize adjoints log = inverses, (invertAll log).2 = done at ha ⊢
  cases ha with
  | fault f => exact iff_of_true rfl nofun
  | @result inverse done hal =>
    change Except.ok (assemble done) = .ok inverse ↔ _
    simp only [Except.ok.injEq, forall_eq']
    constructor
    · intro h
      -- what is left of composite entries shows
      by_contra hs
      have hp := hal.countP_assemble_pos (Bool.not_eq_true _ ▸ hs)
      rw [h, hal.clean] at hp
      exact Nat.lt_irrefl 0 hp
    · exact hal.assemble_of_straight

end Adjoint

/-- A gate of the user's own: a rotation and a quarter phase. -/
def userGate (q : Int) : Entry Float :=
  ⟨some (.unknown "custom_gate"), [(.qubitIndices, .int q)], 0, .entries
    [.new (.of .rx .plain) [(.angle, .real 0.1), (.qubitIndices, .int q)] [],
      .new (.of .s .plain) [(.qubitIndices, .int q)] []]⟩

/-- Of two such gates, the second one comes back without its rotation and the first one is not
inverted. -/
theorem assemble_two_user_gates : adjoints [userGate 0, userGate 1] = .ok
      [.new (.of .sdg .plain) [(.qubitIndices, .int 1)] [],
        .new (.of .rx .plain) [(.angle, .real (-0.1)), (.qubitIndices, .int 1)] [],
        .new (.of .sdg .plain) [(.qubitIndices, .int 0)] [],
        .new (.of .rx .plain) [(.angle, .real (-0.1)), (.qubitIndices, .int 0)] []] ∧
    (invertAll [userGate 0, userGate 1]).2.map assemble = .ok [.new (.of .sdg .plain) [(.qubitIndices, .int 1)] [],
        .new (.of .sdg .plain) [(.qubitIndices, .int 0)] [],
        .new (.of .rx .plain) [(.angle, .real (-0.1)), (.qubitIndices, .int 0)] [],
        ⟨some (.unknown "custom_gate"), [(.qubitIndices, .int 0)], 0, .entries
          [.new (.of .rx .plain) [(.angle, .real (-0.1)), (.qubitIndices, .int 0)] [],
            .new (.of .sdg .plain) [(.qubitIndices, .int 0)] []]⟩] := by
  constructor <;> rfl

end Entry

end QuantumCircuits
