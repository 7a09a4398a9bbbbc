import QuantumCircuits.Proofs.Log.Attached

/-!
# Log — Sound

What every entry of a log is like, down to the entries of its definition: its qubits are whole numbers in
range and all different, a single qubit stands on its own and not in a list, no control state is among its
operands, and its angles are not all zero (`Entry.Sound`).

Entries come to a log in two ways.  A call adds entries that have passed the checks, at every depth, and
whatever comes of the call: `Recording.sound_performAt` goes by the depth of definitions.  All other
changes of a log end in a replay on an empty circuit, so that what comes out is sound whatever went in.
-/

namespace QuantumCircuits

open List Change Operand Recording

variable {α : Type}
variable {n : ℕ} {x w : Operand α}

/-! ### Changes that go through -/

namespace Change

variable {σ β γ : Type} {P Q S : σ → Prop} {x : Change σ β}

/-- If the change starts in `P` and goes through, it ends in `Q`. -/
def Ends (P Q : σ → Prop) (x : Change σ β) : Prop := ∀ s b t, P s → perform x s = (.ok b, t) → Q t

lemma Keeps.ends {R : σ → σ → Prop} (hx : Keeps R x) (h : ∀ s t, R s t → P s → Q t) : Ends P Q x := by
  intro s b t hs hr
  have hst := hx s
  rw [hr] at hst
  exact h s t hst hs

lemma Ends.mono (hx : Ends P Q x) (h : ∀ s, S s → P s) : Ends S Q x :=
  fun s b t hs => hx s b t (h s hs)

lemma Ends.bind {f : β → Change σ γ} (hx : Ends P Q x) (hf : ∀ b, Ends Q S (f b)) :
    Ends P S (x >>= f) := by
  intro s c t hs hr
  rw [perform_bind] at hr
  rcases hp : perform x s with ⟨_ | b, u⟩ <;> rw [hp] at hr
  · cases hr
  · exact hf b u c t (hx s b u hs hp) hr

lemma ends_ofOutcome (out : Outcome β) : Ends P P (ofOutcome out : Change σ β) := by
  intro s b t hs h
  cases out with
  | error f => cases h
  | ok c =>
    cases h
    exact hs

lemma ends_get : Ends P P (get : Change σ σ) := by rintro s b t hs ⟨⟩; exact hs

lemma Ends.andFinally {y : Change σ Unit} (hx : Ends P Q x) (hy : Ends Q S y) :
    Ends P S (x.andFinally y) := by
  intro s b t hs hr
  obtain ⟨u, hu, ht⟩ := exists_of_andFinally_ok hr
  exact hy u () t (hx s b u hs hu) ht

end Change

namespace Circuit

def SameSize (c d : Circuit α) : Prop := d.numQubits = c.numQubits

lemma ends_of_sameSize {β : Type} {x : Change (Circuit α) β} (h : Keeps SameSize x) :
    Ends (fun c => c.numQubits = n) (fun c => c.numQubits = n) x :=
  h.ends fun _ _ h hc => h.trans hc

end Circuit

/-! ### Entries -/

namespace Operand

def IsPlace (n : ℕ) (x : Operand α) : Prop := x.isInt = true ∧ ∃ i : ℤ, x.toInt? = some i ∧ 0 ≤ i ∧ i < n

/-- The operand names qubits of a circuit on `n` qubits: one that stands on its own, or a list of none or
of several. -/
def IsPlaces (n : ℕ) : Operand α → Prop
  | .list xs => xs.length ≠ 1 ∧ ∀ x ∈ xs, x.IsPlace n
  | x => x.IsPlace n

def isIdle [Scalar α] : Operand α → Bool
  | .list xs => xs.all isZero
  | x => x.isZero

end Operand

/-- What the operands of an entry are like. -/
structure Operands.Sound [Scalar α] (n : ℕ) (xs : Operands α) : Prop where
  places : ∀ p ∈ xs, p.1.isQubit = true → p.2.IsPlaces n
  different : (((xs.filter (·.1.isQubit)).flatMap (·.2.indices)).map toInt?).Nodup
  turning : ∀ p ∈ xs, p.1.isAngle = true → p.2.isIdle = false
  noState : ∀ p ∈ xs, p.1 ≠ .controlState

/-- The operands of the entry are sound, and so are all entries that it is defined by. -/
inductive Entry.Sound [Scalar α] (n : ℕ) : Entry α → Prop
  | intro {e : Entry α} (operands : Operands.Sound n e.operands)
      (parts : ∀ es, e.definition = .entries es → ∀ d ∈ es, d.Sound n) : e.Sound n

/-! ### Checks -/

lemma Operand.IsPlace.isPlaces (h : x.IsPlace n) : x.IsPlaces n := by
  cases x <;> first | exact h | exact absurd h.1 Bool.false_ne_true

lemma checkIndex_isPlace (h : checkIndex n x = .ok w) : w.IsPlace n := by
  rw [checkIndex] at h
  split at h
  · cases h
  next hin =>
    dsimp only at h
    split at h
    · cases h
    next hr =>
      cases h
      obtain ⟨i, hi⟩ : ∃ i, x.toInt? = some i := by
        cases x <;> first | exact ⟨_, rfl⟩ | exact absurd rfl hin
      rw [hi, Option.getD_some] at hr ⊢
      split
      · exact ⟨by simpa using hin, i, hi, by omega, by omega⟩
      · exact ⟨rfl, n + i, rfl, by omega, by omega⟩

lemma checkQubits_isPlaces (h : checkQubits n x = .ok w) : w.IsPlaces n := by
  unfold checkQubits at h
  split at h
  · exact (checkIndex_isPlace h).isPlaces
  next xs ho =>
    rcases hxs : xs.mapM (checkIndex n) with f | ys <;> rw [hxs] at h
    · cases h
    cases h
    have hys := forall₂_of_mapM hxs
    refine ⟨fun hlen => ?_, fun y hy => ?_⟩
    · obtain ⟨z, rfl⟩ := length_eq_one_iff.1 (hys.length_eq.trans hlen); exact ho z rfl
    · obtain ⟨z, -, hz⟩ := exists_of_forall₂ hys y hy; exact checkIndex_isPlace hz
  · exact (checkIndex_isPlace h).isPlaces

lemma distinctIndices_iff (xs : List (Operand α)) : distinctIndices xs = true ↔ (xs.map toInt?).Nodup := by
  induction xs with
  | nil => simp [distinctIndices]
  | cons x xs ih =>
    rw [distinctIndices, Bool.and_eq_true, ih, map_cons, nodup_cons]
    refine and_congr_left fun _ => ?_
    rw [Bool.not_eq_true', any_eq_false, mem_map, not_exists]
    refine forall_congr' fun y => ?_
    rw [not_and, sameIndex, beq_iff_eq, eq_comm]

variable [Scalar α]

lemma Operand.isIdle_of_not_list (h : ∀ xs, x ≠ .list xs) : x.isIdle = x.isZero := by
  cases x with
  | list xs => exact absurd rfl (h xs)
  | _ => rfl

lemma checkAngle_ne_list (h : checkAngle x = .ok w) (xs : List (Operand α)) : w ≠ .list xs := by
  have hn : ∀ y : Operand α, (∀ xs, y ≠ .list xs) →
      (do .ok (if isZeroAngle (← y.toReal) then .real 0.0 else y) : Outcome (Operand α)) = .ok w →
      w ≠ .list xs := by
    intro y hy hw
    rcases hr : y.toReal with f | r <;> rw [hr] at hw
    · cases hw
    dsimp only [bind, Except.bind] at hw
    split at hw <;> cases hw
    · nofun
    · exact hy xs
  unfold checkAngle at h
  split at h
  · exact hn _ (by simp) h
  · exact hn _ (by simp) h
  · exact hn _ (by simp) h
  · cases h

lemma checkAngles_isIdle (h : checkAngles x = .ok (some w)) : w.isIdle = false := by
  unfold checkAngles at h
  split at h
  next xs =>
    rcases hxs : xs.mapM checkAngle with f | ys <;> rw [hxs] at h
    · cases h
    dsimp only [bind, Except.bind] at h
    split at h <;> cases h
    next hi => simpa [isIdle] using hi
  next =>
    rcases hx : checkAngle x with f | y <;> rw [hx] at h
    · cases h
    dsimp only [bind, Except.bind] at h
    split at h <;> cases h
    next hi => rwa [isIdle_of_not_list (checkAngle_ne_list hx), ← Bool.not_eq_true]

lemma exists_of_validateFrom {xs done ys : Operands α} {qs : List (Operand α)}
    (h : validateFrom n xs qs done = .ok (some ys)) :
    ∃ rest : Operands α, ys = done.reverse ++ rest ∧ rest.map Prod.fst = xs.map Prod.fst ∧
      (∀ p ∈ rest, (p.1.isQubit = true → p.2.IsPlaces n) ∧ (p.1.isAngle = true → p.2.isIdle = false)) ∧
      distinctIndices (qs ++ (rest.filter (·.1.isQubit)).flatMap (·.2.indices)) = true := by
  induction xs generalizing qs done with
  | nil =>
    rw [validateFrom] at h
    split at h
    next hd =>
      cases h
      exact ⟨[], by simp, rfl, by simp, by simpa using hd⟩
    · cases h
  | cons p xs ih =>
    obtain ⟨k, x⟩ := p
    rw [validateFrom] at h
    rcases hv : x.toPlain with f | v <;> rw [hv] at h
    · cases h
    dsimp only [bind, Except.bind] at h
    by_cases hk : k.isQubit = true
    · rw [if_pos hk] at h
      rcases hw : checkQubits n v with f | w <;> rw [hw] at h
      · cases h
      obtain ⟨rest, rfl, hke, hr, hd⟩ := ih h
      have ha : k.isAngle = false := by cases k <;> first | rfl | cases hk
      refine ⟨(k, w) :: rest, by simp, by simp [hke], ?_, ?_⟩
      · rintro p (_ | ⟨_, hp⟩)
        · exact ⟨fun _ => checkQubits_isPlaces hw, fun han => by rw [ha] at han; cases han⟩
        · exact hr p hp
      · simpa [filter_cons, hk] using hd
    · rw [if_neg hk] at h
      -- an operand that is no qubit goes through as it is, or as it is after the check of angles
      suffices hg : ∃ w, (k.isAngle = true → w.isIdle = false) ∧
          validateFrom n xs qs ((k, w) :: done) = .ok (some ys) by
        obtain ⟨w, hw, hr⟩ := hg
        obtain ⟨rest, rfl, hke, hr, hd⟩ := ih hr
        refine ⟨(k, w) :: rest, by simp, by simp [hke], ?_, by simpa [filter_cons, hk] using hd⟩
        rintro p (_ | ⟨_, hp⟩)
        · exact ⟨fun hq => absurd hq hk, hw⟩
        · exact hr p hp
      split at h
      · exact ⟨.none, fun _ => rfl, h⟩
      · split at h
        · rcases hw : checkAngles v with f | _ | w <;> rw [hw] at h
          · cases h
          · cases h
          · exact ⟨w, fun _ => checkAngles_isIdle hw, h⟩
        next han => exact ⟨v, fun ha => absurd ha han, h⟩

lemma sound_of_validate {xs ys : Operands α} (h : validate n xs = .ok (some ys))
    (hk : ∀ p ∈ xs, p.1 ≠ .controlState) : Operands.Sound n ys := by
  obtain ⟨rest, rfl, hr, hs, hd⟩ := exists_of_validateFrom h
  refine ⟨fun p hp => (hs p hp).1, (distinctIndices_iff _).1 hd, fun p hp => (hs p hp).2, fun p hp => ?_⟩
  have hm : p.1 ∈ xs.map Prod.fst := hr ▸ mem_map_of_mem hp
  obtain ⟨q, hq, hqp⟩ := mem_map.1 hm
  exact hqp ▸ hk q hq

/-! ### Recordings -/

namespace Recording

variable {body : Change (Recording α) Unit} {c : Call α}

/-- If all entries before are sound, so are all entries after. -/
def KeepSound (n : ℕ) (r t : Recording α) : Prop := (∀ e ∈ r.entries, e.Sound n) → ∀ e ∈ t.entries, e.Sound n

instance : IsPreorder (Recording α) (KeepSound n) where
  refl _ h := h
  trans _ _ _ h h' hr := h' (h hr)

lemma sound_emit (x : Change (Sink α) Unit) : Keeps (KeepSound n) (emit x) := fun _ h => h

lemma sound_within (h : Keeps (KeepSound n) body) (g : Gate)
    {os : Operands α} (ho : Operands.Sound n os) :
    Keeps (KeepSound n) (within g os body) := by
  intro r hr e he
  rcases Array.mem_push.1 he with he | rfl
  · exact hr e he
  · refine .intro ho fun es hes d hd => ?_
    cases hes
    exact h { r with entries := #[] } (by simp) d (Array.mem_toList_iff.1 hd)

lemma sound_logged (hc : c.Formed)
    (h : Keeps (KeepSound n) body) : Keeps (KeepSound n) (logged ⟨n, true⟩ c body) :=
  keeps_logged h fun _ ho => sound_within h _ (sound_of_validate ho fun p hp => (hc p hp).2)

/-- **Calls log sound entries only**, at every depth and whether or not they end in a fault. -/
theorem sound_performAt (depth : ℕ) (hc : c.Formed) :
    Keeps (KeepSound n) (performAt ⟨n, true⟩ depth c) := by
  induction depth generalizing c with
  | zero => exact keeps_fail _
  | succ depth ih =>
    refine (keeps_ofOutcome _).bind fun _ => (keeps_ofOutcome _).bind fun positions => ?_
    refine keeps_flipping (ih (Call.formed_flipCall _)) (sound_logged hc ?_) _
    split
    · exact sound_emit _
    · exact keeps_follow fun d hd => ih ((Plan.formed_plan _ _).mem_outcome d hd)

end Recording

/-! ### Circuits -/

namespace Circuit

variable {c c' : Circuit α}

/-- The circuit has `n` qubits, checks its calls, and all entries of its log are sound. -/
structure SoundOn (n : ℕ) (c : Circuit α) : Prop where
  size : c.numQubits = n
  validating : c.validating = true
  log : ∀ e ∈ c.log, e.Sound n

/-- If the circuit before is sound, so is the circuit after. -/
def KeepSound (c d : Circuit α) : Prop := ∀ n, c.SoundOn n → d.SoundOn n

instance : IsPreorder (Circuit α) KeepSound where
  refl _ _ h := h
  trans _ _ _ h h' n hc := h' n (h n hc)

lemma SoundOn.recording (hc : c.SoundOn n) {x : Change (Recording α) Unit}
    (hgr : Recording.Keeping x) (hx : Keeps (Recording.KeepSound n) x) :
    (Change.perform (Circuit.recording x) c).2.SoundOn n := by
  have hg := grows_recording hgr c
  refine ⟨hg.sink.numQubits.trans hc.size, hg.validating.trans hc.validating, fun e he => ?_⟩
  rw [perform_recording] at he
  split at he
  · exact hc.log e he
  · rcases Array.mem_append.1 he with he | he
    · exact hc.log e he
    · exact hx _ (by simp) e he

lemma SoundOn.setting (hc : c.SoundOn n) : c.setting = ⟨n, true⟩ := by
  rw [Circuit.setting, hc.size, hc.validating]

lemma keepSound_perform {call : Call α} (h : call.Formed) : Keeps KeepSound (perform call) := by
  refine keeps_get_bind fun c n hc => ?_
  rw [hc.setting]
  exact hc.recording (keeping_perform _ _) (sound_performAt _ h)

lemma keepSound_follow {p : Plan α Unit} (h : p.Formed) : Keeps KeepSound (follow p) := by
  refine keeps_get_bind fun c n hc => ?_
  rw [hc.setting]
  exact hc.recording (keeps_follow fun _ _ => keeping_perform _ _)
    (keeps_follow fun d hd => sound_performAt _ (h.mem_outcome d hd))

lemma inherited_keepSound : Inherited (α := α) fun x => Keeps KeepSound x :=
  inherited_keeps keepSound_perform keepSound_follow

/-! ### Replays -/

lemma soundOn_sized (f : Framework) (n : ℕ) (size : Operand α) : (sized f n size).SoundOn n :=
  ⟨rfl, rfl, by simp [sized, empty]⟩

lemma soundOn_replay (es : List (Entry α)) (c : Circuit α) : (replay es c.fresh).2.1.SoundOn c.numQubits :=
  inherited_keepSound.keeps_replay es c.fresh _ (soundOn_sized _ _ _)

lemma ends_of_keepSound {β : Type} {x : Change (Circuit α) β} (h : Keeps KeepSound x) :
    Ends (SoundOn n) (SoundOn n) x := h.ends fun _ _ h => h n

lemma ends_update : Ends (fun c => c.numQubits = n) (SoundOn n) (update : Change (Circuit α) Unit) := by
  rintro c ⟨⟩ c' rfl h
  have ht := soundOn_replay c.log.toList c
  rw [perform_update] at h
  rcases hr : replay c.log.toList c.fresh with ⟨es, target, f | u⟩ <;> rw [hr] at h ht
  · cases h
  · cases h; exact ht

lemma ends_updateWith (log : List (Entry α)) : Ends (fun c => c.numQubits = n) (SoundOn n) (updateWith log) := by
  have hs : Keeps SameSize (modify fun c : Circuit α => { c with log := log.toArray, detached := true }) :=
    keeps_modify fun _ => rfl
  exact (ends_of_sameSize hs).bind fun _ => ends_update

lemma ends_of_rewrites {x : Change (Circuit α) Unit} (h : ∀ c, Rewrites x c) :
    Ends (fun c => c.numQubits = n) (SoundOn n) x := by
  intro c u c' hc hx
  obtain ⟨log, ⟨f, hfa⟩ | hu⟩ := h c
  · rw [hfa] at hx; cases hx
  · rw [hu] at hx; exact ends_update { c with log := log } u c' hc hx

lemma ends_exchange {β : Type} (out : Outcome β) (f : β → List (Entry α)) :
    Ends (fun c => c.numQubits = n) (SoundOn n) (ofOutcome out >>= fun b => updateWith (f b)) :=
  (ends_ofOutcome out).bind fun b => ends_updateWith (f b)

lemma ends_horizontalReverse (inverting : Bool) :
    Ends (fun c => c.numQubits = n) (SoundOn n) (horizontalReverse inverting : Change (Circuit α) Unit) := by
  intro c u c' hc h
  rw [horizontalReverse, perform_get_bind] at h
  cases inverting with
  | false => exact ends_updateWith _ c u c' hc h
  | true =>
    generalize Entry.invertAll c.log.toList = inverted at h
    obtain ⟨kept, out⟩ := inverted
    exact ends_exchange out Entry.assemble { c with log := kept.toArray } u c' hc h

lemma ends_mergeGlobalPhases :
    Ends (fun c => c.numQubits = n) (SoundOn n) (mergeGlobalPhases : Change (Circuit α) Unit) := by
  intro c u c' hc h
  rw [mergeGlobalPhases, perform_get_bind, ← bind_assoc] at h
  exact ((ends_exchange _ _).bind fun _ => ends_of_keepSound (inherited_keepSound.apply _ _)) c u c' hc h

lemma ends_removeMeasurements :
    Ends (fun c => c.numQubits = n) (SoundOn n) (removeMeasurements : Change (Circuit α) Unit) := by
  intro c u c' hc h
  exact ends_exchange _ _ c u c' hc h

/-! ### Circuits that are made from others -/

lemma soundOn_new {f : Framework} {size : Operand α} (h : new f size = .ok c) :
    c.SoundOn c.numQubits := by
  rw [eq_sized_of_new h]
  exact soundOn_sized _ _ _

lemma soundOn_decompose {reps : Operand α} {full : Bool} (hc : c.SoundOn n)
    (h : c.decompose reps full = .ok c') : c'.SoundOn n := by
  obtain ⟨-, rfl⟩ | ⟨-, es, rfl⟩ := decompose_cases h
  · exact hc
  · exact hc.size ▸ soundOn_replay es c

lemma keepSound_performUnder (k : ℤ) (e : Entry α) : Keeps KeepSound (performUnder k e) := by
  unfold performUnder
  split
  · split
    · exact (keeps_ofOutcome _).bind fun _ => inherited_keepSound.applyNamed _ _
    · exact keeps_fail _
  · exact keeps_fail _

lemma soundOn_control {cs : Operand α} (h : c.control cs = .ok c') :
    c'.SoundOn c'.numQubits := by
  obtain ⟨ps, -, h⟩ := exists_of_bind_ok h
  obtain ⟨size, -, h⟩ := exists_of_bind_ok h
  obtain ⟨target, hn, h⟩ := exists_of_bind_ok h
  obtain ⟨program, hk, hp⟩ : ∃ program : Change (Circuit α) Unit, Keeps KeepSound program ∧
      target.after program = .ok c' := by
    refine ⟨_, (keeps_forM fun e _ => keepSound_performUnder _ e).bind fun _ => ?_, h⟩
    rw [phaseStep]
    split
    · split
      · exact keeps_fail _
      · split <;> exact inherited_keepSound.apply _ _
    · exact keeps_pure _
  have hs := hk target _ (soundOn_new hn)
  rw [after] at hp
  rcases hr : Change.perform program target with ⟨f | _, d⟩ <;> rw [hr] at hp hs
  · cases hp
  · cases hp; rwa [hs.size]

end Circuit

/-! ### Reachable

The circuits that are reached from new ones by calls that go through (`Circuit.Reachable`), and what all
of their logs have in common: every entry is sound, at every depth (`Circuit.log_sound`).

Most calls either add entries by further calls or end in a replay.  A unitary on three qubits or more does
both: its blocks are logged, exchanged in the log for shorter ones, under names of qubits that are only
right for a circuit of two, and in the end replayed.
-/

variable {α : Type}

namespace Circuit

lemma sameSize_of_sameButLog {β : Type} {x : Change (Circuit α) β} (h : Keeps SameButLog x) :
    Keeps SameSize x := fun c => by
  rw [SameSize, h c]
  rfl

lemma perform_of_after {x : Change (Circuit α) Unit} {c c' : Circuit α} (h : c.after x = .ok c') :
    Change.perform x c = (.ok (), c') := by
  rw [after] at h
  rcases hr : Change.perform x c with ⟨f | _, d⟩ <;> rw [hr] at h <;> cases h
  rfl

variable [Scalar α]

lemma ends_mergeDiagonals (R : Routines α) (qs : Operand α) (bs : List Shannon.Block) :
    Ends (SoundOn n) (SoundOn n) (Shannon.mergeDiagonals R qs bs) := by
  match bs with
  | [] | [_] => exact ends_of_keepSound (keeps_pure _)
  | b :: c :: rest =>
    have hx := Shannon.sameButLog_rebuilt R qs b c rest
    have hr : Keeps SameSize (restart : Change (Circuit α) Unit) := keeps_modify fun _ => rfl
    have hl : ∀ log : List (Entry α), Keeps SameSize (modify fun c : Circuit α => { c with log := log.toArray }) :=
      fun _ => keeps_modify fun _ => rfl
    refine Ends.mono ?_ fun _ h => h.size
    exact (ends_of_sameSize (sameSize_of_sameButLog hx)).bind fun log =>
      (ends_of_sameSize hr).bind fun _ => (ends_of_sameSize (hl log)).bind fun _ => ends_update

lemma inherited_ends : Inherited fun x : Change (Circuit α) _ => Ends (SoundOn n) (SoundOn n) x where
  pure b := ends_of_keepSound (keeps_pure b)
  fail f := ends_of_keepSound (keeps_fail f)
  get := ends_get
  bind := Ends.bind
  andFinally := Ends.andFinally
  perform h := ends_of_keepSound (keepSound_perform h)
  follow h := ends_of_keepSound (keepSound_follow h)

end Circuit

variable [Scalar α]

/-- **A call that goes through leaves a sound circuit sound.** -/
theorem Method.ends_run (m : Method α) : Change.Ends (Circuit.SoundOn n) (Circuit.SoundOn n) m.run := by
  open Circuit in
  cases m with
  | gate g args => exact inherited_ends.apply g args
  | measureAll => exact inherited_ends.measureAll
  | add other indices => exact inherited_ends.add other indices
  | fourier qubits swapping degree inverse => exact inherited_ends.fourier qubits swapping degree inverse
  | prepare R p output state qubits percentage order =>
    exact inherited_ends.preparation R p output state qubits percentage order
  | unitary R s U qubits => exact inherited_ends.synthesis ends_mergeDiagonals R s U qubits
  | multiplexor R gates controls target upToDiagonal simplifying state =>
    exact inherited_ends.multiplexor ends_mergeDiagonals R gates controls target upToDiagonal simplifying state
  | restart => exact fun c _ d hc h => by cases h; exact hc.size ▸ soundOn_sized _ _ _
  | update => exact ends_update.mono fun _ h => h.size
  | compress share => exact (ends_of_rewrites (rewrites_compress share)).mono fun _ h => h.size
  | changeMapping positions =>
    exact (ends_of_rewrites (rewrites_changeMapping positions)).mono fun _ h => h.size
  | verticalReverse => exact (ends_of_rewrites rewrites_verticalReverse).mono fun _ h => h.size
  | horizontalReverse inverting => exact (ends_horizontalReverse inverting).mono fun _ h => h.size
  | mergeGlobalPhases => exact ends_mergeGlobalPhases.mono fun _ h => h.size
  | removeMeasurements => exact ends_removeMeasurements.mono fun _ h => h.size

namespace Circuit

/-- The circuits that are reached from new ones by calls that go through. -/
inductive Reachable : Circuit α → Prop
  | new {f : Framework} {size : Operand α} {c : Circuit α} (h : Circuit.new f size = .ok c) : Reachable c
  | call {c c' : Circuit α} (hc : Reachable c) (m : Method α) (h : c.after m.run = .ok c') : Reachable c'
  | decompose {c c' : Circuit α} (hc : Reachable c) (reps : Operand α) (full : Bool)
      (h : c.decompose reps full = .ok c') : Reachable c'
  | control {c c' : Circuit α} (hc : Reachable c) (controls : Operand α)
      (h : c.control controls = .ok c') : Reachable c'

lemma Reachable.soundOn {c : Circuit α} (h : Reachable c) : c.SoundOn c.numQubits := by
  induction h with
  | new h => exact soundOn_new h
  | @call c c' _ m h ih =>
    have hs := m.ends_run c () c' ih (perform_of_after h)
    rwa [hs.size]
  | @decompose c c' _ reps full h ih =>
    have hs := soundOn_decompose ih h
    rwa [hs.size]
  | control _ controls h => exact soundOn_control h

/-- **Every entry of a reachable circuit is sound**, at every depth: its qubits are whole numbers in range
and different from each other, a single one stands on its own, its angles are not all zero, and no control
state is among its operands. -/
theorem log_sound {c : Circuit α} (h : Reachable c) : ∀ e ∈ c.log, e.Sound c.numQubits := h.soundOn.log

/-- A controlled negation from the last qubit, counted from the end, to a list of one. -/
theorem log_sound_lastQubit : ∃ c : Circuit ℝ, Reachable c ∧
    c.log.toList.map Entry.operands = [[(.controlIndex, .int 1), (.targetIndex, .int 0)]] ∧
    ∀ e ∈ c.log, e.Sound 2 := by
  have hn : Circuit.new .qiskit (.int 2) = .ok (Circuit.empty .qiskit 2 : Circuit ℝ) := rfl
  obtain ⟨c, ha, ho, hs⟩ : ∃ c : Circuit ℝ, (Circuit.empty .qiskit 2).after
      (Method.gate (.of .x .controlled) [(.controlIndex, .int (-1)), (.targetIndex, .list [.int 0])]).run =
        .ok c ∧
      c.log.toList.map Entry.operands = [[(.controlIndex, .int 1), (.targetIndex, .int 0)]] ∧
      c.numQubits = 2 := ⟨_, rfl, rfl, rfl⟩
  have hr := (Reachable.new hn).call _ ha
  exact ⟨c, hr, ho, hs ▸ log_sound hr⟩

end Circuit

end QuantumCircuits
