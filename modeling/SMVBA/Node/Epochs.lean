import SMVBA.Network.Exec

/-!
# Epochs and their halts

A node that has halted exactly the epochs before its own can commit all of them. The code keeps it
so only as long as the halts come in order: `handleHalt` takes a halt of any epoch that is not
behind the node, and goes on to the epoch after it. A halt of a later epoch leaves the epochs
between unhalted, with the filter closed on them. A halt of the largest epoch marks it without
leaving the node's epoch.
-/

namespace SMVBA

variable {S : Setup} {ok : Cond} {env : Env} {i : Input} {name : NodeID} {x0 x y : Hist}
  {outs : List Output}

/-- The halted epochs are those before the node's epoch. -/
def HaltedBefore (c : Core) : Prop := ∀ e, 0 ≤ e → (c.haltFlags e = true ↔ e < c.epoch)

/-- A halt passes the checks of `handleHalt`, and `handleOutput` returns no error for its block. -/
def Core.acceptsHalt (S : Setup) (env : Env) (c : Core) (h : Halt) : Bool :=
  !c.messgaeFilter h.epoch && !c.haltFlags h.epoch &&
    ((c.decoded env h.blockHash).isSome || S.absent = .notFoundKey)

/-- A halt that is accepted is one of the node's epoch, and not of the largest. -/
def HaltsInOrder (S : Setup) : Cond := fun x env i =>
  ∀ h ∈ i.halt?, x.core.acceptsHalt S env h = true → h.epoch = x.core.epoch ∧ h.epoch ≠ maxInt64

instance (S : Setup) (x : Hist) (env : Env) (i : Input) : Decidable (HaltsInOrder S x env i) :=
  inferInstanceAs (Decidable (∀ h ∈ i.halt?, _ → _))

/-! ## One step -/

/-- What a step does to the epoch and the halted epochs: nothing, unless it accepts a halt. -/
inductive EpochStep (S : Setup) (env : Env) (i : Input) (x y : Core) : Prop
  | same (hok : ∀ h ∈ i.halt?, x.acceptsHalt S env h = false)
      (he : y.epoch = x.epoch) (hf : y.haltFlags = x.haltFlags)
  | accept (h : Halt) (hi : i = .msg (.halt h)) (ha : x.acceptsHalt S env h = true)
      (he : y.epoch = max x.epoch (succ64 h.epoch))
      (hf : y.haltFlags = Function.update x.haltFlags h.epoch true)

/-- A halt that `handleOutput` does not fail on is accepted. -/
theorem HaltOut.acceptsHalt {c : Core} {h : Halt} {k : Committor} {outs : List Output}
    (ho : HaltOut S env c h.blockHash k outs) (he : c.epoch ≤ h.epoch)
    (hf : c.haltFlags h.epoch = false) : c.acceptsHalt S env h = true := by
  have hfilter : c.messgaeFilter h.epoch = false := by simpa [Core.messgaeFilter] using he
  cases ho with
  | commit b hb _ | sync b hb _ => simp [Core.acceptsHalt, hfilter, hf, hb]
  | absent _ ha => simp [Core.acceptsHalt, hfilter, hf, ha]

/-- `handleHalt` on a halt that is accepted, and on one that is not. -/
theorem handleHalt_epochStep (S : Setup) (env : Env) (c : Core) (h : Halt) :
    EpochStep S env (.msg (.halt h)) c (c.handleHalt S env h).core := by
  have hsame : ∀ {c' : Core}, c.acceptsHalt S env h = false → c'.epoch = c.epoch →
      c'.haltFlags = c.haltFlags → EpochStep S env (.msg (.halt h)) c c' := by
    refine fun hno he hf => .same (fun h' hi => ?_) he hf
    cases hi
    exact hno
  unfold Core.handleHalt
  split_ifs with hfilter hflag
  · exact hsame (by simp [Core.acceptsHalt, hfilter]) rfl rfl
  · exact hsame (by simp [Core.acceptsHalt, hflag]) rfl rfl
  · obtain ⟨k, outs, ho, heq⟩ | ⟨hb, ha, heq⟩ := handleOutput_cases S env
      { c with elector := c.elector.setLeader h.view h.leader } h.blockHash
    · have hle : c.epoch ≤ h.epoch := by simpa [Core.messgaeFilter] using hfilter
      have haccept := ho.acceptsHalt hle (Bool.eq_false_iff.mpr hflag)
      rw [heq]
      refine .accept h rfl haccept ?_ ?_
      · simp only [Outcome.bind, Core.advanceNextEpoch]
        split_ifs with hle
        · exact (max_eq_left hle).symm
        · exact (max_eq_right (not_le.mp hle).le).symm
      · simp only [Outcome.bind, Core.advanceNextEpoch]
        split_ifs <;> rfl
    · have hb : c.decoded env h.blockHash = none := hb
      rw [heq]
      exact hsame (by simp [Core.acceptsHalt, hb, ha]) rfl rfl

/-- A rule for another input changes neither. -/
theorem Rule.epoch_same (h : Rule S env i x0 x y) (hi : i.halt? = none) :
    y.core.epoch = x.core.epoch ∧ y.core.haltFlags = x.core.haltFlags := by
  cases h with
  | haltStay ht k outs hi' _ _ _ _ _ _ =>
    subst hi'
    cases hi
  | haltNext ht k outs hi' _ _ _ _ _ _ _ =>
    subst hi'
    cases hi
  | _ => exact ⟨rfl, rfl⟩

theorem step_epochStep (h : x.step S env i = some (y, outs)) : EpochStep S env i x.core y.core := by
  cases hi : i.halt? with
  | some ht =>
    obtain rfl := Input.eq_of_halt? hi
    rw [(Hist.step_msg h).1]
    exact handleHalt_epochStep S env x.core ht
  | none =>
    obtain ⟨he, hf⟩ : y.core.epoch = x.core.epoch ∧ y.core.haltFlags = x.core.haltFlags := by
      refine step_invariant (I := fun z =>
        z.core.epoch = x.core.epoch ∧ z.core.haltFlags = x.core.haltFlags) ?_ h ⟨rfl, rfl⟩
      rintro z z' hrule ⟨he, hf⟩
      obtain ⟨he', hf'⟩ := hrule.epoch_same hi
      exact ⟨he'.trans he, hf'.trans hf⟩
    exact .same (by simp [hi]) he hf

/-- What a step does to the halted epochs and the decisions: nothing, or it accepts a halt, which
halts one epoch. -/
theorem Hist.step_halts (h : x.step S env i = some (y, outs)) :
    (y.core.haltFlags = x.core.haltFlags ∧ y.decided = x.decided ∧ y.core.epoch = x.core.epoch) ∨
    ∃ ht, i = .msg (.halt ht) ∧ x.core.acceptsHalt S env ht = true ∧
      y.core.haltFlags = Function.update x.core.haltFlags ht.epoch true ∧
      y.decided = x.decided ++ [ht] ∧ y.core.epoch = max x.core.epoch (succ64 ht.epoch) := by
  have hdecided : y.decided = x.decided ++ Hist.newHalt x.core y.core i := by
    obtain ⟨o, -, -, rfl⟩ := Hist.step_eq_some h
    rfl
  cases step_epochStep h with
  | same hno he hf =>
    refine .inl ⟨hf, ?_, he⟩
    -- A decision is recorded where a flag changes.
    have hnone : Hist.newHalt x.core y.core i = [] := by
      unfold Hist.newHalt
      split
      case h_1 ht =>
        refine if_neg fun hflags => ?_
        rw [hf, hflags.1] at hflags
        cases hflags.2
      case h_2 => rfl
    rw [hdecided, hnone, List.append_nil]
  | accept ht hi ha he hf =>
    refine .inr ⟨ht, hi, ha, hf, ?_, he⟩
    have hbefore : x.core.haltFlags ht.epoch = false := by
      cases hflag : x.core.haltFlags ht.epoch with
      | false => rfl
      | true => simp [Core.acceptsHalt, hflag] at ha
    rw [hdecided, hi]
    unfold Hist.newHalt
    dsimp only
    rw [if_pos ⟨hbefore, by rw [hf, Function.update_self]⟩]

/-- A node stays in epochs from zero on. -/
theorem LocalRun.epoch_nonneg (hr : LocalRun S ok name x) : 0 ≤ x.core.epoch :=
  hr.invariant (I := fun z => 0 ≤ z.core.epoch) le_rfl fun _ h hz => hz.trans h.epoch_le

/-- Where the halted epochs are those before the node's epoch, they are so after one more epoch is
halted exactly when it is the node's own and `Epoch + 1` does not wrap. -/
theorem haltedBefore_accept_iff {c c' : Core} {e : ℤ} (hepoch : 0 ≤ c.epoch)
    (hc : HaltedBefore c) (hle : c.epoch ≤ e) (he : c'.epoch = max c.epoch (succ64 e))
    (hf : c'.haltFlags = Function.update c.haltFlags e true) :
    HaltedBefore c' ↔ e = c.epoch ∧ e ≠ maxInt64 := by
  have hflag : c'.haltFlags e = true := by rw [hf, Function.update_self]
  constructor
  · intro hc'
    -- The accepted epoch is now behind the node, so `Epoch + 1` has not wrapped.
    have hmax : e ≠ maxInt64 := by
      intro heq
      have hlt := (hc' e (hepoch.trans hle)).mp hflag
      rw [he, succ64, if_pos heq] at hlt
      have : minInt64 < 0 := by decide
      omega
    refine ⟨?_, hmax⟩
    rw [succ64_of_ne hmax] at he
    by_contra hne
    -- The node's own epoch is behind it now and was not halted.
    have hlt : c.epoch < c'.epoch := by omega
    have hown := (hc' c.epoch hepoch).mpr hlt
    rw [hf, Function.update_of_ne (Ne.symm hne), hc c.epoch hepoch] at hown
    exact lt_irrefl _ hown
  · rintro ⟨heq, hmax⟩ e' hpos
    rw [succ64_of_ne hmax] at he
    by_cases hee : e' = e
    · subst hee
      exact iff_of_true hflag (by omega)
    · rw [hf, Function.update_of_ne hee, hc e' hpos]
      omega

/-- A step keeps the halted epochs those before the node's exactly when a halt that it accepts is in
order. -/
theorem haltedBefore_step_iff (hepoch : 0 ≤ x.core.epoch) (hx : HaltedBefore x.core)
    (h : x.step S env i = some (y, outs)) : HaltedBefore y.core ↔ HaltsInOrder S x env i := by
  cases step_epochStep h with
  | same hok he hf =>
    have hy : HaltedBefore y.core := by
      intro e hpos
      rw [he, hf]
      exact hx e hpos
    refine iff_of_true hy fun ht hi ha => ?_
    rw [hok ht hi] at ha
    cases ha
  | accept ht hi ha he hf =>
    subst hi
    have hle : x.core.epoch ≤ ht.epoch := by
      have : x.core.messgaeFilter ht.epoch = false := by simp_all [Core.acceptsHalt]
      simpa [Core.messgaeFilter] using this
    have hcond : HaltsInOrder S x env (.msg (.halt ht)) ↔
        ht.epoch = x.core.epoch ∧ ht.epoch ≠ maxInt64 := by
      refine ⟨fun h => h ht rfl ha, fun h ht' hi _ => ?_⟩
      obtain rfl := Option.some.inj hi
      exact h
    rw [hcond]
    exact haltedBefore_accept_iff hepoch hx hle he hf

/-- The halted epochs are those before the node's epoch in every state of a run in which the
accepted halts are in order, and a step from such a state leaves one exactly when the halt that it
accepts, if any, is in order. -/
theorem halted_before_epoch (S : Setup) (name : NodeID) :
    (∀ x, LocalRun S (HaltsInOrder S) name x → ∀ e, 0 ≤ e →
      (x.core.haltFlags e = true ↔ e < x.core.epoch)) ∧
    ∀ x env i y outs, LocalRun S Always name x →
      (∀ e, 0 ≤ e → (x.core.haltFlags e = true ↔ e < x.core.epoch)) →
      x.step S env i = some (y, outs) →
      ((∀ e, 0 ≤ e → (y.core.haltFlags e = true ↔ e < y.core.epoch)) ↔ HaltsInOrder S x env i) := by
  refine ⟨fun x hr => ?_, fun x env i y outs hr hx h => ?_⟩
  · induction hr with
    | init =>
      intro e hpos
      simpa [Hist.init] using hpos
    | step hr hok h ih => exact (haltedBefore_step_iff hr.epoch_nonneg ih h).mpr hok
  · exact haltedBefore_step_iff hr.epoch_nonneg hx h

/-- A node with the full mempool takes the first block of node one for an epoch. -/
def takeBlock (epoch : ℤ) : List (Env × Input) :=
  [.start, .msg (.spbProposal ⟨1, demoBlock 1 epoch, epoch, 0, .one⟩)].map (fullEnv 0, ·)

/-- The halt on that block. -/
def haltBlock (epoch : ℤ) : Input :=
  .msg (.halt ⟨1, epoch, 0, 1, (demo 4 1).hash (demoBlock 1 epoch)⟩)

/-- A halt in order, and one out of order after it. -/
theorem halted_before_epoch_demo : ∃ x y outs, LocalRun (demo 4 1) (HaltsInOrder (demo 4 1)) 0 x ∧
    x.core.epoch = 1 ∧ (∀ e, 0 ≤ e → (x.core.haltFlags e = true ↔ e < x.core.epoch)) ∧
    x.step (demo 4 1) (fullEnv 0) (haltBlock 5) = some (y, outs) ∧
    ¬∀ e, 0 ≤ e → (y.core.haltFlags e = true ↔ e < y.core.epoch) := by
  obtain ⟨x, hr, hx⟩ := exists_localRun (demo 4 1) (HaltsInOrder (demo 4 1)) 0
    (takeBlock 0 ++ [(fullEnv 0, haltBlock 0)] ++ (takeBlock 5).tail)
    (fun x => decide (x.core.epoch = 1 ∧ (x.step (demo 4 1) (fullEnv 0) (haltBlock 5)).isSome ∧
      ¬HaltsInOrder (demo 4 1) x (fullEnv 0) (haltBlock 5))) (by decide +kernel)
  obtain ⟨hepoch, hsome, hout⟩ := of_decide_eq_true hx
  obtain ⟨⟨y, outs⟩, hstep⟩ := Option.isSome_iff_exists.mp hsome
  obtain ⟨hall, hiff⟩ := halted_before_epoch (demo 4 1) 0
  refine ⟨x, y, outs, hr, hepoch, hall x hr, hstep, fun hy => hout ?_⟩
  exact (hiff x _ _ y outs (hr.mono fun _ _ _ _ => trivial) (hall x hr) hstep).mp hy

/-- A node in epoch zero takes a halt of epoch five, and skips the epochs between. -/
theorem epochs_skipped : ∃ x, LocalRun (demo 4 1) Always 0 x ∧ x.core.epoch = 6 ∧
    x.core.haltFlags 5 = true ∧ ∀ e ∈ ([0, 1, 2, 3, 4] : List ℤ), x.core.haltFlags e = false := by
  obtain ⟨x, hr, hx⟩ := exists_localRun (demo 4 1) Always 0
    (takeBlock 5 ++ [(fullEnv 0, haltBlock 5)])
    (fun x => decide (x.core.epoch = 6 ∧ x.core.haltFlags 5 = true ∧
      ∀ e ∈ ([0, 1, 2, 3, 4] : List ℤ), x.core.haltFlags e = false)) (by decide +kernel)
  exact ⟨x, hr, of_decide_eq_true hx⟩

end SMVBA
