import SMVBA.Node.Epochs

/-!
# Commits and decisions

The decision of an epoch is the hash in the halt that set the epoch's flag. Blocks reach the
committor in three ways, and none of them compares the block with the decision of the epoch that it
is committed for. The halt looks its block up by the hash and does not look at the block's epoch,
nor at whether the hash is that of a consensus block: a mempool block under it is committed as a
block of epoch zero. The other two take any block of a halted epoch whose author is the leader of
the proposal's view. What is committed is what was decided as long as these blocks are the ones
decided.
-/

namespace SMVBA

variable {S : Setup} {ok : Cond} {env : Env} {i : Input} {name : NodeID} {x0 x y : Hist}

/-- The block that an output sends on `commitCh`. -/
def Output.committed? : Output → Option ConsensusBlock
  | .commit b => some b
  | _ => none

/-- The blocks that a node has sent on `commitCh`. -/
def Hist.commits (x : Hist) : List ConsensusBlock := x.out.filterMap Output.committed?

/-- The halt that set the flag of the block's epoch carries the block's hash. -/
def Decides (S : Setup) (decided : List Halt) (b : ConsensusBlock) : Prop :=
  ∃ h ∈ decided, h.epoch = b.epoch ∧ h.blockHash = S.hash b

instance (S : Setup) (decided : List Halt) (b : ConsensusBlock) : Decidable (Decides S decided b) :=
  inferInstanceAs (Decidable (∃ h ∈ decided, _))

/-- The head of `handleSpbProposal` and `handleLoopBack` commits the block of the proposal. -/
def Core.commitsLate (c : Core) (env : Env) (p : SPBProposal) : Bool :=
  p.phase = .one ∧ c.haltFlags p.epoch = true ∧ c.elector.leader p.view = p.author ∧
    c.missing env p.b = []

/-- A block that is committed late was decided. -/
def LateDecided (S : Setup) : Cond := fun x env i =>
  (∀ p ∈ i.proposal?, x.core.commitsLate env p = true → Decides S x.decided p.b) ∧
    ∀ b ∈ i.loopBack?.bind (x.core.decoded env),
      x.core.commitsLate env (Core.loopProposal b) = true → Decides S x.decided b

/-- A halt that is accepted finds a consensus block, of its own epoch. -/
def HaltsFindEpoch (S : Setup) : Cond := fun x env i =>
  ∀ h ∈ i.halt?, x.core.acceptsHalt S env h = true → ∀ b ∈ x.core.decoded env h.blockHash,
    x.core.missing env b = [] → x.core.store h.blockHash = some b ∧ b.epoch = h.epoch

/-- The two conditions together. -/
def CommitsDecided (S : Setup) : Cond := fun x env i =>
  LateDecided S x env i ∧ HaltsFindEpoch S x env i

instance (S : Setup) (x : Hist) (env : Env) (i : Input) : Decidable (LateDecided S x env i) :=
  inferInstanceAs (Decidable ((∀ p ∈ i.proposal?, _ → _) ∧
    ∀ b ∈ i.loopBack?.bind (x.core.decoded env), _ → _))

instance (S : Setup) (x : Hist) (env : Env) (i : Input) : Decidable (HaltsFindEpoch S x env i) :=
  inferInstanceAs (Decidable (∀ h ∈ i.halt?, _ → ∀ b ∈ x.core.decoded env h.blockHash, _ → _))

instance (S : Setup) (x : Hist) (env : Env) (i : Input) : Decidable (CommitsDecided S x env i) :=
  inferInstanceAs (Decidable (_ ∧ _))

/-! ## The blocks in the committor -/

/-- What a rule does to the committor: nothing, or one call of `Commit`, with a block that was there
late or that a halt has read. -/
inductive CommitChange (S : Setup) (env : Env) (i : Input) (x0 x y : Hist) : Prop
  | same (hk : y.core.commitor = x.core.commitor) (hc : y.commits = x.commits)
  | late (p : SPBProposal) (ho : Origin env i x p) (hx : Untouched x0 x)
      (hl : x.core.commitsLate env p = true) (hk : y.core.commitor = (x.core.commitor.commit p.b).1)
      (hc : y.commits = x.commits ++ (x.core.commitor.commit p.b).2)
  | halt (h : Halt) (b : ConsensusBlock) (hi : i = .msg (.halt h)) (hx : Untouched x0 x)
      (ha : x.core.acceptsHalt S env h = true) (hb : x.core.decoded env h.blockHash = some b)
      (hm : x.core.missing env b = []) (hd : h ∈ y.decided)
      (hk : y.core.commitor = (x.core.commitor.commit b).1)
      (hc : y.commits = x.commits ++ (x.core.commitor.commit b).2)

/-- What a node committed can be read off the outputs that stayed in it. -/
theorem commits_eq (x : Hist) : x.commits = x.locals.filterMap Output.committed? :=
  (filterMap_locals (by rintro (_ | _) <;> simp [Output.stays, Output.committed?]) x).symm

/-- The blocks of commits. -/
theorem filterMap_committed (bs : List ConsensusBlock) :
    (bs.map Output.commit).filterMap Output.committed? = bs := by
  simp [List.filterMap_map, Function.comp_def, Output.committed?]

theorem Rule.commitChange (h : Rule S env i x0 x y) : CommitChange S env i x0 x y := by
  obtain ⟨new, hnew, heq⟩ := h.locals
  have happend : y.commits = x.commits ++ new.filterMap Output.committed? := by
    rw [commits_eq, commits_eq, heq, List.filterMap_append]
  have hhalt : ∀ {h : Halt} {outs last : List Output}, i = .msg (.halt h) → Untouched x0 x →
      x.core.epoch ≤ h.epoch → x.core.haltFlags h.epoch = false →
      HaltOut S env x.core h.blockHash y.core.commitor outs → y.decided = x.decided ++ [h] →
      new = outs ++ last → last.filterMap Output.committed? = [] → CommitChange S env i x0 x y := by
    intro h outs last hi hx he hf ho hd hnew hlast
    rw [hnew, List.filterMap_append, hlast, List.append_nil] at happend
    have haccept := ho.acceptsHalt he hf
    generalize hk : y.core.commitor = k at ho
    cases ho with
    | commit b hb hm =>
      rw [filterMap_committed] at happend
      exact .halt h b hi hx haccept hb hm (by simp [hd]) hk happend
    | sync b hb hm => exact .same hk (happend.trans (List.append_nil _))
    | absent hb ha => exact .same hk (happend.trans (List.append_nil _))
  cases hnew with
  | none hk => exact .same hk (happend.trans (List.append_nil _))
  | sync p hp ho hm hk => exact .same hk (happend.trans (List.append_nil _))
  | late p hp ho hx hh hl hm hk =>
    rw [filterMap_committed] at happend
    exact .late p ho hx (by simp [Core.commitsLate, hp, hh, hl, hm]) hk happend
  | haltStay h outs hi hx he hf ho hd =>
    exact hhalt hi hx he hf ho hd (List.append_nil _).symm rfl
  | haltNext h outs hi hx he hf ho hd hlt hr hr' => exact hhalt hi hx he hf ho hd rfl rfl
  | start hs hs' he hk => exact .same hk (happend.trans (List.append_nil _))
  | again ha e hk he hy => exact .same hk (happend.trans (List.append_nil _))

/-- Decisions stay on record. -/
theorem Rule.mem_decided (h : Rule S env i x0 x y) {ht : Halt} (hm : ht ∈ x.decided) :
    ht ∈ y.decided := by
  cases h with
  | haltStay _ _ _ _ _ _ _ _ _ _ => exact List.mem_append_left _ hm
  | haltNext _ _ _ _ _ _ _ _ _ _ _ => exact List.mem_append_left _ hm
  | _ => exact hm

/-- Every block that waits in the committor or was sent on `commitCh` satisfies `P`. -/
structure Committed (P : ConsensusBlock → Prop) (x : Hist) : Prop where
  waiting : ∀ e b, x.core.commitor.blocks.lookup e = some b → P b
  sent : ∀ b ∈ x.commits, P b

theorem Committed.init (P : ConsensusBlock → Prop) (name : NodeID) :
    Committed P (Hist.init name) := ⟨by simp [Hist.init], by simp [Hist.init, Hist.commits]⟩

/-- What holds of the blocks that come late and of the blocks that halts read holds of all blocks
that are committed. -/
theorem Committed.rule {P P' : ConsensusBlock → Prop} (h : Rule S env i x0 x y)
    (hmono : ∀ b, P b → P' b)
    (hlate : ∀ p, Origin env i x p → Untouched x0 x → x.core.commitsLate env p = true → P' p.b)
    (hhalt : ∀ ht b, i = .msg (.halt ht) → Untouched x0 x → x.core.acceptsHalt S env ht = true →
      x.core.decoded env ht.blockHash = some b → x.core.missing env b = [] → ht ∈ y.decided → P' b)
    (hx : Committed P x) : Committed P' y := by
  -- One call of `Commit` with a block that satisfies `P'`.
  have hcommit : ∀ {b : ConsensusBlock}, P' b → y.core.commitor = (x.core.commitor.commit b).1 →
      y.commits = x.commits ++ (x.core.commitor.commit b).2 → Committed P' y := by
    intro b hb hk hc
    obtain ⟨hsent, hwait⟩ := Committor.commit_forall x.core.commitor b hb
      fun e b he => hmono b (hx.waiting e b he)
    refine ⟨fun e b he => hwait e b (hk ▸ he), fun b hb => ?_⟩
    rw [hc] at hb
    rcases List.mem_append.mp hb with hb | hb
    · exact hmono b (hx.sent b hb)
    · exact hsent b hb
  cases h.commitChange with
  | same hk hc =>
    refine ⟨fun e b he => ?_, fun b hb => ?_⟩
    · rw [hk] at he
      exact hmono b (hx.waiting e b he)
    · rw [hc] at hb
      exact hmono b (hx.sent b hb)
  | late p ho hx0 hl hk hc => exact hcommit (hlate p ho hx0 hl) hk hc
  | halt ht b hi hx0 ha hb hm hd hk hc => exact hcommit (hhalt ht b hi hx0 ha hb hm hd) hk hc

/-- A block that comes late was decided, by the condition. -/
theorem LateDecided.decides (hok : LateDecided S x0 env i) {p : SPBProposal} (ho : Origin env i x p)
    (hx : Untouched x0 x) (hl : x.core.commitsLate env p = true) : Decides S x.decided p.b := by
  rw [hx.core] at hl
  rw [hx.decided]
  cases ho with
  | message hi hh =>
    subst hi
    exact hok.1 p rfl hl
  | loopBack d hi hs hp =>
    subst hi
    rw [hx.core] at hs
    rw [hp] at hl
    exact hok.2 p.b hs hl

/-- Decisions stay decisions. -/
theorem Decides.rule (h : Rule S env i x0 x y) {b : ConsensusBlock} (hb : Decides S x.decided b) :
    Decides S y.decided b := by
  obtain ⟨ht, hm, hrest⟩ := hb
  exact ⟨ht, h.mem_decided hm, hrest⟩

/-! ## One decision an epoch -/

/-- The decisions are halts that the node took, their epochs are halted, and each was decided once.
-/
structure DecidedOnce (x : Hist) : Prop where
  handled : ∀ h ∈ x.decided, .halt h ∈ x.handled
  halted : ∀ h ∈ x.decided, x.core.haltFlags h.epoch = true
  unique : ∀ h ∈ x.decided, ∀ h' ∈ x.decided, h.epoch = h'.epoch → h = h'

theorem DecidedOnce.init (name : NodeID) : DecidedOnce (Hist.init name) :=
  ⟨by simp [Hist.init], by simp [Hist.init], by simp [Hist.init]⟩

theorem DecidedOnce.rule (h : Rule S env i x0 x y) (hx : DecidedOnce x) : DecidedOnce y := by
  have hhandled : ∀ h ∈ x.decided, .halt h ∈ y.handled :=
    fun ht hm => h.mem_handled (hx.handled ht hm)
  have hnew : ∀ {ht : Halt}, x.core.haltFlags ht.epoch = false → .halt ht ∈ y.handled →
      y.decided = x.decided ++ [ht] →
      y.core.haltFlags = Function.update x.core.haltFlags ht.epoch true → DecidedOnce y := by
    intro ht hf hh hd hy
    -- A decision before this one is of another epoch.
    have hne : ∀ h' ∈ x.decided, h'.epoch ≠ ht.epoch := by
      intro h' hm heq
      have hhalted := hx.halted h' hm
      rw [heq, hf] at hhalted
      cases hhalted
    refine ⟨fun h' hm => ?_, fun h' hm => ?_, fun h₁ hm₁ h₂ hm₂ heq => ?_⟩
    · rw [hd] at hm
      rcases List.mem_append.mp hm with hm | hm
      · exact hhandled h' hm
      · rwa [List.mem_singleton.mp hm]
    · rw [hd] at hm
      rw [hy]
      rcases List.mem_append.mp hm with hm | hm
      · rw [Function.update_of_ne (hne h' hm)]
        exact hx.halted h' hm
      · rw [List.mem_singleton.mp hm, Function.update_self]
    · rw [hd] at hm₁ hm₂
      rcases List.mem_append.mp hm₁ with h₁' | h₁' <;> rcases List.mem_append.mp hm₂ with h₂' | h₂'
      · exact hx.unique h₁ h₁' h₂ h₂' heq
      · rw [List.mem_singleton.mp h₂'] at heq
        exact absurd heq (hne h₁ h₁')
      · rw [List.mem_singleton.mp h₁'] at heq
        exact absurd heq.symm (hne h₂ h₂')
      · rw [List.mem_singleton.mp h₁', List.mem_singleton.mp h₂']
  cases h with
  | haltStay ht k outs hi hh hx0 he hf ho hs => exact hnew hf hh rfl rfl
  | haltNext ht k outs hi hr hh hx0 he hf ho hs => exact hnew hf hh rfl rfl
  | _ => exact ⟨hhandled, hx.halted, hx.unique⟩

/-- In a run in which the late commits are of decided blocks and halts find consensus blocks of
their own epoch, every block on `commitCh` has the hash of the one halt that set the flag of its
epoch. -/
theorem committed_is_decided (hr : LocalRun S (CommitsDecided S) name x) {b : ConsensusBlock}
    (hb : b ∈ x.commits) :
    ∃ h ∈ x.decided, h.epoch = b.epoch ∧ S.hash b = h.blockHash ∧
      ∀ h' ∈ x.decided, h'.epoch = b.epoch → h' = h := by
  have hinv : Facts S name x ∧ DecidedOnce x ∧ Committed (Decides S x.decided) x := by
    refine hr.invariant (I := fun z =>
      Facts S name z ∧ DecidedOnce z ∧ Committed (Decides S z.decided) z) ?_ ?_
    · exact ⟨Facts.init S name, .init name, .init _ name⟩
    · rintro env i x0 z z' ⟨hlate, hhalt⟩ h ⟨hf, ho, hc⟩
      refine ⟨hf.rule h, ho.rule h, hc.rule h (fun b hb => hb.rule h)
        (fun p hp hx hl => (hlate.decides hp hx hl).rule h) fun ht b hi hx ha hs hm hd => ?_⟩
      subst hi
      rw [hx.core] at ha hs hm
      obtain ⟨hstored, hepoch⟩ := hhalt ht rfl ha b hs hm
      rw [← hx.core] at hstored
      exact ⟨ht, hd, hepoch.symm, (hf.provenance.store _ _ hstored).1.symm⟩
  obtain ⟨-, honce, hcommitted⟩ := hinv
  obtain ⟨h, hm, he, hhash⟩ := hcommitted.sent b hb
  exact ⟨h, hm, he, hhash.symm, fun h' hm' he' => honce.unique h' hm' h hm (he'.trans he.symm)⟩

/-- The block of a halt is committed. -/
theorem committed_is_decided_demo : ∃ x, LocalRun (demo 4 1) (CommitsDecided (demo 4 1)) 0 x ∧
    demoBlock 1 0 ∈ x.commits ∧ ∃ h ∈ x.decided, h.epoch = 0 ∧
      (demo 4 1).hash (demoBlock 1 0) = h.blockHash ∧ ∀ h' ∈ x.decided, h'.epoch = 0 → h' = h := by
  obtain ⟨x, hr, hx⟩ := exists_localRun (demo 4 1) (CommitsDecided (demo 4 1)) 0
    (takeBlock 0 ++ [(fullEnv 0, haltBlock 0)]) (fun x => decide (demoBlock 1 0 ∈ x.commits))
    (by decide +kernel)
  have hb := of_decide_eq_true hx
  exact ⟨x, hr, hb, committed_is_decided hr hb⟩

/-- The leader of the first view proposes two blocks. The payloads of the first are missing when the
halt on it comes, so that the second is committed as a late one. -/
def twoBlocks : List (Env × Input) :=
  let first : ConsensusBlock := ⟨2, [1], 0⟩
  [(fullEnv 0, .start),
    (⟨fun _ => none, [], true⟩, .msg (.spbProposal ⟨2, first, 0, 0, .one⟩)),
    (⟨fun _ => none, [], true⟩, .msg (.halt ⟨1, 0, 0, 2, (demo 4 1).hash first⟩)),
    (fullEnv 0, .msg (.spbProposal ⟨2, ⟨2, [2], 0⟩, 0, 0, .one⟩))]

/-- A block is committed that is not the one decided. -/
theorem committed_not_decided : ∃ x, LocalRun (demo 4 1) Always 0 x ∧ ∃ b ∈ x.commits,
    ∃ h ∈ x.decided, h.epoch = b.epoch ∧ x.core.haltFlags b.epoch = true ∧
      (demo 4 1).hash b ≠ h.blockHash := by
  obtain ⟨x, hr, hx⟩ := exists_localRun (demo 4 1) Always 0 twoBlocks
    (fun x => decide (∃ b ∈ x.commits, ∃ h ∈ x.decided, h.epoch = b.epoch ∧
      x.core.haltFlags b.epoch = true ∧ (demo 4 1).hash b ≠ h.blockHash)) (by decide +kernel)
  exact ⟨x, hr, of_decide_eq_true hx⟩

end SMVBA
