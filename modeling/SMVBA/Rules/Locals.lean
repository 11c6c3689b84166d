import SMVBA.Rules.Votes

/-!
# What a rule does inside its node

The counterpart of `Rules/Sent.lean` for the outputs that do not leave the node: the blocks that it
creates, the blocks that it commits, and the requests to its synchronizer. `Rule.locals` says which
of them a rule lets out, and what the code has checked by then.
-/

namespace SMVBA

variable {S : Setup} {env : Env} {i : Input} {x0 x y : Hist}

/-- Whether an output stays in the node. -/
def Output.stays : Output → Bool
  | .create _ => true
  | .commit _ => true
  | .sync _ => true
  | _ => false

/-- The outputs of a node that stayed in it. -/
def Hist.locals (x : Hist) : List Output := x.out.filter Output.stays

/-- Reading something off the outputs that stay is reading it off all of them. -/
theorem filterMap_locals {α : Type} {g : Output → Option α} (hg : ∀ o, o.stays = false → g o = none)
    (x : Hist) : x.locals.filterMap g = x.out.filterMap g := by
  unfold Hist.locals
  rw [List.filterMap_filter]
  refine List.filterMap_congr fun o _ => ?_
  cases ho : o.stays with
  | true => rfl
  | false => exact (hg o ho).symm

section Outputs

variable {c : Core} {v : View} {outs : List Output}

/-- A vote leaves the node. -/
@[simp] theorem filter_stays_sendVote (c : Core) (w : SPBVote) :
    (c.sendVote w).filter Output.stays = [] := by
  unfold Core.sendVote
  split_ifs <;> rfl

/-- The answer to a vote leaves the node. -/
@[simp] theorem filter_stays_voteOutput (c : Core) (w : SPBVote) (d : Digest) (n : ℕ) :
    (c.voteOutput S w d n).filter Output.stays = [] := by
  unfold Core.voteOutput
  split_ifs
  · cases w.phase <;> rfl
  · rfl

/-- Commits stay in the node. -/
@[simp] theorem filter_stays_commit (bs : List ConsensusBlock) :
    (bs.map Output.commit).filter Output.stays = bs.map .commit := by
  simp [List.filter_map, Function.comp_def, Output.stays]

/-- Spawned calls are not counted here. -/
@[simp] theorem filter_stays_spawn {α : Type} (g : α → Task) (l : List α) :
    (l.map fun a => Output.spawn (g a)).filter Output.stays = [] := by
  simp [List.filter_map, Function.comp_def, Output.stays]

/-- What `processLeader` sends leaves the node. -/
theorem LeaderOut.filter_stays (h : LeaderOut c v outs) : outs.filter Output.stays = [] := by
  cases h <;> rfl

/-- All outputs of `handleOutput` stay in the node. -/
theorem HaltOut.filter_stays {d : Digest} {k : Committor} (h : HaltOut S env c d k outs) :
    outs.filter Output.stays = outs := by
  cases h with
  | commit b hb hm => exact filter_stays_commit _
  | sync b hb hm => rfl
  | absent hb ha => rfl

end Outputs

/-- The outputs that a rule adds to those of the node itself, with what the code has checked. -/
inductive Locals (S : Setup) (env : Env) (i : Input) (x0 x y : Hist) : List Output → Prop
  | none (hk : y.core.commitor = x.core.commitor) : Locals S env i x0 x y []
  /-- A request for the payloads that a proposed block misses. -/
  | sync (p : SPBProposal) (hp : p.phase = .one) (ho : Origin env i x p)
      (hm : x.core.missing env p.b ≠ []) (hk : y.core.commitor = x.core.commitor) :
      Locals S env i x0 x y [.sync ⟨x.core.missing env p.b, p.b.proposer, p.b.epoch, S.hash p.b⟩]
  /-- The commit of a block of a halted epoch. -/
  | late (p : SPBProposal) (hp : p.phase = .one) (ho : Origin env i x p) (hx : Untouched x0 x)
      (hh : x.core.haltFlags p.epoch = true) (hl : x.core.elector.leader p.view = p.author)
      (hm : x.core.missing env p.b = []) (hk : y.core.commitor = (x.core.commitor.commit p.b).1) :
      Locals S env i x0 x y ((x.core.commitor.commit p.b).2.map .commit)
  /-- A halt is accepted, and the epoch does not advance. -/
  | haltStay (h : Halt) (outs : List Output) (hi : i = .msg (.halt h)) (hx : Untouched x0 x)
      (he : x.core.epoch ≤ h.epoch) (hf : x.core.haltFlags h.epoch = false)
      (ho : HaltOut S env x.core h.blockHash y.core.commitor outs)
      (hd : y.decided = x.decided ++ [h]) : Locals S env i x0 x y outs
  /-- A halt is accepted, and the next epoch starts with a new block. -/
  | haltNext (h : Halt) (outs : List Output) (hi : i = .msg (.halt h)) (hx : Untouched x0 x)
      (he : x.core.epoch ≤ h.epoch) (hf : x.core.haltFlags h.epoch = false)
      (ho : HaltOut S env x.core h.blockHash y.core.commitor outs)
      (hd : y.decided = x.decided ++ [h]) (hlt : x.core.epoch < y.core.epoch)
      (hr : x.status = .running) (hr' : y.status = .running) :
      Locals S env i x0 x y (outs ++ [.create (x.core.generatorBlock env y.core.epoch)])
  /-- The first block of all. -/
  | start (hs : x.status = .idle) (hs' : y.status = .running) (he : y.core.epoch = x.core.epoch)
      (hk : y.core.commitor = x.core.commitor) :
      Locals S env i x0 x y [.create (x.core.generatorBlock env y.core.epoch)]
  /-- A block in place of one that the database does not hold. -/
  | again (ha : S.absent = .notFoundKey) (e : ℤ) (hk : y.core.commitor = x.core.commitor)
      (he : x.core.epoch ≤ e) (hy : y.core.epoch = x.core.epoch) :
      Locals S env i x0 x y [.create (x.core.generatorBlock env e)]

/-- What a rule adds to the outputs of the node itself. -/
theorem Rule.locals (h : Rule S env i x0 x y) :
    ∃ new, Locals S env i x0 x y new ∧ y.locals = x.locals ++ new := by
  have happend : ∀ {outs : List Output}, y.out = x.out ++ outs →
      y.locals = x.locals ++ outs.filter Output.stays := by
    intro outs ho
    unfold Hist.locals
    rw [ho, List.filter_append]
  have hquiet : ∀ {outs : List Output}, y.core.commitor = x.core.commitor → y.out = x.out ++ outs →
      outs.filter Output.stays = [] → ∃ new, Locals S env i x0 x y new ∧
      y.locals = x.locals ++ new :=
    fun hk ho hnil => ⟨[], .none hk, by rw [happend ho, hnil]⟩
  -- What `advanceNextRound` sends leaves the node, and a block that it creates stays.
  have hnext : ∀ {v : View} {d : Digest} {outs : List Output}, NextOut S env x.core v d outs →
      x.core.epoch ≤ v.epoch → y.core.epoch = x.core.epoch → y.core.commitor = x.core.commitor →
      y.out = x.out ++ outs → ∃ new, Locals S env i x0 x y new ∧ y.locals = x.locals ++ new := by
    intro v d outs ho hle he hk hout
    cases ho with
    | fail => exact hquiet hk hout rfl
    | get b hb => exact hquiet hk hout rfl
    | create ha => exact ⟨_, .again ha v.epoch hk hle he, happend hout⟩
  cases h with
  | sync p hp ho hm => exact ⟨_, .sync p hp ho hm rfl, happend rfl⟩
  | lateCommit p hp ho hx hh hl hm =>
    refine ⟨_, .late p hp ho hx hh hl hm rfl, ?_⟩
    rw [happend rfl, filter_stays_commit]
  | doneShare v hd hc => exact hquiet rfl rfl rfl
  | ready dn outs hi hh hx he hn hq ho => exact hquiet rfl rfl ho.filter_stays
  | elect s coin leader outs hi hh hx he hn hq hc hl ho => exact hquiet rfl rfl ho.filter_stays
  | finNo fv outs hi hh hx he hn hq hz ho => exact hnext ho he rfl rfl rfl
  | finYes fv outs hi hh hx he hn hq hy hz ho => exact hnext ho he rfl rfl rfl
  | haltStay h k outs hi hh hx he hf ho hs =>
    refine ⟨outs, .haltStay h outs hi hx he hf ho rfl, ?_⟩
    rw [happend rfl, ho.filter_stays]
  | haltNext h k outs hi hr hh hx he hf ho hs =>
    refine ⟨_, .haltNext h outs hi hx he hf ho rfl hs hr hr, ?_⟩
    rw [happend rfl, List.filter_append, ho.filter_stays]
    rfl
  | voteOne p hi hp ht hb ha =>
    -- A vote and spawned calls, none of which stays.
    refine hquiet rfl rfl ?_
    rw [List.filter_append, List.filter_append, filter_stays_sendVote, filter_stays_spawn,
      filter_stays_spawn]
    rfl
  | voteTwo p d hi hp ht hx hb => exact hquiet rfl rfl (filter_stays_sendVote _ _)
  | countVote v d ht hb => exact hquiet rfl rfl (filter_stays_voteOutput _ _ _ _)
  | start hs => exact ⟨_, .start hs rfl rfl rfl, happend rfl⟩
  | forward _ _ _ _ | spawnOne _ _ _ _ _ _ _ | spawnLoop _ _ _ _ _ | prevoteYes _ _ _ _ _ _ _ _
  | prevoteNo _ _ _ _ _ _ _ | finCommit _ _ _ _ _ _ _ _ => exact hquiet rfl rfl rfl
  | _ => exact ⟨[], .none rfl, (List.append_nil _).symm⟩

end SMVBA
