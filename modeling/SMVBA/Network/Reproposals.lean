import SMVBA.Network.Halts
import SMVBA.Rules.Available

/-!
# What a receiver makes of a proposal

A phase-one proposal that comes to a node of the epoch, with all payloads of its block in the store,
is passed on to its instance, and an instance without a block takes it exactly when its author is
the proposer of the block. A node that starts a round with a block of its own meets that. After a
mixed quorum of final votes `advanceNextRound` proposes the block of the vote, which is the
leader's, under the node's own name, and every receiver drops such a proposal without a vote.
-/

namespace SMVBA

open MessagePassing

variable {S : Setup} {ok : Cond} {env : Env} {x z : Hist} {s : Net} {p : SPBProposal}

/-! ## The two steps of a receiver -/

/-- Payloads that are there are not missed when more is stored. -/
theorem missing_update {c : Core} {b b' : ConsensusBlock} {d : Digest} (h : c.missing env b = []) :
    Core.missing env { c with store := Function.update c.store d (some b') } b = [] := by
  rw [missing_eq_nil] at h ⊢
  intro d' hd'
  rcases h d' hd' with hs | hp
  · left
    dsimp only
    by_cases hd : d' = d
    · subst hd
      rw [Function.update_self]
      rfl
    · rwa [Function.update_of_ne hd]
  · exact .inr hp

/-- A node of the epoch that holds the payloads of a block passes its proposal on. -/
theorem proposal_spawned (hx : x.status = .running) (hput : env.putOk = true) (hp : p.phase = .one)
    (he : x.core.epoch ≤ p.epoch) (hm : x.core.missing env p.b = []) :
    ∃ y outs, x.step S env (.msg (.spbProposal p)) = some (y, outs) ∧ y.status = .running ∧
      .processProposal p ∈ y.tasks := by
  -- The late commit at the head of the handler changes nothing that the rest looks at.
  have hlate := lateCommit_store S env x.core p
  have hfilter : (x.core.lateCommit S env p).core.messgaeFilter p.epoch = false := by
    unfold Core.messgaeFilter
    rw [hlate.2.1]
    exact decide_eq_false (by omega)
  have hmissing : Core.missing env { (x.core.lateCommit S env p).core with
      store :=
        Function.update (x.core.lateCommit S env p).core.store (S.hash p.b) (some p.b) } p.b =
        [] := by
    refine missing_update ?_
    unfold Core.missing at hm ⊢
    rwa [hlate.1]
  have houtcome : x.core.handle S env (.spbProposal p) =
      ⟨{ (x.core.lateCommit S env p).core with
          store := Function.update (x.core.lateCommit S env p).core.store (S.hash p.b) (some p.b) },
        (x.core.lateCommit S env p).out ++ [.spawn (.processProposal p)], none⟩ := by
    simp only [Core.handle, Core.handleSpbProposal, Outcome.bind, hlate.2.2, hfilter,
      Core.acceptProposal, hp, hput, Core.verifyConsensusBlock, hmissing, if_true, if_false,
      Bool.true_eq_false, Bool.false_eq_true]
  unfold Hist.step Node.outcome
  dsimp only
  rw [if_pos hx, houtcome]
  refine ⟨_, _, rfl, rfl, ?_⟩
  simp [Node.after, Node.tasksAfter, Output.task?]

/-- An instance without a block takes the block of a spawned proposal and votes for it exactly when
the author of the proposal is the proposer of the block. -/
theorem proposal_taken_iff (hz : z.status = .running) (ht : .processProposal p ∈ z.tasks)
    (hp : p.phase = .one) (hb : (z.core.spbInstances p.slot).blockHash = none) :
    ∃ z' outs, z.step S env (.task (.processProposal p)) = some (z', outs) ∧
      ((z'.core.spbInstances p.slot).blockHash = some (S.hash p.b) ∧
        (∃ o ∈ outs, o.vote? =
          some ⟨z.core.name, p.author, S.hash p.b, p.epoch, p.round, .one⟩) ↔
        p.author = p.b.proposer) := by
  unfold Hist.step Node.outcome
  dsimp only
  rw [if_pos ⟨hz, ht⟩]
  refine ⟨_, _, rfl, ?_⟩
  by_cases ha : p.author = p.b.proposer
  · refine ⟨fun _ => ha, fun _ => ⟨?_, ?_⟩⟩
    · simp [Node.after, Core.runTask, Core.processProposal, hp, hb, ha, Core.setSpb]
    · have hvote :
          ∃ o ∈ z.core.sendVote ⟨z.core.name, p.author, S.hash p.b, p.epoch, p.round, .one⟩,
          o.vote? = some ⟨z.core.name, p.author, S.hash p.b, p.epoch, p.round, .one⟩ := by
        unfold Core.sendVote
        split_ifs
        · exact ⟨_, List.mem_singleton_self _, rfl⟩
        · exact ⟨_, List.mem_singleton_self _, rfl⟩
      obtain ⟨o, ho, hv⟩ := hvote
      refine ⟨o, ?_, hv⟩
      simp only [Core.runTask, Core.processProposal, hp, hb, ne_eq, not_true_eq_false, ha, or_self,
        if_false]
      rw [ha] at ho
      exact List.mem_append_left _ (List.mem_append_left _ ho)
  · -- The call ends without effect.
    refine ⟨fun h => ?_, fun h => absurd h ha⟩
    obtain ⟨o, ho, -⟩ := h.2
    simp [Core.runTask, Core.processProposal, hp, hb, ha, Outcome.ret] at ho

/-- A node that takes a phase-one proposal of an epoch that is not past, and holds all payloads of
its block, spawns a call for it. The call, run while the instance has no block, gives the instance
the hash of the block and sends a phase-one vote exactly when the author of the proposal is the
proposer of the block. -/
theorem proposal_accepted_iff (hx : x.status = .running) (hput : env.putOk = true)
    (hp : p.phase = .one) (he : x.core.epoch ≤ p.epoch) (hm : x.core.missing env p.b = []) :
    ∃ y outs, x.step S env (.msg (.spbProposal p)) = some (y, outs) ∧ y.status = .running ∧
      .processProposal p ∈ y.tasks ∧
      ∀ (env' : Env) (z : Hist), z.status = .running → .processProposal p ∈ z.tasks →
        (z.core.spbInstances p.slot).blockHash = none →
        ∃ z' outs', z.step S env' (.task (.processProposal p)) = some (z', outs') ∧
          ((z'.core.spbInstances p.slot).blockHash = some (S.hash p.b) ∧
            (∃ o ∈ outs', o.vote? =
              some ⟨z.core.name, p.author, S.hash p.b, p.epoch, p.round, .one⟩) ↔
            p.author = p.b.proposer) := by
  obtain ⟨y, outs, hstep, hrun, htask⟩ := proposal_spawned (S := S) hx hput hp he hm
  exact ⟨y, outs, hstep, hrun, htask, fun env' z hz ht hb => proposal_taken_iff hz ht hp hb⟩

/-- A proposal of round zero is accepted: node `1` takes the first proposal of `0`, runs the call,
and has the hash of the block in the instance. -/
theorem proposal_accepted_first : ∃ s : Net, Run (demo 4 0) Always s ∧
    (s.nodes 0).Broadcast (.spbProposal ⟨0, demoBlock 0 0, 0, 0, .one⟩) ∧
    ∃ y outs z outs', (s.nodes 1).step (demo 4 0) (fullEnv 1)
        (.msg (.spbProposal ⟨0, demoBlock 0 0, 0, 0, .one⟩)) = some (y, outs) ∧
      y.step (demo 4 0) (fullEnv 1)
        (.task (.processProposal ⟨0, demoBlock 0 0, 0, 0, .one⟩)) = some (z, outs') ∧
      (z.core.spbInstances ⟨0, 0, 0⟩).blockHash = some (demoHash 0) ∧
      ∃ o ∈ outs', o.vote? = some ⟨y.core.name, 0, demoHash 0, 0, 0, .one⟩ := by
  let p : SPBProposal := ⟨0, demoBlock 0 0, 0, 0, .one⟩
  obtain ⟨s, hr, hs⟩ := exists_run (demo 4 0) Always [0, 1, 2, 3] [.start 0, .start 1]
    (fun nodes => decide ((nodes 0).Broadcast (.spbProposal p) ∧ (nodes 1).status = .running ∧
      (nodes 1).core.epoch ≤ p.epoch ∧ (nodes 1).core.missing (fullEnv 1) p.b = []) &&
      (((nodes 1).step (demo 4 0) (fullEnv 1) (.msg (.spbProposal p))).any fun (y, _) =>
        decide ((y.core.spbInstances p.slot).blockHash = none)))
    (by decide) (by decide +kernel)
  rw [Bool.and_eq_true, decide_eq_true_eq] at hs
  obtain ⟨⟨hb, hrun, he, hm⟩, hafter⟩ := hs
  obtain ⟨y, outs, hy, hrun', htask, htaken⟩ := proposal_accepted_iff hrun rfl rfl he hm
  have hnone : (y.core.spbInstances p.slot).blockHash = none := by
    rw [hy] at hafter
    exact of_decide_eq_true hafter
  obtain ⟨z, outs', hz, hiff⟩ := htaken (fullEnv 1) y hrun' htask hnone
  obtain ⟨hblock, hvote⟩ := hiff.mpr rfl
  exact ⟨s, hr, hb, y, outs, z, outs', hy, hz, hblock, hvote⟩

/-! ## Which proposals meet the condition -/

/-- A node proposes a block of its own, except after a final vote for the block of another. -/
theorem Run.author_eq_proposer (ha : S.absent = .other) (hr : Run S ok s)
    (hc : Collisionless S s.nodes) {q d : NodeID} (hm : .spbProposal p ∈ (s.nodes q).sentTo d)
    (hp : p.phase = .one) : p.author = p.b.proposer ∨ ∃ fv, .finVote fv ∈ (s.nodes q).handled ∧
      fv.epoch = p.epoch ∧ fv.round + 1 = p.round ∧ fv.blockHash = S.hash p.b := by
  have hauthor : p.author = q := ((hr.facts q).sent.author d _ hm).trans (hr.facts q).name_eq
  cases (hr.blockFacts ha q).caused d p hm hp with
  | first hround hb he =>
    left
    rw [hauthor, ((hr.blockFacts ha q).created.block _ hb).1, (hr.facts q).name_eq]
  | mixed fv hh he hround hb hd hq => exact .inr ⟨fv, hh, he, hround, hd.symm⟩
  | no v he hround hb hd hq =>
    left
    have hcreated := hr.created_of_took ha hb
    have hmem := hr.mem_of_created hcreated
    rcases hd with hd | hzero
    · -- The block is the one in the node's own slot of the round before.
      rw [(hr.facts q).name_eq] at hd
      obtain ⟨b, hhash, hprop, hcr, -⟩ := hr.block_of_slot ha hd
      obtain rfl := hc.eq_of_hash _ (hr.mem_of_created hcr) _ hmem b hcr p.b hcreated hhash
      exact hauthor.trans hprop.symm
    · exact absurd hzero (hc.hash_ne_zero _ hmem _ hcreated)

/-! ## A proposal that is dropped -/

/-- A first round of four nodes with a mixed quorum of final votes: `0` is elected, `1` has locked
its block and prevotes for it, the others prevote against it, and `2` takes a final vote for no and
two for yes. -/
def mixedRound : List Act :=
  [0, 1, 2, 3].map .start ++ phaseOne 0 [0, 1, 2] ++ locks 0 [1] ++
    spbRun 1 [0, 1, 2] ++ spbRun 2 [0, 1, 2] ++ spbRun 3 [0, 2, 3] ++
    finishes 1 [1, 2, 3] ++ finishes 2 [1, 2, 3] ++ dones 0 [1, 2] ++
    [0, 1, 2, 3].flatMap (fun q => dones q (if q = 0 then [0] else [0, 1, 2])) ++
    [0, 1, 2, 3].flatMap (fun q => shares q [0, 1, 2]) ++
    [0, 2, 3].flatMap (fun q => prevotes ⟨q, 0, 0, 0, .no, 0⟩ [2]) ++
    prevotes ⟨1, 0, 0, 0, .yes, demoHash 0⟩ [0, 1] ++
    [.deliver 2 (.finVote ⟨2, 0, 0, 0, .no, 0⟩),
      .deliver 2 (.finVote ⟨0, 0, 0, 0, .yes, demoHash 0⟩),
      .deliver 2 (.finVote ⟨1, 0, 0, 0, .yes, demoHash 0⟩)]

/-- The proposal of `2` for the next round, with the block of the leader. -/
def reproposal : SPBProposal := ⟨2, demoBlock 0 0, 0, 1, .one⟩

/-- Node `1` takes the proposal of `2` for the next round, in an epoch that is not past, with all
payloads there and no block in the instance, and neither gives the instance the block nor sends a
vote. -/
theorem reproposal_dropped : ∃ s : Net, Run (demo 4 0) Always s ∧
    (s.nodes 2).Broadcast (.spbProposal reproposal) ∧ (s.nodes 1).status = .running ∧
    (s.nodes 1).core.epoch ≤ reproposal.epoch ∧
    (s.nodes 1).core.missing (fullEnv 1) reproposal.b = [] ∧
    ((s.nodes 1).core.spbInstances reproposal.slot).blockHash = none ∧
    ∃ y outs z outs', (s.nodes 1).step (demo 4 0) (fullEnv 1) (.msg (.spbProposal reproposal)) =
        some (y, outs) ∧
      y.step (demo 4 0) (fullEnv 1) (.task (.processProposal reproposal)) = some (z, outs') ∧
      (z.core.spbInstances reproposal.slot).blockHash = none ∧ outs' = [] := by
  obtain ⟨s, hr, hs⟩ := exists_run (demo 4 0) Always [0, 1, 2, 3] mixedRound
    (fun nodes => decide ((nodes 2).Broadcast (.spbProposal reproposal) ∧
      (nodes 1).status = .running ∧ (nodes 1).core.epoch ≤ reproposal.epoch ∧
      (nodes 1).core.missing (fullEnv 1) reproposal.b = [] ∧
      ((nodes 1).core.spbInstances reproposal.slot).blockHash = none) &&
      (((nodes 1).step (demo 4 0) (fullEnv 1) (.msg (.spbProposal reproposal))).any fun (y, _) =>
        (y.step (demo 4 0) (fullEnv 1) (.task (.processProposal reproposal))).any fun (z, outs') =>
          decide ((z.core.spbInstances reproposal.slot).blockHash = none ∧ outs' = [])))
    (by decide) (by decide +kernel)
  rw [Bool.and_eq_true, decide_eq_true_eq] at hs
  obtain ⟨⟨hb, hrun, he, hm, hnone⟩, hsteps⟩ := hs
  rw [Option.any_eq_true] at hsteps
  obtain ⟨⟨y, outs⟩, hy, hsteps⟩ := hsteps
  rw [Option.any_eq_true] at hsteps
  obtain ⟨⟨z, outs'⟩, hz, hend⟩ := hsteps
  obtain ⟨hblock, hout⟩ := of_decide_eq_true hend
  exact ⟨s, hr, hb, hrun, he, hm, hnone, y, outs, z, outs', hy, hz, hblock, hout⟩

end SMVBA
