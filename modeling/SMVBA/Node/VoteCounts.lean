import SMVBA.Network.Exec

/-!
# Whose votes an SPB instance counts

`processVote` keeps a number for each phase and no set of authors. The instance is the one that the
vote names, and neither the proposer of the vote nor its block hash nor its author is looked at. A
quorum that an instance counts is a quorum of authors, for the node's own block, if each author
votes once, and the votes that are counted name the node as their proposer and, in the first phase,
the block of the instance.

The calls of `processVote` come from votes that were taken, directly or through the buffer of an
instance without a block. Handlers other than the spawned calls leave the instances and the calls
for votes alone (`LeavesVotes`). The invariant `BallotsBacked` weighs what an instance has counted
and what waits for it against the authors of the votes that were taken.
-/

namespace SMVBA

variable {S : Setup} {ok : Cond} {env : Env} {i : Input} {name : NodeID} {x y : Hist} {c : Core}
  {outs : List Output}

/-! ## What leaves the votes alone -/

/-- A handler that changes no instance and spawns no call for a vote. -/
structure LeavesVotes (c : Core) (o : Outcome) : Prop where
  spb : o.core.spbInstances = c.spbInstances
  calls : ∀ v, .spawn (.processVote v) ∉ o.out

namespace LeavesVotes

theorem ret (c : Core) : LeavesVotes c (.ret c) := ⟨rfl, by simp [Outcome.ret]⟩

/-- Outputs that spawn nothing, from a core with the same instances. -/
theorem of_quiet {c' : Core} {out : List Output} {err : Option Err}
    (hc : c'.spbInstances = c.spbInstances) (hout : out.filterMap Output.task? = []) :
    LeavesVotes c ⟨c', out, err⟩ := by
  refine ⟨hc, fun v hv => ?_⟩
  have hmem : .processVote v ∈ out.filterMap Output.task? := List.mem_filterMap.mpr ⟨_, hv, rfl⟩
  rw [hout] at hmem
  cases hmem

theorem of_core {c' : Core} {o : Outcome} (h : LeavesVotes c' o)
    (hc : c'.spbInstances = c.spbInstances) : LeavesVotes c o := ⟨h.spb.trans hc, h.calls⟩

theorem bind {o : Outcome} {f : Core → Outcome} (h : LeavesVotes c o)
    (hf : LeavesVotes o.core (f o.core)) : LeavesVotes c (o.bind f) := by
  unfold Outcome.bind
  split
  · exact h
  · refine ⟨hf.spb.trans h.spb, fun v hv => ?_⟩
    rcases List.mem_append.mp hv with hv | hv
    · exact h.calls v hv
    · exact hf.calls v hv

theorem verifyAndCommit (b : ConsensusBlock) : LeavesVotes c (c.verifyAndCommit S env b) := by
  obtain ⟨-, heq⟩ | ⟨-, heq⟩ := verifyAndCommit_cases S env c b
  · rw [heq]
    exact ⟨rfl, by simp⟩
  · rw [heq]
    exact ⟨rfl, by simp⟩

theorem lateCommit (p : SPBProposal) : LeavesVotes c (c.lateCommit S env p) := by
  unfold Core.lateCommit
  split_ifs
  · exact verifyAndCommit p.b
  · exact ret c

theorem handleSpbProposal (p : SPBProposal) : LeavesVotes c (c.handleSpbProposal S env p) := by
  refine (lateCommit p).bind ?_
  split_ifs
  · exact ret _
  · unfold Core.acceptProposal Core.verifyConsensusBlock
    dsimp only
    split_ifs <;> exact ⟨rfl, by simp⟩

theorem invokeDoneAndShare (v : View) : LeavesVotes c (c.invokeDoneAndShare S v) := by
  unfold Core.invokeDoneAndShare
  split_ifs
  · exact of_quiet rfl rfl
  · exact ret c

theorem processLeader (v : View) : LeavesVotes c (c.processLeader v) := by
  unfold Core.processLeader
  split_ifs
  · dsimp only
    split
    · exact of_quiet rfl rfl
    · split_ifs
      · split <;> exact of_quiet rfl rfl
      · exact of_quiet rfl rfl
  · exact ret c

theorem advanceNextRound (v : View) (flag : Action) (d : Digest) :
    LeavesVotes c (c.advanceNextRound S env v flag d) := by
  unfold Core.advanceNextRound
  split_ifs
  · exact ret c
  · split <;> exact of_quiet rfl rfl

theorem handleHalt (h : Halt) : LeavesVotes c (c.handleHalt S env h) := by
  unfold Core.handleHalt
  split_ifs
  · exact ret c
  · exact ret c
  · refine bind ?_ ?_
    · unfold Core.handleOutput
      split
      · exact of_quiet rfl rfl
      · exact (verifyAndCommit _).of_core rfl
      · exact (ret _).of_core rfl
    · unfold Core.advanceNextEpoch
      split_ifs
      · exact (ret _).of_core rfl
      · exact of_quiet rfl rfl

/-- The votes of `SPBVote` messages apart, no message touches the votes of an instance. -/
theorem handle {m : Message} (hm : ∀ v, m ≠ .spbVote v) : LeavesVotes c (c.handle S env m) := by
  cases m with
  | spbProposal p => exact handleSpbProposal p
  | spbVote v => exact absurd rfl (hm v)
  | finish f =>
    unfold Core.handle Core.handleFinish
    dsimp only
    split_ifs
    · exact ret c
    · split
      · exact of_quiet rfl rfl
      · split_ifs
        · exact (invokeDoneAndShare _).of_core rfl
        · exact (ret _).of_core rfl
  | done d =>
    unfold Core.handle Core.handleDone
    dsimp only
    split_ifs
    · exact ret c
    · split
      · exact of_quiet rfl rfl
      · exact (invokeDoneAndShare _).of_core rfl
      · exact (processLeader _).of_core rfl
      · exact (ret _).of_core rfl
  | electShare s =>
    unfold Core.handle Core.handleElectShare
    dsimp only
    split_ifs
    · exact ret c
    · split
      · exact of_quiet rfl rfl
      · split_ifs
        · exact (processLeader _).of_core rfl
        · exact (ret _).of_core rfl
  | prevote p =>
    unfold Core.handle Core.handlePrevote
    dsimp only
    split_ifs
    · exact ret c
    · split
      · exact of_quiet rfl rfl
      · exact of_quiet rfl rfl
      · exact of_quiet rfl rfl
      · exact (ret _).of_core rfl
  | finVote v =>
    unfold Core.handle Core.handleFinvote
    dsimp only
    split_ifs
    · exact ret c
    · split
      · exact of_quiet rfl rfl
      · exact (advanceNextRound _ _ _).of_core rfl
      · exact (advanceNextRound _ _ _).of_core rfl
      · exact of_quiet rfl rfl
      · exact (ret _).of_core rfl
  | halt h => exact handleHalt h

theorem handleLoopBack (d : Digest) : LeavesVotes c (c.handleLoopBack S env d) := by
  unfold Core.handleLoopBack
  split
  · exact of_quiet rfl rfl
  · exact of_quiet rfl rfl
  · refine (lateCommit _).bind ?_
    split_ifs
    · exact ⟨rfl, by simp⟩
    · exact ret _

end LeavesVotes

/-! ## One step -/

/-- The vote of a message. -/
def Message.spbVote? : Message → Option SPBVote
  | .spbVote v => some v
  | _ => none

/-- The votes that a node took from its channel. -/
def Hist.tookVotes (x : Hist) : List SPBVote := x.handled.filterMap Message.spbVote?

/-- The votes that wait in spawned calls. -/
def Hist.calledVotes (x : Hist) : List SPBVote := x.tasks.filterMap Task.vote?

/-- What an instance knows about votes. -/
def SPB.ballot (s : SPB) : Option Digest × (Phase → ℕ) × List SPBVote :=
  (s.blockHash, s.votes, s.unHandleVote)

/-- What a step does to the votes of a node. -/
inductive VoteStep (i : Input) (x y : Hist) : Prop
  /-- A vote may be dropped, and nothing else happens to the votes. -/
  | other (l : List SPBVote) (htook : y.tookVotes = x.tookVotes ++ l)
      (hcalls : y.calledVotes.Perm x.calledVotes)
      (hspb : ∀ u, (y.core.spbInstances u).ballot = (x.core.spbInstances u).ballot)
  /-- A vote goes on to its instance. -/
  | take (v : SPBVote) (hi : i = .msg (.spbVote v)) (he : x.core.epoch ≤ v.epoch)
      (htook : y.tookVotes = x.tookVotes ++ [v]) (hcalls : y.calledVotes = x.calledVotes ++ [v])
      (hspb : y.core.spbInstances = x.core.spbInstances)
  /-- An instance without a block keeps a vote. -/
  | keep (v : SPBVote) (hb : (x.core.spbInstances v.slot).blockHash = none)
      (htook : y.tookVotes = x.tookVotes) (hcalls : x.calledVotes.Perm (v :: y.calledVotes))
      (hspb : y.core.spbInstances = (x.core.setSpb v.slot { x.core.spbInstances v.slot with
        unHandleVote := (x.core.spbInstances v.slot).unHandleVote ++ [v] }).spbInstances)
  /-- An instance with a block counts a vote. -/
  | count (v : SPBVote) (d : Digest) (hi : i = .task (.processVote v))
      (hb : (x.core.spbInstances v.slot).blockHash = some d)
      (htook : y.tookVotes = x.tookVotes) (hcalls : x.calledVotes.Perm (v :: y.calledVotes))
      (hspb : y.core.spbInstances = (x.core.setSpb v.slot { x.core.spbInstances v.slot with
        votes := Function.update (x.core.spbInstances v.slot).votes v.phase
          ((x.core.spbInstances v.slot).votes v.phase + 1) }).spbInstances)
  /-- An instance gets its block and hands out the votes that it kept. -/
  | accept (s : Slot) (d : Digest) (hb : (x.core.spbInstances s).blockHash = none)
      (htook : y.tookVotes = x.tookVotes)
      (hcalls : y.calledVotes.Perm (x.calledVotes ++ (x.core.spbInstances s).unHandleVote))
      (hspb : y.core.spbInstances = (x.core.setSpb s { x.core.spbInstances s with
        blockHash := some d, unHandleProposal := [], unHandleVote := [] }).spbInstances)

/-- A history after the outcome of an input. -/
def Hist.afterOutcome (x : Hist) (i : Input) (o : Outcome) : Hist where
  toNode := x.toNode.after i o
  handled := x.handled ++ i.msg?.toList
  out := x.out ++ o.out
  decided := x.decided ++ Hist.newHalt x.core o.core i

/-- A call that runs is gone. -/
theorem calledVotes_erase {t : Task} (ht : t ∈ x.tasks) :
    x.calledVotes.Perm (t.vote?.toList ++ (x.tasks.erase t).filterMap Task.vote?) := by
  have hperm := (List.perm_cons_erase ht).filterMap Task.vote?
  cases t <;> exact hperm

/-- A step whose handler leaves the votes alone. -/
theorem LeavesVotes.voteStep {o : Outcome} (h : LeavesVotes x.core o)
    (htasks : x.toNode.tasksAfter i = x.tasks) :
    VoteStep i x (x.afterOutcome i o) := by
  refine .other (i.msg?.toList.filterMap Message.spbVote?) (List.filterMap_append ..) ?_
    fun u => congrArg (fun spb => (spb u).ballot) h.spb
  have hnone : (o.out.filterMap Output.task?).filterMap Task.vote? = [] := by
    rw [List.filterMap_filterMap, List.filterMap_eq_nil_iff]
    intro out hout
    cases out with
    | spawn t =>
      cases t with
      | processVote v => exact absurd hout (h.calls v)
      | processProposal p => rfl
    | _ => rfl
  have hcalls : (x.toNode.tasksAfter i ++ o.out.filterMap Output.task?).filterMap Task.vote? =
      x.calledVotes := by
    rw [List.filterMap_append, hnone, List.append_nil, htasks]
    rfl
  exact .of_eq hcalls

/-- A message of `handleSpbVote`. -/
theorem voteStep_spbVote (v : SPBVote) :
    VoteStep (.msg (.spbVote v)) x (x.afterOutcome (.msg (.spbVote v))
      (x.core.handleSpbVote v)) := by
  by_cases hfilter : x.core.messgaeFilter v.epoch = true
  · have heq : x.core.handleSpbVote v = .ret x.core := if_pos hfilter
    rw [heq]
    refine .other [v] (List.filterMap_append ..) (.of_eq ?_) fun _ => rfl
    simp [Hist.calledVotes, Hist.afterOutcome, Node.after, Node.tasksAfter, Outcome.ret]
  · have heq : x.core.handleSpbVote v = ⟨x.core, [.spawn (.processVote v)], none⟩ := if_neg hfilter
    have hle : x.core.epoch ≤ v.epoch := by simpa [Core.messgaeFilter] using hfilter
    rw [heq]
    exact .take v rfl hle (List.filterMap_append ..) (List.filterMap_append ..) rfl

/-- A call of `processVote`. -/
theorem voteStep_processVote {v : SPBVote} (ht : .processVote v ∈ x.tasks) :
    VoteStep (.task (.processVote v)) x
      (x.afterOutcome (.task (.processVote v)) (x.core.processVote S v)) := by
  have hcalls := calledVotes_erase ht
  cases hb : (x.core.spbInstances v.slot).blockHash with
  | none =>
    rw [processVote_none S hb]
    refine .keep v hb (by simp [Hist.tookVotes, Hist.afterOutcome, Input.msg?]) ?_ rfl
    simpa [Hist.calledVotes, Hist.afterOutcome, Node.after, Node.tasksAfter,
      Task.vote?] using hcalls
  | some d =>
    rw [processVote_some S hb]
    refine .count v d rfl hb (by simp [Hist.tookVotes, Hist.afterOutcome, Input.msg?]) ?_ rfl
    simpa [Hist.calledVotes, Hist.afterOutcome, Node.after, Node.tasksAfter,
      Task.vote?] using hcalls

/-- A call of `processProposal`. -/
theorem voteStep_processProposal {p : SPBProposal} (ht : .processProposal p ∈ x.tasks) :
    VoteStep (.task (.processProposal p)) x
      (x.afterOutcome (.task (.processProposal p)) (x.core.processProposal S p)) := by
  have hcalls := calledVotes_erase ht
  -- A call that spawns nothing and leaves the votes of its instance alone.
  have hquiet : ∀ {o : Outcome}, o.out.filterMap Output.task? = [] →
      (∀ u, (o.core.spbInstances u).ballot = (x.core.spbInstances u).ballot) →
      VoteStep (.task (.processProposal p)) x (x.afterOutcome (.task (.processProposal p)) o) := by
    intro o hout hspb
    refine .other [] (by simp [Hist.tookVotes, Hist.afterOutcome, Input.msg?]) (.symm ?_) hspb
    simpa [Hist.calledVotes, Hist.afterOutcome, Node.after, Node.tasksAfter, hout,
      Task.vote?] using hcalls
  have hsame : ∀ {spb : SPB}, spb.ballot = (x.core.spbInstances p.slot).ballot → ∀ u,
      ((x.core.setSpb p.slot spb).spbInstances u).ballot = (x.core.spbInstances u).ballot := by
    intro spb heq u
    by_cases hu : u = p.slot
    · subst hu
      rw [setSpb_self, heq]
    · rw [setSpb_of_ne hu]
  cases hp : p.phase with
  | one =>
    by_cases haccept : (x.core.spbInstances p.slot).blockHash = none ∧ p.author = p.b.proposer
    · obtain ⟨hb, ha⟩ := haccept
      rw [processProposal_one S hp hb ha]
      refine .accept p.slot (S.hash p.b) hb
        (by simp [Hist.tookVotes, Hist.afterOutcome, Input.msg?]) ?_ rfl
      have hperm := (hcalls.append_right (x.core.spbInstances p.slot).unHandleVote).symm
      simpa [Hist.calledVotes, Hist.afterOutcome, Node.after, Node.tasksAfter, List.filterMap_map,
        Function.comp_def, Output.task?, Task.vote?] using hperm
    · have heq : x.core.processProposal S p = .ret x.core := by
        unfold Core.processProposal
        rw [hp]
        exact if_pos (by tauto)
      rw [heq]
      exact hquiet rfl fun _ => rfl
  | two =>
    cases hb : (x.core.spbInstances p.slot).blockHash with
    | none =>
      rw [processProposal_two_none S hp hb]
      exact hquiet rfl (hsame rfl)
    | some d =>
      rw [processProposal_two_some S hp hb]
      exact hquiet (filterMap_sendVote _ _) (hsame rfl)
  | other code =>
    rw [processProposal_other S hp]
    exact hquiet rfl fun _ => rfl

theorem step_voteStep (h : x.step S env i = some (y, outs)) : VoteStep i x y := by
  obtain ⟨o, ho, -, hy⟩ := Hist.step_eq_some h
  obtain rfl : y = x.afterOutcome i o := hy
  cases Node.runs_of_outcome ho with
  | start hs => exact (LeavesVotes.of_quiet rfl rfl).voteStep rfl
  | msg m hs =>
    cases m with
    | spbVote v => exact voteStep_spbVote v
    | _ => exact (LeavesVotes.handle (by simp)).voteStep rfl
  | loopBack d hs => exact (LeavesVotes.handleLoopBack d).voteStep rfl
  | task t hs ht =>
    cases t with
    | processVote v => exact voteStep_processVote ht
    | processProposal p => exact voteStep_processProposal ht

/-! ## The authors behind the counts -/

/-- The vote is for a phase of the slot's instance, and in the first phase for the block with the
hash `d`. -/
def SPBVote.fits (s : Slot) (ph : Phase) (d : Digest) (v : SPBVote) : Bool :=
  v.slot = s ∧ v.phase = ph ∧ (ph = .one → v.blockHash = d)

/-- The authors of such votes, among those that a node took. -/
def Hist.voters (x : Hist) (s : Slot) (ph : Phase) (d : Digest) : Finset NodeID :=
  ((x.tookVotes.filter (SPBVote.fits s ph d)).map SPBVote.author).toFinset

/-- The vote that an input takes from the channel. -/
def Input.spbVote? (i : Input) : Option SPBVote := i.msg?.bind Message.spbVote?

/-- The vote whose call an input runs. -/
def Input.calledVote? : Input → Option SPBVote
  | .task t => t.vote?
  | _ => none

/-- A vote of an epoch that is not past is the first that comes from its author for its instance and
phase. A vote that is counted names the node itself as its proposer and, in the first phase, has the
hash of the instance's block. -/
def CountsOnce : Cond := fun x _ i =>
  (∀ v ∈ i.spbVote?, x.core.epoch ≤ v.epoch →
    ∀ w ∈ x.tookVotes, ¬(w.author = v.author ∧ w.slot = v.slot ∧ w.phase = v.phase)) ∧
  ∀ v ∈ i.calledVote?, (x.core.spbInstances v.slot).blockHash ≠ none →
    v.proposer = x.core.name ∧
      (v.phase = .one → (x.core.spbInstances v.slot).blockHash = some v.blockHash)

instance (x : Hist) (env : Env) (i : Input) : Decidable (CountsOnce x env i) :=
  inferInstanceAs (Decidable ((∀ v ∈ i.spbVote?, _ → ∀ w ∈ x.tookVotes, _) ∧
    ∀ v ∈ i.calledVote?, _ → _))

/-- The votes that an instance has counted for its block, keeps, or has waiting in calls. -/
def Hist.ballots (x : Hist) (s : Slot) (ph : Phase) (d : Digest) : ℕ :=
  (if (x.core.spbInstances s).blockHash = some d then (x.core.spbInstances s).votes ph else 0) +
    (x.core.spbInstances s).unHandleVote.countP (SPBVote.fits s ph d) +
    x.calledVotes.countP (SPBVote.fits s ph d)

/-- Every ballot has an author of its own behind it. Without a block nothing is counted, and nothing
but votes for the node itself. -/
structure BallotsBacked (name : NodeID) (x : Hist) : Prop where
  block : ∀ s, (x.core.spbInstances s).blockHash = none → ∀ ph, (x.core.spbInstances s).votes ph = 0
  own : ∀ s, s.node ≠ name → ∀ ph, (x.core.spbInstances s).votes ph = 0
  authors : ∀ s ph d, x.ballots s ph d ≤ (x.voters s ph d).card

section Ballots

variable {s : Slot} {ph : Phase} {d : Digest}

/-- More votes, no fewer voters. -/
theorem voters_mono (s : Slot) (ph : Phase) (d : Digest) {l : List SPBVote}
    (h : y.tookVotes = x.tookVotes ++ l) :
    (x.voters s ph d).card ≤ (y.voters s ph d).card := by
  refine Finset.card_le_card fun a ha => ?_
  unfold Hist.voters at ha ⊢
  rw [h, List.filter_append, List.map_append, List.toFinset_append]
  exact Finset.mem_union_left _ ha

/-- A first vote has a new voter. -/
theorem voters_first (s : Slot) (ph : Phase) (d : Digest) {v : SPBVote}
    (h : y.tookVotes = x.tookVotes ++ [v])
    (hfirst : ∀ w ∈ x.tookVotes, ¬(w.author = v.author ∧ w.slot = v.slot ∧ w.phase = v.phase)) :
    (x.voters s ph d).card + (if v.fits s ph d then 1 else 0) ≤ (y.voters s ph d).card := by
  split_ifs with hfits
  · have hnew : v.author ∉ x.voters s ph d := by
      intro hmem
      obtain ⟨w, hw, hauthor⟩ := List.mem_map.mp (List.mem_toFinset.mp hmem)
      obtain ⟨hw, hwfits⟩ := List.mem_filter.mp hw
      obtain ⟨hslot, hphase, -⟩ := of_decide_eq_true hfits
      obtain ⟨hwslot, hwphase, -⟩ := of_decide_eq_true hwfits
      exact hfirst w hw ⟨hauthor, hwslot.trans hslot.symm, hwphase.trans hphase.symm⟩
    have heq : y.voters s ph d = insert v.author (x.voters s ph d) := by
      unfold Hist.voters
      rw [h, List.filter_append, List.map_append, List.toFinset_append,
        List.filter_singleton, hfits]
      ext a
      simp
    rw [heq, Finset.card_insert_of_notMem hnew]
  · exact voters_mono s ph d h

/-- A vote for another slot fits none of its instance. -/
theorem fits_of_ne {v : SPBVote} (h : s ≠ v.slot) : v.fits s ph d = false :=
  decide_eq_false fun hfits => h hfits.1.symm

/-- A vote that is kept goes from its call to the buffer. -/
theorem ballots_keep {v : SPBVote} (hcalls : x.calledVotes.Perm (v :: y.calledVotes))
    (hspb : y.core.spbInstances = (x.core.setSpb v.slot { x.core.spbInstances v.slot with
      unHandleVote := (x.core.spbInstances v.slot).unHandleVote ++ [v] }).spbInstances) :
    y.ballots s ph d ≤ x.ballots s ph d := by
  have hcount := hcalls.countP_eq (SPBVote.fits s ph d)
  rw [List.countP_cons] at hcount
  unfold Hist.ballots
  rw [hspb]
  by_cases hs : s = v.slot
  · subst hs
    rw [setSpb_self]
    dsimp only
    rw [List.countP_append, List.countP_singleton]
    omega
  · rw [setSpb_of_ne hs]
    omega

/-- A vote that is counted for the block goes from its call to the count. -/
theorem ballots_count {v : SPBVote} {d' : Digest}
    (hb : (x.core.spbInstances v.slot).blockHash = some d')
    (hhash : v.phase = .one → v.blockHash = d')
    (hcalls : x.calledVotes.Perm (v :: y.calledVotes))
    (hspb : y.core.spbInstances = (x.core.setSpb v.slot { x.core.spbInstances v.slot with
      votes := Function.update (x.core.spbInstances v.slot).votes v.phase
        ((x.core.spbInstances v.slot).votes v.phase + 1) }).spbInstances) :
    y.ballots s ph d ≤ x.ballots s ph d := by
  have hcount := hcalls.countP_eq (SPBVote.fits s ph d)
  rw [List.countP_cons] at hcount
  unfold Hist.ballots
  rw [hspb]
  by_cases hs : s = v.slot
  · subst hs
    rw [setSpb_self]
    dsimp only
    rw [hb]
    by_cases hd : d' = d
    · subst hd
      by_cases hph : ph = v.phase
      · subst hph
        have hfits : v.fits v.slot v.phase d' = true := decide_eq_true ⟨rfl, rfl, hhash⟩
        rw [hfits, if_pos rfl] at hcount
        rw [if_pos rfl, if_pos rfl, Function.update_self]
        omega
      · rw [Function.update_of_ne hph]
        omega
    · have hne : some d' ≠ some d := fun h => hd (Option.some.inj h)
      rw [if_neg hne, if_neg hne]
      omega
  · rw [setSpb_of_ne hs]
    omega

/-- When an instance gets its block, the votes that it kept become calls. Nothing was counted
before. -/
theorem ballots_accept {u : Slot} {d' : Digest} (hzero : (x.core.spbInstances u).votes ph = 0)
    (hslots : ∀ v ∈ (x.core.spbInstances u).unHandleVote, v.slot = u)
    (hcalls : y.calledVotes.Perm (x.calledVotes ++ (x.core.spbInstances u).unHandleVote))
    (hspb : y.core.spbInstances = (x.core.setSpb u { x.core.spbInstances u with
      blockHash := some d', unHandleProposal := [], unHandleVote := [] }).spbInstances) :
    y.ballots s ph d ≤ x.ballots s ph d := by
  have hcount := hcalls.countP_eq (SPBVote.fits s ph d)
  rw [List.countP_append] at hcount
  unfold Hist.ballots
  rw [hspb]
  by_cases hs : s = u
  · subst hs
    rw [setSpb_self]
    dsimp only
    rw [hzero, ite_self, List.countP_nil]
    omega
  · have hnone : (x.core.spbInstances u).unHandleVote.countP (SPBVote.fits s ph d) = 0 := by
      refine List.countP_eq_zero.mpr fun v hv => ?_
      rw [fits_of_ne (hslots v hv ▸ hs)]
      decide
    rw [setSpb_of_ne hs]
    omega

/-- Counts stay below the votes that the node took: only taking a vote makes a ballot. -/
theorem BallotsBacked.authors_step (hv : VoteStep i x y) (hok : CountsOnce x env i)
    (hbuf : SpbBuffers x) (hx : BallotsBacked name x) :
    y.ballots s ph d ≤ (y.voters s ph d).card := by
  have hold := hx.authors s ph d
  have hsame : y.tookVotes = x.tookVotes → y.ballots s ph d ≤ x.ballots s ph d →
      y.ballots s ph d ≤ (y.voters s ph d).card := by
    intro htook hle
    have hmono := voters_mono s ph d (l := []) (by simpa using htook)
    omega
  cases hv with
  | other l htook hcalls hspb =>
    have hmono := voters_mono s ph d htook
    have hblock : (y.core.spbInstances s).blockHash = (x.core.spbInstances s).blockHash :=
      congrArg Prod.fst (hspb s)
    have hvotes : (y.core.spbInstances s).votes = (x.core.spbInstances s).votes :=
      congrArg (·.2.1) (hspb s)
    have hkept : (y.core.spbInstances s).unHandleVote = (x.core.spbInstances s).unHandleVote :=
      congrArg (·.2.2) (hspb s)
    unfold Hist.ballots at hold ⊢
    rw [hblock, hvotes, hkept, hcalls.countP_eq]
    omega
  | take v hi he htook hcalls hspb =>
    subst hi
    have hfirst := voters_first s ph d htook (hok.1 v rfl he)
    unfold Hist.ballots at hold ⊢
    rw [hspb, hcalls, List.countP_append, List.countP_singleton]
    omega
  | keep v hb htook hcalls hspb => exact hsame htook (ballots_keep hcalls hspb)
  | count v d' hi hb htook hcalls hspb =>
    subst hi
    have hhash : v.phase = .one → v.blockHash = d' := fun hone =>
      Option.some.inj (((hok.2 v rfl (by simp [hb])).2 hone).symm.trans hb)
    exact hsame htook (ballots_count hb hhash hcalls hspb)
  | accept u d' hb htook hcalls hspb =>
    exact hsame htook (ballots_accept (hx.block u hb ph) (hbuf.votes u) hcalls hspb)

/-- The counts of an instance change only where it counts a vote for its block. -/
theorem VoteStep.votes_cases (hv : VoteStep i x y) (s : Slot) :
    ((y.core.spbInstances s).votes = (x.core.spbInstances s).votes ∧
      ((y.core.spbInstances s).blockHash = none → (x.core.spbInstances s).blockHash = none)) ∨
    ∃ v d, i = .task (.processVote v) ∧ v.slot = s ∧ (x.core.spbInstances s).blockHash = some d ∧
      (y.core.spbInstances s).blockHash = some d := by
  cases hv with
  | other l htook hcalls hspb =>
    refine .inl ⟨congrArg (·.2.1) (hspb s), fun hnone => ?_⟩
    have hblock : (y.core.spbInstances s).blockHash = (x.core.spbInstances s).blockHash :=
      congrArg Prod.fst (hspb s)
    exact hblock.symm.trans hnone
  | take v hi he htook hcalls hspb =>
    rw [hspb]
    exact .inl ⟨rfl, id⟩
  | keep v hb htook hcalls hspb =>
    rw [hspb]
    by_cases hs : s = v.slot
    · subst hs
      rw [setSpb_self]
      exact .inl ⟨rfl, id⟩
    · rw [setSpb_of_ne hs]
      exact .inl ⟨rfl, id⟩
  | count v d hi hb htook hcalls hspb =>
    rw [hspb]
    by_cases hs : s = v.slot
    · subst hs
      rw [setSpb_self]
      exact .inr ⟨v, d, hi, rfl, hb, hb⟩
    · rw [setSpb_of_ne hs]
      exact .inl ⟨rfl, id⟩
  | accept u d hb htook hcalls hspb =>
    rw [hspb]
    by_cases hs : s = u
    · subst hs
      rw [setSpb_self]
      exact .inl ⟨rfl, fun _ => hb⟩
    · rw [setSpb_of_ne hs]
      exact .inl ⟨rfl, id⟩

theorem BallotsBacked.step (hv : VoteStep i x y) (hok : CountsOnce x env i)
    (hname : x.core.name = name)
    (hbuf : SpbBuffers x) (hx : BallotsBacked name x) : BallotsBacked name y where
  block s hnone ph := by
    rcases hv.votes_cases s with ⟨hvotes, hblock⟩ | ⟨v, d, -, -, -, hsome⟩
    · rw [hvotes]
      exact hx.block s (hblock hnone) ph
    · rw [hnone] at hsome
      cases hsome
  own s hne ph := by
    rcases hv.votes_cases s with ⟨hvotes, -⟩ | ⟨v, d, hi, hs, hb, -⟩
    · rw [hvotes]
      exact hx.own s hne ph
    · subst hi
      subst hs
      exact absurd ((hok.2 v rfl (by simp [hb])).1.trans hname) hne
  authors s ph d := hx.authors_step hv hok hbuf

/-- The invariant holds along every run under the condition. -/
theorem LocalRun.backed (hr : LocalRun S CountsOnce name x) : BallotsBacked name x := by
  induction hr with
  | init => exact ⟨fun _ _ _ => rfl, fun _ _ _ => rfl, fun _ _ _ => Nat.zero_le _⟩
  | step hr hok h ih => exact ih.step (step_voteStep h) hok hr.facts.name_eq hr.facts.buffers

end Ballots

/-! ## The quorums -/

/-- A count that has reached the quorum is one of the node's own instance, with a quorum of authors.
-/
theorem BallotsBacked.quorum (hx : BallotsBacked name x) {s : Slot} {ph : Phase}
    (hq : S.quorum ≤ (x.core.spbInstances s).votes ph) :
    s.node = name ∧ ∃ d, (x.core.spbInstances s).blockHash = some d ∧
      S.quorum ≤ (x.voters s ph d).card := by
  have hpos := S.quorum_pos
  have hown : s.node = name := by
    by_contra hne
    have hzero := hx.own s hne ph
    omega
  cases hb : (x.core.spbInstances s).blockHash with
  | none =>
    have hzero := hx.block s hb ph
    omega
  | some d =>
    have hauthors := hx.authors s ph d
    unfold Hist.ballots at hauthors
    rw [if_pos hb] at hauthors
    exact ⟨hown, d, rfl, by omega⟩

/-- The votes that fit an instance, written out. -/
theorem fits_iff {v : SPBVote} {epoch round : ℤ} {ph : Phase} {d : Digest} :
    v.fits ⟨epoch, round, name⟩ ph d = true ↔ v.proposer = name ∧
    v.epoch = epoch ∧ v.round = round ∧
      v.phase = ph ∧ (ph = .one → v.blockHash = d) := by
  unfold SPBVote.fits SPBVote.slot
  rw [decide_eq_true_eq, Slot.mk.injEq]
  tauto

/-- In every run under the condition, a node that has broadcast a phase-two proposal for a round
took phase-one votes of a quorum of authors for it, with itself as the proposer and the hash of the
block in its own instance, and a node that has broadcast a `Finish` took phase-two votes of a quorum
of authors with itself as the proposer. -/
theorem quorums_of_voters (hr : LocalRun S CountsOnce name x) :
    (∀ p, x.Broadcast (.spbProposal p) → p.phase = .two →
      ∃ d, (x.core.spbInstances ⟨p.epoch, p.round, name⟩).blockHash = some d ∧
        S.quorum ≤ ((x.tookVotes.filter fun v => v.proposer = name ∧ v.epoch = p.epoch ∧
          v.round = p.round ∧ v.phase = .one ∧ v.blockHash = d).map SPBVote.author).toFinset.card) ∧
    ∀ f, x.Broadcast (.finish f) →
      S.quorum ≤ ((x.tookVotes.filter fun v => v.proposer = name ∧ v.epoch = f.epoch ∧
        v.round = f.round ∧ v.phase = .two).map SPBVote.author).toFinset.card := by
  have hbacked := hr.backed
  have hfacts := hr.facts
  refine ⟨fun p hp htwo => ?_, fun f hf => ?_⟩
  · have hsent := (hfacts.even.mem_iff rfl name).mpr hp
    obtain ⟨hnode, d, hb, hq⟩ := hbacked.quorum (hfacts.sent.two name p hsent htwo)
    obtain rfl : p.b.proposer = name := hnode
    refine ⟨d, hb, hq.trans_eq ?_⟩
    unfold Hist.voters
    congr 3
    refine List.filter_congr fun v _ => ?_
    rw [Bool.eq_iff_iff, View.slot, fits_iff, decide_eq_true_eq]
    exact by simp [SPBProposal.view]
  · have hsent := (hfacts.even.mem_iff rfl name).mpr hf
    obtain ⟨node, hvotes, -⟩ := hfacts.sent.finish name f hsent
    obtain ⟨hnode, d, -, hq⟩ := hbacked.quorum hvotes
    obtain rfl : node = name := hnode
    refine hq.trans_eq ?_
    unfold Hist.voters
    congr 3
    refine List.filter_congr fun v _ => ?_
    rw [Bool.eq_iff_iff, View.slot, fits_iff, decide_eq_true_eq]
    exact by simp [Finish.view]

/-- Node `0` starts, takes its own first block, and takes and counts the votes. -/
def countedVotes (votes : List SPBVote) : List (Env × Input) :=
  ([Input.start, .msg (.spbProposal ⟨0, demoBlock 0 0, 0, 0, .one⟩),
    .task (.processProposal ⟨0, demoBlock 0 0, 0, 0, .one⟩)] ++
    votes.flatMap fun v => [Input.msg (.spbVote v), .task (.processVote v)]).map (fullEnv 0, ·)

/-- The phase-one votes for the first block of `0`, then the phase-two votes. -/
def bothPhases (authors : List NodeID) : List SPBVote :=
  authors.map (⟨·, 0, demoHash 0, 0, 0, .one⟩) ++ authors.map (⟨·, 0, 0, 0, 0, .two⟩)

/-- The phase-two proposal of `0` for its first block. -/
def firstTwo : SPBProposal := ⟨0, ⟨0, [], -1⟩, 0, 0, .two⟩

/-- Three nodes vote in both phases. -/
theorem quorums_of_voters_three : ∃ x, LocalRun (demo 4 0) CountsOnce 0 x ∧
    x.Broadcast (.spbProposal firstTwo) ∧ x.Broadcast (.finish ⟨0, demoHash 0, 0, 0⟩) ∧
    3 ≤ ((x.tookVotes.filter fun v => v.proposer = 0 ∧ v.epoch = 0 ∧ v.round = 0 ∧
      v.phase = .two).map SPBVote.author).toFinset.card := by
  obtain ⟨x, hr, hx⟩ := exists_localRun (demo 4 0) CountsOnce 0
    (countedVotes (bothPhases [0, 1, 2]))
    (fun x => decide (x.Broadcast (.spbProposal firstTwo) ∧
      x.Broadcast (.finish ⟨0, demoHash 0, 0, 0⟩))) (by decide +kernel)
  obtain ⟨htwo, hfinish⟩ := of_decide_eq_true hx
  exact ⟨x, hr, htwo, hfinish, (quorums_of_voters hr).2 _ hfinish⟩

/-- Node `1` votes three times in both phases, and this is enough. -/
theorem quorum_of_one_voter : ∃ x, LocalRun (demo 4 0) Always 0 x ∧ (demo 4 0).quorum = 3 ∧
    x.Broadcast (.spbProposal firstTwo) ∧ x.Broadcast (.finish ⟨0, demoHash 0, 0, 0⟩) ∧
    (x.tookVotes.map SPBVote.author).toFinset = {1} := by
  obtain ⟨x, hr, hx⟩ := exists_localRun (demo 4 0) Always 0 (countedVotes (bothPhases [1, 1, 1]))
    (fun x => decide ((demo 4 0).quorum = 3 ∧ x.Broadcast (.spbProposal firstTwo) ∧
      x.Broadcast (.finish ⟨0, demoHash 0, 0, 0⟩) ∧
      (x.tookVotes.map SPBVote.author).toFinset = {1})) (by decide +kernel)
  exact ⟨x, hr, of_decide_eq_true hx⟩

end SMVBA
