import SMVBA.Network.Reproposals
import SMVBA.Node.Tallies

/-!
# The block of the next round

A quorum of final votes that are neither all for yes nor all against it ends with `ACTION_YES`, and
the node goes on to the next round with a block that it looks up. The hash for that is the one of
the vote that completed the quorum. A vote for yes carries the hash of the block that was voted for.
A vote for no carries the zero digest of a prevote for no, and when such a vote comes last, the node
looks up the wrong key: with the errors that `NutsDB` returns it proposes nothing, and with
`ErrNotFoundKey` it proposes a new block of its own. After the largest round of an `int64` there is
no next one, and the proposal is for the smallest.
-/

namespace SMVBA

open Quorum

variable {S : Setup} {env : Env} {c : Core}

deriving instance DecidableEq for FinVoteAggreator

/-- The handler has broadcast a phase-one proposal for the view, with a block of the given hash. -/
def Outcome.Proposes (S : Setup) (o : Outcome) (name : NodeID) (v : View) (h : Digest) : Prop :=
  ∃ b, S.hash b = h ∧ broadcast (.spbProposal ⟨name, b, v.epoch, v.round, .one⟩) ⊆ o.out

/-- The look-up of a digest leads to a block with the hash `h`: what the store holds under the
digest is decoded to one, or the store holds nothing, answers with `ErrNotFoundKey`, and the block
that the node then makes has that hash. -/
def Core.LeadsTo (S : Setup) (env : Env) (c : Core) (epoch : ℤ) (d h : Digest) : Prop :=
  match c.decoded env d with
  | some b => S.hash b = h
  | none => S.absent = .notFoundKey ∧ S.hash (c.generatorBlock env epoch) = h

/-- A proposal is read off what was broadcast. -/
theorem proposes_broadcast {name : NodeID} {h : Digest} {b : ConsensusBlock} (v : View)
    (pre : List Output) (hpre : ∀ m, .recv m ∉ pre) :
    Outcome.Proposes S ⟨c, pre ++ broadcast (.spbProposal ⟨name, b, v.epoch, v.round, .one⟩), none⟩
      name v h ↔ S.hash b = h := by
  constructor
  · rintro ⟨b', hh, hsub⟩
    have hmem : Output.recv (.spbProposal ⟨name, b', v.epoch, v.round, .one⟩) ∈
        pre ++ broadcast (.spbProposal ⟨name, b, v.epoch, v.round, .one⟩) :=
      hsub (by simp [broadcast])
    rcases List.mem_append.mp hmem with hold | hnew
    · exact absurd hold (hpre _)
    · obtain rfl : b' = b := by simpa [broadcast] using hnew
      exact hh
  · intro hh
    exact ⟨b, hh, List.subset_append_right _ _⟩

/-- What `advanceNextRound` proposes after `ACTION_YES`. -/
theorem advanceNextRound_yes_iff {v : View} {d h : Digest} (he : c.messgaeFilter v.epoch = false) :
    (c.advanceNextRound S env v .yes d).Proposes S c.name ⟨v.epoch, succ64 v.round⟩ h ↔
      c.LeadsTo S env v.epoch d h := by
  have hhash : c.nextHash v .yes d = d := if_neg (by decide)
  unfold Core.advanceNextRound Core.LeadsTo Core.getConsensusBlock
  rw [he, hhash]
  cases c.decoded env d with
  | some b => exact proposes_broadcast ⟨v.epoch, succ64 v.round⟩ [] (by simp)
  | none =>
    cases S.absent with
    | notFoundKey =>
      rw [and_iff_right rfl]
      exact proposes_broadcast ⟨v.epoch, succ64 v.round⟩
        [.create (c.generatorBlock env v.epoch)] (by simp)
    | other =>
      refine iff_of_false ?_ (by simp)
      rintro ⟨b, -, hsub⟩
      exact absurd (hsub (List.mem_cons_self ..)) List.not_mem_nil

/-- `advanceNextRound` proposes for no view but the one after, and for none at all after the largest
round, where `Round + 1` wraps to the smallest. -/
theorem advanceNextRound_view {v v' : View} {flag : Action} {d h : Digest}
    (hp : (c.advanceNextRound S env v flag d).Proposes S c.name v' h) :
    v' = ⟨v.epoch, succ64 v.round⟩ := by
  obtain ⟨outs, e, hnext, -, heq⟩ := advanceNextRound_spec S env c v flag d
  obtain ⟨b, -, hsub⟩ := hp
  rw [heq] at hsub
  have hmem := hsub (List.mem_cons_self ..)
  obtain ⟨hepoch, hround⟩ : v'.epoch = v.epoch ∧ v'.round = succ64 v.round := by
    cases hnext with
    | fail => cases hmem
    | get b' hb => exact (by simpa [broadcast] using hmem : b = b' ∧ _ ∧ _).2
    | create ha =>
      exact (by simpa [broadcast] using hmem : b = c.generatorBlock env v.epoch ∧ _ ∧ _).2
  rw [← hepoch, ← hround]

/-- A vote that `Append` answers with an action is the first vote of its author. -/
theorem first?_of_answered {votes : List FinVote} {fv : FinVote} {action : Action}
    (h : ((Mealy.run (FinVoteAggreator.append S) {} votes).1.append S fv).2 = .ok action) :
    Repeats.first? FinVote.author (votes ++ [fv]) fv.author = some fv := by
  have hcounts := (FinVoteAggreator.run_spec S votes).1
  have hnew : fv.author ∉ (Mealy.run (FinVoteAggreator.append S) {} votes).1.authors := by
    intro hmem
    rw [FinVoteAggreator.append_again hmem] at h
    cases h
  exact Repeats.first?_concat_self (hcounts.notMem_iff.mp hnew)

/-- A node has given the aggregator of a view the final votes `votes`, and takes one more that is
answered with `ACTION_YES`. All counted votes for yes carry the hash `h`, and the store holds the
block of that hash. Then the node broadcasts a phase-one proposal of that block for the next round
exactly when the round has a next one in `int64`, and the last vote is for yes, or carries `h` as
well, or its digest leads to a block of the same hash by accident. -/
theorem mixed_adopts_iff {votes : List FinVote} {fv : FinVote} {h : Digest}
    (hgiven : c.aggreator.finvoteAggreator fv.view =
      (Mealy.run (FinVoteAggreator.append S) {} votes).1)
    (he : c.messgaeFilter fv.epoch = false) (hanswer : (c.aggreator.addFinVote S fv).2 = .ok .yes)
    (hyes : ∀ w, Repeats.first? FinVote.author (votes ++ [fv]) w.author = some w → w.flag = .yes →
      w.blockHash = h)
    (hstore : ∃ b, c.store h = some b ∧ S.hash b = h) :
    (c.handleFinvote S env fv).Proposes S c.name ⟨fv.epoch, fv.round + 1⟩ h ↔
      fv.round ≠ maxInt64 ∧
        (fv.flag = .yes ∨ fv.blockHash = h ∨ c.LeadsTo S env fv.epoch fv.blockHash h) := by
  obtain ⟨b, hb, hhash⟩ := hstore
  have hlast : ((Mealy.run (FinVoteAggreator.append S) {} votes).1.append S fv).2 = .ok .yes := by
    rw [← hgiven]
    exact hanswer
  have hfirst := first?_of_answered hlast
  -- A vote for yes carries `h`, and `h` leads to the block in the store.
  have hcarries : fv.flag = .yes → fv.blockHash = h := hyes fv hfirst
  have hleads : fv.blockHash = h → c.LeadsTo S env fv.epoch fv.blockHash h := by
    intro heq
    unfold Core.LeadsTo
    rw [heq, Core.decoded_of_store hb]
    exact hhash
  have hhandle : c.handleFinvote S env fv =
      Core.advanceNextRound S env { c with aggreator := (c.aggreator.addFinVote S fv).1 }
        fv.view .yes fv.blockHash := by
    unfold Core.handleFinvote
    rw [he, if_neg (by decide), ← Prod.mk.eta (p := c.aggreator.addFinVote S fv), hanswer]
  rw [hhandle]
  by_cases hround : fv.round = maxInt64
  · -- The proposal is for the smallest round, if there is one.
    refine iff_of_false (fun hp => ?_) fun hcond => hcond.1 hround
    have hview := congrArg View.round (advanceNextRound_view hp)
    simp only [FinVote.view, hround] at hview
    exact absurd hview (by decide)
  rw [← succ64_of_ne hround, and_iff_right hround]
  refine Iff.trans (advanceNextRound_yes_iff he) ⟨fun hl => .inr (.inr hl), ?_⟩
  rintro (hflag | heq | hl)
  · exact hleads (hcarries hflag)
  · exact hleads heq
  · exact hl

/-! ## Two orders of the same votes -/

/-- The final vote of a node for the block of `0`. -/
def voteYes (q : NodeID) : FinVote := ⟨q, 0, 0, 0, .yes, demoHash 0⟩

/-- The final vote of a node that has seen a quorum of prevotes for no. -/
def voteNo (q : NodeID) : FinVote := ⟨q, 0, 0, 0, .no, 0⟩

/-- A first round with a mixed quorum in which node `2` has taken two of the final votes. -/
def mixedVotes (votes : List FinVote) : List Act :=
  mixedRound.take (mixedRound.length - 3) ++ votes.map fun fv => .deliver 2 (.finVote fv)

/-- Node `2` has taken the votes, all counted votes for yes are for the block of `0`, which it has,
and the vote `fv` is answered with `ACTION_YES`. -/
def MixedAt (c : Core) (votes : List FinVote) (fv : FinVote) : Prop :=
  c.aggreator.finvoteAggreator fv.view =
      (Mealy.run (FinVoteAggreator.append (demo 4 0)) {} votes).1 ∧
    c.messgaeFilter fv.epoch = false ∧ (c.aggreator.addFinVote (demo 4 0) fv).2 = .ok .yes ∧
    (∀ w ∈ votes ++ [fv], w.flag = .yes → w.blockHash = demoHash 0) ∧
    c.store (demoHash 0) = some (demoBlock 0 0)

instance (c : Core) (votes : List FinVote) (fv : FinVote) : Decidable (MixedAt c votes fv) :=
  inferInstanceAs (Decidable (_ ∧ _))

/-- The vote for no comes first: node `2` proposes the block of `0`. -/
theorem mixed_adopts_last_yes : ∃ s : Net, Run (demo 4 0) Always s ∧
    MixedAt (s.nodes 2).core [voteNo 2, voteYes 0] (voteYes 1) ∧
    ((s.nodes 2).core.handleFinvote (demo 4 0) (fullEnv 2) (voteYes 1)).Proposes (demo 4 0)
      (s.nodes 2).core.name ⟨0, 1⟩ (demoHash 0) := by
  obtain ⟨s, hr, hs⟩ := exists_run (demo 4 0) Always [0, 1, 2, 3] (mixedVotes [voteNo 2, voteYes 0])
    (fun nodes => decide (MixedAt (nodes 2).core [voteNo 2, voteYes 0] (voteYes 1)))
    (by decide) (by decide +kernel)
  obtain ⟨hgiven, he, hanswer, hyes, hstore⟩ := of_decide_eq_true hs
  refine ⟨s, hr, ⟨hgiven, he, hanswer, hyes, hstore⟩, ?_⟩
  refine (mixed_adopts_iff hgiven he hanswer (fun w hw => ?_) ⟨_, hstore, rfl⟩).mpr ?_
  · exact hyes w (Repeats.mem_of_first? hw).1
  · exact ⟨by decide, .inl rfl⟩

/-- The vote for no comes last: node `2` proposes nothing. -/
theorem mixed_not_adopted : ∃ s : Net, Run (demo 4 0) Always s ∧
    MixedAt (s.nodes 2).core [voteYes 0, voteYes 1] (voteNo 2) ∧
    .finVote (voteNo 2) ∈ (s.nodes 2).sentTo 2 ∧
    ¬ ((s.nodes 2).core.handleFinvote (demo 4 0) (fullEnv 2) (voteNo 2)).Proposes (demo 4 0)
      (s.nodes 2).core.name ⟨0, 1⟩ (demoHash 0) := by
  obtain ⟨s, hr, hs⟩ := exists_run (demo 4 0) Always [0, 1, 2, 3]
    (mixedVotes [voteYes 0, voteYes 1])
    (fun nodes => decide (MixedAt (nodes 2).core [voteYes 0, voteYes 1] (voteNo 2) ∧
      .finVote (voteNo 2) ∈ (nodes 2).sentTo 2 ∧
      ((nodes 2).core.handleFinvote (demo 4 0) (fullEnv 2) (voteNo 2)).out = []))
    (by decide) (by decide +kernel)
  obtain ⟨hmixed, hsent, hout⟩ := of_decide_eq_true hs
  refine ⟨s, hr, hmixed, hsent, ?_⟩
  rintro ⟨b, -, hsub⟩
  rw [hout] at hsub
  exact absurd (hsub (List.mem_cons_self ..)) List.not_mem_nil

end SMVBA
