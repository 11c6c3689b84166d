import SMVBA.Library.Repeats
import SMVBA.Rules.Votes
import SMVBA.Rules.Blocks
import SMVBA.Network.Exec

/-!
# Repeated votes

A node counts one `Finish`, `Done`, `ElectShare`, `Prevote` and `FinVote` of each author in each
view. A second one finds its author in the aggregator, whatever else it says, and the handler
returns an error that is only logged, or, for a share, no error at all. What the aggregators know is
never lost, and the epoch filter, which may drop a first message before it is counted, drops every
later one of the view too. So a node that never gets the second messages is in the same state and
has sent the same (`duplicates_suppressed`).
-/

namespace SMVBA

variable {S : Setup} {env : Env} {i : Input} {x0 x y : Hist} {outs : List Output} {c : Core}

/-! ## The keys of votes -/

/-- The kinds of messages of which a node counts one for each author and view. -/
inductive VoteKind where
  | finish
  | done
  | electShare
  | prevote
  | finVote
deriving DecidableEq, Repr

/-- What a vote is counted under. -/
structure VoteKey where
  kind : VoteKind
  author : NodeID
  view : View
deriving DecidableEq

/-- The key of a message, if it is a vote. -/
def Message.voteKey? : Message → Option VoteKey
  | .finish f => some ⟨.finish, f.author, f.view⟩
  | .done d => some ⟨.done, d.author, d.view⟩
  | .electShare s => some ⟨.electShare, s.author, s.view⟩
  | .prevote p => some ⟨.prevote, p.author, p.view⟩
  | .finVote v => some ⟨.finVote, v.author, v.view⟩
  | _ => none

/-- The authors whose vote of a kind is counted in a view. -/
def Core.voters (c : Core) (v : View) : VoteKind → Finset NodeID
  | .finish => (c.aggreator.finishAggreator v).authors
  | .done => (c.aggreator.doneAggreator v).authors
  | .electShare => (c.elector.electAggreators v).authors
  | .prevote => (c.aggreator.prevoteAggreator v).authors
  | .finVote => (c.aggreator.finvoteAggreator v).authors

/-- The vote is counted, or its epoch is over. -/
def Core.Counted (c : Core) (k : VoteKey) : Prop :=
  k.view.epoch < c.epoch ∨ k.author ∈ c.voters k.view k.kind

/-! ## The aggregators -/

section Append

variable {a : Aggreator} {e : Elector}

theorem addFinishVote_again {f : Finish} (h : f.author ∈ (a.finishAggreator f.view).authors) :
    a.addFinishVote S f = (a, .error (.oneMoreMessage f.epoch f.round f.author)) := by
  unfold Aggreator.addFinishVote FinishAggreator.append
  simp [if_pos h]

theorem addDoneVote_again {d : Done} (h : d.author ∈ (a.doneAggreator d.view).authors) :
    a.addDoneVote S d = (a, .error (.oneMoreMessage d.epoch d.round d.author)) := by
  unfold Aggreator.addDoneVote DoneAggreator.append
  simp [if_pos h]

theorem addPreVote_again {v : Prevote} (h : v.author ∈ (a.prevoteAggreator v.view).authors) :
    a.addPreVote S v = (a, .error (.oneMoreMessage v.epoch v.round v.author)) := by
  unfold Aggreator.addPreVote PreVoteAggreator.append
  simp [if_pos h]

theorem addFinVote_again {v : FinVote} (h : v.author ∈ (a.finvoteAggreator v.view).authors) :
    a.addFinVote S v = (a, .error (.oneMoreMessage v.epoch v.round v.author)) := by
  unfold Aggreator.addFinVote FinVoteAggreator.append
  simp [if_pos h]

/-- The error of `Append` is swallowed here. -/
theorem addShareVote_again {s : ElectShare} (h : s.author ∈ (e.electAggreators s.view).authors) :
    e.addShareVote S s = (e, .ok NONE) := by
  unfold Elector.addShareVote ElectAggreator.append
  simp [if_pos h]

theorem finish_counted (f : Finish) :
    f.author ∈ ((a.addFinishVote S f).1.finishAggreator f.view).authors := by
  unfold Aggreator.addFinishVote FinishAggreator.append
  split_ifs with h <;> simp [h]

theorem done_counted (d : Done) :
    d.author ∈ ((a.addDoneVote S d).1.doneAggreator d.view).authors := by
  unfold Aggreator.addDoneVote DoneAggreator.append
  split_ifs with h <;> simp [h]

theorem prevote_counted (v : Prevote) :
    v.author ∈ ((a.addPreVote S v).1.prevoteAggreator v.view).authors := by
  have hcount := ((a.prevoteAggreator v.view).count_cases v).1
  unfold Aggreator.addPreVote PreVoteAggreator.append
  dsimp only
  split_ifs with h <;> simp [h, hcount]

theorem finVote_counted (v : FinVote) :
    v.author ∈ ((a.addFinVote S v).1.finvoteAggreator v.view).authors := by
  have hcount := ((a.finvoteAggreator v.view).count_cases v).1
  unfold Aggreator.addFinVote FinVoteAggreator.append
  split_ifs with h <;> simp [h, hcount]

theorem share_counted (s : ElectShare) :
    s.author ∈ ((e.addShareVote S s).1.electAggreators s.view).authors := by
  rw [electAggreators_addShareVote]
  split_ifs with h
  · exact h
  · exact Finset.mem_insert_self ..

end Append

/-! ## The handlers -/

/-- A vote that is counted changes nothing and sends nothing. -/
theorem handle_of_counted (S : Setup) (env : Env) {m : Message} {k : VoteKey}
    (hm : m.voteKey? = some k)
    (hk : c.Counted k) : ∃ e, e ≠ some .panic ∧ c.handle S env m = ⟨c, [], e⟩ := by
  by_cases hfilter : c.messgaeFilter k.view.epoch = true
  · -- The filter comes first in every handler.
    refine ⟨none, by simp, ?_⟩
    cases m with
    | finish f | done f | electShare f | prevote f | finVote f =>
      cases hm
      exact if_pos hfilter
    | _ => cases hm
  have hauthor : k.author ∈ c.voters k.view k.kind :=
    hk.resolve_left fun h => hfilter (decide_eq_true h)
  cases m with
  | finish f =>
    cases hm
    refine ⟨some (.oneMoreMessage f.epoch f.round f.author), by simp, (if_neg hfilter).trans ?_⟩
    rw [addFinishVote_again hauthor]
  | done d =>
    cases hm
    refine ⟨some (.oneMoreMessage d.epoch d.round d.author), by simp, (if_neg hfilter).trans ?_⟩
    rw [addDoneVote_again hauthor]
  | electShare s =>
    cases hm
    refine ⟨none, by simp, (if_neg hfilter).trans ?_⟩
    rw [addShareVote_again hauthor]
    exact if_neg fun h => h rfl
  | prevote v =>
    cases hm
    refine ⟨some (.oneMoreMessage v.epoch v.round v.author), by simp, (if_neg hfilter).trans ?_⟩
    rw [addPreVote_again hauthor]
  | finVote v =>
    cases hm
    refine ⟨some (.oneMoreMessage v.epoch v.round v.author), by simp, (if_neg hfilter).trans ?_⟩
    rw [addFinVote_again hauthor]
  | _ => cases hm

theorem invokeDoneAndShare_aggreator (S : Setup) (c : Core) (v : View) :
    (c.invokeDoneAndShare S v).core.aggreator = c.aggreator := by
  unfold Core.invokeDoneAndShare
  split_ifs <;> rfl

theorem advanceNextRound_core (S : Setup) (env : Env) (c : Core) (v : View)
    (flag : Action) (d : Digest) :
    (c.advanceNextRound S env v flag d).core = c := by
  obtain ⟨outs, e, -, -, h⟩ := advanceNextRound_spec S env c v flag d
  rw [h]

/-! What a handler does after its aggregator has answered leaves the aggregators alone. -/

section Handlers

variable {c : Core}

theorem handleFinish_aggreator {f : Finish} (hfilter : ¬ c.messgaeFilter f.epoch = true) :
    (c.handleFinish S f).core.aggreator = (c.aggreator.addFinishVote S f).1 := by
  unfold Core.handleFinish
  rw [if_neg hfilter]
  split
  case h_1 a e heq => rw [heq]
  case h_2 a flag heq =>
    rw [heq]
    dsimp only
    split_ifs
    · rw [invokeDoneAndShare_aggreator]
    · rfl

theorem handleDone_aggreator {d : Done} (hfilter : ¬ c.messgaeFilter d.epoch = true) :
    (c.handleDone S d).core.aggreator = (c.aggreator.addDoneVote S d).1 := by
  unfold Core.handleDone
  rw [if_neg hfilter]
  split
  case h_1 a e heq => rw [heq]
  case h_2 a heq => rw [heq, invokeDoneAndShare_aggreator]
  case h_3 a heq => rw [heq, processLeader_core]
  case h_4 a heq =>
    rw [heq]
    rfl

theorem handleElectShare_elector {s : ElectShare} (hfilter : ¬ c.messgaeFilter s.epoch = true) :
    (c.handleElectShare S s).core.elector = (c.elector.addShareVote S s).1 := by
  unfold Core.handleElectShare
  rw [if_neg hfilter]
  split
  case h_1 e err heq => rw [heq]
  case h_2 e leader heq =>
    rw [heq]
    dsimp only
    split_ifs
    · rw [processLeader_core]
    · rfl

theorem handlePrevote_aggreator {v : Prevote} (hfilter : ¬ c.messgaeFilter v.epoch = true) :
    (c.handlePrevote S v).core.aggreator = (c.aggreator.addPreVote S v).1 := by
  unfold Core.handlePrevote
  rw [if_neg hfilter]
  split
  case h_1 a e heq | h_2 a heq | h_3 a heq => rw [heq]
  case h_4 a heq =>
    rw [heq]
    rfl

theorem handleFinvote_aggreator (env : Env) {v : FinVote}
    (hfilter : ¬ c.messgaeFilter v.epoch = true) :
    (c.handleFinvote S env v).core.aggreator = (c.aggreator.addFinVote S v).1 := by
  unfold Core.handleFinvote
  rw [if_neg hfilter]
  split
  case h_1 a e heq => rw [heq]
  case h_2 a heq | h_3 a heq => rw [heq, advanceNextRound_core]
  case h_4 a heq => rw [heq]
  case h_5 a heq =>
    rw [heq]
    rfl

end Handlers

/-- A vote is counted by its handler, or its epoch is over. -/
theorem counted_of_handle (S : Setup) (env : Env) {m : Message} {k : VoteKey}
    (hm : m.voteKey? = some k) :
    (c.handle S env m).core.Counted k := by
  by_cases hfilter : c.messgaeFilter k.view.epoch = true
  · -- The filter drops it and leaves the core as it is.
    have hepoch : k.view.epoch < c.epoch := of_decide_eq_true hfilter
    obtain ⟨e, -, heq⟩ := handle_of_counted S env hm (.inl hepoch)
    rw [heq]
    exact .inl hepoch
  refine .inr ?_
  cases m with
  | finish f =>
    cases hm
    have hcore := handleFinish_aggreator (S := S) hfilter
    have hcounted := finish_counted (S := S) (a := c.aggreator) f
    rw [← hcore] at hcounted
    exact hcounted
  | done d =>
    cases hm
    have hcore := handleDone_aggreator (S := S) hfilter
    have hcounted := done_counted (S := S) (a := c.aggreator) d
    rw [← hcore] at hcounted
    exact hcounted
  | electShare s =>
    cases hm
    have hcore := handleElectShare_elector (S := S) hfilter
    have hcounted := share_counted (S := S) (e := c.elector) s
    rw [← hcore] at hcounted
    exact hcounted
  | prevote v =>
    cases hm
    have hcore := handlePrevote_aggreator (S := S) hfilter
    have hcounted := prevote_counted (S := S) (a := c.aggreator) v
    rw [← hcore] at hcounted
    exact hcounted
  | finVote v =>
    cases hm
    have hcore := handleFinvote_aggreator (S := S) env hfilter
    have hcounted := finVote_counted (S := S) (a := c.aggreator) v
    rw [← hcore] at hcounted
    exact hcounted
  | _ => cases hm

/-! ## Runs -/

/-- A rule takes no author out of an aggregator. -/
theorem Rule.voters_subset (h : Rule S env i x0 x y) (v : View) (k : VoteKind) :
    x.core.voters v k ⊆ y.core.voters v k := by
  cases k with
  | finish =>
    rcases h.finish_cases v with heq | ⟨f, -, -, heq⟩ <;> simp only [Core.voters, heq]
    exacts [subset_rfl, Finset.subset_insert _ _]
  | done =>
    rcases h.done_cases v with heq | ⟨f, -, -, heq⟩ <;> simp only [Core.voters, heq]
    exacts [subset_rfl, Finset.subset_insert _ _]
  | electShare =>
    rcases h.share_cases v with heq | ⟨s, -, -, heq⟩ <;> simp only [Core.voters, heq]
    exacts [subset_rfl, Finset.subset_insert _ _]
  | prevote =>
    cases h.prevoteChange v with
    | same heq => simp only [Core.voters, heq, subset_rfl]
    | count pv _ _ _ _ heq | flag pv _ _ _ heq =>
      simp only [Core.voters, heq, (PreVoteAggreator.count_cases _ pv).1, Finset.subset_insert]
  | finVote =>
    rcases h.finVote_cases v with heq | ⟨f, -, -, -, heq⟩
    · simp only [Core.voters, heq, subset_rfl]
    · simp only [Core.voters, heq, (FinVoteAggreator.count_cases _ f).1, Finset.subset_insert]

/-- What is counted stays counted. -/
theorem Core.Counted.step (h : x.step S env i = some (y, outs)) {k : VoteKey}
    (hk : x.core.Counted k) :
    y.core.Counted k := by
  refine step_invariant (I := fun z => z.core.Counted k) (fun hrule hz => ?_) h hk
  exact hz.imp (fun he => lt_of_lt_of_le he hrule.epoch_le) fun ha => hrule.voters_subset _ _ ha

/-- What a node shows: its state, what it has let out, and its decisions. The messages that it took
are not among it. -/
def Hist.shown (x : Hist) : Node × List Output × List Halt := (x.toNode, x.out, x.decided)

/-- One input of a sequence. -/
def Hist.next (S : Setup) (x : Hist) (a : Env × Input) : Option Hist :=
  (x.step S a.1 a.2).map Prod.fst

/-- The key of an input, if it is a vote. -/
def voteKey? (a : Env × Input) : Option VoteKey := a.2.msg?.bind Message.voteKey?

theorem Hist.exists_of_next {a : Env × Input} (h : x.next S a = some y) :
    ∃ outs, x.step S a.1 a.2 = some (y, outs) := by
  obtain ⟨⟨y, outs⟩, hstep, rfl⟩ := Option.map_eq_some_iff.mp h
  exact ⟨outs, hstep⟩

/-- What an input shows is read off what the node shows. -/
theorem Hist.next_shown {a : Env × Input} : (x.next S a).map Hist.shown =
    (x.toNode.outcome S a.1 a.2).map fun o =>
      (x.toNode.after a.2 o, x.out ++ o.out, x.decided ++ Hist.newHalt x.core o.core a.2) := by
  unfold Hist.next Hist.step
  cases x.toNode.outcome S a.1 a.2 <;> rfl

/-- A step on a vote runs its handler. -/
theorem next_vote {a : Env × Input} {k : VoteKey} (h : x.next S a = some y)
    (hk : voteKey? a = some k) :
    ∃ m, a.2 = .msg m ∧ m.voteKey? = some k ∧ x.status = .running ∧
      y.shown = (x.toNode.after a.2 (x.core.handle S a.1 m), x.out ++ (x.core.handle S a.1 m).out,
        x.decided ++ Hist.newHalt x.core (x.core.handle S a.1 m).core a.2) := by
  obtain ⟨m, hi, hm⟩ := Option.bind_eq_some_iff.mp hk
  obtain ⟨env, i⟩ := a
  cases i with
  | msg m' =>
    cases hi
    have hshown := congrArg (Option.map Hist.shown) h
    rw [Hist.next_shown] at hshown
    by_cases hrun : x.status = .running
    · simp only [Node.outcome, hrun, if_true, Option.map_some] at hshown
      exact ⟨m, rfl, hm, hrun, (Option.some.inj hshown).symm⟩
    · simp [Node.outcome, hrun] at hshown
  | _ => cases hi

/-- A node ignores the votes that it has counted. -/
theorem ignores_counted (S : Setup) : Repeats.Ignores (Hist.next S) Hist.shown voteKey?
    (fun z k => z.1.core.Counted k) where
  congr {x x' y a} hview h := by
    have hshown : (x'.next S a).map Hist.shown = some y.shown := by
      obtain ⟨hnode, hout, hdecided⟩ :
        x'.toNode = x.toNode ∧ x'.out = x.out ∧ x'.decided = x.decided := by
        simpa [Hist.shown] using hview
      rw [Hist.next_shown, hnode, hout, hdecided, ← Hist.next_shown, h, Option.map_some]
    exact Option.map_eq_some_iff.mp hshown
  absorb h hk := by
    obtain ⟨m, -, hm, -, hshown⟩ := next_vote h hk
    rw [hshown]
    exact counted_of_handle S _ hm
  keep h hk := by
    obtain ⟨outs, hstep⟩ := Hist.exists_of_next h
    exact Core.Counted.step hstep hk
  ignore {x y a k} h hk hcounted := by
    obtain ⟨m, hi, hm, hrun, hshown⟩ := next_vote h hk
    obtain ⟨e, he, hhandle⟩ := handle_of_counted (c := x.core) S a.1 hm hcounted
    rw [hshown, hhandle, hi]
    cases m with
    | finish f | done f | electShare f | prevote f | finVote f =>
      simp [Node.after, Node.tasksAfter, he, Hist.newHalt, Hist.shown, ← hrun]
    | _ => cases hm

/-- For every sequence of inputs that a node handles, the sequence without the votes that are not
the first of their kind, author and view leaves the node in the same state, with the same decisions
and the same outputs. -/
theorem duplicates_suppressed (S : Setup) (name : NodeID) (inputs : List (Env × Input))
    (h : inputs.foldlM (Hist.next S) (Hist.init name) = some x) :
    ∃ x', (Repeats.firsts voteKey? [] inputs).foldlM (Hist.next S) (Hist.init name) = some x' ∧
      x'.toNode = x.toNode ∧ x'.out = x.out ∧ x'.decided = x.decided := by
  have hseen : ∀ k ∈ ([] : List VoteKey), (Hist.init name).shown.1.core.Counted k := by simp
  obtain ⟨x', hx', hshown⟩ := (ignores_counted S).exists_firsts hseen rfl h
  simp only [Hist.shown, Prod.mk.injEq] at hshown
  exact ⟨x', hx', hshown⟩

/-- A node takes two `Finish` messages of one author in one view, for different blocks. -/
def repeatedFinish : List (Env × Input) :=
  [(fullEnv 0, .start), (fullEnv 0, .msg (.finish ⟨1, demoHash 1, 0, 0⟩)),
    (fullEnv 0, .msg (.finish ⟨1, demoHash 2, 0, 0⟩))]

/-- The second one leaves nothing behind. -/
theorem duplicates_suppressed_finish : ∃ x x',
    repeatedFinish.foldlM (Hist.next (demo 4 0)) (Hist.init 0) = some x ∧
    (repeatedFinish.take 2).foldlM (Hist.next (demo 4 0)) (Hist.init 0) = some x' ∧
    x'.toNode = x.toNode ∧ x'.out = x.out ∧ x'.decided = x.decided := by
  have hsome : (repeatedFinish.foldlM (Hist.next (demo 4 0)) (Hist.init 0)).isSome = true := by
    decide +kernel
  obtain ⟨x, hx⟩ := Option.isSome_iff_exists.mp hsome
  obtain ⟨x', hx', hsame⟩ := duplicates_suppressed (demo 4 0) 0 repeatedFinish hx
  exact ⟨x, x', hx, hx', hsame⟩

end SMVBA
