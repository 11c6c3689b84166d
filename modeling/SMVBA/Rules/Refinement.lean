import SMVBA.Rules.Basic

/-!
# Every step is a chain of rules

`step_rules` is the link between the handlers and the rules: whatever input a node takes, its
history after the step is reached from its history before by rules. There is one lemma for each
handler, which follows the branches of the code, and `step_invariant` is what the rest of the
development uses.
-/

namespace SMVBA

variable {S : Setup} {env : Env} {i : Input} {x0 z : Hist}

/-! ## Outcomes on a history -/

/-- A history after a handler's outcome, with the spawned calls taken up. -/
def Hist.apply (z : Hist) (o : Outcome) : Hist :=
  { z with
    core := o.core
    tasks := z.tasks ++ o.out.filterMap Output.task?
    out := z.out ++ o.out
    status := if o.err = some .panic then .crashed else .running }

/-- An outcome that spawns nothing and does not panic. -/
theorem Hist.apply_eq (hz : z.status = .running) {o : Outcome}
    (ht : o.out.filterMap Output.task? = []) (he : o.err ≠ some .panic) :
    z.apply o = { z with core := o.core, out := z.out ++ o.out } := by
  simp [Hist.apply, ht, he, hz]

/-- An outcome that lets nothing out. -/
theorem Hist.apply_core (hz : z.status = .running) (c : Core) {e : Option Err}
    (he : e ≠ some .panic) : z.apply ⟨c, [], e⟩ = { z with core := c } := by
  rw [Hist.apply_eq hz rfl he, List.append_nil]

/-- An outcome that changes nothing. -/
theorem Hist.apply_quiet (hz : z.status = .running) {e : Option Err} (he : e ≠ some .panic) :
    z.apply ⟨z.core, [], e⟩ = z := by
  rw [Hist.apply_core hz _ he]

/-- A panic that lets nothing out. -/
theorem Hist.apply_panic (c : Core) :
    z.apply ⟨c, [], some .panic⟩ = { z with core := c, status := .crashed } := by
  simp [Hist.apply]

/-- The code after a call that returned no error acts on the history after the call. -/
theorem Hist.apply_bind {o : Outcome} (ho : o.err = none) (f : Core → Outcome) :
    z.apply (o.bind f) = (z.apply o).apply (f o.core) := by
  simp [Hist.apply, Outcome.bind, ho]

/-- `sendVote` spawns nothing. -/
@[simp] theorem filterMap_sendVote (c : Core) (v : SPBVote) :
    (c.sendVote v).filterMap Output.task? = [] := by
  unfold Core.sendVote
  split_ifs <;> rfl

/-- The answer to a vote spawns nothing. -/
@[simp] theorem filterMap_voteOutput (c : Core) (v : SPBVote) (d : Digest) (n : ℕ) :
    (c.voteOutput S v d n).filterMap Output.task? = [] := by
  unfold Core.voteOutput
  split_ifs
  · cases v.phase <;> rfl
  · rfl

/-- Commits spawn nothing. -/
@[simp] theorem filterMap_commit (bs : List ConsensusBlock) :
    (bs.map Output.commit).filterMap Output.task? = [] := by
  simp [Output.task?, List.filterMap_map, Function.comp_def]

/-- Outputs of `processLeader` spawn nothing. -/
theorem LeaderOut.filterMap_task {c : Core} {v : View} {outs : List Output}
    (h : LeaderOut c v outs) : outs.filterMap Output.task? = [] := by
  cases h <;> rfl

/-- Outputs of `advanceNextRound` spawn nothing. -/
theorem NextOut.filterMap_task {c : Core} {v : View} {d : Digest} {outs : List Output}
    (h : NextOut S env c v d outs) : outs.filterMap Output.task? = [] := by
  cases h <;> rfl

/-- Outputs of `handleOutput` spawn nothing. -/
theorem HaltOut.filterMap_task {c : Core} {d : Digest} {k : Committor} {outs : List Output}
    (h : HaltOut S env c d k outs) : outs.filterMap Output.task? = [] := by
  cases h with
  | commit b hb hm => exact filterMap_commit _
  | sync b hb hm => rfl
  | absent hb ha => rfl

/-- A halt whose handling leaves its flag alone is not noted. -/
theorem Hist.newHalt_of_eq {c c' : Core} {h : Halt}
    (he : c'.haltFlags h.epoch = c.haltFlags h.epoch) :
    Hist.newHalt c c' (.msg (.halt h)) = [] := by
  cases hf : c.haltFlags h.epoch <;> simp [Hist.newHalt, he, hf]

/-- A halt whose handling sets its flag is noted. -/
theorem Hist.newHalt_of_set {c c' : Core} {h : Halt} (hc : c.haltFlags h.epoch = false)
    (hc' : c'.haltFlags h.epoch = true) : Hist.newHalt c c' (.msg (.halt h)) = [h] :=
  if_pos ⟨hc, hc'⟩

/-- An outcome that changes nothing takes no rule. -/
theorem rules_quiet (hz : z.status = .running) {e : Option Err} (he : e ≠ some .panic) :
    Rules S env i x0 z (z.apply ⟨z.core, [], e⟩) := by
  rw [Hist.apply_quiet hz he]

/-! ## The fragments that several handlers share -/

/-- `processLeader` changes nothing but what it sends, and it panics only without a block hash. -/
theorem processLeader_spec (c : Core) (v : View) :
    ∃ outs, LeaderOut c v outs ∧
      (c.processLeader v = ⟨c, outs, none⟩ ∨ c.processLeader v = ⟨c, [], some .panic⟩ ∧
        outs = []) := by
  unfold Core.processLeader
  split_ifs with h
  · obtain ⟨hr, hl⟩ := h
    dsimp only
    split
    next d hd => exact ⟨_, .halt d hr hl hd, .inl rfl⟩
    next hd =>
      split_ifs with hlock
      · split
        next hb => exact ⟨_, .none, .inr ⟨rfl, rfl⟩⟩
        next b hb => exact ⟨_, .yes b hr hl hlock hb, .inl rfl⟩
      · exact ⟨_, .no hr hl (by simpa using hlock), .inl rfl⟩
  · exact ⟨_, .none, .inl rfl⟩

theorem processLeader_core (c : Core) (v : View) : (c.processLeader v).core = c := by
  obtain ⟨outs, -, h | ⟨h, -⟩⟩ := processLeader_spec c v <;> rw [h]

/-- `processLeader` reads only a few fields of the core. -/
theorem LeaderOut.of_core {c c' : Core} {v : View} {outs : List Output} (h : LeaderOut c v outs)
    (hn : c'.name = c.name) (hr : c'.readyFlags = c.readyFlags)
    (hl : c'.elector.leaders = c.elector.leaders) (hf : c'.finishFlags = c.finishFlags)
    (hs : c'.spbInstances = c.spbInstances) : LeaderOut c' v outs := by
  have hl' : c'.elector.leader v = c.elector.leader v := congrFun hl v
  cases h with
  | none => exact .none
  | halt d hready hleader hd =>
    rw [← hn, ← hl']
    exact .halt d (by rwa [hr]) (by rwa [hl']) (by rwa [hf, hl'])
  | yes d hready hleader hlock hd =>
    rw [← hn, ← hl']
    exact .yes d (by rwa [hr]) (by rwa [hl']) (by rwa [hs, hl']) (by rwa [hs, hl'])
  | no hready hleader hlock =>
    rw [← hn, ← hl']
    exact .no (by rwa [hr]) (by rwa [hl']) (by rwa [hs, hl'])

/-- `getConsensusBlock` answers with the decoded block, or as the database does for an absent key.
-/
theorem getConsensusBlock_cases (S : Setup) (env : Env) (c : Core) (d : Digest) :
    (∃ b, c.decoded env d = some b ∧ c.getConsensusBlock S env d = .ok (some b)) ∨
      (c.decoded env d = none ∧ S.absent = .notFoundKey ∧
        c.getConsensusBlock S env d = .ok none) ∨
      (c.decoded env d = none ∧ S.absent = .other ∧
        c.getConsensusBlock S env d = .error .get) := by
  unfold Core.getConsensusBlock
  cases hb : c.decoded env d with
  | some b => exact .inl ⟨b, rfl, rfl⟩
  | none =>
    cases ha : S.absent with
    | notFoundKey => exact .inr (.inl ⟨rfl, rfl, rfl⟩)
    | other => exact .inr (.inr ⟨rfl, rfl, rfl⟩)

/-- `advanceNextRound` leaves the core alone, sends what `NextOut` allows, and does not panic. -/
theorem advanceNextRound_spec (S : Setup) (env : Env) (c : Core) (v : View) (flag : Action)
    (d : Digest) :
    ∃ outs e, NextOut S env c v (c.nextHash v flag d) outs ∧ e ≠ some .panic ∧
      c.advanceNextRound S env v flag d = ⟨c, outs, e⟩ := by
  unfold Core.advanceNextRound
  split_ifs with hf
  · exact ⟨_, _, .fail, by simp, rfl⟩
  · obtain ⟨b, hb, hg⟩ | ⟨hb, ha, hg⟩ | ⟨hb, ha, hg⟩ :=
      getConsensusBlock_cases S env c (c.nextHash v flag d)
    · exact ⟨_, none, .get b hb, by simp, by rw [hg]⟩
    · exact ⟨_, none, .create ha, by simp, by rw [hg]⟩
    · exact ⟨_, some .get, .fail, by simp, by rw [hg]⟩

/-- `advanceNextRound` reads only the name and the store of the core. -/
theorem NextOut.of_core {c c' : Core} {v : View} {d : Digest} {outs : List Output}
    (h : NextOut S env c v d outs) (hn : c'.name = c.name) (hs : c'.store = c.store) :
    NextOut S env c' v d outs := by
  have hblock : c'.generatorBlock env v.epoch = c.generatorBlock env v.epoch := by
    unfold Core.generatorBlock
    rw [hn]
  cases h with
  | fail => exact .fail
  | get b hb =>
    rw [← hn]
    exact .get b (by rwa [Core.decoded, hs])
  | create ha =>
    rw [← hn, ← hblock]
    exact .create ha

/-- `verifyAndCommit` either asks for missing payloads or commits. -/
theorem verifyAndCommit_cases (S : Setup) (env : Env) (c : Core) (b : ConsensusBlock) :
    (c.missing env b = [] ∧ c.verifyAndCommit S env b =
        ⟨{ c with commitor := (c.commitor.commit b).1 },
          (c.commitor.commit b).2.map .commit, none⟩) ∨
      (c.missing env b ≠ [] ∧ c.verifyAndCommit S env b =
        ⟨c, [.sync ⟨c.missing env b, b.proposer, b.epoch, S.hash b⟩], none⟩) := by
  unfold Core.verifyAndCommit Core.verifyConsensusBlock
  by_cases hm : c.missing env b = []
  · exact .inl ⟨hm, by simp [hm]⟩
  · exact .inr ⟨hm, by simp [hm]⟩

/-- `handleOutput` fails only on a block that cannot be read, and otherwise does what `HaltOut`
says. -/
theorem handleOutput_cases (S : Setup) (env : Env) (c : Core) (d : Digest) :
    (∃ k outs, HaltOut S env c d k outs ∧
        c.handleOutput S env d = ⟨{ c with commitor := k }, outs, none⟩) ∨
      (c.decoded env d = none ∧ S.absent = .other ∧
        c.handleOutput S env d = ⟨c, [], some .get⟩) := by
  unfold Core.handleOutput
  obtain ⟨b, hb, hg⟩ | ⟨hb, ha, hg⟩ | ⟨hb, ha, hg⟩ := getConsensusBlock_cases S env c d
  · rw [hg]
    obtain ⟨hm, hv⟩ | ⟨hm, hv⟩ := verifyAndCommit_cases S env c b
    · exact .inl ⟨_, _, .commit b hb hm, hv⟩
    · exact .inl ⟨_, _, .sync b hb hm, hv⟩
  · rw [hg]
    exact .inl ⟨_, _, .absent hb ha, rfl⟩
  · rw [hg]
    exact .inr ⟨hb, ha, rfl⟩

/-- A coin never names `NONE`. -/
theorem coinLeader_ne_none {coin : List UInt8} {leader : NodeID}
    (h : coinLeader S coin = some leader) : leader ≠ NONE := by
  unfold coinLeader at h
  split_ifs at h
  -- A leader is a remainder, and so not negative.
  have hpos : (0 : ℤ) ≤ leader := by
    rw [← Option.some.inj h]
    exact Int.natCast_nonneg _
  intro hn
  rw [hn] at hpos
  exact absurd hpos (by decide)

/-- `addShareVote` ignores a second share of one author, keeps a share, or elects with it. -/
theorem addShareVote_cases (S : Setup) (e : Elector) (s : ElectShare) :
    (s.author ∈ (e.electAggreators s.view).authors ∧ e.addShareVote S s = (e, .ok NONE)) ∨
      (s.author ∉ (e.electAggreators s.view).authors ∧
        ((∃ r, (r = .ok NONE ∨ r = .error .panic) ∧
          (∀ coin leader,
            ((e.electAggreators s.view).shares ++ [s.sigShare]).length = S.quorum →
            S.combineIntactTSPartial ((e.electAggreators s.view).shares ++ [s.sigShare])
              (S.electHash s.view) = some coin → coinLeader S coin ≠ some leader) ∧
          e.addShareVote S s = ({ e with
            electAggreators := Function.update e.electAggreators s.view
              ⟨(e.electAggreators s.view).shares ++ [s.sigShare],
                insert s.author (e.electAggreators s.view).authors⟩ }, r)) ∨
        ∃ coin leader,
          ((e.electAggreators s.view).shares ++ [s.sigShare]).length = S.quorum ∧
          S.combineIntactTSPartial ((e.electAggreators s.view).shares ++ [s.sigShare])
            (S.electHash s.view) = some coin ∧
          coinLeader S coin = some leader ∧
          e.addShareVote S s = (⟨Function.update e.leaders s.view leader,
            Function.update e.electAggreators s.view
              ⟨(e.electAggreators s.view).shares ++ [s.sigShare],
                insert s.author (e.electAggreators s.view).authors⟩⟩, .ok leader))) := by
  unfold Elector.addShareVote ElectAggreator.append
  by_cases hn : s.author ∈ (e.electAggreators s.view).authors
  · exact .inl ⟨hn, by simp [hn]⟩
  refine .inr ⟨hn, ?_⟩
  simp only [hn, if_false]
  by_cases hq : ((e.electAggreators s.view).shares ++ [s.sigShare]).length = S.quorum
  · simp only [if_pos hq]
    cases hc : S.combineIntactTSPartial ((e.electAggreators s.view).shares ++ [s.sigShare])
        (S.electHash s.view) with
    -- `CombineIntactTSPartial` fails, and its error is not passed on.
    | none => exact .inl ⟨_, .inl rfl, by simp, rfl⟩
    | some coin =>
      cases hl : coinLeader S coin with
      | none =>
        refine .inl ⟨_, .inr rfl, ?_, by simp [hl]⟩
        rintro coin' leader - heq hl'
        rw [← Option.some.inj heq, hl] at hl'
        cases hl'
      | some leader =>
        refine .inr ⟨coin, leader, hq, rfl, hl, ?_⟩
        simp [hl, coinLeader_ne_none hl, Elector.setLeader]
  · simp only [if_neg hq, ne_eq, not_true_eq_false, if_false]
    exact .inl ⟨_, .inl rfl, fun _ _ heq => absurd heq hq, rfl⟩

/-- The first share of an author is kept, and the author with it. -/
theorem electAggreators_addShareVote (S : Setup) (e : Elector) (s : ElectShare) :
    (e.addShareVote S s).1.electAggreators s.view =
      if s.author ∈ (e.electAggreators s.view).authors then e.electAggreators s.view
      else ⟨(e.electAggreators s.view).shares ++ [s.sigShare],
        insert s.author (e.electAggreators s.view).authors⟩ := by
  rcases addShareVote_cases S e s with ⟨ha, heq⟩ | ⟨ha, ⟨r, -, -, heq⟩ | ⟨coin, l, -, -, -, heq⟩⟩
  · rw [heq, if_pos ha]
  · rw [heq, if_neg ha]
    exact Function.update_self ..
  · rw [heq, if_neg ha]
    exact Function.update_self ..

/-- `invokeDoneAndShare` sends once for a view. -/
theorem rules_invokeDoneAndShare (hz : z.status = .running) (v : View)
    (hc : S.quorum ≤ (z.core.aggreator.finishAggreator v).authors.card ∨
      S.committee.lowThreshold ≤ (z.core.aggreator.doneAggreator v).authors.card) :
    Rules S env i x0 z (z.apply (z.core.invokeDoneAndShare S v)) := by
  unfold Core.invokeDoneAndShare
  split_ifs with hd
  · rw [Hist.apply_eq hz rfl (by simp)]
    exact .single (.doneShare v hd hc)
  · exact rules_quiet hz (by simp)

/-- The late commit of a proposal in hand: it returns no error and touches the committor only. -/
theorem rules_lateCommit (hz : z.status = .running) (hx : Untouched x0 z) {p : SPBProposal}
    (ho : Origin env i z p) :
    (z.core.lateCommit S env p).err = none ∧
      (∃ k, (z.core.lateCommit S env p).core = { z.core with commitor := k }) ∧
      (z.core.lateCommit S env p).out.filterMap Output.task? = [] ∧
      Rules S env i x0 z (z.apply (z.core.lateCommit S env p)) := by
  unfold Core.lateCommit
  split_ifs with h
  · obtain ⟨hp, hh, hl⟩ := h
    -- The block is committed, or the synchronizer is asked for its payloads.
    obtain ⟨hm, hv⟩ | ⟨hm, hv⟩ := verifyAndCommit_cases S env z.core p.b
    · rw [hv, Hist.apply_eq hz (filterMap_commit _) (by simp)]
      exact ⟨rfl, ⟨_, rfl⟩, filterMap_commit _, .single (.lateCommit p hp ho hx hh hl hm)⟩
    · rw [hv, Hist.apply_eq hz rfl (by simp)]
      exact ⟨rfl, ⟨_, rfl⟩, rfl, .single (.sync p hp ho hm)⟩
  · rw [Outcome.ret, Hist.apply_quiet hz (by simp)]
    exact ⟨rfl, ⟨_, rfl⟩, rfl, .refl⟩

/-! ## The handlers -/

/-- `handleFinish`. -/
theorem rules_handleFinish (hz : z.status = .running) {f : Finish} (hh : .finish f ∈ z.handled) :
    Rules S env i x0 z (z.apply (z.core.handleFinish S f)) := by
  unfold Core.handleFinish
  split_ifs with hfilter
  · exact rules_quiet hz (by simp)
  have he : z.core.epoch ≤ f.epoch := by simpa [Core.messgaeFilter] using hfilter
  unfold Aggreator.addFinishVote FinishAggreator.append
  -- A second `Finish` of one author is an error, and is not counted.
  by_cases hn : f.author ∈ (z.core.aggreator.finishAggreator f.view).authors
  · simp only [hn, if_true, Function.update_eq_self]
    exact rules_quiet hz (by simp)
  · simp only [hn, if_false]
    split_ifs with hq
    · -- This `Finish` completes the quorum.
      refine .head (.finish f hh he hn) (rules_invokeDoneAndShare ?_ _ (.inl ?_))
      · exact hz
      · simp only [Function.update_self]
        exact (of_decide_eq_true hq).ge
    · rw [Outcome.ret, Hist.apply_core hz _ (by simp)]
      exact .single (.finish f hh he hn)

/-- `handleDone`. -/
theorem rules_handleDone (hz : z.status = .running) {d : Done} (hi : i = .msg (.done d))
    (hh : .done d ∈ z.handled) (hx : Untouched x0 z) :
    Rules S env i x0 z (z.apply (z.core.handleDone S d)) := by
  unfold Core.handleDone
  split_ifs with hfilter
  · exact rules_quiet hz (by simp)
  have he : z.core.epoch ≤ d.epoch := by simpa [Core.messgaeFilter] using hfilter
  unfold Aggreator.addDoneVote DoneAggreator.append
  by_cases hn : d.author ∈ (z.core.aggreator.doneAggreator d.view).authors
  · simp only [hn, if_true, Function.update_eq_self]
    exact rules_quiet hz (by simp)
  simp only [hn, if_false]
  -- The low threshold is tried first: where it is the quorum too, the view never becomes ready.
  by_cases hlow : (insert d.author (z.core.aggreator.doneAggreator d.view).authors).card =
      S.committee.lowThreshold
  · simp only [if_pos hlow]
    refine .head (.done d hh he hn) (rules_invokeDoneAndShare ?_ _ (.inr ?_))
    · exact hz
    · simp only [Function.update_self]
      exact hlow.ge
  by_cases hq : (insert d.author (z.core.aggreator.doneAggreator d.view).authors).card = S.quorum
  · simp only [if_neg hlow, if_pos hq]
    obtain ⟨outs, hout, hp | ⟨hp, rfl⟩⟩ := processLeader_spec { z.core with
      aggreator := { z.core.aggreator with
        doneAggreator := Function.update z.core.aggreator.doneAggreator d.view
          ⟨insert d.author (z.core.aggreator.doneAggreator d.view).authors⟩ }
      readyFlags := Function.update z.core.readyFlags d.view true } d.view
    · rw [hp, Hist.apply_eq hz hout.filterMap_task (by simp)]
      exact .single (.ready d outs hi hh hx he hn hq (hout.of_core rfl rfl rfl rfl rfl))
    · -- The leader is locked without a block hash: the view is ready, and then the process ends.
      rw [hp, Hist.apply_panic]
      refine .head (.ready d [] hi hh hx he hn hq .none) ?_
      rw [List.append_nil]
      exact .single .crash
  · simp only [if_neg hlow, if_neg hq]
    rw [Outcome.ret, Hist.apply_core hz _ (by simp)]
    exact .single (.done d hh he hn)

/-- `handleElectShare`. -/
theorem rules_handleElectShare (hz : z.status = .running) {s : ElectShare}
    (hi : i = .msg (.electShare s)) (hh : .electShare s ∈ z.handled) (hx : Untouched x0 z) :
    Rules S env i x0 z (z.apply (z.core.handleElectShare S s)) := by
  unfold Core.handleElectShare
  split_ifs with hfilter
  · exact rules_quiet hz (by simp)
  have he : z.core.epoch ≤ s.epoch := by simpa [Core.messgaeFilter] using hfilter
  obtain ⟨hn, ha⟩ | ⟨hn, ⟨r, hr, -, ha⟩ | ⟨coin, leader, hq, hc, hl, ha⟩⟩ :=
    addShareVote_cases S z.core.elector s
  · rw [ha]
    simp only [ne_eq, not_true_eq_false, if_false]
    exact rules_quiet hz (by simp)
  · rw [ha]
    rcases hr with rfl | rfl
    · simp only [ne_eq, not_true_eq_false, if_false]
      rw [Outcome.ret, Hist.apply_core hz _ (by simp)]
      exact .single (.share s hh he hn)
    · -- The coin is too short for an index into it, and the process ends.
      simp only [Hist.apply_panic]
      exact .head (.share s hh he hn) (.single .crash)
  · have hne := coinLeader_ne_none hl
    rw [ha]
    simp only [ne_eq, hne, not_false_eq_true, if_true]
    obtain ⟨outs, hout, hp | ⟨hp, rfl⟩⟩ := processLeader_spec { z.core with
      elector := ⟨Function.update z.core.elector.leaders s.view leader,
        Function.update z.core.elector.electAggreators s.view
          ⟨(z.core.elector.electAggreators s.view).shares ++ [s.sigShare],
            insert s.author (z.core.elector.electAggreators s.view).authors⟩⟩ } s.view
    · rw [hp, Hist.apply_eq hz hout.filterMap_task (by simp)]
      exact .single
        (.elect s coin leader outs hi hh hx he hn hq hc hl (hout.of_core rfl rfl rfl rfl rfl))
    · rw [hp, Hist.apply_panic]
      refine .head (.elect s coin leader [] hi hh hx he hn hq hc hl .none) ?_
      rw [List.append_nil]
      exact .single .crash

/-- `handlePrevote`. -/
theorem rules_handlePrevote (hz : z.status = .running) {pv : Prevote} (hi : i = .msg (.prevote pv))
    (hh : .prevote pv ∈ z.handled) (hx : Untouched x0 z) :
    Rules S env i x0 z (z.apply (z.core.handlePrevote S pv)) := by
  unfold Core.handlePrevote
  split_ifs with hfilter
  · exact rules_quiet hz (by simp)
  have he : z.core.epoch ≤ pv.epoch := by simpa [Core.messgaeFilter] using hfilter
  unfold Aggreator.addPreVote PreVoteAggreator.append
  by_cases hn : pv.author ∈ (z.core.aggreator.prevoteAggreator pv.view).authors
  · simp only [hn, if_true, Function.update_eq_self]
    exact rules_quiet hz (by simp)
  simp only [hn, if_false]
  have hflag : ((z.core.aggreator.prevoteAggreator pv.view).count pv).flag =
      (z.core.aggreator.prevoteAggreator pv.view).flag := by
    unfold PreVoteAggreator.count
    split_ifs <;> rfl
  split_ifs with hy hq
  · rw [hflag] at hy
    rw [Hist.apply_eq hz rfl (by simp)]
    exact .single (.prevoteYes pv hi hh hx he hn hy.1 hy.2)
  · -- The branch of a first yes was passed over, and so there is no yes at all.
    rw [hflag] at hy hq
    rw [Hist.apply_eq hz rfl (by simp)]
    have hzero : ((z.core.aggreator.prevoteAggreator pv.view).count pv).yesNums = 0 := by
      by_contra hne
      exact hy ⟨Nat.pos_of_ne_zero hne, hq.2⟩
    exact .single (.prevoteNo pv hh he hn hq.1 hzero hq.2)
  · rw [hflag] at hy
    dsimp only [Outcome.ret]
    rw [Hist.apply_core hz _ (by simp)]
    exact .single (.prevote pv hh he hn (fun hpos => by simpa [hpos] using hy))

/-- `handleFinvote`. -/
theorem rules_handleFinvote (hz : z.status = .running) {fv : FinVote} (hi : i = .msg (.finVote fv))
    (hh : .finVote fv ∈ z.handled) (hx : Untouched x0 z) :
    Rules S env i x0 z (z.apply (z.core.handleFinvote S env fv)) := by
  unfold Core.handleFinvote
  split_ifs with hfilter
  · exact rules_quiet hz (by simp)
  have he : z.core.epoch ≤ fv.epoch := by simpa [Core.messgaeFilter] using hfilter
  unfold Aggreator.addFinVote FinVoteAggreator.append
  by_cases hn : fv.author ∈ (z.core.aggreator.finvoteAggreator fv.view).authors
  · simp only [hn, if_true, Function.update_eq_self]
    exact rules_quiet hz (by simp)
  simp only [hn, if_false]
  set a := (z.core.aggreator.finvoteAggreator fv.view).count fv with ha
  set c : Core := { z.core with
    aggreator := { z.core.aggreator with
      finvoteAggreator := Function.update z.core.aggreator.finvoteAggreator fv.view a } } with hc
  -- A quorum of final votes is all for yes, all for no, or mixed.
  by_cases hq : a.yesNums + a.noNums = S.quorum
  · by_cases hyes : a.yesNums = S.quorum
    · have hzero : a.noNums = 0 := by omega
      simp only [if_pos hq, if_pos hyes]
      rw [Hist.apply_eq hz rfl (by simp)]
      exact .single (.finCommit fv hi hh hx he hn hyes hzero)
    by_cases hno : a.noNums = S.quorum
    · have hzero : a.yesNums = 0 := by omega
      simp only [if_pos hq, if_neg hyes, if_pos hno]
      obtain ⟨outs, e, hout, hne, heq⟩ := advanceNextRound_spec S env c fv.view .no 0
      rw [heq, Hist.apply_eq hz hout.filterMap_task hne]
      exact .single (.finNo fv outs hi hh hx he hn hno hzero (hout.of_core rfl rfl))
    · have hmixed : 0 < a.yesNums ∧ 0 < a.noNums := by omega
      simp only [if_pos hq, if_neg hyes, if_neg hno]
      obtain ⟨outs, e, hout, hne, heq⟩ := advanceNextRound_spec S env c fv.view .yes fv.blockHash
      rw [heq, Hist.apply_eq hz hout.filterMap_task hne]
      exact .single (.finYes fv outs hi hh hx he hn hq hmixed.1 hmixed.2 (hout.of_core rfl rfl))
  · simp only [if_neg hq]
    rw [Outcome.ret, Hist.apply_core hz _ (by simp)]
    exact .single (.finVote fv hh he hn hq)

/-- `handleHalt`, with the halt noted when its flag is set. -/
theorem rules_handleHalt (hz : z.status = .running) {h : Halt} (hi : i = .msg (.halt h))
    (hh : .halt h ∈ z.handled) (hx : Untouched x0 z) :
    Rules S env i x0 z { z.apply (z.core.handleHalt S env h) with
      decided := z.decided ++
        Hist.newHalt z.core (z.core.handleHalt S env h).core (.msg (.halt h)) } := by
  have hquiet : Rules S env i x0 z { z.apply (Outcome.ret z.core) with
      decided := z.decided ++ Hist.newHalt z.core (Outcome.ret z.core).core (.msg (.halt h)) } := by
    rw [Outcome.ret, Hist.apply_quiet hz (by simp), Hist.newHalt_of_eq rfl, List.append_nil]
  unfold Core.handleHalt
  split_ifs with hfilter hhalt
  · exact hquiet
  · exact hquiet
  have he : z.core.epoch ≤ h.epoch := by simpa [Core.messgaeFilter] using hfilter
  have hf : z.core.haltFlags h.epoch = false := by simpa using hhalt
  obtain ⟨k, outs, hk, ho⟩ | ⟨hb, ha, ho⟩ := handleOutput_cases S env
    { z.core with elector := z.core.elector.setLeader h.view h.leader } h.blockHash
  · -- `handleOutput` has read the block, or has found no entry for it. The leader that was set
    -- before it is none of what it reads.
    have hk' : HaltOut S env z.core h.blockHash k outs := by
      cases hk with
      | commit b hb hm => exact .commit b hb hm
      | sync b hb hm => exact .sync b hb hm
      | absent hb ha => exact .absent hb ha
    rw [ho]
    unfold Core.advanceNextEpoch
    dsimp only [Outcome.bind]
    split_ifs with hs
    · dsimp only [Outcome.ret]
      rw [List.append_nil, Hist.apply_eq hz hk.filterMap_task (by simp),
        Hist.newHalt_of_set hf (by simp)]
      exact .single (.haltStay h k outs hi hh hx he hf hk' hs)
    · have hspawn : (outs ++ .create (z.core.generatorBlock env (succ64 h.epoch)) ::
          broadcast (.spbProposal ⟨z.core.name, z.core.generatorBlock env (succ64 h.epoch),
            succ64 h.epoch, 0, .one⟩)).filterMap Output.task? = [] := by
        rw [List.filterMap_append, hk.filterMap_task]
        rfl
      rw [Hist.apply_eq hz hspawn (by simp), Hist.newHalt_of_set hf (by simp)]
      exact .single (.haltNext h k outs hi hz hh hx he hf hk' (not_le.mp hs))
  · -- The read failed. The leader is set already, and the epoch stays open.
    rw [ho]
    dsimp only [Outcome.bind]
    rw [Hist.apply_core hz _ (by simp), Hist.newHalt_of_eq (by rfl), List.append_nil]
    exact .single (.haltFail h hi hh hx he hf hb ha)

/-- `handleLoopBack`. -/
theorem rules_handleLoopBack (hz : z.status = .running) {d : Digest} (hi : i = .loopBack d)
    (hx : Untouched x0 z) : Rules S env i x0 z (z.apply (z.core.handleLoopBack S env d)) := by
  unfold Core.handleLoopBack
  obtain ⟨b, hb, hg⟩ | ⟨hb, ha, hg⟩ | ⟨hb, ha, hg⟩ := getConsensusBlock_cases S env z.core d
  · rw [hg]
    obtain ⟨herr, ⟨k, hcore⟩, hspawn, hrules⟩ := rules_lateCommit (S := S) hz hx
      (.loopBack d hi (p := Core.loopProposal b) hb rfl)
    dsimp only
    -- What follows the late commit acts on a store and an epoch that it has left alone.
    generalize z.core.lateCommit S env (Core.loopProposal b) = o at *
    have hz' : (z.apply o).status = .running := by simp [Hist.apply, herr]
    have hb' : (z.apply o).core.decoded env d = some b := by rwa [Hist.apply, hcore]
    rw [Hist.apply_bind herr]
    refine .trans hrules ?_
    split_ifs with he
    · refine .single ?_
      convert Rule.spawnLoop d b hi hb' he using 1
      simp [Hist.apply, herr, Output.task?]
    · exact rules_quiet hz' (by simp)
  · rw [hg]
    dsimp only
    rw [Hist.apply_panic]
    exact .single .crash
  · rw [hg]
    dsimp only
    exact rules_quiet hz (by simp)

/-- `handleSpbProposal` on a phase-one proposal. -/
theorem rules_handleSpbProposal (hz : z.status = .running) {p : SPBProposal} (hp : p.phase = .one)
    (hi : i = .msg (.spbProposal p)) (hh : .spbProposal p ∈ z.handled) (hx : Untouched x0 z) :
    Rules S env i x0 z (z.apply (z.core.handleSpbProposal S env p)) := by
  unfold Core.handleSpbProposal
  obtain ⟨herr, ⟨k, hcore⟩, hspawn, hrules⟩ := rules_lateCommit (S := S) hz hx (.message hi hh)
  generalize z.core.lateCommit S env p = o at *
  have hz' : (z.apply o).status = .running := by simp [Hist.apply, herr]
  rw [Hist.apply_bind herr]
  refine .trans hrules ?_
  split_ifs with hfilter
  · exact rules_quiet hz' (by simp)
  have he : (z.apply o).core.epoch ≤ p.epoch := by
    simpa [Core.messgaeFilter, Hist.apply] using hfilter
  unfold Core.acceptProposal Core.verifyConsensusBlock
  simp only [hp, if_true]
  by_cases hput : env.putOk = false
  · rw [if_pos hput]
    exact rules_quiet hz' (by simp)
  rw [if_neg hput]
  -- The history between the write of the block and the verification.
  let w : Hist := { z.apply o with core := { o.core with
    store := Function.update o.core.store (S.hash p.b) (some p.b) } }
  have hw : w.status = .running := hz'
  have hstored : w.core.store (S.hash p.b) = some p.b := Function.update_self ..
  refine .head (b := w) (.store p hp hi hh he) ?_
  by_cases hm : w.core.missing env p.b = []
  · rw [if_pos hm]
    refine .single ?_
    convert Rule.spawnOne (x := w) p hp hi hh he hstored hm using 1
    simp [Hist.apply, w, herr, Output.task?]
  · rw [if_neg hm]
    refine .single ?_
    convert Rule.sync (x := w) p hp (.message hi hh) hm using 1
    simp [Hist.apply, w, herr, Output.task?]

section Spb

variable {c : Core} {p : SPBProposal} {v : SPBVote} (S)

/-- `processProposal` on a first proposal of the instance's own proposer. -/
theorem processProposal_one (hp : p.phase = .one) (hb : (c.spbInstances p.slot).blockHash = none)
    (ha : p.author = p.b.proposer) :
    c.processProposal S p =
      ⟨c.setSpb p.slot { c.spbInstances p.slot with
          blockHash := some (S.hash p.b), unHandleProposal := [], unHandleVote := [] },
        c.sendVote ⟨c.name, p.author, S.hash p.b, p.epoch, p.round, .one⟩ ++
          (c.spbInstances p.slot).unHandleProposal.map (fun q => .spawn (.processProposal q)) ++
          (c.spbInstances p.slot).unHandleVote.map (fun v => .spawn (.processVote v)), none⟩ := by
  simp [Core.processProposal, hp, hb, ha]

/-- `processProposal` on a phase-two proposal that comes too early. -/
theorem processProposal_two_none (hp : p.phase = .two)
    (hb : (c.spbInstances p.slot).blockHash = none) :
    c.processProposal S p =
      ⟨c.setSpb p.slot { c.spbInstances p.slot with
        unHandleProposal := (c.spbInstances p.slot).unHandleProposal ++ [p] }, [], none⟩ := by
  simp [Core.processProposal, hp, hb, Outcome.ret]

/-- `processProposal` on a phase-two proposal. -/
theorem processProposal_two_some {h : Digest} (hp : p.phase = .two)
    (hb : (c.spbInstances p.slot).blockHash = some h) :
    c.processProposal S p =
      ⟨c.setSpb p.slot { c.spbInstances p.slot with lockFlag := true },
        c.sendVote ⟨c.name, p.author, 0, p.epoch, p.round, .two⟩, none⟩ := by
  simp [Core.processProposal, hp, hb]

/-- `processProposal` on a phase that is neither. -/
theorem processProposal_other {code : Int8} (hp : p.phase = .other code) :
    c.processProposal S p = .ret c := by
  simp [Core.processProposal, hp]

/-- `processVote` on a vote that comes too early. -/
theorem processVote_none (hb : (c.spbInstances v.slot).blockHash = none) :
    c.processVote S v =
      ⟨c.setSpb v.slot { c.spbInstances v.slot with
        unHandleVote := (c.spbInstances v.slot).unHandleVote ++ [v] }, [], none⟩ := by
  simp [Core.processVote, hb, Outcome.ret]

/-- `processVote` on a vote that counts. -/
theorem processVote_some {h : Digest} (hb : (c.spbInstances v.slot).blockHash = some h) :
    c.processVote S v =
      ⟨c.setSpb v.slot { c.spbInstances v.slot with
          votes := Function.update (c.spbInstances v.slot).votes v.phase
            ((c.spbInstances v.slot).votes v.phase + 1) },
        c.voteOutput S v h ((c.spbInstances v.slot).votes v.phase + 1), none⟩ := by
  simp [Core.processVote, hb]

end Spb

/-- A spawned call, with the call taken from the list. -/
theorem rules_runTask (hz : z.status = .running) {t : Task} (hi : i = .task t) (ht : t ∈ z.tasks)
    (hx : Untouched x0 z) :
    Rules S env i x0 z (({ z with tasks := z.tasks.erase t } : Hist).apply
      (z.core.runTask S t)) := by
  have hdrop : Rules S env i x0 z
      (({ z with tasks := z.tasks.erase t } : Hist).apply (Outcome.ret z.core)) := by
    rw [Outcome.ret, Hist.apply_core (by exact hz) _ (by simp)]
    exact .single (.drop t hi ht)
  cases t with
  | processProposal p =>
    dsimp only [Core.runTask]
    cases hb : (z.core.spbInstances p.slot).blockHash with
    | none =>
      cases hp : p.phase with
      | one =>
        by_cases ha : p.author = p.b.proposer
        · have heq := processProposal_one S hp hb ha
          refine .single ?_
          convert Rule.voteOne p hi hp ht hb ha using 1
          simp [Hist.apply, heq, hz, List.filterMap_map, Function.comp_def, Output.task?]
        · -- The author is not the proposer of the block, and the call returns.
          have heq : z.core.processProposal S p = .ret z.core := by
            simp [Core.processProposal, hp, ha]
          rw [heq]
          exact hdrop
      | two =>
        rw [processProposal_two_none S hp hb, Hist.apply_core (by exact hz) _ (by simp)]
        exact .single (.keepTwo p hp ht hb)
      | other code =>
        rw [processProposal_other S hp]
        exact hdrop
    | some h =>
      cases hp : p.phase with
      | one =>
        have heq : z.core.processProposal S p = .ret z.core := by
          simp [Core.processProposal, hp, hb]
        rw [heq]
        exact hdrop
      | two =>
        rw [processProposal_two_some S hp hb,
          Hist.apply_eq (by exact hz) (filterMap_sendVote _ _) (by simp)]
        exact .single (.voteTwo p h hi hp ht hx hb)
      | other code =>
        rw [processProposal_other S hp]
        exact hdrop
  | processVote v =>
    dsimp only [Core.runTask]
    cases hb : (z.core.spbInstances v.slot).blockHash with
    | none =>
      rw [processVote_none S hb, Hist.apply_core (by exact hz) _ (by simp)]
      exact .single (.keepVote v ht hb)
    | some h =>
      rw [processVote_some S hb,
        Hist.apply_eq (by exact hz) (filterMap_voteOutput _ _ _ _) (by simp)]
      -- The count goes up, and `voteOutput` answers at the quorum.
      exact .single (.countVote v h ht hb)

/-! ## The whole step -/

/-- A message of the receive channel. -/
theorem rules_handle {x : Hist} (hz : x.status = .running) (m : Message) :
    Rules S env (.msg m) x x
      { ({ x with handled := x.handled ++ [m] } : Hist).apply (x.core.handle S env m) with
        decided := x.decided ++ Hist.newHalt x.core (x.core.handle S env m).core (.msg m) } := by
  let z : Hist := { x with handled := x.handled ++ [m] }
  have hz' : z.status = .running := hz
  have hx : Untouched x z := ⟨rfl, rfl, rfl⟩
  have hm : m ∈ z.handled := List.mem_append_right _ (List.mem_singleton_self m)
  have hrecv : Rule S env (.msg m) x x z := .recv m rfl ⟨rfl, rfl, rfl⟩
  cases m with
  | spbProposal p =>
    simp only [Hist.newHalt, List.append_nil, Core.handle]
    by_cases hp : p.phase = .one
    · exact .head hrecv (rules_handleSpbProposal hz' hp rfl hm hx)
    · -- Only phase-one proposals are looked at before they go on to their instance.
      have heq : x.core.handleSpbProposal S env p = if x.core.messgaeFilter p.epoch then .ret x.core
          else ⟨x.core, [.spawn (.processProposal p)], none⟩ := by
        simp [Core.handleSpbProposal, Core.lateCommit, Core.acceptProposal, Outcome.bind,
          Outcome.ret, hp]
      rw [heq]
      split_ifs with hfilter
      · exact .head hrecv (rules_quiet hz' (by simp))
      · refine .single ?_
        convert Rule.forward (x := x) _ _ rfl (.proposal p hp) using 1
        simp [Hist.apply, Output.task?, hz]
  | spbVote v =>
    simp only [Hist.newHalt, List.append_nil, Core.handle]
    unfold Core.handleSpbVote
    split_ifs with hfilter
    · exact .head hrecv (rules_quiet hz' (by simp))
    · refine .single ?_
      convert Rule.forward (x := x) _ _ rfl (.vote v) using 1
      simp [Hist.apply, Output.task?, hz]
  | finish f =>
    simp only [Hist.newHalt, List.append_nil, Core.handle]
    exact .head hrecv (rules_handleFinish hz' hm)
  | done d =>
    simp only [Hist.newHalt, List.append_nil, Core.handle]
    exact .head hrecv (rules_handleDone hz' rfl hm hx)
  | electShare s =>
    simp only [Hist.newHalt, List.append_nil, Core.handle]
    exact .head hrecv (rules_handleElectShare hz' rfl hm hx)
  | prevote pv =>
    simp only [Hist.newHalt, List.append_nil, Core.handle]
    exact .head hrecv (rules_handlePrevote hz' rfl hm hx)
  | finVote fv =>
    simp only [Hist.newHalt, List.append_nil, Core.handle]
    exact .head hrecv (rules_handleFinvote hz' rfl hm hx)
  | halt h => exact .head hrecv (rules_handleHalt hz' rfl hm hx)

/-- Every step of a node is a chain of rules. -/
theorem step_rules {x y : Hist} {outs : List Output} (h : x.step S env i = some (y, outs)) :
    Rules S env i x x y := by
  obtain ⟨o, ho, -, rfl⟩ := Hist.step_eq_some h
  have hx : Untouched x x := ⟨rfl, rfl, rfl⟩
  cases Node.runs_of_outcome ho with
  | start hs =>
    refine .single ?_
    convert Rule.start (x := x) hs using 1
    simp [Node.after, Node.tasksAfter, Core.start, Input.msg?, Hist.newHalt,
      Output.task?, broadcast]
  | msg m hs => exact rules_handle hs m
  | loopBack d hs =>
    simpa [Hist.apply, Node.after, Node.tasksAfter, Input.msg?, Hist.newHalt] using
      rules_handleLoopBack (S := S) hs rfl hx
  | task t hs ht =>
    simpa [Hist.apply, Node.after, Node.tasksAfter, Input.msg?, Hist.newHalt] using
      rules_runTask (S := S) hs rfl ht hx

/-- What every rule preserves, every step preserves. -/
theorem step_invariant {I : Hist → Prop} {x y : Hist} {outs : List Output}
    (hI : ∀ {z z' : Hist}, Rule S env i x z z' → I z → I z')
    (h : x.step S env i = some (y, outs)) (hx : I x) : I y := by
  have hrules := step_rules h
  clear h
  induction hrules with
  | refl => exact hx
  | tail _ hr ih => exact hI hr ih

/-- The same, when a rule preserves an invariant under a condition `B` on the state after it that
holds at the end of the step. The condition goes back along the rules. -/
theorem step_invariant_before {I B : Hist → Prop} {x y : Hist} {outs : List Output}
    (hB : ∀ {z z' : Hist}, Rule S env i x z z' → B z' → B z)
    (hI : ∀ {z z' : Hist}, Rule S env i x z z' → B z' → I z → I z')
    (h : x.step S env i = some (y, outs)) (hy : B y) (hx : I x) : I y := by
  have hrules := step_rules h
  clear h
  induction hrules with
  | refl => exact hx
  | tail _ hr ih => exact hI hr hy (ih (hB hr hy))

end SMVBA
