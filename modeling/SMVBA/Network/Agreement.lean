import SMVBA.Network.Equivocation
import SMVBA.Network.Rounds
import SMVBA.Node.Commits

/-!
# Agreement

Two nodes that commit blocks for an epoch have each decided a halt of the epoch. That the two halts
carry one hash is the argument of the protocol. A halt of a view excludes a quorum for no among its
final votes (`Run.noNums_lt_of_halt`), because two quorums share a node that locks and votes once.
So the proposals of the next round all carry the block of the elected leader
(`Run.next_slot_of_halt`), only the leader itself can have them voted for, and one node is no
quorum: the next round has no `Done`, and nothing comes after it (`Run.halt_round_eq`).

The code leaves four gaps in this argument. An instance goes on to vote for the second phase after
the node's prevote for no. A node answers a prevote for yes after it has answered a quorum for no. A
`Done` quorum acts on a leader that a failed halt has put in the table. And a block of a halted
epoch is committed on the word of the table alone. Agreement holds in the runs in which no step
falls into one of them.
-/

namespace SMVBA

open MessagePassing

variable {S : Setup} {ok : Cond} {env : Env} {i : Input} {x0 x y : Hist} {s : Net}
  {coin : View → NodeID}

/-! ## The conditions on the steps -/

/-- A prevote for no on the leader of a slot. -/
def Message.isPrevoteNo (t : Slot) : Message → Bool
  | .prevote pv => pv.view.slot pv.leader = t ∧ pv.flag = .no
  | _ => false

/-- A phase-two proposal runs only on an instance that the node has not prevoted against. -/
def AbandonsAfterNo : Cond := fun x _ i =>
  ∀ p ∈ i.call?, p.phase = .two → (x.core.spbInstances p.slot).blockHash ≠ none →
    ∀ m ∈ x.broadcasts, m.isPrevoteNo p.slot = false

/-- The `Done` that makes a view ready finds no leader in the table, or the coin's. -/
def ConsultsCoin (S : Setup) (coin : View → NodeID) : Cond := fun x _ i =>
  ∀ dn ∈ i.done?, x.core.messgaeFilter dn.epoch = false →
    dn.author ∉ (x.core.aggreator.doneAggreator dn.view).authors →
    (insert dn.author (x.core.aggreator.doneAggreator dn.view).authors).card = S.quorum →
    x.core.elector.leader dn.view = NONE ∨ x.core.elector.leader dn.view = coin dn.view

/-- The four conditions together. -/
def Agreeable (S : Setup) (coin : View → NodeID) : Cond := fun x env i =>
  AbandonsAfterNo x env i ∧ AnswersOnce S x env i ∧ ConsultsCoin S coin x env i ∧
    LateDecided S x env i

instance (x : Hist) (env : Env) (i : Input) : Decidable (AbandonsAfterNo x env i) :=
  inferInstanceAs (Decidable (∀ p ∈ i.call?, _ → _ → _))

instance (S : Setup) (coin : View → NodeID) (x : Hist) (env : Env) (i : Input) :
    Decidable (ConsultsCoin S coin x env i) :=
  inferInstanceAs (Decidable (∀ dn ∈ i.done?, _ → _ → _ → _))

instance (S : Setup) (coin : View → NodeID) (x : Hist) (env : Env) (i : Input) :
    Decidable (Agreeable S coin x env i) :=
  inferInstanceAs (Decidable (_ ∧ _))

/-! ## Locks after a prevote for no -/

/-- The instance that a node has prevoted against is not locked. -/
def OpenAfterNo (x : Hist) : Prop :=
  ∀ d pv, .prevote pv ∈ x.sentTo d → pv.flag = .no →
    (x.core.spbInstances (pv.view.slot pv.leader)).lockFlag = false

theorem OpenAfterNo.rule (h : Rule S env i x0 x y) (hok : AbandonsAfterNo x0 env i)
    (heven : Evenhanded x) (hx : OpenAfterNo x) : OpenAfterNo y := by
  intro d pv hm hno
  rcases h.sent_cases hm with hm | ⟨new, hnew, hm⟩
  · rcases h.lockFlag_cases (pv.view.slot pv.leader) with hsame | ⟨p, rfl, hp, hslot, hx0, hb⟩
    · rw [hsame]
      exact hx d pv hm hno
    · -- The step runs the proposal of an instance that the node has prevoted against.
      have hbroadcast : .prevote pv ∈ x0.broadcasts := by
        have hb := (heven.mem_iff rfl d).mp hm
        unfold Hist.Broadcast Hist.broadcasts at hb
        rwa [hx0.out] at hb
      rw [hx0.core, ← hslot] at hb
      have hfalse := hok p rfl hp hb _ hbroadcast
      simp [Message.isPrevoteNo, hslot, hno] at hfalse
  · obtain ⟨-, -, -, -, -, ⟨hyes, -⟩ | ⟨-, -, hlock⟩⟩ := hnew.prevote hm
    · exact absurd (hno.symm.trans hyes) (by simp)
    · exact hlock

/-! ## What a halt excludes -/

/-- Two quorums of a committee of `3f + 1` nodes share a node. -/
theorem Setup.quorums_meet {f : ℕ} (hf : S.committee.size = 3 * f + 1) {A B : Finset NodeID}
    (hA : A ⊆ S.committee.authorities) (hB : B ⊆ S.committee.authorities)
    (hqA : S.quorum ≤ A.card) (hqB : S.quorum ≤ B.card) : ∃ a, a ∈ A ∧ a ∈ B := by
  have hquorum : S.quorum = 2 * f + 1 := Committee.hightThreshold_eq hf
  refine Quorum.exists_mem_both hA hB ?_
  have hcard : S.committee.authorities.card = 3 * f + 1 := hf
  omega

section Halts

variable {f : ℕ} (hf : S.committee.size = 3 * f + 1) (ha : S.absent = .other) (hr : Run S ok s)
  (hled : ∀ q, LedBy S (fun v L => L = coin v) (s.nodes q))
  (hopen : ∀ q, OpenAfterNo (s.nodes q)) (honce : ∀ q, FinVotesOnce S (s.nodes q))

include hr in
/-- The authors of votes that a node took are of the committee. -/
theorem Run.voters_subset {α : Type} {q : NodeID} {A : Finset NodeID} (mk : α → Message)
    {P : α → Prop}
    (hA : ∀ a ∈ A, ∃ v, mk v ∈ (s.nodes q).handled ∧ (mk v).author = a ∧ P v) :
    A ⊆ S.committee.authorities := by
  refine hr.authors_subset (q := q) fun a hmem => ?_
  obtain ⟨v, hv, hauthor, -⟩ := hA a hmem
  exact ⟨mk v, hv, hauthor⟩

include hf hr honce in
/-- Where a node counts a quorum of final votes for yes, no node counts a quorum for no: one of the
voters would have voted for both. -/
theorem Run.noNums_lt_of_yesNums {q a : NodeID} {v : View}
    (hyes : S.quorum ≤ ((s.nodes q).core.aggreator.finvoteAggreator v).yesNums) :
    ((s.nodes a).core.aggreator.finvoteAggreator v).noNums < S.quorum := by
  by_contra hlt
  obtain ⟨Y, hY, hvotes⟩ := ((hr.facts q).counted.finVote v).exists_yes
  obtain ⟨N, hN, hvotes'⟩ := ((hr.facts a).counted.finVote v).exists_no
  obtain ⟨c, hcY, hcN⟩ := Setup.quorums_meet hf (hr.voters_subset .finVote hvotes)
    (hr.voters_subset .finVote hvotes') (hY ▸ hyes) (hN ▸ not_lt.mp hlt)
  obtain ⟨fv, hfv, rfl, hview, hflag⟩ := hvotes c hcY
  obtain ⟨fv', hfv', hauthor, hview', hflag'⟩ := hvotes' _ hcN
  have hsent := (hr.sent_of_handled hfv).2
  have hsent' : .finVote fv' ∈ (s.nodes fv.author).sentTo a := by
    rw [← hauthor]
    exact (hr.sent_of_handled hfv').2
  -- The voter has sent one final vote in the view, so the two votes are the same.
  have hle : ((s.nodes fv.author).sentTo q).countP (Message.isFinVote v) ≤ 1 := by
    refine (honce fv.author q v).trans ?_
    split_ifs <;> omega
  have heq := Quorum.eq_of_countP_le_one hle hsent ((hr.facts _).even.mem hsent' rfl q)
    (decide_eq_true hview) (decide_eq_true hview')
  obtain rfl : fv = fv' := Message.finVote.inj heq
  exact hflag' hflag

include hf ha hr hled hopen in
/-- Where the leader of a view has finished, the final votes of the view are for yes. -/
theorem Run.finVote_yes_of_finish {q a : NodeID} {fin : Finish} {fv : FinVote}
    (hh : .finish fin ∈ (s.nodes q).handled) (hl : fin.author = coin fin.view)
    (hfv : .finVote fv ∈ (s.nodes a).handled) (hview : fv.view = fin.view) : fv.flag = .yes := by
  obtain ⟨A, hA, hqA, hlocks⟩ := hr.finish_certificate ha (hr.sent_of_handled hh).2
  cases ((hr.facts _).causes.finVote a fv (hr.sent_of_handled hfv).2).2 with
  | yes pv hflag hpv hv hy hb => exact hflag
  | no pv hflag hpv hv hy hb hq =>
    -- A quorum of prevotes for no is behind the vote, and one of these comes from a node that has
    -- locked the leader's block.
    exfalso
    obtain ⟨P, hP, hprevotes⟩ := ((hr.facts fv.author).counted.prevote fv.view).exists_no
    obtain ⟨c, hcA, hcP⟩ :=
      Setup.quorums_meet hf hA (hr.voters_subset .prevote hprevotes) hqA (hP ▸ hq)
    obtain ⟨pv, hpv, rfl, hpview, hflag⟩ := hprevotes c hcP
    have hsent := (hr.sent_of_handled hpv).2
    have hunlocked := hopen pv.author _ pv hsent hflag
    rw [(hled _).prevote _ pv hsent, hpview, hview, ← hl] at hunlocked
    exact Bool.false_ne_true (hunlocked.symm.trans (hlocks _ hcA).1)

include hf ha hr hled hopen honce

/-- A node that sends a halt of a view excludes a quorum for no among the final votes of the view.
-/
theorem Run.noNums_lt_of_halt {q d : NodeID} {h : Halt} (hm : .halt h ∈ (s.nodes q).sentTo d)
    (a : NodeID) : ((s.nodes a).core.aggreator.finvoteAggreator h.view).noNums < S.quorum := by
  rcases (hled q).halt d h hm with ⟨hl, hh⟩ | ⟨hyes, -⟩
  · obtain ⟨N, hN, hvotes⟩ := ((hr.facts a).counted.finVote h.view).exists_no
    -- The leader has finished, so there is no vote for no to count.
    have hempty : N = ∅ := by
      refine Finset.eq_empty_of_forall_notMem fun b hmem => ?_
      obtain ⟨fv, hfv, -, hview, hno⟩ := hvotes b hmem
      exact hno (hr.finVote_yes_of_finish hf ha hled hopen hh hl hfv hview)
    rw [← hN, hempty, Finset.card_empty]
    exact S.quorum_pos
  · exact hr.noNums_lt_of_yesNums hf honce hyes

variable (hc : Collisionless S s.nodes)

include hc

/-- In the round after a halt, only the elected leader can have a block in its own slot, and only if
a quorum is more than one node. -/
theorem Run.next_slot_of_halt {q d : NodeID} {h : Halt} (hm : .halt h ∈ (s.nodes q).sentTo d)
    {a a' : NodeID} {dg : Digest} (hb : ((s.nodes a').core.spbInstances
      (View.slot ⟨h.epoch, h.round + 1⟩ a)).blockHash = some dg) :
    a = coin h.view ∧ 2 ≤ S.quorum := by
  have hround : 0 ≤ h.round := hr.proper_sent ha (hr.mem_of_sent hm) _ _ hm
  obtain ⟨b, -, hproposer, -, ⟨hz, -⟩ | ⟨-, -, p, hp, hslot, rfl, hsent⟩⟩ := hr.block_of_slot ha hb
  · exact absurd hz (by simp only [View.slot]; omega)
  simp only [View.slot, SPBProposal.slot, Slot.mk.injEq] at hslot hproposer
  obtain ⟨hepoch, hnext, -⟩ := hslot
  -- Why the proposer has gone on to the next round: final votes of both kinds, or a quorum for no,
  -- which the halt excludes.
  cases (hr.blockFacts ha a).caused _ p hsent hp with
  | first hfirst hcreated he => omega
  | mixed fv hh he hr' htook hd hq =>
    refine ⟨?_, hq⟩
    have hview : fv.view = h.view := congrArg₂ View.mk (by omega) (by omega)
    have hcreated := hr.created_of_took ha htook
    obtain ⟨-, hs⟩ := hr.sent_of_handled hh
    obtain ⟨-, c, L, rfl, -, hhash⟩ | ⟨-, hno⟩ := hr.finVote_lock hled hs
    · -- The vote carries the hash of the leader's block, and so the proposal carries that block.
      rw [← hd] at hhash
      obtain ⟨b, hbhash, hbproposer, hbcreated, -⟩ := hr.block_of_slot ha hhash
      have heq := hc.eq_of_hash _ (hr.mem_of_created hbcreated) _ (hr.mem_of_created hcreated) b
        hbcreated _ hcreated hbhash
      rw [← hproposer, ← heq, hbproposer, ← hview]
      rfl
    · exact absurd (hd.trans hno) (hc.hash_ne_zero _ (hr.mem_of_created hcreated) _ hcreated)
  | no w he hr' htook hd hq =>
    have hview : w = h.view := congrArg₂ View.mk (by omega) (by omega)
    rw [hview] at hq
    have hlt := hr.noNums_lt_of_halt hf ha hled hopen honce hm a
    omega

/-- The round after a halt, and every later one, has no `Done`. -/
theorem Run.noDone_after_halt {q d : NodeID} {h : Halt} (hm : .halt h ∈ (s.nodes q).sentTo d)
    (k : ℕ) : NoDone S s ⟨h.epoch, h.round + 1 + k⟩ := by
  have hround : 0 ≤ h.round := hr.proper_sent ha (hr.mem_of_sent hm) _ _ hm
  have hnext : NoDone S s ⟨h.epoch, h.round + 1⟩ :=
    hr.noDone_of_slots ha fun a dg hb =>
      hr.next_slot_of_halt hf ha hled hopen honce hc hm hb
  exact hnext.later ha hr (by dsimp only; omega) k

/-- All halts of an epoch are of one round. -/
theorem Run.halt_round_eq {q q' d d' : NodeID} {h h' : Halt} (hm : .halt h ∈ (s.nodes q).sentTo d)
    (hm' : .halt h' ∈ (s.nodes q').sentTo d') (he : h.epoch = h'.epoch) : h.round = h'.round := by
  -- A halt of a later round would be one of a round without `Done`.
  have hlater : ∀ {q q' d d' : NodeID} {h h' : Halt}, .halt h ∈ (s.nodes q).sentTo d →
      .halt h' ∈ (s.nodes q').sentTo d' → h.epoch = h'.epoch → h'.round ≤ h.round := by
    intro q q' d d' h h' hm hm' he
    by_contra hlt
    have hsilent := hr.noDone_after_halt hf ha hled hopen honce hc hm (h'.round - h.round - 1).toNat
    refine hsilent.halt hr hm' ?_
    simp only [Halt.view, View.mk.injEq]
    omega
  exact le_antisymm (hlater hm' hm he.symm) (hlater hm hm' he)

/-- All halts of an epoch carry one hash. -/
theorem Run.halt_hash_eq {q q' d d' : NodeID} {h h' : Halt} (hm : .halt h ∈ (s.nodes q).sentTo d)
    (hm' : .halt h' ∈ (s.nodes q').sentTo d') (he : h.epoch = h'.epoch) :
    h.blockHash = h'.blockHash := by
  have hround := hr.halt_round_eq hf ha hled hopen honce hc hm hm' he
  obtain ⟨a, L, rfl, -, hhash⟩ := hr.halt_lock ha hled hm
  obtain ⟨a', L', rfl, -, hhash'⟩ := hr.halt_lock ha hled hm'
  have hview : h'.view = h.view := by simp [Halt.view, he, hround]
  rw [hview] at hhash'
  exact hr.slot_hash_eq ha hhash hhash'

end Halts

/-! ## Commits -/

/-- What a node commits is a block that it took, with the hash of a halt that it decided. -/
def Backed (S : Setup) (x : Hist) (b : ConsensusBlock) : Prop :=
  x.TookBlock b ∧ ∃ h ∈ x.decided, h.blockHash = S.hash b

/-- What the conditions keep up at every node of a run. -/
structure AgreeFacts (S : Setup) (coin : View → NodeID) (x : Hist) : Prop where
  led : LedBy S (fun v L => L = coin v) x
  opened : OpenAfterNo x
  once : FinVotesOnce S x
  decided : DecidedOnce x
  committed : Committed (Backed S x) x

theorem AgreeFacts.init (S : Setup) (coin : View → NodeID) (q : NodeID) :
    AgreeFacts S coin (Hist.init q) where
  led := ⟨by simp [Hist.init, Hist.sentTo], by simp [Hist.init, Hist.sentTo]⟩
  opened := by simp [OpenAfterNo, Hist.init, Hist.sentTo]
  once := by simp [FinVotesOnce, Hist.init, Hist.sentTo]
  decided := .init q
  committed := .init _ q

theorem AgreeFacts.rule {q : NodeID} (h : Rule S env i x0 x y) (hcoin : FixedCoin S coin)
    (hok : Agreeable S coin x0 env i) (hkeys : KeysApart x0 env i) (hf : Facts S q x)
    (hx : AgreeFacts S coin x) : AgreeFacts S coin y := by
  obtain ⟨habandon, hanswer, hconsult, hlate⟩ := hok
  refine ⟨hx.led.rule h hf.counted hcoin ?_, hx.opened.rule h habandon hf.even,
    hx.once.rule h hanswer, hx.decided.rule h, hx.committed.rule h ?_ ?_ ?_⟩
  · intro dn hi hx0 he hn hq hne
    subst hi
    rw [hx0.core] at he hn hq hne ⊢
    exact (hconsult dn rfl (decide_eq_false (not_lt.mpr he)) hn hq).resolve_left hne
  · rintro b ⟨htook, ht, hm, hhash⟩
    exact ⟨htook.rule h, ht, h.mem_decided hm, hhash⟩
  · intro p ho hx0 hl
    obtain ⟨ht, hm, -, hhash⟩ := hlate.decides ho hx0 hl
    refine ⟨Hist.TookBlock.rule h ?_, ht, h.mem_decided hm, hhash⟩
    cases ho with
    | message hi hh => exact ⟨p, hh, (of_decide_eq_true hl).1, rfl⟩
    | loopBack d hi hs hp =>
      rw [hkeys.loopBack hi] at hs
      exact (hf.provenance.store d _ hs).2
  · intro ht b hi hx0 haccept hs hmissing hd
    rw [hkeys.halt hi] at hs
    obtain ⟨hhash, htook⟩ := hf.provenance.store _ _ hs
    exact ⟨htook.rule h, ht, hd, hhash.symm⟩

theorem Run.agreeFacts (hcoin : FixedCoin S coin) (hr : Run S (Agreeable S coin) s) (q : NodeID) :
    AgreeFacts S coin (s.nodes q) := by
  refine ((hr.localRun q).invariant (I := fun z => Facts S q z ∧ AgreeFacts S coin z)
    ⟨Facts.init S q, AgreeFacts.init S coin q⟩ ?_).2
  rintro env i x0 z z' ⟨hok, hreg⟩ h ⟨hf, hz⟩
  exact ⟨hf.rule h, hz.rule h hcoin hok hreg.keysApart hf⟩

/-- A block that a node commits is one of the epoch that its halt decides. -/
theorem Run.halt_of_commit (ha : S.absent = .other) (hcoin : FixedCoin S coin)
    (hr : Run S (Agreeable S coin) s) (hc : Collisionless S s.nodes) {q : NodeID}
    {b : ConsensusBlock} (hb : b ∈ (s.nodes q).commits) :
    ∃ h a, .halt h ∈ (s.nodes a).sentTo q ∧ h.epoch = b.epoch ∧ h.blockHash = S.hash b := by
  have hfacts := hr.agreeFacts hcoin
  obtain ⟨htook, h, hm, hhash⟩ := (hfacts q).committed.sent b hb
  obtain ⟨-, hsent⟩ := hr.sent_of_handled ((hfacts q).decided.handled h hm)
  obtain ⟨a, L, -, -, hslot⟩ := hr.halt_lock ha (fun q => (hfacts q).led) hsent
  -- The leader's block of the epoch has the same hash.
  obtain ⟨b', hcreated', he, hhash'⟩ := hr.block_of_epoch ha (fun q => (hfacts q).led) hc hslot
  have hcreated := hr.created_of_took ha htook
  have heq := hc.eq_of_hash _ (hr.mem_of_created hcreated') _
    (hr.mem_of_created hcreated) b' hcreated'
    b hcreated (hhash'.trans hhash)
  refine ⟨h, _, hsent, ?_, hhash⟩
  rw [← heq, he]
  rfl

/-- Agreement. In a run of a committee of `3f + 1` nodes in which a node votes for the second phase
of no instance that it has prevoted against, answers no prevote for yes after a quorum for no, makes
no view ready with another leader than the coin's in the table, and commits no late block that it
has not decided, any two blocks that nodes commit for an epoch have the same hash. -/
theorem commits_agree {f : ℕ} (hf : S.committee.size = 3 * f + 1) (ha : S.absent = .other)
    (hcoin : FixedCoin S coin) (hr : Run S (Agreeable S coin) s) (hc : Collisionless S s.nodes)
    {q q' : NodeID} {b b' : ConsensusBlock} (hb : b ∈ (s.nodes q).commits)
    (hb' : b' ∈ (s.nodes q').commits) (he : b.epoch = b'.epoch) : S.hash b = S.hash b' := by
  have hfacts := hr.agreeFacts hcoin
  obtain ⟨h, a, hm, hepoch, hhash⟩ := hr.halt_of_commit ha hcoin hc hb
  obtain ⟨h', a', hm', hepoch', hhash'⟩ := hr.halt_of_commit ha hcoin hc hb'
  have hsame : h.epoch = h'.epoch := by rw [hepoch, hepoch', he]
  rw [← hhash, ← hhash']
  exact hr.halt_hash_eq hf ha (fun q => (hfacts q).led) (fun q => (hfacts q).opened)
    (fun q => (hfacts q).once) hc hm hm' hsame

/-- Two nodes commit the block of node one after the round in which it finishes. -/
theorem commits_agree_finished : ∃ s : Net, Run (demo 4 1) (Agreeable (demo 4 1) fun _ => 1) s ∧
    Collisionless (demo 4 1) s.nodes ∧ ∃ b ∈ (s.nodes 1).commits, ∃ b' ∈ (s.nodes 2).commits,
      b.epoch = b'.epoch ∧ (demo 4 1).hash b = (demo 4 1).hash b' := by
  obtain ⟨s, hr, hs⟩ := exists_run (demo 4 1) (Agreeable (demo 4 1) fun _ => 1) [0, 1, 2, 3]
    (finishedRound ++ [.deliver 2 (.halt ⟨0, 0, 0, 1, demoHash 1⟩)])
    (fun nodes => decide (Collisionless (demo 4 1) nodes ∧ demoBlock 1 0 ∈ (nodes 1).commits ∧
      demoBlock 1 0 ∈ (nodes 2).commits)) (by decide) (by decide +kernel)
  obtain ⟨hc, hb, hb'⟩ := of_decide_eq_true hs
  have hsize : (demo 4 1).committee.size = 3 * 1 + 1 := rfl
  exact ⟨s, hr, hc, _, hb, _, hb', rfl,
    commits_agree hsize rfl (demo_fixedCoin 4 1) hr hc hb hb' rfl⟩

/-- Final votes decide for the block of node one. The halt names node zero, as all final votes do,
and node three, which has no payloads of node one, takes the block of node zero for the decided one.
-/
def lateCommit : List Act :=
  let env : Env := { fullEnv 3 with
    held := fun d => if d = demoPayload 1 then none else (fullEnv 3).held d }
  votedRound 1 0 2 3 ++
    [.deliver 2 (.halt ⟨2, 0, 0, 0, demoHash 1⟩),
      ⟨3, env, .msg (.spbProposal ⟨1, demoBlock 1 0, 0, 0, .one⟩)⟩,
      ⟨3, env, .msg (.halt ⟨2, 0, 0, 0, demoHash 1⟩)⟩,
      ⟨3, env, .msg (.spbProposal ⟨0, demoBlock 0 0, 0, 0, .one⟩)⟩]

/-- Two nodes commit different blocks for the first epoch. -/
theorem commits_differ : (demo 4 1).committee.size = 3 * 1 + 1 ∧ (demo 4 1).absent = .other ∧
    FixedCoin (demo 4 1) (fun _ => 1) ∧ ∃ s : Net, Run (demo 4 1) Always s ∧
      Collisionless (demo 4 1) s.nodes ∧ ∃ b ∈ (s.nodes 2).commits, ∃ b' ∈ (s.nodes 3).commits,
        b.epoch = b'.epoch ∧ (demo 4 1).hash b ≠ (demo 4 1).hash b' := by
  obtain ⟨s, hr, hs⟩ := exists_run (demo 4 1) Always [0, 1, 2, 3] lateCommit
    (fun nodes => decide (Collisionless (demo 4 1) nodes ∧
      demoBlock 1 0 ∈ (nodes 2).commits ∧ demoBlock 0 0 ∈ (nodes 3).commits))
    (by decide) (by decide +kernel)
  obtain ⟨hc, hb, hb'⟩ := of_decide_eq_true hs
  exact ⟨rfl, rfl, demo_fixedCoin 4 1, s, hr, hc, _, hb, _, hb', rfl, by decide +kernel⟩

end SMVBA
