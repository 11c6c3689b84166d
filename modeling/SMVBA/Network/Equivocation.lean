import SMVBA.Network.LeaderTable

/-!
# One prevote and one final vote a view

`processLeader` runs from two handlers, and the aggregator of the prevotes has two answers. The
first could let a node prevote twice: the `Done` quorum finds a leader that a failed halt has
written, and the coin comes later. The second could let it vote twice: a prevote for yes arrives
after the quorum for no, whose branch leaves the flag alone. In runs in which neither happens, each
node sends at most one prevote and at most one final vote in a view.
-/

namespace SMVBA

open MessagePassing

variable {S : Setup} {env : Env} {i : Input} {x0 x y : Hist} {s : Net}

/-- A prevote of a view. -/
def Message.isPrevote (v : View) : Message → Bool
  | .prevote pv => pv.view = v
  | _ => false

/-- A final vote of a view. -/
def Message.isFinVote (v : View) : Message → Bool
  | .finVote fv => fv.view = v
  | _ => false

/-- The final vote that answers a prevote is one of the prevote's view. -/
theorem countP_newFinVote (q : NodeID) (pv : Prevote) (f : VoteFlag) (v : View) :
    [Message.finVote (newFinVote q pv.leader pv.epoch pv.round f pv.blockHash)].countP
      (Message.isFinVote v) = if pv.view = v then 1 else 0 := by
  rw [List.countP_singleton]
  exact if_congr decide_eq_true_iff rfl rfl

theorem countP_prevote (pv : Prevote) (v : View) :
    [Message.prevote pv].countP (Message.isPrevote v) = if pv.view = v then 1 else 0 := by
  rw [List.countP_singleton]
  exact if_congr decide_eq_true_iff rfl rfl

/-- `processLeader` sends at most one prevote, in its own view. -/
theorem LeaderOut.countP_isPrevote_le {c : Core} {q d : NodeID} {w : View} {outs : List Output}
    (ho : LeaderOut c w outs) (v : View) :
    (outs.filterMap (Output.sentTo q d)).countP (Message.isPrevote v) ≤
      if w = v ∧ c.readyFlags v = true ∧ c.elector.leader v ≠ NONE then 1 else 0 := by
  cases ho with
  | none => exact Nat.zero_le _
  | halt dg hr hl hd =>
    rw [filterMap_sentTo_broadcast]
    exact Nat.zero_le _
  | yes dg hr hl _ _ | no hr hl _ =>
    rw [filterMap_sentTo_broadcast, countP_prevote]
    change (if w = v then 1 else 0) ≤ _
    by_cases hw : w = v
    · subst hw
      simp [hr, hl]
    · simp [hw]

/-- A prevote is answered for yes only while there is no quorum for no. -/
def AnswersOnce (S : Setup) : Cond := fun x _ i =>
  ∀ pv ∈ i.prevote?, x.core.messgaeFilter pv.epoch = false →
    (x.core.aggreator.addPreVote S pv).2 = .ok .yes →
    (x.core.aggreator.prevoteAggreator pv.view).noNums < S.quorum

/-- A share that elects the leader of a ready view finds no leader there. -/
def ElectsOnce (S : Setup) : Cond := fun x _ i =>
  ∀ sh ∈ i.share?, x.core.messgaeFilter sh.epoch = false → x.core.readyFlags sh.view = true →
    (x.core.elector.addShareVote S sh).2 = .ok NONE ∨ x.core.elector.leader sh.view = NONE

instance (S : Setup) (x : Hist) (env : Env) (i : Input) : Decidable (AnswersOnce S x env i) :=
  inferInstanceAs (Decidable (∀ pv ∈ i.prevote?, _ → _ → _))

instance (S : Setup) (x : Hist) (env : Env) (i : Input) : Decidable (ElectsOnce S x env i) :=
  inferInstanceAs (Decidable (∀ sh ∈ i.share?, _ → _ → _))

/-- The answer of the aggregator to a first prevote for yes. -/
theorem addPreVote_yes {c : Core} {pv : Prevote}
    (hn : pv.author ∉ (c.aggreator.prevoteAggreator pv.view).authors)
    (hy : 0 < ((c.aggreator.prevoteAggreator pv.view).count pv).yesNums)
    (hf : (c.aggreator.prevoteAggreator pv.view).flag = false) :
    (c.aggreator.addPreVote S pv).2 = .ok .yes := by
  have hflag := ((c.aggreator.prevoteAggreator pv.view).count_cases pv).2.1
  simp [Aggreator.addPreVote, PreVoteAggreator.append, hn, hy, hflag, hf]

/-- The answer of the elector to the share that completes the coin. -/
theorem addShareVote_elect {c : Core} {sh : ElectShare} {bytes : List UInt8} {leader : NodeID}
    (hn : sh.author ∉ (c.elector.electAggreators sh.view).authors)
    (hq : (c.elector.electAggreators sh.view).shares.length + 1 = S.quorum)
    (hc : S.combineIntactTSPartial ((c.elector.electAggreators sh.view).shares ++ [sh.sigShare])
      (S.electHash sh.view) = some bytes)
    (hl : coinLeader S bytes = some leader) :
    (c.elector.addShareVote S sh).2 = .ok leader := by
  simp [Elector.addShareVote, ElectAggreator.append, hn, hq, hc, hl, coinLeader_ne_none hl]

/-- A ready view stays ready. -/
theorem Rule.ready_mono (h : Rule S env i x0 x y) {v : View} (hx : x.core.readyFlags v = true) :
    y.core.readyFlags v = true := by
  cases h with
  | ready dn outs hi hh hx0 he hn hq ho =>
    dsimp only
    by_cases hv : v = dn.view
    · subst hv
      exact Function.update_self ..
    · rwa [Function.update_of_ne hv]
  | _ => exact hx

/-- The flag of a view's prevotes stays. -/
theorem Rule.prevote_flag_mono (h : Rule S env i x0 x y) {v : View}
    (hx : (x.core.aggreator.prevoteAggreator v).flag = true) :
    (y.core.aggreator.prevoteAggreator v).flag = true := by
  cases h.prevoteChange v with
  | same heq => rwa [heq]
  | count pv hh hv hn hf heq =>
    rwa [heq, ((x.core.aggreator.prevoteAggreator v).count_cases pv).2.1]
  | flag pv hh hv hn heq => rw [heq]

/-! ## Prevotes -/

/-- A node has sent at most one prevote in a view, and none before it was ready and knew a leader.
-/
def PrevotesOnce (x : Hist) : Prop :=
  ∀ d v, (x.sentTo d).countP (Message.isPrevote v) ≤
    if x.core.readyFlags v = true ∧ x.core.elector.leader v ≠ NONE then 1 else 0

theorem PrevotesOnce.rule (h : Rule S env i x0 x y) (hok : ElectsOnce S x0 env i)
    (hvotes : VotesCounted S x) (hh : ∀ h : Halt, .halt h ∈ y.handled → h.leader ≠ NONE)
    (hx : PrevotesOnce x) : PrevotesOnce y := by
  intro d v
  obtain ⟨new, hnew, heq⟩ := h.sends d
  have hold := hx d v
  have hmono : (if x.core.readyFlags v = true ∧ x.core.elector.leader v ≠ NONE then 1 else 0) ≤
      if y.core.readyFlags v = true ∧ y.core.elector.leader v ≠ NONE then 1 else 0 := by
    by_cases hc : x.core.readyFlags v = true ∧ x.core.elector.leader v ≠ NONE
    · rw [if_pos hc, if_pos ⟨h.ready_mono hc.1, h.leader_ne_none hh hc.2⟩]
    · rw [if_neg hc]
      exact Nat.zero_le _
  rw [heq, List.countP_append]
  cases hnew with
  | leader w outs he ho hc =>
    have hnew := ho.countP_isPrevote_le (q := x.core.name) (d := d) v
    by_cases hw : w = v
    · subst hw
      -- The view was not ready before, or it had no leader, so that nothing was sent for it yet.
      have hfirst : ¬(x.core.readyFlags w = true ∧ x.core.elector.leader w ≠ NONE) := by
        rintro ⟨hready, hne⟩
        cases hc with
        | ready dn hi hx0 hv hn hq hl =>
          rw [Finset.card_insert_of_notMem hn] at hq
          have := hvotes.ready w hready
          omega
        | elect sh bytes hi hx0 hv hn hq hc hl hr =>
          subst hi hv
          rw [hx0.core] at hready hne he hn hq hc
          rcases hok sh rfl (decide_eq_false (not_lt.mpr he)) hready with hnobody | hnone
          · rw [addShareVote_elect hn hq hc hl] at hnobody
            exact coinLeader_ne_none hl (Except.ok.inj hnobody)
          · exact hne hnone
      rw [if_neg hfirst] at hold
      simp only [true_and] at hnew
      omega
    · rw [if_neg fun h => hw h.1] at hnew
      omega
  | _ =>
    simp only [List.countP_nil, List.countP_cons, Message.isPrevote]
    exact hold.trans hmono

/-! ## Final votes -/

/-- A node has sent at most one final vote in a view, and none before the aggregator answered. -/
def FinVotesOnce (S : Setup) (x : Hist) : Prop :=
  ∀ d v, (x.sentTo d).countP (Message.isFinVote v) ≤
    if (x.core.aggreator.prevoteAggreator v).flag = true ∨
      S.quorum ≤ (x.core.aggreator.prevoteAggreator v).noNums then 1 else 0

theorem FinVotesOnce.rule (h : Rule S env i x0 x y) (hok : AnswersOnce S x0 env i)
    (hx : FinVotesOnce S x) : FinVotesOnce S y := by
  intro d v
  obtain ⟨new, hnew, heq⟩ := h.sends d
  have hold := hx d v
  have hmono : (if (x.core.aggreator.prevoteAggreator v).flag = true ∨
        S.quorum ≤ (x.core.aggreator.prevoteAggreator v).noNums then 1 else 0) ≤
      if (y.core.aggreator.prevoteAggreator v).flag = true ∨
        S.quorum ≤ (y.core.aggreator.prevoteAggreator v).noNums then 1 else 0 := by
    by_cases hc : (x.core.aggreator.prevoteAggreator v).flag = true ∨
        S.quorum ≤ (x.core.aggreator.prevoteAggreator v).noNums
    · rw [if_pos hc,
        if_pos (hc.imp h.prevote_flag_mono fun hle => hle.trans (h.prevote_noNums_le v))]
    · rw [if_neg hc]
      exact Nat.zero_le _
  rw [heq, List.countP_append]
  cases hnew with
  | finVoteYes pv hi hh hx0 he hn hc hf hy =>
    rw [countP_newFinVote]
    by_cases hv : pv.view = v
    · subst hv hi
      rw [hx0.core] at hold he hn hc hf
      have hlt := hok pv rfl (decide_eq_false (not_lt.mpr he)) (addPreVote_yes hn hc hf)
      rw [if_neg (by simp [hf, hlt])] at hold
      have hflag : (y.core.aggreator.prevoteAggreator pv.view).flag = true := by
        rw [hy, Function.update_self]
      rw [if_pos rfl, if_pos (.inl hflag)]
      omega
    · rw [if_neg hv]
      exact hold.trans hmono
  | finVoteNo pv hh hn hq hz hf hy =>
    rw [countP_newFinVote]
    by_cases hv : pv.view = v
    · subst hv
      -- The prevote is for no, and the one that completes the quorum.
      have hlt : (x.core.aggreator.prevoteAggreator pv.view).noNums < S.quorum := by
        obtain ⟨-, -, ⟨-, -, hcount⟩ | ⟨-, hcount, -⟩⟩ :=
          (x.core.aggreator.prevoteAggreator pv.view).count_cases pv <;> omega
      rw [if_neg (by simp [hf, hlt])] at hold
      have hnow : S.quorum ≤ (y.core.aggreator.prevoteAggreator pv.view).noNums := by
        rw [hy, Function.update_self]
        exact hq.ge
      rw [if_pos rfl, if_pos (.inr hnow)]
      omega
    · rw [if_neg hv]
      exact hold.trans hmono
  | leader w outs he ho hc =>
    rw [ho.countP_eq_zero (fun _ => rfl) fun _ => rfl]
    exact hold.trans hmono
  | _ =>
    simp only [List.countP_nil, List.countP_cons, Message.isFinVote]
    exact hold.trans hmono

/-! ## The network -/

/-- The two conditions together. -/
def VotesOnce (S : Setup) : Cond := fun x env i => AnswersOnce S x env i ∧ ElectsOnce S x env i

instance (S : Setup) (x : Hist) (env : Env) (i : Input) : Decidable (VotesOnce S x env i) :=
  inferInstanceAs (Decidable (_ ∧ _))

/-- In a run in which no prevote for yes is answered after a quorum for no, and no coin comes to a
ready view that has a leader, every node broadcasts at most one prevote and at most one final vote
in a view. -/
theorem votes_sent_once (hr : Run S (VotesOnce S) s) (q : NodeID) (epoch round : ℤ) :
    (s.nodes q).broadcasts.countP (Message.isPrevote ⟨epoch, round⟩) ≤ 1 ∧
      (s.nodes q).broadcasts.countP (Message.isFinVote ⟨epoch, round⟩) ≤ 1 := by
  have hboth : PrevotesOnce (s.nodes q) ∧ FinVotesOnce S (s.nodes q) := by
    refine ((hr.localRun q).invariant (I := fun z => VotesCounted S z ∧
      ((∀ h : Halt, .halt h ∈ z.handled → h.leader ≠ NONE) → PrevotesOnce z ∧ FinVotesOnce S z))
      ?_ ?_).2 fun h hm => hr.halt_leader_ne_none hm
    · refine ⟨(Facts.init S q).counted, fun _ => ⟨fun d v => ?_, fun d v => ?_⟩⟩ <;>
        simp [Hist.init, Hist.sentTo]
    · rintro env i x0 z z' ⟨hok, -⟩ h ⟨hvotes, ih⟩
      refine ⟨hvotes.rule h, fun hh => ?_⟩
      obtain ⟨hprevotes, hfinVotes⟩ := ih fun ht hm => hh ht (h.mem_handled hm)
      exact ⟨hprevotes.rule h hok.2 hvotes hh, hfinVotes.rule h hok.1⟩
  have hle : ∀ {f : Message → Bool} {c : Prop} [Decidable c],
      (∀ m, f m = true → m.isBroadcast = true) →
      ((s.nodes q).sentTo q).countP f ≤ (if c then 1 else 0) →
      (s.nodes q).broadcasts.countP f ≤ 1 := by
    intro f c _ hf hcount
    rw [(hr.facts q).even.countP_broadcasts hf q]
    refine hcount.trans ?_
    split_ifs <;> omega
  exact ⟨hle (by rintro (_ | _) <;> simp [Message.isPrevote, Message.isBroadcast]) (hboth.1 _ _),
    hle (by rintro (_ | _) <;> simp [Message.isFinVote, Message.isBroadcast]) (hboth.2 _ _)⟩

/-- A node that has sent a prevote and a final vote. -/
theorem votes_sent_once_voted : ∃ s : Net, Run (demo 4 1) (VotesOnce (demo 4 1)) s ∧
    (s.nodes 0).Broadcast (.prevote ⟨0, 1, 0, 0, .yes, demoHash 1⟩) ∧
    (s.nodes 0).Broadcast (.finVote ⟨0, 0, 0, 0, .yes, demoHash 1⟩) ∧
    (s.nodes 0).broadcasts.countP (Message.isPrevote ⟨0, 0⟩) ≤ 1 ∧
    (s.nodes 0).broadcasts.countP (Message.isFinVote ⟨0, 0⟩) ≤ 1 := by
  obtain ⟨s, hr, hs⟩ := exists_run (demo 4 1) (VotesOnce (demo 4 1)) [0, 1, 2, 3]
    (votedRound 1 0 2 3)
    (fun nodes => decide ((nodes 0).Broadcast (.prevote ⟨0, 1, 0, 0, .yes, demoHash 1⟩) ∧
      (nodes 0).Broadcast (.finVote ⟨0, 0, 0, 0, .yes, demoHash 1⟩)))
    (by decide) (by decide +kernel)
  obtain ⟨hprevote, hfinVote⟩ := of_decide_eq_true hs
  exact ⟨s, hr, hprevote, hfinVote, votes_sent_once hr 0 0 0⟩

/-- All four nodes learn that `L` is elected, `a` has locked its block, the others have not, and `b`
takes the three prevotes for no before the one for yes. -/
def splitRound (L a b c : NodeID) : List Act :=
  [L, a, b, c].map .start ++ phaseOne L [L, a, b] ++ locks L [a] ++
    spbRun a [L, a, b] ++ spbRun b [L, a, b] ++ spbRun c [L, b, c] ++
    finishes a [a, b, c] ++ finishes b [a, b, c] ++ dones L [a, b] ++
    dones L [L] ++ dones a [L, a, b] ++ dones b [L, a, b] ++ dones c [L, a, b] ++
    [L, a, b, c].flatMap (fun q => shares q [L, a, b]) ++
    [L, b, c].flatMap (fun q => prevotes ⟨q, L, 0, 0, .no, 0⟩ [b]) ++
    prevotes ⟨a, L, 0, 0, .yes, demoHash L⟩ [b]

/-- That node sends a final vote for no and a final vote for yes. -/
theorem votes_sent_twice : ∃ s : Net, Run (demo 4 1) Always s ∧ (demo 4 1).absent = .other ∧
    (s.nodes 2).broadcasts.countP (Message.isFinVote ⟨0, 0⟩) = 2 := by
  obtain ⟨s, hr, hs⟩ := exists_run (demo 4 1) Always [0, 1, 2, 3] (splitRound 1 0 2 3)
    (fun nodes => decide ((nodes 2).broadcasts.countP (Message.isFinVote ⟨0, 0⟩) = 2))
    (by decide) (by decide +kernel)
  exact ⟨s, hr, rfl, of_decide_eq_true hs⟩

end SMVBA
