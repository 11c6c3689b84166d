import SMVBA.Node.Duplicates
import SMVBA.Node.Epochs
import SMVBA.Node.Thresholds
import SMVBA.Rules.Answers

/-!
# What a node does when a threshold is reached

The view change from the side of one node that is still there: a vote that was taken is counted,
unless its epoch is over (`LocalRun.counted_of_handled`), and a tally that has reached its threshold
has been acted on (`Tallies.Acted`). A quorum of `Finish` messages has brought the node's own `Done`
and share. A quorum of `Done` messages has made the view ready, and a quorum of shares has elected a
leader. Once both are there, a halt or a prevote was sent, and so on up to the proposal of the next
round.

The code keeps this up, committees of less than four nodes apart, as long as no step returns an
error of the database (`NoDatabaseError`). This is more than a database that works. A halt that
comes before the block that it names is an error too, and a node that takes it is left behind.
-/

namespace SMVBA

variable {S : Setup} {env : Env} {i : Input} {name : NodeID} {x0 x y : Hist} {outs : List Output}
  {ok : Cond} {c : Core} {sent : List Message} {v : View}

/-! ## The conditions -/

/-- The step returns neither the error of a look-up nor that of a write. In particular it takes no
halt whose block is not there yet. -/
def NoDatabaseError (S : Setup) : Cond := fun x env i =>
  ∀ o ∈ x.toNode.outcome S env i, o.err ≠ some .get ∧ o.err ≠ some .put

instance (S : Setup) (x : Hist) (env : Env) (i : Input) : Decidable (NoDatabaseError S x env i) :=
  inferInstanceAs (Decidable (∀ o ∈ x.toNode.outcome S env i, _))

/-! ## Votes that were taken -/

/-- A vote that a node took is counted, or its epoch is over. -/
theorem LocalRun.counted_of_handled (hr : LocalRun S ok name x) {m : Message} {k : VoteKey}
    (hm : m ∈ x.handled) (hk : m.voteKey? = some k) : x.core.Counted k := by
  induction hr with
  | init => cases hm
  | @step x y env i outs hr hok h ih =>
    rw [Hist.step_handled h, List.mem_append] at hm
    rcases hm with hm | hm
    · exact (ih hm).step h
    · have hi : i = .msg m := by
        cases i with
        | msg m' =>
          obtain rfl : m = m' := by simpa [Input.msg?] using hm
          rfl
        | _ => simp [Input.msg?] at hm
      subst hi
      rw [(Hist.step_msg h).1]
      exact counted_of_handle S env hk

/-! ## Shares -/

/-- The share of a message is the one that a member of the committee makes for the view. -/
def ElectShare.Genuine (S : Setup) (s : ElectShare) : Prop :=
  s.author ∈ S.committee.authorities ∧
    s.sigShare = S.requestTsSugnature s.author (S.electHash s.view)

/-- A node took genuine shares only. -/
def GenuineShares (S : Setup) (x : Hist) : Prop :=
  ∀ s, .electShare s ∈ x.handled → s.Genuine S

/-- The shares of a view are those of its authors, all of them members and each once. -/
def SharesOf (S : Setup) (v : View) (a : ElectAggreator) : Prop :=
  ∃ l : List NodeID, l.Nodup ∧ l.toFinset = a.authors ∧ (∀ q ∈ l, q ∈ S.committee.authorities) ∧
    a.shares = l.map fun q => S.requestTsSugnature q (S.electHash v)

/-- There are as many shares as authors. -/
theorem SharesOf.length_shares {a : ElectAggreator} (h : SharesOf S v a) :
    a.authors.card = a.shares.length := by
  obtain ⟨l, hnodup, hauthors, -, hshares⟩ := h
  rw [hshares, List.length_map, ← hauthors, List.toFinset_card_of_nodup hnodup]

/-- The shares of any quorum of members for a view combine to a coin that names a leader. -/
def SharesCombine (S : Setup) : Prop :=
  ∀ (v : View) (l : List NodeID), l.Nodup → (∀ a ∈ l, a ∈ S.committee.authorities) →
    l.length = S.quorum → ∃ bytes, S.combineIntactTSPartial
      (l.map fun a => S.requestTsSugnature a (S.electHash v)) (S.electHash v) = some bytes ∧
      randomLen ≤ bytes.length

theorem GenuineShares.of_rule (h : Rule S env i x0 x y) (hy : GenuineShares S y) :
    GenuineShares S x := fun s hs => hy s (h.mem_handled hs)

/-- One more genuine share. -/
theorem SharesOf.append {a : ElectAggreator} {s : ElectShare} (h : SharesOf S s.view a)
    (hs : s.Genuine S) (hn : s.author ∉ a.authors) :
    SharesOf S s.view ⟨a.shares ++ [s.sigShare], insert s.author a.authors⟩ := by
  obtain ⟨l, hnodup, hauthors, hsub, hshares⟩ := h
  have hfresh : s.author ∉ l := by
    rw [← List.mem_toFinset, hauthors]
    exact hn
  refine ⟨l ++ [s.author], ?_, ?_, ?_, ?_⟩
  · rw [← List.concat_eq_append]
    exact hnodup.concat hfresh
  · rw [List.toFinset_append, hauthors, Finset.union_comm]
    rfl
  · simpa [or_imp, forall_and] using ⟨hsub, hs.1⟩
  · rw [hshares, List.map_append, hs.2]
    rfl

/-- The shares that a node has counted are those of their authors. -/
def Tossed (S : Setup) (x : Hist) : Prop := ∀ v, SharesOf S v (x.core.elector.electAggreators v)

theorem Tossed.rule (h : Rule S env i x0 x y) (hy : GenuineShares S y) (hx : Tossed S x) :
    Tossed S y := by
  have hnew : ∀ {s : ElectShare}, .electShare s ∈ x.handled →
      s.author ∉ (x.core.elector.electAggreators s.view).authors →
      y.core.elector.electAggreators = Function.update x.core.elector.electAggreators s.view
        ⟨(x.core.elector.electAggreators s.view).shares ++ [s.sigShare],
          insert s.author (x.core.elector.electAggreators s.view).authors⟩ → Tossed S y := by
    intro s hs hn heq v
    rw [heq]
    by_cases hv : v = s.view
    · subst hv
      rw [Function.update_self]
      exact (hx s.view).append (hy s (h.mem_handled hs)) hn
    · rw [Function.update_of_ne hv]
      exact hx v
  cases h with
  | share s hh he hn => exact hnew hh hn rfl
  | elect s coin leader outs hi hh hx0 he hn hq hc hl ho => exact hnew hh hn rfl
  | _ => exact hx

/-! ## The tallies of a view -/

/-- What a node keeps for a view. -/
structure Tallies where
  finish : ℕ
  done : ℕ
  shares : ℕ
  flag : Bool
  noNums : ℕ
  finVotes : ℕ
  doneFlag : Bool
  readyFlag : Bool
  leader : NodeID

/-- The tallies of a view in a core. -/
def Core.tallies (c : Core) (v : View) : Tallies where
  finish := (c.aggreator.finishAggreator v).authors.card
  done := (c.aggreator.doneAggreator v).authors.card
  shares := (c.elector.electAggreators v).shares.length
  flag := (c.aggreator.prevoteAggreator v).flag
  noNums := (c.aggreator.prevoteAggreator v).noNums
  finVotes := (c.aggreator.finvoteAggreator v).yesNums + (c.aggreator.finvoteAggreator v).noNums
  doneFlag := c.doneFlags v
  readyFlag := c.readyFlags v
  leader := c.elector.leader v

/-- A halt or a prevote of a view. -/
def Message.isLead (v : View) : Message → Bool
  | .halt h => h.view = v
  | .prevote p => p.view = v
  | _ => false

/-- A final vote of a view is among the messages. -/
def VotedOn (sent : List Message) (v : View) : Prop := ∃ fv, .finVote fv ∈ sent ∧ fv.view = v

/-- A halt of a view is among the messages, or a phase-one proposal of the round after it. -/
def Concluded (sent : List Message) (v : View) : Prop :=
  (∃ h, .halt h ∈ sent ∧ h.view = v) ∨
    ∃ p, .spbProposal p ∈ sent ∧ p.phase = .one ∧ p.view = ⟨v.epoch, v.round + 1⟩

/-- Every threshold that the tallies of a view have reached has been acted on, where `sent` is what
the node has broadcast. -/
structure Tallies.Acted (S : Setup) (t : Tallies) (sent : List Message) (v : View) : Prop where
  finish : S.quorum ≤ t.finish → t.doneFlag = true
  done : S.quorum ≤ t.done → t.readyFlag = true
  shares : S.quorum ≤ t.shares → t.leader ≠ NONE
  led : t.readyFlag = true → t.leader ≠ NONE → ∃ m ∈ sent, m.isLead v = true
  flag : t.flag = true → VotedOn sent v
  noes : S.quorum ≤ t.noNums → VotedOn sent v
  finVotes : S.quorum ≤ t.finVotes → Concluded sent v

namespace Tallies.Acted

variable {t t' : Tallies}

/-- Further messages do no harm. -/
theorem mono (h : t.Acted S sent v) (new : List Message) : t.Acted S (sent ++ new) v where
  finish := h.finish
  done := h.done
  shares := h.shares
  led hr hl := by
    obtain ⟨m, hm, hlead⟩ := h.led hr hl
    exact ⟨m, List.mem_append_left _ hm, hlead⟩
  flag hf := by
    obtain ⟨fv, hm, hv⟩ := h.flag hf
    exact ⟨fv, List.mem_append_left _ hm, hv⟩
  noes hn := by
    obtain ⟨fv, hm, hv⟩ := h.noes hn
    exact ⟨fv, List.mem_append_left _ hm, hv⟩
  finVotes hq := by
    rcases h.finVotes hq with ⟨ht, hm, hv⟩ | ⟨p, hm, hrest⟩
    · exact .inl ⟨ht, List.mem_append_left _ hm, hv⟩
    · exact .inr ⟨p, List.mem_append_left _ hm, hrest⟩

/-- A `Finish` is counted, and the quorum sets the `Done` flag. -/
theorem countFinish (h : t.Acted S sent v) (doneFlag : Bool)
    (hdone : t.doneFlag = true → doneFlag = true)
    (hquorum : t.finish + 1 = S.quorum → doneFlag = true)
    (ht : t' = { t with finish := t.finish + 1, doneFlag := doneFlag }) : t'.Acted S sent v := by
  subst ht
  refine { h with finish := fun hq => ?_ }
  by_cases heq : t.finish + 1 = S.quorum
  · exact hquorum heq
  · exact hdone (h.finish (Nat.le_of_lt_succ (lt_of_le_of_ne hq (Ne.symm heq))))

/-- A `Done` is counted, and the quorum makes the view ready. -/
theorem countDone (h : t.Acted S sent v) (doneFlag readyFlag : Bool)
    (hdone : t.doneFlag = true → doneFlag = true)
    (hready : t.readyFlag = true → readyFlag = true)
    (hquorum : t.done + 1 = S.quorum → readyFlag = true)
    (hled : readyFlag = true → t.readyFlag = false → t.leader ≠ NONE →
      ∃ m ∈ sent, m.isLead v = true)
    (ht : t' = { t with done := t.done + 1, doneFlag := doneFlag, readyFlag := readyFlag }) :
    t'.Acted S sent v := by
  subst ht
  refine { h with
    finish := fun hq => hdone (h.finish hq), done := fun hq => ?_, led := fun hr hl => ?_ }
  · by_cases heq : t.done + 1 = S.quorum
    · exact hquorum heq
    · exact hready (h.done (Nat.le_of_lt_succ (lt_of_le_of_ne hq (Ne.symm heq))))
  · cases hbefore : t.readyFlag with
    | true => exact h.led hbefore hl
    | false => exact hled hr hbefore hl

/-- A share is counted, and the quorum elects a leader. -/
theorem countShare (h : t.Acted S sent v) (leader : NodeID)
    (hsame : t.shares + 1 ≠ S.quorum → leader = t.leader)
    (hquorum : t.shares + 1 = S.quorum → leader ≠ NONE)
    (hled : t.shares + 1 = S.quorum → t.readyFlag = true → ∃ m ∈ sent, m.isLead v = true)
    (ht : t' = { t with shares := t.shares + 1, leader := leader }) : t'.Acted S sent v := by
  subst ht
  refine { h with shares := fun hq => ?_, led := fun hr hl => ?_ }
  · by_cases heq : t.shares + 1 = S.quorum
    · exact hquorum heq
    · dsimp only
      rw [hsame heq]
      exact h.shares (Nat.le_of_lt_succ (lt_of_le_of_ne hq (Ne.symm heq)))
  · by_cases heq : t.shares + 1 = S.quorum
    · exact hled heq hr
    · dsimp only at hl
      rw [hsame heq] at hl
      exact h.led hr hl

/-- A prevote is counted, and the first yes and a quorum for no are answered. -/
theorem countPrevote (h : t.Acted S sent v) (flag : Bool) {noNums : ℕ}
    (hno : noNums ≤ t.noNums + 1) (hflag : flag = true → t.flag = false → VotedOn sent v)
    (hquorum : noNums = S.quorum → t.flag = false → VotedOn sent v)
    (ht : t' = { t with flag := flag, noNums := noNums }) : t'.Acted S sent v := by
  subst ht
  refine { h with flag := fun hf => ?_, noes := fun hq => ?_ }
  · cases hbefore : t.flag with
    | true => exact h.flag hbefore
    | false => exact hflag hf hbefore
  · cases hbefore : t.flag with
    | true => exact h.flag hbefore
    | false =>
      dsimp only at hq
      by_cases heq : noNums = S.quorum
      · exact hquorum heq hbefore
      · exact h.noes (by omega)

/-- A final vote is counted, and the quorum concludes the view. -/
theorem countFinVote (h : t.Acted S sent v)
    (hquorum : t.finVotes + 1 = S.quorum → Concluded sent v)
    (ht : t' = { t with finVotes := t.finVotes + 1 }) : t'.Acted S sent v := by
  subst ht
  refine { h with finVotes := fun hq => ?_ }
  by_cases heq : t.finVotes + 1 = S.quorum
  · exact hquorum heq
  · exact h.finVotes (Nat.le_of_lt_succ (lt_of_le_of_ne hq (Ne.symm heq)))

end Tallies.Acted

/-! ## The handlers -/

/-- The broadcasts among outputs. -/
def sentBy (outs : List Output) : List Message := outs.filterMap Output.broadcast?

section Handlers

variable {f : Finish} {d : Done} {sh : ElectShare} {pv : Prevote} {fv : FinVote}

/-- `invokeDoneAndShare` sets the flag of its view, unless it is set. -/
theorem invokeDoneAndShare_tallies (S : Setup) (c : Core) (w v : View) :
    (c.invokeDoneAndShare S w).core.tallies v =
      { c.tallies v with doneFlag := if v = w then true else c.doneFlags v } := by
  unfold Core.invokeDoneAndShare
  by_cases hv : v = w
  · subst hv
    cases hd : c.doneFlags v <;> simp [Core.tallies, Outcome.ret, hd]
  · split_ifs <;> simp [Core.tallies, Outcome.ret, hv]

/-- `processLeader` sends a halt or a prevote of a view that is ready and has a leader, unless it
panics. -/
theorem processLeader_leads (herr : (c.processLeader v).err ≠ some .panic)
    (hr : c.readyFlags v = true) (hl : c.elector.leader v ≠ NONE) :
    ∃ m ∈ sentBy (c.processLeader v).out, m.isLead v = true := by
  unfold Core.processLeader at herr ⊢
  rw [if_pos ⟨hr, hl⟩] at herr ⊢
  dsimp only at herr ⊢
  split at herr
  · exact ⟨_, mem_broadcast _, by simp [Message.isLead, Halt.view]⟩
  · split_ifs at herr ⊢
    · split at herr
      · exact absurd rfl herr
      · exact ⟨_, mem_broadcast _, by simp [Message.isLead, Prevote.view]⟩
    · exact ⟨_, mem_broadcast _, by simp [Message.isLead, Prevote.view]⟩

theorem acted_handleFinish (he : c.epoch ≤ f.epoch)
    (hn : f.author ∉ (c.aggreator.finishAggreator f.view).authors)
    (h : (c.tallies v).Acted S sent v) : ((c.handleFinish S f).core.tallies v).Acted S sent v := by
  have hcard := Finset.card_insert_of_notMem hn
  unfold Core.handleFinish Aggreator.addFinishVote FinishAggreator.append
  rw [if_neg (messgaeFilter_of_le he), if_neg hn]
  dsimp only
  by_cases hq : (insert f.author (c.aggreator.finishAggreator f.view).authors).card = S.quorum
  · rw [if_pos (decide_eq_true hq), invokeDoneAndShare_tallies]
    by_cases hv : v = f.view
    · subst hv
      rw [if_pos rfl]
      refine h.countFinish true (fun _ => rfl) (fun _ => rfl) ?_
      simp [Core.tallies, hcard]
    · simpa [Core.tallies, hv] using h
  · rw [if_neg (by simpa using hq)]
    by_cases hv : v = f.view
    · subst hv
      refine h.countFinish _ id (fun heq => absurd (hcard.trans heq) hq) ?_
      simp [Core.tallies, Outcome.ret, hcard]
    · simpa [Core.tallies, hv, Outcome.ret] using h

theorem acted_handleDone (hsize : 4 ≤ S.committee.size) (he : c.epoch ≤ d.epoch)
    (hn : d.author ∉ (c.aggreator.doneAggreator d.view).authors)
    (herr : (c.handleDone S d).err ≠ some .panic) (h : (c.tallies v).Acted S sent v) :
    ((c.handleDone S d).core.tallies v).Acted S (sent ++ sentBy (c.handleDone S d).out) v := by
  have hcard := Finset.card_insert_of_notMem hn
  have hne := S.committee.thresholds_ne_iff.mpr hsize
  unfold Core.handleDone Aggreator.addDoneVote at herr ⊢
  rw [if_neg (messgaeFilter_of_le he), DoneAggreator.append_new hn] at herr ⊢
  dsimp only at herr ⊢
  by_cases hlow : (insert d.author (c.aggreator.doneAggreator d.view).authors).card =
      S.committee.lowThreshold
  · -- The low threshold is not the quorum.
    simp only [if_pos hlow] at herr ⊢
    rw [invokeDoneAndShare_tallies]
    by_cases hv : v = d.view
    · subst hv
      rw [if_pos rfl]
      refine (h.mono _).countDone true _ (fun _ => rfl) id (fun heq => ?_)
        (fun hr hf => ?_) (by simp [Core.tallies, hcard])
      · exact absurd (heq.symm.trans (hcard.symm.trans hlow)) hne
      · exact absurd (hf.symm.trans hr) (by simp)
    · simpa [Core.tallies, hv] using h.mono _
  · simp only [if_neg hlow] at herr ⊢
    by_cases hq : (insert d.author (c.aggreator.doneAggreator d.view).authors).card = S.quorum
    · -- The view is ready, and `processLeader` looks for the leader.
      simp only [if_pos hq] at herr ⊢
      rw [processLeader_core]
      by_cases hv : v = d.view
      · subst hv
        refine (h.mono _).countDone _ true id (fun _ => rfl) (fun _ => rfl)
          (fun _ _ hl => ?_) (by simp [Core.tallies, hcard])
        obtain ⟨m, hm, hlead⟩ := processLeader_leads herr (Function.update_self ..) hl
        exact ⟨m, List.mem_append_right _ hm, hlead⟩
      · simpa [Core.tallies, hv] using h.mono _
    · simp only [if_neg hq] at herr ⊢
      by_cases hv : v = d.view
      · subst hv
        refine (h.mono _).countDone _ _ id id (fun heq => absurd (hcard.trans heq) hq)
          (fun hr hf => ?_) (by simp [Core.tallies, hcard, Outcome.ret])
        exact absurd (hf.symm.trans hr) (by simp)
      · simpa [Core.tallies, hv, Outcome.ret] using h.mono _

theorem acted_handleElectShare (hcombine : SharesCombine S) (he : c.epoch ≤ sh.epoch)
    (hgenuine : sh.Genuine S)
    (hshares : SharesOf S sh.view (c.elector.electAggreators sh.view))
    (hn : sh.author ∉ (c.elector.electAggreators sh.view).authors)
    (herr : (c.handleElectShare S sh).err ≠ some .panic) (h : (c.tallies v).Acted S sent v) :
    ((c.handleElectShare S sh).core.tallies v).Acted S
      (sent ++ sentBy (c.handleElectShare S sh).out) v := by
  have hlength : ((c.elector.electAggreators sh.view).shares ++ [sh.sigShare]).length =
      (c.elector.electAggreators sh.view).shares.length + 1 := by simp
  unfold Core.handleElectShare at herr ⊢
  rw [if_neg (messgaeFilter_of_le he)] at herr ⊢
  obtain ⟨ha, -⟩ | ⟨-, ⟨r, hr, hnone, heq⟩ | ⟨coin, leader, hq, hc, hl, heq⟩⟩ :=
    addShareVote_cases S c.elector sh
  · exact absurd ha hn
  · -- A quorum of genuine shares would have elected a leader.
    have hq : (c.elector.electAggreators sh.view).shares.length + 1 ≠ S.quorum := by
      intro hq
      obtain ⟨l, hnodup, -, hsub, hall⟩ := hshares.append hgenuine hn
      dsimp only at hall
      have hlen : l.length = S.quorum := by
        rw [← List.length_map (f := fun q => S.requestTsSugnature q (S.electHash sh.view)), ← hall,
          hlength, hq]
      obtain ⟨bytes, hbytes, hlong⟩ := hcombine sh.view l hnodup hsub hlen
      rw [← hall] at hbytes
      exact hnone bytes _ (hlength.trans hq) hbytes (if_pos hlong)
    rw [heq] at herr ⊢
    rcases hr with rfl | rfl
    · simp only [ne_eq, not_true_eq_false, if_false] at herr ⊢
      by_cases hv : v = sh.view
      · subst hv
        refine (h.mono _).countShare _ (fun _ => rfl) (fun heq => absurd heq hq)
          (fun heq => absurd heq hq) ?_
        simp [Core.tallies, Outcome.ret, Elector.leader]
      · simpa [Core.tallies, hv, Outcome.ret, Elector.leader] using h.mono _
    · exact absurd rfl herr
  · have hne := coinLeader_ne_none hl
    rw [heq] at herr ⊢
    dsimp only at herr ⊢
    rw [if_pos hne] at herr ⊢
    rw [processLeader_core]
    by_cases hv : v = sh.view
    · subst hv
      refine (h.mono _).countShare leader (fun hneq => ?_) (fun _ => hne)
        (fun _ hready => ?_) (by simp [Core.tallies, Elector.leader])
      · exact absurd (hlength.symm.trans hq) hneq
      · obtain ⟨m, hm, hlead⟩ := processLeader_leads herr hready
          (by simpa [Elector.leader] using hne)
        exact ⟨m, List.mem_append_right _ hm, hlead⟩
    · simpa [Core.tallies, hv, Elector.leader] using h.mono _

theorem acted_handlePrevote (he : c.epoch ≤ pv.epoch)
    (hn : pv.author ∉ (c.aggreator.prevoteAggreator pv.view).authors)
    (h : (c.tallies v).Acted S sent v) :
    ((c.handlePrevote S pv).core.tallies v).Acted S (sent ++ sentBy (c.handlePrevote S pv).out)
      v := by
  obtain ⟨-, hflag, hcount⟩ := (c.aggreator.prevoteAggreator pv.view).count_cases pv
  have hno : ((c.aggreator.prevoteAggreator pv.view).count pv).noNums ≤
      (c.aggreator.prevoteAggreator pv.view).noNums + 1 := by omega
  unfold Core.handlePrevote Aggreator.addPreVote PreVoteAggreator.append
  rw [if_neg (messgaeFilter_of_le he), if_neg hn]
  dsimp only
  have hvoted : ∀ flag : VoteFlag, VotedOn (sent ++ sentBy (broadcast (.finVote
      (newFinVote c.name pv.leader pv.epoch pv.round flag pv.blockHash)))) pv.view :=
    fun flag => ⟨_, List.mem_append_right _ (mem_broadcast _), rfl⟩
  by_cases hyes : 0 < ((c.aggreator.prevoteAggreator pv.view).count pv).yesNums ∧
      ((c.aggreator.prevoteAggreator pv.view).count pv).flag = false
  · simp only [if_pos hyes]
    by_cases hv : v = pv.view
    · subst hv
      refine (h.mono _).countPrevote true hno (fun _ _ => hvoted .yes)
        (fun _ _ => hvoted .yes) (by simp [Core.tallies])
    · simpa [Core.tallies, hv] using h.mono _
  · simp only [if_neg hyes]
    by_cases hq : ((c.aggreator.prevoteAggreator pv.view).count pv).noNums = S.quorum ∧
        ((c.aggreator.prevoteAggreator pv.view).count pv).flag = false
    · simp only [if_pos hq]
      by_cases hv : v = pv.view
      · subst hv
        refine (h.mono _).countPrevote (c.tallies pv.view).flag hno
          (fun hf hf' => ?_) (fun _ _ => hvoted .no)
          (by simp [Core.tallies, hflag])
        exact absurd (hf.symm.trans hf') (by simp)
      · simpa [Core.tallies, hv] using h.mono _
    · simp only [if_neg hq]
      by_cases hv : v = pv.view
      · subst hv
        refine (h.mono _).countPrevote (c.tallies pv.view).flag hno
          (fun hf hf' => ?_) (fun heq hf => ?_)
          (by simp [Core.tallies, hflag, Outcome.ret])
        · exact absurd (hf.symm.trans hf') (by simp)
        · exact absurd ⟨heq, hflag.trans hf⟩ hq
      · simpa [Core.tallies, hv, Outcome.ret] using h.mono _

/-- `advanceNextRound` proposes in the round after the view, unless the block cannot be read. -/
theorem advanceNextRound_concludes {flag : Action} {dg : Digest} (he : c.epoch ≤ v.epoch)
    (hround : v.round ≠ maxInt64)
    (herr : (c.advanceNextRound S env v flag dg).err ≠ some .get) :
    Concluded (sentBy (c.advanceNextRound S env v flag dg).out) v := by
  unfold Core.advanceNextRound at herr ⊢
  rw [if_neg (messgaeFilter_of_le he), succ64_of_ne hround] at herr ⊢
  obtain ⟨b, -, hg⟩ | ⟨-, -, hg⟩ | ⟨-, -, hg⟩ :=
    getConsensusBlock_cases S env c (c.nextHash v flag dg)
  · rw [hg]
    exact .inr ⟨⟨c.name, b, v.epoch, v.round + 1, .one⟩, mem_broadcast _, rfl, rfl⟩
  · rw [hg]
    refine .inr ⟨⟨c.name, c.generatorBlock env v.epoch, v.epoch, v.round + 1, .one⟩, ?_, rfl, rfl⟩
    exact mem_broadcast _
  · rw [hg] at herr
    exact absurd rfl herr

theorem acted_handleFinvote (he : c.epoch ≤ fv.epoch) (hround : fv.round ≠ maxInt64)
    (hn : fv.author ∉ (c.aggreator.finvoteAggreator fv.view).authors)
    (herr : (c.handleFinvote S env fv).err ≠ some .get) (h : (c.tallies v).Acted S sent v) :
    ((c.handleFinvote S env fv).core.tallies v).Acted S
      (sent ++ sentBy (c.handleFinvote S env fv).out) v := by
  have hright : ∀ {new : List Message}, Concluded new fv.view →
      Concluded (sent ++ new) fv.view := by
    rintro new (⟨ht, hm, hv⟩ | ⟨p, hm, hrest⟩)
    · exact .inl ⟨ht, List.mem_append_right _ hm, hv⟩
    · exact .inr ⟨p, List.mem_append_right _ hm, hrest⟩
  have hcount : ((c.aggreator.finvoteAggreator fv.view).count fv).yesNums +
      ((c.aggreator.finvoteAggreator fv.view).count fv).noNums =
      (c.aggreator.finvoteAggreator fv.view).yesNums +
        (c.aggreator.finvoteAggreator fv.view).noNums + 1 := by
    obtain ⟨-, ⟨-, hy, hno⟩ | ⟨-, hy, hno⟩⟩ :=
      (c.aggreator.finvoteAggreator fv.view).count_cases fv <;> omega
  -- The core after the count, and what is left to show of what is sent for it.
  have hgoal : ∀ {o : Outcome},
      o.core = { c with aggreator := { c.aggreator with
        finvoteAggreator := Function.update c.aggreator.finvoteAggreator fv.view
          ((c.aggreator.finvoteAggreator fv.view).count fv) } } →
      (((c.aggreator.finvoteAggreator fv.view).count fv).yesNums +
        ((c.aggreator.finvoteAggreator fv.view).count fv).noNums = S.quorum →
        Concluded (sentBy o.out) fv.view) →
      (o.core.tallies v).Acted S (sent ++ sentBy o.out) v := by
    intro o hcore hsent
    rw [hcore]
    by_cases hv : v = fv.view
    · subst hv
      refine (h.mono _).countFinVote (fun hq => hright (hsent (hcount.trans hq))) ?_
      simp [Core.tallies, hcount]
    · simpa [Core.tallies, hv] using h.mono _
  unfold Core.handleFinvote Aggreator.addFinVote FinVoteAggreator.append at herr ⊢
  rw [if_neg (messgaeFilter_of_le he), if_neg hn] at herr ⊢
  dsimp only at herr ⊢
  by_cases hq : ((c.aggreator.finvoteAggreator fv.view).count fv).yesNums +
      ((c.aggreator.finvoteAggreator fv.view).count fv).noNums = S.quorum
  · simp only [if_pos hq] at herr ⊢
    by_cases hyes : ((c.aggreator.finvoteAggreator fv.view).count fv).yesNums = S.quorum
    · simp only [if_pos hyes] at herr ⊢
      exact hgoal (o := ⟨_, _, none⟩) rfl fun _ =>
        .inl ⟨⟨c.name, fv.epoch, fv.round, fv.leader, fv.blockHash⟩, mem_broadcast _, rfl⟩
    · simp only [if_neg hyes] at herr ⊢
      by_cases hno : ((c.aggreator.finvoteAggreator fv.view).count fv).noNums = S.quorum
      · simp only [if_pos hno] at herr ⊢
        exact hgoal (advanceNextRound_core ..) fun _ => advanceNextRound_concludes he hround herr
      · simp only [if_neg hno] at herr ⊢
        exact hgoal (advanceNextRound_core ..) fun _ => advanceNextRound_concludes he hround herr
  · simp only [if_neg hq] at herr ⊢
    exact hgoal rfl fun heq => absurd heq hq

end Handlers

/-! ## What leaves the tallies alone -/

/-- The parts of the core that tallies are read from, and the epoch. -/
structure SameTallies (c c' : Core) : Prop where
  aggreator : c'.aggreator = c.aggreator
  elector : c'.elector = c.elector
  doneFlags : c'.doneFlags = c.doneFlags
  readyFlags : c'.readyFlags = c.readyFlags
  epoch : c'.epoch = c.epoch

namespace SameTallies

variable {c' : Core}

theorem refl (c : Core) : SameTallies c c := ⟨rfl, rfl, rfl, rfl, rfl⟩

theorem tallies_eq (h : SameTallies c c') (v : View) : c'.tallies v = c.tallies v := by
  unfold Core.tallies
  rw [h.aggreator, h.elector, h.doneFlags, h.readyFlags]

/-- The code after a call. -/
theorem bind {o : Outcome} {f : Core → Outcome} (h : SameTallies c o.core)
    (hf : SameTallies o.core (f o.core).core) : SameTallies c (o.bind f).core := by
  unfold Outcome.bind
  split
  · exact h
  · exact ⟨hf.aggreator.trans h.aggreator, hf.elector.trans h.elector,
      hf.doneFlags.trans h.doneFlags, hf.readyFlags.trans h.readyFlags, hf.epoch.trans h.epoch⟩

theorem lateCommit (p : SPBProposal) : SameTallies c (c.lateCommit S env p).core := by
  unfold Core.lateCommit
  split_ifs
  · obtain ⟨-, heq⟩ | ⟨-, heq⟩ := verifyAndCommit_cases S env c p.b
    · rw [heq]
      exact ⟨rfl, rfl, rfl, rfl, rfl⟩
    · rw [heq]
      exact refl c
  · exact refl c

theorem handleSpbProposal (p : SPBProposal) :
    SameTallies c (c.handleSpbProposal S env p).core := by
  refine (lateCommit p).bind ?_
  split_ifs
  · exact refl _
  · unfold Core.acceptProposal Core.verifyConsensusBlock
    dsimp only
    split_ifs <;> exact ⟨rfl, rfl, rfl, rfl, rfl⟩

theorem handleLoopBack (d : Digest) : SameTallies c (c.handleLoopBack S env d).core := by
  unfold Core.handleLoopBack
  split
  · exact refl c
  · exact refl c
  · refine (lateCommit _).bind ?_
    split_ifs <;> exact refl _

theorem runTask (t : Task) : SameTallies c (c.runTask S t).core := by
  cases t with
  | processProposal p =>
    unfold Core.runTask Core.processProposal
    dsimp only
    cases p.phase with
    | one =>
      dsimp only
      split_ifs <;> exact ⟨rfl, rfl, rfl, rfl, rfl⟩
    | two =>
      dsimp only
      split_ifs <;> exact ⟨rfl, rfl, rfl, rfl, rfl⟩
    | other code => exact refl c
  | processVote v =>
    unfold Core.runTask Core.processVote
    dsimp only
    split <;> exact ⟨rfl, rfl, rfl, rfl, rfl⟩

end SameTallies

/-! ## Halts -/

/-- The halted epochs are past. -/
def HaltedPast (c : Core) : Prop := ∀ e, c.haltFlags e = true → e < c.epoch

theorem HaltedPast.step (hover : i.NoOverflow) (h : x.step S env i = some (y, outs))
    (hx : HaltedPast x.core) : HaltedPast y.core := by
  intro e he
  cases step_epochStep h with
  | same hok hepoch hflags =>
    rw [hflags] at he
    rw [hepoch]
    exact hx e he
  | accept ht hi ha hepoch hflags =>
    subst hi
    rw [succ64_of_ne (hover.epoch ht rfl)] at hepoch
    rw [hflags] at he
    by_cases hne : e = ht.epoch
    · omega
    · rw [Function.update_of_ne hne] at he
      have hlt := hx e he
      omega

/-- A halt that `handleHalt` does not fail on is past, once it is handled, and leaves the tallies of
the views after it alone. -/
theorem handleHalt_past (S : Setup) (env : Env) {h : Halt} (hhalted : HaltedPast c)
    (hover : h.epoch ≠ maxInt64) (herr : (c.handleHalt S env h).err ≠ some .get) :
    h.epoch < (c.handleHalt S env h).core.epoch ∧
      ∀ v : View, (c.handleHalt S env h).core.epoch ≤ v.epoch →
        (c.handleHalt S env h).core.tallies v = c.tallies v := by
  unfold Core.handleHalt at herr ⊢
  by_cases hfilter : c.messgaeFilter h.epoch = true
  · rw [if_pos hfilter]
    exact ⟨of_decide_eq_true hfilter, fun _ _ => rfl⟩
  rw [if_neg hfilter] at herr ⊢
  by_cases hflag : c.haltFlags h.epoch = true
  · rw [if_pos hflag]
    exact ⟨hhalted _ hflag, fun _ _ => rfl⟩
  rw [if_neg hflag] at herr ⊢
  have hle : c.epoch ≤ h.epoch := by simpa [Core.messgaeFilter] using hfilter
  obtain ⟨k, outs, -, heq⟩ | ⟨-, -, heq⟩ := handleOutput_cases S env
    { c with elector := c.elector.setLeader h.view h.leader } h.blockHash
  · rw [heq]
    unfold Outcome.bind Core.advanceNextEpoch
    dsimp only
    rw [succ64_of_ne hover, if_neg (by omega)]
    refine ⟨Int.lt_succ h.epoch, fun v hv => ?_⟩
    -- The view of the halt is past, so the entry of `v` is not the one that was written.
    have hne : v ≠ h.view := by
      rintro rfl
      exact absurd hv (not_le.mpr (Int.lt_succ h.epoch))
    simp [Core.tallies, Elector.leader, Elector.setLeader, hne]
  · rw [heq] at herr
    exact absurd rfl herr

/-! ## Runs -/

/-- Every view of the node's epoch and of later ones has been acted on, as long as the node is
there. -/
def ViewsActed (S : Setup) (x : Hist) : Prop :=
  x.status ≠ .crashed → ∀ v : View, x.core.epoch ≤ v.epoch →
    (x.core.tallies v).Acted S x.broadcasts v

section Votes

variable (hsize : 4 ≤ S.committee.size) (hcombine : SharesCombine S)

include hsize hcombine

/-- A vote is acted on when it is taken. -/
theorem acted_handle_vote {m : Message} {k : VoteKey} (hm : m.voteKey? = some k)
    (htossed : ∀ v, SharesOf S v (c.elector.electAggreators v))
    (hgenuine : ∀ s, m = .electShare s → s.Genuine S) (hover : (Input.msg m).NoOverflow)
    (hpanic : (c.handle S env m).err ≠ some .panic) (hget : (c.handle S env m).err ≠ some .get)
    (h : (c.tallies v).Acted S sent v) :
    ((c.handle S env m).core.tallies v).Acted S (sent ++ sentBy (c.handle S env m).out) v := by
  by_cases hk : c.Counted k
  · obtain ⟨e, -, heq⟩ := handle_of_counted S env hm hk
    rw [heq]
    exact h.mono _
  obtain ⟨he, hn⟩ := not_or.mp hk
  rw [not_lt] at he
  cases m with
  | finish f =>
    cases hm
    exact (acted_handleFinish he hn h).mono _
  | done d =>
    cases hm
    exact acted_handleDone hsize he hn hpanic h
  | electShare s =>
    cases hm
    exact acted_handleElectShare hcombine he (hgenuine s rfl) (htossed s.view) hn hpanic h
  | prevote pv =>
    cases hm
    exact acted_handlePrevote he hn h
  | finVote fv =>
    cases hm
    exact acted_handleFinvote he (hover.round fv rfl) hn hget h
  | _ => cases hm

theorem ViewsActed.step (hover : i.NoOverflow) (hdb : NoDatabaseError S x env i)
    (hhalted : HaltedPast x.core) (htossed : Tossed S x) (hgenuine : GenuineShares S y)
    (h : x.step S env i = some (y, outs)) (hx : ViewsActed S x) : ViewsActed S y := by
  obtain ⟨o, ho, rfl, rfl⟩ := Hist.step_eq_some h
  intro hstatus v hv
  have hpanic : o.err ≠ some .panic := fun herr => hstatus (if_pos herr)
  have hget := (hdb o ho).1
  have hsent : Hist.broadcasts { toNode := x.toNode.after i o
                                 handled := x.handled ++ i.msg?.toList
                                 out := x.out ++ o.out
                                 decided := x.decided ++ Hist.newHalt x.core o.core i } =
      x.broadcasts ++ sentBy o.out := List.filterMap_append ..
  rw [hsent]
  change o.core.epoch ≤ v.epoch at hv
  change (o.core.tallies v).Acted S (x.broadcasts ++ sentBy o.out) v
  -- What was acted on before, if the tallies and the epoch are the same.
  have hsame : x.status ≠ .crashed → SameTallies x.core o.core →
      (o.core.tallies v).Acted S (x.broadcasts ++ sentBy o.out) v := by
    intro hs htallies
    rw [htallies.tallies_eq]
    rw [htallies.epoch] at hv
    exact (hx hs v hv).mono _
  have hrunning : x.status = .running → x.status ≠ .crashed := fun hs => by rw [hs]; decide
  cases Node.runs_of_outcome ho with
  | start hs => exact hsame (by rw [hs]; decide) (.refl _)
  | loopBack d hs => exact hsame (hrunning hs) (.handleLoopBack d)
  | task t hs ht => exact hsame (hrunning hs) (.runTask t)
  | msg m hs =>
    have hle : x.core.epoch ≤ (x.core.handle S env m).core.epoch := Hist.step_epoch_le h
    cases hkey : m.voteKey? with
    | some k =>
      refine acted_handle_vote hsize hcombine hkey htossed (fun s hms => hgenuine s ?_) hover hpanic
        hget (hx (hrunning hs) v (hle.trans hv))
      simp [hms, Input.msg?]
    | none =>
      cases m with
      | spbProposal p => exact hsame (hrunning hs) (.handleSpbProposal p)
      | spbVote w =>
        refine hsame (hrunning hs) ?_
        unfold Core.handle Core.handleSpbVote
        dsimp only
        split_ifs <;> exact .refl _
      | halt ht =>
        have hpast := handleHalt_past S env hhalted (hover.epoch ht rfl) hget
        have htallies : (x.core.handle S env (.halt ht)).core.tallies v = x.core.tallies v :=
          hpast.2 v hv
        rw [htallies]
        exact (hx (hrunning hs) v (hle.trans hv)).mono _
      | _ => cases hkey

end Votes

/-- Every halt that a node took is of an epoch that is past. -/
def HaltsPast (x : Hist) : Prop := ∀ h, .halt h ∈ x.handled → h.epoch < x.core.epoch

theorem HaltsPast.step (hover : i.NoOverflow) (hdb : NoDatabaseError S x env i)
    (hhalted : HaltedPast x.core) (h : x.step S env i = some (y, outs)) (hx : HaltsPast x) :
    HaltsPast y := by
  intro ht hm
  rw [Hist.step_handled h, List.mem_append] at hm
  rcases hm with hm | hm
  · exact (hx ht hm).trans_le (Hist.step_epoch_le h)
  · obtain ⟨o, ho, rfl, rfl⟩ := Hist.step_eq_some h
    cases Node.runs_of_outcome ho with
    | msg m hs =>
      obtain rfl : m = .halt ht := by simpa [Input.msg?, eq_comm] using hm
      exact (handleHalt_past S env hhalted (hover.epoch ht rfl) (hdb _ ho).1).1
    | _ => simp [Input.msg?] at hm

/-- What holds of a node no step of which has failed on the database. -/
structure Attentive (S : Setup) (x : Hist) : Prop where
  halted : HaltedPast x.core
  halts : HaltsPast x
  tossed : GenuineShares S x → Tossed S x
  acted : GenuineShares S x → ViewsActed S x

theorem LocalRun.attentive (hsize : 4 ≤ S.committee.size) (hcombine : SharesCombine S)
    (hok : ∀ x env i, ok x env i → NoDatabaseError S x env i ∧ i.NoOverflow)
    (hr : LocalRun S ok name x) : Attentive S x := by
  induction hr with
  | init =>
    refine ⟨fun e he => ?_, fun h hm => ?_, fun _ v => ?_, fun _ _ v _ => ?_⟩
    · cases he
    · cases hm
    · exact ⟨[], List.nodup_nil, rfl, by simp, rfl⟩
    · -- Nothing is counted yet, and a quorum is not zero.
      have hpos := S.quorum_pos
      have hnone : ¬ S.quorum ≤ 0 := by omega
      exact ⟨fun h => absurd h hnone, fun h => absurd h hnone, fun h => absurd h hnone,
        (by intro h; cases h), (by intro h; cases h), fun h => absurd h hnone,
        fun h => absurd h hnone⟩
  | @step x y env i outs hr hstep h ih =>
    obtain ⟨hdb, hover⟩ := hok _ _ _ hstep
    have hback : GenuineShares S y → GenuineShares S x := by
      intro hy s hs
      refine hy s ?_
      rw [Hist.step_handled h]
      exact List.mem_append_left _ hs
    refine ⟨ih.halted.step hover h, ih.halts.step hover hdb ih.halted h, fun hy => ?_, fun hy => ?_⟩
    · exact step_invariant_before (B := GenuineShares S) (I := Tossed S)
        (fun hrule hz' => hz'.of_rule hrule) (fun hrule hz' hz => hz.rule hrule hz') h hy
        (ih.tossed (hback hy))
    · have htossed := ih.tossed (hback hy)
      exact (ih.acted (hback hy)).step hsize hcombine hover hdb ih.halted htossed hy h

end SMVBA
