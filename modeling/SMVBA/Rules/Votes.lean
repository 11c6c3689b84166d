import SMVBA.Library.Quorum
import SMVBA.Rules.Spb

/-!
# The aggregators and the votes behind them

The four aggregators of a view count authors, and `VotesCounted` says which messages stand behind
their counts. A prevote that is not for no counts as a yes, and a final vote that is not for yes
counts as a no, which is how the code reads the flags. `Causes` then says what a node had counted
when it sent each of the messages of the view change.
-/

namespace SMVBA

open Quorum

variable {S : Setup} {env : Env} {i : Input} {x0 x y : Hist}

/-! ## How an aggregator changes -/

/-- The aggregator of a view counts a new `Finish`, or stays. -/
theorem Rule.finish_cases (h : Rule S env i x0 x y) (v : View) :
    y.core.aggreator.finishAggreator v = x.core.aggreator.finishAggreator v ∨
      ∃ f, .finish f ∈ y.handled ∧ f.view = v ∧
        y.core.aggreator.finishAggreator v =
          ⟨insert f.author (x.core.aggreator.finishAggreator v).authors⟩ := by
  cases h with
  | finish f hh he hn =>
    by_cases hv : v = f.view
    · subst hv
      exact .inr ⟨f, hh, rfl, Function.update_self ..⟩
    · exact .inl (Function.update_of_ne hv _ _)
  | _ => exact .inl rfl

/-- The aggregator of a view counts a new `Done`, or stays. -/
theorem Rule.done_cases (h : Rule S env i x0 x y) (v : View) :
    y.core.aggreator.doneAggreator v = x.core.aggreator.doneAggreator v ∨
      ∃ dn, .done dn ∈ y.handled ∧ dn.view = v ∧
        y.core.aggreator.doneAggreator v =
          ⟨insert dn.author (x.core.aggreator.doneAggreator v).authors⟩ := by
  cases h with
  | done dn hh _ _ | ready dn _ _ hh _ _ _ _ _ =>
    by_cases hv : v = dn.view
    · subst hv
      exact .inr ⟨dn, hh, rfl, Function.update_self ..⟩
    · exact .inl (Function.update_of_ne hv _ _)
  | _ => exact .inl rfl

/-- The aggregator of a view counts a new prevote, or stays. -/
inductive PrevoteChange (S : Setup) (x y : Hist) (v : View) : Prop
  | same (h : y.core.aggreator.prevoteAggreator v = x.core.aggreator.prevoteAggreator v)
  | count (pv : Prevote) (hh : .prevote pv ∈ y.handled) (hv : pv.view = v)
      (hn : pv.author ∉ (x.core.aggreator.prevoteAggreator v).authors)
      (hf : 0 < ((x.core.aggreator.prevoteAggreator v).count pv).yesNums →
        (x.core.aggreator.prevoteAggreator v).flag = true)
      (h : y.core.aggreator.prevoteAggreator v = (x.core.aggreator.prevoteAggreator v).count pv)
  | flag (pv : Prevote) (hh : .prevote pv ∈ y.handled) (hv : pv.view = v)
      (hn : pv.author ∉ (x.core.aggreator.prevoteAggreator v).authors)
      (h : y.core.aggreator.prevoteAggreator v =
        { (x.core.aggreator.prevoteAggreator v).count pv with flag := true })

theorem Rule.prevoteChange (h : Rule S env i x0 x y) (v : View) : PrevoteChange S x y v := by
  cases h with
  | prevote pv hh he hn hf =>
    by_cases hv : v = pv.view
    · subst hv
      exact .count pv hh rfl hn hf (Function.update_self ..)
    · exact .same (Function.update_of_ne hv _ _)
  | prevoteYes pv hi hh hx he hn hy hf =>
    by_cases hv : v = pv.view
    · subst hv
      exact .flag pv hh rfl hn (Function.update_self ..)
    · exact .same (Function.update_of_ne hv _ _)
  | prevoteNo pv hh he hn hq hy hf =>
    by_cases hv : v = pv.view
    · subst hv
      -- With no yes at all, the flag has nothing to tell.
      exact .count pv hh rfl hn (fun hpos => absurd hy hpos.ne') (Function.update_self ..)
    · exact .same (Function.update_of_ne hv _ _)
  | _ => exact .same rfl

/-- The aggregator of a view counts a new final vote, or stays. -/
theorem Rule.finVote_cases (h : Rule S env i x0 x y) (v : View) :
    y.core.aggreator.finvoteAggreator v = x.core.aggreator.finvoteAggreator v ∨
      ∃ fv, .finVote fv ∈ y.handled ∧ fv.view = v ∧
        fv.author ∉ (x.core.aggreator.finvoteAggreator v).authors ∧
        y.core.aggreator.finvoteAggreator v = (x.core.aggreator.finvoteAggreator v).count fv := by
  cases h with
  | finVote fv hh he hn _ | finCommit fv _ hh _ he hn _ _ | finNo fv _ _ hh _ he hn _ _ _
  | finYes fv _ _ hh _ he hn _ _ _ _ =>
    by_cases hv : v = fv.view
    · subst hv
      exact .inr ⟨fv, hh, rfl, hn, Function.update_self ..⟩
    · exact .inl (Function.update_of_ne hv _ _)
  | _ => exact .inl rfl

/-- The aggregator of a view takes a new share, or stays. -/
theorem Rule.share_cases (h : Rule S env i x0 x y) (v : View) :
    y.core.elector.electAggreators v = x.core.elector.electAggreators v ∨
      ∃ s, .electShare s ∈ y.handled ∧ s.view = v ∧
        y.core.elector.electAggreators v =
          ⟨(x.core.elector.electAggreators v).shares ++ [s.sigShare],
            insert s.author (x.core.elector.electAggreators v).authors⟩ := by
  cases h with
  | share s hh he hn | elect s coin leader outs _ hh _ he hn _ _ _ _ =>
    by_cases hv : v = s.view
    · subst hv
      exact .inr ⟨s, hh, rfl, Function.update_self ..⟩
    · exact .inl (Function.update_of_ne hv _ _)
  | _ => exact .inl rfl

/-- The authors of a view's `Finish` messages only grow. -/
theorem Rule.finish_card_le (h : Rule S env i x0 x y) (v : View) :
    (x.core.aggreator.finishAggreator v).authors.card ≤
      (y.core.aggreator.finishAggreator v).authors.card := by
  rcases h.finish_cases v with heq | ⟨f, -, -, heq⟩ <;> rw [heq]
  exact Finset.card_le_card (Finset.subset_insert _ _)

/-- The authors of a view's `Done` messages only grow. -/
theorem Rule.done_card_le (h : Rule S env i x0 x y) (v : View) :
    (x.core.aggreator.doneAggreator v).authors.card ≤
      (y.core.aggreator.doneAggreator v).authors.card := by
  rcases h.done_cases v with heq | ⟨f, -, -, heq⟩ <;> rw [heq]
  exact Finset.card_le_card (Finset.subset_insert _ _)

/-- Counting a prevote adds one to one of the two numbers. -/
theorem PreVoteAggreator.count_cases (a : PreVoteAggreator) (pv : Prevote) :
    (a.count pv).authors = insert pv.author a.authors ∧ (a.count pv).flag = a.flag ∧
      ((pv.flag = .no ∧ (a.count pv).yesNums = a.yesNums ∧ (a.count pv).noNums = a.noNums + 1) ∨
        (pv.flag ≠ .no ∧ (a.count pv).yesNums = a.yesNums + 1 ∧
          (a.count pv).noNums = a.noNums)) := by
  unfold PreVoteAggreator.count
  split_ifs with hf
  · exact ⟨rfl, rfl, .inl ⟨hf, rfl, rfl⟩⟩
  · exact ⟨rfl, rfl, .inr ⟨hf, rfl, rfl⟩⟩

/-- Counting a final vote adds one to one of the two numbers. -/
theorem FinVoteAggreator.count_cases (a : FinVoteAggreator) (fv : FinVote) :
    (a.count fv).authors = insert fv.author a.authors ∧
      ((fv.flag = .yes ∧ (a.count fv).yesNums = a.yesNums + 1 ∧ (a.count fv).noNums = a.noNums) ∨
        (fv.flag ≠ .yes ∧ (a.count fv).yesNums = a.yesNums ∧
          (a.count fv).noNums = a.noNums + 1)) := by
  unfold FinVoteAggreator.count
  split_ifs with hf
  · exact ⟨rfl, .inl ⟨hf, rfl, rfl⟩⟩
  · exact ⟨rfl, .inr ⟨hf, rfl, rfl⟩⟩

/-- Where no final vote for no is counted, the last one was for yes. -/
theorem FinVoteAggreator.flag_of_count {a : FinVoteAggreator} {fv : FinVote}
    (hz : (a.count fv).noNums = 0) : fv.flag = .yes := by
  obtain ⟨-, ⟨hf, -, -⟩ | ⟨-, -, hcount⟩⟩ := a.count_cases fv
  · exact hf
  · omega

/-- The prevotes for no of a view only grow. -/
theorem Rule.prevote_noNums_le (h : Rule S env i x0 x y) (v : View) :
    (x.core.aggreator.prevoteAggreator v).noNums ≤
    (y.core.aggreator.prevoteAggreator v).noNums := by
  cases h.prevoteChange v with
  | same heq => rw [heq]
  | count pv _ _ _ _ heq | flag pv _ _ _ heq =>
    have hno : (y.core.aggreator.prevoteAggreator v).noNums =
        ((x.core.aggreator.prevoteAggreator v).count pv).noNums := by rw [heq]
    obtain ⟨-, -, ⟨-, -, hcount⟩ | ⟨-, -, hcount⟩⟩ :=
      (x.core.aggreator.prevoteAggreator v).count_cases pv <;> omega

/-- The numbers of a view's final votes only grow. -/
theorem Rule.finVote_nums_le (h : Rule S env i x0 x y) (v : View) :
    (x.core.aggreator.finvoteAggreator v).yesNums ≤ (y.core.aggreator.finvoteAggreator v).yesNums ∧
      (x.core.aggreator.finvoteAggreator v).noNums ≤
        (y.core.aggreator.finvoteAggreator v).noNums := by
  rcases h.finVote_cases v with heq | ⟨fv, -, -, -, heq⟩
  · rw [heq]
    exact ⟨le_rfl, le_rfl⟩
  · rw [heq]
    obtain ⟨-, ⟨-, hy, hno⟩ | ⟨-, hy, hno⟩⟩ :=
      (x.core.aggreator.finvoteAggreator v).count_cases fv <;> omega

/-! ## The messages behind the counts -/

/-- A node took a prevote of the author for the view, whose flag satisfies `f`. -/
def Hist.TookPrevote (x : Hist) (v : View) (f : VoteFlag → Prop) (a : NodeID) : Prop :=
  ∃ pv, .prevote pv ∈ x.handled ∧ pv.author = a ∧ pv.view = v ∧ f pv.flag

/-- A node took a final vote of the author for the view, whose flag satisfies `f`. -/
def Hist.TookFinVote (x : Hist) (v : View) (f : VoteFlag → Prop) (a : NodeID) : Prop :=
  ∃ fv, .finVote fv ∈ x.handled ∧ fv.author = a ∧ fv.view = v ∧ f fv.flag

/-- The messages behind the counts of the aggregators. -/
structure VotesCounted (S : Setup) (x : Hist) : Prop where
  finish : ∀ v, ∀ a ∈ (x.core.aggreator.finishAggreator v).authors,
    ∃ f, .finish f ∈ x.handled ∧ f.author = a ∧ f.view = v
  done : ∀ v, ∀ a ∈ (x.core.aggreator.doneAggreator v).authors,
    ∃ dn, .done dn ∈ x.handled ∧ dn.author = a ∧ dn.view = v
  prevote : ∀ v, Tally (x.TookPrevote v (· ≠ .no)) (x.TookPrevote v (· = .no))
    (x.core.aggreator.prevoteAggreator v).authors (x.core.aggreator.prevoteAggreator v).yesNums
    (x.core.aggreator.prevoteAggreator v).noNums
  flag : ∀ v, (x.core.aggreator.prevoteAggreator v).flag = false →
    (x.core.aggreator.prevoteAggreator v).yesNums = 0
  finVote : ∀ v, Tally (x.TookFinVote v (· = .yes)) (x.TookFinVote v (· ≠ .yes))
    (x.core.aggreator.finvoteAggreator v).authors (x.core.aggreator.finvoteAggreator v).yesNums
    (x.core.aggreator.finvoteAggreator v).noNums
  finishFlags : ∀ s d, x.core.finishFlags s = some d →
    .finish ⟨s.node, d, s.epoch, s.round⟩ ∈ x.handled
  ready : ∀ v, x.core.readyFlags v = true →
    S.quorum ≤ (x.core.aggreator.doneAggreator v).authors.card

/-- What was taken stays on record. -/
theorem Hist.TookPrevote.rule (h : Rule S env i x0 x y) {v : View}
    {f : VoteFlag → Prop} {a : NodeID}
    (ht : x.TookPrevote v f a) : y.TookPrevote v f a := by
  obtain ⟨pv, hm, hrest⟩ := ht
  exact ⟨pv, h.mem_handled hm, hrest⟩

/-- What was taken stays on record. -/
theorem Hist.TookFinVote.rule (h : Rule S env i x0 x y) {v : View}
    {f : VoteFlag → Prop} {a : NodeID}
    (ht : x.TookFinVote v f a) : y.TookFinVote v f a := by
  obtain ⟨fv, hm, hrest⟩ := ht
  exact ⟨fv, h.mem_handled hm, hrest⟩

/-- The tally of the prevotes of a view after one more. -/
theorem VotesCounted.count_prevote (h : Rule S env i x0 x y) (hx : VotesCounted S x) {pv : Prevote}
    (hh : .prevote pv ∈ y.handled)
    (hn : pv.author ∉ (x.core.aggreator.prevoteAggreator pv.view).authors) :
    Tally (y.TookPrevote pv.view (· ≠ .no)) (y.TookPrevote pv.view (· = .no))
      ((x.core.aggreator.prevoteAggreator pv.view).count pv).authors
      ((x.core.aggreator.prevoteAggreator pv.view).count pv).yesNums
      ((x.core.aggreator.prevoteAggreator pv.view).count pv).noNums := by
  have hold := (hx.prevote pv.view).mono (fun a => Hist.TookPrevote.rule h)
    (fun a => Hist.TookPrevote.rule h)
  obtain ⟨ha, -, ⟨hf, hy, hno⟩ | ⟨hf, hy, hno⟩⟩ :=
    (x.core.aggreator.prevoteAggreator pv.view).count_cases pv
  · rw [ha, hy, hno]
    exact hold.insert_no hn ⟨pv, hh, rfl, rfl, hf⟩
  · rw [ha, hy, hno]
    exact hold.insert_yes hn ⟨pv, hh, rfl, rfl, hf⟩

/-- What holds of the authors before, and of the one that is added, holds of all. -/
theorem forall_authors {A B : Finset NodeID} {P : NodeID → Prop} (hold : ∀ a ∈ A, P a)
    (hnew : B = A ∨ ∃ b, P b ∧ B = insert b A) : ∀ a ∈ B, P a := by
  rcases hnew with rfl | ⟨b, hb, rfl⟩
  · exact hold
  · exact Finset.forall_mem_insert .. |>.mpr ⟨hb, hold⟩

theorem VotesCounted.rule (h : Rule S env i x0 x y) (hx : VotesCounted S x) : VotesCounted S y where
  finish v := by
    refine forall_authors (fun a ha => ?_) ((h.finish_cases v).imp (congrArg _) ?_)
    · obtain ⟨f, hm, hrest⟩ := hx.finish v a ha
      exact ⟨f, h.mem_handled hm, hrest⟩
    · rintro ⟨f, hm, hv, heq⟩
      exact ⟨f.author, ⟨f, hm, rfl, hv⟩, congrArg _ heq⟩
  done v := by
    refine forall_authors (fun a ha => ?_) ((h.done_cases v).imp (congrArg _) ?_)
    · obtain ⟨dn, hm, hrest⟩ := hx.done v a ha
      exact ⟨dn, h.mem_handled hm, hrest⟩
    · rintro ⟨dn, hm, hv, heq⟩
      exact ⟨dn.author, ⟨dn, hm, rfl, hv⟩, congrArg _ heq⟩
  prevote v := by
    cases h.prevoteChange v with
    | same heq =>
      rw [heq]
      exact (hx.prevote v).mono (fun a => Hist.TookPrevote.rule h)
        (fun a => Hist.TookPrevote.rule h)
    | count pv hh hv hn _ heq | flag pv hh hv hn heq =>
      subst hv
      rw [heq]
      exact hx.count_prevote h hh hn
  flag v hfalse := by
    cases h.prevoteChange v with
    | same heq =>
      rw [heq] at hfalse ⊢
      exact hx.flag v hfalse
    | count pv hh hv hn hf heq =>
      rw [heq] at hfalse ⊢
      rw [((x.core.aggreator.prevoteAggreator v).count_cases pv).2.1] at hfalse
      -- A yes that is counted without an answer finds the flag raised.
      by_contra hne
      rw [hf (Nat.pos_of_ne_zero hne)] at hfalse
      cases hfalse
    | flag pv hh hv hn heq =>
      rw [heq] at hfalse
      cases hfalse
  finVote v := by
    have hold := (hx.finVote v).mono (fun a => Hist.TookFinVote.rule h)
      (fun a => Hist.TookFinVote.rule h)
    rcases h.finVote_cases v with heq | ⟨fv, hm, hv, hn, heq⟩
    · rw [heq]
      exact hold
    · rw [heq]
      obtain ⟨ha, ⟨hf, hy, hno⟩ | ⟨hf, hy, hno⟩⟩ :=
        (x.core.aggreator.finvoteAggreator v).count_cases fv
      · rw [ha, hy, hno]
        exact hold.insert_yes hn ⟨fv, hm, rfl, hv, hf⟩
      · rw [ha, hy, hno]
        exact hold.insert_no hn ⟨fv, hm, rfl, hv, hf⟩
  finishFlags s d hd := by
    cases h with
    | recv m hi hx0 => exact List.mem_append_left _ (hx.finishFlags s d hd)
    | forward m t hi ht => exact List.mem_append_left _ (hx.finishFlags s d hd)
    | finish f hh he hn =>
      dsimp only at hd ⊢
      by_cases hs : s = f.slot
      · subst hs
        rw [Function.update_self] at hd
        obtain rfl := Option.some.inj hd
        exact hh
      · rw [Function.update_of_ne hs] at hd
        exact hx.finishFlags s d hd
    | _ => exact hx.finishFlags s d hd
  ready v hv := by
    have hmono := h.done_card_le v
    cases h with
    | ready dn outs hi hh hx0 he hn hq ho =>
      dsimp only at hv hmono ⊢
      by_cases hs : v = dn.view
      · subst hs
        rw [Function.update_self]
        exact hq.ge
      · rw [Function.update_of_ne hs] at hv
        exact (hx.ready v hv).trans hmono
    | _ => exact (hx.ready v hv).trans hmono

/-! ## What a node had counted when it sent a message -/

/-- What stands behind a prevote: a quorum of `Done` messages, and for a yes the lock of the
leader's instance. -/
structure PrevoteCause (S : Setup) (x : Hist) (pv : Prevote) : Prop where
  leader : pv.leader ≠ NONE
  ready : S.quorum ≤ (x.core.aggreator.doneAggreator pv.view).authors.card
  lock : (pv.flag = .yes ∧ (x.core.spbInstances (pv.view.slot pv.leader)).lockFlag = true ∧
      (x.core.spbInstances (pv.view.slot pv.leader)).blockHash = some pv.blockHash) ∨
    (pv.flag = .no ∧ pv.blockHash = 0)

/-- What stands behind a final vote: a prevote for yes, or a quorum of prevotes for no. -/
inductive FinVoteCause (S : Setup) (x : Hist) (fv : FinVote) : Prop
  | yes (pv : Prevote) (hf : fv.flag = .yes) (hh : .prevote pv ∈ x.handled) (hv : pv.view = fv.view)
      (hy : pv.flag ≠ .no) (hb : pv.blockHash = fv.blockHash)
  | no (pv : Prevote) (hf : fv.flag = .no) (hh : .prevote pv ∈ x.handled) (hv : pv.view = fv.view)
      (hy : pv.flag = .no) (hb : pv.blockHash = fv.blockHash)
      (hq : S.quorum ≤ (x.core.aggreator.prevoteAggreator fv.view).noNums)

/-- What stands behind a halt: a `Finish` of the leader in a ready view, or a quorum of final votes
for yes. -/
inductive HaltCause (S : Setup) (x : Hist) (h : Halt) : Prop
  | finish (hl : h.leader ≠ NONE)
      (hr : S.quorum ≤ (x.core.aggreator.doneAggreator h.view).authors.card)
      (hf : .finish ⟨h.leader, h.blockHash, h.epoch, h.round⟩ ∈ x.handled)
  | votes (fv : FinVote) (hh : .finVote fv ∈ x.handled) (hv : fv.view = h.view)
      (hf : fv.flag = .yes)
      (hl : fv.leader = h.leader) (hb : fv.blockHash = h.blockHash)
      (hq : S.quorum ≤ (x.core.aggreator.finvoteAggreator h.view).yesNums)

/-- The causes of the messages of the view change. -/
structure Causes (S : Setup) (x : Hist) : Prop where
  done : ∀ d dn, .done dn ∈ x.sentTo d →
    S.quorum ≤ (x.core.aggreator.finishAggreator dn.view).authors.card ∨
      S.committee.lowThreshold ≤ (x.core.aggreator.doneAggreator dn.view).authors.card
  prevote : ∀ d pv, .prevote pv ∈ x.sentTo d → PrevoteCause S x pv
  finVote : ∀ d fv, .finVote fv ∈ x.sentTo d → fv.leader = 0 ∧ FinVoteCause S x fv
  halt : ∀ d h, .halt h ∈ x.sentTo d → HaltCause S x h

theorem PrevoteCause.rule (h : Rule S env i x0 x y) {pv : Prevote} (hx : PrevoteCause S x pv) :
    PrevoteCause S y pv where
  leader := hx.leader
  ready := hx.ready.trans (h.done_card_le _)
  lock := hx.lock.imp_left fun ⟨hf, hl, hb⟩ => ⟨hf, h.lockFlag_eq hl, h.blockHash_eq hb⟩

theorem FinVoteCause.rule (h : Rule S env i x0 x y) {fv : FinVote} (hx : FinVoteCause S x fv) :
    FinVoteCause S y fv := by
  cases hx with
  | yes pv hf hh hv hy hb => exact .yes pv hf (h.mem_handled hh) hv hy hb
  | no pv hf hh hv hy hb hq =>
    exact .no pv hf (h.mem_handled hh) hv hy hb (hq.trans (h.prevote_noNums_le _))

theorem HaltCause.rule (h : Rule S env i x0 x y) {ht : Halt} (hx : HaltCause S x ht) :
    HaltCause S y ht := by
  cases hx with
  | finish hl hr hf => exact .finish hl (hr.trans (h.done_card_le _)) (h.mem_handled hf)
  | votes fv hh hv hf hl hb hq =>
    exact .votes fv (h.mem_handled hh) hv hf hl hb (hq.trans (h.finVote_nums_le _).1)

theorem Causes.rule (h : Rule S env i x0 x y) (hvotes : VotesCounted S x) (hx : Causes S x) :
    Causes S y where
  done d dn hm := by
    rcases h.sent_cases hm with hm | ⟨new, hnew, hm⟩
    · exact (hx.done d dn hm).imp (·.trans (h.finish_card_le _)) (·.trans (h.done_card_le _))
    · cases hnew with
      | doneShare v hd hy hc =>
        obtain rfl : dn = _ := by simpa using hm
        exact hc.imp (·.trans (h.finish_card_le _)) (·.trans (h.done_card_le _))
      | leader v outs he ho hc => cases ho <;> simp at hm
      | _ => simp at hm
  prevote d pv hm := by
    rcases h.sent_cases hm with hm | ⟨new, hnew, hm⟩
    · exact (hx.prevote d pv hm).rule h
    · obtain ⟨-, -, hr, -, hl, hlock⟩ := hnew.prevote hm
      exact ⟨hl, (hvotes.rule h).ready _ hr, hlock.imp_right fun ⟨hno, hzero, _⟩ => ⟨hno, hzero⟩⟩
  finVote d fv hm := by
    rcases h.sent_cases hm with hm | ⟨new, hnew, hm⟩
    · exact (hx.finVote d fv hm).imp_right (·.rule h)
    · cases hnew with
      | finVoteYes pv hi hh hx0 he hn hc hf hy =>
        obtain rfl : fv = _ := by simpa using hm
        -- No prevote for yes was counted before this one, so this one is.
        have hzero := hvotes.flag pv.view hf
        obtain ⟨-, -, ⟨-, hcount, -⟩ | ⟨hflag, -, -⟩⟩ :=
          (x.core.aggreator.prevoteAggreator pv.view).count_cases pv
        · omega
        · exact ⟨rfl, .yes pv rfl (h.mem_handled hh) rfl hflag rfl⟩
      | finVoteNo pv hh hn hq hz hf hy =>
        obtain rfl : fv = _ := by simpa using hm
        -- No prevote for yes is counted, so this one is for no.
        obtain ⟨-, -, ⟨hflag, -, -⟩ | ⟨-, hcount, -⟩⟩ :=
          (x.core.aggreator.prevoteAggreator pv.view).count_cases pv
        · refine ⟨rfl, .no pv rfl (h.mem_handled hh) rfl hflag rfl ?_⟩
          have heq := congrFun hy pv.view
          rw [Function.update_self] at heq
          exact (hq.ge.trans (congrArg PreVoteAggreator.noNums heq).ge)
        · omega
      | leader v outs he ho hc => cases ho <;> simp at hm
      | _ => simp at hm
  halt d ht hm := by
    rcases h.sent_cases hm with hm | ⟨new, hnew, hm⟩
    · exact (hx.halt d ht hm).rule h
    · rcases hnew.of_halt hm with
        ⟨-, -, hr, -, hl, hf⟩ | ⟨fv, -, hh, -, -, -, hq, hz, heq, hv, hl, hb⟩
      · exact .finish hl ((hvotes.rule h).ready _ hr) ((hvotes.rule h).finishFlags _ _ hf)
      · refine .votes fv (h.mem_handled hh) hv.symm (FinVoteAggreator.flag_of_count hz)
          hl.symm hb.symm ?_
        rw [hv, heq]
        exact hq.ge

end SMVBA
