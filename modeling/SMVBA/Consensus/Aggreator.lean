import Mathlib.Logic.Function.Basic
import SMVBA.Consensus.Message

/-!
# The vote aggregators

`core/smvba/consensus/aggreator.go`: one aggregator for each kind of vote and each view. All of
them count an author once and answer at an exact count. A map that the source creates on the first
use of a view is a function here, with the constructor's value at the views not used yet.
-/

namespace SMVBA

/-- The errors that the handlers of the consensus return, and `panic`, which ends the process. -/
inductive Err where
  /-- `core.ErrOneMoreMessage`, with its arguments. -/
  | oneMoreMessage (epoch round : ℤ) (author : NodeID)
  /-- The error of `DB.Get` on an absent key. -/
  | get
  /-- The error of a failed `DB.Put`. -/
  | put
  /-- The error of `CombineIntactTSPartial`. -/
  | combine
  /-- A run-time panic. -/
  | panic
deriving DecidableEq, Repr

/-- `FinishAggreator`. -/
structure FinishAggreator where
  authors : Finset NodeID := ∅

/-- `FinishAggreator.Append`: the flag is raised at the quorum. -/
def FinishAggreator.append (S : Setup) (a : FinishAggreator) (f : Finish) :
    FinishAggreator × Except Err Bool :=
  if f.author ∈ a.authors then (a, .error (.oneMoreMessage f.epoch f.round f.author))
  else
    let authors := insert f.author a.authors
    (⟨authors⟩, .ok (authors.card = S.quorum))

/-- `DONE_LOW_FLAG`, `DONE_HIGH_FLAG` and `DONE_NONE_FLAG`. -/
inductive DoneFlag where
  | low
  | high
  | none
deriving DecidableEq, Repr

/-- `DoneAggreator`. -/
structure DoneAggreator where
  authors : Finset NodeID := ∅

/-- `DoneAggreator.Append`. The low threshold is looked at first, so that where both thresholds
are the same number only the low flag is returned. -/
def DoneAggreator.append (S : Setup) (a : DoneAggreator) (d : Done) :
    DoneAggreator × Except Err DoneFlag :=
  if d.author ∈ a.authors then (a, .error (.oneMoreMessage d.epoch d.round d.author))
  else
    let authors := insert d.author a.authors
    (⟨authors⟩, .ok <|
      if authors.card = S.committee.lowThreshold then .low
      else if authors.card = S.quorum then .high
      else .none)

/-- `ACTION_YES`, `ACTION_NO`, `ACTION_COMMIT` and `ACTION_NONE`. -/
inductive Action where
  | yes
  | no
  | commit
  | none
deriving DecidableEq, Repr

/-- `PreVoteAggreator`. -/
structure PreVoteAggreator where
  authors : Finset NodeID := ∅
  yesNums : ℕ := 0
  noNums : ℕ := 0
  flag : Bool := false

/-- The counting half of `PreVoteAggreator.Append`: every flag but `VOTE_FLAG_NO` is a yes. -/
def PreVoteAggreator.count (a : PreVoteAggreator) (v : Prevote) : PreVoteAggreator :=
  if v.flag = .no then { a with authors := insert v.author a.authors, noNums := a.noNums + 1 }
  else { a with authors := insert v.author a.authors, yesNums := a.yesNums + 1 }

/-- `PreVoteAggreator.Append`. The flag records that the first branch was taken. The second branch
looks at it and does not set it. -/
def PreVoteAggreator.append (S : Setup) (a : PreVoteAggreator) (v : Prevote) :
    PreVoteAggreator × Except Err Action :=
  if v.author ∈ a.authors then (a, .error (.oneMoreMessage v.epoch v.round v.author))
  else
    let a := a.count v
    if 0 < a.yesNums ∧ a.flag = false then ({ a with flag := true }, .ok .yes)
    else if a.noNums = S.quorum ∧ a.flag = false then (a, .ok .no)
    else (a, .ok .none)

/-- `FinVoteAggreator`. -/
structure FinVoteAggreator where
  authors : Finset NodeID := ∅
  yesNums : ℕ := 0
  noNums : ℕ := 0

/-- The counting half of `FinVoteAggreator.Append`: every flag but `VOTE_FLAG_YES` is a no. -/
def FinVoteAggreator.count (a : FinVoteAggreator) (v : FinVote) : FinVoteAggreator :=
  if v.flag = .yes then { a with authors := insert v.author a.authors, yesNums := a.yesNums + 1 }
  else { a with authors := insert v.author a.authors, noNums := a.noNums + 1 }

/-- `FinVoteAggreator.Append`: the answer comes with the vote that completes the quorum. -/
def FinVoteAggreator.append (S : Setup) (a : FinVoteAggreator) (v : FinVote) :
    FinVoteAggreator × Except Err Action :=
  if v.author ∈ a.authors then (a, .error (.oneMoreMessage v.epoch v.round v.author))
  else
    let a := a.count v
    (a, .ok <|
      if a.yesNums + a.noNums = S.quorum then
        if a.yesNums = S.quorum then .commit
        else if a.noNums = S.quorum then .no
        else .yes
      else .none)

/-- `Aggreator`. -/
structure Aggreator where
  finishAggreator : View → FinishAggreator := fun _ => {}
  doneAggreator : View → DoneAggreator := fun _ => {}
  prevoteAggreator : View → PreVoteAggreator := fun _ => {}
  finvoteAggreator : View → FinVoteAggreator := fun _ => {}

namespace Aggreator

/-- `Aggreator.AddFinishVote`. -/
def addFinishVote (S : Setup) (a : Aggreator) (f : Finish) : Aggreator × Except Err Bool :=
  let (item, r) := (a.finishAggreator f.view).append S f
  ({ a with finishAggreator := Function.update a.finishAggreator f.view item }, r)

/-- `Aggreator.AddDoneVote`. -/
def addDoneVote (S : Setup) (a : Aggreator) (d : Done) : Aggreator × Except Err DoneFlag :=
  let (item, r) := (a.doneAggreator d.view).append S d
  ({ a with doneAggreator := Function.update a.doneAggreator d.view item }, r)

/-- `Aggreator.AddPreVote`. -/
def addPreVote (S : Setup) (a : Aggreator) (v : Prevote) : Aggreator × Except Err Action :=
  let (item, r) := (a.prevoteAggreator v.view).append S v
  ({ a with prevoteAggreator := Function.update a.prevoteAggreator v.view item }, r)

/-- `Aggreator.AddFinVote`. -/
def addFinVote (S : Setup) (a : Aggreator) (v : FinVote) : Aggreator × Except Err Action :=
  let (item, r) := (a.finvoteAggreator v.view).append S v
  ({ a with finvoteAggreator := Function.update a.finvoteAggreator v.view item }, r)

end Aggreator

end SMVBA
