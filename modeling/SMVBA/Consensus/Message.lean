import SMVBA.Consensus.Config

/-!
# Blocks and messages

The messages of `core/smvba/consensus/message.go`, field by field, less their signatures: the runs
of this development deliver only messages that pass `Verify`. A view is an epoch with a round in
it, and a slot is a view with a node. The source keys its nested maps by them.

`Setup` is what stays fixed over a run: the committee, the hash function of the standard library,
the threshold signature scheme of the external library, and the error with which the database
answers for a key that it does not hold.
-/

namespace SMVBA

/-- An epoch and a round in it: the keys of a `map[int64]map[int64]`. -/
structure View where
  epoch : ℤ
  round : ℤ
deriving DecidableEq, Repr

/-- A view and a node: the keys of a `map[int64]map[int64]map[core.NodeID]`. -/
structure Slot where
  epoch : ℤ
  round : ℤ
  node : NodeID
deriving DecidableEq, Repr

/-- The phases of an SPB instance: `SPB_ONE_PHASE`, `SPB_TWO_PHASE`, and the `int8` values that
are neither, which a peer can send. -/
inductive Phase where
  | one
  | two
  | other (code : Int8)
deriving DecidableEq, Repr

/-- The flag of a vote: `VOTE_FLAG_YES`, `VOTE_FLAG_NO`, or another `int8`. -/
inductive VoteFlag where
  | yes
  | no
  | other (code : Int8)
deriving DecidableEq, Repr

/-- `ConsensusBlock`. -/
structure ConsensusBlock where
  proposer : NodeID
  payLoads : List Digest
  epoch : ℤ
deriving DecidableEq, Repr

/-- A `crypto.SignatureShare`, by its bytes. -/
abbrev SignatureShare := List UInt8

/-- `SPBProposal`. -/
structure SPBProposal where
  author : NodeID
  b : ConsensusBlock
  epoch : ℤ
  round : ℤ
  phase : Phase
deriving DecidableEq, Repr

/-- `SPBVote`. -/
structure SPBVote where
  author : NodeID
  proposer : NodeID
  blockHash : Digest
  epoch : ℤ
  round : ℤ
  phase : Phase
deriving DecidableEq, Repr

/-- `Finish`. -/
structure Finish where
  author : NodeID
  blockHash : Digest
  epoch : ℤ
  round : ℤ
deriving DecidableEq, Repr

/-- `Done`. -/
structure Done where
  author : NodeID
  epoch : ℤ
  round : ℤ
deriving DecidableEq, Repr

/-- `ElectShare`. -/
structure ElectShare where
  author : NodeID
  epoch : ℤ
  round : ℤ
  sigShare : SignatureShare
deriving DecidableEq, Repr

/-- `Prevote`. -/
structure Prevote where
  author : NodeID
  leader : NodeID
  epoch : ℤ
  round : ℤ
  flag : VoteFlag
  blockHash : Digest
deriving DecidableEq, Repr

/-- `FinVote`. -/
structure FinVote where
  author : NodeID
  leader : NodeID
  epoch : ℤ
  round : ℤ
  flag : VoteFlag
  blockHash : Digest
deriving DecidableEq, Repr

/-- `NewFinVote`. The constructor takes the leader and does not store it, so that the field keeps
the zero value of its type. -/
def newFinVote (author _leader : NodeID) (epoch round : ℤ) (flag : VoteFlag) (blockHash : Digest) :
    FinVote where
  author := author
  leader := 0
  epoch := epoch
  round := round
  flag := flag
  blockHash := blockHash

/-- `Halt`. -/
structure Halt where
  author : NodeID
  epoch : ℤ
  round : ℤ
  leader : NodeID
  blockHash : Digest
deriving DecidableEq, Repr

/-- The messages that `Core.Run` dispatches on. -/
inductive Message where
  | spbProposal (p : SPBProposal)
  | spbVote (v : SPBVote)
  | finish (f : Finish)
  | done (d : Done)
  | electShare (s : ElectShare)
  | prevote (p : Prevote)
  | finVote (v : FinVote)
  | halt (h : Halt)
deriving DecidableEq, Repr

/-- The node that a message names as its author, whose key `Verify` checks the signature with. -/
def Message.author : Message → NodeID
  | .spbProposal p => p.author
  | .spbVote v => v.author
  | .finish f => f.author
  | .done d => d.author
  | .electShare s => s.author
  | .prevote p => p.author
  | .finVote v => v.author
  | .halt h => h.author

/-- The slot whose SPB instance a proposal is for. -/
def SPBProposal.slot (p : SPBProposal) : Slot := ⟨p.epoch, p.round, p.author⟩

/-- The view of a proposal. -/
def SPBProposal.view (p : SPBProposal) : View := ⟨p.epoch, p.round⟩

/-- The slot whose SPB instance a vote is for. -/
def SPBVote.slot (v : SPBVote) : Slot := ⟨v.epoch, v.round, v.proposer⟩

/-- The view of a `Finish`. -/
def Finish.view (f : Finish) : View := ⟨f.epoch, f.round⟩

/-- The slot of a `Finish`. -/
def Finish.slot (f : Finish) : Slot := ⟨f.epoch, f.round, f.author⟩

/-- The view of a `Done`. -/
def Done.view (d : Done) : View := ⟨d.epoch, d.round⟩

/-- The view of an `ElectShare`. -/
def ElectShare.view (s : ElectShare) : View := ⟨s.epoch, s.round⟩

/-- The view of a `Prevote`. -/
def Prevote.view (p : Prevote) : View := ⟨p.epoch, p.round⟩

/-- The view of a `FinVote`. -/
def FinVote.view (v : FinVote) : View := ⟨v.epoch, v.round⟩

/-- The view of a `Halt`. -/
def Halt.view (h : Halt) : View := ⟨h.epoch, h.round⟩

/-- A view with a node. -/
def View.slot (v : View) (node : NodeID) : Slot := ⟨v.epoch, v.round, node⟩

/-- What `DB.Get` answers for a key that the database does not hold: `store.ErrNotFoundKey`, or an
error of the database's own, which is what `NutsDB.Get` passes on. -/
inductive AbsentErr where
  | notFoundKey
  | other
deriving DecidableEq, Repr

/-- What stays fixed over a run. -/
structure Setup where
  /-- The committee. -/
  committee : Committee
  /-- SHA-256. -/
  sha256 : List UInt8 → Digest
  /-- The answer of `DB.Get` for an absent key. -/
  absent : AbsentErr
  /-- `SigService.RequestTsSugnature` of a node, on a digest. -/
  requestTsSugnature : NodeID → Digest → SignatureShare
  /-- `crypto.CombineIntactTSPartial` on the shares for a digest. -/
  combineIntactTSPartial : List SignatureShare → Digest → Option (List UInt8)

namespace Setup

/-- `ConsensusBlock.Hash`. -/
def hash (S : Setup) (b : ConsensusBlock) : Digest :=
  S.sha256 (appendInt b.proposer ++ b.payLoads.flatMap Digest.bytes ++ appendInt b.epoch)

/-- `ElectShare.Hash`, of the view that the share is for. -/
def electHash (S : Setup) (v : View) : Digest :=
  S.sha256 (appendInt v.epoch ++ appendInt v.round)

/-- The quorum of the committee. -/
abbrev quorum (S : Setup) : ℕ := S.committee.hightThreshold

theorem quorum_pos (S : Setup) : 0 < S.quorum := S.committee.hightThreshold_pos

end Setup

end SMVBA
