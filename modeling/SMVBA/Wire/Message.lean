import SMVBA.Consensus.Message

/-!
# Messages as they come from the network

The messages of `core/smvba/consensus/message.go` with every field that the codec fills in: their
signatures, the phases and flags as the `int8` they are, and the block of a proposal as the pointer
it is, which is nil when the sender left it out. `hashBytes` is what the `Hash` method of a message
feeds to SHA-256, which for all but the shares of the coin is what a signature is made and checked
on.
-/

namespace SMVBA

/-- The phase of a number. -/
def Phase.ofInt8 (code : Int8) : Phase :=
  if code = 0 then .one else if code = 1 then .two else .other code

/-- The flag of a number. -/
def VoteFlag.ofInt8 (code : Int8) : VoteFlag :=
  if code = 0 then .yes else if code = 1 then .no else .other code

namespace Wire

/-- The ids of the consensus messages, `SPBProposalType` to `HaltType`. -/
inductive MsgType where
  | spbProposal
  | spbVote
  | finish
  | done
  | electShare
  | prevote
  | finVote
  | halt
deriving DecidableEq, Repr

/-- A `crypto.Signature`, by its bytes. -/
abbrev Signature := List UInt8

/-- A consensus message as `Codec.Read` returns it. -/
inductive Message where
  | spbProposal (author : NodeID) (b : Option ConsensusBlock) (epoch round : ℤ) (phase : Int8)
      (signature : Signature)
  | spbVote (author proposer : NodeID) (blockHash : Digest) (epoch round : ℤ) (phase : Int8)
      (signature : Signature)
  | finish (author : NodeID) (blockHash : Digest) (epoch round : ℤ) (signature : Signature)
  | done (author : NodeID) (epoch round : ℤ) (signature : Signature)
  | electShare (author : NodeID) (epoch round : ℤ) (sigShare : SignatureShare)
  | prevote (author leader : NodeID) (epoch round : ℤ) (flag : Int8) (blockHash : Digest)
      (signature : Signature)
  | finVote (author leader : NodeID) (epoch round : ℤ) (flag : Int8) (blockHash : Digest)
      (signature : Signature)
  | halt (author : NodeID) (epoch round : ℤ) (leader : NodeID) (blockHash : Digest)
      (signature : Signature)
deriving DecidableEq

namespace Message

/-- `MsgType`. -/
def msgType : Message → MsgType
  | .spbProposal .. => .spbProposal
  | .spbVote .. => .spbVote
  | .finish .. => .finish
  | .done .. => .done
  | .electShare .. => .electShare
  | .prevote .. => .prevote
  | .finVote .. => .finVote
  | .halt .. => .halt

/-- The bytes that the `Hash` method of a message feeds to SHA-256. The proposer of a vote and the
round of a halt are not among them. -/
def hashBytes (S : Setup) : Message → List UInt8
  | .spbProposal author b epoch round phase _ =>
    appendInt author ++ appendInt epoch ++ appendInt round ++ appendInt phase.toInt ++
      (match b with
      | some b => (S.hash b).bytes
      | none => [])
  | .spbVote author _ blockHash epoch round phase _ =>
    appendInt author ++ appendInt epoch ++ appendInt round ++
    appendInt phase.toInt ++ blockHash.bytes
  | .finish author blockHash epoch round _ =>
    blockHash.bytes ++ appendInt author ++ appendInt epoch ++ appendInt round
  | .done author epoch round _ => appendInt author ++ appendInt epoch ++ appendInt round
  | .electShare _ epoch round _ => appendInt epoch ++ appendInt round
  | .prevote author leader epoch round flag blockHash _ =>
    appendInt author ++ appendInt leader ++ appendInt epoch ++ appendInt round ++
    appendInt flag.toInt ++
      blockHash.bytes
  | .finVote author leader epoch round flag blockHash _ =>
    appendInt author ++ appendInt leader ++ appendInt epoch ++ appendInt round ++
    appendInt flag.toInt ++
      blockHash.bytes
  | .halt author epoch _ leader blockHash _ =>
    appendInt author ++ appendInt epoch ++ appendInt leader ++ blockHash.bytes

/-- The `Hash` method of a message. -/
def hash (S : Setup) (m : Message) : Digest := S.sha256 (m.hashBytes S)

end Message

end Wire

end SMVBA
