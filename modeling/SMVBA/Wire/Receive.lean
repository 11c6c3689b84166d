import SMVBA.Mempool.Replica
import SMVBA.Wire.Message

/-!
# From the wire to the handlers

What a node does with a frame that a peer sends: `Codec.Read` in the goroutine of the connection,
the routing by `Module` in `Transmitor` and `Transmit`, and in `Core.Run` and `Mempool.Run` the
check of the signature and the handler. The consensus and the mempool each have a port, with a codec
of their own. A panic anywhere on the way ends the process.

The decoding of gob is left open: for each type a function from bytes to a message or an error. The
verification of ed25519 panics on a key that does not have 32 bytes, and `Committee.Name` gives the
empty key for an id outside the committee.
-/

namespace SMVBA.Wire

/-! ## Results -/

/-- What becomes of a frame: the process panics, the frame is dropped, or it goes on. -/
inductive Received (α : Type*) where
  | panic
  | rejected
  | handled (a : α)

namespace Received

variable {α β : Type*}

/-- What goes on is passed on. -/
def bind (r : Received α) (f : α → Received β) : Received β :=
  match r with
  | .panic => .panic
  | .rejected => .rejected
  | .handled a => f a

/-- There is no panic, and what goes on satisfies `P`. -/
def Safe (P : α → Prop) : Received α → Prop
  | .panic => False
  | .rejected => True
  | .handled a => P a

instance {P : α → Prop} [DecidablePred P] : (r : Received α) → Decidable (r.Safe P)
  | .panic => .isFalse id
  | .rejected => .isTrue trivial
  | .handled a => inferInstanceAs (Decidable (P a))

theorem safe_bind {P : β → Prop} {r : Received α} {f : α → Received β} :
    (r.bind f).Safe P ↔ r.Safe fun a => (f a).Safe P := by
  cases r <;> rfl

end Received

/-! ## The codec -/

/-- A frame: the type id, if the decoder finds one, and the bytes of the message. -/
structure Frame where
  typeId : Option ℤ
  body : List UInt8

/-- `Codec`: the registered types, and the decoding of a message of a type. -/
structure Codec (T M : Type*) where
  types : ℤ → Option T
  decode : T → List UInt8 → Option M

variable {T M : Type*}

/-- `Codec.Read`. For an id that is not registered `reflect.New` panics. -/
def Codec.read (cc : Codec T M) (f : Frame) : Received M :=
  match f.typeId with
  | none => .rejected
  | some id =>
    match cc.types id with
    | none => .panic
    | some t =>
      match cc.decode t f.body with
      | none => .rejected
      | some m => .handled m

/-- The type of the frame is registered, and what its body decodes to satisfies `P`. -/
def Frame.Fits (cc : Codec T M) (P : M → Prop) (f : Frame) : Prop :=
  ∀ id ∈ f.typeId, ∃ t, cc.types id = some t ∧ ∀ m ∈ cc.decode t f.body, P m

theorem Codec.safe_read {cc : Codec T M} {P : M → Prop} {f : Frame} :
    (cc.read f).Safe P ↔ f.Fits cc P := by
  unfold Codec.read Frame.Fits
  cases f.typeId with
  | none => simp [Received.Safe]
  | some id =>
    cases ht : cc.types id with
    | none => simp [Received.Safe, ht]
    | some t => cases hm : cc.decode t f.body <;> simp [Received.Safe, ht, hm]

/-- `DefaultMessageTypeMap` of the consensus. -/
def consensusTypes : ℤ → Option MsgType
  | 0 => some .spbProposal
  | 1 => some .spbVote
  | 2 => some .finish
  | 3 => some .done
  | 4 => some .electShare
  | 5 => some .prevote
  | 6 => some .finVote
  | 7 => some .halt
  | _ => none

/-- The types of `DefaultMessageTypeMap` of the mempool. -/
inductive MempoolType where
  | ownBlock
  | otherBlock
  | requestBlock
  | makeBlock
  | verifyBlock
  | cleanBlock
  | syncBlock
  | syncCleanUpBlock
  | loopBack
deriving DecidableEq, Repr

/-- `DefaultMessageTypeMap` of the mempool. -/
def mempoolTypes : ℤ → Option MempoolType
  | 12 => some .ownBlock
  | 13 => some .otherBlock
  | 14 => some .requestBlock
  | 15 => some .makeBlock
  | 16 => some .verifyBlock
  | 17 => some .cleanBlock
  | 18 => some .syncBlock
  | 19 => some .syncCleanUpBlock
  | 20 => some .loopBack
  | _ => none

/-! ## Signatures -/

/-- The public keys of the committee, and ed25519. -/
structure Keys where
  publicKey : NodeID → List UInt8
  /-- `ed25519.Verify`, on a key of 32 bytes. -/
  ed25519 : List UInt8 → Digest → Signature → Bool
  /-- The keys of the committee have the length that they should. -/
  length_publicKey : ∀ id, (publicKey id).length = 32

/-- `Committee.Name`. An id outside the committee has the zero value of a key. -/
def Keys.name (K : Keys) (c : Committee) (id : NodeID) : List UInt8 :=
  if id ∈ c.authorities then K.publicKey id else []

/-- `Signature.Verify`. -/
def Keys.verify (K : Keys) (signature : Signature) (pub : List UInt8)
    (d : Digest) : Received Bool :=
  if pub.length = 32 then .handled (K.ed25519 pub d signature) else .panic

theorem Keys.length_name (K : Keys) (c : Committee) (id : NodeID) :
    (K.name c id).length = 32 ↔ id ∈ c.authorities := by
  unfold Keys.name
  split_ifs with h
  · simp [h, K.length_publicKey]
  · simp [h]

/-! ## The port of the consensus -/

section Consensus

variable (S : Setup) (K : Keys) (env : Env)

namespace Message

/-- The author of a message. -/
def author : Message → NodeID
  | .spbProposal author .. => author
  | .spbVote author .. => author
  | .finish author .. => author
  | .done author .. => author
  | .electShare author .. => author
  | .prevote author .. => author
  | .finVote author .. => author
  | .halt author .. => author

/-- The signature of a message. A share of the coin has none. -/
def signature : Message → Signature
  | .spbProposal _ _ _ _ _ signature => signature
  | .spbVote _ _ _ _ _ _ signature => signature
  | .finish _ _ _ _ signature => signature
  | .done _ _ _ signature => signature
  | .electShare .. => []
  | .prevote _ _ _ _ _ _ signature => signature
  | .finVote _ _ _ _ _ _ signature => signature
  | .halt _ _ _ _ _ signature => signature

/-- The `Verify` method of a message. The one of a share returns true. -/
def verify : Message → Received Bool
  | .electShare .. => .handled true
  | m => K.verify m.signature (K.name S.committee m.author) (m.hash S)

end Message

/-- The block that stands for a nil pointer where nothing reads it. -/
def nilBlock : ConsensusBlock := ⟨0, [], 0⟩

/-- The message that the handlers get, as the model of the core has it. -/
def Message.model : Message → SMVBA.Message
  | .spbProposal author b epoch round phase _ =>
    .spbProposal ⟨author, b.getD nilBlock, epoch, round, .ofInt8 phase⟩
  | .spbVote author proposer blockHash epoch round phase _ =>
    .spbVote ⟨author, proposer, blockHash, epoch, round, .ofInt8 phase⟩
  | .finish author blockHash epoch round _ => .finish ⟨author, blockHash, epoch, round⟩
  | .done author epoch round _ => .done ⟨author, epoch, round⟩
  | .electShare author epoch round sigShare => .electShare ⟨author, epoch, round, sigShare⟩
  | .prevote author leader epoch round flag blockHash _ =>
    .prevote ⟨author, leader, epoch, round, .ofInt8 flag, blockHash⟩
  | .finVote author leader epoch round flag blockHash _ =>
    .finVote ⟨author, leader, epoch, round, .ofInt8 flag, blockHash⟩
  | .halt author epoch round leader blockHash _ => .halt ⟨author, epoch, round, leader, blockHash⟩

/-- The dispatch of `Core.Run` on a message that passed `Verify`. On a phase-one proposal without a
block `handleSpbProposal` reads the block in the late commit, and for the store. In another phase
nothing reads it. -/
def handle (c : Core) (m : Message) : Outcome :=
  match m with
  | .spbProposal author none epoch round phase _ =>
    if phase = 0 then
      if c.haltFlags epoch = true ∧ c.elector.leader ⟨epoch, round⟩ = author then
        ⟨c, [], some .panic⟩
      else if c.messgaeFilter epoch then .ret c
      else ⟨c, [], some .panic⟩
    else c.handle S env m.model
  | m => c.handle S env m.model

/-- One message in `Core.Run`: the check of the signature, and the handler. -/
def runMessage (c : Core) (m : Message) : Received Outcome :=
  (m.verify S K).bind fun valid => if valid then .handled (handle S env c m) else .rejected

/-- A frame on the port of the consensus. Every registered message is of the consensus module. -/
def receiveConsensus (decode : MsgType → List UInt8 → Option Message) (c : Core) (f : Frame) :
    Received Outcome :=
  (Codec.read ⟨consensusTypes, decode⟩ f).bind (runMessage S K env c)

end Consensus

/-! ## The port of the mempool -/

/-- A message of the mempool's codec. Of those that nothing takes from the network the fields are
left out. -/
inductive MempoolMessage where
  | msg (m : MempoolMsg)
  | makeBlock
  | verifyBlock
  | cleanBlock
  | syncBlock
  | syncCleanUpBlock
  | loopBack
deriving DecidableEq

/-- The modules. -/
inductive Module where
  | mempool
  | consensus
  | connect
deriving DecidableEq, Repr

/-- The `Module` method of a message. -/
def MempoolMessage.module : MempoolMessage → Module
  | .msg _ => .mempool
  | .makeBlock => .connect
  | .verifyBlock => .connect
  | .cleanBlock => .connect
  | .syncBlock => .mempool
  | .syncCleanUpBlock => .mempool
  | .loopBack => .consensus

section MempoolPort

variable (S : Setup) (M : MempoolSetup) (K : Keys) (putOk : Bool)

/-- `Mempool.HandleOthorBlock`, with the key that the block is verified with. -/
def handleOthorBlock (m : Mempool) (block : Option Block) : Received MempoolOutcome :=
  match block with
  | none => .panic
  | some b =>
    if m.full M = false ∧ (K.name S.committee b.proposer).length ≠ 32 then .panic
    else .handled (m.handleOthorBlock S M putOk (some b))

/-- The dispatch of `Mempool.Run` on a message from its own channel. The messages of its module that
it does not know it drops. -/
def runMempoolMessage (m : Mempool) : MempoolMessage → Received MempoolOutcome
  | .msg (.otherBlock b) => handleOthorBlock S M K putOk m b
  | .msg msg => .handled (m.handle S M putOk msg)
  | _ => .rejected

/-- A frame on the port of the mempool. -/
def receiveMempool (decode : MempoolType → List UInt8 → Option MempoolMessage) (m : Mempool)
    (f : Frame) : Received MempoolOutcome :=
  (Codec.read ⟨mempoolTypes, decode⟩ f).bind fun msg =>
    if msg.module = .mempool then runMempoolMessage S M K putOk m msg else .rejected

end MempoolPort

end SMVBA.Wire
