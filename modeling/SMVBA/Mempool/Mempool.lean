import Mathlib.Data.Finset.SDiff
import SMVBA.Mempool.Synchronizer

/-!
# The mempool

`mempool/mempool.go`. A node collects payloads, its own and those of others, in the store, and keeps
the digests of those that it has not yet put into a consensus block in a queue. `HandleMakeBlockMsg`
hands out digests of the queue, in the order in which Go happens to range over the map. From an
empty queue it makes a payload of its own.

The handlers that `Mempool.Run` dispatches are functions here, from the state before to the state
after, what was sent, and the error. Signatures are those of `SigService`, which `MempoolSetup`
stands for.
-/

namespace SMVBA

/-- What stays fixed over a run of a mempool. -/
structure MempoolSetup where
  /-- `Parameters.MaxQueenSize`. -/
  maxQueenSize : ℕ
  /-- `Parameters.MaxPayloadSize`, the `MaxBlockSize` of `MakeConsensusBlockMsg`. -/
  maxPayloadSize : ℤ
  /-- `Parameters.SyncRetryDelay`. -/
  syncRetryDelay : ℤ
  /-- `SigService.RequestSignature` of a node, on a digest. -/
  requestSignature : NodeID → Digest → List UInt8
  /-- `Signature.Verify` under the public key of a node, on a digest. -/
  verify : List UInt8 → NodeID → Digest → Bool

/-- `Block.Hash`. -/
def Setup.blockHash (S : Setup) (b : Block) : Digest :=
  S.sha256 (appendInt b.proposer ++ appendInt b.batch.id ++ b.batch.txs.flatten)

/-- `NewBlock`. -/
def newBlock (S : Setup) (M : MempoolSetup) (proposer : NodeID) (batch : Batch) : Block :=
  ⟨proposer, batch, M.requestSignature proposer (S.blockHash ⟨proposer, batch, []⟩)⟩

/-- `Block.Verify`. -/
def Block.verify (S : Setup) (M : MempoolSetup) (b : Block) : Bool :=
  M.verify b.signature b.proposer (S.blockHash b)

/-- What the value of a database entry is decoded to where a mempool block is expected. A consensus
block shares the field `Proposer` with it, and `gob` leaves the others at their zero values. -/
def Entry.asPayload : Entry → Block
  | .block b => b
  | .consensusBlock b => ⟨b.proposer, ⟨0, []⟩, []⟩

/-- The errors of the mempool's handlers. -/
inductive MempoolErr where
  /-- `core.ErrFullMemory`, with its argument. -/
  | fullMemory (author : NodeID)
  /-- The error of a failed `DB.Put`. -/
  | put
  /-- The error of a failed read. -/
  | get
  /-- A run-time panic. -/
  | panic
deriving DecidableEq, Repr

/-- `Mempool`, with the blocks that it has written to the store, in order. -/
structure Mempool where
  name : NodeID
  queue : Finset Digest := ∅
  store : Store Digest Entry ℕ := {}
  sync : Synchronizer := {}
  written : List Block := []

/-- The result of a handler. -/
structure MempoolOutcome where
  mempool : Mempool
  out : List MempoolSend := []
  err : Option MempoolErr := none

namespace Mempool

variable (S : Setup) (M : MempoolSetup) (m : Mempool)

/-- A write to the store, and the waiters that it wakes. -/
def write (putOk : Bool) (key : Digest) (val : Entry) : Mempool :=
  let (store, woken) := m.store.write putOk key val
  { m with store := store, sync := m.sync.wake woken }

/-- `Mempool.StoreBlock`. -/
def storeBlock (putOk : Bool) (block : Block) : MempoolOutcome :=
  let m' := m.write putOk (S.blockHash block) (.block block)
  if putOk then ⟨{ m' with written := m.written ++ [block] }, [], none⟩ else ⟨m', [], some .put⟩

/-- `Mempool.GetBlock`. It does not ask which kind of block it reads. -/
def getBlock (digest : Digest) : Except MempoolErr (Option Block) :=
  match m.store.read digest with
  | some e => .ok (some e.asPayload)
  | none =>
    match S.absent with
    | .notFoundKey => .ok none
    | .other => .error .get

/-- The queue is full. -/
def full : Bool := M.maxQueenSize ≤ m.queue.card

/-- `Mempool.payloadProcess`. -/
def payloadProcess (putOk : Bool) (block : Block) : MempoolOutcome :=
  if m.full M then ⟨m, [], some (.fullMemory m.name)⟩
  else
    match m.storeBlock S putOk block with
    | ⟨m, out, some e⟩ => ⟨m, out, some e⟩
    | ⟨m, out, none⟩ => ⟨m, out ++ [⟨NONE, .otherBlock (some block)⟩], none⟩

/-- `m.Queue[digest] = struct{}{}`, after a call that returned no error. -/
def enqueue (digest : Digest) (o : MempoolOutcome) : MempoolOutcome :=
  match o.err with
  | some _ => o
  | none => { o with mempool := { o.mempool with queue := insert digest o.mempool.queue } }

/-- `Mempool.HandleOwnBlock`. The hash of a nil block is a panic. -/
def handleOwnBlock (putOk : Bool) (block : Option Block) : MempoolOutcome :=
  if m.full M then ⟨m, [], some (.fullMemory m.name)⟩
  else
    match block with
    | none => ⟨m, [], some .panic⟩
    | some block => enqueue (S.blockHash block) (m.payloadProcess S M putOk block)

/-- `Mempool.HandleOthorBlock`. The log line of a nil block is a panic, and a block that `GetBlock`
does not fail on counts as received. -/
def handleOthorBlock (putOk : Bool) (block : Option Block) : MempoolOutcome :=
  match block with
  | none => ⟨m, [], some .panic⟩
  | some block =>
    if m.full M then ⟨m, [], some (.fullMemory m.name)⟩
    else if block.verify S M = false then ⟨m, [], none⟩
    else
      match m.getBlock S (S.blockHash block) with
      | .ok _ => ⟨m, [], none⟩
      | .error _ => enqueue (S.blockHash block) (m.storeBlock S putOk block)

/-- The loop of `Mempool.HandleRequestBlock`: what is sent before the first failed read, and its
error. A read that finds nothing and does not fail sends a nil block. -/
def serve (author : NodeID) : List Digest → List MempoolSend × Option MempoolErr
  | [] => ([], none)
  | d :: rest =>
    match m.getBlock S d with
    | .error e => ([], some e)
    | .ok b =>
      let (out, err) := serve author rest
      (⟨author, .otherBlock b⟩ :: out, err)

/-- `Mempool.HandleRequestBlock`. -/
def handleRequestBlock (digests : List Digest) (author : NodeID) : MempoolOutcome :=
  let (out, err) := m.serve S author digests
  ⟨m, out, err⟩

/-- The loop of `Mempool.HandleMakeBlockMsg` over the queue: it stops when the counter is at zero.
-/
def takeDigests : ℤ → List Digest → List Digest
  | _, [] => []
  | nums, d :: rest => d :: if nums - 1 = 0 then [] else takeDigests (nums - 1) rest

/-- What the surroundings choose when a consensus block is made: the batch of the transaction pool,
and the order in which Go ranges over the queue. -/
structure MakeChoice where
  batch : Batch
  order : List Digest
deriving DecidableEq, Repr

/-- The order is one of the queue. -/
def MakeChoice.Of (c : MakeChoice) (m : Mempool) : Prop :=
  c.order.Nodup ∧ c.order.toFinset = m.queue

instance (c : MakeChoice) (m : Mempool) : Decidable (c.Of m) := inferInstanceAs (Decidable (_ ∧ _))

/-- `Mempool.HandleMakeBlockMsg`, with the digests that it returns. -/
def handleMakeBlockMsg (putOk : Bool) (c : MakeChoice) : MempoolOutcome × List Digest :=
  if m.queue = ∅ then
    let block := newBlock S M m.name c.batch
    match m.payloadProcess S M putOk block with
    | ⟨m, out, some e⟩ => (⟨m, out, some e⟩, [])
    | ⟨m, out, none⟩ => (⟨m, out, none⟩, [S.blockHash block])
  else
    let ret := takeDigests M.maxPayloadSize c.order
    (⟨{ m with queue := m.queue \ ret.toFinset }, [], none⟩, ret)

/-- `Mempool.HandleCleanBlock`. -/
def handleCleanBlock (digests : List Digest) (epoch : ℤ) : MempoolOutcome :=
  ⟨{ m with
      queue := m.queue \ digests.toFinset
      sync := m.sync.cleanup (Synchronizer.uint64 epoch) },
    [], none⟩

/-- The dispatch of `Mempool.Run` on a message from its own channel. -/
def handle (putOk : Bool) : MempoolMsg → MempoolOutcome
  | .ownBlock b => m.handleOwnBlock S M putOk b
  | .otherBlock b => m.handleOthorBlock S M putOk b
  | .requestBlock digests author => m.handleRequestBlock S digests author

/-- One step of the synchronizer or of one of its waiters. -/
def syncStep (now : ℤ) : SyncEvent → Option (Mempool × List MempoolSend)
  | .inter => (m.sync.runInter m.name now).map fun (sync, out) => ({ m with sync := sync }, out)
  | .waiting => m.sync.runWaiting.map fun sync => ({ m with sync := sync }, [])
  | .tick =>
    let (sync, out) := m.sync.runTick m.name M.syncRetryDelay now
    some ({ m with sync := sync }, out)
  | .ask k => (m.sync.ask m.store k).map fun (sync, store) =>
      ({ m with sync := sync, store := store }, [])
  | .resume k => (m.sync.resume k).map fun sync => ({ m with sync := sync }, [])
  | .finish k => (m.sync.finish k).map fun sync => ({ m with sync := sync }, [])
  | .notified k => (m.sync.notified k).map fun sync => ({ m with sync := sync }, [])

end Mempool

end SMVBA
