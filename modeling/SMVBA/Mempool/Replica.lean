import SMVBA.Consensus.Run
import SMVBA.Mempool.Mempool

/-!
# A whole node

`NewNode` gives the core and the mempool of a node one store, and two channels between them:
requests of the core for payloads and for the verification of a block, which it waits for, and the
loopback channel. A replica is such a node. The requests of the core are part of the core's step. So
the core finds the payloads that are in the database when the step begins, and the payloads of a new
block come from `HandleMakeBlockMsg`.

The model of the core has a store of its own, for the consensus blocks. In a replica it is what the
database holds of them, and `Env.held` is what it holds of the mempool blocks, so that the core's
look-up of a key decodes the one entry under it (`decoded_eq`).
-/

namespace SMVBA

/-- What the value of a database entry is decoded to where a consensus block is expected. -/
def Entry.asConsensusBlock : Entry → ConsensusBlock
  | .block b => payloadAsBlock b.proposer
  | .consensusBlock b => b

/-- The consensus blocks in the database. -/
def consensusBlocks (db : Digest → Option Entry) (d : Digest) : Option ConsensusBlock :=
  match db d with
  | some (.consensusBlock b) => some b
  | _ => none

/-- The proposers of the mempool blocks in the database. -/
def payloadProposer (db : Digest → Option Entry) (d : Digest) : Option NodeID :=
  match db d with
  | some (.block p) => some p.proposer
  | _ => none

/-- A core whose store is replaced. -/
def Hist.setStore (x : Hist) (store : Digest → Option ConsensusBlock) : Hist :=
  { x with core := { x.core with store := store } }

/-- A node with its mempool. -/
structure Replica where
  hist : Hist
  mempool : Mempool
  /-- A handler of the mempool has ended the process. -/
  crashed : Bool := false
  /-- The store is shared. -/
  store_eq : hist.core.store = consensusBlocks mempool.store.db

/-- What the surroundings of a replica choose in a step: whether `DB.Put` succeeds, what a new block
is made of, and the time. -/
structure Surroundings where
  putOk : Bool
  make : Mempool.MakeChoice
  now : ℤ
deriving DecidableEq, Repr

/-- What a replica reacts to. -/
inductive ReplicaInput where
  /-- A step of the core. -/
  | consensus (i : Input)
  /-- A message on the channel of the mempool. -/
  | mempool (m : MempoolMsg)
  /-- `CleanBlockMsg`. -/
  | clean (digests : List Digest) (epoch : ℤ)
  /-- A step of the synchronizer. -/
  | sync (e : SyncEvent)
deriving DecidableEq, Repr

/-- The block that a step of the core writes to the store, in `handleSpbProposal`. -/
def Core.put? (c : Core) : Input → Option ConsensusBlock
  | .msg (.spbProposal p) =>
    if p.phase = .one ∧ c.messgaeFilter p.epoch = false then some p.b else none
  | _ => none

/-- The request for payloads that an output is. -/
def Output.sync? : Output → Option SyncMsg
  | .sync m => some (.block m)
  | _ => none

/-- Whether an output is the creation of a block, for which the core has asked the mempool. -/
def Output.isCreate : Output → Bool
  | .create _ => true
  | _ => false

namespace Replica

variable (S : Setup) (M : MempoolSetup) (w : Surroundings) (r : Replica)

/-- A replica before `Run`. -/
def init (name : NodeID) : Replica where
  hist := Hist.init name
  mempool := { name := name }
  store_eq := rfl

/-- The replica with a new state of its mempool. -/
def withMempool (m : Mempool) (crashed : Bool) : Replica where
  hist := r.hist.setStore (consensusBlocks m.store.db)
  mempool := m
  crashed := crashed
  store_eq := rfl

/-- What the core finds in a step. -/
def env (payloads : List Digest) : Env where
  held d := payloadProposer r.mempool.store.db d
  payloads := payloads
  putOk := w.putOk

/-- The look-up of the core decodes the entry of the database. -/
theorem decoded_eq (payloads : List Digest) (d : Digest) :
    r.hist.core.decoded (r.env w payloads) d =
      (r.mempool.store.db d).map Entry.asConsensusBlock := by
  have hheld : (r.env w payloads).held d = payloadProposer r.mempool.store.db d := rfl
  unfold Core.decoded
  rw [hheld, r.store_eq]
  unfold consensusBlocks payloadProposer
  cases r.mempool.store.db d with
  | none => rfl
  | some e => cases e <;> rfl

/-- A digest that the core takes from the loopback channel is the next one there. -/
def takes : Input → Bool
  | .loopBack d => r.mempool.sync.loopBackChan.head? = some d
  | _ => true

/-- The loopback channel after a step of the core. -/
def loopBackAfter : Input → List Digest
  | .loopBack _ => r.mempool.sync.loopBackChan.tail
  | _ => r.mempool.sync.loopBackChan

/-- The mempool after a step of the core that has let out `outs`. It is `made` if the core has asked
for a new block. -/
def mempoolAfter (made : Mempool) (i : Input) (outs : List Output) : Mempool :=
  let m := if outs.any Output.isCreate then made else r.mempool
  let m :=
    match r.hist.core.put? i with
    | some b => m.write w.putOk (S.hash b) (.consensusBlock b)
    | none => m
  { m with sync := { m.sync with
      interChan := m.sync.interChan ++ outs.filterMap Output.sync?
      loopBackChan := r.loopBackAfter i } }

/-- What a step returns: the replica after it, the outputs of the core, and what the mempool sends.
-/
abbrev Result := Replica × List Output × List MempoolSend

/-- A step of the core. -/
def consensusStep (i : Input) : Option Result :=
  if r.takes i = true ∧ w.make.Of r.mempool then
    let made := r.mempool.handleMakeBlockMsg S M w.putOk w.make
    match r.hist.step S (r.env w made.2) i with
    | none => none
    | some (y, outs) =>
      let m := r.mempoolAfter S w made.1.mempool i outs
      some (⟨y.setStore (consensusBlocks m.store.db), m, r.crashed, rfl⟩, outs,
        if outs.any Output.isCreate then made.1.out else [])
  else none

/-- One step of a replica whose process is there. -/
def step (i : ReplicaInput) : Option Result :=
  if r.crashed = true ∨ r.hist.status = .crashed then none
  else
    match i with
    | .consensus i => r.consensusStep S M w i
    | .mempool msg =>
      let o := r.mempool.handle S M w.putOk msg
      some (r.withMempool o.mempool (o.err = some .panic), [], o.out)
    | .clean digests epoch =>
      let o := r.mempool.handleCleanBlock digests epoch
      some (r.withMempool o.mempool false, [], o.out)
    | .sync e => (r.mempool.syncStep M w.now e).map fun (m, out) => (r.withMempool m false, [], out)

end Replica

end SMVBA
