import SMVBA.Consensus.Aggreator
import SMVBA.Consensus.Commitor
import SMVBA.Consensus.Elector

/-!
# The handlers of the core

`core/smvba/consensus/core.go` and `spb.go`. A handler takes the state of a core and a message, and
returns the new state, what it sent, and its error. What leaves a handler is a list of `Output`s in
the order of the source: messages passed to the transmitor, messages pushed onto the node's own
receive channel, SPB calls spawned as goroutines, blocks created, blocks sent on `commitCh`, and
requests to the synchronizer for payloads that `verifyConsensusBlock` found missing.

The mempool answers two questions of the core: which payloads the store holds, and which payloads
the next block lists. `Env` carries its answers, and whether a write to the database succeeds.

The store is one database in the source, with consensus blocks and mempool blocks under their
hashes. Here `Core.store` holds the consensus blocks, and `Env.held` tells of the mempool blocks.
The two maps are one database as long as no key has held blocks of both kinds, of which only the
last one written would still be there. `Separated` of `Mempool/Refinement.lean` is this assumption,
for a node with its mempool.

`getConsensusBlock` does not ask which kind of block it reads. `gob` fills the fields that it knows
by name, and the one that a mempool block shares with a consensus block is `Proposer`. So a mempool
block is read as a consensus block of the same proposer, without payloads and of epoch zero
(`payloadAsBlock`), and no error is returned.
-/

namespace SMVBA

/-- `SPB`. Its `Proposer`, `Epoch` and `Round` are the slot that it is kept under. -/
structure SPB where
  blockHash : Option Digest := none
  votes : Phase → ℕ := fun _ => 0
  unHandleVote : List SPBVote := []
  unHandleProposal : List SPBProposal := []
  lockFlag : Bool := false

/-- A spawned call of an SPB instance, on the instance of the message's slot. -/
inductive Task where
  | processProposal (p : SPBProposal)
  | processVote (v : SPBVote)
deriving DecidableEq, Repr

/-- `mempool.SyncBlockMsg`: the payloads that a block misses. -/
structure SyncBlockMsg where
  missing : List Digest
  author : NodeID
  epoch : ℤ
  consensusBlockHash : Digest
deriving DecidableEq, Repr

/-- What a handler lets out. -/
inductive Output where
  /-- `Transimtor.Send`. The addressee `NONE` is every other node. -/
  | send (dst : NodeID) (m : Message)
  /-- `Transimtor.RecvChannel() <- m`. -/
  | recv (m : Message)
  /-- `go spb.processProposal(p)` and `go spb.processVote(v)`. -/
  | spawn (t : Task)
  /-- The log line of `generatorBlock`. -/
  | create (b : ConsensusBlock)
  /-- `commitCh <- b`. -/
  | commit (b : ConsensusBlock)
  /-- The request for missing payloads that `Synchronizer.Verify` puts on `interChan`. -/
  | sync (m : SyncBlockMsg)
deriving DecidableEq, Repr

/-- `Core`, less what `Setup` fixes. -/
structure Core where
  name : NodeID
  aggreator : Aggreator := {}
  elector : Elector := {}
  commitor : Committor := {}
  finishFlags : Slot → Option Digest := fun _ => none
  spbInstances : Slot → SPB := fun _ => {}
  doneFlags : View → Bool := fun _ => false
  readyFlags : View → Bool := fun _ => false
  haltFlags : ℤ → Bool := fun _ => false
  epoch : ℤ := 0
  store : Digest → Option ConsensusBlock := fun _ => none

/-- What the mempool and the database answer during one step. -/
structure Env where
  /-- The proposer of the mempool block that the store holds under the key, if it holds one. -/
  held : Digest → Option NodeID
  /-- The payloads that `HandleMakeBlockMsg` hands out. -/
  payloads : List Digest
  /-- Whether `DB.Put` succeeds. -/
  putOk : Bool

/-- Whether the store holds a mempool block under the key. -/
def Env.present (env : Env) (d : Digest) : Bool := (env.held d).isSome

/-- What a mempool block is decoded to where a consensus block is expected. -/
def payloadAsBlock (proposer : NodeID) : ConsensusBlock := ⟨proposer, [], 0⟩

/-- The result of a handler. -/
structure Outcome where
  core : Core
  out : List Output
  err : Option Err

/-- Nothing happens. -/
def Outcome.ret (c : Core) : Outcome := ⟨c, [], none⟩

/-- The code after a call: it runs on the call's state unless the call returned an error. -/
def Outcome.bind (o : Outcome) (f : Core → Outcome) : Outcome :=
  match o.err with
  | some _ => o
  | none =>
    let o' := f o.core
    ⟨o'.core, o.out ++ o'.out, o'.err⟩

/-- `Transimtor.Send` to every other node, and the push onto the node's own channel after it. -/
def broadcast (m : Message) : List Output := [.send NONE m, .recv m]

namespace Core

variable (S : Setup) (env : Env)

/-- `Core.messgaeFilter`. -/
def messgaeFilter (c : Core) (epoch : ℤ) : Bool := epoch < c.epoch

/-- The block that the value under a key is decoded to. -/
def decoded (c : Core) (d : Digest) : Option ConsensusBlock :=
  (c.store d).or ((env.held d).map payloadAsBlock)

/-- `Core.getConsensusBlock`. -/
def getConsensusBlock (c : Core) (d : Digest) : Except Err (Option ConsensusBlock) :=
  match c.decoded env d with
  | some b => .ok (some b)
  | none =>
    match S.absent with
    | .notFoundKey => .ok none
    | .other => .error .get

/-- Writing an SPB instance back. -/
def setSpb (c : Core) (s : Slot) (spb : SPB) : Core :=
  { c with spbInstances := Function.update c.spbInstances s spb }

/-- The block that `Core.generatorBlock` returns. -/
def generatorBlock (c : Core) (epoch : ℤ) : ConsensusBlock := ⟨c.name, env.payloads, epoch⟩

/-- The payloads of a block that the store does not hold, as `Synchronizer.Verify` collects them. -/
def missing (c : Core) (b : ConsensusBlock) : List Digest :=
  b.payLoads.filter fun d => (c.store d).isNone && !env.present d

/-- `Core.verifyConsensusBlock`, with the request that a failed verification leaves behind. -/
def verifyConsensusBlock (c : Core) (b : ConsensusBlock) : Bool × List Output :=
  if c.missing env b = [] then (true, [])
  else (false, [.sync ⟨c.missing env b, b.proposer, b.epoch, S.hash b⟩])

/-! ## SPB instances -/

/-- The vote of `processProposal`: to the proposer, or onto the own channel of the proposer. -/
def sendVote (c : Core) (v : SPBVote) : List Output :=
  if c.name ≠ v.proposer then [.send v.proposer (.spbVote v)] else [.recv (.spbVote v)]

/-- `SPB.processProposal`, on the instance of the proposal's slot. -/
def processProposal (c : Core) (p : SPBProposal) : Outcome :=
  let s := c.spbInstances p.slot
  match p.phase with
  | .one =>
    if s.blockHash ≠ none ∨ p.author ≠ p.b.proposer then .ret c
    else
      let blockHash := S.hash p.b
      let vote : SPBVote := ⟨c.name, p.author, blockHash, p.epoch, p.round, .one⟩
      ⟨c.setSpb p.slot
          { s with blockHash := some blockHash, unHandleProposal := [], unHandleVote := [] },
        c.sendVote vote ++ s.unHandleProposal.map (fun q => .spawn (.processProposal q)) ++
          s.unHandleVote.map (fun v => .spawn (.processVote v)), none⟩
  | .two =>
    if s.blockHash = none then
      .ret (c.setSpb p.slot { s with unHandleProposal := s.unHandleProposal ++ [p] })
    else
      let vote : SPBVote := ⟨c.name, p.author, 0, p.epoch, p.round, .two⟩
      ⟨c.setSpb p.slot { s with lockFlag := true }, c.sendVote vote, none⟩
  | .other _ => .ret c

/-- What `SPB.processVote` sends when the count of a phase reaches `num`. -/
def voteOutput (c : Core) (v : SPBVote) (blockHash : Digest) (num : ℕ) : List Output :=
  if num = S.quorum then
    match v.phase with
    | .one => broadcast (.spbProposal ⟨c.name, ⟨v.proposer, [], -1⟩, v.epoch, v.round, .two⟩)
    | .two => broadcast (.finish ⟨c.name, blockHash, v.epoch, v.round⟩)
    | .other _ => []
  else []

/-- `SPB.processVote`, on the instance of the vote's slot. -/
def processVote (c : Core) (v : SPBVote) : Outcome :=
  let s := c.spbInstances v.slot
  match s.blockHash with
  | none => .ret (c.setSpb v.slot { s with unHandleVote := s.unHandleVote ++ [v] })
  | some blockHash =>
    let num := s.votes v.phase + 1
    ⟨c.setSpb v.slot { s with votes := Function.update s.votes v.phase num },
      c.voteOutput S v blockHash num, none⟩

/-! ## Handlers -/

/-- The commit of a block all of whose payloads are there, as `handleSpbProposal`, `handleOutput`
and `handleLoopBack` do it. -/
def verifyAndCommit (c : Core) (b : ConsensusBlock) : Outcome :=
  let (ok, out) := c.verifyConsensusBlock S env b
  if ok then
    let (commitor, bs) := c.commitor.commit b
    ⟨{ c with commitor := commitor }, out ++ bs.map .commit, none⟩
  else ⟨c, out, none⟩

/-- The head of `handleSpbProposal` and of `handleLoopBack`: a block of a halted epoch is committed
when its author is the leader of the proposal's view. -/
def lateCommit (c : Core) (p : SPBProposal) : Outcome :=
  if p.phase = .one ∧ c.haltFlags p.epoch = true ∧ c.elector.leader p.view = p.author then
    c.verifyAndCommit S env p.b
  else .ret c

/-- The rest of `Core.handleSpbProposal`, after the discarding of old epochs. -/
def acceptProposal (c : Core) (p : SPBProposal) : Outcome :=
  if p.phase = .one then
    if env.putOk = false then ⟨c, [], some .put⟩
    else
      let c := { c with store := Function.update c.store (S.hash p.b) (some p.b) }
      let (ok, out) := c.verifyConsensusBlock S env p.b
      if ok then ⟨c, [.spawn (.processProposal p)], none⟩ else ⟨c, out, none⟩
  else ⟨c, [.spawn (.processProposal p)], none⟩

/-- `Core.handleSpbProposal`. -/
def handleSpbProposal (c : Core) (p : SPBProposal) : Outcome :=
  (c.lateCommit S env p).bind fun c =>
    if c.messgaeFilter p.epoch then .ret c else c.acceptProposal S env p

/-- `Core.handleSpbVote`. -/
def handleSpbVote (c : Core) (v : SPBVote) : Outcome :=
  if c.messgaeFilter v.epoch then .ret c else ⟨c, [.spawn (.processVote v)], none⟩

/-- `Core.invokeDoneAndShare`. -/
def invokeDoneAndShare (c : Core) (v : View) : Outcome :=
  if c.doneFlags v = false then
    let done := Message.done ⟨c.name, v.epoch, v.round⟩
    let share := Message.electShare
      ⟨c.name, v.epoch, v.round, S.requestTsSugnature c.name (S.electHash v)⟩
    ⟨{ c with doneFlags := Function.update c.doneFlags v true },
      [.send NONE done, .send NONE share, .recv done, .recv share], none⟩
  else .ret c

/-- `Core.handleFinish`. -/
def handleFinish (c : Core) (f : Finish) : Outcome :=
  if c.messgaeFilter f.epoch then .ret c
  else
    match c.aggreator.addFinishVote S f with
    | (a, .error e) => ⟨{ c with aggreator := a }, [], some e⟩
    | (a, .ok flag) =>
      let c := { c with
        aggreator := a
        finishFlags := Function.update c.finishFlags f.slot (some f.blockHash) }
      if flag then c.invokeDoneAndShare S f.view else .ret c

/-- `Core.processLeader`. -/
def processLeader (c : Core) (v : View) : Outcome :=
  if c.readyFlags v = true ∧ c.elector.leader v ≠ NONE then
    let leader := c.elector.leader v
    match c.finishFlags (v.slot leader) with
    | some d => ⟨c, broadcast (.halt ⟨c.name, v.epoch, v.round, leader, d⟩), none⟩
    | none =>
      let spb := c.spbInstances (v.slot leader)
      if spb.lockFlag then
        match spb.blockHash with
        | none => ⟨c, [], some .panic⟩
        | some h => ⟨c, broadcast (.prevote ⟨c.name, leader, v.epoch, v.round, .yes, h⟩), none⟩
      else ⟨c, broadcast (.prevote ⟨c.name, leader, v.epoch, v.round, .no, 0⟩), none⟩
  else .ret c

/-- `Core.handleDone`. -/
def handleDone (c : Core) (d : Done) : Outcome :=
  if c.messgaeFilter d.epoch then .ret c
  else
    match c.aggreator.addDoneVote S d with
    | (a, .error e) => ⟨{ c with aggreator := a }, [], some e⟩
    | (a, .ok .low) => { c with aggreator := a }.invokeDoneAndShare S d.view
    | (a, .ok .high) =>
      { c with
        aggreator := a
        readyFlags := Function.update c.readyFlags d.view true }.processLeader d.view
    | (a, .ok .none) => .ret { c with aggreator := a }

/-- `Core.handleElectShare`. -/
def handleElectShare (c : Core) (s : ElectShare) : Outcome :=
  if c.messgaeFilter s.epoch then .ret c
  else
    match c.elector.addShareVote S s with
    | (e, .error err) => ⟨{ c with elector := e }, [], some err⟩
    | (e, .ok leader) =>
      let c := { c with elector := e }
      if leader ≠ NONE then c.processLeader s.view else .ret c

/-- `Core.handlePrevote`. -/
def handlePrevote (c : Core) (pv : Prevote) : Outcome :=
  if c.messgaeFilter pv.epoch then .ret c
  else
    match c.aggreator.addPreVote S pv with
    | (a, .error e) => ⟨{ c with aggreator := a }, [], some e⟩
    | (a, .ok .no) => ⟨{ c with aggreator := a },
        broadcast (.finVote (newFinVote c.name pv.leader pv.epoch pv.round .no pv.blockHash)), none⟩
    | (a, .ok .yes) => ⟨{ c with aggreator := a },
        broadcast (.finVote (newFinVote c.name pv.leader pv.epoch pv.round .yes pv.blockHash)),
        none⟩
    | (a, .ok _) => .ret { c with aggreator := a }

/-- The block hash that `Core.advanceNextRound` looks up: after `ACTION_NO` the node's own, if its
instance of the round has one. -/
def nextHash (c : Core) (v : View) (flag : Action) (blockHash : Digest) : Digest :=
  if flag = .no then (c.spbInstances (v.slot c.name)).blockHash.getD blockHash else blockHash

/-- `Core.advanceNextRound`. -/
def advanceNextRound (c : Core) (v : View) (flag : Action) (blockHash : Digest) : Outcome :=
  if c.messgaeFilter v.epoch then .ret c
  else
    match c.getConsensusBlock S env (c.nextHash v flag blockHash) with
    | .error e => ⟨c, [], some e⟩
    | .ok (some block) =>
      ⟨c, broadcast (.spbProposal ⟨c.name, block, v.epoch, succ64 v.round, .one⟩), none⟩
    | .ok none =>
      let block := c.generatorBlock env v.epoch
      ⟨c, .create block ::
        broadcast (.spbProposal ⟨c.name, block, v.epoch, succ64 v.round, .one⟩), none⟩

/-- `Core.handleFinvote`. -/
def handleFinvote (c : Core) (fv : FinVote) : Outcome :=
  if c.messgaeFilter fv.epoch then .ret c
  else
    match c.aggreator.addFinVote S fv with
    | (a, .error e) => ⟨{ c with aggreator := a }, [], some e⟩
    | (a, .ok .yes) => { c with aggreator := a }.advanceNextRound S env fv.view .yes fv.blockHash
    | (a, .ok .no) => { c with aggreator := a }.advanceNextRound S env fv.view .no 0
    | (a, .ok .commit) => ⟨{ c with aggreator := a },
        broadcast (.halt ⟨c.name, fv.epoch, fv.round, fv.leader, fv.blockHash⟩), none⟩
    | (a, .ok .none) => .ret { c with aggreator := a }

/-- `Core.handleOutput`. -/
def handleOutput (c : Core) (blockHash : Digest) : Outcome :=
  match c.getConsensusBlock S env blockHash with
  | .error e => ⟨c, [], some e⟩
  | .ok (some b) => c.verifyAndCommit S env b
  | .ok none => .ret c

/-- `Core.advanceNextEpoch`. -/
def advanceNextEpoch (c : Core) (epoch : ℤ) : Outcome :=
  if epoch ≤ c.epoch then .ret c
  else
    let block := c.generatorBlock env epoch
    ⟨{ c with epoch := epoch }, .create block ::
      broadcast (.spbProposal ⟨c.name, block, epoch, 0, .one⟩), none⟩

/-- `Core.handleHalt`. The leader is written before the block is looked up, and stays written when
the look-up fails. -/
def handleHalt (c : Core) (h : Halt) : Outcome :=
  if c.messgaeFilter h.epoch then .ret c
  else if c.haltFlags h.epoch = true then .ret c
  else
    ({ c with elector := c.elector.setLeader h.view h.leader }.handleOutput S env h.blockHash).bind
      fun c => { c with haltFlags := Function.update c.haltFlags h.epoch true }.advanceNextEpoch env
        (succ64 h.epoch)

/-- The proposal that `Core.handleLoopBack` makes of a block: in round zero of the block's epoch,
with the block's proposer as its author. -/
def loopProposal (b : ConsensusBlock) : SPBProposal := ⟨b.proposer, b, b.epoch, 0, .one⟩

/-- `Core.handleLoopBack`. A block that the store does not hold is a nil pointer when the database
answers with `store.ErrNotFoundKey`. -/
def handleLoopBack (c : Core) (d : Digest) : Outcome :=
  match c.getConsensusBlock S env d with
  | .error e => ⟨c, [], some e⟩
  | .ok none => ⟨c, [], some .panic⟩
  | .ok (some block) =>
    (c.lateCommit S env (loopProposal block)).bind fun c =>
      if c.epoch ≤ block.epoch then ⟨c, [.spawn (.processProposal (loopProposal block))], none⟩
      else .ret c

/-- The first proposal of `Core.Run`. -/
def start (c : Core) : Outcome :=
  let block := c.generatorBlock env c.epoch
  ⟨c, .create block :: broadcast (.spbProposal ⟨c.name, block, c.epoch, 0, .one⟩), none⟩

/-- The dispatch of `Core.Run` on a message that passed `Verify`. -/
def handle (c : Core) : Message → Outcome
  | .spbProposal p => c.handleSpbProposal S env p
  | .spbVote v => c.handleSpbVote v
  | .finish f => c.handleFinish S f
  | .done d => c.handleDone S d
  | .electShare s => c.handleElectShare S s
  | .prevote p => c.handlePrevote S p
  | .finVote v => c.handleFinvote S env v
  | .halt h => c.handleHalt S env h

/-- A spawned call. -/
def runTask (c : Core) : Task → Outcome
  | .processProposal p => c.processProposal S p
  | .processVote v => c.processVote S v

end Core

end SMVBA
