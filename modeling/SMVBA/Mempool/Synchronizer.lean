import Mathlib.Data.List.AList
import SMVBA.Consensus.Core
import SMVBA.Mempool.Store
import SMVBA.Pool.TxQueue

/-!
# The synchronizer

`mempool/synchronizer.go`. `Verify` looks the payloads of a block up and puts a request for the
missing ones on `interChan`. `Run` gives each request a waiter, unless one is under way for the
hash, and hands the hash back on the loopback channel when the waiter is done. A waiter is a
goroutine that reads the missing payloads one after the other with `NotifyRead`, and a `select` that
returns the hash when all are read, or the zero digest when `Run` has closed its `notify` channel.

Each case of the `select` of `Run` and each step of a waiter is one function here. Channels are
lists, and a waiter is known by its position among all waiters started.
-/

namespace SMVBA

/-- `mempool.Block`, a payload. -/
structure Block where
  proposer : NodeID
  batch : Batch
  signature : List UInt8
deriving DecidableEq, Repr

/-- What the one database of a node holds under a hash. -/
inductive Entry where
  | consensusBlock (b : ConsensusBlock)
  | block (b : Block)
deriving DecidableEq, Repr

/-- The messages between mempools. The pointer to the block may be nil. -/
inductive MempoolMsg where
  /-- `OwnBlockMsg`. -/
  | ownBlock (b : Option Block)
  /-- `OtherBlockMsg`. -/
  | otherBlock (b : Option Block)
  /-- `RequestBlockMsg`. -/
  | requestBlock (digests : List Digest) (author : NodeID)
deriving DecidableEq, Repr

/-- `Transmit.MempoolSend`. The addressee `NONE` is every other node. -/
structure MempoolSend where
  dst : NodeID
  msg : MempoolMsg
deriving DecidableEq, Repr

/-- The messages on `interChan`. -/
inductive SyncMsg where
  | block (m : SyncBlockMsg)
  /-- `SyncCleanUpBlockMsg`. -/
  | cleanUp (epoch : ℕ)
deriving DecidableEq, Repr

/-- What a waiter's current `NotifyRead` is at: not asked, in the store's queue, or answered. -/
inductive Stage where
  | idle
  | queued
  | answered
deriving DecidableEq, Repr

/-- A running call of `waiter`. -/
structure Waiter where
  /-- The payloads that are not yet read. -/
  left : List Digest
  stage : Stage := .idle
  blockHash : Digest
  /-- The `notify` channel is closed. -/
  closed : Bool := false
  /-- The `select` has returned. -/
  returned : Bool := false
deriving DecidableEq, Repr

/-- The current `NotifyRead` is answered. -/
def Waiter.answer (w : Waiter) : Waiter := { w with stage := .answered }

/-- `close(notify)`. -/
def Waiter.close (w : Waiter) : Waiter := { w with closed := true }

/-- An entry of the map `pending` of `Run`. Its `Notify` channel is that of the waiter. -/
structure SyncEntry where
  epoch : ℕ
  waiter : ℕ
  lastSend : ℤ
  missing : List Digest
  author : NodeID
deriving DecidableEq, Repr

/-- `Synchronizer`, with the local variables of `Run`, the waiters and the channels. -/
structure Synchronizer where
  interChan : List SyncMsg := []
  pending : AList (fun _ : Digest => SyncEntry) := ∅
  waiters : List Waiter := []
  waiting : List Digest := []
  loopBackChan : List Digest := []

/-- The steps of `Run` and of the waiters. -/
inductive SyncEvent where
  | inter
  | waiting
  | tick
  | ask (k : ℕ)
  | resume (k : ℕ)
  | finish (k : ℕ)
  | notified (k : ℕ)
deriving DecidableEq, Repr

/-- `VerifyStatus`, without `Reject`, which nothing returns. -/
inductive VerifyStatus where
  | ok
  | wait
deriving DecidableEq, Repr

namespace Synchronizer

variable (name : NodeID) (sync : Synchronizer)

/-- The conversion `uint64` of an `int64`. -/
def uint64 (n : ℤ) : ℕ := (n % 2 ^ 64).toNat

/-- `Synchronizer.Verify`. -/
def verify (store : Store Digest Entry ℕ) (proposer : NodeID) (epoch : ℤ) (digests : List Digest)
    (consensusBlockHash : Digest) : Synchronizer × VerifyStatus :=
  let missing := digests.filter fun d => (store.read d).isNone
  if missing = [] then (sync, .ok)
  else
    ({ sync with
      interChan := sync.interChan ++ [.block ⟨missing, proposer, epoch, consensusBlockHash⟩] },
      .wait)

/-- `Synchronizer.Cleanup`. -/
def cleanup (epoch : ℕ) : Synchronizer :=
  { sync with interChan := sync.interChan ++ [.cleanUp epoch] }

/-- The case of `Run` for a request: a waiter and an entry in `pending`, unless there is one. -/
def runBlock (now : ℤ) (req : SyncBlockMsg) : Synchronizer × List MempoolSend :=
  if (sync.pending.lookup req.consensusBlockHash).isSome then (sync, [])
  else
    ({ sync with
      waiters := sync.waiters ++ [{ left := req.missing, blockHash := req.consensusBlockHash }]
      pending := sync.pending.insert req.consensusBlockHash
        ⟨uint64 req.epoch, sync.waiters.length, now, req.missing, req.author⟩ },
      [⟨req.author, .requestBlock req.missing name⟩])

/-- `close(val.Notify)`, for the waiters in a list. -/
def close (ws : List ℕ) : Synchronizer :=
  { sync with waiters := ws.foldl (fun l k => l.modify k Waiter.close) sync.waiters }

/-- The case of `Run` for a clean-up: the entries of old epochs go, and their waiters are told. -/
def runCleanUp (epoch : ℕ) : Synchronizer :=
  let old := sync.pending.entries.filter fun e => e.2.epoch ≤ epoch
  let sync := sync.close (old.map fun e => e.2.waiter)
  { sync with pending := old.foldl (fun m e => m.erase e.1) sync.pending }

/-- The case of `Run` for `interChan`. -/
def runInter (now : ℤ) : Option (Synchronizer × List MempoolSend) :=
  match sync.interChan with
  | [] => none
  | .block req :: rest => some (runBlock name { sync with interChan := rest } now req)
  | .cleanUp epoch :: rest => some (runCleanUp { sync with interChan := rest } epoch, [])

/-- The case of `Run` for `waiting`. -/
def runWaiting : Option Synchronizer :=
  match sync.waiting with
  | [] => none
  | block :: rest =>
    if block ≠ 0 then
      some { sync with
        waiting := rest
        pending := sync.pending.erase block
        loopBackChan := sync.loopBackChan ++ [block] }
    else some { sync with waiting := rest }

/-- The case of `Run` for the ticker: requests that are too old are sent again, to everyone. -/
def runTick (syncRetryDelay now : ℤ) : Synchronizer × List MempoolSend :=
  let late := sync.pending.entries.filter fun e => now - e.2.lastSend > syncRetryDelay
  ({ sync with
    pending := late.foldl (fun m e => m.insert e.1 { e.2 with lastSend := now }) sync.pending },
    late.map fun e => ⟨NONE, .requestBlock e.2.missing name⟩)

/-! ## Waiters -/

/-- A waiter sends its `NotifyRead` for the next payload. -/
def ask (store : Store Digest Entry ℕ) (k : ℕ) : Option (Synchronizer × Store Digest Entry ℕ) :=
  match sync.waiters[k]? with
  | some ⟨d :: left, .idle, h, closed, returned⟩ =>
    let (store, answered) := store.notifyRead d k
    some ({ sync with
      waiters := sync.waiters.set k ⟨d :: left, if answered then .answered else .queued, h, closed,
        returned⟩ }, store)
  | _ => none

/-- A waiter takes the answer and goes on to the payload after it. -/
def resume (k : ℕ) : Option Synchronizer :=
  match sync.waiters[k]? with
  | some ⟨_ :: left, .answered, h, closed, returned⟩ =>
    some { sync with waiters := sync.waiters.set k ⟨left, .idle, h, closed, returned⟩ }
  | _ => none

/-- The `select` of a waiter returns the hash, because all payloads are read. -/
def finish (k : ℕ) : Option Synchronizer :=
  match sync.waiters[k]? with
  | some ⟨[], stage, h, closed, false⟩ =>
    some { sync with
      waiters := sync.waiters.set k ⟨[], stage, h, closed, true⟩
      waiting := sync.waiting ++ [h] }
  | _ => none

/-- The `select` of a waiter returns the zero digest, because `notify` is closed. -/
def notified (k : ℕ) : Option Synchronizer :=
  match sync.waiters[k]? with
  | some ⟨left, stage, h, true, false⟩ =>
    some { sync with
      waiters := sync.waiters.set k ⟨left, stage, h, true, true⟩
      waiting := sync.waiting ++ [0] }
  | _ => none

/-- A write of the store answers the requests of waiters. -/
def wake (ks : List ℕ) : Synchronizer :=
  { sync with waiters := ks.foldl (fun l k => l.modify k Waiter.answer) sync.waiters }

end Synchronizer

end SMVBA
