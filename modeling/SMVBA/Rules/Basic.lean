import Mathlib.Logic.Relation
import SMVBA.Consensus.Run

/-!
# What a step can do

The handlers, flattened into rules. A step of a node is a short chain of rules, each of which
changes a few fields and lets out a fixed list of outputs, under the conditions that the code has
checked when it gets there. `Rules/Refinement.lean` shows that every step is such a chain, so that
an invariant of a node has to be checked rule by rule only, without the code's control flow.

The relation is indexed by the step's input and by the state that the step began in. The rules that
act on the state as the step found it say so (`Untouched`), which is how a condition on the
beginning of a step reaches the rule that it is about.
-/

namespace SMVBA

/-- The state of the core is still the one that the step began with, and nothing was let out yet. -/
structure Untouched (x0 x : Hist) : Prop where
  core : x.core = x0.core
  out : x.out = x0.out
  decided : x.decided = x0.decided

/-- Where the phase-one proposal in hand comes from: it is the message of the step, or it was made
of the block that was read under a key that the loopback channel named. -/
inductive Origin (env : Env) (i : Input) (x : Hist) (p : SPBProposal) : Prop
  | message (hi : i = .msg (.spbProposal p)) (hh : .spbProposal p ∈ x.handled)
  | loopBack (d : Digest) (hi : i = .loopBack d) (hs : x.core.decoded env d = some p.b)
      (hp : p = Core.loopProposal p.b)

/-- The messages that `handleSpbProposal` and `handleSpbVote` pass on to an instance without looking
at the block. -/
inductive Forwarded : Message → Task → Prop
  | proposal (p : SPBProposal) (hp : p.phase ≠ .one) :
      Forwarded (.spbProposal p) (.processProposal p)
  | vote (v : SPBVote) : Forwarded (.spbVote v) (.processVote v)

/-- What `processLeader` sends. -/
inductive LeaderOut (c : Core) (v : View) : List Output → Prop
  | none : LeaderOut c v []
  | halt (d : Digest) (hready : c.readyFlags v = true) (hleader : c.elector.leader v ≠ NONE)
      (hd : c.finishFlags (v.slot (c.elector.leader v)) = some d) :
      LeaderOut c v (broadcast (.halt ⟨c.name, v.epoch, v.round, c.elector.leader v, d⟩))
  | yes (h : Digest) (hready : c.readyFlags v = true) (hleader : c.elector.leader v ≠ NONE)
      (hlock : (c.spbInstances (v.slot (c.elector.leader v))).lockFlag = true)
      (hh : (c.spbInstances (v.slot (c.elector.leader v))).blockHash = some h) :
      LeaderOut c v
        (broadcast (.prevote ⟨c.name, c.elector.leader v, v.epoch, v.round, .yes, h⟩))
  | no (hready : c.readyFlags v = true) (hleader : c.elector.leader v ≠ NONE)
      (hlock : (c.spbInstances (v.slot (c.elector.leader v))).lockFlag = false) :
      LeaderOut c v (broadcast (.prevote ⟨c.name, c.elector.leader v, v.epoch, v.round, .no, 0⟩))

/-- What `advanceNextRound` sends, for the hash that it looks up. -/
inductive NextOut (S : Setup) (env : Env) (c : Core) (v : View) (d : Digest) : List Output → Prop
  | fail : NextOut S env c v d []
  | get (b : ConsensusBlock) (hb : c.decoded env d = some b) :
      NextOut S env c v d (broadcast (.spbProposal ⟨c.name, b, v.epoch, succ64 v.round, .one⟩))
  | create (ha : S.absent = .notFoundKey) :
      NextOut S env c v d (.create (c.generatorBlock env v.epoch) :: broadcast
        (.spbProposal ⟨c.name, c.generatorBlock env v.epoch, v.epoch, succ64 v.round, .one⟩))

/-- What `handleOutput` does when it returns no error: the committor after it, and its outputs. -/
inductive HaltOut (S : Setup) (env : Env) (c : Core) (d : Digest) : Committor → List Output → Prop
  | commit (b : ConsensusBlock) (hb : c.decoded env d = some b) (hm : c.missing env b = []) :
      HaltOut S env c d (c.commitor.commit b).1 ((c.commitor.commit b).2.map .commit)
  | sync (b : ConsensusBlock) (hb : c.decoded env d = some b) (hm : c.missing env b ≠ []) :
      HaltOut S env c d c.commitor [.sync ⟨c.missing env b, b.proposer, b.epoch, S.hash b⟩]
  | absent (hb : c.decoded env d = none) (ha : S.absent = .notFoundKey) :
      HaltOut S env c d c.commitor []

/-- The rules. -/
inductive Rule (S : Setup) (env : Env) (i : Input) (x0 : Hist) : Hist → Hist → Prop
  /-- A message leaves the receive channel. -/
  | recv {x : Hist} (m : Message) (hi : i = .msg m) (hx : Untouched x0 x) :
      Rule S env i x0 x { x with handled := x.handled ++ [m] }
  /-- A message leaves the receive channel and goes on to its SPB instance. -/
  | forward {x : Hist} (m : Message) (t : Task) (hi : i = .msg m) (ht : Forwarded m t) :
      Rule S env i x0 x { x with
        handled := x.handled ++ [m]
        tasks := x.tasks ++ [t]
        out := x.out ++ [.spawn t] }
  /-- A verification fails, and the synchronizer is asked for the missing payloads. -/
  | sync {x : Hist} (p : SPBProposal) (hp : p.phase = .one) (ho : Origin env i x p)
      (hm : x.core.missing env p.b ≠ []) :
      Rule S env i x0 x { x with
        out := x.out ++ [.sync ⟨x.core.missing env p.b, p.b.proposer, p.b.epoch, S.hash p.b⟩] }
  /-- The commit of a block of a halted epoch. -/
  | lateCommit {x : Hist} (p : SPBProposal) (hp : p.phase = .one) (ho : Origin env i x p)
      (hx : Untouched x0 x) (hh : x.core.haltFlags p.epoch = true)
      (hl : x.core.elector.leader p.view = p.author) (hm : x.core.missing env p.b = []) :
      Rule S env i x0 x { x with
        core := { x.core with commitor := (x.core.commitor.commit p.b).1 }
        out := x.out ++ (x.core.commitor.commit p.b).2.map .commit }
  /-- The block of a proposal is stored. -/
  | store {x : Hist} (p : SPBProposal) (hp : p.phase = .one) (hi : i = .msg (.spbProposal p))
      (hh : .spbProposal p ∈ x.handled) (he : x.core.epoch ≤ p.epoch) :
      Rule S env i x0 x { x with
        core := { x.core with store := Function.update x.core.store (S.hash p.b) (some p.b) } }
  /-- A phase-one proposal of the network goes on to its SPB instance, once its block is stored and
  all its payloads are there. -/
  | spawnOne {x : Hist} (p : SPBProposal) (hp : p.phase = .one) (hi : i = .msg (.spbProposal p))
      (hh : .spbProposal p ∈ x.handled) (he : x.core.epoch ≤ p.epoch)
      (hs : x.core.store (S.hash p.b) = some p.b) (hm : x.core.missing env p.b = []) :
      Rule S env i x0 x { x with
        tasks := x.tasks ++ [.processProposal p]
        out := x.out ++ [.spawn (.processProposal p)] }
  /-- A block that the loopback channel named goes on to its SPB instance. -/
  | spawnLoop {x : Hist} (d : Digest) (b : ConsensusBlock) (hi : i = .loopBack d)
      (hs : x.core.decoded env d = some b) (he : x.core.epoch ≤ b.epoch) :
      Rule S env i x0 x { x with
        tasks := x.tasks ++ [.processProposal (Core.loopProposal b)]
        out := x.out ++ [.spawn (.processProposal (Core.loopProposal b))] }
  /-- A `Finish` is counted. -/
  | finish {x : Hist} (f : Finish) (hh : .finish f ∈ x.handled) (he : x.core.epoch ≤ f.epoch)
      (hn : f.author ∉ (x.core.aggreator.finishAggreator f.view).authors) :
      Rule S env i x0 x { x with core := { x.core with
        aggreator := { x.core.aggreator with
          finishAggreator := Function.update x.core.aggreator.finishAggreator f.view
            ⟨insert f.author (x.core.aggreator.finishAggreator f.view).authors⟩ }
        finishFlags := Function.update x.core.finishFlags f.slot (some f.blockHash) } }
  /-- `invokeDoneAndShare`. -/
  | doneShare {x : Hist} (v : View) (hd : x.core.doneFlags v = false)
      (hc : S.quorum ≤ (x.core.aggreator.finishAggreator v).authors.card ∨
        S.committee.lowThreshold ≤ (x.core.aggreator.doneAggreator v).authors.card) :
      Rule S env i x0 x { x with
        core := { x.core with doneFlags := Function.update x.core.doneFlags v true }
        out := x.out ++
          [.send NONE (.done ⟨x.core.name, v.epoch, v.round⟩),
            .send NONE (.electShare ⟨x.core.name, v.epoch, v.round,
              S.requestTsSugnature x.core.name (S.electHash v)⟩),
            .recv (.done ⟨x.core.name, v.epoch, v.round⟩),
            .recv (.electShare ⟨x.core.name, v.epoch, v.round,
              S.requestTsSugnature x.core.name (S.electHash v)⟩)] }
  /-- A `Done` is counted and does not complete the quorum. -/
  | done {x : Hist} (d : Done) (hh : .done d ∈ x.handled) (he : x.core.epoch ≤ d.epoch)
      (hn : d.author ∉ (x.core.aggreator.doneAggreator d.view).authors) :
      Rule S env i x0 x { x with core := { x.core with
        aggreator := { x.core.aggreator with
          doneAggreator := Function.update x.core.aggreator.doneAggreator d.view
            ⟨insert d.author (x.core.aggreator.doneAggreator d.view).authors⟩ } } }
  /-- A `Done` completes the quorum: the view is ready, and `processLeader` runs. -/
  | ready {x : Hist} (d : Done) (outs : List Output) (hi : i = .msg (.done d))
      (hh : .done d ∈ x.handled)
      (hx : Untouched x0 x) (he : x.core.epoch ≤ d.epoch)
      (hn : d.author ∉ (x.core.aggreator.doneAggreator d.view).authors)
      (hq : (insert d.author (x.core.aggreator.doneAggreator d.view).authors).card = S.quorum)
      (ho : LeaderOut { x.core with readyFlags := Function.update x.core.readyFlags d.view true }
        d.view outs) :
      Rule S env i x0 x { x with
        core := { x.core with
          aggreator := { x.core.aggreator with
            doneAggreator := Function.update x.core.aggreator.doneAggreator d.view
              ⟨insert d.author (x.core.aggreator.doneAggreator d.view).authors⟩ }
          readyFlags := Function.update x.core.readyFlags d.view true }
        out := x.out ++ outs }
  /-- A share is counted and elects nobody. -/
  | share {x : Hist} (s : ElectShare) (hh : .electShare s ∈ x.handled)
      (he : x.core.epoch ≤ s.epoch)
      (hn : s.author ∉ (x.core.elector.electAggreators s.view).authors) :
      Rule S env i x0 x { x with core := { x.core with
        elector := { x.core.elector with
          electAggreators := Function.update x.core.elector.electAggreators s.view
            ⟨(x.core.elector.electAggreators s.view).shares ++ [s.sigShare],
              insert s.author (x.core.elector.electAggreators s.view).authors⟩ } } }
  /-- A share completes the coin: the leader is set, and `processLeader` runs. -/
  | elect {x : Hist} (s : ElectShare) (coin : List UInt8) (leader : NodeID) (outs : List Output)
      (hi : i = .msg (.electShare s))
      (hh : .electShare s ∈ x.handled) (hx : Untouched x0 x) (he : x.core.epoch ≤ s.epoch)
      (hn : s.author ∉ (x.core.elector.electAggreators s.view).authors)
      (hq : ((x.core.elector.electAggreators s.view).shares ++ [s.sigShare]).length = S.quorum)
      (hc : S.combineIntactTSPartial
        ((x.core.elector.electAggreators s.view).shares ++ [s.sigShare])
        (S.electHash s.view) = some coin)
      (hl : coinLeader S coin = some leader)
      (ho : LeaderOut { x.core with elector := x.core.elector.setLeader s.view leader }
        s.view outs) :
      Rule S env i x0 x { x with
        core := { x.core with
          elector := ⟨Function.update x.core.elector.leaders s.view leader,
            Function.update x.core.elector.electAggreators s.view
              ⟨(x.core.elector.electAggreators s.view).shares ++ [s.sigShare],
                insert s.author (x.core.elector.electAggreators s.view).authors⟩⟩ }
        out := x.out ++ outs }
  /-- A prevote is counted, and nothing is sent for it. -/
  | prevote {x : Hist} (pv : Prevote) (hh : .prevote pv ∈ x.handled) (he : x.core.epoch ≤ pv.epoch)
      (hn : pv.author ∉ (x.core.aggreator.prevoteAggreator pv.view).authors)
      (hf : 0 < ((x.core.aggreator.prevoteAggreator pv.view).count pv).yesNums →
        (x.core.aggreator.prevoteAggreator pv.view).flag = true) :
      Rule S env i x0 x { x with core := { x.core with
        aggreator := { x.core.aggreator with
          prevoteAggreator := Function.update x.core.aggreator.prevoteAggreator pv.view
            ((x.core.aggreator.prevoteAggreator pv.view).count pv) } } }
  /-- A first prevote for yes is counted, and answered with a vote for yes. -/
  | prevoteYes {x : Hist} (pv : Prevote) (hi : i = .msg (.prevote pv))
      (hh : .prevote pv ∈ x.handled) (hx : Untouched x0 x)
      (he : x.core.epoch ≤ pv.epoch)
      (hn : pv.author ∉ (x.core.aggreator.prevoteAggreator pv.view).authors)
      (hy : 0 < ((x.core.aggreator.prevoteAggreator pv.view).count pv).yesNums)
      (hf : (x.core.aggreator.prevoteAggreator pv.view).flag = false) :
      Rule S env i x0 x { x with
        core := { x.core with
          aggreator := { x.core.aggreator with
            prevoteAggreator := Function.update x.core.aggreator.prevoteAggreator pv.view
              { (x.core.aggreator.prevoteAggreator pv.view).count pv with flag := true } } }
        out := x.out ++ broadcast
          (.finVote (newFinVote x.core.name pv.leader pv.epoch pv.round .yes pv.blockHash)) }
  /-- A prevote completes a quorum for no, and is answered with a vote for no. -/
  | prevoteNo {x : Hist} (pv : Prevote) (hh : .prevote pv ∈ x.handled)
      (he : x.core.epoch ≤ pv.epoch)
      (hn : pv.author ∉ (x.core.aggreator.prevoteAggreator pv.view).authors)
      (hq : ((x.core.aggreator.prevoteAggreator pv.view).count pv).noNums = S.quorum)
      (hy : ((x.core.aggreator.prevoteAggreator pv.view).count pv).yesNums = 0)
      (hf : (x.core.aggreator.prevoteAggreator pv.view).flag = false) :
      Rule S env i x0 x { x with
        core := { x.core with
          aggreator := { x.core.aggreator with
            prevoteAggreator := Function.update x.core.aggreator.prevoteAggreator pv.view
              ((x.core.aggreator.prevoteAggreator pv.view).count pv) } }
        out := x.out ++ broadcast
          (.finVote (newFinVote x.core.name pv.leader pv.epoch pv.round .no pv.blockHash)) }
  /-- A final vote is counted and does not complete the quorum. -/
  | finVote {x : Hist} (fv : FinVote) (hh : .finVote fv ∈ x.handled) (he : x.core.epoch ≤ fv.epoch)
      (hn : fv.author ∉ (x.core.aggreator.finvoteAggreator fv.view).authors)
      (hq : ((x.core.aggreator.finvoteAggreator fv.view).count fv).yesNums +
        ((x.core.aggreator.finvoteAggreator fv.view).count fv).noNums ≠ S.quorum) :
      Rule S env i x0 x { x with core := { x.core with
        aggreator := { x.core.aggreator with
          finvoteAggreator := Function.update x.core.aggreator.finvoteAggreator fv.view
            ((x.core.aggreator.finvoteAggreator fv.view).count fv) } } }
  /-- A final vote completes a quorum for yes: the view is decided. -/
  | finCommit {x : Hist} (fv : FinVote) (hi : i = .msg (.finVote fv))
      (hh : .finVote fv ∈ x.handled) (hx : Untouched x0 x) (he : x.core.epoch ≤ fv.epoch)
      (hn : fv.author ∉ (x.core.aggreator.finvoteAggreator fv.view).authors)
      (hq : ((x.core.aggreator.finvoteAggreator fv.view).count fv).yesNums = S.quorum)
      (hz : ((x.core.aggreator.finvoteAggreator fv.view).count fv).noNums = 0) :
      Rule S env i x0 x { x with
        core := { x.core with
          aggreator := { x.core.aggreator with
            finvoteAggreator := Function.update x.core.aggreator.finvoteAggreator fv.view
              ((x.core.aggreator.finvoteAggreator fv.view).count fv) } }
        out := x.out ++ broadcast
          (.halt ⟨x.core.name, fv.epoch, fv.round, fv.leader, fv.blockHash⟩) }
  /-- A final vote completes a quorum for no: the next round starts with the node's own block. -/
  | finNo {x : Hist} (fv : FinVote) (outs : List Output) (hi : i = .msg (.finVote fv))
      (hh : .finVote fv ∈ x.handled) (hx : Untouched x0 x) (he : x.core.epoch ≤ fv.epoch)
      (hn : fv.author ∉ (x.core.aggreator.finvoteAggreator fv.view).authors)
      (hq : ((x.core.aggreator.finvoteAggreator fv.view).count fv).noNums = S.quorum)
      (hz : ((x.core.aggreator.finvoteAggreator fv.view).count fv).yesNums = 0)
      (ho : NextOut S env x.core fv.view
        ((x.core.spbInstances (fv.view.slot x.core.name)).blockHash.getD 0) outs) :
      Rule S env i x0 x { x with
        core := { x.core with
          aggreator := { x.core.aggreator with
            finvoteAggreator := Function.update x.core.aggreator.finvoteAggreator fv.view
              ((x.core.aggreator.finvoteAggreator fv.view).count fv) } }
        out := x.out ++ outs }
  /-- A final vote completes a mixed quorum: the next round starts with the voted block. -/
  | finYes {x : Hist} (fv : FinVote) (outs : List Output) (hi : i = .msg (.finVote fv))
      (hh : .finVote fv ∈ x.handled) (hx : Untouched x0 x) (he : x.core.epoch ≤ fv.epoch)
      (hn : fv.author ∉ (x.core.aggreator.finvoteAggreator fv.view).authors)
      (hq : ((x.core.aggreator.finvoteAggreator fv.view).count fv).yesNums +
        ((x.core.aggreator.finvoteAggreator fv.view).count fv).noNums = S.quorum)
      (hy : 0 < ((x.core.aggreator.finvoteAggreator fv.view).count fv).yesNums)
      (hz : 0 < ((x.core.aggreator.finvoteAggreator fv.view).count fv).noNums)
      (ho : NextOut S env x.core fv.view fv.blockHash outs) :
      Rule S env i x0 x { x with
        core := { x.core with
          aggreator := { x.core.aggreator with
            finvoteAggreator := Function.update x.core.aggreator.finvoteAggreator fv.view
              ((x.core.aggreator.finvoteAggreator fv.view).count fv) } }
        out := x.out ++ outs }
  /-- A halt is accepted, and the epoch does not advance. -/
  | haltStay {x : Hist} (h : Halt) (k : Committor) (outs : List Output) (hi : i = .msg (.halt h))
      (hh : .halt h ∈ x.handled)
      (hx : Untouched x0 x) (he : x.core.epoch ≤ h.epoch) (hf : x.core.haltFlags h.epoch = false)
      (ho : HaltOut S env x.core h.blockHash k outs) (hs : succ64 h.epoch ≤ x.core.epoch) :
      Rule S env i x0 x { x with
        core := { x.core with
          elector := x.core.elector.setLeader h.view h.leader
          commitor := k
          haltFlags := Function.update x.core.haltFlags h.epoch true }
        out := x.out ++ outs
        decided := x.decided ++ [h] }
  /-- A halt is accepted, and the next epoch starts with a new block. -/
  | haltNext {x : Hist} (h : Halt) (k : Committor) (outs : List Output) (hi : i = .msg (.halt h))
      (hr : x.status = .running) (hh : .halt h ∈ x.handled)
      (hx : Untouched x0 x) (he : x.core.epoch ≤ h.epoch) (hf : x.core.haltFlags h.epoch = false)
      (ho : HaltOut S env x.core h.blockHash k outs) (hs : x.core.epoch < succ64 h.epoch) :
      Rule S env i x0 x { x with
        core := { x.core with
          elector := x.core.elector.setLeader h.view h.leader
          commitor := k
          haltFlags := Function.update x.core.haltFlags h.epoch true
          epoch := succ64 h.epoch }
        out := x.out ++ (outs ++ .create (x.core.generatorBlock env (succ64 h.epoch)) ::
          broadcast (.spbProposal ⟨x.core.name, x.core.generatorBlock env (succ64 h.epoch),
            succ64 h.epoch, 0, .one⟩))
        decided := x.decided ++ [h] }
  /-- The block of a halt cannot be read: only the leader is written. -/
  | haltFail {x : Hist} (h : Halt) (hi : i = .msg (.halt h)) (hh : .halt h ∈ x.handled)
      (hx : Untouched x0 x) (he : x.core.epoch ≤ h.epoch) (hf : x.core.haltFlags h.epoch = false)
      (hb : x.core.decoded env h.blockHash = none) (ha : S.absent = .other) :
      Rule S env i x0 x { x with core := { x.core with
        elector := x.core.elector.setLeader h.view h.leader } }
  /-- A spawned call ends without effect. -/
  | drop {x : Hist} (t : Task) (hi : i = .task t) (ht : t ∈ x.tasks) :
      Rule S env i x0 x { x with tasks := x.tasks.erase t }
  /-- An instance accepts a phase-one proposal, votes for it, and takes up what had to wait. -/
  | voteOne {x : Hist} (p : SPBProposal) (hi : i = .task (.processProposal p)) (hp : p.phase = .one)
      (ht : .processProposal p ∈ x.tasks) (hb : (x.core.spbInstances p.slot).blockHash = none)
      (ha : p.author = p.b.proposer) :
      Rule S env i x0 x { x with
        core := x.core.setSpb p.slot { x.core.spbInstances p.slot with
          blockHash := some (S.hash p.b)
          unHandleProposal := []
          unHandleVote := [] }
        tasks := x.tasks.erase (.processProposal p) ++
          ((x.core.spbInstances p.slot).unHandleProposal.map .processProposal ++
            (x.core.spbInstances p.slot).unHandleVote.map .processVote)
        out := x.out ++
          (x.core.sendVote ⟨x.core.name, p.author, S.hash p.b, p.epoch, p.round, .one⟩ ++
            (x.core.spbInstances p.slot).unHandleProposal.map
              (fun q => .spawn (.processProposal q)) ++
            (x.core.spbInstances p.slot).unHandleVote.map (fun v => .spawn (.processVote v))) }
  /-- An instance without a block keeps a phase-two proposal for later. -/
  | keepTwo {x : Hist} (p : SPBProposal) (hp : p.phase = .two) (ht : .processProposal p ∈ x.tasks)
      (hb : (x.core.spbInstances p.slot).blockHash = none) :
      Rule S env i x0 x { x with
        core := x.core.setSpb p.slot { x.core.spbInstances p.slot with
          unHandleProposal := (x.core.spbInstances p.slot).unHandleProposal ++ [p] }
        tasks := x.tasks.erase (.processProposal p) }
  /-- An instance locks its block and votes for the second phase. -/
  | voteTwo {x : Hist} (p : SPBProposal) (h : Digest) (hi : i = .task (.processProposal p))
      (hp : p.phase = .two)
      (ht : .processProposal p ∈ x.tasks) (hx : Untouched x0 x)
      (hb : (x.core.spbInstances p.slot).blockHash = some h) :
      Rule S env i x0 x { x with
        core := x.core.setSpb p.slot { x.core.spbInstances p.slot with lockFlag := true }
        tasks := x.tasks.erase (.processProposal p)
        out := x.out ++ x.core.sendVote ⟨x.core.name, p.author, 0, p.epoch, p.round, .two⟩ }
  /-- An instance without a block keeps a vote for later. -/
  | keepVote {x : Hist} (v : SPBVote) (ht : .processVote v ∈ x.tasks)
      (hb : (x.core.spbInstances v.slot).blockHash = none) :
      Rule S env i x0 x { x with
        core := x.core.setSpb v.slot { x.core.spbInstances v.slot with
          unHandleVote := (x.core.spbInstances v.slot).unHandleVote ++ [v] }
        tasks := x.tasks.erase (.processVote v) }
  /-- An instance counts a vote, and answers when the count reaches the quorum. -/
  | countVote {x : Hist} (v : SPBVote) (h : Digest) (ht : .processVote v ∈ x.tasks)
      (hb : (x.core.spbInstances v.slot).blockHash = some h) :
      Rule S env i x0 x { x with
        core := x.core.setSpb v.slot { x.core.spbInstances v.slot with
          votes := Function.update (x.core.spbInstances v.slot).votes v.phase
            ((x.core.spbInstances v.slot).votes v.phase + 1) }
        tasks := x.tasks.erase (.processVote v)
        out := x.out ++ x.core.voteOutput S v h ((x.core.spbInstances v.slot).votes v.phase + 1) }
  /-- `Core.Run` starts with a first block. -/
  | start {x : Hist} (hs : x.status = .idle) :
      Rule S env i x0 x { x with
        status := .running
        out := x.out ++ .create (x.core.generatorBlock env x.core.epoch) ::
          broadcast (.spbProposal
            ⟨x.core.name, x.core.generatorBlock env x.core.epoch, x.core.epoch, 0, .one⟩) }
  /-- A panic ends the process. -/
  | crash {x : Hist} : Rule S env i x0 x { x with status := .crashed }

/-- A chain of rules. -/
abbrev Rules (S : Setup) (env : Env) (i : Input) (x0 : Hist) : Hist → Hist → Prop :=
  Relation.ReflTransGen (Rule S env i x0)

end SMVBA
