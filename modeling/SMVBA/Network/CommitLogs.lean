import SMVBA.Benchmark.Consistency
import SMVBA.Mempool.Origins
import SMVBA.Network.CommitOrder
import SMVBA.Network.Recommits

/-!
# The logs of the committed payloads

`Committor.run` is the last link of the chain: a goroutine that takes the blocks from `commitCh`,
reads the payloads of each one from the store and writes a line for each payload to the log. It runs
beside the core and the mempool, so it may read a payload long after the block was committed, and
its log may end in the middle of a block. A `Member` is a peer with this goroutine.

`logOf` is the log of a sequence of blocks, under what the store holds. Every payload of a committed
block has been written, and no write changes what its digest stands for, so the goroutine writes the
log of the commits, without an error and as far as it has come (`commit_log_complete`). As the
committed sequences are prefixes of one another, the logs are, and `consistency.py` accepts them at
any time (`logs_accepted`).
-/

namespace SMVBA

open MessagePassing Consistency

variable {S : Setup} {M : MempoolSetup}

/-! ## The goroutine -/

/-- What `Mempool.GetBlock` returns for a digest. -/
abbrev GetBlock := Digest → Except MempoolErr (Option Block)

/-- The line for a payload, if there is one. A payload without transactions has none: its `Txs` are
nil after decoding. -/
def payloadLines (get : GetBlock) (payload : Digest) : List LogLine :=
  match get payload with
  | .ok (some smallblock) =>
    if smallblock.batch.txs ≠ [] then [.commitBlock smallblock.proposer smallblock.batch.id] else []
  | _ => []

/-- The line for a consensus block. -/
def blockLine (block : ConsensusBlock) : LogLine := .commitConsensusBlock block.epoch block.proposer

/-- The lines of a block. -/
def blockLines (get : GetBlock) (block : ConsensusBlock) : List LogLine :=
  block.payLoads.flatMap (payloadLines get) ++ [blockLine block]

/-- The log of a sequence of blocks. -/
def logOf (get : GetBlock) (blocks : List ConsensusBlock) : List LogLine :=
  blocks.flatMap (blockLines get)

/-- The goroutine of `Committor.run`. -/
structure Reader where
  /-- The number of blocks that it is done with. -/
  done : ℕ := 0
  /-- The block that it is at, with the payloads that it has not read yet. -/
  current : Option (ConsensusBlock × List Digest) := none
  /-- What it has written to the info log. -/
  lines : List LogLine := []
  /-- The number of lines `get key error` in the error log. -/
  errors : ℕ := 0
  /-- It has dereferenced a nil block, which ends the process. -/
  crashed : Bool := false

/-- One step of the goroutine: it takes the next block from `commitCh`, or reads the next payload,
or ends the loop over the payloads. -/
def Reader.step (commits : List ConsensusBlock) (get : GetBlock) (x : Reader) : Option Reader :=
  match x.current with
  | none => commits[x.done]?.map fun block => { x with current := some (block, block.payLoads) }
  | some (block, []) =>
    some { x with done := x.done + 1, current := none, lines := x.lines ++ [blockLine block] }
  | some (block, payload :: rest) =>
    match get payload with
    | .error _ => some { x with current := some (block, rest), errors := x.errors + 1 }
    | .ok none => some { x with crashed := true }
    | .ok (some _) =>
      some { x with current := some (block, rest), lines := x.lines ++ payloadLines get payload }

/-! ## The network -/

/-- A peer with the goroutine. -/
structure Member where
  peer : Peer
  reader : Reader := {}

/-- What `GetBlock` of a member returns. -/
def Member.get (S : Setup) (x : Member) : GetBlock := x.peer.replica.mempool.getBlock S

/-- The blocks that the core of a member has sent on `commitCh`. -/
def Member.commits (x : Member) : List ConsensusBlock := x.peer.replica.hist.commits

/-- The network of the members of a committee. Writes succeed, and the steps of the cores are under
a condition, whatever payloads the mempool would hand out. The goroutine is alone in its steps. -/
def members (S : Setup) (M : MempoolSetup) (ok : Cond) : Protocol NodeID Packet Member where
  ids := S.committee.authorities
  init q := { peer := .init q }
  step _ x m y out := x.reader.crashed = false ∧
    ((∃ w i new, i.packet? = m ∧ w.putOk = true ∧ i.NoOverflow ∧
      (∀ k payloads, i = .consensus k →
        ok x.peer.replica.hist (x.peer.replica.env w payloads) k) ∧
      x.peer.step S M w i = some (y.peer, new) ∧ y.reader = x.reader ∧
      out = fun d => new.filterMap (PeerOutput.sentTo x.peer.replica.hist.core.name d)) ∨
    (m = none ∧ x.peer.replica.crashed = false ∧ x.peer.replica.hist.status ≠ .crashed ∧
      x.reader.step x.commits (x.get S) = some y.reader ∧ y.peer = x.peer ∧ out = fun _ => []))
  received x := x.peer.received
  sent _ x d := x.peer.sentTo d
  received_init _ := rfl
  sent_init _ _ := rfl
  received_step := by
    rintro q x m y out ⟨-, ⟨w, i, new, rfl, -, -, -, h, -, -⟩ | ⟨rfl, -, -, -, hpeer, -⟩⟩
    · obtain ⟨outs, sends, -, -, hreceived, -⟩ := Peer.step_cases h
      exact hreceived
    · rw [hpeer]
      exact (List.append_nil _).symm
  sent_step := by
    rintro q x m y out ⟨-, ⟨w, i, new, rfl, -, -, -, h, -, rfl⟩ | ⟨rfl, -, -, -, hpeer, rfl⟩⟩ d
    · obtain ⟨outs, sends, hstep, -, -, hout⟩ := Peer.step_cases h
      unfold Peer.sentTo
      rw [Replica.step_name hstep, hout, List.filterMap_append]
    · rw [hpeer]
      exact (List.append_nil _).symm

/-- The input of the core that an input of a peer is. -/
def PeerInput.core? : PeerInput → Option Input
  | .consensus i => some i
  | _ => none

/-- A state of the network of members. -/
abbrev MemberNet := State NodeID Packet Member

/-- The states that it reaches. -/
abbrev MemberRun (S : Setup) (M : MempoolSetup) (ok : Cond) (s : MemberNet) : Prop :=
  (members S M ok).Reachable s

/-- The peers of the members. -/
def MemberNet.peers (s : MemberNet) : PeerNet := s.project Member.peer some

/-- The cores of the members, and the consensus messages between them. -/
def MemberNet.net (s : MemberNet) : Net :=
  s.project (fun x => x.peer.replica.hist) Packet.consensus?

variable {ok : Cond} {s s' : MemberNet}

/-- The goroutines are nothing to the network of peers. -/
theorem MemberRun.peerRun (hr : MemberRun S M ok s) : PeerRun S M PutSucceeds s.peers := by
  refine hr.project (B := fun _ => True) rfl (fun _ => rfl) (fun _ _ _ => trivial) ?_ trivial
  rintro s q m y out - - - - ⟨-, ⟨w, i, new, rfl, hput, hover, -, h, -, rfl⟩ |
    ⟨rfl, -, -, -, hpeer, rfl⟩⟩ -
  · refine .step ⟨w, i, new, ?_, hput, hover, h, ?_⟩
    · cases i.packet? <;> rfl
    · funext d
      simp
  · exact .stay rfl hpeer fun _ => rfl

/-- Each digest stands for one thing in all databases: a consensus block that was taken is no
payload, and two payloads that were written are the same if their hashes are. -/
structure Unambiguous (S : Setup) (nodes : NodeID → Peer) : Prop where
  separated : AllSeparated S nodes
  payloads : ∀ a ∈ S.committee.authorities, ∀ a' ∈ S.committee.authorities,
    ∀ p ∈ (nodes a).replica.mempool.written, ∀ p' ∈ (nodes a').replica.mempool.written,
      S.blockHash p = S.blockHash p' → p = p'

instance (S : Setup) (nodes : NodeID → Peer) : Decidable (Unambiguous S nodes) :=
  decidable_of_iff (AllSeparated S nodes ∧ ∀ a ∈ S.committee.authorities,
    ∀ a' ∈ S.committee.authorities, ∀ p ∈ (nodes a).replica.mempool.written,
      ∀ p' ∈ (nodes a').replica.mempool.written, S.blockHash p = S.blockHash p' → p = p')
    ⟨fun h => ⟨h.1, h.2⟩, fun h => ⟨h.separated, h.payloads⟩⟩

theorem Unambiguous.anti {nodes nodes' : NodeID → Peer}
    (hn : ∀ a, (nodes a).replica.Recorded (nodes' a).replica) (h : Unambiguous S nodes') :
    Unambiguous S nodes where
  separated := h.separated.anti hn
  payloads a ha a' ha' p hp p' hp' :=
    h.payloads a ha a' ha' p ((hn a).written p hp) p' ((hn a').written p' hp')

/-- A step keeps the records of all members. -/
theorem Replica.Recorded.of_step {nodes : NodeID → Member} {q : NodeID} {m : Option Packet}
    {y : Member} {out : NodeID → List Packet} (h : (members S M ok).step q (nodes q) m y out)
    (a : NodeID) :
    (nodes a).peer.replica.Recorded (Function.update nodes q y a).peer.replica := by
  by_cases ha : a = q
  · subst ha
    rw [Function.update_self]
    rcases h with ⟨-, ⟨w, i, new, -, hput, -, -, hstep, -⟩ | ⟨-, -, -, -, hpeer, -⟩⟩
    · obtain ⟨outs, sends, hrep, -⟩ := Peer.step_cases hstep
      have hcases := Replica.step_cases hput hrep
      exact ⟨hcases.taken, hcases.written⟩
    · rw [hpeer]
      exact ⟨fun _ => id, fun _ => id⟩
  · rw [Function.update_of_ne ha]
    exact ⟨fun _ => id, fun _ => id⟩

/-- The members of an unambiguous run do what the nodes of the consensus do. -/
theorem MemberRun.run (hr : MemberRun S M ok s) (hs : Unambiguous S s.peers.nodes) :
    Run S ok s.net := by
  refine hr.project (B := fun nodes => Unambiguous S fun a => (nodes a).peer) rfl (fun _ => rfl)
    (fun _ h hs => hs.anti (Replica.Recorded.of_step h)) ?_ hs
  rintro s q m y out hr hrun hq hm h hs
  have hbefore := (hs.anti (Replica.Recorded.of_step h)).separated.each q hq
  rcases h with ⟨-, ⟨w, i, new, rfl, hput, hover, hok, hstep, -, rfl⟩ |
    ⟨rfl, -, -, -, hpeer, rfl⟩⟩
  · have hfacts := (MemberRun.peerRun hr).replicaFacts q hbefore
    have hsep : AllSeparated S (Function.update (fun a => (s.nodes a).peer) q y.peer) := by
      have hupdate := (Function.comp_update Member.peer s.nodes q y).symm
      exact hupdate ▸ hs.separated
    have hnames : ∀ k, i = .consensus k → k.loopBack? = none →
        ∀ d ∈ (s.nodes q).peer.replica.hist.lookups k,
          Names S (fun a => (s.nodes a).peer.replica.hist) d := by
      rintro k rfl hk
      rw [PeerInput.consensus_msg] at hm
      exact Run.names_lookups hrun hm hk
    cases Peer.step_seen (fun a => (s.nodes a).peer) hq hfacts hnames hput hover hok
      hstep hsep with
    | step h => exact .step h
    | stay hm hx hout => exact .stay hm hx hout
  · exact .stay rfl (congrArg (fun p => p.replica.hist) hpeer) fun _ => rfl

/-! ## What the goroutine reads -/

/-- Every payload of a block that a member has committed is in its store, as a payload that it has
written. -/
theorem MemberRun.payload_found (hr : MemberRun S M ok s) (hs : Unambiguous S s.peers.nodes)
    {q : NodeID} (hq : q ∈ S.committee.authorities) {b : ConsensusBlock}
    (hb : b ∈ (s.nodes q).commits) {d : Digest} (hd : d ∈ b.payLoads) :
    ∃ p ∈ (s.nodes q).peer.replica.mempool.written, S.blockHash p = d ∧
      (s.nodes q).get S d = .ok (some p) := by
  have hpeers := MemberRun.peerRun hr
  have hfacts := hpeers.replicaFacts q (hs.separated.each q hq)
  have hpayloads : ∀ a, PayloadFacts S (s.nodes a).peer.replica := fun a =>
    hpeers.replica_invariant (I := fun _ r => PayloadFacts S r) (PayloadFacts.init S)
      (fun _ hrep hx => hx.step hrep) a
  have hholds : (s.nodes q).peer.replica.mempool.store.Holds d := hfacts.committed.sent b hb d hd
  -- The digest is one of a payload that the creator of the block has written.
  obtain ⟨a, ha, hcreated⟩ := (hpeers.sourced q).committed.sent b hb (List.ne_nil_of_mem hd)
  obtain ⟨p₀, hp₀, hhash₀⟩ := (hpayloads a).created b hcreated d hd
  cases hentry : (s.nodes q).peer.replica.mempool.store.db d with
  | none => simp [Store.Holds, hentry] at hholds
  | some e =>
    cases e with
    | block p =>
      obtain ⟨hp, hhash⟩ := (hpayloads q).entry d p hentry
      refine ⟨p, hp, hhash, ?_⟩
      unfold Member.get Mempool.getBlock Store.read
      rw [hentry]
      rfl
    | consensusBlock cb =>
      -- So what the store has under it is no consensus block.
      have hstore : (s.nodes q).peer.replica.hist.core.store d = some cb := by
        rw [(s.nodes q).peer.replica.store_eq, consensusBlocks, hentry]
      obtain ⟨hhash, htook⟩ := hfacts.core.provenance.store d cb hstore
      exact absurd (hhash.trans hhash₀.symm)
        (hs.separated.kinds q hq a ha cb (Hist.mem_taken.mpr htook) p₀ hp₀)

/-- The digest of a payload stands for the same payload wherever it is read. -/
theorem Unambiguous.get_eq {nodes : NodeID → Peer} (hs : Unambiguous S nodes) {a a' : NodeID}
    (ha : a ∈ S.committee.authorities) (ha' : a' ∈ S.committee.authorities) {get get' : GetBlock}
    {d : Digest}
    (h : ∃ p ∈ (nodes a).replica.mempool.written, S.blockHash p = d ∧ get d = .ok (some p))
    (h' : ∃ p ∈ (nodes a').replica.mempool.written, S.blockHash p = d ∧ get' d = .ok (some p)) :
    get d = get' d := by
  obtain ⟨p, hp, hd, hget⟩ := h
  obtain ⟨p', hp', hd', hget'⟩ := h'
  rw [hget, hget', hs.payloads a ha a' ha' p hp p' hp' (hd.trans hd'.symm)]

/-! ## The log -/

theorem flatMap_payloadLines_congr {get get' : GetBlock} {payloads : List Digest}
    (h : ∀ d ∈ payloads, get d = get' d) :
    payloads.flatMap (payloadLines get) = payloads.flatMap (payloadLines get') := by
  refine List.flatMap_congr fun d hd => ?_
  unfold payloadLines
  rw [h d hd]

/-- A log depends on the store only through the payloads of its blocks. -/
theorem logOf_congr {get get' : GetBlock} {blocks : List ConsensusBlock}
    (h : ∀ b ∈ blocks, ∀ d ∈ b.payLoads, get d = get' d) :
    logOf get blocks = logOf get' blocks := by
  refine List.flatMap_congr fun b hb => ?_
  unfold blockLines
  rw [flatMap_payloadLines_congr (h b hb)]

/-- Where the goroutine is: it has written the log of the blocks that it is done with, and the lines
of the payloads that it has read of the next block. -/
structure ReaderFacts (get : GetBlock) (commits : List ConsensusBlock) (x : Reader) : Prop where
  crashed : x.crashed = false
  errors : x.errors = 0
  idle : x.current = none → x.done ≤ commits.length ∧ x.lines = logOf get (commits.take x.done)
  busy : ∀ block rest, x.current = some (block, rest) → commits[x.done]? = some block ∧
    ∃ read, block.payLoads = read ++ rest ∧
      x.lines = logOf get (commits.take x.done) ++ read.flatMap (payloadLines get)

theorem ReaderFacts.init (get : GetBlock) (commits : List ConsensusBlock) :
    ReaderFacts get commits {} where
  crashed := rfl
  errors := rfl
  idle _ := ⟨Nat.zero_le _, rfl⟩
  busy := by simp

section Reader

variable {get get' : GetBlock} {commits commits' : List ConsensusBlock} {x y : Reader}

/-- More commits and more payloads do not matter to it. -/
theorem ReaderFacts.mono (hc : commits <+: commits')
    (hget : ∀ b ∈ commits, ∀ d ∈ b.payLoads, get d = get' d) (h : ReaderFacts get commits x) :
    ReaderFacts get' commits' x := by
  have hlog : x.done ≤ commits.length →
      logOf get (commits.take x.done) = logOf get' (commits'.take x.done) := by
    intro hle
    obtain ⟨rest, rfl⟩ := hc
    rw [List.take_append_of_le_length hle]
    exact logOf_congr fun b hb => hget b (List.mem_of_mem_take hb)
  refine ⟨h.crashed, h.errors, fun hnone => ?_, fun block rest hsome => ?_⟩
  · obtain ⟨hle, hlines⟩ := h.idle hnone
    exact ⟨hle.trans hc.length_le, hlines.trans (hlog hle)⟩
  · obtain ⟨hblock, read, hread, hlines⟩ := h.busy block rest hsome
    have hlt : x.done < commits.length := (List.getElem?_eq_some_iff.mp hblock).1
    have hpayloads : ∀ d ∈ read, get d = get' d := fun d hd =>
      hget block (List.mem_of_getElem? hblock) d (hread ▸ List.mem_append_left rest hd)
    refine ⟨?_, read, hread, ?_⟩
    · obtain ⟨more, rfl⟩ := hc
      rw [List.getElem?_append_left hlt, hblock]
    · rw [hlines, hlog hlt.le, flatMap_payloadLines_congr hpayloads]

/-- The log of one more block. -/
theorem logOf_take_succ {j : ℕ} {block : ConsensusBlock} (h : commits[j]? = some block) :
    logOf get (commits.take (j + 1)) = logOf get (commits.take j) ++ blockLines get block := by
  rw [List.take_add_one, h]
  simp [logOf]

/-- One step of the goroutine, if it finds the payloads. -/
theorem ReaderFacts.step (hfound : ∀ b ∈ commits, ∀ d ∈ b.payLoads, ∃ p, get d = .ok (some p))
    (h : ReaderFacts get commits x) (hstep : x.step commits get = some y) :
    ReaderFacts get commits y := by
  unfold Reader.step at hstep
  split at hstep
  case h_1 hnone =>
    -- It takes a block.
    obtain ⟨block, hblock, rfl⟩ := Option.map_eq_some_iff.mp hstep
    refine ⟨h.crashed, h.errors, by simp, fun block' rest hsome => ?_⟩
    cases hsome
    exact ⟨hblock, [], rfl, by simpa using (h.idle hnone).2⟩
  case h_2 block hsome =>
    -- It is done with the block.
    cases hstep
    obtain ⟨hblock, read, hread, hlines⟩ := h.busy block [] hsome
    have hlt : x.done < commits.length := (List.getElem?_eq_some_iff.mp hblock).1
    refine ⟨h.crashed, h.errors, fun _ => ⟨hlt, ?_⟩, by simp⟩
    rw [List.append_nil] at hread
    show x.lines ++ [blockLine block] = logOf get (commits.take (x.done + 1))
    rw [logOf_take_succ hblock, hlines, blockLines, hread, List.append_assoc]
  case h_3 block payload rest hsome =>
    -- It reads a payload, and finds it.
    obtain ⟨hblock, read, hread, hlines⟩ := h.busy block _ hsome
    have hmem : payload ∈ block.payLoads := by simp [hread]
    obtain ⟨p, hp⟩ := hfound block (List.mem_of_getElem? hblock) payload hmem
    rw [hp] at hstep
    cases hstep
    refine ⟨h.crashed, h.errors, by simp, fun block' rest' hsome' => ?_⟩
    cases hsome'
    refine ⟨hblock, read ++ [payload], by simp [hread], ?_⟩
    show x.lines ++ payloadLines get payload = _
    rw [hlines, List.append_assoc, List.flatMap_append, List.flatMap_singleton]

/-- What the facts say of the log as a whole. -/
theorem ReaderFacts.lines_between (h : ReaderFacts get commits x) :
    logOf get (commits.take x.done) <+: x.lines ∧
      x.lines <+: logOf get (commits.take (x.done + 1)) := by
  cases hcurrent : x.current with
  | none =>
    obtain ⟨-, hlines⟩ := h.idle hcurrent
    rw [hlines]
    exact ⟨List.prefix_rfl, Logs.prefix_flatMap _ (List.take_prefix_take_left (Nat.le_succ _))⟩
  | some at_ =>
    obtain ⟨block, rest⟩ := at_
    obtain ⟨hblock, read, hread, hlines⟩ := h.busy block rest hcurrent
    rw [hlines, logOf_take_succ hblock]
    refine ⟨List.prefix_append _ _, ?_⟩
    rw [List.prefix_append_right_inj, blockLines, hread, List.flatMap_append, List.append_assoc]
    exact List.prefix_append _ _

end Reader

/-! ## Runs -/

/-- The commits of a replica only grow. -/
theorem Replica.step_commits {w : Surroundings} {r r' : Replica} {i : ReplicaInput}
    {outs : List Output} {sends : List MempoolSend}
    (h : r.step S M w i = some (r', outs, sends)) : r.hist.commits <+: r'.hist.commits := by
  rcases Replica.step_hist h with ⟨j, y, -, hstep, hhist⟩ | ⟨-, -, hhist⟩
  · rw [hhist]
    show _ <+: y.out.filterMap Output.committed?
    rw [Hist.step_out hstep, List.filterMap_append]
    exact List.prefix_append _ _
  · rw [hhist]
    exact List.prefix_rfl

/-- In a run in which digests are unambiguous, the goroutine of every member is where its facts say.
-/
theorem MemberRun.readerFacts (hr : MemberRun S M ok s) (hs : Unambiguous S s.peers.nodes)
    {q : NodeID} (hq : q ∈ S.committee.authorities) :
    ReaderFacts ((s.nodes q).get S) (s.nodes q).commits (s.nodes q).reader := by
  induction hr with
  | start => exact .init _ _
  | @step s s' hr h ih =>
    have hr' := hr.step h
    obtain ⟨a, -, m, y, out, hstep, -, hn⟩ := h.exists_local
    have hrecorded : ∀ a, (s.nodes a).peer.replica.Recorded (s'.nodes a).peer.replica := by
      rw [hn]
      exact Replica.Recorded.of_step hstep
    have hs₀ : Unambiguous S (MemberNet.peers s).nodes := hs.anti hrecorded
    have hx := ih hs₀
    have hfound := fun b hb d hd => MemberRun.payload_found hr hs₀ hq (b := b) hb (d := d) hd
    by_cases ha : q = a
    · subst ha
      have hy : s'.nodes q = y := by rw [hn, Function.update_self]
      rcases hstep with ⟨-, ⟨w, i, new, -, -, -, -, hpeer, hreader, -⟩ | ⟨-, -, -, hread, hpeer, -⟩⟩
      · -- The core has committed more, and there are more payloads.
        obtain ⟨outs, sends, hrep, -⟩ := Peer.step_cases hpeer
        have hcommits : (s.nodes q).commits <+: (s'.nodes q).commits := by
          rw [hy]
          exact Replica.step_commits hrep
        rw [hy, hreader, ← hy]
        refine hx.mono hcommits fun b hb d hd => ?_
        obtain ⟨p, hp, hhash, hget⟩ := hfound b hb d hd
        exact hs.get_eq hq hq ⟨p, (hrecorded q).written p hp, hhash, hget⟩
          (MemberRun.payload_found hr' hs hq (hcommits.subset hb) hd)
      · have hsame : (s'.nodes q).peer = (s.nodes q).peer := hy ▸ hpeer
        unfold Member.get Member.commits
        rw [hsame, hy]
        refine hx.step (fun b hb d hd => ?_) hread
        obtain ⟨p, -, -, hget⟩ := hfound b hb d hd
        exact ⟨p, hget⟩
    · have hsame : s'.nodes q = s.nodes q := by rw [hn, Function.update_of_ne ha]
      rw [hsame]
      exact hx

/-! ## A run to look at -/

/-- The steps of members, computed: an input of the peer, or a step of the goroutine. -/
def memberExec (S : Setup) (M : MempoolSetup) (coin : View → NodeID) :
    Exec NodeID Packet Member (Option (Surroundings × PeerInput)) where
  msg? i := i.bind fun i => i.2.packet?
  step q x i :=
    if q ∈ S.committee.authorities ∧ x.reader.crashed = false then
      match i with
      | some (w, i) =>
        if w.putOk = true ∧ i.NoOverflow ∧ ∀ k ∈ i.core?,
            Agreeable S coin x.peer.replica.hist (x.peer.replica.env w []) k then
          (x.peer.step S M w i).map fun r => (⟨r.1, x.reader⟩,
            fun d => r.2.filterMap (PeerOutput.sentTo x.peer.replica.hist.core.name d))
        else none
      | none =>
        if x.peer.replica.crashed = false ∧ x.peer.replica.hist.status ≠ .crashed then
          (x.reader.step x.commits (x.get S)).map fun r => (⟨x.peer, r⟩, fun _ => [])
        else none
    else none

theorem exists_memberRun (S : Setup) (M : MempoolSetup) (coin : View → NodeID) (ids : List NodeID)
    (schedule : List (NodeID × Option (Surroundings × PeerInput))) (B : (NodeID → Member) → Bool)
    (hids : ids.Nodup)
    (h : (((memberExec S M coin).run (fun _ _ => true) ids ⟨fun q => { peer := .init q }, []⟩
      schedule).any fun r => B r.nodes) = true) :
    ∃ s, MemberRun S M (Agreeable S coin) s ∧ B s.nodes = true := by
  have hrun := Exec.exists_run (E := memberExec S M coin) (P := members S M (Agreeable S coin)) ?_
    (fun _ _ => true) ids schedule B hids h
  · obtain ⟨s, hr, hB⟩ := hrun
    exact ⟨s, hr.reachable, hB⟩
  intro q x i y out hstep
  cases i with
  | some i =>
    dsimp only [memberExec] at hstep
    split_ifs at hstep with hq hcond
    obtain ⟨⟨p, new⟩, hx, heq⟩ := Option.map_eq_some_iff.mp hstep
    cases heq
    refine ⟨hq.1, hq.2, .inl ⟨i.1, i.2, new, rfl, hcond.1, hcond.2.1, ?_, hx, rfl, rfl⟩⟩
    intro k payloads hk
    exact hcond.2.2 k (by rw [hk]; rfl)
  | none =>
    dsimp only [memberExec] at hstep
    split_ifs at hstep with hq hcond
    obtain ⟨r, hx, heq⟩ := Option.map_eq_some_iff.mp hstep
    cases heq
    exact ⟨hq.1, hq.2, .inr ⟨rfl, hcond.1, hcond.2, hx, rfl, rfl⟩⟩

/-- The first epoch of the demonstration, in which two nodes halt. The goroutine of the first node
then logs the block, and that of the second node its payload. -/
def loggedEpoch : List (NodeID × Option (Surroundings × PeerInput)) :=
  (firstEpoch 2 ++ [corePeer (fun _ => [0, 2]) (1, peerHalt)]).map (fun a => (a.1, some a.2)) ++
    [(0, none), (0, none), (0, none), (1, none), (1, none)]

/-- It is a run under the conditions of agreement. -/
theorem exists_loggedEpoch : ∃ s : MemberNet,
    MemberRun (demo 4 1) demoMempool (Agreeable (demo 4 1) fun _ => 1) s ∧
    Unambiguous (demo 4 1) s.peers.nodes ∧ Collisionless (demo 4 1) s.net.nodes ∧
    (s.nodes 0).reader.done = 1 ∧ (s.nodes 0).commits = [peerBlock 1] ∧
    (s.nodes 0).reader.lines = [.commitBlock 1 1, .commitConsensusBlock 0 1] ∧
    (s.nodes 1).reader.lines = [.commitBlock 1 1] := by
  obtain ⟨s, hr, hs⟩ := exists_memberRun (demo 4 1) demoMempool (fun _ => 1) [0, 1, 2, 3]
    loggedEpoch (fun nodes => decide (Unambiguous (demo 4 1) (fun a => (nodes a).peer) ∧
      Collisionless (demo 4 1) (fun a => (nodes a).peer.replica.hist) ∧
      (nodes 0).reader.done = 1 ∧ (nodes 0).commits = [peerBlock 1] ∧
      (nodes 0).reader.lines = [.commitBlock 1 1, .commitConsensusBlock 0 1] ∧
      (nodes 1).reader.lines = [.commitBlock 1 1])) (by decide) (by decide +kernel)
  exact ⟨s, hr, of_decide_eq_true hs⟩

/-! ## The logs of the members -/

/-- The log of a member is complete. In every run in which digests are unambiguous, `Committor.run`
fails to find no payload. Its log is the log of the blocks that it is done with, whatever the store
holds by now, and the beginning of that of the next one. -/
theorem commit_log_complete (hr : MemberRun S M ok s) (hs : Unambiguous S s.peers.nodes)
    {q : NodeID} (hq : q ∈ S.committee.authorities) :
    (s.nodes q).reader.crashed = false ∧ (s.nodes q).reader.errors = 0 ∧
      logOf ((s.nodes q).get S) ((s.nodes q).commits.take (s.nodes q).reader.done) <+:
        (s.nodes q).reader.lines ∧
      (s.nodes q).reader.lines <+:
        logOf ((s.nodes q).get S) ((s.nodes q).commits.take ((s.nodes q).reader.done + 1)) := by
  have hx := MemberRun.readerFacts hr hs hq
  exact ⟨hx.crashed, hx.errors, hx.lines_between⟩

/-- The first node of the demonstration has logged the one block that it has committed. -/
theorem commit_log_complete_first : ∃ s : MemberNet,
    MemberRun (demo 4 1) demoMempool (Agreeable (demo 4 1) fun _ => 1) s ∧
    (s.nodes 0).reader.errors = 0 ∧
    logOf ((s.nodes 0).get (demo 4 1)) [peerBlock 1] = (s.nodes 0).reader.lines ∧
    (s.nodes 0).reader.lines = [.commitBlock 1 1, .commitConsensusBlock 0 1] := by
  obtain ⟨s, hr, hs, -, hdone, hcommits, hlines, -⟩ := exists_loggedEpoch
  obtain ⟨-, herrors, hbefore, hafter⟩ := commit_log_complete hr hs (q := 0) (by decide)
  rw [hdone, hcommits] at hbefore hafter
  exact ⟨s, hr, herrors, hbefore.eq_of_length_le hafter.length_le, hlines⟩

/-- Two members log the same for blocks that both have committed. -/
theorem MemberRun.logOf_eq (hr : MemberRun S M ok s) (hs : Unambiguous S s.peers.nodes)
    {q q' : NodeID} (hq : q ∈ S.committee.authorities) (hq' : q' ∈ S.committee.authorities)
    {blocks : List ConsensusBlock} (h : ∀ b ∈ blocks, b ∈ (s.nodes q).commits)
    (h' : ∀ b ∈ blocks, b ∈ (s.nodes q').commits) :
    logOf ((s.nodes q).get S) blocks = logOf ((s.nodes q').get S) blocks :=
  logOf_congr fun b hb _ hd => hs.get_eq hq hq' (MemberRun.payload_found hr hs hq (h b hb) hd)
    (MemberRun.payload_found hr hs hq' (h' b hb) hd)

/-- The lines of two members, the first of which has committed a part of what the second has. -/
theorem MemberRun.lines_comparable (hr : MemberRun S M ok s) (hs : Unambiguous S s.peers.nodes)
    {q q' : NodeID} (hq : q ∈ S.committee.authorities) (hq' : q' ∈ S.committee.authorities)
    (h : (s.nodes q).commits <+: (s.nodes q').commits) :
    (s.nodes q).reader.lines <+: (s.nodes q').reader.lines ∨
      (s.nodes q').reader.lines <+: (s.nodes q).reader.lines := by
  -- Both are prefixes of the log of the longer sequence.
  have hlines : ∀ {a : NodeID}, a ∈ S.committee.authorities →
      (s.nodes a).reader.lines <+: logOf ((s.nodes a).get S) (s.nodes a).commits := fun ha =>
    (MemberRun.readerFacts hr hs ha).lines_between.2.trans
      (Logs.prefix_flatMap _ (List.take_prefix _ _))
  have hlog := MemberRun.logOf_eq hr hs hq hq' (fun _ => id) fun _ hb => h.subset hb
  have hshort : (s.nodes q).reader.lines <+:
      logOf ((s.nodes q').get S) (s.nodes q').commits :=
    (hlog ▸ hlines hq).trans (Logs.prefix_flatMap _ h)
  exact List.prefix_or_prefix_of_prefix hshort (hlines hq')

variable {coin : View → NodeID}

/-- Total order in the logs. Under the conditions of agreement, whatever the goroutines have come
to, `consistency.py` accepts the log files of any members. -/
theorem logs_accepted (D : Digits) {f : ℕ} (hf : S.committee.size = 3 * f + 1)
    (ha : S.absent = .other) (hcoin : FixedCoin S coin)
    (hr : MemberRun S M (Agreeable S coin) s) (hs : Unambiguous S s.peers.nodes)
    (hc : Collisionless S s.net.nodes) {logFiles : List NodeID} (hne : logFiles ≠ [])
    (hmem : ∀ q ∈ logFiles, q ∈ S.committee.authorities)
    {read : NodeID → List Text}
    (hread : ∀ q ∈ logFiles, WrittenTo D (s.nodes q).reader.lines (read q)) :
    compareDigestSequences D read logFiles = some true := by
  refine (compareDigestSequences_iff D read logFiles).mpr ⟨hne, fun q hq q' hq' => ?_⟩
  have hrun := MemberRun.run hr hs
  have hcommits : (s.nodes q).commits <+: (s.nodes q').commits ∨
      (s.nodes q').commits <+: (s.nodes q).commits :=
    Logs.prefix_total_of_agree fun _ _ _ hb hb' => hrun.commit_eq hf ha hcoin hc hb hb'
  have hlines : (s.nodes q).reader.lines <+: (s.nodes q').reader.lines ∨
      (s.nodes q').reader.lines <+: (s.nodes q).reader.lines := by
    rcases hcommits with h | h
    · exact MemberRun.lines_comparable hr hs (hmem q hq) (hmem q' hq') h
    · exact (MemberRun.lines_comparable hr hs (hmem q' hq') (hmem q hq) h).symm
  rw [uniqueDigests_writtenTo (hread q hq), uniqueDigests_writtenTo (hread q' hq')]
  exact hlines.imp committed_prefix committed_prefix

/-- The logs of three nodes of the demonstration, which have logged a block, a payload and nothing.
-/
theorem logs_accepted_first : ∃ s : MemberNet,
    MemberRun (demo 4 1) demoMempool (Agreeable (demo 4 1) fun _ => 1) s ∧
    (s.nodes 0).reader.lines = [.commitBlock 1 1, .commitConsensusBlock 0 1] ∧
    (s.nodes 1).reader.lines = [.commitBlock 1 1] ∧
    compareDigestSequences arabicDigits
      (fun q => (s.nodes q).reader.lines.map (LogLine.text [])) [0, 1, 2] = some true := by
  obtain ⟨s, hr, hs, hc, -, -, hlines, hlines'⟩ := exists_loggedEpoch
  have hsize : (demo 4 1).committee.size = 3 * 1 + 1 := rfl
  exact ⟨s, hr, hlines, hlines', logs_accepted arabicDigits hsize rfl (demo_fixedCoin 4 1) hr hs hc
    (by decide) (by decide) fun _ _ => writtenTo_map_text _ List.not_mem_nil⟩

end SMVBA
