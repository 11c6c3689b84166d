import SMVBA.Library.Replay
import SMVBA.Mempool.Availability
import SMVBA.Network.Halts

/-!
# The network of replicas

Whole nodes, with their mempools, exchange consensus messages and mempool messages. A `Peer` is a
replica with the packets that it took and what it let out, in order. It reacts to what its replica
reacts to, with two differences. `CleanBlockMsg` is not among its inputs, since nothing in the
source sends it. And the payloads that it makes itself come from its own transaction pool, through
`generateBlocks`, and not from the network.

`PeerRun.run` is the refinement: seen through the cores of the peers and the consensus messages, a
run of the peers is a run of the network of nodes, as long as the replicas stay separated.
-/

namespace SMVBA

open MessagePassing

/-- What goes over the network. -/
inductive Packet where
  | consensus (m : Message)
  | mempool (m : MempoolMsg)
deriving DecidableEq

/-- The consensus message in a packet. -/
def Packet.consensus? : Packet → Option Message
  | .consensus m => some m
  | .mempool _ => none

/-- What a peer lets out: outputs of the core, and messages of the mempool. -/
inductive PeerOutput where
  | core (o : Output)
  | mempool (m : MempoolSend)
deriving DecidableEq

/-- The packet that an output of `q` puts into the inbox of `d`. -/
def PeerOutput.sentTo (q d : NodeID) : PeerOutput → Option Packet
  | .core o => (o.sentTo q d).map .consensus
  | .mempool m =>
    if (if m.dst = NONE then d ≠ q else d = m.dst) then some (.mempool m.msg) else none

/-- A replica and its traffic. -/
structure Peer where
  replica : Replica
  received : List Packet := []
  out : List PeerOutput := []

/-- What a peer reacts to. -/
inductive PeerInput where
  /-- A step of the core. -/
  | consensus (i : Input)
  /-- A mempool message of the network. -/
  | mempool (m : MempoolMsg)
  /-- A batch of the transaction pool, which `generateBlocks` makes a payload of. -/
  | batch (b : Batch)
  /-- A step of the synchronizer. -/
  | sync (e : SyncEvent)
deriving DecidableEq

/-- The packet that an input takes from the network. -/
def PeerInput.packet? : PeerInput → Option Packet
  | .consensus i => i.msg?.map .consensus
  | .mempool m => some (.mempool m)
  | _ => none

theorem PeerInput.consensus_msg (i : Input) :
    (PeerInput.consensus i).packet?.bind Packet.consensus? = i.msg? := by
  cases i <;> rfl

/-- The step of the core overflows neither an epoch nor a round. -/
def PeerInput.NoOverflow : PeerInput → Prop
  | .consensus i => i.NoOverflow
  | _ => True

instance (i : PeerInput) : Decidable i.NoOverflow := by
  cases i <;> unfold PeerInput.NoOverflow <;> infer_instance

/-- `generateBlocks` passes over a batch that is marked as empty. -/
def PeerInput.valid : PeerInput → Bool
  | .batch b => b.id ≠ -1
  | _ => true

namespace Peer

variable (S : Setup) (M : MempoolSetup) (w : Surroundings) (p : Peer)

/-- A peer before it runs. -/
def init (name : NodeID) : Peer := { replica := .init name }

/-- What an input is to the replica. -/
def replicaInput : PeerInput → ReplicaInput
  | .consensus i => .consensus i
  | .mempool m => .mempool m
  | .batch b => .mempool (.ownBlock (some (newBlock S M p.replica.mempool.name b)))
  | .sync e => .sync e

/-- The packets that a peer let out for `d`. -/
def sentTo (d : NodeID) : List Packet :=
  p.out.filterMap (PeerOutput.sentTo p.replica.hist.core.name d)

/-- One step of a peer, with what it lets out. -/
def step (i : PeerInput) : Option (Peer × List PeerOutput) :=
  if i.valid = true then
    match p.replica.step S M w (p.replicaInput S M i) with
    | some (r, outs, sends) =>
      let new := outs.map PeerOutput.core ++ sends.map PeerOutput.mempool
      some (⟨r, p.received ++ i.packet?.toList, p.out ++ new⟩, new)
    | none => none
  else none

end Peer

variable {S : Setup} {M : MempoolSetup} {w : Surroundings} {p p' : Peer} {i : PeerInput}
  {new : List PeerOutput}

/-- What a step of a peer is made of. -/
theorem Peer.step_cases (h : p.step S M w i = some (p', new)) : ∃ outs sends,
    p.replica.step S M w (p.replicaInput S M i) = some (p'.replica, outs, sends) ∧
      new = outs.map PeerOutput.core ++ sends.map PeerOutput.mempool ∧
      p'.received = p.received ++ i.packet?.toList ∧ p'.out = p.out ++ new := by
  unfold Peer.step at h
  split_ifs at h
  split at h
  case h_1 r outs sends hstep =>
    cases h
    exact ⟨outs, sends, hstep, rfl, rfl, rfl⟩
  case h_2 => cases h

/-- The network of the peers of a committee, under a condition on what their surroundings choose. -/
def replicas (S : Setup) (M : MempoolSetup) (ok : Surroundings → Prop) :
    Protocol NodeID Packet Peer where
  ids := S.committee.authorities
  init := Peer.init
  step _ x m y out := ∃ w i new, i.packet? = m ∧ ok w ∧ i.NoOverflow ∧
    x.step S M w i = some (y, new) ∧
    out = fun d => new.filterMap (PeerOutput.sentTo x.replica.hist.core.name d)
  received := Peer.received
  sent _ x d := x.sentTo d
  received_init _ := rfl
  sent_init _ _ := rfl
  received_step := by
    rintro q x m y out ⟨w, i, new, rfl, -, -, h, -⟩
    obtain ⟨outs, sends, -, -, hreceived, -⟩ := Peer.step_cases h
    exact hreceived
  sent_step := by
    rintro q x m y out ⟨w, i, new, rfl, -, -, h, rfl⟩ d
    obtain ⟨outs, sends, hstep, -, -, hout⟩ := Peer.step_cases h
    unfold Peer.sentTo
    rw [Replica.step_name hstep, hout, List.filterMap_append]

/-- A state of the network of peers. -/
abbrev PeerNet := State NodeID Packet Peer

/-- The states that the network of peers reaches. -/
abbrev PeerRun (S : Setup) (M : MempoolSetup) (ok : Surroundings → Prop) (s : PeerNet) : Prop :=
  (replicas S M ok).Reachable s

/-- What the steps of a replica keep, a step of the network keeps of each peer. -/
theorem preserves_of_replica {ok : Surroundings → Prop} {s s' : PeerNet}
    (h : (replicas S M ok).Step s s') {I : Replica → Prop} {a : NodeID}
    (hI : ∀ {w : Surroundings} {i : ReplicaInput} {r r' : Replica} {outs : List Output}
      {sends : List MempoolSend}, r.step S M w i = some (r', outs, sends) → I r → I r')
    (ha : I (s.nodes a).replica) : I (s'.nodes a).replica := by
  refine h.preserves (I := fun p => I p.replica) ?_ ha
  rintro m y out ⟨w, i, new, -, -, -, hstep, -⟩ hx
  obtain ⟨outs, sends, hrep, -⟩ := Peer.step_cases hstep
  exact hI hrep hx

/-- What holds of a replica before it runs, and what its steps keep, holds of each peer of a run. -/
theorem PeerRun.replica_invariant {ok : Surroundings → Prop} {s : PeerNet} (hr : PeerRun S M ok s)
    {I : NodeID → Replica → Prop} (h0 : ∀ a, I a (.init a))
    (hI : ∀ {a : NodeID} {w : Surroundings} {i : ReplicaInput} {r r' : Replica} {outs : List Output}
      {sends : List MempoolSend}, ok w → r.step S M w i = some (r', outs, sends) → I a r → I a r')
    (q : NodeID) : I q (s.nodes q).replica := by
  refine hr.local_invariant (I := fun a p => I a p.replica) h0 ?_ q
  rintro a x m y out ⟨w, i, new, -, hok, -, h, -⟩ hx
  obtain ⟨outs, sends, hrep, -⟩ := Peer.step_cases h
  exact hI hok hrep hx

/-- `DB.Put` succeeds. -/
def PutSucceeds (w : Surroundings) : Prop := w.putOk = true

/-- Every replica is separated, the blocks that were taken anywhere and the payloads that were
written anywhere have different hashes, and no payload has the hash zero. -/
structure AllSeparated (S : Setup) (nodes : NodeID → Peer) : Prop where
  each : ∀ a ∈ S.committee.authorities, Separated S (nodes a).replica
  kinds : ∀ a ∈ S.committee.authorities, ∀ a' ∈ S.committee.authorities,
    ∀ b ∈ (nodes a).replica.hist.taken, ∀ p ∈ (nodes a').replica.mempool.written,
      S.hash b ≠ S.blockHash p
  nonzero : ∀ a ∈ S.committee.authorities, ∀ p ∈ (nodes a).replica.mempool.written,
    S.blockHash p ≠ 0

instance (S : Setup) (nodes : NodeID → Peer) : Decidable (AllSeparated S nodes) :=
  decidable_of_iff ((∀ a ∈ S.committee.authorities, Separated S (nodes a).replica) ∧
    (∀ a ∈ S.committee.authorities, ∀ a' ∈ S.committee.authorities,
      ∀ b ∈ (nodes a).replica.hist.taken, ∀ p ∈ (nodes a').replica.mempool.written,
        S.hash b ≠ S.blockHash p) ∧
    ∀ a ∈ S.committee.authorities, ∀ p ∈ (nodes a).replica.mempool.written, S.blockHash p ≠ 0)
    ⟨fun h => ⟨h.1, h.2.1, h.2.2⟩, fun h => ⟨h.each, h.kinds, h.nonzero⟩⟩

/-- The cores of the peers, and the consensus messages between them. -/
def PeerNet.net (s : PeerNet) : Net := s.project (fun p => p.replica.hist) Packet.consensus?

/-! ## The refinement -/

/-- What a replica has taken and written is there in another state of it. -/
structure Replica.Recorded (r r' : Replica) : Prop where
  taken : ∀ b ∈ r.hist.taken, b ∈ r'.hist.taken
  written : ∀ p ∈ r.mempool.written, p ∈ r'.mempool.written

theorem Separated.anti {r r' : Replica} (h : r.Recorded r') (hs : Separated S r') :
    Separated S r where
  blocks b hb b' hb' := hs.blocks b (h.taken b hb) b' (h.taken b' hb')
  kinds b hb p hp := hs.kinds b (h.taken b hb) p (h.written p hp)

theorem AllSeparated.anti {nodes nodes' : NodeID → Peer}
    (hn : ∀ a, (nodes a).replica.Recorded (nodes' a).replica) (h : AllSeparated S nodes') :
    AllSeparated S nodes where
  each a ha := (h.each a ha).anti (hn a)
  kinds a ha a' ha' b hb p hp :=
    h.kinds a ha a' ha' b ((hn a).taken b hb) p ((hn a').written p hp)
  nonzero a ha p hp := h.nonzero a ha p ((hn a).written p hp)

theorem AllSeparated.of_step {nodes : NodeID → Peer} {q : NodeID} (hput : w.putOk = true)
    (h : (nodes q).step S M w i = some (p', new))
    (hs : AllSeparated S (Function.update nodes q p')) : AllSeparated S nodes := by
  refine hs.anti fun a => ?_
  by_cases ha : a = q
  · subst ha
    rw [Function.update_self]
    obtain ⟨outs, sends, hstep, -⟩ := Peer.step_cases h
    have hcases := Replica.step_cases hput hstep
    exact ⟨hcases.taken, hcases.written⟩
  · rw [Function.update_of_ne ha]
    exact ⟨fun _ => id, fun _ => id⟩

/-- What holds of the peers of a run, as it does of replicas on their own. -/
theorem PeerRun.replicaFacts {s : PeerNet} (hr : PeerRun S M PutSucceeds s) (q : NodeID)
    (hs : Separated S (s.nodes q).replica) : ReplicaFacts S q (s.nodes q).replica := by
  have hrun : ReplicaRun S M q (s.nodes q).replica :=
    hr.replica_invariant (I := ReplicaRun S M) (fun _ => .init) (fun hput h hx => .step hx hput h) q
  exact hrun.facts hs

/-- The consensus messages among what a peer lets out. -/
theorem filterMap_consensus (q d : NodeID) (outs : List Output) (sends : List MempoolSend) :
    ((outs.map PeerOutput.core ++ sends.map PeerOutput.mempool).filterMap
      (PeerOutput.sentTo q d)).filterMap Packet.consensus? =
        outs.filterMap (Output.sentTo q d) := by
  have hcore : (outs.map PeerOutput.core).filterMap
      (fun o => (PeerOutput.sentTo q d o).bind Packet.consensus?) =
      outs.filterMap (Output.sentTo q d) := by
    rw [List.filterMap_map]
    refine List.filterMap_congr fun o _ => ?_
    dsimp only [Function.comp, PeerOutput.sentTo]
    cases o.sentTo q d <;> rfl
  have hmempool : (sends.map PeerOutput.mempool).filterMap
      (fun o => (PeerOutput.sentTo q d o).bind Packet.consensus?) = [] := by
    rw [List.filterMap_eq_nil_iff]
    intro o ho
    obtain ⟨m, -, rfl⟩ := List.mem_map.mp ho
    dsimp only [PeerOutput.sentTo]
    split_ifs <;> rfl
  rw [List.filterMap_filterMap, List.filterMap_append, hcore, hmempool, List.append_nil]

section Seen

variable {ok : Cond} {nodes : NodeID → Peer} {q : NodeID}

/-- No mempool block of a separated peer is under a digest of the run. -/
theorem AllSeparated.held_eq_none (hs : AllSeparated S nodes) (hq : q ∈ S.committee.authorities)
    (hp : PayloadFacts S (nodes q).replica) {d : Digest}
    (hd : Names S (fun a => (nodes a).replica.hist) d) (payloads : List Digest) :
    ((nodes q).replica.env w payloads).held d = none := by
  refine hp.held_eq_none (fun p hwritten => ?_) w payloads
  rcases hd with rfl | ⟨a, ha, b, htook, rfl⟩
  · exact hs.nonzero q hq p hwritten
  · exact (hs.kinds a ha q hq b (Hist.mem_taken.mpr htook) p hwritten).symm

/-- So no look-up of its core finds one. -/
theorem AllSeparated.keysApart (hs : AllSeparated S nodes) (hq : q ∈ S.committee.authorities)
    (hfacts : ReplicaFacts S q (nodes q).replica) {k : Input}
    (hnames : k.loopBack? = none → ∀ d ∈ (nodes q).replica.hist.lookups k,
      Names S (fun a => (nodes a).replica.hist) d)
    (ht : (nodes q).replica.takes k = true) (payloads : List Digest) :
    KeysApart (nodes q).replica.hist ((nodes q).replica.env w payloads) k := by
  intro d hd
  cases k with
  | loopBack d' =>
    rw [List.mem_singleton.mp hd]
    exact (hfacts.loopBack (hs.each q hq) ht w payloads).1
  | _ => exact hs.held_eq_none hq hfacts.payloads (hnames rfl d hd) payloads

/-- The network of the cores sees a step of a peer as a step of its core, or not at all. -/
theorem Peer.step_seen (nodes : NodeID → Peer) (hq : q ∈ S.committee.authorities)
    (hfacts : ReplicaFacts S q (nodes q).replica)
    (hnames : ∀ k, i = .consensus k → k.loopBack? = none →
      ∀ d ∈ (nodes q).replica.hist.lookups k, Names S (fun a => (nodes a).replica.hist) d)
    (hput : w.putOk = true) (hover : i.NoOverflow)
    (hok : ∀ k payloads, i = .consensus k →
      ok (nodes q).replica.hist ((nodes q).replica.env w payloads) k)
    (h : (nodes q).step S M w i = some (p', new))
    (hs : AllSeparated S (Function.update nodes q p')) :
    (consensus S ok).Seen (fun p => p.replica.hist) Packet.consensus? q (nodes q) i.packet? p'
      fun d => new.filterMap (PeerOutput.sentTo (nodes q).replica.hist.core.name d) := by
  obtain ⟨outs, sends, hstep, rfl, -, -⟩ := Peer.step_cases h
  have hafter : Separated S p'.replica := by
    have := hs.each q hq
    rwa [Function.update_self] at this
  have hsim := (Replica.step_cases hput hstep).simulated hput hfacts.core.provenance hafter
  generalize hj : (nodes q).replicaInput S M i = j at hsim
  cases hsim with
  | core k outs made payloads ht hmade hcore hmem =>
    -- The input is one of the core.
    obtain rfl : i = .consensus k := by
      cases i <;> simp_all [Peer.replicaInput]
    have hkeys := (hs.of_step hput h).keysApart (w := w) hq hfacts (hnames k rfl) ht payloads
    refine .step ⟨(nodes q).replica.env w payloads, k, outs, (PeerInput.consensus_msg k).symm,
      ⟨hover, hkeys⟩, hok k payloads rfl, hcore, ?_⟩
    funext d
    exact filterMap_consensus _ d outs sends
  | stay k hk hmem hhist =>
    have hpacket : i.packet?.bind Packet.consensus? = none := by
      cases i with
      | consensus k => exact absurd hj.symm (hk k)
      | _ => rfl
    exact .stay hpacket hhist fun d => filterMap_consensus _ d [] sends

end Seen

/-- A run of separated peers is a run of their cores. -/
theorem PeerRun.run {s : PeerNet} (hr : PeerRun S M PutSucceeds s) (hs : AllSeparated S s.nodes) :
    Run S Always s.net := by
  refine hr.project (B := AllSeparated S) rfl (fun _ => rfl) ?_ ?_ hs
  · rintro s q m y out - ⟨w, i, new, -, hput, -, h, -⟩ hs
    exact hs.of_step hput h
  · rintro s q m y out hr hrun hq hm ⟨w, i, new, rfl, hput, hover, h, rfl⟩ hs
    have hbefore : Separated S (s.nodes q).replica := (hs.of_step hput h).each q hq
    refine Peer.step_seen s.nodes hq (PeerRun.replicaFacts hr q hbefore) ?_ hput hover
      (fun _ _ _ => trivial) h hs
    rintro k rfl hk
    rw [PeerInput.consensus_msg] at hm
    exact Run.names_lookups hrun hm hk

/-! ## Runs to look at -/

/-- The steps of peers whose writes succeed, computed. -/
def peerExec (S : Setup) (M : MempoolSetup) :
    Exec NodeID Packet Peer (Surroundings × PeerInput) where
  msg? i := i.2.packet?
  step q x i :=
    if q ∈ S.committee.authorities ∧ i.1.putOk = true ∧ i.2.NoOverflow then
      (x.step S M i.1 i.2).map fun (y, new) =>
        (y, fun d => new.filterMap (PeerOutput.sentTo x.replica.hist.core.name d))
    else none

/-- What holds at the end of a replayed schedule holds at the end of a run. -/
theorem exists_peerRun (S : Setup) (M : MempoolSetup)
    (ok : (NodeID → Peer) → (NodeID → Peer) → Bool) (ids : List NodeID)
    (schedule : List (NodeID × Surroundings × PeerInput)) (B : (NodeID → Peer) → Bool)
    (hids : ids.Nodup)
    (h : (((peerExec S M).run ok ids ⟨Peer.init, []⟩ schedule).any fun r => B r.nodes) = true) :
    ∃ s, (replicas S M PutSucceeds).RunUnder (fun s s' => ok s.nodes s'.nodes = true) s ∧
      B s.nodes = true := by
  refine Exec.exists_run (E := peerExec S M)
    (P := replicas S M PutSucceeds) ?_ ok ids schedule B hids h
  intro q x i y out hstep
  dsimp only [peerExec] at hstep
  split_ifs at hstep with hcond
  obtain ⟨⟨y', new⟩, hx, heq⟩ := Option.map_eq_some_iff.mp hstep
  cases heq
  exact ⟨hcond.1, i.1, i.2, new, rfl, hcond.2.1, hcond.2.2, hx, rfl⟩

/-- A batch of one transaction for a node. -/
def peerBatch (q : NodeID) : Batch := ⟨q, [[1]]⟩

/-- The payload that a node of the demonstration makes of its batch. -/
def peerPayload (q : NodeID) : Block := ⟨q, peerBatch q, []⟩

/-- Surroundings in which writes succeed, with an order of the queue. -/
def peerSurroundings (q : NodeID) (order : List Digest) : Surroundings :=
  ⟨true, ⟨peerBatch q, order⟩, 0⟩

/-- The digest of a node's payload. -/
def peerDigest (q : NodeID) : Digest := (demo 4 1).blockHash (peerPayload q)

/-- The first block of a node of the demonstration. -/
def peerBlock (q : NodeID) : ConsensusBlock := ⟨q, [peerDigest q], 0⟩

/-- An input of a core of the demonstration, with the payloads of the others in its queue. -/
def corePeer (others : NodeID → List NodeID) (a : NodeID × Input) :
    NodeID × Surroundings × PeerInput :=
  (a.1, peerSurroundings a.1 ((others a.1).map peerDigest), .consensus a.2)

/-- The nodes start, each with a payload of its own, and take the payloads of the others. -/
def peerStart (qs : List NodeID) : List (NodeID × Surroundings × PeerInput) :=
  qs.map (fun q => (q, peerSurroundings q [], .consensus .start)) ++
    qs.flatMap fun q => (qs.filter (· ≠ q)).map fun p =>
      (q, peerSurroundings q [], .mempool (.otherBlock (some (peerPayload p))))

/-- The instance of the first block of `p`, in which all of `qs` vote twice. -/
def peerSpb (qs : List NodeID) (p : NodeID) : List (NodeID × Input) :=
  let hash := (demo 4 1).hash (peerBlock p)
  let one : SPBProposal := ⟨p, peerBlock p, 0, 0, .one⟩
  let two : SPBProposal := ⟨p, ⟨p, [], -1⟩, 0, 0, .two⟩
  let vote (q : NodeID) (h : Digest) (ph : Phase) : List (NodeID × Input) :=
    [(p, .msg (.spbVote ⟨q, p, h, 0, 0, ph⟩)), (p, .task (.processVote ⟨q, p, h, 0, 0, ph⟩))]
  qs.flatMap (fun q => [(q, .msg (.spbProposal one)), (q, .task (.processProposal one))]) ++
    qs.flatMap (fun q => vote q hash .one) ++
    qs.flatMap (fun q => [(q, .msg (.spbProposal two)), (q, .task (.processProposal two))]) ++
    qs.flatMap fun q => vote q 0 .two

/-- A node takes the `Finish` messages of `qs`. -/
def peerFinishes (qs : List NodeID) (q : NodeID) : List (NodeID × Input) :=
  qs.map fun p => (q, .msg (.finish ⟨p, (demo 4 1).hash (peerBlock p), 0, 0⟩))

/-- A node takes the `Done` messages of `qs`. -/
def peerDones (qs : List NodeID) (q : NodeID) : List (NodeID × Input) :=
  qs.map fun p => (q, .msg (.done ⟨p, 0, 0⟩))

/-- A node takes the shares of `qs`. -/
def peerShares (qs : List NodeID) (q : NodeID) : List (NodeID × Input) :=
  qs.map fun p => (q, .msg (.electShare ⟨p, 0, 0, []⟩))

/-- Three nodes of four finish their instances, and the first of them learns the coin and halts. -/
def peerRound : List (NodeID × Surroundings × PeerInput) :=
  let qs : List NodeID := [0, 1, 2]
  peerStart qs ++ (peerSpb qs 0 ++ peerSpb qs 1 ++ peerSpb qs 2 ++ peerFinishes qs 0 ++
    peerFinishes qs 1 ++ peerDones [0, 1] 2 ++ peerDones qs 0 ++ peerShares qs 0).map
      (corePeer fun q => qs.filter (· ≠ q))

end SMVBA
