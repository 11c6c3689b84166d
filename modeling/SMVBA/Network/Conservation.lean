import SMVBA.Network.Recommits

/-!
# Payloads that get lost

A payload that a node has accepted is somewhere: in a queue, on its way to a node, in a block that
was proposed for an epoch that is still open, or in a decided block (`Kept`). A node puts a payload
into its queue when it stores it, and takes it out only for a block that it proposes, so that each
node has what it stored in its queue or in a block of its own (`PeerRun.queued_or_created`). But
when the last node halts an epoch, the blocks of the epoch that were not decided are forgotten, and
nothing puts their payloads back. Nor need another node have the payload: `HandleOthorBlock` drops
what it gets when the queue is full or the signature is wrong.

So a payload is kept in every run in which, whenever an epoch for which it was proposed is halted by
the last node, a block with the payload was decided for the epoch, or some node has stored the
payload and has not proposed it in vain (`payload_kept`).
-/

namespace SMVBA

open MessagePassing

variable {S : Setup} {M : MempoolSetup} {ok : Surroundings → Prop} {s s' : PeerNet} {d : Digest}

/-! ## Where a payload is -/

/-- The packet is an `OtherBlockMsg` with the payload. -/
def Packet.carries (S : Setup) (d : Digest) : Packet → Bool
  | .mempool (.otherBlock (some b)) => S.blockHash b = d
  | _ => false

/-- A node has the payload in its queue. -/
def Queued (S : Setup) (d : Digest) (nodes : NodeID → Peer) : Prop :=
  ∃ q ∈ S.committee.authorities, d ∈ (nodes q).replica.mempool.queue

/-- The payload is on its way to a node. -/
def InFlight (S : Setup) (d : Digest) (inbox : NodeID → Multiset Packet) : Prop :=
  ∃ q ∈ S.committee.authorities, ∃ m ∈ inbox q, m.carries S d = true

/-- A node has not halted the epoch. -/
def OpenEpoch (S : Setup) (nodes : NodeID → Peer) (e : ℤ) : Prop :=
  ∃ q ∈ S.committee.authorities, (nodes q).replica.hist.core.haltFlags e = false

/-- A created block that satisfies `P` lists the payload. -/
def Listed (S : Setup) (d : Digest) (nodes : NodeID → Peer) (P : ConsensusBlock → Prop) : Prop :=
  ∃ b, CreatedBy S nodes b ∧ d ∈ b.payLoads ∧ P b

/-- A node has decided by a halt with the block's hash. -/
def DecidedBlock (S : Setup) (nodes : NodeID → Peer) (b : ConsensusBlock) : Prop :=
  ∃ q ∈ S.committee.authorities, ∃ h ∈ (nodes q).replica.hist.decided, h.blockHash = S.hash b

/-- The payload is in a queue, on its way, in a block of an open epoch or in a decided block. -/
def Kept (S : Setup) (d : Digest) (s : PeerNet) : Prop :=
  Queued S d s.nodes ∨ InFlight S d s.inbox ∨
  Listed S d s.nodes (fun b => OpenEpoch S s.nodes b.epoch) ∨
    Listed S d s.nodes (DecidedBlock S s.nodes)

/-- A block with the payload was decided for the epoch. -/
def DecidedFor (S : Setup) (d : Digest) (e : ℤ) (nodes : NodeID → Peer) : Prop :=
  ∃ q ∈ S.committee.authorities, ∃ h ∈ (nodes q).replica.hist.decided, h.epoch = e ∧
    ∃ a ∈ S.committee.authorities, ∃ b ∈ (nodes a).replica.hist.created,
      d ∈ b.payLoads ∧ h.blockHash = S.hash b

/-- A node has stored the payload, and has not proposed it for an epoch that all nodes have halted.
-/
def Spare (S : Setup) (d : Digest) (nodes : NodeID → Peer) : Prop :=
  ∃ a ∈ S.committee.authorities,
    (∃ p ∈ (nodes a).replica.mempool.written, S.blockHash p = d) ∧
    ∀ b ∈ (nodes a).replica.hist.created, d ∈ b.payLoads → OpenEpoch S nodes b.epoch

/-- When the last node halts an epoch for which a block with the payload was proposed, a block with
the payload was decided for the epoch, or some node has a spare copy. -/
def Retains (S : Setup) (d : Digest) (nodes nodes' : NodeID → Peer) : Prop :=
  ∀ a ∈ S.committee.authorities, ∀ b ∈ (nodes a).replica.hist.created, d ∈ b.payLoads →
    OpenEpoch S nodes b.epoch → ¬ OpenEpoch S nodes' b.epoch →
      DecidedFor S d b.epoch nodes' ∨ Spare S d nodes'

instance (S : Setup) (nodes : NodeID → Peer) (e : ℤ) : Decidable (OpenEpoch S nodes e) :=
  inferInstanceAs (Decidable (∃ q ∈ S.committee.authorities, _))

instance (S : Setup) (d : Digest) (e : ℤ) (nodes : NodeID → Peer) :
    Decidable (DecidedFor S d e nodes) :=
  inferInstanceAs (Decidable (∃ q ∈ S.committee.authorities, ∃ h ∈ _, _ ∧
    ∃ a ∈ S.committee.authorities, ∃ b ∈ _, _))

instance (S : Setup) (d : Digest) (nodes : NodeID → Peer) : Decidable (Spare S d nodes) :=
  inferInstanceAs (Decidable (∃ a ∈ S.committee.authorities, (∃ p ∈ _, _) ∧ ∀ b ∈ _, _))

instance (S : Setup) (d : Digest) (nodes nodes' : NodeID → Peer) :
    Decidable (Retains S d nodes nodes') :=
  inferInstanceAs (Decidable (∀ a ∈ S.committee.authorities, ∀ b ∈ _, _))

/-! ## Halted epochs -/

section Replicas

variable {w : Surroundings} {r r' : Replica} {i : ReplicaInput} {outs : List Output}
  {sends : List MempoolSend}

theorem Replica.step_halts (h : r.step S M w i = some (r', outs, sends)) :
    (r'.hist.core.haltFlags = r.hist.core.haltFlags ∧ r'.hist.decided = r.hist.decided ∧
      r'.hist.core.epoch = r.hist.core.epoch) ∨
    ∃ ht, i = .consensus (.msg (.halt ht)) ∧
      r'.hist.core.haltFlags = Function.update r.hist.core.haltFlags ht.epoch true ∧
      r'.hist.decided = r.hist.decided ++ [ht] ∧
      r'.hist.core.epoch = max r.hist.core.epoch (succ64 ht.epoch) := by
  rcases Replica.step_hist h with ⟨j, y, rfl, hstep, hhist⟩ | ⟨-, -, hhist⟩
  · rw [hhist]
    rcases Hist.step_halts hstep with hsame | ⟨ht, rfl, -, hflags⟩
    · exact .inl hsame
    · exact .inr ⟨ht, rfl, hflags⟩
  · rw [hhist]
    exact .inl ⟨rfl, rfl, rfl⟩

/-- A block that a step creates is of an epoch that the node has not halted by then, if it has
halted only epochs before its own. -/
theorem Replica.step_create_open (h : r.step S M w i = some (r', outs, sends))
    (hlt : ∀ e, r'.hist.core.haltFlags e = true → e < r'.hist.core.epoch) {b : ConsensusBlock}
    (hb : .create b ∈ outs) : r'.hist.core.haltFlags b.epoch = false := by
  rcases Replica.step_hist h with ⟨j, y, -, hstep, hhist⟩ | ⟨rfl, -, -⟩
  · have hle : r'.hist.core.epoch ≤ b.epoch := by
      rw [hhist]
      exact ((Hist.step_created hstep).2 b hb).2.2
    by_contra hflag
    exact absurd (hlt b.epoch (by simpa using hflag)) (not_lt.mpr hle)
  · cases hb

/-! ## Queues and blocks -/

/-- A payload leaves the queue only for a new block. -/
theorem PayloadStep.queued (h : PayloadStep S M w r r' i outs sends)
    (hi : ∀ digests epoch, i ≠ .clean digests epoch) (hd : d ∈ r.mempool.queue) :
    d ∈ r'.mempool.queue ∨ ∃ b, .create b ∈ outs ∧ d ∈ b.payLoads := by
  cases h with
  | own b hq hs | other b hverify hq hs => exact .inl (hq ▸ Finset.mem_insert_of_mem hd)
  | idle i sends hs hsends => exact .inl (hs.queue ▸ hd)
  | clean digests epoch hq hw hdb => exact absurd rfl (hi digests epoch)
  | core i outs hnone hw => exact .inl (hw.queue ▸ hd)
  -- Only here does a digest leave the queue, and the new block lists it.
  | create i outs sends made payloads hmake hmade hsome hall hw =>
    rw [hw.queue]
    cases hmade with
    | new m' hempty hq hs =>
      rw [hempty] at hd
      cases hd
    | failed m' hs => exact .inl (hs.queue ▸ hd)
    | queued ds hds =>
      by_cases hmem : d ∈ payloads
      · obtain ⟨cb, hcb⟩ := hsome
        exact .inr ⟨cb, hcb, hall cb hcb ▸ hmem⟩
      · exact .inl (Finset.mem_sdiff.mpr ⟨hd, fun hin => hmem (List.mem_toFinset.mp hin)⟩)

/-- A payload that is stored goes into the queue, or into a new block. -/
theorem PayloadStep.stored (h : PayloadStep S M w r r' i outs sends)
    (hd : r'.mempool.HasWritten S d) : r.mempool.HasWritten S d ∨ d ∈ r'.mempool.queue ∨
      ∃ b, .create b ∈ outs ∧ d ∈ b.payLoads := by
  obtain ⟨b, hb, hhash⟩ := hd
  have hold : b ∈ r.mempool.written → r.mempool.HasWritten S d := fun hmem => ⟨b, hmem, hhash⟩
  cases h with
  | own b' hq hs | other b' hverify hq hs =>
    rw [hs.written] at hb
    rcases List.mem_append.mp hb with hb | hb
    · exact .inl (hold hb)
    · refine .inr (.inl ?_)
      rw [hq, ← hhash, List.mem_singleton.mp hb]
      exact Finset.mem_insert_self _ _
  | idle i sends hs hsends => exact .inl (hold (hs.written ▸ hb))
  | clean digests epoch hq hw hdb => exact .inl (hold (hw ▸ hb))
  | core i outs hnone hw => exact .inl (hold (hw.written ▸ hb))
  -- The mempool stores a payload of its own when the core asks for payloads and the queue is empty.
  -- Its digest goes straight into the new block.
  | create i outs sends made payloads hmake hmade hsome hall hw =>
    rw [hw.written] at hb
    cases hmade with
    | new m' hempty hq hs =>
      rw [hs.written] at hb
      rcases List.mem_append.mp hb with hb | hb
      · exact .inl (hold hb)
      · obtain ⟨cb, hcb⟩ := hsome
        refine .inr (.inr ⟨cb, hcb, ?_⟩)
        rw [hall cb hcb, ← hhash, List.mem_singleton.mp hb]
        exact List.mem_singleton.mpr rfl
    | failed m' hs => exact .inl (hold (hs.written ▸ hb))
    | queued ds hds => exact .inl (hold hb)

end Replicas

/-- No input of a peer is a `CleanBlockMsg`. -/
theorem Peer.replicaInput_ne_clean (p : Peer) (i : PeerInput) (digests : List Digest) (epoch : ℤ) :
    p.replicaInput S M i ≠ .clean digests epoch := by
  cases i <;> simp [Peer.replicaInput]

/-- What a node has stored is in its queue, or in a block that it has created. -/
theorem PeerRun.queued_or_created (hr : PeerRun S M ok s) (q : NodeID)
    (hd : (s.nodes q).replica.mempool.HasWritten S d) :
    d ∈ (s.nodes q).replica.mempool.queue ∨
      ∃ b ∈ (s.nodes q).replica.hist.created, d ∈ b.payLoads := by
  revert hd
  refine hr.local_invariant (I := fun _ p => p.replica.mempool.HasWritten S d →
    d ∈ p.replica.mempool.queue ∨ ∃ b ∈ p.replica.hist.created, d ∈ b.payLoads)
    (fun _ => by simp [replicas, Peer.init, Replica.init, Mempool.HasWritten]) ?_ q
  rintro q x m y out ⟨w, i, new, -, -, -, h, -⟩ hx hd
  obtain ⟨outs, sends, hrep, -⟩ := Peer.step_cases h
  have hstep := Replica.step_payloads hrep
  have hnew : (∃ b, .create b ∈ outs ∧ d ∈ b.payLoads) →
      ∃ b ∈ y.replica.hist.created, d ∈ b.payLoads := by
    rintro ⟨b, hb, hlisted⟩
    refine ⟨b, ?_, hlisted⟩
    rw [Replica.step_created hrep]
    exact List.mem_append_right _ (List.mem_filterMap.mpr ⟨_, hb, rfl⟩)
  rcases hstep.stored hd with hold | hqueue | hcreated
  · rcases hx hold with hqueue | ⟨b, hb, hlisted⟩
    · exact (hstep.queued (Peer.replicaInput_ne_clean x i) hqueue).imp_right hnew
    · refine .inr ⟨b, ?_, hlisted⟩
      rw [Replica.step_created hrep]
      exact List.mem_append_left _ hb
  · exact .inl hqueue
  · exact .inr (hnew hcreated)

/-! ## Open epochs -/

/-- Nodes have halted only epochs before their own. -/
theorem PeerRun.halted_lt (hr : PeerRun S M ok s) (q : NodeID) :
    ∀ e, (s.nodes q).replica.hist.core.haltFlags e = true →
    e < (s.nodes q).replica.hist.core.epoch := by
  refine hr.local_invariant (I := fun _ p => ∀ e, p.replica.hist.core.haltFlags e = true →
    e < p.replica.hist.core.epoch) (by simp [replicas, Peer.init, Replica.init, Hist.init]) ?_ q
  rintro q x m y out ⟨w, i, new, -, -, hover, h, -⟩ hx e he
  obtain ⟨outs, sends, hrep, -⟩ := Peer.step_cases h
  rcases Replica.step_halts hrep with ⟨hflags, -, hepoch⟩ | ⟨ht, hi, hflags, -, hepoch⟩
  · rw [hflags] at he
    rw [hepoch]
    exact hx e he
  · -- The epoch after the halted one does not wrap around.
    have hsucc : succ64 ht.epoch = ht.epoch + 1 := by
      rw [Peer.input_eq hi] at hover
      exact succ64_of_ne (hover.epoch ht rfl)
    rw [hepoch, hsucc]
    rw [hflags] at he
    by_cases hne : e = ht.epoch
    · omega
    · rw [Function.update_of_ne hne] at he
      exact (hx e he).trans_le (le_max_left _ _)

/-! ## One step -/

/-- What a step of the network is: one node takes a step, and the others stay as they are. -/
theorem exists_peerStep (h : (replicas S M ok).Step s s') : ∃ a ∈ S.committee.authorities,
    ∃ w i outs sends, (s.nodes a).replica.step S M w ((s.nodes a).replicaInput S M i) =
        some ((s'.nodes a).replica, outs, sends) ∧ ∀ q, q ≠ a → s'.nodes q = s.nodes q := by
  obtain ⟨a, ha, m, y, out, ⟨w, i, new, -, -, -, hstep, -⟩, -, hnodes⟩ := h.exists_local
  obtain ⟨outs, sends, hrep, -⟩ := Peer.step_cases hstep
  refine ⟨a, ha, w, i, outs, sends, ?_, fun q hq => ?_⟩
  · rw [hnodes, Function.update_self]
    exact hrep
  · rw [hnodes, Function.update_of_ne hq]

/-- A decision stays on record. -/
theorem DecidedBlock.step (h : (replicas S M ok).Step s s') {b : ConsensusBlock}
    (hb : DecidedBlock S s.nodes b) : DecidedBlock S s'.nodes b := by
  obtain ⟨q, hq, ht, hmem, hhash⟩ := hb
  refine ⟨q, hq, ht, ?_, hhash⟩
  refine preserves_of_replica h (I := fun r => ht ∈ r.hist.decided) (fun hrep hx => ?_) hmem
  rcases Replica.step_halts hrep with ⟨-, hdecided, -⟩ | ⟨ht', -, -, hdecided, -⟩
  · rwa [hdecided]
  · rw [hdecided]
    exact List.mem_append_left _ hx

theorem Listed.mono {nodes nodes' : NodeID → Peer} {P P' : ConsensusBlock → Prop}
    (hcreated : ∀ b, CreatedBy S nodes b → CreatedBy S nodes' b) (hP : ∀ b, P b → P' b)
    (hl : Listed S d nodes P) : Listed S d nodes' P' := by
  obtain ⟨b, hb, hd, hp⟩ := hl
  exact ⟨b, hcreated b hb, hd, hP b hp⟩

/-- A payload in a block that is created in a step is in a block of an open epoch. -/
theorem listed_of_create (hr : PeerRun S M ok s') {a : NodeID} (ha : a ∈ S.committee.authorities)
    {w : Surroundings} {r : Replica} {i : ReplicaInput} {outs : List Output}
    {sends : List MempoolSend}
    (h : r.step S M w i = some ((s'.nodes a).replica, outs, sends)) {b : ConsensusBlock}
    (hb : .create b ∈ outs) (hd : d ∈ b.payLoads) :
    Listed S d s'.nodes fun b => OpenEpoch S s'.nodes b.epoch := by
  refine ⟨b, ⟨a, ha, ?_⟩, hd, a, ha, Replica.step_create_open h (PeerRun.halted_lt hr a) hb⟩
  rw [Replica.step_created h]
  exact List.mem_append_right _ (List.mem_filterMap.mpr ⟨_, hb, rfl⟩)

/-- The payload is in a queue, in a block of an open epoch or in a decided block. -/
def Held (S : Setup) (d : Digest) (nodes : NodeID → Peer) : Prop :=
  Queued S d nodes ∨ Listed S d nodes (fun b => OpenEpoch S nodes b.epoch) ∨
    Listed S d nodes (DecidedBlock S nodes)

theorem Held.kept (h : Held S d s.nodes) : Kept S d s := by
  rcases h with hq | hl | hl
  · exact .inl hq
  · exact .inr (.inr (.inl hl))
  · exact .inr (.inr (.inr hl))

/-- A queued payload stays queued, or goes into a block of an open epoch. -/
theorem Queued.step (hr : PeerRun S M ok s) (h : (replicas S M ok).Step s s')
    (hq : Queued S d s.nodes) : Held S d s'.nodes := by
  obtain ⟨a, ha, w, i, outs, sends, hrep, hother⟩ := exists_peerStep h
  obtain ⟨q, hqmem, hd⟩ := hq
  by_cases hqa : q = a
  · subst hqa
    have hstep := Replica.step_payloads hrep
    rcases hstep.queued (Peer.replicaInput_ne_clean _ i) hd with hqueue | ⟨b, hb, hlisted⟩
    · exact .inl ⟨q, hqmem, hqueue⟩
    · exact .inr (.inl (listed_of_create (hr.step h) ha hrep hb hlisted))
  · rw [← hother q hqa] at hd
    exact .inl ⟨q, hqmem, hd⟩

/-- A spare copy is in a queue or in a block of an open epoch. -/
theorem Spare.held (hr : PeerRun S M ok s) (h : Spare S d s.nodes) : Held S d s.nodes := by
  obtain ⟨a, ha, hwritten, hopen⟩ := h
  rcases hr.queued_or_created a hwritten with hqueue | ⟨b, hb, hlisted⟩
  · exact .inl ⟨a, ha, hqueue⟩
  · exact .inr (.inl ⟨b, ⟨a, ha, hb⟩, hlisted, hopen b hb hlisted⟩)

/-- A step that retains a payload keeps hold of it. -/
theorem Held.step (hr : PeerRun S M ok s) (h : (replicas S M ok).Step s s')
    (hret : Retains S d s.nodes s'.nodes) (hk : Held S d s.nodes) : Held S d s'.nodes := by
  rcases hk with hq | ⟨b, ⟨a, ha, hb⟩, hlisted, hopen⟩ | hdecided
  · exact hq.step hr h
  · by_cases hstill : OpenEpoch S s'.nodes b.epoch
    · exact .inr (.inl ⟨b, CreatedBy.step h ⟨a, ha, hb⟩, hlisted, hstill⟩)
    · rcases hret a ha b hb hlisted hopen hstill with
        ⟨q, hq, ht, hmem, -, a', ha', b', hb', hlisted', hhash⟩ | hspare
      · exact .inr (.inr ⟨b', ⟨a', ha', hb'⟩, hlisted', q, hq, ht, hmem, hhash⟩)
      · exact hspare.held (hr.step h)
  · exact .inr (.inr (hdecided.mono (fun _ hb => hb.step h) fun _ hb => hb.step h))

/-- A payload that a step stores is in a queue or in a new block after it. -/
theorem held_of_stored (hr : PeerRun S M ok s) (h : (replicas S M ok).Step s s') {q : NodeID}
    (hq : q ∈ S.committee.authorities) (hd : (s'.nodes q).replica.mempool.HasWritten S d) :
    (s.nodes q).replica.mempool.HasWritten S d ∨ Held S d s'.nodes := by
  obtain ⟨a, ha, w, i, outs, sends, hrep, hother⟩ := exists_peerStep h
  by_cases hqa : q = a
  · subst hqa
    rcases (Replica.step_payloads hrep).stored hd with hold | hqueue | ⟨b, hb, hlisted⟩
    · exact .inl hold
    · exact .inr (.inl ⟨q, hq, hqueue⟩)
    · exact .inr (.inr (.inl (listed_of_create (hr.step h) ha hrep hb hlisted)))
  · rw [hother q hqa] at hd
    exact .inl hd

/-- In every run whose steps retain a payload, the payload is kept from the step on in which a node
has stored it: it is in a queue, on its way, in a block proposed for an open epoch, or in a decided
block. -/
theorem payload_kept {b : Block}
    (hr : (replicas S M ok).RunUnder
      (fun s s' => Retains S (S.blockHash b) s.nodes s'.nodes) s)
    {q : NodeID} (hb : b ∈ (s.nodes q).replica.mempool.written) : Kept S (S.blockHash b) s := by
  -- Whoever has stored something has taken a step.
  have hq : q ∈ S.committee.authorities := by
    by_contra hq
    rw [hr.reachable.nodes_of_notMem hq] at hb
    cases hb
  have hheld : (s.nodes q).replica.mempool.HasWritten S (S.blockHash b) →
      Held S (S.blockHash b) s.nodes := by
    clear hb
    induction hr with
    | start =>
      rintro ⟨b', hb', -⟩
      cases hb'
    | step hr h hret ih =>
      intro hd
      rcases held_of_stored hr.reachable h hq hd with hbefore | hheld
      · exact (ih hbefore).step hr.reachable h hret
      · exact hheld
  exact (hheld ⟨b, hb, rfl⟩).kept

/-! ## Runs to look at -/

/-- Three nodes take the payloads of each other, and then that of the fourth, which they drop if
their queues are full. The fourth proposes it. -/
def droppedPayload : List (NodeID × Surroundings × PeerInput) :=
  peerStart [0, 1, 3] ++ [(2, peerSurroundings 2 [], .batch (peerBatch 2))] ++
    ([0, 1, 3] : List NodeID).map (fun q =>
      (q, peerSurroundings q [], .mempool (.otherBlock (some (peerPayload 2))))) ++
    [(2, peerSurroundings 2 [peerDigest 2], .consensus .start)]

/-- The three nodes decide on the block of the second one, and all four halt the epoch. The fourth
goes on with a payload from a new batch, and the others with what is in their queues. -/
def decidedWithout (queued : NodeID → List NodeID) : List (NodeID × Surroundings × PeerInput) :=
  let qs : List NodeID := [0, 1, 3]
  let new : Surroundings := ⟨true, ⟨⟨9, [[1]]⟩, []⟩, 0⟩
  (peerSpb qs 0 ++ peerSpb qs 1 ++ peerSpb qs 3 ++ peerFinishes qs 0 ++ peerFinishes qs 1 ++
    peerDones [0, 1] 3 ++ peerDones qs 0 ++ peerShares qs 0 ++ qs.map fun q => (q, peerHalt)).map
      (corePeer queued) ++
    [(2, new, .consensus (.msg (.spbProposal ⟨1, peerBlock 1, 0, 0, .one⟩))),
      (2, new, .consensus peerHalt)]

/-- The payloads of the three nodes that each of them has got from the others. -/
def fromOthers (q : NodeID) : List NodeID := ([0, 1, 3] : List NodeID).filter (· ≠ q)

/-- With room in the queues the payload that the third node has proposed in vain is kept: the others
have it, and go on with other payloads first. -/
theorem payload_kept_spare : ∃ s : PeerNet,
    (replicas (demo 4 1) demoMempool PutSucceeds).RunUnder
      (fun s s' => Retains (demo 4 1) (peerDigest 2) s.nodes s'.nodes) s ∧
    (peerPayload 2).batch.txs ≠ [] ∧ peerPayload 2 ∈ (s.nodes 2).replica.mempool.written ∧
    peerDigest 2 ∉ (s.nodes 2).replica.mempool.queue ∧ ¬ OpenEpoch (demo 4 1) s.nodes 0 ∧
    Kept (demo 4 1) (peerDigest 2) s := by
  obtain ⟨s, hr, hs⟩ := exists_peerRun (demo 4 1) demoMempool
    (fun nodes nodes' => decide (Retains (demo 4 1) (peerDigest 2) nodes nodes')) [0, 1, 2, 3]
    (droppedPayload ++ decidedWithout fun q => fromOthers q ++ [2])
    (fun nodes => decide (peerPayload 2 ∈ (nodes 2).replica.mempool.written ∧
      peerDigest 2 ∉ (nodes 2).replica.mempool.queue ∧ ¬ OpenEpoch (demo 4 1) nodes 0))
    (by decide) (by decide +kernel)
  have hrun : (replicas (demo 4 1) demoMempool PutSucceeds).RunUnder
      (fun s s' => Retains (demo 4 1) (peerDigest 2) s.nodes s'.nodes) s :=
    hr.mono fun _ _ hok => of_decide_eq_true hok
  obtain ⟨hwritten, hqueue, hclosed⟩ := of_decide_eq_true hs
  exact ⟨s, hrun, by decide, hwritten, hqueue, hclosed, payload_kept hrun hwritten⟩

/-- What can be seen of the nodes when a payload is lost: it is in no queue, all messages with it
were taken, every block that lists it is of an epoch that all nodes have halted, and none of them
was decided. -/
structure Lost (S : Setup) (d : Digest) (nodes : NodeID → Peer) : Prop where
  queue : ∀ q ∈ S.committee.authorities, d ∉ (nodes q).replica.mempool.queue
  flight : ∀ q ∈ S.committee.authorities,
    ∑ a ∈ S.committee.authorities, ((nodes a).sentTo q).countP (Packet.carries S d) ≤
      (nodes q).received.countP (Packet.carries S d)
  blocks : ∀ a ∈ S.committee.authorities, ∀ b ∈ (nodes a).replica.hist.created, d ∈ b.payLoads →
    ∀ q ∈ S.committee.authorities, (nodes q).replica.hist.core.haltFlags b.epoch = true ∧
      ∀ h ∈ (nodes q).replica.hist.decided, h.blockHash ≠ S.hash b

instance (S : Setup) (d : Digest) (nodes : NodeID → Peer) : Decidable (Lost S d nodes) :=
  decidable_of_iff (_ ∧ _ ∧ _)
    ⟨fun h => ⟨h.1, h.2.1, h.2.2⟩, fun h => ⟨h.queue, h.flight, h.blocks⟩⟩

theorem Lost.not_kept (hr : PeerRun S M ok s) (h : Lost S d s.nodes) : ¬ Kept S d s := by
  rintro (⟨q, hq, hd⟩ | ⟨q, hq, m, hm, hc⟩ | ⟨b, ⟨a, ha, hb⟩, hd, q, hq, hflag⟩ |
    ⟨b, ⟨a, ha, hb⟩, hd, q, hq, ht, hmem, hhash⟩)
  · exact h.queue q hq hd
  · -- By the accounting of the run, a message that waits was sent more often than it was taken.
    have hsum := hr.conservation q (Packet.carries S d)
    have hpos : 0 < (s.inbox q).countP fun m => Packet.carries S d m = true :=
      Multiset.countP_pos_of_mem hm hc
    have hle := h.flight q hq
    change _ + (s.nodes q).received.countP (Packet.carries S d) =
      ∑ a ∈ S.committee.authorities, ((s.nodes a).sentTo q).countP (Packet.carries S d) at hsum
    omega
  · rw [(h.blocks a ha b hb hd q hq).1] at hflag
    cases hflag
  · exact (h.blocks a ha b hb hd q hq).2 ht hmem hhash

/-- A mempool with room for two payloads in the queue. -/
def smallMempool : MempoolSetup := { demoMempool with maxQueenSize := 2 }

/-- The payload that the third node has accepted is lost: the others have dropped it because their
queues were full, and the block with it was not decided. -/
theorem payload_lost : ∃ s : PeerNet, PeerRun (demo 4 1) smallMempool PutSucceeds s ∧
    AllSeparated (demo 4 1) s.nodes ∧ (peerPayload 2).batch.txs ≠ [] ∧
    peerPayload 2 ∈ (s.nodes 2).replica.mempool.written ∧
    ¬ Kept (demo 4 1) ((demo 4 1).blockHash (peerPayload 2)) s := by
  obtain ⟨s, hr, hs⟩ := exists_peerRun (demo 4 1) smallMempool (fun _ _ => true) [0, 1, 2, 3]
    (droppedPayload ++ decidedWithout fromOthers)
    (fun nodes => decide (AllSeparated (demo 4 1) nodes ∧
      peerPayload 2 ∈ (nodes 2).replica.mempool.written ∧ Lost (demo 4 1) (peerDigest 2) nodes))
    (by decide) (by decide +kernel)
  obtain ⟨hsep, hwritten, hlost⟩ := of_decide_eq_true hs
  exact ⟨s, hr.reachable, hsep, by decide, hwritten, hlost.not_kept hr.reachable⟩

end SMVBA
