import SMVBA.Mempool.Requests
import SMVBA.Wire.Crashes

/-!
# Who has signed what the mempool keeps

`HandleOthorBlock` checks the signature of the block that it gets. `HandleOwnBlock` was written for
the node's own producer and checks nothing, but its messages share the channel, the codec and the
module of those from the network. So a peer that sends an `OwnBlockMsg` puts a block of its choice
into the store and the queue of a node, and has the node send it to everyone in the name of another.

All blocks that a mempool keeps verify as long as this does not happen. What it sends is another
matter: `HandleRequestBlock` reads any key of the database as a payload, and under the hash of a
consensus block finds a block without a signature, which goes to everyone if the request comes from
node `-1`.

`payloads_verified_iff` says of every frame what it does: a node in which every payload is signed
takes a frame, stays so and sends nothing unsigned exactly when the frame is not an `OwnBlockMsg`
with a wrong signature that finds room in the queue and in the database, and not a request that
reaches the key of a consensus block.
-/

namespace SMVBA

variable {S : Setup} {M : MempoolSetup}

/-- Every block among the messages to some destinations verifies. -/
def SendsVerified (S : Setup) (M : MempoolSetup) (dsts : NodeID → Prop)
    (sends : List MempoolSend) : Prop :=
  ∀ s ∈ sends, dsts s.dst → ∀ b, s.msg = .otherBlock (some b) → b.verify S M = true

namespace Mempool

/-- Every payload that was written verifies, and nothing else is in the store or in the queue. -/
structure Verified (S : Setup) (M : MempoolSetup) (m : Mempool) : Prop where
  written : ∀ b ∈ m.written, b.verify S M = true
  stored : ∀ d b, m.store.db d = some (.block b) → b ∈ m.written
  queued : ∀ d ∈ m.queue, ∃ b ∈ m.written, S.blockHash b = d

namespace Verified

variable {m m' : Mempool} {putOk : Bool} {dsts : NodeID → Prop}

theorem init (S : Setup) (M : MempoolSetup) (name : NodeID) : Verified S M { name := name } where
  written := by simp
  stored := by simp
  queued := by simp

/-- Fewer payloads stay verified. -/
theorem of_subset (hm : m.Verified S M) (hq : m'.queue ⊆ m.queue) (hw : m'.written = m.written)
    (hdb : ∀ d b, m'.store.db d = some (.block b) → m.store.db d = some (.block b)) :
    m'.Verified S M where
  written := by
    rw [hw]
    exact hm.written
  stored d b hb := by
    rw [hw]
    exact hm.stored d b (hdb d b hb)
  queued d hd := by
    rw [hw]
    exact hm.queued d (hq hd)

theorem of_same (hm : m.Verified S M) (h : m.SamePayloads m') : m'.Verified S M :=
  hm.of_subset h.queue.subset h.written fun _ _ hb => h.db ▸ hb

/-- One more block that verifies may be stored, and be queued. -/
theorem of_stored {b : Block} (hm : m.Verified S M) (h : m.Stored S b m') (hb : b.verify S M = true)
    (hq : m'.queue ⊆ insert (S.blockHash b) m.queue) : m'.Verified S M where
  written b' hb' := by
    rw [h.written] at hb'
    rcases List.mem_append.mp hb' with hold | hnew
    · exact hm.written b' hold
    · rw [List.mem_singleton.mp hnew]
      exact hb
  stored d b' hb' := by
    rw [h.db] at hb'
    rw [h.written]
    by_cases hd : d = S.blockHash b
    · subst hd
      rw [Function.update_self] at hb'
      cases hb'
      exact List.mem_concat_self
    · rw [Function.update_of_ne hd] at hb'
      exact List.mem_append_left _ (hm.stored d b' hb')
  queued d hd := by
    rw [h.written]
    rcases Finset.mem_insert.mp (hq hd) with rfl | hold
    · exact ⟨b, List.mem_concat_self, rfl⟩
    · obtain ⟨b', hb', hhash⟩ := hm.queued d hold
      exact ⟨b', List.mem_append_left _ hb', hhash⟩

/-- What is served from the store verifies, except for what is read under the keys of consensus
blocks. -/
theorem sends_iff (hm : m.Verified S M) (author : NodeID) (digests : List Digest) :
    SendsVerified S M dsts (m.serve S author digests).1 ↔
      (dsts author → ∀ d ∈ answered S m digests, ∀ cb, m.store.db d = some (.consensusBlock cb) →
        (Entry.consensusBlock cb).asPayload.verify S M = true) := by
  rw [serve_out]
  constructor
  · intro h hdst d hd cb hdb
    refine h _ (List.mem_map_of_mem hd) hdst _ ?_
    rw [hdb]
    rfl
  · intro h s hs hdst b hb
    obtain ⟨d, hd, rfl⟩ := List.mem_map.mp hs
    have hentry : (m.store.db d).map Entry.asPayload = some b := by simpa using hb
    obtain ⟨e, he, rfl⟩ := Option.map_eq_some_iff.mp hentry
    cases e with
    | block b => exact hm.written b (hm.stored d b he)
    | consensusBlock cb => exact h hdst d hd cb he

/-- A handler keeps the mempool verified and sends what verifies, if the block of an `OwnBlockMsg`
that it accepts verifies. For requests, `sends_iff` says what is sent. -/
theorem handle (dsts : NodeID → Prop) {msg : MempoolMsg} (hm : m.Verified S M)
    (hown : ∀ b, msg = .ownBlock (some b) → putOk = true → m.full M = false → b.verify S M = true) :
    (m.handle S M putOk msg).mempool.Verified S M ∧
      ((∀ digests author, msg ≠ .requestBlock digests author) →
        SendsVerified S M dsts (m.handle S M putOk msg).out) := by
  have hnone : SendsVerified S M dsts [] := by simp [SendsVerified]
  cases msg with
  | ownBlock block =>
    cases block with
    | none =>
      unfold Mempool.handle handleOwnBlock
      dsimp only
      split_ifs
      · exact ⟨hm, fun _ => hnone⟩
      · exact ⟨hm, fun _ => hnone⟩
    | some b =>
      dsimp only [Mempool.handle]
      rcases m.handleOwnBlock_cases S M putOk b with ⟨hroom, hput, -, hout, hq, hs⟩ | ⟨-, hout, hs⟩
      · have hb := hown b rfl hput hroom
        refine ⟨hm.of_stored hs hb hq.subset, fun _ => ?_⟩
        rw [hout]
        intro s hmem _ b' hb'
        obtain rfl := List.mem_singleton.mp hmem
        cases hb'
        exact hb
      · rw [hout]
        exact ⟨hm.of_same hs, fun _ => hnone⟩
  -- A block of another node is verified before it is stored.
  | otherBlock block =>
    cases block with
    | none => exact ⟨hm, fun _ => hnone⟩
    | some b =>
      dsimp only [Mempool.handle]
      rcases m.handleOthorBlock_cases S M putOk b with
        ⟨-, hverify, -, -, -, hout, hq, hs⟩ | ⟨-, hout, hs⟩
      · rw [hout]
        exact ⟨hm.of_stored hs hverify hq.subset, fun _ => hnone⟩
      · rw [hout]
        exact ⟨hm.of_same hs, fun _ => hnone⟩
  | requestBlock digests author => exact ⟨hm, fun hno => absurd rfl (hno digests author)⟩

/-- An `OwnBlockMsg` that is accepted leaves the mempool verified only if its block verifies. -/
theorem of_handleOwnBlock {b : Block} (hput : putOk = true) (hroom : m.full M = false)
    (hm : (m.handle S M putOk (.ownBlock (some b))).mempool.Verified S M) :
    b.verify S M = true := by
  rcases m.handleOwnBlock_cases S M putOk b with ⟨-, -, -, -, -, hs⟩ | ⟨hno, -⟩
  · refine hm.written b ?_
    dsimp only [Mempool.handle]
    rw [hs.written]
    exact List.mem_concat_self
  · exact absurd ⟨hroom, hput⟩ hno

/-- The steps of a node that take no message from the channel of the mempool store only what the
node has signed itself. -/
theorem step (hsig : M.SignsVerify) {w : Surroundings} {r r' : Replica} {i : ReplicaInput}
    {outs : List Output} {sends : List MempoolSend} (hm : r.mempool.Verified S M)
    (h : r.step S M w i = some (r', outs, sends)) (hi : ∀ msg, i ≠ .mempool msg) :
    r'.mempool.Verified S M := by
  cases Replica.step_payloads h with
  | own b hq hs | other b hverify hq hs => exact absurd rfl (hi _)
  | idle i sends hs hsends => exact hm.of_same hs
  | clean digests epoch hq hw hdb =>
    exact hm.of_subset (hq ▸ Finset.sdiff_subset) hw fun d b hb => hdb ▸ hb
  | core i outs hnone hw => exact hm.of_subset hw.queue.subset hw.written fun d b => hw.block
  | create i outs sends made payloads hmake hmade hsome hall hw =>
    -- The core's own write comes after what the mempool has done.
    have hmadeVerified : made.Verified S M := by
      cases hmade with
      | new m' hempty hqueue hs =>
        refine hm.of_stored hs (newBlock_verify hsig _ _) ?_
        rw [hqueue]
        exact Finset.empty_subset _
      | failed m' hs => exact hm.of_same hs
      | queued ds hds => exact hm.of_subset Finset.sdiff_subset rfl fun d b => id
    exact hmadeVerified.of_subset hw.queue.subset hw.written fun d b => hw.block

end Verified

end Mempool

namespace Wire

variable {K : Keys} {decode : MempoolType → List UInt8 → Option MempoolMessage}

/-- The states of a node whose mempool takes frames from the network, under a condition on them. In
between its producer makes payloads of batches, and its core and its synchronizer do anything that
they can. -/
inductive PortRun (S : Setup) (M : MempoolSetup) (K : Keys)
    (decode : MempoolType → List UInt8 → Option MempoolMessage) (ok : Bool → Mempool → Frame → Prop)
    (name : NodeID) : Replica → Prop
  | init : PortRun S M K decode ok name (.init name)
  | frame {r : Replica} {putOk : Bool} {f : Frame} {o : MempoolOutcome}
      (hr : PortRun S M K decode ok name r) (hok : ok putOk r.mempool f)
      (h : receiveMempool S M K putOk decode r.mempool f = .handled o) :
      PortRun S M K decode ok name (r.withMempool o.mempool (o.err = some .panic))
  | batch {r r' : Replica} {w : Surroundings} {batch : Batch} {outs : List Output}
      {sends : List MempoolSend} (hr : PortRun S M K decode ok name r)
      (h : r.step S M w (.mempool (.ownBlock (some (newBlock S M name batch)))) =
        some (r', outs, sends)) : PortRun S M K decode ok name r'
  | inner {r r' : Replica} {w : Surroundings} {i : ReplicaInput} {outs : List Output}
      {sends : List MempoolSend} (hr : PortRun S M K decode ok name r)
      (hi : ∀ msg, i ≠ .mempool msg)
      (h : r.step S M w i = some (r', outs, sends)) : PortRun S M K decode ok name r'

/-- The block of an `OwnBlockMsg` that the mempool accepts from the network verifies. -/
def OwnVerified (S : Setup) (M : MempoolSetup)
    (decode : MempoolType → List UInt8 → Option MempoolMessage) (putOk : Bool) (m : Mempool)
    (f : Frame) : Prop :=
  ∀ b, Codec.read ⟨mempoolTypes, decode⟩ f = .handled (.msg (.ownBlock (some b))) →
    putOk = true → m.full M = false → b.verify S M = true

/-- A request of the network whose answer goes to one of the destinations reaches no key of a
consensus block, unless what is read there verifies as a payload. -/
def RequestVerified (S : Setup) (M : MempoolSetup)
    (decode : MempoolType → List UInt8 → Option MempoolMessage) (dsts : NodeID → Prop) (m : Mempool)
    (f : Frame) : Prop :=
  ∀ digests author,
    Codec.read ⟨mempoolTypes, decode⟩ f = .handled (.msg (.requestBlock digests author)) →
    dsts author → ∀ d ∈ answered S m digests, ∀ cb, m.store.db d = some (.consensusBlock cb) →
      (Entry.consensusBlock cb).asPayload.verify S M = true

/-- What `Mempool.Run` handles of a frame is a message that the frame decodes to. -/
theorem receiveMempool_handled {putOk : Bool} {m : Mempool} {f : Frame} {o : MempoolOutcome}
    (h : receiveMempool S M K putOk decode m f = .handled o) :
    ∃ msg, Codec.read ⟨mempoolTypes, decode⟩ f = .handled (.msg msg) ∧
    o = m.handle S M putOk msg := by
  unfold receiveMempool Received.bind at h
  split at h
  case h_1 => cases h
  case h_2 => cases h
  case h_3 message hread =>
    dsimp only at h
    split_ifs at h with hmodule
    cases message with
    | msg msg =>
      refine ⟨msg, hread, ?_⟩
      cases msg with
      | otherBlock block =>
        dsimp only [runMempoolMessage, handleOthorBlock] at h
        cases block with
        | none => cases h
        | some b =>
          dsimp only at h
          split_ifs at h
          cases h
          rfl
      | ownBlock block =>
        cases h
        rfl
      | requestBlock digests author =>
        cases h
        rfl
    | _ => cases h

theorem PortRun.verified (hsig : M.SignsVerify) {name : NodeID} {r : Replica}
    (hr : PortRun S M K decode (OwnVerified S M decode) name r) : r.mempool.Verified S M := by
  induction hr with
  | init => exact .init S M name
  | frame hr hok h ih =>
    obtain ⟨msg, hread, rfl⟩ := receiveMempool_handled h
    refine (ih.handle (fun _ => True) fun b hb => ?_).1
    rw [hb] at hread
    exact hok b hread
  | @batch r r' w batch outs sends hr h ih =>
    have heq : r'.mempool =
        (r.mempool.handle S M w.putOk (.ownBlock (some (newBlock S M name batch)))).mempool := by
      unfold Replica.step at h
      split_ifs at h
      cases h
      rfl
    rw [heq]
    refine (ih.handle (fun _ => True) fun b hb _ _ => ?_).1
    cases hb
    exact newBlock_verify hsig name batch
  | inner hr hi h ih => exact ih.step hsig h hi

/-- Every payload that a node stores or queues verifies, whatever frames its mempool takes, as long
as no `OwnBlockMsg` of the network that it accepts has a wrong signature. A frame leaves it so, and
makes the node send only blocks that verify, exactly when it is no such message and no request that
reaches the key of a consensus block. What is sent may be taken to be what is sent to everyone, or
to any other destinations. -/
theorem payloads_verified_iff (hsig : M.SignsVerify) {name : NodeID} {r : Replica}
    (hr : PortRun S M K decode (OwnVerified S M decode) name r) (dsts : NodeID → Prop)
    {putOk : Bool} {f : Frame} {o : MempoolOutcome}
    (h : receiveMempool S M K putOk decode r.mempool f = .handled o) :
    r.mempool.Verified S M ∧ ((o.mempool.Verified S M ∧ SendsVerified S M dsts o.out) ↔
      OwnVerified S M decode putOk r.mempool f ∧ RequestVerified S M decode dsts r.mempool f) := by
  have hverified := hr.verified hsig
  obtain ⟨msg, hread, rfl⟩ := receiveMempool_handled h
  refine ⟨hverified, fun hafter => ⟨fun b hb hput hroom => ?_, fun digests author hb => ?_⟩,
    fun hok => ?_⟩
  · have hmsg : msg = .ownBlock (some b) := by simpa [hread] using hb
    rw [hmsg] at hafter
    exact hafter.1.of_handleOwnBlock hput hroom
  · have hmsg : msg = .requestBlock digests author := by simpa [hread] using hb
    rw [hmsg] at hafter
    exact (hverified.sends_iff author digests).mp hafter.2
  · have hown : ∀ b, msg = .ownBlock (some b) → putOk = true → r.mempool.full M = false →
        b.verify S M = true := by
      intro b hb
      rw [hb] at hread
      exact hok.1 b hread
    have hstays := hverified.handle dsts hown
    refine ⟨hstays.1, ?_⟩
    by_cases hrequest : ∃ digests author, msg = .requestBlock digests author
    · obtain ⟨digests, author, rfl⟩ := hrequest
      exact (hverified.sends_iff author digests).mpr (hok.2 digests author hread)
    · exact hstays.2 fun digests author hmsg => hrequest ⟨digests, author, hmsg⟩

/-! ## A scheme with one signature -/

/-- Parameters of a mempool whose signature scheme accepts the signature `[1]` only. -/
def strictMempool : MempoolSetup where
  maxQueenSize := 10
  maxPayloadSize := 1
  syncRetryDelay := 0
  requestSignature _ _ := [1]
  verify signature _ _ := signature = [1]

/-- An `OwnBlockMsg` with a block that names the second node as its proposer. -/
def ownFrame (signature : List UInt8) (_ : MempoolType) (_ : List UInt8) : Option MempoolMessage :=
  some (.msg (.ownBlock (some ⟨1, ⟨7, [[1]]⟩, signature⟩)))

/-- A `RequestBlockMsg` for the block of a proposal, in the name of node `-1`. -/
def requestFrame (p : SPBProposal) (_ : MempoolType) (_ : List UInt8) : Option MempoolMessage :=
  some (.msg (.requestBlock [(demo 4 0).hash p.b] NONE))

/-- The inputs of the core of a node. -/
def coreInputs (r : Replica) (inputs : List Input) : Option Replica :=
  inputs.foldlM (fun r i => (r.step (demo 4 0) strictMempool demoSurroundings (.consensus i)).map
    Prod.fst) r

theorem PortRun.coreInputs {ok : Bool → Mempool → Frame → Prop} {name : NodeID} {r r' : Replica}
    {inputs : List Input} (hr : PortRun (demo 4 0) strictMempool K decode ok name r)
    (h : coreInputs r inputs = some r') :
    PortRun (demo 4 0) strictMempool K decode ok name r' := by
  induction inputs generalizing r with
  | nil =>
    cases h
    exact hr
  | cons i rest ih =>
    obtain ⟨z, hz, hrest⟩ := Option.bind_eq_some_iff.mp h
    obtain ⟨⟨r₁, outs, sends⟩, hstep, rfl⟩ := Option.map_eq_some_iff.mp hz
    exact ih (.inner hr (by simp) hstep) hrest

/-- A node takes inputs of its core, and then a frame. What holds of the outcome when this is
replayed holds of an outcome that a run reaches. -/
theorem exists_frame (inputs : List Input) (type : ℤ)
    (decode : MempoolType → List UInt8 → Option MempoolMessage)
    (ok : Bool → Mempool → Frame → Prop) (P : MempoolOutcome → Bool)
    (h : ((coreInputs (.init 0) inputs).any fun r =>
      match receiveMempool (demo 4 0) strictMempool demoKeys true decode r.mempool
          ⟨some type, []⟩ with
        | .handled o => P o
        | _ => false) = true) :
    ∃ r o, PortRun (demo 4 0) strictMempool demoKeys decode ok 0 r ∧
      receiveMempool (demo 4 0) strictMempool demoKeys true decode r.mempool ⟨some type, []⟩ =
        .handled o ∧ P o = true := by
  rw [Option.any_eq_true] at h
  obtain ⟨r, hinputs, hP⟩ := h
  split at hP
  case h_1 o hreceive => exact ⟨r, o, PortRun.coreInputs .init hinputs, hreceive, hP⟩
  case h_2 => cases hP

/-- A block with the right signature is accepted, and all that the node has verifies. -/
theorem payloads_verified_signed : ∃ r o,
    PortRun (demo 4 0) strictMempool demoKeys (ownFrame [1])
      (OwnVerified (demo 4 0) strictMempool (ownFrame [1])) 0 r ∧
    receiveMempool (demo 4 0) strictMempool demoKeys true (ownFrame [1]) r.mempool ⟨some 12, []⟩ =
      .handled o ∧ o.mempool.written.length = 2 ∧ o.out.length = 1 ∧
    o.mempool.Verified (demo 4 0) strictMempool ∧
    SendsVerified (demo 4 0) strictMempool (· = NONE) o.out := by
  obtain ⟨r, o, hr, hreceive, hlen⟩ := exists_frame [.start] 12 (ownFrame [1])
    (OwnVerified (demo 4 0) strictMempool (ownFrame [1]))
    (fun o => decide (o.mempool.written.length = 2 ∧ o.out.length = 1)) (by decide +kernel)
  obtain ⟨hwritten, hout⟩ := of_decide_eq_true hlen
  refine ⟨r, o, hr, hreceive, hwritten, hout, ?_⟩
  refine (payloads_verified_iff (fun _ _ => rfl) hr _ hreceive).2.mpr ⟨?_, ?_⟩
  · rintro b hb - -
    cases hb
    rfl
  · intro digests author hb
    cases hb

/-- The first proposal of the second node. -/
def secondProposal : SPBProposal := ⟨1, ⟨1, [], 0⟩, 0, 0, .one⟩

/-- A block with a wrong signature, sent by a peer as an `OwnBlockMsg`, is stored, queued and sent
on to everyone. And a request for the hash of a consensus block has the node send everyone a block
without a signature. -/
theorem unverified_payload_kept :
    (∃ r o,
      PortRun (demo 4 0) strictMempool demoKeys (ownFrame []) (fun _ _ _ => True) 0 r ∧
      receiveMempool (demo 4 0) strictMempool demoKeys true (ownFrame []) r.mempool
        ⟨some 12, []⟩ = .handled o ∧
      ∃ b ∈ o.mempool.written, b.verify (demo 4 0) strictMempool = false ∧
        (demo 4 0).blockHash b ∈ o.mempool.queue ∧ ⟨NONE, .otherBlock (some b)⟩ ∈ o.out) ∧
    ∃ r o,
      PortRun (demo 4 0) strictMempool demoKeys (requestFrame secondProposal) (fun _ _ _ => True)
        0 r ∧
      receiveMempool (demo 4 0) strictMempool demoKeys true (requestFrame secondProposal) r.mempool
        ⟨some 14, []⟩ = .handled o ∧
      (⟨1, ⟨0, []⟩, []⟩ : Block).verify (demo 4 0) strictMempool = false ∧
      ⟨NONE, .otherBlock (some ⟨1, ⟨0, []⟩, []⟩)⟩ ∈ o.out := by
  constructor
  · obtain ⟨r, o, hr, hreceive, hkept⟩ := exists_frame [.start] 12 (ownFrame [])
      (fun _ _ _ => True)
      (fun o => decide (∃ b ∈ o.mempool.written, b.verify (demo 4 0) strictMempool = false ∧
        (demo 4 0).blockHash b ∈ o.mempool.queue ∧ ⟨NONE, .otherBlock (some b)⟩ ∈ o.out))
      (by decide +kernel)
    exact ⟨r, o, hr, hreceive, of_decide_eq_true hkept⟩
  · obtain ⟨r, o, hr, hreceive, hsent⟩ := exists_frame [.start, .msg (.spbProposal secondProposal)]
      14 (requestFrame secondProposal) (fun _ _ _ => True)
      (fun o => decide (⟨NONE, .otherBlock (some ⟨1, ⟨0, []⟩, []⟩)⟩ ∈ o.out)) (by decide +kernel)
    exact ⟨r, o, hr, hreceive, rfl, of_decide_eq_true hsent⟩

end Wire

end SMVBA
