import SMVBA.Library.Rounds
import SMVBA.Mempool.Fetching
import SMVBA.Network.Replicas

/-!
# Payloads that are asked for come

A node that takes a proposal without some of its payloads asks the proposer of the block for them,
waits with `NotifyRead`, and goes on when they are there. The request is sent once. What comes of it
is up to others: the proposer has to have the payloads when the request comes, since
`HandleRequestBlock` answers nothing that it cannot read, and the node has to have room in its queue
when the payloads come, since `HandleOthorBlock` turns payloads away from a full queue.

The proposer does have them: it wrote them before it created the block, and its store loses nothing.
So in a run in which no payload meets a full queue, once the mempool messages have been taken and
the synchronizer of a node has come to rest, no waiter of the node sleeps, and each block that the
node asked about has all its payloads in the store (`fetched_at_rest`).
-/

namespace SMVBA

open MessagePassing

variable {S : Setup} {M : MempoolSetup} {s s' : PeerNet} {a q : NodeID}

/-! ## What the core asks for -/

/-- A request for payloads of the block, to its proposer. -/
structure SyncBlockMsg.For (req : SyncBlockMsg) (b : ConsensusBlock) : Prop where
  author : req.author = b.proposer
  missing : ∀ d ∈ req.missing, d ∈ b.payLoads

section Requests

variable {env : Env} {i : Input} {x0 x y : Hist} {req : SyncBlockMsg}

/-- A request of `handleOutput` is about the block of the halt. -/
theorem HaltOut.asksFor {dg : Digest} {k : Committor} {outs : List Output}
    (ho : HaltOut S env x.core dg k outs) (hprov : Provenance S x) (hreq : .sync req ∈ outs) :
    ∃ b, x.TookBlock b ∧ req.For b := by
  cases ho with
  | commit b hb hmissing => simp at hreq
  | sync b hb hmissing =>
    obtain rfl : req = _ := by simpa using hreq
    have hstored := Core.store_of_missing hb hmissing
    exact ⟨b, (hprov.store _ b hstored).2, rfl, fun d hd => List.mem_of_mem_filter hd⟩
  | absent hb ha => simp at hreq

/-- A request that a rule lets out is about a block that the node took. -/
theorem Locals.asksFor {new : List Output} (h : Locals S env i x0 x y new)
    (hprov : Provenance S x) (hreq : .sync req ∈ new) : ∃ b, x.TookBlock b ∧ req.For b := by
  cases h with
  | sync p hp ho hmissing hk =>
    obtain rfl : req = _ := by simpa using hreq
    refine ⟨p.b, ?_, rfl, fun d hd => List.mem_of_mem_filter hd⟩
    cases ho with
    | message hi hh => exact ⟨p, hh, hp, rfl⟩
    | loopBack d hi hs hp' => exact (hprov.store d _ (Core.store_of_missing hs hmissing)).2
  | haltStay ht outs hi hx0 he hf ho hd => exact ho.asksFor hprov hreq
  | haltNext ht outs hi hx0 he hf ho hd hlt hr hr' => exact ho.asksFor hprov (by simpa using hreq)
  | none _ | late _ _ _ _ _ _ _ _ | start _ _ _ _ | again _ _ _ _ _ => simp at hreq

theorem Run.asksFor {ok : Cond} {s : Net} (hr : Run S ok s) (hreq : .sync req ∈ (s.nodes q).out) :
    ∃ b, (s.nodes q).TookBlock b ∧ req.For b := by
  have hasks : Facts S q (s.nodes q) ∧ ∀ req, .sync req ∈ (s.nodes q).out →
      ∃ b, (s.nodes q).TookBlock b ∧ req.For b := by
    refine (hr.localRun q).invariant (I := fun z => Facts S q z ∧ ∀ req, .sync req ∈ z.out →
      ∃ b, z.TookBlock b ∧ req.For b) ⟨.init S q, by simp [Hist.init]⟩ ?_
    rintro env i x0 z z' - hrule ⟨hf, hz⟩
    refine ⟨hf.rule hrule, fun req hreq => ?_⟩
    obtain ⟨new, hnew, heq⟩ := hrule.locals
    have hlocal : .sync req ∈ z.locals ++ new := heq ▸ List.mem_filter.mpr ⟨hreq, rfl⟩
    have hfor : ∃ b, z.TookBlock b ∧ req.For b := by
      rcases List.mem_append.mp hlocal with hold | hmem
      · exact hz req (List.mem_filter.mp hold).1
      · exact hnew.asksFor hf.provenance hmem
    obtain ⟨b, htook, hfor⟩ := hfor
    exact ⟨b, htook.rule hrule, hfor⟩
  exact hasks.2 req hreq

end Requests

/-! ## The mempools of a run -/

/-- The message of the mempool that an output is. -/
def PeerOutput.mempool? : PeerOutput → Option MempoolSend
  | .core _ => none
  | .mempool m => some m

/-- What the mempool of a peer has sent. -/
def Peer.mempoolOut (p : Peer) : List MempoolSend := p.out.filterMap PeerOutput.mempool?

theorem filterMap_mempool (outs : List Output) (sends : List MempoolSend) :
    (outs.map PeerOutput.core ++ sends.map PeerOutput.mempool).filterMap PeerOutput.mempool? =
      sends := by
  rw [List.filterMap_append, List.filterMap_map, List.filterMap_map]
  have hcore : outs.filterMap (PeerOutput.mempool? ∘ PeerOutput.core) = [] :=
    List.filterMap_eq_nil_iff.mpr fun _ _ => rfl
  rw [hcore, List.nil_append]
  exact List.filterMap_some

/-- The mempool of a peer after a step. -/
theorem Peer.step_mempoolOut {w : Surroundings} {p p' : Peer} {i : PeerInput}
    {new : List PeerOutput} (h : p.step S M w i = some (p', new)) : ∃ outs sends,
      p.replica.step S M w (p.replicaInput S M i) = some (p'.replica, outs, sends) ∧
      p'.received = p.received ++ i.packet?.toList ∧ p'.mempoolOut = p.mempoolOut ++ sends ∧
      new = outs.map PeerOutput.core ++ sends.map PeerOutput.mempool := by
  obtain ⟨outs, sends, hrep, hnew, hreceived, hout⟩ := Peer.step_cases h
  refine ⟨outs, sends, hrep, hreceived, ?_, hnew⟩
  unfold Peer.mempoolOut
  rw [hout, List.filterMap_append, hnew, filterMap_mempool]

/-- What a mempool has sent to a node is among what its peer let out for it. -/
theorem Peer.mem_sentTo {p : Peer} {msg : MempoolMsg} (hq : q ≠ NONE)
    (h : ⟨q, msg⟩ ∈ p.mempoolOut) : .mempool msg ∈ p.sentTo q := by
  obtain ⟨o, ho, hsend⟩ := List.mem_filterMap.mp h
  cases o with
  | core o => cases hsend
  | mempool m =>
    obtain rfl : m = ⟨q, msg⟩ := Option.some.inj hsend
    refine List.mem_filterMap.mpr ⟨_, ho, ?_⟩
    simp [PeerOutput.sentTo, hq]

namespace PeerRun

variable (hr : PeerRun S M PutSucceeds s)

include hr

theorem payloadFacts (a : NodeID) : PayloadFacts S (s.nodes a).replica :=
  hr.replica_invariant (I := fun _ r => PayloadFacts S r) (.init S) (fun _ h hx => hx.step h) a

theorem fetching (a : NodeID) : (s.nodes a).replica.Fetching S a (s.nodes a).mempoolOut := by
  refine hr.local_invariant (I := fun a p => p.replica.Fetching S a p.mempoolOut)
    (fun a => .init S a) ?_ a
  rintro a x m y out ⟨w, i, new, -, hput, -, h, -⟩ hx
  obtain ⟨outs, sends, hrep, -, hout, -⟩ := Peer.step_mempoolOut h
  rw [hout]
  exact hx.step hput hrep

/-- A proposer has what it may be asked for: it wrote the payloads before it created the block. -/
theorem proposer_holds (ha : S.absent = .other) (hs : AllSeparated S s.nodes) {req : SyncBlockMsg}
    (hreq : .sync req ∈ (s.nodes q).replica.hist.out) : req.author ∈ S.committee.authorities ∧
      ∀ d ∈ req.missing, (s.nodes req.author).replica.mempool.HoldsPayload S d := by
  have hrun : Run S Always s.net := hr.run hs
  obtain ⟨b, htook, hfor⟩ := hrun.asksFor (q := q) hreq
  have hcreated : b ∈ (s.nodes req.author).replica.hist.created := by
    rw [hfor.author]
    exact hrun.created_of_took ha htook
  have hmem : req.author ∈ S.committee.authorities := by
    by_contra hnot
    rw [hr.nodes_of_notMem hnot] at hcreated
    cases hcreated
  have hsep := hs.each _ hmem
  refine ⟨hmem, fun d hd => ?_⟩
  exact (hr.fetching req.author).holdsPayload (hr.payloadFacts _)
    (hr.replicaFacts _ hsep).core.provenance hsep
    ((hr.payloadFacts _).created b hcreated d (hfor.missing d hd))

end PeerRun

/-! ## Payloads on their way -/

/-- The packet does not hand a payload to the receiver as its own. -/
def Packet.Foreign (m : Packet) : Prop := ∀ msg, m = .mempool msg → msg.Foreign

/-- No mempool sends a payload as the receiver's own. -/
theorem PayloadStep.foreign {w : Surroundings} {r r' : Replica} {i : ReplicaInput}
    {outs : List Output} {sends : List MempoolSend} (h : PayloadStep S M w r r' i outs sends) :
    ∀ s ∈ sends, s.msg.Foreign := by
  cases h with
  | idle i sends hs hsends => exact hsends
  | create i outs sends made payloads hmake hmade hsome hall hw =>
    cases hmade <;> simp [MempoolMsg.Foreign]
  | _ => simp [MempoolMsg.Foreign]

/-- So no packet of a run does. -/
theorem PeerRun.foreign (hr : PeerRun S M PutSucceeds s) {d : NodeID} {m : Packet}
    (hm : m ∈ (s.nodes a).sentTo d) : m.Foreign := by
  have hout : ∀ s' ∈ (s.nodes a).mempoolOut, s'.msg.Foreign := by
    refine hr.local_invariant (I := fun _ p => ∀ s' ∈ p.mempoolOut, s'.msg.Foreign)
      (by simp [Peer.mempoolOut, replicas, Peer.init]) ?_ a
    rintro a x m y out ⟨w, i, new, -, -, -, h, -⟩ hx s' hs'
    obtain ⟨outs, sends, hrep, -, hout, -⟩ := Peer.step_mempoolOut h
    rcases List.mem_append.mp (hout ▸ hs') with hold | hnew
    · exact hx s' hold
    · exact (Replica.step_payloads hrep).foreign s' hnew
  rintro msg rfl
  obtain ⟨o, ho, hsent⟩ := List.mem_filterMap.mp hm
  cases o with
  | core o =>
    obtain ⟨m', -, heq⟩ := Option.map_eq_some_iff.mp hsent
    cases heq
  | mempool s' =>
    have hmem : s' ∈ (s.nodes a).mempoolOut := List.mem_filterMap.mpr ⟨_, ho, rfl⟩
    dsimp only [PeerOutput.sentTo] at hsent
    rw [Option.ite_none_right_eq_some] at hsent
    obtain rfl : s'.msg = msg := by simpa using hsent.2
    exact hout s' hmem

section Verified

variable (hsig : ∀ q d, M.verify (M.requestSignature q d) q d = true)

include hsig

/-- A payload that a peer takes as its own is made by `generateBlocks`. -/
theorem Peer.own_verified {p : Peer} {i : PeerInput} (hi : ∀ m ∈ i.packet?, m.Foreign) {b : Block}
    (hb : p.replicaInput S M i = .mempool (.ownBlock (some b))) : b.verify S M = true := by
  cases i with
  | batch batch =>
    obtain rfl : newBlock S M p.replica.mempool.name batch = b := by
      simpa [Peer.replicaInput] using hb
    exact newBlock_verify hsig _ _
  | mempool msg =>
    obtain rfl : msg = .ownBlock (some b) := by simpa [Peer.replicaInput] using hb
    exact absurd rfl (hi _ rfl _ rfl b)
  | consensus _ | sync _ => cases hb

/-- A peer that took no payload as its own writes payloads that verify. -/
theorem Peer.step_verified {w : Surroundings} {p p' : Peer} {i : PeerInput} {new : List PeerOutput}
    (h : p.step S M w i = some (p', new)) (hi : ∀ m ∈ i.packet?, m.Foreign)
    (hp : ∀ b ∈ p.replica.mempool.written, b.verify S M = true) :
    ∀ b ∈ p'.replica.mempool.written, b.verify S M = true := by
  obtain ⟨outs, sends, hrep, -⟩ := Peer.step_mempoolOut h
  rcases (Replica.step_payloads hrep).written_cases hsig with hsame | ⟨b₀, hadd, horigin⟩
  · rwa [hsame]
  · have hb₀ : b₀.verify S M = true := horigin.elim (Peer.own_verified hsig hi) id
    intro b hb
    rcases List.mem_append.mp (hadd ▸ hb) with hold | hnew
    · exact hp b hold
    · rwa [List.mem_singleton.mp hnew]

/-- The payloads that the nodes of a run have written verify. -/
theorem PeerRun.verified (hr : PeerRun S M PutSucceeds s) (a : NodeID) :
    ∀ b ∈ (s.nodes a).replica.mempool.written, b.verify S M = true := by
  have hlocal : (∀ m ∈ (s.nodes a).received, m.Foreign) →
      ∀ b ∈ (s.nodes a).replica.mempool.written, b.verify S M = true := by
    refine hr.local_invariant (I := fun _ p => (∀ m ∈ p.received, m.Foreign) →
      ∀ b ∈ p.replica.mempool.written, b.verify S M = true)
      (by simp [replicas, Peer.init, Replica.init]) ?_ a
    rintro a x m y out ⟨w, i, new, -, -, -, h, -⟩ hx hy
    obtain ⟨outs, sends, -, hrec, -⟩ := Peer.step_mempoolOut h
    rw [hrec] at hy
    exact Peer.step_verified hsig h
      (fun m hm => hy m (List.mem_append_right _ (Option.mem_toList.mpr hm)))
      (hx fun m hm => hy m (List.mem_append_left _ hm))
  refine hlocal fun m hm => ?_
  obtain ⟨c, -, hsent⟩ := hr.exists_sender hm
  exact PeerRun.foreign hr hsent

end Verified

/-- What a peer let out for a node stays among it. -/
theorem mem_sentTo_mono (h : (replicas S M PutSucceeds).Step s s') {d : NodeID} {m : Packet}
    (hm : m ∈ (s.nodes a).sentTo d) : m ∈ (s'.nodes a).sentTo d := by
  refine h.preserves (I := fun p => m ∈ p.sentTo d) ?_ hm
  intro m' y out hy hmem
  exact (((replicas S M PutSucceeds).sent_step hy d).symm ▸ List.mem_append_left _ hmem :
    m ∈ (replicas S M PutSucceeds).sent a y d)

/-- A peer that takes a message of the mempool hands it to its replica. -/
theorem exists_handled (h : (replicas S M PutSucceeds).Step s s') {msg : MempoolMsg}
    (hrec : (s'.nodes a).received = (s.nodes a).received ++ [.mempool msg]) :
    ∃ w outs, w.putOk = true ∧ ∃ sends, (s.nodes a).replica.step S M w (.mempool msg) =
      some ((s'.nodes a).replica, outs, sends) ∧
      (s'.nodes a).mempoolOut = (s.nodes a).mempoolOut ++ sends := by
  obtain ⟨c, -, m, y, out, ⟨w, i, new, rfl, hput, -, hstep, -⟩, -, rfl⟩ := h.exists_take
  obtain ⟨outs, sends, hrep, hreceived, hout, -⟩ := Peer.step_mempoolOut hstep
  dsimp only at hrec ⊢
  by_cases hc : a = c
  · subst hc
    rw [Function.update_self] at hrec ⊢
    have hpacket : i.packet? = some (.mempool msg) := by
      rw [hreceived] at hrec
      simpa using List.append_cancel_left hrec
    obtain rfl : i = .mempool msg := by
      cases i with
      | consensus i =>
        obtain ⟨_, -, heq⟩ := Option.map_eq_some_iff.mp hpacket
        cases heq
      | mempool msg' => simpa [PeerInput.packet?] using hpacket
      | batch _ | sync _ => cases hpacket
    exact ⟨w, outs, hput, sends, hrep, hout⟩
  · rw [Function.update_of_ne hc] at hrec
    exact absurd hrec (by simp)

/-- A message to a node that a mempool sends in a step waits for the node after it. -/
theorem mem_inbox_of_send (h : (replicas S M PutSucceeds).Step s s') {msg : MempoolMsg}
    (ha : a ≠ NONE) (hsent : ⟨a, msg⟩ ∈ (s'.nodes q).mempoolOut) :
    ⟨a, msg⟩ ∈ (s.nodes q).mempoolOut ∨ .mempool msg ∈ s'.inbox a := by
  obtain ⟨c, -, m, y, out, ⟨w, i, new, -, -, -, hstep, rfl⟩, -, rfl⟩ := h.exists_take
  obtain ⟨outs, sends, -, -, hout, rfl⟩ := Peer.step_mempoolOut hstep
  dsimp only at hsent ⊢
  by_cases hc : q = c
  · subst hc
    rw [Function.update_self, hout] at hsent
    refine (List.mem_append.mp hsent).imp_right fun hnew => ?_
    refine Multiset.mem_add.mpr (.inr (Multiset.mem_coe.mpr (List.mem_filterMap.mpr ?_)))
    exact ⟨.mempool ⟨a, msg⟩, List.mem_append_right _ (List.mem_map_of_mem hnew), by
      simp [PeerOutput.sentTo, ha]⟩
  · rw [Function.update_of_ne hc] at hsent
    exact .inl hsent

/-- A request to the proposer waits, or its payloads are on their way or have come. -/
theorem request_waits_or_answered {ok : PeerNet → PeerNet → Prop} (ha : S.absent = .other)
    (hsig : ∀ q d, M.verify (M.requestSignature q d) q d = true)
    (hr : (replicas S M PutSucceeds).RunUnder ok s) (hs : AllSeparated S s.nodes)
    (hq : q ∈ S.committee.authorities) (hne : a ≠ NONE) {ds : List Digest}
    (hsent : ⟨a, .requestBlock ds q⟩ ∈ (s.nodes q).mempoolOut) :
    .mempool (.requestBlock ds q) ∈ s.inbox a ∨ ∀ d ∈ ds, ∃ p, S.blockHash p = d ∧
      p.verify S M = true ∧ .mempool (.otherBlock (some p)) ∈ (s.nodes a).sentTo q := by
  have hqne : q ≠ NONE := fun heq => S.committee.none_notMem (heq ▸ hq)
  refine hr.waits_or_done (q := a) (m := .mempool (.requestBlock ds q))
    (T := fun s => AllSeparated S s.nodes ∧ ⟨a, .requestBlock ds q⟩ ∈ (s.nodes q).mempoolOut)
    (J := fun s => ∀ d ∈ ds, ∃ p, S.blockHash p = d ∧ p.verify S M = true ∧
      .mempool (.otherBlock (some p)) ∈ (s.nodes a).sentTo q) ?_ ?_ ?_ ?_ ⟨hs, hsent⟩
  · rintro ⟨-, hstart⟩
    cases hstart
  · rintro s s' - h ⟨hs, hsent⟩
    obtain ⟨c, -, m, y, out, ⟨w, i, new, -, hput, -, hstep, -⟩, -, hs'⟩ := h.exists_take
    have hbefore : AllSeparated S s.nodes := by
      rw [hs'] at hs
      exact hs.of_step hput hstep
    exact (mem_inbox_of_send h hne hsent).imp_left fun hold => ⟨hbefore, hold⟩
  · rintro s s' hr h - ⟨hs, hsent⟩ hrec d hd
    -- The proposer has the payloads, and serves them.
    obtain ⟨req, hreq, rfl, rfl⟩ :=
      (PeerRun.fetching hr.reachable q).asking.direct _ hsent hne ds q rfl
    obtain ⟨-, hheld⟩ := PeerRun.proposer_holds hr.reachable ha hs hreq
    obtain ⟨w, outs, -, sends, hrep, hout⟩ := exists_handled h hrec
    obtain ⟨bs, hbs, hstored, hserve⟩ := serve_of_held hheld q
    obtain ⟨p, hp, rfl⟩ := List.mem_map.mp (hbs ▸ hd)
    have hwritten : p ∈ (s.nodes req.author).replica.mempool.written := by
      exact ((PeerRun.payloadFacts hr.reachable _).entry _ p (payload?_eq_some.mp (hstored p hp))).1
    refine ⟨p, rfl, PeerRun.verified hsig hr.reachable _ p hwritten, Peer.mem_sentTo hqne ?_⟩
    have hsends : sends = bs.map fun b => ⟨q, .otherBlock (some b)⟩ := by
      unfold Replica.step at hrep
      split_ifs at hrep
      simp only [Mempool.handle, Mempool.handleRequestBlock, hserve, Option.some.injEq,
        Prod.mk.injEq] at hrep
      exact hrep.2.2.symm
    rw [hout, hsends]
    exact List.mem_append_right _ (List.mem_map_of_mem hp)
  · intro s s' _ h hdone d hd
    obtain ⟨p, hp, hverify, hmem⟩ := hdone d hd
    exact ⟨p, hp, hverify, mem_sentTo_mono h hmem⟩

/-- No payload that a node takes meets a full queue. -/
def Roomy (S : Setup) (M : MempoolSetup) (s s' : PeerNet) : Prop :=
  ∀ q ∈ S.committee.authorities, ∀ p,
    (s'.nodes q).received = (s.nodes q).received ++ [.mempool (.otherBlock (some p))] →
    (s.nodes q).replica.mempool.full M = false

/-- A payload that comes while there is room is in the store. -/
theorem holds_of_handled {w : Surroundings} {r r' : Replica} {outs : List Output}
    {sends : List MempoolSend} {p : Block} (ha : S.absent = .other) (hput : w.putOk = true)
    (h : r.step S M w (.mempool (.otherBlock (some p))) = some (r', outs, sends))
    (hroom : r.mempool.full M = false) (hverify : p.verify S M = true) :
    r'.mempool.store.Holds (S.blockHash p) := by
  obtain rfl : r.withMempool (r.mempool.handleOthorBlock S M w.putOk (some p)).mempool _ = r' := by
    unfold Replica.step at h
    split_ifs at h
    exact congrArg Prod.fst (Option.some.inj h)
  show (r.mempool.handleOthorBlock S M w.putOk (some p)).mempool.store.Holds (S.blockHash p)
  rcases r.mempool.handleOthorBlock_cases S M w.putOk p with
    ⟨-, -, -, -, -, -, -, hs⟩ | ⟨hno, -, hs⟩
  · rw [Store.Holds, hs.db, Function.update_self]
    rfl
  · -- It was not taken only because it is there.
    rw [Store.Holds, hs.db]
    by_contra hnot
    have hdb : r.mempool.store.db (S.blockHash p) = none := by simpa using hnot
    refine hno ⟨hroom, hverify, ⟨.get, ?_⟩, hput⟩
    simp [Mempool.getBlock, Store.read, hdb, ha]

/-- A payload that verifies and was sent to a node waits for it, or is in its store. -/
theorem payload_waits_or_held (ha : S.absent = .other)
    (hr : (replicas S M PutSucceeds).RunUnder (Roomy S M) s) (hq : q ∈ S.committee.authorities)
    {p : Block} (hverify : p.verify S M = true)
    (hsent : .mempool (.otherBlock (some p)) ∈ (s.nodes a).sentTo q) :
    .mempool (.otherBlock (some p)) ∈ s.inbox q ∨
      (s.nodes q).replica.mempool.store.Holds (S.blockHash p) := by
  refine hr.waits_or_done (q := q) (m := .mempool (.otherBlock (some p)))
    (T := fun s => .mempool (.otherBlock (some p)) ∈ (s.nodes a).sentTo q)
    (J := fun s => (s.nodes q).replica.mempool.store.Holds (S.blockHash p)) ?_ ?_ ?_ ?_ hsent
  · intro hstart
    cases hstart
  · intro s s' _ h hsent
    exact h.sent_or_inbox hsent
  · intro s s' hr h hroomy hsent hrec
    obtain ⟨w, outs, hput, sends, hrep, -⟩ := exists_handled h hrec
    exact holds_of_handled ha hput hrep (hroomy q hq p hrec) hverify
  · intro s s' _ h hheld
    refine h.preserves (I := fun p' => p'.replica.mempool.store.Holds (S.blockHash p)) ?_ hheld
    rintro m y out ⟨w, i, new, -, hput, -, hstep, -⟩ hx
    obtain ⟨outs, sends, hrep, -⟩ := Peer.step_cases hstep
    exact (Replica.step_cases hput hrep).holds hx

/-! ## At rest -/

/-- No message of the mempools waits. -/
def PeerNet.MempoolsQuiet (S : Setup) (s : PeerNet) : Prop :=
  ∀ a ∈ S.committee.authorities, ∀ msg, .mempool msg ∉ s.inbox a

section Quiet

variable (ha : S.absent = .other) (hsig : ∀ q d, M.verify (M.requestSignature q d) q d = true)
  (hr : (replicas S M PutSucceeds).RunUnder (Roomy S M) s) (hs : AllSeparated S s.nodes)
  (hquiet : PeerNet.MempoolsQuiet S s) (hq : q ∈ S.committee.authorities)

include ha hsig hr hs hquiet hq

/-- Once the messages have been taken, a request went to a node of the committee, which has answered
it. -/
theorem request_answered {ds : List Digest} (hne : a ≠ NONE)
    (hsent : ⟨a, .requestBlock ds q⟩ ∈ (s.nodes q).mempoolOut) :
    a ∈ S.committee.authorities ∧ ∀ d ∈ ds, ∃ p, S.blockHash p = d ∧ p.verify S M = true ∧
      .mempool (.otherBlock (some p)) ∈ (s.nodes a).sentTo q := by
  obtain ⟨req, hreq, rfl, -⟩ :=
    (PeerRun.fetching hr.reachable q).asking.direct _ hsent hne ds q rfl
  obtain ⟨hmem, -⟩ := PeerRun.proposer_holds hr.reachable ha hs hreq
  exact ⟨hmem, (request_waits_or_answered ha hsig hr hs hq hne hsent).resolve_left
    (hquiet _ hmem _)⟩

/-- What a waiter still has to read is there. -/
theorem holds_of_reading : ∀ r ∈ (s.nodes q).replica.mempool.reading, ∀ d ∈ r.2,
    (s.nodes q).replica.mempool.store.Holds d := by
  intro r hmem d hd
  have hfetch := PeerRun.fetching hr.reachable q
  obtain ⟨req, hreq, hsent, hmissing⟩ := hfetch.asking.reading r hmem
  rw [hfetch.name] at hsent
  obtain ⟨hauthor, -⟩ := PeerRun.proposer_holds hr.reachable ha hs hreq
  have hne : req.author ≠ NONE := fun heq => S.committee.none_notMem (heq ▸ hauthor)
  obtain ⟨-, hanswered⟩ := request_answered ha hsig hr hs hquiet hq hne hsent
  obtain ⟨p, rfl, hverify, hback⟩ := hanswered d (hmissing d hd)
  exact (payload_waits_or_held ha hr hq hverify hback).resolve_left (hquiet q hq _)

end Quiet

/-- When no message of the mempools waits and the synchronizer of a node is at rest, all its waiters
have returned, every block that it was asked about has its payloads in the store, and every request
to a proposer was answered in full. -/
theorem fetched_at_rest (ha : S.absent = .other)
    (hsig : ∀ q d, M.verify (M.requestSignature q d) q d = true)
    (hr : (replicas S M PutSucceeds).RunUnder (Roomy S M) s) (hs : AllSeparated S s.nodes)
    (hquiet : PeerNet.MempoolsQuiet S s) (hq : q ∈ S.committee.authorities)
    (hrest : (s.nodes q).replica.mempool.AtRest M) :
    (∀ w ∈ (s.nodes q).replica.mempool.sync.waiters, w.returned = true) ∧
    (∀ req, .sync req ∈ (s.nodes q).replica.hist.out → ∃ b, (s.nodes q).replica.hist.TookBlock b ∧
      S.hash b = req.consensusBlockHash ∧ (s.nodes q).replica.HasPayloads b) ∧
    ∀ a ds, a ≠ NONE → ⟨a, .requestBlock ds q⟩ ∈ (s.nodes q).mempoolOut →
      ∀ d ∈ ds, ∃ p, S.blockHash p = d ∧
        .mempool (.otherBlock (some p)) ∈ (s.nodes a).sentTo q := by
  have hfetch := PeerRun.fetching hr.reachable q
  have hfacts := PeerRun.replicaFacts hr.reachable q (hs.each q hq)
  have hheld := holds_of_reading ha hsig hr hs hquiet hq
  refine ⟨hrest.returned hfetch.sleeping hheld,
    fun req hreq => hrest.fetched hfetch.asking hfacts.sync hheld hreq, ?_⟩
  intro a ds hne hsent d hd
  have hanswered := request_answered ha hsig hr hs hquiet hq hne hsent
  obtain ⟨p, hhash, -, hmem⟩ := hanswered.2 d hd
  exact ⟨p, hhash, hmem⟩

/-- Whether a packet is one of the mempools. -/
def Packet.isMempool : Packet → Bool
  | .consensus _ => false
  | .mempool _ => true

/-- The first proposal of node 0 overtakes its payload on the way to node 1, which asks for the
payload and gets it. Then all payloads are delivered. -/
def fetchingSchedule : List (NodeID × Surroundings × PeerInput) :=
  let proposal : SPBProposal := ⟨0, peerBlock 0, 0, 0, .one⟩
  let payload (q p : NodeID) : NodeID × Surroundings × PeerInput :=
    (q, peerSurroundings q [], .mempool (.otherBlock (some (peerPayload p))))
  let sync (e : SyncEvent) : NodeID × Surroundings × PeerInput :=
    (1, peerSurroundings 1 [], .sync e)
  [(0, peerSurroundings 0 [], .consensus .start), (1, peerSurroundings 1 [], .consensus .start),
    (1, peerSurroundings 1 [], .consensus (.msg (.spbProposal proposal))), sync .inter,
    sync (.ask 0), (0, peerSurroundings 0 [], .mempool (.requestBlock [peerDigest 0] 1)),
    payload 1 0, sync (.resume 0), sync (.finish 0), sync .waiting, payload 1 0, payload 0 1,
    payload 2 0, payload 2 1, payload 3 0, payload 3 1]

/-- A payload that is fetched. -/
theorem fetched_at_rest_overtaken : ∃ s : PeerNet, ∃ req,
    PeerRun (demo 4 1) demoMempool PutSucceeds s ∧
    .sync req ∈ (s.nodes 1).replica.hist.out ∧ req.missing = [peerDigest 0] ∧
    ∃ b, (s.nodes 1).replica.hist.TookBlock b ∧ (demo 4 1).hash b = req.consensusBlockHash ∧
      (s.nodes 1).replica.HasPayloads b := by
  obtain ⟨s, hr, hs⟩ := exists_peerRun (demo 4 1) demoMempool
    (fun nodes _ => decide (∀ q ∈ (demo 4 1).committee.authorities,
      (nodes q).replica.mempool.full demoMempool = false))
    [0, 1, 2, 3] fetchingSchedule
    (fun nodes => decide (AllSeparated (demo 4 1) nodes ∧
      (∀ q ∈ (demo 4 1).committee.authorities, ∑ a ∈ (demo 4 1).committee.authorities,
        ((nodes a).sentTo q).countP Packet.isMempool =
          (nodes q).received.countP Packet.isMempool) ∧
      (nodes 1).replica.mempool.sync.interChan = [] ∧
      (nodes 1).replica.mempool.sync.waiting = [] ∧
      (∀ w ∈ (nodes 1).replica.mempool.sync.waiters, w.left = [] ∧ w.returned = true) ∧
      .sync ⟨[peerDigest 0], 0, 0, (demo 4 1).hash (peerBlock 0)⟩ ∈
        (nodes 1).replica.hist.out))
    (by decide) (by decide +kernel)
  obtain ⟨hsep, hcounts, hinter, hwaiting, hdone, hreq⟩ := of_decide_eq_true hs
  have hroomy : (replicas (demo 4 1) demoMempool PutSucceeds).RunUnder
      (Roomy (demo 4 1) demoMempool) s := by
    refine hr.mono fun {t _} _ _ hok q hq _ _ => ?_
    have hroom : ∀ q ∈ (demo 4 1).committee.authorities,
        (t.nodes q).replica.mempool.full demoMempool = false := of_decide_eq_true hok
    exact hroom q hq
  have hquiet : PeerNet.MempoolsQuiet (demo 4 1) s :=
    fun a ha msg => hr.reachable.notMem_inbox (hcounts a ha) rfl
  have hfetched := fetched_at_rest rfl (fun _ _ => rfl) hroomy hsep hquiet (q := 1) (by decide)
    (.of_returned hinter hwaiting hdone)
  exact ⟨s, _, hr.reachable, hreq, rfl, hfetched.2.1 _ hreq⟩

end SMVBA
