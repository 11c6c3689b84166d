import SMVBA.Mempool.Payloads
import SMVBA.Network.Replicas

/-!
# Payloads that are committed again

A payload is sent to every node, and every node queues it. The node that proposes it takes it out of
its own queue, and nothing takes it out of the queues of the others when the proposal is decided:
`HandleCleanBlock` would, but nothing sends its message. So another node proposes the payload in a
later epoch, and it is committed again.

What is committed and lists a payload was created by some node, since a node only stores, proposes
and commits blocks that were created, and what `getConsensusBlock` makes of a mempool block, which
lists nothing (`Sourced`). The committor sends one block for each epoch, in order
(`CommitsOrdered`). And a created block lists no payload twice (`PayloadStep.nodup`). So a payload
that only one created block lists is committed once (`payload_committed_once`).
-/

namespace SMVBA

open MessagePassing

variable {S : Setup} {M : MempoolSetup} {ok : Surroundings → Prop} {env : Env} {i : Input}
  {x0 x y : Hist} {T T' : ConsensusBlock → Prop} {s : PeerNet}

/-! ## The blocks of a node -/

/-- Every block that a node stores, proposes or commits satisfies `T`. -/
structure Sourced (T : ConsensusBlock → Prop) (x : Hist) : Prop where
  store : ∀ d b, x.core.store d = some b → T b
  ones : ∀ d p, .spbProposal p ∈ x.sentTo d → p.phase = .one → T p.b
  committed : Committed T x

theorem Sourced.mono (hT : ∀ b, T b → T' b) (hx : Sourced T x) : Sourced T' x where
  store d b hb := hT b (hx.store d b hb)
  ones d p hm hp := hT p.b (hx.ones d p hm hp)
  committed := ⟨fun e b hb => hT b (hx.committed.waiting e b hb),
    fun b hb => hT b (hx.committed.sent b hb)⟩

/-- A block that is looked up is one of the store, or lists no payload. -/
theorem Sourced.decoded (hempty : ∀ b : ConsensusBlock, b.payLoads = [] → T b) (hx : Sourced T x)
    {d : Digest} {b : ConsensusBlock} (hb : x.core.decoded env d = some b) : T b := by
  rcases Core.decoded_cases hb with hstored | ⟨-, q, -, rfl⟩
  · exact hx.store d b hstored
  · exact hempty _ rfl

/-- New blocks are those that a rule creates, that of the proposal in hand, and those that list no
payload. -/
theorem Sourced.rule (h : Rule S env i x0 x y)
    (hempty : ∀ b : ConsensusBlock, b.payLoads = [] → T b) (hcreated : ∀ b ∈ y.created, T b)
    (htaken : ∀ p, i = .msg (.spbProposal p) → p.phase = .one → T p.b) (hx : Sourced T x) :
    Sourced T y where
  store d b hb := by
    rcases h.store_eq with heq | ⟨p, hi, hone, -, heq⟩
    · rw [heq] at hb
      exact hx.store d b hb
    · rw [heq] at hb
      by_cases hd : d = S.hash p.b
      · subst hd
        rw [Function.update_self] at hb
        cases hb
        exact htaken p hi hone
      · rw [Function.update_of_ne hd] at hb
        exact hx.store d b hb
  ones d p hm hp := by
    rcases h.sent_cases hm with hm | ⟨new, hnew, hm⟩
    · exact hx.ones d p hm hp
    · -- A proposal of the first phase carries a block that was looked up or a new one.
      rcases hnew.spbProposal hm with ⟨htwo, -⟩ | ⟨-, ⟨dg, hb⟩ | hcreate⟩
      · exact absurd (hp.symm.trans htwo) (by simp)
      · exact hx.decoded hempty hb
      · exact hcreated p.b (List.mem_filterMap.mpr ⟨_, hcreate, rfl⟩)
  committed := by
    refine Committed.rule h (fun _ => id) (fun p ho hx0 hl => ?_)
      (fun ht b hi hx0 ha hb hm hd => ?_)
      hx.committed
    · cases ho with
      | message hi hh =>
        have hone : p.phase = .one := by
          simp only [Core.commitsLate, decide_eq_true_eq] at hl
          exact hl.1
        exact htaken p hi hone
      | loopBack d hi hs hp => exact hx.decoded hempty hs
    · exact hx.decoded hempty hb

/-- The same of a step of a whole replica, whose mempool writes to the store of the core as well. -/
theorem Sourced.step {w : Surroundings} {r r' : Replica} {j : ReplicaInput} {outs : List Output}
    {sends : List MempoolSend} (h : r.step S M w j = some (r', outs, sends))
    (hempty : ∀ b : ConsensusBlock, b.payLoads = [] → T b) (hcreated : ∀ b ∈ r'.hist.created, T b)
    (htaken : ∀ p, j = .consensus (.msg (.spbProposal p)) → p.phase = .one → T p.b)
    (hr : Sourced T r.hist) : Sourced T r'.hist := by
  have hstore : ∀ d b, r'.hist.core.store d = some b → T b := by
    intro d b hb
    rcases Replica.step_store h hb with hold | ⟨k, rfl, hput⟩
    · exact hr.store d b hold
    · -- The core has written the block of the phase-one proposal that it takes.
      unfold Core.put? at hput
      split at hput
      case h_1 p =>
        split_ifs at hput with hcond
        cases hput
        exact htaken p rfl hcond.1
      case h_2 => cases hput
  rcases Replica.step_hist h with ⟨k, z, rfl, hcore, hhist⟩ | ⟨-, -, hhist⟩
  · have hz : Sourced T z := by
      refine step_invariant_before (B := fun z => ∀ b ∈ z.created, T b) (I := Sourced T)
        (fun hrule hB b hb => hB b (hrule.mem_created hb))
        (fun hrule hB hz => hz.rule hrule hempty hB fun p hp => htaken p (congrArg _ hp))
        hcore ?_ hr
      intro b hb
      refine hcreated b ?_
      rw [hhist]
      exact hb
    rw [hhist] at hstore ⊢
    exact ⟨hstore, hz.ones, hz.committed.waiting, hz.committed.sent⟩
  · rw [hhist] at hstore ⊢
    exact ⟨hstore, hr.ones, hr.committed.waiting, hr.committed.sent⟩

/-! ## The order of the commits -/

/-- The commits of a node are sorted by epoch, and all of epochs before the committor's index. -/
structure CommitsOrdered (x : Hist) : Prop where
  keyed : x.core.commitor.Keyed
  below : ∀ b ∈ x.commits, b.epoch < x.core.commitor.index
  sorted : x.commits.Pairwise fun b b' => b.epoch < b'.epoch

theorem CommitsOrdered.init (name : NodeID) : CommitsOrdered (Hist.init name) where
  keyed := by
    intro e b hb
    cases hb
  below := by
    intro b hb
    cases hb
  sorted := List.Pairwise.nil

theorem CommitsOrdered.rule (h : Rule S env i x0 x y) (hx : CommitsOrdered x) :
    CommitsOrdered y := by
  -- One call of `Commit`.
  have hcommit : ∀ {b : ConsensusBlock}, y.core.commitor = (x.core.commitor.commit b).1 →
      y.commits = x.commits ++ (x.core.commitor.commit b).2 → CommitsOrdered y := by
    intro b hk hc
    obtain ⟨hkeyed, hindex, hout, hsorted⟩ := x.core.commitor.commit_order b hx.keyed
    refine ⟨hk ▸ hkeyed, fun b' hb' => ?_, ?_⟩
    · rw [hk]
      rw [hc] at hb'
      rcases List.mem_append.mp hb' with hold | hnew
      · exact (hx.below b' hold).trans_le hindex
      · exact (hout b' hnew).2
    · rw [hc, List.pairwise_append]
      exact ⟨hx.sorted, hsorted, fun b₁ hb₁ b₂ hb₂ => (hx.below b₁ hb₁).trans_le (hout b₂ hb₂).1⟩
  cases h.commitChange with
  | same hk hc =>
    refine ⟨hk ▸ hx.keyed, ?_, hc ▸ hx.sorted⟩
    rw [hk, hc]
    exact hx.below
  | late p ho hx0 hl hk hc => exact hcommit hk hc
  | halt ht b hi hx0 ha hb hm hd hk hc => exact hcommit hk hc

/-! ## The payloads of a created block -/

section Replicas

variable {w : Surroundings} {r r' : Replica} {i : ReplicaInput} {outs : List Output}
  {sends : List MempoolSend}

/-- A created block lists no payload twice: the order in which Go ranges over a map repeats no key.
-/
theorem PayloadStep.nodup (h : PayloadStep S M w r r' i outs sends) {b : ConsensusBlock}
    (hb : .create b ∈ outs) : b.payLoads.Nodup := by
  cases h with
  | own _ _ _ | other _ _ _ _ | idle _ _ _ _ | clean _ _ _ _ _ => cases hb
  | core i outs hnone hw => exact absurd hb (hnone b)
  | create i outs sends made payloads hmake hmade hsome hall hw =>
    rw [hall b hb]
    cases hmade with
    | new m' hempty hq hs => exact List.nodup_singleton _
    | failed m' hs => exact List.nodup_nil
    | queued ds hds => exact hmake.1.sublist hds

end Replicas

/-! ## The network -/

/-- A node of the committee has created the block. -/
def CreatedBy (S : Setup) (nodes : NodeID → Peer) (b : ConsensusBlock) : Prop :=
  ∃ a ∈ S.committee.authorities, b ∈ (nodes a).replica.hist.created

/-- A created block stays on record. -/
theorem CreatedBy.step {s' : PeerNet} (h : (replicas S M ok).Step s s') {b : ConsensusBlock}
    (hb : CreatedBy S s.nodes b) : CreatedBy S s'.nodes b := by
  obtain ⟨a, ha, hmem⟩ := hb
  refine ⟨a, ha, ?_⟩
  refine preserves_of_replica h (I := fun r => b ∈ r.hist.created) (fun hrep hx => ?_) hmem
  rw [Replica.step_created hrep]
  exact List.mem_append_left _ hx

/-- A consensus message that a peer let out is one that its core sent. -/
theorem PeerRun.mem_sentTo (hr : PeerRun S M ok s) (q : NodeID) {d : NodeID} {m : Message}
    (hm : .consensus m ∈ (s.nodes q).sentTo d) : m ∈ (s.nodes q).replica.hist.sentTo d := by
  revert d m hm
  refine hr.local_invariant (I := fun _ p => ∀ {d : NodeID} {m : Message},
    .consensus m ∈ p.sentTo d →
    m ∈ p.replica.hist.sentTo d) (by simp [replicas, Peer.init, Peer.sentTo]) ?_ q
  rintro q x m y out ⟨w, i, new, -, -, -, h, -⟩ hx d m' hm'
  obtain ⟨outs, sends, hrep, rfl, -, hout⟩ := Peer.step_cases h
  rw [Replica.step_sentTo hrep]
  unfold Peer.sentTo at hm'
  rw [Replica.step_name hrep, hout, List.filterMap_append, List.mem_append] at hm'
  rcases hm' with hold | hnew
  · exact List.mem_append_left _ (hx hold)
  · refine List.mem_append_right _ ?_
    rw [← filterMap_consensus _ d outs sends]
    exact List.mem_filterMap.mpr ⟨_, hnew, rfl⟩

/-- The input of a peer whose replica takes a step of its core. -/
theorem Peer.input_eq {p : Peer} {i : PeerInput} {j : Input}
    (h : p.replicaInput S M i = .consensus j) :
    i = .consensus j := by
  cases i with
  | consensus k => simpa [Peer.replicaInput] using h
  | mempool m => cases h
  | batch b => cases h
  | sync e => cases h

/-- Every block that lists a payload and that a node stores, proposes or commits was created by a
node of the committee. -/
theorem PeerRun.sourced (hr : PeerRun S M ok s) : ∀ q,
    Sourced (fun b => b.payLoads ≠ [] → CreatedBy S s.nodes b) (s.nodes q).replica.hist := by
  induction hr with
  | start =>
    intro q
    refine ⟨?_, ?_, ?_, ?_⟩ <;>
      simp [Protocol.start, replicas, Peer.init, Replica.init, Hist.init, Hist.sentTo, Hist.commits]
  | @step s s' hr h ih =>
    intro q
    have hmono : ∀ b : ConsensusBlock, (b.payLoads ≠ [] → CreatedBy S s.nodes b) →
        b.payLoads ≠ [] → CreatedBy S s'.nodes b := fun b hb hne => (hb hne).step h
    obtain ⟨a, ha, m, y, out, ⟨w, i, new, hpacket, -, -, hstep, -⟩, hm, hn⟩ := h.exists_local
    obtain ⟨outs, sends, hrep, -⟩ := Peer.step_cases hstep
    by_cases hq : q = a
    · subst hq
      have hy : s'.nodes q = y := by rw [hn, Function.update_self]
      rw [hy]
      refine ((ih q).mono hmono).step hrep (fun b hnil hne => absurd hnil hne)
        (fun b hb _ => ⟨q, ha, by rwa [hy]⟩) fun p hp hone => ?_
      -- The block of a proposal that is taken was created: whoever sent it had it from there.
      have hpk : m = some (.consensus (.spbProposal p)) := by
        rw [← hpacket, Peer.input_eq hp]
        rfl
      obtain ⟨c, -, hc⟩ := hr.exists_sender' (.inr (hm _ hpk))
      exact hmono _ ((ih c).ones q p (PeerRun.mem_sentTo hr c hc) hone)
    · have hother : s'.nodes q = s.nodes q := by rw [hn, Function.update_of_ne hq]
      rw [hother]
      exact (ih q).mono hmono

theorem PeerRun.commitsOrdered (hr : PeerRun S M ok s) (q : NodeID) :
    CommitsOrdered (s.nodes q).replica.hist := by
  refine hr.replica_invariant (I := fun _ r => CommitsOrdered r.hist) CommitsOrdered.init
    (fun _ hrep hx => ?_) q
  exact Replica.step_invariant (fun hrule hz => hz.rule hrule)
    (fun _ hz => ⟨hz.keyed, hz.below, hz.sorted⟩) hrep hx

theorem PeerRun.nodup_payLoads (hr : PeerRun S M ok s) (q : NodeID) :
    ∀ b ∈ (s.nodes q).replica.hist.created, b.payLoads.Nodup := by
  refine hr.replica_invariant (I := fun _ r => ∀ b ∈ r.hist.created, b.payLoads.Nodup)
    (by simp [Replica.init, Hist.init, Hist.created]) (fun _ hrep hx b hb => ?_) q
  rw [Replica.step_created hrep, List.mem_append, List.mem_filterMap] at hb
  rcases hb with hold | ⟨o, ho, hcreated⟩
  · exact hx b hold
  · cases o with
    | create b' =>
      cases hcreated
      exact (Replica.step_payloads hrep).nodup ho
    | _ => cases hcreated

/-! ## One proposal for each payload -/

/-- A block that lists the digest is created only when no other created block lists it. -/
def ProposedOnce (S : Setup) (d : Digest) (nodes nodes' : NodeID → Peer) : Prop :=
  ∀ q ∈ S.committee.authorities, ∀ b ∈ (nodes' q).replica.hist.created,
    b ∉ (nodes q).replica.hist.created → d ∈ b.payLoads →
      ∀ a ∈ S.committee.authorities, ∀ b' ∈ (nodes' a).replica.hist.created,
      d ∈ b'.payLoads → b' = b

instance (S : Setup) (d : Digest) (nodes nodes' : NodeID → Peer) :
    Decidable (ProposedOnce S d nodes nodes') :=
  inferInstanceAs (Decidable (∀ q ∈ S.committee.authorities,
    ∀ b ∈ (nodes' q).replica.hist.created, _ → _ → ∀ a ∈ S.committee.authorities,
      ∀ b' ∈ (nodes' a).replica.hist.created, _ → _))

/-- Then only one created block lists it. -/
theorem created_unique {d : Digest}
    (hr : (replicas S M ok).RunUnder (fun s s' => ProposedOnce S d s.nodes s'.nodes) s) :
    ∀ b b', CreatedBy S s.nodes b → CreatedBy S s.nodes b' → d ∈ b.payLoads → d ∈ b'.payLoads →
      b = b' := by
  induction hr with
  | start =>
    rintro b b' ⟨a, -, hb⟩
    cases hb
  | @step s s' hr h hok ih =>
    rintro b b' ⟨a, ha, hb⟩ ⟨a', ha', hb'⟩ hd hd'
    by_cases hnew : b ∈ (s.nodes a).replica.hist.created
    · by_cases hnew' : b' ∈ (s.nodes a').replica.hist.created
      · exact ih b b' ⟨a, ha, hnew⟩ ⟨a', ha', hnew'⟩ hd hd'
      · exact hok a' ha' b' hb' hnew' hd' a ha b hb hd
    · exact (hok a ha b hb hnew hd a' ha' b' hb' hd').symm

/-- A list in which every part has an element at most once, and no two parts have it, has it at most
once. -/
theorem count_flatMap_le_one {α β : Type} [DecidableEq β] {f : α → List β} {d : β} {l : List α}
    (hnodup : ∀ a ∈ l, (f a).Nodup) (hpair : l.Pairwise fun a a' => d ∈ f a → d ∉ f a') :
    (l.flatMap f).count d ≤ 1 := by
  induction l with
  | nil => exact Nat.zero_le 1
  | cons a rest ih =>
    rw [List.pairwise_cons] at hpair
    rw [List.flatMap_cons, List.count_append]
    have hfirst : (f a).count d ≤ 1 :=
      List.nodup_iff_count_le_one.mp (hnodup a (List.mem_cons_self ..)) d
    by_cases hd : d ∈ f a
    · have hrest : (rest.flatMap f).count d = 0 := by
        rw [List.count_eq_zero, List.mem_flatMap]
        rintro ⟨a', ha', hd'⟩
        exact hpair.1 a' ha' hd hd'
      omega
    · have hnone : (f a).count d = 0 := List.count_eq_zero.mpr hd
      have hrest := ih (fun a' ha' => hnodup a' (List.mem_cons_of_mem a ha')) hpair.2
      omega

/-- In every run in which a block that lists a payload is created only when no other created block
lists it, no node commits the payload more than once. -/
theorem payload_committed_once {d : Digest}
    (hr : (replicas S M ok).RunUnder (fun s s' => ProposedOnce S d s.nodes s'.nodes) s)
    (q : NodeID) :
    ((s.nodes q).replica.hist.commits.flatMap ConsensusBlock.payLoads).count d ≤ 1 := by
  have hrun := hr.reachable
  have hcreated := (PeerRun.sourced hrun q).committed.sent
  refine count_flatMap_le_one (fun b hb => ?_) ?_
  · by_cases hnil : b.payLoads = []
    · rw [hnil]
      exact List.nodup_nil
    · obtain ⟨a, -, hmem⟩ := hcreated b hb hnil
      exact PeerRun.nodup_payLoads hrun a b hmem
  · -- Two commits are of different epochs, so they are not the one block that lists the payload.
    refine (PeerRun.commitsOrdered hrun q).sorted.imp_of_mem fun {b b'} hb hb' hlt hd hd' => ?_
    have heq : b = b' := created_unique hr b b' (hcreated b hb (List.ne_nil_of_mem hd))
      (hcreated b' hb' (List.ne_nil_of_mem hd')) hd hd'
    rw [heq] at hlt
    exact lt_irrefl _ hlt

/-! ## Two epochs -/

/-- The halt of the first epoch of the demonstration, sent by the first node. -/
def peerHalt : Input := .msg (.halt ⟨0, 0, 0, 1, (demo 4 1).hash (peerBlock 1)⟩)

/-- The first epoch, and the first node halts. It then proposes the payload of the second node, or
that of the third, of which its queue has both. -/
def firstEpoch (next : NodeID) : List (NodeID × Surroundings × PeerInput) :=
  peerRound ++ [corePeer (fun _ => [next, 3 - next]) (0, peerHalt)]

/-- The payload of the second node is in the one block that is committed. -/
theorem payload_committed_once_first : ∃ s : PeerNet,
    (replicas (demo 4 1) demoMempool PutSucceeds).RunUnder
      (fun s s' => ProposedOnce (demo 4 1) (peerDigest 1) s.nodes s'.nodes) s ∧
    (peerPayload 1).batch.txs ≠ [] ∧ (s.nodes 0).replica.hist.commits = [peerBlock 1] ∧
    peerDigest 1 ∈ (peerBlock 1).payLoads ∧
    ((s.nodes 0).replica.hist.commits.flatMap ConsensusBlock.payLoads).count (peerDigest 1) ≤
      1 := by
  obtain ⟨s, hr, hs⟩ := exists_peerRun (demo 4 1) demoMempool
    (fun nodes nodes' => decide (ProposedOnce (demo 4 1) (peerDigest 1) nodes nodes')) [0, 1, 2, 3]
    (firstEpoch 2) (fun nodes => decide ((nodes 0).replica.hist.commits = [peerBlock 1]))
    (by decide) (by decide +kernel)
  have hrun := hr.mono fun _ _ hok => of_decide_eq_true hok
  exact ⟨s, hrun, by decide, of_decide_eq_true hs, by decide, payload_committed_once hrun 0⟩

/-- The setup of the demonstration, with a coin that names the second node in the first view and the
first node in all others. -/
def twoLeaders : Setup :=
  { demo 4 1 with
    combineIntactTSPartial _ d := some [0, 0, if d = (demo 4 1).electHash ⟨0, 0⟩ then 1 else 0] }

/-- The blocks of the second epoch: the first node has the payload of the second, and the others
that of the first. -/
def secondBlock (q : NodeID) : ConsensusBlock := ⟨q, [peerDigest (if q = 0 then 1 else 0)], 1⟩

/-- The payloads that are still queued in the second epoch. -/
def stillQueued (q : NodeID) : List NodeID := if q = 2 then [1] else [2]

/-- The instance of a block of the second epoch, in which all of `qs` vote twice. -/
def secondSpb (qs : List NodeID) (p : NodeID) : List (NodeID × Input) :=
  let hash := (demo 4 1).hash (secondBlock p)
  let one : SPBProposal := ⟨p, secondBlock p, 1, 0, .one⟩
  let two : SPBProposal := ⟨p, ⟨p, [], -1⟩, 1, 0, .two⟩
  let vote (q : NodeID) (h : Digest) (ph : Phase) : List (NodeID × Input) :=
    [(p, .msg (.spbVote ⟨q, p, h, 1, 0, ph⟩)), (p, .task (.processVote ⟨q, p, h, 1, 0, ph⟩))]
  qs.flatMap (fun q => [(q, .msg (.spbProposal one)), (q, .task (.processProposal one))]) ++
    qs.flatMap (fun q => vote q hash .one) ++
    qs.flatMap (fun q => [(q, .msg (.spbProposal two)), (q, .task (.processProposal two))]) ++
    qs.flatMap fun q => vote q 0 .two

/-- A node takes the `Finish` messages of the second epoch. -/
def secondFinishes (qs : List NodeID) (q : NodeID) : List (NodeID × Input) :=
  qs.map fun p => (q, .msg (.finish ⟨p, (demo 4 1).hash (secondBlock p), 1, 0⟩))

/-- A node takes the `Done` messages of the second epoch. -/
def secondDones (qs : List NodeID) (q : NodeID) : List (NodeID × Input) :=
  qs.map fun p => (q, .msg (.done ⟨p, 1, 0⟩))

/-- The first node learns the coin of the second epoch and halts. -/
def secondHalt (qs : List NodeID) : List (NodeID × Input) :=
  qs.map (fun p => (0, .msg (.electShare ⟨p, 1, 0, []⟩))) ++
    [(0, .msg (.halt ⟨0, 1, 0, 0, (demo 4 1).hash (secondBlock 0)⟩))]

/-- Both epochs: all three nodes halt the first, and the first node halts the second. -/
def secondEpoch : List (NodeID × Surroundings × PeerInput) :=
  let qs : List NodeID := [0, 1, 2]
  firstEpoch 1 ++
    [corePeer (fun _ => [0, 2]) (1, peerHalt), corePeer (fun _ => [0, 1]) (2, peerHalt)] ++
    (secondSpb qs 0 ++ secondSpb qs 1 ++ secondSpb qs 2 ++ secondFinishes qs 0 ++
      secondFinishes qs 1 ++
      secondDones [0, 1] 2 ++ secondDones qs 0 ++ secondHalt qs).map (corePeer stillQueued)

/-- The payload of the second node is in its block of the first epoch, and in the block of the first
node of the second epoch. Both are decided, and the first node commits both. -/
theorem payload_committed_twice : ∃ s : PeerNet, PeerRun twoLeaders demoMempool PutSucceeds s ∧
    AllSeparated twoLeaders s.nodes ∧ (peerPayload 1).batch.txs ≠ [] ∧
    (s.nodes 0).replica.hist.commits = [peerBlock 1, secondBlock 0] ∧
    ((s.nodes 0).replica.hist.commits.flatMap ConsensusBlock.payLoads).count
      (twoLeaders.blockHash (peerPayload 1)) = 2 := by
  obtain ⟨s, hr, hs⟩ := exists_peerRun twoLeaders demoMempool (fun _ _ => true)
    [0, 1, 2, 3] secondEpoch
    (fun nodes => decide (AllSeparated twoLeaders nodes ∧
      (nodes 0).replica.hist.commits = [peerBlock 1, secondBlock 0]))
      (by decide) (by decide +kernel)
  obtain ⟨hsep, hcommits⟩ := of_decide_eq_true hs
  refine ⟨s, hr.reachable, hsep, by decide, hcommits, ?_⟩
  rw [hcommits]
  decide +kernel

end SMVBA
