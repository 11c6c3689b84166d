import SMVBA.Mempool.Availability
import SMVBA.Network.Exec
import SMVBA.Wire.Receive

/-!
# Frames that end the process

The handlers of the consensus never panic on a message with a block: the one `panic` in
`processLeader` is not reached, since an instance locks only once it has a block hash
(`handle_ne_panic`). All other panics come from what the codec and `Verify` let through, and
`frame_harmless_iff` says exactly which frames a reached node survives: those of a registered type
whose message has its author in the committee and the block that its handler reads.
-/

namespace SMVBA

variable {S : Setup} {env : Env} {i : Input} {x0 x y : Hist} {c : Core}

/-! ## The handlers of the consensus -/

/-- An instance that is locked has a block hash. -/
def Core.LocksHashed (c : Core) : Prop :=
  ∀ s, (c.spbInstances s).lockFlag = true → (c.spbInstances s).blockHash ≠ none

theorem Core.LocksHashed.rule (h : Rule S env i x0 x y) (hx : x.core.LocksHashed) :
    y.core.LocksHashed := by
  intro s hl
  cases h.spbChange s with
  | same heq =>
    rw [heq] at hl ⊢
    exact hx s hl
  | accept p _ _ _ _ _ heq => simp [heq]
  | keepTwo p _ _ _ hb heq | keepVote v _ _ hb heq =>
    rw [heq] at hl
    exact absurd hb (hx s hl)
  | lock p d _ _ _ hb heq => simp [heq, hb]
  | count v d _ _ hb heq => simp [heq, hb]

theorem processLeader_ne_panic (hl : c.LocksHashed) (v : View) :
    (c.processLeader v).err ≠ some .panic := by
  unfold Core.processLeader
  split_ifs with hready
  · dsimp only
    split
    · simp
    · split_ifs with hlock
      · split
        case h_1 hnone => exact absurd hnone (hl _ hlock)
        case h_2 => simp
      · simp
  · simp [Outcome.ret]

theorem invokeDoneAndShare_err (S : Setup) (c : Core) (v : View) :
    (c.invokeDoneAndShare S v).err = none := by
  unfold Core.invokeDoneAndShare
  split_ifs <;> rfl

theorem addFinishVote_ne_panic (a : Aggreator) (f : Finish) :
    (a.addFinishVote S f).2 ≠ .error .panic := by
  unfold Aggreator.addFinishVote FinishAggreator.append
  split_ifs <;> simp

theorem addDoneVote_ne_panic (a : Aggreator) (d : Done) :
    (a.addDoneVote S d).2 ≠ .error .panic := by
  unfold Aggreator.addDoneVote DoneAggreator.append
  split_ifs <;> simp

theorem addPreVote_ne_panic (a : Aggreator) (v : Prevote) :
    (a.addPreVote S v).2 ≠ .error .panic := by
  unfold Aggreator.addPreVote PreVoteAggreator.append
  dsimp only
  split_ifs <;> simp

theorem addFinVote_ne_panic (a : Aggreator) (v : FinVote) :
    (a.addFinVote S v).2 ≠ .error .panic := by
  unfold Aggreator.addFinVote FinVoteAggreator.append
  split_ifs <;> simp

/-- The coin is long enough for the bytes that are read of it. -/
theorem addShareVote_ne_panic (hcoin : LongCoins S) (e : Elector) (s : ElectShare) :
    (e.addShareVote S s).2 ≠ .error .panic := by
  have happend : ((e.electAggreators s.view).append S s).2 ≠ .error .panic := by
    unfold ElectAggreator.append
    dsimp only
    split_ifs with hauthor hlen
    · simp
    · cases hc : S.combineIntactTSPartial ((e.electAggreators s.view).shares ++ [s.sigShare])
          (S.electHash s.view) with
      | none => simp
      | some coin => simp [coinLeader, hcoin _ _ _ hc]
    · simp
  unfold Elector.addShareVote
  dsimp only
  split
  case h_1 hr => exact absurd hr happend
  case h_2 => simp
  case h_3 => split_ifs <;> simp

theorem bind_ne_panic {o : Outcome} {f : Core → Outcome} (ho : o.err ≠ some .panic)
    (hf : ∀ c, (f c).err ≠ some .panic) : (o.bind f).err ≠ some .panic := by
  unfold Outcome.bind
  split
  · exact ho
  · exact hf o.core

theorem handleSpbProposal_ne_panic (p : SPBProposal) :
    (c.handleSpbProposal S env p).err ≠ some .panic := by
  refine bind_ne_panic (by simp [(lateCommit_store S env c p).2.2]) fun c => ?_
  unfold Core.acceptProposal
  dsimp only
  split_ifs <;> simp [Outcome.ret]

theorem handleFinish_ne_panic (f : Finish) : (c.handleFinish S f).err ≠ some .panic := by
  have hadd := addFinishVote_ne_panic (S := S) c.aggreator f
  unfold Core.handleFinish
  split_ifs
  · simp [Outcome.ret]
  · split
    case h_1 a e heq =>
      rw [heq] at hadd
      simpa using hadd
    case h_2 a flag heq =>
      dsimp only
      split_ifs
      · simp [invokeDoneAndShare_err]
      · simp [Outcome.ret]

theorem handleDone_ne_panic (hl : c.LocksHashed) (d : Done) :
    (c.handleDone S d).err ≠ some .panic := by
  have hadd := addDoneVote_ne_panic (S := S) c.aggreator d
  unfold Core.handleDone
  split_ifs
  · simp [Outcome.ret]
  · split
    case h_1 a e heq =>
      rw [heq] at hadd
      simpa using hadd
    case h_2 a heq => simp [invokeDoneAndShare_err]
    case h_3 a heq =>
      refine processLeader_ne_panic ?_ d.view
      exact hl
    case h_4 a heq => simp [Outcome.ret]

theorem handleElectShare_ne_panic (hcoin : LongCoins S) (hl : c.LocksHashed) (s : ElectShare) :
    (c.handleElectShare S s).err ≠ some .panic := by
  have hadd := addShareVote_ne_panic hcoin c.elector s
  unfold Core.handleElectShare
  split_ifs
  · simp [Outcome.ret]
  · split
    case h_1 e err heq =>
      rw [heq] at hadd
      simpa using hadd
    case h_2 e leader heq =>
      dsimp only
      split_ifs
      · refine processLeader_ne_panic ?_ s.view
        exact hl
      · simp [Outcome.ret]

theorem handlePrevote_ne_panic (v : Prevote) : (c.handlePrevote S v).err ≠ some .panic := by
  have hadd := addPreVote_ne_panic (S := S) c.aggreator v
  unfold Core.handlePrevote
  split_ifs
  · simp [Outcome.ret]
  · split
    case h_1 a e heq =>
      rw [heq] at hadd
      simpa using hadd
    all_goals simp [Outcome.ret]

theorem handleFinvote_ne_panic (v : FinVote) : (c.handleFinvote S env v).err ≠ some .panic := by
  have hadd := addFinVote_ne_panic (S := S) c.aggreator v
  have hnext : ∀ (c : Core) flag d, (c.advanceNextRound S env v.view flag d).err ≠ some .panic := by
    intro c flag d
    obtain ⟨outs, e, -, he, heq⟩ := advanceNextRound_spec S env c v.view flag d
    rw [heq]
    exact he
  unfold Core.handleFinvote
  split_ifs
  · simp [Outcome.ret]
  · split
    case h_1 a e heq =>
      rw [heq] at hadd
      simpa using hadd
    case h_2 a heq | h_3 a heq => exact hnext _ _ _
    all_goals simp [Outcome.ret]

theorem handleHalt_ne_panic (h : Halt) : (c.handleHalt S env h).err ≠ some .panic := by
  unfold Core.handleHalt
  split_ifs
  · simp [Outcome.ret]
  · simp [Outcome.ret]
  · refine bind_ne_panic ?_ fun c => ?_
    · obtain ⟨k, outs, -, heq⟩ | ⟨-, -, heq⟩ := handleOutput_cases S env
        { c with elector := c.elector.setLeader h.view h.leader } h.blockHash <;> simp [heq]
    · unfold Core.advanceNextEpoch
      split_ifs <;> simp [Outcome.ret]

/-- On a message that has its block, no handler panics. -/
theorem handle_ne_panic (hcoin : LongCoins S) (hl : c.LocksHashed) (m : Message) :
    (c.handle S env m).err ≠ some .panic := by
  cases m with
  | spbProposal p => exact handleSpbProposal_ne_panic p
  | spbVote v =>
    unfold Core.handle Core.handleSpbVote
    dsimp only
    split_ifs <;> simp [Outcome.ret]
  | finish f => exact handleFinish_ne_panic f
  | done d => exact handleDone_ne_panic hl d
  | electShare s => exact handleElectShare_ne_panic hcoin hl s
  | prevote v => exact handlePrevote_ne_panic v
  | finVote v => exact handleFinvote_ne_panic v
  | halt h => exact handleHalt_ne_panic h

/-! ## The states of a node -/

/-- The states that a node can reach in any surroundings: any messages for its core and its mempool,
in any order, among any steps of its synchronizer. -/
inductive Reached (S : Setup) (M : MempoolSetup) (name : NodeID) : Replica → Prop
  | init : Reached S M name (.init name)
  | step {r r' : Replica} {w : Surroundings} {i : ReplicaInput} {outs : List Output}
      {sends : List MempoolSend} (hr : Reached S M name r)
      (h : r.step S M w i = some (r', outs, sends)) : Reached S M name r'

theorem Reached.locksHashed {M : MempoolSetup} {name : NodeID} {r : Replica}
    (hr : Reached S M name r) :
    r.hist.core.LocksHashed := by
  induction hr with
  | init => simp [Replica.init, Hist.init, Core.LocksHashed]
  | step hr h ih =>
    exact Replica.step_invariant (I := fun z => z.core.LocksHashed) (fun hrule hz => hz.rule hrule)
      (fun _ hz => hz) h ih

namespace Wire

variable {M : MempoolSetup} {K : Keys}

/-! ## The two ports -/

/-- A handler of the core has not panicked. -/
def Survives (o : Outcome) : Prop := o.err ≠ some .panic

instance (o : Outcome) : Decidable (Survives o) := inferInstanceAs (Decidable (_ ≠ _))

/-- A handler of the mempool has not panicked. -/
def MempoolSurvives (o : MempoolOutcome) : Prop := o.err ≠ some .panic

instance (o : MempoolOutcome) : Decidable (MempoolSurvives o) := inferInstanceAs (Decidable (_ ≠ _))

/-- What a message of the consensus must be for `Verify` and the handler to survive it: its author
is in the committee, and if it is a phase-one proposal without a block, it does not get as far as
the block, because its signature is wrong, or its epoch is over and its author is not the leader
that the node has for a halted epoch. Nothing is asked of a share. -/
def Message.Harmless (S : Setup) (K : Keys) (c : Core) : Message → Prop
  | .electShare .. => True
  | .spbProposal author none epoch round phase signature =>
    author ∈ S.committee.authorities ∧ (phase = 0 →
      K.ed25519 (K.publicKey author)
      ((Message.spbProposal author none epoch round phase signature).hash S)
          signature = false ∨
        (epoch < c.epoch ∧ ¬ (c.haltFlags epoch = true ∧ c.elector.leader ⟨epoch, round⟩ = author)))
  | m => m.author ∈ S.committee.authorities

/-- What a message of the mempool must be: it has its block, unless it is one for the own mempool
and the queue is full, and the proposer of another node's block is in the committee, unless the
queue is full. -/
def MempoolMessage.Harmless (S : Setup) (M : MempoolSetup) (m : Mempool) : MempoolMessage → Prop
  | .msg (.ownBlock none) => m.full M = true
  | .msg (.otherBlock none) => False
  | .msg (.otherBlock (some b)) => m.full M = true ∨ b.proposer ∈ S.committee.authorities
  | _ => True

/-- A signed message comes through `Verify` without a panic when its author is in the committee, and
to its handler when the signature is right. -/
theorem safe_runMessage_signed {P : Outcome → Prop} {m : Message} (hm : m.msgType ≠ .electShare) :
    (runMessage S K env c m).Safe P ↔ m.author ∈ S.committee.authorities ∧
      (K.ed25519 (K.publicKey m.author) (m.hash S) m.signature = true → P (handle S env c m)) := by
  have hverify : m.verify S K = K.verify m.signature (K.name S.committee m.author) (m.hash S) := by
    cases m with
    | electShare => exact absurd rfl hm
    | _ => rfl
  unfold runMessage
  rw [hverify, Received.safe_bind]
  unfold Keys.verify
  by_cases hauthor : m.author ∈ S.committee.authorities
  · have hname : K.name S.committee m.author = K.publicKey m.author := if_pos hauthor
    rw [if_pos ((K.length_name S.committee m.author).mpr hauthor), hname]
    by_cases hvalid : K.ed25519 (K.publicKey m.author) (m.hash S) m.signature = true
    · simp [Received.Safe, hvalid, hauthor]
    · simp [Received.Safe, hvalid, hauthor]
  · rw [if_neg fun h => hauthor ((K.length_name S.committee m.author).mp h)]
    simp [Received.Safe, hauthor]

/-- The handler of a proposal without a block panics where it reads the block. -/
theorem handle_nil_ne_panic (author : NodeID) (epoch round : ℤ) (phase : Int8)
    (signature : Signature) :
    (handle S env c (.spbProposal author none epoch round phase signature)).err ≠ some .panic ↔
      (phase = 0 → epoch < c.epoch ∧
        ¬ (c.haltFlags epoch = true ∧ c.elector.leader ⟨epoch, round⟩ = author)) := by
  by_cases hphase : phase = 0
  · subst hphase
    unfold handle Core.messgaeFilter
    dsimp only
    rw [if_pos rfl]
    split_ifs with hlate hfilter
    · simp [hlate]
    · simp_all [Outcome.ret]
    · simp_all
  · refine iff_of_true ?_ fun h => absurd h hphase
    unfold handle
    dsimp only
    rw [if_neg hphase]
    exact handleSpbProposal_ne_panic _

/-- Every other message has its handler to itself. -/
theorem handle_model {m : Message}
    (hm : ∀ author epoch round signature, m ≠ .spbProposal author none epoch round 0 signature) :
    handle S env c m = c.handle S env m.model := by
  unfold handle
  split
  case h_1 author epoch round phase signature =>
    exact if_neg fun hphase => hm author epoch round signature (by rw [hphase])
  case h_2 => rfl

theorem safe_runMessage (hcoin : LongCoins S) (hl : c.LocksHashed) (m : Message) :
    (runMessage S K env c m).Safe Survives ↔ m.Harmless S K c := by
  -- Only a phase-one proposal without a block makes its handler read a nil pointer.
  have hmodel : (∀ author epoch round signature,
      m ≠ .spbProposal author none epoch round 0 signature) →
      (handle S env c m).err ≠ some .panic := by
    intro hm
    rw [handle_model hm]
    exact handle_ne_panic hcoin hl _
  cases m with
  | electShare author epoch round sigShare => exact iff_of_true (hmodel (by simp)) trivial
  | spbProposal author b epoch round phase signature =>
    rw [safe_runMessage_signed (by simp [Message.msgType])]
    cases b with
    | none =>
      refine and_congr_right fun _ => ?_
      refine (imp_congr_right fun _ =>
        handle_nil_ne_panic author epoch round phase signature).trans ?_
      constructor
      · intro h hphase
        cases hvalid : K.ed25519 (K.publicKey author)
            ((Message.spbProposal author none epoch round phase signature).hash S) signature with
        | false => exact .inl rfl
        | true => exact .inr (h hvalid hphase)
      · intro h hvalid hphase
        rcases h hphase with hwrong | hdropped
        · exact absurd (hvalid.symm.trans hwrong) (by simp)
        · exact hdropped
    | some b => exact and_iff_left fun _ => hmodel (by simp)
  | spbVote | finish | done | prevote | finVote | halt =>
    rw [safe_runMessage_signed (by simp [Message.msgType])]
    exact and_iff_left fun _ => hmodel (by simp)

theorem getBlock_error {m : Mempool} {d : Digest} {e : MempoolErr} (h : m.getBlock S d = .error e) :
    e = .get := by
  unfold Mempool.getBlock at h
  split at h
  · cases h
  · split at h <;> cases h
    rfl

theorem serve_ne_panic (m : Mempool) (author : NodeID) (ds : List Digest) :
    (m.serve S author ds).2 ≠ some .panic := by
  induction ds with
  | nil => simp [Mempool.serve]
  | cons d rest ih =>
    unfold Mempool.serve
    cases hb : m.getBlock S d with
    | error e => simp [getBlock_error hb]
    | ok b => exact ih

theorem storeBlock_ne_panic (putOk : Bool) (m : Mempool) (b : Block) :
    (m.storeBlock S putOk b).err ≠ some .panic := by
  unfold Mempool.storeBlock
  dsimp only
  split_ifs <;> simp

theorem payloadProcess_ne_panic (putOk : Bool) (m : Mempool) (b : Block) :
    (m.payloadProcess S M putOk b).err ≠ some .panic := by
  have hstore := storeBlock_ne_panic (S := S) putOk m b
  unfold Mempool.payloadProcess
  split_ifs
  · simp
  · split
    case h_1 heq =>
      rw [heq] at hstore
      exact hstore
    case h_2 => simp

theorem enqueue_err (d : Digest) (o : MempoolOutcome) : (Mempool.enqueue d o).err = o.err := by
  unfold Mempool.enqueue
  split
  · rfl
  · rfl

theorem handleOthorBlock_ne_panic (putOk : Bool) (m : Mempool) (b : Block) :
    (m.handleOthorBlock S M putOk (some b)).err ≠ some .panic := by
  unfold Mempool.handleOthorBlock
  dsimp only
  split_ifs
  · simp
  · simp
  · split
    · simp
    · rw [enqueue_err]
      exact storeBlock_ne_panic putOk m b

theorem safe_runMempoolMessage (putOk : Bool) (m : Mempool) (msg : MempoolMessage) :
    (runMempoolMessage S M K putOk m msg).Safe MempoolSurvives ↔ msg.Harmless S M m := by
  cases msg with
  | msg msg =>
    cases msg with
    | ownBlock b =>
      cases b with
      | none =>
        by_cases hfull : m.full M = true <;>
          simp [runMempoolMessage, Mempool.handle, Mempool.handleOwnBlock, Received.Safe,
            MempoolSurvives, MempoolMessage.Harmless, hfull]
      | some b =>
        refine iff_of_true ?_ trivial
        simp only [runMempoolMessage, Mempool.handle, Mempool.handleOwnBlock, Received.Safe,
          MempoolSurvives]
        split_ifs
        · simp
        · rw [enqueue_err]
          exact payloadProcess_ne_panic putOk m b
    | otherBlock b =>
      cases b with
      | none => exact iff_of_false id id
      | some b =>
        simp only [runMempoolMessage, handleOthorBlock, MempoolMessage.Harmless,
          ne_eq, K.length_name]
        split_ifs with hbad
        · exact iff_of_false id (by simp [hbad])
        · -- The block is verified only if there is room for it.
          refine iff_of_true (handleOthorBlock_ne_panic putOk m b) ?_
          by_cases hfull : m.full M = true
          · exact .inl hfull
          · exact .inr (by_contra fun h => hbad ⟨Bool.eq_false_iff.mpr hfull, h⟩)
    | requestBlock digests author => exact iff_of_true (serve_ne_panic m author digests) trivial
  | _ => exact iff_of_true trivial trivial

/-- In every state that a node can reach, a frame on one of its two ports is processed or rejected
without a panic exactly when its type is registered there and its message, if it decodes, is
harmless. -/
theorem frame_harmless_iff (hcoin : LongCoins S) {name : NodeID} {r : Replica}
    (hr : Reached S M name r) (decode : MsgType → List UInt8 → Option Message)
    (decodeMempool : MempoolType → List UInt8 → Option MempoolMessage) (env : Env) (putOk : Bool)
    (f : Frame) :
    ((receiveConsensus S K env decode r.hist.core f).Safe Survives ↔
      f.Fits ⟨consensusTypes, decode⟩ (Message.Harmless S K r.hist.core)) ∧
    ((receiveMempool S M K putOk decodeMempool r.mempool f).Safe MempoolSurvives ↔
      f.Fits ⟨mempoolTypes, decodeMempool⟩ (MempoolMessage.Harmless S M r.mempool)) := by
  constructor
  · unfold receiveConsensus
    rw [Received.safe_bind, Codec.safe_read]
    simp only [safe_runMessage hcoin hr.locksHashed]
  · unfold receiveMempool
    rw [Received.safe_bind, Codec.safe_read]
    -- What is not of the mempool's module is dropped, and nothing is asked of it.
    have hmsg : ∀ msg : MempoolMessage, (if msg.module = .mempool then
        runMempoolMessage S M K putOk r.mempool msg else .rejected).Safe MempoolSurvives ↔
          msg.Harmless S M r.mempool := by
      intro msg
      by_cases hmodule : msg.module = .mempool
      · rw [if_pos hmodule]
        exact safe_runMempoolMessage putOk r.mempool msg
      · rw [if_neg hmodule]
        cases msg with
        | msg msg => exact absurd rfl hmodule
        | _ => exact iff_of_true trivial trivial
    simp only [hmsg]

/-! ## Frames to a node that has just started -/

/-- Keys of the right length, and signatures that all verify. -/
def demoKeys : Keys where
  publicKey _ := List.replicate 32 0
  ed25519 _ _ _ := true
  length_publicKey _ := List.length_replicate

theorem demo_longCoins (n : ℕ) (leader : UInt8) : LongCoins (demo n leader) := by
  intro shares d coin h
  cases h
  exact le_rfl

/-- What holds of a node after its start, when that is replayed, holds of a state that is reached.
-/
theorem exists_started (P : Replica → Bool)
    (h : (((Replica.init 0).step (demo 4 0) demoMempool demoSurroundings (.consensus .start)).any
      fun z => P z.1) = true) : ∃ r, Reached (demo 4 0) demoMempool 0 r ∧ P r = true := by
  rw [Option.any_eq_true] at h
  obtain ⟨⟨r, outs, sends⟩, hstep, hP⟩ := h
  exact ⟨r, .step .init hstep, hP⟩

/-- A `Done` of a member of the committee is survived, and so is another node's block. -/
theorem frame_harmless_started :
    ∃ r, Reached (demo 4 0) demoMempool 0 r ∧ r.hist.status = .running ∧
    (receiveConsensus (demo 4 0) demoKeys (fullEnv 0) (fun _ _ => some (.done 1 0 0 [])) r.hist.core
      ⟨some 3, []⟩).Safe Survives ∧
    (receiveMempool (demo 4 0) demoMempool demoKeys true
      (fun _ _ => some (.msg (.otherBlock (some ⟨1, ⟨0, [[1]]⟩, []⟩))))
      r.mempool ⟨some 13, []⟩).Safe
        MempoolSurvives := by
  obtain ⟨r, hr, hrun⟩ := exists_started (fun r => decide (r.hist.status = .running))
    (by decide +kernel)
  refine ⟨r, hr, of_decide_eq_true hrun, ?_, ?_⟩
  · refine (frame_harmless_iff (demo_longCoins 4 0) hr (fun _ _ => some (.done 1 0 0 []))
      (fun _ _ => none) (fullEnv 0) true ⟨some 3, []⟩).1.mpr ?_
    rintro id ⟨⟩
    refine ⟨.done, rfl, ?_⟩
    rintro m ⟨⟩
    have hmem : (1 : NodeID) ∈ (demo 4 0).committee.authorities := by decide
    exact hmem
  · refine (frame_harmless_iff (demo_longCoins 4 0) hr (fun _ _ => none)
      (fun _ _ => some (.msg (.otherBlock (some ⟨1, ⟨0, [[1]]⟩, []⟩)))) (fullEnv 0) true
      ⟨some 13, []⟩).2.mpr ?_
    rintro id ⟨⟩
    refine ⟨.otherBlock, rfl, ?_⟩
    rintro m ⟨⟩
    exact .inr (by decide)

/-- Type ids and what the frame decodes to: an id that is not registered, a `Done` of an author
outside the committee, and a phase-one proposal without a block. -/
def consensusCrashes : List (ℤ × Option Message) :=
  [(8, none), (3, some (.done 7 0 0 [])), (0, some (.spbProposal 1 none 0 0 0 []))]

/-- The same for the mempool: an id that is not registered, blocks that are nil, and a block whose
proposer is outside the committee. -/
def mempoolCrashes : List (ℤ × Option MempoolMessage) :=
  [(0, none), (12, some (.msg (.ownBlock none))), (13, some (.msg (.otherBlock none))),
    (13, some (.msg (.otherBlock (some ⟨7, ⟨0, [[1]]⟩, []⟩))))]

/-- Each of these frames ends the process of a node that has just started. -/
theorem frames_crash : ∃ r, Reached (demo 4 0) demoMempool 0 r ∧ r.hist.status = .running ∧
    (∀ f ∈ consensusCrashes,
      ¬ (receiveConsensus (demo 4 0) demoKeys (fullEnv 0)
        (fun _ _ => f.2) r.hist.core ⟨some f.1, []⟩).Safe
        Survives) ∧
    ∀ f ∈ mempoolCrashes,
      ¬ (receiveMempool (demo 4 0) demoMempool demoKeys true (fun _ _ => f.2) r.mempool
        ⟨some f.1, []⟩).Safe MempoolSurvives := by
  obtain ⟨r, hr, hcrash⟩ := exists_started (fun r => decide (r.hist.status = .running ∧
    (∀ f ∈ consensusCrashes,
      ¬ (receiveConsensus (demo 4 0) demoKeys (fullEnv 0)
        (fun _ _ => f.2) r.hist.core ⟨some f.1, []⟩).Safe
        Survives) ∧
    ∀ f ∈ mempoolCrashes,
      ¬ (receiveMempool (demo 4 0) demoMempool demoKeys true (fun _ _ => f.2) r.mempool
        ⟨some f.1, []⟩).Safe MempoolSurvives)) (by decide +kernel)
  exact ⟨r, hr, of_decide_eq_true hcrash⟩

end Wire

end SMVBA
