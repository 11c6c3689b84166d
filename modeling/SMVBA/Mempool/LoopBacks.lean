import SMVBA.Mempool.Requests
import SMVBA.Node.LoopBack

/-!
# Blocks that come back

`handleLoopBack` looks a hash from the loopback channel up in the store. The hash comes from
`verifyConsensusBlock`, which has left it to the synchronizer with the payloads that the block
misses. Three of its four callers check a block that is stored, or that they have just stored. The
fourth is the late commit of `handleSpbProposal`, for the block of the leader of a halted epoch: it
checks the block of the message, and if the epoch is past the message is then dropped, with its
block. When the payloads have come, the block that the loopback channel names is not there.

If no such block is left to the synchronizer, then every hash on the loopback channel is that of a
stored block, and `handleLoopBack` does not fail (`loopBack_found`).
-/

namespace SMVBA

variable {S : Setup} {M : MempoolSetup} {w : Surroundings} {r r' : Replica} {name : NodeID}
  {env : Env} {x y : Hist} {i : Input} {outs : List Output}

/-! ## What the synchronizer is asked for -/

/-- A late commit fails for want of payloads, and its message is dropped because the epoch is past.
-/
def Core.DropsLate (env : Env) (c : Core) (p : SPBProposal) : Prop :=
  p.phase = .one ∧ c.haltFlags p.epoch = true ∧ c.elector.leader p.view = p.author ∧
    c.messgaeFilter p.epoch = true ∧ c.missing env p.b ≠ []

instance (env : Env) (c : Core) (p : SPBProposal) : Decidable (c.DropsLate env p) :=
  inferInstanceAs (Decidable (_ ∧ _))

/-- A check asks for the block that it is about, of which payloads are missing. -/
theorem sync_of_verify {c : Core} {b : ConsensusBlock} {req : SyncBlockMsg}
    (h : .sync req ∈ (c.verifyConsensusBlock S env b).2) :
    req.consensusBlockHash = S.hash b ∧ c.missing env b ≠ [] := by
  unfold Core.verifyConsensusBlock at h
  split_ifs at h with hmissing
  · cases h
  · have hreq : req = ⟨c.missing env b, b.proposer, b.epoch, S.hash b⟩ := by simpa using h
    rw [hreq]
    exact ⟨rfl, hmissing⟩

/-- The late commit asks for the block of the proposal, and drops it if the epoch is past. -/
theorem sync_of_lateCommit {c : Core} {p : SPBProposal} {req : SyncBlockMsg}
    (h : .sync req ∈ (c.lateCommit S env p).out) :
    req.consensusBlockHash = S.hash p.b ∧
      (c.messgaeFilter p.epoch = true → c.DropsLate env p) := by
  unfold Core.lateCommit at h
  split_ifs at h with hlate
  · have hcheck : .sync req ∈ (c.verifyConsensusBlock S env p.b).2 := by
      unfold Core.verifyAndCommit at h
      dsimp only at h
      split_ifs at h
      · simpa using h
      · exact h
    obtain ⟨hhash, hmissing⟩ := sync_of_verify hcheck
    exact ⟨hhash, fun hfilter => ⟨hlate.1, hlate.2.1, hlate.2.2, hfilter, hmissing⟩⟩
  · cases h

/-- A proposal that is accepted has its block asked for. -/
theorem sync_of_acceptProposal {c : Core} {p : SPBProposal} {req : SyncBlockMsg}
    (h : .sync req ∈ (c.acceptProposal S env p).out) : req.consensusBlockHash = S.hash p.b := by
  unfold Core.acceptProposal at h
  dsimp only at h
  split_ifs at h
  · cases h
  · simp at h
  · exact (sync_of_verify h).1
  · simp at h

/-- `handleSpbProposal` asks for the block of the proposal. If the epoch is past, then it is the
late commit that does, and the block is dropped. -/
theorem sync_of_handleSpbProposal {c : Core} {p : SPBProposal} {req : SyncBlockMsg}
    (h : .sync req ∈ (c.handleSpbProposal S env p).out) :
    req.consensusBlockHash = S.hash p.b ∧
      (c.messgaeFilter p.epoch = true → c.DropsLate env p) := by
  obtain ⟨-, hepoch, herr⟩ := lateCommit_store S env c p
  have hfilter : (c.lateCommit S env p).core.messgaeFilter p.epoch = c.messgaeFilter p.epoch := by
    unfold Core.messgaeFilter
    rw [hepoch]
  unfold Core.handleSpbProposal Outcome.bind at h
  rw [herr] at h
  dsimp only at h
  rw [hfilter] at h
  rcases List.mem_append.mp h with hlate | haccept
  · exact sync_of_lateCommit hlate
  · split_ifs at haccept with hpast
    · cases haccept
    · exact ⟨sync_of_acceptProposal haccept, fun hfilter => absurd hfilter hpast⟩

/-- What a rule asks for is a stored block, unless the message of the step brings the block. -/
theorem Locals.stored {x0 : Hist} {new : List Output} {req : SyncBlockMsg}
    (h : Locals S env i x0 x y new) (hprov : Provenance S x)
    (hmsg : ∀ p, i = .msg (.spbProposal p) → p.phase ≠ .one) (hreq : .sync req ∈ new) :
    (x.core.store req.consensusBlockHash).isSome = true := by
  -- A block is stored under its hash.
  have hkey : ∀ {d b}, x.core.store d = some b → (x.core.store (S.hash b)).isSome = true := by
    intro d b hb
    rw [(hprov.store d b hb).1, hb]
    rfl
  have hhalt : ∀ {d : Digest} {k : Committor} {outs : List Output},
      HaltOut S env x.core d k outs → .sync req ∈ outs →
        (x.core.store req.consensusBlockHash).isSome = true := by
    intro d k outs ho hmem
    cases ho with
    | commit b hb hmissing => simp at hmem
    | sync b hb hmissing =>
      obtain rfl : req = _ := by simpa using hmem
      exact hkey (Core.store_of_missing hb hmissing)
    | absent hb ha => simp at hmem
  cases h with
  | sync p hp ho hmissing hk =>
    obtain rfl : req = _ := by simpa using hreq
    cases ho with
    | message hi hh => exact absurd hp (hmsg p hi)
    | loopBack d hi hs hp' => exact hkey (Core.store_of_missing hs hmissing)
  | haltStay ht outs hi hx0 he hf ho hd => exact hhalt ho hreq
  | haltNext ht outs hi hx0 he hf ho hd hlt hr hr' => exact hhalt ho (by simpa using hreq)
  | none _ | late _ _ _ _ _ _ _ _ | start _ _ _ _ | again _ _ _ _ _ => simp at hreq

/-- After a phase-one proposal the block that payloads were asked for is stored, or was dropped. -/
theorem Hist.step_asked_proposal {p : SPBProposal} (hput : env.putOk = true)
    (h : x.step S env (.msg (.spbProposal p)) = some (y, outs)) (hp : p.phase = .one)
    {req : SyncBlockMsg} (hreq : .sync req ∈ outs) :
    (y.core.store req.consensusBlockHash).isSome = true ∨
      (x.core.DropsLate env p ∧ req.consensusBlockHash = S.hash p.b) := by
  have hstore := Hist.step_store hput h
  have hout : (x.core.handleSpbProposal S env p).out = outs := (Hist.step_msg h).2
  rw [← hout] at hreq
  obtain ⟨hhash, hdrops⟩ := sync_of_handleSpbProposal hreq
  cases hfilter : x.core.messgaeFilter p.epoch with
  | true => exact .inr ⟨hdrops hfilter, hhash⟩
  | false =>
    have hwrites : x.core.put? (.msg (.spbProposal p)) = some p.b := if_pos ⟨hp, hfilter⟩
    rw [hwrites] at hstore
    refine .inl ?_
    rw [hstore, hhash]
    dsimp only
    rw [Function.update_self]
    rfl

/-- After every other step it is stored: the rules of the step ask for stored blocks, which stay. -/
theorem Hist.step_asked_other (h : x.step S env i = some (y, outs)) (hprov : Provenance S x)
    (hmsg : ∀ p, i = .msg (.spbProposal p) → p.phase ≠ .one) {req : SyncBlockMsg}
    (hreq : .sync req ∈ outs) : (y.core.store req.consensusBlockHash).isSome = true := by
  have hrules : Provenance S y ∧ ∃ new, y.locals = x.locals ++ new ∧
      ∀ req, .sync req ∈ new → (y.core.store req.consensusBlockHash).isSome = true := by
    refine step_invariant (I := fun z => Provenance S z ∧ ∃ new, z.locals = x.locals ++ new ∧
      ∀ req, .sync req ∈ new → (z.core.store req.consensusBlockHash).isSome = true) ?_ h
      ⟨hprov, [], (List.append_nil _).symm, by simp⟩
    rintro z z' hrule ⟨hz, new, hnew, hstored⟩
    obtain ⟨more, hmore, heq⟩ := hrule.locals
    refine ⟨hz.rule hrule, new ++ more, by rw [heq, hnew, List.append_assoc], ?_⟩
    intro req hmem
    refine hrule.store_isSome ?_
    rcases List.mem_append.mp hmem with hold | hadded
    · exact hstored req hold
    · exact hmore.stored hz hmsg hadded
  obtain ⟨-, new, hnew, hstored⟩ := hrules
  -- What the rules have added to the node's own outputs is what the step has let out.
  have hlocals : y.locals = x.locals ++ outs.filter Output.stays := by
    unfold Hist.locals
    rw [Hist.step_out h, List.filter_append]
  have hsame := List.append_cancel_left (hlocals.symm.trans hnew)
  refine hstored req ?_
  rw [← hsame]
  exact List.mem_filter.mpr ⟨hreq, rfl⟩

/-- After a step of the core, the block that it has asked payloads for is stored, or was dropped. -/
theorem Hist.step_asked (hput : env.putOk = true) (h : x.step S env i = some (y, outs))
    (hprov : Provenance S x) {req : SyncBlockMsg} (hreq : .sync req ∈ outs) :
    (y.core.store req.consensusBlockHash).isSome = true ∨
      ∃ p, i = .msg (.spbProposal p) ∧ x.core.DropsLate env p ∧
        req.consensusBlockHash = S.hash p.b := by
  by_cases hone : ∃ p, i = .msg (.spbProposal p) ∧ p.phase = .one
  · obtain ⟨p, rfl, hp⟩ := hone
    exact (Hist.step_asked_proposal hput h hp hreq).imp_right fun hdrops => ⟨p, rfl, hdrops⟩
  · have hmsg : ∀ p, i = .msg (.spbProposal p) → p.phase ≠ .one :=
      fun p hi hp => hone ⟨p, hi, hp⟩
    exact .inl (Hist.step_asked_other h hprov hmsg hreq)

/-! ## Runs -/

/-- The block is in the store of the replica, under its hash. -/
def Replica.Stored (S : Setup) (r : Replica) (b : ConsensusBlock) : Prop :=
  r.hist.core.store (S.hash b) = some b

/-- A block that is left to the synchronizer and dropped is known: the store holds it already. -/
def Replica.LateKnown (S : Setup) (w : Surroundings) (r : Replica) : ReplicaInput → Prop
  | .consensus (.msg (.spbProposal p)) => r.hist.core.DropsLate (r.env w []) p →
    (r.hist.core.store (S.hash p.b)).isSome = true
  | _ => True

instance (S : Setup) (w : Surroundings) (r : Replica) (i : ReplicaInput) :
    Decidable (r.LateKnown S w i) := by
  unfold Replica.LateKnown
  split <;> infer_instance

/-- The states of a node that takes any consensus and mempool messages, in any order and among any
steps of its synchronizer, as long as `DB.Put` succeeds and every block that it drops is known. -/
inductive KnownRun (S : Setup) (M : MempoolSetup) (name : NodeID) : Replica → Prop
  | init : KnownRun S M name (.init name)
  | step {r r' : Replica} {w : Surroundings} {i : ReplicaInput} {outs : List Output}
      {sends : List MempoolSend} (hr : KnownRun S M name r) (hput : w.putOk = true)
      (hknown : r.LateKnown S w i) (h : r.step S M w i = some (r', outs, sends)) :
      KnownRun S M name r'

theorem KnownRun.run (hr : KnownRun S M name r) : ReplicaRun S M name r := by
  induction hr with
  | init => exact .init
  | step hr hput hknown h ih => exact .step ih hput h

/-- Under the hash of a block that the node took, the store holds no other block. -/
theorem Separated.stored {b : ConsensusBlock} (hs : Separated S r) (hprov : Provenance S r.hist)
    (htook : r.hist.TookBlock b) (h : (r.hist.core.store (S.hash b)).isSome = true) :
    r.Stored S b := by
  obtain ⟨b', hb'⟩ := Option.isSome_iff_exists.mp h
  obtain ⟨hhash, htook'⟩ := hprov.store (S.hash b) b' hb'
  have hsame : b' = b := hs.injective b' b htook' htook hhash
  unfold Replica.Stored
  rw [hb', hsame]

/-- What the synchronizer waits for in a run in which every dropped block is known, it waits for on
behalf of stored blocks. -/
theorem KnownRun.stored (hr : KnownRun S M name r) (hs : Separated S r) :
    SyncFacts S (r.Stored S) r.mempool := by
  induction hr with
  | init => exact .init S _ name
  | @step r r' w i outs sends hr hput hknown h ih =>
    have hcases := Replica.step_cases hput h
    have hbefore := hs.of_step hcases
    have hfacts := hr.run.facts hbefore
    have hafter := (ReplicaRun.step hr.run hput h).facts hs
    have hsync := ih hbefore
    cases hcases.simulated hput hfacts.core.provenance hs with
    | stay i hi hmem hhist =>
      unfold Replica.Stored at hsync ⊢
      rw [hhist]
      exact hmem.facts _ hsync
    | core i outs made payloads ht hmade hstep hmem =>
      have hkeep : ∀ d, (r.hist.core.store d).isSome = true →
          (r'.hist.core.store d).isSome = true := fun d =>
        step_invariant (I := fun z => (z.core.store d).isSome = true)
          (fun hrule hz => hrule.store_isSome hz) hstep
      have hkept : ∀ b, r.Stored S b → r'.Stored S b := by
        intro b hb
        have htook := (hfacts.core.provenance.store (S.hash b) b hb).2
        refine hs.stored hafter.core.provenance ?_ (hkeep _ (Option.isSome_of_eq_some hb))
        exact Hist.mem_taken.mp (hcases.taken b (Hist.mem_taken.mpr htook))
      refine hsync.core_step hput hmade hmem hkept fun req hreq => ?_
      -- The block that is asked for was taken, and is stored.
      obtain ⟨b, htook, hhash, hleft⟩ := (hafter.avail w payloads).covered
        (Hist.step_out hstep ▸ List.mem_append_right _ hreq)
      refine ⟨b, hs.stored hafter.core.provenance htook ?_, hhash, hleft⟩
      rw [hhash]
      rcases Hist.step_asked hput hstep hfacts.core.provenance hreq with
        hstored | ⟨p, rfl, hdrops, hdropped⟩
      · exact hstored
      · rw [hdropped]
        exact hkeep _ (hknown hdrops)

/-- In every run in which every dropped block is known, a hash on the loopback channel is that of a
block in the store, and `handleLoopBack` does not fail on it. -/
theorem loopBack_found (hr : KnownRun S M name r) (hs : Separated S r) :
    ∀ d ∈ r.mempool.sync.loopBackChan,
      (∃ b, r.hist.core.store d = some b ∧ S.hash b = d) ∧
      ∀ w payloads, (r.hist.core.handleLoopBack S (r.env w payloads) d).err = none := by
  intro d hd
  obtain ⟨b, hb, rfl, -⟩ := (hr.stored hs).loopBack d hd
  unfold Replica.Stored at hb
  exact ⟨⟨b, hb, rfl⟩, fun w payloads => by rw [handleLoopBack_of_stored S _ hb]⟩

/-! ## Blocks that are found, and one that is not -/

/-- The inputs of one replica, with what its surroundings choose, if every dropped block is known.
-/
def replayKnown (S : Setup) (M : MempoolSetup) :
    Replica → List (Surroundings × ReplicaInput) → Option Replica
  | r, [] => some r
  | r, a :: rest =>
    if a.1.putOk = true ∧ r.LateKnown S a.1 a.2 then
      (r.step S M a.1 a.2).bind fun z => replayKnown S M z.1 rest
    else none

theorem replayKnown_run {inputs : List (Surroundings × ReplicaInput)} (hr : KnownRun S M name r)
    (h : replayKnown S M r inputs = some r') : KnownRun S M name r' := by
  induction inputs generalizing r with
  | nil =>
    cases h
    exact hr
  | cons a rest ih =>
    unfold replayKnown at h
    split_ifs at h with hstep
    obtain ⟨⟨z, outs, sends⟩, hz, hrest⟩ := Option.bind_eq_some_iff.mp h
    exact ih (.step hr hstep.1 hstep.2 hz) hrest

/-- Node 1 proposes the block, the synchronizer asks for the payload, and a message brings it. The
waiter reads it and hands the hash of the block back. -/
def returnInputs (msg : MempoolMsg) : List (Surroundings × ReplicaInput) :=
  [(demoSurroundings, .consensus (.msg (.spbProposal ⟨1, waitedBlock, 0, 0, .one⟩))),
    (demoSurroundings, .sync .inter), (demoSurroundings, .mempool msg),
    (demoSurroundings, .sync (.ask 0)), (demoSurroundings, .sync (.resume 0)),
    (demoSurroundings, .sync (.finish 0)), (demoSurroundings, .sync .waiting)]

/-- The block comes back, and is found. -/
theorem loopBack_found_returned : ∃ r, KnownRun (demo 4 0) demoMempool 0 r ∧
    (demo 4 0).hash waitedBlock ∈ r.mempool.sync.loopBackChan ∧
    ∃ b, r.hist.core.store ((demo 4 0).hash waitedBlock) = some b ∧
      (demo 4 0).hash b = (demo 4 0).hash waitedBlock := by
  have hreplay : ((replayKnown (demo 4 0) demoMempool (.init 0) ((demoSurroundings,
      .consensus .start) :: returnInputs (.otherBlock (some (somePayload 1))))).any fun r =>
        decide (Separated (demo 4 0) r ∧
          (demo 4 0).hash waitedBlock ∈ r.mempool.sync.loopBackChan)) = true := by
    decide +kernel
  rw [Option.any_eq_true] at hreplay
  obtain ⟨r, hrun, hP⟩ := hreplay
  obtain ⟨hs, hmem⟩ := of_decide_eq_true hP
  have hr := replayKnown_run .init hrun
  exact ⟨r, hr, hmem, (loopBack_found hr hs _ hmem).1⟩

/-- The node starts, and gets a block of node 1 without payloads. It is told that this block is
decided, with node 1 as the leader, and goes on to the next epoch. -/
def haltedInputs (S : Setup) : List (Surroundings × ReplicaInput) :=
  [(demoSurroundings, .consensus .start),
    (demoSurroundings, .consensus (.msg (.spbProposal ⟨1, ⟨1, [], 0⟩, 0, 0, .one⟩))),
    (demoSurroundings, .consensus (.msg (.halt ⟨2, 0, 0, 1, S.hash ⟨1, [], 0⟩⟩)))]

/-- If node 1 proposes another block then, it comes back, and is not found: `handleLoopBack` fails,
or dereferences a nil pointer, as the database answers for an absent key. -/
theorem loopBack_not_found :
    (∃ r, ReplicaRun (demo 4 0) demoMempool 0 r ∧ Separated (demo 4 0) r ∧
      (demo 4 0).hash waitedBlock ∈ r.mempool.sync.loopBackChan ∧
      r.hist.core.store ((demo 4 0).hash waitedBlock) = none ∧
      (r.hist.core.handleLoopBack (demo 4 0) (r.env demoSurroundings [])
        ((demo 4 0).hash waitedBlock)).err = some .get) ∧
    ∃ r, ReplicaRun { demo 4 0 with absent := .notFoundKey } demoMempool 0 r ∧
      Separated { demo 4 0 with absent := .notFoundKey } r ∧
      (demo 4 0).hash waitedBlock ∈ r.mempool.sync.loopBackChan ∧
      r.hist.core.store ((demo 4 0).hash waitedBlock) = none ∧
      (r.hist.core.handleLoopBack { demo 4 0 with absent := .notFoundKey }
        (r.env demoSurroundings []) ((demo 4 0).hash waitedBlock)).err = some .panic := by
  constructor
  · obtain ⟨r, hr, hP⟩ := exists_replica (demo 4 0) demoMempool 0
      (haltedInputs (demo 4 0) ++ returnInputs (.otherBlock (some (somePayload 1))))
      (fun r => decide (Separated (demo 4 0) r ∧
        (demo 4 0).hash waitedBlock ∈ r.mempool.sync.loopBackChan ∧
        r.hist.core.store ((demo 4 0).hash waitedBlock) = none ∧
        (r.hist.core.handleLoopBack (demo 4 0) (r.env demoSurroundings [])
          ((demo 4 0).hash waitedBlock)).err = some .get))
      (by decide +kernel)
    exact ⟨r, hr, of_decide_eq_true hP⟩
  · -- With this answer `HandleOthorBlock` stores nothing, so that the payload comes as an own one.
    obtain ⟨r, hr, hP⟩ := exists_replica { demo 4 0 with absent := .notFoundKey } demoMempool 0
      (haltedInputs (demo 4 0) ++ returnInputs (.ownBlock (some (somePayload 1))))
      (fun r => decide (Separated { demo 4 0 with absent := .notFoundKey } r ∧
        (demo 4 0).hash waitedBlock ∈ r.mempool.sync.loopBackChan ∧
        r.hist.core.store ((demo 4 0).hash waitedBlock) = none ∧
        (r.hist.core.handleLoopBack { demo 4 0 with absent := .notFoundKey }
          (r.env demoSurroundings []) ((demo 4 0).hash waitedBlock)).err = some .panic))
      (by decide +kernel)
    exact ⟨r, hr, of_decide_eq_true hP⟩

end SMVBA
