import SMVBA.Mempool.Origins
import SMVBA.Network.Exec
import SMVBA.Node.Commits

/-!
# A node votes for, and commits, only blocks whose payloads it has

A block is checked once, when it comes: `verifyConsensusBlock` finds all its payloads, or leaves the
missing ones to the synchronizer, and the loopback channel brings the block back. From there on
nothing looks at the payloads again, neither the vote of the instance nor the committor, which may
hold a block for many epochs. What makes this right is that the store loses no key.

`ReplicaFacts` is the invariant that ties the core (`Avail`, `Committed`) to the synchronizer
(`SyncFacts`): the core's requests are what the synchronizer promises to fill, and the
synchronizer's answers are what the core relies on in `handleLoopBack`.
-/

namespace SMVBA

variable {S : Setup} {M : MempoolSetup} {w w' : Surroundings} {r r' : Replica} {name : NodeID}
  {env env' : Env} {x : Hist} {i : ReplicaInput} {outs : List Output} {sends : List MempoolSend}
  {payloads : List Digest} {b : ConsensusBlock}

/-! ## What the core finds in the store -/

/-- A key of the database is one of a consensus block or of a payload. -/
theorem Replica.holds_iff (r : Replica) (w : Surroundings) (payloads : List Digest) {d : Digest} :
    r.mempool.store.Holds d ↔
    (r.hist.core.store d).isSome = true ∨ (r.env w payloads).present d = true := by
  have hheld : (r.env w payloads).present d = (payloadProposer r.mempool.store.db d).isSome := rfl
  rw [r.store_eq, hheld]
  unfold Store.Holds consensusBlocks payloadProposer
  rcases r.mempool.store.db d with _ | _ | _ <;> simp

/-- The core misses nothing exactly when the store holds every payload. -/
theorem Replica.missing_eq_nil (r : Replica) : r.hist.core.missing (r.env w payloads) b = [] ↔
    ∀ d ∈ b.payLoads, r.mempool.store.Holds d := by
  rw [SMVBA.missing_eq_nil]
  exact forall₂_congr fun d _ => (r.holds_iff _ _).symm

/-- The facts about payloads only grow with what is present. -/
theorem Avail.mono (h : ∀ d, env.present d = true → (x.core.store d).isSome = true ∨
    env'.present d = true) (hx : Avail S env x) : Avail S env' x := by
  have hmem : ∀ {b : ConsensusBlock} {d : Digest}, d ∈ x.core.missing env' b →
      d ∈ x.core.missing env b := by
    intro b d hd
    obtain ⟨hd, hnone⟩ := List.mem_filter.mp hd
    refine List.mem_filter.mpr ⟨hd, ?_⟩
    rw [Bool.and_eq_true, Bool.not_eq_true', Option.isNone_iff_eq_none] at hnone ⊢
    refine ⟨hnone.1, Bool.eq_false_iff.mpr fun hp => ?_⟩
    rcases h d hp with hs | hs
    · rw [hnone.1] at hs
      cases hs
    · rw [hnone.2] at hs
      cases hs
  have hready : ∀ {b : ConsensusBlock}, Ready S env x.core b → Ready S env' x.core b :=
    fun hb => ⟨hb.1, List.eq_nil_iff_forall_not_mem.mpr fun d hd => by
      have := hmem hd
      rw [hb.2] at this
      cases this⟩
  refine ⟨fun p hp ht => hready (hx.tasks p hp ht), fun t d hd => ?_, fun m hm => ?_⟩
  · obtain ⟨b, hb, hr⟩ := hx.slots t d hd
    exact ⟨b, hb, hready hr⟩
  · obtain ⟨b, hb, hh, hmissing⟩ := hx.asked m hm
    exact ⟨b, hb, hh, fun d hd => hmissing d (hmem hd)⟩

/-! ## The invariant -/

/-- The payloads of the block are in the store of the replica. -/
def Replica.HasPayloads (r : Replica) (b : ConsensusBlock) : Prop :=
  ∀ d ∈ b.payLoads, r.mempool.store.Holds d

instance (r : Replica) (b : ConsensusBlock) : Decidable (r.HasPayloads b) :=
  inferInstanceAs (Decidable (∀ d ∈ b.payLoads, _))

/-- What the parts of a replica rely on. -/
structure ReplicaFacts (S : Setup) (name : NodeID) (r : Replica) : Prop where
  core : Facts S name r.hist
  avail : ∀ w payloads, Avail S (r.env w payloads) r.hist
  committed : Committed r.HasPayloads r.hist
  sync : SyncFacts S r.hist.TookBlock r.mempool
  payloads : PayloadFacts S r

theorem ReplicaFacts.init (S : Setup) (name : NodeID) : ReplicaFacts S name (.init name) where
  core := .init S name
  avail w payloads := by constructor <;> simp [Replica.init, Hist.init]
  committed := by constructor <;> simp [Replica.init, Hist.init, Hist.commits]
  sync := .init S _ name
  payloads := .init S name

/-- No mempool block is held under a digest that no written payload has. -/
theorem PayloadFacts.held_eq_none (hr : PayloadFacts S r) {d : Digest}
    (hd : ∀ p ∈ r.mempool.written, S.blockHash p ≠ d) (w : Surroundings) (payloads : List Digest) :
    (r.env w payloads).held d = none := by
  have hheld : (r.env w payloads).held d = payloadProposer r.mempool.store.db d := rfl
  rw [hheld]
  unfold payloadProposer
  split
  case h_1 p hp =>
    obtain ⟨hwritten, hhash⟩ := hr.entry d p hp
    exact absurd hhash (hd p hwritten)
  case h_2 => rfl

/-- What the core reads under a digest from the loopback channel is a consensus block, with its
payloads in the store. -/
theorem ReplicaFacts.loopBack (hr : ReplicaFacts S name r) (hs : Separated S r) {d : Digest}
    (ht : r.takes (.loopBack d) = true) (w : Surroundings) (payloads : List Digest) :
    (r.env w payloads).held d = none ∧
      ∀ b, r.hist.core.store d = some b → r.HasPayloads b := by
  have hmem : d ∈ r.mempool.sync.loopBackChan := by
    have hhead : r.mempool.sync.loopBackChan.head? = some d := by simpa [Replica.takes] using ht
    exact List.mem_of_mem_head? hhead
  obtain ⟨b', hb', hhash, hholds⟩ := hr.sync.loopBack d hmem
  refine ⟨hr.payloads.held_eq_none (fun p hp heq => ?_) w payloads, fun b hb => ?_⟩
  · exact hs.kinds b' (Hist.mem_taken.mpr hb') p hp (hhash.trans heq.symm)
  obtain ⟨hd, htook⟩ := hr.core.provenance.store d b hb
  obtain rfl := hs.injective b b' htook hb' (hd.trans hhash.symm)
  exact fun d hd => (hholds d hd).resolve_right (List.not_mem_nil)

/-- Along the rules of a step of the core, under what the store held before it. -/
theorem ReplicaFacts.avail_step {i : Input} {y : Hist} (hr : ReplicaFacts S name r)
    (hs : Separated S r) (ht : r.takes i = true) (hy : y.Injective S)
    (h : r.hist.step S (r.env w payloads) i = some (y, outs)) : Avail S (r.env w payloads) y := by
  -- The step of a loopback writes nothing, so what the channel promises holds at each of its rules.
  let loops (z : Hist) := ∀ d b, i = .loopBack d → z.core.decoded (r.env w payloads) d = some b →
    z.core.store d = some b ∧ z.core.missing (r.env w payloads) b = []
  suffices Facts S name y ∧ Avail S (r.env w payloads) y ∧ loops y from this.2.1
  refine step_invariant_before (B := fun z => z.Injective S)
    (I := fun z => Facts S name z ∧ Avail S (r.env w payloads) z ∧ loops z)
    (fun hrule hz => hz.of_rule hrule) ?_ h hy ⟨hr.core, hr.avail w payloads, ?_⟩
  · rintro z z' hrule hinj ⟨hf, ha, hl⟩
    refine ⟨hf.rule hrule, ha.rule hrule hinj hf.provenance hf.buffers hl, fun d b hi hb => ?_⟩
    rcases hrule.store_eq with heq | ⟨p, hmsg, -⟩
    · rw [Core.decoded, heq] at hb
      obtain ⟨hstored, hmissing⟩ := hl d b hi hb
      exact ⟨heq ▸ hstored, hrule.missing_eq_nil hmissing⟩
    · rw [hi] at hmsg
      cases hmsg
  · rintro d b rfl hb
    obtain ⟨hheld, hpayloads⟩ := hr.loopBack hs ht w payloads
    rw [Core.decoded_of_held hheld] at hb
    exact ⟨hb, r.missing_eq_nil.mpr (hpayloads b hb)⟩

/-- What a step of the core commits, and what it leaves in the committor, has its payloads in the
store that the step found. -/
theorem ReplicaFacts.committed_step {i : Input} {y : Hist} (hr : ReplicaFacts S name r)
    (h : r.hist.step S (r.env w payloads) i = some (y, outs)) : Committed r.HasPayloads y := by
  refine step_invariant (I := fun z => Committed r.HasPayloads z) ?_ h hr.committed
  intro z z' hrule hz
  refine hz.rule hrule (fun _ => id) (fun p _ hx hl => ?_) fun ht b _ hx _ _ hm _ => ?_
  · -- The check of a late commit is made before anything has changed.
    rw [hx.core] at hl
    have hm : r.hist.core.missing (r.env w payloads) p.b = [] := by
      simp only [Core.commitsLate, decide_eq_true_eq] at hl
      exact hl.2.2.2
    exact r.missing_eq_nil.mp hm
  · rw [hx.core] at hm
    exact r.missing_eq_nil.mp hm

/-- The core's own write keeps the promises of the synchronizer. -/
theorem SyncFacts.putBlock {T : ConsensusBlock → Prop} {m : Mempool} (hm : SyncFacts S T m)
    (o : Option ConsensusBlock) : SyncFacts S T (m.putBlock S true o) := by
  cases o with
  | none => exact hm
  | some b => exact hm.write _ _

/-- The core's own write loses no key. -/
theorem Store.Holds.putBlock {m : Mempool} {putOk : Bool} {d : Digest} (hd : m.store.Holds d)
    (o : Option ConsensusBlock) : (m.putBlock S putOk o).store.Holds d := by
  cases o with
  | none => exact hd
  | some b => exact Store.Holds.write hd

/-- A step of a replica loses no key. -/
theorem Simulated.holds (h : Simulated S w r r' i outs) {d : Digest}
    (hd : r.mempool.store.Holds d) :
    r'.mempool.store.Holds d := by
  cases h with
  | core i outs made payloads ht hmade h hmem =>
    obtain ⟨m, hext, heq⟩ := r.exists_mempoolAfter (w := w) hmade i outs
    rw [hmem, heq]
    exact (hext.holds d hd).putBlock _
  | stay i hi hmem hhist => exact hmem.holds d hd

/-- What a replica has found present is present after a step. -/
theorem Simulated.avail (h : Simulated S w r r' i outs)
    (ha : Avail S (r.env w payloads) r'.hist) (w' : Surroundings) (payloads' : List Digest) :
    Avail S (r'.env w' payloads') r'.hist :=
  ha.mono fun _ hd => (r'.holds_iff _ _).mp (h.holds ((r.holds_iff _ _).mpr (.inr hd)))

/-- Blocks keep their payloads. -/
theorem Committed.simulated (h : Simulated S w r r' i outs) (hx : Committed r.HasPayloads x) :
    Committed r'.HasPayloads x :=
  ⟨fun e b he d hd => h.holds (hx.waiting e b he d hd),
    fun b hb d hd => h.holds (hx.sent b hb d hd)⟩

/-- What the core asks for in a step is covered, and a digest that it takes from the loopback
channel leaves it. -/
theorem SyncFacts.requests {i : Input} {m : Mempool} {T : ConsensusBlock → Prop}
    (hm : SyncFacts S T m)
    (hloop : ∀ d ∈ r.mempool.sync.loopBackChan, Covered S T m d [])
    (hask : ∀ req, .sync req ∈ outs → Covered S T m req.consensusBlockHash req.missing) :
    SyncFacts S T { m with sync := { m.sync with
      interChan := m.sync.interChan ++ outs.filterMap Output.sync?
      loopBackChan := r.loopBackAfter i } } where
  inter req hreq := by
    rcases List.mem_append.mp hreq with hold | hnew
    · exact hm.inter req hold
    · obtain ⟨o, ho, heq⟩ := List.mem_filterMap.mp hnew
      cases o with
      | sync req' =>
        obtain rfl : req' = req := by simpa [Output.sync?] using heq
        exact hask req' ho
      | _ => cases heq
  left := hm.left
  toWaiterFacts := ⟨hm.answered, hm.queued⟩
  waiting := hm.waiting
  loopBack d hd := by
    refine hloop d ?_
    unfold Replica.loopBackAfter at hd
    split at hd
    · exact List.mem_of_mem_tail hd
    · exact hd

/-- A step of the core keeps the promises of the synchronizer, if what it asks for is covered. -/
theorem SyncFacts.core_step {i : Input} {made : Mempool} {T T' : ConsensusBlock → Prop}
    (hsync : SyncFacts S T r.mempool) (hput : w.putOk = true) (hmade : r.mempool.Extends S made)
    (hmem : r'.mempool = r.mempoolAfter S w made i outs) (hT : ∀ b, T b → T' b)
    (hask : ∀ req, .sync req ∈ outs →
      Covered S T' r'.mempool req.consensusBlockHash req.missing) :
    SyncFacts S T' r'.mempool := by
  obtain ⟨m, hext, heq⟩ := r.exists_mempoolAfter (w := w) hmade i outs
  have hm : SyncFacts S T' (m.putBlock S w.putOk (r.hist.core.put? i)) := by
    rw [hput]
    exact ((hext.facts _ hsync).mono hT (fun _ => id) rfl rfl).putBlock _
  -- The store is that of the mempool after the step, whose channels are still to come.
  have hstore : r'.mempool.store = (m.putBlock S w.putOk (r.hist.core.put? i)).store := by
    rw [hmem, heq]
  rw [hmem, heq]
  refine hm.requests (fun d hd => ?_) fun req hreq => ?_
  · exact (hsync.loopBack d hd).mono hT fun d hd => (hext.holds d hd).putBlock _
  · exact (hask req hreq).mono (fun _ => id) fun d hd => hstore ▸ hd

/-- A request that the core has let out covers its block. -/
theorem Avail.covered (ha : Avail S (r.env w payloads) r.hist) {req : SyncBlockMsg}
    (hreq : .sync req ∈ r.hist.out) :
    Covered S r.hist.TookBlock r.mempool req.consensusBlockHash req.missing := by
  obtain ⟨b, htook, hhash, hmissing⟩ := ha.asked req hreq
  refine ⟨b, htook, hhash, fun d hd => ?_⟩
  by_cases hholds : r.mempool.store.Holds d
  · exact .inl hholds
  · rw [r.holds_iff w payloads, not_or] at hholds
    refine .inr (hmissing d (List.mem_filter.mpr ⟨hd, ?_⟩))
    simpa using hholds

theorem ReplicaFacts.step (hput : w.putOk = true) (h : Simulated S w r r' i outs)
    (hsep : Separated S r) (hsep' : Separated S r') (hp : PayloadFacts S r')
    (hr : ReplicaFacts S name r) : ReplicaFacts S name r' := by
  have hh := h
  cases h with
  | stay i hi hmem hhist =>
    refine ⟨hhist ▸ hr.core, fun w' payloads => ?_, ?_, ?_, hp⟩
    · refine hh.avail (?_ : Avail S (r.env w payloads) r'.hist) w' payloads
      rw [hhist]
      exact hr.avail w payloads
    · exact (hhist ▸ hr.committed).simulated hh
    · rw [hhist]
      exact hmem.facts _ hr.sync
  | core i outs made payloads ht hmade hstep hmem =>
    have hfacts : Facts S name r'.hist := step_invariant (I := fun z => Facts S name z)
      (fun hrule hz => hz.rule hrule) hstep hr.core
    have htook : ∀ b, r.hist.TookBlock b → r'.hist.TookBlock b := fun b =>
      step_invariant (I := fun z => z.TookBlock b) (fun hrule hz => hz.rule hrule) hstep
    have havail := hh.avail (hr.avail_step hsep ht hsep'.injective hstep)
    refine ⟨hfacts, havail, (hr.committed_step hstep).simulated hh, ?_, hp⟩
    refine hr.sync.core_step hput hmade hmem htook fun req hreq => ?_
    exact (havail w payloads).covered (Hist.step_out hstep ▸ List.mem_append_right _ hreq)

/-! ## Runs of one node -/

/-- The states of a node that takes any consensus and mempool messages, in any order and among any
steps of its synchronizer, as long as `DB.Put` succeeds. -/
inductive ReplicaRun (S : Setup) (M : MempoolSetup) (name : NodeID) : Replica → Prop
  | init : ReplicaRun S M name (.init name)
  | step {r r' : Replica} {w : Surroundings} {i : ReplicaInput} {outs : List Output}
      {sends : List MempoolSend} (hr : ReplicaRun S M name r) (hput : w.putOk = true)
      (h : r.step S M w i = some (r', outs, sends)) : ReplicaRun S M name r'

theorem ReplicaRun.facts (hr : ReplicaRun S M name r) (hs : Separated S r) :
    ReplicaFacts S name r := by
  induction hr with
  | init => exact .init S name
  | step hr hput h ih =>
    have hstep := Replica.step_cases hput h
    have hbefore := hs.of_step hstep
    have hfacts := ih hbefore
    exact hfacts.step hput (hstep.simulated hput hfacts.core.provenance hs) hbefore hs
      (hfacts.payloads.step h)

theorem Output.message_of_vote {o : Output} {v : SPBVote} (h : o.vote? = some v) :
    o.message? = some (.spbVote v) := by
  unfold Output.vote? at h
  split at h
  · cases h
    rfl
  · cases h
    rfl
  · cases h

/-- A phase-one vote of a step was sent before, or is the answer to a spawned call that was there.
-/
theorem Hist.step_vote {i : Input} {y : Hist} (h : x.step S env i = some (y, outs)) {d : NodeID}
    {v : SPBVote} (hv : .spbVote v ∈ y.sentTo d) (hone : v.phase = .one) :
    .spbVote v ∈ x.sentTo d ∨
      ∃ p, .processProposal p ∈ x.tasks ∧ p.phase = .one ∧ S.hash p.b = v.blockHash := by
  have hcases : .spbVote v ∈ x.sentTo d ∨
      ∃ p, i = .task (.processProposal p) ∧ p.phase = .one ∧ S.hash p.b = v.blockHash := by
    refine step_invariant (I := fun z => .spbVote v ∈ z.sentTo d → .spbVote v ∈ x.sentTo d ∨
      ∃ p, i = .task (.processProposal p) ∧ p.phase = .one ∧ S.hash p.b = v.blockHash) ?_ h .inl hv
    intro z z' hrule hz hv
    rcases hrule.sent_cases hv with hold | ⟨new, hnew, hmem⟩
    · exact hz hold
    · rcases (hnew.spbVote hmem).2 with ⟨-, -, hp⟩ | ⟨htwo, -⟩
      · exact .inr hp
      · exact absurd (hone.symm.trans htwo) (by simp)
  refine hcases.imp_right ?_
  rintro ⟨p, rfl, hp, hhash⟩
  -- A call runs only if it is there.
  refine ⟨p, ?_, hp, hhash⟩
  obtain ⟨o, ho, -⟩ := Hist.step_eq_some h
  cases Node.runs_of_outcome ho with
  | task t hs ht => exact ht

/-- When a node sends a phase-one vote, the block that it votes for is in its store with every
payload, and when a block leaves its committor, so is every payload of the block: each at the
beginning of the step in which it happens. -/
theorem payloads_present (hr : ReplicaRun S M name r) (hput : w.putOk = true)
    (h : r.step S M w i = some (r', outs, sends)) (hs : Separated S r') :
    (∀ o ∈ outs, ∀ v ∈ o.vote?, v.phase = .one →
      ∃ b, S.hash b = v.blockHash ∧ r.hist.core.store v.blockHash = some b ∧ r.HasPayloads b) ∧
    ∀ b, .commit b ∈ outs → r.HasPayloads b := by
  have hstep := Replica.step_cases hput h
  have hfacts := hr.facts (hs.of_step hstep)
  cases hstep.simulated hput hfacts.core.provenance hs with
  | stay i hi hmem hhist => simp
  | core i outs made payloads ht hmade hcore hmem =>
    have hout := Hist.step_out hcore
    refine ⟨fun o ho v hv hone => ?_, fun b hb => ?_⟩
    · have hready : ∃ b, S.hash b = v.blockHash ∧ Ready S (r.env w payloads) r.hist.core b := by
        obtain ⟨d, hd⟩ := Output.exists_sentTo (Output.message_of_vote hv) r'.hist.core.name
        have hsent : .spbVote v ∈ r'.hist.sentTo d :=
          List.mem_filterMap.mpr ⟨o, hout ▸ List.mem_append_right _ ho, hd⟩
        rcases Hist.step_vote hcore hsent hone with hold | ⟨p, htask, hp, hhash⟩
        · exact (hfacts.avail w payloads).slots _ _ (hfacts.core.sent.voteOne d v hold hone)
        · exact ⟨p.b, hhash, (hfacts.avail w payloads).tasks p hp htask⟩
      obtain ⟨b, hhash, hstored, hmissing⟩ := hready
      exact ⟨b, hhash, hhash ▸ hstored, r.missing_eq_nil.mp hmissing⟩
    · refine (hfacts.committed_step hcore).sent b (List.mem_filterMap.mpr ⟨.commit b, ?_, rfl⟩)
      rw [hout]
      exact List.mem_append_right _ hb

/-! ## A run -/

/-- The inputs of one replica, with what its surroundings choose. -/
def replayReplica (S : Setup) (M : MempoolSetup) :
    Replica → List (Surroundings × ReplicaInput) → Option Replica
  | r, [] => some r
  | r, (w, i) :: rest =>
    if w.putOk = true then
      match r.step S M w i with
      | some (r', _) => replayReplica S M r' rest
      | none => none
    else none

theorem replayReplica_run {inputs : List (Surroundings × ReplicaInput)} (hr : ReplicaRun S M name r)
    (h : replayReplica S M r inputs = some r') : ReplicaRun S M name r' := by
  induction inputs generalizing r with
  | nil =>
    cases h
    exact hr
  | cons a rest ih =>
    unfold replayReplica at h
    split_ifs at h with hput
    split at h
    case h_1 z outs hstep => exact ih (.step hr hput hstep) h
    case h_2 => cases h

/-- What holds after replayed inputs holds after a run. -/
theorem exists_replica (S : Setup) (M : MempoolSetup) (name : NodeID)
    (inputs : List (Surroundings × ReplicaInput)) (P : Replica → Bool)
    (h : (replayReplica S M (.init name) inputs).any P = true) :
    ∃ r, ReplicaRun S M name r ∧ P r = true := by
  rw [Option.any_eq_true] at h
  obtain ⟨r, hr, h⟩ := h
  exact ⟨r, replayReplica_run .init hr, h⟩

/-- What holds of a step after replayed inputs holds of a step after a run. -/
theorem exists_replicaRun (S : Setup) (M : MempoolSetup) (name : NodeID)
    (inputs : List (Surroundings × ReplicaInput)) (w : Surroundings) (i : ReplicaInput)
    (P : Replica → List Output → Bool)
    (h : ((replayReplica S M (.init name) inputs).any fun r =>
      (r.step S M w i).any fun (r', outs, _) => P r' outs) = true) :
    ∃ r r' outs sends, ReplicaRun S M name r ∧ r.step S M w i = some (r', outs, sends) ∧
      P r' outs = true := by
  obtain ⟨r, hr, h⟩ := exists_replica S M name inputs _ h
  rw [Option.any_eq_true] at h
  obtain ⟨⟨r', outs, sends⟩, hstep, h⟩ := h
  exact ⟨r, r', outs, sends, hr, hstep, h⟩

/-- Parameters of a mempool to run, with a signature scheme that accepts everything. -/
def demoMempool : MempoolSetup where
  maxQueenSize := 10
  maxPayloadSize := 1
  syncRetryDelay := 0
  requestSignature _ _ := []
  verify _ _ _ := true

/-- Surroundings in which every write succeeds, the queue is empty and the pool gives one batch. -/
def demoSurroundings : Surroundings := ⟨true, ⟨⟨0, [[1]]⟩, []⟩, 0⟩

/-- The first proposal of the only node of a committee, with the payload that its mempool makes. -/
def soloProposal : SPBProposal :=
  ⟨0, ⟨0, [(demo 1 0).blockHash ⟨0, ⟨0, [[1]]⟩, []⟩], 0⟩, 0, 0, .one⟩

/-- The node starts and takes its own proposal. -/
def soloInputs : List (Surroundings × ReplicaInput) :=
  [(demoSurroundings, .consensus .start),
    (demoSurroundings, .consensus (.msg (.spbProposal soloProposal)))]

/-- A node on its own votes for its block, and a halt makes it commit the block. The block has a
payload. -/
theorem payloads_present_solo :
    (∃ r r' outs sends v b, ReplicaRun (demo 1 0) demoMempool 0 r ∧
      r.step (demo 1 0) demoMempool demoSurroundings
        (.consensus (.task (.processProposal soloProposal))) = some (r', outs, sends) ∧
      .recv (.spbVote v) ∈ outs ∧ v.blockHash = (demo 1 0).hash soloProposal.b ∧
      r.hist.core.store v.blockHash = some b ∧ r.HasPayloads b) ∧
    ∃ r r' outs sends, ReplicaRun (demo 1 0) demoMempool 0 r ∧
      r.step (demo 1 0) demoMempool demoSurroundings
        (.consensus (.msg (.halt ⟨0, 0, 0, 0, (demo 1 0).hash soloProposal.b⟩))) =
          some (r', outs, sends) ∧
      .commit soloProposal.b ∈ outs ∧ soloProposal.b.payLoads ≠ [] ∧
      r.HasPayloads soloProposal.b := by
  constructor
  · obtain ⟨r, r', outs, sends, hr, hstep, hP⟩ :=
      exists_replicaRun (demo 1 0) demoMempool 0 soloInputs
      demoSurroundings (.consensus (.task (.processProposal soloProposal)))
      (fun r' outs => decide (Separated (demo 1 0) r' ∧
        .recv (.spbVote ⟨0, 0, (demo 1 0).hash soloProposal.b, 0, 0, .one⟩) ∈ outs))
      (by decide +kernel)
    obtain ⟨hs, hvote⟩ := of_decide_eq_true hP
    obtain ⟨b, -, hstored, hhas⟩ := (payloads_present hr rfl hstep hs).1 _ hvote _ rfl rfl
    exact ⟨r, r', outs, sends, _, b, hr, hstep, hvote, rfl, hstored, hhas⟩
  · obtain ⟨r, r', outs, sends, hr, hstep, hP⟩ :=
      exists_replicaRun (demo 1 0) demoMempool 0 soloInputs
      demoSurroundings (.consensus (.msg (.halt ⟨0, 0, 0, 0, (demo 1 0).hash soloProposal.b⟩)))
      (fun r' outs => decide (Separated (demo 1 0) r' ∧ .commit soloProposal.b ∈ outs))
      (by decide +kernel)
    obtain ⟨hs, hcommit⟩ := of_decide_eq_true hP
    exact ⟨r, r', outs, sends, hr, hstep, hcommit, by decide,
      (payloads_present hr rfl hstep hs).2 _ hcommit⟩

end SMVBA
