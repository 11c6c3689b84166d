import SMVBA.Mempool.Replica
import SMVBA.Mempool.Waiters
import SMVBA.Rules.Available

/-!
# A replica refines a node

The core of a replica takes the steps of `Hist.step`, with what its mempool answers, and stands
still while the mempool works. The one thing that could go wrong is the shared database: a payload
with the hash of a consensus block would be written over it. A replica is `Separated` if its blocks
have different hashes, and the runs of separated replicas are runs of the node.
-/

namespace SMVBA

variable {S : Setup} {M : MempoolSetup} {w : Surroundings} {r r' : Replica} {env : Env} {i : Input}
  {x y : Hist} {outs : List Output} {sends : List MempoolSend}

/-! ## What a step of the core writes -/

/-- A phase-one proposal that passes the filter has its block written. -/
theorem handleSpbProposal_store (hput : env.putOk = true) (c : Core) {p : SPBProposal}
    (hp : p.phase = .one) : (c.handleSpbProposal S env p).core.store =
      if c.messgaeFilter p.epoch = false then Function.update c.store (S.hash p.b) (some p.b)
      else c.store := by
  obtain ⟨hstore, hepoch, herr⟩ := lateCommit_store S env c p
  unfold Core.handleSpbProposal Outcome.bind
  rw [herr]
  dsimp only
  have hfilter : (c.lateCommit S env p).core.messgaeFilter p.epoch = c.messgaeFilter p.epoch := by
    unfold Core.messgaeFilter
    rw [hepoch]
  rw [hfilter]
  cases hf : c.messgaeFilter p.epoch with
  | true => simpa [Outcome.ret] using hstore
  | false =>
    simp only [Bool.false_eq_true, if_false, if_true]
    unfold Core.acceptProposal Core.verifyConsensusBlock
    simp only [hp, if_true, hput, Bool.true_eq_false, if_false, hstore]
    split_ifs <;> rfl

/-- The store after a step of the core in which `DB.Put` succeeds. -/
theorem Hist.step_store (hput : env.putOk = true) (h : x.step S env i = some (y, outs)) :
    y.core.store = match x.core.put? i with
      | some b => Function.update x.core.store (S.hash b) (some b)
      | none => x.core.store := by
  by_cases hone : ∃ p, i = .msg (.spbProposal p) ∧ p.phase = .one
  · obtain ⟨p, rfl, hp⟩ := hone
    have hstore := handleSpbProposal_store (S := S) hput x.core hp
    rw [(Hist.step_msg h).1]
    cases hf : x.core.messgaeFilter p.epoch <;>
      simpa [Core.put?, hp, hf, Core.handle] using hstore
  · -- No other step writes.
    have hnone : x.core.put? i = none := by
      unfold Core.put?
      split
      · next p => exact if_neg fun hc => hone ⟨p, rfl, hc.1⟩
      · rfl
    rw [hnone]
    refine step_invariant (I := fun z => z.core.store = x.core.store) ?_ h rfl
    intro z z' hrule hz
    rcases hrule.store_eq with heq | ⟨p, hi, hp, -⟩
    · exact heq.trans hz
    · exact absurd ⟨p, hi, hp⟩ hone

/-! ## The steps of a replica -/

/-- What a step of a replica is to its core: a step of the core, or none, after which the store is
read from the database again. -/
theorem Replica.step_hist {i : ReplicaInput} (h : r.step S M w i = some (r', outs, sends)) :
    (∃ j y, i = .consensus j ∧
      r.hist.step S (r.env w (r.mempool.handleMakeBlockMsg S M w.putOk w.make).2) j =
        some (y, outs) ∧
      r'.hist = y.setStore (consensusBlocks r'.mempool.store.db)) ∨
    (outs = [] ∧ (∀ j, i ≠ .consensus j) ∧
      r'.hist = r.hist.setStore (consensusBlocks r'.mempool.store.db)) := by
  unfold Replica.step at h
  split_ifs at h
  cases i with
  | consensus j =>
    dsimp only [Replica.consensusStep] at h
    split_ifs at h
    split at h
    case h_1 => cases h
    case h_2 y outs' hstep =>
      cases h
      exact .inl ⟨j, y, rfl, hstep, rfl⟩
  | mempool msg =>
    cases h
    exact .inr ⟨rfl, by simp, rfl⟩
  | clean digests epoch =>
    cases h
    exact .inr ⟨rfl, by simp, rfl⟩
  | sync e =>
    obtain ⟨⟨m, out⟩, -, heq⟩ := Option.map_eq_some_iff.mp h
    cases heq
    exact .inr ⟨rfl, by simp, rfl⟩

/-- What every rule preserves, without a look at the store, a step of a replica preserves. -/
theorem Replica.step_invariant {I : Hist → Prop} {i : ReplicaInput}
    (hI : ∀ {env : Env} {j : Input} {x0 z z' : Hist}, Rule S env j x0 z z' → I z → I z')
    (hstore : ∀ {z : Hist} (store : Digest → Option ConsensusBlock), I z → I (z.setStore store))
    (h : r.step S M w i = some (r', outs, sends)) (hr : I r.hist) : I r'.hist := by
  rcases Replica.step_hist h with ⟨j, y, -, hstep, hhist⟩ | ⟨-, -, hhist⟩
  · rw [hhist]
    exact hstore _ (SMVBA.step_invariant (fun hrule hz => hI hrule hz) hstep hr)
  · rw [hhist]
    exact hstore _ hr

/-- The name of a replica stays. -/
theorem Replica.step_name {i : ReplicaInput} (h : r.step S M w i = some (r', outs, sends)) :
    r'.hist.core.name = r.hist.core.name :=
  Replica.step_invariant (I := fun z => z.core.name = r.hist.core.name)
    (fun hrule hz => hrule.name_eq.trans hz) (fun _ hz => hz) h rfl

/-- The messages that a step of a replica adds for `d` are those among its outputs. -/
theorem Replica.step_sentTo {i : ReplicaInput} (h : r.step S M w i = some (r', outs, sends))
    (d : NodeID) : r'.hist.sentTo d =
      r.hist.sentTo d ++ outs.filterMap (Output.sentTo r.hist.core.name d) := by
  rcases Replica.step_hist h with ⟨j, y, -, hstep, hhist⟩ | ⟨rfl, -, hhist⟩
  · rw [hhist]
    exact Hist.step_sentTo hstep d
  · rw [hhist]
    exact (List.append_nil _).symm

/-- What a step of a replica is while writes succeed: a step of the core, or one of the mempool. -/
inductive ReplicaStep (S : Setup) (M : MempoolSetup) (w : Surroundings) (r r' : Replica) :
    ReplicaInput → List Output → Prop
  | core (i : Input) (y : Hist) (outs : List Output) (made : Mempool) (payloads : List Digest)
      (ht : r.takes i = true) (hmade : r.mempool.Extends S made)
      (hm : (r.mempool.handleMakeBlockMsg S M w.putOk w.make).2 = payloads)
      (h : r.hist.step S (r.env w payloads) i = some (y, outs))
      (hmem : r'.mempool = r.mempoolAfter S w made i outs)
      (hhist : r'.hist = y.setStore (consensusBlocks r'.mempool.store.db)) :
      ReplicaStep S M w r r' (.consensus i) outs
  | mempool (i : ReplicaInput) (hi : ∀ j, i ≠ .consensus j) (hmem : r.mempool.Extends S r'.mempool)
      (hhist : r'.hist = r.hist.setStore (consensusBlocks r'.mempool.store.db)) :
      ReplicaStep S M w r r' i []

theorem Replica.step_cases {i : ReplicaInput} (hput : w.putOk = true)
    (h : r.step S M w i = some (r', outs, sends)) : ReplicaStep S M w r r' i outs := by
  unfold Replica.step at h
  split_ifs at h
  cases i with
  | consensus i =>
    dsimp only [Replica.consensusStep] at h
    split_ifs at h with ht
    split at h
    case h_1 => cases h
    case h_2 y outs' hstep =>
      cases h
      refine .core i y outs _ _ ht.1 ?_ rfl hstep rfl rfl
      rw [hput]
      exact .handleMakeBlockMsg r.mempool w.make
  | mempool msg =>
    cases h
    refine .mempool _ (by simp) ?_ rfl
    rw [hput]
    exact .handle r.mempool msg
  | clean digests epoch =>
    cases h
    exact .mempool _ (by simp) (.handleCleanBlock r.mempool digests epoch) rfl
  | sync e =>
    obtain ⟨⟨m, out⟩, hsync, heq⟩ := Option.map_eq_some_iff.mp h
    cases heq
    exact .mempool _ (by simp) (.syncStep hsync) rfl

/-! ## The shared database -/

/-- The block of a message that is a phase-one proposal. -/
def Message.block? : Message → Option ConsensusBlock
  | .spbProposal p => if p.phase = .one then some p.b else none
  | _ => none

/-- The blocks that a node took. -/
def Hist.taken (x : Hist) : List ConsensusBlock := x.handled.filterMap Message.block?

theorem Hist.mem_taken {b : ConsensusBlock} : b ∈ x.taken ↔ x.TookBlock b := by
  unfold Hist.taken Hist.TookBlock
  rw [List.mem_filterMap]
  constructor
  · rintro ⟨m, hm, hb⟩
    cases m with
    | spbProposal p =>
      obtain ⟨hp, rfl⟩ : p.phase = .one ∧ p.b = b := by simpa [Message.block?] using hb
      exact ⟨p, hm, hp, rfl⟩
    | _ => cases hb
  · rintro ⟨p, hm, hp, rfl⟩
    exact ⟨_, hm, by simp [Message.block?, hp]⟩

/-- The blocks that a replica took and the payloads that it wrote have different hashes, so that
each key of the database has one content. -/
structure Separated (S : Setup) (r : Replica) : Prop where
  blocks : ∀ b ∈ r.hist.taken, ∀ b' ∈ r.hist.taken, S.hash b = S.hash b' → b = b'
  kinds : ∀ b ∈ r.hist.taken, ∀ p ∈ r.mempool.written, S.hash b ≠ S.blockHash p

instance (S : Setup) (r : Replica) : Decidable (Separated S r) :=
  decidable_of_iff (_ ∧ _) ⟨fun h => ⟨h.1, h.2⟩, fun h => ⟨h.blocks, h.kinds⟩⟩

theorem Separated.injective (h : Separated S r) : r.hist.Injective S :=
  fun b b' hb hb' => h.blocks b (Hist.mem_taken.mpr hb) b' (Hist.mem_taken.mpr hb')

/-- The mempool leaves the consensus blocks alone, if no payload has the hash of one. -/
theorem consensusBlocks_extends {m m' : Mempool} (h : m.Extends S m')
    (hne : ∀ d b, consensusBlocks m.store.db d = some b → ∀ p ∈ m'.written, S.blockHash p ≠ d) :
    consensusBlocks m'.store.db = consensusBlocks m.store.db := by
  funext d
  rcases h.entry d with heq | ⟨p, hp, hd, heq⟩
  · unfold consensusBlocks
    rw [heq]
  · have hnew : consensusBlocks m'.store.db d = none := by simp [consensusBlocks, heq]
    rw [hnew]
    cases hold : consensusBlocks m.store.db d with
    | none => rfl
    | some b => exact absurd hd (hne d b hold p hp)

/-- A consensus block is written. -/
theorem consensusBlocks_update (db : Digest → Option Entry) (d : Digest) (b : ConsensusBlock) :
    consensusBlocks (Function.update db d (some (.consensusBlock b))) =
      Function.update (consensusBlocks db) d (some b) := by
  funext d'
  by_cases hd : d' = d
  · subst hd
    simp [consensusBlocks]
  · simp [consensusBlocks, Function.update_of_ne hd]

/-- The core's own write, if a step makes one. -/
def Mempool.putBlock (S : Setup) (putOk : Bool) (m : Mempool) : Option ConsensusBlock → Mempool
  | some b => m.write putOk (S.hash b) (.consensusBlock b)
  | none => m

theorem Mempool.putBlock_written (putOk : Bool) (m : Mempool) (o : Option ConsensusBlock) :
    (m.putBlock S putOk o).written = m.written := by
  cases o <;> rfl

theorem Mempool.consensusBlocks_putBlock (m : Mempool) (o : Option ConsensusBlock) :
    consensusBlocks (m.putBlock S true o).store.db = match o with
      | some b => Function.update (consensusBlocks m.store.db) (S.hash b) (some b)
      | none => consensusBlocks m.store.db := by
  cases o with
  | none => rfl
  | some b =>
    dsimp only [Mempool.putBlock, Mempool.write]
    rw [Store.write_db rfl, consensusBlocks_update]

/-- The mempool after a step of the core: its own work, the core's write, and the channels. -/
theorem Replica.exists_mempoolAfter {made : Mempool} (hmade : r.mempool.Extends S made) (i : Input)
    (outs : List Output) : ∃ m, r.mempool.Extends S m ∧
      r.mempoolAfter S w made i outs =
        let m' := m.putBlock S w.putOk (r.hist.core.put? i)
        { m' with sync := { m'.sync with
            interChan := m'.sync.interChan ++ outs.filterMap Output.sync?
            loopBackChan := r.loopBackAfter i } } := by
  refine ⟨if outs.any Output.isCreate then made else r.mempool, ?_, ?_⟩
  · split_ifs
    · exact hmade
    · exact .refl S _
  · unfold Replica.mempoolAfter
    cases r.hist.core.put? i <;> rfl

theorem Hist.setStore_eq {store : Digest → Option ConsensusBlock} (h : store = x.core.store) :
    x.setStore store = x := by
  rw [h]
  rfl

/-- The blocks that were taken before a step are among those after it. -/
theorem ReplicaStep.taken {i : ReplicaInput} (h : ReplicaStep S M w r r' i outs) :
    ∀ b ∈ r.hist.taken, b ∈ r'.hist.taken := by
  intro b hb
  cases h with
  | core i y outs made payloads ht hmade hm h hmem hhist =>
    have hy : y.TookBlock b := step_invariant (I := fun z => z.TookBlock b)
      (fun hrule hz => hz.rule hrule) h (Hist.mem_taken.mp hb)
    rw [hhist]
    exact Hist.mem_taken.mpr hy
  | mempool i hi hmem hhist =>
    rw [hhist]
    exact hb

/-- So are the payloads that were written. -/
theorem ReplicaStep.written {i : ReplicaInput} (h : ReplicaStep S M w r r' i outs) :
    ∀ p ∈ r.mempool.written, p ∈ r'.mempool.written := by
  intro p hp
  cases h with
  | core i y outs made payloads ht hmade hm h hmem hhist =>
    obtain ⟨m, hm, heq⟩ := r.exists_mempoolAfter (w := w) hmade i outs
    rw [hmem, heq]
    dsimp only
    rw [Mempool.putBlock_written]
    exact hm.written p hp
  | mempool i hi hmem hhist => exact hmem.written p hp

/-- A replica that is separated after a step was separated before it. -/
theorem Separated.of_step {i : ReplicaInput} (h : ReplicaStep S M w r r' i outs)
    (hs : Separated S r') : Separated S r :=
  ⟨fun b hb b' hb' => hs.blocks b (h.taken b hb) b' (h.taken b' hb'),
    fun b hb p hp => hs.kinds b (h.taken b hb) p (h.written p hp)⟩

/-- What a step of a separated replica is to its core: a step of `Hist.step`, or nothing. -/
inductive Simulated (S : Setup) (w : Surroundings) (r r' : Replica) :
    ReplicaInput → List Output → Prop
  | core (i : Input) (outs : List Output) (made : Mempool) (payloads : List Digest)
      (ht : r.takes i = true) (hmade : r.mempool.Extends S made)
      (h : r.hist.step S (r.env w payloads) i = some (r'.hist, outs))
      (hmem : r'.mempool = r.mempoolAfter S w made i outs) : Simulated S w r r' (.consensus i) outs
  | stay (i : ReplicaInput) (hi : ∀ j, i ≠ .consensus j) (hmem : r.mempool.Extends S r'.mempool)
      (hhist : r'.hist = r.hist) : Simulated S w r r' i []

theorem ReplicaStep.simulated {i : ReplicaInput} (hput : w.putOk = true)
    (h : ReplicaStep S M w r r' i outs) (hprov : Provenance S r.hist) (hs : Separated S r') :
    Simulated S w r r' i outs := by
  -- No payload that the mempool writes has the hash of a stored block.
  have hne : ∀ (m : Mempool), (∀ p ∈ m.written, p ∈ r'.mempool.written) →
      (∀ b ∈ r.hist.taken, b ∈ r'.hist.taken) →
      ∀ d b, consensusBlocks r.mempool.store.db d = some b →
        ∀ p ∈ m.written, S.blockHash p ≠ d := by
    intro m hm htaken d b hb p hp heq
    rw [← r.store_eq] at hb
    obtain ⟨hhash, htook⟩ := hprov.store d b hb
    exact hs.kinds b (htaken b (Hist.mem_taken.mpr htook)) p (hm p hp) (hhash.trans heq.symm)
  have htaken := h.taken
  cases h with
  | core i y outs made payloads ht hmade hm h hmem hhist =>
    refine .core i outs made payloads ht hmade ?_ hmem
    obtain ⟨m, hext, heq⟩ := r.exists_mempoolAfter (w := w) hmade i outs
    have hwritten : r'.mempool.written = m.written := by
      rw [hmem, heq]
      exact Mempool.putBlock_written ..
    have hsame : consensusBlocks m.store.db = r.hist.core.store := by
      rw [r.store_eq]
      exact consensusBlocks_extends hext (hne m (fun p hp => hwritten ▸ hp) htaken)
    have hy : consensusBlocks r'.mempool.store.db = y.core.store := by
      rw [Hist.step_store hput h, hmem, heq, hput]
      dsimp only
      rw [Mempool.consensusBlocks_putBlock, hsame]
    rw [hhist, Hist.setStore_eq hy]
    exact h
  | mempool i hi hmem hhist =>
    refine .stay i hi hmem ?_
    rw [hhist]
    refine Hist.setStore_eq ?_
    rw [r.store_eq]
    exact consensusBlocks_extends hmem (hne _ (fun _ => id) htaken)

end SMVBA
