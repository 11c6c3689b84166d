import SMVBA.Mempool.Refinement

/-!
# What happens to the payloads

Payloads enter the store and the queue of a node through `HandleOwnBlock` and `HandleOthorBlock`,
and the store alone through `HandleMakeBlockMsg`. They leave the queue when `HandleMakeBlockMsg`
hands their digests to a consensus block. One lemma for each handler says which of this it does, and
when. A failed `DB.Put` has no effect on payloads, so nothing here asks for writes to succeed.

`Replica.step_payloads` says the same of a whole step of a replica, together with what the step
sends and which payloads the blocks list that it creates.
-/

namespace SMVBA

variable {S : Setup} {M : MempoolSetup}

/-- The message does not hand a payload to the receiver as its own. -/
def MempoolMsg.Foreign (msg : MempoolMsg) : Prop := ∀ b, msg ≠ .ownBlock (some b)

namespace Mempool

variable {m m' : Mempool} {putOk : Bool} {b : Block}

/-- The payloads of a mempool are as they were. -/
structure SamePayloads (m m' : Mempool) : Prop where
  queue : m'.queue = m.queue
  written : m'.written = m.written
  db : m'.store.db = m.store.db

/-- The store has taken a payload. -/
structure Stored (S : Setup) (b : Block) (m m' : Mempool) : Prop where
  written : m'.written = m.written ++ [b]
  db : m'.store.db = Function.update m.store.db (S.blockHash b) (some (.block b))

theorem SamePayloads.refl (m : Mempool) : SamePayloads m m := ⟨rfl, rfl, rfl⟩

/-! ## The handlers -/

/-- `StoreBlock` writes the block, or fails and leaves everything as it was. -/
theorem storeBlock_cases (S : Setup) (m : Mempool) (putOk : Bool) (b : Block) :
    (putOk = true ∧ (m.storeBlock S putOk b).err = none ∧ (m.storeBlock S putOk b).out = [] ∧
      (m.storeBlock S putOk b).mempool.queue = m.queue ∧
      Stored S b m (m.storeBlock S putOk b).mempool) ∨
    (putOk = false ∧ (m.storeBlock S putOk b).err = some .put ∧ (m.storeBlock S putOk b).out = [] ∧
      SamePayloads m (m.storeBlock S putOk b).mempool) := by
  cases putOk with
  | true => exact .inl ⟨rfl, rfl, rfl, rfl, rfl, rfl⟩
  | false => exact .inr ⟨rfl, rfl, rfl, rfl, rfl, rfl⟩

/-- `payloadProcess` writes the block and sends it to everyone, or fails. It writes exactly when
there is room in the queue and the database takes the block. -/
theorem payloadProcess_cases (S : Setup) (M : MempoolSetup) (m : Mempool)
    (putOk : Bool) (b : Block) :
    (m.full M = false ∧ putOk = true ∧ (m.payloadProcess S M putOk b).err = none ∧
      (m.payloadProcess S M putOk b).out = [⟨NONE, .otherBlock (some b)⟩] ∧
      (m.payloadProcess S M putOk b).mempool.queue = m.queue ∧
      Stored S b m (m.payloadProcess S M putOk b).mempool) ∨
    (¬ (m.full M = false ∧ putOk = true) ∧ (∃ e, (m.payloadProcess S M putOk b).err = some e) ∧
      (m.payloadProcess S M putOk b).out = [] ∧
      SamePayloads m (m.payloadProcess S M putOk b).mempool) := by
  unfold payloadProcess
  split_ifs with hfull
  · exact .inr ⟨by simp [hfull], ⟨_, rfl⟩, rfl, .refl m⟩
  · rcases storeBlock_cases S m putOk b with ⟨hput, herr, hout, hq, hs⟩ | ⟨hput, herr, hout, hs⟩
    · refine .inl ⟨by simpa using hfull, hput, ?_⟩
      split
      case h_1 heq =>
        rw [heq] at herr
        cases herr
      case h_2 m' out heq =>
        rw [heq] at hout hq hs
        have hnil : out = [] := hout
        rw [hnil]
        exact ⟨rfl, rfl, hq, hs⟩
    · refine .inr ⟨by simp [hput], ?_⟩
      split
      case h_1 heq =>
        rw [heq] at hout hs
        exact ⟨⟨_, rfl⟩, hout, hs⟩
      case h_2 heq =>
        rw [heq] at herr
        cases herr

/-- `HandleOwnBlock` accepts exactly the blocks that there is room for and that the database takes,
whoever has made them: it stores such a block, queues it and sends it to everyone. -/
theorem handleOwnBlock_cases (S : Setup) (M : MempoolSetup) (m : Mempool)
    (putOk : Bool) (b : Block) :
    (m.full M = false ∧ putOk = true ∧ (m.handleOwnBlock S M putOk (some b)).err = none ∧
      (m.handleOwnBlock S M putOk (some b)).out = [⟨NONE, .otherBlock (some b)⟩] ∧
      (m.handleOwnBlock S M putOk (some b)).mempool.queue = insert (S.blockHash b) m.queue ∧
      Stored S b m (m.handleOwnBlock S M putOk (some b)).mempool) ∨
    (¬ (m.full M = false ∧ putOk = true) ∧ (m.handleOwnBlock S M putOk (some b)).out = [] ∧
      SamePayloads m (m.handleOwnBlock S M putOk (some b)).mempool) := by
  unfold handleOwnBlock
  split_ifs with hfull
  · exact .inr ⟨by simp [hfull], rfl, .refl m⟩
  · dsimp only
    unfold enqueue
    rcases payloadProcess_cases S M m putOk b with
      ⟨hroom, hput, herr, hout, hq, hs⟩ | ⟨hno, ⟨e, herr⟩, hout, hs⟩
    · rw [herr]
      exact .inl ⟨hroom, hput, rfl, hout, congrArg (insert (S.blockHash b)) hq, hs.written, hs.db⟩
    · rw [herr]
      exact .inr ⟨hno, hout, hs⟩

/-- `HandleOthorBlock` accepts exactly the blocks that there is room for, whose signature verifies,
on which the read of the store fails, and that the database takes. It stores and queues such a
block, and sends nothing. -/
theorem handleOthorBlock_cases (S : Setup) (M : MempoolSetup) (m : Mempool)
    (putOk : Bool) (b : Block) :
    (m.full M = false ∧ b.verify S M = true ∧ (∃ e, m.getBlock S (S.blockHash b) = .error e) ∧
      putOk = true ∧ (m.handleOthorBlock S M putOk (some b)).err = none ∧
      (m.handleOthorBlock S M putOk (some b)).out = [] ∧
      (m.handleOthorBlock S M putOk (some b)).mempool.queue = insert (S.blockHash b) m.queue ∧
      Stored S b m (m.handleOthorBlock S M putOk (some b)).mempool) ∨
    (¬ (m.full M = false ∧ b.verify S M = true ∧
        (∃ e, m.getBlock S (S.blockHash b) = .error e) ∧ putOk = true) ∧
      (m.handleOthorBlock S M putOk (some b)).out = [] ∧
      SamePayloads m (m.handleOthorBlock S M putOk (some b)).mempool) := by
  unfold handleOthorBlock
  dsimp only
  split_ifs with hfull hverify
  · exact .inr ⟨by simp [hfull], rfl, .refl m⟩
  · exact .inr ⟨by simp [hverify], rfl, .refl m⟩
  · cases hget : m.getBlock S (S.blockHash b) with
    | ok found => exact .inr ⟨by simp, rfl, .refl m⟩
    | error e =>
      unfold enqueue
      dsimp only
      rcases storeBlock_cases S m putOk b with ⟨hput, herr, hout, hq, hs⟩ | ⟨hput, herr, hout, hs⟩
      · rw [herr]
        exact .inl ⟨by simpa using hfull, by simpa using hverify, ⟨e, rfl⟩, hput, rfl, hout,
          congrArg (insert (S.blockHash b)) hq, hs.written, hs.db⟩
      · rw [herr]
        exact .inr ⟨by simp [hput], hout, hs⟩

/-- `HandleRequestBlock` hands no node a payload as its own. -/
theorem foreign_of_serve (author : NodeID) (ds : List Digest) :
    ∀ s ∈ (m.serve S author ds).1, s.msg.Foreign := by
  induction ds with
  | nil => simp [serve]
  | cons d rest ih =>
    intro s hs b
    unfold serve at hs
    cases hb : m.getBlock S d with
    | error e => simp [hb] at hs
    | ok found =>
      simp only [hb, List.mem_cons] at hs
      rcases hs with rfl | hs
      · simp
      · exact ih s hs b

theorem takeDigests_sublist (nums : ℤ) (ds : List Digest) : (takeDigests nums ds).Sublist ds := by
  induction ds generalizing nums with
  | nil => exact List.Sublist.slnil
  | cons d rest ih =>
    unfold takeDigests
    refine List.Sublist.cons_cons d ?_
    split_ifs
    · exact List.nil_sublist rest
    · exact ih (nums - 1)

/-- From an empty queue `HandleMakeBlockMsg` hands out a new payload of the node, which it stores
and sends to everyone, or nothing. -/
theorem handleMakeBlockMsg_of_empty (S : Setup) (M : MempoolSetup) (m : Mempool) (putOk : Bool)
    (c : MakeChoice) (hempty : m.queue = ∅) :
    ((m.handleMakeBlockMsg S M putOk c).1.out =
        [⟨NONE, .otherBlock (some (newBlock S M m.name c.batch))⟩] ∧
      (m.handleMakeBlockMsg S M putOk c).2 = [S.blockHash (newBlock S M m.name c.batch)] ∧
      (m.handleMakeBlockMsg S M putOk c).1.mempool.queue = ∅ ∧
      Stored S (newBlock S M m.name c.batch) m (m.handleMakeBlockMsg S M putOk c).1.mempool) ∨
    ((m.handleMakeBlockMsg S M putOk c).1.out = [] ∧ (m.handleMakeBlockMsg S M putOk c).2 = [] ∧
      SamePayloads m (m.handleMakeBlockMsg S M putOk c).1.mempool) := by
  unfold handleMakeBlockMsg
  rw [if_pos hempty]
  dsimp only
  rcases payloadProcess_cases S M m putOk (newBlock S M m.name c.batch) with
    ⟨-, -, herr, hout, hq, hs⟩ | ⟨-, ⟨e, herr⟩, hout, hs⟩
  · split
    case h_1 heq =>
      rw [heq] at herr
      cases herr
    case h_2 m' out heq =>
      rw [heq] at hout hq hs
      exact .inl ⟨hout, rfl, hq.trans hempty, hs⟩
  · split
    case h_1 m' out e' heq =>
      rw [heq] at hout hs
      exact .inr ⟨hout, rfl, hs⟩
    case h_2 heq =>
      rw [heq] at herr
      cases herr

/-- From a queue that is not empty it takes digests. -/
theorem handleMakeBlockMsg_of_ne (S : Setup) (M : MempoolSetup) (m : Mempool) (putOk : Bool)
    (c : MakeChoice) (hne : m.queue ≠ ∅) :
    m.handleMakeBlockMsg S M putOk c =
      (⟨{ m with queue := m.queue \ (takeDigests M.maxPayloadSize c.order).toFinset }, [], none⟩,
        takeDigests M.maxPayloadSize c.order) :=
  if_neg hne

/-- What `HandleMakeBlockMsg` hands out: a new payload of the node when the queue is empty, or
digests of the queue, which leave it. From an empty queue it may also fail. -/
inductive Made (S : Setup) (M : MempoolSetup) (m : Mempool) (c : MakeChoice) :
    Mempool → List MempoolSend → List Digest → Prop
  | new (m' : Mempool) (hempty : m.queue = ∅) (hq : m'.queue = ∅)
      (hs : Stored S (newBlock S M m.name c.batch) m m') :
      Made S M m c m' [⟨NONE, .otherBlock (some (newBlock S M m.name c.batch))⟩]
        [S.blockHash (newBlock S M m.name c.batch)]
  | failed (m' : Mempool) (hs : SamePayloads m m') : Made S M m c m' [] []
  | queued (ds : List Digest) (hds : ds.Sublist c.order) :
      Made S M m c { m with queue := m.queue \ ds.toFinset } [] ds

theorem handleMakeBlockMsg_made (S : Setup) (M : MempoolSetup) (m : Mempool) (putOk : Bool)
    (c : MakeChoice) : Made S M m c (m.handleMakeBlockMsg S M putOk c).1.mempool
      (m.handleMakeBlockMsg S M putOk c).1.out (m.handleMakeBlockMsg S M putOk c).2 := by
  by_cases hempty : m.queue = ∅
  · rcases m.handleMakeBlockMsg_of_empty S M putOk c hempty with
      ⟨hout, hret, hq, hs⟩ | ⟨hout, hret, hs⟩
    · rw [hout, hret]
      exact .new _ hempty hq hs
    · rw [hout, hret]
      exact .failed _ hs
  · rw [m.handleMakeBlockMsg_of_ne S M putOk c hempty]
    exact .queued _ (takeDigests_sublist _ _)

/-- The synchronizer does not touch the payloads. -/
theorem syncStep_samePayloads {now : ℤ} {e : SyncEvent} {out : List MempoolSend}
    (h : m.syncStep M now e = some (m', out)) : SamePayloads m m' := by
  cases e with
  | inter =>
    obtain ⟨⟨sync, out'⟩, -, heq⟩ := Option.map_eq_some_iff.mp h
    cases heq
    exact ⟨rfl, rfl, rfl⟩
  | tick =>
    cases h
    exact ⟨rfl, rfl, rfl⟩
  | ask k =>
    obtain ⟨⟨sync, store⟩, hask, heq⟩ := Option.map_eq_some_iff.mp h
    cases heq
    refine ⟨rfl, rfl, ?_⟩
    unfold Synchronizer.ask at hask
    split at hask
    case h_1 =>
      cases hask
      exact Store.notifyRead_db
    case h_2 => cases hask
  | waiting | resume k | finish k | notified k =>
    obtain ⟨sync, -, heq⟩ := Option.map_eq_some_iff.mp h
    cases heq
    exact ⟨rfl, rfl, rfl⟩

/-- It sends requests, and no payload. -/
theorem foreign_of_syncStep {now : ℤ} {e : SyncEvent} {out : List MempoolSend}
    (h : m.syncStep M now e = some (m', out)) : ∀ s ∈ out, s.msg.Foreign := by
  have hrequest : ∀ {author : NodeID} {ds : List Digest},
      (MempoolMsg.requestBlock ds author).Foreign := fun b => by simp
  cases e with
  | inter =>
    obtain ⟨⟨sync, out'⟩, hrun, heq⟩ := Option.map_eq_some_iff.mp h
    cases heq
    unfold Synchronizer.runInter at hrun
    split at hrun
    case h_1 => cases hrun
    case h_2 req rest hchan =>
      unfold Synchronizer.runBlock at hrun
      split_ifs at hrun
      · cases hrun
        simp
      · cases hrun
        simpa using hrequest
    case h_3 =>
      cases hrun
      simp
  | tick =>
    cases h
    intro s hs
    obtain ⟨entry, -, rfl⟩ := List.mem_map.mp hs
    exact hrequest
  | ask k =>
    obtain ⟨⟨sync, store⟩, -, heq⟩ := Option.map_eq_some_iff.mp h
    cases heq
    simp
  | waiting | resume k | finish k | notified k =>
    obtain ⟨sync, -, heq⟩ := Option.map_eq_some_iff.mp h
    cases heq
    simp

end Mempool

/-! ## The steps of a replica -/

/-- The core has written a consensus block, or none. The write may only cover payloads. -/
structure Mempool.Wrote (o : Option ConsensusBlock) (m m' : Mempool) : Prop where
  queue : m'.queue = m.queue
  written : m'.written = m.written
  db : ∀ d e, m'.store.db d = some e → m.store.db d = some e ∨ ∃ cb ∈ o, e = .consensusBlock cb

theorem Mempool.Wrote.block {o : Option ConsensusBlock} {m m' : Mempool}
    (h : m.Wrote o m') {d : Digest}
    {b : Block} (hb : m'.store.db d = some (.block b)) : m.store.db d = some (.block b) := by
  rcases h.db d _ hb with hold | ⟨cb, -, hcb⟩
  · exact hold
  · cases hcb

theorem Mempool.wrote_putBlock (S : Setup) (putOk : Bool) (m : Mempool)
    (o : Option ConsensusBlock) :
    m.Wrote o (m.putBlock S putOk o) := by
  cases o with
  | none => exact ⟨rfl, rfl, fun d e he => .inl he⟩
  | some cb =>
    refine ⟨rfl, rfl, fun d e he => ?_⟩
    cases putOk with
    | false => exact .inl he
    | true =>
      have hupdate : Function.update m.store.db (S.hash cb)
        (some (.consensusBlock cb)) d = some e := he
      by_cases hd : d = S.hash cb
      · subst hd
        rw [Function.update_self] at hupdate
        cases hupdate
        exact .inr ⟨cb, rfl, rfl⟩
      · rw [Function.update_of_ne hd] at hupdate
        exact .inl hupdate

/-- What a step of a replica does to its payloads, what it sends of them, and which ones the blocks
list that it creates. -/
inductive PayloadStep (S : Setup) (M : MempoolSetup) (w : Surroundings) (r r' : Replica) :
    ReplicaInput → List Output → List MempoolSend → Prop
  /-- `HandleOwnBlock` accepts a block. -/
  | own (b : Block) (hq : r'.mempool.queue = insert (S.blockHash b) r.mempool.queue)
      (hs : r.mempool.Stored S b r'.mempool) :
      PayloadStep S M w r r' (.mempool (.ownBlock (some b))) [] [⟨NONE, .otherBlock (some b)⟩]
  /-- `HandleOthorBlock` accepts a block. -/
  | other (b : Block) (hverify : b.verify S M = true)
      (hq : r'.mempool.queue = insert (S.blockHash b) r.mempool.queue)
      (hs : r.mempool.Stored S b r'.mempool) :
      PayloadStep S M w r r' (.mempool (.otherBlock (some b))) [] []
  /-- A handler of the mempool or the synchronizer changes no payload. -/
  | idle (i : ReplicaInput) (sends : List MempoolSend) (hs : r.mempool.SamePayloads r'.mempool)
      (hsends : ∀ s ∈ sends, s.msg.Foreign) : PayloadStep S M w r r' i [] sends
  /-- `HandleCleanBlock`. -/
  | clean (digests : List Digest) (epoch : ℤ)
      (hq : r'.mempool.queue = r.mempool.queue \ digests.toFinset)
      (hw : r'.mempool.written = r.mempool.written)
      (hdb : r'.mempool.store.db = r.mempool.store.db) :
      PayloadStep S M w r r' (.clean digests epoch) [] []
  /-- The core creates no block. -/
  | core (i : Input) (outs : List Output) (hnone : ∀ cb, .create cb ∉ outs)
      (hw : r.mempool.Wrote (r.hist.core.put? i) r'.mempool) :
      PayloadStep S M w r r' (.consensus i) outs []
  /-- The core creates a block of what the mempool has handed out. -/
  | create (i : Input) (outs : List Output) (sends : List MempoolSend) (made : Mempool)
      (payloads : List Digest) (hmake : w.make.Of r.mempool)
      (hmade : r.mempool.Made S M w.make made sends payloads)
      (hsome : ∃ cb, .create cb ∈ outs) (hall : ∀ cb, .create cb ∈ outs → cb.payLoads = payloads)
      (hw : made.Wrote (r.hist.core.put? i) r'.mempool) :
      PayloadStep S M w r r' (.consensus i) outs sends

variable {w : Surroundings} {r r' : Replica} {outs : List Output} {sends : List MempoolSend}

theorem any_isCreate_iff : outs.any Output.isCreate = true ↔ ∃ cb, .create cb ∈ outs := by
  rw [List.any_eq_true]
  constructor
  · rintro ⟨o, ho, hc⟩
    cases o with
    | create cb => exact ⟨cb, ho⟩
    | _ => cases hc
  · rintro ⟨cb, hcb⟩
    exact ⟨_, hcb, rfl⟩

/-- The mempool after a step of the core is the one that has handed out payloads, if the step has
created a block, and else the one from before, with what the core has written itself. -/
theorem Replica.wrote_mempoolAfter (S : Setup) (w : Surroundings) (r : Replica) (made : Mempool)
    (i : Input) (outs : List Output) :
    (if outs.any Output.isCreate = true then made else r.mempool).Wrote (r.hist.core.put? i)
      (r.mempoolAfter S w made i outs) := by
  have hput := Mempool.wrote_putBlock S w.putOk
    (if outs.any Output.isCreate = true then made else r.mempool) (r.hist.core.put? i)
  unfold Replica.mempoolAfter
  cases hcb : r.hist.core.put? i with
  | none =>
    rw [hcb] at hput
    exact ⟨hput.queue, hput.written, hput.db⟩
  | some cb =>
    rw [hcb] at hput
    exact ⟨hput.queue, hput.written, hput.db⟩

theorem Replica.step_payloads {i : ReplicaInput} (h : r.step S M w i = some (r', outs, sends)) :
    PayloadStep S M w r r' i outs sends := by
  unfold Replica.step at h
  split_ifs at h
  cases i with
  | consensus i =>
    dsimp only [Replica.consensusStep] at h
    split_ifs at h with ht
    split at h
    case h_1 => cases h
    case h_2 y outs' hstep =>
      cases h
      have hcreated := (Hist.step_created hstep).2
      -- The mempool makes a block only if the core asks for one in this step. Otherwise what
      -- `handleMakeBlockMsg` computes is thrown away.
      have hwrote := r.wrote_mempoolAfter S w
        (r.mempool.handleMakeBlockMsg S M w.putOk w.make).1.mempool i outs
      have hmade := Mempool.handleMakeBlockMsg_made S M r.mempool w.putOk w.make
      split_ifs at hwrote ⊢ with hany
      · exact .create i outs _ _ _ ht.2 hmade (any_isCreate_iff.mp hany)
          (fun cb hcb => (hcreated cb hcb).2.1) hwrote
      · exact .core i outs (fun cb hcb => hany (any_isCreate_iff.mpr ⟨cb, hcb⟩)) hwrote
  | mempool msg =>
    cases h
    cases msg with
    | ownBlock b =>
      cases b with
      | none =>
        dsimp only [Mempool.handle, Mempool.handleOwnBlock]
        split_ifs
        · exact .idle _ _ (.refl _) (by simp)
        · exact .idle _ _ (.refl _) (by simp)
      | some b =>
        dsimp only [Mempool.handle]
        rcases r.mempool.handleOwnBlock_cases S M w.putOk b with
          ⟨-, -, -, hout, hq, hs⟩ | ⟨-, hout, hs⟩
        · rw [hout]
          exact .own b hq hs
        · rw [hout]
          exact .idle _ _ hs (by simp)
    | otherBlock b =>
      cases b with
      | none => exact .idle _ _ (.refl _) (by simp [Mempool.handle, Mempool.handleOthorBlock])
      | some b =>
        dsimp only [Mempool.handle]
        rcases r.mempool.handleOthorBlock_cases S M w.putOk b with
          ⟨-, hverify, -, -, -, hout, hq, hs⟩ | ⟨-, hout, hs⟩
        · rw [hout]
          exact .other b hverify hq hs
        · rw [hout]
          exact .idle _ _ hs (by simp)
    | requestBlock digests author =>
      exact .idle _ _ (.refl _) (Mempool.foreign_of_serve author digests)
  | clean digests epoch =>
    cases h
    exact .clean digests epoch rfl rfl rfl
  | sync e =>
    obtain ⟨⟨m, out⟩, hsync, heq⟩ := Option.map_eq_some_iff.mp h
    cases heq
    exact .idle _ _ (Mempool.syncStep_samePayloads hsync) (Mempool.foreign_of_syncStep hsync)

/-! ## Signatures -/

/-- A node's signatures verify under the key that the committee has for it. -/
def MempoolSetup.SignsVerify (M : MempoolSetup) : Prop :=
  ∀ q d, M.verify (M.requestSignature q d) q d = true

/-- The payloads that a node makes verify. The hash does not read the signature. -/
theorem newBlock_verify (hsig : M.SignsVerify) (q : NodeID) (batch : Batch) :
    (newBlock S M q batch).verify S M = true := hsig q _

/-- A step writes at most one payload: one that it takes as the node's own, or one that verifies. -/
theorem PayloadStep.written_cases {i : ReplicaInput} (hsig : M.SignsVerify)
    (h : PayloadStep S M w r r' i outs sends) :
    r'.mempool.written = r.mempool.written ∨
      ∃ b, r'.mempool.written = r.mempool.written ++ [b] ∧
        (i = .mempool (.ownBlock (some b)) ∨ b.verify S M = true) := by
  cases h with
  | own b hq hs => exact .inr ⟨b, hs.written, .inl rfl⟩
  | other b hverify hq hs => exact .inr ⟨b, hs.written, .inr hverify⟩
  | idle i sends hs hsends => exact .inl hs.written
  | clean digests epoch hq hw hdb => exact .inl hw
  | core i outs hnone hw => exact .inl hw.written
  | create i outs sends made payloads hmake hmade hsome hall hw =>
    rw [hw.written]
    cases hmade with
    | new m' hempty hq hs => exact .inr ⟨_, hs.written, .inr (newBlock_verify hsig _ _)⟩
    | failed m' hs => exact .inl hs.written
    | queued ds hds => exact .inl rfl

/-! ## Blocks in the store -/

/-- A consensus block in the store after a step was there before, or the core has written it in the
step. A payload with the same hash may have covered others. -/
theorem Replica.step_store {i : ReplicaInput}
    (h : r.step S M w i = some (r', outs, sends)) {d : Digest}
    {cb : ConsensusBlock} (hcb : r'.hist.core.store d = some cb) :
    r.hist.core.store d = some cb ∨ ∃ j, i = .consensus j ∧ r.hist.core.put? j = some cb := by
  have hentry : ∀ {x : Replica}, x.hist.core.store d = some cb ↔
      x.mempool.store.db d = some (.consensusBlock cb) := by
    intro x
    rw [x.store_eq]
    unfold consensusBlocks
    split
    case h_1 b heq => simp [heq]
    case h_2 hne => simpa using hne cb
  -- A payload is another entry of the database.
  have hstored : ∀ {m m' : Mempool} {b : Block}, m.Stored S b m' →
      m'.store.db d = some (.consensusBlock cb) → m.store.db d = some (.consensusBlock cb) := by
    intro m m' b hs hd
    rw [hs.db] at hd
    by_cases hkey : d = S.blockHash b
    · subst hkey
      rw [Function.update_self] at hd
      cases hd
    · rwa [Function.update_of_ne hkey] at hd
  rw [hentry] at hcb ⊢
  cases Replica.step_payloads h with
  | own b hq hs | other b hverify hq hs => exact .inl (hstored hs hcb)
  | idle i sends hs hsends => exact .inl (hs.db ▸ hcb)
  | clean digests epoch hq hw hdb => exact .inl (hdb ▸ hcb)
  | core i outs hnone hw =>
    rcases hw.db d _ hcb with hold | ⟨cb', hput, heq⟩
    · exact .inl hold
    · cases heq
      exact .inr ⟨i, rfl, hput⟩
  | create i outs sends made payloads hmake hmade hsome hall hw =>
    rcases hw.db d _ hcb with hold | ⟨cb', hput, heq⟩
    · left
      cases hmade with
      | new m' hempty hq hs => exact hstored hs hold
      | failed m' hs => exact hs.db ▸ hold
      | queued ds hds => exact hold
    · cases heq
      exact .inr ⟨i, rfl, hput⟩

/-- The blocks that a step of a replica adds to the created ones. -/
theorem Replica.step_created {i : ReplicaInput} (h : r.step S M w i = some (r', outs, sends)) :
    r'.hist.created = r.hist.created ++ outs.filterMap Output.created? := by
  rcases Replica.step_hist h with ⟨j, y, -, hstep, hhist⟩ | ⟨rfl, -, hhist⟩
  · rw [hhist]
    exact (Hist.step_created hstep).1
  · rw [hhist]
    exact (List.append_nil _).symm

end SMVBA
