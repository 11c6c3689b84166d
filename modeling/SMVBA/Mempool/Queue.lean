import SMVBA.Mempool.Availability
import SMVBA.Mempool.Payloads

/-!
# The queue of a mempool

Runs of the five handlers that use the queue, `HandleOwnBlock`, `HandleOthorBlock`,
`HandleRequestBlock`, `HandleMakeBlockMsg` and `HandleCleanBlock`, in any order, where any write of
the database may fail. `Effect` says what one call does to the queue and the store, and everything
else is read off it.

The queue never has more than `MaxQueenSize` digests, all of payloads that the store holds, and a
call that fails leaves it as it was. What `HandleMakeBlockMsg` returns can be verified and served
from then on (`queue_sound`). A digest that has left the queue never returns to it, if the node's
own payloads are new when they are submitted (`queue_drained_once`).
-/

namespace SMVBA

open Mempool

variable {S : Setup} {M : MempoolSetup} {name : NodeID} {m m' : Mempool} {b : Block} {d : Digest}

/-! ## Calls -/

/-- A call of a handler. A request for a consensus block comes with its `MaxBlockSize`. -/
inductive MempoolCall where
  | own (b : Option Block)
  | other (b : Option Block)
  | request (digests : List Digest) (author : NodeID)
  | make (maxBlockSize : ℤ) (c : MakeChoice)
  | clean (digests : List Digest) (epoch : ℤ)

namespace MempoolCall

/-- The block that a call brings. -/
def block : MempoolCall → Option Block
  | .own b => b
  | .other b => b
  | _ => none

/-- Where Go ranges over the queue, it does so in some order. -/
def Of (m : Mempool) : MempoolCall → Prop
  | .make _ c => c.Of m
  | _ => True

instance (call : MempoolCall) : Decidable (call.Of m) := by
  unfold Of
  split <;> infer_instance

end MempoolCall

/-- A call, with what it returns besides its error. -/
def Mempool.call (S : Setup) (M : MempoolSetup) (m : Mempool) (putOk : Bool) :
    MempoolCall → MempoolOutcome × List Digest
  | .own b => (m.handleOwnBlock S M putOk b, [])
  | .other b => (m.handleOthorBlock S M putOk b, [])
  | .request digests author => (m.handleRequestBlock S digests author, [])
  | .make size c => m.handleMakeBlockMsg S { M with maxPayloadSize := size } putOk c
  | .clean digests epoch => (m.handleCleanBlock digests epoch, [])

/-- A call in a run: the mempool before it, whether the database takes a write, and the call. -/
structure MempoolStep where
  before : Mempool
  putOk : Bool
  call : MempoolCall

namespace MempoolStep

/-- What the call does. -/
def outcome (S : Setup) (M : MempoolSetup) (st : MempoolStep) : MempoolOutcome :=
  (st.before.call S M st.putOk st.call).1

/-- What the call returns. -/
def returned (S : Setup) (M : MempoolSetup) (st : MempoolStep) : List Digest :=
  (st.before.call S M st.putOk st.call).2

/-- What the call returns from the queue. -/
def drained (S : Setup) (M : MempoolSetup) (st : MempoolStep) : List Digest :=
  if st.before.queue = ∅ then [] else st.returned S M

end MempoolStep

/-- A run of a new mempool. -/
inductive MempoolRun (S : Setup) (M : MempoolSetup) (name : NodeID) :
    List MempoolStep → Mempool → Prop
  | init : MempoolRun S M name [] { name := name }
  | step {steps : List MempoolStep} {m : Mempool} (h : MempoolRun S M name steps m) (putOk : Bool)
      (call : MempoolCall) (hof : call.Of m) :
      MempoolRun S M name (steps ++ [⟨m, putOk, call⟩]) (m.call S M putOk call).1.mempool

/-! ## What a call does -/

/-- The effect of a call on the queue and the store: none, a payload that enters both, a new payload
that enters the store from an empty queue, digests that are taken from the queue, and digests that
are removed from it. -/
inductive Effect (S : Setup) (M : MempoolSetup) (m : Mempool) :
    MempoolCall → MempoolOutcome → List Digest → Prop
  | idle {call : MempoolCall} {o : MempoolOutcome} (hs : SamePayloads m o.mempool) :
      Effect S M m call o []
  | put {call : MempoolCall} {o : MempoolOutcome} (b : Block) (hb : call.block = some b)
      (hnew : (∃ b, call = .own b) ∨ ∃ e, m.getBlock S (S.blockHash b) = .error e)
      (hroom : m.full M = false) (hok : o.err = none)
      (hq : o.mempool.queue = insert (S.blockHash b) m.queue) (hs : Stored S b m o.mempool) :
      Effect S M m call o []
  | new {call : MempoolCall} {o : MempoolOutcome} (b : Block) (hempty : m.queue = ∅)
      (hq : o.mempool.queue = ∅) (hs : Stored S b m o.mempool) :
      Effect S M m call o [S.blockHash b]
  | take {o : MempoolOutcome} (size : ℤ) (c : MakeChoice) (hne : m.queue ≠ ∅) (hok : o.err = none)
      (hq : o.mempool.queue = m.queue \ (takeDigests size c.order).toFinset)
      (hdb : o.mempool.store.db = m.store.db) :
      Effect S M m (.make size c) o (takeDigests size c.order)
  | clean {o : MempoolOutcome} (digests : List Digest) (epoch : ℤ) (hok : o.err = none)
      (hq : o.mempool.queue = m.queue \ digests.toFinset)
      (hdb : o.mempool.store.db = m.store.db) :
      Effect S M m (.clean digests epoch) o []

/-- Every call has one of the effects. -/
theorem call_effect (S : Setup) (M : MempoolSetup) (m : Mempool) (putOk : Bool)
    (call : MempoolCall) :
    Effect S M m call (m.call S M putOk call).1 (m.call S M putOk call).2 := by
  cases call with
  | own b =>
    cases b with
    | none =>
      have hsame : SamePayloads m (m.handleOwnBlock S M putOk none).mempool := by
        unfold handleOwnBlock
        split_ifs
        · exact .refl m
        · exact .refl m
      exact .idle hsame
    | some b =>
      rcases m.handleOwnBlock_cases S M putOk b with ⟨hroom, -, hok, -, hq, hs⟩ | ⟨-, -, hs⟩
      · exact .put b rfl (.inl ⟨_, rfl⟩) hroom hok hq hs
      · exact .idle hs
  | other b =>
    cases b with
    | none => exact .idle (.refl m)
    | some b =>
      rcases m.handleOthorBlock_cases S M putOk b with
        ⟨hroom, -, hnew, -, hok, -, hq, hs⟩ | ⟨-, -, hs⟩
      · exact .put b rfl (.inr hnew) hroom hok hq hs
      · exact .idle hs
  | request digests author => exact .idle (.refl m)
  | make size c =>
    by_cases hempty : m.queue = ∅
    · rcases m.handleMakeBlockMsg_of_empty S { M with maxPayloadSize := size } putOk c hempty with
        ⟨-, hret, hq, hs⟩ | ⟨-, hret, hs⟩
      · dsimp only [Mempool.call]
        rw [hret]
        exact .new _ hempty hq hs
      · dsimp only [Mempool.call]
        rw [hret]
        exact .idle hs
    · have htake := m.handleMakeBlockMsg_of_ne S { M with maxPayloadSize := size } putOk c hempty
      dsimp only [Mempool.call]
      rw [htake]
      exact .take size c hempty rfl rfl rfl
  | clean digests epoch => exact .clean digests epoch rfl rfl rfl

/-! ## The payloads that a mempool holds -/

/-- The payload that the store holds under a digest. -/
def Mempool.payload? (m : Mempool) (d : Digest) : Option Block :=
  match m.store.db d with
  | some (.block b) => some b
  | _ => none

theorem payload?_eq_some : m.payload? d = some b ↔ m.store.db d = some (.block b) := by
  unfold Mempool.payload?
  split
  case h_1 b' hdb => simp [hdb]
  case h_2 hdb => simpa using hdb b

/-- A payload that is there is read. -/
theorem getBlock_of_some (h : m.payload? d = some b) : m.getBlock S d = .ok (some b) := by
  unfold Mempool.getBlock Store.read
  rw [payload?_eq_some.mp h]
  rfl

/-- The store holds the payload with the digest. -/
def Mempool.HoldsPayload (S : Setup) (m : Mempool) (d : Digest) : Prop :=
  ∃ b, m.payload? d = some b ∧ S.blockHash b = d

/-- A payload that is written is held, and no other is lost. -/
theorem holdsPayload_stored (hs : Stored S b m m') (h : d = S.blockHash b ∨ m.HoldsPayload S d) :
    m'.HoldsPayload S d := by
  by_cases hd : d = S.blockHash b
  · refine ⟨b, payload?_eq_some.mpr ?_, hd.symm⟩
    rw [hs.db, hd, Function.update_self]
  · obtain ⟨b', hb', hhash⟩ := h.resolve_left hd
    refine ⟨b', payload?_eq_some.mpr ?_, hhash⟩
    rw [hs.db, Function.update_of_ne hd]
    exact payload?_eq_some.mp hb'

theorem holdsPayload_of_db (hdb : m'.store.db = m.store.db) (h : m.HoldsPayload S d) :
    m'.HoldsPayload S d := by
  obtain ⟨b, hb, hhash⟩ := h
  refine ⟨b, payload?_eq_some.mpr ?_, hhash⟩
  rw [hdb]
  exact payload?_eq_some.mp hb

section Effects

variable {call : MempoolCall} {o : MempoolOutcome} {ds : List Digest} (h : Effect S M m call o ds)

include h

/-- No call loses a payload. -/
theorem Effect.holdsPayload (hd : m.HoldsPayload S d) : o.mempool.HoldsPayload S d := by
  cases h with
  | idle hs => exact holdsPayload_of_db hs.db hd
  | put b hb hnew hroom hok hq hs => exact holdsPayload_stored hs (.inr hd)
  | new b hempty hq hs => exact holdsPayload_stored hs (.inr hd)
  | take size c hne hok hq hdb => exact holdsPayload_of_db hdb hd
  | clean digests epoch hok hq hdb => exact holdsPayload_of_db hdb hd

/-- A digest that a call puts into the queue is that of the payload that it brings and stores, and
the payload is one of the node, or was not held before. -/
theorem Effect.queue (hd : d ∈ o.mempool.queue) :
    d ∈ m.queue ∨ (o.mempool.HoldsPayload S d ∧ (∃ b, call.block = some b ∧ S.blockHash b = d) ∧
      ((∃ b, call = .own (some b) ∧ S.blockHash b = d) ∨ ¬ m.HoldsPayload S d)) := by
  by_cases hold : d ∈ m.queue
  · exact .inl hold
  refine .inr ?_
  cases h with
  | idle hs => exact absurd (hs.queue ▸ hd) hold
  | put b hb hnew hroom hok hq hs =>
    rw [hq] at hd
    have heq : d = S.blockHash b := (Finset.mem_insert.mp hd).resolve_right hold
    refine ⟨holdsPayload_stored hs (.inl heq), ⟨b, hb, heq.symm⟩, ?_⟩
    rcases hnew with ⟨b', rfl⟩ | ⟨e, hget⟩
    · exact .inl ⟨b, congrArg MempoolCall.own hb, heq.symm⟩
    · -- A payload that is held is found, and is not stored again.
      rw [← heq] at hget
      refine .inr fun ⟨b', hb', _⟩ => ?_
      rw [getBlock_of_some hb'] at hget
      cases hget
  | new b hempty hq hs =>
    rw [hq] at hd
    exact absurd hd (Finset.notMem_empty d)
  | take size c hne hok hq hdb =>
    rw [hq] at hd
    exact absurd (Finset.mem_sdiff.mp hd).1 hold
  | clean digests epoch hok hq hdb =>
    rw [hq] at hd
    exact absurd (Finset.mem_sdiff.mp hd).1 hold

/-- What a call returns from the queue was in it, and no longer is. -/
theorem Effect.taken (hof : call.Of m) (hne : m.queue ≠ ∅) :
    ds.Nodup ∧ ∀ d ∈ ds, d ∈ m.queue ∧ d ∉ o.mempool.queue := by
  cases h with
  | idle hs => simp
  | put b hb hnew hroom hok hq hs => simp
  | new b hempty hq hs => exact absurd hempty hne
  | take size c hne hok hq hdb =>
    have hsub := takeDigests_sublist size c.order
    refine ⟨hsub.nodup hof.1, fun d hd => ?_⟩
    have horder : d ∈ c.order.toFinset := List.mem_toFinset.mpr (hsub.subset hd)
    rw [hof.2] at horder
    rw [hq]
    exact ⟨horder, fun hmem => (Finset.mem_sdiff.mp hmem).2 (List.mem_toFinset.mpr hd)⟩
  | clean digests epoch hok hq hdb => simp

/-- A call that puts a digest into the queue has room for it. -/
theorem Effect.card_le (hcard : m.queue.card ≤ M.maxQueenSize) :
    o.mempool.queue.card ≤ M.maxQueenSize := by
  cases h with
  | idle hs =>
    rw [hs.queue]
    exact hcard
  | put b hb hnew hroom hok hq hs =>
    have hlt : m.queue.card < M.maxQueenSize := by
      unfold Mempool.full at hroom
      exact Nat.not_le.mp (of_decide_eq_false hroom)
    have hinsert := Finset.card_insert_le (S.blockHash b) m.queue
    rw [hq]
    omega
  | new b hempty hq hs =>
    rw [hq, Finset.card_empty]
    exact Nat.zero_le _
  | take size c hne hok hq hdb =>
    rw [hq]
    exact (Finset.card_le_card Finset.sdiff_subset).trans hcard
  | clean digests epoch hok hq hdb =>
    rw [hq]
    exact (Finset.card_le_card Finset.sdiff_subset).trans hcard

/-- A call that fails leaves the queue as it was. -/
theorem Effect.queue_of_err (herr : o.err ≠ none) : o.mempool.queue = m.queue := by
  cases h with
  | idle hs => exact hs.queue
  | put b hb hnew hroom hok hq hs => exact absurd hok herr
  | new b hempty hq hs => rw [hq, hempty]
  | take size c hne hok hq hdb => exact absurd hok herr
  | clean digests epoch hok hq hdb => exact absurd hok herr

/-- What a call returns is held, if the queue was. -/
theorem Effect.returned_held (hof : call.Of m) (hqueue : ∀ d ∈ m.queue, m.HoldsPayload S d) :
    ∀ d ∈ ds, o.mempool.HoldsPayload S d := by
  intro d hd
  cases h with
  | idle hs => cases hd
  | put b hb hnew hroom hok hq hs => cases hd
  | new b hempty hq hs => exact holdsPayload_stored hs (.inl (List.mem_singleton.mp hd))
  | take size c hne hok hq hdb =>
    have horder : d ∈ c.order.toFinset :=
      List.mem_toFinset.mpr ((takeDigests_sublist size c.order).subset hd)
    rw [hof.2] at horder
    exact holdsPayload_of_db hdb (hqueue d horder)
  | clean digests epoch hok hq hdb => cases hd

end Effects

/-! ## What is in the queue, and what leaves it -/

/-- A payload that is held passes `Verify`. -/
theorem verify_of_held {ds : List Digest} (h : ∀ d ∈ ds, m.HoldsPayload S d) (sync : Synchronizer)
    (proposer : NodeID) (epoch : ℤ) (blockHash : Digest) :
    (sync.verify m.store proposer epoch ds blockHash).2 = .ok := by
  have hmissing : (ds.filter fun d => (m.store.read d).isNone) = [] := by
    rw [List.filter_eq_nil_iff]
    intro d hd
    obtain ⟨b, hb, -⟩ := h d hd
    have hread : m.store.read d = some (.block b) := payload?_eq_some.mp hb
    simp [hread]
  unfold Synchronizer.verify
  rw [hmissing]
  rfl

/-- Payloads that are held are served, one after the other. -/
theorem serve_of_held {ds : List Digest} (h : ∀ d ∈ ds, m.HoldsPayload S d) (author : NodeID) :
    ∃ bs : List Block, bs.map S.blockHash = ds ∧
      (∀ b ∈ bs, m.payload? (S.blockHash b) = some b) ∧
      m.serve S author ds = (bs.map fun b => ⟨author, .otherBlock (some b)⟩, none) := by
  induction ds with
  | nil => exact ⟨[], rfl, by simp, rfl⟩
  | cons d ds ih =>
    obtain ⟨b, hfound, hb⟩ := h d List.mem_cons_self
    obtain ⟨bs, hbs, hheld, hserve⟩ := ih fun d' hd' => h d' (List.mem_cons_of_mem d hd')
    refine ⟨b :: bs, by rw [List.map_cons, hb, hbs], ?_, ?_⟩
    · exact List.forall_mem_cons.mpr ⟨by rw [hb, hfound], hheld⟩
    unfold Mempool.serve
    rw [getBlock_of_some hfound, hserve]
    rfl

/-- What holds of the queue and of the store after a run. -/
structure QueueFacts (S : Setup) (M : MempoolSetup) (steps : List MempoolStep) (m : Mempool) :
    Prop where
  card : m.queue.card ≤ M.maxQueenSize
  queued : ∀ d ∈ m.queue, m.HoldsPayload S d
  returned : ∀ st ∈ steps, ∀ d ∈ st.returned S M, m.HoldsPayload S d

/-- The facts hold after every run. -/
theorem MempoolRun.queueFacts {steps : List MempoolStep} (hr : MempoolRun S M name steps m) :
    QueueFacts S M steps m := by
  induction hr with
  | init => exact ⟨Nat.zero_le _, by simp, by simp⟩
  | @step steps m hr putOk call hof ih =>
    have heffect := call_effect S M m putOk call
    refine ⟨heffect.card_le ih.card, fun d hd => ?_, fun st hst d hd => ?_⟩
    · rcases heffect.queue hd with hold | ⟨hheld, -⟩
      · exact heffect.holdsPayload (ih.queued d hold)
      · exact hheld
    · rcases List.mem_append.mp hst with hold | hlast
      · exact heffect.holdsPayload (ih.returned st hold d hd)
      · rw [List.mem_singleton.mp hlast] at hd
        exact heffect.returned_held hof ih.queued d hd

/-- After every run the queue has at most `MaxQueenSize` digests, each of them a key of the store. A
call of the run that has failed has left the queue as it was. What a call has returned passes
`Verify`, and is served to whoever asks for it. -/
theorem queue_sound {steps : List MempoolStep} (hr : MempoolRun S M name steps m) :
    m.queue.card ≤ M.maxQueenSize ∧ (∀ d ∈ m.queue, m.store.Holds d) ∧
    (∀ st ∈ steps, (st.outcome S M).err ≠ none →
      (st.outcome S M).mempool.queue = st.before.queue) ∧
    ∀ st ∈ steps,
      (∀ proposer epoch blockHash,
        (m.sync.verify m.store proposer epoch (st.returned S M) blockHash).2 = .ok) ∧
      ∀ author, ∃ bs : List Block, bs.map S.blockHash = st.returned S M ∧
        m.serve S author (st.returned S M) =
          (bs.map fun b => ⟨author, .otherBlock (some b)⟩, none) := by
  have hfacts := hr.queueFacts
  refine ⟨hfacts.card, fun d hd => ?_, fun st _ herr => ?_, fun st hst => ?_⟩
  · obtain ⟨b, hb, -⟩ := hfacts.queued d hd
    exact Option.isSome_of_eq_some (payload?_eq_some.mp hb)
  · exact (call_effect S M st.before st.putOk st.call).queue_of_err herr
  · have hheld := hfacts.returned st hst
    refine ⟨verify_of_held hheld m.sync, fun author => ?_⟩
    obtain ⟨bs, hbs, -, hserve⟩ := serve_of_held hheld author
    exact ⟨bs, hbs, hserve⟩

/-- A payload of a node. -/
def somePayload (q : NodeID) : Block := ⟨q, ⟨0, [[7]]⟩, []⟩

/-- Its digest. -/
def someDigest (q : NodeID) : Digest := (demo 4 0).blockHash (somePayload q)

/-- The node submits a payload, gets one of another node, puts the two into different consensus
blocks, gets the other's payload once more, and makes a payload from the empty queue. -/
def someCalls : List MempoolCall :=
  [.own (some (somePayload 0)), .other (some (somePayload 1)),
    .make 1 ⟨⟨0, []⟩, [someDigest 1, someDigest 0]⟩, .make 5 ⟨⟨0, []⟩, [someDigest 0]⟩,
    .other (some (somePayload 1)), .make 1 ⟨⟨1, []⟩, []⟩]

/-- The calls make a run, in which the payloads leave the queue. -/
theorem exists_someRun : ∃ steps m, MempoolRun (demo 4 0) demoMempool 0 steps m ∧
    steps.map MempoolStep.call = someCalls ∧
    steps.flatMap (MempoolStep.drained (demo 4 0) demoMempool) = [someDigest 1, someDigest 0] := by
  have hinit : MempoolRun (demo 4 0) demoMempool 0 [] { name := 0 } := .init
  have hown := hinit.step true (.own (some (somePayload 0))) trivial
  have hother := hown.step true (.other (some (somePayload 1))) trivial
  have hfirst := hother.step true (.make 1 ⟨⟨0, []⟩, [someDigest 1, someDigest 0]⟩)
    (by decide +kernel)
  have hsecond := hfirst.step true (.make 5 ⟨⟨0, []⟩, [someDigest 0]⟩) (by decide +kernel)
  have hagain := hsecond.step true (.other (some (somePayload 1))) trivial
  have hnew := hagain.step true (.make 1 ⟨⟨1, []⟩, []⟩) (by decide +kernel)
  exact ⟨_, _, hnew, rfl, by decide +kernel⟩

/-- After these calls what they have returned is still served. -/
theorem queue_sound_six : ∃ steps m, MempoolRun (demo 4 0) demoMempool 0 steps m ∧
    steps.map MempoolStep.call = someCalls ∧ m.queue.card ≤ 10 ∧
    ∀ st ∈ steps, ∀ author, ∃ bs : List Block,
      bs.map (demo 4 0).blockHash = st.returned (demo 4 0) demoMempool ∧
      m.serve (demo 4 0) author (st.returned (demo 4 0) demoMempool) =
        (bs.map fun b => ⟨author, .otherBlock (some b)⟩, none) := by
  obtain ⟨steps, m, hr, hcalls, -⟩ := exists_someRun
  obtain ⟨hcard, -, -, hreturned⟩ := queue_sound hr
  exact ⟨steps, m, hr, hcalls, hcard, fun st hst => (hreturned st hst).2⟩

/-! ## Nothing leaves the queue twice -/

/-- The loop over the queue takes as many digests as the block may have. -/
theorem takeDigests_eq {nums : ℤ} (h : 1 ≤ nums) (ds : List Digest) :
    takeDigests nums ds = ds.take nums.toNat := by
  induction ds generalizing nums with
  | nil => simp [takeDigests]
  | cons d ds ih =>
    have hsucc : nums.toNat = (nums - 1).toNat + 1 := by omega
    unfold takeDigests
    rw [hsucc, List.take_succ_cons]
    by_cases hlast : nums - 1 = 0
    · rw [if_pos hlast, hlast]
      rfl
    · rw [if_neg hlast, ih (by omega)]

/-- A block that the node submits as its own has a new digest: no call before has brought a block
with this digest. -/
def OwnFresh (S : Setup) (calls : List MempoolCall) : Prop :=
  calls.Pairwise fun earlier later => ∀ b b', later = .own (some b) → earlier.block = some b' →
    S.blockHash b' ≠ S.blockHash b

/-- Go ranges over the queue in some order in every call of a run. -/
theorem MempoolRun.of_mem {steps : List MempoolStep} (hr : MempoolRun S M name steps m) :
    ∀ st ∈ steps, st.call.Of st.before := by
  induction hr with
  | init => simp
  | @step steps m hr putOk call hof ih =>
    intro st hst
    rcases List.mem_append.mp hst with hold | hlast
    · exact ih st hold
    · rw [List.mem_singleton.mp hlast]
      exact hof

/-- The digests that have left the queue in a run: each has done so once, none is in the queue, and
they and those of the queue were brought by calls of the run. -/
structure DrainFacts (S : Setup) (M : MempoolSetup) (steps : List MempoolStep) (m : Mempool) :
    Prop where
  nodup : (steps.flatMap (MempoolStep.drained S M)).Nodup
  gone : ∀ d ∈ steps.flatMap (MempoolStep.drained S M), d ∉ m.queue
  brought : ∀ d, d ∈ steps.flatMap (MempoolStep.drained S M) ∨ d ∈ m.queue →
    ∃ st ∈ steps, ∃ b, st.call.block = some b ∧ S.blockHash b = d

/-- What a call returns from the queue was in it, and no longer is. -/
theorem drained_spec (S : Setup) (M : MempoolSetup) (st : MempoolStep)
    (hof : st.call.Of st.before) :
    (st.drained S M).Nodup ∧ ∀ d ∈ st.drained S M, d ∈ st.before.queue ∧
      d ∉ (st.outcome S M).mempool.queue := by
  unfold MempoolStep.drained
  split_ifs with hempty
  · simp
  · exact (call_effect S M st.before st.putOk st.call).taken hof hempty

/-- What has left the queue does not come back with a call, unless the call submits its block as
the node's own. -/
theorem DrainFacts.not_back {steps : List MempoolStep} {call : MempoolCall}
    (h : DrainFacts S M steps m) (hr : MempoolRun S M name steps m) (putOk : Bool)
    (hfresh : ∀ st ∈ steps, ∀ b b', call = .own (some b) → st.call.block = some b' →
      S.blockHash b' ≠ S.blockHash b) :
    ∀ d ∈ steps.flatMap (MempoolStep.drained S M),
      d ∉ (m.call S M putOk call).1.mempool.queue := by
  intro d hd hback
  rcases (call_effect S M m putOk call).queue hback with hold | ⟨-, -, ⟨b, hown, hb⟩ | hnot⟩
  · exact h.gone d hd hold
  · obtain ⟨st, hst, b', hb', heq⟩ := h.brought d (.inl hd)
    exact hfresh st hst b b' hown hb' (heq.trans hb.symm)
  · -- A digest that was returned is held, so that another's block with it is ignored.
    obtain ⟨st, hst, hdrained⟩ := List.mem_flatMap.mp hd
    refine hnot (hr.queueFacts.returned st hst d ?_)
    unfold MempoolStep.drained at hdrained
    split_ifs at hdrained
    · cases hdrained
    · exact hdrained

/-- The facts hold after every run in which the node's own blocks are new. -/
theorem MempoolRun.drainFacts {steps : List MempoolStep} (hr : MempoolRun S M name steps m)
    (hfresh : OwnFresh S (steps.map MempoolStep.call)) : DrainFacts S M steps m := by
  induction hr with
  | init => exact ⟨List.nodup_nil, by simp, by simp⟩
  | @step steps m hr putOk call hof ih =>
    unfold OwnFresh at hfresh
    rw [List.map_append, List.pairwise_append] at hfresh
    obtain ⟨hbefore, -, hlast⟩ := hfresh
    have hfacts := ih hbefore
    have hback := hfacts.not_back hr putOk fun st hst =>
      hlast st.call (List.mem_map_of_mem hst) call List.mem_cons_self
    set st : MempoolStep := ⟨m, putOk, call⟩
    obtain ⟨hnodup, hspec⟩ := drained_spec S M st hof
    have hconcat : (steps ++ [st]).flatMap (MempoolStep.drained S M) =
        steps.flatMap (MempoolStep.drained S M) ++ st.drained S M := by simp
    refine ⟨?_, fun d hd => ?_, fun d hd => ?_⟩
    · rw [hconcat, List.nodup_append]
      refine ⟨hfacts.nodup, hnodup, fun d hd d' hd' heq => ?_⟩
      exact hfacts.gone d hd (heq ▸ (hspec d' hd').1)
    · rw [hconcat, List.mem_append] at hd
      rcases hd with hold | hnew
      · exact hback d hold
      · exact (hspec d hnew).2
    · rw [hconcat, List.mem_append] at hd
      have hcases : (d ∈ steps.flatMap (MempoolStep.drained S M) ∨ d ∈ m.queue) ∨
          ∃ b, call.block = some b ∧ S.blockHash b = d := by
        rcases hd with (hold | hnew) | hqueue
        · exact .inl (.inl hold)
        · exact .inl (.inr (hspec d hnew).1)
        · rcases (call_effect S M m putOk call).queue hqueue with hold | ⟨-, hb, -⟩
          · exact .inl (.inr hold)
          · exact .inr hb
      rcases hcases with hold | hb
      · obtain ⟨st', hst', hb⟩ := hfacts.brought d hold
        exact ⟨st', List.mem_append_left _ hst', hb⟩
      · exact ⟨st, List.mem_concat_self, hb⟩

/-- A call on a queue that is not empty returns as many different digests of it as the block may
have, or all of them, and leaves the others. -/
theorem drains {st : MempoolStep} {size : ℤ} {c : MakeChoice} (hcall : st.call = .make size c)
    (hof : st.call.Of st.before) (hsize : 1 ≤ size) (hne : st.before.queue ≠ ∅) :
    ((st.returned S M).length : ℤ) = min size st.before.queue.card ∧ (st.returned S M).Nodup ∧
      (∀ d ∈ st.returned S M, d ∈ st.before.queue) ∧
      (st.outcome S M).mempool.queue = st.before.queue \ (st.returned S M).toFinset := by
  have heffect := call_effect S M st.before st.putOk st.call
  obtain ⟨hnodup, hmem⟩ := heffect.taken hof hne
  have htake := st.before.handleMakeBlockMsg_of_ne S { M with maxPayloadSize := size } st.putOk c
    hne
  have hreturned : st.returned S M = takeDigests size c.order := by
    unfold MempoolStep.returned
    rw [hcall]
    exact congrArg Prod.snd htake
  have hqueue : (st.outcome S M).mempool.queue =
      st.before.queue \ (takeDigests size c.order).toFinset := by
    unfold MempoolStep.outcome
    rw [hcall]
    exact congrArg (fun o : MempoolOutcome × List Digest => o.1.mempool.queue) htake
  refine ⟨?_, hnodup, fun d hd => (hmem d hd).1, by rw [hqueue, hreturned]⟩
  rw [hcall] at hof
  have hcard : c.order.length = st.before.queue.card := by
    rw [← hof.2, List.toFinset_card_of_nodup hof.1]
  rw [hreturned, takeDigests_eq hsize, List.length_take, hcard]
  omega

/-- In every run in which the node's own blocks are new and consensus blocks may have payloads, a
call for a consensus block on a queue that is not empty returns as many different digests of it as
the block may have, or all of them, and leaves the others. No digest is returned from the queue by
two calls. -/
theorem queue_drained_once {steps : List MempoolStep} (hr : MempoolRun S M name steps m)
    (hsize : ∀ st ∈ steps, ∀ size c, st.call = .make size c → 1 ≤ size)
    (hfresh : OwnFresh S (steps.map MempoolStep.call)) :
    (∀ st ∈ steps, ∀ size c, st.call = .make size c → st.before.queue ≠ ∅ →
      ((st.returned S M).length : ℤ) = min size st.before.queue.card ∧ (st.returned S M).Nodup ∧
        (∀ d ∈ st.returned S M, d ∈ st.before.queue) ∧
        (st.outcome S M).mempool.queue = st.before.queue \ (st.returned S M).toFinset) ∧
    (steps.flatMap (MempoolStep.drained S M)).Nodup :=
  ⟨fun st hst size c hcall hne => drains hcall (hr.of_mem st hst) (hsize st hst size c hcall) hne,
    (hr.drainFacts hfresh).nodup⟩

/-- The calls above return two digests from the queue, each once. -/
theorem queue_drained_once_six : ∃ steps m, MempoolRun (demo 4 0) demoMempool 0 steps m ∧
    steps.map MempoolStep.call = someCalls ∧
    steps.flatMap (MempoolStep.drained (demo 4 0) demoMempool) = [someDigest 1, someDigest 0] ∧
    (steps.flatMap (MempoolStep.drained (demo 4 0) demoMempool)).Nodup := by
  obtain ⟨steps, m, hr, hcalls, hdrained⟩ := exists_someRun
  have hsize : ∀ st ∈ steps, ∀ size c, st.call = .make size c → 1 ≤ size := by
    intro st hst size c hcall
    have hmem : MempoolCall.make size c ∈ someCalls := by
      rw [← hcalls, ← hcall]
      exact List.mem_map_of_mem hst
    simp only [someCalls, List.mem_cons, MempoolCall.make.injEq, reduceCtorEq, false_or,
      List.not_mem_nil, or_false] at hmem
    omega
  have hfresh : OwnFresh (demo 4 0) (steps.map MempoolStep.call) := by
    rw [hcalls]
    simp [OwnFresh, someCalls]
  exact ⟨steps, m, hr, hcalls, hdrained, (queue_drained_once hr hsize hfresh).2⟩

end SMVBA
