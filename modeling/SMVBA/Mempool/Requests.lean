import Mathlib.Data.List.Dedup
import SMVBA.Mempool.Queue

/-!
# Requests for payloads

A node that misses payloads asks for them, and gets them as ordinary `OtherBlockMsg`s. Both ends may
fail it. `HandleRequestBlock` stops at the first digest that it cannot read, and if the database
reports an absent key as `ErrNotFoundKey`, it sends a nil block for it. Under the hash of a
consensus block it reads the consensus block as a payload, and sends that. So a request is served
completely exactly when the list has no key of a consensus block, no digest of it that is absent
stands before one that is present, or is there at all, and none of those that are reached is listed
twice (`request_served_iff`). And `HandleOthorBlock` admits a payload that was asked for on the same
terms as any other: exactly when the queue is not full, and the database does not report an absent
key as `ErrNotFoundKey` (`requested_stored_iff`).
-/

namespace SMVBA

open Mempool

variable {S : Setup} {M : MempoolSetup} {m : Mempool} {digests : List Digest}

/-! ## Serving a request -/

/-- The digests of a request that `HandleRequestBlock` answers: those before the first failed read.
-/
def answered (S : Setup) (m : Mempool) (digests : List Digest) : List Digest :=
  match S.absent with
  | .other => digests.takeWhile fun d => (m.store.db d).isSome
  | .notFoundKey => digests

/-- Only digests of the request are answered. -/
theorem answered_subset (S : Setup) (m : Mempool) (digests : List Digest) :
    answered S m digests ⊆ digests := by
  unfold answered
  split
  · exact (List.takeWhile_sublist _).subset
  · exact List.Subset.refl digests

/-- What `HandleRequestBlock` sends: each entry that it reads, as a payload. -/
theorem serve_out (S : Setup) (m : Mempool) (author : NodeID) (digests : List Digest) :
    (m.serve S author digests).1 = (answered S m digests).map fun d =>
      ⟨author, .otherBlock ((m.store.db d).map Entry.asPayload)⟩ := by
  induction digests with
  | nil => cases hS : S.absent <;> simp [Mempool.serve, answered, hS]
  | cons d digests ih =>
    unfold answered at ih ⊢
    unfold Mempool.serve Mempool.getBlock Store.read
    cases hd : m.store.db d with
    | some e => cases hS : S.absent <;> simp_all
    | none => cases hS : S.absent <;> simp_all

/-- The entries under the digests of a request are payloads, exactly one `OtherBlockMsg` is sent for
each of them, with this payload, and nothing else is sent. -/
def ServesCompletely (m : Mempool) (digests : List Digest) (author : NodeID)
    (out : List MempoolSend) : Prop :=
  ∃ bs : List Block, digests.dedup.filterMap m.store.db = bs.map .block ∧
    out.Perm (bs.map fun b => ⟨author, .otherBlock (some b)⟩)

/-- No digest of the request is the key of a consensus block, the digests that are answered are
different ones, and they are those that the store holds. -/
structure Answerable (S : Setup) (m : Mempool) (digests : List Digest) : Prop where
  payloads : ∀ d ∈ digests, ∀ b, m.store.db d ≠ some (.consensusBlock b)
  nodup : (answered S m digests).Nodup
  held : ∀ d ∈ digests, m.store.Holds d ↔ d ∈ answered S m digests

/-- Under digests that are no keys of consensus blocks, the store holds payloads. -/
theorem filterMap_payload? {l : List Digest}
    (h : ∀ d ∈ l, ∀ b, m.store.db d ≠ some (.consensusBlock b)) :
    l.filterMap m.store.db = (l.filterMap m.payload?).map .block := by
  rw [List.map_filterMap]
  refine List.filterMap_congr fun d hd => ?_
  cases hdb : m.store.db d with
  | none => simp [Mempool.payload?, hdb]
  | some e =>
    cases e with
    | block b => simp [Mempool.payload?, hdb]
    | consensusBlock b => exact absurd hdb (h d hd b)

/-- The messages for the entries that are there, taken digest by digest. -/
theorem map_filter_held (author : NodeID) {l : List Digest}
    (h : ∀ d ∈ l, ∀ b, m.store.db d ≠ some (.consensusBlock b)) :
    ((l.filter fun d => (m.store.db d).isSome).map fun d =>
        (⟨author, .otherBlock ((m.store.db d).map Entry.asPayload)⟩ : MempoolSend)) =
      (l.filterMap m.payload?).map fun b => ⟨author, .otherBlock (some b)⟩ := by
  induction l with
  | nil => rfl
  | cons d l ih =>
    have hrest := ih fun d' hd' => h d' (List.mem_cons_of_mem d hd')
    cases hdb : m.store.db d with
    | none => simpa [Mempool.payload?, hdb] using hrest
    | some e =>
      cases e with
      | block b => simpa [Mempool.payload?, hdb, Entry.asPayload] using hrest
      | consensusBlock b => exact absurd hdb (h d List.mem_cons_self b)

/-- An answerable request is served completely. -/
theorem Answerable.served (h : Answerable S m digests) (author : NodeID) :
    ServesCompletely m digests author (m.handleRequestBlock S digests author).out := by
  have hkeys : ∀ d ∈ digests.dedup, ∀ b, m.store.db d ≠ some (.consensusBlock b) :=
    fun d hd => h.payloads d (List.mem_dedup.mp hd)
  have hfilter : (answered S m digests).Perm
      (digests.dedup.filter fun d => (m.store.db d).isSome) := by
    rw [List.perm_ext_iff_of_nodup h.nodup ((List.nodup_dedup digests).filter _)]
    intro d
    rw [List.mem_filter, List.mem_dedup]
    constructor
    · intro hd
      have hlisted := answered_subset S m digests hd
      exact ⟨hlisted, (h.held d hlisted).mpr hd⟩
    · rintro ⟨hlisted, hsome⟩
      exact (h.held d hlisted).mp hsome
  have hout : (m.handleRequestBlock S digests author).out = (m.serve S author digests).1 := rfl
  refine ⟨digests.dedup.filterMap m.payload?, filterMap_payload? hkeys, ?_⟩
  rw [hout, serve_out, ← map_filter_held author hkeys]
  exact hfilter.map _

/-- Where a request is served completely, none of its digests is the key of a consensus block, and
what is sent is what is expected for the payloads. -/
theorem ServesCompletely.expected {author : NodeID}
    (h : ServesCompletely m digests author (m.handleRequestBlock S digests author).out) :
    (∀ d ∈ digests, ∀ b, m.store.db d ≠ some (.consensusBlock b)) ∧
      ((answered S m digests).map fun d =>
        (⟨author, .otherBlock ((m.store.db d).map Entry.asPayload)⟩ : MempoolSend)).Perm
      ((digests.dedup.filterMap m.payload?).map fun b => ⟨author, .otherBlock (some b)⟩) := by
  obtain ⟨bs, hbs, hperm⟩ := h
  have hkeys : ∀ d ∈ digests, ∀ b, m.store.db d ≠ some (.consensusBlock b) := by
    intro d hd b hdb
    have hmem : Entry.consensusBlock b ∈ bs.map Entry.block :=
      hbs ▸ List.mem_filterMap.mpr ⟨d, List.mem_dedup.mpr hd, hdb⟩
    obtain ⟨b', -, heq⟩ := List.mem_map.mp hmem
    cases heq
  -- The payloads that are expected are those of the store.
  obtain rfl : digests.dedup.filterMap m.payload? = bs := by
    rw [filterMap_payload? fun d hd => hkeys d (List.mem_dedup.mp hd)] at hbs
    exact List.map_injective_iff.mpr (fun b b' heq => by simpa using heq) hbs
  have hout : (m.handleRequestBlock S digests author).out = (m.serve S author digests).1 := rfl
  rw [hout, serve_out] at hperm
  exact ⟨hkeys, hperm⟩

/-- Only an answerable request is served completely, where no payload is held under two keys. -/
theorem answerable_of_served {author : NodeID}
    (hinj : ∀ d d' b, m.payload? d = some b → m.payload? d' = some b → d = d')
    (h : ServesCompletely m digests author (m.handleRequestBlock S digests author).out) :
    Answerable S m digests := by
  obtain ⟨hkeys, hperm⟩ := h.expected
  refine ⟨hkeys, ?_, fun d hlisted => ⟨fun hheld => ?_, fun hd => ?_⟩⟩
  · -- No message is expected twice, so none is sent twice.
    have hblocks : (digests.dedup.filterMap m.payload?).Nodup :=
      (List.nodup_dedup digests).filterMap fun d d' b hd hd' => hinj d d' b hd hd'
    have hmessages : Function.Injective fun b : Block =>
        (⟨author, .otherBlock (some b)⟩ : MempoolSend) := by
      intro b b' heq
      simpa using heq
    exact List.Nodup.of_map _ (hperm.nodup_iff.mpr (hblocks.map hmessages))
  · -- A payload that is there is expected, and so is answered.
    obtain ⟨e, he⟩ := Option.isSome_iff_exists.mp hheld
    cases e with
    | consensusBlock b => exact absurd he (hkeys d hlisted b)
    | block b =>
      have hb : m.payload? d = some b := payload?_eq_some.mpr he
      have hexpected : (⟨author, .otherBlock (some b)⟩ : MempoolSend) ∈
          (digests.dedup.filterMap m.payload?).map fun b => ⟨author, .otherBlock (some b)⟩ :=
        List.mem_map.mpr ⟨b, List.mem_filterMap.mpr ⟨d, List.mem_dedup.mpr hlisted, hb⟩, rfl⟩
      obtain ⟨d', hd', heq⟩ := List.mem_map.mp (hperm.mem_iff.mpr hexpected)
      have hentry : (m.store.db d').map Entry.asPayload = some b := by simpa using heq
      obtain ⟨e', he', hpayload⟩ := Option.map_eq_some_iff.mp hentry
      cases e' with
      | consensusBlock b' => exact absurd he' (hkeys d' (answered_subset S m digests hd') b')
      | block b' =>
        cases hpayload
        rwa [hinj d d' b' hb (payload?_eq_some.mpr he')]
  · -- Only payloads that are there are expected.
    obtain ⟨b, -, heq⟩ := List.mem_map.mp (hperm.mem_iff.mp (List.mem_map_of_mem hd))
    have hentry : some b = (m.store.db d).map Entry.asPayload := by simpa using heq
    obtain ⟨e, he, -⟩ := Option.map_eq_some_iff.mp hentry.symm
    exact Option.isSome_of_eq_some he

/-- In every store, a request is served completely if no digest of it is the key of a consensus
block, and the digests that are answered are different ones and are those that the store holds. Only
then is it served completely, if the store holds no payload under two keys. -/
theorem request_served_iff (S : Setup) (m : Mempool) (digests : List Digest) (author : NodeID) :
    (Answerable S m digests →
      ServesCompletely m digests author (m.handleRequestBlock S digests author).out) ∧
    ((∀ d d' b, m.payload? d = some b → m.payload? d' = some b → d = d') →
      ServesCompletely m digests author (m.handleRequestBlock S digests author).out →
      Answerable S m digests) :=
  ⟨fun h => h.served author, fun hinj h => answerable_of_served hinj h⟩

/-- A mempool that has stored one payload. -/
def onePayload (S : Setup) : Mempool :=
  (Mempool.handleOwnBlock S demoMempool { name := 0 } true (some (somePayload 0))).mempool

/-- The payloads of the node and of another that are asked for, the other's being absent. -/
theorem request_served_iff_before :
    Answerable (demo 4 0) (onePayload (demo 4 0)) [someDigest 0, someDigest 1] ∧
    ServesCompletely (onePayload (demo 4 0)) [someDigest 0, someDigest 1] 2
      ((onePayload (demo 4 0)).handleRequestBlock (demo 4 0)
        [someDigest 0, someDigest 1] 2).out := by
  have hfirst : (onePayload (demo 4 0)).store.db (someDigest 0) =
      some (.block (somePayload 0)) := by
    decide +kernel
  have hsecond : (onePayload (demo 4 0)).store.db (someDigest 1) = none := by
    decide +kernel
  have hne : someDigest 1 ≠ someDigest 0 := by decide +kernel
  have hanswered : answered (demo 4 0) (onePayload (demo 4 0)) [someDigest 0, someDigest 1] =
      [someDigest 0] := by
    have habsent : (demo 4 0).absent = .other := rfl
    simp [answered, habsent, hfirst, hsecond]
  have hable : Answerable (demo 4 0) (onePayload (demo 4 0)) [someDigest 0, someDigest 1] := by
    constructor
    · simp [hfirst, hsecond]
    · rw [hanswered]
      exact List.nodup_singleton _
    · rw [hanswered]
      simp [Store.Holds, hfirst, hsecond, hne]
  exact ⟨hable, (request_served_iff (demo 4 0) _ _ 2).1 hable⟩

/-- With the absent digest before it the payload that is there is not sent, or a nil block is sent
first, as the database answers for an absent key. -/
theorem request_cut_short :
    (onePayload (demo 4 0)).payload? (someDigest 0) = some (somePayload 0) ∧
    ((onePayload (demo 4 0)).handleRequestBlock (demo 4 0)
      [someDigest 1, someDigest 0] 2).out = [] ∧
    ¬ ServesCompletely (onePayload (demo 4 0)) [someDigest 1, someDigest 0] 2
      ((onePayload (demo 4 0)).handleRequestBlock (demo 4 0)
        [someDigest 1, someDigest 0] 2).out ∧
    ((onePayload { demo 4 0 with absent := .notFoundKey }).handleRequestBlock
      { demo 4 0 with absent := .notFoundKey } [someDigest 1, someDigest 0] 2).out =
        [⟨2, .otherBlock none⟩, ⟨2, .otherBlock (some (somePayload 0))⟩] := by
  have hheld : [someDigest 1, someDigest 0].dedup.filterMap (onePayload (demo 4 0)).store.db =
      [.block (somePayload 0)] := by
    decide +kernel
  have hout : ((onePayload (demo 4 0)).handleRequestBlock (demo 4 0)
      [someDigest 1, someDigest 0] 2).out = [] := by
    decide +kernel
  refine ⟨by decide +kernel, hout, ?_, by decide +kernel⟩
  rintro ⟨bs, hbs, hperm⟩
  rw [hout, List.nil_perm, List.map_eq_nil_iff] at hperm
  rw [hheld, hperm] at hbs
  cases hbs

/-! ## Taking what was asked for -/

/-- A payload with a valid signature, which the database takes, is in the store after its delivery
if and only if it was there before, or the queue is not full and a read of an absent key fails. -/
theorem requested_stored_iff {b : Block} {d : Digest} (hb : S.blockHash b = d)
    (hverify : b.verify S M = true) :
    (m.handleOthorBlock S M true (some b)).mempool.store.Holds d ↔
      m.store.Holds d ∨ (m.full M = false ∧ S.absent = .other) := by
  subst hb
  -- A read fails on a key that is absent, unless the database says `ErrNotFoundKey`.
  have hget : ¬ m.store.Holds (S.blockHash b) →
      ((∃ e, m.getBlock S (S.blockHash b) = .error e) ↔ S.absent = .other) := by
    intro hnot
    have hdb : m.store.db (S.blockHash b) = none := by simpa [Store.Holds] using hnot
    unfold Mempool.getBlock Store.read
    rw [hdb]
    cases S.absent <;> simp
  rcases m.handleOthorBlock_cases S M true b with
    ⟨hroom, -, herror, -, -, -, -, hs⟩ | ⟨hno, -, hs⟩
  · have hafter : (m.handleOthorBlock S M true (some b)).mempool.store.Holds (S.blockHash b) := by
      unfold Store.Holds
      rw [hs.db, Function.update_self]
      rfl
    refine iff_of_true hafter ?_
    by_cases hheld : m.store.Holds (S.blockHash b)
    · exact .inl hheld
    · exact .inr ⟨hroom, (hget hheld).mp herror⟩
  · have hsame : (m.handleOthorBlock S M true (some b)).mempool.store.Holds (S.blockHash b) ↔
        m.store.Holds (S.blockHash b) := by
      unfold Store.Holds
      rw [hs.db]
    rw [hsame]
    constructor
    · exact .inl
    · rintro (hheld | ⟨hroom, habsent⟩)
      · exact hheld
      · by_contra hheld
        exact hno ⟨hroom, hverify, (hget hheld).mpr habsent, rfl⟩

/-- The payload of another node, delivered to a mempool with room for it. -/
theorem requested_stored_iff_room :
    ((onePayload (demo 4 0)).handleOthorBlock (demo 4 0) demoMempool true
      (some (somePayload 1))).mempool.store.Holds (someDigest 1) :=
  (requested_stored_iff rfl rfl).mpr (.inr ⟨by decide +kernel, rfl⟩)

/-- A mempool whose queue holds one digest. -/
def tinyMempool : MempoolSetup := { demoMempool with maxQueenSize := 1 }

/-- A consensus block with the payload of node 1. -/
def waitedBlock : ConsensusBlock := ⟨1, [someDigest 1], 0⟩

/-- The node starts, submits a payload, which fills its queue, and gets the proposal of node 1, of
which it misses the payload. The synchronizer asks for it. -/
def waitingInputs : List (Surroundings × ReplicaInput) :=
  [(demoSurroundings, .consensus .start),
    (demoSurroundings, .mempool (.ownBlock (some (somePayload 0)))),
    (⟨true, ⟨⟨0, []⟩, [someDigest 0]⟩, 0⟩,
      .consensus (.msg (.spbProposal ⟨1, waitedBlock, 0, 0, .one⟩))),
    (demoSurroundings, .sync .inter)]

/-- The payload that the node waits for is delivered, and is rejected, because the queue is full. -/
theorem requested_rejected : ∃ r, ReplicaRun (demo 4 0) tinyMempool 0 r ∧
    (∃ e, r.mempool.sync.pending.lookup ((demo 4 0).hash waitedBlock) = some e ∧
      someDigest 1 ∈ e.missing) ∧
    (somePayload 1).verify (demo 4 0) tinyMempool = true ∧
    (r.mempool.handleOthorBlock (demo 4 0) tinyMempool true (some (somePayload 1))).err =
      some (.fullMemory 0) ∧
    ¬ (r.mempool.handleOthorBlock (demo 4 0) tinyMempool true
      (some (somePayload 1))).mempool.store.Holds (someDigest 1) := by
  obtain ⟨r, hr, hP⟩ := exists_replica (demo 4 0) tinyMempool 0 waitingInputs
    (fun r => decide ((r.mempool.sync.pending.lookup ((demo 4 0).hash waitedBlock)).any
        (fun e => someDigest 1 ∈ e.missing) = true ∧
      (r.mempool.handleOthorBlock (demo 4 0) tinyMempool true (some (somePayload 1))).err =
        some (.fullMemory 0) ∧
      ¬ (r.mempool.handleOthorBlock (demo 4 0) tinyMempool true
        (some (somePayload 1))).mempool.store.Holds (someDigest 1)))
    (by decide +kernel)
  obtain ⟨hpending, hfull, hnot⟩ := of_decide_eq_true hP
  rw [Option.any_eq_true] at hpending
  obtain ⟨e, he, hmissing⟩ := hpending
  exact ⟨r, hr, ⟨e, he, of_decide_eq_true hmissing⟩, rfl, hfull, hnot⟩

end SMVBA
