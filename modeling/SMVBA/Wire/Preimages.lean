import SMVBA.Mempool.Mempool
import SMVBA.Node.Election
import SMVBA.Wire.Hashes

/-!
# What a digest binds

Two more hashes are used as names. The shares of a view's coin are on the hash of the epoch and the
round, and the database of a node keeps a block under its hash, whether it is one of the consensus
or a payload. Their bytes are integers in base two, with no separator between them, and digests or
transactions that are not counted and have no lengths.

Two views with the same bytes are the same exactly when their epochs are of one length
(`electShare_view_iff`). Otherwise they may be different views, and then they have one coin: the
shares of the one elect its leader in the other (`elected_relabel`). Two blocks with the same bytes
agree exactly when they are of one shape (`entry_agrees_iff`). Otherwise they may be different
blocks, and then the database keeps only the one that is written last.
-/

namespace SMVBA

/-! ## The coin of a view -/

/-- The digest of a view is the hash of every share for it. -/
theorem electHash_eq (S : Setup) (v : View) (a : NodeID) (sigShare : SignatureShare) :
    S.electHash v = (Wire.Message.electShare a v.epoch v.round sigShare).hash S := rfl

/-- Two shares that are hashed from the same bytes are for one view exactly when their epochs are
of one length. -/
theorem electShare_view_iff (S : Setup) {a a' : NodeID} {epoch epoch' round round' : ℤ}
    {sigShare sigShare' : SignatureShare}
    (h : (Wire.Message.electShare a epoch round sigShare).hashBytes S =
      (Wire.Message.electShare a' epoch' round' sigShare').hashBytes S) :
    (epoch, round) = (epoch', round') ↔
      (appendInt epoch).length = (appendInt epoch').length := by
  constructor
  · intro heq
    rw [(Prod.mk.inj heq).1]
  · intro hlen
    obtain ⟨hepoch, hrest⟩ := Framing.append_inj appendInt_injective hlen h
    have hround : round = round' := appendInt_injective hrest
    rw [hepoch, hround]

/-- The bytes of epoch 5, round 6, by two authors. -/
theorem electShare_view_iff_same :
    (Wire.Message.electShare 0 5 6 []).hashBytes (demo 4 0) =
      (Wire.Message.electShare 1 5 6 [1]).hashBytes (demo 4 0) ∧
    (((5, 6) : ℤ × ℤ) = (5, 6) ↔ (appendInt 5).length = (appendInt 5).length) := by
  have hbytes : (Wire.Message.electShare 0 5 6 []).hashBytes (demo 4 0) =
      (Wire.Message.electShare 1 5 6 [1]).hashBytes (demo 4 0) := rfl
  exact ⟨hbytes, electShare_view_iff (demo 4 0) hbytes⟩

/-- The share with the epoch and the round of another view. -/
def ElectShare.relabel (v : View) (s : ElectShare) : ElectShare :=
  ⟨s.author, v.epoch, v.round, s.sigShare⟩

/-- A share that is passed off as one of a view with the same hash has the same effect there. -/
theorem addShareVote_relabel {S : Setup} {v : View} {s : ElectShare} {e e' : Elector}
    (hd : S.electHash v = S.electHash s.view)
    (h : e'.electAggreators v = e.electAggreators s.view) :
    (e'.addShareVote S (s.relabel v)).1.electAggreators v =
        (e.addShareVote S s).1.electAggreators s.view ∧
      (e'.addShareVote S (s.relabel v)).2 = (e.addShareVote S s).2 := by
  constructor
  · have hleft := electAggreators_addShareVote S e' (s.relabel v)
    have hright := electAggreators_addShareVote S e s
    rw [hright, ← h]
    exact hleft
  · -- The answer depends on the shares of the view and on its digest.
    have hview : (s.relabel v).view = v := rfl
    have hsame : (s.relabel v).author = s.author := rfl
    have hshare : (s.relabel v).sigShare = s.sigShare := rfl
    unfold Elector.addShareVote ElectAggreator.append
    rw [hview, hsame, hshare, h, hd]
    by_cases hauthor : s.author ∈ (e.electAggreators s.view).authors
    · simp only [if_pos hauthor]
    simp only [if_neg hauthor]
    by_cases hlen : ((e.electAggreators s.view).shares ++ [s.sigShare]).length = S.quorum
    · simp only [if_pos hlen]
      cases hc : S.combineIntactTSPartial ((e.electAggreators s.view).shares ++ [s.sigShare])
          (S.electHash s.view) with
      | none => rfl
      | some coin =>
        cases hl : coinLeader S coin with
        | none => simp [hl]
        | some leader => simp [hl, coinLeader_ne_none hl]
    · simp only [if_neg hlen]
      rfl

/-- All shares of a view, passed off as shares of a view with the same hash, elect the same leader
there. -/
theorem elected_relabel {S : Setup} {v v' : View} {shares : List ElectShare}
    (hd : S.electHash v = S.electHash v') (hv : ∀ s ∈ shares, s.view = v') :
    elected S {} (shares.map (ElectShare.relabel v)) = elected S {} shares := by
  have hstep : ∀ e e' : Elector, ∀ s ∈ shares,
      e'.electAggreators v = e.electAggreators v' →
        (e'.addShareVote S (s.relabel v)).1.electAggreators v =
          (e.addShareVote S s).1.electAggreators v' ∧
        (e'.addShareVote S (s.relabel v)).2 = (e.addShareVote S s).2 := by
    intro e e' s hs h
    obtain rfl : s.view = v' := hv s hs
    exact addShareVote_relabel hd h
  have hanswers : (Mealy.run (Elector.addShareVote S) {} (shares.map (ElectShare.relabel v))).2 =
      (Mealy.run (Elector.addShareVote S) {} shares).2 := Mealy.run_map _ hstep rfl
  unfold elected
  rw [hanswers]

/-- The bytes `110` are those of epoch 1, round 2, and of epoch 3, round 0. The views have one
digest, a node makes one share for both, and the shares of the first elect its leader in the second.
-/
theorem coin_of_two_views :
    (Wire.Message.electShare 0 1 2 []).hashBytes (demo 4 0) =
      (Wire.Message.electShare 0 3 0 []).hashBytes (demo 4 0) ∧
    (∀ S : Setup, S.electHash ⟨1, 2⟩ = S.electHash ⟨3, 0⟩) ∧
    (∀ (S : Setup) (a : NodeID), S.requestTsSugnature a (S.electHash ⟨1, 2⟩) =
      S.requestTsSugnature a (S.electHash ⟨3, 0⟩)) ∧
    ∀ (S : Setup) (shares : List ElectShare), (∀ s ∈ shares, s.view = ⟨1, 2⟩) →
      elected S {} (shares.map (ElectShare.relabel ⟨3, 0⟩)) = elected S {} shares := by
  have hbytes : appendInt 1 ++ appendInt 2 = appendInt 3 ++ appendInt 0 := by decide
  have hhash : ∀ S : Setup, S.electHash ⟨1, 2⟩ = S.electHash ⟨3, 0⟩ := by
    intro S
    rw [electHash_eq S ⟨1, 2⟩ 0 [], electHash_eq S ⟨3, 0⟩ 0 []]
    exact congrArg S.sha256 hbytes
  exact ⟨hbytes, hhash, fun S a => by rw [hhash S],
    fun S shares hv => elected_relabel (hhash S).symm hv⟩

/-! ## The keys of the store -/

namespace Entry

/-- The bytes that the `Hash` method of a block feeds to SHA-256. -/
def hashBytes : Entry → List UInt8
  | .consensusBlock b =>
    appendInt b.proposer ++ b.payLoads.flatMap Digest.bytes ++ appendInt b.epoch
  | .block b => appendInt b.proposer ++ appendInt b.batch.id ++ b.batch.txs.flatten

/-- The key that a block is written under. -/
def key (S : Setup) : Entry → Digest
  | .consensusBlock b => S.hash b
  | .block b => S.blockHash b

theorem key_eq (S : Setup) (e : Entry) : e.key S = S.sha256 e.hashBytes := by
  cases e <;> rfl

/-- The blocks are of one kind, and all their fields but the signature are the same. -/
def Agrees : Entry → Entry → Prop
  | .consensusBlock b, .consensusBlock b' =>
    b.proposer = b'.proposer ∧ b.payLoads = b'.payLoads ∧ b.epoch = b'.epoch
  | .block b, .block b' =>
    b.proposer = b'.proposer ∧ b.batch.id = b'.batch.id ∧ b.batch.txs = b'.batch.txs
  | _, _ => False

instance (e e' : Entry) : Decidable (e.Agrees e') := by
  unfold Agrees
  split <;> infer_instance

/-- The shape of a block: its kind, the lengths of its integers but the last, and how many payloads
it lists, or how long its transactions are. -/
inductive Shape where
  | consensusBlock (proposer payLoads : ℕ)
  | block (proposer id : ℕ) (txs : List ℕ)
deriving DecidableEq

/-- The shape of a block. -/
def shape : Entry → Shape
  | .consensusBlock b => .consensusBlock (appendInt b.proposer).length b.payLoads.length
  | .block b => .block (appendInt b.proposer).length (appendInt b.batch.id).length
    (b.batch.txs.map List.length)

end Entry

/-- A block of the consensus can be read off its bytes and its shape. -/
theorem consensusBlock_eq {b b' : ConsensusBlock}
    (h : (Entry.consensusBlock b).hashBytes = (Entry.consensusBlock b').hashBytes)
    (hproposer : (appendInt b.proposer).length = (appendInt b'.proposer).length)
    (hcount : b.payLoads.length = b'.payLoads.length) :
    b.proposer = b'.proposer ∧ b.payLoads = b'.payLoads ∧ b.epoch = b'.epoch := by
  have hwidths : b.payLoads.map (fun d => (Digest.bytes d).length) =
      b'.payLoads.map fun d => (Digest.bytes d).length := by
    simp only [Digest.length_bytes, List.map_const', hcount]
  dsimp only [Entry.hashBytes] at h
  rw [List.append_assoc, List.append_assoc] at h
  obtain ⟨heq, hrest⟩ := Framing.append_inj appendInt_injective hproposer h
  obtain ⟨hpayLoads, hepoch⟩ := Framing.flatMap_append_inj Digest.bytes_injective hwidths hrest
  exact ⟨heq, hpayLoads, appendInt_injective hepoch⟩

/-- A payload can be read off its bytes and its shape. -/
theorem block_eq {b b' : Block} (h : (Entry.block b).hashBytes = (Entry.block b').hashBytes)
    (hproposer : (appendInt b.proposer).length = (appendInt b'.proposer).length)
    (hid : (appendInt b.batch.id).length = (appendInt b'.batch.id).length)
    (htxs : b.batch.txs.map List.length = b'.batch.txs.map List.length) :
    b.proposer = b'.proposer ∧ b.batch.id = b'.batch.id ∧ b.batch.txs = b'.batch.txs := by
  dsimp only [Entry.hashBytes] at h
  rw [List.append_assoc, List.append_assoc] at h
  obtain ⟨heq, hrest⟩ := Framing.append_inj appendInt_injective hproposer h
  obtain ⟨hideq, hflat⟩ := Framing.append_inj appendInt_injective hid hrest
  have hcode : b.batch.txs.flatMap id ++ [] = b'.batch.txs.flatMap id ++ [] := by
    simpa [List.flatMap_id] using hflat
  exact ⟨heq, hideq, (Framing.flatMap_append_inj Function.injective_id htxs hcode).1⟩

/-- Two blocks that are hashed from the same bytes agree exactly when they are of one shape. -/
theorem entry_agrees_iff {e e' : Entry} (h : e.hashBytes = e'.hashBytes) :
    e.Agrees e' ↔ e.shape = e'.shape := by
  cases e with
  | consensusBlock b =>
    cases e' with
    | block b' => simp [Entry.Agrees, Entry.shape]
    | consensusBlock b' =>
      simp only [Entry.Agrees, Entry.shape, Entry.Shape.consensusBlock.injEq]
      constructor
      · rintro ⟨hproposer, hpayLoads, -⟩
        rw [hproposer, hpayLoads]
        exact ⟨rfl, rfl⟩
      · rintro ⟨hproposer, hcount⟩
        exact consensusBlock_eq h hproposer hcount
  | block b =>
    cases e' with
    | consensusBlock b' => simp [Entry.Agrees, Entry.shape]
    | block b' =>
      simp only [Entry.Agrees, Entry.shape, Entry.Shape.block.injEq]
      constructor
      · rintro ⟨hproposer, hid, htxs⟩
        rw [hproposer, hid, htxs]
        exact ⟨rfl, rfl, rfl⟩
      · rintro ⟨hproposer, hid, htxs⟩
        exact block_eq h hproposer hid htxs

/-- Pairs of blocks that differ: blocks of one kind whose integers run together, payloads whose
transactions do, and a block of the consensus with a payload. -/
def entryCollisions : List (Entry × Entry) :=
  [(.consensusBlock ⟨1, [], 2⟩, .consensusBlock ⟨3, [], 0⟩),
    (.block ⟨1, ⟨2, []⟩, []⟩, .block ⟨3, ⟨0, []⟩, []⟩),
    (.block ⟨1, ⟨2, [[7], [8]]⟩, []⟩, .block ⟨1, ⟨2, [[7, 8]]⟩, []⟩),
    (.consensusBlock ⟨1, [], 2⟩, .block ⟨1, ⟨2, []⟩, []⟩)]

/-- Two payloads that are the same up to their signatures, and have the same shape. -/
theorem entry_agrees_iff_signed :
    (Entry.block ⟨1, ⟨2, [[7]]⟩, [1]⟩).hashBytes = (Entry.block ⟨1, ⟨2, [[7]]⟩, [2]⟩).hashBytes ∧
    ((Entry.block ⟨1, ⟨2, [[7]]⟩, [1]⟩).Agrees (.block ⟨1, ⟨2, [[7]]⟩, [2]⟩) ↔
      (Entry.block ⟨1, ⟨2, [[7]]⟩, [1]⟩).shape = (Entry.block ⟨1, ⟨2, [[7]]⟩, [2]⟩).shape) :=
  ⟨rfl, entry_agrees_iff rfl⟩

/-- Each of the four pairs is hashed from the same bytes and does not agree, so that the second of
them replaces the first in the store. -/
theorem keys_shared : entryCollisions.length = 4 ∧
    (∀ p ∈ entryCollisions, p.1.hashBytes = p.2.hashBytes ∧ ¬ p.1.Agrees p.2) ∧
    ∀ (S : Setup) (s : Store Digest Entry ℕ), ∀ p ∈ entryCollisions,
      ((s.write true (p.1.key S) p.1).1.write true (p.2.key S) p.2).1.read (p.1.key S) =
        some p.2 := by
  have hcollide : ∀ p ∈ entryCollisions, p.1.hashBytes = p.2.hashBytes ∧ ¬ p.1.Agrees p.2 := by
    decide
  refine ⟨rfl, hcollide, fun S s p hp => ?_⟩
  have hkey : p.1.key S = p.2.key S := by
    rw [Entry.key_eq, Entry.key_eq, (hcollide p hp).1]
  rw [Store.read, Store.write_db rfl, hkey, Function.update_self]

end SMVBA
