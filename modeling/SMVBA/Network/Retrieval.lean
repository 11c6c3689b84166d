import SMVBA.Network.Replicas

/-!
# Decided blocks can be retrieved

A halt stands for a lock, and a lock for a quorum of phase-one votes (`Network/Halts.lean`,
`Network/Certificates.lean`). Each voter has checked the payloads of the block before it voted, or
had them fetched (`Mempool/Availability.lean`). So a quorum of replicas holds the block of a halt
with all its payloads.
-/

namespace SMVBA

open MessagePassing

variable {S : Setup} {M : MempoolSetup} {s : PeerNet}

/-- The replica holds the block with the hash, and every payload that the block lists. -/
def Replica.HoldsBlock (S : Setup) (r : Replica) (h : Digest) : Prop :=
  ∃ b, S.hash b = h ∧ r.hist.core.store h = some b ∧ r.HasPayloads b

/-- A voter of the first phase holds the block that it voted for. -/
theorem ReplicaFacts.holdsBlock {q : NodeID} {r : Replica} (hr : ReplicaFacts S q r) {d : NodeID}
    {v : SPBVote} (hv : .spbVote v ∈ r.hist.sentTo d) (hone : v.phase = .one) :
    r.HoldsBlock S v.blockHash := by
  have hslot := hr.core.sent.voteOne d v hv hone
  obtain ⟨b, hhash, hstored, hmissing⟩ := (hr.avail ⟨true, ⟨⟨0, []⟩, []⟩, 0⟩ []).slots _ _ hslot
  exact ⟨b, hhash, hhash ▸ hstored, r.missing_eq_nil.mp hmissing⟩

/-- When a halt has been broadcast, a quorum of nodes holds its block with every payload. -/
theorem halt_retrievable (ha : S.absent = .other) (hr : PeerRun S M PutSucceeds s)
    (hs : AllSeparated S s.nodes) {q : NodeID} {h : Halt}
    (hb : (s.nodes q).replica.hist.Broadcast (.halt h)) :
    ∃ A ⊆ S.committee.authorities, S.committee.hightThreshold ≤ A.card ∧
      ∀ a ∈ A, (s.nodes a).replica.HoldsBlock S h.blockHash := by
  have hrun : Run S Always s.net := hr.run hs
  have hsent : .halt h ∈ (s.net.nodes q).sentTo q := ((hrun.facts q).even.mem_iff rfl q).mpr hb
  obtain ⟨a, L, -, hlock, hhash⟩ := hrun.halt_lock ha hrun.ledBy_any hsent
  obtain ⟨h', hh', A, hA, hcard, hvoters⟩ := hrun.lock_certificate ha hlock
  -- The hash that was locked is that of the halt.
  obtain rfl : h' = h.blockHash := Option.some.inj (hh'.symm.trans hhash)
  refine ⟨A, hA, hcard, fun a hmem => ?_⟩
  obtain ⟨v, -, -, hone, hvhash, hv⟩ := hvoters a hmem
  rw [← hvhash]
  exact (hr.replicaFacts a (hs.each a (hA hmem))).holdsBlock hv hone

/-- A halt of the demonstration: three nodes hold its block, which has a payload. -/
theorem halt_retrievable_round : ∃ s : PeerNet, PeerRun (demo 4 1) demoMempool PutSucceeds s ∧
    (s.nodes 0).replica.hist.Broadcast (.halt ⟨0, 0, 0, 1, (demo 4 1).hash (peerBlock 1)⟩) ∧
    (peerBlock 1).payLoads ≠ [] ∧
    ∃ A ⊆ (demo 4 1).committee.authorities, 3 ≤ A.card ∧
      ∀ a ∈ A, (s.nodes a).replica.HoldsBlock (demo 4 1) ((demo 4 1).hash (peerBlock 1)) := by
  obtain ⟨s, hr, hs⟩ := exists_peerRun (demo 4 1) demoMempool (fun _ _ => true)
    [0, 1, 2, 3] peerRound
    (fun nodes => decide (AllSeparated (demo 4 1) nodes ∧ (nodes 0).replica.hist.Broadcast
      (.halt ⟨0, 0, 0, 1, (demo 4 1).hash (peerBlock 1)⟩)))
    (by decide) (by decide +kernel)
  obtain ⟨hsep, hb⟩ := of_decide_eq_true hs
  exact ⟨s, hr.reachable, hb, by decide, halt_retrievable rfl hr.reachable hsep hb⟩

end SMVBA
