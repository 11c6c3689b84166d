import SMVBA.Library.Network
import SMVBA.Rules.Facts

/-!
# The network of nodes

All nodes of the committee run the code, and a silent node is one that takes no step. The network
delivers in any order and neither forges nor duplicates, as the message passing of the library does.
A run may be put under a condition on its steps.

The steps of a run are `Regular`. No `Epoch + 1` of `handleHalt` and no `Round + 1` of
`advanceNextRound` overflows: it takes `2^63` epochs or rounds to get there. And no look-up of a
consensus block finds a mempool block. The digests that the nodes look up are hashes of blocks that
they have proposed, or the zero digest, so that such a look-up would need a payload with the same
hash, or with the hash zero. `PeerRun.run` of `Network/Replicas.lean` derives this from what the
databases of whole nodes hold.
-/

namespace SMVBA

open MessagePassing

variable {S : Setup} {ok : Cond}

/-- The protocol of the consensus nodes. -/
def consensus (S : Setup) (ok : Cond) : Protocol NodeID Message Hist where
  ids := S.committee.authorities
  init := Hist.init
  step q x m y out := ∃ env i outs, i.msg? = m ∧ Regular x env i ∧ ok x env i ∧
    x.step S env i = some (y, outs) ∧ out = fun d => outs.filterMap (Output.sentTo x.core.name d)
  received := Hist.handled
  sent _ x d := x.sentTo d
  received_init _ := rfl
  sent_init _ _ := rfl
  received_step := by
    rintro q x m y out ⟨env, i, outs, rfl, -, -, h, -⟩
    exact Hist.step_handled h
  sent_step := by
    rintro q x m y out ⟨env, i, outs, rfl, -, -, h, rfl⟩ d
    exact Hist.step_sentTo h d

/-- A state of the network. -/
abbrev Net := State NodeID Message Hist

/-- The states that the network reaches, each step under the condition. -/
abbrev Run (S : Setup) (ok : Cond) (s : Net) : Prop := (consensus S ok).Reachable s

/-- Each node of the network runs on its own. -/
theorem Run.localRun {s : Net} (hr : Run S ok s) (q : NodeID) :
    LocalRun S (fun x env i => ok x env i ∧ Regular x env i) q (s.nodes q) := by
  refine hr.local_invariant (I := fun q x =>
    LocalRun S (fun x env i => ok x env i ∧ Regular x env i) q x) (fun _ => .init) ?_ q
  rintro q x m y out ⟨env, i, outs, -, hreg, hok, h, -⟩ hx
  exact .step hx ⟨hok, hreg⟩ h

section Facts

variable {s : Net} (hr : Run S ok s)

include hr

theorem Run.facts (q : NodeID) : Facts S q (s.nodes q) := (hr.localRun q).facts

theorem Run.sources (q : NodeID) : Sources S (s.nodes q) :=
  (hr.localRun q).sources fun _ _ _ h => h.2.keysApart

theorem Run.blockFacts (ha : S.absent = .other) (q : NodeID) : BlockFacts S (s.nodes q) :=
  (hr.localRun q).blockFacts ha fun _ _ _ h => h.2

/-- Only nodes of the committee send. -/
theorem Run.mem_of_sent {q d : NodeID} {m : Message} (hm : m ∈ (s.nodes q).sentTo d) :
    q ∈ S.committee.authorities := by
  by_contra hq
  have hinit : s.nodes q = Hist.init q := hr.nodes_of_notMem hq
  rw [hinit] at hm
  cases hm

/-- What a node took from its channel, its author has sent to it. -/
theorem Run.sent_of_handled {q : NodeID} {m : Message} (hm : m ∈ (s.nodes q).handled) :
    m.author ∈ S.committee.authorities ∧ m ∈ (s.nodes m.author).sentTo q := by
  obtain ⟨a, ha, hs⟩ := hr.exists_sender hm
  have hauthor := (hr.facts a).sent.author q m hs
  rw [(hr.facts a).name_eq] at hauthor
  rw [hauthor]
  exact ⟨ha, hs⟩

/-- The authors of what a node took are of the committee. -/
theorem Run.authors_subset {q : NodeID} {A : Finset NodeID}
    (hA : ∀ a ∈ A, ∃ m ∈ (s.nodes q).handled, m.author = a) : A ⊆ S.committee.authorities := by
  intro a hmem
  obtain ⟨m, hm, rfl⟩ := hA a hmem
  exact (hr.sent_of_handled hm).1

/-- Messages of a kind that have one author were taken at most as often as the author sent them. -/
theorem Run.countP_handled_le {q a : NodeID} {f : Message → Bool} (hf : ∀ m, f m → m.author = a) :
    (s.nodes q).handled.countP f ≤ ((s.nodes a).sentTo q).countP f := by
  refine hr.countP_received_le fun b _ m hm hfm => ?_
  have hauthor := (hr.facts b).sent.author q m hm
  rw [(hr.facts b).name_eq] at hauthor
  rw [← hauthor, hf m hfm]

end Facts

end SMVBA
