import SMVBA.Library.Logs
import SMVBA.Network.Agreement

/-!
# The order of the commits of all nodes

What the consensus is for: all nodes hand the same blocks to the layer above, in the same order. The
committor numbers what it sends by epochs, from zero on and without a gap, whatever it is called
with (`Numbered`). So the block at a position of a node's sequence is the node's block of that
epoch, and agreement epoch by epoch makes the sequences of any two nodes prefixes of one another
(`commits_prefix`). What is at a position is a block that a member of the committee has generated
for the epoch (`commits_generated`).
-/

namespace SMVBA

open MessagePassing

variable {S : Setup} {ok : Cond} {env : Env} {i : Input} {x0 x y : Hist} {s : Net}
  {coin : View → NodeID}

/-! ## The numbering of the commits -/

namespace Committor

/-- The loop of `Commit` sends blocks of consecutive epochs, from the index on, and moves the index
past them. -/
theorem drain_numbered : ∀ (n : ℕ) (c : Committor), c.Keyed →
    (drain n c).1.index = c.index + (drain n c).2.length ∧
      ∀ (j : ℕ) (b : ConsensusBlock), (drain n c).2[j]? = some b → b.epoch = c.index + j
  | 0, c, _ => by simp [drain]
  | n + 1, c, h => by
    cases hl : c.blocks.lookup c.index with
    | none => simp [drain, hl]
    | some b =>
      obtain ⟨hindex, hepochs⟩ := drain_numbered n ⟨c.index + 1, c.blocks.erase c.index⟩
        fun e b' he => h e b' (lookup_of_erase he)
      dsimp only at hindex hepochs
      simp only [drain, hl, List.length_cons]
      refine ⟨by push_cast; omega, fun j b' hb' => ?_⟩
      cases j with
      | zero =>
        cases hb'
        simpa using h c.index b hl
      | succ j =>
        have hepoch := hepochs j b' hb'
        push_cast
        omega

/-- The same of a call of `Commit`. -/
theorem commit_numbered (c : Committor) (block : ConsensusBlock) (h : c.Keyed) :
    (c.commit block).1.index = c.index + (c.commit block).2.length ∧
      ∀ (j : ℕ) (b : ConsensusBlock), (c.commit block).2[j]? = some b → b.epoch = c.index + j := by
  unfold commit
  split_ifs with hlt
  · simp
  · apply drain_numbered
    intro e b he
    by_cases hi : e = block.epoch
    · rw [hi, AList.lookup_insert] at he
      cases he
      exact hi.symm
    · rw [AList.lookup_insert_ne hi] at he
      exact h e b he

end Committor

/-- The commits of a node are the blocks of the epochs from zero on, and the committor's index is
the number of them. -/
structure Numbered (x : Hist) : Prop where
  keyed : x.core.commitor.Keyed
  index : x.core.commitor.index = x.commits.length
  epoch : ∀ (j : ℕ) (b : ConsensusBlock), x.commits[j]? = some b → b.epoch = j

theorem Numbered.init (name : NodeID) : Numbered (Hist.init name) where
  keyed e b hb := by cases hb
  index := rfl
  epoch j b hb := by cases hb

theorem Numbered.rule (h : Rule S env i x0 x y) (hx : Numbered x) : Numbered y := by
  -- One call of `Commit` goes on where the sequence ends.
  have hcommit : ∀ {b : ConsensusBlock}, y.core.commitor = (x.core.commitor.commit b).1 →
      y.commits = x.commits ++ (x.core.commitor.commit b).2 → Numbered y := by
    intro b hk hc
    obtain ⟨hindex, hepochs⟩ := x.core.commitor.commit_numbered b hx.keyed
    rw [hx.index] at hindex hepochs
    refine ⟨hk ▸ (x.core.commitor.commit_order b hx.keyed).1, ?_, fun j b' hb' => ?_⟩
    · rw [hk, hc, hindex, List.length_append]
      push_cast
      rfl
    · rw [hc, List.getElem?_append] at hb'
      split_ifs at hb' with hj
      · exact hx.epoch j b' hb'
      · have hepoch := hepochs _ b' hb'
        omega
  cases h.commitChange with
  | same hk hc => exact ⟨hk ▸ hx.keyed, by rw [hk, hc, hx.index], by rw [hc]; exact hx.epoch⟩
  | late p ho hx0 hl hk hc => exact hcommit hk hc
  | halt ht b hi hx0 ha hb hm hd hk hc => exact hcommit hk hc

theorem Run.numbered (hr : Run S ok s) (q : NodeID) : Numbered (s.nodes q) :=
  (hr.localRun q).invariant (.init q) fun _ h hz => hz.rule h

/-! ## The origin of the commits -/

/-- What a node commits is a block that it took with a proposal. -/
theorem Run.committed_took (hr : Run S ok s) (q : NodeID) :
    Committed (s.nodes q).TookBlock (s.nodes q) := by
  refine ((hr.localRun q).invariant (I := fun z => Facts S q z ∧ Committed z.TookBlock z)
    ⟨Facts.init S q, .init _ q⟩ ?_).2
  rintro env i x0 z z' ⟨-, hreg⟩ h ⟨hf, hz⟩
  refine ⟨hf.rule h, hz.rule h (fun b hb => hb.rule h) (fun p ho hx0 hl => ?_)
    fun ht b hi hx0 ha hb hm hd => ?_⟩
  · refine Hist.TookBlock.rule h ?_
    cases ho with
    | message hi hh => exact ⟨p, hh, (of_decide_eq_true hl).1, rfl⟩
    | loopBack d hi hs hp =>
      rw [hreg.keysApart.loopBack hi] at hs
      exact (hf.provenance.store d _ hs).2
  · rw [hreg.keysApart.halt hi] at hb
    exact (hf.provenance.store _ _ hb).2.rule h

/-- Validity. In every run whose database fails on an absent key, the block at position `j` of what
a node commits is one that a member of the committee has generated, for epoch `j`, and the only one
that the member has generated for the epoch. -/
theorem commits_generated (ha : S.absent = .other) (hr : Run S ok s) {q : NodeID} {j : ℕ}
    {b : ConsensusBlock} (hb : (s.nodes q).commits[j]? = some b) :
    b.epoch = j ∧ b.proposer ∈ S.committee.authorities ∧ b ∈ (s.nodes b.proposer).created ∧
      ∀ b' ∈ (s.nodes b.proposer).created, b'.epoch = j → b' = b := by
  have hepoch := (hr.numbered q).epoch j b hb
  have htook := (hr.committed_took q).sent b (List.mem_of_getElem? hb)
  have hcreated := hr.created_of_took ha htook
  refine ⟨hepoch, hr.mem_of_created hcreated, hcreated, fun b' hb' he => ?_⟩
  exact (hr.blockFacts ha b.proposer).created.unique b' hb' b hcreated (he.trans hepoch.symm)

/-- Node two commits the block of node one, which has led the round. -/
theorem commits_generated_finished : ∃ s : Net, Run (demo 4 1) Always s ∧
    (s.nodes 2).commits[0]? = some (demoBlock 1 0) ∧ (demoBlock 1 0).epoch = (0 : ℕ) ∧
    demoBlock 1 0 ∈ (s.nodes 1).created := by
  obtain ⟨s, hr, hs⟩ := exists_run (demo 4 1) Always [0, 1, 2, 3]
    (finishedRound ++ [.deliver 2 (.halt ⟨0, 0, 0, 1, demoHash 1⟩)])
    (fun nodes => decide ((nodes 2).commits[0]? = some (demoBlock 1 0))) (by decide)
    (by decide +kernel)
  have hb := of_decide_eq_true hs
  obtain ⟨hepoch, -, hcreated, -⟩ := commits_generated (S := demo 4 1) rfl hr hb
  exact ⟨s, hr, hb, hepoch, hcreated⟩

/-! ## Agreement on the order -/

/-- Under the conditions of agreement, two nodes have the same block at a position of what they have
committed, if both have one there. -/
theorem Run.commit_eq {f : ℕ} (hf : S.committee.size = 3 * f + 1) (ha : S.absent = .other)
    (hcoin : FixedCoin S coin) (hr : Run S (Agreeable S coin) s) (hc : Collisionless S s.nodes)
    {q q' : NodeID} {j : ℕ} {b b' : ConsensusBlock} (hb : (s.nodes q).commits[j]? = some b)
    (hb' : (s.nodes q').commits[j]? = some b') : b = b' := by
  have hfacts := hr.agreeFacts hcoin
  have hepoch : b.epoch = b'.epoch :=
    ((hr.numbered q).epoch j b hb).trans ((hr.numbered q').epoch j b' hb').symm
  have hmem := List.mem_of_getElem? hb
  have hmem' := List.mem_of_getElem? hb'
  -- The two halts that decided the epoch carry one hash.
  obtain ⟨h, a, hm, he, hhash⟩ := hr.halt_of_commit ha hcoin hc hmem
  obtain ⟨h', a', hm', he', hhash'⟩ := hr.halt_of_commit ha hcoin hc hmem'
  have hsame : h.blockHash = h'.blockHash :=
    hr.halt_hash_eq hf ha (fun q => (hfacts q).led) (fun q => (hfacts q).opened)
      (fun q => (hfacts q).once) hc hm hm' (by rw [he, he', hepoch])
  -- Both blocks were generated, and no two generated blocks have one hash.
  have hcreated := hr.created_of_took ha ((hr.committed_took q).sent b hmem)
  have hcreated' := hr.created_of_took ha ((hr.committed_took q').sent b' hmem')
  exact hc.eq_of_hash _ (hr.mem_of_created hcreated) _ (hr.mem_of_created hcreated') b hcreated b'
    hcreated' (by rw [← hhash, ← hhash', hsame])

/-- Total order. Under the conditions of agreement, what any two nodes have committed are sequences
of which one is a prefix of the other. -/
theorem commits_prefix {f : ℕ} (hf : S.committee.size = 3 * f + 1) (ha : S.absent = .other)
    (hcoin : FixedCoin S coin) (hr : Run S (Agreeable S coin) s) (hc : Collisionless S s.nodes)
    (q q' : NodeID) :
    (s.nodes q).commits <+: (s.nodes q').commits ∨
      (s.nodes q').commits <+: (s.nodes q).commits :=
  Logs.prefix_total_of_agree fun _ _ _ hb hb' => hr.commit_eq hf ha hcoin hc hb hb'

/-- Node two has committed the block that node one has committed, and node zero nothing yet. -/
theorem commits_prefix_finished : ∃ s : Net, Run (demo 4 1) (Agreeable (demo 4 1) fun _ => 1) s ∧
    (s.nodes 0).commits = [] ∧ (s.nodes 2).commits = [demoBlock 1 0] ∧
    ∀ q q', (s.nodes q).commits <+: (s.nodes q').commits ∨
      (s.nodes q').commits <+: (s.nodes q).commits := by
  obtain ⟨s, hr, hs⟩ := exists_run (demo 4 1) (Agreeable (demo 4 1) fun _ => 1) [0, 1, 2, 3]
    (finishedRound ++ [.deliver 2 (.halt ⟨0, 0, 0, 1, demoHash 1⟩)])
    (fun nodes => decide (Collisionless (demo 4 1) nodes ∧ (nodes 0).commits = [] ∧
      (nodes 2).commits = [demoBlock 1 0])) (by decide) (by decide +kernel)
  obtain ⟨hc, hzero, htwo⟩ := of_decide_eq_true hs
  have hsize : (demo 4 1).committee.size = 3 * 1 + 1 := rfl
  exact ⟨s, hr, hzero, htwo, commits_prefix hsize rfl (demo_fixedCoin 4 1) hr hc⟩

end SMVBA
