import SMVBA.Network.System

/-!
# The blocks of a run

Every block that is proposed anywhere was created by the node that it names as its proposer, and a
node creates one block an epoch. So the instance of a slot holds the same block at every node: in
round zero it is the block of the slot's node, whether it came with a proposal or through the
loopback channel, and in a later round it came with the one proposal that the slot's node made for
that round.
-/

namespace SMVBA

open MessagePassing

variable {S : Setup} {ok : Cond} {s : Net}

/-! ## Proper messages -/

/-- What all messages of a run have: a round that is not negative, and nodes where they name
nodes. -/
def Message.Proper : Message → Prop
  | .spbProposal p => 0 ≤ p.round ∧ p.author ≠ NONE ∧ (p.phase = .one → p.b.proposer ≠ NONE)
  | .spbVote v => 0 ≤ v.round ∧ v.proposer ≠ NONE
  | .finish f => 0 ≤ f.round
  | .done dn => 0 ≤ dn.round
  | .electShare _ => True
  | .prevote pv => 0 ≤ pv.round
  | .finVote fv => 0 ≤ fv.round
  | .halt h => 0 ≤ h.round

section Local

variable {q : NodeID} {x : Hist} (hf : Facts S q x) (hb : BlockFacts S x)
  (hp : ∀ m ∈ x.handled, m.Proper)

include hf hp

/-- A counted vote was taken as a message. -/
theorem round_nonneg_of_votes {t : Slot} {ph : Phase} (h : 0 < (x.core.spbInstances t).votes ph) :
    0 ≤ t.round := by
  have hload := hf.votes t ph
  unfold Hist.voteLoad at hload
  have hpos : 0 < x.handled.countP (Message.isVote t ph) := by omega
  obtain ⟨m, hm, hvote⟩ := List.countP_pos_iff.mp hpos
  cases m with
  | spbVote v =>
    have hslot : v.slot = t := (of_decide_eq_true hvote).1
    rw [← hslot]
    exact (hp _ hm).1
  | _ => cases hvote

/-- A counted `Done` was taken as a message. -/
theorem round_nonneg_of_done {v : View}
    (h : S.quorum ≤ (x.core.aggreator.doneAggreator v).authors.card) : 0 ≤ v.round := by
  have hpos := lt_of_lt_of_le S.quorum_pos h
  obtain ⟨a, ha⟩ := Finset.card_pos.mp hpos
  obtain ⟨dn, hm, -, hv⟩ := hf.counted.done v a ha
  rw [← hv]
  exact hp _ hm

/-- A counted final vote was taken as a message. -/
theorem round_nonneg_of_finVote {v : View}
    (h : 0 < (x.core.aggreator.finvoteAggreator v).yesNums +
      (x.core.aggreator.finvoteAggreator v).noNums) : 0 ≤ v.round := by
  obtain ⟨a, ⟨fv, hm, -, hv, -⟩ | ⟨fv, hm, -, hv, -⟩⟩ := (hf.counted.finVote v).exists_voter h
  · rw [← hv]
    exact hp _ hm
  · rw [← hv]
    exact hp _ hm

omit hf in
/-- The source of a block in an instance. -/
theorem proper_of_source {p : SPBProposal} (hs : Source x p) :
    0 ≤ p.round ∧ p.author ≠ NONE := by
  rcases hs with hm | ⟨heq, p', hm, hone', hb⟩
  · exact ⟨(hp _ hm).1, (hp _ hm).2.1⟩
  · have hprop := (hp _ hm).2.2 hone'
    rw [hb] at hprop
    rw [heq]
    exact ⟨le_rfl, hprop⟩

include hb

/-- A node that took proper messages sends proper proposals. -/
theorem proper_of_proposal (hq : q ≠ NONE) {d : NodeID} {p : SPBProposal}
    (hm : .spbProposal p ∈ x.sentTo d) : (Message.spbProposal p).Proper := by
  have hquorum := S.quorum_pos
  have hpa : p.author ≠ NONE := by
    rw [show p.author = q from (hf.sent.author d _ hm).trans hf.name_eq]
    exact hq
  rcases hf.sent.proposalPhase d p hm with hone | htwo
  · -- A phase-one proposal has a new block in round zero, or follows a round with final votes.
    cases hb.caused d p hm hone with
    | first hr hcr he =>
      refine ⟨hr.ge, hpa, fun _ => ?_⟩
      rw [(hb.created.block _ hcr).1, hf.name_eq]
      exact hq
    | mixed fv hh he hr htook hd hq2 =>
      obtain ⟨p', hm', hone', hpb⟩ := htook
      have hround : 0 ≤ fv.round := hp _ hh
      exact ⟨by omega, hpa, fun _ => hpb ▸ (hp _ hm').2.2 hone'⟩
    | no v he hr htook hd hno =>
      obtain ⟨p', hm', hone', hpb⟩ := htook
      have hround : 0 ≤ v.round := round_nonneg_of_finVote hf hp (by omega)
      exact ⟨by omega, hpa, fun _ => hpb ▸ (hp _ hm').2.2 hone'⟩
  · -- A phase-two proposal follows votes for the same instance.
    have hvotes := hf.sent.two d p hm htwo
    refine ⟨?_, hpa, fun hone => by rw [htwo] at hone; cases hone⟩
    exact round_nonneg_of_votes hf hp (lt_of_lt_of_le hquorum hvotes)

omit hb in
/-- A node that took proper messages sends proper votes: they go back to a proposal. -/
theorem proper_of_vote (hs : Sources S x) {d : NodeID} {v : SPBVote}
    (hm : .spbVote v ∈ x.sentTo d) : (Message.spbVote v).Proper := by
  have hanswer : ∃ p : SPBProposal, p.slot = v.slot ∧ 0 ≤ p.round ∧ p.author ≠ NONE := by
    rcases hf.sent.votePhase d v hm with hone | htwo
    · obtain ⟨p, hsource, -, hslot, -, -⟩ := hs.block _ _ (hf.sent.voteOne d v hm hone)
      exact ⟨p, hslot, proper_of_source hp hsource⟩
    · obtain ⟨-, p, hm', hslot, -⟩ := hf.provenance.lock _ (hf.sent.voteTwo d v hm htwo)
      exact ⟨p, hslot, (hp _ hm').1, (hp _ hm').2.1⟩
  obtain ⟨p, hslot, hproper⟩ := hanswer
  simp only [SPBProposal.slot, SPBVote.slot, Slot.mk.injEq] at hslot
  rw [hslot.2.1, hslot.2.2] at hproper
  exact hproper

/-- A node that took proper messages sends proper messages. -/
theorem proper_of_handled (hs : Sources S x) (hq : q ≠ NONE) :
    ∀ d, ∀ m ∈ x.sentTo d, m.Proper := by
  intro d m hm
  have hquorum := S.quorum_pos
  cases m with
  | spbProposal p => exact proper_of_proposal hf hb hp hq hm
  | spbVote v => exact proper_of_vote hf hp hs hm
  | finish f =>
    obtain ⟨node, hvotes, -⟩ := hf.sent.finish d f hm
    exact round_nonneg_of_votes hf hp (lt_of_lt_of_le hquorum hvotes)
  | done dn =>
    rcases hf.causes.done d dn hm with hc | hc
    · -- A `Done` follows a `Finish` of the view, or another `Done`.
      obtain ⟨a, ha⟩ := Finset.card_pos.mp (lt_of_lt_of_le hquorum hc)
      obtain ⟨f, hm', -, hv⟩ := hf.counted.finish _ a ha
      have hround : 0 ≤ f.view.round := hp _ hm'
      rwa [hv] at hround
    · obtain ⟨a, ha⟩ := Finset.card_pos.mp (lt_of_lt_of_le (Nat.succ_pos _) hc)
      obtain ⟨dn', hm', -, hv⟩ := hf.counted.done _ a ha
      have hround : 0 ≤ dn'.view.round := hp _ hm'
      rwa [hv] at hround
  | electShare e => trivial
  | prevote pv => exact round_nonneg_of_done hf hp (hf.causes.prevote d pv hm).ready
  | finVote fv =>
    cases (hf.causes.finVote d fv hm).2 with
    | yes pv _ hh hv _ _ | no pv _ hh hv _ _ _ =>
      have hround : 0 ≤ pv.view.round := hp _ hh
      rwa [hv] at hround
  | halt h =>
    cases hf.causes.halt d h hm with
    | finish hl hr hf' => exact round_nonneg_of_done hf hp hr
    | votes fv hh hv _ _ _ _ =>
      have hround : 0 ≤ fv.view.round := hp _ hh
      rwa [hv] at hround

end Local

section Network

variable (ha : S.absent = .other) (hr : Run S ok s)

include ha hr

/-- All messages that the nodes of a run send are proper. -/
theorem Run.proper_sent {q : NodeID} (hq : q ∈ S.committee.authorities) (d : NodeID) :
    ∀ m ∈ (s.nodes q).sentTo d, m.Proper := by
  refine hr.forall_sent (G := fun _ m => m.Proper) (fun _ _ h => h) ?_ q hq d
  intro s hr q hq hp d m hm
  have hne : q ≠ NONE := fun h => S.committee.none_notMem (h ▸ hq)
  exact proper_of_handled (Run.facts hr q) (Run.blockFacts hr ha q) hp (Run.sources hr q) hne d m hm

/-- All messages that a node of a run took are proper. -/
theorem Run.proper_handled (q : NodeID) : ∀ m ∈ (s.nodes q).handled, m.Proper := by
  intro m hm
  obtain ⟨ha', hs⟩ := hr.sent_of_handled hm
  exact hr.proper_sent ha ha' q m hs

omit ha hr in
/-- What a node has created stays created. -/
theorem created_mono {s' : Net} (h : (consensus S ok).Step s s') {q : NodeID} {b : ConsensusBlock}
    (hb : b ∈ (s.nodes q).created) : b ∈ (s'.nodes q).created := by
  refine h.preserves (I := fun x => b ∈ x.created) ?_ hb
  rintro m y out ⟨env, i, outs, -, -, -, hstep, -⟩ hx
  exact step_invariant (fun hrule hz => hrule.mem_created hz) hstep hx

/-- The block of every phase-one proposal was created by the node that it names. -/
theorem Run.created_of_sent {q d : NodeID} (hq : q ∈ S.committee.authorities) {p : SPBProposal}
    (hm : .spbProposal p ∈ (s.nodes q).sentTo d) (hp : p.phase = .one) :
    p.b ∈ (s.nodes p.b.proposer).created := by
  refine hr.forall_sent (G := fun s m => ∀ p, m = .spbProposal p → p.phase = .one →
    p.b ∈ (s.nodes p.b.proposer).created) ?_ ?_ q hq d _ hm p rfl hp
  · intro s s' m hr h hold p hm hp
    exact created_mono h (hold p hm hp)
  · rintro s hr q hq hold d m hm p rfl hp
    -- A block that the node has not created it took with a proposal, whose block was created by
    -- the node that it names.
    have htook : (s.nodes q).TookBlock p.b → p.b ∈ (s.nodes p.b.proposer).created := by
      rintro ⟨p', hm', hp', hb⟩
      rw [← hb]
      exact hold _ hm' p' rfl hp'
    have hblock := Run.blockFacts hr ha q
    cases hblock.caused d p hm hp with
    | first _ hb _ =>
      have hprop := (hblock.created.block _ hb).1
      rw [(Run.facts hr q).name_eq] at hprop
      rwa [hprop]
    | mixed _ _ _ _ hb _ _ => exact htook hb
    | no _ _ _ hb _ _ => exact htook hb

/-- The block of every phase-one proposal that a node took was created by the node that it names. -/
theorem Run.created_of_took {q : NodeID} {b : ConsensusBlock} (hb : (s.nodes q).TookBlock b) :
    b ∈ (s.nodes b.proposer).created := by
  obtain ⟨p, hm, hp, rfl⟩ := hb
  obtain ⟨hauthor, hs⟩ := hr.sent_of_handled hm
  exact hr.created_of_sent ha hauthor hs hp

/-- A node sends at most one phase-one proposal in a view. -/
theorem Run.countP_one_le {q : NodeID} (d : NodeID) (v : View) :
    ((s.nodes q).sentTo d).countP (Message.isOne v) ≤ 1 := by
  have hle := (hr.blockFacts ha q).counted d v
  by_cases hround : v.round = 0
  · -- There are no final votes before round zero.
    have hclosed : (s.nodes q).closed S ⟨v.epoch, v.round - 1⟩ = false := by
      by_contra hne
      have hquorum : S.quorum ≤
          ((s.nodes q).core.aggreator.finvoteAggreator ⟨v.epoch, v.round - 1⟩).yesNums +
          ((s.nodes q).core.aggreator.finvoteAggreator ⟨v.epoch, v.round - 1⟩).noNums := by
        simpa [Hist.closed] using hne
      have hnonneg := round_nonneg_of_finVote (hr.facts q) (hr.proper_handled ha q)
        (lt_of_lt_of_le S.quorum_pos hquorum)
      dsimp only at hnonneg
      omega
    rw [hclosed] at hle
    exact hle.trans (Bool.toNat_le _)
  · have hopened : (s.nodes q).opened v = false := by simp [Hist.opened, hround]
    rw [hopened] at hle
    have := Bool.toNat_le ((s.nodes q).closed S ⟨v.epoch, v.round - 1⟩)
    simp only [Bool.toNat_false] at hle
    omega

/-! ## The block of a slot -/

/-- A phase-one proposal of round zero carries the new block of its epoch. -/
theorem Run.first_of_round_zero {q d : NodeID} {p : SPBProposal}
    (hm : .spbProposal p ∈ (s.nodes q).sentTo d) (hp : p.phase = .one) (hround : p.round = 0) :
    p.b.epoch = p.epoch := by
  have hproper := hr.proper_handled ha q
  cases (hr.blockFacts ha q).caused d p hm hp with
  | first _ _ he => exact he
  | mixed fv hh _ hr' _ _ _ =>
    have hnonneg : 0 ≤ fv.round := hproper _ hh
    omega
  | no v _ hr' _ _ hq =>
    have hpos := S.quorum_pos
    have hnonneg := round_nonneg_of_finVote (hr.facts q) hproper (v := v) (by omega)
    omega

/-- The block that the instance of a slot holds: the slot's node created it, and it is its block of
the epoch if the round is zero, and its proposal of the round otherwise. -/
theorem Run.block_of_slot {q : NodeID} {t : Slot} {h : Digest}
    (hb : ((s.nodes q).core.spbInstances t).blockHash = some h) :
    ∃ b, S.hash b = h ∧ b.proposer = t.node ∧ b ∈ (s.nodes t.node).created ∧
      ((t.round = 0 ∧ b.epoch = t.epoch) ∨ (t.round ≠ 0 ∧ t.node ∈ S.committee.authorities ∧
        ∃ p, p.phase = .one ∧ p.slot = t ∧ p.b = b ∧
        .spbProposal p ∈ (s.nodes t.node).sentTo q)) := by
  obtain ⟨p, hs, hone, rfl, hauthor, rfl⟩ := (hr.sources q).block t h hb
  rcases hs with hm | ⟨heq, htook⟩
  · -- The block came with a proposal of the slot's node.
    obtain ⟨hnode, hsent⟩ := hr.sent_of_handled hm
    have hcreated := hr.created_of_sent ha hnode hsent hone
    rw [← hauthor] at hcreated
    refine ⟨p.b, rfl, hauthor.symm, hcreated, ?_⟩
    by_cases hround : p.round = 0
    · exact .inl ⟨hround, hr.first_of_round_zero ha hsent hone hround⟩
    · exact .inr ⟨hround, hnode, p, hone, rfl, rfl, hsent⟩
  · -- The block came through the loopback channel, which makes a proposal of round zero of it.
    have hcreated := hr.created_of_took ha htook
    rw [← hauthor] at hcreated
    have hround : p.round = 0 := by rw [heq]; rfl
    have hepoch : p.b.epoch = p.epoch := by rw [heq]; rfl
    exact ⟨p.b, rfl, hauthor.symm, hcreated, .inl ⟨hround, hepoch⟩⟩

/-- The instance of a slot holds the same block at every node. -/
theorem Run.slot_hash_eq {q q' : NodeID} {t : Slot} {h h' : Digest}
    (hb : ((s.nodes q).core.spbInstances t).blockHash = some h)
    (hb' : ((s.nodes q').core.spbInstances t).blockHash = some h') : h = h' := by
  obtain ⟨b, rfl, -, hc, hcase⟩ := hr.block_of_slot ha hb
  obtain ⟨b', rfl, -, hc', hcase'⟩ := hr.block_of_slot ha hb'
  rcases hcase with ⟨hz, he⟩ | ⟨hz, -, p, hp, hslot, rfl, hm⟩ <;>
    rcases hcase' with ⟨hz', he'⟩ | ⟨hz', -, p', hp', hslot', rfl, hm'⟩
  · rw [(hr.blockFacts ha t.node).created.unique b hc b' hc' (he.trans he'.symm)]
  · exact absurd hz hz'
  · exact absurd hz' hz
  · -- The slot's node has made one proposal for the round, and everybody got the same.
    have hm'' := (hr.facts t.node).even.mem hm' rfl q
    have hview : p.view = p'.view := by
      have := hslot.trans hslot'.symm
      simp only [SPBProposal.slot, Slot.mk.injEq] at this
      simp [SPBProposal.view, this.1, this.2.1]
    have heq := Quorum.eq_of_countP_le_one (hr.countP_one_le ha q p'.view) hm hm''
      (by simp [Message.isOne, hp, hview]) (by simp [Message.isOne, hp'])
    obtain rfl : p = p' := by simpa using heq
    rfl

end Network

end SMVBA
