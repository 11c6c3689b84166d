import SMVBA.Library.Quorum
import SMVBA.Network.Blocks
import SMVBA.Network.Exec

/-!
# SPB certificates

The counters of an SPB instance are bare numbers, and a phase-two vote carries no hash. They are
worth a certificate all the same: a node gets one vote of each phase from each voter of an instance,
because the voter has sent one at most, so that a counter at the quorum has a quorum of voters
behind it (`Run.voters`). With one block to a slot, the voters have voted for the same block.
-/

namespace SMVBA

open MessagePassing

variable {S : Setup} {ok : Cond} {s : Net}

section Counters

variable (ha : S.absent = .other) (hr : Run S ok s)

include ha hr

/-- A vote that a node took is for an instance of its own. -/
theorem Run.vote_proposer {q : NodeID} {v : SPBVote} (hm : .spbVote v ∈ (s.nodes q).handled) :
    v.proposer = q := by
  obtain ⟨hauthor, hs⟩ := hr.sent_of_handled hm
  rcases (hr.facts _).sent.voteTo q v hs with hnone | hq
  · exact absurd hnone (hr.proper_handled ha q _ hm).2
  · exact hq.symm

/-- A counter that is not at zero is of an instance of the node's own. -/
theorem Run.votes_own {q : NodeID} {t : Slot} {ph : Phase}
    (h : 0 < ((s.nodes q).core.spbInstances t).votes ph) : t.node = q := by
  have hload := (hr.facts q).votes t ph
  unfold Hist.voteLoad at hload
  have hpos : 0 < (s.nodes q).handled.countP (Message.isVote t ph) := by omega
  obtain ⟨m, hm, hvote⟩ := List.countP_pos_iff.mp hpos
  cases m with
  | spbVote v =>
    have hslot : v.slot = t := (of_decide_eq_true hvote).1
    rw [← hslot]
    exact hr.vote_proposer ha hm
  | _ => cases hvote

/-- A node takes at most one phase-two proposal for the instance of a slot. -/
theorem Run.countP_two_le (q : NodeID) (t : Slot) :
    (s.nodes q).handled.countP (Message.isProposal t .two) ≤ 1 := by
  have hsent : (s.nodes q).handled.countP (Message.isProposal t .two) ≤
      ((s.nodes t.node).sentTo q).countP (Message.isProposal t .two) := by
    refine hr.countP_handled_le fun m hm => ?_
    cases m with
    | spbProposal p =>
      have hslot : p.slot = t := (of_decide_eq_true hm).1
      rw [← hslot]
      rfl
    | _ => cases hm
  -- Behind each of them is a quorum of votes for an instance of the proposer's own.
  have hown : ((s.nodes t.node).sentTo q).countP (Message.isProposal t .two) ≤
      ((s.nodes t.node).sentTo q).countP (Message.isTwo ⟨t.epoch, t.round⟩ t.node) := by
    refine List.countP_mono_left fun m hm hp => ?_
    cases m with
    | spbProposal p =>
      obtain ⟨hslot, htwo⟩ := of_decide_eq_true hp
      have hvotes := (hr.facts t.node).sent.two q p hm htwo
      have hnode := hr.votes_own ha (lt_of_lt_of_le S.quorum_pos hvotes)
      rw [← hslot] at hnode ⊢
      simpa [Message.isTwo, htwo, View.slot, SPBProposal.slot, SPBProposal.view] using hnode
    | _ => cases hp
  have hcount := (hr.facts t.node).twosSent q ⟨t.epoch, t.round⟩ t.node
  have hone : (if S.quorum ≤ ((s.nodes t.node).core.spbInstances
      (View.slot ⟨t.epoch, t.round⟩ t.node)).votes .one then 1 else 0) ≤ 1 := by
    split_ifs <;> omega
  omega

/-- A node sends at most one vote of a phase for the instance of a slot. -/
theorem Run.countP_vote_le (q d : NodeID) (t : Slot) {ph : Phase} (hph : ph = .one ∨ ph = .two) :
    ((s.nodes q).sentTo d).countP (Message.isVote t ph) ≤ 1 := by
  rcases hph with rfl | rfl
  · have hle := (hr.facts q).onesSent d t
    split_ifs at hle <;> omega
  · have hle := (hr.facts q).twos d t
    have htwo := hr.countP_two_le ha q t
    omega

/-- Behind a counter at the quorum is a quorum of voters. -/
theorem Run.voters {q : NodeID} {t : Slot} {ph : Phase} (hph : ph = .one ∨ ph = .two)
    (hq : S.quorum ≤ ((s.nodes q).core.spbInstances t).votes ph) :
    ∃ A ⊆ S.committee.authorities, S.quorum ≤ A.card ∧ ∀ a ∈ A, ∃ v : SPBVote,
      v.author = a ∧ v.slot = t ∧ v.phase = ph ∧ .spbVote v ∈ (s.nodes a).sentTo t.node := by
  have hnode := hr.votes_own ha (lt_of_lt_of_le S.quorum_pos hq)
  -- The counter is at most the number of votes that the node took, and of these there is at most
  -- one for each voter.
  have hload := (hr.facts q).votes t ph
  unfold Hist.voteLoad at hload
  have hvoters := Quorum.le_card_voters Message.author (Message.isVote t ph) (s.nodes q).handled
    fun a => by
      refine le_trans (hr.countP_handled_le (a := a) fun m hm => ?_) (le_trans ?_
        (hr.countP_vote_le ha a q t hph))
      · simp only [Bool.and_eq_true, decide_eq_true_eq] at hm
        exact hm.2
      · exact List.countP_mono_left fun m _ hm => (Bool.and_eq_true_iff.mp hm).1
  refine ⟨_, hr.authors_subset (q := q) fun a hmem => ?_, le_trans (by omega) hvoters, ?_⟩
  · obtain ⟨m, hm, hauthor⟩ := List.mem_map.mp (List.mem_toFinset.mp hmem)
    exact ⟨m, List.mem_of_mem_filter hm, hauthor⟩
  · intro a hmem
    obtain ⟨m, hm, rfl⟩ := List.mem_map.mp (List.mem_toFinset.mp hmem)
    obtain ⟨hhandled, hvote⟩ := List.mem_filter.mp hm
    have hs := (hr.sent_of_handled hhandled).2
    cases m with
    | spbVote v =>
      obtain ⟨hslot, hphase⟩ := of_decide_eq_true hvote
      rw [hnode]
      exact ⟨v, rfl, hslot, hphase, hs⟩
    | _ => cases hvote

/-! ## Locks and `Finish` messages -/

/-- Behind a lock is a quorum of phase-one votes for the locked block. -/
theorem Run.lock_certificate {q : NodeID} {t : Slot}
    (hl : ((s.nodes q).core.spbInstances t).lockFlag = true) :
    ∃ h, ((s.nodes q).core.spbInstances t).blockHash = some h ∧
      ∃ A ⊆ S.committee.authorities, S.quorum ≤ A.card ∧ ∀ a ∈ A, ∃ v : SPBVote,
        v.author = a ∧ v.slot = t ∧ v.phase = .one ∧ v.blockHash = h ∧
          .spbVote v ∈ (s.nodes a).sentTo t.node := by
  obtain ⟨⟨h, hb⟩, p, hm, rfl, htwo⟩ := (hr.facts q).provenance.lock t hl
  obtain ⟨hnode, hs⟩ := hr.sent_of_handled hm
  have hvotes := (hr.facts _).sent.two q p hs htwo
  have hown := hr.votes_own ha (lt_of_lt_of_le S.quorum_pos hvotes)
  have hslot : p.view.slot p.b.proposer = p.slot := by
    simp only [View.slot, SPBProposal.view, SPBProposal.slot, Slot.mk.injEq, true_and]
    exact hown
  rw [hslot] at hvotes
  obtain ⟨A, hA, hcard, hvoters⟩ := hr.voters ha (.inl rfl) hvotes
  refine ⟨h, hb, A, hA, hcard, fun a hmem => ?_⟩
  obtain ⟨v, hauthor, hvslot, hphase, hsent⟩ := hvoters a hmem
  have hvb := (hr.facts a).sent.voteOne _ v hsent hphase
  rw [hvslot] at hvb
  exact ⟨v, hauthor, hvslot, hphase, hr.slot_hash_eq ha hvb hb, hsent⟩

/-- A `Finish` is for the author's own instance, carries the hash of its block, and follows a quorum
of votes for the second phase. -/
theorem Run.finish_slot {q d : NodeID} {f : Finish} (hm : .finish f ∈ (s.nodes q).sentTo d) :
    S.quorum ≤ ((s.nodes q).core.spbInstances (f.view.slot q)).votes .two ∧
      ((s.nodes q).core.spbInstances (f.view.slot q)).blockHash = some f.blockHash := by
  obtain ⟨node, hvotes, hb⟩ := (hr.facts q).sent.finish d f hm
  obtain rfl : node = q := hr.votes_own ha (lt_of_lt_of_le S.quorum_pos hvotes)
  exact ⟨hvotes, hb⟩

/-- Behind a `Finish` is a quorum of nodes that have locked its block. -/
theorem Run.finish_certificate {q d : NodeID} {f : Finish}
    (hm : .finish f ∈ (s.nodes q).sentTo d) :
    ∃ A ⊆ S.committee.authorities, S.quorum ≤ A.card ∧ ∀ a ∈ A,
      ((s.nodes a).core.spbInstances (f.view.slot q)).lockFlag = true ∧
        ((s.nodes a).core.spbInstances (f.view.slot q)).blockHash = some f.blockHash := by
  obtain ⟨hvotes, hb⟩ := hr.finish_slot ha hm
  obtain ⟨A, hA, hcard, hvoters⟩ := hr.voters ha (.inr rfl) hvotes
  refine ⟨A, hA, hcard, fun a hmem => ?_⟩
  obtain ⟨v, -, hvslot, hphase, hsent⟩ := hvoters a hmem
  have hlock := (hr.facts a).sent.voteTwo _ v hsent hphase
  rw [hvslot] at hlock
  obtain ⟨⟨h, hab⟩, -⟩ := (hr.facts a).provenance.lock _ hlock
  rw [hr.slot_hash_eq ha hb hab]
  exact ⟨hlock, hab⟩

end Counters

/-- SPB certificates are sound. A `Finish` of `P` has a quorum of nodes behind it whose instances of
`P` are locked with its hash, and a locked instance has its block hash and a quorum of nodes behind
it that have sent `P` a phase-one vote for that hash. -/
theorem spb_certificates_sound (ha : S.absent = .other) (hr : Run S Always s) :
    (∀ P, ∀ f : Finish, (s.nodes P).Broadcast (.finish f) →
      ∃ A ⊆ S.committee.authorities, S.committee.hightThreshold ≤ A.card ∧ ∀ a ∈ A,
        ((s.nodes a).core.spbInstances ⟨f.epoch, f.round, P⟩).lockFlag = true ∧
          ((s.nodes a).core.spbInstances ⟨f.epoch, f.round, P⟩).blockHash = some f.blockHash) ∧
    (∀ q epoch round P,
      ((s.nodes q).core.spbInstances ⟨epoch, round, P⟩).lockFlag = true →
      ∃ h, ((s.nodes q).core.spbInstances ⟨epoch, round, P⟩).blockHash = some h ∧
        ∃ A ⊆ S.committee.authorities, S.committee.hightThreshold ≤ A.card ∧ ∀ a ∈ A,
          .spbVote ⟨a, P, h, epoch, round, .one⟩ ∈ (s.nodes a).sentTo P) := by
  refine ⟨fun P f hf => ?_, fun q epoch round P hl => ?_⟩
  · exact hr.finish_certificate ha (((hr.facts P).even.mem_iff rfl P).mpr hf)
  · obtain ⟨h, hb, A, hA, hcard, hvoters⟩ := hr.lock_certificate ha hl
    refine ⟨h, hb, A, hA, hcard, fun a hmem => ?_⟩
    obtain ⟨v, rfl, hslot, hphase, rfl, hsent⟩ := hvoters a hmem
    simp only [SPBVote.slot, Slot.mk.injEq] at hslot
    obtain ⟨rfl, rfl, rfl⟩ := hslot
    rw [← hphase]
    exact hsent

/-- Three of four nodes start, and vote twice for the proposal of node zero, which finishes. -/
def finishByThree : List Act := [.start 0, .start 1, .start 2] ++ spbRun 0 [0, 1, 2]

/-- The certificates of that run, with a quorum of three. -/
theorem spb_certificates_sound_three : ∃ s : Net, Run (demo 4 1) Always s ∧
    (s.nodes 0).Broadcast (.finish ⟨0, demoHash 0, 0, 0⟩) ∧
    (∃ A ⊆ (demo 4 1).committee.authorities, 3 ≤ A.card ∧ ∀ a ∈ A,
      ((s.nodes a).core.spbInstances ⟨0, 0, 0⟩).lockFlag = true ∧
        ((s.nodes a).core.spbInstances ⟨0, 0, 0⟩).blockHash = some (demoHash 0)) ∧
    ((s.nodes 2).core.spbInstances ⟨0, 0, 0⟩).lockFlag = true ∧
    ∃ h, ((s.nodes 2).core.spbInstances ⟨0, 0, 0⟩).blockHash = some h ∧
      ∃ A ⊆ (demo 4 1).committee.authorities, 3 ≤ A.card ∧ ∀ a ∈ A,
        .spbVote ⟨a, 0, h, 0, 0, .one⟩ ∈ (s.nodes a).sentTo 0 := by
  obtain ⟨s, hr, hs⟩ := exists_run (demo 4 1) Always [0, 1, 2, 3] finishByThree
    (fun nodes => decide ((nodes 0).Broadcast (.finish ⟨0, demoHash 0, 0, 0⟩) ∧
      ((nodes 2).core.spbInstances ⟨0, 0, 0⟩).lockFlag = true))
    (by decide) (by decide +kernel)
  obtain ⟨hfinish, hlock⟩ := of_decide_eq_true hs
  obtain ⟨hf, hl⟩ := spb_certificates_sound (S := demo 4 1) rfl hr
  exact ⟨s, hr, hfinish, hf 0 _ hfinish, hlock, hl 2 0 0 0 hlock⟩

end SMVBA
