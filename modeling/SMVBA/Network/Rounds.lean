import SMVBA.Network.Halts

/-!
# Rounds that do not take place

Nothing happens in a round without its `Done` messages: no prevote, no final vote, no halt, and no
proposal for the round after it. A `Done` in turn needs a quorum of `Finish` messages somewhere, and
each of these comes from a node with a block in its own slot. So a round with one such node at most
has no `Done`, and no round after it has one.
-/

namespace SMVBA

open MessagePassing

variable {S : Setup} {ok : Cond} {s : Net} {v : View}

/-- No node has sent a `Done` for the view. -/
def NoDone (S : Setup) (s : Net) (v : View) : Prop :=
  ∀ q ∈ S.committee.authorities, ∀ d dn, .done dn ∈ (s.nodes q).sentTo d → dn.view ≠ v

/-- A node never forgets the `Finish` messages that it counted. -/
theorem finish_card_mono {s' : Net} (h : (consensus S ok).Step s s') {q : NodeID} {n : ℕ}
    (hn : n ≤ ((s.nodes q).core.aggreator.finishAggreator v).authors.card) :
    n ≤ ((s'.nodes q).core.aggreator.finishAggreator v).authors.card := by
  refine h.preserves (I := fun x => n ≤ (x.core.aggreator.finishAggreator v).authors.card) ?_ hn
  rintro m y out ⟨env, i, outs, -, -, -, hstep, -⟩ hx
  exact step_invariant (I := fun x => n ≤ (x.core.aggreator.finishAggreator v).authors.card)
    (fun hrule hz => hz.trans (hrule.finish_card_le v)) hstep hx

/-- Without a quorum of `Finish` messages there is no `Done`. -/
theorem Run.noDone_of_finish (hr : Run S ok s)
    (hf : ∀ q, ((s.nodes q).core.aggreator.finishAggreator v).authors.card < S.quorum) :
    NoDone S s v := by
  intro q hq d dn hm
  refine hr.forall_sent (G := fun s (m : Message) =>
    (∀ q, ((s.nodes q).core.aggreator.finishAggreator v).authors.card < S.quorum) →
      ∀ dn, m = .done dn → dn.view ≠ v) ?_ ?_ q hq d _ hm hf dn rfl
  · intro s s' m _ h hold hf
    exact hold fun q => (finish_card_mono h le_rfl).trans_lt (hf q)
  · rintro s hr a _ hold d m hm hf dn rfl rfl
    rcases (Run.facts hr a).causes.done d dn hm with hquorum | hlow
    · exact absurd hquorum (not_le.mpr (hf a))
    · -- A `Done` that follows others has one before it.
      have hpos : 0 < ((s.nodes a).core.aggreator.doneAggreator dn.view).authors.card :=
        lt_of_lt_of_le (Nat.succ_pos _) hlow
      obtain ⟨b, hb⟩ := Finset.card_pos.mp hpos
      obtain ⟨dn', hm', -, hv⟩ := (Run.facts hr a).counted.done _ b hb
      exact hold _ hm' hf dn' rfl hv

section Silent

variable (ha : S.absent = .other) (hr : Run S ok s)

include ha hr in
/-- A view in which at most one node has a block in its own slot has no `Done`, if a quorum is more
than one node. -/
theorem Run.noDone_of_slots {L : NodeID}
    (hs : ∀ a h, ((s.nodes a).core.spbInstances (v.slot a)).blockHash = some h →
      a = L ∧ 2 ≤ S.quorum) : NoDone S s v := by
  refine hr.noDone_of_finish fun q => ?_
  by_contra hlt
  have hauthor : ∀ a ∈ ((s.nodes q).core.aggreator.finishAggreator v).authors,
      a = L ∧ 2 ≤ S.quorum := by
    intro a hmem
    obtain ⟨f, hm, rfl, rfl⟩ := (hr.facts q).counted.finish v a hmem
    exact hs _ _ (hr.finish_slot ha (hr.sent_of_handled hm).2).2
  have hpos := S.quorum_pos
  have hone : ((s.nodes q).core.aggreator.finishAggreator v).authors.card ≤ 1 :=
    Finset.card_le_one.mpr fun a hmem b hmem' => (hauthor a hmem).1.trans (hauthor b hmem').1.symm
  obtain ⟨a, hmem⟩ := Finset.card_pos.mp (show 0 <
    ((s.nodes q).core.aggreator.finishAggreator v).authors.card by omega)
  have := (hauthor a hmem).2
  omega

variable (hv : NoDone S s v)

include hr hv

theorem NoDone.done_card {q : NodeID} :
    ((s.nodes q).core.aggreator.doneAggreator v).authors.card = 0 := by
  by_contra hne
  obtain ⟨a, hmem⟩ := Finset.card_pos.mp (Nat.pos_of_ne_zero hne)
  obtain ⟨dn, hm, -, hview⟩ := (hr.facts q).counted.done v a hmem
  obtain ⟨hauthor, hs⟩ := hr.sent_of_handled hm
  exact hv _ hauthor q dn hs hview

/-- No prevotes. -/
theorem NoDone.prevote {q d : NodeID} {pv : Prevote} (hm : .prevote pv ∈ (s.nodes q).sentTo d) :
    pv.view ≠ v := by
  rintro rfl
  have hready := ((hr.facts q).causes.prevote d pv hm).ready
  have hzero := hv.done_card hr (q := q)
  have hpos := S.quorum_pos
  omega

/-- No final votes. -/
theorem NoDone.finVote {q d : NodeID} {fv : FinVote} (hm : .finVote fv ∈ (s.nodes q).sentTo d) :
    fv.view ≠ v := by
  rintro rfl
  cases ((hr.facts q).causes.finVote d fv hm).2 with
  | yes pv hf hh hview hy hb => exact hv.prevote hr (hr.sent_of_handled hh).2 hview
  | no pv hf hh hview hy hb hq => exact hv.prevote hr (hr.sent_of_handled hh).2 hview

/-- No halts. -/
theorem NoDone.halt {q d : NodeID} {h : Halt} (hm : .halt h ∈ (s.nodes q).sentTo d) :
    h.view ≠ v := by
  rintro rfl
  cases (hr.facts q).causes.halt d h hm with
  | finish hl hready hf =>
    have hzero := hv.done_card hr (q := q)
    have hpos := S.quorum_pos
    omega
  | votes fv hh hview hf hl hb hq => exact hv.finVote hr (hr.sent_of_handled hh).2 hview

include ha

/-- No proposals for the round after it. -/
theorem NoDone.proposal (hround : v.round + 1 ≠ 0) {q d : NodeID} {p : SPBProposal}
    (hm : .spbProposal p ∈ (s.nodes q).sentTo d) (hp : p.phase = .one) :
    p.view ≠ ⟨v.epoch, v.round + 1⟩ := by
  intro hview
  obtain ⟨hepoch, hnext⟩ : p.epoch = v.epoch ∧ p.round = v.round + 1 := by
    simpa [SPBProposal.view] using hview
  -- A proposal for a later round follows final votes of the round before it, and there are none.
  cases (hr.blockFacts ha q).caused d p hm hp with
  | first hr' hb he => exact hround (hnext.symm.trans hr')
  | mixed fv hh he hr' hb hd hq =>
    have hfv : fv.view = v := congrArg₂ View.mk (by omega) (by omega)
    exact hv.finVote hr (hr.sent_of_handled hh).2 hfv
  | no w he hr' hb hd hq =>
    obtain rfl : w = v := congrArg₂ View.mk (by omega) (by omega)
    obtain ⟨N, hcard, hN⟩ := ((hr.facts q).counted.finVote w).exists_no
    have hpos := S.quorum_pos
    obtain ⟨a, hmem⟩ := Finset.card_pos.mp (show 0 < N.card by omega)
    obtain ⟨fv, hh, -, hview, -⟩ := hN a hmem
    exact hv.finVote hr (hr.sent_of_handled hh).2 hview

/-- No `Done` in the round after it. -/
theorem NoDone.next (hround : v.round + 1 ≠ 0) : NoDone S s ⟨v.epoch, v.round + 1⟩ := by
  refine hr.noDone_of_slots ha (L := NONE) fun a h hb => ?_
  exfalso
  obtain ⟨b, -, -, -, ⟨hz, -⟩ | ⟨-, -, p, hp, hslot, -, hm⟩⟩ := hr.block_of_slot ha hb
  · exact hround hz
  · refine hv.proposal ha hr hround hm hp ?_
    simp only [SPBProposal.slot, View.slot, Slot.mk.injEq] at hslot
    simp [SPBProposal.view, hslot]

/-- No `Done` in any later round. -/
theorem NoDone.later (hround : 0 ≤ v.round) (k : ℕ) : NoDone S s ⟨v.epoch, v.round + k⟩ := by
  induction k with
  | zero => simpa using hv
  | succ k ih =>
    have hnext := ih.next ha hr (by dsimp only; omega)
    simpa [add_assoc] using hnext

end Silent

end SMVBA
