import SMVBA.Network.Certificates
import SMVBA.Rules.Leaders

/-!
# What stands behind a halt

A halt goes back to a lock. The halt of `processLeader` has a `Finish` of the leader behind it,
whose certificate is a quorum of locks. The halt of `handleFinvote` has final votes for yes behind
it, they have prevotes for yes, and a prevote for yes is sent by a node that has locked the leader's
block. The locked block is the leader's block of the round. It is also the block that the leader has
generated for the epoch, because a round after the first takes its blocks over from the round
before.

Every digest that a node looks up is therefore zero or the hash of a block that some node took
(`Run.names_lookups`).
-/

namespace SMVBA

open MessagePassing

variable {S : Setup} {ok : Cond} {s : Net} {led : View → NodeID → Prop}

/-- The hash function has no collision on the blocks that the nodes generated, and gives none of
them the zero digest. Different blocks of one encoding are a collision too. -/
structure Collisionless (S : Setup) (nodes : NodeID → Hist) : Prop where
  eq_of_hash : ∀ q ∈ S.committee.authorities, ∀ q' ∈ S.committee.authorities,
    ∀ b ∈ (nodes q).created, ∀ b' ∈ (nodes q').created, S.hash b = S.hash b' → b = b'
  hash_ne_zero : ∀ q ∈ S.committee.authorities, ∀ b ∈ (nodes q).created, S.hash b ≠ 0

instance (S : Setup) (nodes : NodeID → Hist) : Decidable (Collisionless S nodes) :=
  decidable_of_iff (_ ∧ _) ⟨fun h => ⟨h.1, h.2⟩, fun h => ⟨h.eq_of_hash, h.hash_ne_zero⟩⟩

/-- Only nodes of the committee generate blocks. -/
theorem Run.mem_of_created (hr : Run S ok s) {q : NodeID} {b : ConsensusBlock}
    (hb : b ∈ (s.nodes q).created) : q ∈ S.committee.authorities := by
  by_contra hq
  have hinit : s.nodes q = Hist.init q := hr.nodes_of_notMem hq
  rw [hinit] at hb
  cases hb

/-- A node has locked the block with the hash in the slot of a leader that `led` allows. -/
def LedLock (led : View → NodeID → Prop) (s : Net) (v : View) (h : Digest) : Prop :=
  ∃ a L, led v L ∧ ((s.nodes a).core.spbInstances (v.slot L)).lockFlag = true ∧
    ((s.nodes a).core.spbInstances (v.slot L)).blockHash = some h

/-- Every leader is allowed, for the arguments that do not depend on who leads. -/
theorem Run.ledBy_any (hr : Run S ok s) (q : NodeID) :
    LedBy S (fun _ _ => True) (s.nodes q) := by
  refine ((hr.localRun q).invariant (I := fun z => Facts S q z ∧
    LedBy S (fun _ _ => True) z) ?_ ?_).2
  · refine ⟨Facts.init S q, ?_, ?_⟩ <;> simp [Hist.init, Hist.sentTo]
  · rintro env i x0 z z' - h ⟨hf, hz⟩
    exact ⟨hf.rule h, hz.rule h hf.counted (fun _ _ _ _ _ _ => trivial)
      fun _ _ _ _ _ _ _ => trivial⟩

section Locks

variable (ha : S.absent = .other) (hr : Run S ok s) (hled : ∀ q, LedBy S led (s.nodes q))

include hr hled

/-- Behind a final vote for yes is a lock, and one for no carries the zero digest. -/
theorem Run.finVote_lock {q d : NodeID} {fv : FinVote} (hm : .finVote fv ∈ (s.nodes q).sentTo d) :
    (fv.flag = .yes ∧ LedLock led s fv.view fv.blockHash) ∨ (fv.flag = .no ∧ fv.blockHash = 0) := by
  cases ((hr.facts q).causes.finVote d fv hm).2 with
  | yes pv hf hh hv hy hb =>
    obtain ⟨-, hs⟩ := hr.sent_of_handled hh
    obtain ⟨-, hlock, hhash⟩ | ⟨hno, -⟩ := ((hr.facts _).causes.prevote q pv hs).lock
    · rw [← hv, ← hb]
      exact .inl ⟨hf, _, pv.leader, (hled _).prevote q pv hs, hlock, hhash⟩
    · exact absurd hno hy
  | no pv hf hh hv hy hb hq =>
    obtain ⟨-, hs⟩ := hr.sent_of_handled hh
    obtain ⟨hyes, -⟩ | ⟨-, hzero⟩ := ((hr.facts _).causes.prevote q pv hs).lock
    · rw [hyes] at hy
      cases hy
    · exact .inr ⟨hf, hb ▸ hzero⟩

include ha

/-- Behind a halt is a lock. -/
theorem Run.halt_lock {q d : NodeID} {h : Halt} (hm : .halt h ∈ (s.nodes q).sentTo d) :
    LedLock led s h.view h.blockHash := by
  rcases (hled q).halt d h hm with ⟨hl, hh⟩ | ⟨-, fv, hh, hv, hf, hb⟩
  · obtain ⟨-, hs⟩ := hr.sent_of_handled hh
    obtain ⟨A, -, hcard, hA⟩ := hr.finish_certificate ha hs
    obtain ⟨a, hmem⟩ := Finset.card_pos.mp (lt_of_lt_of_le S.quorum_pos hcard)
    obtain ⟨hlock, hhash⟩ := hA a hmem
    exact ⟨a, h.leader, hl, hlock, hhash⟩
  · obtain ⟨-, hs⟩ := hr.sent_of_handled hh
    obtain ⟨-, hlock⟩ | ⟨hno, -⟩ := hr.finVote_lock hled hs
    · rwa [hv, hb] at hlock
    · rw [hf] at hno
      cases hno

/-! ## The epoch of a block -/

omit hled in
/-- If the proposals of a round carry blocks of their epoch, so do the slots of the round. -/
theorem Run.slot_epoch {n : ℤ}
    (hn : ∀ q d (p : SPBProposal), .spbProposal p ∈ (s.nodes q).sentTo d →
      p.phase = .one → p.round = n → p.b.epoch = p.epoch)
    {a : NodeID} {t : Slot} {h : Digest} (ht : t.round = n)
    (hb : ((s.nodes a).core.spbInstances t).blockHash = some h) :
    ∃ b ∈ (s.nodes t.node).created, b.epoch = t.epoch ∧ S.hash b = h := by
  obtain ⟨b, hhash, -, hcreated, ⟨-, he⟩ | ⟨-, -, p, hp, rfl, rfl, hm⟩⟩ := hr.block_of_slot ha hb
  · exact ⟨b, hcreated, he, hhash⟩
  · exact ⟨p.b, hcreated, hn _ _ p hm hp ht, hhash⟩

/-- Every phase-one proposal carries a block of its epoch. -/
theorem Run.proposal_epoch (hc : Collisionless S s.nodes) (n : ℕ) : ∀ q d (p : SPBProposal),
    .spbProposal p ∈ (s.nodes q).sentTo d → p.phase = .one → p.round = n → p.b.epoch = p.epoch := by
  -- By induction on the round. A block read from the store has the hash of a block in a slot of the
  -- round before, and so is that block.
  induction n with
  | zero => exact fun q d p hm hp hround => hr.first_of_round_zero ha hm hp hround
  | succ n ih =>
    intro q d p hm hp hround
    have hslot : ∀ {a : NodeID} {t : Slot}, t.round + 1 = p.round → t.epoch = p.epoch →
        (s.nodes q).TookBlock p.b →
        ((s.nodes a).core.spbInstances t).blockHash = some (S.hash p.b) → p.b.epoch = p.epoch := by
      intro a t hround' hepoch htook hb
      obtain ⟨b, hb, he, hhash⟩ := hr.slot_epoch ha ih (by omega) hb
      have hcreated := hr.created_of_took ha htook
      rw [← hc.eq_of_hash _ (hr.mem_of_created hb) _ (hr.mem_of_created hcreated)
        b hb _ hcreated hhash,
        he, hepoch]
    have hzero : (s.nodes q).TookBlock p.b → S.hash p.b ≠ 0 := fun htook =>
      hc.hash_ne_zero _ (hr.mem_of_created (hr.created_of_took ha htook)) _
        (hr.created_of_took ha htook)
    cases (hr.blockFacts ha q).caused d p hm hp with
    | first hr' hb he => exact he
    | mixed fv hh he hr' hb hd hq =>
      obtain ⟨-, hs⟩ := hr.sent_of_handled hh
      obtain ⟨-, a, L, -, -, hhash⟩ | ⟨-, hno⟩ := hr.finVote_lock hled hs
      · rw [← hd] at hhash
        exact hslot (t := fv.view.slot L) hr' he hb hhash
      · exact absurd (hd.trans hno) (hzero hb)
    | no v he hr' hb hd hq =>
      rcases hd with hd | hd
      · exact hslot (t := v.slot _) hr' he hb hd
      · exact absurd hd (hzero hb)

/-- The block of a slot is the one that the slot's node has generated for the epoch. -/
theorem Run.block_of_epoch (hc : Collisionless S s.nodes) {a : NodeID} {t : Slot} {h : Digest}
    (hb : ((s.nodes a).core.spbInstances t).blockHash = some h) :
    ∃ b ∈ (s.nodes t.node).created, b.epoch = t.epoch ∧ S.hash b = h := by
  have hround : 0 ≤ t.round := by
    obtain ⟨b, -, -, -, ⟨hz, -⟩ | ⟨-, hnode, p, -, rfl, -, hm⟩⟩ := hr.block_of_slot ha hb
    · exact hz.ge
    · exact (hr.proper_sent ha hnode _ _ hm).1
  exact hr.slot_epoch ha (hr.proposal_epoch ha hled hc t.round.toNat) (by omega) hb

end Locks

/-! ## What the digests of a run stand for -/

/-- The digest is zero, or the hash of a block that a node took. -/
def Names (S : Setup) (nodes : NodeID → Hist) (d : Digest) : Prop :=
  d = 0 ∨ ∃ a ∈ S.committee.authorities, ∃ b, (nodes a).TookBlock b ∧ S.hash b = d

section Names

variable (hr : Run S ok s)

include hr

theorem Run.names_slot {q : NodeID} {t : Slot} {d : Digest}
    (hb : ((s.nodes q).core.spbInstances t).blockHash = some d) : Names S s.nodes d := by
  have hq : q ∈ S.committee.authorities := by
    by_contra hq
    have hinit : s.nodes q = Hist.init q := hr.nodes_of_notMem hq
    rw [hinit] at hb
    cases hb
  obtain ⟨p, hsource, hp, -, -, hhash⟩ := (hr.sources q).block t d hb
  exact .inr ⟨q, hq, p.b, hsource.tookBlock hp, hhash⟩

theorem Run.names_finVote {q d : NodeID} {fv : FinVote} (hm : .finVote fv ∈ (s.nodes q).sentTo d) :
    Names S s.nodes fv.blockHash := by
  obtain ⟨-, a, L, -, -, hhash⟩ | ⟨-, hzero⟩ := hr.finVote_lock hr.ledBy_any hm
  · exact hr.names_slot hhash
  · exact .inl hzero

theorem Run.names_halt {q d : NodeID} {h : Halt} (hm : .halt h ∈ (s.nodes q).sentTo d) :
    Names S s.nodes h.blockHash := by
  cases (hr.facts q).causes.halt d h hm with
  | finish _ _ hh =>
    obtain ⟨-, hs⟩ := hr.sent_of_handled hh
    obtain ⟨node, -, hhash⟩ := (hr.facts _).sent.finish q _ hs
    exact hr.names_slot hhash
  | votes fv hh _ _ _ hb _ =>
    obtain ⟨-, hs⟩ := hr.sent_of_handled hh
    exact hb ▸ hr.names_finVote hs

/-- A node looks up what the digests of a run stand for, unless the mempool has sent it a digest. -/
theorem Run.names_lookups {q : NodeID} {i : Input} (hm : ∀ m ∈ i.msg?, m ∈ s.inbox q)
    (hi : i.loopBack? = none) : ∀ d ∈ (s.nodes q).lookups i, Names S s.nodes d := by
  intro d hd
  unfold Hist.lookups at hd
  split at hd
  case h_1 h =>
    obtain ⟨a, -, hs⟩ := hr.exists_sender' (.inr (hm _ rfl))
    rw [List.mem_singleton.mp hd]
    exact hr.names_halt hs
  case h_2 fv =>
    rcases List.mem_pair.mp hd with rfl | rfl
    · obtain ⟨a, -, hs⟩ := hr.exists_sender' (.inr (hm _ rfl))
      exact hr.names_finVote hs
    · cases hb : ((s.nodes q).core.spbInstances (fv.view.slot (s.nodes q).core.name)).blockHash with
      | none => exact .inl rfl
      | some h => exact hr.names_slot hb
  case h_3 => cases hi
  case h_4 => cases hd

end Names

/-- In a run in which no halt fails, the messages of the view change name the coin's leader. -/
theorem Run.ledBy_coin {coin : View → NodeID} (hcoin : FixedCoin S coin)
    (hr : Run S (HaltsSucceed S) s) (q : NodeID) : LedBy S (fun v L => L = coin v) (s.nodes q) := by
  refine ((hr.localRun q).invariant (I := fun z =>
    Facts S q z ∧ CoinOrPast coin z ∧ LedBy S (fun v L => L = coin v) z) ?_ ?_).2.2
  · refine ⟨Facts.init S q, fun v _ hne => absurd rfl hne, ?_, ?_⟩ <;>
      simp [Hist.init, Hist.sentTo]
  · rintro env i x0 z z' ⟨hok, hreg⟩ h ⟨hf, hpast, hz⟩
    refine ⟨hf.rule h, hpast.rule hcoin h hok hreg.noOverflow, hz.rule h hf.counted hcoin ?_⟩
    exact fun dn _ _ he _ _ hne => hpast dn.view he hne

/-- Agreement within a round. In a run in which no call of `handleHalt` has returned an error, two
halts for the same epoch and round carry the same hash, the hash of the block that the coin's leader
of the round has generated for the epoch. -/
theorem halts_of_round_agree (ha : S.absent = .other) {coin : View → NodeID}
    (hcoin : FixedCoin S coin) (hr : Run S (HaltsSucceed S) s) (hc : Collisionless S s.nodes)
    {q q' : NodeID} {h h' : Halt} (hb : (s.nodes q).Broadcast (.halt h))
    (hb' : (s.nodes q').Broadcast (.halt h')) (he : h.epoch = h'.epoch)
    (hround : h.round = h'.round) :
    h.blockHash = h'.blockHash ∧
      ∃ b ∈ (s.nodes (coin ⟨h.epoch, h.round⟩)).created, b.epoch = h.epoch ∧
        S.hash b = h.blockHash := by
  have hled := hr.ledBy_coin hcoin
  have hm := ((hr.facts q).even.mem_iff rfl q).mpr hb
  have hm' := ((hr.facts q').even.mem_iff rfl q').mpr hb'
  obtain ⟨a, L, rfl, -, hhash⟩ := hr.halt_lock ha hled hm
  obtain ⟨a', L', rfl, -, hhash'⟩ := hr.halt_lock ha hled hm'
  have hview : h'.view = h.view := by simp [Halt.view, he, hround]
  rw [hview] at hhash'
  exact ⟨hr.slot_hash_eq ha hhash hhash', hr.block_of_epoch ha hled hc hhash⟩

/-- The coin of the demonstration is the same in every view. -/
theorem demo_fixedCoin (n : ℕ) (leader : UInt8) :
    FixedCoin (demo n leader) fun _ => (leader.toNat % n : ℕ) := by
  intro _ v bytes L hc hl
  obtain rfl := Option.some.inj hc
  simpa [coinLeader, randomLen, demo, Committee.size] using hl.symm

/-- Three nodes of four finish their instances, two of them learn the coin, and one of these takes
the halt of the other. -/
def finishedRound : List Act :=
  [.start 0, .start 1, .start 2] ++ spbRun 0 [0, 1, 2] ++ spbRun 1 [0, 1, 2] ++
  spbRun 2 [0, 1, 2] ++
    finishes 0 [0, 1, 2] ++ finishes 1 [0, 1, 2] ++ dones 2 [0, 1] ++
    dones 0 [0, 1, 2] ++ shares 0 [0, 1, 2] ++ dones 1 [0, 1, 2] ++ shares 1 [0, 1, 2] ++
    [.deliver 1 (.halt ⟨0, 0, 0, 1, demoHash 1⟩)]

/-- The two halts of that round. -/
theorem halts_of_round_agree_finished : ∃ s : Net,
    Run (demo 4 1) (HaltsSucceed (demo 4 1)) s ∧ Collisionless (demo 4 1) s.nodes ∧
    ∃ h h' : Halt, h.author ≠ h'.author ∧ (s.nodes 0).Broadcast (.halt h) ∧
      (s.nodes 1).Broadcast (.halt h') ∧ h.blockHash = h'.blockHash ∧
      ∃ b ∈ (s.nodes 1).created, b.epoch = 0 ∧ (demo 4 1).hash b = h.blockHash := by
  let h : NodeID → Halt := fun q => ⟨q, 0, 0, 1, demoHash 1⟩
  obtain ⟨s, hr, hs⟩ := exists_run (demo 4 1) (HaltsSucceed (demo 4 1)) [0, 1, 2, 3] finishedRound
    (fun nodes => decide (Collisionless (demo 4 1) nodes ∧
      (nodes 0).Broadcast (.halt (h 0)) ∧ (nodes 1).Broadcast (.halt (h 1))))
    (by decide) (by decide +kernel)
  obtain ⟨hc, hb, hb'⟩ := of_decide_eq_true hs
  exact ⟨s, hr, hc, h 0, h 1, by decide, hb, hb',
    halts_of_round_agree rfl (demo_fixedCoin 4 1) hr hc hb hb' rfl rfl⟩

end SMVBA
