import SMVBA.Byzantine.System
import SMVBA.Library.Quorum

/-!
# Behind a coin there are finishes

A node issues `Done` and its share of the coin for a view after a quorum of `Finish` messages, or
after `f + 1` `Done` messages, of which one is honest and was issued before. So the first `Done` of
an honest node follows a quorum of `Finish` messages, and a coin, for which an honest node must have
given its share, does so too.

The code does not check a share when it comes, so a share may come under any name. What is asked of
the threshold signatures is that a coin is combined only from valid shares of a quorum of nodes, and
that a valid share of an honest node is one that the node has issued.
-/

namespace SMVBA

variable {S : Setup} {honest : Finset NodeID} {valid : NodeID → View → SignatureShare → Prop}
  {nodes : NodeID → Hist} {x0 x y : Hist} {env : Env} {i : Input} {outs : List Output} {ok : Cond}

/-- A coin is combined only from valid shares of a quorum of nodes. -/
def CoinNeedsQuorum (S : Setup) (valid : NodeID → View → SignatureShare → Prop) : Prop :=
  ∀ shares v coin, S.combineIntactTSPartial shares (S.electHash v) = some coin →
    ∃ A ⊆ S.committee.authorities, S.committee.hightThreshold ≤ A.card ∧
      ∀ a ∈ A, ∃ share ∈ shares, valid a v share

/-- What may be taken from the network: a `Done` of a member of the committee, which an honest
author has issued, and a share that, if it is a valid one of an honest node, this node has issued
for the view. Every other message may be taken. -/
def GenuineDones (S : Setup) (honest : Finset NodeID)
    (valid : NodeID → View → SignatureShare → Prop)
    (issued : Issues) : Message → Prop
  | .done d => d.author ∈ S.committee.authorities ∧ (d.author ∈ honest → issued d.author (.done d))
  | .electShare s => ∀ a ∈ honest, valid a s.view s.sigShare →
      ∃ s', issued a (.electShare s') ∧ s'.view = s.view
  | _ => True

theorem GenuineDones.mono {I I' : Issues} {m : Message} (h : ∀ a m, I a m → I' a m)
    (hm : GenuineDones S honest valid I m) : GenuineDones S honest valid I' m := by
  cases m with
  | done d => exact ⟨hm.1, fun hd => h _ _ (hm.2 hd)⟩
  | electShare s =>
    intro a ha hv
    obtain ⟨s', hs', hview⟩ := hm a ha hv
    exact ⟨s', h _ _ hs', hview⟩
  | _ => trivial

/-- Some honest node has counted `Finish` messages of a quorum of authors for the view. -/
def Finished (S : Setup) (honest : Finset NodeID) (nodes : NodeID → Hist) (v : View) : Prop :=
  ∃ b ∈ honest, S.committee.hightThreshold ≤
    ((nodes b).core.aggreator.finishAggreator v).authors.card

theorem Finished.step {q : NodeID} (h : (nodes q).step S env i = some (y, outs)) {v : View}
    (hf : Finished S honest nodes v) : Finished S honest (Function.update nodes q y) v := by
  obtain ⟨b, hb, hcard⟩ := hf
  refine ⟨b, hb, ?_⟩
  by_cases hbq : b = q
  · subst hbq
    rw [Function.update_self]
    exact step_invariant (I := fun z => S.committee.hightThreshold ≤
      (z.core.aggreator.finishAggreator v).authors.card)
      (fun hrule hz => hz.trans (hrule.finish_card_le v)) h hcard
  · rwa [Function.update_of_ne hbq]

/-! ## Single nodes -/

/-- A share is issued with a `Done`. -/
theorem done_of_share (hr : LocalRun S ok x.core.name x) {d : NodeID} {s : ElectShare}
    (hs : .electShare s ∈ x.sentTo d) : ∃ dn, .done dn ∈ x.sentTo d ∧ dn.view = s.view := by
  refine hr.invariant (I := fun z => ∀ s, .electShare s ∈ z.sentTo d →
    ∃ dn, .done dn ∈ z.sentTo d ∧ dn.view = s.view) (by simp [Hist.sentTo, Hist.init]) ?_ s hs
  intro env i x0 z z' _ hrule hz s hs
  obtain ⟨new, hnew, heq⟩ := hrule.sends d
  rw [heq] at hs ⊢
  rcases List.mem_append.mp hs with hs | hs
  · obtain ⟨dn, hdn, hview⟩ := hz s hs
    exact ⟨dn, List.mem_append_left _ hdn, hview⟩
  · cases hnew with
    | doneShare v hd hy hc =>
      obtain rfl : s = _ := by simpa using hs
      exact ⟨⟨z.core.name, v.epoch, v.round⟩, List.mem_append_right _ (by simp), rfl⟩
    | leader v outs he ho hc => cases ho <;> simp at hs
    | _ => simp at hs

/-- The shares that a node has for a view came in messages for the view. -/
def SharesCounted (x : Hist) : Prop :=
  ∀ v, ∀ share ∈ (x.core.elector.electAggreators v).shares,
    ∃ s, .electShare s ∈ x.handled ∧ s.view = v ∧ s.sigShare = share

theorem SharesCounted.rule (h : Rule S env i x0 x y) (hx : SharesCounted x) : SharesCounted y := by
  intro v share hshare
  have hold : ∀ {share}, share ∈ (x.core.elector.electAggreators v).shares →
      ∃ s, .electShare s ∈ y.handled ∧ s.view = v ∧ s.sigShare = share := by
    intro share hshare
    obtain ⟨s, hs, hrest⟩ := hx v share hshare
    exact ⟨s, h.mem_handled hs, hrest⟩
  rcases h.share_cases v with heq | ⟨s, hs, hv, heq⟩
  · exact hold (heq ▸ hshare)
  · rw [heq, List.mem_append] at hshare
    rcases hshare with hshare | hshare
    · exact hold hshare
    · exact ⟨s, hs, hv, (List.mem_singleton.mp hshare).symm⟩

theorem LocalRun.sharesCounted {name : NodeID} (hr : LocalRun S ok name x) : SharesCounted x :=
  hr.invariant (fun v share hs => by simp [Hist.init] at hs) fun _ h hz => hz.rule h

/-! ## The leaders that come from a coin -/

/-- `AddShareVote` has set a leader for the view: there is a quorum of shares, and the first quorum
of them makes a coin that names a leader. -/
def Elector.HasCoin (S : Setup) (e : Elector) (v : View) : Prop :=
  S.quorum ≤ (e.electAggreators v).shares.length ∧
    ∃ coin leader, S.combineIntactTSPartial ((e.electAggreators v).shares.take S.quorum)
      (S.electHash v) = some coin ∧ coinLeader S coin = some leader

/-- At the start no leader is set. -/
theorem not_hasCoin_init (S : Setup) (v : View) : ¬ ({} : Elector).HasCoin S v := fun h =>
  absurd h.1 (Nat.not_le.mpr S.quorum_pos)

/-- One more share makes a coin only if it completes the quorum. -/
theorem hasCoin_concat (S : Setup) (d : Digest) (shares : List SignatureShare)
    (share : SignatureShare) :
    (S.quorum ≤ (shares ++ [share]).length ∧ ∃ coin leader,
        S.combineIntactTSPartial ((shares ++ [share]).take S.quorum) d = some coin ∧
          coinLeader S coin = some leader) ↔
      (S.quorum ≤ shares.length ∧ ∃ coin leader,
        S.combineIntactTSPartial (shares.take S.quorum) d = some coin ∧
          coinLeader S coin = some leader) ∨
      ((shares ++ [share]).length = S.quorum ∧ ∃ coin leader,
        S.combineIntactTSPartial (shares ++ [share]) d = some coin ∧
          coinLeader S coin = some leader) := by
  have hlength : (shares ++ [share]).length = shares.length + 1 := by simp
  by_cases hold : S.quorum ≤ shares.length
  · -- The first quorum of shares is as it was.
    have hne : (shares ++ [share]).length ≠ S.quorum := by omega
    have hle : S.quorum ≤ (shares ++ [share]).length := by omega
    rw [List.take_append_of_le_length hold]
    simp only [hold, hle, hne, true_and, false_and, or_false]
  · by_cases hnow : (shares ++ [share]).length = S.quorum
    · rw [List.take_of_length_le hnow.le]
      simp only [hold, hnow, le_refl, true_and, false_and, false_or]
    · have hnot : ¬ S.quorum ≤ (shares ++ [share]).length := by omega
      simp only [hold, hnow, hnot, false_and, or_false]

/-- A call of `AddShareVote` leaves the leaders of before and adds the one that it returns. -/
theorem hasCoin_addShareVote (S : Setup) (e : Elector) (s : ElectShare) (v : View) :
    (e.addShareVote S s).1.HasCoin S v ↔
      e.HasCoin S v ∨ (v = s.view ∧ ∃ leader, leader ≠ NONE ∧
        (e.addShareVote S s).2 = .ok leader) := by
  rcases addShareVote_cases S e s with
    ⟨-, heq⟩ | ⟨-, ⟨r, hr, hno, heq⟩ | ⟨coin, leader, hq, hc, hl, heq⟩⟩
  · rw [heq]
    simp
  · rw [heq]
    have hanswer : ¬ ∃ leader, leader ≠ NONE ∧ r = .ok leader := by
      rintro ⟨leader, hne, rfl⟩
      rcases hr with hr | hr
      · exact hne (Except.ok.inj hr)
      · cases hr
    dsimp only [Elector.HasCoin]
    by_cases hv : v = s.view
    · -- The share is kept, and its quorum makes no coin, if it is one.
      subst hv
      rw [Function.update_self, hasCoin_concat]
      simp only [hanswer, and_false, or_false]
      refine or_iff_left ?_
      rintro ⟨hq, coin, leader, hc, hl⟩
      exact hno coin leader hq hc hl
    · rw [Function.update_of_ne hv]
      simp [hv]
  · rw [heq]
    dsimp only [Elector.HasCoin]
    by_cases hv : v = s.view
    · subst hv
      rw [Function.update_self, hasCoin_concat]
      exact iff_of_true (.inr ⟨hq, coin, leader, hc, hl⟩)
        (.inr ⟨rfl, leader, coinLeader_ne_none hl, rfl⟩)
    · rw [Function.update_of_ne hv]
      simp [hv]

/-! ## Runs -/

section Runs

variable (hbyz : (S.committee.authorities \ honest).card ≤ (S.committee.size - 1) / 3)
  (hr : ByzRun S honest (GenuineDones S honest valid) ok nodes)

include hbyz hr

/-- Behind every `Done` of an honest node there are finishes. -/
theorem ByzRun.finished_of_done {q : NodeID} (hq : q ∈ honest) {dn : Done}
    (hdn : (nodes q).Issued (.done dn)) : Finished S honest nodes dn.view := by
  -- By induction on the run. What a `Done` follows was issued before the step that sends it.
  induction hr generalizing q dn with
  | start => cases hdn
  | @step nodes q' env i y outs hr hq' hmay hok h ih =>
    by_cases hqq : q = q'
    · subst hqq
      rw [Function.update_self] at hdn
      have hrun : LocalRun S ok q y := .step (hr.localRun q) hok h
      obtain ⟨d, hd⟩ := hdn.exists_sentTo
      rcases hrun.facts.causes.done d dn hd with hfin | hlow
      · exact ⟨q, hq, by rwa [Function.update_self]⟩
      · -- All that the node took, the message of this step included, it might take before the step.
        have htaken : ∀ m ∈ y.handled,
            GenuineDones S honest valid (fun a => (nodes a).Issued) m := by
          intro m hm
          rw [Hist.step_handled h, List.mem_append, Option.mem_toList] at hm
          exact hm.elim (hr.handled_may GenuineDones.mono) (hmay m)
        have hauthors : (y.core.aggreator.doneAggreator dn.view).authors ⊆
            S.committee.authorities := by
          intro a ha
          obtain ⟨dn', hm, rfl, -⟩ := hrun.facts.counted.done _ a ha
          exact (htaken _ hm).1
        have hcard : (S.committee.authorities \ honest).card <
            (y.core.aggreator.doneAggreator dn.view).authors.card :=
          lt_of_le_of_lt hbyz (Nat.lt_of_succ_le hlow)
        obtain ⟨a, ha, hhonest⟩ := Quorum.exists_mem_of_card_lt hauthors hcard
        obtain ⟨dn', hm, rfl, hview⟩ := hrun.facts.counted.done _ a ha
        rw [← hview]
        exact (ih hhonest ((htaken _ hm).2 hhonest)).step h
    · rw [Function.update_of_ne hqq] at hdn
      exact (ih hq hdn).step h

/-- Behind every share of an honest node there are finishes. -/
theorem ByzRun.finished_of_share {q : NodeID} (hq : q ∈ honest) {s : ElectShare}
    (hs : (nodes q).Issued (.electShare s)) : Finished S honest nodes s.view := by
  obtain ⟨d, hd⟩ := hs.exists_sentTo
  have hrun : LocalRun S ok (nodes q).core.name (nodes q) := by
    rw [(hr.facts q).name_eq]
    exact hr.localRun q
  obtain ⟨dn, hdn, hview⟩ := done_of_share hrun hd
  rw [← hview]
  exact hr.finished_of_done hbyz hq (Hist.issued_of_sentTo hdn)

/-- With at most `f` Byzantine nodes, an honest node broadcasts `Done` for a view, and
`AddShareVote` sets a leader for it, only after some honest node has counted `Finish` messages of a
quorum of authors for the view. -/
theorem done_and_coin_of_finishes (hcoin : CoinNeedsQuorum S valid) {q : NodeID} (hq : q ∈ honest)
    (v : View) (h : (∃ dn, (nodes q).Broadcast (.done dn) ∧ dn.view = v) ∨
      (nodes q).core.elector.HasCoin S v) : Finished S honest nodes v := by
  rcases h with ⟨dn, hdn, rfl⟩ | ⟨-, coin, leader, hc, -⟩
  · exact hr.finished_of_done hbyz hq (Hist.issued_of_broadcast hdn)
  · obtain ⟨A, hA, hcard, hvalid⟩ := hcoin _ _ _ hc
    -- A quorum is more than there are Byzantine nodes, so that an honest node has given a share.
    have hlt : (S.committee.authorities \ honest).card < A.card := by
      unfold Committee.hightThreshold at hcard
      omega
    obtain ⟨a, ha, hhonest⟩ := Quorum.exists_mem_of_card_lt hA hlt
    obtain ⟨share, hshare, hv⟩ := hvalid a ha
    obtain ⟨s, hs, rfl, rfl⟩ := (hr.localRun q).sharesCounted v share (List.mem_of_mem_take hshare)
    obtain ⟨s', hs', hview⟩ := hr.handled_may GenuineDones.mono hs a hhonest hv
    rw [← hview]
    exact hr.finished_of_share hbyz hhonest hs'

end Runs

/-! ## A run with a Byzantine node -/

/-- Four nodes, with shares that name their node, of which three make a coin. -/
def coinSetup : Setup where
  __ := demo 4 1
  requestTsSugnature q _ := [UInt8.ofNat q.toNat]
  combineIntactTSPartial shares _ :=
    if 3 ≤ ((demo 4 1).committee.authorities.filter fun q =>
      [UInt8.ofNat q.toNat] ∈ shares).card then
      some [0, 0, 1]
    else none

/-- The shares that are valid there. -/
def coinValid (q : NodeID) (_ : View) (share : SignatureShare) : Prop :=
  share = [UInt8.ofNat q.toNat]

instance (q : NodeID) (v : View) (share : SignatureShare) : Decidable (coinValid q v share) :=
  inferInstanceAs (Decidable (_ = _))

theorem coinSetup_needsQuorum : CoinNeedsQuorum coinSetup coinValid := by
  intro shares v coin h
  dsimp only [coinSetup] at h
  split_ifs at h with hcard
  refine ⟨_, Finset.filter_subset _ _, hcard, fun a ha => ?_⟩
  exact ⟨_, (Finset.mem_filter.mp ha).2, rfl⟩

/-- The messages of the run may be taken: the honest ones were issued as they are. -/
def coinCheck (nodes : NodeID → Hist) : Message → Bool
  | .done d => decide (d.author ∈ coinSetup.committee.authorities ∧
      (d.author ∈ ({0, 1, 2} : Finset NodeID) → (nodes d.author).Issued (.done d)))
  | .electShare s => [0, 1, 2].all fun a =>
      decide (¬ coinValid a s.view s.sigShare ∨ (nodes a).Issued (.electShare s))
  | _ => true

/-- Node 0 counts a quorum of `Finish` messages, the two others follow its `Done` and that of the
Byzantine node 3, and node 0 combines a coin from the shares of all three. -/
def coinSchedule : List Act :=
  [0, 1, 2].map .start ++
  [0, 1, 3].map (fun a => .deliver 0 (.finish ⟨a, demoHash a, 0, 0⟩)) ++
  ([1, 2].flatMap fun q => [0, 3].map fun a => .deliver q (.done ⟨a, 0, 0⟩)) ++
  [0, 1, 2].map fun a => .deliver 0 (.electShare ⟨a, 0, 0, [UInt8.ofNat a.toNat]⟩)

/-- In this run, node 1 has sent `Done` and node 0 has a leader. -/
theorem done_and_coin_of_three : ∃ nodes : NodeID → Hist,
    ByzRun coinSetup {0, 1, 2} (GenuineDones coinSetup {0, 1, 2} coinValid) Always nodes ∧
    (nodes 1).Broadcast (.done ⟨1, 0, 0⟩) ∧ (nodes 0).core.elector.HasCoin coinSetup ⟨0, 0⟩ ∧
    Finished coinSetup {0, 1, 2} nodes ⟨0, 0⟩ := by
  obtain ⟨nodes, hr, hcheck⟩ := exists_byzRun coinSetup {0, 1, 2}
    (GenuineDones coinSetup {0, 1, 2} coinValid) coinCheck Always
    (fun {nodes m} h => by
      cases m with
      | done d =>
        have hd := of_decide_eq_true (p := _ ∧ _) h
        exact hd
      | electShare s =>
        intro a ha hv
        dsimp only [coinCheck] at h
        rcases of_decide_eq_true (List.all_eq_true.mp h a (by simpa using ha)) with hnot | hissued
        · exact absurd hv hnot
        · exact ⟨s, hissued, rfl⟩
      | _ => trivial)
    coinSchedule
    (fun nodes => decide ((nodes 1).Broadcast (.done ⟨1, 0, 0⟩) ∧
      ((nodes 0).core.elector.electAggreators ⟨0, 0⟩).shares = [[0], [1], [2]]))
    (by decide +kernel)
  obtain ⟨hdone, hshares⟩ := of_decide_eq_true hcheck
  have hcoin : (nodes 0).core.elector.HasCoin coinSetup ⟨0, 0⟩ := by
    unfold Elector.HasCoin
    rw [hshares]
    exact ⟨by decide, [0, 0, 1], 1, by decide, by decide⟩
  exact ⟨nodes, hr, hdone, hcoin, done_and_coin_of_finishes (by decide) hr coinSetup_needsQuorum
    (q := 0) (by decide) _ (.inr hcoin)⟩

end SMVBA
