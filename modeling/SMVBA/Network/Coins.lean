import SMVBA.Byzantine.Coin
import SMVBA.Network.Agreement
import SMVBA.Network.Progress
import SMVBA.Node.Duplicates
import SMVBA.Node.Halting

/-!
# Coins that end an epoch

A view ends its epoch if its coin names a leader that has finished before the coin is known: then a
quorum of nodes has locked the leader's block before anybody prevotes, no quorum prevotes for no, so
that all final votes are for yes, and nobody goes on to the next round. And the nodes that have
finished by then are a quorum, `2f + 1` of `3f + 1` nodes, whatever the network does, because a node
lets out its share of the coin only after it has heard of them.

That the coin is a matter of luck is no statement about one run. What can be said is that a run up
to the moment before the coin is known is a run under any other coin of the view as well
(`Run.withCoin`). So at that moment, two thirds of the coins that may come end the epoch
(`quorum_of_coins`). With the coin of such a node, the nodes are past the epoch in the time of one
view (`finished_leader_ends_epoch`).
-/

namespace SMVBA

open MessagePassing

variable {S : Setup} {ok : Cond} {env : Env} {i : Input} {x0 x y : Hist} {s s' s₀ : Net} {v : View}
  {a d q : NodeID}

/-! ## Before the coin -/

/-- No node has a quorum of shares for the view. -/
def NoCoin (S : Setup) (v : View) (s : Net) : Prop :=
  ∀ q ∈ S.committee.authorities,
    ((s.nodes q).core.elector.electAggreators v).shares.length < S.quorum

/-- The node has a quorum of shares for the view, or took a halt of it. -/
def Revealed (S : Setup) (v : View) (x : Hist) : Prop :=
  S.quorum ≤ (x.core.elector.electAggreators v).shares.length ∨
    ∃ h, .halt h ∈ x.handled ∧ h.view = v

/-- Shares are kept. -/
theorem Rule.shares_length_le (h : Rule S env i x0 x y) (v : View) :
    (x.core.elector.electAggreators v).shares.length ≤
      (y.core.elector.electAggreators v).shares.length := by
  rcases h.share_cases v with heq | ⟨s, -, -, heq⟩
  · rw [heq]
  · rw [heq, List.length_append]
    omega

theorem Revealed.rule (h : Rule S env i x0 x y) (hx : Revealed S v x) : Revealed S v y := by
  rcases hx with hq | ⟨ht, hm, hv⟩
  · exact .inl (hq.trans (h.shares_length_le v))
  · exact .inr ⟨ht, h.mem_handled hm, hv⟩

/-- A node has a leader for a view, and acts on it, after the coin of the view or a halt. -/
structure LedLate (S : Setup) (v : View) (x : Hist) : Prop where
  leader : x.core.elector.leader v ≠ NONE → Revealed S v x
  prevote : ∀ d pv, .prevote pv ∈ x.sentTo d → pv.view = v → Revealed S v x
  halt : ∀ d h, .halt h ∈ x.sentTo d → h.view = v →
    Revealed S v x ∨ ∃ fv, .finVote fv ∈ x.handled ∧ fv.view = v

/-- The entry of a view is set by the share that completes the quorum, or by a halt. -/
theorem Rule.revealed (h : Rule S env i x0 x y)
    (hx : x.core.elector.leader v ≠ NONE → Revealed S v x) (hne : y.core.elector.leader v ≠ NONE) :
    Revealed S v y := by
  have hsame : y.core.elector.leader v = x.core.elector.leader v → Revealed S v y :=
    fun heq => (hx (heq ▸ hne)).rule h
  cases h with
  | elect s' bytes leader outs _ _ _ _ _ hq _ _ _ =>
    by_cases hv : s'.view = v
    · subst hv
      refine .inl ?_
      dsimp only
      rw [Function.update_self, hq]
    · exact hsame (Function.update_of_ne (Ne.symm hv) _ _)
  | haltStay ht _ _ _ hh _ _ _ _ _ | haltNext ht _ _ _ _ hh _ _ _ _ _
  | haltFail ht _ hh _ _ _ _ _ =>
    by_cases hv : ht.view = v
    · exact .inr ⟨ht, hh, hv⟩
    · exact hsame (Function.update_of_ne (Ne.symm hv) _ _)
  | _ => exact hsame rfl

theorem LedLate.rule (h : Rule S env i x0 x y) (hx : LedLate S v x) : LedLate S v y := by
  have hleader := h.revealed hx.leader
  refine ⟨hleader, fun d pv hm hv => ?_, fun d ht hm hv => ?_⟩
  · rcases h.sent_cases hm with hm | ⟨new, hnew, hm⟩
    · exact (hx.prevote d pv hm hv).rule h
    · obtain ⟨-, -, -, hl, hne, -⟩ := hnew.prevote hm
      subst hv
      exact hleader (hl ▸ hne)
  · rcases h.sent_cases hm with hm | ⟨new, hnew, hm⟩
    · refine (hx.halt d ht hm hv).imp (Revealed.rule h) ?_
      rintro ⟨fv, hh, hv⟩
      exact ⟨fv, h.mem_handled hh, hv⟩
    · subst hv
      rcases hnew.of_halt hm with ⟨-, -, -, hl, hne, -⟩ | ⟨fv, -, hh, -, -, -, -, -, -, hv, -⟩
      · exact .inl (hleader (hl ▸ hne))
      · exact .inr ⟨fv, h.mem_handled hh, hv.symm⟩

theorem LocalRun.ledLate {name : NodeID} (hr : LocalRun S ok name x) (v : View) :
    LedLate S v x := by
  refine hr.invariant (I := LedLate S v) ⟨fun hne => absurd rfl hne, ?_, ?_⟩
    fun _ hrule hz => hz.rule hrule
  · simp [Hist.init, Hist.sentTo]
  · simp [Hist.init, Hist.sentTo]

/-- The messages of a view that are sent only after its coin is known. -/
def Message.AfterCoin (v : View) : Message → Prop
  | .prevote pv => pv.view = v
  | .finVote fv => fv.view = v
  | .halt h => h.view = v
  | _ => False

theorem NoCoin.of_step (h : (consensus S ok).Step s s') (hs : NoCoin S v s') : NoCoin S v s := by
  intro q hq
  refine lt_of_le_of_lt ?_ (hs q hq)
  refine h.preserves (I := fun y => ((s.nodes q).core.elector.electAggreators v).shares.length ≤
    (y.core.elector.electAggreators v).shares.length) ?_ le_rfl
  rintro m y out ⟨env, i, outs, -, -, -, hstep, -⟩ hle
  exact step_invariant (I := fun z => ((s.nodes q).core.elector.electAggreators v).shares.length ≤
    (z.core.elector.electAggreators v).shares.length)
    (fun hrule hz => hz.trans (hrule.shares_length_le v)) hstep hle

/-- Before the coin is known, none of these messages was sent. -/
theorem Run.not_afterCoin (hr : Run S ok s) (hs : NoCoin S v s) {m : Message}
    (hm : m ∈ (s.nodes q).sentTo d) : ¬ m.AfterCoin v := by
  refine hr.forall_sent (G := fun s m => NoCoin S v s → ¬ m.AfterCoin v)
    (fun _ h hG hs => hG (hs.of_step h)) ?_ q (hr.mem_of_sent hm) d m hm hs
  intro s hr a ha hh d m hm hs hafter
  have hled := (Run.localRun hr a).ledLate v
  have hhidden : ¬ Revealed S v (s.nodes a) := by
    rintro (hq | ⟨ht, hmem, hv⟩)
    · exact absurd (hs a ha) (not_lt.mpr hq)
    · exact hh _ hmem hs hv
  cases m with
  | prevote pv => exact hhidden (hled.prevote d pv hm hafter)
  | finVote fv =>
    cases ((Run.facts hr a).causes.finVote d fv hm).2 with
    | yes pv _ hmem hv _ _ | no pv _ hmem hv _ _ _ => exact hh _ hmem hs (hv.trans hafter)
  | halt ht =>
    rcases hled.halt d ht hm hafter with hr | ⟨fv, hmem, hv⟩
    · exact hhidden hr
    · exact hh _ hmem hs hv
  | _ => exact hafter

/-! ## The nodes that have finished -/

/-- The node has broadcast a `Finish` of the view. -/
def Hist.Finished (x : Hist) (v : View) : Prop := ∃ f, x.Broadcast (.finish f) ∧ f.view = v

/-- A quorum of nodes has finished in the view. -/
def QuorumFinished (S : Setup) (v : View) (s : Net) : Prop :=
  ∃ G ⊆ S.committee.authorities, S.quorum ≤ G.card ∧ ∀ a ∈ G, (s.nodes a).Finished v

theorem Hist.Finished.step (h : x.step S env i = some (y, outs)) (hx : x.Finished v) :
    y.Finished v := by
  obtain ⟨f, hf, hv⟩ := hx
  exact ⟨f, step_invariant (I := fun z => z.Broadcast (.finish f))
    (fun hrule hz => hrule.mem_broadcasts hz) h hf, hv⟩

theorem QuorumFinished.step (h : (consensus S ok).Step s s') (hs : QuorumFinished S v s) :
    QuorumFinished S v s' := by
  obtain ⟨G, hG, hcard, hfin⟩ := hs
  refine ⟨G, hG, hcard, fun a ha => h.preserves (I := fun y => y.Finished v) ?_ (hfin a ha)⟩
  rintro m y out ⟨env, i, outs, -, -, -, hstep, -⟩ hx
  exact hx.step hstep

/-- Behind a `Done` is a quorum of nodes that have finished: the first `Done` of the view follows
the messages of a quorum, and every other one follows another `Done`. -/
theorem Run.quorumFinished_of_done (hr : Run S ok s) {dn : Done}
    (hm : .done dn ∈ (s.nodes q).sentTo d) : QuorumFinished S dn.view s := by
  refine hr.forall_sent
    (G := fun s (m : Message) => ∀ dn, m = .done dn → QuorumFinished S dn.view s)
    (fun _ h hG dn hdn => (hG dn hdn).step h) ?_ q (hr.mem_of_sent hm) d _ hm dn rfl
  rintro s hr a - hh d m hm dn rfl
  have hcounted := (Run.facts hr a).counted
  rcases (Run.facts hr a).causes.done d dn hm with hq | hlow
  · refine ⟨_, Run.authors_subset hr (q := a) fun b hb => ?_, hq, fun b hb => ?_⟩
    · obtain ⟨f, hf, hauthor, -⟩ := hcounted.finish _ b hb
      exact ⟨_, hf, hauthor⟩
    · obtain ⟨f, hf, rfl, hv⟩ := hcounted.finish _ b hb
      have hsent := (Run.sent_of_handled hr hf).2
      exact ⟨f, ((Run.facts hr _).even.mem_iff rfl a).mp hsent, hv⟩
  · have hpos : 0 < ((s.nodes a).core.aggreator.doneAggreator dn.view).authors.card :=
      lt_of_lt_of_le (Nat.succ_pos _) hlow
    obtain ⟨b, hb⟩ := Finset.card_pos.mp hpos
    obtain ⟨dn', hmem, -, hv⟩ := hcounted.done _ b hb
    rw [← hv]
    exact hh _ hmem dn' rfl

/-- A run in which a coin is known has a moment before, when the coin of the view is not known and a
quorum of nodes has finished. -/
theorem Run.exists_before_coin (hr : Run S ok s) (hs : ¬ NoCoin S v s) :
    ∃ s₀, Run S ok s₀ ∧ NoCoin S v s₀ ∧ QuorumFinished S v s₀ ∧
      Relation.ReflTransGen (consensus S ok).Step s₀ s := by
  have h0 : NoCoin S v (consensus S ok).start := fun q _ => S.quorum_pos
  obtain ⟨s₀, s₁, hr₀, h, hno, hcoin, hpath⟩ := hr.exists_crossing h0 hs
  refine ⟨s₀, hr₀, hno, ?_, .head h hpath⟩
  -- The node that knows the coin has taken a share, which was sent together with a `Done`.
  obtain ⟨q, -, hq⟩ : ∃ q, q ∈ S.committee.authorities ∧
      S.quorum ≤ ((s₁.nodes q).core.elector.electAggreators v).shares.length := by
    simpa [NoCoin] using hcoin
  obtain ⟨share, hshare⟩ := List.length_pos_iff_exists_mem.mp (lt_of_lt_of_le S.quorum_pos hq)
  obtain ⟨sh, hsh, rfl, -⟩ := (Run.localRun (hr₀.step h) q).sharesCounted v share hshare
  obtain ⟨a, -, hsent⟩ := hr₀.sender_before h hsh
  have hlocal := Run.localRun hr₀ a
  nth_rewrite 1 [← (Run.facts hr₀ a).name_eq] at hlocal
  obtain ⟨dn, hdn, hview⟩ := done_of_share hlocal hsent
  rw [← hview]
  exact Run.quorumFinished_of_done hr₀ hdn

/-! ## Other coins -/

/-- The setup with another coin for the view. -/
def Setup.withCoin (S : Setup) (v : View) (combine : List SignatureShare → Option (List UInt8)) :
    Setup :=
  { S with combineIntactTSPartial := fun shares d =>
      if d = S.electHash v then combine shares else S.combineIntactTSPartial shares d }

section WithCoin

variable {combine : List SignatureShare → Option (List UInt8)}

/-- A share that does not complete a quorum does not meet the coin. -/
theorem append_withCoin {e : ElectAggreator} {sh : ElectShare}
    (h : S.electHash sh.view = S.electHash v → sh.author ∉ e.authors →
      (e.shares ++ [sh.sigShare]).length ≠ S.quorum) :
    e.append (S.withCoin v combine) sh = e.append S sh := by
  unfold ElectAggreator.append
  by_cases hauthor : sh.author ∈ e.authors
  · rw [if_pos hauthor, if_pos hauthor]
  rw [if_neg hauthor, if_neg hauthor]
  dsimp only
  by_cases hq : (e.shares ++ [sh.sigShare]).length = S.quorum
  · have hview : S.electHash sh.view ≠ S.electHash v := fun heq => h heq hauthor hq
    have hcombine : (S.withCoin v combine).combineIntactTSPartial (e.shares ++ [sh.sigShare])
        ((S.withCoin v combine).electHash sh.view) =
        S.combineIntactTSPartial (e.shares ++ [sh.sigShare]) (S.electHash sh.view) := if_neg hview
    rw [hcombine]
    rfl
  · rw [if_neg hq]
    exact if_neg hq

theorem addShareVote_withCoin {e : Elector} {sh : ElectShare}
    (h : S.electHash sh.view = S.electHash v →
      ((e.addShareVote S sh).1.electAggreators sh.view).shares.length < S.quorum) :
    e.addShareVote (S.withCoin v combine) sh = e.addShareVote S sh := by
  have happend : (e.electAggreators sh.view).append (S.withCoin v combine) sh =
      (e.electAggreators sh.view).append S sh := by
    refine append_withCoin fun heq hauthor => ?_
    have hlt := h heq
    rw [electAggreators_addShareVote, if_neg hauthor] at hlt
    exact ne_of_lt hlt
  unfold Elector.addShareVote
  rw [happend]

/-- Without a quorum of shares for the view, a handler does the same under another coin. -/
theorem handle_withCoin {c : Core} {m : Message}
    (h : ∀ v', S.electHash v' = S.electHash v →
      ((c.handle S env m).core.elector.electAggreators v').shares.length < S.quorum) :
    c.handle (S.withCoin v combine) env m = c.handle S env m := by
  cases m with
  | electShare sh =>
    change c.handleElectShare (S.withCoin v combine) sh = c.handleElectShare S sh
    by_cases hfilter : c.messgaeFilter sh.epoch = true
    · unfold Core.handleElectShare
      rw [if_pos hfilter, if_pos hfilter]
    · have hvote : c.elector.addShareVote (S.withCoin v combine) sh =
          c.elector.addShareVote S sh := by
        refine addShareVote_withCoin fun heq => ?_
        rw [← handleElectShare_elector hfilter]
        exact h _ heq
      unfold Core.handleElectShare
      rw [hvote]
  | _ => rfl

/-- A node that has no quorum of shares for the view after a step takes the same step under another
coin. -/
theorem Hist.step_withCoin (h : x.step S env i = some (y, outs))
    (hy : ∀ v', S.electHash v' = S.electHash v →
      (y.core.elector.electAggreators v').shares.length < S.quorum) :
    x.step (S.withCoin v combine) env i = some (y, outs) := by
  have houtcome : x.toNode.outcome (S.withCoin v combine) env i = x.toNode.outcome S env i := by
    cases i with
    | msg m =>
      rw [(Hist.step_msg h).1] at hy
      dsimp only [Node.outcome]
      rw [handle_withCoin hy]
    | _ => rfl
  rw [← h]
  unfold Hist.step
  rw [houtcome]

/-- A run up to the moment before the coin is known is a run under any other coin. -/
theorem Run.withCoin (hr : Run S ok s)
    (hs : ∀ v', S.electHash v' = S.electHash v → NoCoin S v' s) :
    Run (S.withCoin v combine) ok s := by
  refine hr.transfer (P := consensus S ok)
    (C := fun s => ∀ v', S.electHash v' = S.electHash v → NoCoin S v' s)
    (Finset.Subset.refl _) rfl (fun h hs v' hv => (hs v' hv).of_step h) ?_ hs
  rintro s s' q m y out hq ⟨env, i, outs, hm, hover, hok, h, hout⟩ hn hs
  refine ⟨env, i, outs, hm, hover, hok, Hist.step_withCoin h fun v' hv => ?_, hout⟩
  have hlt := hs v' hv q hq
  rwa [hn, Function.update_self] at hlt

end WithCoin

/-! ## A leader that has finished -/

/-- The instance is locked, and the node has prevoted for it alone. -/
def Hist.Upholds (x : Hist) (t : Slot) : Prop :=
  (x.core.spbInstances t).lockFlag = true ∧
    ∀ d pv, .prevote pv ∈ x.sentTo d → pv.view.slot pv.leader = t → pv.flag = .yes

/-- A node with a lock prevotes for yes. -/
theorem Hist.Upholds.rule {t : Slot} (h : Rule S env i x0 x y) (hx : x.Upholds t) :
    y.Upholds t := by
  have hlock := h.lockFlag_eq hx.1
  refine ⟨hlock, fun d pv hm ht => ?_⟩
  rcases h.sent_cases hm with hm | ⟨new, hnew, hm⟩
  · exact hx.2 d pv hm ht
  · obtain ⟨-, -, -, -, -, ⟨hyes, -⟩ | ⟨-, -, hopen⟩⟩ := hnew.prevote hm
    · exact hyes
    · rw [ht, hlock] at hopen
      cases hopen

theorem Hist.Upholds.step {t : Slot} (h : x.step S env i = some (y, outs)) (hx : x.Upholds t) :
    y.Upholds t :=
  step_invariant (I := fun z => z.Upholds t) (fun hrule hz => hz.rule hrule) h hx

/-- A node proposes for a later round only after a final vote for no. -/
def NextAfterNo (x : Hist) : Prop :=
  ∀ d p, .spbProposal p ∈ x.sentTo d → p.phase = .one → p.round = 0 ∨
    0 < (x.core.aggreator.finvoteAggreator ⟨p.epoch, p.round - 1⟩).noNums

theorem NextAfterNo.rule (h : Rule S env i x0 x y) (hreg : Regular x0 env i)
    (hx : NextAfterNo x) : NextAfterNo y := by
  intro d p hm hp
  rcases h.sent_cases hm with hm | ⟨new, hnew, hm⟩
  · exact (hx d p hm hp).imp_right fun hpos => hpos.trans_le (h.finVote_nums_le _).2
  · cases hnew with
    | two v ht hv hq hy =>
      obtain rfl : p = _ := by simpa using hm
      cases hp
    | leader v outs he ho hc => cases ho <;> simp at hm
    | next fv dg b hi hh hx0 hn hc hb hy =>
      obtain rfl : p = _ := by simpa using hm
      refine .inr ?_
      have hview : (⟨fv.epoch, succ64 fv.round - 1⟩ : View) = fv.view := by
        rw [(hreg.next hi hx0 hc).1, add_sub_cancel_right]
        rfl
      rw [hview, hy, Function.update_self]
      cases hc with
      | no hq hz => exact hq ▸ S.quorum_pos
      | yes hq hy hz => exact hz
    | first e he hs hx ho =>
      obtain rfl : p = _ := by simpa using hm
      exact .inl rfl
    | _ => simp at hm

theorem Run.nextAfterNo (hr : Run S ok s) (q : NodeID) : NextAfterNo (s.nodes q) :=
  (hr.localRun q).invariant (by simp [NextAfterNo, Hist.init, Hist.sentTo])
    fun hok hrule hz => hz.rule hrule hok.2

section Leader

variable {coin : View → NodeID} {f : ℕ} (hf : S.committee.size = 3 * f + 1)

include hf in
/-- Where a quorum of nodes upholds the leader's block, nobody goes on to the next round: no quorum
of prevotes is for no, and so no final vote is. -/
theorem Run.not_proposed_next (hr : Run S ok s)
    (hled : ∀ q, LedBy S (fun v L => L = coin v) (s.nodes q)) (hround : 0 ≤ v.round)
    {A : Finset NodeID} (hA : A ⊆ S.committee.authorities) (hqA : S.quorum ≤ A.card)
    (hup : ∀ a ∈ A, (s.nodes a).Upholds (v.slot (coin v))) (q : NodeID) :
    ¬ (s.nodes q).Proposed ⟨v.epoch, v.round + 1⟩ := by
  rintro ⟨p, hm, hp, hview⟩
  have hsent := ((hr.facts q).even.mem_iff rfl q).mpr hm
  obtain ⟨hepoch, hnext⟩ : p.epoch = v.epoch ∧ p.round = v.round + 1 := by
    simpa [SPBProposal.view] using hview
  have hno : 0 < ((s.nodes q).core.aggreator.finvoteAggreator v).noNums := by
    have hpos := (hr.nextAfterNo q q p hsent hp).resolve_left (by omega)
    rwa [hepoch, hnext, add_sub_cancel_right] at hpos
  -- The vote for no that was counted follows a quorum of prevotes for no.
  obtain ⟨N, hN, hvotes⟩ := ((hr.facts q).counted.finVote v).exists_no
  obtain ⟨b, hb⟩ := Finset.card_pos.mp (hN ▸ hno)
  obtain ⟨fv, hfv, -, rfl, hflag⟩ := hvotes b hb
  cases ((hr.facts _).causes.finVote q fv (hr.sent_of_handled hfv).2).2 with
  | yes pv hyes _ _ _ _ => exact hflag hyes
  | no pv _ _ _ _ _ hq =>
    obtain ⟨P, hP, hprevotes⟩ := ((hr.facts fv.author).counted.prevote fv.view).exists_no
    obtain ⟨c, hcA, hcP⟩ :=
      Setup.quorums_meet hf hA (hr.voters_subset .prevote hprevotes) hqA (hP ▸ hq)
    obtain ⟨pv, hpv, rfl, hpview, hno⟩ := hprevotes c hcP
    have hsent := (hr.sent_of_handled hpv).2
    have hyes := (hup _ hcA).2 _ pv hsent (by rw [(hled _).prevote _ pv hsent, hpview])
    exact absurd (hno.symm.trans hyes) (by decide)

/-- Before the coin is known, a quorum of nodes upholds the block of a node that has finished. -/
theorem Run.upheld_of_finished (ha : S.absent = .other) (hr : Run S ok s) (hs : NoCoin S v s)
    {L : NodeID} (hfin : (s.nodes L).Finished v) : 0 ≤ v.round ∧
      ∃ A ⊆ S.committee.authorities, S.quorum ≤ A.card ∧
        ∀ a ∈ A, (s.nodes a).Upholds (v.slot L) := by
  obtain ⟨f, hm, rfl⟩ := hfin
  have hsent := ((hr.facts L).even.mem_iff rfl L).mpr hm
  obtain ⟨A, hA, hqA, hlocks⟩ := hr.finish_certificate ha hsent
  refine ⟨hr.proper_sent ha (hr.mem_of_sent hsent) _ _ hsent, A, hA, hqA, fun a hmem =>
    ⟨(hlocks a hmem).1, fun d pv hpv hslot => ?_⟩⟩
  have hview : pv.view = f.view := by
    simp only [View.slot, Slot.mk.injEq] at hslot
    exact congrArg₂ View.mk hslot.1 hslot.2.1
  exact absurd hview (hr.not_afterCoin hs hpv)

include hf in
/-- Whatever happens after a moment at which the coin is not known and the node that it names has
finished, nobody goes on to the next round. -/
theorem Run.not_proposed_of_finished (ha : S.absent = .other) (hr : Run S ok s₀)
    (hs : NoCoin S v s₀) (hfin : (s₀.nodes (coin v)).Finished v)
    (hpath : Relation.ReflTransGen (consensus S ok).Step s₀ s)
    (hled : ∀ q, LedBy S (fun v L => L = coin v) (s.nodes q)) (q : NodeID) :
    ¬ (s.nodes q).Proposed ⟨v.epoch, v.round + 1⟩ := by
  obtain ⟨hround, A, hA, hqA, hup⟩ := hr.upheld_of_finished ha hs hfin
  refine Run.not_proposed_next hf (hr.path hpath) hled hround hA hqA (fun a hmem => ?_) q
  exact (steps_of_path hpath a).keep (I := fun z => z.Upholds (v.slot (coin v)))
    (fun hstep hz => hz.step hstep) (hup a hmem)

/-- Two thirds of the coins end the epoch. Before the coin of a view is known in a run, the run
comes to a state that it reaches under every other coin of the view as well, and in which `2f + 1`
nodes have finished. If the coin names one of them, nobody ever goes on to the next round. A coin
belongs to the digest of its view, so no other view with the digest may have one. -/
theorem quorum_of_coins (hf : S.committee.size = 3 * f + 1) (ha : S.absent = .other)
    (hr : Run S (HaltsSucceed S) s) (hs : ¬ NoCoin S v s)
    (hother : ∀ v', S.electHash v' = S.electHash v → v' ≠ v → NoCoin S v' s) :
    ∃ s₀, Run S (HaltsSucceed S) s₀ ∧
      Relation.ReflTransGen (consensus S (HaltsSucceed S)).Step s₀ s ∧ NoCoin S v s₀ ∧
      (∀ combine, Run (S.withCoin v combine) (HaltsSucceed S) s₀) ∧
      ∃ G ⊆ S.committee.authorities, 2 * f + 1 ≤ G.card ∧ (∀ a ∈ G, (s₀.nodes a).Finished v) ∧
        ∀ combine coin, FixedCoin (S.withCoin v combine) coin → coin v ∈ G →
          ∀ s', Relation.ReflTransGen
            (consensus (S.withCoin v combine) (HaltsSucceed S)).Step s₀ s' →
              ∀ q, ¬ (s'.nodes q).Proposed ⟨v.epoch, v.round + 1⟩ := by
  obtain ⟨s₀, hr₀, hno, ⟨G, hG, hcard, hfin⟩, hpath⟩ := hr.exists_before_coin hs
  have hquorum : S.quorum = 2 * f + 1 := Committee.hightThreshold_eq hf
  have hrun : ∀ combine, Run (S.withCoin v combine) (HaltsSucceed S) s₀ := by
    refine fun combine => Run.withCoin hr₀ fun v' hv => ?_
    by_cases heq : v' = v
    · exact heq ▸ hno
    · exact Relation.ReflTransGen.head_induction_on hpath (hother v' hv heq)
        fun h _ hs' => hs'.of_step h
  refine ⟨s₀, hr₀, hpath, hno, hrun, G, hG, hquorum ▸ hcard, hfin, ?_⟩
  intro combine coin hcoin hmem s' hpath' q
  exact Run.not_proposed_of_finished (S := S.withCoin v combine) hf ha (hrun combine) hno
    (hfin _ hmem) hpath' (fun q => Run.ledBy_coin hcoin ((hrun combine).path hpath') q) q

/-- A node that has taken no share of a view has no coin for it. -/
theorem Run.noCoin_of_handled (hr : Run S ok s)
    (h : ∀ q ∈ S.committee.authorities, ∀ sh, .electShare sh ∈ (s.nodes q).handled → sh.view ≠ v) :
    NoCoin S v s := by
  intro q hq
  have hnil : ((s.nodes q).core.elector.electAggreators v).shares = [] := by
    refine List.eq_nil_iff_forall_not_mem.mpr fun share hmem => ?_
    obtain ⟨sh, hsh, hv, -⟩ := (hr.localRun q).sharesCounted v share hmem
    exact h q hq sh hsh hv
  rw [hnil]
  exact S.quorum_pos

/-- Three nodes of four finish before the coin names one of them. The fourth one has not started. -/
theorem quorum_of_coins_round : ∃ s s₀ : Net, ∃ G : Finset NodeID,
    Run (demo 4 1) (HaltsSucceed (demo 4 1)) s ∧
    Relation.ReflTransGen (consensus (demo 4 1) (HaltsSucceed (demo 4 1))).Step s₀ s ∧
    ¬ NoCoin (demo 4 1) ⟨0, 0⟩ s ∧ NoCoin (demo 4 1) ⟨0, 0⟩ s₀ ∧ 3 ≤ G.card ∧
    (∀ a ∈ G, (s₀.nodes a).Finished ⟨0, 0⟩) ∧
    ∀ leader : UInt8, ((leader.toNat % 4 : ℕ) : NodeID) ∈ G → ∀ s', Relation.ReflTransGen
      (consensus ((demo 4 1).withCoin ⟨0, 0⟩ fun _ => some [0, 0, leader])
        (HaltsSucceed (demo 4 1))).Step s₀ s' → ∀ q, ¬ (s'.nodes q).Proposed ⟨0, 1⟩ := by
  obtain ⟨s, hr, hP⟩ := exists_run (demo 4 1) (HaltsSucceed (demo 4 1)) [0, 1, 2, 3] finishedRound
    (fun nodes => decide
      (3 ≤ ((nodes 0).core.elector.electAggreators ⟨0, 0⟩).shares.length ∧
        ∀ q ∈ (demo 4 1).committee.authorities, ∀ m ∈ (nodes q).handled, ∀ k ∈ m.voteKey?,
          k.view = ⟨0, 0⟩)) (by decide) (by decide +kernel)
  obtain ⟨hlength, hviews⟩ := of_decide_eq_true hP
  have hs : ¬ NoCoin (demo 4 1) ⟨0, 0⟩ s :=
    fun hno => absurd (hno 0 (by decide)) (not_lt.mpr hlength)
  have hother : ∀ v', (demo 4 1).electHash v' = (demo 4 1).electHash ⟨0, 0⟩ → v' ≠ ⟨0, 0⟩ →
      NoCoin (demo 4 1) v' s := by
    intro v' _ hne
    refine Run.noCoin_of_handled hr fun q hq sh hsh hv => hne ?_
    rw [← hv]
    exact hviews q hq _ hsh _ rfl
  obtain ⟨s₀, -, hpath, hno, -, G, -, hcard, hfin, hcoins⟩ :=
    quorum_of_coins (S := demo 4 1) (f := 1) rfl rfl hr hs hother
  refine ⟨s, s₀, G, hr, hpath, hs, hno, hcard, hfin, fun leader hleader => ?_⟩
  refine hcoins _ (fun v => if (demo 4 1).electHash v = (demo 4 1).electHash ⟨0, 0⟩ then
    (leader.toNat % 4 : ℕ) else 1) ?_ (by rw [if_pos rfl]; exact hleader)
  -- The coin of the other views is the one of the demo.
  intro shares v bytes L hc hl
  change (if (demo 4 1).electHash v = (demo 4 1).electHash ⟨0, 0⟩ then some [0, 0, leader]
    else some [0, 0, 1]) = some bytes at hc
  dsimp only
  split_ifs at hc ⊢
  · exact demo_fixedCoin 4 leader shares v bytes L hc hl
  · exact demo_fixedCoin 4 1 shares v bytes L hc hl

/-! ## The time of one view -/

/-- Where no step returns an error of the database, no halt fails. -/
theorem haltsSucceed_of_noDatabaseError (hdb : NoDatabaseError S x env i)
    (h : x.step S env i = some (y, outs)) : HaltsSucceed S x env i := by
  intro ht hi
  obtain ⟨o, ho, -, -⟩ := Hist.step_eq_some h
  have hget := (hdb o ho).1
  cases Node.runs_of_outcome ho with
  | msg m hs =>
    cases m with
    | halt _ =>
      cases hi
      by_contra herr
      obtain ⟨he, hf, hb, ha⟩ := (handleHalt_err_iff S env x.core ht).mp herr
      exact hget (handleHalt_err env he hf hb ha)
    | _ => cases hi
  | _ => cases hi

theorem Run.haltsSucceed (hfav : Favourable S ok) (hr : Run S ok s) :
    Run S (HaltsSucceed S) s := by
  refine hr.transfer (P := consensus S ok) (C := fun _ => True) (Finset.Subset.refl _) rfl
    (fun _ _ => trivial) ?_ trivial
  rintro s s' q m y out - ⟨env, i, outs, hm, hover, hok, h, hout⟩ - -
  have hdb := (hfav.unhindered _ _ _ hok).1
  exact ⟨env, i, outs, hm, hover, haltsSucceed_of_noDatabaseError hdb h, h, hout⟩

/-- Rounds in a row are a path. -/
theorem path_of_rounds {A : Finset NodeID} {σ : ℕ → Net} {n : ℕ}
    (hrounds : ∀ i < n, AsyncRound S ok A (σ i) (σ (i + 1))) :
    Relation.ReflTransGen (consensus S ok).Step (σ 0) (σ n) := by
  induction n with
  | zero => exact .refl
  | succ n ih => exact (ih fun i hi => hrounds i (by omega)).trans (hrounds n (by omega)).path

/-- If the node that the coin of a view names has finished before the coin is known, the nodes that
have proposed for the view are past its epoch after thirteen rounds. -/
theorem finished_leader_ends_epoch (hf : S.committee.size = 3 * f + 1) (ha : S.absent = .other)
    (hcoin : FixedCoin S coin) (hfav : Favourable S ok) {A : Finset NodeID}
    (hA : A ⊆ S.committee.authorities) (hq : S.quorum ≤ A.card) {σ : ℕ → Net}
    (hr : Run S ok (σ 0)) (hrounds : ∀ i < 13, AsyncRound S ok A (σ i) (σ (i + 1)))
    (hrunning : ∀ a ∈ A, ((σ 13).nodes a).status ≠ .crashed) (hreached : ReachedView A v (σ 0))
    (hown : OwnBlocks A v (σ 0)) (hr₀ : Run S ok s₀)
    (hpath : Relation.ReflTransGen (consensus S ok).Step s₀ (σ 13)) (hs : NoCoin S v s₀)
    (hfin : (s₀.nodes (coin v)).Finished v) :
    ∀ a ∈ A, v.epoch < ((σ 13).nodes a).core.epoch := by
  intro a hmem
  by_contra hepoch
  have hlast := hrounds 12 (by omega)
  obtain ⟨p, hm, hp⟩ := proposed_next hfav hA hq σ hr hrounds
    (fun c hc => (hlast.steps c).not_crashed (hrunning c hc)) hreached hown hmem
    (not_lt.mp hepoch) hmem
  refine hr₀.not_proposed_of_finished hf ha hs hfin hpath (fun q => ?_) a
    ⟨p, (hlast.steps a).broadcast hm, hp⟩
  exact Run.ledBy_coin hcoin (Run.haltsSucceed hfav (hr₀.path hpath)) q

/-- Node one of four finishes, and three nodes go on in lockstep: they are in the next epoch in the
end. -/
theorem finished_leader_ends_epoch_first : ∃ σ : ℕ → Net,
    Run (demo 4 1) (Unhindered (demo 4 1)) (σ 0) ∧
    (∀ i < 13, AsyncRound (demo 4 1) (Unhindered (demo 4 1)) {0, 1, 2} (σ i) (σ (i + 1))) ∧
    NoCoin (demo 4 1) ⟨0, 0⟩ (σ 0) ∧ ((σ 0).nodes 1).Finished ⟨0, 0⟩ ∧
    ∀ a ∈ ({0, 1, 2} : Finset NodeID), 0 < ((σ 13).nodes a).core.epoch := by
  obtain ⟨σ, hr, hrounds, hP⟩ := exists_rounds (demo 4 1) (Unhindered (demo 4 1)) [0, 1, 2]
    ([.start 0, .start 1, .start 2] ++ spbRun 1 [0, 1, 2]) 13
    (fun nodes nodes' => decide (((nodes 0).broadcasts = demoStart 0 ∧
      (nodes 1).broadcasts = demoStart 1 ++ [.spbProposal ⟨1, ⟨1, [], -1⟩, 0, 0, .two⟩,
        .finish ⟨1, demoHash 1, 0, 0⟩] ∧ (nodes 2).broadcasts = demoStart 2) ∧
      (∀ q ∈ (demo 4 1).committee.authorities,
        ((nodes q).core.elector.electAggreators ⟨0, 0⟩).shares.length < 3) ∧
      ∀ a ∈ ([0, 1, 2] : List NodeID).toFinset, (nodes' a).status ≠ .crashed))
    (by decide) (by decide +kernel)
  obtain ⟨⟨hzero, hone, htwo⟩, hno, hrunning⟩ := of_decide_eq_true hP
  have hfin : ((σ 0).nodes 1).Finished ⟨0, 0⟩ := by
    refine ⟨⟨1, demoHash 1, 0, 0⟩, ?_, rfl⟩
    unfold Hist.Broadcast
    rw [hone]
    decide
  -- Besides their first proposals, the nodes have broadcast none of the first phase.
  have hstart : ∀ a ∈ ({0, 1, 2} : Finset NodeID), ∃ l,
      ((σ 0).nodes a).broadcasts = demoStart a ++ l ∧
        ∀ p, .spbProposal p ∈ l → p.phase = .two := by
    intro a ha
    simp only [Finset.mem_insert, Finset.mem_singleton] at ha
    rcases ha with rfl | rfl | rfl
    · exact ⟨[], by rw [hzero, List.append_nil], by simp⟩
    · exact ⟨_, hone, by simp⟩
    · exact ⟨[], by rw [htwo, List.append_nil], by simp⟩
  have hreached : ReachedView {0, 1, 2} ⟨0, 0⟩ (σ 0) := by
    intro a ha
    obtain ⟨l, hl, -⟩ := hstart a ha
    refine .inr ⟨⟨a, demoBlock a 0, 0, 0, .one⟩, ?_, rfl, rfl⟩
    unfold Hist.Broadcast
    rw [hl]
    exact List.mem_append_left _ (List.mem_singleton_self _)
  have hown : OwnBlocks {0, 1, 2} ⟨0, 0⟩ (σ 0) := by
    intro a ha p hm hp _
    obtain ⟨l, hl, htwos⟩ := hstart a ha
    unfold Hist.Broadcast at hm
    rw [hl] at hm
    rcases List.mem_append.mp hm with hm | hm
    · cases List.mem_singleton.mp hm
      rfl
    · exact absurd (hp.symm.trans (htwos p hm)) (by decide)
  exact ⟨σ, hr, hrounds, hno, hfin, finished_leader_ends_epoch (S := demo 4 1) (f := 1) rfl rfl
    (demo_fixedCoin 4 1) (demo_favourable 1) (by decide) (by decide) hr hrounds hrunning hreached
    hown hr (path_of_rounds hrounds) hno hfin⟩

end Leader

end SMVBA
