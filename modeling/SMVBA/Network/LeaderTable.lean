import SMVBA.Network.Halts

/-!
# Agreement on the leaders

The table of leaders is written from the coin and from the halts. A halt that goes back to a
`Finish` names the leader that its sender had in the table. A halt that goes back to final votes
names the leader of the vote that completed the quorum. As `NewFinVote` drops the leader that it is
given, that is node zero in every run, whatever the coin says. The tables of all nodes agree, and no
entry ever changes, as long as the votes that complete a quorum for yes name the coin's leader.
-/

namespace SMVBA

open MessagePassing

variable {S : Setup} {ok : Cond} {s : Net} {coin : View → NodeID}

/-- A final vote that completes a quorum for yes names the coin's leader of its view. -/
def VotesNameLeader (S : Setup) (coin : View → NodeID) : Cond := fun x _ i =>
  ∀ fv ∈ i.finVote?, x.core.messgaeFilter fv.epoch = false →
    (x.core.aggreator.addFinVote S fv).2 = .ok .commit → fv.leader = coin fv.view

instance (S : Setup) (coin : View → NodeID) (x : Hist) (env : Env) (i : Input) :
    Decidable (VotesNameLeader S coin x env i) :=
  inferInstanceAs (Decidable (∀ fv ∈ i.finVote?, _ → _ → _))

/-- The answer of the aggregator to the vote that completes a quorum for yes. -/
theorem addFinVote_commit {c : Core} {fv : FinVote}
    (hn : fv.author ∉ (c.aggreator.finvoteAggreator fv.view).authors)
    (hq : ((c.aggreator.finvoteAggreator fv.view).count fv).yesNums = S.quorum)
    (hz : ((c.aggreator.finvoteAggreator fv.view).count fv).noNums = 0) :
    (c.aggreator.addFinVote S fv).2 = .ok .commit := by
  simp [Aggreator.addFinVote, FinVoteAggreator.append, hn, hq, hz]

/-- The entries of a table are those of the coin. -/
def Elector.OfCoin (coin : View → NodeID) (e : Elector) : Prop :=
  ∀ v, e.leader v ≠ NONE → e.leader v = coin v

/-- A node that takes only halts which name the coin's leader keeps the coin's table, and names the
coin's leader in its halts. -/
theorem table_of_handled (hcoin : FixedCoin S coin) {name : NodeID} {x : Hist}
    (hok : ∀ x env i, ok x env i → VotesNameLeader S coin x env i) (hr : LocalRun S ok name x)
    (hh : ∀ h, .halt h ∈ x.handled → h.leader = coin h.view) :
    x.core.elector.OfCoin coin ∧ ∀ d h, .halt h ∈ x.sentTo d → h.leader = coin h.view := by
  refine hr.invariant (I := fun z => (∀ h : Halt, .halt h ∈ z.handled → h.leader = coin h.view) →
    z.core.elector.OfCoin coin ∧ ∀ d h, .halt h ∈ z.sentTo d → h.leader = coin h.view) ?_ ?_ hh
  · refine fun _ => ⟨fun v hne => absurd rfl hne, ?_⟩
    simp [Hist.init, Hist.sentTo]
  · intro env i x0 z z' hstep h ih hh
    obtain ⟨htable, hsent⟩ := ih fun ht hm => hh ht (h.mem_handled hm)
    -- The table changes by the coin, whose leader it is, or by a halt that the node took.
    have htable' : z'.core.elector.OfCoin coin := by
      intro v hne
      cases h.leaderChange v with
      | same heq =>
        rw [heq] at hne ⊢
        exact htable v hne
      | coin sh bytes hi hx0 hv hc hl => exact hcoin _ v bytes _ hc hl
      | halt ht hi hx0 hm hv hl he hf ho => rw [hl, hh ht (h.mem_handled hm), hv]
    refine ⟨htable', fun d ht hm => ?_⟩
    rcases h.sent_cases hm with hm | ⟨new, hnew, hm⟩
    · exact hsent d ht hm
    · rcases hnew.of_halt hm with
        ⟨-, -, -, hleader, hl, -⟩ | ⟨fv, rfl, -, hx0, he, hn, hq, hz, -, hv, hleader, -⟩
      · rw [hleader] at hl ⊢
        exact htable' ht.view hl
      · -- The condition of the run is about exactly this step.
        rw [hx0.core] at he hn hq hz
        rw [hleader, hv]
        exact hok _ _ _ hstep fv rfl (by simpa [Core.messgaeFilter] using he)
          (addFinVote_commit hn hq hz)

/-- Under the condition every halt names the coin's leader. -/
theorem Run.halt_leader (hcoin : FixedCoin S coin) (hr : Run S (VotesNameLeader S coin) s)
    {q : NodeID} {h : Halt} (hm : .halt h ∈ (s.nodes q).handled) : h.leader = coin h.view := by
  obtain ⟨ha, hs⟩ := hr.sent_of_handled hm
  refine hr.forall_sent (G := fun _ (m : Message) => ∀ h, m = .halt h → h.leader = coin h.view)
    (fun _ _ hg => hg) ?_ _ ha q _ hs h rfl
  intro s hr a _ hh d m hm h hmh
  subst hmh
  exact (table_of_handled hcoin (fun _ _ _ hok => hok.1) (Run.localRun hr a)
    fun h hm => hh _ hm h rfl).2 d h hm

/-- Under the condition the tables of all nodes are the coin's. -/
theorem Run.table_ofCoin (hcoin : FixedCoin S coin) (hr : Run S (VotesNameLeader S coin) s)
    (q : NodeID) : (s.nodes q).core.elector.OfCoin coin :=
  (table_of_handled hcoin (fun _ _ _ hok => hok.1) (hr.localRun q) fun _ hm =>
    hr.halt_leader hcoin hm).1

/-! ## Entries that are set stay set -/

/-- A halt of a run names a node. -/
theorem Run.halt_leader_ne_none (hr : Run S ok s) {q : NodeID} {h : Halt}
    (hm : .halt h ∈ (s.nodes q).handled) : h.leader ≠ NONE := by
  obtain ⟨-, hs⟩ := hr.sent_of_handled hm
  cases (hr.facts _).causes.halt q h hs with
  | finish hl _ _ => exact hl
  | votes fv hh hv hf hl hb hq =>
    obtain ⟨-, hs'⟩ := hr.sent_of_handled hh
    rw [← hl, ((hr.facts _).causes.finVote _ fv hs').1]
    decide

/-- Where no halt resets an entry, a rule does not. -/
theorem Rule.leader_ne_none {env : Env} {i : Input} {x0 x y : Hist} (h : Rule S env i x0 x y)
    (hh : ∀ h : Halt, .halt h ∈ y.handled → h.leader ≠ NONE) {v : View}
    (hx : x.core.elector.leader v ≠ NONE) : y.core.elector.leader v ≠ NONE := by
  cases h.leaderChange v with
  | same heq => rwa [heq]
  | coin sh bytes hi hx0 hv hc hl => exact coinLeader_ne_none hl
  | halt ht hi hx0 hm hv hl he hf ho =>
    rw [hl]
    exact hh ht (h.mem_handled hm)

/-- An entry that is set stays set. -/
theorem Run.leader_ne_none (hr : Run S ok s) {s' : Net}
    (hs : Relation.ReflTransGen (consensus S ok).Step s s') {q : NodeID} {v : View}
    (hne : (s.nodes q).core.elector.leader v ≠ NONE) :
    Run S ok s' ∧ (s'.nodes q).core.elector.leader v ≠ NONE := by
  induction hs with
  | refl => exact ⟨hr, hne⟩
  | @tail s₁ s₂ _ hstep ih =>
    obtain ⟨hr₁, hne₁⟩ := ih
    have hr₂ : Run S ok s₂ := hr₁.step hstep
    have hhalts : ∀ h : Halt, .halt h ∈ (s₂.nodes q).handled → h.leader ≠ NONE := fun h hm =>
      Run.halt_leader_ne_none hr₂ hm
    refine ⟨hr₂, hstep.preserves (I := fun y =>
      (∀ h : Halt, .halt h ∈ y.handled → h.leader ≠ NONE) →
      y.core.elector.leader v ≠ NONE) ?_ (fun _ => hne₁) hhalts⟩
    rintro m y out ⟨env, i, outs, -, -, -, h, -⟩ -
    exact step_invariant (I := fun z => (∀ h : Halt, .halt h ∈ z.handled → h.leader ≠ NONE) →
      z.core.elector.leader v ≠ NONE) (fun hrule hz hh =>
        hrule.leader_ne_none hh (hz fun h hm => hh h (hrule.mem_handled hm))) h (fun _ => hne₁)

/-- In a run in which the final votes that complete a quorum for yes name the coin's leader, an
entry of a table of leaders does not change once it is set, and the tables of any two nodes agree
where both are set. -/
theorem leader_table_consistent (hcoin : FixedCoin S coin) (hr : Run S (VotesNameLeader S coin) s) :
    (∀ s', Relation.ReflTransGen (consensus S (VotesNameLeader S coin)).Step s s' → ∀ q v,
      (s.nodes q).core.elector.leader v ≠ NONE →
      (s'.nodes q).core.elector.leader v = (s.nodes q).core.elector.leader v) ∧
    ∀ q q' v, (s.nodes q).core.elector.leader v ≠ NONE →
      (s.nodes q').core.elector.leader v ≠ NONE →
      (s.nodes q).core.elector.leader v = (s.nodes q').core.elector.leader v := by
  refine ⟨fun s' hs q v hne => ?_, fun q q' v hne hne' => ?_⟩
  · obtain ⟨hr', hne'⟩ := hr.leader_ne_none hs hne
    rw [Run.table_ofCoin hcoin hr' q v hne', hr.table_ofCoin hcoin q v hne]
  · rw [hr.table_ofCoin hcoin q v hne, hr.table_ofCoin hcoin q' v hne']

/-- Node zero is elected. One node has its entry from the coin and another from a halt after final
votes, and they agree. -/
theorem leader_tables_agree_zero :
    ∃ s : Net, Run (demo 4 0) (VotesNameLeader (demo 4 0) fun _ => 0) s ∧
    (s.nodes 1).core.elector.leader ⟨0, 0⟩ ≠ NONE ∧ (s.nodes 2).core.elector.leader ⟨0, 0⟩ ≠ NONE ∧
    (s.nodes 2).decided ≠ [] ∧
    (∀ s', Relation.ReflTransGen (consensus (demo 4 0) (VotesNameLeader (demo 4 0) fun _ => 0)).Step
      s s' → (s'.nodes 1).core.elector.leader ⟨0, 0⟩ = (s.nodes 1).core.elector.leader ⟨0, 0⟩) ∧
    (s.nodes 1).core.elector.leader ⟨0, 0⟩ = (s.nodes 2).core.elector.leader ⟨0, 0⟩ := by
  obtain ⟨s, hr, hs⟩ := exists_run (demo 4 0) (VotesNameLeader (demo 4 0) fun _ => 0) [0, 1, 2, 3]
    (votedRound 0 1 2 3 ++ [.deliver 2 (.halt ⟨2, 0, 0, 0, demoHash 0⟩)])
    (fun nodes => decide ((nodes 1).core.elector.leader ⟨0, 0⟩ ≠ NONE ∧
      (nodes 2).core.elector.leader ⟨0, 0⟩ ≠ NONE ∧ (nodes 2).decided ≠ []))
    (by decide) (by decide +kernel)
  obtain ⟨hne, hne', hdecided⟩ := of_decide_eq_true hs
  obtain ⟨hstable, hagree⟩ := leader_table_consistent (demo_fixedCoin 4 0) hr
  exact ⟨s, hr, hne, hne', hdecided, fun s' hs' => hstable s' hs' 1 _ hne, hagree 1 2 _ hne hne'⟩

/-- Node one is elected. The node that has counted the final votes takes its own halt, and its table
says zero. -/
theorem leader_tables_differ : FixedCoin (demo 4 1) (fun _ => 1) ∧ ∃ s : Net,
    Run (demo 4 1) Always s ∧ (s.nodes 0).core.elector.leader ⟨0, 0⟩ = 1 ∧
      (s.nodes 2).core.elector.leader ⟨0, 0⟩ = 0 := by
  obtain ⟨s, hr, hs⟩ := exists_run (demo 4 1) Always [0, 1, 2, 3]
    (votedRound 1 0 2 3 ++ [.deliver 2 (.halt ⟨2, 0, 0, 0, demoHash 1⟩)])
    (fun nodes => decide ((nodes 0).core.elector.leader ⟨0, 0⟩ = 1 ∧
      (nodes 2).core.elector.leader ⟨0, 0⟩ = 0))
    (by decide) (by decide +kernel)
  exact ⟨demo_fixedCoin 4 1, s, hr, of_decide_eq_true hs⟩

end SMVBA
