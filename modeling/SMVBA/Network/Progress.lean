import Mathlib.Data.Finset.Max
import SMVBA.Network.Halts
import SMVBA.Node.Instances
import SMVBA.Node.Views

/-!
# Progress

A quorum of nodes that keep running gets on, in whatever order messages and calls are dealt with and
wherever the other nodes, which run the same code, come to a stop. Time is counted in asynchronous
rounds: a round is over when all that was sent to these nodes before it has been taken, and when the
calls that they had spawned before it have run (`AsyncRound`). A view takes `13` such rounds: a
proposal and a vote take two each, one for the message and one for the call that it spawns, in each
of the two phases, and `Finish`, `Done`, `Prevote`, `FinVote` and `Halt` take one each
(`view_latency`).

The nodes need what the protocol takes for granted: a committee of four nodes or more, payloads that
are there, and shares that combine to a coin (`Favourable`). They need two things more, for which
the protocol has no reason. No step may return an error of the database, and a halt that overtakes
its block does: the node that takes it does not pass the epoch, and proposes nothing again. And a
phase-one proposal is voted for only if its author is the proposer of its block, so that each of
them has to propose a block of its own, while `advanceNextRound` proposes the block of another node
after a final vote for yes. There is no other way to get stuck: nodes that have proposed their own
blocks are never all at rest (`never_at_rest`).
-/

namespace SMVBA

open MessagePassing

variable {S : Setup} {env : Env} {i : Input} {x y : Hist} {outs : List Output} {ok : Cond}
  {s s' : Net} {A : Finset NodeID} {v : View} {a b : NodeID}

/-! ## The conditions -/

/-- Nothing stands in the way of a node: no step of it returns an error of the database, and the
payloads of a block are there. -/
def Unhindered (S : Setup) : Cond := fun x env i =>
  NoDatabaseError S x env i ∧ PayloadsThere x env i

instance (S : Setup) (x : Hist) (env : Env) (i : Input) : Decidable (Unhindered S x env i) :=
  inferInstanceAs (Decidable (_ ∧ _))

/-- What the protocol takes for granted. -/
structure Favourable (S : Setup) (ok : Cond) : Prop where
  /-- A single `Done` is no reason for another one. -/
  size : 4 ≤ S.committee.size
  /-- A quorum of shares makes a coin. -/
  combine : SharesCombine S
  /-- Nothing stands in the way of a step. -/
  unhindered : ∀ x env i, ok x env i → Unhindered S x env i

/-- An asynchronous round of the nodes `A`: what was sent to them has been taken, and what they had
spawned has run. -/
structure AsyncRound (S : Setup) (ok : Cond) (A : Finset NodeID) (s s' : Net) : Prop where
  path : Relation.ReflTransGen (consensus S ok).Step s s'
  delivered : (consensus S ok).Delivered A s s'
  ran : ∀ a ∈ A, Calls.RanBy (calls S) (s.nodes a) (s'.nodes a)

/-- The nodes have proposed for a view, or they are past its epoch. -/
def ReachedView (A : Finset NodeID) (v : View) (s : Net) : Prop :=
  ∀ a ∈ A, v.epoch < (s.nodes a).core.epoch ∨ (s.nodes a).Proposed v

/-- What the nodes propose for a view are blocks of their own. -/
def OwnBlocks (A : Finset NodeID) (v : View) (s : Net) : Prop :=
  ∀ a ∈ A, ∀ p, (s.nodes a).Broadcast (.spbProposal p) → p.phase = .one → p.view = v →
    p.b.proposer = a

/-- No message and no call waits at the nodes. -/
def AtRest (A : Finset NodeID) (s : Net) : Prop :=
  ∀ a ∈ A, s.inbox a = 0 ∧ (s.nodes a).tasks = []

/-! ## Shares -/

/-- A node sends its own share. -/
theorem LocalRun.share_eq {name : NodeID} (hr : LocalRun S ok name x) {d : NodeID}
    {sh : ElectShare} (hm : .electShare sh ∈ x.sentTo d) :
    sh.sigShare = S.requestTsSugnature sh.author (S.electHash sh.view) := by
  refine hr.invariant (I := fun x => ∀ d sh, .electShare sh ∈ x.sentTo d →
    sh.sigShare = S.requestTsSugnature sh.author (S.electHash sh.view)) ?_ ?_ d sh hm
  · intro d sh hm
    cases hm
  · intro env i x0 z z' _ h hz d sh hm
    rcases h.sent_cases hm with hm | ⟨new, hnew, hm⟩
    · exact hz d sh hm
    · cases hnew with
      | doneShare v hd hy hc =>
        obtain rfl : sh = _ := by simpa using hm
        rfl
      | leader v outs he ho hc => cases ho <;> simp at hm
      | _ => simp at hm

/-! ## One node of the network -/

section Nodes

variable (hfav : Favourable S ok) (hr : Run S ok s)

include hr

theorem Run.answers (a : NodeID) : Answers S (s.nodes a) := (hr.localRun a).answers

theorem Run.genuineShares (a : NodeID) : GenuineShares S (s.nodes a) := by
  intro sh hm
  obtain ⟨hauthor, hsent⟩ := hr.sent_of_handled hm
  exact ⟨hauthor, (hr.localRun _).share_eq hsent⟩

include hfav

theorem Run.attentive (a : NodeID) : Attentive S (s.nodes a) :=
  (hr.localRun a).attentive hfav.size hfav.combine
    fun x env i h => ⟨(hfav.unhindered x env i h.1).1, h.2.noOverflow⟩

theorem Run.diligent (a : NodeID) : Diligent (s.nodes a) :=
  (hr.localRun a).diligent fun x env i h =>
    ⟨(hfav.unhindered x env i h.1).2, fun o ho => ((hfav.unhindered x env i h.1).1 o ho).2⟩

end Nodes

/-! ## One round -/

/-- A path of the network is one of each node. -/
theorem steps_of_path (h : Relation.ReflTransGen (consensus S ok).Step s s') (a : NodeID) :
    (s.nodes a).Steps S (s'.nodes a) := by
  refine Relation.ReflTransGen.mono ?_ _ _ (Protocol.nodes_path h a)
  rintro x y ⟨m, out, env, i, outs, -, -, -, hstep, -⟩
  exact ⟨i.task?, env, i, outs, hstep, rfl⟩

/-- A crashed node takes no step. -/
theorem Hist.Steps.not_crashed (h : x.Steps S y) (hy : y.status ≠ .crashed) :
    x.status ≠ .crashed := by
  intro hx
  refine hy (h.keep (I := fun z => z.status = .crashed) ?_ hx)
  intro env i outs z z' hstep hz
  obtain ⟨o, ho, -, -⟩ := Hist.step_eq_some hstep
  cases Node.runs_of_outcome ho with
  | start hs | msg m hs | loopBack d hs | task t hs ht =>
    exact absurd (hz.symm.trans hs) (by decide)

theorem Hist.Steps.epoch_le (h : x.Steps S y) : x.core.epoch ≤ y.core.epoch :=
  h.keep (I := fun z => x.core.epoch ≤ z.core.epoch)
    (fun hstep hz => hz.trans (Hist.step_epoch_le hstep)) le_rfl

theorem Hist.Steps.broadcast (h : x.Steps S y) {m : Message} (hm : x.Broadcast m) :
    y.Broadcast m :=
  h.keep (I := fun z => z.Broadcast m)
    (fun hstep => step_invariant (fun hrule hz => hrule.mem_broadcasts hz) hstep) hm

/-- The nodes have not passed an epoch. -/
def Within (A : Finset NodeID) (e : ℤ) (s : Net) : Prop := ∀ a ∈ A, (s.nodes a).core.epoch ≤ e

/-- Every one of the nodes has a block of every one in a view. -/
def HaveBlocks (A : Finset NodeID) (v : View) (s : Net) : Prop :=
  ∀ a ∈ A, ∀ b ∈ A, ((s.nodes a).core.spbInstances (v.slot b)).blockHash ≠ none

namespace AsyncRound

variable (hround : AsyncRound S ok A s s')

include hround

theorem steps (a : NodeID) : (s.nodes a).Steps S (s'.nodes a) := steps_of_path hround.path a

theorem run (hr : Run S ok s) : Run S ok s' := hr.path hround.path

theorem within {e : ℤ} (h : Within A e s') : Within A e s :=
  fun a ha => (hround.steps a).epoch_le.trans (h a ha)

theorem haveBlocks (h : HaveBlocks A v s) : HaveBlocks A v s' :=
  fun a ha b hb => (hround.steps a).keep Hist.step_blockHash (h a ha b hb)

/-- What was broadcast before a round, all nodes have taken after it. -/
theorem handled (hr : Run S ok s) (ha : a ∈ A) (hb : b ∈ S.committee.authorities) {m : Message}
    (hkind : m.isBroadcast = true) (hm : (s.nodes b).Broadcast m) : m ∈ (s'.nodes a).handled :=
  hround.delivered a ha b hb m (((hr.facts b).even.mem_iff hkind a).mpr hm)

/-- The halt of an epoch takes the nodes past it in one round. -/
theorem past_halt (hfav : Favourable S ok) (hr : Run S ok s) (ha : a ∈ A)
    (hb : b ∈ S.committee.authorities) {h : Halt} (hm : (s.nodes b).Broadcast (.halt h)) :
    h.epoch < (s'.nodes a).core.epoch :=
  ((hround.run hr).attentive hfav a).halts h (hround.handled hr ha hb rfl hm)

/-- Votes of a kind that all nodes have broadcast are counted after a round. -/
theorem subset_voters (hr : Run S ok s) (hA : A ⊆ S.committee.authorities)
    (hwithin : Within A v.epoch s') {k : VoteKind} (hkind : ∀ a ∈ A, ∃ m, (s.nodes a).Broadcast m ∧
      m.isBroadcast = true ∧ m.voteKey? = some ⟨k, a, v⟩) (hb : b ∈ A) :
    A ⊆ (s'.nodes b).core.voters v k := by
  intro a ha
  obtain ⟨m, hm, hbroadcast, hkey⟩ := hkind a ha
  have hhandled := hround.handled hr hb (hA ha) hbroadcast hm
  have hcounted := ((hround.run hr).localRun b).counted_of_handled hhandled hkey
  exact hcounted.resolve_left (not_lt.mpr (hwithin b hb))

end AsyncRound

/-- A round of nodes at rest. -/
theorem AtRest.asyncRound (hr : Run S ok s) (hrest : AtRest A s) : AsyncRound S ok A s s where
  path := .refl
  delivered := hr.delivered fun a ha => (hrest a ha).1
  ran a ha := Calls.ranBy_of_waiting (hrest a ha).2

/-! ## Rounds in lockstep -/

/-- What was sent to the nodes and what they had spawned has been dealt with. -/
def RoundOver (S : Setup) (A : Finset NodeID) (nodes nodes' : NodeID → Hist) : Prop :=
  (∀ a ∈ A, ∀ q ∈ S.committee.authorities, ∀ m ∈ (nodes q).sentTo a, m ∈ (nodes' a).handled) ∧
    ∀ a ∈ A, Calls.RanBy (calls S) (nodes a) (nodes' a)

instance (S : Setup) (A : Finset NodeID) (nodes nodes' : NodeID → Hist) :
    Decidable (RoundOver S A nodes nodes') := inferInstanceAs (Decidable (_ ∧ _))

/-- The nodes take what is in flight to them and run the calls that wait. -/
def Replay.lockstep (ids : List NodeID) (r : Replay) : List Act :=
  (r.flight.filter (·.1 ∈ ids)).map (fun m => .deliver m.1 m.2) ++
    ids.flatMap fun a => (r.nodes a).tasks.map (.call a)

/-- A number of rounds in lockstep, as long as each of them is over in the end. -/
def Replay.rounds (S : Setup) (ok : Cond) [∀ x env i, Decidable (ok x env i)] (ids : List NodeID) :
    ℕ → Replay → Option Replay
  | 0, r => some r
  | n + 1, r => match r.run S ok ids (r.lockstep ids) with
    | some r' => if RoundOver S ids.toFinset r.nodes r'.nodes then r'.rounds S ok ids n else none
    | none => none

section Lockstep

variable [∀ x env i, Decidable (ok x env i)] {ids : List NodeID} {r r' : Replay}

/-- A schedule that replays is a path of the network. -/
theorem Follows.path (hids : ids.Nodup) {schedule : List Act} (hf : Follows s r)
    (h : r.run S ok ids schedule = some r') :
    ∃ s', Relation.ReflTransGen (consensus S ok).Step s s' ∧ Follows s' r' := by
  induction schedule generalizing s r with
  | nil =>
    cases h
    exact ⟨s, .refl, hf⟩
  | cons a as ih =>
    unfold Replay.run at h
    split at h
    case h_1 r₁ ha =>
      obtain ⟨s₁, hstep, hf₁⟩ := hf.act hids ha
      obtain ⟨s', hpath, hf'⟩ := ih hf₁ h
      exact ⟨s', .head hstep hpath, hf'⟩
    case h_2 => cases h

/-- Rounds in lockstep are asynchronous rounds. -/
theorem Follows.rounds (hids : ids.Nodup) {n : ℕ} (hf : Follows s r)
    (h : r.rounds S ok ids n = some r') : ∃ σ : ℕ → Net, σ 0 = s ∧ (σ n).nodes = r'.nodes ∧
      ∀ i < n, AsyncRound S ok ids.toFinset (σ i) (σ (i + 1)) := by
  induction n generalizing s r with
  | zero =>
    cases h
    exact ⟨fun _ => s, rfl, hf.nodes, fun i hi => absurd hi (Nat.not_lt_zero i)⟩
  | succ n ih =>
    unfold Replay.rounds at h
    split at h
    case h_1 r₁ hrun =>
      split_ifs at h with hover
      obtain ⟨s₁, hpath, hf₁⟩ := hf.path hids hrun
      obtain ⟨σ, h0, hn, hrounds⟩ := ih hf₁ h
      rw [← hf.nodes, ← hf₁.nodes, ← h0] at hover
      rw [← h0] at hpath
      refine ⟨fun i => Nat.casesOn i s σ, rfl, hn, fun i hi => ?_⟩
      cases i with
      | zero => exact ⟨hpath, hover.1, hover.2⟩
      | succ i => exact hrounds i (by omega)
    case h_2 => cases h

/-- What holds at the beginning and at the end of rounds in lockstep after a schedule holds at the
beginning and at the end of asynchronous rounds. -/
theorem exists_rounds (S : Setup) (ok : Cond) [∀ x env i, Decidable (ok x env i)]
    (ids : List NodeID) (schedule : List Act) (n : ℕ)
    (P : (NodeID → Hist) → (NodeID → Hist) → Bool) (hids : ids.Nodup)
    (h : ((replay S ok ids schedule).any fun r =>
      (r.rounds S ok ids n).any fun r' => P r.nodes r'.nodes) = true) :
    ∃ σ : ℕ → Net, Run S ok (σ 0) ∧
      (∀ i < n, AsyncRound S ok ids.toFinset (σ i) (σ (i + 1))) ∧
      P (σ 0).nodes (σ n).nodes = true := by
  cases hrun : replay S ok ids schedule with
  | none => simp [hrun] at h
  | some r =>
    rw [hrun, Option.any_some] at h
    cases hrounds : r.rounds S ok ids n with
    | none => simp [hrounds] at h
    | some r' =>
      rw [hrounds, Option.any_some] at h
      have hstart : Follows (consensus S ok).start ⟨Hist.init, []⟩ :=
        ⟨rfl, fun d => Multiset.zero_le _⟩
      obtain ⟨s, hr, hf⟩ := hstart.run hids .start hrun
      obtain ⟨σ, rfl, hn, hasync⟩ := hf.rounds hids hrounds
      exact ⟨σ, hr, hasync, by rw [hf.nodes, hn]; exact h⟩

end Lockstep

/-- The demo committee is a favourable setup. -/
theorem demo_favourable (leader : UInt8) :
    Favourable (demo 4 leader) (Unhindered (demo 4 leader)) where
  size := le_of_eq rfl
  combine _ _ _ _ _ := ⟨[0, 0, leader], rfl, le_of_eq rfl⟩
  unhindered _ _ _ h := h

/-- What a node of the demo broadcasts when it starts. -/
def demoStart (a : NodeID) : List Message := [.spbProposal ⟨a, demoBlock a 0, 0, 0, .one⟩]

theorem proposed_of_demoStart (h : x.broadcasts = demoStart a) : x.Proposed ⟨0, 0⟩ := by
  refine ⟨⟨a, demoBlock a 0, 0, 0, .one⟩, ?_, rfl, rfl⟩
  unfold Hist.Broadcast
  rw [h]
  exact List.mem_singleton_self _

theorem ownBlocks_of_demoStart (h : ∀ a ∈ A, (s.nodes a).broadcasts = demoStart a) :
    OwnBlocks A v s := by
  intro a ha p hm _ _
  unfold Hist.Broadcast at hm
  rw [h a ha] at hm
  cases List.mem_singleton.mp hm
  rfl

/-! ## The stages of a view -/

section Stages

variable {s₀ s₁ s₂ : Net} (hfav : Favourable S ok) (hA : A ⊆ S.committee.authorities)
  (hq : S.quorum ≤ A.card) (hr : Run S ok s₀) (h₁ : AsyncRound S ok A s₀ s₁)
  (h₂ : AsyncRound S ok A s₁ s₂)

include hr in
/-- The author of what a node broadcasts. -/
theorem Run.author_of_broadcast {m : Message} (hm : (s₀.nodes b).Broadcast m)
    (hkind : m.isBroadcast = true) : m.author = b := by
  have hsent := ((hr.facts b).even.mem_iff hkind b).mpr hm
  rw [(hr.facts b).sent.author b m hsent, (hr.facts b).name_eq]

include hfav hA hr h₁ h₂

/-- Two rounds after the proposals, every node has every block. -/
theorem haveBlocks_of_proposed (hwithin : Within A v.epoch s₁)
    (hproposed : ∀ b ∈ A, (s₀.nodes b).Proposed v) (hown : OwnBlocks A v s₀) :
    HaveBlocks A v s₂ := by
  intro a ha b hb
  obtain ⟨p, hm, hone, rfl⟩ := hproposed b hb
  have hauthor : p.author = b := hr.author_of_broadcast hm rfl
  have hproposer : p.b.proposer = b := hown b hb p hm hone rfl
  have hslot : p.view.slot b = p.slot := by rw [← hauthor]; rfl
  have hhandled := h₁.handled hr ha (hA hb) rfl hm
  have htaken := ((h₁.run hr).diligent hfav a).ones p hhandled hone
    (hauthor.trans hproposer.symm) (hwithin a ha)
  rw [hslot]
  exact (h₂.steps a).blockHash (h₂.ran a ha) hone (hauthor.trans hproposer.symm) htaken

omit hA in
include hq in
/-- Two rounds after the votes for a node's own slot, it has counted a quorum of them. -/
theorem quorum_le_votes (hwithin : Within A v.epoch s₁) (hblocks : HaveBlocks A v s₁) (hb : b ∈ A)
    {ph : Phase} (hsent : ∀ a ∈ A, ∃ w, .spbVote w ∈ (s₀.nodes a).sentTo b ∧ w.slot = v.slot b ∧
      w.phase = ph ∧ w.author = a ∧ a ∈ S.committee.authorities) :
    S.quorum ≤ ((s₂.nodes b).core.spbInstances (v.slot b)).votes ph := by
  have hcount : A.card ≤ (s₁.nodes b).handled.countP (Message.isVote (v.slot b) ph) := by
    refine Quorum.card_le_countP Message.author fun a ha => ?_
    obtain ⟨w, hw, hslot, hph, hauthor, hmem⟩ := hsent a ha
    exact ⟨.spbVote w, h₁.delivered b hb a hmem _ hw, decide_eq_true ⟨hslot, hph⟩, hauthor⟩
  have hkept := ((h₁.run hr).diligent hfav b).votes (v.slot b) ph (hwithin b hb)
  have hdrained := (((h₁.run hr).answers b).drained _ (hblocks b hb b hb)).2
  have hvotes := (h₂.steps b).votes_le ph (h₂.ran b hb) (hblocks b hb b hb)
  unfold Hist.voteLoad at hkept
  rw [hdrained, List.countP_nil] at hkept
  omega

/-- Two rounds after a phase-two proposal, every node has voted for it. -/
theorem voted_two (hwithin : Within A v.epoch s₁) (hblocks : HaveBlocks A v s₁) (ha : a ∈ A)
    (hb : b ∈ A) {p : SPBProposal} (hm : (s₀.nodes b).Broadcast (.spbProposal p))
    (htwo : p.phase = .two) (hslot : p.slot = v.slot b) :
    .spbVote ⟨a, b, 0, v.epoch, v.round, .two⟩ ∈ (s₂.nodes a).sentTo b := by
  obtain ⟨hepoch, hround, hauthor⟩ : p.epoch = v.epoch ∧ p.round = v.round ∧ p.author = b := by
    simpa [SPBProposal.slot, View.slot] using hslot
  have hne : p.author ≠ NONE := by
    rw [hauthor]
    exact fun hnone => S.committee.none_notMem (hnone ▸ hA hb)
  have hhandled := h₁.handled hr ha (hA hb) rfl hm
  have hblock : ((s₁.nodes a).core.spbInstances p.slot).blockHash ≠ none := by
    rw [hslot]
    exact hblocks a ha b hb
  have htaken := ((h₁.run hr).diligent hfav a).twos p hhandled htwo hne
    ((hwithin a ha).trans hepoch.ge)
  -- An instance with a block keeps nothing back.
  rw [(((h₁.run hr).answers a).drained _ hblock).1] at htaken
  have hvote := (h₂.steps a).twoVote (h₂.ran a ha) htwo hne hblock
    (htaken.imp_right fun h => h.resolve_left List.not_mem_nil)
  rwa [Hist.twoVote, ((h₂.run (h₁.run hr)).facts a).name_eq, hepoch, hround, hauthor] at hvote

include hq in
/-- Two rounds after the `Finish` messages, every node has a leader and has sent a halt or a prevote
for it. -/
theorem led_of_finished (hwithin : Within A v.epoch s₂)
    (hrunning : ∀ a ∈ A, (s₂.nodes a).status ≠ .crashed)
    (hfinish : ∀ b ∈ A, ∃ f, (s₀.nodes b).Broadcast (.finish f) ∧ f.slot = v.slot b) (ha : a ∈ A) :
    ∃ m, (s₂.nodes a).Broadcast m ∧ m.isLead v = true := by
  have hr₁ := h₁.run hr
  have hr₂ := h₂.run hr₁
  -- In the first round the `Finish` messages are counted, and every node sends `Done` and share.
  have hsent : ∀ b ∈ A, (s₁.nodes b).Broadcast (.done ⟨b, v.epoch, v.round⟩) ∧
      (s₁.nodes b).Broadcast (.electShare ⟨b, v.epoch, v.round,
        S.requestTsSugnature b (S.electHash v)⟩) := by
    intro b hb
    have hvoters : A ⊆ (s₁.nodes b).core.voters v .finish := by
      refine h₁.subset_voters hr hA (h₂.within hwithin) (fun a ha => ?_) hb
      obtain ⟨f, hm, hslot⟩ := hfinish a ha
      obtain ⟨hepoch, hround, hauthor⟩ : f.epoch = v.epoch ∧ f.round = v.round ∧ f.author = a := by
        simpa [Finish.slot, View.slot] using hslot
      exact ⟨_, hm, rfl, by simp [Message.voteKey?, Finish.view, hepoch, hround, hauthor]⟩
    have hacted := ((hr₁.attentive hfav b).acted (hr₁.genuineShares b))
      ((h₂.steps b).not_crashed (hrunning b hb)) v (h₂.within hwithin b hb)
    have hdone := (hr₁.answers b).done v (hacted.finish (hq.trans (Finset.card_le_card hvoters)))
    rwa [(hr₁.facts b).name_eq] at hdone
  -- In the second round these are counted, and the leader is dealt with.
  have hacted := ((hr₂.attentive hfav a).acted (hr₂.genuineShares a)) (hrunning a ha) v
    (hwithin a ha)
  have hdones : A ⊆ (s₂.nodes a).core.voters v .done :=
    h₂.subset_voters hr₁ hA hwithin (fun b hb => ⟨_, (hsent b hb).1, rfl, rfl⟩) ha
  have hshares : A ⊆ (s₂.nodes a).core.voters v .electShare :=
    h₂.subset_voters hr₁ hA hwithin (fun b hb => ⟨_, (hsent b hb).2, rfl, rfl⟩) ha
  have hlength := ((hr₂.attentive hfav a).tossed (hr₂.genuineShares a) v).length_shares
  have hready := hacted.done (hq.trans (Finset.card_le_card hdones))
  have hleader := hacted.shares ((hq.trans (Finset.card_le_card hshares)).trans hlength.le)
  exact hacted.led hready hleader

include hq in
/-- Two rounds after the prevotes, every node has concluded the view. -/
theorem concluded_of_prevoted (hwithin : Within A v.epoch s₂)
    (hrunning : ∀ a ∈ A, (s₂.nodes a).status ≠ .crashed)
    (hprevote : ∀ b ∈ A, ∃ pv, (s₀.nodes b).Broadcast (.prevote pv) ∧ pv.view = v) (ha : a ∈ A) :
    Concluded (s₂.nodes a).broadcasts v := by
  have hr₁ := h₁.run hr
  have hr₂ := h₂.run hr₁
  -- In the first round the prevotes are counted: one is for yes, or a quorum is for no.
  have hvoted : ∀ b ∈ A, VotedOn (s₁.nodes b).broadcasts v := by
    intro b hb
    have hvoters : A ⊆ (s₁.nodes b).core.voters v .prevote := by
      refine h₁.subset_voters hr hA (h₂.within hwithin) (fun a ha => ?_) hb
      obtain ⟨pv, hm, rfl⟩ := hprevote a ha
      have hauthor : pv.author = a := hr.author_of_broadcast hm rfl
      exact ⟨_, hm, rfl, by simp [Message.voteKey?, hauthor]⟩
    have hacted := ((hr₁.attentive hfav b).acted (hr₁.genuineShares b))
      ((h₂.steps b).not_crashed (hrunning b hb)) v (h₂.within hwithin b hb)
    have hcard : S.quorum ≤ ((s₁.nodes b).core.aggreator.prevoteAggreator v).yesNums +
        ((s₁.nodes b).core.aggreator.prevoteAggreator v).noNums := by
      rw [← ((hr₁.facts b).counted.prevote v).card_eq]
      exact hq.trans (Finset.card_le_card hvoters)
    cases hflag : ((s₁.nodes b).core.aggreator.prevoteAggreator v).flag with
    | true => exact hacted.flag hflag
    | false =>
      have hzero := (hr₁.facts b).counted.flag v hflag
      refine hacted.noes ?_
      change S.quorum ≤ ((s₁.nodes b).core.aggreator.prevoteAggreator v).noNums
      omega
  -- In the second round the final votes are counted.
  have hvoters : A ⊆ (s₂.nodes a).core.voters v .finVote := by
    refine h₂.subset_voters hr₁ hA hwithin (fun b hb => ?_) ha
    obtain ⟨fv, hm, rfl⟩ := hvoted b hb
    have hauthor : fv.author = b := hr₁.author_of_broadcast hm rfl
    exact ⟨_, hm, rfl, by simp [Message.voteKey?, hauthor]⟩
  have hacted := ((hr₂.attentive hfav a).acted (hr₂.genuineShares a)) (hrunning a ha) v
    (hwithin a ha)
  refine hacted.finVotes ?_
  change S.quorum ≤ ((s₂.nodes a).core.aggreator.finvoteAggreator v).yesNums +
    ((s₂.nodes a).core.aggreator.finvoteAggreator v).noNums
  rw [← ((hr₂.facts a).counted.finVote v).card_eq]
  exact hq.trans (Finset.card_le_card hvoters)

end Stages

/-! ## A whole view -/

/-- The round of a proposal. -/
def Message.proposedRound? : Message → Option ℤ
  | .spbProposal p => some p.round
  | _ => none

/-- No list holds all natural numbers. -/
theorem not_forall_nat_mem (l : List ℤ) : ¬ ∀ n : ℕ, (n : ℤ) ∈ l := by
  intro h
  have hnodup : ((List.range (l.length + 1)).map Int.ofNat).Nodup :=
    List.nodup_range.map fun _ _ => Int.ofNat.inj
  have hsub : (List.range (l.length + 1)).map Int.ofNat ⊆ l := by
    intro z hz
    obtain ⟨n, -, rfl⟩ := List.mem_map.mp hz
    exact h n
  have hle := (hnodup.subperm hsub).length_le
  rw [List.length_map, List.length_range] at hle
  omega

/-- A node's epoch is never negative. -/
theorem Run.epoch_nonneg (hr : Run S ok s) (a : NodeID) : 0 ≤ (s.nodes a).core.epoch :=
  (hr.localRun a).invariant (I := fun x => 0 ≤ x.core.epoch) le_rfl
    fun _ hrule hz => hz.trans hrule.epoch_le

/-- A node is not past an epoch, if no halt of it was broadcast. -/
theorem Run.epoch_le (hr : Run S ok s) {e : ℤ} (he : 0 ≤ e)
    (hhalts : ∀ b ∈ S.committee.authorities, ∀ h, (s.nodes b).Broadcast (.halt h) → h.epoch < e)
    (a : NodeID) : (s.nodes a).core.epoch ≤ e := by
  rcases (hr.answers a).halts with hzero | ⟨h, hm, hsucc⟩
  · rwa [hzero]
  · obtain ⟨hauthor, hsent⟩ := hr.sent_of_handled hm
    have hbroadcast := ((hr.facts _).even.mem_iff rfl a).mp hsent
    have hlt := hhalts _ hauthor h hbroadcast
    have hle := succ64_le h.epoch
    omega

/-- No node falls behind by more than a round: after it, the nodes are in the epochs in which any
node was before it, or in later ones. -/
theorem epochs_catch_up (hfav : Favourable S ok) (hr : Run S ok s)
    (hround : AsyncRound S ok A s s') (hb : b ∈ A) (a : NodeID) :
    (s.nodes a).core.epoch ≤ (s'.nodes b).core.epoch := by
  have hnonneg := (hround.run hr).epoch_nonneg b
  exact hr.epoch_le hnonneg (fun c hc h hm => hround.past_halt hfav hr hb hc hm) a

/-- A node is in the next epoch, two others are not, and after a round in lockstep they are. -/
theorem epochs_catch_up_finished : ∃ s s' : Net, Run (demo 4 1) (Unhindered (demo 4 1)) s ∧
    AsyncRound (demo 4 1) (Unhindered (demo 4 1)) {0, 1, 2} s s' ∧
    (s.nodes 0).core.epoch = 0 ∧ (s.nodes 1).core.epoch = 1 ∧ (s.nodes 2).core.epoch = 0 ∧
    1 ≤ (s'.nodes 0).core.epoch ∧ 1 ≤ (s'.nodes 2).core.epoch := by
  obtain ⟨σ, hr, hrounds, hP⟩ := exists_rounds (demo 4 1) (Unhindered (demo 4 1)) [0, 1, 2]
    finishedRound 1 (fun nodes _ => decide ((nodes 0).core.epoch = 0 ∧ (nodes 1).core.epoch = 1 ∧
      (nodes 2).core.epoch = 0)) (by decide) (by decide +kernel)
  obtain ⟨hzero, hone, htwo⟩ := of_decide_eq_true hP
  have hround := hrounds 0 (by omega)
  have hcatch := fun b hb => epochs_catch_up (b := b) (demo_favourable 1) hr hround hb 1
  rw [hone] at hcatch
  exact ⟨σ 0, σ 1, hr, hround, hzero, hone, htwo, hcatch 0 (by decide), hcatch 2 (by decide)⟩

section View

variable (hfav : Favourable S ok) (hA : A ⊆ S.committee.authorities) (hq : S.quorum ≤ A.card)

include hfav hA hq

/-- Six rounds take every node from the blocks of a view to a `Finish` of its own. -/
theorem finished_of_blocks (σ : ℕ → Net) (hr : Run S ok (σ 0))
    (hrounds : ∀ i < 6, AsyncRound S ok A (σ i) (σ (i + 1))) (hwithin : Within A v.epoch (σ 5))
    (hblocks : HaveBlocks A v (σ 0)) (hb : b ∈ A) :
    ∃ f, ((σ 6).nodes b).Broadcast (.finish f) ∧ f.slot = v.slot b := by
  have h₀ := hrounds 0 (by omega)
  have h₁ := hrounds 1 (by omega)
  have h₂ := hrounds 2 (by omega)
  have h₃ := hrounds 3 (by omega)
  have h₄ := hrounds 4 (by omega)
  have h₅ := hrounds 5 (by omega)
  have hr₂ := h₁.run (h₀.run hr)
  have hr₄ := h₃.run (h₂.run hr₂)
  have hr₆ := h₅.run (h₄.run hr₄)
  have hwithin₃ := h₃.within (h₄.within hwithin)
  have hwithin₁ := h₁.within (h₂.within hwithin₃)
  have hblocks₁ := h₀.haveBlocks hblocks
  have hblocks₃ := h₂.haveBlocks (h₁.haveBlocks hblocks₁)
  have hblocks₅ := h₄.haveBlocks (h₃.haveBlocks hblocks₃)
  have hne : b ≠ NONE := fun hnone => S.committee.none_notMem (hnone ▸ hA hb)
  -- The first phase: a node with a block has voted for it.
  have hone : S.quorum ≤ (((σ 2).nodes b).core.spbInstances (v.slot b)).votes .one := by
    refine quorum_le_votes hfav hq hr h₀ h₁ hwithin₁ hblocks₁ hb fun a ha => ?_
    obtain ⟨d, hd⟩ := Option.ne_none_iff_exists'.mp (hblocks a ha b hb)
    have hvote := (hr.answers a).voted (v.slot b) d hne hd
    exact ⟨_, hvote, rfl, rfl, (hr.facts a).name_eq, hA ha⟩
  obtain ⟨p, hm, htwo, hslot⟩ := (hr₂.answers b).two (v.slot b) (hr₂.facts b).name_eq.symm hone
  -- The second phase.
  have htwos : S.quorum ≤ (((σ 6).nodes b).core.spbInstances (v.slot b)).votes .two := by
    refine quorum_le_votes hfav hq hr₄ h₄ h₅ hwithin hblocks₅ hb fun a ha => ?_
    have hvote := voted_two hfav hA hr₂ h₂ h₃ hwithin₃ hblocks₃ ha hb hm htwo hslot
    exact ⟨_, hvote, rfl, rfl, rfl, hA ha⟩
  exact (hr₆.answers b).finish (v.slot b) (hr₆.facts b).name_eq.symm htwos

/-- Twelve rounds after the proposals, the nodes have proposed for the next round, if one of them is
still within the epoch one round later. -/
theorem proposed_next (σ : ℕ → Net) (hr : Run S ok (σ 0))
    (hrounds : ∀ i < 13, AsyncRound S ok A (σ i) (σ (i + 1)))
    (hrunning : ∀ a ∈ A, ((σ 12).nodes a).status ≠ .crashed) (hreached : ReachedView A v (σ 0))
    (hown : OwnBlocks A v (σ 0)) (ha : a ∈ A) (hepoch : ((σ 13).nodes a).core.epoch ≤ v.epoch)
    (hb : b ∈ A) : ((σ 12).nodes b).Proposed ⟨v.epoch, v.round + 1⟩ := by
  have hrun : ∀ i ≤ 13, Run S ok (σ i) := by
    intro i hi
    induction i with
    | zero => exact hr
    | succ i ih => exact (hrounds i (by omega)).run (ih (by omega))
  -- No halt of the epoch was broadcast before the last round.
  have hhalts : ∀ b ∈ S.committee.authorities, ∀ h, ((σ 12).nodes b).Broadcast (.halt h) →
      h.epoch < v.epoch := by
    intro b hb h hm
    exact ((hrounds 12 (by omega)).past_halt hfav (hrun 12 (by omega)) ha hb hm).trans_le hepoch
  have hwithin : ∀ i ≤ 12, Within A v.epoch (σ (12 - i)) := by
    intro i hi
    induction i with
    | zero =>
      have hnonneg := (hrun 13 le_rfl).epoch_nonneg a
      exact fun c _ => (hrun 12 (by omega)).epoch_le (hnonneg.trans hepoch) hhalts c
    | succ i ih =>
      have hround := hrounds (12 - (i + 1)) (by omega)
      have hsucc : 12 - (i + 1) + 1 = 12 - i := by omega
      rw [hsucc] at hround
      exact hround.within (ih (by omega))
  have hproposed : ∀ b ∈ A, ((σ 0).nodes b).Proposed v :=
    fun b hb => (hreached b hb).resolve_left (not_lt.mpr (hwithin 12 le_rfl b hb))
  have hblocks : HaveBlocks A v (σ 2) := haveBlocks_of_proposed hfav hA hr (hrounds 0 (by omega))
    (hrounds 1 (by omega)) (hwithin 11 (by omega)) hproposed hown
  have hfinish := fun b hb => finished_of_blocks hfav hA hq (fun i => σ (i + 2))
    (hrun 2 (by omega)) (fun i hi => hrounds (i + 2) (by omega)) (hwithin 5 (by omega)) hblocks
    (b := b) hb
  -- A halt or a prevote was sent for the leader, and it was no halt.
  have hsteps : ∀ i ≤ 12, ∀ b, ((σ (12 - i)).nodes b).Steps S ((σ 12).nodes b) := by
    intro i hi b
    induction i with
    | zero => exact .refl
    | succ i ih =>
      have hround := hrounds (12 - (i + 1)) (by omega)
      have hsucc : 12 - (i + 1) + 1 = 12 - i := by omega
      rw [hsucc] at hround
      exact (hround.steps b).trans (ih (by omega))
  have hprevote : ∀ b ∈ A, ∃ pv, ((σ 10).nodes b).Broadcast (.prevote pv) ∧ pv.view = v := by
    intro b hb
    obtain ⟨m, hm, hlead⟩ := led_of_finished hfav hA hq (hrun 8 (by omega)) (hrounds 8 (by omega))
      (hrounds 9 (by omega)) (hwithin 2 (by omega))
      (fun c hc => (hsteps 2 (by omega) c).not_crashed (hrunning c hc)) hfinish hb
    cases m with
    | prevote pv => exact ⟨pv, hm, of_decide_eq_true hlead⟩
    | halt h =>
      have hlt := hhalts b (hA hb) h ((hsteps 2 (by omega) b).broadcast hm)
      obtain rfl := of_decide_eq_true hlead
      exact absurd hlt (lt_irrefl _)
    | _ => cases hlead
  rcases concluded_of_prevoted hfav hA hq (hrun 10 (by omega)) (hrounds 10 (by omega))
    (hrounds 11 (by omega)) (hwithin 0 (by omega)) hrunning hprevote hb with ⟨h, hm, hv⟩ | hp
  · have hlt := hhalts b (hA hb) h hm
    subst hv
    exact absurd hlt (lt_irrefl _)
  · exact hp

/-- A view takes thirteen rounds: after them, the nodes that have proposed for it are all past its
epoch, or all of them have proposed for the next round. -/
theorem view_latency {σ : ℕ → Net} (hr : Run S ok (σ 0))
    (hrounds : ∀ i < 13, AsyncRound S ok A (σ i) (σ (i + 1)))
    (hrunning : ∀ a ∈ A, ((σ 13).nodes a).status ≠ .crashed) (hreached : ReachedView A v (σ 0))
    (hown : OwnBlocks A v (σ 0)) :
    (∀ a ∈ A, v.epoch < ((σ 13).nodes a).core.epoch) ∨
      ∀ a ∈ A, ((σ 13).nodes a).Proposed ⟨v.epoch, v.round + 1⟩ := by
  have hlast := hrounds 12 (by omega)
  by_cases hall : ∀ a ∈ A, v.epoch < ((σ 13).nodes a).core.epoch
  · exact .inl hall
  · push Not at hall
    obtain ⟨a, ha, hepoch⟩ := hall
    refine .inr fun b hb => ?_
    obtain ⟨p, hm, hrest⟩ := proposed_next hfav hA hq σ hr hrounds
      (fun c hc => (hlast.steps c).not_crashed (hrunning c hc)) hreached hown ha hepoch hb
    exact ⟨p, (hlast.steps b).broadcast hm, hrest⟩

omit hfav hA hq in
/-- Three nodes of four in lockstep, in a view whose leader is the silent one: they are in the same
epoch in the end, and they have proposed for the next round. -/
theorem view_latency_silent : ∃ σ : ℕ → Net, Run (demo 4 3) (Unhindered (demo 4 3)) (σ 0) ∧
    (∀ i < 13, AsyncRound (demo 4 3) (Unhindered (demo 4 3)) {0, 1, 2} (σ i) (σ (i + 1))) ∧
    ReachedView {0, 1, 2} ⟨0, 0⟩ (σ 0) ∧ OwnBlocks {0, 1, 2} ⟨0, 0⟩ (σ 0) ∧
    ∀ a ∈ ({0, 1, 2} : Finset NodeID),
      ((σ 13).nodes a).core.epoch = 0 ∧ ((σ 13).nodes a).Proposed ⟨0, 1⟩ := by
  obtain ⟨σ, hr, hrounds, hP⟩ := exists_rounds (demo 4 3) (Unhindered (demo 4 3)) [0, 1, 2]
    [.start 0, .start 1, .start 2] 13
    (fun nodes nodes' => decide (∀ a ∈ ([0, 1, 2] : List NodeID).toFinset,
      (nodes a).broadcasts = demoStart a ∧ (nodes' a).core.epoch = 0 ∧
        (nodes' a).status ≠ .crashed)) (by decide) (by decide +kernel)
  have hnodes := of_decide_eq_true hP
  have hreached : ReachedView {0, 1, 2} ⟨0, 0⟩ (σ 0) :=
    fun a ha => .inr (proposed_of_demoStart (hnodes a ha).1)
  have hown := ownBlocks_of_demoStart (v := ⟨0, 0⟩) fun a ha => (hnodes a ha).1
  refine ⟨σ, hr, hrounds, hreached, hown, fun a ha => ⟨(hnodes a ha).2.1, ?_⟩⟩
  rcases view_latency (demo_favourable 3) (by decide) (by decide) hr hrounds
    (fun a ha => (hnodes a ha).2.2) hreached hown with hpast | hproposed
  · have hlt := hpast a ha
    rw [(hnodes a ha).2.1] at hlt
    exact absurd hlt (lt_irrefl 0)
  · exact hproposed a ha

/-- A quorum of running nodes that have proposed their own blocks is never at rest. -/
theorem never_at_rest (hr : Run S ok s) (hrunning : ∀ a ∈ A, (s.nodes a).status = .running)
    (hown : ∀ v, OwnBlocks A v s) : ¬ AtRest A s := by
  intro hrest
  -- One of the nodes is the last in its epoch.
  have hne : A.Nonempty := Finset.card_pos.mp (S.quorum_pos.trans_le hq)
  obtain ⟨a, ha, hmin⟩ := A.exists_min_image (fun a => (s.nodes a).core.epoch) hne
  -- At rest, it has proposed for every round of the epoch.
  have hreached : ∀ n : ℕ, ReachedView A ⟨(s.nodes a).core.epoch, n⟩ s := by
    intro n
    induction n with
    | zero =>
      intro b hb
      rcases (hmin b hb).lt_or_eq with hlt | heq
      · exact .inl hlt
      · rw [heq]
        exact .inr ((hr.answers b).first (hrunning b hb))
    | succ n ih =>
      intro b hb
      exact .inr (proposed_next hfav hA hq (fun _ => s) hr (fun _ _ => hrest.asyncRound hr)
        (fun c hc => by rw [hrunning c hc]; decide) ih (hown _) ha le_rfl hb)
  -- These are more proposals than it has sent.
  let rounds := (s.nodes a).broadcasts.filterMap Message.proposedRound?
  have hmem : ∀ n : ℕ, (n : ℤ) ∈ rounds := by
    intro n
    obtain ⟨p, hm, -, hv⟩ := (hreached n a ha).resolve_left (lt_irrefl _)
    refine List.mem_filterMap.mpr ⟨_, hm, ?_⟩
    exact congrArg some (congrArg View.round hv)
  exact not_forall_nat_mem rounds hmem

omit hfav hA hq in
/-- Three nodes of four that have started. -/
theorem never_at_rest_started : ∃ s : Net, Run (demo 4 3) (Unhindered (demo 4 3)) s ∧
    (∀ a ∈ ({0, 1, 2} : Finset NodeID), (s.nodes a).status = .running) ∧
    (∀ v, OwnBlocks {0, 1, 2} v s) ∧ ¬ AtRest {0, 1, 2} s := by
  obtain ⟨s, hr, hP⟩ := exists_run (demo 4 3) (Unhindered (demo 4 3)) [0, 1, 2]
    [.start 0, .start 1, .start 2] (fun nodes => decide (∀ a ∈ ([0, 1, 2] : List NodeID).toFinset,
      (nodes a).broadcasts = demoStart a ∧ (nodes a).status = .running)) (by decide)
    (by decide +kernel)
  have hnodes := of_decide_eq_true hP
  have hown := fun v => ownBlocks_of_demoStart (v := v) fun a ha => (hnodes a ha).1
  exact ⟨s, hr, fun a ha => (hnodes a ha).2, hown, never_at_rest (demo_favourable 3) (by decide)
    (by decide) hr (fun a ha => (hnodes a ha).2) hown⟩

end View

end SMVBA
