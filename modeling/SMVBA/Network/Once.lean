import SMVBA.Network.Certificates

/-!
# At most one message of a kind in a view

A node proposes, finishes, and releases its share of the coin at most once in a view, and creates at
most one block for an epoch. Each rests on something else. `Done` and the share are guarded by a
flag that is set when they are sent. A `Finish` and a phase-two proposal are sent when a counter of
an instance reaches the quorum, which it passes once, and the node counts votes of its own instance
only. The phase-one proposals and the blocks rest on the epochs, which only grow, and on the one
vote that completes the quorum of final votes.
-/

namespace SMVBA

open MessagePassing

variable {S : Setup} {ok : Cond} {env : Env} {i : Input} {x0 x y : Hist} {s : Net} {name : NodeID}

/-- The kinds of messages that a node broadcasts at most once in a view. -/
inductive ViewKind where
  | one
  | two
  | finish
  | done
  | share
deriving DecidableEq, Repr

/-- Whether a message is of the kind, and of the view. -/
def Message.inView (v : View) : ViewKind → Message → Bool
  | .one, .spbProposal p => p.phase = .one ∧ p.view = v
  | .two, .spbProposal p => p.phase = .two ∧ p.view = v
  | .finish, .finish f => f.view = v
  | .done, .done d => d.view = v
  | .share, .electShare s => s.view = v
  | _, _ => false

theorem Message.inView_isBroadcast {v : View} {k : ViewKind} {m : Message}
    (h : m.inView v k = true) : m.isBroadcast = true := by
  cases m <;> cases k <;> first | rfl | cases h

/-! ## Flags -/

/-- A flag of `DoneFlags` stays set. -/
theorem Rule.doneFlags (h : Rule S env i x0 x y) {v : View} (hv : x.core.doneFlags v = true) :
    y.core.doneFlags v = true := by
  cases h with
  | doneShare w hd hc =>
    by_cases hw : v = w
    · rw [hw]
      exact Function.update_self ..
    · exact (Function.update_of_ne hw ..).trans hv
  | _ => exact hv

/-- A `Done` and a share are sent once at most, when the flag of their view is set. -/
def DonesSent (x : Hist) : Prop :=
  ∀ d v k, k = .done ∨ k = .share →
    (x.sentTo d).countP (Message.inView v k) ≤ (x.core.doneFlags v).toNat

theorem DonesSent.rule (h : Rule S env i x0 x y) (hx : DonesSent x) : DonesSent y := by
  intro d v k hk
  have hold := hx d v k hk
  obtain ⟨new, hnew, heq⟩ := h.sends d
  rw [heq, List.countP_append]
  -- `Done` and share go out together, and only while the flag of the view is not set.
  have hcount : new.countP (Message.inView v k) = 0 ∨
      (new.countP (Message.inView v k) = 1 ∧ x.core.doneFlags v = false ∧
        y.core.doneFlags v = true) := by
    cases hnew with
    | doneShare w hd hy hc =>
      by_cases hw : w = v
      · subst hw
        refine .inr ⟨?_, hd, hy⟩
        rcases hk with rfl | rfl <;>
          simp [Message.inView, Done.view, ElectShare.view]
      · refine .inl ?_
        have hview : (⟨w.epoch, w.round⟩ : View) ≠ v := hw
        rcases hk with rfl | rfl <;>
          simp [Message.inView, Done.view, ElectShare.view, hview]
    | leader w outs he ho hc =>
      exact .inl (ho.countP_eq_zero (by rcases hk with rfl | rfl <;> exact fun _ => rfl)
        (by rcases hk with rfl | rfl <;> exact fun _ => rfl))
    | _ => exact .inl (by rcases hk with rfl | rfl <;> simp [Message.inView])
  rcases hcount with hz | ⟨hz, hbefore, hafter⟩
  · -- Nothing is added, and the flag is not taken back.
    have hmono : (x.core.doneFlags v).toNat ≤ (y.core.doneFlags v).toNat :=
      Bool.toNat_le_toNat fun hv => h.doneFlags hv
    omega
  · rw [hbefore] at hold
    rw [hafter]
    simp only [Bool.toNat_false, Bool.toNat_true] at hold ⊢
    omega

/-! ## Counters -/

/-- A node that counts the votes of its own instances only sends a `Finish` once at most in a view,
when the second counter of its instance reaches the quorum. -/
def FinishesSent (S : Setup) (x : Hist) : Prop :=
  (∀ v, .spbVote v ∈ x.handled → v.proposer = x.core.name) →
    ∀ d v, (x.sentTo d).countP (Message.inView v .finish) ≤
      if S.quorum ≤ (x.core.spbInstances (v.slot x.core.name)).votes .two then 1 else 0

theorem FinishesSent.rule (h : Rule S env i x0 x y) (hprov : Provenance S x)
    (hx : FinishesSent S x) : FinishesSent S y := by
  intro hown d v
  rw [h.name_eq] at hown ⊢
  have hbefore : ∀ w, .spbVote w ∈ x.handled → w.proposer = x.core.name :=
    fun w hw => hown w (h.mem_handled hw)
  have hold := hx hbefore d v
  have hle := h.votes_le (v.slot x.core.name) .two
  obtain ⟨new, hnew, heq⟩ := h.sends d
  rw [heq, List.countP_append]
  have hcount : new.countP (Message.inView v .finish) = 0 ∨
      (new.countP (Message.inView v .finish) = 1 ∧
        (x.core.spbInstances (v.slot x.core.name)).votes .two + 1 = S.quorum ∧
        (y.core.spbInstances (v.slot x.core.name)).votes .two = S.quorum) := by
    cases hnew with
    | finish w dg ht hp hb hq hy =>
      -- The vote was taken from the channel, and so is for an instance of the node's own.
      have hslot : w.slot = (⟨w.epoch, w.round⟩ : View).slot x.core.name := by
        have hproposer := hbefore w (hprov.vote w ht)
        simp [SPBVote.slot, View.slot, hproposer]
      by_cases hv : (⟨w.epoch, w.round⟩ : View) = v
      · subst hv
        rw [hslot] at hq hy
        exact .inr ⟨by simp [Message.inView, Finish.view], hq, hy⟩
      · exact .inl (by simp [Message.inView, Finish.view, hv])
    | leader w outs he ho hc => exact .inl (ho.countP_eq_zero (fun _ => rfl) fun _ => rfl)
    | _ => exact .inl (by simp [Message.inView])
  rcases hcount with hz | ⟨hz, hbefore, hafter⟩
  · split_ifs at hold ⊢ <;> omega
  · rw [if_neg (by omega)] at hold
    rw [if_pos hafter.ge]
    omega

/-! ## Blocks -/

/-- The blocks that a node has created are of different epochs, position by position. -/
theorem Rule.created_nodup (h : Rule S env i x0 x y) (ha : S.absent = .other) (hc : Created x)
    (hx : (x.created.map ConsensusBlock.epoch).Nodup) :
    (y.created.map ConsensusBlock.epoch).Nodup := by
  rcases h.created_cases ha with heq | ⟨b, heq, -, -, -, hnew⟩
  · rwa [heq]
  · have hfresh : b.epoch ∉ x.created.map ConsensusBlock.epoch := by
      intro hmem
      obtain ⟨b', hb', he⟩ := List.mem_map.mp hmem
      rcases hnew with ⟨hlt, -⟩ | hidle
      · have := (hc.block b' hb').2
        omega
      · rw [hc.idle hidle] at hb'
        cases hb'
    rw [heq, List.map_append, List.map_singleton]
    exact List.nodup_append.mpr ⟨hx, List.nodup_singleton _, by simpa using hfresh⟩

/-! ## Runs -/

/-- What holds of a node on its own. -/
theorem LocalRun.once (ha : S.absent = .other) (hr : LocalRun S ok name x) :
    DonesSent x ∧ FinishesSent S x ∧ (x.created.map ConsensusBlock.epoch).Nodup := by
  refine (hr.invariant (I := fun z => (Facts S name z ∧ Created z) ∧
    DonesSent z ∧ FinishesSent S z ∧
    (z.created.map ConsensusBlock.epoch).Nodup) ?_ ?_).2
  · refine ⟨⟨Facts.init S name, Created.init name⟩, ?_, ?_, ?_⟩
    · intro d v k hk
      simp [Hist.sentTo, Hist.init]
    · intro hown d v
      simp [Hist.sentTo, Hist.init]
    · simp [Hist.created, Hist.init]
  · rintro env i x0 z z' - h ⟨⟨hf, hc⟩, hd, hfin, hn⟩
    exact ⟨⟨hf.rule h, hc.rule h ha⟩, hd.rule h, hfin.rule h hf.provenance,
      h.created_nodup ha hc hn⟩

section Network

variable (ha : S.absent = .other) (hr : Run S ok s)

include ha hr

/-- A node sends at most one phase-two proposal in a view. -/
theorem Run.countP_two_sent_le (q d : NodeID) (v : View) :
    ((s.nodes q).sentTo d).countP (Message.inView v .two) ≤ 1 := by
  -- Behind each of them is a quorum of votes for an instance of the node's own.
  have hown : ((s.nodes q).sentTo d).countP (Message.inView v .two) ≤
      ((s.nodes q).sentTo d).countP (Message.isTwo v q) := by
    refine List.countP_mono_left fun m hm hp => ?_
    cases m with
    | spbProposal p =>
      obtain ⟨htwo, rfl⟩ := of_decide_eq_true hp
      have hvotes := (hr.facts q).sent.two d p hm htwo
      have hnode := hr.votes_own ha (lt_of_lt_of_le S.quorum_pos hvotes)
      simpa [Message.isTwo, htwo, View.slot] using hnode
    | _ => cases hp
  have hcount := (hr.facts q).twosSent d v q
  split_ifs at hcount <;> omega

/-- Every node broadcasts at most one message of each kind in a view, and calls `generatorBlock` at
most once for an epoch. -/
theorem broadcasts_once (q : NodeID) :
    (∀ v k, (s.nodes q).broadcasts.countP (Message.inView v k) ≤ 1) ∧
      ∀ e, (s.nodes q).created.countP (fun b => b.epoch = e) ≤ 1 := by
  obtain ⟨hdones, hfinishes, hcreated⟩ := (hr.localRun q).once ha
  constructor
  · intro v k
    rw [(hr.facts q).even.countP_broadcasts (f := Message.inView v k)
      (fun m hm => Message.inView_isBroadcast hm) q]
    cases k with
    | one =>
      have hkind : Message.inView v .one = Message.isOne v := funext fun m => by cases m <;> rfl
      rw [hkind]
      exact hr.countP_one_le ha q v
    | two => exact hr.countP_two_sent_le ha q q v
    | finish =>
      -- A node counts only the votes for its own instance, so that it finishes no other.
      have hown : ∀ w, .spbVote w ∈ (s.nodes q).handled → w.proposer = (s.nodes q).core.name := by
        intro w hw
        rw [(hr.facts q).name_eq]
        exact hr.vote_proposer ha hw
      have hle := hfinishes hown q v
      split_ifs at hle <;> omega
    | done => exact (hdones q v .done (.inl rfl)).trans (Bool.toNat_le _)
    | share => exact (hdones q v .share (.inr rfl)).trans (Bool.toNat_le _)
  · intro e
    calc (s.nodes q).created.countP (fun b => b.epoch = e)
        = ((s.nodes q).created.map ConsensusBlock.epoch).count e := by
          rw [List.count, List.countP_map]
          exact List.countP_congr fun b _ => by simp
      _ ≤ 1 := List.nodup_iff_count_le_one.mp hcreated e

end Network

/-- In the round of `votedRound`, node `1` has broadcast one message of each kind. -/
theorem broadcasts_once_voted : ∃ s : Net, Run (demo 4 0) Always s ∧
    (∀ k, (s.nodes 1).broadcasts.countP (Message.inView ⟨0, 0⟩ k) = 1) ∧
      (s.nodes 1).created.countP (fun b => b.epoch = 0) = 1 := by
  obtain ⟨s, hr, hs⟩ := exists_run (demo 4 0) Always [0, 1, 2, 3] (votedRound 0 1 2 3)
    (fun nodes => decide ((∀ k ∈ [ViewKind.one, .two, .finish, .done, .share],
      0 < (nodes 1).broadcasts.countP (Message.inView ⟨0, 0⟩ k)) ∧
        0 < (nodes 1).created.countP fun b => b.epoch = 0))
    (by decide) (by decide +kernel)
  obtain ⟨hmsgs, hblocks⟩ := of_decide_eq_true hs
  obtain ⟨hkinds, hepochs⟩ := broadcasts_once rfl hr 1
  refine ⟨s, hr, fun k => le_antisymm (hkinds ⟨0, 0⟩ k) ?_, le_antisymm (hepochs 0) hblocks⟩
  exact hmsgs k (by cases k <;> decide)

end SMVBA
