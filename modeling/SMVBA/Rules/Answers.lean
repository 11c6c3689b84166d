import SMVBA.Rules.Facts

/-!
# What a node has sent for what it has

The other direction of `SpbSent` and of `Causes`: there, a message that was sent has its cause in
the state of the node, and here, a state that calls for a message has seen it sent. An instance with
a block has voted for it and keeps nothing back. An instance whose count of a phase has passed the
quorum has been answered for, whatever was counted after it. A view whose `Done` flag is set has its
`Done` and its share sent, and a running node has proposed a block for its epoch.
-/

namespace SMVBA

variable {S : Setup} {env : Env} {i : Input} {name : NodeID} {x0 x y : Hist} {ok : Cond}

/-- The epoch after an epoch is not later than its successor. -/
theorem succ64_le (e : ℤ) : succ64 e ≤ e + 1 := by
  unfold succ64
  split_ifs with he
  · rw [he]
    decide
  · exact le_rfl

/-- The filter lets a message of the node's epoch or a later one pass. -/
theorem messgaeFilter_of_le {c : Core} {e : ℤ} (he : c.epoch ≤ e) :
    ¬ c.messgaeFilter e = true := by
  simpa [Core.messgaeFilter] using he

theorem Hist.step_epoch_le {outs : List Output} (h : x.step S env i = some (y, outs)) :
    x.core.epoch ≤ y.core.epoch :=
  step_invariant (I := fun z => x.core.epoch ≤ z.core.epoch)
    (fun hrule hz => hz.trans hrule.epoch_le) h le_rfl

/-! ## Broadcasts -/

/-- What was broadcast stays on record. -/
theorem Rule.mem_broadcasts (h : Rule S env i x0 x y) {m : Message} (hm : x.Broadcast m) :
    y.Broadcast m := by
  obtain ⟨outs, heq, -⟩ := h.evenOutputs
  unfold Hist.Broadcast Hist.broadcasts at hm ⊢
  rw [heq, List.filterMap_append]
  exact List.mem_append_left _ hm

/-- What was let out for an addressee stays on record. -/
theorem Rule.mem_sentTo (h : Rule S env i x0 x y) {d : NodeID} {m : Message}
    (hm : m ∈ x.sentTo d) : m ∈ y.sentTo d := by
  obtain ⟨new, -, heq⟩ := h.sends d
  rw [heq]
  exact List.mem_append_left _ hm

/-- The broadcasts after further outputs. -/
theorem broadcast_of_out {outs : List Output} (hy : y.out = x.out ++ outs) {m : Message}
    (hm : m ∈ outs.filterMap Output.broadcast?) : y.Broadcast m := by
  unfold Hist.Broadcast Hist.broadcasts
  rw [hy, List.filterMap_append]
  exact List.mem_append_right _ hm

/-- A message that is broadcast. -/
theorem mem_broadcast (m : Message) : m ∈ (broadcast m).filterMap Output.broadcast? :=
  List.mem_singleton_self m

/-- A vote reaches the proposer that it names. -/
theorem mem_sendVote {c : Core} {v : SPBVote} (hv : v.proposer ≠ NONE) :
    .spbVote v ∈ (c.sendVote v).filterMap (Output.sentTo c.name v.proposer) := by
  unfold Core.sendVote
  split_ifs with hname
  · simp [Output.sentTo, hv]
  · have hself : v.proposer = c.name := (not_not.mp hname).symm
    simp [Output.sentTo, hself]

/-! ## The invariant -/

/-- A phase-one proposal of a view was broadcast. -/
def Hist.Proposed (x : Hist) (v : View) : Prop :=
  ∃ p, x.Broadcast (.spbProposal p) ∧ p.phase = .one ∧ p.view = v

/-- What a node has sent for what it has counted and set. -/
structure Answers (S : Setup) (x : Hist) : Prop where
  drained : ∀ t, (x.core.spbInstances t).blockHash ≠ none →
    (x.core.spbInstances t).unHandleProposal = [] ∧ (x.core.spbInstances t).unHandleVote = []
  voted : ∀ t d, t.node ≠ NONE → (x.core.spbInstances t).blockHash = some d →
    .spbVote ⟨x.core.name, t.node, d, t.epoch, t.round, .one⟩ ∈ x.sentTo t.node
  two : ∀ t, t.node = x.core.name → S.quorum ≤ (x.core.spbInstances t).votes .one →
    ∃ p, x.Broadcast (.spbProposal p) ∧ p.phase = .two ∧ p.slot = t
  finish : ∀ t, t.node = x.core.name → S.quorum ≤ (x.core.spbInstances t).votes .two →
    ∃ f, x.Broadcast (.finish f) ∧ f.slot = t
  done : ∀ v, x.core.doneFlags v = true → x.Broadcast (.done ⟨x.core.name, v.epoch, v.round⟩) ∧
    x.Broadcast (.electShare ⟨x.core.name, v.epoch, v.round,
      S.requestTsSugnature x.core.name (S.electHash v)⟩)
  first : x.status = .running → x.Proposed ⟨x.core.epoch, 0⟩
  halts : x.core.epoch = 0 ∨ ∃ h, .halt h ∈ x.handled ∧ succ64 h.epoch = x.core.epoch

theorem Answers.init (S : Setup) (name : NodeID) : Answers S (Hist.init name) where
  drained t h := absurd rfl h
  voted t d _ h := by cases h
  two t _ h := by
    have hpos := S.quorum_pos
    have hzero : ((Hist.init name).core.spbInstances t).votes .one = 0 := rfl
    omega
  finish t _ h := by
    have hpos := S.quorum_pos
    have hzero : ((Hist.init name).core.spbInstances t).votes .two = 0 := rfl
    omega
  done v h := by cases h
  first h := by cases h
  halts := .inl rfl

theorem Hist.Proposed.rule (h : Rule S env i x0 x y) {v : View} (hx : x.Proposed v) :
    y.Proposed v := by
  obtain ⟨p, hm, hrest⟩ := hx
  exact ⟨p, h.mem_broadcasts hm, hrest⟩

/-- A count that has passed the quorum has been answered, at the vote that completed it. -/
theorem Rule.answer_votes (h : Rule S env i x0 x y) {t : Slot} {ph : Phase} {B : Hist → Prop}
    (hstays : B x → B y) (hq : S.quorum ≤ (y.core.spbInstances t).votes ph)
    (hold : S.quorum ≤ (x.core.spbInstances t).votes ph → B x)
    (hnew : ∀ (v : SPBVote) (d : Digest), v.slot = t → v.phase = ph →
      y.out = x.out ++ x.core.voteOutput S v d S.quorum → B y) : B y := by
  by_cases hbefore : S.quorum ≤ (x.core.spbInstances t).votes ph
  · exact hstays (hold hbefore)
  have hsame : (y.core.spbInstances t).votes ph = (x.core.spbInstances t).votes ph → B y :=
    fun heq => absurd (heq ▸ hq) hbefore
  have hset : ∀ {u : Slot} {spb : SPB}, y.core.spbInstances = (x.core.setSpb u spb).spbInstances →
      spb.votes = (x.core.spbInstances u).votes → B y := by
    intro u spb hy hvotes
    refine hsame ?_
    rw [hy]
    by_cases hu : t = u
    · rw [hu, setSpb_self, hvotes]
    · rw [setSpb_of_ne hu]
  cases h with
  | countVote v d ht hb =>
    by_cases hv : v.slot = t ∧ v.phase = ph
    · obtain ⟨rfl, rfl⟩ := hv
      rw [setSpb_self] at hq
      have hcount : (x.core.spbInstances v.slot).votes v.phase + 1 = S.quorum := by
        simp only [Function.update_self] at hq
        omega
      refine hnew v d rfl rfl ?_
      rw [hcount]
    · refine hsame ?_
      by_cases hslot : t = v.slot
      · have hph : ph ≠ v.phase := fun he => hv ⟨hslot.symm, he.symm⟩
        rw [hslot, setSpb_self]
        exact Function.update_of_ne hph _ _
      · rw [setSpb_of_ne hslot]
  | voteOne p hi hp ht hb ha => exact hset rfl rfl
  | keepTwo p hp ht hb => exact hset rfl rfl
  | voteTwo p d hi hp ht hx hb => exact hset rfl rfl
  | keepVote v ht hb => exact hset rfl rfl
  | _ => exact hsame rfl

theorem Answers.rule (h : Rule S env i x0 x y) (hx : Answers S x) : Answers S y where
  drained t hb := by
    cases h.spbChange t with
    | accept p hp ht hs ha hn heq => simp [heq]
    | keepTwo p hp ht hs hn heq => simp [heq, hn] at hb
    | keepVote v ht hs hn heq => simp [heq, hn] at hb
    | same heq | lock _ _ _ _ _ _ heq | count _ _ _ _ _ heq =>
      rw [heq] at hb ⊢
      exact hx.drained t hb
  voted t d hnode hb := by
    rw [h.name_eq]
    have hold : (x.core.spbInstances t).blockHash = some d →
        .spbVote ⟨x.core.name, t.node, d, t.epoch, t.round, .one⟩ ∈ y.sentTo t.node :=
      fun hb => h.mem_sentTo (hx.voted t d hnode hb)
    have hset : ∀ {u : Slot} {spb : SPB},
        y.core.spbInstances = (x.core.setSpb u spb).spbInstances →
        spb.blockHash = (x.core.spbInstances u).blockHash →
        .spbVote ⟨x.core.name, t.node, d, t.epoch, t.round, .one⟩ ∈ y.sentTo t.node := by
      intro u spb hy hsame
      refine hold ?_
      rw [hy] at hb
      by_cases hu : t = u
      · subst hu
        rwa [setSpb_self, hsame] at hb
      · rwa [setSpb_of_ne hu] at hb
    cases h with
    | voteOne p hi hp ht hn ha =>
      by_cases hs : t = p.slot
      · -- The vote goes out with the block.
        subst hs
        rw [setSpb_self] at hb
        cases hb
        unfold Hist.sentTo
        dsimp only [Core.setSpb]
        rw [List.filterMap_append, List.filterMap_append, List.filterMap_append]
        refine List.mem_append_right _ (List.mem_append_left _ (List.mem_append_left _ ?_))
        exact mem_sendVote (v := ⟨_, p.author, _, p.epoch, p.round, .one⟩) hnode
      · rw [setSpb_of_ne hs] at hb
        exact hold hb
    | keepTwo p hp ht hn => exact hset rfl rfl
    | voteTwo p d' hi hp ht hx0 hb' => exact hset rfl rfl
    | keepVote v ht hn => exact hset rfl rfl
    | countVote v d' ht hb' => exact hset rfl rfl
    | _ => exact hold hb
  two t hnode hq := by
    rw [h.name_eq] at hnode
    refine h.answer_votes (B := fun z => ∃ p, z.Broadcast (.spbProposal p) ∧ p.phase = .two ∧
      p.slot = t) ?_ hq (hx.two t hnode) ?_
    · rintro ⟨p, hm, hrest⟩
      exact ⟨p, h.mem_broadcasts hm, hrest⟩
    · intro v d hslot hph hout
      simp only [Core.voteOutput, if_true, hph] at hout
      refine ⟨_, broadcast_of_out hout (mem_broadcast _), rfl, ?_⟩
      rw [← hslot, SPBProposal.slot, SPBVote.slot]
      have hproposer : v.proposer = x.core.name := by
        rw [← hnode, ← hslot]
        rfl
      rw [hproposer]
  finish t hnode hq := by
    rw [h.name_eq] at hnode
    refine h.answer_votes (B := fun z => ∃ f, z.Broadcast (.finish f) ∧ f.slot = t) ?_ hq
      (hx.finish t hnode) ?_
    · rintro ⟨f, hm, hrest⟩
      exact ⟨f, h.mem_broadcasts hm, hrest⟩
    · intro v d hslot hph hout
      simp only [Core.voteOutput, if_true, hph] at hout
      refine ⟨_, broadcast_of_out hout (mem_broadcast _), ?_⟩
      rw [← hslot, Finish.slot, SPBVote.slot]
      have hproposer : v.proposer = x.core.name := by
        rw [← hnode, ← hslot]
        rfl
      rw [hproposer]
  done v hv := by
    rw [h.name_eq]
    have hold : x.core.doneFlags v = true → _ := fun hd =>
      (hx.done v hd).imp h.mem_broadcasts h.mem_broadcasts
    cases h with
    | doneShare w hd hc =>
      dsimp only at hv
      by_cases hw : v = w
      · subst hw
        exact ⟨broadcast_of_out rfl (by simp [Output.broadcast?]),
          broadcast_of_out rfl (by simp [Output.broadcast?])⟩
      · rw [Function.update_of_ne hw] at hv
        exact hold hv
    | _ => exact hold hv
  first hs := by
    have hold : x.status = .running → y.Proposed ⟨x.core.epoch, 0⟩ :=
      fun hs => (hx.first hs).rule h
    cases h with
    | haltNext ht k outs hi hr hh hx0 he hf ho hlt =>
      refine ⟨⟨x.core.name, x.core.generatorBlock env (succ64 ht.epoch), succ64 ht.epoch, 0, .one⟩,
        broadcast_of_out rfl ?_, rfl, rfl⟩
      rw [List.filterMap_append, List.filterMap_cons]
      exact List.mem_append_right _ (mem_broadcast _)
    | start hidle =>
      refine ⟨⟨x.core.name, x.core.generatorBlock env x.core.epoch, x.core.epoch, 0, .one⟩,
        broadcast_of_out rfl ?_, rfl, rfl⟩
      rw [List.filterMap_cons]
      exact mem_broadcast _
    | crash => cases hs
    | _ => exact hold hs
  halts := by
    have hold : x.core.epoch = 0 ∨
        ∃ ht, .halt ht ∈ y.handled ∧ succ64 ht.epoch = x.core.epoch := by
      rcases hx.halts with hzero | ⟨ht, hm, he⟩
      · exact .inl hzero
      · exact .inr ⟨ht, h.mem_handled hm, he⟩
    cases h with
    | haltNext ht k outs hi hr hh hx0 he hf ho hlt => exact .inr ⟨ht, hh, rfl⟩
    | _ => exact hold

theorem LocalRun.answers (hr : LocalRun S ok name x) : Answers S x :=
  hr.invariant (Answers.init S name) fun _ h hz => hz.rule h

end SMVBA
