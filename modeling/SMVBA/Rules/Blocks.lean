import SMVBA.Rules.Locals

/-!
# Blocks and proposals

A node creates one block when it starts and one whenever it enters a new epoch, and proposes it in
round zero. The proposals of later rounds carry blocks of the store, as long as the database does
not answer with `store.ErrNotFoundKey`: a node that gets that answer creates one more block for its
epoch, which is why the results of this module ask for the other answer. Where they are about later
rounds, they ask for `Regular` steps too, in which a round has a next one and a look-up that finds a
block finds a consensus block.
-/

namespace SMVBA

variable {S : Setup} {env : Env} {i : Input} {x0 x y : Hist}

/-- Epochs only grow. -/
theorem Rule.epoch_le (h : Rule S env i x0 x y) : x.core.epoch ≤ y.core.epoch := by
  cases h with
  | haltNext h k outs hi hr hh hx he hf ho hs => exact hs.le
  | _ => exact le_rfl

/-- A node that is still idle was idle. -/
theorem Rule.idle_of_idle (h : Rule S env i x0 x y) (hs : y.status = .idle) : x.status = .idle := by
  cases h with
  | start _ => cases hs
  | crash => cases hs
  | _ => exact hs

/-! ## Created blocks -/

/-- The block that an output announces. -/
def Output.created? : Output → Option ConsensusBlock
  | .create b => some b
  | _ => none

/-- The blocks that a node has created. -/
def Hist.created (x : Hist) : List ConsensusBlock := x.out.filterMap Output.created?

/-- What a node created can be read off the outputs that stayed in it. -/
theorem created_eq (x : Hist) : x.created = x.locals.filterMap Output.created? :=
  (filterMap_locals (by rintro (_ | _) <;> simp [Output.stays, Output.created?]) x).symm

/-- `handleOutput` creates nothing. -/
theorem HaltOut.created {c : Core} {d : Digest} {k : Committor} {outs : List Output}
    (h : HaltOut S env c d k outs) : outs.filterMap Output.created? = [] := by
  cases h with
  | commit b hb hm => simp [List.filterMap_map, Function.comp_def, Output.created?]
  | sync b hb hm => rfl
  | absent hb ha => rfl

/-- What a rule adds to the created blocks is made of the payloads that the mempool has handed out,
for an epoch that is not over. -/
theorem Rule.created_append (h : Rule S env i x0 x y) :
    ∃ new, y.created = x.created ++ new ∧ ∀ b ∈ new,
      b.proposer = x.core.name ∧ b.payLoads = env.payloads ∧ y.core.epoch ≤ b.epoch := by
  obtain ⟨new, hnew, heq⟩ := h.locals
  refine ⟨new.filterMap Output.created?, ?_, ?_⟩
  · rw [created_eq, created_eq, heq, List.filterMap_append]
  · intro b hb
    cases hnew with
    | none hk => cases hb
    | sync p hp ho hm hk => cases hb
    | late p hp ho hx hh hl hm hk =>
      simp [List.filterMap_map, Function.comp_def, Output.created?] at hb
    | haltStay h outs hi hx he hf ho hd =>
      rw [ho.created] at hb
      cases hb
    | haltNext h outs hi hx he hf ho hd hlt hr hr' =>
      rw [List.filterMap_append, ho.created] at hb
      obtain rfl := List.mem_singleton.mp hb
      exact ⟨rfl, rfl, le_rfl⟩
    | start hs hs' he hk =>
      obtain rfl := List.mem_singleton.mp hb
      exact ⟨rfl, rfl, le_rfl⟩
    | again ha e hk he hy =>
      obtain rfl := List.mem_singleton.mp hb
      exact ⟨rfl, rfl, hy.trans_le he⟩

/-- Only a rule that finds the step at its beginning changes the epoch. -/
theorem Rule.epoch_eq (h : Rule S env i x0 x y) :
    y.core.epoch = x.core.epoch ∨ Untouched x0 x := by
  cases h with
  | haltNext h k outs hi hr hh hx he hf ho hs => exact .inr hx
  | _ => exact .inl rfl

/-- The blocks that a step creates. -/
theorem Hist.step_created {outs : List Output} (h : x.step S env i = some (y, outs)) :
    y.created = x.created ++ outs.filterMap Output.created? ∧ ∀ b, .create b ∈ outs →
      b.proposer = x.core.name ∧ b.payLoads = env.payloads ∧ y.core.epoch ≤ b.epoch := by
  have happend : y.created = x.created ++ outs.filterMap Output.created? := by
    unfold Hist.created
    rw [Hist.step_out h, List.filterMap_append]
  refine ⟨happend, ?_⟩
  -- The same, rule by rule: what is created so far is of an epoch that is not over.
  have hrules : y.core.name = x.core.name ∧ ∃ new, y.created = x.created ++ new ∧ ∀ b ∈ new,
      b.proposer = x.core.name ∧ b.payLoads = env.payloads ∧ y.core.epoch ≤ b.epoch := by
    refine step_invariant (I := fun z => z.core.name = x.core.name ∧ ∃ new,
      z.created = x.created ++ new ∧ ∀ b ∈ new, b.proposer = x.core.name ∧
        b.payLoads = env.payloads ∧ z.core.epoch ≤ b.epoch) ?_ h ⟨rfl, [], by simp⟩
    rintro z z' hrule ⟨hname, new, heq, hnew⟩
    refine ⟨hrule.name_eq.trans hname, ?_⟩
    obtain ⟨new', heq', hnew'⟩ := hrule.created_append
    refine ⟨new ++ new', by rw [heq', heq, List.append_assoc], fun b hb => ?_⟩
    rcases List.mem_append.mp hb with hb | hb
    · obtain ⟨hp, hl, he⟩ := hnew b hb
      refine ⟨hp, hl, ?_⟩
      rcases hrule.epoch_eq with hsame | hfirst
      · exact hsame.trans_le he
      · -- Nothing was created before the first rule of the step.
        have hnil : new = [] := by
          have hcreated : z.created = x.created := by
            unfold Hist.created
            rw [hfirst.out]
          exact List.append_right_eq_self.mp (heq.symm.trans hcreated)
        rw [hnil] at hb
        cases hb
    · obtain ⟨hp, hl, he⟩ := hnew' b hb
      exact ⟨hp.trans hname, hl, he⟩
  obtain ⟨-, new, heq, hnew⟩ := hrules
  have hsame : outs.filterMap Output.created? = new :=
    List.append_cancel_left (happend.symm.trans heq)
  intro b hb
  exact hnew b (hsame ▸ List.mem_filterMap.mpr ⟨_, hb, rfl⟩)

/-- A rule creates nothing, or the first block of an epoch. -/
theorem Rule.created_cases (h : Rule S env i x0 x y) (ha : S.absent = .other) :
    y.created = x.created ∨
      ∃ b, y.created = x.created ++ [b] ∧ b.proposer = x.core.name ∧ b.epoch = y.core.epoch ∧
        y.status = .running ∧
        (x.core.epoch < b.epoch ∧ x.status = .running ∨ x.status = .idle) := by
  obtain ⟨new, hnew, heq⟩ := h.locals
  have happend : y.created = x.created ++ new.filterMap Output.created? := by
    rw [created_eq, created_eq, heq, List.filterMap_append]
  rw [happend]
  cases hnew with
  | none hk => exact .inl (List.append_nil _)
  | sync p hp ho hm hk => exact .inl (List.append_nil _)
  | late p hp ho hx hh hl hm hk =>
    exact .inl (by simp [List.filterMap_map, Function.comp_def, Output.created?])
  | haltStay h outs hi hx he hf ho hd => exact .inl (by rw [ho.created, List.append_nil])
  | haltNext h outs hi hx he hf ho hd hlt hr hr' =>
    refine .inr ⟨x.core.generatorBlock env y.core.epoch, ?_, rfl, rfl, hr', .inl ⟨hlt, hr⟩⟩
    rw [List.filterMap_append, ho.created]
    rfl
  | start hs hs' he hk => exact .inr ⟨_, rfl, rfl, rfl, hs', .inr hs⟩
  | again hnf e hk he hy =>
    -- The database does not answer that the key is not found.
    rw [ha] at hnf
    cases hnf

/-- The blocks that a node has created: its own, of epochs that it has entered, one an epoch. -/
structure Created (x : Hist) : Prop where
  idle : x.status = .idle → x.created = []
  block : ∀ b ∈ x.created, b.proposer = x.core.name ∧ b.epoch ≤ x.core.epoch
  unique : ∀ b ∈ x.created, ∀ b' ∈ x.created, b.epoch = b'.epoch → b = b'

theorem Created.rule (h : Rule S env i x0 x y) (ha : S.absent = .other) (hx : Created x) :
    Created y := by
  have hle := h.epoch_le
  rcases h.created_cases ha with heq | ⟨b, heq, hp, he, hs, hnew⟩
  · refine ⟨fun hs => ?_, fun b hb => ?_, ?_⟩
    · rw [heq]
      exact hx.idle (h.idle_of_idle hs)
    · rw [heq] at hb
      obtain ⟨hp, he⟩ := hx.block b hb
      exact ⟨hp.trans h.name_eq.symm, he.trans hle⟩
    · rw [heq]
      exact hx.unique
  · -- The new block is of a later epoch than all blocks before, or it is the first of all.
    have hfresh : ∀ b' ∈ x.created, b'.epoch < b.epoch := by
      intro b' hb'
      rcases hnew with ⟨hlt, -⟩ | hidle
      · exact (hx.block b' hb').2.trans_lt hlt
      · rw [hx.idle hidle] at hb'
        cases hb'
    refine ⟨fun hi => ?_, fun b' hb' => ?_, fun b₁ hb₁ b₂ hb₂ heq' => ?_⟩
    · rw [hs] at hi
      cases hi
    · rw [heq] at hb'
      rcases List.mem_append.mp hb' with hb' | hb'
      · obtain ⟨hp', he'⟩ := hx.block b' hb'
        exact ⟨hp'.trans h.name_eq.symm, he'.trans hle⟩
      · obtain rfl := List.mem_singleton.mp hb'
        exact ⟨hp.trans h.name_eq.symm, he.le⟩
    · rw [heq] at hb₁ hb₂
      rcases List.mem_append.mp hb₁ with h₁ | h₁ <;> rcases List.mem_append.mp hb₂ with h₂ | h₂
      · exact hx.unique b₁ h₁ b₂ h₂ heq'
      · rw [List.mem_singleton.mp h₂] at heq'
        exact absurd heq' (hfresh b₁ h₁).ne
      · rw [List.mem_singleton.mp h₁] at heq'
        exact absurd heq' (hfresh b₂ h₂).ne'
      · rw [List.mem_singleton.mp h₁, List.mem_singleton.mp h₂]

/-- What a node created stays on record. -/
theorem Rule.mem_created (h : Rule S env i x0 x y) {b : ConsensusBlock} (hb : b ∈ x.created) :
    b ∈ y.created := by
  obtain ⟨new, heq, -⟩ := h.created_append
  rw [heq]
  exact List.mem_append_left _ hb

/-! ## Phase-one proposals -/

/-- Where the block of a phase-one proposal comes from: it is the new block of an epoch, in round
zero, or it was read from the store at the end of the round before. -/
inductive OneCause (S : Setup) (x : Hist) (p : SPBProposal) : Prop
  | first (hr : p.round = 0) (hb : p.b ∈ x.created) (he : p.b.epoch = p.epoch)
  /-- After a mixed quorum the node proposes the block of the last vote. -/
  | mixed (fv : FinVote) (hh : .finVote fv ∈ x.handled) (he : fv.epoch = p.epoch)
      (hr : fv.round + 1 = p.round) (hb : x.TookBlock p.b) (hd : S.hash p.b = fv.blockHash)
      (hq : 2 ≤ S.quorum)
  /-- After a quorum for no the node proposes its own block again, if it has one. -/
  | no (v : View) (he : v.epoch = p.epoch) (hr : v.round + 1 = p.round) (hb : x.TookBlock p.b)
      (hd : (x.core.spbInstances (v.slot x.core.name)).blockHash = some (S.hash p.b) ∨
        S.hash p.b = 0)
      (hq : S.quorum ≤ (x.core.aggreator.finvoteAggreator v).noNums)

theorem OneCause.rule (h : Rule S env i x0 x y) {p : SPBProposal} (hx : OneCause S x p) :
    OneCause S y p := by
  cases hx with
  | first hr hb he => exact .first hr (h.mem_created hb) he
  | mixed fv hh he hr hb hd hq => exact .mixed fv (h.mem_handled hh) he hr (hb.rule h) hd hq
  | no v he hr hb hd hq =>
    refine .no v he hr (hb.rule h) (hd.imp_left fun hd => ?_) (hq.trans (h.finVote_nums_le v).2)
    rw [h.name_eq]
    exact h.blockHash_eq hd

/-- Every phase-one proposal that a node sent has its cause. -/
def OnesCaused (S : Setup) (x : Hist) : Prop :=
  ∀ d p, .spbProposal p ∈ x.sentTo d → p.phase = .one → OneCause S x p

/-- The block of a next round was read from the store, and the round is the one after the vote's. -/
theorem Regular.next {fv : FinVote} {dg : Digest} (hreg : Regular x0 env i)
    (hi : i = .msg (.finVote fv)) (hx : Untouched x0 x) (hc : NextCause S x fv dg) :
    succ64 fv.round = fv.round + 1 ∧ x.core.decoded env dg = x.core.store dg := by
  subst hi
  refine ⟨succ64_of_ne (hreg.noOverflow.round fv rfl), Core.decoded_of_held ?_⟩
  refine hreg.keysApart dg ?_
  have hmem := hc.mem_lookups
  unfold Hist.lookups at hmem ⊢
  rwa [hx.core] at hmem

theorem OnesCaused.rule (h : Rule S env i x0 x y) (ha : S.absent = .other)
    (hreg : Regular x0 env i) (hprov : Provenance S x) (hx : OnesCaused S x) :
    OnesCaused S y := by
  intro d p hm hp
  rcases h.sent_cases hm with hm | ⟨new, hnew, hm⟩
  · exact (hx d p hm hp).rule h
  · cases hnew with
    | two v ht hv hq hy =>
      obtain rfl : p = _ := by simpa using hm
      cases hp
    | leader v outs he ho hc => cases ho <;> simp at hm
    | next fv dg b hi hh hx hn hc hb hy =>
      obtain ⟨hround, hread⟩ := hreg.next hi hx hc
      rw [hround] at hm
      obtain rfl : p = _ := by simpa using hm
      rcases hb with hb | ⟨hnf, -⟩
      · rw [hread] at hb
        -- The block of a next round was read from the store, so the node took it once.
        obtain ⟨hd, htook⟩ := hprov.store dg b hb
        have heq := congrFun hy fv.view
        rw [Function.update_self] at heq
        cases hc with
        | yes hq hy hz =>
          have htwo : 2 ≤ S.quorum := by omega
          exact .mixed fv (h.mem_handled hh) rfl rfl (htook.rule h) hd htwo
        | no hq hz =>
          refine .no fv.view rfl rfl (htook.rule h) ?_
            (hq.ge.trans (congrArg FinVoteAggreator.noNums heq).ge)
          -- Without a block of its own the node has looked up the zero digest.
          cases hown : (x.core.spbInstances (fv.view.slot x.core.name)).blockHash with
          | none =>
            rw [hown] at hd
            exact .inr hd
          | some d' =>
            rw [hown] at hd
            rw [h.name_eq]
            refine .inl (h.blockHash_eq (hown.trans ?_))
            exact congrArg some hd.symm
      · rw [ha] at hnf
        cases hnf
    | first e he hs hx ho =>
      obtain rfl : p = _ := by simpa using hm
      exact .first rfl (List.mem_filterMap.mpr ⟨_, ho, rfl⟩) rfl
    | _ => simp at hm

/-- A phase-one proposal of a view. -/
def Message.isOne (v : View) : Message → Bool
  | .spbProposal p => p.phase = .one ∧ p.view = v
  | _ => false

/-- Whether a node has opened the view with a new block of its own. -/
def Hist.opened (x : Hist) (v : View) : Bool :=
  v.round = 0 ∧ v.epoch ≤ x.core.epoch ∧ x.status ≠ .idle

/-- Whether a node has counted a quorum of final votes of the view. -/
def Hist.closed (S : Setup) (x : Hist) (v : View) : Bool :=
  S.quorum ≤ (x.core.aggreator.finvoteAggreator v).yesNums +
    (x.core.aggreator.finvoteAggreator v).noNums

/-- A node sends one proposal when it opens a view, and one when it closes the view before. -/
def OnesCounted (S : Setup) (x : Hist) : Prop :=
  ∀ d v, (x.sentTo d).countP (Message.isOne v) ≤
    (x.opened v).toNat + (x.closed S ⟨v.epoch, v.round - 1⟩).toNat

theorem Rule.opened_le (h : Rule S env i x0 x y) (v : View) :
    (x.opened v).toNat ≤ (y.opened v).toNat := by
  have hle := h.epoch_le
  refine Bool.toNat_le_toNat fun hx => ?_
  simp only [Hist.opened, decide_eq_true_eq] at hx ⊢
  exact ⟨hx.1, hx.2.1.trans hle, fun hs => hx.2.2 (h.idle_of_idle hs)⟩

theorem Rule.closed_le (h : Rule S env i x0 x y) (v : View) :
    (x.closed S v).toNat ≤ (y.closed S v).toNat := by
  obtain ⟨hyes, hno⟩ := h.finVote_nums_le v
  refine Bool.toNat_le_toNat fun hx => ?_
  simp only [Hist.closed, decide_eq_true_eq] at hx ⊢
  omega

/-- The final vote that starts a next round is the one that closes its view. -/
theorem closed_of_next {fv : FinVote} {dg : Digest} (hc : NextCause S x fv dg)
    (hy : y.core.aggreator.finvoteAggreator = Function.update x.core.aggreator.finvoteAggreator
      fv.view ((x.core.aggreator.finvoteAggreator fv.view).count fv)) :
    x.closed S fv.view = false ∧ y.closed S fv.view = true := by
  -- Either way the votes for yes and for no are a quorum together.
  have hsum : ((x.core.aggreator.finvoteAggreator fv.view).count fv).yesNums +
      ((x.core.aggreator.finvoteAggreator fv.view).count fv).noNums = S.quorum := by
    cases hc with
    | no hq hz => omega
    | yes hq hy hz => exact hq
  have heq := congrFun hy fv.view
  rw [Function.update_self] at heq
  unfold Hist.closed
  rw [heq, hsum]
  -- This vote adds one, so that before it they were none.
  obtain ⟨-, hcount⟩ := (x.core.aggreator.finvoteAggreator fv.view).count_cases fv
  simp only [decide_eq_false_iff_not, not_le, le_refl, decide_true, and_true]
  omega

theorem OnesCounted.rule (h : Rule S env i x0 x y) (hreg : Regular x0 env i)
    (hx : OnesCounted S x) : OnesCounted S y := by
  intro d v
  have hold := hx d v
  have hopen := h.opened_le v
  have hclose := h.closed_le ⟨v.epoch, v.round - 1⟩
  obtain ⟨new, hnew, heq⟩ := h.sends d
  rw [heq, List.countP_append]
  -- A proposal is sent where the view is opened or the view before is closed, each of which happens
  -- once.
  have hone : new.countP (Message.isOne v) = 0 ∨ (new.countP (Message.isOne v) = 1 ∧
      (x.opened v = false ∧ y.opened v = true ∨
        x.closed S ⟨v.epoch, v.round - 1⟩ = false ∧ y.closed S ⟨v.epoch, v.round - 1⟩ = true)) := by
    cases hnew with
    | next fv dg b hi hh hx hn hc hb hy =>
      rw [(hreg.next hi hx hc).1]
      by_cases hv : (⟨fv.epoch, fv.round + 1⟩ : View) = v
      · subst hv
        have hview : (⟨fv.epoch, fv.round + 1 - 1⟩ : View) = fv.view := by
          simp [FinVote.view]
        refine .inr ⟨by simp [Message.isOne, SPBProposal.view], .inr ?_⟩
        rw [hview]
        exact closed_of_next hc hy
      · refine .inl ?_
        simp [Message.isOne, SPBProposal.view, hv]
    | first e he hs hx ho =>
      by_cases hv : (⟨e, 0⟩ : View) = v
      · subst hv
        refine .inr ⟨by simp [Message.isOne, SPBProposal.view], .inl ⟨?_, ?_⟩⟩
        · rcases hx with ⟨hlt, -⟩ | ⟨-, hidle⟩
          · simp [Hist.opened, hlt]
          · simp [Hist.opened, hidle]
        · simp [Hist.opened, he, hs]
      · refine .inl ?_
        simp [Message.isOne, SPBProposal.view, hv]
    | leader v outs he ho hc => exact .inl (ho.countP_eq_zero (fun _ => rfl) (fun _ => rfl))
    | _ => exact .inl (by simp [Message.isOne])
  rcases hone with hz | ⟨hz, ⟨hb, ha⟩ | ⟨hb, ha⟩⟩
  · omega
  · rw [hb] at hold
    rw [ha]
    simp only [Bool.toNat_false, Bool.toNat_true] at *
    omega
  · rw [hb] at hold
    rw [ha]
    simp only [Bool.toNat_false, Bool.toNat_true] at *
    omega

end SMVBA
