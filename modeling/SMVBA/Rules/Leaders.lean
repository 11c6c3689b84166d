import SMVBA.Rules.Facts

/-!
# The table of leaders

The entry of a view has two writers: the share that completes the coin, and a `Halt` that passes the
filter, also one whose block cannot be read. `processLeader` acts on the entry that it finds. What
the messages of the view change say about the leader therefore depends on what the table can hold
when they are sent.
-/

namespace SMVBA

variable {S : Setup} {env : Env} {i : Input} {x0 x y : Hist}

/-- The coin of a view is a fixed function of the view, whatever shares it is combined from. -/
def FixedCoin (S : Setup) (coin : View → NodeID) : Prop :=
  ∀ shares v bytes leader, S.combineIntactTSPartial shares (S.electHash v) = some bytes →
    coinLeader S bytes = some leader → leader = coin v

/-! ## Changes of an entry -/

/-- How a rule treats the entry of a view. -/
inductive LeaderChange (S : Setup) (env : Env) (i : Input) (x0 x y : Hist) (v : View) : Prop
  | same (h : y.core.elector.leader v = x.core.elector.leader v)
  /-- A share completes the coin. -/
  | coin (s : ElectShare) (bytes : List UInt8) (hi : i = .msg (.electShare s)) (hx : Untouched x0 x)
      (hv : s.view = v)
      (hc : S.combineIntactTSPartial ((x.core.elector.electAggreators v).shares ++ [s.sigShare])
        (S.electHash v) = some bytes)
      (hl : coinLeader S bytes = some (y.core.elector.leader v))
  /-- A halt is taken. -/
  | halt (h : Halt) (hi : i = .msg (.halt h)) (hx : Untouched x0 x) (hh : .halt h ∈ x.handled)
      (hv : h.view = v) (hl : y.core.elector.leader v = h.leader)
      (he : x.core.epoch ≤ h.epoch) (hf : x.core.haltFlags h.epoch = false)
      (ho : y.core.epoch = succ64 h.epoch ∨ succ64 h.epoch ≤ x.core.epoch ∨
        (x.core.decoded env h.blockHash = none ∧ S.absent = .other))

theorem Rule.leaderChange (h : Rule S env i x0 x y) (v : View) : LeaderChange S env i x0 x y v := by
  cases h with
  | elect s bytes leader outs hi hh hx he hn hq hc hl ho =>
    by_cases hv : s.view = v
    · subst hv
      exact .coin s bytes hi hx rfl hc (by simp [Elector.leader, hl])
    · exact .same (Function.update_of_ne (Ne.symm hv) _ _)
  | haltStay h k outs hi hh hx he hf ho hs =>
    by_cases hv : h.view = v
    · subst hv
      exact .halt h hi hx hh rfl (Function.update_self _ _ _) he hf (.inr (.inl hs))
    · exact .same (Function.update_of_ne (Ne.symm hv) _ _)
  | haltNext h k outs hi hr hh hx he hf ho hs =>
    by_cases hv : h.view = v
    · subst hv
      exact .halt h hi hx hh rfl (Function.update_self _ _ _) he hf (.inl rfl)
    · exact .same (Function.update_of_ne (Ne.symm hv) _ _)
  | haltFail h hi hh hx he hf hb ha =>
    by_cases hv : h.view = v
    · subst hv
      exact .halt h hi hx hh rfl (Function.update_self _ _ _) he hf (.inr (.inr ⟨hb, ha⟩))
    · exact .same (Function.update_of_ne (Ne.symm hv) _ _)
  | _ => exact .same rfl

/-! ## The leaders that the messages of the view change name -/

/-- The leader that the code consulted for a prevote, and for a halt after a `Finish`, is one that
`led` allows. A halt after final votes names none. -/
structure LedBy (S : Setup) (led : View → NodeID → Prop) (x : Hist) : Prop where
  prevote : ∀ d pv, .prevote pv ∈ x.sentTo d → led pv.view pv.leader
  halt : ∀ d h, .halt h ∈ x.sentTo d →
    (led h.view h.leader ∧ .finish ⟨h.leader, h.blockHash, h.epoch, h.round⟩ ∈ x.handled) ∨
      (S.quorum ≤ (x.core.aggreator.finvoteAggreator h.view).yesNums ∧
        ∃ fv, .finVote fv ∈ x.handled ∧
        fv.view = h.view ∧ fv.flag = .yes ∧ fv.blockHash = h.blockHash)

/-- `processLeader` runs with the coin's leader, or, after a `Done`, with the leader of the table.
-/
theorem LedBy.rule {led : View → NodeID → Prop} (h : Rule S env i x0 x y)
    (hvotes : VotesCounted S x)
    (hcoin : ∀ shares v bytes leader, S.combineIntactTSPartial shares (S.electHash v) = some bytes →
      coinLeader S bytes = some leader → led v leader)
    (hdone : ∀ dn, i = .msg (.done dn) → Untouched x0 x → x.core.epoch ≤ dn.epoch →
      dn.author ∉ (x.core.aggreator.doneAggreator dn.view).authors →
      (insert dn.author (x.core.aggreator.doneAggreator dn.view).authors).card = S.quorum →
      x.core.elector.leader dn.view ≠ NONE → led dn.view (x.core.elector.leader dn.view))
    (hx : LedBy S led x) : LedBy S led y := by
  -- `processLeader` was called by the `Done` that made the view ready, and found the table as it
  -- was, or by the share that completed the coin.
  have hconsulted : ∀ {v : View}, LeaderCause S i x0 x y v → x.core.epoch ≤ v.epoch →
      y.core.elector.leader v ≠ NONE → led v (y.core.elector.leader v) := by
    intro v hc he hne
    cases hc with
    | ready dn hi hx0 hv hn hq hl =>
      subst hv
      have heq : y.core.elector.leader dn.view = x.core.elector.leader dn.view :=
        congrFun hl dn.view
      rw [heq] at hne ⊢
      exact hdone dn hi hx0 he hn hq hne
    | elect s bytes hi hx0 hv hn hq hc hl hr => exact hcoin _ v bytes _ hc hl
  have hfv : ∀ {fv : FinVote}, .finVote fv ∈ x.handled → .finVote fv ∈ y.handled := h.mem_handled
  refine ⟨fun d pv hm => ?_, fun d ht hm => ?_⟩
  · rcases h.sent_cases hm with hm | ⟨new, hnew, hm⟩
    · exact hx.prevote d pv hm
    · obtain ⟨hc, he, -, hleader, hl, -⟩ := hnew.prevote hm
      rw [hleader] at hl ⊢
      exact hconsulted hc he hl
  · rcases h.sent_cases hm with hm | ⟨new, hnew, hm⟩
    · refine (hx.halt d ht hm).imp (fun ⟨hl, hf⟩ => ⟨hl, h.mem_handled hf⟩) ?_
      rintro ⟨hq, fv, hh, hrest⟩
      exact ⟨hq.trans (h.finVote_nums_le _).1, fv, hfv hh, hrest⟩
    · rcases hnew.of_halt hm with
        ⟨hc, he, -, hleader, hl, hf⟩ | ⟨fv, -, hh, -, -, -, hq, hz, heq, hv, -, hb⟩
      · have hfinish := (hvotes.rule h).finishFlags _ _ hf
        refine .inl ⟨?_, hfinish⟩
        rw [hleader] at hl ⊢
        exact hconsulted hc he hl
      · refine .inr ⟨?_, fv, hfv hh, hv.symm, FinVoteAggreator.flag_of_count hz, hb.symm⟩
        rw [hv, heq]
        exact hq.ge

/-! ## Runs in which no halt fails -/

/-- The step is not a call of `handleHalt` that returns an error. -/
def HaltsSucceed (S : Setup) : Cond := fun x env i =>
  ∀ h ∈ i.halt?, (x.core.handleHalt S env h).err = none

instance (S : Setup) (x : Hist) (env : Env) (i : Input) : Decidable (HaltsSucceed S x env i) :=
  inferInstanceAs (Decidable (∀ h ∈ i.halt?, _))

/-- A halt whose block cannot be read is an error. -/
theorem handleHalt_err (env : Env) {c : Core} {h : Halt} (he : c.epoch ≤ h.epoch)
    (hf : c.haltFlags h.epoch = false) (hb : c.decoded env h.blockHash = none)
    (ha : S.absent = .other) : (c.handleHalt S env h).err = some .get := by
  have hfilter : c.messgaeFilter h.epoch = false := by simpa [Core.messgaeFilter] using he
  rw [Core.decoded] at hb
  simp [Core.handleHalt, hfilter, hf, Core.handleOutput, Core.getConsensusBlock, Core.decoded,
    hb, ha, Outcome.bind]

/-- In the epochs that a node is not past, the table holds the coin or nothing. -/
def CoinOrPast (coin : View → NodeID) (x : Hist) : Prop :=
  ∀ v, x.core.epoch ≤ v.epoch → x.core.elector.leader v ≠ NONE → x.core.elector.leader v = coin v

theorem CoinOrPast.rule {coin : View → NodeID} (hcoin : FixedCoin S coin) (h : Rule S env i x0 x y)
    (hok : HaltsSucceed S x0 env i) (hover : i.NoOverflow) (hx : CoinOrPast coin x) :
    CoinOrPast coin y := by
  intro v he hne
  have hle := h.epoch_le
  cases h.leaderChange v with
  | same heq =>
    rw [heq] at hne ⊢
    exact hx v (hle.trans he) hne
  | coin s bytes hi hx0 hv hc hl => exact hcoin _ v bytes _ hc hl
  | halt ht hi hx0 hh hv hl het hf ho =>
    subst hi hv
    have hsucc : succ64 ht.epoch = ht.epoch + 1 := succ64_of_ne (hover.epoch ht rfl)
    dsimp only [Halt.view] at he
    -- A halt that is taken ends its epoch, or its block cannot be read and it is an error.
    rcases ho with ho | ho | ⟨hb, ha⟩
    · omega
    · omega
    · rw [hx0.core] at het hf hb
      have herr := handleHalt_err env het hf hb ha
      rw [hok ht rfl] at herr
      cases herr

end SMVBA
