import SMVBA.Rules.Blocks

/-!
# What holds of every node

The invariants of the modules before, gathered into one for all runs (`Facts`) and one for the runs
of regular steps in which the database fails on an absent key (`BlockFacts`). `Sources` is for the
runs in which no look-up finds a mempool block.
-/

namespace SMVBA

variable {S : Setup} {env : Env} {i : Input} {name : NodeID} {x0 x y : Hist} {ok : Cond}

/-- What holds of a node after any inputs. -/
structure Facts (S : Setup) (name : NodeID) (x : Hist) : Prop where
  name_eq : x.core.name = name
  buffers : SpbBuffers x
  votes : VotesHandled x
  twos : TwosHandled x
  provenance : Provenance S x
  sent : SpbSent S x
  onesSent : OnesSent x
  twosSent : TwosSent S x
  counted : VotesCounted S x
  causes : Causes S x
  even : Evenhanded x

theorem Facts.init (S : Setup) (name : NodeID) : Facts S name (Hist.init name) where
  name_eq := rfl
  buffers := ⟨by simp [Hist.init], by simp [Hist.init]⟩
  votes _ _ := by simp [Hist.voteLoad, Hist.init]
  twos _ _ := by simp [Hist.twoLoad, Hist.sentTo, Hist.init]
  provenance := by constructor <;> simp [Hist.init]
  sent := by constructor <;> simp [Hist.init, Hist.sentTo]
  onesSent _ _ := by simp [Hist.sentTo, Hist.init]
  twosSent _ _ _ := by simp [Hist.sentTo, Hist.init]
  counted := by
    constructor
    case prevote => exact fun _ => Quorum.Tally.empty
    case finVote => exact fun _ => Quorum.Tally.empty
    all_goals simp [Hist.init]
  causes := by constructor <;> simp [Hist.init, Hist.sentTo]
  even := EvenOutputs.nil

theorem Facts.rule (h : Rule S env i x0 x y) (hx : Facts S name x) : Facts S name y where
  name_eq := h.name_eq.trans hx.name_eq
  buffers := hx.buffers.rule h
  votes := hx.votes.rule h hx.buffers
  twos := hx.twos.rule h hx.buffers
  provenance := hx.provenance.rule h
  sent := hx.sent.rule h
  onesSent := hx.onesSent.rule h
  twosSent := hx.twosSent.rule h
  counted := hx.counted.rule h
  causes := hx.causes.rule h hx.counted
  even := hx.even.rule h

theorem LocalRun.facts (hr : LocalRun S ok name x) : Facts S name x :=
  hr.invariant (Facts.init S name) fun _ h hz => hz.rule h

/-- No block is created before the start. -/
theorem Created.init (name : NodeID) : Created (Hist.init name) where
  idle _ := rfl
  block := by simp [Hist.created, Hist.init]
  unique := by simp [Hist.created, Hist.init]

theorem LocalRun.sources (hok : ∀ x env i, ok x env i → KeysApart x env i)
    (hr : LocalRun S ok name x) : Sources S x := by
  refine (hr.invariant (I := fun z => Facts S name z ∧ Sources S z) ⟨Facts.init S name, ?_⟩ ?_).2
  · constructor <;> simp [Hist.init]
  · rintro env i x0 z z' hstep h ⟨hf, hs⟩
    exact ⟨hf.rule h, hs.rule h (hok _ _ _ hstep) hf.provenance⟩

/-- What holds of the blocks of a node when its steps are regular and the database fails on an
absent key. -/
structure BlockFacts (S : Setup) (x : Hist) : Prop where
  created : Created x
  caused : OnesCaused S x
  counted : OnesCounted S x

theorem LocalRun.blockFacts (ha : S.absent = .other)
    (hok : ∀ x env i, ok x env i → Regular x env i) (hr : LocalRun S ok name x) :
    BlockFacts S x := by
  refine (hr.invariant (I := fun z => Facts S name z ∧ BlockFacts S z) ⟨Facts.init S name, ?_⟩ ?_).2
  · refine ⟨Created.init name, ?_, ?_⟩
    · exact fun d p hm => by simp [Hist.sentTo, Hist.init] at hm
    · exact fun d v => by simp [Hist.sentTo, Hist.init]
  · rintro env i x0 z z' hstep h ⟨hf, hb⟩
    have hreg := hok _ _ _ hstep
    exact ⟨hf.rule h, hb.created.rule h ha, hb.caused.rule h ha hreg hf.provenance,
      hb.counted.rule h hreg⟩

end SMVBA
