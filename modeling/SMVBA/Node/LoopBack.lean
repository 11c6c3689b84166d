import SMVBA.Network.Reproposals

/-!
# Proposals that were set aside

A phase-one proposal whose block misses payloads is stored and set aside. When the synchronizer has
the payloads it sends the hash of the block on the loopback channel, and nothing else.
`handleLoopBack` makes a proposal of the stored block: round zero of the block's epoch, with the
block's proposer as the author. This is the proposal that was set aside only if that one was of this
form. A proposal of a later round, of which the block is the same as in round zero, is not resumed.
-/

namespace SMVBA

open MessagePassing

variable {S : Setup} {ok : Cond} {env env₀ : Env} {name : NodeID}
  {x₀ x₁ x y : Hist} {p : SPBProposal}
  {b : ConsensusBlock}

/-- A node takes a phase-one proposal of an epoch that is not past, stores its block, and misses
payloads of it. -/
structure SetAside (S : Setup) (env : Env) (x : Hist) (p : SPBProposal) (y : Hist) : Prop where
  one : p.phase = .one
  epoch : x.core.epoch ≤ p.epoch
  put : env.putOk = true
  step : ∃ outs, x.step S env (.msg (.spbProposal p)) = some (y, outs)
  missing : y.core.missing env p.b ≠ []

/-- The node takes more inputs. -/
def Later (S : Setup) : Hist → Hist → Prop :=
  Relation.ReflTransGen fun x y => ∃ env i outs, x.step S env i = some (y, outs)

/-- The node takes the loopback of the block's hash and spawns a call that, run while the instance
of the proposal has no block, gives it the hash and sends the phase-one vote for it. -/
def Resumes (S : Setup) (env : Env) (x : Hist) (p : SPBProposal) : Prop :=
  ∃ y outs, x.step S env (.loopBack (S.hash p.b)) = some (y, outs) ∧ ∃ t, .spawn t ∈ outs ∧
    ∀ (env' : Env) (z : Hist), z.status = .running → t ∈ z.tasks →
      (z.core.spbInstances p.slot).blockHash = none →
      ∃ z' outs', z.step S env' (.task t) = some (z', outs') ∧
        (z'.core.spbInstances p.slot).blockHash = some (S.hash p.b) ∧
        ∃ o ∈ outs', o.vote? = some ⟨z.core.name, p.author, S.hash p.b, p.epoch, p.round, .one⟩

/-! ## The block stays in the store -/

/-- The block of a proposal that is set aside is in the store. -/
theorem SetAside.store (h : SetAside S env x p y) : y.core.store (S.hash p.b) = some p.b := by
  obtain ⟨outs, hstep⟩ := h.step
  have hlate := lateCommit_store S env x.core p
  have hfilter : (x.core.lateCommit S env p).core.messgaeFilter p.epoch = false := by
    have hle := h.epoch
    unfold Core.messgaeFilter
    rw [hlate.2.1]
    exact decide_eq_false (by omega)
  have hcore : (x.core.handleSpbProposal S env p).core =
      ((x.core.lateCommit S env p).core.acceptProposal S env p).core := by
    unfold Core.handleSpbProposal Outcome.bind
    rw [hlate.2.2]
    simp [hfilter]
  have hstored :
      ((x.core.lateCommit S env p).core.acceptProposal S env p).core.store (S.hash p.b) =
        some p.b := by
    unfold Core.acceptProposal
    rw [if_pos h.one, if_neg (by simp [h.put])]
    dsimp only
    split_ifs <;> exact Function.update_self ..
  rw [(Hist.step_msg hstep).1]
  exact (congrArg (fun c : Core => c.store (S.hash p.b)) hcore).trans hstored

/-- A run of a node goes on. -/
theorem Later.localRun (h : Later S x y) (hr : LocalRun S Always name x) :
    LocalRun S Always name y := by
  induction h with
  | refl => exact hr
  | tail _ hstep ih =>
    obtain ⟨env, i, outs, hstep⟩ := hstep
    exact .step ih trivial hstep

/-- What the store holds a block under it does so at any later time. -/
theorem Later.store {d : Digest} (h : Later S x y) (hd : (x.core.store d).isSome = true) :
    (y.core.store d).isSome = true := by
  induction h with
  | refl => exact hd
  | tail _ hstep ih =>
    obtain ⟨env, i, outs, hstep⟩ := hstep
    exact step_invariant (I := fun z => (z.core.store d).isSome = true)
      (fun hrule hz => hrule.store_isSome hz) hstep ih

/-! ## The loopback -/

/-- The loopback of a stored block is the late commit and at most one spawned call, and does not
fail. -/
theorem handleLoopBack_of_stored (S : Setup) (env : Env) {c : Core} {d : Digest}
    (hb : c.store d = some b) :
    c.handleLoopBack S env d = ⟨(c.lateCommit S env (Core.loopProposal b)).core,
      (c.lateCommit S env (Core.loopProposal b)).out ++
        if c.epoch ≤ b.epoch then [.spawn (.processProposal (Core.loopProposal b))] else [],
      none⟩ := by
  obtain ⟨-, hepoch, herr⟩ := lateCommit_store S env c (Core.loopProposal b)
  have hget : c.getConsensusBlock S env d = .ok (some b) := by
    unfold Core.getConsensusBlock
    rw [Core.decoded_of_store hb]
  unfold Core.handleLoopBack
  rw [hget]
  dsimp only [Outcome.bind]
  rw [herr]
  dsimp only
  rw [hepoch]
  split_ifs
  · rfl
  · rfl

/-- The loopback of a stored block spawns at most one call, for the proposal that `handleLoopBack`
makes, and does so if the epoch of the block is not past. The instances stay as they are. -/
theorem loopBack_step (env : Env) {d : Digest} (hx : x.status = .running)
    (hb : x.core.store d = some b) :
    ∃ y outs, x.step S env (.loopBack d) = some (y, outs) ∧ y.status = .running ∧
      y.core.spbInstances = x.core.spbInstances ∧
      (∀ t, .spawn t ∈ outs → t = .processProposal (Core.loopProposal b) ∧ t ∈ y.tasks) ∧
      (x.core.epoch ≤ b.epoch → .spawn (.processProposal (Core.loopProposal b)) ∈ outs) := by
  have hspb : (x.core.lateCommit S env (Core.loopProposal b)).core.spbInstances =
      x.core.spbInstances := by
    unfold Core.lateCommit Core.verifyAndCommit Core.verifyConsensusBlock
    split_ifs <;> rfl
  have hquiet : ∀ t, .spawn t ∉ (x.core.lateCommit S env (Core.loopProposal b)).out := by
    intro t
    unfold Core.lateCommit Core.verifyAndCommit Core.verifyConsensusBlock
    split_ifs <;> simp [Outcome.ret]
  have houtcome := handleLoopBack_of_stored S env hb
  unfold Hist.step Node.outcome
  dsimp only
  rw [if_pos hx, houtcome]
  refine ⟨_, _, rfl, rfl, hspb, fun t ht => ?_, fun hle => ?_⟩
  · rcases List.mem_append.mp ht with hlate | hnew
    · exact absurd hlate (hquiet t)
    · have htask : t ∈ ((x.core.lateCommit S env (Core.loopProposal b)).out ++
          if x.core.epoch ≤ b.epoch then [Output.spawn (.processProposal (Core.loopProposal b))]
          else []).filterMap Output.task? := List.mem_filterMap.mpr ⟨_, ht, rfl⟩
      refine ⟨?_, List.mem_append_right _ htask⟩
      split_ifs at hnew
      · exact Output.spawn.inj (List.mem_singleton.mp hnew)
      · cases hnew
  · rw [if_pos hle]
    exact List.mem_append_right _ (List.mem_singleton_self _)

/-- A call for another slot leaves an instance alone. -/
theorem processProposal_of_ne {c : Core} {s : Slot} (h : s ≠ p.slot) :
    (c.processProposal S p).core.spbInstances s = c.spbInstances s := by
  unfold Core.processProposal
  split
  · dsimp only
    split_ifs
    · rfl
    · exact setSpb_of_ne h _
  · dsimp only
    split_ifs
    · exact setSpb_of_ne h _
    · exact setSpb_of_ne h _
  · rfl

theorem step_task_of_ne {outs : List Output} {s : Slot}
    (h : x.step S env (.task (.processProposal p)) = some (y, outs)) (hs : s ≠ p.slot) :
    (y.core.spbInstances s).blockHash = (x.core.spbInstances s).blockHash := by
  obtain ⟨o, ho, -, rfl⟩ := Hist.step_eq_some h
  cases Node.runs_of_outcome ho with
  | task t _ _ => exact congrArg SPB.blockHash (processProposal_of_ne hs)

/-- A node whose store holds the block `b` under the hash of a phase-one proposal's block, in an
epoch that is not past for the proposal and with no block in its instance, resumes the proposal
exactly when it is for the slot of the proposal that `handleLoopBack` makes of `b`. -/
theorem resumes_iff (hx : x.status = .running) (hb : x.core.store (S.hash p.b) = some b)
    (hhash : S.hash b = S.hash p.b) (he : x.core.epoch ≤ p.epoch)
    (hnone : (x.core.spbInstances p.slot).blockHash = none) :
    Resumes S env x p ↔ p.author = b.proposer ∧ p.epoch = b.epoch ∧ p.round = 0 := by
  obtain ⟨y, outs, hstep, hrun, hspb, hcalls, hspawn⟩ := loopBack_step env hx hb
  constructor
  · rintro ⟨y', outs', hstep', t, ht, hres⟩
    cases hstep.symm.trans hstep'
    obtain ⟨rfl, hmem⟩ := hcalls t ht
    have hnone' : (y.core.spbInstances p.slot).blockHash = none := by rw [hspb, hnone]
    obtain ⟨z, outs', hz, hset, -⟩ := hres env y hrun hmem hnone'
    -- The call has set the instance of its own slot.
    have hslot : p.slot = (Core.loopProposal b).slot := by
      by_contra hne
      have hsame := step_task_of_ne hz hne
      rw [hset, hnone'] at hsame
      cases hsame
    exact ⟨congrArg Slot.node hslot, congrArg Slot.epoch hslot, congrArg Slot.round hslot⟩
  · rintro ⟨hauthor, hepoch, hround⟩
    have hslot : p.slot = (Core.loopProposal b).slot := by
      unfold SPBProposal.slot Core.loopProposal
      rw [hauthor, hepoch, hround]
    rw [hepoch] at he
    refine ⟨y, outs, hstep, _, hspawn he, fun env' z hz ht hn => ?_⟩
    rw [hslot] at hn ⊢
    obtain ⟨z', outs', hz', hiff⟩ := proposal_taken_iff hz ht rfl hn
    have htaken := hiff.mpr rfl
    rw [hauthor, hepoch, hround, ← hhash]
    exact ⟨z', outs', hz', htaken⟩

/-- A node has set a phase-one proposal aside. At any later time its store holds a block with the
hash of the proposal's, which is that block unless two blocks have one hash. If the node then gets
the loopback of the hash, in an epoch that is not past for the proposal and with no block in the
instance of the proposal, it resumes the proposal exactly when this is of round zero, of the epoch
of the stored block, and of its proposer. -/
theorem loopBack_resumes_iff (env : Env) (hr : LocalRun S ok name x₀)
    (haside : SetAside S env₀ x₀ p x₁) (hlater : Later S x₁ x) (hx : x.status = .running)
    (he : x.core.epoch ≤ p.epoch)
    (hnone : (x.core.spbInstances p.slot).blockHash = none) :
    ∃ b, x.core.store (S.hash p.b) = some b ∧ S.hash b = S.hash p.b ∧
      (Resumes S env x p ↔ p.author = b.proposer ∧ p.epoch = b.epoch ∧ p.round = 0) := by
  obtain ⟨outs, hstep⟩ := haside.step
  have hr₁ : LocalRun S Always name x₁ := .step (hr.mono fun _ _ _ _ => trivial) trivial hstep
  have hsome := hlater.store (Option.isSome_iff_exists.mpr ⟨_, haside.store⟩)
  obtain ⟨b, hb⟩ := Option.isSome_iff_exists.mp hsome
  have hhash := ((hlater.localRun hr₁).facts.provenance.store _ _ hb).1
  exact ⟨b, hb, hhash, resumes_iff hx hb hhash he hnone⟩

/-! ## The same block in two rounds -/

/-- A mempool that holds no payload. -/
def emptyEnv : Env := ⟨fun _ => none, [], true⟩

/-- The first block of node `1`, proposed by it in a round of epoch zero. -/
def ownProposal (round : ℤ) : SPBProposal := ⟨1, demoBlock 1 0, 0, round, .one⟩

/-- Node `0`, started, takes the proposal without the payloads, and has no block in its instance. -/
def setsAside (round : ℤ) : Bool :=
  (replayNode (demo 4 0) Always (Hist.init 0) [(fullEnv 0, .start)]).any fun x₀ =>
    decide (x₀.core.epoch ≤ 0) &&
      (x₀.step (demo 4 0) emptyEnv (.msg (.spbProposal (ownProposal round)))).any fun (x₁, _) =>
        decide (x₁.core.missing emptyEnv (demoBlock 1 0) ≠ [] ∧ x₁.status = .running ∧
          x₁.core.epoch ≤ 0 ∧ (x₁.core.spbInstances (ownProposal round).slot).blockHash = none)

theorem exists_setAside (round : ℤ) (h : setsAside round = true) :
    ∃ x₀ x₁, LocalRun (demo 4 0) Always 0 x₀ ∧
    SetAside (demo 4 0) emptyEnv x₀ (ownProposal round) x₁ ∧
      x₁.status = .running ∧ x₁.core.epoch ≤ 0 ∧
      (x₁.core.spbInstances (ownProposal round).slot).blockHash = none := by
  obtain ⟨x₀, hr, hx⟩ := exists_localRun (demo 4 0) Always 0 _ _ h
  rw [Bool.and_eq_true, Option.any_eq_true] at hx
  obtain ⟨he, ⟨x₁, outs⟩, hstep, hx₁⟩ := hx
  obtain ⟨hmissing, hrun, he₁, hnone⟩ := of_decide_eq_true hx₁
  exact ⟨x₀, x₁, hr, ⟨rfl, of_decide_eq_true he, rfl, ⟨outs, hstep⟩, hmissing⟩, hrun, he₁, hnone⟩

/-- In round zero the proposal is resumed. -/
theorem loopBack_resumes_first : ∃ x₀ x₁, LocalRun (demo 4 0) Always 0 x₀ ∧
    SetAside (demo 4 0) emptyEnv x₀ (ownProposal 0) x₁ ∧
    Resumes (demo 4 0) (fullEnv 0) x₁ (ownProposal 0) := by
  obtain ⟨x₀, x₁, hr, haside, hrun, he, hnone⟩ := exists_setAside 0 (by decide +kernel)
  obtain ⟨b, hb, -, hiff⟩ := loopBack_resumes_iff (fullEnv 0) hr haside .refl hrun he hnone
  obtain rfl := Option.some.inj (hb.symm.trans haside.store)
  exact ⟨x₀, x₁, hr, haside, hiff.mpr ⟨rfl, rfl, rfl⟩⟩

/-- In round one, in which node `1` may propose its block again, the proposal is not resumed. -/
theorem loopBack_not_resumed : ∃ x₀ x₁, LocalRun (demo 4 0) Always 0 x₀ ∧
    SetAside (demo 4 0) emptyEnv x₀ (ownProposal 1) x₁ ∧ x₁.status = .running ∧
    x₁.core.epoch ≤ (ownProposal 1).epoch ∧
    (x₁.core.spbInstances (ownProposal 1).slot).blockHash = none ∧
    ¬ Resumes (demo 4 0) (fullEnv 0) x₁ (ownProposal 1) := by
  obtain ⟨x₀, x₁, hr, haside, hrun, he, hnone⟩ := exists_setAside 1 (by decide +kernel)
  refine ⟨x₀, x₁, hr, haside, hrun, he, hnone, fun hres => ?_⟩
  obtain ⟨-, -, hround⟩ := (resumes_iff hrun haside.store rfl he hnone).mp hres
  exact absurd hround (by decide)

end SMVBA
