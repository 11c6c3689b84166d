import SMVBA.Rules.Refinement

/-!
# Runs of one node, and what it sends

`LocalRun` is the set of histories of a node that takes any inputs at all, each under a condition
`ok` on the state before the step, the answers of its surroundings and the input. A result that
needs no condition is about `LocalRun S Always`.

`Hist.sentTo` reads off a history what the node let out for an addressee. The lemmas below it
say what the outputs of the rules come to there, so that an invariant which speaks of sent messages
is checked rule by rule with the simplifier.
-/

namespace SMVBA

variable {S : Setup} {env : Env}

/-! ## Runs of one node -/

/-- A condition on the steps of a run. -/
abbrev Cond := Hist → Env → Input → Prop

/-- No condition. -/
def Always : Cond := fun _ _ _ => True

instance (x : Hist) (env : Env) (i : Input) : Decidable (Always x env i) := .isTrue trivial

section Inputs

/-- The proposal of an input. -/
def Input.proposal? : Input → Option SPBProposal
  | .msg (.spbProposal p) => some p
  | _ => none

/-- The `Done` of an input. -/
def Input.done? : Input → Option Done
  | .msg (.done dn) => some dn
  | _ => none

/-- The share of an input. -/
def Input.share? : Input → Option ElectShare
  | .msg (.electShare sh) => some sh
  | _ => none

/-- The prevote of an input. -/
def Input.prevote? : Input → Option Prevote
  | .msg (.prevote pv) => some pv
  | _ => none

/-- The final vote of an input. -/
def Input.finVote? : Input → Option FinVote
  | .msg (.finVote fv) => some fv
  | _ => none

/-- The halt of an input. -/
def Input.halt? : Input → Option Halt
  | .msg (.halt h) => some h
  | _ => none

theorem Input.eq_of_halt? {i : Input} {h : Halt} (hi : i.halt? = some h) : i = .msg (.halt h) := by
  unfold Input.halt? at hi
  split at hi
  · rw [Option.some.inj hi]
  · cases hi

/-- The digest of an input from the loopback channel. -/
def Input.loopBack? : Input → Option Digest
  | .loopBack d => some d
  | _ => none

/-- The proposal that a spawned call runs on. -/
def Input.call? : Input → Option SPBProposal
  | .task (.processProposal p) => some p
  | _ => none

end Inputs

/-- The handling of the input overflows neither an epoch nor a round. -/
structure Input.NoOverflow (i : Input) : Prop where
  epoch : ∀ h ∈ i.halt?, h.epoch ≠ maxInt64
  round : ∀ fv ∈ i.finVote?, fv.round ≠ maxInt64

instance (i : Input) : Decidable i.NoOverflow :=
  decidable_of_iff (_ ∧ _) ⟨fun h => ⟨h.1, h.2⟩, fun h => ⟨h.epoch, h.round⟩⟩

/-- The digests that the handling of an input can look up in the store. -/
def Hist.lookups (x : Hist) : Input → List Digest
  | .msg (.halt h) => [h.blockHash]
  | .msg (.finVote fv) =>
    [fv.blockHash, (x.core.spbInstances (fv.view.slot x.core.name)).blockHash.getD 0]
  | .loopBack d => [d]
  | _ => []

/-- No look-up of a step finds a mempool block. -/
def KeysApart : Cond := fun x env i => ∀ d ∈ x.lookups i, env.held d = none

instance (x : Hist) (env : Env) (i : Input) : Decidable (KeysApart x env i) :=
  List.decidableBAll (fun d => env.held d = none) (x.lookups i)

/-- What the steps of a network are free of: overflows, and look-ups that find a mempool block. -/
structure Regular (x : Hist) (env : Env) (i : Input) : Prop where
  noOverflow : i.NoOverflow
  keysApart : KeysApart x env i

instance (x : Hist) (env : Env) (i : Input) : Decidable (Regular x env i) :=
  decidable_of_iff (_ ∧ _) ⟨fun h => ⟨h.1, h.2⟩, fun h => ⟨h.noOverflow, h.keysApart⟩⟩

/-- Where no mempool block is held, a look-up reads the consensus blocks. -/
theorem Core.decoded_of_held {c : Core} {d : Digest} (h : env.held d = none) :
    c.decoded env d = c.store d := by
  simp [Core.decoded, h]

/-- The look-ups of a loopback and of a halt read the consensus blocks, if the keys are apart. -/
theorem KeysApart.loopBack {x : Hist} {i : Input} {d : Digest} (h : KeysApart x env i)
    (hi : i = .loopBack d) (c : Core) : c.decoded env d = c.store d := by
  subst hi
  exact Core.decoded_of_held (h d (List.mem_singleton_self d))

@[inherit_doc KeysApart.loopBack]
theorem KeysApart.halt {x : Hist} {i : Input} {ht : Halt} (h : KeysApart x env i)
    (hi : i = .msg (.halt ht)) (c : Core) :
    c.decoded env ht.blockHash = c.store ht.blockHash := by
  subst hi
  exact Core.decoded_of_held (h _ (List.mem_singleton_self _))

/-- A consensus block of the store is decoded to itself. -/
theorem Core.decoded_of_store {c : Core} {d : Digest} {b : ConsensusBlock}
    (h : c.store d = some b) : c.decoded env d = some b := by
  simp [Core.decoded, h]

/-- Nothing is decoded under a key exactly if the store holds no block of either kind there. -/
theorem Core.decoded_eq_none {c : Core} {d : Digest} :
    c.decoded env d = none ↔ c.store d = none ∧ env.held d = none := by
  simp [Core.decoded]

/-- What is decoded is a consensus block of the store, or a mempool block in the place of one. -/
theorem Core.decoded_cases {c : Core} {d : Digest} {b : ConsensusBlock}
    (h : c.decoded env d = some b) :
    c.store d = some b ∨ c.store d = none ∧ ∃ q, env.held d = some q ∧ b = payloadAsBlock q := by
  unfold Core.decoded at h
  cases hs : c.store d with
  | some b' =>
    rw [hs] at h
    exact .inl h
  | none =>
    rw [hs, Option.none_or] at h
    obtain ⟨q, hq, rfl⟩ := Option.map_eq_some_iff.mp h
    exact .inr ⟨rfl, q, hq, rfl⟩

/-- The histories that a node reaches, each step under the condition. -/
inductive LocalRun (S : Setup) (ok : Cond) (name : NodeID) : Hist → Prop
  | init : LocalRun S ok name (Hist.init name)
  | step {x y : Hist} {env : Env} {i : Input} {outs : List Output} (hr : LocalRun S ok name x)
      (hok : ok x env i) (h : x.step S env i = some (y, outs)) : LocalRun S ok name y

/-- What holds at the beginning and what every rule preserves holds along every run. -/
theorem LocalRun.invariant {ok : Cond} {name : NodeID} {I : Hist → Prop} (h0 : I (Hist.init name))
    (hI : ∀ {env : Env} {i : Input} {x0 z z' : Hist}, ok x0 env i → Rule S env i x0 z z' →
      I z → I z') {x : Hist} (hr : LocalRun S ok name x) : I x := by
  induction hr with
  | init => exact h0
  | step hr hok h ih => exact step_invariant (hI hok) h ih

/-- A run under a condition is a run under a weaker one. -/
theorem LocalRun.mono {ok ok' : Cond} {name : NodeID} (h : ∀ x env i, ok x env i → ok' x env i)
    {x : Hist} (hr : LocalRun S ok name x) : LocalRun S ok' name x := by
  induction hr with
  | init => exact .init
  | step hr hok hs ih => exact .step ih (h _ _ _ hok) hs

/-! ## Addressees -/

/-- The message that an output of `q` puts into the inbox of `d`. -/
def Output.sentTo (q d : NodeID) : Output → Option Message
  | .send dst m => if (if dst = NONE then d ≠ q else d = dst) then some m else none
  | .recv m => if d = q then some m else none
  | _ => none

/-- The message that an output sends, to others or to the node itself. -/
def Output.message? : Output → Option Message
  | .send _ m => some m
  | .recv m => some m
  | _ => none

/-- A message that is let out goes to somebody. -/
theorem Output.exists_sentTo {o : Output} {m : Message} (h : o.message? = some m) (q : NodeID) :
    ∃ d, o.sentTo q d = some m := by
  unfold Output.message? at h
  split at h
  · next dst m' =>
    cases h
    by_cases hdst : dst = NONE
    · -- A broadcast misses its sender only.
      have hne : q + 1 ≠ q := (Int.lt_add_one_of_le le_rfl).ne'
      exact ⟨q + 1, by simp [Output.sentTo, hdst, hne]⟩
    · exact ⟨dst, by simp [Output.sentTo, hdst]⟩
  · cases h
    exact ⟨q, by simp [Output.sentTo]⟩
  · cases h

/-- The vote that an output sends. -/
def Output.vote? : Output → Option SPBVote
  | .send _ (.spbVote v) => some v
  | .recv (.spbVote v) => some v
  | _ => none

/-- The messages that a node let out for `d`. -/
def Hist.sentTo (x : Hist) (d : NodeID) : List Message :=
  x.out.filterMap (Output.sentTo x.core.name d)

section Outputs

variable {q d : NodeID} {f : Message → Bool} {c : Core} {v : View} {outs : List Output}

@[simp] theorem sentTo_spawn (t : Task) : (Output.spawn t).sentTo q d = none := rfl

@[simp] theorem sentTo_create (b : ConsensusBlock) : (Output.create b).sentTo q d = none := rfl

@[simp] theorem sentTo_commit (b : ConsensusBlock) : (Output.commit b).sentTo q d = none := rfl

@[simp] theorem sentTo_sync (m : SyncBlockMsg) : (Output.sync m).sentTo q d = none := rfl

/-- A broadcast reaches every inbox once. -/
@[simp] theorem filterMap_sentTo_broadcast (m : Message) :
    (broadcast m).filterMap (Output.sentTo q d) = [m] := by
  by_cases h : d = q <;> simp [broadcast, Output.sentTo, h]

/-- Commits send nothing. -/
@[simp] theorem filterMap_sentTo_commit (bs : List ConsensusBlock) :
    (bs.map Output.commit).filterMap (Output.sentTo q d) = [] := by
  simp [List.filterMap_map, Function.comp_def]

/-- Spawned calls send nothing. -/
@[simp] theorem filterMap_sentTo_spawn {α : Type} (g : α → Task) (l : List α) :
    (l.map fun a => Output.spawn (g a)).filterMap (Output.sentTo q d) = [] := by
  simp [List.filterMap_map, Function.comp_def]

/-- The outputs of `invokeDoneAndShare` are two broadcasts. -/
@[simp] theorem filterMap_sentTo_doneShare (m m' : Message) :
    [Output.send NONE m, .send NONE m', .recv m, .recv m'].filterMap (Output.sentTo q d) =
      [m, m'] := by
  by_cases h : d = q <;> simp [Output.sentTo, h]

/-- A vote is sent at most once. -/
theorem filterMap_sentTo_sendVote (c : Core) (w : SPBVote) :
    (c.sendVote w).filterMap (Output.sentTo q d) = [] ∨
      (c.sendVote w).filterMap (Output.sentTo q d) = [.spbVote w] := by
  unfold Core.sendVote
  split_ifs
  · by_cases h : (if w.proposer = NONE then d ≠ q else d = w.proposer) <;> simp [Output.sentTo, h]
  · by_cases h : d = q <;> simp [Output.sentTo, h]

/-- `handleOutput` sends nothing. -/
theorem HaltOut.filterMap_sentTo {h : Digest} {k : Committor} (ho : HaltOut S env c h k outs) :
    outs.filterMap (Output.sentTo q d) = [] := by
  cases ho <;> simp

/-- `processLeader` sends one message at most, a halt or a prevote. -/
theorem LeaderOut.countP_eq_zero (ho : LeaderOut c v outs) (hh : ∀ h, f (.halt h) = false)
    (hp : ∀ p, f (.prevote p) = false) : (outs.filterMap (Output.sentTo q d)).countP f = 0 := by
  cases ho <;> simp [hh, hp]

end Outputs

/-! ## What a rule sends -/

variable {i : Input} {x0 x y : Hist}

/-- Why `processLeader` ran. -/
inductive LeaderCause (S : Setup) (i : Input) (x0 x y : Hist) (v : View) : Prop
  /-- A `Done` completed the quorum of the view. -/
  | ready (dn : Done) (hi : i = .msg (.done dn)) (hx : Untouched x0 x) (hv : dn.view = v)
      (hn : dn.author ∉ (x.core.aggreator.doneAggreator v).authors)
      (hq : (insert dn.author (x.core.aggreator.doneAggreator v).authors).card = S.quorum)
      (hl : y.core.elector.leaders = x.core.elector.leaders)
  /-- A share completed the coin of the view. -/
  | elect (s : ElectShare) (coin : List UInt8) (hi : i = .msg (.electShare s))
      (hx : Untouched x0 x) (hv : s.view = v)
      (hn : s.author ∉ (x.core.elector.electAggreators v).authors)
      (hq : (x.core.elector.electAggreators v).shares.length + 1 = S.quorum)
      (hc : S.combineIntactTSPartial ((x.core.elector.electAggreators v).shares ++ [s.sigShare])
        (S.electHash v) = some coin)
      (hl : coinLeader S coin = some (y.core.elector.leader v))
      (hr : y.core.readyFlags = x.core.readyFlags)

/-- Why `advanceNextRound` ran, and the hash that it looked up. -/
inductive NextCause (S : Setup) (x : Hist) (fv : FinVote) : Digest → Prop
  /-- The quorum was for no. -/
  | no (hq : ((x.core.aggreator.finvoteAggreator fv.view).count fv).noNums = S.quorum)
      (hz : ((x.core.aggreator.finvoteAggreator fv.view).count fv).yesNums = 0) :
      NextCause S x fv ((x.core.spbInstances (fv.view.slot x.core.name)).blockHash.getD 0)
  /-- The quorum was mixed. -/
  | yes (hq : ((x.core.aggreator.finvoteAggreator fv.view).count fv).yesNums +
        ((x.core.aggreator.finvoteAggreator fv.view).count fv).noNums = S.quorum)
      (hy : 0 < ((x.core.aggreator.finvoteAggreator fv.view).count fv).yesNums)
      (hz : 0 < ((x.core.aggreator.finvoteAggreator fv.view).count fv).noNums) :
      NextCause S x fv fv.blockHash

/-- The digest that a next round looks up is among those that its final vote can make it look up. -/
theorem NextCause.mem_lookups {fv : FinVote} {dg : Digest} (h : NextCause S x fv dg) :
    dg ∈ x.lookups (.msg (.finVote fv)) := by
  cases h with
  | no hq hz => exact List.mem_cons_of_mem _ (List.mem_cons_self ..)
  | yes hq hy hz => exact List.mem_cons_self ..

/-- The messages that a rule adds to those for `d`, with what the code has checked. -/
inductive Sends (S : Setup) (env : Env) (i : Input) (x0 x y : Hist) (d : NodeID) :
    List Message → Prop
  | none : Sends S env i x0 x y d []
  /-- The vote of an instance that accepts a block. -/
  | voteOne (p : SPBProposal) (hi : i = .task (.processProposal p)) (hp : p.phase = .one)
      (hb : (x.core.spbInstances p.slot).blockHash = none)
      (hy : (y.core.spbInstances p.slot).blockHash = some (S.hash p.b))
      (hd : p.author = NONE ∨ d = p.author) :
      Sends S env i x0 x y d
        [.spbVote ⟨x.core.name, p.author, S.hash p.b, p.epoch, p.round, .one⟩]
  /-- The vote of an instance that locks its block. -/
  | voteTwo (p : SPBProposal) (h : Digest) (hi : i = .task (.processProposal p))
      (hp : p.phase = .two)
      (ht : .processProposal p ∈ x.tasks) (hx : Untouched x0 x)
      (hb : (x.core.spbInstances p.slot).blockHash = some h)
      (hy : y = { x with
        core := x.core.setSpb p.slot { x.core.spbInstances p.slot with lockFlag := true }
        tasks := x.tasks.erase (.processProposal p)
        out := x.out ++ x.core.sendVote ⟨x.core.name, p.author, 0, p.epoch, p.round, .two⟩ })
      (hd : p.author = NONE ∨ d = p.author) :
      Sends S env i x0 x y d [.spbVote ⟨x.core.name, p.author, 0, p.epoch, p.round, .two⟩]
  /-- The second phase of an instance begins. -/
  | two (v : SPBVote) (ht : .processVote v ∈ x.tasks) (hp : v.phase = .one)
      (hq : (x.core.spbInstances v.slot).votes .one + 1 = S.quorum)
      (hy : (y.core.spbInstances v.slot).votes .one = S.quorum) :
      Sends S env i x0 x y d
        [.spbProposal ⟨x.core.name, ⟨v.proposer, [], -1⟩, v.epoch, v.round, .two⟩]
  /-- The second phase of an instance is complete. -/
  | finish (v : SPBVote) (h : Digest) (ht : .processVote v ∈ x.tasks) (hp : v.phase = .two)
      (hb : (x.core.spbInstances v.slot).blockHash = some h)
      (hq : (x.core.spbInstances v.slot).votes .two + 1 = S.quorum)
      (hy : (y.core.spbInstances v.slot).votes .two = S.quorum) :
      Sends S env i x0 x y d [.finish ⟨x.core.name, h, v.epoch, v.round⟩]
  /-- `invokeDoneAndShare`. -/
  | doneShare (v : View) (hd : x.core.doneFlags v = false) (hy : y.core.doneFlags v = true)
      (hc : S.quorum ≤ (x.core.aggreator.finishAggreator v).authors.card ∨
        S.committee.lowThreshold ≤ (x.core.aggreator.doneAggreator v).authors.card) :
      Sends S env i x0 x y d [.done ⟨x.core.name, v.epoch, v.round⟩,
        .electShare ⟨x.core.name, v.epoch, v.round,
          S.requestTsSugnature x.core.name (S.electHash v)⟩]
  /-- `processLeader`. -/
  | leader (v : View) (outs : List Output) (he : x.core.epoch ≤ v.epoch)
      (ho : LeaderOut y.core v outs) (hc : LeaderCause S i x0 x y v) :
      Sends S env i x0 x y d (outs.filterMap (Output.sentTo x.core.name d))
  /-- The answer to a first prevote for yes. -/
  | finVoteYes (pv : Prevote) (hi : i = .msg (.prevote pv)) (hh : .prevote pv ∈ x.handled)
      (hx : Untouched x0 x) (he : x.core.epoch ≤ pv.epoch)
      (hn : pv.author ∉ (x.core.aggreator.prevoteAggreator pv.view).authors)
      (hc : 0 < ((x.core.aggreator.prevoteAggreator pv.view).count pv).yesNums)
      (hf : (x.core.aggreator.prevoteAggreator pv.view).flag = false)
      (hy : y.core.aggreator.prevoteAggreator = Function.update x.core.aggreator.prevoteAggreator
        pv.view { (x.core.aggreator.prevoteAggreator pv.view).count pv with flag := true }) :
      Sends S env i x0 x y d
        [.finVote (newFinVote x.core.name pv.leader pv.epoch pv.round .yes pv.blockHash)]
  /-- The answer to a quorum of prevotes for no. -/
  | finVoteNo (pv : Prevote) (hh : .prevote pv ∈ x.handled)
      (hn : pv.author ∉ (x.core.aggreator.prevoteAggreator pv.view).authors)
      (hq : ((x.core.aggreator.prevoteAggreator pv.view).count pv).noNums = S.quorum)
      (hz : ((x.core.aggreator.prevoteAggreator pv.view).count pv).yesNums = 0)
      (hf : (x.core.aggreator.prevoteAggreator pv.view).flag = false)
      (hy : y.core.aggreator.prevoteAggreator = Function.update x.core.aggreator.prevoteAggreator
        pv.view ((x.core.aggreator.prevoteAggreator pv.view).count pv)) :
      Sends S env i x0 x y d
        [.finVote (newFinVote x.core.name pv.leader pv.epoch pv.round .no pv.blockHash)]
  /-- The answer to a quorum of final votes for yes. -/
  | halt (fv : FinVote) (hi : i = .msg (.finVote fv)) (hh : .finVote fv ∈ x.handled)
      (hx : Untouched x0 x) (he : x.core.epoch ≤ fv.epoch)
      (hn : fv.author ∉ (x.core.aggreator.finvoteAggreator fv.view).authors)
      (hq : ((x.core.aggreator.finvoteAggreator fv.view).count fv).yesNums = S.quorum)
      (hz : ((x.core.aggreator.finvoteAggreator fv.view).count fv).noNums = 0)
      (hy : y.core.aggreator.finvoteAggreator = Function.update x.core.aggreator.finvoteAggreator
        fv.view ((x.core.aggreator.finvoteAggreator fv.view).count fv)) :
      Sends S env i x0 x y d
        [.halt ⟨x.core.name, fv.epoch, fv.round, fv.leader, fv.blockHash⟩]
  /-- The proposal of a next round. -/
  | next (fv : FinVote) (dg : Digest) (b : ConsensusBlock) (hi : i = .msg (.finVote fv))
      (hh : .finVote fv ∈ x.handled) (hx : Untouched x0 x)
      (hn : fv.author ∉ (x.core.aggreator.finvoteAggreator fv.view).authors)
      (hc : NextCause S x fv dg)
      (hb : x.core.decoded env dg = some b ∨
        (S.absent = .notFoundKey ∧ b = x.core.generatorBlock env fv.epoch ∧ .create b ∈ y.out))
      (hy : y.core.aggreator.finvoteAggreator = Function.update x.core.aggreator.finvoteAggreator
        fv.view ((x.core.aggreator.finvoteAggreator fv.view).count fv)) :
      Sends S env i x0 x y d [.spbProposal ⟨x.core.name, b, fv.epoch, succ64 fv.round, .one⟩]
  /-- The first proposal of an epoch. -/
  | first (e : ℤ) (he : y.core.epoch = e) (hs : y.status = .running)
      (hx : (x.core.epoch < e ∧ x.status = .running) ∨ (x.core.epoch = e ∧ x.status = .idle))
      (ho : .create (x.core.generatorBlock env e) ∈ y.out) :
      Sends S env i x0 x y d
        [.spbProposal ⟨x.core.name, x.core.generatorBlock env e, e, 0, .one⟩]

/-- A node keeps its name. -/
theorem Rule.name_eq (h : Rule S env i x0 x y) : y.core.name = x.core.name := by
  cases h <;> rfl

/-- New outputs add to the messages for `d`. -/
theorem sentTo_append (d : NodeID) {new : List Output} (hn : y.core.name = x.core.name)
    (ho : y.out = x.out ++ new) :
    y.sentTo d = x.sentTo d ++ new.filterMap (Output.sentTo x.core.name d) := by
  unfold Hist.sentTo
  rw [hn, ho, List.filterMap_append]

/-- A step appends the message that it takes. -/
theorem Hist.step_handled {x y : Hist} {outs : List Output} (h : x.step S env i = some (y, outs)) :
    y.handled = x.handled ++ i.msg?.toList := by
  obtain ⟨o, -, rfl, rfl⟩ := Hist.step_eq_some h
  rfl

/-- A step appends its outputs. -/
theorem Hist.step_out {x y : Hist} {outs : List Output} (h : x.step S env i = some (y, outs)) :
    y.out = x.out ++ outs := by
  obtain ⟨o, -, rfl, rfl⟩ := Hist.step_eq_some h
  rfl

/-- The outputs of a step add to the messages for `d`. -/
theorem Hist.step_sentTo {outs : List Output} (h : x.step S env i = some (y, outs)) (d : NodeID) :
    y.sentTo d = x.sentTo d ++ outs.filterMap (Output.sentTo x.core.name d) := by
  have hname : y.core.name = x.core.name :=
    step_invariant (I := fun z => z.core.name = x.core.name)
    (fun hr hz => hr.name_eq.trans hz) h rfl
  exact sentTo_append d hname (Hist.step_out h)

/-- A vote reaches `d` only as its proposer. -/
theorem sendVote_addressee {c : Core} {w : SPBVote} {d : NodeID}
    (h : (c.sendVote w).filterMap (Output.sentTo c.name d) ≠ []) :
    w.proposer = NONE ∨ d = w.proposer := by
  unfold Core.sendVote at h
  by_cases hn : c.name = w.proposer
  · by_cases hd : d = c.name
    · exact .inr (hd.trans hn)
    · simp [hn, Output.sentTo, hn ▸ hd] at h
  · by_cases hnone : w.proposer = NONE
    · exact .inl hnone
    · by_cases hd : d = w.proposer
      · exact .inr hd
      · simp [hn, Output.sentTo, hnone, hd] at h

/-- What a rule adds to the messages for `d`. -/
theorem Rule.sends (h : Rule S env i x0 x y) (d : NodeID) :
    ∃ new, Sends S env i x0 x y d new ∧ y.sentTo d = x.sentTo d ++ new := by
  -- Most rules let nothing out for anybody, or make one broadcast.
  have hquiet : ∀ {outs : List Output}, y.out = x.out ++ outs →
      outs.filterMap (Output.sentTo x.core.name d) = [] →
      ∃ new, Sends S env i x0 x y d new ∧ y.sentTo d = x.sentTo d ++ new := fun ho hnil =>
    ⟨[], .none, by rw [sentTo_append d h.name_eq ho, hnil]⟩
  have hsame : y.out = x.out → ∃ new, Sends S env i x0 x y d new ∧ y.sentTo d = x.sentTo d ++ new :=
    fun ho => hquiet (ho.trans (List.append_nil _).symm) rfl
  have hbroadcast : ∀ {m : Message}, y.out = x.out ++ broadcast m → Sends S env i x0 x y d [m] →
      ∃ new, Sends S env i x0 x y d new ∧ y.sentTo d = x.sentTo d ++ new := fun ho hs =>
    ⟨_, hs, by rw [sentTo_append d h.name_eq ho, filterMap_sentTo_broadcast]⟩
  have hname := h.name_eq
  cases h with
  | forward m t hi ht => exact hquiet rfl rfl
  | sync p hp ho hm => exact hquiet rfl rfl
  | lateCommit p hp ho hx hh hl hm => exact hquiet rfl (filterMap_sentTo_commit _)
  | spawnOne p hp hi hh he hs hm => exact hquiet rfl rfl
  | spawnLoop e b hi hs he => exact hquiet rfl rfl
  | doneShare v hd hc =>
    refine ⟨_, .doneShare v hd (Function.update_self ..) hc, ?_⟩
    rw [sentTo_append d hname rfl, filterMap_sentTo_doneShare]
  | ready dn outs hi hh hx he hn hq ho =>
    exact ⟨_, .leader dn.view outs he (ho.of_core rfl rfl rfl rfl rfl)
      (.ready dn hi hx rfl hn hq rfl), sentTo_append d hname rfl⟩
  | elect s coin leader outs hi hh hx he hn hq hc hl ho =>
    refine ⟨_, .leader s.view outs he (ho.of_core rfl rfl rfl rfl rfl)
      (.elect s coin hi hx rfl hn ?_ hc ?_ rfl), sentTo_append d hname rfl⟩
    · simpa using hq
    · simp [hl, Elector.leader]
  | prevoteYes pv hi hh hx he hn hc hf =>
      exact hbroadcast rfl (.finVoteYes pv hi hh hx he hn hc hf rfl)
  | prevoteNo pv hh he hn hq hz hf => exact hbroadcast rfl (.finVoteNo pv hh hn hq hz hf rfl)
  | finCommit fv hi hh hx he hn hq hz => exact hbroadcast rfl (.halt fv hi hh hx he hn hq hz rfl)
  | finNo fv outs hi hh hx he hn hq hz ho =>
    cases ho with
    | fail => exact hquiet rfl rfl
    | get b hb => exact hbroadcast rfl (.next fv _ b hi hh hx hn (.no hq hz) (.inl hb) rfl)
    | create ha =>
      refine ⟨_, .next fv _ _ hi hh hx hn (.no hq hz) (.inr ⟨ha, rfl, ?_⟩) rfl, ?_⟩
      · exact List.mem_append_right _ (List.mem_cons_self ..)
      · rw [sentTo_append d hname rfl, List.filterMap_cons_none (sentTo_create _),
          filterMap_sentTo_broadcast]
        rfl
  | finYes fv outs hi hh hx he hn hq hy hz ho =>
    cases ho with
    | fail => exact hquiet rfl rfl
    | get b hb => exact hbroadcast rfl (.next fv _ b hi hh hx hn (.yes hq hy hz) (.inl hb) rfl)
    | create ha =>
      refine ⟨_, .next fv _ _ hi hh hx hn (.yes hq hy hz) (.inr ⟨ha, rfl, ?_⟩) rfl, ?_⟩
      · exact List.mem_append_right _ (List.mem_cons_self ..)
      · rw [sentTo_append d hname rfl, List.filterMap_cons_none (sentTo_create _),
          filterMap_sentTo_broadcast]
        rfl
  | haltStay h k outs hi hh hx he hf ho hs => exact hquiet rfl ho.filterMap_sentTo
  | haltNext h k outs hi hr hh hx he hf ho hs =>
    refine ⟨_, .first (succ64 h.epoch) rfl hr (.inl ⟨hs, hr⟩) (by simp), ?_⟩
    rw [sentTo_append d hname rfl, List.filterMap_append, ho.filterMap_sentTo,
      List.filterMap_cons_none (sentTo_create _), filterMap_sentTo_broadcast]
    rfl
  | voteOne p hi hp ht hb ha =>
    -- The vote comes first, and the calls that are spawned after it send nothing.
    have heq := sentTo_append d hname rfl
    rw [List.filterMap_append, List.filterMap_append, filterMap_sentTo_spawn,
      filterMap_sentTo_spawn, List.append_nil, List.append_nil] at heq
    rcases filterMap_sentTo_sendVote (q := x.core.name) (d := d) x.core
      ⟨x.core.name, p.author, S.hash p.b, p.epoch, p.round, .one⟩ with hv | hv
    · exact ⟨[], .none, by rw [heq, hv]⟩
    · refine ⟨_, .voteOne p hi hp hb ?_
        (sendVote_addressee (hv ▸ List.cons_ne_nil _ _)), by rw [heq, hv]⟩
      simp [Core.setSpb]
  | voteTwo p h hi hp ht hx hb =>
    rcases filterMap_sentTo_sendVote (q := x.core.name) (d := d) x.core
      ⟨x.core.name, p.author, 0, p.epoch, p.round, .two⟩ with hv | hv
    · exact hquiet rfl hv
    · refine ⟨_, .voteTwo p h hi hp ht hx hb rfl (sendVote_addressee (hv ▸ List.cons_ne_nil _ _)),
        ?_⟩
      rw [sentTo_append d hname rfl, hv]
  | countVote v h ht hb =>
    unfold Core.voteOutput at hquiet hbroadcast ⊢
    -- Only the vote that completes a quorum is answered, and only in the first two phases.
    by_cases hq : (x.core.spbInstances v.slot).votes v.phase + 1 = S.quorum
    · simp only [if_pos hq] at hquiet hbroadcast ⊢
      cases hp : v.phase with
      | one =>
        simp only [hp] at hq hbroadcast ⊢
        exact hbroadcast rfl (.two v ht hp hq (by simpa [Core.setSpb, hp] using hq))
      | two =>
        simp only [hp] at hq hbroadcast ⊢
        exact hbroadcast rfl (.finish v h ht hp hb hq (by simpa [Core.setSpb, hp] using hq))
      | other code =>
        simp only [hp] at hquiet ⊢
        exact hquiet rfl rfl
    · simp only [if_neg hq] at hquiet ⊢
      exact hquiet rfl rfl
  | start hs =>
    refine ⟨_, .first x.core.epoch rfl rfl (.inr ⟨rfl, hs⟩) (by simp), ?_⟩
    rw [sentTo_append d hname rfl, List.filterMap_cons_none (sentTo_create _),
      filterMap_sentTo_broadcast]
  | _ => exact hsame rfl

/-! ## What a message of a kind stands for -/

section Kinds

variable {d : NodeID} {new : List Message}

/-- A vote goes to its proposer. One of the first phase is for the block that the instance has just
accepted, and one of the second phase tells of its lock. -/
theorem Sends.spbVote (h : Sends S env i x0 x y d new) {v : SPBVote} (hm : .spbVote v ∈ new) :
    (v.proposer = NONE ∨ d = v.proposer) ∧
      ((v.phase = .one ∧ (y.core.spbInstances v.slot).blockHash = some v.blockHash ∧
          ∃ p, i = .task (.processProposal p) ∧ p.phase = .one ∧ S.hash p.b = v.blockHash) ∨
        (v.phase = .two ∧ (y.core.spbInstances v.slot).lockFlag = true)) := by
  cases h with
  | voteOne p hi hp hb hy hd =>
    obtain rfl : v = _ := by simpa using hm
    exact ⟨hd, .inl ⟨rfl, hy, p, hi, hp, rfl⟩⟩
  | voteTwo p h hi hp ht hx hb hy hd =>
    obtain rfl : v = _ := by simpa using hm
    refine ⟨hd, .inr ⟨rfl, ?_⟩⟩
    simp [hy, Core.setSpb, SPBVote.slot, SPBProposal.slot]
  | leader v outs he ho hc => cases ho <;> simp at hm
  | _ => simp at hm

/-- A proposal of the second phase tells of a quorum of phase-one votes. One of the first phase has
a block that the node reads from the store or creates. -/
theorem Sends.spbProposal (h : Sends S env i x0 x y d new) {p : SPBProposal}
    (hm : .spbProposal p ∈ new) :
    (p.phase = .two ∧ (y.core.spbInstances (p.view.slot p.b.proposer)).votes .one = S.quorum) ∨
      (p.phase = .one ∧ ((∃ dg, x.core.decoded env dg = some p.b) ∨ .create p.b ∈ y.out)) := by
  cases h with
  | two v ht hv hq hy =>
    obtain rfl : p = _ := by simpa using hm
    exact .inl ⟨rfl, hy⟩
  | next fv dg b hi hh hx hn hc hb hy =>
    obtain rfl : p = _ := by simpa using hm
    exact .inr ⟨rfl, hb.imp (fun hb => ⟨dg, hb⟩) fun hb => hb.2.2⟩
  | first e he hs hx ho =>
    obtain rfl : p = _ := by simpa using hm
    exact .inr ⟨rfl, .inr ho⟩
  | leader v outs he ho hc => cases ho <;> simp at hm
  | _ => simp at hm

/-- A prevote names the leader of a ready view, and says whether the leader's instance is locked. -/
theorem Sends.prevote (h : Sends S env i x0 x y d new) {pv : Prevote} (hm : .prevote pv ∈ new) :
    LeaderCause S i x0 x y pv.view ∧ x.core.epoch ≤ pv.epoch ∧
      y.core.readyFlags pv.view = true ∧ pv.leader = y.core.elector.leader pv.view ∧
      pv.leader ≠ NONE ∧
      ((pv.flag = .yes ∧ (y.core.spbInstances (pv.view.slot pv.leader)).lockFlag = true ∧
          (y.core.spbInstances (pv.view.slot pv.leader)).blockHash = some pv.blockHash) ∨
        (pv.flag = .no ∧ pv.blockHash = 0 ∧
          (y.core.spbInstances (pv.view.slot pv.leader)).lockFlag = false)) := by
  cases h with
  | leader v outs he ho hc =>
    cases ho with
    | none => simp at hm
    | halt dg hr hl hd => simp at hm
    | yes dg hr hl hlock hb =>
      obtain rfl : pv = _ := by simpa using hm
      exact ⟨hc, he, hr, rfl, hl, .inl ⟨rfl, hlock, hb⟩⟩
    | no hr hl hlock =>
      obtain rfl : pv = _ := by simpa using hm
      exact ⟨hc, he, hr, rfl, hl, .inr ⟨rfl, rfl, hlock⟩⟩
  | _ => simp at hm

/-- A halt comes from `processLeader`, for a leader that has finished, or from a quorum of final
votes for yes. -/
theorem Sends.of_halt (h : Sends S env i x0 x y d new) {ht : Halt} (hm : .halt ht ∈ new) :
    (LeaderCause S i x0 x y ht.view ∧ x.core.epoch ≤ ht.epoch ∧
      y.core.readyFlags ht.view = true ∧ ht.leader = y.core.elector.leader ht.view ∧
      ht.leader ≠ NONE ∧ y.core.finishFlags (ht.view.slot ht.leader) = some ht.blockHash) ∨
    ∃ fv, i = .msg (.finVote fv) ∧ .finVote fv ∈ x.handled ∧ Untouched x0 x ∧
      x.core.epoch ≤ fv.epoch ∧ fv.author ∉ (x.core.aggreator.finvoteAggreator fv.view).authors ∧
      ((x.core.aggreator.finvoteAggreator fv.view).count fv).yesNums = S.quorum ∧
      ((x.core.aggreator.finvoteAggreator fv.view).count fv).noNums = 0 ∧
      y.core.aggreator.finvoteAggreator fv.view =
        (x.core.aggreator.finvoteAggreator fv.view).count fv ∧
      ht.view = fv.view ∧ ht.leader = fv.leader ∧ ht.blockHash = fv.blockHash := by
  cases h with
  | leader v outs he ho hc =>
    cases ho with
    | none => simp at hm
    | halt dg hr hl hd =>
      obtain rfl : ht = _ := by simpa using hm
      exact .inl ⟨hc, he, hr, rfl, hl, hd⟩
    | yes dg hr hl hlock hb => simp at hm
    | no hr hl hlock => simp at hm
  | halt fv hi hh hx he hn hq hz hy =>
    obtain rfl : ht = _ := by simpa using hm
    refine .inr ⟨fv, hi, hh, hx, he, hn, hq, hz, ?_, rfl, rfl, rfl⟩
    rw [hy, Function.update_self]
  | _ => simp at hm

/-- A step sends what one of its rules sends: what holds after that rule and stays along the rules
that follow holds after the step. -/
theorem Hist.step_sends {Q : Hist → Prop} {outs : List Output}
    (h : x.step S env i = some (y, outs)) {m : Message}
    (hstays : ∀ {z z' : Hist}, Rule S env i x z z' → Q z → Q z')
    (hnew : ∀ {z z' : Hist} {new : List Message}, Sends S env i x z z' d new →
      z.core.name = x.core.name → m ∈ new → Q z')
    (hm : m ∈ outs.filterMap (Output.sentTo x.core.name d)) : Q y := by
  have hinv : ∃ new, y.sentTo d = x.sentTo d ++ new ∧ y.core.name = x.core.name ∧
      (m ∈ new → Q y) := by
    refine step_invariant (I := fun z => ∃ new, z.sentTo d = x.sentTo d ++ new ∧
      z.core.name = x.core.name ∧ (m ∈ new → Q z)) ?_ h ⟨[], by simp, rfl, by simp⟩
    rintro z z' hrule ⟨new, heq, hname, hQ⟩
    obtain ⟨new', hsends, heq'⟩ := hrule.sends d
    refine ⟨new ++ new', by rw [heq', heq, List.append_assoc], hrule.name_eq.trans hname,
      fun hmem => ?_⟩
    rcases List.mem_append.mp hmem with hmem | hmem
    · exact hstays hrule (hQ hmem)
    · exact hnew hsends hname hmem
  obtain ⟨new, heq, -, hQ⟩ := hinv
  -- The outputs of the step are all that its rules have added.
  rw [Hist.step_sentTo h] at heq
  rw [List.append_cancel_left heq] at hm
  exact hQ hm

end Kinds

/-! ## Broadcasts reach everybody -/

/-- Every message but a vote is broadcast. -/
def Message.isBroadcast : Message → Bool
  | .spbVote _ => false
  | _ => true

/-- The message that an output passes to `Transimtor.Send` for every other node. -/
def Output.broadcast? : Output → Option Message
  | .send dst m => if dst = NONE then some m else none
  | _ => none

/-- A broadcast reaches every other node. -/
theorem Output.sentTo_of_broadcast {o : Output} {m : Message} (h : o.broadcast? = some m)
    {q d : NodeID} (hd : d ≠ q) : o.sentTo q d = some m := by
  cases o with
  | send dst m' =>
    by_cases hdst : dst = NONE
    · simp only [Output.broadcast?, hdst, if_true, Option.some.injEq] at h
      simp [Output.sentTo, hdst, hd, h]
    · simp [Output.broadcast?, hdst] at h
  | _ => cases h

/-- The messages that a node has broadcast. -/
def Hist.broadcasts (x : Hist) : List Message := x.out.filterMap Output.broadcast?

/-- A node has broadcast the message. -/
def Hist.Broadcast (x : Hist) (m : Message) : Prop := m ∈ x.broadcasts

instance (x : Hist) (m : Message) : Decidable (x.Broadcast m) :=
  inferInstanceAs (Decidable (_ ∈ _))

/-- Outputs of `q` let the same out for everybody, votes apart, and that is what they broadcast. -/
def EvenOutputs (q : NodeID) (outs : List Output) : Prop :=
  ∀ d, (outs.filterMap (Output.sentTo q d)).filter Message.isBroadcast =
    (outs.filterMap Output.broadcast?).filter Message.isBroadcast

namespace EvenOutputs

variable {q : NodeID} {l l' : List Output}

theorem nil : EvenOutputs q [] := fun _ => rfl

theorem append (h : EvenOutputs q l) (h' : EvenOutputs q l') : EvenOutputs q (l ++ l') := by
  intro d
  rw [List.filterMap_append, List.filterMap_append, List.filter_append,
    List.filter_append, h d, h' d]

/-- A push onto the own channel completes a broadcast. -/
theorem broadcast (m : Message) : EvenOutputs q (SMVBA.broadcast m) := by
  intro d
  rw [filterMap_sentTo_broadcast]
  rfl

/-- `invokeDoneAndShare` makes two broadcasts. -/
theorem doneShare (m m' : Message) :
    EvenOutputs q [.send NONE m, .send NONE m', .recv m, .recv m'] := by
  intro d
  rw [filterMap_sentTo_doneShare]
  rfl

/-- Outputs that send nothing. -/
theorem of_quiet (hs : ∀ o ∈ l, (∀ d, o.sentTo q d = none) ∧ o.broadcast? = none) :
    EvenOutputs q l := by
  intro d
  rw [List.filterMap_eq_nil_iff.mpr fun o ho => (hs o ho).1 d,
    List.filterMap_eq_nil_iff.mpr fun o ho => (hs o ho).2]

theorem create (b : ConsensusBlock) : EvenOutputs q [.create b] := fun _ => rfl

theorem commits (bs : List ConsensusBlock) : EvenOutputs q (bs.map .commit) := by
  refine of_quiet fun o ho => ?_
  obtain ⟨b, -, rfl⟩ := List.mem_map.mp ho
  exact ⟨fun _ => rfl, rfl⟩

theorem spawns {α : Type} (g : α → Task) (as : List α) :
    EvenOutputs q (as.map fun a => .spawn (g a)) := by
  refine of_quiet fun o ho => ?_
  obtain ⟨a, -, rfl⟩ := List.mem_map.mp ho
  exact ⟨fun _ => rfl, rfl⟩

/-- Votes do not count. -/
theorem sendVote (c : Core) (w : SPBVote) : EvenOutputs q (c.sendVote w) := by
  intro d
  have hsent : ((c.sendVote w).filterMap (Output.sentTo q d)).filter Message.isBroadcast = [] := by
    rcases filterMap_sentTo_sendVote (q := q) (d := d) c w with he | he <;> rw [he] <;> rfl
  rw [hsent]
  unfold Core.sendVote
  split_ifs with hn
  · by_cases hnone : w.proposer = NONE <;> simp [hnone, Output.broadcast?, Message.isBroadcast]
  · rfl

theorem voteOutput (c : Core) (v : SPBVote) (d : Digest) (n : ℕ) :
    EvenOutputs q (c.voteOutput S v d n) := by
  unfold Core.voteOutput
  split_ifs with hq
  · cases v.phase with
    | one => exact .broadcast _
    | two => exact .broadcast _
    | other code => exact .nil
  · exact .nil

theorem leaderOut {c : Core} {v : View} (h : LeaderOut c v l) : EvenOutputs q l := by
  cases h with
  | none => exact .nil
  | halt d _ _ _ | yes d _ _ _ _ | no _ _ _ => exact .broadcast _

theorem nextOut {c : Core} {v : View} {d : Digest} (h : NextOut S env c v d l) :
    EvenOutputs q l := by
  cases h with
  | fail => exact .nil
  | get b hb => exact .broadcast _
  | create ha => exact (EvenOutputs.create _).append (.broadcast _)

theorem haltOut {c : Core} {d : Digest} {k : Committor} (h : HaltOut S env c d k l) :
    EvenOutputs q l := by
  cases h with
  | commit b hb hm => exact .commits _
  | sync b hb hm => exact fun _ => rfl
  | absent hb ha => exact .nil

end EvenOutputs

/-- The outputs of a rule let the same out for everybody. -/
theorem Rule.evenOutputs (h : Rule S env i x0 x y) :
    ∃ outs, y.out = x.out ++ outs ∧ EvenOutputs x.core.name outs := by
  have hsame : y.out = x.out → ∃ outs, y.out = x.out ++ outs ∧ EvenOutputs x.core.name outs :=
    fun ho => ⟨[], ho.trans (List.append_nil _).symm, .nil⟩
  cases h with
  | forward _ _ _ _ | sync _ _ _ _ | spawnOne _ _ _ _ _ _ _ | spawnLoop _ _ _ _ _ =>
    exact ⟨_, rfl, fun _ => rfl⟩
  | lateCommit p hp ho hx hh hl hm => exact ⟨_, rfl, .commits _⟩
  | doneShare v hd hc => exact ⟨_, rfl, .doneShare _ _⟩
  | ready dn outs hi hh hx he hn hq ho => exact ⟨_, rfl, .leaderOut ho⟩
  | elect s coin leader outs hi hh hx he hn hq hc hl ho => exact ⟨_, rfl, .leaderOut ho⟩
  | prevoteYes _ _ _ _ _ _ _ _ | prevoteNo _ _ _ _ _ _ _ | finCommit _ _ _ _ _ _ _ _ =>
    exact ⟨_, rfl, .broadcast _⟩
  | finNo fv outs hi hh hx he hn hq hz ho => exact ⟨_, rfl, .nextOut ho⟩
  | finYes fv outs hi hh hx he hn hq hy hz ho => exact ⟨_, rfl, .nextOut ho⟩
  | haltStay h k outs hi hh hx he hf ho hs => exact ⟨_, rfl, .haltOut ho⟩
  | haltNext h k outs hi hr hh hx he hf ho hs =>
    exact ⟨_, rfl, (EvenOutputs.haltOut ho).append ((EvenOutputs.create _).append (.broadcast _))⟩
  | voteOne p hi hp ht hb ha =>
    exact ⟨_, rfl, ((EvenOutputs.sendVote _ _).append (.spawns _ _)).append (.spawns _ _)⟩
  | voteTwo p d hi hp ht hx hb => exact ⟨_, rfl, .sendVote _ _⟩
  | countVote v d ht hb => exact ⟨_, rfl, .voteOutput _ _ _ _⟩
  | start hs => exact ⟨_, rfl, (EvenOutputs.create _).append (.broadcast _)⟩
  | _ => exact hsame rfl

/-- What a node let out for anybody, votes apart, it has broadcast. -/
def Evenhanded (x : Hist) : Prop := EvenOutputs x.core.name x.out

theorem Evenhanded.rule (h : Rule S env i x0 x y) (hx : Evenhanded x) : Evenhanded y := by
  obtain ⟨outs, heq, hnew⟩ := h.evenOutputs
  unfold Evenhanded
  rw [heq, h.name_eq]
  exact EvenOutputs.append hx hnew

/-- A broadcast reached every inbox, and what reached an inbox was broadcast. -/
theorem Evenhanded.mem_iff (hx : Evenhanded x) {m : Message} (hb : m.isBroadcast = true)
    (d : NodeID) : m ∈ x.sentTo d ↔ x.Broadcast m := by
  have hmem : m ∈ (x.sentTo d).filter Message.isBroadcast ↔
      m ∈ x.broadcasts.filter Message.isBroadcast := by
    unfold Hist.sentTo Hist.broadcasts
    rw [hx d]
  rw [List.mem_filter, List.mem_filter] at hmem
  exact ⟨fun h => (hmem.mp ⟨h, hb⟩).1, fun h => (hmem.mpr ⟨h, hb⟩).1⟩

/-- What reached one inbox, votes apart, reached all of them. -/
theorem Evenhanded.mem (hx : Evenhanded x) {d : NodeID} {m : Message} (hm : m ∈ x.sentTo d)
    (hb : m.isBroadcast = true) (d' : NodeID) : m ∈ x.sentTo d' :=
  (hx.mem_iff hb d').mpr ((hx.mem_iff hb d).mp hm)

/-- Counting broadcasts of a kind that is not a vote. -/
theorem Evenhanded.countP_broadcasts (hx : Evenhanded x) {f : Message → Bool}
    (hf : ∀ m, f m = true → m.isBroadcast = true) (d : NodeID) :
    x.broadcasts.countP f = (x.sentTo d).countP f := by
  have hfilter : ∀ l : List Message, l.countP f = (l.filter Message.isBroadcast).countP f := by
    intro l
    rw [List.countP_filter]
    refine List.countP_congr fun m _ => ?_
    simpa using hf m
  rw [hfilter, hfilter (x.sentTo d)]
  unfold Hist.sentTo Hist.broadcasts
  rw [hx d]

end SMVBA
