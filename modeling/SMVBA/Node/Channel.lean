import SMVBA.Library.Channel
import SMVBA.Network.Exec

/-!
# The receive channel

`Transmitor.recvCh` has room for 10000 messages. The goroutine of the receiver pushes what comes
from the network, the SPB goroutines push their votes, proposals and `Finish` messages, and the
handlers of the core push what they broadcast. Only `Core.Run` takes from it, and it takes nothing
while a handler waits to push. `ChanNode` is a node with its channel: what the running handler has
still to push, and what the SPB goroutines wait to push. Forgetting the channel leaves a run of the
node (`Reaches.localRun`).

If the channel fills up while a handler has to push, the core waits for itself, for good
(`Stuck.forever`). A handler of a `Finish` or a `Done` pushes at most two messages, every other at
most one (`length_pushes_handle`), and so the core never waits for itself if the others leave room
for what the running handler has to push, and a `Finish` or a `Done` is not taken from a full
channel (`RoomLeft`).
-/

namespace SMVBA

open Channel

/-- The capacity of `recvCh`. -/
def recvCapacity : ℕ := 10000

/-- What the receive channel holds: a message that passes `Verify`, or one that `Core.Run` drops. -/
inductive Arrival where
  | valid (m : Message)
  | invalid
deriving DecidableEq, Repr

/-- The message that an output pushes onto the node's own channel. -/
def Output.recv? : Output → Option Message
  | .recv m => some m
  | _ => none

/-- What outputs push onto the node's own channel, in order. -/
def pushes (outs : List Output) : List Message := outs.filterMap Output.recv?

/-- A node with its receive channel. -/
structure ChanNode where
  hist : Hist
  chan : Chan Arrival := {}
  /-- What SPB goroutines wait to push. -/
  waiting : List Message := []

/-- What can happen at a node with its channel. -/
inductive ChanAct where
  /-- `Core.Run` starts. -/
  | start (env : Env)
  /-- `Core.Run` takes the next message from the channel, and its handler runs up to its first push.
  -/
  | take (env : Env)
  /-- `Core.Run` takes a digest from the loopback channel. -/
  | loopBack (env : Env) (d : Digest)
  /-- The running handler pushes its next message. -/
  | push
  /-- The goroutine of the receiver pushes. -/
  | receive (a : Arrival)
  /-- A spawned call runs up to its push. -/
  | call (env : Env) (t : Task)
  /-- An SPB goroutine pushes. -/
  | answer (m : Message)

namespace ChanNode

variable (S : Setup)

/-- The node of `NewCore` and `NewTransmitor`. -/
def init (name : NodeID) : ChanNode where
  hist := .init name

/-- A handler of the core, which has then to push what it broadcasts. -/
def handle (x : ChanNode) (env : Env) (queue : List Arrival) (i : Input) : Option ChanNode :=
  (x.hist.step S env i).map fun r =>
    { x with hist := r.1, chan := ⟨queue, (pushes r.2).map .valid⟩ }

/-- One step of a node with its channel. -/
def act (x : ChanNode) : ChanAct → Option ChanNode
  | .start env => if x.chan.pushing = [] then x.handle S env x.chan.queue .start else none
  | .take env =>
    match x.chan.take with
    | some (.valid m, queue) => x.handle S env queue (.msg m)
    | some (.invalid, queue) =>
      if x.hist.status = .running then some { x with chan := ⟨queue, []⟩ } else none
    | none => none
  | .loopBack env d =>
    if x.chan.pushing = [] then x.handle S env x.chan.queue (.loopBack d) else none
  | .push => (x.chan.push recvCapacity).map fun chan => { x with chan := chan }
  | .receive a => (x.chan.put recvCapacity a).map fun chan => { x with chan := chan }
  | .call env t => (x.hist.step S env (.task t)).map fun r =>
      { x with hist := r.1, waiting := x.waiting ++ pushes r.2 }
  | .answer m =>
    if m ∈ x.waiting then
      (x.chan.put recvCapacity (.valid m)).map fun chan =>
        { x with chan := chan, waiting := x.waiting.erase m }
    else none

/-- The core waits to push onto the full channel, which only it empties. -/
def Stuck (x : ChanNode) : Prop := x.chan.Stuck recvCapacity

instance (x : ChanNode) : Decidable x.Stuck := inferInstanceAs (Decidable (x.chan.Stuck _))

/-- One step under a condition. -/
def Step (ok : ChanNode → ChanAct → Prop) (x y : ChanNode) : Prop :=
  ∃ a, ok x a ∧ x.act S a = some y

/-- Any number of steps under a condition. -/
abbrev Reaches (ok : ChanNode → ChanAct → Prop) : ChanNode → ChanNode → Prop :=
  Relation.ReflTransGen (Step S ok)

end ChanNode

/-- How many messages the handler of an arrival pushes at most. -/
def Arrival.mayPush : Arrival → ℕ
  | .valid (.finish _) => 2
  | .valid (.done _) => 2
  | .valid (.spbProposal _) => 0
  | .valid (.spbVote _) => 0
  | .valid _ => 1
  | .invalid => 0

/-- How many messages the node pushes at most when it takes an input. -/
def Input.mayPush : Input → ℕ
  | .start => 1
  | .msg m => (Arrival.valid m).mayPush
  | .loopBack _ => 0
  | .task _ => 1

/-- The receiver and the SPB goroutines push only while there is more room than the running handler
needs, and the core starts, or takes a message, only if there is room afterwards for what the
handler may push. Taking a message makes room for one, so this last condition is about `Finish` and
`Done` only, which are not to be taken from a full channel. -/
def RoomLeft (x : ChanNode) : ChanAct → Prop
  | .start _ => x.chan.queue.length < recvCapacity
  | .take _ => ∀ a ∈ x.chan.queue.head?, x.chan.queue.length + a.mayPush ≤ recvCapacity + 1
  | .receive _ => x.chan.queue.length + x.chan.pushing.length < recvCapacity
  | .answer _ => x.chan.queue.length + x.chan.pushing.length < recvCapacity
  | _ => True

instance (x : ChanNode) : (a : ChanAct) → Decidable (RoomLeft x a)
  | .start _ => inferInstanceAs (Decidable (_ < _))
  | .take _ => inferInstanceAs (Decidable (∀ a ∈ x.chan.queue.head?, _))
  | .loopBack _ _ => inferInstanceAs (Decidable True)
  | .push => inferInstanceAs (Decidable True)
  | .receive _ => inferInstanceAs (Decidable (_ < _))
  | .call _ _ => inferInstanceAs (Decidable True)
  | .answer _ => inferInstanceAs (Decidable (_ < _))

/-! ## What handlers push -/

section Pushes

variable {S : Setup} {env : Env} {c : Core}

@[simp] theorem pushes_append (outs outs' : List Output) :
    pushes (outs ++ outs') = pushes outs ++ pushes outs' := List.filterMap_append

@[simp] theorem pushes_commit (bs : List ConsensusBlock) : pushes (bs.map .commit) = [] := by
  unfold pushes
  rw [List.filterMap_map]
  exact List.filterMap_eq_nil_iff.mpr fun _ _ => rfl

/-- A call after another pushes what the first pushes, and then at most what it pushes itself. -/
theorem length_pushes_bind (o : Outcome) (f : Core → Outcome) :
    (pushes (o.bind f).out).length ≤ (pushes o.out).length + (pushes (f o.core).out).length := by
  unfold Outcome.bind
  cases o.err with
  | some e => exact Nat.le_add_right _ _
  | none =>
    dsimp only
    rw [pushes_append, List.length_append]

theorem pushes_spawn {α : Type} (g : α → Task) (l : List α) :
    pushes (l.map fun a => .spawn (g a)) = [] := by
  unfold pushes
  rw [List.filterMap_map]
  exact List.filterMap_eq_nil_iff.mpr fun _ _ => rfl

@[simp] theorem pushes_verifyAndCommit (b : ConsensusBlock) :
    pushes (c.verifyAndCommit S env b).out = [] := by
  unfold Core.verifyAndCommit Core.verifyConsensusBlock
  by_cases hm : c.missing env b = []
  · simp [hm]
  · simp [hm, pushes, Output.recv?]

@[simp] theorem pushes_lateCommit (p : SPBProposal) : pushes (c.lateCommit S env p).out = [] := by
  unfold Core.lateCommit
  split_ifs
  · exact pushes_verifyAndCommit p.b
  · rfl

theorem pushes_acceptProposal (p : SPBProposal) : pushes (c.acceptProposal S env p).out = [] := by
  unfold Core.acceptProposal Core.verifyConsensusBlock
  split_ifs <;> first | rfl | (dsimp only; split_ifs <;> rfl)

theorem length_pushes_invokeDoneAndShare (v : View) :
    (pushes (c.invokeDoneAndShare S v).out).length ≤ 2 := by
  unfold Core.invokeDoneAndShare
  split_ifs
  · exact le_rfl
  · exact Nat.zero_le 2

theorem length_pushes_processLeader (v : View) : (pushes (c.processLeader v).out).length ≤ 1 := by
  unfold Core.processLeader
  split_ifs
  · dsimp only
    split
    · exact le_rfl
    · split_ifs
      · split
        · exact Nat.zero_le 1
        · exact le_rfl
      · exact le_rfl
  · exact Nat.zero_le 1

theorem length_pushes_advanceNextRound (v : View) (flag : Action) (d : Digest) :
    (pushes (c.advanceNextRound S env v flag d).out).length ≤ 1 := by
  unfold Core.advanceNextRound
  split_ifs
  · exact Nat.zero_le 1
  · split
    · exact Nat.zero_le 1
    · exact le_rfl
    · exact le_rfl

theorem length_pushes_advanceNextEpoch (e : ℤ) :
    (pushes (c.advanceNextEpoch env e).out).length ≤ 1 := by
  unfold Core.advanceNextEpoch
  split_ifs
  · exact Nat.zero_le 1
  · exact le_rfl

theorem pushes_handleOutput (d : Digest) : pushes (c.handleOutput S env d).out = [] := by
  unfold Core.handleOutput
  split
  · rfl
  · exact pushes_verifyAndCommit _
  · rfl

theorem pushes_handleSpbProposal (p : SPBProposal) :
    pushes (c.handleSpbProposal S env p).out = [] := by
  have hrest : ∀ c : Core,
      pushes (if c.messgaeFilter p.epoch then .ret c else c.acceptProposal S env p : Outcome).out =
        [] := by
    intro c
    split_ifs
    · rfl
    · exact pushes_acceptProposal p
  have hle := length_pushes_bind (c.lateCommit S env p) fun c =>
    if c.messgaeFilter p.epoch then .ret c else c.acceptProposal S env p
  rw [pushes_lateCommit, hrest] at hle
  exact List.length_eq_zero_iff.mp (Nat.le_zero.mp hle)

theorem length_pushes_handleFinish (f : Finish) : (pushes (c.handleFinish S f).out).length ≤ 2 := by
  unfold Core.handleFinish
  split_ifs
  · exact Nat.zero_le 2
  · split
    · exact Nat.zero_le 2
    · dsimp only
      split_ifs
      · exact length_pushes_invokeDoneAndShare _
      · exact Nat.zero_le 2

theorem length_pushes_handleDone (d : Done) : (pushes (c.handleDone S d).out).length ≤ 2 := by
  unfold Core.handleDone
  split_ifs
  · exact Nat.zero_le 2
  · split
    · exact Nat.zero_le 2
    · exact length_pushes_invokeDoneAndShare _
    · exact (length_pushes_processLeader _).trans (Nat.le_succ 1)
    · exact Nat.zero_le 2

theorem length_pushes_handleElectShare (s : ElectShare) :
    (pushes (c.handleElectShare S s).out).length ≤ 1 := by
  unfold Core.handleElectShare
  split_ifs
  · exact Nat.zero_le 1
  · split
    · exact Nat.zero_le 1
    · dsimp only
      split_ifs
      · exact length_pushes_processLeader _
      · exact Nat.zero_le 1

theorem length_pushes_handlePrevote (pv : Prevote) :
    (pushes (c.handlePrevote S pv).out).length ≤ 1 := by
  unfold Core.handlePrevote
  split_ifs
  · exact Nat.zero_le 1
  · split
    · exact Nat.zero_le 1
    · exact le_rfl
    · exact le_rfl
    · exact Nat.zero_le 1

theorem length_pushes_handleFinvote (fv : FinVote) :
    (pushes (c.handleFinvote S env fv).out).length ≤ 1 := by
  unfold Core.handleFinvote
  split_ifs
  · exact Nat.zero_le 1
  · split
    · exact Nat.zero_le 1
    · exact length_pushes_advanceNextRound _ _ _
    · exact length_pushes_advanceNextRound _ _ _
    · exact le_rfl
    · exact Nat.zero_le 1

theorem length_pushes_handleHalt (h : Halt) : (pushes (c.handleHalt S env h).out).length ≤ 1 := by
  unfold Core.handleHalt
  split_ifs
  · exact Nat.zero_le 1
  · exact Nat.zero_le 1
  · refine (length_pushes_bind _ _).trans ?_
    rw [pushes_handleOutput, List.length_nil, Nat.zero_add]
    exact length_pushes_advanceNextEpoch _

/-- A handler pushes no more than it may. -/
theorem length_pushes_handle (m : Message) :
    (pushes (c.handle S env m).out).length ≤ (Arrival.valid m).mayPush := by
  cases m with
  | spbProposal p => exact (congrArg List.length (pushes_handleSpbProposal p)).le
  | spbVote v =>
    unfold Core.handle Core.handleSpbVote
    dsimp only
    split_ifs <;> exact le_rfl
  | finish f => exact length_pushes_handleFinish f
  | done d => exact length_pushes_handleDone d
  | electShare s => exact length_pushes_handleElectShare s
  | prevote pv => exact length_pushes_handlePrevote pv
  | finVote fv => exact length_pushes_handleFinvote fv
  | halt h => exact length_pushes_handleHalt h

/-- A digest from the loopback channel pushes nothing. -/
theorem pushes_handleLoopBack (d : Digest) : pushes (c.handleLoopBack S env d).out = [] := by
  unfold Core.handleLoopBack
  split
  · rfl
  · rfl
  · refine List.length_eq_zero_iff.mp (Nat.le_zero.mp ((length_pushes_bind _ _).trans ?_))
    rw [pushes_lateCommit]
    split_ifs <;> exact le_rfl

/-- A spawned call pushes one message at most. -/
theorem length_pushes_runTask (t : Task) : (pushes (c.runTask S t).out).length ≤ 1 := by
  have hvote : ∀ v : SPBVote, (pushes (c.sendVote v)).length ≤ 1 := by
    intro v
    unfold Core.sendVote
    split_ifs
    · exact Nat.zero_le 1
    · exact le_rfl
  cases t with
  | processVote v =>
    unfold Core.runTask Core.processVote Core.voteOutput
    dsimp only
    split
    · exact Nat.zero_le 1
    · dsimp only
      split_ifs
      · split
        · exact le_rfl
        · exact le_rfl
        · exact Nat.zero_le 1
      · exact Nat.zero_le 1
  | processProposal p =>
    unfold Core.runTask Core.processProposal
    dsimp only
    split
    · split_ifs
      · exact Nat.zero_le 1
      · dsimp only
        rw [pushes_append, pushes_append, pushes_spawn, pushes_spawn, List.append_nil,
          List.append_nil]
        exact hvote _
    · split_ifs
      · exact Nat.zero_le 1
      · exact hvote _
    · exact Nat.zero_le 1

/-- No input makes the node push more than it may. -/
theorem length_pushes_outcome {n : Node} {i : Input} {o : Outcome}
    (h : n.outcome S env i = some o) : (pushes o.out).length ≤ i.mayPush := by
  unfold Node.outcome at h
  cases i with
  | start =>
    obtain ⟨-, heq⟩ := Option.ite_none_right_eq_some.mp h
    rw [← Option.some.inj heq]
    exact le_rfl
  | msg m =>
    obtain ⟨-, heq⟩ := Option.ite_none_right_eq_some.mp h
    rw [← Option.some.inj heq]
    exact length_pushes_handle m
  | loopBack d =>
    obtain ⟨-, heq⟩ := Option.ite_none_right_eq_some.mp h
    rw [← Option.some.inj heq]
    exact (congrArg List.length (pushes_handleLoopBack d)).le
  | task t =>
    obtain ⟨-, heq⟩ := Option.ite_none_right_eq_some.mp h
    rw [← Option.some.inj heq]
    exact length_pushes_runTask t

end Pushes

/-! ## Steps -/

section Steps

variable {S : Setup} {env : Env} {ok : ChanNode → ChanAct → Prop} {x y : ChanNode} {a : ChanAct}

namespace ChanNode

theorem handle_eq_some {queue : List Arrival} {i : Input} (h : x.handle S env queue i = some y) :
    ∃ outs, x.hist.step S env i = some (y.hist, outs) ∧
      y.chan = ⟨queue, (pushes outs).map .valid⟩ := by
  obtain ⟨⟨z, outs⟩, hstep, rfl⟩ := Option.map_eq_some_iff.mp h
  exact ⟨outs, hstep, rfl⟩

/-- The handler of an input fits into the channel if there is room for all that it may push. -/
theorem fits_handle {queue : List Arrival} {i : Input}
    (hroom : queue.length + i.mayPush ≤ recvCapacity) (h : x.handle S env queue i = some y) :
    y.chan.Fits recvCapacity := by
  obtain ⟨outs, hstep, hchan⟩ := handle_eq_some h
  obtain ⟨o, ho, rfl, -⟩ := Hist.step_eq_some hstep
  have hle := length_pushes_outcome ho
  rw [hchan]
  unfold Chan.Fits
  dsimp only
  rw [List.length_map]
  omega

/-- A step that leaves room keeps room. -/
theorem fits_act (hx : x.chan.Fits recvCapacity) (hok : RoomLeft x a) (h : x.act S a = some y) :
    y.chan.Fits recvCapacity := by
  unfold act at h
  cases a with
  | start env =>
    obtain ⟨-, hhandle⟩ := Option.ite_none_right_eq_some.mp h
    have hroom : x.chan.queue.length + Input.start.mayPush ≤ recvCapacity := hok
    exact fits_handle hroom hhandle
  | take env =>
    dsimp only at h
    split at h
    case h_1 m queue htake =>
      obtain ⟨-, hqueue⟩ := Chan.take_eq_some htake
      have hroom := hok (.valid m) (by rw [hqueue]; rfl)
      rw [hqueue, List.length_cons] at hroom
      refine fits_handle ?_ h
      unfold Input.mayPush
      dsimp only
      omega
    case h_2 queue htake =>
      -- A message that is dropped leaves its place.
      obtain ⟨-, hqueue⟩ := Chan.take_eq_some htake
      obtain ⟨-, heq⟩ := Option.ite_none_right_eq_some.mp h
      rw [← Option.some.inj heq]
      unfold Chan.Fits at hx ⊢
      rw [hqueue, List.length_cons] at hx
      dsimp only [List.length_nil]
      omega
    case h_3 => cases h
  | loopBack env d =>
    obtain ⟨-, hhandle⟩ := Option.ite_none_right_eq_some.mp h
    exact fits_handle ((Nat.le_add_right _ _).trans hx) hhandle
  | push =>
    obtain ⟨chan, hpush, rfl⟩ := Option.map_eq_some_iff.mp h
    exact hx.push hpush
  | receive p =>
    obtain ⟨chan, hput, rfl⟩ := Option.map_eq_some_iff.mp h
    exact .put hok hput
  | call env t =>
    obtain ⟨⟨z, outs⟩, -, rfl⟩ := Option.map_eq_some_iff.mp h
    exact hx
  | answer m =>
    obtain ⟨-, hmap⟩ := Option.ite_none_right_eq_some.mp h
    obtain ⟨chan, hput, rfl⟩ := Option.map_eq_some_iff.mp hmap
    exact .put hok hput

/-- Nothing happens any more at the channel of a stuck core. -/
theorem Stuck.act (hx : x.Stuck) (h : x.act S a = some y) : y.chan = x.chan := by
  obtain ⟨hput, hpush, htake, hpushing⟩ := Chan.Stuck.forever hx
  cases a with
  | start env => simp [ChanNode.act, hpushing] at h
  | take env => simp [ChanNode.act, htake] at h
  | loopBack env d => simp [ChanNode.act, hpushing] at h
  | push => simp [ChanNode.act, hpush] at h
  | receive p => simp [ChanNode.act, hput] at h
  | answer m => simp [ChanNode.act, hput] at h
  | call env t =>
    obtain ⟨⟨z, outs⟩, -, rfl⟩ := Option.map_eq_some_iff.mp h
    rfl

/-- A stuck core stays stuck, whatever the others do. -/
theorem Stuck.forever (hx : x.Stuck) (hr : Reaches S ok x y) : y.chan = x.chan := by
  induction hr with
  | refl => rfl
  | @tail y z _ hstep ih =>
    obtain ⟨a, -, ha⟩ := hstep
    have hy : y.Stuck := by
      unfold Stuck
      rw [ih]
      exact hx
    exact (hy.act ha).trans ih

/-- A node with its channel takes the steps of the node. -/
theorem act_hist (h : x.act S a = some y) :
    y.hist = x.hist ∨ ∃ env i outs, x.hist.step S env i = some (y.hist, outs) := by
  have hhandle : ∀ {env queue i}, x.handle S env queue i = some y →
      ∃ env i outs, x.hist.step S env i = some (y.hist, outs) := by
    intro env queue i h
    obtain ⟨outs, hstep, -⟩ := handle_eq_some h
    exact ⟨env, i, outs, hstep⟩
  unfold ChanNode.act at h
  cases a with
  | start env | loopBack env d =>
    obtain ⟨-, h⟩ := Option.ite_none_right_eq_some.mp h
    exact .inr (hhandle h)
  | take env =>
    dsimp only at h
    split at h
    case h_1 => exact .inr (hhandle h)
    case h_2 =>
      obtain ⟨-, heq⟩ := Option.ite_none_right_eq_some.mp h
      rw [← Option.some.inj heq]
      exact .inl rfl
    case h_3 => cases h
  | push | receive p =>
    obtain ⟨chan, -, rfl⟩ := Option.map_eq_some_iff.mp h
    exact .inl rfl
  | call env t =>
    obtain ⟨⟨z, outs⟩, hstep, rfl⟩ := Option.map_eq_some_iff.mp h
    exact .inr ⟨env, .task t, outs, hstep⟩
  | answer m =>
    obtain ⟨-, h⟩ := Option.ite_none_right_eq_some.mp h
    obtain ⟨chan, -, rfl⟩ := Option.map_eq_some_iff.mp h
    exact .inl rfl

/-- Without its channel, the run of a node is one of the runs of the node alone, which takes its
messages from anywhere: what holds in those holds here. -/
theorem Reaches.localRun {name : NodeID} (hr : Reaches S ok (init name) x) :
    LocalRun S Always name x.hist := by
  induction hr with
  | refl => exact .init
  | tail _ hstep ih =>
    obtain ⟨a, -, ha⟩ := hstep
    rcases act_hist ha with hsame | ⟨env, i, outs, h⟩
    · rw [hsame]
      exact ih
    · exact .step ih trivial h

/-! ## Schedules -/

/-- The actions of a schedule, each under the condition. -/
def play (S : Setup) (ok : ChanNode → ChanAct → Prop) [∀ x a, Decidable (ok x a)] :
    ChanNode → List ChanAct → Option ChanNode
  | x, [] => some x
  | x, a :: rest => if ok x a then (x.act S a).bind fun y => y.play S ok rest else none

/-- What a schedule plays to is reached. -/
theorem reaches_of_play [∀ x a, Decidable (ok x a)] {schedule : List ChanAct}
    (h : x.play S ok schedule = some y) : Reaches S ok x y := by
  induction schedule generalizing x with
  | nil =>
    cases h
    exact .refl
  | cons a rest ih =>
    unfold play at h
    split_ifs at h with hok
    obtain ⟨z, hz, hrest⟩ := Option.bind_eq_some_iff.mp h
    exact .head ⟨a, hok, hz⟩ (ih hrest)

/-- The receiver can fill the channel at any time. -/
theorem reaches_receive (l : List Arrival) (hl : x.chan.queue.length + l.length ≤ recvCapacity) :
    Reaches S (fun _ _ => True) x { x with chan :=
      { x.chan with queue := x.chan.queue ++ l } } := by
  refine (Chan.reaches_fill l hl).lift (fun chan => { x with chan := chan }) ?_
  rintro chan chan' ⟨a, ha⟩
  refine ⟨.receive a, trivial, ?_⟩
  unfold ChanNode.act
  dsimp only
  rw [ha]
  rfl

end ChanNode

end Steps

/-! ## Every run -/

/-- Every run in which room is left: the core never waits to push onto the full channel. -/
theorem never_stuck {S : Setup} {name : NodeID} {x : ChanNode}
    (hr : ChanNode.Reaches S RoomLeft (.init name) x) : ¬ x.Stuck := by
  have hfits : x.chan.Fits recvCapacity := by
    induction hr with
    | refl => exact Nat.zero_le _
    | tail _ hstep ih =>
      obtain ⟨a, hok, ha⟩ := hstep
      exact ChanNode.fits_act ih hok ha
  exact hfits.not_stuck

/-- A prevote of node `1` for the first block of node `0`. -/
def somePrevote : Message := .prevote ⟨1, 0, 0, 0, .yes, demoHash 0⟩

/-- Node `0` starts, takes its own proposal, and then the prevote, which it has to answer. -/
def toPrevote : List ChanAct :=
  [.start (fullEnv 0), .push, .take (fullEnv 0), .receive (.valid somePrevote), .take (fullEnv 0)]

/-- The handler of the prevote is about to push its vote, with more messages in the channel. -/
theorem never_stuck_prevote : ∃ x,
    ChanNode.Reaches (demo 4 0) RoomLeft (.init 0) x ∧ x.chan.pushing ≠ [] ∧ x.chan.queue ≠ [] ∧
      ¬ x.Stuck := by
  have hplay : (((ChanNode.init 0).play (demo 4 0) RoomLeft
      (toPrevote ++ [.receive .invalid, .receive (.valid somePrevote)])).any fun x =>
      decide (x.chan.pushing ≠ [] ∧ x.chan.queue ≠ [])) = true := by decide +kernel
  rw [Option.any_eq_true] at hplay
  obtain ⟨x, hx, hchan⟩ := hplay
  obtain ⟨hpushing, hqueue⟩ := of_decide_eq_true hchan
  have hr := ChanNode.reaches_of_play hx
  exact ⟨x, hr, hpushing, hqueue, never_stuck hr⟩

/-- The first proposals of node `1` in as many epochs. -/
def firstProposals (epochs : ℕ) : List Arrival :=
  (List.range epochs).map fun e : ℕ => .valid (.spbProposal ⟨1, demoBlock 1 e, e, 0, .one⟩)

theorem length_firstProposals (epochs : ℕ) : (firstProposals epochs).length = epochs := by
  unfold firstProposals
  rw [List.length_map, List.length_range]

/-- While the prevote is handled, the first proposals of node `1` in 10000 epochs come: the core
waits to push its vote, and nothing moves at its channel any more. -/
theorem core_stuck : ∃ x,
    ChanNode.Reaches (demo 4 0) (fun _ _ => True) (.init 0) x ∧
      x.hist.handled.getLast? = some somePrevote ∧ x.chan.pushing ≠ [] ∧
      x.chan.queue.length = recvCapacity ∧
      ∀ y, ChanNode.Reaches (demo 4 0) (fun _ _ => True) x y → y.chan = x.chan := by
  have hplay : (((ChanNode.init 0).play (demo 4 0) (fun _ _ => True) toPrevote).any fun x =>
      decide (x.hist.handled.getLast? = some somePrevote ∧ x.chan.pushing ≠ [] ∧
        x.chan.queue = [])) = true := by decide +kernel
  rw [Option.any_eq_true] at hplay
  obtain ⟨x, hx, hchan⟩ := hplay
  obtain ⟨hhandled, hpushing, hqueue⟩ := of_decide_eq_true hchan
  -- The receiver fills the channel up.
  have hlength := length_firstProposals recvCapacity
  have hfill := ChanNode.reaches_receive (S := demo 4 0) (x := x) (firstProposals recvCapacity)
    (by rw [hqueue, List.length_nil, hlength, Nat.zero_add])
  have hfull : (x.chan.queue ++ firstProposals recvCapacity).length = recvCapacity := by
    rw [hqueue, List.nil_append, hlength]
  refine ⟨_, (ChanNode.reaches_of_play hx).trans hfill, hhandled, hpushing, hfull, ?_⟩
  exact fun y hy => ChanNode.Stuck.forever ⟨hpushing, hfull.ge⟩ hy

end SMVBA
