import SMVBA.Consensus.Core

/-!
# One node and its history

A node is a core together with the SPB calls that were spawned and have not run. It takes one input
at a time, each as one atomic step: the start of `Core.Run`, a message from its receive channel, a
digest from the loopback channel, or one of its spawned calls.

`Hist` adds to a node what the statements of this development speak about: the messages that it
took from its channel, everything that its steps let out, and the halts whose handling set a flag of
`HaltFlags`. None of these is read by a step.
-/

namespace SMVBA

/-- Whether `Core.Run` has sent its first proposal, and whether the process is still there. -/
inductive Status where
  | idle
  | running
  | crashed
deriving DecidableEq, Repr

/-- A node: its core, and the spawned calls that have not run. -/
structure Node where
  core : Core
  tasks : List Task := []
  status : Status := .idle

/-- What a node reacts to. -/
inductive Input where
  | start
  | msg (m : Message)
  | loopBack (d : Digest)
  | task (t : Task)
deriving DecidableEq, Repr

/-- The message of an input, if it is one. -/
def Input.msg? : Input → Option Message
  | .msg m => some m
  | _ => none

/-- The call that an output spawns. -/
def Output.task? : Output → Option Task
  | .spawn t => some t
  | _ => none

namespace Node

variable (S : Setup) (env : Env)

/-- The handler that an input runs, when the node can take it: nothing but the start of `Core.Run`
runs on an idle node, and only spawned calls that are there can run. -/
def outcome (n : Node) : Input → Option Outcome
  | .start => if n.status = .idle then some (n.core.start env) else none
  | .msg m => if n.status = .running then some (n.core.handle S env m) else none
  | .loopBack d => if n.status = .running then some (n.core.handleLoopBack S env d) else none
  | .task t => if n.status = .running ∧ t ∈ n.tasks then some (n.core.runTask S t) else none

/-- The spawned calls left once an input is taken. -/
def tasksAfter (n : Node) : Input → List Task
  | .task t => n.tasks.erase t
  | _ => n.tasks

/-- The node after a handler's outcome. A panic ends the process. -/
def after (n : Node) (i : Input) (o : Outcome) : Node where
  core := o.core
  tasks := n.tasksAfter i ++ o.out.filterMap Output.task?
  status := if o.err = some .panic then .crashed else .running

/-- The handlers again, each with the condition under which it runs. -/
inductive Runs (n : Node) : Input → Outcome → Prop
  | start (hs : n.status = .idle) : Runs n .start (n.core.start env)
  | msg (m : Message) (hs : n.status = .running) : Runs n (.msg m) (n.core.handle S env m)
  | loopBack (d : Digest) (hs : n.status = .running) :
      Runs n (.loopBack d) (n.core.handleLoopBack S env d)
  | task (t : Task) (hs : n.status = .running) (ht : t ∈ n.tasks) :
      Runs n (.task t) (n.core.runTask S t)

variable {S env} {n : Node} {i : Input} {o : Outcome}

theorem runs_of_outcome (h : n.outcome S env i = some o) : n.Runs S env i o := by
  cases i with
  | start =>
    obtain ⟨hs, heq⟩ := Option.ite_none_right_eq_some.mp h
    cases heq
    exact .start hs
  | msg m =>
    obtain ⟨hs, heq⟩ := Option.ite_none_right_eq_some.mp h
    cases heq
    exact .msg m hs
  | loopBack d =>
    obtain ⟨hs, heq⟩ := Option.ite_none_right_eq_some.mp h
    cases heq
    exact .loopBack d hs
  | task t =>
    obtain ⟨⟨hs, ht⟩, heq⟩ := Option.ite_none_right_eq_some.mp h
    cases heq
    exact .task t hs ht

end Node

/-- A node with its history. -/
structure Hist extends Node where
  /-- The messages taken from the receive channel. -/
  handled : List Message := []
  /-- Everything that the steps let out, in order. -/
  out : List Output := []
  /-- The halts whose handling set a flag of `HaltFlags`. -/
  decided : List Halt := []

namespace Hist

variable (S : Setup) (env : Env)

/-- The node of `NewCore`, before `Core.Run`. -/
def init (name : NodeID) : Hist where
  core := { name := name }

/-- The halt among the inputs whose handling set its flag. -/
def newHalt (before after : Core) : Input → List Halt
  | .msg (.halt h) =>
    if before.haltFlags h.epoch = false ∧ after.haltFlags h.epoch = true then [h] else []
  | _ => []

/-- One step of a node with its history. -/
def step (x : Hist) (i : Input) : Option (Hist × List Output) :=
  match x.toNode.outcome S env i with
  | none => none
  | some o =>
    some ({ toNode := x.toNode.after i o
            handled := x.handled ++ i.msg?.toList
            out := x.out ++ o.out
            decided := x.decided ++ newHalt x.core o.core i }, o.out)

variable {S env} {x y : Hist} {i : Input} {outs : List Output}

/-- A step is the outcome of a handler. -/
theorem step_eq_some (h : x.step S env i = some (y, outs)) :
    ∃ o, x.toNode.outcome S env i = some o ∧ o.out = outs ∧
      y = { toNode := x.toNode.after i o
            handled := x.handled ++ i.msg?.toList
            out := x.out ++ o.out
            decided := x.decided ++ newHalt x.core o.core i } := by
  unfold step at h
  split at h
  case h_1 => cases h
  case h_2 o ho =>
    cases h
    exact ⟨o, ho, rfl, rfl⟩

/-- A step that takes a message runs its handler. -/
theorem step_msg {m : Message} (h : x.step S env (.msg m) = some (y, outs)) :
    y.core = (x.core.handle S env m).core ∧ (x.core.handle S env m).out = outs := by
  obtain ⟨o, ho, rfl, rfl⟩ := step_eq_some h
  cases Node.runs_of_outcome ho with
  | msg m hs => exact ⟨rfl, rfl⟩

end Hist

end SMVBA
