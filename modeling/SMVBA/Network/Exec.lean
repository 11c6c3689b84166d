import SMVBA.Library.Replay
import SMVBA.Network.System

/-!
# Replaying runs

A schedule is a list of actions: a node, the answers of its surroundings, and its input. `replay`
runs a schedule with the messages in flight in a list, and `exists_run` turns a schedule that
replays into a run of the network. `replayNode` and `exists_localRun` do the same for one node on
its own, which takes any message.
-/

namespace SMVBA

open MessagePassing

/-- One step of a schedule. -/
structure Act where
  node : NodeID
  env : Env
  input : Input

/-- The nodes of a replayed run, and the messages in flight. -/
structure Replay where
  nodes : NodeID → Hist
  flight : List (NodeID × Message)

namespace Replay

/-- The messages in flight after an input was taken, if it is there to be taken. -/
def take (r : Replay) (q : NodeID) : Input → Option (List (NodeID × Message))
  | .msg m => if (q, m) ∈ r.flight then some (r.flight.erase (q, m)) else none
  | _ => some r.flight

/-- The messages that outputs put into flight for the nodes of a list. -/
def emit (ids : List NodeID) (q : NodeID) (outs : List Output) : List (NodeID × Message) :=
  ids.flatMap fun d => (outs.filterMap (Output.sentTo q d)).map (d, ·)

variable (S : Setup) (ok : Cond) [∀ x env i, Decidable (ok x env i)] (ids : List NodeID)

/-- One action. -/
def act (r : Replay) (a : Act) : Option Replay :=
  if a.node ∈ S.committee.authorities ∧ Regular (r.nodes a.node) a.env a.input ∧
      ok (r.nodes a.node) a.env a.input then
    match r.take a.node a.input, (r.nodes a.node).step S a.env a.input with
    | some flight, some (y, outs) =>
      some ⟨Function.update r.nodes a.node y,
        flight ++ emit ids (r.nodes a.node).core.name outs⟩
    | _, _ => none
  else none

/-- A whole schedule. -/
def run : Replay → List Act → Option Replay
  | r, [] => some r
  | r, a :: as => match r.act S ok ids a with
    | some r' => r'.run as
    | none => none

end Replay

/-- The replay of a schedule from the start. -/
def replay (S : Setup) (ok : Cond) [∀ x env i, Decidable (ok x env i)] (ids : List NodeID)
    (schedule : List Act) : Option Replay :=
  Replay.run S ok ids ⟨Hist.init, []⟩ schedule

section Soundness

variable {S : Setup} {ok : Cond} [∀ x env i, Decidable (ok x env i)] {ids : List NodeID} {s : Net}
  {r r' : Replay} {a : Act}

/-- The messages of a list that are in flight to `d`. -/
def flightTo (l : List (NodeID × Message)) (d : NodeID) : Multiset Message :=
  ((l.filter (·.1 = d)).map (·.2) : List Message)

/-- What an input takes is the message that it carries. -/
theorem Replay.take_eq (r : Replay) (q : NodeID) (i : Input) :
    r.take q i = takeFlight r.flight q i.msg? := by
  cases i <;> rfl

/-- The replay follows the network: the same nodes, and no message in flight that is not there. -/
structure Follows (s : Net) (r : Replay) : Prop where
  nodes : s.nodes = r.nodes
  flight : ∀ d, flightTo r.flight d ≤ s.inbox d

theorem Follows.playback (hf : Follows s r) : Playback.Follows s ⟨r.nodes, r.flight⟩ :=
  ⟨hf.nodes, hf.flight⟩

/-- An action that replays is a step of the network. -/
theorem Follows.act (hids : ids.Nodup) (hf : Follows s r) (h : r.act S ok ids a = some r') :
    ∃ s', (consensus S ok).Step s s' ∧ Follows s' r' := by
  unfold Replay.act at h
  split_ifs at h with hcond
  obtain ⟨hq, hreg, hok⟩ := hcond
  split at h
  case h_2 => cases h
  case h_1 flight y outs htake hstep =>
    cases h
    rw [Replay.take_eq] at htake
    obtain ⟨hm, hle⟩ := hf.playback.take htake
    rw [← hf.nodes] at hstep hok hreg
    have hlocal : (consensus S ok).step a.node (s.nodes a.node) a.input.msg? y
        (fun d => outs.filterMap (Output.sentTo (s.nodes a.node).core.name d)) :=
      ⟨a.env, a.input, outs, rfl, hreg, hok, hstep, rfl⟩
    refine ⟨_, .of_local hq hm hlocal, ?_, fun d => ?_⟩
    · rw [hf.nodes]
    · -- What is left of the old messages is still there, and the new ones were put there.
      rw [← hf.nodes]
      refine (flightOf_append _ _ d).trans_le (add_le_add (hle d) ?_)
      exact flightOf_emitFlight_le hids _ d

/-- A schedule that replays is a run of the network. -/
theorem Follows.run (hids : ids.Nodup) {schedule : List Act} (hr : Run S ok s) (hf : Follows s r)
    (h : r.run S ok ids schedule = some r') : ∃ s', Run S ok s' ∧ Follows s' r' := by
  induction schedule generalizing s r with
  | nil =>
    cases h
    exact ⟨s, hr, hf⟩
  | cons a as ih =>
    unfold Replay.run at h
    split at h
    case h_1 r₁ ha =>
      obtain ⟨s₁, hstep, hf₁⟩ := hf.act hids ha
      exact ih (hr.step hstep) hf₁ h
    case h_2 => cases h

/-- What holds at the end of a replayed schedule holds at the end of a run. -/
theorem exists_run (S : Setup) (ok : Cond) [∀ x env i, Decidable (ok x env i)] (ids : List NodeID)
    (schedule : List Act) (P : (NodeID → Hist) → Bool) (hids : ids.Nodup)
    (h : ((replay S ok ids schedule).any fun r => P r.nodes) = true) :
    ∃ s, Run S ok s ∧ P s.nodes = true := by
  cases hrun : replay S ok ids schedule with
  | none => simp [hrun] at h
  | some r =>
    rw [hrun] at h
    have hstart : Follows (consensus S ok).start ⟨Hist.init, []⟩ :=
      ⟨rfl, fun d => Multiset.zero_le _⟩
    obtain ⟨s, hr, hf⟩ := hstart.run hids .start hrun
    exact ⟨s, hr, by rw [hf.nodes]; exact h⟩

end Soundness

/-! ## One node on its own -/

section Node

variable (S : Setup) (ok : Cond) [∀ x env i, Decidable (ok x env i)]

/-- The inputs of one node, with the answers of its surroundings. -/
def replayNode : Hist → List (Env × Input) → Option Hist
  | x, [] => some x
  | x, (env, i) :: rest =>
    if ok x env i then
      match x.step S env i with
      | some (y, _) => replayNode y rest
      | none => none
    else none

variable {S ok}

theorem replayNode_run {name : NodeID} {inputs : List (Env × Input)} {x y : Hist}
    (hx : LocalRun S ok name x) (h : replayNode S ok x inputs = some y) : LocalRun S ok name y := by
  induction inputs generalizing x with
  | nil =>
    cases h
    exact hx
  | cons a rest ih =>
    unfold replayNode at h
    split_ifs at h with hok
    split at h
    case h_1 z outs hstep => exact ih (.step hx hok hstep) h
    case h_2 => cases h

/-- What holds at the end of replayed inputs holds at the end of a run of the node. -/
theorem exists_localRun (S : Setup) (ok : Cond) [∀ x env i, Decidable (ok x env i)] (name : NodeID)
    (inputs : List (Env × Input)) (P : Hist → Bool)
    (h : ((replayNode S ok (Hist.init name) inputs).any P) = true) :
    ∃ x, LocalRun S ok name x ∧ P x = true := by
  cases hrun : replayNode S ok (Hist.init name) inputs with
  | none => simp [hrun] at h
  | some x =>
    rw [hrun] at h
    exact ⟨x, replayNode_run .init hrun, h⟩

end Node

/-! ## Something to run -/

/-- A setup to run: the nodes `0, ..., n - 1`, a polynomial checksum for the hash function, and a
coin that names the same leader in every view. -/
def demo (n : ℕ) (leader : UInt8) : Setup where
  committee := ⟨(Finset.range n).map ⟨Int.ofNat, fun _ _ => Int.ofNat.inj⟩, by simp [NONE]⟩
  sha256 bytes := BitVec.ofNat 256 (bytes.foldl (fun h b => h * 257 + b.toNat + 1) 7)
  absent := .other
  requestTsSugnature _ _ := []
  combineIntactTSPartial _ _ := some [0, 0, leader]

/-- The payload of a node, the same at all times. -/
def demoPayload (q : NodeID) : Digest := BitVec.ofInt 256 (q + 1)

/-- A full mempool: it holds the payloads of all nodes, and hands out that of its own. -/
def fullEnv (q : NodeID) : Env where
  held d := if 0 < d.toNat ∧ d.toNat ≤ 256 then some (d.toNat - 1) else none
  payloads := [demoPayload q]
  putOk := true

/-- The block that a node with the full mempool generates for an epoch. -/
def demoBlock (q : NodeID) (epoch : ℤ) : ConsensusBlock := ⟨q, [demoPayload q], epoch⟩

/-- The start of a node with the full mempool. -/
def Act.start (q : NodeID) : Act := ⟨q, fullEnv q, .start⟩

/-- A message taken by a node with the full mempool. -/
def Act.deliver (q : NodeID) (m : Message) : Act := ⟨q, fullEnv q, .msg m⟩

/-- A spawned call run by a node with the full mempool. -/
def Act.call (q : NodeID) (t : Task) : Act := ⟨q, fullEnv q, .task t⟩

/-- The hash of the first block of a node. -/
def demoHash (q : NodeID) : Digest := (demo 0 0).hash (demoBlock q 0)

/-- A node takes a proposal and runs the call that it spawns. -/
def Act.proposal (p : SPBProposal) (q : NodeID) : List Act :=
  [.deliver q (.spbProposal p), .call q (.processProposal p)]

/-- A node takes a vote and runs the call that it spawns. -/
def Act.vote (v : SPBVote) (q : NodeID) : List Act :=
  [.deliver q (.spbVote v), .call q (.processVote v)]

/-- The voters vote for the first block of `p`, and `p` counts their votes. -/
def phaseOne (p : NodeID) (voters : List NodeID) : List Act :=
  voters.flatMap (Act.proposal ⟨p, demoBlock p 0, 0, 0, .one⟩) ++
    voters.flatMap fun q => Act.vote ⟨q, p, demoHash p, 0, 0, .one⟩ p

/-- The voters lock the first block of `p`. -/
def locks (p : NodeID) (voters : List NodeID) : List Act :=
  voters.flatMap (Act.proposal ⟨p, ⟨p, [], -1⟩, 0, 0, .two⟩)

/-- The whole instance of the first block of `p`. -/
def spbRun (p : NodeID) (voters : List NodeID) : List Act :=
  phaseOne p voters ++ locks p voters ++ voters.flatMap fun q => Act.vote ⟨q, p, 0, 0, 0, .two⟩ p

/-- A node takes the `Finish` messages of `ps` for the first round. -/
def finishes (q : NodeID) (ps : List NodeID) : List Act :=
  ps.map fun p => .deliver q (.finish ⟨p, demoHash p, 0, 0⟩)

/-- A node takes the `Done` messages of `ps` for the first round. -/
def dones (q : NodeID) (ps : List NodeID) : List Act :=
  ps.map fun p => .deliver q (.done ⟨p, 0, 0⟩)

/-- A node takes the shares of `ps` for the first round. -/
def shares (q : NodeID) (ps : List NodeID) : List Act :=
  ps.map fun p => .deliver q (.electShare ⟨p, 0, 0, []⟩)

/-- The nodes take a prevote. -/
def prevotes (pv : Prevote) (qs : List NodeID) : List Act :=
  qs.map fun q => .deliver q (.prevote pv)

/-- A first round of four nodes in which `L` is elected and final votes decide: `a`, `b` and `c`
finish, `a` has locked the block of `L` and prevotes for it, three nodes answer, and `b` takes their
final votes. -/
def votedRound (L a b c : NodeID) : List Act :=
  [L, a, b, c].map .start ++ phaseOne L [L, a, b] ++ locks L [a] ++
    spbRun a [L, a, b] ++ spbRun b [L, a, b] ++ spbRun c [L, b, c] ++
    finishes a [a, b, c] ++ finishes b [a, b, c] ++ dones L [a, b] ++
    dones a [L, a, b] ++ shares a [L, a, b] ++ prevotes ⟨a, L, 0, 0, .yes, demoHash L⟩ [L, a, b] ++
    [L, a, b].map fun q => .deliver b (.finVote ⟨q, 0, 0, 0, .yes, demoHash L⟩)

end SMVBA
