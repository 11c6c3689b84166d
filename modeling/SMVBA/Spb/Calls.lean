import SMVBA.Library.Threads
import SMVBA.Rules.Spb

/-!
# The calls of an SPB instance, step by step

`processProposal` and `processVote` run as goroutines on one instance, next to each other. What is
atomic in them is less than a call: a `Load` or a `Store` of `BlockHash`, the `Store` of `LockFlag`,
sending a vote, and the sections under the mutexes `uvm` and `vm`. `Call` has a place for each of
these in the two functions, with what the call still needs, and `Call.step` is the code from there
to the next place.

All calls of an instance are for its slot, so that the author of a proposal is the proposer of the
instance. A call that comes later is one that has not taken its first step yet, and so a run starts
with all calls that it will get (`spbPool`). Of the core only the name is read.

In the rest of this development a call is one atomic step. That is one of the interleavings here, in
which the call runs alone from its start to its end (`runTask_alone`).
-/

namespace SMVBA

open Threads

variable (S : Setup) (c : Core)

/-- Where a call stands. -/
inductive Call where
  /-- `processProposal` on a phase-one proposal, before the `Load` of `BlockHash`. -/
  | loadOne (p : SPBProposal)
  /-- Before the `Store` of `BlockHash`. -/
  | storeOne (p : SPBProposal)
  /-- Before sending the phase-one vote. -/
  | sendOne (p : SPBProposal)
  /-- Before the section under `uvm` that hands out what the buffers hold. -/
  | drain
  /-- `processProposal` on a phase-two proposal, before the `Load` of `BlockHash`. -/
  | loadTwo (p : SPBProposal)
  /-- Before the section under `uvm` that keeps the proposal. -/
  | keepTwo (p : SPBProposal)
  /-- Before the `Store` of `LockFlag`. -/
  | lockTwo (p : SPBProposal)
  /-- Before sending the phase-two vote. -/
  | sendTwo (p : SPBProposal)
  /-- `processVote`, before the `Load` of `BlockHash`. -/
  | loadVote (v : SPBVote)
  /-- Before the section under `uvm` that keeps the vote. -/
  | keepVote (v : SPBVote)
  /-- Before the section under `vm` that counts the vote. -/
  | countVote (v : SPBVote)
  /-- After it, with the count that it has read. -/
  | answer (v : SPBVote) (num : ℕ)
deriving DecidableEq, Repr

/-- What a run records: what the calls let out, and the votes as they are counted. -/
inductive Event where
  | out (o : Output)
  | counted (v : SPBVote)
deriving DecidableEq, Repr

/-- A call at its start. A proposal of a phase that is neither has nothing to do. -/
def Task.calls : Task → List Call
  | .processProposal p =>
    match p.phase with
    | .one => [.loadOne p]
    | .two => [.loadTwo p]
    | .other _ => []
  | .processVote v => [.loadVote v]

/-- The answer to a phase-two proposal. -/
def answerTwo (p : SPBProposal) : SPBVote := ⟨c.name, p.author, 0, p.epoch, p.round, .two⟩

/-- One atomic step of a call. -/
def Call.step : Program SPB Call Event := fun s call =>
  match call with
  | .loadOne p =>
    if s.blockHash ≠ none ∨ p.author ≠ p.b.proposer then (s, [], []) else (s, [.storeOne p], [])
  | .storeOne p => ({ s with blockHash := some (S.hash p.b) }, [.sendOne p], [])
  | .sendOne p => (s, [.drain],
      (c.sendVote ⟨c.name, p.author, S.hash p.b, p.epoch, p.round, .one⟩).map .out)
  | .drain => ({ s with unHandleProposal := [], unHandleVote := [] },
      (s.unHandleProposal.map Task.processProposal ++ s.unHandleVote.map Task.processVote).flatMap
        Task.calls,
      [])
  | .loadTwo p => if s.blockHash = none then (s, [.keepTwo p], []) else (s, [.lockTwo p], [])
  | .keepTwo p => ({ s with unHandleProposal := s.unHandleProposal ++ [p] }, [], [])
  | .lockTwo p => ({ s with lockFlag := true }, [.sendTwo p], [])
  | .sendTwo p => (s, [], (c.sendVote (answerTwo c p)).map .out)
  | .loadVote v => if s.blockHash = none then (s, [.keepVote v], []) else (s, [.countVote v], [])
  | .keepVote v => ({ s with unHandleVote := s.unHandleVote ++ [v] }, [], [])
  | .countVote v =>
    ({ s with votes := Function.update s.votes v.phase (s.votes v.phase + 1) },
      [.answer v (s.votes v.phase + 1)], [.counted v])
  -- The block is loaded once more for a `Finish`. It is there, as the call has found it before.
  | .answer v num => (s, [], (c.voteOutput S v (s.blockHash.getD 0) num).map .out)

/-- A new instance with the calls that it will get. -/
def spbPool (tasks : List Task) : Pool SPB Call Event := ⟨{}, tasks.flatMap Task.calls, []⟩

/-- A call at its start is before a `Load`. -/
inductive Call.Starts : Call → Prop
  | one (p : SPBProposal) : Starts (.loadOne p)
  | two (p : SPBProposal) (hp : p.phase = .two) : Starts (.loadTwo p)
  | vote (v : SPBVote) : Starts (.loadVote v)

theorem starts_of_mem_calls {t : Task} {x : Call} (h : x ∈ t.calls) : x.Starts := by
  cases t with
  | processVote v =>
    obtain rfl := List.mem_singleton.mp h
    exact .vote v
  | processProposal p =>
    unfold Task.calls at h
    cases hp : p.phase with
    | one =>
      simp only [hp, List.mem_singleton] at h
      subst h
      exact .one p
    | two =>
      simp only [hp, List.mem_singleton] at h
      subst h
      exact .two p hp
    | other code => simp [hp] at h

/-- No call at its start is of a kind that is met only later. -/
theorem countP_calls {f : Call → Bool} (hf : ∀ x, x.Starts → f x = false) (tasks : List Task) :
    (tasks.flatMap Task.calls).countP f = 0 := by
  refine List.countP_eq_zero.mpr fun x hx => ?_
  obtain ⟨t, -, ht⟩ := List.mem_flatMap.mp hx
  rw [hf x (starts_of_mem_calls ht)]
  exact Bool.false_ne_true

/-- What calls at their start carry, read off the spawned calls. -/
theorem filterMap_calls {β : Type} {g : Call → Option β} {g' : Task → Option β}
    (h : ∀ t : Task, t.calls.filterMap g = (g' t).toList) (tasks : List Task) :
    (tasks.flatMap Task.calls).filterMap g = tasks.filterMap g' := by
  induction tasks with
  | nil => rfl
  | cons t rest ih =>
    rw [List.flatMap_cons, List.filterMap_append, h, ih, List.filterMap_cons]
    cases g' t <;> rfl

/-! ## A call that runs alone -/

/-- The slot of a call's instance. -/
def Task.slot : Task → Slot
  | .processProposal p => p.slot
  | .processVote v => v.slot

/-- What an event lets out. -/
def Event.out? : Event → Option Output
  | .out o => some o
  | .counted _ => none

/-- A pool has done what an atomic call does: to the instance of the slot, in what it has let out,
and in the calls that it leaves behind. -/
def DoesCall (o : Outcome) (u : Slot) (p : Pool SPB Call Event) : Prop :=
  p.shared = o.core.spbInstances u ∧ p.threads = (o.out.filterMap Output.task?).flatMap Task.calls ∧
    p.trace.filterMap Event.out? = o.out.filter (·.task?.isNone)

/-- The outputs of an outcome, where none is a spawned call. -/
theorem doesCall_of_quiet {o : Outcome} {u : Slot} {p : Pool SPB Call Event}
    (hquiet : o.out.filterMap Output.task? = []) (hshared : p.shared = o.core.spbInstances u)
    (hthreads : p.threads = []) (htrace : p.trace.filterMap Event.out? = o.out) :
    DoesCall o u p := by
  refine ⟨hshared, by rw [hquiet, hthreads]; rfl, ?_⟩
  rw [htrace, List.filter_eq_self.mpr]
  intro x hx
  have hnone := List.filterMap_eq_nil_iff.mp hquiet x hx
  rw [hnone]
  rfl

/-- Events for outputs let these out. -/
theorem filterMap_out (l : List Output) : (l.map Event.out).filterMap Event.out? = l := by
  rw [List.filterMap_map]
  exact List.filterMap_some

variable {S c}

theorem alone_processVote (v : SPBVote) : ∃ schedule p,
    Pool.play (Call.step S c) (fun _ _ => True)
      ⟨c.spbInstances v.slot, (Task.processVote v).calls, []⟩ schedule = some p ∧
    DoesCall (c.processVote S v) v.slot p := by
  cases hb : (c.spbInstances v.slot).blockHash with
  | none =>
    rw [processVote_none S hb]
    refine ⟨[.loadVote v, .keepVote v], ⟨{ c.spbInstances v.slot with
      unHandleVote := (c.spbInstances v.slot).unHandleVote ++ [v] }, [], []⟩, ?_, ?_⟩
    · simp [Pool.play, Pool.after, Call.step, Task.calls, hb]
    · exact doesCall_of_quiet rfl (setSpb_self ..).symm rfl rfl
  | some d =>
    let num := (c.spbInstances v.slot).votes v.phase + 1
    rw [processVote_some S hb]
    refine ⟨[.loadVote v, .countVote v, .answer v num], ⟨{ c.spbInstances v.slot with
      votes := Function.update (c.spbInstances v.slot).votes v.phase num }, [],
      .counted v :: (c.voteOutput S v d num).map .out⟩, ?_, ?_⟩
    · simp [Pool.play, Pool.after, Call.step, Task.calls, hb, num]
    · exact doesCall_of_quiet (filterMap_voteOutput ..) (setSpb_self ..).symm rfl (filterMap_out _)

theorem alone_processProposal (p : SPBProposal) : ∃ schedule q,
    Pool.play (Call.step S c) (fun _ _ => True)
      ⟨c.spbInstances p.slot, (Task.processProposal p).calls, []⟩ schedule = some q ∧
    DoesCall (c.processProposal S p) p.slot q := by
  cases hp : p.phase with
  | one =>
    by_cases haccept : (c.spbInstances p.slot).blockHash = none ∧ p.author = p.b.proposer
    · obtain ⟨hb, ha⟩ := haccept
      let s := c.spbInstances p.slot
      rw [processProposal_one S hp hb ha]
      refine ⟨[.loadOne p, .storeOne p, .sendOne p, .drain],
        ⟨{ s with blockHash := some (S.hash p.b), unHandleProposal := [], unHandleVote := [] },
          (s.unHandleProposal.map Task.processProposal ++
            s.unHandleVote.map Task.processVote).flatMap Task.calls,
          (c.sendVote ⟨c.name, p.author, S.hash p.b, p.epoch, p.round, .one⟩).map .out⟩, ?_, ?_⟩
      · simp [Pool.play, Pool.after, Call.step, Task.calls, hb, ha, hp, s]
      · refine ⟨(setSpb_self ..).symm, ?_, ?_⟩
        · simp [s, List.filterMap_map, Function.comp_def, Output.task?]
        · have hsend : ∀ v, (c.sendVote v).filter (·.task?.isNone) = c.sendVote v := by
            intro v
            unfold Core.sendVote
            split_ifs <;> rfl
          rw [filterMap_out, List.filter_append, List.filter_append, hsend]
          simp [Output.task?]
    · have heq : c.processProposal S p = .ret c := by
        unfold Core.processProposal
        rw [hp]
        exact if_pos (by tauto)
      rw [heq]
      refine ⟨[.loadOne p], ⟨c.spbInstances p.slot, [], []⟩, ?_, doesCall_of_quiet rfl rfl rfl rfl⟩
      have hstep : Call.step S c (c.spbInstances p.slot) (.loadOne p) =
          (c.spbInstances p.slot, [], []) := if_pos (by tauto)
      simp [Pool.play, Pool.after, Task.calls, hp, hstep]
  | two =>
    cases hb : (c.spbInstances p.slot).blockHash with
    | none =>
      rw [processProposal_two_none S hp hb]
      refine ⟨[.loadTwo p, .keepTwo p], ⟨{ c.spbInstances p.slot with
        unHandleProposal := (c.spbInstances p.slot).unHandleProposal ++ [p] }, [], []⟩, ?_, ?_⟩
      · simp [Pool.play, Pool.after, Call.step, Task.calls, hb, hp]
      · exact doesCall_of_quiet rfl (setSpb_self ..).symm rfl rfl
    | some d =>
      rw [processProposal_two_some S hp hb]
      refine ⟨[.loadTwo p, .lockTwo p, .sendTwo p],
        ⟨{ c.spbInstances p.slot with lockFlag := true }, [],
        (c.sendVote (answerTwo c p)).map .out⟩, ?_, ?_⟩
      · simp [Pool.play, Pool.after, Call.step, Task.calls, hb, hp]
      · exact doesCall_of_quiet (filterMap_sendVote ..) (setSpb_self ..).symm rfl (filterMap_out _)
  | other code =>
    rw [processProposal_other S hp]
    refine ⟨[], ⟨c.spbInstances p.slot, [], []⟩, ?_, doesCall_of_quiet rfl rfl rfl rfl⟩
    simp [Pool.play, Task.calls, hp]

/-- A call that runs from its start to its end, with no step of another call in between, does what
the atomic call does. -/
theorem runTask_alone (t : Task) : ∃ schedule p,
    Pool.play (Call.step S c) (fun _ _ => True) ⟨c.spbInstances t.slot, t.calls, []⟩ schedule =
      some p ∧
    DoesCall (c.runTask S t) t.slot p := by
  cases t with
  | processProposal p => exact alone_processProposal p
  | processVote v => exact alone_processVote v

end SMVBA
