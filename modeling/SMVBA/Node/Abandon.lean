import SMVBA.Network.Exec

/-!
# Prevotes for no and the second phase

A view change may count a node's prevote for no as the promise that the node has not helped the
leader to finish. The code makes no such promise. A node prevotes for no while its instance of the
leader is not locked, so that it has not voted for the second phase before. The instance stays
active, and votes for the second phase as soon as the proposal runs.
-/

namespace SMVBA

variable {S : Setup} {ok : Cond} {env : Env} {i : Input} {name : NodeID} {x0 x y : Hist}
  {outs : List Output}

/-- The vote of a node for the second phase of the instance of a slot. -/
def secondVote (name : NodeID) (t : Slot) : SPBVote := ⟨name, t.node, 0, t.epoch, t.round, .two⟩

/-- The input runs a phase-two proposal on the instance of the slot, which has its block. -/
def RunsTwo (x : Hist) (i : Input) (t : Slot) : Prop :=
  ∃ p, i = .task (.processProposal p) ∧ p.phase = .two ∧ p.slot = t ∧
    (x.core.spbInstances t).blockHash ≠ none

/-- A rule that sends the vote runs the proposal. -/
theorem Sends.runsTwo {d : NodeID} {new : List Message} (h : Sends S env i x0 x y d new) {t : Slot}
    (hm : .spbVote (secondVote x.core.name t) ∈ new) : RunsTwo x0 i t := by
  cases h with
  | voteOne p hi hp hb hy hd => simp [secondVote] at hm
  | voteTwo p h hi hp ht hx hb hy hd =>
    obtain ⟨hnode, hepoch, hround⟩ : t.node = p.author ∧ t.epoch = p.epoch ∧ t.round = p.round := by
      simpa [secondVote] using hm
    have hslot : p.slot = t := by
      rw [SPBProposal.slot, ← hnode, ← hepoch, ← hround]
    rw [hslot, hx.core] at hb
    exact ⟨p, hi, hp, hslot, by simp [hb]⟩
  | leader v outs he ho hc => cases ho <;> simp at hm
  | _ => simp at hm

/-- A step sends a vote for the second phase exactly when it runs the proposal on an instance that
has its block. -/
theorem secondVote_mem_iff (h : x.step S env i = some (y, outs)) (t : Slot) :
    .spbVote (secondVote x.core.name t) ∈ outs.filterMap (Output.sentTo x.core.name t.node) ↔
      RunsTwo x i t := by
  constructor
  · exact Hist.step_sends (Q := fun _ => RunsTwo x i t) h (fun _ hQ => hQ)
      fun hsends hname hm => hsends.runsTwo (hname ▸ hm)
  · rintro ⟨p, rfl, hp, rfl, hb⟩
    obtain ⟨hash, hb⟩ := Option.ne_none_iff_exists'.mp hb
    obtain ⟨o, ho, rfl, -⟩ := Hist.step_eq_some h
    cases Node.runs_of_outcome ho with
    | task t hs ht =>
      rw [Core.runTask, processProposal_two_some S hp hb]
      by_cases hself : x.core.name = p.author
      · simp [Core.sendVote, Output.sentTo, secondVote, SPBProposal.slot, hself]
      · by_cases hnone : p.author = NONE
        · have hne : NONE ≠ x.core.name := fun heq => hself (heq.symm.trans hnone.symm)
          simp [Core.sendVote, Output.sentTo, secondVote, SPBProposal.slot, hnone, hne, hne.symm]
        · simp [Core.sendVote, Output.sentTo, secondVote, SPBProposal.slot, hself, hnone]

/-! ## The lock at a prevote for no -/

/-- When a node prevotes for no, its instance of the leader is not locked. -/
theorem lockFlag_of_prevote_no (h : x.step S env i = some (y, outs)) {pv : Prevote}
    (hno : pv.flag = .no) {d : NodeID}
    (hm : .prevote pv ∈ outs.filterMap (Output.sentTo x.core.name d)) :
    (y.core.spbInstances (pv.view.slot pv.leader)).lockFlag = false := by
  -- A prevote is sent on a message, and only the run of a spawned call locks an instance.
  refine (Hist.step_sends (Q := fun z => (∃ m, i = .msg m) ∧
    (z.core.spbInstances (pv.view.slot pv.leader)).lockFlag = false) h ?_ ?_ hm).2
  · rintro z z' hrule ⟨⟨m, hi⟩, hlock⟩
    refine ⟨⟨m, hi⟩, ?_⟩
    rcases hrule.lockFlag_cases (pv.view.slot pv.leader) with hsame | ⟨p, hi', -⟩
    · rw [hsame, hlock]
    · rw [hi] at hi'
      cases hi'
  · intro z z' new hsends _ hmem
    obtain ⟨hcause, -, -, -, -, ⟨hyes, -⟩ | ⟨-, -, hlock⟩⟩ := hsends.prevote hmem
    · exact absurd (hno.symm.trans hyes) (by simp)
    · refine ⟨?_, hlock⟩
      cases hcause with
      | ready dn hi _ _ _ _ _ => exact ⟨_, hi⟩
      | elect sh _ hi _ _ _ _ _ _ _ => exact ⟨_, hi⟩

/-- When a node broadcasts a prevote for no, it has not sent the leader a vote for the second phase
of its instance. After that a step sends this vote exactly when it runs a phase-two proposal on the
instance and the instance has its block. -/
theorem votes_around_prevote_no (hr : LocalRun S Always name x)
    (h : x.step S env i = some (y, outs)) {pv : Prevote} (hno : pv.flag = .no) :
    (.prevote pv ∈ outs.filterMap Output.broadcast? →
      .spbVote (secondVote name ⟨pv.epoch, pv.round, pv.leader⟩) ∉ y.sentTo pv.leader) ∧
    (x.Broadcast (.prevote pv) →
      (.spbVote (secondVote name ⟨pv.epoch, pv.round, pv.leader⟩) ∈
          outs.filterMap (Output.sentTo name pv.leader) ↔
        RunsTwo x i ⟨pv.epoch, pv.round, pv.leader⟩)) := by
  have hname : x.core.name = name := hr.facts.name_eq
  refine ⟨fun hm hvote => ?_, fun _ => ?_⟩
  · have hrun : LocalRun S Always name y := hr.step trivial h
    have hlock := hrun.facts.sent.voteTwo _ _ hvote rfl
    obtain ⟨o, ho, hm⟩ := List.mem_filterMap.mp hm
    have hsent := Output.sentTo_of_broadcast hm (Int.lt_succ x.core.name).ne'
    have hopen := lockFlag_of_prevote_no h hno (List.mem_filterMap.mpr ⟨o, ho, hsent⟩)
    have hslot : (secondVote name ⟨pv.epoch, pv.round, pv.leader⟩).slot = pv.view.slot pv.leader :=
      rfl
    rw [hslot, hopen] at hlock
    cases hlock
  · rw [← hname]
    exact secondVote_mem_iff h ⟨pv.epoch, pv.round, pv.leader⟩

/-- Node zero votes for the block of node one in the first phase, learns that node one is elected
and prevotes for no, and then takes the phase-two proposal. -/
def lateSecondPhase : List (Env × Input) :=
  let one : SPBProposal := ⟨1, demoBlock 1 0, 0, 0, .one⟩
  [.start, .msg (.spbProposal one), .task (.processProposal one),
    .msg (.done ⟨1, 0, 0⟩), .msg (.done ⟨2, 0, 0⟩), .msg (.done ⟨3, 0, 0⟩),
    .msg (.electShare ⟨1, 0, 0, []⟩), .msg (.electShare ⟨2, 0, 0, []⟩),
    .msg (.electShare ⟨3, 0, 0, []⟩),
    .msg (.spbProposal ⟨1, ⟨1, [], -1⟩, 0, 0, .two⟩)].map (fullEnv 0, ·)

/-- The call that the phase-two proposal has spawned. -/
def lateCall : Input := .task (.processProposal ⟨1, ⟨1, [], -1⟩, 0, 0, .two⟩)

/-- The vote for the second phase that comes after the prevote for no, by the rule above. -/
theorem votes_around_prevote_no_late : ∃ x y outs, LocalRun (demo 4 1) Always 0 x ∧
    x.Broadcast (.prevote ⟨0, 1, 0, 0, .no, 0⟩) ∧
    x.step (demo 4 1) (fullEnv 0) lateCall = some (y, outs) ∧ RunsTwo x lateCall ⟨0, 0, 1⟩ ∧
    .spbVote (secondVote 0 ⟨0, 0, 1⟩) ∈ outs.filterMap (Output.sentTo 0 1) := by
  obtain ⟨x, hr, hx⟩ := exists_localRun (demo 4 1) Always 0 lateSecondPhase
    (fun x => decide (x.Broadcast (.prevote ⟨0, 1, 0, 0, .no, 0⟩) ∧
      (x.core.spbInstances ⟨0, 0, 1⟩).blockHash ≠ none ∧
      (x.step (demo 4 1) (fullEnv 0) lateCall).isSome)) (by decide +kernel)
  obtain ⟨hprevote, hblock, hsome⟩ := of_decide_eq_true hx
  obtain ⟨⟨y, outs⟩, hstep⟩ := Option.isSome_iff_exists.mp hsome
  have hruns : RunsTwo x lateCall ⟨0, 0, 1⟩ := ⟨_, rfl, rfl, rfl, hblock⟩
  have hno : (⟨0, 1, 0, 0, .no, 0⟩ : Prevote).flag = .no := rfl
  exact ⟨x, y, outs, hr, hprevote, hstep, hruns,
    ((votes_around_prevote_no hr hstep hno).2 hprevote).mpr hruns⟩

/-- A node broadcasts a prevote for no, and a step after it sends the leader a vote for the second
phase of the same round. -/
theorem secondVote_after_prevote_no : ∃ x y outs, LocalRun (demo 4 1) Always 0 x ∧
    x.Broadcast (.prevote ⟨0, 1, 0, 0, .no, 0⟩) ∧
    x.step (demo 4 1) (fullEnv 0) lateCall = some (y, outs) ∧
    .send 1 (.spbVote ⟨0, 1, 0, 0, 0, .two⟩) ∈ outs := by
  obtain ⟨x, hr, hx⟩ := exists_localRun (demo 4 1) Always 0 lateSecondPhase
    (fun x => decide (x.Broadcast (.prevote ⟨0, 1, 0, 0, .no, 0⟩)) &&
      (x.step (demo 4 1) (fullEnv 0) lateCall).any fun r : Hist × List Output =>
        decide (Output.send 1 (.spbVote ⟨0, 1, 0, 0, 0, .two⟩) ∈ r.2)) (by decide +kernel)
  obtain ⟨hprevote, hstep⟩ := Bool.and_eq_true_iff.mp hx
  cases hs : x.step (demo 4 1) (fullEnv 0) lateCall with
  | none => simp [hs] at hstep
  | some r =>
    rw [hs] at hstep
    exact ⟨x, r.1, r.2, hr, of_decide_eq_true hprevote, hs, of_decide_eq_true hstep⟩

end SMVBA
