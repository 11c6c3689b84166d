import SMVBA.Network.Exec

/-!
# Runs with Byzantine nodes

The honest nodes run the code. A Byzantine node does nothing that is modelled: all that matters of
it is what the honest nodes may take from the network, and what they may take is left open here, as
a condition `may` on the message and on what the nodes have issued so far. A message that may be
taken may be taken by anybody, at any time and more than once.
-/

namespace SMVBA

/-- A node has issued the message. -/
def Hist.Issued (x : Hist) (m : Message) : Prop := m ∈ x.out.filterMap Output.message?

instance (x : Hist) (m : Message) : Decidable (x.Issued m) := inferInstanceAs (Decidable (_ ∈ _))

/-- What the nodes have issued. -/
abbrev Issues := NodeID → Message → Prop

/-- The states of the honest nodes, each step under a condition. -/
inductive ByzRun (S : Setup) (honest : Finset NodeID) (may : Issues → Message → Prop) (ok : Cond) :
    (NodeID → Hist) → Prop
  | start : ByzRun S honest may ok Hist.init
  | step {nodes : NodeID → Hist} {q : NodeID} {env : Env} {i : Input}
      {y : Hist} {outs : List Output}
      (hr : ByzRun S honest may ok nodes) (hq : q ∈ honest)
      (hmay : ∀ m ∈ i.msg?, may (fun a => (nodes a).Issued) m) (hok : ok (nodes q) env i)
      (h : (nodes q).step S env i = some (y, outs)) :
      ByzRun S honest may ok (Function.update nodes q y)

variable {S : Setup} {honest : Finset NodeID} {may : Issues → Message → Prop} {ok : Cond}
  {nodes : NodeID → Hist} {x y : Hist} {env : Env} {i : Input} {outs : List Output}

/-! ## What was issued -/

theorem Hist.Issued.step (h : x.step S env i = some (y, outs)) {m : Message} (hm : x.Issued m) :
    y.Issued m := by
  unfold Hist.Issued at hm ⊢
  rw [Hist.step_out h, List.filterMap_append]
  exact List.mem_append_left _ hm

/-- What was issued went to somebody. -/
theorem Hist.Issued.exists_sentTo {m : Message} (hm : x.Issued m) : ∃ d, m ∈ x.sentTo d := by
  obtain ⟨o, ho, hom⟩ := List.mem_filterMap.mp hm
  obtain ⟨d, hd⟩ := Output.exists_sentTo hom x.core.name
  exact ⟨d, List.mem_filterMap.mpr ⟨o, ho, hd⟩⟩

/-- What went to somebody was issued. -/
theorem Hist.issued_of_sentTo {m : Message} {d : NodeID} (hm : m ∈ x.sentTo d) : x.Issued m := by
  obtain ⟨o, ho, hd⟩ := List.mem_filterMap.mp hm
  refine List.mem_filterMap.mpr ⟨o, ho, ?_⟩
  cases o with
  | send dst m' =>
    simp only [Output.sentTo] at hd
    split_ifs at hd <;> exact hd
  | recv m' =>
    simp only [Output.sentTo] at hd
    split_ifs at hd
    exact hd
  | _ => cases hd

/-- What was broadcast was issued. -/
theorem Hist.issued_of_broadcast {m : Message} (hm : x.Broadcast m) : x.Issued m := by
  obtain ⟨o, ho, hd⟩ := List.mem_filterMap.mp hm
  refine List.mem_filterMap.mpr ⟨o, ho, ?_⟩
  cases o with
  | send dst m' =>
    simp only [Output.broadcast?] at hd
    split_ifs at hd
    exact hd
  | _ => cases hd

/-- A step takes nothing back that was issued. -/
theorem issued_update {q : NodeID} (h : (nodes q).step S env i = some (y, outs)) (a : NodeID)
    (m : Message) (hm : (nodes a).Issued m) : (Function.update nodes q y a).Issued m := by
  by_cases ha : a = q
  · subst ha
    rw [Function.update_self]
    exact hm.step h
  · rwa [Function.update_of_ne ha]

/-! ## Single nodes -/

/-- Each node runs on its own, and one that is not honest stays as it is. -/
theorem ByzRun.localRun (hr : ByzRun S honest may ok nodes) (q : NodeID) :
    LocalRun S ok q (nodes q) := by
  induction hr with
  | start => exact .init
  | @step nodes q' env i y outs hr hq' hmay hok h ih =>
    by_cases hq : q = q'
    · subst hq
      rw [Function.update_self]
      exact .step ih hok h
    · rwa [Function.update_of_ne hq]

theorem ByzRun.facts (hr : ByzRun S honest may ok nodes) (q : NodeID) : Facts S q (nodes q) :=
  (hr.localRun q).facts

/-- What a node took it may take, if nothing that is issued later takes that away. -/
theorem ByzRun.handled_may (hr : ByzRun S honest may ok nodes)
    (hmono : ∀ {I I' : Issues} {m : Message}, (∀ a m, I a m → I' a m) → may I m → may I' m)
    {q : NodeID} {m : Message} (hm : m ∈ (nodes q).handled) :
    may (fun a => (nodes a).Issued) m := by
  induction hr generalizing q m with
  | start => cases hm
  | @step nodes q' env i y outs hr hq' hmay hok h ih =>
    refine hmono (issued_update h) ?_
    by_cases hq : q = q'
    · subst hq
      rw [Function.update_self, Hist.step_handled h, List.mem_append, Option.mem_toList] at hm
      exact hm.elim ih (hmay m)
    · rw [Function.update_of_ne hq] at hm
      exact ih hm

/-! ## Replays -/

section Replay

variable (S : Setup) (honest : Finset NodeID) (check : (NodeID → Hist) → Message → Bool) (ok : Cond)
  [∀ x env i, Decidable (ok x env i)]

/-- The steps of a schedule, on messages that pass the check. -/
def replayByz : (NodeID → Hist) → List Act → Option (NodeID → Hist)
  | nodes, [] => some nodes
  | nodes, a :: rest =>
    if a.node ∈ honest ∧ (a.input.msg?.all (check nodes)) = true ∧
      ok (nodes a.node) a.env a.input then
      match (nodes a.node).step S a.env a.input with
      | some (y, _) => replayByz (Function.update nodes a.node y) rest
      | none => none
    else none

variable {S honest check ok}

theorem replayByz_run (hcheck : ∀ {nodes m}, check nodes m = true →
    may (fun a => (nodes a).Issued) m)
    {schedule : List Act} {nodes' : NodeID → Hist} (hr : ByzRun S honest may ok nodes)
    (h : replayByz S honest check ok nodes schedule = some nodes') :
    ByzRun S honest may ok nodes' := by
  induction schedule generalizing nodes with
  | nil =>
    cases h
    exact hr
  | cons a rest ih =>
    unfold replayByz at h
    split_ifs at h with hcond
    obtain ⟨hq, hmsg, hok⟩ := hcond
    split at h
    case h_1 y outs hstep =>
      refine ih (.step hr hq (fun m hm => hcheck ?_) hok hstep) h
      exact (Option.all_eq_true (check nodes) _).mp hmsg m hm
    case h_2 => cases h

/-- What holds at the end of a replayed schedule holds at the end of a run. -/
theorem exists_byzRun (S : Setup) (honest : Finset NodeID) (may : Issues → Message → Prop)
    (check : (NodeID → Hist) → Message → Bool) (ok : Cond) [∀ x env i, Decidable (ok x env i)]
    (hcheck : ∀ {nodes m}, check nodes m = true → may (fun a => (nodes a).Issued) m)
    (schedule : List Act) (P : (NodeID → Hist) → Bool)
    (h : ((replayByz S honest check ok Hist.init schedule).any P) = true) :
    ∃ nodes, ByzRun S honest may ok nodes ∧ P nodes = true := by
  rw [Option.any_eq_true] at h
  obtain ⟨nodes, hrun, hP⟩ := h
  exact ⟨nodes, replayByz_run hcheck .start hrun, hP⟩

end Replay

end SMVBA
