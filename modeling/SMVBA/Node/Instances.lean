import SMVBA.Library.Rounds
import SMVBA.Node.VoteCounts
import SMVBA.Rules.Answers

/-!
# What becomes of a message for an SPB instance

A proposal or a vote that is taken becomes a spawned call, and the call meets an instance that has
its block or has not. So a phase-one proposal waits in a call until the instance has a block. A
phase-two proposal waits in a call, or in the instance, until it is voted for, and a vote waits in
either until it is counted. Nothing that was taken for an epoch that is not over is lost.

What waits in a call is dealt with when the call has run, and `calls` is the account of that. A call
is spawned once and run once, so the calls that a node had spawned at some point have all run when
those that wait are not among them.
-/

namespace SMVBA

variable {S : Setup} {env : Env} {i : Input} {name : NodeID} {x y : Hist} {outs : List Output}
  {ok : Cond} {c : Core} {p : SPBProposal} {s : Slot} {ph : Phase}

/-! ## The conditions -/

/-- The payloads of the block of a proposal are there when it is taken. -/
def PayloadsThere : Cond := fun x env i =>
  ∀ p ∈ i.proposal?, p.phase = .one → x.core.missing env p.b = []

instance (x : Hist) (env : Env) (i : Input) : Decidable (PayloadsThere x env i) :=
  inferInstanceAs (Decidable (∀ p ∈ i.proposal?, _ → _))

/-! ## Steps and calls -/

/-- The call that an input runs. -/
def Input.task? : Input → Option Task
  | .task t => some t
  | _ => none

theorem Input.eq_task {t : Task} (h : i.task? = some t) : i = .task t := by
  cases i with
  | task t' => rw [Option.some.inj h]
  | _ => cases h

/-- The calls that a node has spawned, in order. -/
def Hist.spawned (x : Hist) : List Task := x.out.filterMap Output.task?

/-- The calls after a step: the one that it ran is gone, and those that it spawned are there. -/
theorem Hist.step_tasks (h : x.step S env i = some (y, outs)) :
    y.tasks = x.toNode.tasksAfter i ++ outs.filterMap Output.task? := by
  obtain ⟨o, -, rfl, rfl⟩ := Hist.step_eq_some h
  rfl

theorem Hist.step_spawned (h : x.step S env i = some (y, outs)) :
    y.spawned = x.spawned ++ outs.filterMap Output.task? := by
  unfold Hist.spawned
  rw [Hist.step_out h, List.filterMap_append]

/-- A step that runs a call. -/
theorem Hist.step_task {t : Task} (h : x.step S env (.task t) = some (y, outs)) :
    t ∈ x.tasks ∧ y.core = (x.core.runTask S t).core ∧ (x.core.runTask S t).out = outs := by
  obtain ⟨o, ho, rfl, rfl⟩ := Hist.step_eq_some h
  cases Node.runs_of_outcome ho with
  | task t hs ht => exact ⟨ht, rfl, rfl⟩

/-- Only spawned calls change an instance. -/
theorem Hist.step_spb (h : x.step S env i = some (y, outs)) (hi : ∀ t, i ≠ .task t) :
    y.core.spbInstances = x.core.spbInstances := by
  obtain ⟨o, ho, rfl, rfl⟩ := Hist.step_eq_some h
  cases Node.runs_of_outcome ho with
  | start hs => rfl
  | loopBack d hs => exact (LeavesVotes.handleLoopBack d).spb
  | task t hs ht => exact absurd rfl (hi t)
  | msg m hs =>
    by_cases hm : ∃ v, m = .spbVote v
    · obtain ⟨v, rfl⟩ := hm
      change (x.core.handleSpbVote v).core.spbInstances = _
      unfold Core.handleSpbVote
      split_ifs <;> rfl
    · exact (LeavesVotes.handle fun v hv => hm ⟨v, hv⟩).spb

/-- A call that waits and is not the one that a step runs goes on waiting. -/
theorem Hist.mem_tasks_of_step (h : x.step S env i = some (y, outs)) {t : Task} (ht : t ∈ x.tasks)
    (hi : i ≠ .task t) : t ∈ y.tasks := by
  rw [Hist.step_tasks h]
  refine List.mem_append_left _ ?_
  cases i with
  | task t' => exact (List.mem_erase_of_ne fun he => hi (by rw [he])).mpr ht
  | _ => exact ht

/-- A block hash that an instance has stays. -/
theorem Hist.step_blockHash (h : x.step S env i = some (y, outs))
    (hb : (x.core.spbInstances s).blockHash ≠ none) :
    (y.core.spbInstances s).blockHash ≠ none := by
  refine step_invariant (I := fun z => (z.core.spbInstances s).blockHash ≠ none) ?_ h hb
  intro z z' hrule hz
  obtain ⟨d, hd⟩ := Option.ne_none_iff_exists'.mp hz
  rw [hrule.blockHash_eq hd]
  simp

/-! ## Proposals -/

/-- A proposal of an epoch that is not over becomes a spawned call, if its payloads are there and
the database takes its block. -/
theorem handleSpbProposal_spawns (he : c.epoch ≤ p.epoch)
    (hmissing : p.phase = .one → c.missing env p.b = [])
    (hput : (c.handleSpbProposal S env p).err ≠ some .put) :
    .spawn (.processProposal p) ∈ (c.handleSpbProposal S env p).out := by
  -- What comes first commits a late block at most, and does not fail.
  obtain ⟨k, out, hlate⟩ : ∃ k out,
      c.lateCommit S env p = ⟨{ c with commitor := k }, out, none⟩ := by
    unfold Core.lateCommit
    split_ifs
    · obtain ⟨-, heq⟩ | ⟨-, heq⟩ := verifyAndCommit_cases S env c p.b
      · exact ⟨_, _, heq⟩
      · exact ⟨_, _, heq⟩
    · exact ⟨_, _, rfl⟩
  unfold Core.handleSpbProposal Outcome.bind at hput ⊢
  rw [hlate] at hput ⊢
  dsimp only at hput ⊢
  rw [if_neg (messgaeFilter_of_le (c := { c with commitor := k }) he)] at hput ⊢
  refine List.mem_append_right _ ?_
  unfold Core.acceptProposal at hput ⊢
  by_cases hp : p.phase = .one
  · rw [if_pos hp] at hput ⊢
    split_ifs at hput ⊢ with hputOk
    · exact absurd rfl hput
    · have hnone : ({ c with
          commitor := k
          store := Function.update c.store (S.hash p.b) (some p.b) } : Core).missing env p.b =
          [] := by
        have hall := hmissing hp
        unfold Core.missing at hall ⊢
        rw [List.filter_eq_nil_iff] at hall ⊢
        intro d hd hd'
        refine hall d hd ?_
        by_cases hhash : d = S.hash p.b
        · simp [hhash] at hd'
        · simpa [Function.update_of_ne hhash] using hd'
      simp [Core.verifyConsensusBlock, hnone]
  · rw [if_neg hp]
    exact List.mem_singleton_self _

/-- A step that takes a proposal of an epoch that is not over spawns its call. -/
theorem step_spawns (hdb : ∀ o ∈ x.toNode.outcome S env i, o.err ≠ some .put)
    (hthere : PayloadsThere x env i) (h : x.step S env i = some (y, outs))
    (hnew : .spbProposal p ∈ i.msg?.toList) (he : y.core.epoch ≤ p.epoch) :
    .processProposal p ∈ y.tasks := by
  have hle := (Hist.step_epoch_le h).trans he
  rw [Hist.step_tasks h]
  obtain ⟨o, ho, rfl, rfl⟩ := Hist.step_eq_some h
  cases Node.runs_of_outcome ho with
  | msg m hs =>
    obtain rfl : m = .spbProposal p := by simpa [Input.msg?, eq_comm] using hnew
    refine List.mem_append_right _ (List.mem_filterMap.mpr
      ⟨.spawn (.processProposal p), ?_, rfl⟩)
    exact handleSpbProposal_spawns hle (hthere p rfl) (hdb _ ho)
  | _ => simp [Input.msg?] at hnew

/-- A phase-one proposal that was taken waits in a call, or its instance has a block. -/
def OnesTaken (x : Hist) : Prop :=
  ∀ p, .spbProposal p ∈ x.handled → p.phase = .one → p.author = p.b.proposer →
    x.core.epoch ≤ p.epoch →
    .processProposal p ∈ x.tasks ∨ (x.core.spbInstances p.slot).blockHash ≠ none

/-- The call for a phase-one proposal leaves its instance with a block. -/
theorem blockHash_of_processProposal (hp : p.phase = .one) (ha : p.author = p.b.proposer) :
    ((c.processProposal S p).core.spbInstances p.slot).blockHash ≠ none := by
  cases hb : (c.spbInstances p.slot).blockHash with
  | none =>
    rw [processProposal_one S hp hb ha]
    dsimp only
    rw [setSpb_self]
    simp
  | some d => simp [Core.processProposal, hp, hb, Outcome.ret]

theorem OnesTaken.step (hdb : ∀ o ∈ x.toNode.outcome S env i, o.err ≠ some .put)
    (hthere : PayloadsThere x env i) (h : x.step S env i = some (y, outs)) (hx : OnesTaken x) :
    OnesTaken y := by
  intro p hm hp ha he
  rw [Hist.step_handled h, List.mem_append] at hm
  rcases hm with hm | hm
  · rcases hx p hm hp ha ((Hist.step_epoch_le h).trans he) with ht | hb
    · by_cases hi : i = .task (.processProposal p)
      · subst hi
        refine .inr ?_
        rw [(Hist.step_task h).2.1]
        exact blockHash_of_processProposal hp ha
      · exact .inl (Hist.mem_tasks_of_step h ht hi)
    · exact .inr (Hist.step_blockHash h hb)
  · exact .inl (step_spawns hdb hthere h hm he)

/-- The vote for a phase-two proposal. -/
def Hist.twoVote (x : Hist) (p : SPBProposal) : Message :=
  .spbVote ⟨x.core.name, p.author, 0, p.epoch, p.round, .two⟩

/-- A phase-two proposal that was taken waits in a call or in its instance, or was voted for. -/
def TwosTaken (x : Hist) : Prop :=
  ∀ p, .spbProposal p ∈ x.handled → p.phase = .two → p.author ≠ NONE → x.core.epoch ≤ p.epoch →
    .processProposal p ∈ x.tasks ∨ p ∈ (x.core.spbInstances p.slot).unHandleProposal ∨
      x.twoVote p ∈ x.sentTo p.author

theorem Hist.step_name (h : x.step S env i = some (y, outs)) : y.core.name = x.core.name :=
  step_invariant (I := fun z => z.core.name = x.core.name)
    (fun hrule hz => hrule.name_eq.trans hz) h rfl

theorem Hist.mem_sentTo_of_step (h : x.step S env i = some (y, outs)) {d : NodeID} {m : Message}
    (hm : m ∈ x.sentTo d) : m ∈ y.sentTo d := by
  rw [Hist.step_sentTo h]
  exact List.mem_append_left _ hm

/-- What an instance keeps of phase-two proposals stays, or becomes a call. -/
theorem Hist.step_kept (h : x.step S env i = some (y, outs))
    (hk : p ∈ (x.core.spbInstances s).unHandleProposal) :
    p ∈ (y.core.spbInstances s).unHandleProposal ∨ .processProposal p ∈ y.tasks := by
  by_cases hi : ∃ t, i = .task t
  · obtain ⟨t, rfl⟩ := hi
    obtain ⟨-, hcore, hout⟩ := Hist.step_task h
    have hset : ∀ {u : Slot} {spb : SPB}, y.core = x.core.setSpb u spb →
        (u = s → p ∈ spb.unHandleProposal) →
        p ∈ (y.core.spbInstances s).unHandleProposal ∨ .processProposal p ∈ y.tasks := by
      intro u spb hy hspb
      refine .inl ?_
      rw [hy]
      by_cases hs : s = u
      · subst hs
        rw [setSpb_self]
        exact hspb rfl
      · rwa [setSpb_of_ne hs]
    have hret : y.core = x.core →
        p ∈ (y.core.spbInstances s).unHandleProposal ∨ .processProposal p ∈ y.tasks := by
      intro hy
      rw [hy]
      exact .inl hk
    cases t with
    | processVote v =>
      cases hb : (x.core.spbInstances v.slot).blockHash with
      | none =>
        change y.core = (x.core.processVote S v).core at hcore
        rw [processVote_none S hb] at hcore
        exact hset hcore fun hs => hs ▸ hk
      | some d =>
        change y.core = (x.core.processVote S v).core at hcore
        rw [processVote_some S hb] at hcore
        exact hset hcore fun hs => hs ▸ hk
    | processProposal q =>
      change y.core = (x.core.processProposal S q).core at hcore
      change (x.core.processProposal S q).out = outs at hout
      cases hq : q.phase with
      | one =>
        by_cases haccept : (x.core.spbInstances q.slot).blockHash = none ∧ q.author = q.b.proposer
        · rw [processProposal_one S hq haccept.1 haccept.2] at hcore hout
          by_cases hs : s = q.slot
          · -- What the instance kept is handed to new calls.
            subst hs
            refine .inr ?_
            rw [Hist.step_tasks h, ← hout]
            refine List.mem_append_right _ (List.mem_filterMap.mpr
              ⟨.spawn (.processProposal p), ?_, rfl⟩)
            exact List.mem_append_left _ (List.mem_append_right _ (List.mem_map.mpr ⟨p, hk, rfl⟩))
          · exact hset hcore fun hu => absurd hu.symm hs
        · refine hret (hcore.trans ?_)
          have hor : (x.core.spbInstances q.slot).blockHash ≠ none ∨ q.author ≠ q.b.proposer := by
            rw [← not_and_or]
            exact haccept
          simp [Core.processProposal, hq, hor, Outcome.ret]
      | two =>
        cases hb : (x.core.spbInstances q.slot).blockHash with
        | none =>
          rw [processProposal_two_none S hq hb] at hcore
          exact hset hcore fun hs => List.mem_append_left _ (hs ▸ hk)
        | some d =>
          rw [processProposal_two_some S hq hb] at hcore
          exact hset hcore fun hs => hs ▸ hk
      | other code =>
        rw [processProposal_other S hq] at hcore
        exact hret hcore
  · rw [Hist.step_spb h fun t ht => hi ⟨t, ht⟩]
    exact .inl hk

/-- The call for a phase-two proposal votes, if the instance has its block. -/
theorem step_twoVote (h : x.step S env (.task (.processProposal p)) = some (y, outs))
    (hp : p.phase = .two) (hauthor : p.author ≠ NONE)
    (hb : (x.core.spbInstances p.slot).blockHash ≠ none) : y.twoVote p ∈ y.sentTo p.author := by
  obtain ⟨d, hd⟩ := Option.ne_none_iff_exists'.mp hb
  have hout : (x.core.processProposal S p).out = outs := (Hist.step_task h).2.2
  rw [processProposal_two_some S hp hd] at hout
  rw [Hist.step_sentTo h, ← hout, Hist.twoVote, Hist.step_name h]
  refine List.mem_append_right _ ?_
  exact mem_sendVote (v := ⟨x.core.name, p.author, 0, p.epoch, p.round, .two⟩) hauthor

theorem TwosTaken.step (hdb : ∀ o ∈ x.toNode.outcome S env i, o.err ≠ some .put)
    (hthere : PayloadsThere x env i) (h : x.step S env i = some (y, outs)) (hx : TwosTaken x) :
    TwosTaken y := by
  intro p hm hp ha he
  rw [Hist.step_handled h, List.mem_append] at hm
  rcases hm with hm | hm
  · rcases hx p hm hp ha ((Hist.step_epoch_le h).trans he) with ht | hk | hv
    · by_cases hi : i = .task (.processProposal p)
      · subst hi
        refine .inr ?_
        by_cases hb : (x.core.spbInstances p.slot).blockHash = none
        · refine .inl ?_
          have hcore : y.core = (x.core.processProposal S p).core := (Hist.step_task h).2.1
          rw [hcore, processProposal_two_none S hp hb]
          dsimp only
          rw [setSpb_self]
          exact List.mem_append_right _ (List.mem_singleton_self p)
        · exact .inr (step_twoVote h hp ha hb)
      · exact .inl (Hist.mem_tasks_of_step h ht hi)
    · exact (Hist.step_kept h hk).elim (fun hk => .inr (.inl hk)) .inl
    · refine .inr (.inr ?_)
      rw [Hist.twoVote, Hist.step_name h]
      exact Hist.mem_sentTo_of_step h hv
  · exact .inl (step_spawns hdb hthere h hm he)

/-! ## Votes -/

/-- A call counts its own vote, if the instance has its block, and no other. -/
theorem runTask_votes (S : Setup) (c : Core) (t : Task) (s : Slot) (ph : Phase) :
    ((c.runTask S t).core.spbInstances s).votes ph = (c.spbInstances s).votes ph +
      if Task.isVote s ph t = true ∧ (c.spbInstances s).blockHash ≠ none then 1 else 0 := by
  have hset : ∀ {u : Slot} {spb : SPB}, spb.votes = (c.spbInstances u).votes →
      ((c.setSpb u spb).spbInstances s).votes ph = (c.spbInstances s).votes ph := by
    intro u spb hspb
    by_cases hs : s = u
    · subst hs
      rw [setSpb_self, hspb]
    · rw [setSpb_of_ne hs]
  cases t with
  | processVote v =>
    change ((c.processVote S v).core.spbInstances s).votes ph = _
    cases hb : (c.spbInstances v.slot).blockHash with
    | none =>
      have hnot : ¬ (Task.isVote s ph (.processVote v) = true ∧
          (c.spbInstances s).blockHash ≠ none) := by
        rintro ⟨hv, hne⟩
        rw [← (of_decide_eq_true hv).1] at hne
        exact hne hb
      rw [processVote_none S hb, if_neg hnot, add_zero]
      exact hset rfl
    | some d =>
      rw [processVote_some S hb]
      dsimp only
      by_cases hv : v.slot = s ∧ v.phase = ph
      · obtain ⟨rfl, rfl⟩ := hv
        rw [setSpb_self, if_pos ⟨decide_eq_true ⟨rfl, rfl⟩, by rw [hb]; simp⟩]
        exact Function.update_self ..
      · have hnot : ¬ (Task.isVote s ph (.processVote v) = true ∧
            (c.spbInstances s).blockHash ≠ none) := fun h => hv (of_decide_eq_true h.1)
        rw [if_neg hnot, add_zero]
        by_cases hs : s = v.slot
        · have hph : ph ≠ v.phase := fun he => hv ⟨hs.symm, he.symm⟩
          rw [hs, setSpb_self]
          exact Function.update_of_ne hph _ _
        · rw [setSpb_of_ne hs]
  | processProposal q =>
    have hnot : ¬ (Task.isVote s ph (.processProposal q) = true ∧
        (c.spbInstances s).blockHash ≠ none) := fun h => by cases h.1
    rw [if_neg hnot, add_zero]
    unfold Core.runTask Core.processProposal
    dsimp only
    cases q.phase with
    | one =>
      dsimp only
      split_ifs
      · rfl
      · exact hset rfl
    | two =>
      dsimp only
      split_ifs
      · exact hset rfl
      · exact hset rfl
    | other code => rfl

/-- From the moment in which an instance has its block, every call for a vote that runs is counted:
what is counted and what waits in calls grow by what is spawned. -/
theorem step_votes (ph : Phase) (h : x.step S env i = some (y, outs))
    (hb : (x.core.spbInstances s).blockHash ≠ none) :
    (y.core.spbInstances s).votes ph + y.tasks.countP (Task.isVote s ph) +
        x.spawned.countP (Task.isVote s ph) =
      (x.core.spbInstances s).votes ph + x.tasks.countP (Task.isVote s ph) +
        y.spawned.countP (Task.isVote s ph) := by
  rw [Hist.step_tasks h, Hist.step_spawned h, List.countP_append, List.countP_append]
  by_cases hi : ∃ t, i = .task t
  · obtain ⟨t, rfl⟩ := hi
    obtain ⟨ht, hcore, -⟩ := Hist.step_task h
    have herase := countP_erase_add ht (Task.isVote s ph)
    have hvotes := runTask_votes S x.core t s ph
    simp only [hb, ne_eq, not_false_eq_true, and_true] at hvotes
    rw [hcore, hvotes]
    change _ + _ + ((x.tasks.erase t).countP _ + _) + _ = _
    omega
  · have htasks : x.toNode.tasksAfter i = x.tasks := by
      cases i with
      | task t => exact absurd ⟨t, rfl⟩ hi
      | _ => rfl
    rw [Hist.step_spb h fun t ht => hi ⟨t, ht⟩, htasks]
    omega

/-- A call moves the votes for an instance between the call, the instance and its count, and loses
none. -/
theorem step_voteLoad_task (hbuf : SpbBuffers x) {t : Task}
    (h : x.step S env (.task t) = some (y, outs)) (s : Slot) (ph : Phase) :
    x.voteLoad s ph ≤ y.voteLoad s ph := by
  obtain ⟨ht, hcore, hout⟩ := Hist.step_task h
  have herase := countP_erase_add ht (Task.isVote s ph)
  have htasks : y.tasks = x.tasks.erase t ++ outs.filterMap Output.task? := Hist.step_tasks h
  -- The weight of an instance that a call leaves as `spb`, with the calls that it spawns.
  have hset : ∀ {u : Slot} {spb : SPB} {n : ℕ}, y.core = x.core.setSpb u spb →
      (outs.filterMap Output.task?).countP (Task.isVote s ph) = n →
      (s = u → (x.core.spbInstances s).votes ph +
          (x.core.spbInstances s).unHandleVote.countP (·.phase = ph) +
            (if Task.isVote s ph t = true then 1 else 0) ≤
        spb.votes ph + spb.unHandleVote.countP (·.phase = ph) + n) →
      (s ≠ u → Task.isVote s ph t = false) → x.voteLoad s ph ≤ y.voteLoad s ph := by
    intro u spb n hy hn hself hother
    unfold Hist.voteLoad
    rw [hy, htasks, List.countP_append, hn]
    by_cases hs : s = u
    · have hle := hself hs
      subst hs
      rw [setSpb_self]
      omega
    · rw [hother hs] at herase
      rw [setSpb_of_ne hs]
      simp only [Bool.false_eq_true, if_false] at herase
      omega
  have hret : y.core = x.core → Task.isVote s ph t = false →
      x.voteLoad s ph ≤ y.voteLoad s ph := by
    intro hy hkind
    unfold Hist.voteLoad
    rw [hy, htasks, List.countP_append]
    rw [hkind] at herase
    simp only [Bool.false_eq_true, if_false] at herase
    omega
  cases t with
  | processVote v =>
    change y.core = (x.core.processVote S v).core at hcore
    change (x.core.processVote S v).out = outs at hout
    have hother : s ≠ v.slot → Task.isVote s ph (.processVote v) = false := by
      intro hs
      simp [Task.isVote, Ne.symm hs]
    have hkind : s = v.slot → (Task.isVote s ph (.processVote v) = true ↔ v.phase = ph) := by
      rintro rfl
      simp [Task.isVote]
    cases hb : (x.core.spbInstances v.slot).blockHash with
    | none =>
      rw [processVote_none S hb] at hcore hout
      refine hset hcore (n := 0) (by rw [← hout]; rfl) (fun hs => ?_) hother
      rw [if_congr (hkind hs) rfl rfl]
      subst hs
      simp only [List.countP_append, List.countP_singleton, decide_eq_true_eq]
      omega
    | some d =>
      rw [processVote_some S hb] at hcore
      refine hset hcore rfl (fun hs => ?_) hother
      rw [if_congr (hkind hs) rfl rfl]
      subst hs
      by_cases hph : v.phase = ph
      · subst hph
        simp only [Function.update_self, if_true]
        omega
      · rw [if_neg hph]
        simp only [Function.update_of_ne (Ne.symm hph)]
        omega
  | processProposal q =>
    change y.core = (x.core.processProposal S q).core at hcore
    change (x.core.processProposal S q).out = outs at hout
    have hkind : Task.isVote s ph (.processProposal q) = false := rfl
    cases hq : q.phase with
    | one =>
      by_cases haccept : (x.core.spbInstances q.slot).blockHash = none ∧ q.author = q.b.proposer
      · rw [processProposal_one S hq haccept.1 haccept.2] at hcore hout
        -- The votes that the instance kept are handed to new calls.
        have hspawned : outs.filterMap Output.task? =
            (x.core.spbInstances q.slot).unHandleProposal.map Task.processProposal ++
              (x.core.spbInstances q.slot).unHandleVote.map Task.processVote := by
          have hvote : (x.core.sendVote ⟨x.core.name, q.author, S.hash q.b, q.epoch, q.round,
              .one⟩).filterMap Output.task? = [] := by
            unfold Core.sendVote
            split_ifs <;> rfl
          rw [← hout]
          simp [List.filterMap_append, hvote, List.filterMap_map, Function.comp_def, Output.task?]
        refine hset hcore rfl (fun hs => ?_) fun _ => hkind
        rw [hspawned, List.countP_append, countP_isVote_proposals,
          countP_isVote_votes (hbuf.votes q.slot), if_pos hs, hkind]
        subst hs
        simp
      · refine hret (hcore.trans ?_) hkind
        have hor : (x.core.spbInstances q.slot).blockHash ≠ none ∨ q.author ≠ q.b.proposer := by
          rw [← not_and_or]
          exact haccept
        simp [Core.processProposal, hq, hor, Outcome.ret]
    | two =>
      cases hb : (x.core.spbInstances q.slot).blockHash with
      | none =>
        rw [processProposal_two_none S hq hb] at hcore
        refine hset hcore rfl (fun hs => ?_) fun _ => hkind
        subst hs
        simp [hkind]
      | some d =>
        rw [processProposal_two_some S hq hb] at hcore
        refine hset hcore rfl (fun hs => ?_) fun _ => hkind
        subst hs
        simp [hkind]
    | other code =>
      rw [processProposal_other S hq] at hcore
      exact hret hcore hkind

/-- The votes that were taken for an epoch that is not over are counted, kept or wait in calls. -/
def VotesKept (x : Hist) : Prop :=
  ∀ (s : Slot) (ph : Phase), x.core.epoch ≤ s.epoch →
    x.handled.countP (Message.isVote s ph) ≤ x.voteLoad s ph

theorem VotesKept.step (hbuf : SpbBuffers x) (h : x.step S env i = some (y, outs))
    (hx : VotesKept x) : VotesKept y := by
  intro s ph he
  have hle := hx s ph ((Hist.step_epoch_le h).trans he)
  rw [Hist.step_handled h, List.countP_append]
  by_cases hi : ∃ t, i = .task t
  · obtain ⟨t, rfl⟩ := hi
    have hload := step_voteLoad_task hbuf h s ph
    simp only [Input.msg?, Option.toList_none, List.countP_nil]
    omega
  · have hspb := Hist.step_spb h fun t ht => hi ⟨t, ht⟩
    have htasks := Hist.step_tasks h
    have hafter : x.toNode.tasksAfter i = x.tasks := by
      cases i with
      | task t => exact absurd ⟨t, rfl⟩ hi
      | _ => rfl
    -- The calls that are spawned make up for the message that is taken.
    have hnew : i.msg?.toList.countP (Message.isVote s ph) ≤
        (outs.filterMap Output.task?).countP (Task.isVote s ph) := by
      by_cases hv : ∃ v, i = .msg (.spbVote v)
      · obtain ⟨v, rfl⟩ := hv
        have hkind : Task.isVote s ph (.processVote v) = Message.isVote s ph (.spbVote v) := rfl
        by_cases hvote : Message.isVote s ph (.spbVote v) = true
        · have hepoch : x.core.epoch ≤ v.epoch := by
            have hslot : v.slot = s := (of_decide_eq_true hvote).1
            have hse : s.epoch = v.epoch := by rw [← hslot]; rfl
            exact ((Hist.step_epoch_le h).trans he).trans hse.le
          have hout : (x.core.handleSpbVote v).out = outs := (Hist.step_msg h).2
          unfold Core.handleSpbVote at hout
          rw [if_neg (messgaeFilter_of_le hepoch)] at hout
          rw [← hout]
          simp [Input.msg?, Output.task?, List.countP_singleton, hkind]
        · simp [Input.msg?, hvote]
      · have hzero : i.msg?.toList.countP (Message.isVote s ph) = 0 := by
          cases i with
          | msg m =>
            cases m with
            | spbVote v => exact absurd ⟨v, rfl⟩ hv
            | _ => rfl
          | _ => rfl
        omega
    unfold Hist.voteLoad at hle ⊢
    rw [hspb, htasks, hafter, List.countP_append]
    omega

/-! ## Calls that have run -/

/-- A node as a machine that spawns calls and runs them. -/
def calls (S : Setup) : Calls.Machine Hist Task where
  step x c y := ∃ env i outs, x.step S env i = some (y, outs) ∧ i.task? = c
  waiting x := x.tasks
  spawned := Hist.spawned
  count_step := by
    rintro x c y ⟨env, i, outs, h, rfl⟩ t
    rw [Hist.step_tasks h, Hist.step_spawned h, List.count_append, List.count_append]
    cases i with
    | task t' =>
      change (x.tasks.erase t').count t + _ + _ + (if some t' = some t then 1 else 0) = _
      have ht := (Hist.step_task h).1
      by_cases heq : t' = t
      · subst heq
        have hpos := List.count_pos_iff.mpr ht
        rw [List.count_erase_self, if_pos rfl]
        omega
      · have hne : ¬ some t' = some t := fun he => heq (Option.some.inj he)
        rw [List.count_erase_of_ne (Ne.symm heq), if_neg hne]
        omega
    | _ =>
      change x.tasks.count t + _ + _ + 0 = _
      omega

/-- The steps of a node, under any answers of its surroundings. -/
def Hist.Steps (S : Setup) : Hist → Hist → Prop :=
  Relation.ReflTransGen fun x y => ∃ c, (calls S).step x c y

/-- What every step of a node keeps. -/
theorem Hist.Steps.keep {I : Hist → Prop} (h : x.Steps S y)
    (hI : ∀ {env i outs x y}, x.step S env i = some (y, outs) → I x → I y) (hx : I x) : I y := by
  induction h with
  | refl => exact hx
  | tail _ hstep ih =>
    obtain ⟨c, env, i, outs, hstep, -⟩ := hstep
    exact hI hstep ih

/-- A phase-one proposal that waits in a call gives its instance a block. -/
theorem Hist.Steps.blockHash (h : x.Steps S y) (hran : Calls.RanBy (calls S) x y)
    (hp : p.phase = .one) (ha : p.author = p.b.proposer)
    (hx : .processProposal p ∈ x.tasks ∨ (x.core.spbInstances p.slot).blockHash ≠ none) :
    (y.core.spbInstances p.slot).blockHash ≠ none := by
  rcases hx with ht | hb
  · refine Calls.Machine.ran (M := calls S) (B := fun _ => True)
      (J := fun x => (x.core.spbInstances p.slot).blockHash ≠ none) h hran ht (fun _ _ => trivial)
      ?_ ?_ trivial
    · rintro x c y ⟨env, i, outs, hstep, -⟩ hb
      exact Hist.step_blockHash hstep hb
    · rintro x y ⟨env, i, outs, hstep, hi⟩ -
      obtain rfl := Input.eq_task hi
      rw [(Hist.step_task hstep).2.1]
      exact blockHash_of_processProposal hp ha
  · exact h.keep Hist.step_blockHash hb

/-- A phase-two proposal that waits in a call is voted for, if its instance has its block. -/
theorem Hist.Steps.twoVote (h : x.Steps S y) (hran : Calls.RanBy (calls S) x y)
    (hp : p.phase = .two) (ha : p.author ≠ NONE)
    (hb : (x.core.spbInstances p.slot).blockHash ≠ none)
    (hx : .processProposal p ∈ x.tasks ∨ x.twoVote p ∈ x.sentTo p.author) :
    y.twoVote p ∈ y.sentTo p.author := by
  have hstays : ∀ {env i outs} {x y : Hist}, x.step S env i = some (y, outs) →
      x.twoVote p ∈ x.sentTo p.author → y.twoVote p ∈ y.sentTo p.author := by
    intro env i outs x y hstep hv
    rw [Hist.twoVote, Hist.step_name hstep]
    exact Hist.mem_sentTo_of_step hstep hv
  rcases hx with ht | hv
  · refine Calls.Machine.ran (M := calls S)
      (B := fun x => (x.core.spbInstances p.slot).blockHash ≠ none)
      (J := fun x => x.twoVote p ∈ x.sentTo p.author) h hran ht ?_ ?_ ?_ hb
    · rintro x c y ⟨env, i, outs, hstep, -⟩ hb
      exact Hist.step_blockHash hstep hb
    · rintro x c y ⟨env, i, outs, hstep, -⟩ hv
      exact hstays hstep hv
    · rintro x y ⟨env, i, outs, hstep, hi⟩ hb
      obtain rfl := Input.eq_task hi
      exact step_twoVote hstep hp ha hb
  · exact h.keep hstays hv

/-- The votes that wait in calls are counted, if the instance has its block. -/
theorem Hist.Steps.votes_le (ph : Phase) (h : x.Steps S y) (hran : Calls.RanBy (calls S) x y)
    (hb : (x.core.spbInstances s).blockHash ≠ none) :
    (x.core.spbInstances s).votes ph + x.tasks.countP (Task.isVote s ph) ≤
      (y.core.spbInstances s).votes ph := by
  have hbalance : (y.core.spbInstances s).blockHash ≠ none ∧
      (y.core.spbInstances s).votes ph + y.tasks.countP (Task.isVote s ph) +
        x.spawned.countP (Task.isVote s ph) =
      (x.core.spbInstances s).votes ph + x.tasks.countP (Task.isVote s ph) +
        y.spawned.countP (Task.isVote s ph) := by
    refine h.keep (I := fun y => (y.core.spbInstances s).blockHash ≠ none ∧
      (y.core.spbInstances s).votes ph + y.tasks.countP (Task.isVote s ph) +
        x.spawned.countP (Task.isVote s ph) =
      (x.core.spbInstances s).votes ph + x.tasks.countP (Task.isVote s ph) +
        y.spawned.countP (Task.isVote s ph)) ?_ ⟨hb, rfl⟩
    rintro env i outs z z' hstep ⟨hbz, hz⟩
    have hone := step_votes ph hstep hbz
    exact ⟨Hist.step_blockHash hstep hbz, by omega⟩
  have hle : (x.spawned ++ y.tasks).countP (Task.isVote s ph) ≤
      y.spawned.countP (Task.isVote s ph) := hran.countP_le _
  rw [List.countP_append] at hle
  omega

/-- What holds of a node to which payloads and the database have always answered. -/
structure Diligent (x : Hist) : Prop where
  ones : OnesTaken x
  twos : TwosTaken x
  votes : VotesKept x

theorem LocalRun.diligent
    (hok : ∀ x env i, ok x env i → PayloadsThere x env i ∧
      ∀ o ∈ x.toNode.outcome S env i, o.err ≠ some .put)
    (hr : LocalRun S ok name x) : Diligent x := by
  induction hr with
  | init =>
    exact ⟨fun p hm => absurd hm List.not_mem_nil, fun p hm => absurd hm List.not_mem_nil,
      fun s ph _ => Nat.zero_le _⟩
  | step hr hstep h ih =>
    obtain ⟨hthere, hput⟩ := hok _ _ _ hstep
    exact ⟨ih.ones.step hput hthere h, ih.twos.step hput hthere h,
      ih.votes.step hr.facts.buffers h⟩

end SMVBA
