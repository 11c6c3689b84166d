import SMVBA.Spb.OneVote

/-!
# The buffers of an SPB instance

A vote or a phase-two proposal that finds no block is kept, and the call that stores a block hands
out what was kept. A call looks for the block and appends to the buffer in two steps. If the block
is stored and the buffers are handed out in between, what is appended afterwards stays in the buffer
for good. Nothing stays there if the last call that hands the buffers out does so when no call is
between its `Load` and its append (`DrainsApart`).

Nothing is ever lost on the way: a vote is in a call, in the buffer, or counted (`votes_account`),
and a phase-two proposal is in a call, in the buffer, or answered (`twos_account`). What is left is
that the buffers are empty at the end (`Settled`).
-/

namespace SMVBA

open Threads

variable {S : Setup} {c : Core} {tasks : List Task} {p : Pool SPB Call Event} {t : Call}
  {ok : Pool SPB Call Event → Call → Prop}

/-- The call has found no block and has not appended yet. -/
def Call.isKeeping : Call → Bool
  | .keepTwo _ => true
  | .keepVote _ => true
  | _ => false

/-- The call has found no block for its own, and has not handed out the buffers yet. -/
def Call.isAccepting : Call → Bool
  | .storeOne _ => true
  | .sendOne _ => true
  | .drain => true
  | _ => false

/-- The last call that hands out the buffers does so when no call is between its `Load` and its
append. -/
def DrainsApart (p : Pool SPB Call Event) (t : Call) : Prop :=
  t = .drain → p.threads.countP Call.isKeeping = 0 ∨ 2 ≤ p.threads.countP Call.isAccepting

instance (p : Pool SPB Call Event) (t : Call) : Decidable (DrainsApart p t) :=
  inferInstanceAs (Decidable (_ → _))

/-- The vote that a call has to count. -/
def Call.vote? : Call → Option SPBVote
  | .loadVote v => some v
  | .keepVote v => some v
  | .countVote v => some v
  | _ => none

/-- The phase-two proposal that a call has to answer. -/
def Call.two? : Call → Option SPBProposal
  | .loadTwo q => some q
  | .keepTwo q => some q
  | .lockTwo q => some q
  | .sendTwo q => some q
  | _ => none

/-- The phase-two proposal of a call at its start. -/
def Task.two? : Task → Option SPBProposal
  | .processProposal q => if q.phase = .two then some q else none
  | .processVote _ => none

/-- The vote that was counted. -/
def Event.counted? : Event → Option SPBVote
  | .counted v => some v
  | .out _ => none

/-- The phase-two vote that was sent. -/
def Event.twoVote? : Event → Option SPBVote
  | .out o => o.vote?.filter fun v => v.phase = .two
  | .counted _ => none

/-! ## The buffers at the end -/

/-- Once there is a block and nobody is left to hand out the buffers, they are empty, and no call is
about to append to them. -/
def Settled (p : Pool SPB Call Event) : Prop :=
  p.shared.blockHash ≠ none → p.threads.countP Call.isAccepting = 0 →
    p.shared.unHandleVote = [] ∧ p.shared.unHandleProposal = [] ∧
    p.threads.countP Call.isKeeping = 0

theorem isKeeping_of_starts (x : Call) (h : x.Starts) : x.isKeeping = false := by
  cases h <;> rfl

theorem isAccepting_of_starts (x : Call) (h : x.Starts) : x.isAccepting = false := by
  cases h <;> rfl

/-- What a step has to do with the buffers. -/
inductive BufferStep (s s' : SPB) (t : Call) (new : List Call) : Prop
  /-- A call that will hand out the buffers goes on. -/
  | accepting (hnew : 0 < new.countP Call.isAccepting)
  /-- The buffers are handed out. -/
  | drain (ht : t = .drain) (hvotes : s'.unHandleVote = []) (htwos : s'.unHandleProposal = [])
      (hnew : new.countP Call.isAccepting = 0) (hnew' : new.countP Call.isKeeping = 0)
  /-- A call finds no block. -/
  | early (hb : s'.blockHash = none)
  /-- A call appends to a buffer. -/
  | keep (ht : t.isKeeping = true) (ht' : t.isAccepting = false) (hb : s'.blockHash = s.blockHash)
      (hnew : new = [])
  /-- Nothing of that. -/
  | other (ht : t.isKeeping = false) (ht' : t.isAccepting = false) (hb : s'.blockHash = s.blockHash)
      (hvotes : s'.unHandleVote = s.unHandleVote) (htwos : s'.unHandleProposal = s.unHandleProposal)
      (hnew : new.countP Call.isAccepting = 0) (hnew' : new.countP Call.isKeeping = 0)

theorem Call.bufferStep (s : SPB) (t : Call) :
    BufferStep s (Call.step S c s t).1 t (Call.step S c s t).2.1 := by
  cases t with
  | loadOne q =>
    unfold Call.step
    dsimp only
    split_ifs
    · exact .other rfl rfl rfl rfl rfl rfl rfl
    · exact .accepting Nat.one_pos
  | storeOne q => exact .accepting Nat.one_pos
  | sendOne q => exact .accepting Nat.one_pos
  | drain =>
    exact .drain rfl rfl rfl (countP_calls isAccepting_of_starts _)
      (countP_calls isKeeping_of_starts _)
  | loadTwo q | loadVote q =>
    unfold Call.step
    dsimp only
    split_ifs with hb
    · exact .early hb
    · exact .other rfl rfl rfl rfl rfl rfl rfl
  | keepTwo q | keepVote q => exact .keep rfl rfl rfl rfl
  | lockTwo q | sendTwo q | countVote q | answer q num =>
    exact .other rfl rfl rfl rfl rfl rfl rfl

theorem Settled.step (ht : t ∈ p.threads) (hok : DrainsApart p t) (hp : Settled p) :
    Settled (p.after (Call.step S c) t) := by
  have haccepting := p.countP_after (P := Call.step S c) Call.isAccepting ht
  have hkeeping := p.countP_after (P := Call.step S c) Call.isKeeping ht
  intro hblock hdone
  cases Call.bufferStep (S := S) (c := c) p.shared t with
  | accepting hnew =>
    have hle : (Call.step S c p.shared t).2.1.countP Call.isAccepting ≤
        (p.after (Call.step S c) t).threads.countP Call.isAccepting := by
      unfold Pool.after
      rw [List.countP_append]
      exact Nat.le_add_left _ _
    omega
  | drain hdrain hvotes htwos hnew hnew' =>
    subst hdrain
    rw [hdone, hnew] at haccepting
    rw [hnew'] at hkeeping
    -- This was the last one.
    have hlast : p.threads.countP Call.isAccepting = 1 := haccepting.symm
    have hnone : p.threads.countP Call.isKeeping = 0 := by
      rcases hok rfl with hnone | hmore
      · exact hnone
      · omega
    refine ⟨hvotes, htwos, ?_⟩
    rw [hnone] at hkeeping
    exact hkeeping
  | early hb => exact absurd hb hblock
  | keep htk hta hb hnew =>
    rw [hdone, hta, hnew] at haccepting
    have hzero : p.threads.countP Call.isAccepting = 0 := haccepting.symm
    -- Then this call would not be there.
    obtain ⟨-, -, hnone⟩ := hp (fun h => hblock (hb.trans h)) hzero
    exact absurd htk (List.countP_eq_zero.mp hnone t ht)
  | other htk hta hb hvotes htwos hnew hnew' =>
    rw [hdone, hta, hnew] at haccepting
    rw [htk, hnew'] at hkeeping
    have hzero : p.threads.countP Call.isAccepting = 0 := haccepting.symm
    obtain ⟨hempty, hempty', hnone⟩ := hp (fun h => hblock (hb.trans h)) hzero
    rw [hnone] at hkeeping
    exact ⟨hvotes.trans hempty, htwos.trans hempty', hkeeping⟩

/-! ## The votes -/

theorem filterMap_vote?_calls (t : Task) : t.calls.filterMap Call.vote? = t.vote?.toList := by
  cases t with
  | processVote v => rfl
  | processProposal q =>
    unfold Task.calls
    dsimp only
    cases q.phase <;> rfl

/-- The votes that a drain hands out. -/
theorem filterMap_vote?_drain (s : SPB) :
    (Call.step S c s .drain).2.1.filterMap Call.vote? = s.unHandleVote := by
  unfold Call.step
  dsimp only
  rw [filterMap_calls filterMap_vote?_calls]
  simp [List.filterMap_map, Function.comp_def, Task.vote?]

/-- Outputs count nothing. -/
theorem filterMap_counted?_out (l : List Output) :
    (l.map Event.out).filterMap Event.counted? = [] := by
  rw [List.filterMap_map]
  exact List.filterMap_eq_nil_iff.mpr fun _ _ => rfl

/-- A vote is kept, in a call, or counted. -/
theorem votes_account (hr : Reachable (Call.step S c) ok (spbPool tasks) p) :
    (p.account SPB.unHandleVote Call.vote? Event.counted?).Perm (tasks.filterMap Task.vote?) := by
  have hstart : (spbPool tasks).account SPB.unHandleVote Call.vote? Event.counted? =
      tasks.filterMap Task.vote? := by
    unfold Pool.account spbPool
    dsimp only
    rw [filterMap_calls filterMap_vote?_calls]
    simp
  rw [← hstart]
  refine hr.balance fun {p t} _ _ => ?_
  cases t with
  | loadOne q | loadTwo q | loadVote q =>
    unfold Call.step
    dsimp only
    split_ifs <;> simp [Call.vote?, List.filterMap_cons]
  | drain =>
    rw [filterMap_vote?_drain]
    simp [Call.step, Call.vote?]
  | sendOne q | sendTwo q | answer q num =>
    simp only [Call.step, filterMap_counted?_out]
    simp [Call.vote?, List.filterMap_cons]
  | storeOne q | keepTwo q | lockTwo q | keepVote q | countVote q =>
    simp [Call.step, Call.vote?, Event.counted?, List.filterMap_cons]

/-- A step counts a vote, or leaves the counts alone. -/
theorem Call.votes_cases (s : SPB) (t : Call) :
    ((Call.step S c s t).1.votes = s.votes ∧
      (Call.step S c s t).2.2.filterMap Event.counted? = []) ∨
    ∃ v, (Call.step S c s t).1.votes = Function.update s.votes v.phase (s.votes v.phase + 1) ∧
      (Call.step S c s t).2.2.filterMap Event.counted? = [v] := by
  cases t with
  | countVote v => exact .inr ⟨v, rfl, rfl⟩
  | loadOne q | loadTwo q | loadVote q =>
    unfold Call.step
    dsimp only
    split_ifs <;> exact .inl ⟨rfl, rfl⟩
  | sendOne q | sendTwo q | answer q num => exact .inl ⟨rfl, filterMap_counted?_out _⟩
  | storeOne q | drain | keepTwo q | lockTwo q | keepVote q => exact .inl ⟨rfl, rfl⟩

/-- The counts of an instance are those of the counted votes. -/
theorem votes_eq (hr : Reachable (Call.step S c) ok (spbPool tasks) p) (ph : Phase) :
    p.shared.votes ph = (p.trace.filterMap Event.counted?).countP (·.phase = ph) := by
  refine hr.invariant (I := fun p =>
    p.shared.votes ph = (p.trace.filterMap Event.counted?).countP (·.phase = ph)) rfl ?_
  intro p t _ _ hp
  have htrace : (p.after (Call.step S c) t).trace.filterMap Event.counted? =
      p.trace.filterMap Event.counted? ++ (Call.step S c p.shared t).2.2.filterMap Event.counted? :=
    List.filterMap_append
  rw [htrace, List.countP_append, ← hp]
  -- A step counts a vote, or it changes no count and counts nothing.
  rcases Call.votes_cases (S := S) (c := c) p.shared t with ⟨hsame, hnone⟩ | ⟨v, heq, hcounted⟩
  · rw [hnone]
    exact congrFun hsame ph
  · rw [hcounted, List.countP_singleton]
    refine (congrFun heq ph).trans ?_
    by_cases hph : v.phase = ph
    · rw [hph, Function.update_self, decide_eq_true rfl, if_pos rfl]
    · rw [Function.update_of_ne (Ne.symm hph), decide_eq_false hph]
      rfl

/-! ## The phase-two proposals -/

/-- The proposals that are kept or in calls of the second phase are of the second phase. -/
structure PhasesKept (p : Pool SPB Call Event) : Prop where
  kept : ∀ q ∈ p.shared.unHandleProposal, q.phase = .two
  called : ∀ t ∈ p.threads, ∀ q ∈ t.two?, q.phase = .two

theorem two?_of_starts {x : Call} (h : x.Starts) {q : SPBProposal} (hq : q ∈ x.two?) :
    q.phase = .two := by
  cases h with
  | one p => cases hq
  | two p hp =>
    cases hq
    exact hp
  | vote v => cases hq

/-- The calls that a step leaves behind are for what the moving call was for, or start anew. -/
theorem Call.two?_step (s : SPB) {x : Call} (hx : x ∈ (Call.step S c s t).2.1) {q : SPBProposal}
    (hq : q ∈ x.two?) : q ∈ t.two? ∨ q.phase = .two := by
  cases t with
  | drain =>
    obtain ⟨t, -, ht⟩ := List.mem_flatMap.mp hx
    exact .inr (two?_of_starts (starts_of_mem_calls ht) hq)
  | loadOne r =>
    unfold Call.step at hx
    dsimp only at hx
    split_ifs at hx
    · exact absurd hx List.not_mem_nil
    · obtain rfl := List.mem_singleton.mp hx
      exact .inl hq
  | loadTwo r | loadVote r =>
    unfold Call.step at hx
    dsimp only at hx
    split_ifs at hx <;> obtain rfl := List.mem_singleton.mp hx <;> exact .inl hq
  | sendTwo r | keepTwo r | keepVote r | answer r num => cases hx
  | storeOne r | sendOne r | lockTwo r | countVote r =>
    obtain rfl := List.mem_singleton.mp hx
    exact .inl hq

/-- What a step finds in the buffer afterwards was there, or was in the call. -/
theorem Call.kept_step (s : SPB) {q : SPBProposal}
    (hq : q ∈ (Call.step S c s t).1.unHandleProposal) : q ∈ s.unHandleProposal ∨ q ∈ t.two? := by
  cases t with
  | drain => cases hq
  | loadOne r | loadTwo r | loadVote r =>
    unfold Call.step at hq
    dsimp only at hq
    split_ifs at hq <;> exact .inl hq
  | keepTwo r =>
    rcases List.mem_append.mp hq with hq | hq
    · exact .inl hq
    · exact .inr (congrArg some (List.mem_singleton.mp hq).symm)
  | storeOne r | sendOne r | sendTwo r | lockTwo r | keepVote r | countVote r | answer r num =>
    exact .inl hq

theorem PhasesKept.step (ht : t ∈ p.threads) (hp : PhasesKept p) :
    PhasesKept (p.after (Call.step S c) t) where
  kept q hq := by
    rcases Call.kept_step p.shared hq with hq | hq
    · exact hp.kept q hq
    · exact hp.called t ht q hq
  called x hx q hq := by
    rcases List.mem_append.mp hx with hx | hx
    · exact hp.called x (List.mem_of_mem_erase hx) q hq
    · rcases Call.two?_step p.shared hx hq with hq | hq
      · exact hp.called t ht q hq
      · exact hq

theorem phasesKept (hr : Reachable (Call.step S c) ok (spbPool tasks) p) : PhasesKept p := by
  refine hr.invariant ?_ fun ht _ hp => hp.step ht
  constructor
  · exact fun q hq => absurd hq List.not_mem_nil
  · intro x hx q hq
    obtain ⟨t, -, ht⟩ := List.mem_flatMap.mp hx
    exact two?_of_starts (starts_of_mem_calls ht) hq

theorem filterMap_two?_calls (t : Task) :
    t.calls.filterMap (fun x => x.two?.map (answerTwo c)) = (t.two?.map (answerTwo c)).toList := by
  cases t with
  | processVote v => rfl
  | processProposal q =>
    unfold Task.calls Task.two?
    dsimp only
    cases hq : q.phase <;> simp [Call.two?]

/-- What a drain hands out to be answered. -/
theorem filterMap_two?_drain (s : SPB) (hs : ∀ q ∈ s.unHandleProposal, q.phase = .two) :
    (Call.step S c s .drain).2.1.filterMap (fun x => x.two?.map (answerTwo c)) =
      s.unHandleProposal.map (answerTwo c) := by
  have hall : ∀ q ∈ s.unHandleProposal,
      ((Task.processProposal q).two?.map (answerTwo c)) = some (answerTwo c q) := by
    intro q hq
    unfold Task.two?
    dsimp only
    rw [if_pos (hs q hq)]
    rfl
  unfold Call.step
  dsimp only
  rw [filterMap_calls filterMap_two?_calls, List.filterMap_append, List.filterMap_map,
    List.filterMap_map]
  have hvotes : s.unHandleVote.filterMap
      ((fun t : Task => t.two?.map (answerTwo c)) ∘ Task.processVote) = [] :=
    List.filterMap_eq_nil_iff.mpr fun _ _ => rfl
  rw [hvotes, List.append_nil, ← List.filterMap_eq_map]
  exact List.filterMap_congr hall

/-- The phase-two votes among what is sent with a vote. -/
theorem filterMap_twoVote?_sendVote (v : SPBVote) :
    ((c.sendVote v).map Event.out).filterMap Event.twoVote? =
    if v.phase = .two then [v] else [] := by
  have hone : ∀ o : Output, o.vote? = some v →
      [Event.out o].filterMap Event.twoVote? = if v.phase = .two then [v] else [] := by
    intro o ho
    rw [List.filterMap_cons, List.filterMap_nil]
    unfold Event.twoVote?
    dsimp only
    rw [ho]
    split_ifs with hv <;> simp [Option.filter, hv]
  unfold Core.sendVote
  by_cases hc : c.name = v.proposer
  · rw [if_neg (not_not_intro hc)]
    exact hone _ rfl
  · rw [if_pos hc]
    exact hone _ rfl

/-- What a counted vote sets off is no vote. -/
theorem filterMap_twoVote?_voteOutput (v : SPBVote) (d : Digest) (n : ℕ) :
    ((c.voteOutput S v d n).map Event.out).filterMap Event.twoVote? = [] := by
  unfold Core.voteOutput
  split_ifs
  · split <;> rfl
  · rfl

/-- A phase-two proposal is kept, in a call, or answered. -/
theorem twos_account (hr : Reachable (Call.step S c) ok (spbPool tasks) p) :
    (p.account (fun s => s.unHandleProposal.map (answerTwo c)) (fun x => x.two?.map (answerTwo c))
      Event.twoVote?).Perm ((tasks.filterMap Task.two?).map (answerTwo c)) := by
  have hstart : (spbPool tasks).account (fun s => s.unHandleProposal.map (answerTwo c))
      (fun x => x.two?.map (answerTwo c)) Event.twoVote? =
      (tasks.filterMap Task.two?).map (answerTwo c) := by
    unfold Pool.account spbPool
    dsimp only
    rw [filterMap_calls filterMap_two?_calls, List.map_filterMap]
    simp
  rw [← hstart]
  refine hr.balance fun {p t} hr _ => ?_
  cases t with
  | loadOne q | loadTwo q | loadVote q =>
    unfold Call.step
    dsimp only
    split_ifs <;> simp [Call.two?]
  | drain =>
    rw [filterMap_two?_drain p.shared (phasesKept hr).kept]
    simp [Call.step, Call.two?]
  | sendOne q =>
    simp only [Call.step, filterMap_twoVote?_sendVote]
    simp [Call.two?]
  | sendTwo q =>
    simp only [Call.step, filterMap_twoVote?_sendVote]
    simp [Call.two?, answerTwo]
  | answer v num =>
    simp only [Call.step, filterMap_twoVote?_voteOutput]
    simp [Call.two?]
  | storeOne q | keepTwo q | lockTwo q | keepVote q | countVote q =>
    simp [Call.step, Call.two?, Event.twoVote?, List.filterMap_cons]

/-! ## Every run -/

/-- Every run in which the last call that hands out the buffers finds no call between its `Load` and
its append, of any calls and in any order of their steps: when all calls have ended and the instance
has a block, every vote has been counted once, every phase-two proposal has been answered with a
vote, and the buffers are empty. -/
theorem nothing_lost (hr : Reachable (Call.step S c) DrainsApart (spbPool tasks) p)
    (hend : p.threads = []) (hblock : p.shared.blockHash ≠ none) :
    (p.trace.filterMap Event.counted?).Perm (tasks.filterMap Task.vote?) ∧
      (∀ ph, p.shared.votes ph = (tasks.filterMap Task.vote?).countP (·.phase = ph)) ∧
      (p.trace.filterMap Event.twoVote?).Perm ((tasks.filterMap Task.two?).map (answerTwo c)) ∧
      p.shared.unHandleVote = [] ∧ p.shared.unHandleProposal = [] := by
  have hsettled : Settled p := by
    refine hr.invariant (I := Settled) (fun hset => absurd rfl hset) ?_
    exact fun ht hok h => h.step ht hok
  obtain ⟨hvotes, htwos, -⟩ := hsettled hblock (by rw [hend]; rfl)
  have hcounted := votes_account hr
  have hanswered := twos_account hr
  unfold Pool.account at hcounted hanswered
  dsimp only at hanswered
  rw [hend, hvotes] at hcounted
  rw [hend, htwos] at hanswered
  refine ⟨hcounted, fun ph => ?_, hanswered, hvotes, htwos⟩
  rw [votes_eq hr ph]
  exact hcounted.countP_eq _

/-- A phase-two proposal of node `0`. -/
def lockProposal : SPBProposal := ⟨0, demoBlock 0 0, 0, 0, .two⟩

/-- A phase-one vote for node `0`. -/
def someVote : SPBVote := ⟨1, 0, demoHash 0, 0, 0, .one⟩

/-- An instance with a vote, a phase-two proposal and the phase-one proposal. -/
def threeCalls : List Task :=
  [.processVote someVote, .processProposal lockProposal, .processProposal fullProposal]

/-- The vote and the phase-two proposal come too early and are kept before the buffers are handed
out. -/
theorem nothing_lost_in_turn : ∃ p,
    Reachable (Call.step (demo 4 0) { name := 0 }) DrainsApart (spbPool threeCalls) p ∧
      p.threads = [] ∧ p.shared.blockHash ≠ none ∧
      (∀ ph, p.shared.votes ph = (threeCalls.filterMap Task.vote?).countP (·.phase = ph)) ∧
      (p.trace.filterMap Event.twoVote?).Perm
        ((threeCalls.filterMap Task.two?).map (answerTwo { name := 0 })) := by
  have hplay : (((spbPool threeCalls).play (Call.step (demo 4 0) { name := 0 }) DrainsApart
      [.loadVote someVote, .loadTwo lockProposal, .loadOne fullProposal, .keepVote someVote,
        .storeOne fullProposal, .keepTwo lockProposal, .sendOne fullProposal, .drain,
        .loadTwo lockProposal, .loadVote someVote, .countVote someVote, .lockTwo lockProposal,
        .answer someVote 1, .sendTwo lockProposal]).any fun p =>
      decide (p.threads = [] ∧ p.shared.blockHash ≠ none)) = true := by decide +kernel
  rw [Option.any_eq_true] at hplay
  obtain ⟨p, hp, hends⟩ := hplay
  have hr := Reachable.start.play hp
  obtain ⟨hend, hblock⟩ := of_decide_eq_true hends
  obtain ⟨-, hcounts, hanswers, -⟩ := nothing_lost hr hend hblock
  exact ⟨p, hr, hend, hblock, hcounts, hanswers⟩

/-- The vote and the phase-two proposal find no block, and are kept only after the buffers have been
handed out: when all calls have ended they are still in the buffers, the vote is not counted and the
proposal not answered. -/
theorem buffers_left : ∃ p,
    Reachable (Call.step (demo 4 0) { name := 0 }) (fun _ _ => True) (spbPool threeCalls) p ∧
      p.threads = [] ∧ p.shared.blockHash ≠ none ∧ p.shared.votes .one = 0 ∧
      p.trace.filterMap Event.twoVote? = [] ∧
      p.shared.unHandleVote = [someVote] ∧ p.shared.unHandleProposal = [lockProposal] := by
  have hplay : (((spbPool threeCalls).play (Call.step (demo 4 0) { name := 0 }) (fun _ _ => True)
      [.loadVote someVote, .loadTwo lockProposal, .loadOne fullProposal, .storeOne fullProposal,
        .sendOne fullProposal, .drain, .keepVote someVote, .keepTwo lockProposal]).any fun p =>
      decide (p.threads = [] ∧ p.shared.blockHash ≠ none ∧ p.shared.votes .one = 0 ∧
        p.trace.filterMap Event.twoVote? = [] ∧
        p.shared.unHandleVote = [someVote] ∧
        p.shared.unHandleProposal = [lockProposal])) = true := by decide +kernel
  rw [Option.any_eq_true] at hplay
  obtain ⟨p, hp, hends⟩ := hplay
  exact ⟨p, Reachable.start.play hp, of_decide_eq_true hends⟩

end SMVBA
