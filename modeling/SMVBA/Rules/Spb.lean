import SMVBA.Rules.Sent

/-!
# The accounts of an SPB instance

An SPB instance counts votes without their authors, keeps votes and phase-two proposals that come
before its block, and hands them to new calls later. `SpbCounts` is the account of all this: every
vote that an instance has counted, keeps, or has waiting in a spawned call stands for a vote message
of its own that the node took from its channel, and every phase-two vote that the node sent stands
for a phase-two proposal of its own.

`SpbState` says what the fields of an instance mean: a block hash is there exactly when a phase-one
vote for it was sent, and the lock flag is there exactly when a phase-two vote was.
-/

namespace SMVBA

variable {S : Setup} {env : Env} {i : Input} {x0 x y : Hist}

/-! ## Kinds of messages and calls -/

/-- A vote of a phase, for the instance of a slot. -/
def Message.isVote (s : Slot) (ph : Phase) : Message → Bool
  | .spbVote v => v.slot = s ∧ v.phase = ph
  | _ => false

/-- A proposal of a phase, for the instance of a slot. -/
def Message.isProposal (s : Slot) (ph : Phase) : Message → Bool
  | .spbProposal p => p.slot = s ∧ p.phase = ph
  | _ => false

/-- A call for a vote of a phase, on the instance of a slot. -/
def Task.isVote (s : Slot) (ph : Phase) : Task → Bool
  | .processVote v => v.slot = s ∧ v.phase = ph
  | _ => false

/-- A call for a proposal of a phase, on the instance of a slot. -/
def Task.isProposal (s : Slot) (ph : Phase) : Task → Bool
  | .processProposal p => p.slot = s ∧ p.phase = ph
  | _ => false

/-- The vote of a spawned call. -/
def Task.vote? : Task → Option SPBVote
  | .processVote v => some v
  | .processProposal _ => none

/-- Taking one call out of a list takes one off its count. -/
theorem countP_erase_add {t : Task} {l : List Task} (h : t ∈ l) (f : Task → Bool) :
    (l.erase t).countP f + (if f t then 1 else 0) = l.countP f := by
  rw [(List.perm_cons_erase h).countP_eq, List.countP_cons]

/-! ## How an instance changes -/

/-- What a rule can do to the instance of a slot. -/
inductive SpbChange (S : Setup) (x y : Hist) (t : Slot) : Prop
  | same (h : y.core.spbInstances t = x.core.spbInstances t)
  | accept (p : SPBProposal) (hp : p.phase = .one) (ht : .processProposal p ∈ x.tasks)
      (hs : p.slot = t) (ha : p.author = p.b.proposer)
      (hb : (x.core.spbInstances t).blockHash = none)
      (h : y.core.spbInstances t = { x.core.spbInstances t with
        blockHash := some (S.hash p.b), unHandleProposal := [], unHandleVote := [] })
  | keepTwo (p : SPBProposal) (hp : p.phase = .two) (ht : .processProposal p ∈ x.tasks)
      (hs : p.slot = t) (hb : (x.core.spbInstances t).blockHash = none)
      (h : y.core.spbInstances t = { x.core.spbInstances t with
        unHandleProposal := (x.core.spbInstances t).unHandleProposal ++ [p] })
  | lock (p : SPBProposal) (d : Digest) (hp : p.phase = .two) (ht : .processProposal p ∈ x.tasks)
      (hs : p.slot = t) (hb : (x.core.spbInstances t).blockHash = some d)
      (h : y.core.spbInstances t = { x.core.spbInstances t with lockFlag := true })
  | keepVote (v : SPBVote) (ht : .processVote v ∈ x.tasks) (hs : v.slot = t)
      (hb : (x.core.spbInstances t).blockHash = none)
      (h : y.core.spbInstances t = { x.core.spbInstances t with
        unHandleVote := (x.core.spbInstances t).unHandleVote ++ [v] })
  | count (v : SPBVote) (d : Digest) (ht : .processVote v ∈ x.tasks) (hs : v.slot = t)
      (hb : (x.core.spbInstances t).blockHash = some d)
      (h : y.core.spbInstances t = { x.core.spbInstances t with
        votes := Function.update (x.core.spbInstances t).votes v.phase
          ((x.core.spbInstances t).votes v.phase + 1) })

/-- Writing an instance back changes its own slot only. -/
theorem setSpb_of_ne {c : Core} {s t : Slot} (h : t ≠ s) (spb : SPB) :
    (c.setSpb s spb).spbInstances t = c.spbInstances t := Function.update_of_ne h _ _

/-- The slot that was written. -/
theorem setSpb_self (c : Core) (s : Slot) (spb : SPB) : (c.setSpb s spb).spbInstances s = spb :=
  Function.update_self ..

theorem Rule.spbChange (h : Rule S env i x0 x y) (t : Slot) : SpbChange S x y t := by
  cases h with
  | voteOne p hi hp ht hb ha =>
    by_cases hs : t = p.slot
    · subst hs; exact .accept p hp ht rfl ha hb (setSpb_self ..)
    · exact .same (setSpb_of_ne hs _)
  | keepTwo p hp ht hb =>
    by_cases hs : t = p.slot
    · subst hs; exact .keepTwo p hp ht rfl hb (setSpb_self ..)
    · exact .same (setSpb_of_ne hs _)
  | voteTwo p d hi hp ht hx hb =>
    by_cases hs : t = p.slot
    · subst hs; exact .lock p d hp ht rfl hb (setSpb_self ..)
    · exact .same (setSpb_of_ne hs _)
  | keepVote v ht hb =>
    by_cases hs : t = v.slot
    · subst hs; exact .keepVote v ht rfl hb (setSpb_self ..)
    · exact .same (setSpb_of_ne hs _)
  | countVote v d ht hb =>
    by_cases hs : t = v.slot
    · subst hs; exact .count v d ht rfl hb (setSpb_self ..)
    · exact .same (setSpb_of_ne hs _)
  | _ => exact .same rfl

/-- A block hash that an instance has stays. -/
theorem Rule.blockHash_eq (h : Rule S env i x0 x y) {t : Slot} {d : Digest}
    (hb : (x.core.spbInstances t).blockHash = some d) :
    (y.core.spbInstances t).blockHash = some d := by
  cases h.spbChange t with
  | same h => rwa [h]
  | accept p hp ht hs ha hn h => rw [hb] at hn; cases hn
  | keepTwo p hp ht hs hn h => rw [hb] at hn; cases hn
  | lock p d' hp ht hs hb' h => rwa [h]
  | keepVote v ht hs hn h => rw [hb] at hn; cases hn
  | count v d' ht hs hb' h => rwa [h]

/-- A lock stays. -/
theorem Rule.lockFlag_eq (h : Rule S env i x0 x y) {t : Slot}
    (hl : (x.core.spbInstances t).lockFlag = true) :
    (y.core.spbInstances t).lockFlag = true := by
  cases h.spbChange t with
  | lock p d' hp ht hs hb' h => rw [h]
  | same h | accept _ _ _ _ _ _ h | keepTwo _ _ _ _ _ h | keepVote _ _ _ _ h | count _ _ _ _ _ h =>
    rwa [h]

/-- A lock is set only by a spawned call that runs a phase-two proposal on an instance with its
block. -/
theorem Rule.lockFlag_cases (h : Rule S env i x0 x y) (t : Slot) :
    (y.core.spbInstances t).lockFlag = (x.core.spbInstances t).lockFlag ∨
      ∃ p, i = .task (.processProposal p) ∧ p.phase = .two ∧ p.slot = t ∧ Untouched x0 x ∧
        (x.core.spbInstances t).blockHash ≠ none := by
  have hset : ∀ {s : Slot} {spb : SPB}, spb.lockFlag = (x.core.spbInstances s).lockFlag →
      ((x.core.setSpb s spb).spbInstances t).lockFlag = (x.core.spbInstances t).lockFlag := by
    intro s spb heq
    by_cases hs : t = s
    · subst hs
      rw [setSpb_self, heq]
    · rw [setSpb_of_ne hs]
  cases h with
  | voteTwo p d hi hp ht hx hb =>
    by_cases hs : p.slot = t
    · subst hs
      exact .inr ⟨p, hi, hp, rfl, hx, by simp [hb]⟩
    · refine .inl ?_
      rw [setSpb_of_ne (Ne.symm hs)]
  | voteOne _ _ _ _ _ _ | keepTwo _ _ _ _ | keepVote _ _ _ | countVote _ _ _ _ =>
      exact .inl (hset rfl)
  | _ => exact .inl rfl

/-- The counts of an instance do not fall. -/
theorem Rule.votes_le (h : Rule S env i x0 x y) (t : Slot) (ph : Phase) :
    (x.core.spbInstances t).votes ph ≤ (y.core.spbInstances t).votes ph := by
  cases h.spbChange t with
  | count v d ht hs hb h =>
    rw [h]
    by_cases hp : ph = v.phase
    · subst hp; simp
    · simp [hp]
  | same h | accept _ _ _ _ _ _ h | keepTwo _ _ _ _ _ h | lock _ _ _ _ _ _ h | keepVote _ _ _ _ h =>
    rw [h]

/-- What an instance and the waiting calls for it weigh together, when a call is run that leaves its
instance as `spb`. The weight does not grow if that of the instance grows by no more than the call
had. -/
theorem load_setSpb_le {g : SPB → ℕ} {f : Slot → Task → Bool} {s : Slot} {spb : SPB} {t : Task}
    (ht : t ∈ x.tasks) (hg : g spb ≤ g (x.core.spbInstances s) + if f s t then 1 else 0)
    (u : Slot) :
    g ((x.core.setSpb s spb).spbInstances u) + (x.tasks.erase t).countP (f u) ≤
      g (x.core.spbInstances u) + x.tasks.countP (f u) := by
  have herase := countP_erase_add ht (f u)
  by_cases hu : u = s
  · subst hu
    rw [setSpb_self]
    omega
  · rw [setSpb_of_ne hu]
    omega

/-! ## Buffers -/

/-- What an SPB instance keeps is for its own slot. -/
structure SpbBuffers (x : Hist) : Prop where
  votes : ∀ t, ∀ v ∈ (x.core.spbInstances t).unHandleVote, v.slot = t
  proposals : ∀ t, ∀ p ∈ (x.core.spbInstances t).unHandleProposal, p.slot = t ∧ p.phase = .two

theorem SpbBuffers.rule (h : Rule S env i x0 x y) (hx : SpbBuffers x) : SpbBuffers y := by
  constructor <;> intro t
  · cases h.spbChange t with
    | accept p hp ht hs ha hb h => simp [h]
    | keepVote v ht hs hb h =>
      rw [h]
      simpa [or_imp, forall_and] using ⟨hx.votes t, hs⟩
    | same h | keepTwo _ _ _ _ _ h | lock _ _ _ _ _ _ h | count _ _ _ _ _ h =>
      rw [h]
      exact hx.votes t
  · cases h.spbChange t with
    | accept p hp ht hs ha hb h => simp [h]
    | keepTwo p hp ht hs hb h =>
      rw [h]
      intro p' hp'
      rcases List.mem_append.mp hp' with hp' | hp'
      · exact hx.proposals t p' hp'
      · obtain rfl := List.mem_singleton.mp hp'
        exact ⟨hs, hp⟩
    | same h | lock _ _ _ _ _ _ h | keepVote _ _ _ _ h | count _ _ _ _ _ h =>
      rw [h]
      exact hx.proposals t

/-! ## Votes -/

/-- The votes of a phase that the instance of a slot counted, keeps, or has waiting in calls. -/
def Hist.voteLoad (x : Hist) (s : Slot) (ph : Phase) : ℕ :=
  (x.core.spbInstances s).votes ph + (x.core.spbInstances s).unHandleVote.countP (·.phase = ph) +
    x.tasks.countP (Task.isVote s ph)

/-- Calls for proposals are not calls for votes. -/
@[simp] theorem countP_isVote_proposals (s : Slot) (ph : Phase) (l : List SPBProposal) :
    (l.map Task.processProposal).countP (Task.isVote s ph) = 0 := by
  simp [Task.isVote, List.countP_eq_zero]

/-- Calls for the votes that the instance of a slot kept. -/
theorem countP_isVote_votes {s t : Slot} {ph : Phase} {l : List SPBVote} (h : ∀ v ∈ l, v.slot = t) :
    (l.map Task.processVote).countP (Task.isVote s ph) =
      if s = t then l.countP (·.phase = ph) else 0 := by
  rw [List.countP_map]
  split_ifs with hs
  · subst hs
    refine List.countP_congr fun v hv => ?_
    simp [Task.isVote, h v hv]
  · refine List.countP_eq_zero.mpr fun v hv => ?_
    simp [Task.isVote, h v hv, Ne.symm hs]

/-- Every vote of an instance stands for a vote message of its own. -/
def VotesHandled (x : Hist) : Prop :=
  ∀ s ph, x.voteLoad s ph ≤ x.handled.countP (Message.isVote s ph)

theorem VotesHandled.rule (h : Rule S env i x0 x y) (hbuf : SpbBuffers x) (hx : VotesHandled x) :
    VotesHandled y := by
  intro s ph
  have hload := hx s ph
  unfold Hist.voteLoad at hload ⊢
  -- A call that adds no more votes to its instance than it stood for.
  have hcall : ∀ {u : Slot} {spb : SPB} {t : Task}, t ∈ x.tasks →
      spb.votes ph + spb.unHandleVote.countP (·.phase = ph) ≤
        (x.core.spbInstances u).votes ph +
        (x.core.spbInstances u).unHandleVote.countP (·.phase = ph) +
          (if Task.isVote u ph t then 1 else 0) →
      ((x.core.setSpb u spb).spbInstances s).votes ph +
          ((x.core.setSpb u spb).spbInstances s).unHandleVote.countP (·.phase = ph) +
        (x.tasks.erase t).countP (Task.isVote s ph) ≤ x.handled.countP (Message.isVote s ph) :=
    fun ht hw => (load_setSpb_le (f := fun u => Task.isVote u ph)
      (g := fun spb => spb.votes ph + spb.unHandleVote.countP (·.phase = ph)) ht hw s).trans hload
  cases h with
  | recv m hi hx =>
    rw [List.countP_append]
    exact Nat.le_add_right_of_le hload
  | forward m t hi ht =>
    cases ht with
    | proposal p hp => simpa [Task.isVote, Message.isVote] using hload
    | vote v =>
      -- The new call stands for the message that was taken.
      have hkind : Task.isVote s ph (.processVote v) = Message.isVote s ph (.spbVote v) := rfl
      simp only [List.countP_append, List.countP_singleton, hkind]
      omega
  | spawnOne p hp hi hh he hs hm => simpa [Task.isVote] using hload
  | spawnLoop d b hi hs he => simpa [Task.isVote] using hload
  | drop t hi ht =>
    have herase := countP_erase_add ht (Task.isVote s ph)
    dsimp only
    omega
  | voteOne p hi hp ht hb ha =>
    have herase := countP_erase_add ht (Task.isVote s ph)
    dsimp only
    -- The votes that the instance kept become calls, and its list is emptied.
    rw [List.countP_append, List.countP_append, countP_isVote_proposals,
      countP_isVote_votes (hbuf.votes p.slot)]
    by_cases hs : s = p.slot
    · subst hs
      simp only [setSpb_self, if_true, List.countP_nil]
      omega
    · rw [setSpb_of_ne hs, if_neg hs]
      omega
  | keepTwo p hp ht hb => exact hcall ht (Nat.le_add_right _ _)
  | voteTwo p d hi hp ht hx hb => exact hcall ht (Nat.le_add_right _ _)
  | keepVote v ht hb =>
    -- The vote is taken out of its call and kept.
    refine hcall ht ?_
    simp only [List.countP_append, List.countP_singleton, Task.isVote, true_and]
    omega
  | countVote v d ht hb =>
    -- The vote is taken out of its call and counted.
    refine hcall ht ?_
    by_cases hp : ph = v.phase
    · subst hp
      simp only [Function.update_self, Task.isVote, true_and, decide_true, if_true]
      omega
    · simp only [Function.update_of_ne hp]
      exact Nat.le_add_right _ _
  | _ => exact hload

/-! ## Phase-two votes -/

/-- The phase-two proposals that the instance of a slot keeps or has waiting in calls. -/
def Hist.twoLoad (x : Hist) (s : Slot) : ℕ :=
  (x.core.spbInstances s).unHandleProposal.length + x.tasks.countP (Task.isProposal s .two)

/-- Calls for votes are not calls for proposals. -/
@[simp] theorem countP_isProposal_votes (s : Slot) (ph : Phase) (l : List SPBVote) :
    (l.map Task.processVote).countP (Task.isProposal s ph) = 0 := by
  simp [Task.isProposal, List.countP_eq_zero]

/-- Calls for the proposals that the instance of a slot kept. -/
theorem countP_isProposal_proposals {s t : Slot} {l : List SPBProposal}
    (h : ∀ p ∈ l, p.slot = t ∧ p.phase = .two) :
    (l.map Task.processProposal).countP (Task.isProposal s .two) =
    if s = t then l.length else 0 := by
  rw [List.countP_map]
  split_ifs with hs
  · subst hs
    refine List.countP_eq_length.mpr fun p hp => ?_
    simp [Task.isProposal, h p hp]
  · refine List.countP_eq_zero.mpr fun p hp => ?_
    simp [Task.isProposal, h p hp, Ne.symm hs]

/-- Phase-two proposals come into an instance from the channel only. -/
theorem Rule.twoLoad_le (h : Rule S env i x0 x y) (hbuf : SpbBuffers x) (s : Slot) :
    y.twoLoad s + x.handled.countP (Message.isProposal s .two) ≤
      x.twoLoad s + y.handled.countP (Message.isProposal s .two) := by
  unfold Hist.twoLoad
  have hcall : ∀ {u : Slot} {spb : SPB} {t : Task}, t ∈ x.tasks →
      spb.unHandleProposal.length ≤ (x.core.spbInstances u).unHandleProposal.length +
        (if Task.isProposal u .two t then 1 else 0) →
      ((x.core.setSpb u spb).spbInstances s).unHandleProposal.length +
            (x.tasks.erase t).countP (Task.isProposal s .two) +
          x.handled.countP (Message.isProposal s .two) ≤
        (x.core.spbInstances s).unHandleProposal.length +
            x.tasks.countP (Task.isProposal s .two) +
          x.handled.countP (Message.isProposal s .two) :=
    fun ht hw => Nat.add_le_add_right (load_setSpb_le (f := fun u => Task.isProposal u .two)
      (g := fun spb => spb.unHandleProposal.length) ht hw s) _
  cases h with
  | recv m hi hx =>
    dsimp only
    rw [List.countP_append]
    omega
  | forward m t hi ht =>
    cases ht with
    | proposal p hp =>
      have hkind : Task.isProposal s .two (.processProposal p) =
        Message.isProposal s .two (.spbProposal p) := rfl
      simp only [List.countP_append, List.countP_singleton, hkind]
      omega
    | vote v => simp [Task.isProposal]
  | spawnOne p hp hi hh he hs hm => simp [Task.isProposal, hp]
  | spawnLoop d b hi hs he => simp [Task.isProposal, Core.loopProposal]
  | drop t hi ht =>
    have herase := countP_erase_add ht (Task.isProposal s .two)
    dsimp only
    omega
  | voteOne p hi hp ht hb ha =>
    have herase := countP_erase_add ht (Task.isProposal s .two)
    dsimp only
    -- The proposals that the instance kept become calls, and its list is emptied.
    rw [List.countP_append, List.countP_append, countP_isProposal_votes,
      countP_isProposal_proposals (hbuf.proposals p.slot)]
    by_cases hs : s = p.slot
    · subst hs
      simp only [setSpb_self, if_true, List.length_nil]
      omega
    · rw [setSpb_of_ne hs, if_neg hs]
      omega
  | keepTwo p hp ht hb =>
    refine hcall ht ?_
    simp [Task.isProposal, hp]
  | voteTwo p d hi hp ht hx hb => exact hcall ht (Nat.le_add_right _ _)
  | keepVote v ht hb => exact hcall ht (Nat.le_add_right _ _)
  | countVote v d ht hb => exact hcall ht (Nat.le_add_right _ _)
  | _ => exact le_rfl

/-- A lock uses up one phase-two proposal. -/
theorem twoLoad_lock {p : SPBProposal} (hp : p.phase = .two) (ht : .processProposal p ∈ x.tasks)
    (hc : y.core = x.core.setSpb p.slot { x.core.spbInstances p.slot with lockFlag := true })
    (hy : y.tasks = x.tasks.erase (.processProposal p)) :
    y.twoLoad p.slot + 1 = x.twoLoad p.slot := by
  have herase := countP_erase_add ht (Task.isProposal p.slot .two)
  simp only [Task.isProposal, hp, and_self, decide_true, if_true] at herase
  unfold Hist.twoLoad
  rw [hc, hy, setSpb_self]
  dsimp only
  omega

/-- Every phase-two vote of an instance stands for a phase-two proposal of its own. -/
def TwosHandled (x : Hist) : Prop :=
  ∀ d s, (x.sentTo d).countP (Message.isVote s .two) + x.twoLoad s ≤
    x.handled.countP (Message.isProposal s .two)

theorem TwosHandled.rule (h : Rule S env i x0 x y) (hbuf : SpbBuffers x) (hx : TwosHandled x) :
    TwosHandled y := by
  intro d s
  have hload := hx d s
  have hle := h.twoLoad_le hbuf s
  obtain ⟨new, hnew, heq⟩ := h.sends d
  rw [heq, List.countP_append]
  -- Only the lock of an instance sends a phase-two vote.
  have hzero : new.countP (Message.isVote s .two) = 0 ∨
      (new.countP (Message.isVote s .two) = 1 ∧ y.twoLoad s + 1 = x.twoLoad s ∧
        y.handled = x.handled) := by
    cases hnew with
    | voteTwo p h hi hp ht hx hb hy hd =>
      by_cases hs : p.slot = s
      · subst hs hy
        exact .inr ⟨by simp [Message.isVote, SPBVote.slot, SPBProposal.slot],
          twoLoad_lock hp ht rfl rfl, rfl⟩
      · refine .inl ?_
        have hs' : ¬ (⟨p.epoch, p.round, p.author⟩ : Slot) = s := hs
        simp [Message.isVote, SPBVote.slot, hs']
    | leader v outs he ho hc => exact .inl (ho.countP_eq_zero (fun _ => rfl) (fun _ => rfl))
    | _ => exact .inl (by simp [Message.isVote])
  rcases hzero with hz | ⟨hz, hlock, hhandled⟩
  · omega
  · rw [hhandled]
    omega

/-! ## Where calls, blocks and locks come from -/

/-- The messages taken from the channel stay on record. -/
theorem Rule.mem_handled (h : Rule S env i x0 x y) {m : Message} (hm : m ∈ x.handled) :
    m ∈ y.handled := by
  cases h with
  | recv _ _ _ => exact List.mem_append_left _ hm
  | forward _ _ _ _ => exact List.mem_append_left _ hm
  | _ => exact hm

/-- What was sent was sent before, or by this rule. -/
theorem Rule.sent_cases (h : Rule S env i x0 x y) {d : NodeID} {m : Message} (hm : m ∈ y.sentTo d) :
    m ∈ x.sentTo d ∨ ∃ new, Sends S env i x0 x y d new ∧ m ∈ new := by
  obtain ⟨new, hnew, heq⟩ := h.sends d
  rw [heq] at hm
  exact (List.mem_append.mp hm).imp_right fun hm => ⟨new, hnew, hm⟩

/-- A node took a phase-one proposal with the block. -/
def Hist.TookBlock (x : Hist) (b : ConsensusBlock) : Prop :=
  ∃ p, .spbProposal p ∈ x.handled ∧ p.phase = .one ∧ p.b = b

theorem Hist.TookBlock.rule (h : Rule S env i x0 x y) {b : ConsensusBlock} (hb : x.TookBlock b) :
    y.TookBlock b := by
  obtain ⟨p, hm, hp⟩ := hb
  exact ⟨p, h.mem_handled hm, hp⟩

/-- Where a phase-one proposal for an instance comes from: a message, or the loopback of the block
of one. -/
def Source (x : Hist) (p : SPBProposal) : Prop :=
  .spbProposal p ∈ x.handled ∨ (p = Core.loopProposal p.b ∧ x.TookBlock p.b)

theorem Source.tookBlock {p : SPBProposal} (h : Source x p) (hp : p.phase = .one) :
    x.TookBlock p.b :=
  h.elim (fun hh => ⟨p, hh, hp, rfl⟩) And.right

theorem Source.rule (h : Rule S env i x0 x y) {p : SPBProposal} (hp : Source x p) : Source y p :=
  hp.imp h.mem_handled fun ⟨heq, hb⟩ => ⟨heq, hb.rule h⟩

/-- Where a call comes from. -/
inductive TaskSource (S : Setup) (env : Env) (i : Input) (x y : Hist) : Task → Prop
  | old {t : Task} (h : t ∈ x.tasks) : TaskSource S env i x y t
  | vote (v : SPBVote) (h : .spbVote v ∈ y.handled) : TaskSource S env i x y (.processVote v)
  | other (p : SPBProposal) (hp : p.phase ≠ .one) (h : .spbProposal p ∈ y.handled) :
      TaskSource S env i x y (.processProposal p)
  /-- A proposal whose block is stored and whose payloads are all there. -/
  | one (p : SPBProposal) (hp : p.phase = .one) (h : .spbProposal p ∈ y.handled)
      (hs : y.core.store (S.hash p.b) = some p.b) (hm : y.core.missing env p.b = []) :
      TaskSource S env i x y (.processProposal p)
  | loop (d : Digest) (b : ConsensusBlock) (hi : i = .loopBack d)
      (h : x.core.decoded env d = some b) (hs : y.core.store = x.core.store) :
      TaskSource S env i x y (.processProposal (Core.loopProposal b))
  | keptProposal (s : Slot) (p : SPBProposal) (h : p ∈ (x.core.spbInstances s).unHandleProposal) :
      TaskSource S env i x y (.processProposal p)
  | keptVote (s : Slot) (v : SPBVote) (h : v ∈ (x.core.spbInstances s).unHandleVote) :
      TaskSource S env i x y (.processVote v)

theorem Rule.taskSource (h : Rule S env i x0 x y) {t : Task} (ht : t ∈ y.tasks) :
    TaskSource S env i x y t := by
  cases h with
  | forward m t' hi hf =>
    rcases List.mem_append.mp ht with ht | ht
    · exact .old ht
    · obtain rfl := List.mem_singleton.mp ht
      cases hf with
      | proposal p hp => exact .other p hp (List.mem_append_right _ (List.mem_singleton_self _))
      | vote v => exact .vote v (List.mem_append_right _ (List.mem_singleton_self _))
  | spawnOne p hp hi hh he hs hm =>
    rcases List.mem_append.mp ht with ht | ht
    · exact .old ht
    · obtain rfl := List.mem_singleton.mp ht
      exact .one p hp hh hs hm
  | spawnLoop d b hi hs he =>
    rcases List.mem_append.mp ht with ht | ht
    · exact .old ht
    · obtain rfl := List.mem_singleton.mp ht
      exact .loop d b hi hs rfl
  -- The accepted proposal starts calls for all that the instance had kept.
  | voteOne p hi hp ht' hb ha =>
    rcases List.mem_append.mp ht with ht | ht
    · exact .old (List.mem_of_mem_erase ht)
    · rcases List.mem_append.mp ht with ht | ht
      · obtain ⟨p', hp', rfl⟩ := List.mem_map.mp ht
        exact .keptProposal p.slot p' hp'
      · obtain ⟨v, hv, rfl⟩ := List.mem_map.mp ht
        exact .keptVote p.slot v hv
  | drop _ _ _ | keepTwo _ _ _ _ | voteTwo _ _ _ _ _ _ _ | keepVote _ _ _ | countVote _ _ _ _ =>
    exact .old (List.mem_of_mem_erase ht)
  | _ => exact .old ht

/-- What the calls, the buffers, the store and the locks of a node go back to. -/
structure Provenance (S : Setup) (x : Hist) : Prop where
  vote : ∀ v, .processVote v ∈ x.tasks → .spbVote v ∈ x.handled
  keptVote : ∀ t, ∀ v ∈ (x.core.spbInstances t).unHandleVote, .spbVote v ∈ x.handled
  other : ∀ p, p.phase ≠ .one → .processProposal p ∈ x.tasks → .spbProposal p ∈ x.handled
  keptProposal : ∀ t, ∀ p ∈ (x.core.spbInstances t).unHandleProposal, .spbProposal p ∈ x.handled
  store : ∀ d b, x.core.store d = some b → S.hash b = d ∧ x.TookBlock b
  lock : ∀ s, (x.core.spbInstances s).lockFlag = true →
    (∃ d, (x.core.spbInstances s).blockHash = some d) ∧
      ∃ p, .spbProposal p ∈ x.handled ∧ p.slot = s ∧ p.phase = .two

/-- A rule leaves the store alone, or writes the block of the phase-one proposal in hand. -/
theorem Rule.store_eq (h : Rule S env i x0 x y) : y.core.store = x.core.store ∨
    ∃ p, i = .msg (.spbProposal p) ∧ p.phase = .one ∧ y.TookBlock p.b ∧
      y.core.store = Function.update x.core.store (S.hash p.b) (some p.b) := by
  cases h with
  | store p hp hi hh he => exact .inr ⟨p, hi, hp, ⟨p, hh, hp, rfl⟩, rfl⟩
  | _ => exact .inl rfl

/-- What a rule adds to the store is the block of a phase-one proposal, under its hash. -/
theorem Rule.store_cases (h : Rule S env i x0 x y) {d : Digest} {b : ConsensusBlock}
    (hb : y.core.store d = some b) :
    x.core.store d = some b ∨ (S.hash b = d ∧ y.TookBlock b) := by
  rcases h.store_eq with heq | ⟨p, -, -, htook, heq⟩
  · rw [heq] at hb
    exact .inl hb
  · rw [heq] at hb
    by_cases hd : d = S.hash p.b
    · rw [hd, Function.update_self] at hb
      obtain rfl := Option.some.inj hb
      exact .inr ⟨hd.symm, htook⟩
    · rw [Function.update_of_ne hd] at hb
      exact .inl hb

theorem Provenance.rule (h : Rule S env i x0 x y) (hx : Provenance S x) : Provenance S y where
  vote v ht := by
    -- A spawned call is an old one, or comes from the input or from what the instance has kept.
    cases h.taskSource ht with
    | old ht => exact h.mem_handled (hx.vote v ht)
    | vote v hm => exact hm
    | keptVote s v hv => exact h.mem_handled (hx.keptVote s v hv)
  keptVote t v hv := by
    cases h.spbChange t with
    | accept p hp ht hs ha hb heq => simp [heq] at hv
    | keepVote w ht hs hb heq =>
      rw [heq] at hv
      rcases List.mem_append.mp hv with hv | hv
      · exact h.mem_handled (hx.keptVote t v hv)
      · obtain rfl := List.mem_singleton.mp hv
        exact h.mem_handled (hx.vote v ht)
    | same heq | keepTwo _ _ _ _ _ heq | lock _ _ _ _ _ _ heq | count _ _ _ _ _ heq =>
      rw [heq] at hv
      exact h.mem_handled (hx.keptVote t v hv)
  other p hp ht := by
    cases h.taskSource ht with
    | old ht => exact h.mem_handled (hx.other p hp ht)
    | other p hp hm => exact hm
    | one p hp' hm _ _ => exact hm
    | loop d b hi hb _ => exact absurd rfl hp
    | keptProposal s p hm => exact h.mem_handled (hx.keptProposal s p hm)
  keptProposal t p hp := by
    cases h.spbChange t with
    | accept p' hp' ht hs ha hb heq => simp [heq] at hp
    | keepTwo p' hp' ht hs hb heq =>
      rw [heq] at hp
      rcases List.mem_append.mp hp with hp | hp
      · exact h.mem_handled (hx.keptProposal t p hp)
      · obtain rfl := List.mem_singleton.mp hp
        exact h.mem_handled (hx.other p (by simp [hp']) ht)
    | same heq | lock _ _ _ _ _ _ heq | keepVote _ _ _ _ heq | count _ _ _ _ _ heq =>
      rw [heq] at hp
      exact h.mem_handled (hx.keptProposal t p hp)
  store d b hb := by
    rcases h.store_cases hb with hb | hb
    · exact (hx.store d b hb).imp_right (·.rule h)
    · exact hb
  lock s hs := by
    have hold : (x.core.spbInstances s).lockFlag = true →
        (∃ d, (y.core.spbInstances s).blockHash = some d) ∧
          ∃ p, .spbProposal p ∈ y.handled ∧ p.slot = s ∧ p.phase = .two := by
      intro hl
      obtain ⟨⟨d, hd⟩, p, hm, hp⟩ := hx.lock s hl
      exact ⟨⟨d, h.blockHash_eq hd⟩, p, h.mem_handled hm, hp⟩
    cases h.spbChange s with
    | lock p d hp ht hps hb heq =>
      exact ⟨⟨d, h.blockHash_eq hb⟩, p, h.mem_handled (hx.other p (by simp [hp]) ht), hps, hp⟩
    | same heq | accept _ _ _ _ _ _ heq | keepTwo _ _ _ _ _ heq | keepVote _ _ _ _ heq
    | count _ _ _ _ _ heq =>
      rw [heq] at hs
      exact hold hs

/-- What the phase-one calls and the block hashes of a node go back to, as long as no look-up finds
a mempool block: a loopback of the key of one would start a call for a block that nobody proposed.
-/
structure Sources (S : Setup) (x : Hist) : Prop where
  one : ∀ p, p.phase = .one → .processProposal p ∈ x.tasks → Source x p
  block : ∀ s d, (x.core.spbInstances s).blockHash = some d →
    ∃ p, Source x p ∧ p.phase = .one ∧ p.slot = s ∧ p.author = p.b.proposer ∧ S.hash p.b = d

theorem Sources.rule (h : Rule S env i x0 x y) (hk : KeysApart x0 env i) (hprov : Provenance S x)
    (hx : Sources S x) : Sources S y where
  one p hp ht := by
    cases h.taskSource ht with
    | old ht => exact (hx.one p hp ht).rule h
    | other p hp' hm => exact .inl hm
    | one p hp' hm _ _ => exact .inl hm
    | loop d b hi hb _ =>
      -- The loopback channel named the key of a consensus block, which the node took once.
      rw [hk.loopBack hi] at hb
      exact .inr ⟨rfl, (hprov.store d b hb).2.rule h⟩
    | keptProposal s p hm => exact .inl (h.mem_handled (hprov.keptProposal s p hm))
  block s d hd := by
    have hold : (x.core.spbInstances s).blockHash = some d → ∃ p, Source y p ∧ p.phase = .one ∧
        p.slot = s ∧ p.author = p.b.proposer ∧ S.hash p.b = d := by
      intro hb
      obtain ⟨p, hp, hrest⟩ := hx.block s d hb
      exact ⟨p, hp.rule h, hrest⟩
    cases h.spbChange s with
    | accept p hp ht hs ha hb heq =>
      rw [heq] at hd
      exact ⟨p, (hx.one p hp ht).rule h, hp, hs, ha, Option.some.inj hd⟩
    | same heq | keepTwo _ _ _ _ _ heq | lock _ _ _ _ _ _ heq | keepVote _ _ _ _ heq
    | count _ _ _ _ _ heq =>
      rw [heq] at hd
      exact hold hd
/-! ## What the messages of an instance mean -/

/-- A phase-two proposal of a view, for the instance of `node`. -/
def Message.isTwo (v : View) (node : NodeID) : Message → Bool
  | .spbProposal p => p.phase = .two ∧ p.view = v ∧ p.b.proposer = node
  | _ => false

/-- What the SPB messages that a node sent say about its instances. -/
structure SpbSent (S : Setup) (x : Hist) : Prop where
  author : ∀ d, ∀ m ∈ x.sentTo d, m.author = x.core.name
  votePhase : ∀ d v, .spbVote v ∈ x.sentTo d → v.phase = .one ∨ v.phase = .two
  proposalPhase : ∀ d p, .spbProposal p ∈ x.sentTo d → p.phase = .one ∨ p.phase = .two
  voteTo : ∀ d v, .spbVote v ∈ x.sentTo d → v.proposer = NONE ∨ d = v.proposer
  voteOne : ∀ d v, .spbVote v ∈ x.sentTo d → v.phase = .one →
    (x.core.spbInstances v.slot).blockHash = some v.blockHash
  voteTwo : ∀ d v, .spbVote v ∈ x.sentTo d → v.phase = .two →
    (x.core.spbInstances v.slot).lockFlag = true
  two : ∀ d p, .spbProposal p ∈ x.sentTo d → p.phase = .two →
    S.quorum ≤ (x.core.spbInstances (p.view.slot p.b.proposer)).votes .one
  finish : ∀ d f, .finish f ∈ x.sentTo d → ∃ node,
    S.quorum ≤ (x.core.spbInstances (f.view.slot node)).votes .two ∧
      (x.core.spbInstances (f.view.slot node)).blockHash = some f.blockHash

/-- A node is the author of what it sends. -/
theorem Sends.author {d : NodeID} {new : List Message} (h : Sends S env i x0 x y d new)
    (hn : y.core.name = x.core.name) : ∀ m ∈ new, m.author = x.core.name := by
  cases h with
  | leader v outs he ho hc => cases ho <;> simp [Message.author, hn]
  | _ => simp [Message.author, newFinVote]

theorem SpbSent.rule (h : Rule S env i x0 x y) (hx : SpbSent S x) : SpbSent S y where
  author d m hm := by
    rw [h.name_eq]
    rcases h.sent_cases hm with hm | ⟨new, hnew, hm⟩
    · exact hx.author d m hm
    · exact hnew.author h.name_eq m hm
  votePhase d v hm := by
    rcases h.sent_cases hm with hm | ⟨new, hnew, hm⟩
    · exact hx.votePhase d v hm
    · exact (hnew.spbVote hm).2.imp And.left And.left
  proposalPhase d p hm := by
    rcases h.sent_cases hm with hm | ⟨new, hnew, hm⟩
    · exact hx.proposalPhase d p hm
    · exact (hnew.spbProposal hm).symm.imp And.left And.left
  voteTo d v hm := by
    rcases h.sent_cases hm with hm | ⟨new, hnew, hm⟩
    · exact hx.voteTo d v hm
    · exact (hnew.spbVote hm).1
  voteOne d v hm hv := by
    rcases h.sent_cases hm with hm | ⟨new, hnew, hm⟩
    · exact h.blockHash_eq (hx.voteOne d v hm hv)
    · rcases (hnew.spbVote hm).2 with ⟨-, hb, -⟩ | ⟨htwo, -⟩
      · exact hb
      · exact absurd (hv.symm.trans htwo) (by simp)
  voteTwo d v hm hv := by
    rcases h.sent_cases hm with hm | ⟨new, hnew, hm⟩
    · exact h.lockFlag_eq (hx.voteTwo d v hm hv)
    · rcases (hnew.spbVote hm).2 with ⟨hone, -, -⟩ | ⟨-, hl⟩
      · exact absurd (hv.symm.trans hone) (by simp)
      · exact hl
  two d p hm hp := by
    rcases h.sent_cases hm with hm | ⟨new, hnew, hm⟩
    · exact (hx.two d p hm hp).trans (h.votes_le _ _)
    · rcases hnew.spbProposal hm with ⟨-, hq⟩ | ⟨hone, -⟩
      · exact hq.ge
      · exact absurd (hp.symm.trans hone) (by simp)
  finish d f hm := by
    rcases h.sent_cases hm with hm | ⟨new, hnew, hm⟩
    · obtain ⟨node, hq, hb⟩ := hx.finish d f hm
      exact ⟨node, hq.trans (h.votes_le _ _), h.blockHash_eq hb⟩
    · cases hnew with
      | finish v dg ht hv hb hq hy =>
        obtain rfl : f = _ := by simpa using hm
        exact ⟨v.proposer, hy.ge, h.blockHash_eq hb⟩
      | leader v outs he ho hc => cases ho <;> simp at hm
      | _ => simp at hm

/-- An instance sends one phase-one vote at most, and none before it has a block. -/
def OnesSent (x : Hist) : Prop :=
  ∀ d s, (x.sentTo d).countP (Message.isVote s .one) ≤
    if (x.core.spbInstances s).blockHash = none then 0 else 1

theorem OnesSent.rule (h : Rule S env i x0 x y) (hx : OnesSent x) : OnesSent y := by
  intro d s
  have hold := hx d s
  obtain ⟨new, hnew, heq⟩ := h.sends d
  rw [heq, List.countP_append]
  -- A block hash stays once it is there.
  have hmono : (if (x.core.spbInstances s).blockHash = none then 0 else 1) ≤
      if (y.core.spbInstances s).blockHash = none then 0 else 1 := by
    cases hb : (x.core.spbInstances s).blockHash with
    | none => simp
    | some dg => simp [h.blockHash_eq hb]
  -- A vote is sent only where the block hash is set.
  have hzero : new.countP (Message.isVote s .one) = 0 ∨
      (new.countP (Message.isVote s .one) = 1 ∧ (x.core.spbInstances s).blockHash = none ∧
        (y.core.spbInstances s).blockHash ≠ none) := by
    cases hnew with
    | voteOne p hi hp hb hy hd =>
      by_cases hs : p.slot = s
      · subst hs
        exact .inr ⟨by simp [Message.isVote, SPBVote.slot, SPBProposal.slot], hb, by simp [hy]⟩
      · have hs' : ¬ (⟨p.epoch, p.round, p.author⟩ : Slot) = s := hs
        exact .inl (by simp [Message.isVote, SPBVote.slot, hs'])
    | leader v outs he ho hc => exact .inl (ho.countP_eq_zero (fun _ => rfl) (fun _ => rfl))
    | _ => exact .inl (by simp [Message.isVote])
  rcases hzero with hz | ⟨hz, hnone, hsome⟩
  · omega
  · rw [if_pos hnone] at hold
    rw [if_neg hsome]
    omega

/-- An instance sends one phase-two proposal at most, and none before its phase-one votes are a
quorum. -/
def TwosSent (S : Setup) (x : Hist) : Prop :=
  ∀ d v node, (x.sentTo d).countP (Message.isTwo v node) ≤
    if S.quorum ≤ (x.core.spbInstances (v.slot node)).votes .one then 1 else 0

theorem TwosSent.rule (h : Rule S env i x0 x y) (hx : TwosSent S x) : TwosSent S y := by
  intro d v node
  have hold := hx d v node
  obtain ⟨new, hnew, heq⟩ := h.sends d
  rw [heq, List.countP_append]
  have hle := h.votes_le (v.slot node) .one
  -- A phase-two proposal is sent only by the vote that brings the count to the quorum.
  have hzero : new.countP (Message.isTwo v node) = 0 ∨
      (new.countP (Message.isTwo v node) = 1 ∧
        (x.core.spbInstances (v.slot node)).votes .one + 1 = S.quorum ∧
        (y.core.spbInstances (v.slot node)).votes .one = S.quorum) := by
    cases hnew with
    | two w ht hp hq hy =>
      by_cases hs : w.slot = v.slot node
      · rw [← hs]
        simp only [SPBVote.slot, View.slot, Slot.mk.injEq] at hs
        obtain ⟨he, hr, hn⟩ := hs
        exact .inr ⟨by simp [Message.isTwo, SPBProposal.view, he, hr, hn], hq, hy⟩
      · refine .inl ?_
        simp only [SPBVote.slot, View.slot, Slot.mk.injEq] at hs
        cases v
        simp [Message.isTwo, SPBProposal.view]
        tauto
    | leader v outs he ho hc => exact .inl (ho.countP_eq_zero (fun _ => rfl) (fun _ => rfl))
    | _ => exact .inl (by simp [Message.isTwo])
  rcases hzero with hz | ⟨hz, hbefore, hafter⟩
  · split_ifs at hold ⊢ <;> omega
  · rw [if_neg (by omega)] at hold
    rw [if_pos hafter.ge]
    omega

end SMVBA
