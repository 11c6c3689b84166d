import SMVBA.Rules.Facts

/-!
# Payloads of the blocks that a node votes for

The core does not look at the payloads of a block when it votes. It relies on the check before the
call was spawned, or on the loopback channel. What one step keeps up, under what the mempool answers
in it: the blocks of spawned phase-one calls and of the instances are stored with all their
payloads, and a request to the synchronizer lists every payload that its block misses.
-/

namespace SMVBA

variable {S : Setup} {env : Env} {i : Input} {x0 x y : Hist} {b : ConsensusBlock}

/-- The late commit leaves the store and the epoch alone. -/
theorem lateCommit_store (S : Setup) (env : Env) (c : Core) (p : SPBProposal) :
    (c.lateCommit S env p).core.store = c.store ∧
    (c.lateCommit S env p).core.epoch = c.epoch ∧ (c.lateCommit S env p).err = none := by
  unfold Core.lateCommit Core.verifyAndCommit Core.verifyConsensusBlock
  split_ifs <;> exact ⟨rfl, rfl, rfl⟩

theorem missing_eq_nil {c : Core} : c.missing env b = [] ↔
    ∀ d ∈ b.payLoads, (c.store d).isSome = true ∨ env.present d = true := by
  simp only [Core.missing, List.filter_eq_nil_iff, Bool.and_eq_true, Bool.not_eq_true', not_and_or,
    Option.isNone_iff_eq_none, Option.isSome_iff_ne_none, Bool.not_eq_false]

/-- A block that misses payloads is a consensus block of the store: a mempool block that is read as
one lists none. -/
theorem Core.store_of_missing {c : Core} {d : Digest} (hb : c.decoded env d = some b)
    (hm : c.missing env b ≠ []) : c.store d = some b := by
  rcases Core.decoded_cases hb with hs | ⟨-, q, -, rfl⟩
  · exact hs
  · exact absurd rfl hm

/-- A rule loses no key of the store. -/
theorem Rule.store_isSome (h : Rule S env i x0 x y) {d : Digest}
    (hd : (x.core.store d).isSome = true) :
    (y.core.store d).isSome = true := by
  rcases h.store_eq with heq | ⟨p, -, -, -, heq⟩
  · rwa [heq]
  · rw [heq]
    by_cases hp : d = S.hash p.b
    · rw [hp, Function.update_self]
      rfl
    · rwa [Function.update_of_ne hp]

/-- What is there stays there. -/
theorem Rule.mem_missing (h : Rule S env i x0 x y) {d : Digest} (hd : d ∈ y.core.missing env b) :
    d ∈ x.core.missing env b := by
  obtain ⟨hmem, hnone⟩ := List.mem_filter.mp hd
  refine List.mem_filter.mpr ⟨hmem, ?_⟩
  rw [Bool.and_eq_true, Option.isNone_iff_eq_none] at hnone ⊢
  refine ⟨?_, hnone.2⟩
  by_contra hsome
  have := h.store_isSome (Option.isSome_iff_ne_none.mpr hsome)
  rw [hnone.1] at this
  cases this

theorem Rule.missing_eq_nil (h : Rule S env i x0 x y) (hb : x.core.missing env b = []) :
    y.core.missing env b = [] := by
  rw [List.eq_nil_iff_forall_not_mem] at hb ⊢
  exact fun d hd => hb d (h.mem_missing hd)

/-- The block is stored under its hash, and all its payloads are there. -/
def Ready (S : Setup) (env : Env) (c : Core) (b : ConsensusBlock) : Prop :=
  c.store (S.hash b) = some b ∧ c.missing env b = []

/-- The blocks that a node took have different hashes. -/
def Hist.Injective (S : Setup) (x : Hist) : Prop :=
  ∀ b b', x.TookBlock b → x.TookBlock b' → S.hash b = S.hash b' → b = b'

theorem Hist.Injective.of_rule (h : Rule S env i x0 x y) (hy : y.Injective S) : x.Injective S :=
  fun b b' hb hb' => hy b b' (hb.rule h) (hb'.rule h)

/-- A stored block stays, as what is written over it is the block itself. -/
theorem Rule.store_block (h : Rule S env i x0 x y) (hy : y.Injective S) (hprov : Provenance S x)
    (hb : x.core.store (S.hash b) = some b) : y.core.store (S.hash b) = some b := by
  rcases h.store_eq with heq | ⟨p, -, -, htook, heq⟩
  · rw [heq]
    exact hb
  · rw [heq]
    by_cases hp : S.hash b = S.hash p.b
    · obtain rfl := hy b p.b ((hprov.store _ _ hb).2.rule h) htook hp
      exact Function.update_self ..
    · rw [Function.update_of_ne hp]
      exact hb

theorem Ready.rule (h : Rule S env i x0 x y) (hy : y.Injective S) (hprov : Provenance S x)
    (hb : Ready S env x.core b) : Ready S env y.core b :=
  ⟨h.store_block hy hprov hb.1, h.missing_eq_nil hb.2⟩

/-- The blocks of phase-one calls and of instances are there with their payloads, and the requests
to the synchronizer cover their blocks. -/
structure Avail (S : Setup) (env : Env) (x : Hist) : Prop where
  tasks : ∀ p, p.phase = .one → .processProposal p ∈ x.tasks → Ready S env x.core p.b
  slots : ∀ t h, (x.core.spbInstances t).blockHash = some h →
    ∃ b, S.hash b = h ∧ Ready S env x.core b
  asked : ∀ m, .sync m ∈ x.out → ∃ b, x.TookBlock b ∧ S.hash b = m.consensusBlockHash ∧
    ∀ d ∈ x.core.missing env b, d ∈ m.missing

/-- A request of `handleOutput` lists what the block of the halt misses. -/
theorem HaltOut.covers {dg : Digest} {k : Committor} {outs : List Output} {m : SyncBlockMsg}
    (ho : HaltOut S env x.core dg k outs) (hprov : Provenance S x) (hm : .sync m ∈ outs) :
    ∃ b, x.TookBlock b ∧ S.hash b = m.consensusBlockHash ∧
      ∀ d ∈ x.core.missing env b, d ∈ m.missing := by
  cases ho with
  | commit b hb hmissing => simp at hm
  | sync b hb hmissing =>
    obtain rfl : m = _ := by simpa using hm
    exact ⟨b, (hprov.store _ b (Core.store_of_missing hb hmissing)).2, rfl, fun d hd => hd⟩
  | absent hb ha => simp at hm

/-- A request that a rule lets out lists what a block misses that the node took. -/
theorem Locals.covers {new : List Output} {m : SyncBlockMsg} (h : Locals S env i x0 x y new)
    (hprov : Provenance S x) (hm : .sync m ∈ new) :
    ∃ b, x.TookBlock b ∧ S.hash b = m.consensusBlockHash ∧
      ∀ d ∈ x.core.missing env b, d ∈ m.missing := by
  cases h with
  | sync p hp ho hmissing hk =>
    obtain rfl : m = _ := by simpa using hm
    refine ⟨p.b, ?_, rfl, fun d hd => hd⟩
    -- The proposal in hand is the message of the step, or its block is a stored one.
    cases ho with
    | message hi hh => exact ⟨p, hh, hp, rfl⟩
    | loopBack d hi hs hp' => exact (hprov.store d _ (Core.store_of_missing hs hmissing)).2
  | haltStay ht outs hi hx0 he hf ho hd => exact ho.covers hprov hm
  | haltNext ht outs hi hx0 he hf ho hd hlt hr hr' => exact ho.covers hprov (by simpa using hm)
  | none _ | late _ _ _ _ _ _ _ _ | start _ _ _ _ | again _ _ _ _ _ => simp at hm

theorem Avail.rule (h : Rule S env i x0 x y) (hy : y.Injective S) (hprov : Provenance S x)
    (hbuf : SpbBuffers x)
    (hloop : ∀ d b, i = .loopBack d → x.core.decoded env d = some b →
      x.core.store d = some b ∧ x.core.missing env b = [])
    (hx : Avail S env x) : Avail S env y where
  tasks p hp ht := by
    cases h.taskSource ht with
    | old ht => exact (hx.tasks p hp ht).rule h hy hprov
    | other p hp' hm => exact absurd hp hp'
    | one p hp' hm hs hmissing => exact ⟨hs, hmissing⟩
    -- The synchronizer names a block only when all its payloads are there.
    | loop d b hi hb hs =>
      obtain ⟨hstored, hmissing⟩ := hloop d b hi hb
      refine Ready.rule h hy hprov ⟨?_, hmissing⟩
      dsimp only [Core.loopProposal]
      rw [(hprov.store d b hstored).1, hstored]
    -- What an instance keeps is of the second phase.
    | keptProposal s p hm =>
      rw [(hbuf.proposals s p hm).2] at hp
      cases hp
  slots t hash hb := by
    have hold : ∀ {hash : Digest}, (x.core.spbInstances t).blockHash = some hash →
        ∃ b, S.hash b = hash ∧ Ready S env y.core b := by
      intro hash hb
      obtain ⟨b, hhash, hready⟩ := hx.slots t hash hb
      exact ⟨b, hhash, hready.rule h hy hprov⟩
    cases h.spbChange t with
    -- The call that sets the hash had its block checked when it was spawned.
    | accept p hp ht hs ha hnone heq =>
      rw [heq] at hb
      exact ⟨p.b, Option.some.inj hb, (hx.tasks p hp ht).rule h hy hprov⟩
    | same heq | keepTwo _ _ _ _ _ heq | lock _ _ _ _ _ _ heq | keepVote _ _ _ _ heq
    | count _ _ _ _ _ heq =>
      rw [heq] at hb
      exact hold hb
  asked m hm := by
    obtain ⟨new, hnew, heq⟩ := h.locals
    have hlocal : .sync m ∈ x.locals ++ new := heq ▸ List.mem_filter.mpr ⟨hm, rfl⟩
    have hcover : ∃ b, x.TookBlock b ∧ S.hash b = m.consensusBlockHash ∧
        ∀ d ∈ x.core.missing env b, d ∈ m.missing := by
      rcases List.mem_append.mp hlocal with hold | hmem
      · exact hx.asked m (List.mem_filter.mp hold).1
      · exact hnew.covers hprov hmem
    -- The block misses no more after the rule than before.
    obtain ⟨b, htook, hhash, hmissing⟩ := hcover
    exact ⟨b, htook.rule h, hhash, fun d hd => hmissing d (h.mem_missing hd)⟩

end SMVBA
