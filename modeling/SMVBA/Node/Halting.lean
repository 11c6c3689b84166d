import SMVBA.Node.Epochs

/-!
# A halt whose block is missing

`handleHalt` writes the leader of a halt before it looks up the block. `handleOutput` has a branch
for a block that the store does not hold, and goes on without it. It gets there only if the database
says `store.ErrNotFoundKey`. With any other error, and `NutsDB` passes on its own,
`getConsensusBlock` fails, and `handleHalt` returns with the leader written and the epoch not
halted. A block of either kind under the key is enough for the look-up to succeed.
-/

namespace SMVBA

variable {S : Setup} {env : Env} {c : Core} {h : Halt}

/-- A halt whose hash is no key of the store halts its epoch all the same. -/
def HaltSurvives (S : Setup) (env : Env) (c : Core) (h : Halt) : Prop :=
  c.store h.blockHash = none → env.held h.blockHash = none →
    (c.handleHalt S env h).err = none ∧ (c.handleHalt S env h).core.haltFlags h.epoch = true ∧
      (c.handleHalt S env h).core.epoch = h.epoch + 1

/-- A halt that ends with an error has changed neither the table of leaders nor the halted epochs
nor the epoch nor the committor. -/
def HaltAtomic (S : Setup) (env : Env) (c : Core) (h : Halt) : Prop :=
  (c.handleHalt S env h).err ≠ none →
    (c.handleHalt S env h).core.elector.leaders = c.elector.leaders ∧
      (c.handleHalt S env h).core.haltFlags = c.haltFlags ∧
      (c.handleHalt S env h).core.epoch = c.epoch ∧
      (c.handleHalt S env h).core.commitor = c.commitor

/-- `advanceNextEpoch` does not fail. -/
theorem advanceNextEpoch_err (c : Core) (epoch : ℤ) :
    (c.advanceNextEpoch env epoch).err = none := by
  unfold Core.advanceNextEpoch
  split_ifs <;> rfl

/-- `handleHalt` fails exactly on a halt that passes its checks and whose block cannot be read. -/
theorem handleHalt_err_iff (S : Setup) (env : Env) (c : Core) (h : Halt) :
    (c.handleHalt S env h).err ≠ none ↔
    c.epoch ≤ h.epoch ∧ c.haltFlags h.epoch = false ∧ c.decoded env h.blockHash = none ∧
      S.absent = .other := by
  unfold Core.handleHalt
  split_ifs with hfilter hflag
  · have hlt : h.epoch < c.epoch := by simpa [Core.messgaeFilter] using hfilter
    refine iff_of_false (by simp [Outcome.ret]) fun hall => ?_
    omega
  · exact iff_of_false (by simp [Outcome.ret]) fun hall => by simp [hflag] at hall
  · have hle : c.epoch ≤ h.epoch := by simpa [Core.messgaeFilter] using hfilter
    obtain ⟨k, outs, ho, heq⟩ | ⟨hb, ha, heq⟩ := handleOutput_cases S env
      { c with elector := c.elector.setLeader h.view h.leader } h.blockHash
    · have hread : ¬ (c.decoded env h.blockHash = none ∧ S.absent = .other) := by
        rintro ⟨hnone, hother⟩
        cases ho with
        | commit b hb _ | sync b hb _ => exact absurd (hb.symm.trans hnone) (by simp)
        | absent _ ha => exact absurd (ha.symm.trans hother) (by decide)
      rw [heq]
      refine iff_of_false ?_ fun hall => hread hall.2.2
      exact fun herr => herr (advanceNextEpoch_err _ _)
    · rw [heq]
      exact iff_of_true (by simp [Outcome.bind]) ⟨hle, Bool.eq_false_iff.mpr hflag, hb, ha⟩

/-- A halt that is accepted halts its epoch, and the node moves on to the next. -/
theorem handleHalt_of_acceptsHalt (he : c.epoch ≤ h.epoch) (hmax : h.epoch < maxInt64)
    (hread : c.acceptsHalt S env h = true) :
    (c.handleHalt S env h).core.haltFlags h.epoch = true ∧
      (c.handleHalt S env h).core.epoch = h.epoch + 1 := by
  cases handleHalt_epochStep S env c h with
  | same hno _ _ =>
    rw [hno h rfl] at hread
    cases hread
  | accept h' hi ha hepoch hflags =>
    cases hi
    rw [succ64_of_ne hmax.ne] at hepoch
    rw [hflags, hepoch]
    exact ⟨Function.update_self .., by omega⟩

/-- A halt of an epoch that is past or halted is skipped without an error. A halt of an epoch that
is not, and not the largest, survives a missing block and fails without a trace exactly when the
database answers `ErrNotFoundKey` for a missing block or the store holds a block of either kind
under the hash. -/
theorem halt_atomic_iff (S : Setup) (env : Env) (c : Core) (h : Halt) :
    (h.epoch < c.epoch ∨ c.haltFlags h.epoch = true → (c.handleHalt S env h).err = none) ∧
    (c.epoch ≤ h.epoch → h.epoch < maxInt64 → c.haltFlags h.epoch = false →
      (HaltSurvives S env c h ∧ HaltAtomic S env c h ↔
        S.absent = .notFoundKey ∨ c.store h.blockHash ≠ none ∨ env.held h.blockHash ≠ none)) := by
  have herr := handleHalt_err_iff S env c h
  refine ⟨fun hskip => ?_, fun he hmax hflag => ⟨?_, fun hread => ?_⟩⟩
  · by_contra hne
    obtain ⟨hle, hflag, -, -⟩ := herr.mp hne
    rcases hskip with hlt | hset
    · omega
    · rw [hflag] at hset
      cases hset
  · rintro ⟨hsurvives, -⟩
    by_contra hnot
    rw [not_or, not_or, not_not, not_not] at hnot
    obtain ⟨habsent, hnone, hheld⟩ := hnot
    have hother : S.absent = .other := by
      cases ha : S.absent with
      | notFoundKey => exact absurd ha habsent
      | other => rfl
    exact herr.mpr ⟨he, hflag, Core.decoded_eq_none.mpr ⟨hnone, hheld⟩, hother⟩
      (hsurvives hnone hheld).1
  · have hnone : (c.handleHalt S env h).err = none := by
      by_contra hne
      obtain ⟨-, -, hdecoded, hother⟩ := herr.mp hne
      obtain ⟨hstore, hheld⟩ := Core.decoded_eq_none.mp hdecoded
      rcases hread with ha | hsome | hsome
      · exact absurd (ha.symm.trans hother) (by decide)
      · exact hsome hstore
      · exact hsome hheld
    refine ⟨fun hstore hheld => ⟨hnone, ?_⟩, fun hne => absurd hnone hne⟩
    have ha : S.absent = .notFoundKey :=
      hread.resolve_right fun hsome => hsome.elim (· hstore) (· hheld)
    refine handleHalt_of_acceptsHalt he hmax ?_
    simp [Core.acceptsHalt, Core.messgaeFilter, he, hflag, ha]

/-- The halt that node `2` broadcasts at the end of a voted round, with the block of `0`. -/
def votedHalt : Halt := ⟨2, 0, 0, 0, demoHash 0⟩

/-- With a database that answers `ErrNotFoundKey`, a node that has just started and holds no block
takes the halt and is in epoch one. -/
theorem halt_atomic_notFoundKey :
    ∃ x, LocalRun { demo 4 0 with absent := .notFoundKey } Always 3 x ∧
    x.core.store votedHalt.blockHash = none ∧ (fullEnv 3).held votedHalt.blockHash = none ∧
    HaltSurvives { demo 4 0 with absent := .notFoundKey } (fullEnv 3) x.core votedHalt ∧
    HaltAtomic { demo 4 0 with absent := .notFoundKey } (fullEnv 3) x.core votedHalt := by
  obtain ⟨x, hr, hx⟩ := exists_localRun { demo 4 0 with absent := .notFoundKey } Always 3
    [(fullEnv 3, .start)]
    (fun x => decide (x.core.epoch ≤ votedHalt.epoch ∧ x.core.haltFlags votedHalt.epoch = false ∧
      x.core.store votedHalt.blockHash = none)) (by decide +kernel)
  obtain ⟨he, hflag, hstore⟩ := of_decide_eq_true hx
  have hiff := (halt_atomic_iff { demo 4 0 with absent := .notFoundKey }
    (fullEnv 3) x.core votedHalt).2 he (by decide) hflag
  exact ⟨x, hr, hstore, by decide +kernel, hiff.mpr (.inl rfl)⟩

/-- With the errors of `NutsDB`: node `2` has broadcast a halt, node `3` does not have the block
yet, and the halt makes it change its table of leaders and fail. -/
theorem halt_not_atomic : ∃ s : Net, Run (demo 4 0) Always s ∧
    .halt votedHalt ∈ (s.nodes 2).sentTo 3 ∧ (s.nodes 3).core.epoch ≤ votedHalt.epoch ∧
    (s.nodes 3).core.haltFlags votedHalt.epoch = false ∧
    ¬ HaltSurvives (demo 4 0) (fullEnv 3) (s.nodes 3).core votedHalt ∧
    ¬ HaltAtomic (demo 4 0) (fullEnv 3) (s.nodes 3).core votedHalt := by
  obtain ⟨s, hr, hs⟩ := exists_run (demo 4 0) Always [0, 1, 2, 3] (votedRound 0 1 2 3)
    (fun nodes => decide (.halt votedHalt ∈ (nodes 2).sentTo 3 ∧
      (nodes 3).core.epoch ≤ votedHalt.epoch ∧ (nodes 3).core.haltFlags votedHalt.epoch = false ∧
      (nodes 3).core.store votedHalt.blockHash = none ∧
      ((nodes 3).core.handleHalt (demo 4 0) (fullEnv 3) votedHalt).err ≠ none ∧
      ((nodes 3).core.handleHalt (demo 4 0) (fullEnv 3) votedHalt).core.elector.leaders
          votedHalt.view ≠
        (nodes 3).core.elector.leaders votedHalt.view))
    (by decide) (by decide +kernel)
  obtain ⟨hsent, he, hflag, hstore, herr, hleader⟩ := of_decide_eq_true hs
  refine ⟨s, hr, hsent, he, hflag, fun hsurvives => ?_, fun hatomic => ?_⟩
  · exact herr (hsurvives hstore (by decide +kernel)).1
  · exact hleader (congrFun (hatomic herr).1 _)

end SMVBA
