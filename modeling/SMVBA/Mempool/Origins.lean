import SMVBA.Mempool.Payloads

/-!
# Where the payloads come from

A payload gets into the store of a replica by being written as a payload, and digests get into its
queue and into the blocks that it creates only after the payloads were written. `PayloadFacts` says
so, for any database, and is kept by every step since every step only adds payloads by writing them
(`PayloadStep.grows`).
-/

namespace SMVBA

variable {S : Setup} {M : MempoolSetup}

/-- The mempool has written a payload with the digest. -/
def Mempool.HasWritten (S : Setup) (m : Mempool) (d : Digest) : Prop :=
  ∃ p ∈ m.written, S.blockHash p = d

/-- What every step leaves of the payloads of a mempool, and where new ones come from. -/
structure Mempool.Grows (S : Setup) (m m' : Mempool) : Prop where
  written : ∀ p ∈ m.written, p ∈ m'.written
  entry : ∀ d p, m'.store.db d = some (.block p) →
    m.store.db d = some (.block p) ∨ p ∈ m'.written ∧ S.blockHash p = d
  queue : ∀ d ∈ m'.queue, d ∈ m.queue ∨ m'.HasWritten S d

/-- Where the payloads of a replica come from: those in the store, those in the queue and those of
the blocks that it has created have all been written. -/
structure PayloadFacts (S : Setup) (r : Replica) : Prop where
  entry : ∀ d p, r.mempool.store.db d = some (.block p) → p ∈ r.mempool.written ∧ S.blockHash p = d
  queue : ∀ d ∈ r.mempool.queue, r.mempool.HasWritten S d
  created : ∀ b ∈ r.hist.created, ∀ d ∈ b.payLoads, r.mempool.HasWritten S d

theorem PayloadFacts.init (S : Setup) (name : NodeID) : PayloadFacts S (.init name) where
  entry := by simp [Replica.init]
  queue := by simp [Replica.init]
  created := by simp [Replica.init, Hist.init, Hist.created]

section Replicas

variable {w : Surroundings} {r r' : Replica} {i : ReplicaInput} {outs : List Output}
  {sends : List MempoolSend} {m m' m'' : Mempool} {d : Digest}

namespace Mempool

theorem HasWritten.grows (h : m.HasWritten S d) (hg : m.Grows S m') : m'.HasWritten S d := by
  obtain ⟨p, hp, hd⟩ := h
  exact ⟨p, hg.written p hp, hd⟩

theorem Stored.hasWritten {b : Block} (h : Stored S b m m') : m'.HasWritten S (S.blockHash b) :=
  ⟨b, by simp [h.written], rfl⟩

theorem Grows.trans (h : m.Grows S m') (h' : m'.Grows S m'') : m.Grows S m'' where
  written p hp := h'.written p (h.written p hp)
  entry d p hd := by
    rcases h'.entry d p hd with hd' | hnew
    · exact (h.entry d p hd').imp_right fun hnew => ⟨h'.written p hnew.1, hnew.2⟩
    · exact .inr hnew
  queue d hd := by
    rcases h'.queue d hd with hd' | hnew
    · exact (h.queue d hd').imp_right fun hnew => hnew.grows h'
    · exact .inr hnew

/-- A payload is stored, and may be queued. -/
theorem Stored.grows {b : Block} (h : Stored S b m m')
    (hq : m'.queue ⊆ insert (S.blockHash b) m.queue) : m.Grows S m' where
  written p hp := by
    rw [h.written]
    exact List.mem_append_left _ hp
  entry d p hd := by
    rw [h.db] at hd
    by_cases hkey : d = S.blockHash b
    · subst hkey
      rw [Function.update_self] at hd
      cases hd
      exact .inr ⟨by simp [h.written], rfl⟩
    · rw [Function.update_of_ne hkey] at hd
      exact .inl hd
  queue d hd := by
    rcases Finset.mem_insert.mp (hq hd) with rfl | hold
    · exact .inr h.hasWritten
    · exact .inl hold

/-- No payload is stored, and none is queued. -/
theorem Grows.of_eq (hw : m'.written = m.written)
    (hdb : ∀ d p, m'.store.db d = some (.block p) → m.store.db d = some (.block p))
    (hq : m'.queue ⊆ m.queue) : m.Grows S m' where
  written _ hp := hw ▸ hp
  entry d p hd := .inl (hdb d p hd)
  queue _ hd := .inl (hq hd)

theorem Wrote.grows {o : Option ConsensusBlock} (h : m.Wrote o m') : m.Grows S m' :=
  .of_eq h.written (fun _ _ => h.block) h.queue.subset

/-- `HandleMakeBlockMsg` hands out payloads that have been written. -/
theorem Made.grows {c : MakeChoice} {ds : List Digest} (h : Made S M m c m' sends ds) :
    m.Grows S m' := by
  cases h with
  | new m' hempty hq hs => exact hs.grows (by simp [hq])
  | failed m' hs => exact .of_eq hs.written (fun _ _ hd => hs.db ▸ hd) hs.queue.subset
  | queued ds hds => exact .of_eq rfl (fun _ _ => id) Finset.sdiff_subset

theorem Made.hasWritten {c : MakeChoice} {ds : List Digest} (h : Made S M m c m' sends ds)
    (hc : c.Of m) (hq : ∀ d ∈ m.queue, m.HasWritten S d) : ∀ d ∈ ds, m'.HasWritten S d := by
  intro d hd
  have hg := h.grows
  cases h with
  | new m' hempty hqueue hs =>
    obtain rfl := List.mem_singleton.mp hd
    exact hs.hasWritten
  | failed m' hs => cases hd
  | queued ds hds =>
    have hmem : d ∈ m.queue := by
      rw [← hc.2, List.mem_toFinset]
      exact hds.subset hd
    exact (hq d hmem).grows hg

end Mempool

theorem PayloadStep.grows (h : PayloadStep S M w r r' i outs sends) :
    r.mempool.Grows S r'.mempool := by
  cases h with
  | own b hq hs | other b hverify hq hs => exact hs.grows hq.subset
  | idle i sends hs hsends =>
    exact .of_eq hs.written (fun _ _ hd => hs.db ▸ hd) hs.queue.subset
  | clean digests epoch hq hw hdb =>
    exact .of_eq hw (fun _ _ hd => hdb ▸ hd) (hq ▸ Finset.sdiff_subset)
  | core i outs hnone hw => exact hw.grows
  | create i outs sends made payloads hmake hmade hsome hall hw => exact hmade.grows.trans hw.grows

theorem PayloadFacts.step (h : r.step S M w i = some (r', outs, sends)) (hr : PayloadFacts S r) :
    PayloadFacts S r' := by
  have hstep := Replica.step_payloads h
  have hg := hstep.grows
  refine ⟨fun d p hd => ?_, fun d hd => ?_, fun b hb d hd => ?_⟩
  · rcases hg.entry d p hd with hold | hnew
    · exact ⟨hg.written p (hr.entry d p hold).1, (hr.entry d p hold).2⟩
    · exact hnew
  · rcases hg.queue d hd with hold | hnew
    · exact (hr.queue d hold).grows hg
    · exact hnew
  · rw [Replica.step_created h, List.mem_append, List.mem_filterMap] at hb
    rcases hb with hold | ⟨o, ho, hb⟩
    · exact (hr.created b hold d hd).grows hg
    obtain rfl : o = .create b := by
      cases o <;> simp_all [Output.created?]
    -- The block lists what the mempool has handed out for it.
    cases hstep with
    | create i outs sends made payloads hmake hmade hsome hall hw =>
      rw [hall b ho] at hd
      exact (hmade.hasWritten hmake hr.queue d hd).grows hw.grows
    | core i outs hnone hw => exact absurd ho (hnone b)
    | _ => cases ho

end Replicas

end SMVBA
