import SMVBA.Library.Mealy
import SMVBA.Mempool.Mempool

/-!
# What the synchronizer promises

The waiters and the queues of the store agree (`WaiterFacts`): a request in a queue is the current
one of its waiter, and a payload whose request is answered is in the store.

A hash on the loopback channel is one of a block whose payloads are all in the store. The promise is
made when `Verify` puts the missing payloads of a block on `interChan`: a payload of the block is in
the store, or it is among those still to be read. It passes from the request to the waiter, holds at
each payload that the waiter reads, and arrives on the loopback channel with nothing left to read.
Requests for a hash that is under way are dropped, and clean-ups only drop waiters, so neither
breaks it.
-/

namespace SMVBA

variable {S : Setup} {M : MempoolSetup} {T T' : ConsensusBlock → Prop} {m m' : Mempool}

/-- Applying a function at some positions of a list. -/
theorem getElem?_foldl_modify {α : Type*} {f : α → α} (hf : ∀ a, f (f a) = f a) (ks : List ℕ)
    (l : List α) (k : ℕ) : (ks.foldl (fun l k => l.modify k f) l)[k]? =
      (l[k]?).map fun a => if k ∈ ks then f a else a := by
  induction ks generalizing l with
  | nil => simp
  | cons j ks ih =>
    rw [List.foldl_cons, ih, List.getElem?_modify]
    by_cases hj : j = k
    · subst hj
      cases hl : l[j]? with
      | none => simp
      | some a => by_cases hk : j ∈ ks <;> simp [hk, hf]
    · have hk : k ≠ j := fun h => hj h.symm
      simp [hj, hk]

theorem wake_waiters (sync : Synchronizer) (ks : List ℕ) (k : ℕ) :
    (sync.wake ks).waiters[k]? =
      (sync.waiters[k]?).map fun w => if k ∈ ks then w.answer else w :=
  getElem?_foldl_modify (f := Waiter.answer) (fun _ => rfl) ks _ k

theorem close_waiters (sync : Synchronizer) (ks : List ℕ) (k : ℕ) :
    (sync.close ks).waiters[k]? =
      (sync.waiters[k]?).map fun w => if k ∈ ks then w.close else w :=
  getElem?_foldl_modify (f := Waiter.close) (fun _ => rfl) ks _ k

/-- An element after a change of one is the changed one, or was there before. -/
theorem getElem?_of_set {α : Type*} {l : List α} {k j : ℕ} {a b c : α} (hk : l[k]? = some a)
    (h : (l.set k b)[j]? = some c) : (j = k ∧ c = b) ∨ l[j]? = some c := by
  have hlt : k < l.length := (List.getElem?_eq_some_iff.mp hk).1
  rw [List.getElem?_set] at h
  by_cases hjk : k = j
  · rw [if_pos hjk, if_pos hlt] at h
    exact .inl ⟨hjk.symm, (Option.some.inj h).symm⟩
  · rw [if_neg hjk] at h
    exact .inr h

/-! ## Waiters and the queues of the store -/

/-- The waiters and the queues of the store agree. -/
structure WaiterFacts (m : Mempool) : Prop where
  /-- A payload whose `NotifyRead` is answered is in the store. -/
  answered : ∀ (k : ℕ) (w : Waiter), m.sync.waiters[k]? = some w → w.stage = .answered →
    ∀ d ∈ w.left.head?, m.store.Holds d
  /-- A request in the store's queue is the current one of its waiter. -/
  queued : ∀ (d : Digest) (k : ℕ), k ∈ m.store.pending d → ∃ w, m.sync.waiters[k]? = some w ∧
    w.left.head? = some d ∧ w.stage = .queued

namespace WaiterFacts

theorem init (name : NodeID) : WaiterFacts { name := name } := by
  constructor <;> simp

variable (hm : WaiterFacts m)

include hm

/-- A waiter whose request is not in a queue. -/
theorem notMem_pending {k : ℕ} {w : Waiter} (hk : m.sync.waiters[k]? = some w)
    (hw : w.stage ≠ .queued) (d : Digest) : k ∉ m.store.pending d := by
  intro hmem
  obtain ⟨w', hk', -, hstage⟩ := hm.queued d k hmem
  rw [hk] at hk'
  exact hw (Option.some.inj hk' ▸ hstage)

/-- Waiters that keep what they read, beside new ones that have asked for nothing. -/
theorem mono (hholds : ∀ d, m.store.Holds d → m'.store.Holds d)
    (hpending : m'.store.pending = m.store.pending)
    (hkeep : ∀ (k : ℕ) (w : Waiter), m.sync.waiters[k]? = some w → ∃ w',
      m'.sync.waiters[k]? = some w' ∧ w'.left = w.left ∧ w'.stage = w.stage)
    (hfrom : ∀ (k : ℕ) (w' : Waiter), m'.sync.waiters[k]? = some w' → w'.stage ≠ .idle →
      ∃ w, m.sync.waiters[k]? = some w) : WaiterFacts m' where
  answered k w' hk' hw' d hd := by
    obtain ⟨w, hk⟩ := hfrom k w' hk' (by rw [hw']; decide)
    obtain ⟨w₁, hk₁, hleft, hstage⟩ := hkeep k w hk
    obtain rfl : w' = w₁ := Option.some.inj (hk'.symm.trans hk₁)
    exact hholds d (hm.answered k w hk (hstage ▸ hw') d (hleft ▸ hd))
  queued d k hk := by
    rw [hpending] at hk
    obtain ⟨w, hw, hhead, hstage⟩ := hm.queued d k hk
    obtain ⟨w', hw', hleft', hstage'⟩ := hkeep k w hw
    exact ⟨w', hw', hleft' ▸ hhead, hstage' ▸ hstage⟩

/-- A write answers the requests of its key, which is in the store by then. -/
theorem write (key : Digest) (val : Entry) : WaiterFacts (m.write true key val) := by
  have hwake : ∀ k, (m.write true key val).sync.waiters[k]? =
      (m.sync.waiters[k]?).map fun w => if k ∈ m.store.pending key then w.answer else w :=
    fun k => wake_waiters m.sync (m.store.pending key) k
  constructor
  case answered =>
    intro k w hk hw d hd
    rw [hwake, Option.map_eq_some_iff] at hk
    obtain ⟨w₀, hk, rfl⟩ := hk
    by_cases hq : k ∈ m.store.pending key
    · obtain ⟨w₁, hk₁, hhead, -⟩ := hm.queued key k hq
      obtain rfl : w₀ = w₁ := Option.some.inj (hk.symm.trans hk₁)
      rw [if_pos hq] at hd
      obtain rfl : key = d := Option.some.inj (hhead.symm.trans hd)
      exact Store.holds_write_self rfl
    · rw [if_neg hq] at hw hd
      exact Store.Holds.write (hm.answered k w₀ hk hw d hd)
  case queued =>
    intro d k hk
    obtain ⟨hne, hk⟩ := Store.mem_pending_write hk
    obtain ⟨w, hw, hhead, hstage⟩ := hm.queued d k hk
    -- The waiter reads `d`, and so is not in the queue of the key that is written.
    have hq : k ∉ m.store.pending key := by
      intro hq
      obtain ⟨w', hw', hhead', -⟩ := hm.queued key k hq
      obtain rfl : w = w' := Option.some.inj (hw.symm.trans hw')
      exact hne (Option.some.inj (hhead.symm.trans hhead'))
    refine ⟨w, ?_, hhead, hstage⟩
    rw [hwake, hw]
    simp [hq]

/-- A change of one waiter that keeps its place in the queues. -/
theorem setWaiter {k : ℕ} {w w' : Waiter} (hk : m.sync.waiters[k]? = some w)
    (hw : m'.sync.waiters = m.sync.waiters.set k w') (hdb : m'.store.db = m.store.db)
    (hans : w'.stage = .answered → ∀ d ∈ w'.left.head?, m.store.Holds d)
    (hqueue : ∀ d j, j ∈ m'.store.pending d →
      (j = k → w'.left.head? = some d ∧ w'.stage = .queued) ∧ (j ≠ k → j ∈ m.store.pending d)) :
    WaiterFacts m' := by
  have hlt : k < m.sync.waiters.length := (List.getElem?_eq_some_iff.mp hk).1
  have hholds : ∀ d, m.store.Holds d → m'.store.Holds d := by
    intro d hd
    rw [Store.Holds, hdb]
    exact hd
  constructor
  case answered =>
    intro j v hj hv d hd
    rcases getElem?_of_set hk (hw ▸ hj) with ⟨rfl, rfl⟩ | hj
    · exact hholds d (hans hv d hd)
    · exact hholds d (hm.answered j v hj hv d hd)
  case queued =>
    intro d j hj
    obtain ⟨hself, hother⟩ := hqueue d j hj
    by_cases hjk : k = j
    · subst hjk
      refine ⟨w', ?_, hself rfl⟩
      simp [hw, hlt]
    · obtain ⟨v, hv, hhead, hstage⟩ := hm.queued d j (hother (Ne.symm hjk))
      refine ⟨v, ?_, hhead, hstage⟩
      simp [hw, hjk, hv]

/-- The next payload is asked for. -/
theorem ask {k : ℕ} {sync : Synchronizer} {store : Store Digest Entry ℕ}
    (h : m.sync.ask m.store k = some (sync, store)) :
    WaiterFacts { m with sync := sync, store := store } := by
  unfold Synchronizer.ask at h
  split at h
  case h_1 d left hash closed returned hk =>
    obtain ⟨rfl, rfl⟩ : _ ∧ _ := by simpa using h
    refine hm.setWaiter hk rfl Store.notifyRead_db ?_ ?_
    · intro hans d' hd'
      obtain rfl : d = d' := by simpa using hd'
      by_cases hanswered : (m.store.notifyRead d k).2 = true
      · exact Store.notifyRead_answered.mp hanswered
      · simp [hanswered] at hans
    · intro d' j hj
      rcases Store.mem_pending_notifyRead hj with hj | ⟨rfl, rfl, hq⟩
      · exact ⟨fun hjk => absurd (hjk ▸ hj) (hm.notMem_pending hk (by simp) d'), fun _ => hj⟩
      · exact ⟨fun _ => ⟨rfl, by simp [hq]⟩, fun hne => absurd rfl hne⟩
  case h_2 => cases h

/-- The answer is taken. -/
theorem resume {k : ℕ} {sync : Synchronizer} (h : m.sync.resume k = some sync) :
    WaiterFacts { m with sync := sync } := by
  unfold Synchronizer.resume at h
  split at h
  case h_1 d left hash closed returned hk =>
    cases h
    refine hm.setWaiter hk rfl rfl (by simp) fun d' j hj => ?_
    exact ⟨fun hjk => absurd (hjk ▸ hj) (hm.notMem_pending hk (by simp) d'), fun _ => hj⟩
  case h_2 => cases h

/-- A waiter returns, for whatever reason. -/
theorem returns {k : ℕ} {w w' : Waiter} (hk : m.sync.waiters[k]? = some w)
    (hw : m'.sync.waiters = m.sync.waiters.set k w') (hstore : m'.store = m.store)
    (hleft : w'.left = w.left) (hstage : w'.stage = w.stage) : WaiterFacts m' := by
  refine hm.setWaiter hk hw (congrArg Store.db hstore) ?_ ?_
  · rw [hleft, hstage]
    exact hm.answered k w hk
  · intro d j hj
    rw [hstore] at hj
    refine ⟨fun hjk => ?_, fun _ => hj⟩
    subst hjk
    obtain ⟨w₁, hw₁, hhead, hqueued⟩ := hm.queued d j hj
    obtain rfl : w = w₁ := Option.some.inj (hk.symm.trans hw₁)
    exact ⟨hleft ▸ hhead, hstage ▸ hqueued⟩

/-- A request gets a waiter, which is in no queue of the store yet, or is dropped. -/
theorem runBlock (name : NodeID) (now : ℤ) (req : SyncBlockMsg) :
    WaiterFacts { m with sync := (m.sync.runBlock name now req).1 } := by
  unfold Synchronizer.runBlock
  split_ifs with hp
  · exact hm
  · refine hm.mono (fun _ => id) rfl (fun k w hk => ⟨w, ?_, rfl, rfl⟩) fun k w hk hw => ?_
    · exact (List.getElem?_append_left (List.getElem?_eq_some_iff.mp hk).1).trans hk
    · rcases Mealy.getElem?_of_concat hk with hold | ⟨-, rfl⟩
      · exact ⟨w, hold⟩
      · exact absurd rfl hw

/-- A clean-up tells waiters to give up, and they keep their places. -/
theorem runCleanUp (epoch : ℕ) : WaiterFacts { m with sync := m.sync.runCleanUp epoch } := by
  have hclose : ∃ ws : List ℕ, ∀ k, (m.sync.runCleanUp epoch).waiters[k]? =
      (m.sync.waiters[k]?).map fun w => if k ∈ ws then w.close else w :=
    ⟨_, fun k => close_waiters m.sync _ k⟩
  obtain ⟨ws, hclose⟩ := hclose
  refine hm.mono (fun _ => id) rfl (fun k w hk => ?_) fun k w' hk _ => ?_
  · refine ⟨if k ∈ ws then w.close else w, ?_, ?_⟩
    · rw [hclose, hk]
      rfl
    · split_ifs <;> exact ⟨rfl, rfl⟩
  · rw [hclose, Option.map_eq_some_iff] at hk
    obtain ⟨w, hk, -⟩ := hk
    exact ⟨w, hk⟩

end WaiterFacts

/-! ## The promise -/

/-- A known block with the hash has its payloads in the store, or among those that are left to read.
-/
def Covered (S : Setup) (T : ConsensusBlock → Prop) (m : Mempool) (h : Digest)
    (left : List Digest) :
    Prop :=
  ∃ b, T b ∧ S.hash b = h ∧ ∀ d ∈ b.payLoads, m.store.Holds d ∨ d ∈ left

theorem Covered.mono {h : Digest} {left : List Digest} (hT : ∀ b, T b → T' b)
    (hm : ∀ d, m.store.Holds d → m'.store.Holds d) (hc : Covered S T m h left) :
    Covered S T' m' h left := by
  obtain ⟨b, hb, hh, hleft⟩ := hc
  exact ⟨b, hT b hb, hh, fun d hd => (hleft d hd).imp_left (hm d)⟩

/-- What the channels and the waiters of a synchronizer promise, about the blocks in `T`. -/
structure SyncFacts (S : Setup) (T : ConsensusBlock → Prop) (m : Mempool) : Prop
    extends WaiterFacts m where
  inter : ∀ req, .block req ∈ m.sync.interChan →
    Covered S T m req.consensusBlockHash req.missing
  left : ∀ (k : ℕ) (w : Waiter), m.sync.waiters[k]? = some w → Covered S T m w.blockHash w.left
  waiting : ∀ d ∈ m.sync.waiting, d ≠ 0 → Covered S T m d []
  loopBack : ∀ d ∈ m.sync.loopBackChan, Covered S T m d []

namespace SyncFacts

theorem init (S : Setup) (T : ConsensusBlock → Prop) (name : NodeID) :
    SyncFacts S T { name := name } := by
  refine { WaiterFacts.init name with inter := ?_, left := ?_, waiting := ?_, loopBack := ?_ }
  all_goals simp

variable (hm : SyncFacts S T m)

include hm

/-- The promise stays when blocks become known and keys come into the database, as long as the
queues and the synchronizer do not change. -/
theorem mono (hT : ∀ b, T b → T' b) (hholds : ∀ d, m.store.Holds d → m'.store.Holds d)
    (hpending : m'.store.pending = m.store.pending) (hsync : m'.sync = m.sync) :
    SyncFacts S T' m' where
  inter req hr := (hm.inter req (hsync ▸ hr)).mono hT hholds
  left k w hk := (hm.left k w (hsync ▸ hk)).mono hT hholds
  toWaiterFacts := hm.toWaiterFacts.mono hholds hpending
    (fun _ w hk => ⟨w, hsync ▸ hk, rfl, rfl⟩) fun _ w hk _ => ⟨w, hsync ▸ hk⟩
  waiting d hd hne := (hm.waiting d (hsync ▸ hd) hne).mono hT hholds
  loopBack d hd := (hm.loopBack d (hsync ▸ hd)).mono hT hholds

/-- A write wakes waiters, and takes nothing from what is stored. -/
theorem write (key : Digest) (val : Entry) : SyncFacts S T (m.write true key val) := by
  have hholds : ∀ d, m.store.Holds d → (m.write true key val).store.Holds d :=
    fun d hd => Store.Holds.write hd
  have hqueue := hm.toWaiterFacts.write key val
  constructor
  case inter => exact fun req hr => (hm.inter req hr).mono (fun _ => id) hholds
  case left =>
    intro k w hk
    -- A waiter after the write is one before it, with its request answered if it was in the queue.
    obtain ⟨w₀, hk₀, rfl⟩ := Option.map_eq_some_iff.mp
      ((wake_waiters m.sync (m.store.pending key) k).symm.trans hk)
    have hcover := (hm.left k w₀ hk₀).mono (fun _ => id) hholds
    split_ifs
    · exact hcover
    · exact hcover
  case toWaiterFacts => exact hqueue
  case waiting => exact fun d hd hne => (hm.waiting d hd hne).mono (fun _ => id) hholds
  case loopBack => exact fun d hd => (hm.loopBack d hd).mono (fun _ => id) hholds

/-- A change of one waiter that keeps its promise. -/
theorem setWaiter {k : ℕ} {w w' : Waiter} (hk : m.sync.waiters[k]? = some w)
    (hw : m'.sync.waiters = m.sync.waiters.set k w') (hdb : m'.store.db = m.store.db)
    (hi : m'.sync.interChan = m.sync.interChan)
    (hwait : ∀ d ∈ m'.sync.waiting, d ∈ m.sync.waiting ∨ (d ≠ 0 → Covered S T m d []))
    (hloop : m'.sync.loopBackChan = m.sync.loopBackChan)
    (hleft : Covered S T m w'.blockHash w'.left) (hqueue : WaiterFacts m') : SyncFacts S T m' := by
  have hholds : ∀ d, m.store.Holds d → m'.store.Holds d := by
    intro d hd
    rw [Store.Holds, hdb]
    exact hd
  constructor
  case inter => exact fun req hr => (hm.inter req (hi ▸ hr)).mono (fun _ => id) hholds
  case left =>
    intro j v hj
    rcases getElem?_of_set hk (hw ▸ hj) with ⟨rfl, rfl⟩ | hj
    · exact hleft.mono (fun _ => id) hholds
    · exact (hm.left j v hj).mono (fun _ => id) hholds
  case toWaiterFacts => exact hqueue
  case waiting =>
    intro d hd hne
    refine Covered.mono (fun _ => id) hholds ?_
    exact (hwait d hd).elim (fun hd => hm.waiting d hd hne) fun h => h hne
  case loopBack => exact fun d hd => (hm.loopBack d (hloop ▸ hd)).mono (fun _ => id) hholds

/-! ## The steps -/

/-- The next payload is asked for. -/
theorem ask {k : ℕ} {sync : Synchronizer} {store : Store Digest Entry ℕ}
    (h : m.sync.ask m.store k = some (sync, store)) :
    SyncFacts S T { m with sync := sync, store := store } := by
  have hqueue := hm.toWaiterFacts.ask h
  unfold Synchronizer.ask at h
  split at h
  case h_1 d left hash closed returned hk =>
    obtain ⟨rfl, rfl⟩ : _ ∧ _ := by simpa using h
    have hleft := hm.left k _ hk
    exact hm.setWaiter hk rfl Store.notifyRead_db rfl (fun _ hd => .inl hd) rfl hleft hqueue
  case h_2 => cases h

/-- A payload that was read is in the store, so that the rest covers the block. -/
theorem resume {k : ℕ} {sync : Synchronizer} (h : m.sync.resume k = some sync) :
    SyncFacts S T { m with sync := sync } := by
  have hqueue := hm.toWaiterFacts.resume h
  unfold Synchronizer.resume at h
  split at h
  case h_1 d left hash closed returned hk =>
    cases h
    have hholds : m.store.Holds d := hm.answered k _ hk rfl d rfl
    refine hm.setWaiter hk rfl rfl rfl (fun _ hd => .inl hd) rfl ?_ hqueue
    obtain ⟨b, hb, hhash, hcover⟩ := hm.left k _ hk
    refine ⟨b, hb, hhash, fun d' hd' => ?_⟩
    rcases hcover d' hd' with hd' | hd'
    · exact .inl hd'
    · rcases List.mem_cons.mp hd' with rfl | hd'
      · exact .inl hholds
      · exact .inr hd'
  case h_2 => cases h

/-- A waiter returns, and its promise goes to the channel `waiting`. -/
theorem finish {k : ℕ} {sync : Synchronizer} (h : m.sync.finish k = some sync) :
    SyncFacts S T { m with sync := sync } := by
  unfold Synchronizer.finish at h
  split at h
  case h_1 stage hash closed hk =>
    cases h
    have hleft := hm.left k _ hk
    refine hm.setWaiter hk rfl rfl rfl (fun d hd => ?_) rfl hleft
      (hm.toWaiterFacts.returns hk rfl rfl rfl rfl)
    rcases List.mem_append.mp hd with hd | hd
    · exact .inl hd
    · obtain rfl := List.mem_singleton.mp hd
      exact .inr fun _ => hleft
  case h_2 => cases h

/-- A waiter gives up, which promises nothing. -/
theorem notified {k : ℕ} {sync : Synchronizer} (h : m.sync.notified k = some sync) :
    SyncFacts S T { m with sync := sync } := by
  unfold Synchronizer.notified at h
  split at h
  case h_1 left stage hash hk =>
    cases h
    have hleft := hm.left k _ hk
    refine hm.setWaiter hk rfl rfl rfl (fun d hd => ?_) rfl hleft
      (hm.toWaiterFacts.returns hk rfl rfl rfl rfl)
    rcases List.mem_append.mp hd with hd | hd
    · exact .inl hd
    · exact .inr fun hne => absurd (List.mem_singleton.mp hd) hne
  case h_2 => cases h

/-- A request gets a waiter, which takes over its promise, or is dropped. -/
theorem runBlock {now : ℤ} {req : SyncBlockMsg} {name : NodeID}
    (hreq : Covered S T m req.consensusBlockHash req.missing) :
    SyncFacts S T { m with sync := (m.sync.runBlock name now req).1 } := by
  have hqueue := hm.toWaiterFacts.runBlock name now req
  unfold Synchronizer.runBlock at hqueue ⊢
  split_ifs at hqueue ⊢ with hp
  · exact hm
  · refine { hm with
      left := fun k w hk => ?_
      toWaiterFacts := hqueue }
    rcases Mealy.getElem?_of_concat hk with hold | ⟨-, rfl⟩
    · exact hm.left k w hold
    · exact hreq

/-- A clean-up tells waiters to give up, and changes nothing else that matters here. -/
theorem runCleanUp {epoch : ℕ} : SyncFacts S T { m with sync := m.sync.runCleanUp epoch } := by
  have hqueue := hm.toWaiterFacts.runCleanUp epoch
  refine { hm with left := fun k w hk => ?_, toWaiterFacts := hqueue }
  -- A closed waiter keeps its promise.
  obtain ⟨w₀, hk₀, rfl⟩ := Option.map_eq_some_iff.mp ((close_waiters m.sync _ k).symm.trans hk)
  have hcover := hm.left k w₀ hk₀
  split_ifs
  · exact hcover
  · exact hcover

/-- A message is taken from `interChan`. -/
theorem runInter {name : NodeID} {now : ℤ} {sync : Synchronizer} {out : List MempoolSend}
    (h : m.sync.runInter name now = some (sync, out)) : SyncFacts S T { m with sync := sync } := by
  have hrest : ∀ {msg : SyncMsg} {rest : List SyncMsg}, m.sync.interChan = msg :: rest →
      SyncFacts S T { m with sync := { m.sync with interChan := rest } } := by
    intro msg rest heq
    refine { hm with inter := fun req hr => hm.inter req ?_ }
    rw [heq]
    exact List.mem_cons_of_mem _ hr
  unfold Synchronizer.runInter at h
  split at h
  case h_1 => cases h
  case h_2 req rest heq =>
    obtain rfl : _ = sync := congrArg Prod.fst (Option.some.inj h)
    exact (hrest heq).runBlock (hm.inter req (heq ▸ List.mem_cons_self))
  case h_3 epoch rest heq =>
    obtain rfl : _ = sync := congrArg Prod.fst (Option.some.inj h)
    exact (hrest heq).runCleanUp

/-- A hash goes on to the loopback channel, unless it is zero. -/
theorem runWaiting {sync : Synchronizer} (h : m.sync.runWaiting = some sync) :
    SyncFacts S T { m with sync := sync } := by
  unfold Synchronizer.runWaiting at h
  split at h
  case h_1 => cases h
  case h_2 block rest heq =>
    have hrest : ∀ d ∈ rest, d ≠ 0 → Covered S T m d [] := fun d hd =>
      hm.waiting d (heq ▸ List.mem_cons_of_mem _ hd)
    split_ifs at h with hzero
    · cases h
      refine { hm with waiting := hrest, loopBack := fun d hd => ?_ }
      rcases List.mem_append.mp hd with hd | hd
      · exact hm.loopBack d hd
      · obtain rfl := List.mem_singleton.mp hd
        exact hm.waiting d (heq ▸ List.mem_cons_self) hzero
    · cases h
      exact { hm with waiting := hrest }

end SyncFacts

/-- The promise holds after every step of the synchronizer and its waiters. -/
theorem SyncFacts.syncStep {now : ℤ} {e : SyncEvent} {out : List MempoolSend} (hm : SyncFacts S T m)
    (h : m.syncStep M now e = some (m', out)) : SyncFacts S T m' := by
  cases e with
  | inter =>
    obtain ⟨⟨sync, out'⟩, hrun, heq⟩ := Option.map_eq_some_iff.mp h
    cases heq
    exact hm.runInter hrun
  | waiting =>
    obtain ⟨sync, hrun, heq⟩ := Option.map_eq_some_iff.mp h
    cases heq
    exact hm.runWaiting hrun
  | tick =>
    cases h
    exact { hm with }
  | ask k =>
    obtain ⟨⟨sync, store⟩, hrun, heq⟩ := Option.map_eq_some_iff.mp h
    cases heq
    exact hm.ask hrun
  | resume k =>
    obtain ⟨sync, hrun, heq⟩ := Option.map_eq_some_iff.mp h
    cases heq
    exact hm.resume hrun
  | finish k =>
    obtain ⟨sync, hrun, heq⟩ := Option.map_eq_some_iff.mp h
    cases heq
    exact hm.finish hrun
  | notified k =>
    obtain ⟨sync, hrun, heq⟩ := Option.map_eq_some_iff.mp h
    cases heq
    exact hm.notified hrun

/-! ## The handlers of the mempool -/

/-- What the mempool does to the store and to its synchronizer while every write succeeds: no key is
lost, what changes under a key is a block of the mempool's, and the promises stay. -/
structure Mempool.Extends (S : Setup) (m m' : Mempool) : Prop where
  holds : ∀ d, m.store.Holds d → m'.store.Holds d
  written : ∀ b ∈ m.written, b ∈ m'.written
  entry : ∀ d, m'.store.db d = m.store.db d ∨
    ∃ b ∈ m'.written, S.blockHash b = d ∧ m'.store.db d = some (.block b)
  facts : ∀ T, SyncFacts S T m → SyncFacts S T m'

namespace Mempool.Extends

theorem refl (S : Setup) (m : Mempool) : Extends S m m where
  holds _ := id
  written _ := id
  entry _ := .inl rfl
  facts _ := id

/-- A change of the queue. -/
theorem queue {queue : Finset Digest} (h : Extends S m m') :
    Extends S m { m' with queue := queue } where
  holds := h.holds
  written := h.written
  entry := h.entry
  facts T hT := { h.facts T hT with }

/-- `StoreBlock`. -/
theorem storeBlock (m : Mempool) (b : Block) : Extends S m (m.storeBlock S true b).mempool where
  holds _ hd := Store.Holds.write hd
  written _ hb := List.mem_append_left _ hb
  entry d := by
    by_cases hd : d = S.blockHash b
    · subst hd
      refine .inr ⟨b, List.mem_append_right _ (List.mem_singleton_self b), rfl, ?_⟩
      exact Function.update_self ..
    · exact .inl (Function.update_of_ne hd ..)
  facts T hT := { hT.write (S.blockHash b) (.block b) with }

/-- `payloadProcess`. -/
theorem payloadProcess (m : Mempool) (b : Block) :
    Extends S m (m.payloadProcess S M true b).mempool := by
  unfold Mempool.payloadProcess
  split_ifs
  · exact .refl S m
  · exact .storeBlock m b

/-- Putting a digest into the queue. -/
theorem enqueue {o : MempoolOutcome} {d : Digest} (h : Extends S m o.mempool) :
    Extends S m (Mempool.enqueue d o).mempool := by
  unfold Mempool.enqueue
  split
  · exact h
  · exact h.queue

/-- The handlers of `Mempool.Run`. -/
theorem handle (m : Mempool) (msg : MempoolMsg) : Extends S m (m.handle S M true msg).mempool := by
  cases msg with
  | ownBlock b =>
    dsimp only [Mempool.handle, Mempool.handleOwnBlock]
    split_ifs
    · exact .refl S m
    · cases b with
      | none => exact .refl S m
      | some b => exact (payloadProcess m b).enqueue
  | otherBlock b =>
    dsimp only [Mempool.handle, Mempool.handleOthorBlock]
    cases b with
    | none => exact .refl S m
    | some b =>
      dsimp only
      split_ifs
      · exact .refl S m
      · exact .refl S m
      · split
        · exact .refl S m
        · exact (storeBlock m b).enqueue
  | requestBlock digests author => exact .refl S m

/-- `HandleMakeBlockMsg`. -/
theorem handleMakeBlockMsg (m : Mempool) (c : MakeChoice) :
    Extends S m (m.handleMakeBlockMsg S M true c).1.mempool := by
  unfold Mempool.handleMakeBlockMsg
  split_ifs
  · have h := payloadProcess (S := S) (M := M) m (newBlock S M m.name c.batch)
    dsimp only
    generalize m.payloadProcess S M true (newBlock S M m.name c.batch) = o at h
    obtain ⟨m', out, _ | e⟩ := o <;> exact h
  · exact (refl S m).queue

/-- `HandleCleanBlock`. -/
theorem handleCleanBlock (m : Mempool) (digests : List Digest) (epoch : ℤ) :
    Extends S m (m.handleCleanBlock digests epoch).mempool where
  holds _ := id
  written _ := id
  entry _ := .inl rfl
  facts T hT := by
    refine { hT with inter := fun req hr => hT.inter req ?_ }
    simpa [Mempool.handleCleanBlock, Synchronizer.cleanup] using hr

/-- The steps of the synchronizer. -/
theorem syncStep {now : ℤ} {e : SyncEvent} {out : List MempoolSend}
    (h : m.syncStep M now e = some (m', out)) : Extends S m m' := by
  have hsame : m'.store.db = m.store.db ∧ m'.written = m.written := by
    cases e with
    | tick =>
      cases h
      exact ⟨rfl, rfl⟩
    | ask k =>
      obtain ⟨⟨sync, store⟩, hask, heq⟩ := Option.map_eq_some_iff.mp h
      cases heq
      refine ⟨?_, rfl⟩
      unfold Synchronizer.ask at hask
      split at hask
      · cases hask
        exact Store.notifyRead_db
      · cases hask
    | inter | waiting | resume _ | finish _ | notified _ =>
      obtain ⟨_, -, heq⟩ := Option.map_eq_some_iff.mp h
      cases heq
      exact ⟨rfl, rfl⟩
  refine ⟨fun d hd => ?_, fun b hb => ?_, fun d => .inl (congrFun hsame.1 d),
    fun T hT => hT.syncStep h⟩
  · rw [Store.Holds, hsame.1]
    exact hd
  · rw [hsame.2]
    exact hb

end Mempool.Extends

end SMVBA
