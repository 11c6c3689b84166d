import SMVBA.Mempool.Availability
import SMVBA.Mempool.Bookkeeping
import SMVBA.Mempool.Origins
import SMVBA.Mempool.Queue

/-!
# What a node does to get its payloads

A waiter whose `NotifyRead` waits in the store's queue sleeps, and only a write of the payload wakes
it. No wake-up is lost: a waiter sleeps only while its payload is absent (`Sleeping`). And nothing
that a waiter still has to read goes without a request: it is among the payloads that the
synchronizer has asked the proposer of the block for (`Asking`).
-/

namespace SMVBA

variable {S : Setup} {M : MempoolSetup} {m m' : Mempool}

/-! ## Waiters that sleep -/

/-- A waiter that sleeps is in the queue of the payload that it waits for, and there are queues only
for absent payloads. -/
structure Sleeping (m : Mempool) : Prop where
  asleep : ∀ (k : ℕ) (w : Waiter), m.sync.waiters[k]? = some w → w.stage = .queued →
    ∃ d, w.left.head? = some d ∧ k ∈ m.store.pending d
  absent : ∀ d, m.store.pending d ≠ [] → ¬ m.store.Holds d

namespace Sleeping

variable (hm : Sleeping m)

include hm

/-- Changes in which nobody goes to sleep. -/
theorem of_store_eq (hstore : m'.store = m.store)
    (hsleep : ∀ (k : ℕ) (w' : Waiter), m'.sync.waiters[k]? = some w' → w'.stage = .queued →
      ∃ w, m.sync.waiters[k]? = some w ∧ w.stage = .queued ∧ w.left = w'.left) : Sleeping m' where
  asleep k w' hk hw := by
    obtain ⟨w, hk', hstage, hleft⟩ := hsleep k w' hk hw
    rw [hstore, ← hleft]
    exact hm.asleep k w hk' hstage
  absent d hd := by
    rw [hstore] at hd ⊢
    exact hm.absent d hd

/-- A change of one waiter, which does not put it to sleep. -/
theorem setWaiter {k : ℕ} {w w' : Waiter} (hk : m.sync.waiters[k]? = some w)
    (hw : m'.sync.waiters = m.sync.waiters.set k w') (hstore : m'.store = m.store)
    (hsleep : w'.stage = .queued → w.stage = .queued ∧ w.left = w'.left) : Sleeping m' := by
  refine hm.of_store_eq hstore fun j v hj hv => ?_
  rcases getElem?_of_set hk (hw ▸ hj) with ⟨rfl, rfl⟩ | hj
  · exact ⟨w, hk, hsleep hv⟩
  · exact ⟨v, hj, hv, rfl⟩

/-- A write wakes everybody who waits for its key. -/
theorem write (key : Digest) (val : Entry) : Sleeping (m.write true key val) := by
  constructor
  · intro k w' hk hw
    obtain ⟨w, hk₀, rfl⟩ := Option.map_eq_some_iff.mp
      ((wake_waiters m.sync (m.store.pending key) k).symm.trans hk)
    split_ifs at hw ⊢ with hq
    · cases hw
    · obtain ⟨d, hhead, hmem⟩ := hm.asleep k w hk₀ hw
      refine ⟨d, hhead, ?_⟩
      have hne : d ≠ key := fun heq => hq (heq ▸ hmem)
      show k ∈ Function.update m.store.pending key [] d
      rwa [Function.update_of_ne hne]
  · intro d hd
    have hpending : Function.update m.store.pending key [] d ≠ [] := hd
    have hne : d ≠ key := by
      rintro rfl
      exact hpending (Function.update_self ..)
    rw [Function.update_of_ne hne] at hpending
    have hdb : (m.write true key val).store.db d = m.store.db d := Store.write_db_of_ne hne
    rw [Store.Holds, hdb]
    exact hm.absent d hpending

/-- A waiter that asks for a payload goes to sleep only if the payload is absent. -/
theorem ask {k : ℕ} {sync : Synchronizer} {store : Store Digest Entry ℕ}
    (h : m.sync.ask m.store k = some (sync, store)) :
    Sleeping { m with sync := sync, store := store } := by
  unfold Synchronizer.ask at h
  split at h
  case h_1 d left hash closed returned hk =>
    by_cases hheld : m.store.Holds d
    · have hread : m.store.notifyRead d k = (m.store, true) := if_pos hheld
      rw [hread] at h
      cases h
      exact hm.setWaiter hk rfl rfl (by simp)
    · have hread : m.store.notifyRead d k = (⟨m.store.db,
        Function.update m.store.pending d (m.store.pending d ++ [k])⟩, false) := if_neg hheld
      rw [hread] at h
      cases h
      refine ⟨fun j w' hj hw' => ?_, fun d' hd' => ?_⟩
      · rcases getElem?_of_set hk hj with ⟨rfl, rfl⟩ | hj
        · exact ⟨d, rfl, by simp⟩
        · obtain ⟨d', hhead, hmem⟩ := hm.asleep j w' hj hw'
          refine ⟨d', hhead, ?_⟩
          show j ∈ Function.update m.store.pending d (m.store.pending d ++ [k]) d'
          by_cases hd : d' = d
          · subst hd
            rw [Function.update_self]
            exact List.mem_append_left _ hmem
          · rwa [Function.update_of_ne hd]
      · by_cases hd : d' = d
        · subst hd
          exact hheld
        · have hold : Function.update m.store.pending d (m.store.pending d ++ [k]) d' ≠ [] := hd'
          rw [Function.update_of_ne hd] at hold
          exact hm.absent d' hold
  case h_2 => cases h

/-- The steps of the synchronizer and its waiters. -/
theorem syncStep {now : ℤ} {e : SyncEvent} {out : List MempoolSend}
    (h : m.syncStep M now e = some (m', out)) : Sleeping m' := by
  cases e with
  | inter =>
    obtain ⟨⟨sync, out'⟩, hrun, heq⟩ := Option.map_eq_some_iff.mp h
    cases heq
    unfold Synchronizer.runInter at hrun
    split at hrun
    case h_1 => cases hrun
    case h_2 req rest hchan =>
      unfold Synchronizer.runBlock at hrun
      split_ifs at hrun
      · cases hrun
        exact hm.of_store_eq rfl fun k w hk hw => ⟨w, hk, hw, rfl⟩
      · cases hrun
        refine hm.of_store_eq rfl fun k w hk hw => ?_
        rcases Mealy.getElem?_of_concat hk with hold | ⟨-, rfl⟩
        · exact ⟨w, hold, hw, rfl⟩
        · cases hw
    case h_3 epoch rest hchan =>
      cases hrun
      refine hm.of_store_eq rfl fun k w hk hw => ?_
      obtain ⟨w₀, hk₀, rfl⟩ := Option.map_eq_some_iff.mp ((close_waiters _ _ k).symm.trans hk)
      refine ⟨w₀, hk₀, ?_, ?_⟩
      · split_ifs at hw <;> exact hw
      · split_ifs <;> rfl
  | waiting =>
    obtain ⟨sync, hrun, heq⟩ := Option.map_eq_some_iff.mp h
    cases heq
    unfold Synchronizer.runWaiting at hrun
    split at hrun
    case h_1 => cases hrun
    case h_2 =>
      split_ifs at hrun <;> cases hrun <;>
        exact hm.of_store_eq rfl fun k w hk hw => ⟨w, hk, hw, rfl⟩
  | tick =>
    cases h
    exact hm.of_store_eq rfl fun k w hk hw => ⟨w, hk, hw, rfl⟩
  | ask k =>
    obtain ⟨⟨sync, store⟩, hask, heq⟩ := Option.map_eq_some_iff.mp h
    cases heq
    exact hm.ask hask
  | resume k =>
    obtain ⟨sync, hrun, heq⟩ := Option.map_eq_some_iff.mp h
    cases heq
    unfold Synchronizer.resume at hrun
    split at hrun
    case h_1 hk =>
      cases hrun
      exact hm.setWaiter hk rfl rfl (by simp)
    case h_2 => cases hrun
  | finish k =>
    obtain ⟨sync, hrun, heq⟩ := Option.map_eq_some_iff.mp h
    cases heq
    unfold Synchronizer.finish at hrun
    split at hrun
    case h_1 hk =>
      cases hrun
      exact hm.setWaiter hk rfl rfl fun hw => ⟨hw, rfl⟩
    case h_2 => cases hrun
  | notified k =>
    obtain ⟨sync, hrun, heq⟩ := Option.map_eq_some_iff.mp h
    cases heq
    unfold Synchronizer.notified at hrun
    split at hrun
    case h_1 hk =>
      cases hrun
      exact hm.setWaiter hk rfl rfl fun hw => ⟨hw, rfl⟩
    case h_2 => cases hrun

end Sleeping

/-! ## The handlers of the mempool -/

/-- What a waiter has to read, with the hash of the block that it does it for. -/
def Waiter.reads (w : Waiter) : Digest × List Digest := (w.blockHash, w.left)

/-- What all waiters have to read. -/
def Mempool.reading (m : Mempool) : List (Digest × List Digest) := m.sync.waiters.map Waiter.reads

/-- Changes of the waiters that leave what they have to read. -/
theorem reading_eq {g : ℕ → Waiter → Waiter} (hg : ∀ k w, (g k w).reads = w.reads)
    (h : ∀ k, m'.sync.waiters[k]? = (m.sync.waiters[k]?).map (g k)) : m'.reading = m.reading := by
  refine List.ext_getElem? fun k => ?_
  unfold Mempool.reading
  rw [List.getElem?_map, List.getElem?_map, h, Option.map_map]
  exact congrArg (Option.map · _) (funext fun w => hg k w)

/-- What the mempool has written is in its store. -/
def Mempool.Kept (S : Setup) (m : Mempool) : Prop :=
  ∀ b ∈ m.written, m.store.Holds (S.blockHash b)

/-- What the handlers of the mempool leave of the synchronizer: they write to the store, which wakes
waiters, and nothing else. -/
structure Mempool.Stores (S : Setup) (m m' : Mempool) : Prop where
  name : m'.name = m.name
  interChan : m'.sync.interChan = m.sync.interChan
  pending : m'.sync.pending = m.sync.pending
  reading : m'.reading = m.reading
  sleeping : Sleeping m → Sleeping m'
  kept : m.Kept S → m'.Kept S

namespace Mempool.Stores

/-- Changes of the queue. -/
theorem of_eq (hname : m'.name = m.name) (hstore : m'.store = m.store) (hsync : m'.sync = m.sync)
    (hwritten : m'.written = m.written) : Stores S m m' where
  name := hname
  interChan := by rw [hsync]
  pending := by rw [hsync]
  reading := by
    unfold Mempool.reading
    rw [hsync]
  sleeping hm := hm.of_store_eq hstore fun _ w hk hw => ⟨w, hsync ▸ hk, hw, rfl⟩
  kept hm b hb := by
    rw [hstore]
    exact hm b (hwritten ▸ hb)

theorem trans {m'' : Mempool} (h : Stores S m m') (h' : Stores S m' m'') : Stores S m m'' where
  name := h'.name.trans h.name
  interChan := h'.interChan.trans h.interChan
  pending := h'.pending.trans h.pending
  reading := h'.reading.trans h.reading
  sleeping hm := h'.sleeping (h.sleeping hm)
  kept hm := h'.kept (h.kept hm)

theorem write (S : Setup) (m : Mempool) (key : Digest) (val : Entry) :
    Stores S m (m.write true key val) where
  name := rfl
  interChan := rfl
  pending := rfl
  reading := by
    refine reading_eq (fun k w => ?_) (wake_waiters m.sync (m.store.pending key))
    split_ifs <;> rfl
  sleeping hm := hm.write key val
  kept hm b hb := Store.Holds.write (hm b hb)

/-- The core's own write. -/
theorem putBlock (S : Setup) (m : Mempool) (o : Option ConsensusBlock) :
    Stores S m (m.putBlock S true o) := by
  cases o with
  | none => exact .of_eq rfl rfl rfl rfl
  | some b => exact write S m _ _

/-- A payload is written, and put on record. -/
theorem storeBlock (m : Mempool) (b : Block) : Stores S m (m.storeBlock S true b).mempool := by
  have hwrite := write S m (S.blockHash b) (.block b)
  refine ⟨hwrite.name, hwrite.interChan, hwrite.pending, hwrite.reading,
    fun hm => (hwrite.sleeping hm).of_store_eq rfl fun _ w hk hw => ⟨w, hk, hw, rfl⟩,
    fun hm b' hb' => ?_⟩
  rcases List.mem_append.mp hb' with hold | hnew
  · exact hwrite.kept hm b' hold
  · obtain rfl := List.mem_singleton.mp hnew
    exact Store.holds_write_self rfl

theorem payloadProcess (m : Mempool) (b : Block) :
    Stores S m (m.payloadProcess S M true b).mempool := by
  unfold Mempool.payloadProcess
  split_ifs
  · exact .of_eq rfl rfl rfl rfl
  · exact storeBlock m b

theorem enqueue {o : MempoolOutcome} {d : Digest} (h : Stores S m o.mempool) :
    Stores S m (Mempool.enqueue d o).mempool := by
  unfold Mempool.enqueue
  split
  · exact h
  · exact h.trans (.of_eq rfl rfl rfl rfl)

theorem handle (m : Mempool) (msg : MempoolMsg) : Stores S m (m.handle S M true msg).mempool := by
  cases msg with
  | ownBlock b =>
    dsimp only [Mempool.handle, Mempool.handleOwnBlock]
    split_ifs
    · exact .of_eq rfl rfl rfl rfl
    · cases b with
      | none => exact .of_eq rfl rfl rfl rfl
      | some b => exact (payloadProcess m b).enqueue
  | otherBlock b =>
    dsimp only [Mempool.handle, Mempool.handleOthorBlock]
    cases b with
    | none => exact .of_eq rfl rfl rfl rfl
    | some b =>
      dsimp only
      split_ifs
      · exact .of_eq rfl rfl rfl rfl
      · exact .of_eq rfl rfl rfl rfl
      · split
        · exact .of_eq rfl rfl rfl rfl
        · exact (storeBlock m b).enqueue
  | requestBlock digests author => exact .of_eq rfl rfl rfl rfl

theorem handleMakeBlockMsg (m : Mempool) (c : MakeChoice) :
    Stores S m (m.handleMakeBlockMsg S M true c).1.mempool := by
  unfold Mempool.handleMakeBlockMsg
  split_ifs
  · have h := payloadProcess (S := S) (M := M) m (newBlock S M m.name c.batch)
    dsimp only
    generalize m.payloadProcess S M true (newBlock S M m.name c.batch) = o at h
    obtain ⟨m', out, _ | e⟩ := o <;> exact h
  · exact .of_eq rfl rfl rfl rfl

end Mempool.Stores

theorem Mempool.syncStep_name {now : ℤ} {e : SyncEvent} {out : List MempoolSend}
    (h : m.syncStep M now e = some (m', out)) : m'.name = m.name := by
  cases e with
  | tick =>
    cases h
    rfl
  | inter | ask k =>
    obtain ⟨⟨_, _⟩, -, heq⟩ := Option.map_eq_some_iff.mp h
    cases heq
    rfl
  | waiting | resume k | finish k | notified k =>
    obtain ⟨_, -, heq⟩ := Option.map_eq_some_iff.mp h
    cases heq
    rfl

/-- There is no request among the messages. -/
def NoRequest (sends : List MempoolSend) : Prop :=
  ∀ s ∈ sends, ∀ ds author, s.msg ≠ .requestBlock ds author

namespace Mempool

theorem noRequest_handle (S : Setup) (M : MempoolSetup) (m : Mempool) (putOk : Bool)
    (msg : MempoolMsg) : NoRequest (m.handle S M putOk msg).out := by
  cases msg with
  | ownBlock b =>
    cases b with
    | none =>
      dsimp only [Mempool.handle, Mempool.handleOwnBlock]
      split_ifs <;> simp [NoRequest]
    | some b =>
      rcases m.handleOwnBlock_cases S M putOk b with ⟨-, -, -, hout, -⟩ | ⟨-, hout, -⟩
      · simp [Mempool.handle, hout, NoRequest]
      · simp [Mempool.handle, hout, NoRequest]
  | otherBlock b =>
    cases b with
    | none => simp [Mempool.handle, Mempool.handleOthorBlock, NoRequest]
    | some b =>
      rcases m.handleOthorBlock_cases S M putOk b with ⟨-, -, -, -, -, hout, -⟩ | ⟨-, hout, -⟩
      · simp [Mempool.handle, hout, NoRequest]
      · simp [Mempool.handle, hout, NoRequest]
  | requestBlock digests author =>
    show NoRequest (m.serve S author digests).1
    induction digests with
    | nil => simp [serve, NoRequest]
    | cons d rest ih =>
      intro s hs
      unfold serve at hs
      cases hget : m.getBlock S d with
      | error e => simp [hget] at hs
      | ok found =>
        simp only [hget, List.mem_cons] at hs
        rcases hs with rfl | hs
        · simp
        · exact ih s hs

theorem noRequest_made {c : MakeChoice} {sends : List MempoolSend} {ds : List Digest}
    (h : Made S M m c m' sends ds) : NoRequest sends := by
  cases h with
  | new | failed | queued => simp [NoRequest]

end Mempool

/-! ## Requests -/

/-- The books of a synchronizer, over what the core has let out and what the mempool has sent. -/
structure Asking (out : List Output) (sends : List MempoolSend) (m : Mempool) : Prop where
  /-- What is on `interChan` was asked for. -/
  inter : ∀ req, .block req ∈ m.sync.interChan → .sync req ∈ out
  /-- A block that was asked for is on `interChan` or has got a waiter. -/
  asked : ∀ req, .sync req ∈ out → .block req ∈ m.sync.interChan ∨
    ∃ r ∈ m.reading, r.1 = req.consensusBlockHash
  pending : ∀ h, (m.sync.pending.lookup h).isSome = true → ∃ r ∈ m.reading, r.1 = h
  /-- What a waiter has to read, the proposer was asked for. -/
  reading : ∀ r ∈ m.reading, ∃ req, .sync req ∈ out ∧
    ⟨req.author, .requestBlock req.missing m.name⟩ ∈ sends ∧ ∀ d ∈ r.2, d ∈ req.missing
  /-- Requests to one node are those of blocks. -/
  direct : ∀ s ∈ sends, s.dst ≠ NONE → ∀ ds author, s.msg = .requestBlock ds author →
    ∃ req, .sync req ∈ out ∧ req.author = s.dst ∧ req.missing = ds

/-- Erasing adds no entry. -/
theorem lookup_foldl_erase {l : List (Sigma fun _ : Digest => SyncEntry)}
    {s : AList fun _ : Digest => SyncEntry} {h : Digest}
    (hh : ((l.foldl (fun s e => s.erase e.1) s).lookup h).isSome = true) :
    (s.lookup h).isSome = true := by
  induction l generalizing s with
  | nil => exact hh
  | cons e l ih =>
    have herase := ih hh
    rw [AList.lookup_isSome, AList.mem_erase] at herase
    exact AList.lookup_isSome.mpr herase.2

namespace Asking

variable {out : List Output} {sends new : List MempoolSend}

theorem init (name : NodeID) : Asking [] [] { name := name } := by
  constructor <;> simp [Mempool.reading]

variable (hm : Asking out sends m)

include hm

/-- Steps in which no request is registered. -/
theorem mono (hname : m'.name = m.name)
    (hinter : ∀ req, .block req ∈ m'.sync.interChan → .block req ∈ m.sync.interChan)
    (hgone : ∀ req, .block req ∈ m.sync.interChan → .block req ∈ m'.sync.interChan ∨
      ∃ r ∈ m.reading, r.1 = req.consensusBlockHash)
    (hpending : ∀ h, (m'.sync.pending.lookup h).isSome = true →
      (m.sync.pending.lookup h).isSome = true)
    (hkeep : ∀ r ∈ m.reading, ∃ r' ∈ m'.reading, r'.1 = r.1)
    (hfrom : ∀ r' ∈ m'.reading, ∃ r ∈ m.reading, ∀ d ∈ r'.2, d ∈ r.2)
    (hnew : ∀ s ∈ new, ∀ ds author, s.msg = .requestBlock ds author → s.dst = NONE) :
    Asking out (sends ++ new) m' := by
  have hreads : ∀ {h : Digest}, (∃ r ∈ m.reading, r.1 = h) → ∃ r' ∈ m'.reading, r'.1 = h := by
    rintro h ⟨r, hr, rfl⟩
    exact hkeep r hr
  constructor
  · exact fun req hreq => hm.inter req (hinter req hreq)
  · intro req hreq
    rcases hm.asked req hreq with hchan | hread
    · exact (hgone req hchan).imp_right hreads
    · exact .inr (hreads hread)
  · exact fun h hh => hreads (hm.pending h (hpending h hh))
  · intro r' hr'
    obtain ⟨r, hr, hsub⟩ := hfrom r' hr'
    obtain ⟨req, hreq, hsent, hmissing⟩ := hm.reading r hr
    refine ⟨req, hreq, ?_, fun d hd => hmissing d (hsub d hd)⟩
    rw [hname]
    exact List.mem_append_left _ hsent
  · intro s hs hdst ds author hmsg
    rcases List.mem_append.mp hs with hold | hnew'
    · exact hm.direct s hold hdst ds author hmsg
    · exact absurd (hnew s hnew' ds author hmsg) hdst

/-- What the handlers of the mempool do. -/
theorem stores (h : m.Stores S m') (hnew : NoRequest new) : Asking out (sends ++ new) m' := by
  refine hm.mono h.name (fun req hreq => h.interChan ▸ hreq)
    (fun req hreq => .inl (h.interChan ▸ hreq)) (fun d hd => h.pending ▸ hd)
    (fun r hr => ⟨r, h.reading ▸ hr, rfl⟩)
    (fun r hr => ⟨r, h.reading ▸ hr, fun _ => id⟩) fun s hs ds author hmsg => ?_
  exact absurd hmsg (hnew s hs ds author)

/-- A waiter goes on. -/
theorem setWaiter {k : ℕ} {w w' : Waiter} (hk : m.sync.waiters[k]? = some w)
    (hw : m'.sync.waiters = m.sync.waiters.set k w') (hname : m'.name = m.name)
    (hinter : m'.sync.interChan = m.sync.interChan) (hpending : m'.sync.pending = m.sync.pending)
    (hhash : w'.blockHash = w.blockHash) (hleft : ∀ d ∈ w'.left, d ∈ w.left) :
    Asking out (sends ++ []) m' := by
  have hlt : k < m.sync.waiters.length := (List.getElem?_eq_some_iff.mp hk).1
  refine hm.mono hname (fun req hreq => hinter ▸ hreq) (fun req hreq => .inl (hinter ▸ hreq))
    (fun d hd => hpending ▸ hd) (fun r hr => ?_) (fun r hr => ?_) (by simp)
  · obtain ⟨v, hv, rfl⟩ := List.mem_map.mp hr
    obtain ⟨j, hj⟩ := List.mem_iff_getElem?.mp hv
    by_cases hjk : k = j
    · subst hjk
      obtain rfl : w = v := Option.some.inj (hk.symm.trans hj)
      refine ⟨w'.reads, List.mem_map_of_mem ?_, hhash⟩
      rw [hw]
      exact List.mem_of_getElem? (List.getElem?_set_self hlt)
    · refine ⟨v.reads, List.mem_map_of_mem ?_, rfl⟩
      rw [hw]
      exact List.mem_of_getElem? ((List.getElem?_set_ne hjk).trans hj)
  · obtain ⟨v, hv, rfl⟩ := List.mem_map.mp hr
    obtain ⟨j, hj⟩ := List.mem_iff_getElem?.mp (hw ▸ hv)
    rcases getElem?_of_set hk hj with ⟨rfl, rfl⟩ | hj
    · exact ⟨w.reads, List.mem_map_of_mem (List.mem_of_getElem? hk), hleft⟩
    · exact ⟨v.reads, List.mem_map_of_mem (List.mem_of_getElem? hj), fun _ => id⟩

/-- `Run` registers a request and asks the proposer. -/
theorem register {req : SyncBlockMsg} {rest : List SyncMsg} {w : Waiter}
    {pending : AList fun _ : Digest => SyncEntry}
    (hchan : m.sync.interChan = .block req :: rest)
    (hw : w.reads = (req.consensusBlockHash, req.missing))
    (hpending : ∀ h, (pending.lookup h).isSome = true →
      (m.sync.pending.lookup h).isSome = true ∨ h = req.consensusBlockHash) :
    Asking out (sends ++ [⟨req.author, .requestBlock req.missing m.name⟩])
      { m with sync := { m.sync with
        interChan := rest
        waiters := m.sync.waiters ++ [w]
        pending := pending } } := by
  have hreq : .sync req ∈ out := hm.inter req (hchan ▸ List.mem_cons_self)
  have hreading : (m.sync.waiters ++ [w]).map Waiter.reads =
      m.reading ++ [(req.consensusBlockHash, req.missing)] := by
    rw [List.map_append, List.map_singleton, hw]
    rfl
  have hreads : ∀ {h : Digest}, (∃ r ∈ m.reading, r.1 = h) ∨ h = req.consensusBlockHash →
      ∃ r ∈ m.reading ++ [(req.consensusBlockHash, req.missing)], r.1 = h := by
    rintro h (⟨r, hr, hh⟩ | rfl)
    · exact ⟨r, List.mem_append_left _ hr, hh⟩
    · exact ⟨_, List.mem_append_right _ (List.mem_singleton_self _), rfl⟩
  constructor
  · exact fun req' hreq' => hm.inter req' (hchan ▸ List.mem_cons_of_mem _ hreq')
  · intro req' hreq'
    unfold Mempool.reading
    rw [hreading]
    rcases hm.asked req' hreq' with hin | hread
    · rw [hchan] at hin
      rcases List.mem_cons.mp hin with heq | hin
      · cases heq
        exact .inr (hreads (.inr rfl))
      · exact .inl hin
    · exact .inr (hreads (.inl hread))
  · intro h hh
    unfold Mempool.reading
    rw [hreading]
    exact hreads ((hpending h hh).imp_left (hm.pending h))
  · intro r hr
    unfold Mempool.reading at hr
    rw [hreading] at hr
    rcases List.mem_append.mp hr with hold | hnew
    · obtain ⟨req', hreq', hsent, hmissing⟩ := hm.reading r hold
      exact ⟨req', hreq', List.mem_append_left _ hsent, hmissing⟩
    · obtain rfl := List.mem_singleton.mp hnew
      exact ⟨req, hreq, List.mem_append_right _ (List.mem_singleton_self _), fun _ => id⟩
  · intro s hs hdst ds author hmsg
    rcases List.mem_append.mp hs with hold | hnew
    · exact hm.direct s hold hdst ds author hmsg
    · obtain rfl := List.mem_singleton.mp hnew
      cases hmsg
      exact ⟨req, hreq, rfl, rfl⟩

/-- `Run` takes a message from `interChan`. -/
theorem runInter {now : ℤ} {sync : Synchronizer}
    (h : m.sync.runInter m.name now = some (sync, new)) :
    Asking out (sends ++ new) { m with sync := sync } := by
  unfold Synchronizer.runInter at h
  split at h
  case h_1 => cases h
  case h_2 req rest hchan =>
    unfold Synchronizer.runBlock at h
    split_ifs at h with hp
    · -- A request for the hash is under way.
      cases h
      refine hm.mono rfl (fun req' hreq' => hchan ▸ List.mem_cons_of_mem _ hreq')
        (fun req' hreq' => ?_) (fun _ => id) (fun r hr => ⟨r, hr, rfl⟩)
        (fun r hr => ⟨r, hr, fun _ => id⟩) (by simp)
      rw [hchan] at hreq'
      rcases List.mem_cons.mp hreq' with heq | hin
      · cases heq
        exact .inr (hm.pending _ hp)
      · exact .inl hin
    · cases h
      refine hm.register hchan rfl fun d hd => ?_
      rw [AList.lookup_isSome, AList.mem_insert] at hd
      rw [AList.lookup_isSome]
      exact hd.symm
  case h_3 epoch rest hchan =>
    cases h
    -- A clean-up drops entries and closes channels.
    have hreading : ({ m with sync := .runCleanUp { m.sync with interChan := rest } epoch } :
        Mempool).reading = m.reading := by
      refine reading_eq (fun k w => ?_) (close_waiters _ _)
      split_ifs <;> rfl
    refine hm.mono rfl (fun req' hreq' => hchan ▸ List.mem_cons_of_mem _ hreq')
      (fun req' hreq' => ?_) (fun d hd => lookup_foldl_erase hd)
      (fun r hr => ⟨r, hreading.symm ▸ hr, rfl⟩) (fun r hr => ⟨r, hreading ▸ hr, fun _ => id⟩)
      (by simp)
    rw [hchan] at hreq'
    rcases List.mem_cons.mp hreq' with heq | hin
    · cases heq
    · exact .inl hin

/-- The steps of the synchronizer and its waiters. -/
theorem syncStep {now : ℤ} {e : SyncEvent} (h : m.syncStep M now e = some (m', new)) :
    Asking out (sends ++ new) m' := by
  cases e with
  | inter =>
    obtain ⟨⟨sync, out'⟩, hrun, heq⟩ := Option.map_eq_some_iff.mp h
    cases heq
    exact hm.runInter hrun
  | waiting =>
    obtain ⟨sync, hrun, heq⟩ := Option.map_eq_some_iff.mp h
    cases heq
    unfold Synchronizer.runWaiting at hrun
    split at hrun
    case h_1 => cases hrun
    case h_2 block rest hchan =>
      split_ifs at hrun
      · cases hrun
        refine hm.mono rfl (fun _ => id) (fun _ => .inl) (fun d hd => ?_)
          (fun r hr => ⟨r, hr, rfl⟩) (fun r hr => ⟨r, hr, fun _ => id⟩) (by simp)
        rw [AList.lookup_isSome, AList.mem_erase] at hd
        exact AList.lookup_isSome.mpr hd.2
      · cases hrun
        exact hm.mono rfl (fun _ => id) (fun _ => .inl) (fun _ => id)
          (fun r hr => ⟨r, hr, rfl⟩) (fun r hr => ⟨r, hr, fun _ => id⟩) (by simp)
  | tick =>
    cases h
    refine hm.mono rfl (fun _ => id) (fun _ => .inl) (fun d hd => ?_)
      (fun r hr => ⟨r, hr, rfl⟩) (fun r hr => ⟨r, hr, fun _ => id⟩) fun s hs ds author _ => ?_
    · have hinsert := mem_foldl_insert (s := m.sync.pending) (h := d)
        (fun entry => { entry with lastSend := now })
        (l := m.sync.pending.entries.filter fun e => now - e.2.lastSend > M.syncRetryDelay)
        fun e he => List.mem_map_of_mem (List.mem_of_mem_filter he)
      exact AList.lookup_isSome.mpr (hinsert.mp (AList.lookup_isSome.mp hd))
    · obtain ⟨entry, -, rfl⟩ := List.mem_map.mp hs
      rfl
  | ask k =>
    obtain ⟨⟨sync, store⟩, hask, heq⟩ := Option.map_eq_some_iff.mp h
    cases heq
    unfold Synchronizer.ask at hask
    split at hask
    case h_1 hk =>
      cases hask
      exact hm.setWaiter hk rfl rfl rfl rfl rfl fun _ => id
    case h_2 => cases hask
  | resume k =>
    obtain ⟨sync, hrun, heq⟩ := Option.map_eq_some_iff.mp h
    cases heq
    unfold Synchronizer.resume at hrun
    split at hrun
    case h_1 hk =>
      cases hrun
      exact hm.setWaiter hk rfl rfl rfl rfl rfl fun _ => List.mem_cons_of_mem _
    case h_2 => cases hrun
  | finish k =>
    obtain ⟨sync, hrun, heq⟩ := Option.map_eq_some_iff.mp h
    cases heq
    unfold Synchronizer.finish at hrun
    split at hrun
    case h_1 hk =>
      cases hrun
      exact hm.setWaiter hk rfl rfl rfl rfl rfl fun _ => id
    case h_2 => cases hrun
  | notified k =>
    obtain ⟨sync, hrun, heq⟩ := Option.map_eq_some_iff.mp h
    cases heq
    unfold Synchronizer.notified at hrun
    split at hrun
    case h_1 hk =>
      cases hrun
      exact hm.setWaiter hk rfl rfl rfl rfl rfl fun _ => id
    case h_2 => cases hrun

/-- The core asks for more. -/
theorem requests (outs : List Output) (loopBackChan : List Digest) :
    Asking (out ++ outs) sends { m with sync := { m.sync with
      interChan := m.sync.interChan ++ outs.filterMap Output.sync?
      loopBackChan := loopBackChan } } where
  inter req hreq := by
    rcases List.mem_append.mp hreq with hold | hnew
    · exact List.mem_append_left _ (hm.inter req hold)
    · obtain ⟨o, ho, heq⟩ := List.mem_filterMap.mp hnew
      cases o with
      | sync req' =>
        obtain rfl : req' = req := by simpa [Output.sync?] using heq
        exact List.mem_append_right _ ho
      | _ => cases heq
  asked req hreq := by
    rcases List.mem_append.mp hreq with hold | hnew
    · exact (hm.asked req hold).imp_left (List.mem_append_left _)
    · exact .inl (List.mem_append_right _ (List.mem_filterMap.mpr ⟨_, hnew, rfl⟩))
  pending := hm.pending
  reading r hr := by
    obtain ⟨req, hreq, hsent, hmissing⟩ := hm.reading r hr
    exact ⟨req, List.mem_append_left _ hreq, hsent, hmissing⟩
  direct s hs hdst ds author hmsg := by
    obtain ⟨req, hreq, hauthor, hmissing⟩ := hm.direct s hs hdst ds author hmsg
    exact ⟨req, List.mem_append_left _ hreq, hauthor, hmissing⟩

end Asking

/-! ## At rest -/

/-- The synchronizer and its waiters have nothing to do. Only the ticker goes on. -/
def Mempool.AtRest (M : MempoolSetup) (m : Mempool) : Prop :=
  ∀ now e, e ≠ .tick → m.syncStep M now e = none

namespace Mempool.AtRest

/-- A synchronizer whose channels are empty and whose waiters have read everything is at rest. -/
theorem of_returned (hinter : m.sync.interChan = []) (hwaiting : m.sync.waiting = [])
    (hdone : ∀ w ∈ m.sync.waiters, w.left = [] ∧ w.returned = true) : m.AtRest M := by
  have hwaiter : ∀ {k : ℕ} {w : Waiter}, m.sync.waiters[k]? = some w →
      w.left = [] ∧ w.returned = true := fun hk => hdone _ (List.mem_of_getElem? hk)
  intro now e he
  cases e with
  | inter => simp [syncStep, Synchronizer.runInter, hinter]
  | waiting => simp [syncStep, Synchronizer.runWaiting, hwaiting]
  | tick => exact absurd rfl he
  | ask k | resume k | finish k | notified k =>
    refine Option.map_eq_none_iff.mpr ?_
    simp only [Synchronizer.ask, Synchronizer.resume, Synchronizer.finish, Synchronizer.notified]
    split
    case h_1 hk => simpa using hwaiter hk
    case h_2 => rfl

variable (hrest : m.AtRest M)

include hrest

theorem interChan_eq_nil : m.sync.interChan = [] := by
  have hnone : (m.sync.runInter m.name 0).isNone = true := by
    have := hrest 0 .inter (by simp)
    simpa [syncStep] using this
  unfold Synchronizer.runInter at hnone
  split at hnone
  case h_1 hchan => exact hchan
  case h_2 | h_3 => cases hnone

/-- Every waiter has returned, if all that is left to read is there: it has read everything, or it
would sleep for a payload that is there. -/
theorem returned (hsleep : Sleeping m) (hheld : ∀ r ∈ m.reading, ∀ d ∈ r.2, m.store.Holds d) :
    ∀ w ∈ m.sync.waiters, w.returned = true := by
  intro w hw
  obtain ⟨k, hk⟩ := List.mem_iff_getElem?.mp hw
  obtain ⟨left, stage, h, closed, returned⟩ := w
  cases left with
  | nil =>
    have hfinish := hrest 0 (.finish k) (by simp)
    simp only [syncStep, Synchronizer.finish, hk, Option.map_eq_none_iff] at hfinish
    cases returned with
    | true => rfl
    | false => simp at hfinish
  | cons d left =>
    have hd : m.store.Holds d :=
      hheld _ (List.mem_map_of_mem hw) d List.mem_cons_self
    cases stage with
    | idle =>
      have hask := hrest 0 (.ask k) (by simp)
      simp [syncStep, Synchronizer.ask, hk] at hask
    | answered =>
      have hresume := hrest 0 (.resume k) (by simp)
      simp [syncStep, Synchronizer.resume, hk] at hresume
    | queued =>
      obtain ⟨d', hhead, hmem⟩ := hsleep.asleep k _ hk rfl
      obtain rfl : d = d' := by simpa using hhead
      exact absurd hd (hsleep.absent d (List.ne_nil_of_mem hmem))

/-- Every block that was asked for has its payloads. -/
theorem fetched {out : List Output} {sends : List MempoolSend} {T : ConsensusBlock → Prop}
    (hm : Asking out sends m) (hsync : SyncFacts S T m)
    (hheld : ∀ r ∈ m.reading, ∀ d ∈ r.2, m.store.Holds d) {req : SyncBlockMsg}
    (hreq : .sync req ∈ out) :
    ∃ b, T b ∧ S.hash b = req.consensusBlockHash ∧ ∀ d ∈ b.payLoads, m.store.Holds d := by
  rcases hm.asked req hreq with hchan | ⟨r, hr, hhash⟩
  · rw [hrest.interChan_eq_nil] at hchan
    cases hchan
  · obtain ⟨w, hw, rfl⟩ := List.mem_map.mp hr
    obtain ⟨k, hk⟩ := List.mem_iff_getElem?.mp hw
    obtain ⟨b, hb, hbhash, hcovered⟩ := hsync.left k w hk
    refine ⟨b, hb, hbhash.trans hhash, fun d hd => ?_⟩
    rcases hcovered d hd with hold | hleft
    · exact hold
    · exact hheld _ hr d hleft

end Mempool.AtRest

/-! ## Replicas -/

/-- What a replica relies on to get its payloads, over what its mempool has sent. -/
structure Replica.Fetching (S : Setup) (name : NodeID) (sends : List MempoolSend) (r : Replica) :
    Prop where
  name : r.mempool.name = name
  kept : r.mempool.Kept S
  sleeping : Sleeping r.mempool
  asking : Asking r.hist.out sends r.mempool

theorem Replica.Fetching.init (S : Setup) (name : NodeID) :
    Replica.Fetching S name [] (.init name) where
  name := rfl
  kept := by simp [Mempool.Kept, Replica.init]
  sleeping := by constructor <;> simp [Replica.init]
  asking := .init name

section Replicas

variable {w : Surroundings} {r r' : Replica} {i : ReplicaInput} {outs : List Output}
  {sends new : List MempoolSend} {name : NodeID}

/-- A step of the core: the mempool may make a payload, the core writes, and asks. -/
theorem Replica.Fetching.consensusStep {i : Input} (hput : w.putOk = true)
    (h : r.consensusStep S M w i = some (r', outs, new)) (hr : r.Fetching S name sends) :
    r'.Fetching S name (sends ++ new) := by
  unfold Replica.consensusStep at h
  split_ifs at h
  dsimp only at h
  split at h
  case h_1 => cases h
  case h_2 y outs' hstep =>
    cases h
    -- The mempool of which the core has got payloads, if it has asked for any.
    have hmade : ∃ made, r.mempool.Stores S made ∧
        (if outs.any Output.isCreate = true then
          (r.mempool.handleMakeBlockMsg S M w.putOk w.make).1.mempool else r.mempool) = made ∧
        NoRequest (if outs.any Output.isCreate = true then
          (r.mempool.handleMakeBlockMsg S M w.putOk w.make).1.out else []) := by
      rw [hput]
      split_ifs
      · exact ⟨_, .handleMakeBlockMsg r.mempool w.make, rfl,
          Mempool.noRequest_made (Mempool.handleMakeBlockMsg_made S M r.mempool true w.make)⟩
      · exact ⟨_, .of_eq rfl rfl rfl rfl, rfl, by simp [NoRequest]⟩
    obtain ⟨made, hstores, hif, hnew⟩ := hmade
    have hafter : r.mempoolAfter S w (r.mempool.handleMakeBlockMsg S M w.putOk w.make).1.mempool i
        outs = let m := made.putBlock S true (r.hist.core.put? i)
          { m with sync := { m.sync with
              interChan := m.sync.interChan ++ outs.filterMap Output.sync?
              loopBackChan := r.loopBackAfter i } } := by
      unfold Replica.mempoolAfter
      rw [hif, hput]
      cases r.hist.core.put? i <;> rfl
    have hall := hstores.trans (.putBlock S made (r.hist.core.put? i))
    refine ⟨?_, ?_, ?_, ?_⟩
    · dsimp only
      rw [hafter]
      exact hall.name.trans hr.name
    · dsimp only
      rw [hafter]
      exact hall.kept hr.kept
    · dsimp only
      rw [hafter]
      exact (hall.sleeping hr.sleeping).of_store_eq rfl fun _ w hk hw => ⟨w, hk, hw, rfl⟩
    · dsimp only [Hist.setStore]
      rw [hafter, Hist.step_out hstep]
      exact (hr.asking.stores hall hnew).requests outs _

theorem Replica.Fetching.step (hput : w.putOk = true) (h : r.step S M w i = some (r', outs, new))
    (hr : r.Fetching S name sends) : r'.Fetching S name (sends ++ new) := by
  unfold Replica.step at h
  split_ifs at h
  cases i with
  | consensus i => exact hr.consensusStep hput h
  | mempool msg =>
    cases h
    have hstores : r.mempool.Stores S (r.mempool.handle S M w.putOk msg).mempool := by
      rw [hput]
      exact .handle r.mempool msg
    exact ⟨hstores.name.trans hr.name, hstores.kept hr.kept, hstores.sleeping hr.sleeping,
      hr.asking.stores hstores (Mempool.noRequest_handle S M r.mempool w.putOk msg)⟩
  | clean digests epoch =>
    cases h
    refine ⟨hr.name, hr.kept, hr.sleeping.of_store_eq rfl fun _ w hk hw => ⟨w, hk, hw, rfl⟩, ?_⟩
    refine hr.asking.mono rfl (fun req hreq => ?_)
      (fun req hreq => .inl (List.mem_append_left _ hreq)) (fun _ => id)
      (fun r hr => ⟨r, hr, rfl⟩) (fun r hr => ⟨r, hr, fun _ => id⟩)
      (by simp [Mempool.handleCleanBlock])
    rcases List.mem_append.mp hreq with hold | hnew
    · exact hold
    · simp at hnew
  | sync e =>
    obtain ⟨⟨m, out⟩, hsync, heq⟩ := Option.map_eq_some_iff.mp h
    cases heq
    have hsame := Mempool.syncStep_samePayloads hsync
    have hkept : m.Kept S := by
      intro b hb
      rw [Store.Holds, hsame.db]
      exact hr.kept b (hsame.written ▸ hb)
    exact ⟨(Mempool.syncStep_name hsync).trans hr.name, hkept, hr.sleeping.syncStep hsync,
      hr.asking.syncStep hsync⟩

/-- A step of a replica loses no key, separated or not. -/
theorem ReplicaStep.holds (h : ReplicaStep S M w r r' i outs) {d : Digest}
    (hd : r.mempool.store.Holds d) : r'.mempool.store.Holds d := by
  cases h with
  | core i y outs made payloads ht hmade hm h hmem hhist =>
    obtain ⟨m, hext, heq⟩ := r.exists_mempoolAfter (w := w) hmade i outs
    rw [hmem, heq]
    exact (hext.holds d hd).putBlock _
  | mempool i hi hmem hhist => exact hmem.holds d hd

/-- What has been written is there as a payload, as no consensus block has its key. -/
theorem Replica.Fetching.holdsPayload (hr : r.Fetching S name sends) (hpay : PayloadFacts S r)
    (hprov : Provenance S r.hist) (hs : Separated S r) {d : Digest}
    (hd : r.mempool.HasWritten S d) : r.mempool.HoldsPayload S d := by
  obtain ⟨p, hp, rfl⟩ := hd
  obtain ⟨e, he⟩ := Option.isSome_iff_exists.mp (hr.kept p hp)
  cases e with
  | block b => exact ⟨b, payload?_eq_some.mpr he, (hpay.entry _ b he).2⟩
  | consensusBlock cb =>
    have hstored : r.hist.core.store (S.blockHash p) = some cb := by
      rw [r.store_eq]
      simp [consensusBlocks, he]
    obtain ⟨hhash, htook⟩ := hprov.store _ cb hstored
    exact absurd hhash (hs.kinds cb (Hist.mem_taken.mpr htook) p hp)

end Replicas

end SMVBA
