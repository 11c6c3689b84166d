import SMVBA.Library.Tasks
import SMVBA.Mempool.Waiters

/-!
# The books of the synchronizer

`Synchronizer.Run` with its waiters, over any requests, ticks and writes, in any order. What is
between the registration of a request and the loopback of its hash is a task, in the sense of
`Tasks.Log`: its waiter runs, or has returned and its hash is in the channel `waiting`. So the map
`pending` holds the hashes of the open tasks, and the channels hold the ends of the tasks.

Clean-ups are left out, as the node never sends one, and so are requests for the zero digest, whose
completion `Run` takes for that of a waiter that has given up.
-/

namespace SMVBA

/-- What happens around a synchronizer: a request comes on `interChan`, something is written to the
store, or `Run` or a waiter makes a step. -/
inductive SyncAct where
  | request (req : SyncBlockMsg)
  | write (key : Digest) (val : Entry)
  | step (now : ℤ) (e : SyncEvent)
deriving DecidableEq, Repr

/-- A request is for a hash that is not zero. -/
def SyncAct.NonZero : SyncAct → Prop
  | .request req => req.consensusBlockHash ≠ 0
  | _ => True

instance : DecidablePred SyncAct.NonZero
  | .request _ => inferInstanceAs (Decidable (_ ≠ _))
  | .write _ _ => instDecidableTrue
  | .step _ _ => instDecidableTrue

/-- A mempool, with the requests that its synchronizer has registered, in the order of their
waiters. -/
structure SyncHist where
  mempool : Mempool
  registered : List SyncBlockMsg := []

/-- The request that a step of `Run` registers. -/
def Synchronizer.registers? (sync : Synchronizer) : SyncEvent → Option SyncBlockMsg
  | .inter =>
    match sync.interChan with
    | .block req :: _ =>
      if (sync.pending.lookup req.consensusBlockHash).isSome then none else some req
    | _ => none
  | _ => none

namespace SyncHist

/-- One thing happens. Writes succeed. -/
def act (M : MempoolSetup) (x : SyncHist) : SyncAct → Option SyncHist
  | .request req =>
    some { x with mempool := { x.mempool with sync := { x.mempool.sync with
      interChan := x.mempool.sync.interChan ++ [.block req] } } }
  | .write key val => some { x with mempool := x.mempool.write true key val }
  | .step now e => (x.mempool.syncStep M now e).map fun (m, _) =>
      ⟨m, x.registered ++ (x.mempool.sync.registers? e).toList⟩

end SyncHist

/-- The runs from a new synchronizer over any database, with requests for hashes that are not zero.
-/
inductive SyncRun (M : MempoolSetup) : SyncHist → Prop
  | init (name : NodeID) (db : Digest → Option Entry) :
      SyncRun M ⟨{ name := name, store := { db := db } }, []⟩
  | act {x y : SyncHist} {a : SyncAct} (hr : SyncRun M x) (ha : a.NonZero)
      (h : x.act M a = some y) : SyncRun M y

variable {M : MempoolSetup} {x y : SyncHist} {t : Tasks.Log Digest}

/-! ## Waiters as tasks -/

/-- The hash of a waiter, and whether it has returned or was told to. -/
def Waiter.mark (w : Waiter) : Digest × Bool × Bool := (w.blockHash, w.returned, w.closed)

/-- The marks of all waiters. -/
def Mempool.marks (m : Mempool) : List (Digest × Bool × Bool) := m.sync.waiters.map Waiter.mark

/-- A synchronizer whose books are the log of tasks. -/
structure Booked (x : SyncHist) (t : Tasks.Log Digest) : Prop where
  inter : ∀ msg ∈ x.mempool.sync.interChan, ∃ req : SyncBlockMsg,
    msg = .block req ∧ req.consensusBlockHash ≠ 0
  ne_zero : ∀ h ∈ t.keys, h ≠ 0
  registered : x.registered.map SyncBlockMsg.consensusBlockHash = t.keys
  keys : x.mempool.marks.map Prod.fst = t.keys
  notify : ∀ mark ∈ x.mempool.marks, mark.2.2 = false
  ended : ∀ k h, (k, h) ∈ t.collected ++ t.ended ↔ x.mempool.marks[k]? = some (h, true, false)
  waiting : x.mempool.sync.waiting = t.ended.map Prod.snd
  loopBack : x.mempool.sync.loopBackChan = t.collected.map Prod.snd
  pending : ∀ h, (x.mempool.sync.pending.lookup h).isSome = true ↔ ∃ k, t.Open k h
  queue : WaiterFacts x.mempool
  left : ∀ (k : ℕ) (req : SyncBlockMsg) (w : Waiter), x.registered[k]? = some req →
    x.mempool.sync.waiters[k]? = some w →
    ∀ d ∈ req.missing, x.mempool.store.Holds d ∨ d ∈ w.left
  read : ∀ (k : ℕ) (w : Waiter), x.mempool.sync.waiters[k]? = some w → w.returned = true →
    w.left = []

/-- A change of one element that the function does not see. -/
theorem map_set_of_eq {α β : Type*} {f : α → β} {l : List α} {k : ℕ} {a b : α}
    (hk : l[k]? = some a) (hf : f b = f a) : (l.set k b).map f = l.map f := by
  obtain ⟨hlt, rfl⟩ := List.getElem?_eq_some_iff.mp hk
  have hlt' : k < (l.map f).length := by rwa [List.length_map]
  have hget : (l.map f)[k] = f l[k] := List.getElem_map f
  rw [List.map_set, hf, ← hget, List.set_getElem_self]

/-- Entries that are put in again under keys that are there leave the keys as they are. -/
theorem mem_foldl_insert (g : SyncEntry → SyncEntry) {l : List (Sigma fun _ : Digest => SyncEntry)}
    {s : AList fun _ : Digest => SyncEntry} (hl : ∀ e ∈ l, e.1 ∈ s) {h : Digest} :
    h ∈ l.foldl (fun s e => s.insert e.1 (g e.2)) s ↔ h ∈ s := by
  induction l generalizing s with
  | nil => rfl
  | cons e l ih =>
    have he : e.1 ∈ s := hl e List.mem_cons_self
    have hl' : ∀ e' ∈ l, e'.1 ∈ s.insert e.1 (g e.2) := fun e' he' =>
      AList.mem_insert s |>.mpr (.inr (hl e' (List.mem_cons_of_mem _ he')))
    rw [List.foldl_cons, ih hl', AList.mem_insert, or_iff_right_of_imp]
    rintro rfl
    exact he

theorem marks_write (m : Mempool) (key : Digest) (val : Entry) :
    (m.write true key val).marks = m.marks := by
  refine List.ext_getElem? fun k => ?_
  unfold Mempool.marks
  rw [List.getElem?_map, List.getElem?_map]
  have hwake : (m.write true key val).sync.waiters[k]? =
      (m.sync.waiters[k]?).map fun w => if k ∈ m.store.pending key then w.answer else w :=
    wake_waiters m.sync (m.store.pending key) k
  rw [hwake, Option.map_map]
  refine congrArg (Option.map · _) (funext fun w => ?_)
  dsimp only [Function.comp]
  split_ifs <;> rfl

/-- A waiter goes on: what it has no longer to read is in the store. -/
structure ReadsOn (store : Store Digest Entry ℕ) (w w' : Waiter) : Prop where
  subset : w'.left ⊆ w.left
  stored : ∀ d ∈ w.left, store.Holds d ∨ d ∈ w'.left

theorem ReadsOn.of_eq {store : Store Digest Entry ℕ} {w w' : Waiter} (h : w'.left = w.left) :
    ReadsOn store w w' := by
  refine ⟨fun d hd => ?_, fun d hd => .inr ?_⟩
  · rwa [h] at hd
  · rwa [h]

namespace Booked

variable (hx : Booked x t)

include hx

/-- A change that the books do not see: waiters keep their marks, what they still have to read
shrinks by what is in the store, and nothing else changes but the time of requests. -/
theorem same {m : Mempool} (hinter : ∀ msg ∈ m.sync.interChan, msg ∈ x.mempool.sync.interChan ∨
      ∃ req : SyncBlockMsg, msg = .block req ∧ req.consensusBlockHash ≠ 0)
    (hmarks : m.marks = x.mempool.marks) (hwaiting : m.sync.waiting = x.mempool.sync.waiting)
    (hloop : m.sync.loopBackChan = x.mempool.sync.loopBackChan)
    (hpending : ∀ h, (m.sync.pending.lookup h).isSome = (x.mempool.sync.pending.lookup h).isSome)
    (hqueue : WaiterFacts m) (hholds : ∀ d, x.mempool.store.Holds d → m.store.Holds d)
    (hleft : ∀ (k : ℕ) (w' : Waiter), m.sync.waiters[k]? = some w' → ∃ w,
      x.mempool.sync.waiters[k]? = some w ∧ ReadsOn m.store w w') :
    Booked { x with mempool := m } t where
  inter msg hmsg := (hinter msg hmsg).elim (hx.inter msg) id
  ne_zero := hx.ne_zero
  registered := hx.registered
  keys := hmarks ▸ hx.keys
  notify := hmarks ▸ hx.notify
  ended := hmarks ▸ hx.ended
  waiting := hwaiting.trans hx.waiting
  loopBack := hloop.trans hx.loopBack
  pending h := by
    rw [hpending]
    exact hx.pending h
  queue := hqueue
  left k req w' hreq hw' d hd := by
    obtain ⟨w, hw, hreads⟩ := hleft k w' hw'
    rcases hx.left k req w hreq hw d hd with hheld | hmem
    · exact .inl (hholds d hheld)
    · exact hreads.stored d hmem
  read k w' hw' hreturned := by
    obtain ⟨w, hw, hreads⟩ := hleft k w' hw'
    have hmark : w'.mark = w.mark := by
      have hget := congrArg (·[k]?) hmarks
      simpa [Mempool.marks, hw, hw'] using hget
    have hreturned' : w.returned = true := (congrArg (·.2.1) hmark).symm.trans hreturned
    exact List.eq_nil_of_subset_nil (hx.read k w hw hreturned' ▸ hreads.subset)

/-! ## Steps that the books do not see -/

/-- A request comes on `interChan`. -/
theorem request {req : SyncBlockMsg} (hreq : req.consensusBlockHash ≠ 0) :
    Booked { x with mempool := { x.mempool with sync := { x.mempool.sync with
      interChan := x.mempool.sync.interChan ++ [.block req] } } } t := by
  refine hx.same (fun msg hmsg => ?_) rfl rfl rfl (fun _ => rfl)
    ⟨hx.queue.answered, hx.queue.queued⟩ (fun _ => id) fun k w hw => ⟨w, hw, .of_eq rfl⟩
  rcases List.mem_append.mp hmsg with hold | hnew
  · exact .inl hold
  · exact .inr ⟨req, List.mem_singleton.mp hnew, hreq⟩

/-- The store is written. -/
theorem write (key : Digest) (val : Entry) :
    Booked { x with mempool := x.mempool.write true key val } t := by
  refine hx.same (fun _ => .inl) (marks_write x.mempool key val) rfl rfl (fun _ => rfl)
    (hx.queue.write key val) (fun _ hd => Store.Holds.write hd) fun k w' hk => ?_
  obtain ⟨w, hw, rfl⟩ := Option.map_eq_some_iff.mp
    ((wake_waiters x.mempool.sync (x.mempool.store.pending key) k).symm.trans hk)
  have hsame : (if k ∈ x.mempool.store.pending key then w.answer else w).left = w.left := by
    split_ifs <;> rfl
  exact ⟨w, hw, .of_eq hsame⟩

/-- Requests are sent again. -/
theorem tick (now : ℤ) : Booked { x with mempool := { x.mempool with
    sync := (x.mempool.sync.runTick x.mempool.name M.syncRetryDelay now).1 } } t := by
  refine hx.same (fun _ => .inl) rfl rfl rfl (fun h => ?_) ⟨hx.queue.answered, hx.queue.queued⟩
    (fun _ => id) fun k w hw => ⟨w, hw, .of_eq rfl⟩
  rw [Bool.eq_iff_iff, AList.lookup_isSome, AList.lookup_isSome]
  refine mem_foldl_insert (fun entry => { entry with lastSend := now }) fun e he => ?_
  exact List.mem_map_of_mem (List.mem_of_mem_filter he)

/-- A waiter asks for its next payload. -/
theorem ask {k : ℕ} {sync : Synchronizer} {store : Store Digest Entry ℕ}
    (h : x.mempool.sync.ask x.mempool.store k = some (sync, store)) :
    Booked { x with mempool := { x.mempool with sync := sync, store := store } } t := by
  have hqueue := hx.queue.ask h
  unfold Synchronizer.ask at h
  split at h
  case h_1 d left hash closed returned hk =>
    obtain ⟨rfl, rfl⟩ : _ ∧ _ := by simpa using h
    have hdb : (x.mempool.store.notifyRead d k).1.db = x.mempool.store.db := Store.notifyRead_db
    refine hx.same (fun _ => .inl) (map_set_of_eq hk rfl) rfl rfl (fun _ => rfl) hqueue
      (fun d' hd' => ?_) fun j w' hj => ?_
    · rw [Store.Holds, hdb]
      exact hd'
    · rcases getElem?_of_set hk hj with ⟨rfl, rfl⟩ | hj
      · exact ⟨_, hk, .of_eq rfl⟩
      · exact ⟨w', hj, .of_eq rfl⟩
  case h_2 => cases h

/-- A waiter goes on after an answer. What it has read is in the store. -/
theorem resume {k : ℕ} {sync : Synchronizer} (h : x.mempool.sync.resume k = some sync) :
    Booked { x with mempool := { x.mempool with sync := sync } } t := by
  have hqueue := hx.queue.resume h
  unfold Synchronizer.resume at h
  split at h
  case h_1 d left hash closed returned hk =>
    cases h
    have hholds : x.mempool.store.Holds d := hx.queue.answered k _ hk rfl d rfl
    refine hx.same (fun _ => .inl) (map_set_of_eq hk rfl) rfl rfl (fun _ => rfl) hqueue
      (fun _ => id) fun j w' hj => ?_
    rcases getElem?_of_set hk hj with ⟨rfl, rfl⟩ | hj
    · refine ⟨_, hk, ⟨List.subset_cons_self d left, fun d' hd' => ?_⟩⟩
      rcases List.mem_cons.mp hd' with rfl | hd'
      · exact .inl hholds
      · exact .inr hd'
    · exact ⟨w', hj, .of_eq rfl⟩
  case h_2 => cases h

/-- No waiter is told to give up. -/
theorem not_notified (k : ℕ) : x.mempool.sync.notified k = none := by
  unfold Synchronizer.notified
  split
  case h_1 left stage hash hk =>
    have hmark := hx.notify (hash, false, true)
      (List.mem_map.mpr ⟨_, List.mem_of_getElem? hk, rfl⟩)
    cases hmark
  case h_2 => rfl

/-! ## Steps of the books -/

/-- A waiter returns: its task ends. -/
theorem finish {k : ℕ} {sync : Synchronizer} (h : x.mempool.sync.finish k = some sync) :
    ∃ t', Booked { x with mempool := { x.mempool with sync := sync } } t' := by
  unfold Synchronizer.finish at h
  split at h
  case h_1 stage hash closed hk =>
    cases h
    have hmark : x.mempool.marks[k]? = some (hash, false, closed) := by
      unfold Mempool.marks
      rw [List.getElem?_map, hk]
      rfl
    obtain rfl : closed = false := hx.notify _ (List.mem_of_getElem? hmark)
    have hkey : t.keys[k]? = some hash := by
      rw [← hx.keys, List.getElem?_map, hmark]
      rfl
    have hnew : (k, hash) ∉ t.collected ++ t.ended := by
      rw [hx.ended, hmark]
      simp
    have hmarks : (x.mempool.sync.waiters.set k ⟨[], stage, hash, false, true⟩).map Waiter.mark =
        x.mempool.marks.set k (hash, true, false) := List.map_set
    refine ⟨t.finish hkey hnew, hx.inter, hx.ne_zero, hx.registered, ?_, ?_, ?_, ?_, hx.loopBack,
      hx.pending, hx.queue.returns hk rfl rfl rfl rfl, ?_, ?_⟩
    · unfold Mempool.marks
      rw [hmarks]
      exact (map_set_of_eq (f := Prod.fst) (b := (hash, true, false)) hmark rfl).trans hx.keys
    · unfold Mempool.marks
      rw [hmarks]
      intro mark hmem
      rcases List.mem_or_eq_of_mem_set hmem with hmem | rfl
      · exact hx.notify mark hmem
      · rfl
    · intro j h'
      unfold Mempool.marks
      dsimp only [Tasks.Log.finish]
      rw [hmarks, ← List.append_assoc, List.mem_append, hx.ended, List.mem_singleton,
        List.getElem?_set]
      by_cases hjk : k = j
      · subst hjk
        rw [if_pos rfl, if_pos (List.getElem?_eq_some_iff.mp hmark).1, hmark]
        simp [eq_comm]
      · simp [hjk, Ne.symm hjk]
    · dsimp only [Tasks.Log.finish]
      rw [List.map_append, ← hx.waiting]
      rfl
    · intro j req w hreq hw d hd
      rcases getElem?_of_set hk hw with ⟨rfl, rfl⟩ | hw
      · exact hx.left j req _ hreq hk d hd
      · exact hx.left j req w hreq hw d hd
    · intro j w hw hreturned
      rcases getElem?_of_set hk hw with ⟨rfl, rfl⟩ | hw
      · rfl
      · exact hx.read j w hw hreturned
  case h_2 => cases h

/-- `Run` takes a hash from `waiting`: the end of a task is collected. -/
theorem collect {sync : Synchronizer} (h : x.mempool.sync.runWaiting = some sync) :
    ∃ t', Booked { x with mempool := { x.mempool with sync := sync } } t' := by
  unfold Synchronizer.runWaiting at h
  split at h
  case h_1 => cases h
  case h_2 block rest heq =>
    obtain ⟨e, ends, hends, rfl, rfl⟩ : ∃ e ends, t.ended = e :: ends ∧ e.2 = block ∧
        ends.map Prod.snd = rest := List.map_eq_cons_iff.mp (hx.waiting.symm.trans heq)
    have hkey : e.2 ∈ t.keys :=
      List.mem_of_getElem? (t.started e (List.mem_append_right _ (hends ▸ List.mem_cons_self)))
    rw [if_pos (hx.ne_zero _ hkey)] at h
    cases h
    refine ⟨t.collect hends, hx.inter, hx.ne_zero, hx.registered, hx.keys, hx.notify, ?_, rfl, ?_,
      fun h => ?_, ⟨hx.queue.answered, hx.queue.queued⟩, hx.left, hx.read⟩
    · intro k h
      dsimp only [Tasks.Log.collect]
      rw [List.append_assoc, List.singleton_append, ← hends]
      exact hx.ended k h
    · dsimp only [Tasks.Log.collect]
      rw [List.map_append, ← hx.loopBack]
      rfl
    · dsimp only
      rw [Tasks.Log.exists_open_collect, ← hx.pending, AList.lookup_isSome, AList.lookup_isSome,
        AList.mem_erase, and_comm]

/-- A request has a waiter. -/
theorem length_registered : x.registered.length = x.mempool.sync.waiters.length := by
  have hmap := congrArg List.length (hx.registered.trans hx.keys.symm)
  simpa [Mempool.marks] using hmap

/-- A new waiter has everything to read that its request misses. -/
theorem left_concat {req : SyncBlockMsg} {w : Waiter} (hleft : w.left = req.missing) (k : ℕ)
    (req' : SyncBlockMsg) (w' : Waiter) (hreq : (x.registered ++ [req])[k]? = some req')
    (hw : (x.mempool.sync.waiters ++ [w])[k]? = some w') :
    ∀ d ∈ req'.missing, x.mempool.store.Holds d ∨ d ∈ w'.left := by
  intro d hd
  have hlen := hx.length_registered
  rcases Mealy.getElem?_of_concat hreq with hreq | ⟨rfl, rfl⟩
  · have hlt := (List.getElem?_eq_some_iff.mp hreq).1
    rw [List.getElem?_append_left (hlen ▸ hlt)] at hw
    exact hx.left k req' w' hreq hw d hd
  · rw [hlen, List.getElem?_concat_length] at hw
    obtain rfl := Option.some.inj hw
    rw [hleft]
    exact .inr hd

/-- `Run` registers a request: a task is started. -/
theorem register {req : SyncBlockMsg} {now : ℤ} (hne : req.consensusBlockHash ≠ 0)
    (hp : ¬ (x.mempool.sync.pending.lookup req.consensusBlockHash).isSome = true) :
    ∃ t', Booked ⟨{ x.mempool with sync := (x.mempool.sync.runBlock x.mempool.name now req).1 },
      x.registered ++ [req]⟩ t' := by
  have hqueue := hx.queue.runBlock x.mempool.name now req
  have hfree : ∀ k, ¬ t.Open k req.consensusBlockHash := fun k hk =>
    hp ((hx.pending _).mpr ⟨k, hk⟩)
  unfold Synchronizer.runBlock at hqueue ⊢
  rw [if_neg hp] at hqueue ⊢
  have hmarks : (x.mempool.sync.waiters ++
      [({ left := req.missing, blockHash := req.consensusBlockHash } : Waiter)]).map Waiter.mark =
        x.mempool.marks ++ [(req.consensusBlockHash, false, false)] := List.map_append
  refine ⟨t.start _ hfree, hx.inter, ?_, ?_, ?_, ?_, ?_, hx.waiting, hx.loopBack, ?_, hqueue,
    hx.left_concat rfl, ?_⟩
  · intro h hmem
    rcases List.mem_append.mp hmem with hmem | hmem
    · exact hx.ne_zero h hmem
    · rw [List.mem_singleton.mp hmem]
      exact hne
  · dsimp only [Tasks.Log.start]
    rw [List.map_append, hx.registered]
    rfl
  · unfold Mempool.marks
    rw [hmarks, List.map_append, hx.keys]
    rfl
  · unfold Mempool.marks
    rw [hmarks]
    intro mark hmem
    rcases List.mem_append.mp hmem with hmem | hmem
    · exact hx.notify mark hmem
    · rw [List.mem_singleton.mp hmem]
  · intro k h
    unfold Mempool.marks
    rw [hmarks]
    refine (hx.ended k h).trans ⟨fun hold => ?_, fun hnew => ?_⟩
    · exact (List.getElem?_append_left (List.getElem?_eq_some_iff.mp hold).1).trans hold
    · rcases Mealy.getElem?_of_concat hnew with hold | ⟨-, heq⟩
      · exact hold
      · cases heq
  · intro h
    rw [Tasks.Log.exists_open_start, ← hx.pending, AList.lookup_isSome, AList.lookup_isSome,
      AList.mem_insert, or_comm]
  · intro k w hw hreturned
    rcases Mealy.getElem?_of_concat hw with hold | ⟨-, rfl⟩
    · exact hx.read k w hold hreturned
    · cases hreturned

/-- `Run` takes a message: the request is registered, or dropped. -/
theorem takeMessage {now : ℤ} {sync : Synchronizer} {out : List MempoolSend}
    (h : x.mempool.sync.runInter x.mempool.name now = some (sync, out)) :
    ∃ t', Booked ⟨{ x.mempool with sync := sync },
      x.registered ++ (x.mempool.sync.registers? .inter).toList⟩ t' := by
  unfold Synchronizer.runInter at h
  split at h
  case h_1 => cases h
  case h_2 req rest heq =>
    obtain rfl : _ = sync := congrArg Prod.fst (Option.some.inj h)
    obtain ⟨req', hreq', hne⟩ := hx.inter (.block req) (heq ▸ List.mem_cons_self)
    obtain rfl : req = req' := SyncMsg.block.inj hreq'
    have hrest : Booked { x with mempool := { x.mempool with
        sync := { x.mempool.sync with interChan := rest } } } t := by
      refine hx.same (fun msg hmsg => .inl ?_) rfl rfl rfl (fun _ => rfl)
        ⟨hx.queue.answered, hx.queue.queued⟩ (fun _ => id) fun k w hw => ⟨w, hw, .of_eq rfl⟩
      rw [heq]
      exact List.mem_cons_of_mem _ hmsg
    unfold Synchronizer.registers?
    dsimp only
    rw [heq]
    by_cases hp : (x.mempool.sync.pending.lookup req.consensusBlockHash).isSome = true
    · simp only [hp, if_true, Option.toList_none, List.append_nil]
      refine ⟨t, ?_⟩
      unfold Synchronizer.runBlock
      rw [if_pos hp]
      exact hrest
    · simp only [hp, Bool.false_eq_true, if_false]
      exact hrest.register hne hp
  case h_3 epoch rest heq =>
    obtain ⟨req, hreq, -⟩ := hx.inter (.cleanUp epoch) (heq ▸ List.mem_cons_self)
    cases hreq

/-- Everything that happens. -/
theorem act {a : SyncAct} (ha : a.NonZero) (h : x.act M a = some y) : ∃ t', Booked y t' := by
  cases a with
  | request req =>
    cases h
    exact ⟨t, hx.request ha⟩
  | write key val =>
    cases h
    exact ⟨t, hx.write key val⟩
  | step now e =>
    obtain ⟨⟨m, out⟩, hstep, heq⟩ := Option.map_eq_some_iff.mp h
    cases heq
    -- Only a message registers anything.
    have hnil : x.registered ++ (none : Option SyncBlockMsg).toList = x.registered :=
      List.append_nil _
    cases e with
    | inter =>
      obtain ⟨⟨sync, out'⟩, hrun, heq⟩ := Option.map_eq_some_iff.mp hstep
      cases heq
      exact hx.takeMessage hrun
    | waiting =>
      obtain ⟨sync, hrun, heq⟩ := Option.map_eq_some_iff.mp hstep
      cases heq
      exact hnil.symm ▸ hx.collect hrun
    | tick =>
      cases hstep
      exact ⟨t, hnil.symm ▸ hx.tick now⟩
    | ask k =>
      obtain ⟨⟨sync, store⟩, hrun, heq⟩ := Option.map_eq_some_iff.mp hstep
      cases heq
      exact ⟨t, hnil.symm ▸ hx.ask hrun⟩
    | resume k =>
      obtain ⟨sync, hrun, heq⟩ := Option.map_eq_some_iff.mp hstep
      cases heq
      exact ⟨t, hnil.symm ▸ hx.resume hrun⟩
    | finish k =>
      obtain ⟨sync, hrun, heq⟩ := Option.map_eq_some_iff.mp hstep
      cases heq
      exact hnil.symm ▸ hx.finish hrun
    | notified k =>
      obtain ⟨sync, hrun, heq⟩ := Option.map_eq_some_iff.mp hstep
      rw [hx.not_notified k] at hrun
      cases hrun

end Booked

/-- The books of every run. -/
theorem SyncRun.booked (hr : SyncRun M x) : ∃ t, Booked x t := by
  induction hr with
  | init name db =>
    refine ⟨.empty, ?_⟩
    refine ⟨?_, ?_, rfl, rfl, ?_, ?_, rfl, rfl, ?_, ⟨?_, ?_⟩, ?_, ?_⟩
    all_goals simp [Tasks.Log.empty, Tasks.Log.Open, Mempool.marks]
  | act hr ha h ih =>
    obtain ⟨t, hx⟩ := ih
    exact hx.act ha h

/-! ## The books in terms of the waiters -/

/-- A waiter for the hash is running, or its completion is not yet consumed. -/
def SyncHist.Active (x : SyncHist) (unconsumed : List (ℕ × Digest)) (k : ℕ) (h : Digest) : Prop :=
  ∃ w, x.mempool.sync.waiters[k]? = some w ∧ w.blockHash = h ∧
    (w.returned = false ∨ (k, h) ∈ unconsumed)

/-- The books of a synchronizer balance. The completions of registrations, each with the number of
the registration and its hash, are those that `Run` has consumed and those that it has not. -/
structure Balanced (x : SyncHist) (consumed unconsumed : List (ℕ × Digest)) : Prop where
  /-- No registration completes twice. -/
  nodup : ((consumed ++ unconsumed).map Prod.fst).Nodup
  /-- The registrations that have completed are those whose waiters have returned. -/
  returned : ∀ k h, (k, h) ∈ consumed ++ unconsumed ↔
    ∃ w, x.mempool.sync.waiters[k]? = some w ∧ w.blockHash = h ∧ w.returned = true
  /-- The completions that are not consumed are in the channel `waiting`. -/
  waiting : x.mempool.sync.waiting = unconsumed.map Prod.snd
  /-- The loopback channel has received one hash for each completion that was consumed. -/
  loopBack : x.mempool.sync.loopBackChan = consumed.map Prod.snd
  /-- A hash is in `pending` while a waiter for it runs or its completion is not consumed. -/
  pending : ∀ h, (x.mempool.sync.pending.lookup h).isSome = true ↔ ∃ k, x.Active unconsumed k h
  /-- There is one such waiter at most. -/
  unique : ∀ h k k', x.Active unconsumed k h → x.Active unconsumed k' h → k = k'
  /-- Every waiter is that of a registration for its hash. When it has returned, all payloads that
  the registration has missed are in the store. -/
  stored : ∀ (k : ℕ) (w : Waiter), x.mempool.sync.waiters[k]? = some w → ∃ req,
    x.registered[k]? = some req ∧ req.consensusBlockHash = w.blockHash ∧
      (w.returned = true → ∀ d ∈ req.missing, x.mempool.store.Holds d)

namespace Booked

variable (hx : Booked x t)

include hx

/-- A completion is there if its waiter has returned. -/
theorem ended_iff (k : ℕ) (h : Digest) : (k, h) ∈ t.collected ++ t.ended ↔
    ∃ w, x.mempool.sync.waiters[k]? = some w ∧ w.blockHash = h ∧ w.returned = true := by
  have hnotify : ∀ w, x.mempool.sync.waiters[k]? = some w → w.closed = false := fun w hw =>
    hx.notify _ (List.mem_map_of_mem (List.mem_of_getElem? hw))
  rw [hx.ended, Mempool.marks, List.getElem?_map, Option.map_eq_some_iff]
  refine exists_congr fun w => and_congr_right fun hw => ?_
  simp [Waiter.mark, hnotify w hw]

/-- A task has the key that is the hash of its waiter. -/
theorem key_iff (k : ℕ) (h : Digest) : t.keys[k]? = some h ↔
    ∃ w, x.mempool.sync.waiters[k]? = some w ∧ w.blockHash = h := by
  rw [← hx.keys, Mempool.marks, List.map_map, List.getElem?_map, Option.map_eq_some_iff]
  rfl

/-- A task is open exactly when its waiter is active. -/
theorem open_iff (k : ℕ) (h : Digest) : t.Open k h ↔ x.Active t.ended k h := by
  constructor
  · rintro ⟨hkey, hnot⟩
    obtain ⟨w, hw, hhash⟩ := (hx.key_iff k h).mp hkey
    refine ⟨w, hw, hhash, ?_⟩
    cases hreturned : w.returned with
    | false => exact .inl rfl
    | true =>
      have hmem := (hx.ended_iff k h).mpr ⟨w, hw, hhash, hreturned⟩
      exact .inr ((List.mem_append.mp hmem).resolve_left hnot)
  · rintro ⟨w, hw, hhash, hrunning | hmem⟩
    · refine ⟨(hx.key_iff k h).mpr ⟨w, hw, hhash⟩, fun hmem => ?_⟩
      obtain ⟨w', hw', -, hreturned⟩ := (hx.ended_iff k h).mp (List.mem_append_left _ hmem)
      rw [hw] at hw'
      rw [Option.some.inj hw', hreturned] at hrunning
      cases hrunning
    · exact Tasks.Log.open_of_ended hmem

theorem balanced : Balanced x t.collected t.ended where
  nodup := t.nodup
  returned := hx.ended_iff
  waiting := hx.waiting
  loopBack := hx.loopBack
  pending h := (hx.pending h).trans (exists_congr fun k => hx.open_iff k h)
  unique h k k' hk hk' := by
    have hopen := (hx.open_iff k h).mpr hk
    have hopen' := (hx.open_iff k' h).mpr hk'
    exact t.unique k k' h hopen.1 hopen.2 hopen'.1 hopen'.2
  stored k w hw := by
    have hkey := (hx.key_iff k w.blockHash).mpr ⟨w, hw, rfl⟩
    rw [← hx.registered, List.getElem?_map, Option.map_eq_some_iff] at hkey
    obtain ⟨req, hreq, hhash⟩ := hkey
    refine ⟨req, hreq, hhash, fun hreturned d hd => ?_⟩
    have hleft := hx.left k req w hreq hw d hd
    rw [hx.read k w hw hreturned] at hleft
    exact hleft.resolve_right List.not_mem_nil

end Booked

/-- The books of a synchronizer balance in every run. -/
theorem sync_balanced (hr : SyncRun M x) :
    ∃ consumed unconsumed, Balanced x consumed unconsumed := by
  obtain ⟨t, hx⟩ := hr.booked
  exact ⟨t.collected, t.ended, hx.balanced⟩

/-- A list of things that happen is a run. -/
theorem SyncRun.foldlM {acts : List SyncAct} (hx : SyncRun M x) (hacts : ∀ a ∈ acts, a.NonZero)
    (h : acts.foldlM (SyncHist.act M) x = some y) : SyncRun M y := by
  induction acts generalizing x with
  | nil => exact Option.some.inj h ▸ hx
  | cons a acts ih =>
    rw [List.foldlM_cons, Option.bind_eq_bind, Option.bind_eq_some_iff] at h
    obtain ⟨z, hz, hzy⟩ := h
    exact ih (hx.act (hacts a List.mem_cons_self) hz)
      (fun a' ha' => hacts a' (List.mem_cons_of_mem _ ha')) hzy

/-- Two requests for one hash, of which the first gets a waiter. The payload that it misses is
written, the waiter returns, and `Run` hands the hash back. -/
def loopBackActs : List SyncAct :=
  [.request ⟨[2], 1, 0, 1⟩, .request ⟨[2], 1, 0, 1⟩, .step 0 .inter, .step 0 .inter, .step 0 .tick,
    .step 0 (.ask 0), .write 2 (.consensusBlock ⟨1, [], 0⟩), .step 0 (.resume 0),
    .step 0 (.finish 0), .step 0 .waiting]

/-- The hash comes back once, and the books balance. -/
theorem sync_balanced_once : ∃ x, SyncRun ⟨0, 0, 0, fun _ _ => [], fun _ _ _ => true⟩ x ∧
    x.registered.length = 1 ∧ x.mempool.sync.loopBackChan = [1] ∧
    ∃ consumed unconsumed, Balanced x consumed unconsumed := by
  have hplay : (loopBackActs.foldlM (SyncHist.act ⟨0, 0, 0, fun _ _ => [], fun _ _ _ => true⟩)
      ⟨{ name := 0 }, []⟩).any (fun x => decide (x.registered.length = 1 ∧
        x.mempool.sync.loopBackChan = [1])) = true := by decide +kernel
  rw [Option.any_eq_true] at hplay
  obtain ⟨x, hx, hP⟩ := hplay
  have hr := SyncRun.foldlM (.init 0 _) (by decide : ∀ a ∈ loopBackActs, a.NonZero) hx
  obtain ⟨hregistered, hloop⟩ := of_decide_eq_true hP
  exact ⟨x, hr, hregistered, hloop, sync_balanced hr⟩

end SMVBA
