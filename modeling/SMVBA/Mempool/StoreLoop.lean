import SMVBA.Library.Mealy
import SMVBA.Mempool.Store

/-!
# The requests of the store

The loop of `NewStore` over any sequence of requests, with the answers that it sends on the `Done`
channels. The requests are named by their positions in the sequence, and `DB.Put` may fail.

A `NOTIFYREAD` is answered at most once, so that no answer finds the `Done` channel full. It is
answered if its key is there, or when the key is written after it (`notifyRead_once`). The value is
the one that the database holds then, as long as `DB.Put` succeeds. A write that fails answers the
queue all the same, with a value that the database does not have (`failed_write_iff`).
-/

namespace SMVBA

variable {K V : Type*}

/-- A `storeReq`, by its type. -/
inductive StoreReq (K V : Type*) where
  | read (key : K)
  | write (key : K) (val : V)
  | notifyRead (key : K)
deriving DecidableEq, Repr

/-- A request, and whether `DB.Put` succeeds if it is a write. -/
structure StoreCall (K V : Type*) where
  req : StoreReq K V
  putOk : Bool := true
deriving DecidableEq, Repr

/-- What is sent on the `Done` channel of a request: its `val`, and whether its `err` is nil. -/
structure StoreReply (V : Type*) where
  /-- The request that is answered. -/
  req : ℕ
  val : Option V
  ok : Bool := true
deriving DecidableEq, Repr

/-- The request with the name `i` is a `NOTIFYREAD` of the key. -/
def Asks (calls : List (StoreCall K V)) (i : ℕ) (key : K) : Prop :=
  ∃ c, calls[i]? = some c ∧ c.req = .notifyRead key

variable [DecidableEq K]

/-- One pass of the loop of `NewStore`, for the request with the name `i`: the store after it, and
the answers. -/
def Store.serve (s : Store K V ℕ) (i : ℕ) (c : StoreCall K V) :
    Store K V ℕ × List (StoreReply V) :=
  match c.req with
  | .read key => (s, [⟨i, s.read key, (s.read key).isSome⟩])
  | .write key val =>
    let (s', woken) := s.write c.putOk key val
    (s', ⟨i, some val, c.putOk⟩ :: woken.map fun r => ⟨r, some val, true⟩)
  | .notifyRead key =>
    let (s', answered) := s.notifyRead key i
    (s', if answered then [⟨i, s.read key, true⟩] else [])

/-- The loop of `NewStore`, with the number of requests that it has taken. -/
structure StoreLoop (K V : Type*) where
  store : Store K V ℕ
  taken : ℕ := 0

/-- The loop takes one more request. -/
def StoreLoop.step (x : StoreLoop K V) (c : StoreCall K V) : StoreLoop K V × List (StoreReply V) :=
  let (s, replies) := x.store.serve x.taken c
  (⟨s, x.taken + 1⟩, replies)

/-- A new store over a database, after a sequence of requests, and the answers given during each. -/
def storeRun (db : K → Option V) (calls : List (StoreCall K V)) :
    StoreLoop K V × List (List (StoreReply V)) :=
  Mealy.run StoreLoop.step ⟨{ db := db }, 0⟩ calls

/-- The store after the first `j` requests of a sequence. -/
def storeAfter (db : K → Option V) (calls : List (StoreCall K V)) (j : ℕ) : Store K V ℕ :=
  (storeRun db (calls.take j)).1.store

/-- The answers that are given while the store is at the request with the name `j`. -/
def repliesAt (db : K → Option V) (calls : List (StoreCall K V)) (j : ℕ) : List (StoreReply V) :=
  (storeRun db calls).2.getD j []

/-- The answers that the request with the name `i` gets in the whole sequence. -/
def repliesTo (db : K → Option V) (calls : List (StoreCall K V)) (i : ℕ) : List (StoreReply V) :=
  (storeRun db calls).2.flatten.filter fun r => r.req = i

/-- The value that a request has written under a key. -/
def StoreCall.written? (key : K) : StoreCall K V → Option V
  | ⟨.write k v, true⟩ => if k = key then some v else none
  | _ => none

/-- The latest value under a key, of those in the database at first and those written since. -/
def latest (db : K → Option V) (calls : List (StoreCall K V)) (key : K) : Option V :=
  (calls.filterMap (StoreCall.written? key)).getLast?.or (db key)

/-- The key is there when the request with the name `i` is taken, or is written after it. -/
def Due (db : K → Option V) (calls : List (StoreCall K V)) (i : ℕ) (key : K) : Prop :=
  (latest db (calls.take i) key).isSome = true ∨
    ∃ c ∈ calls.drop (i + 1), ∃ val, c.req = .write key val

section Requests

variable {db : K → Option V} {calls : List (StoreCall K V)} {c : StoreCall K V} {i j : ℕ}
  {k key : K} {v : V} {s : Store K V ℕ}

/-! ## One more request -/

omit [DecidableEq K] in
theorem Asks.lt (h : Asks calls i k) : i < calls.length := by
  obtain ⟨c, hc, -⟩ := h
  exact (List.getElem?_eq_some_iff.mp hc).1

omit [DecidableEq K] in
/-- A request is a `NOTIFYREAD` of one key at most. -/
theorem Asks.unique (h : Asks calls i k) (h' : Asks calls i key) : k = key := by
  obtain ⟨c, hc, hreq⟩ := h
  obtain ⟨c', hc', hreq'⟩ := h'
  obtain rfl : c = c' := Option.some.inj (hc.symm.trans hc')
  exact StoreReq.notifyRead.inj (hreq.symm.trans hreq')

omit [DecidableEq K] in
theorem Asks.concat (h : Asks calls i k) : Asks (calls ++ [c]) i k := by
  obtain ⟨c', hc', hreq⟩ := h
  refine ⟨c', ?_, hreq⟩
  rw [List.getElem?_append_left (List.getElem?_eq_some_iff.mp hc').1, hc']

omit [DecidableEq K] in
theorem Asks.of_concat (h : Asks (calls ++ [c]) i k) :
    Asks calls i k ∨ (i = calls.length ∧ c.req = .notifyRead k) := by
  obtain ⟨c', hc', hreq⟩ := h
  rcases Mealy.getElem?_of_concat hc' with hold | ⟨hi, rfl⟩
  · exact .inl ⟨c', hold, hreq⟩
  · exact .inr ⟨hi, hreq⟩

omit [DecidableEq K] in
theorem Asks.of_concat_of_ne (h : Asks (calls ++ [c]) i k) (hc : ∀ k, c.req ≠ .notifyRead k) :
    Asks calls i k :=
  h.of_concat.resolve_right fun hlast => hc k hlast.2

/-- A request that writes the key decides what is the latest value. -/
theorem latest_concat : latest db (calls ++ [c]) k = (c.written? k).or (latest db calls k) := by
  have hlast : ([c].filterMap (StoreCall.written? k)).getLast? = c.written? k := by
    cases hw : c.written? k <;> simp [hw]
  unfold latest
  rw [List.filterMap_append, List.getLast?_append, hlast, Option.or_assoc]

/-- What was to be answered stays so, and a write adds the requests of its key. -/
theorem due_concat (hlt : i < calls.length) :
    Due db (calls ++ [c]) i k ↔ Due db calls i k ∨ ∃ val, c.req = .write k val := by
  unfold Due
  rw [List.take_append_of_le_length (Nat.le_of_lt hlt), List.drop_append_of_le_length hlt]
  simp only [List.mem_append, List.mem_singleton, or_and_right, exists_or, exists_eq_left,
    or_assoc]

/-- A new request is to be answered if its key is there. -/
theorem due_last :
    Due db (calls ++ [c]) calls.length k ↔ (latest db calls k).isSome = true := by
  unfold Due
  rw [List.take_left, List.drop_eq_nil_of_le (by simp)]
  simp

namespace Store

theorem serve_read (h : c.req = .read key) :
    s.serve i c = (s, [⟨i, s.db key, (s.db key).isSome⟩]) := by
  unfold serve
  rw [h]
  rfl

theorem serve_write (h : c.req = .write key v) :
    s.serve i c = ((s.write c.putOk key v).1,
      ⟨i, some v, c.putOk⟩ :: (s.pending key).map fun r => ⟨r, some v, true⟩) := by
  unfold serve
  rw [h]
  rfl

/-- A `NOTIFYREAD` of a key that is there. -/
theorem serve_notifyRead_of_some (h : c.req = .notifyRead key) (hv : s.db key = some v) :
    s.serve i c = (s, [⟨i, some v, true⟩]) := by
  unfold serve notifyRead read
  rw [h]
  simp [hv]

/-- A `NOTIFYREAD` of a key that is not there waits. -/
theorem serve_notifyRead_of_none (h : c.req = .notifyRead key) (hv : s.db key = none) :
    s.serve i c = ({ s with pending := Function.update s.pending key (s.pending key ++ [i]) }, [])
    := by
  unfold serve notifyRead
  rw [h]
  simp [hv]

/-- The queue of its key gets one more request, and the other queues stay. -/
theorem pending_notifyRead_of_none (h : c.req = .notifyRead key) (hv : s.db key = none) :
    (s.serve i c).1.pending k = s.pending k ++ if k = key then [i] else [] := by
  rw [serve_notifyRead_of_none h hv]
  dsimp only
  by_cases hk : k = key
  · subst hk
    rw [Function.update_self, if_pos rfl]
  · rw [Function.update_of_ne hk, if_neg hk, List.append_nil]

/-- Only a successful write changes the database. -/
theorem serve_db : (s.serve i c).1.db k = (c.written? k).or (s.db k) := by
  obtain ⟨req, putOk⟩ := c
  cases req with
  | read key => rfl
  | write key val =>
    cases putOk with
    | false => rfl
    | true =>
      rw [serve_write rfl, write_db rfl]
      by_cases hk : k = key
      · subst hk
        simp [StoreCall.written?]
      · simp [StoreCall.written?, hk, Ne.symm hk]
  | notifyRead key =>
    have hdb : (s.serve i ⟨.notifyRead key, putOk⟩).1.db = s.db := notifyRead_db
    rw [hdb]
    rfl

/-- An answer is for the request itself, or for one that waits for the key that is written. -/
theorem reply_cases {r : StoreReply V} (hr : r ∈ (s.serve i c).2) :
    r.req = i ∨ ∃ key val, c.req = .write key val ∧ r.req ∈ s.pending key ∧ r.val = some val := by
  obtain ⟨req, putOk⟩ := c
  cases req with
  | read key => exact .inl (congrArg StoreReply.req (List.mem_singleton.mp hr))
  | write key val =>
    rw [serve_write rfl] at hr
    rcases List.mem_cons.mp hr with rfl | hr
    · exact .inl rfl
    · obtain ⟨r', hr', rfl⟩ := List.mem_map.mp hr
      exact .inr ⟨key, val, rfl, hr', rfl⟩
  | notifyRead key =>
    cases hv : s.db key with
    | none =>
      rw [serve_notifyRead_of_none rfl hv] at hr
      cases hr
    | some v =>
      rw [serve_notifyRead_of_some rfl hv] at hr
      exact .inl (congrArg StoreReply.req (List.mem_singleton.mp hr))

end Store

/-! ## The store after a sequence of requests -/

/-- The store after a sequence of requests, and all its answers. -/
structure Served (db : K → Option V) (calls : List (StoreCall K V)) (s : Store K V ℕ)
    (replies : List (StoreReply V)) : Prop where
  contents : s.db = latest db calls
  asks : ∀ k, ∀ i ∈ s.pending k, Asks calls i k
  absent : ∀ k, s.pending k ≠ [] → s.db k = none
  waits : ∀ i k, Asks calls i k → (i ∈ s.pending k ↔ ¬ Due db calls i k)
  old : ∀ r ∈ replies, r.req < calls.length
  /-- A `NOTIFYREAD` is answered or waits, and not both. -/
  once : ∀ i k, Asks calls i k →
    replies.countP (fun r => r.req = i) + (s.pending k).count i = 1
  /-- A `READ` has got the latest value. -/
  reads : ∀ i k c, calls[i]? = some c → c.req = .read k →
    replies.filter (fun r => r.req = i) =
      [⟨i, latest db (calls.take i) k, (latest db (calls.take i) k).isSome⟩]

namespace Served

variable {replies : List (StoreReply V)} (h : Served db calls s replies)

include h

/-- The next request has no answer and does not wait. -/
theorem fresh : replies.filter (fun r => r.req = calls.length) = [] ∧
    ∀ k, calls.length ∉ s.pending k := by
  constructor
  · rw [List.filter_eq_nil_iff]
    intro r hr
    have hlt := h.old r hr
    simp only [decide_eq_true_eq]
    omega
  · exact fun k hmem => Nat.lt_irrefl _ (h.asks k _ hmem).lt

/-- The database and the names after one more request. -/
theorem db_serve : (s.serve calls.length c).1.db = latest db (calls ++ [c]) := by
  funext k
  rw [Store.serve_db, latest_concat, h.contents]

theorem old_serve : ∀ r ∈ replies ++ (s.serve calls.length c).2, r.req < (calls ++ [c]).length := by
  intro r hr
  rw [List.length_append, List.length_singleton]
  rcases List.mem_append.mp hr with hr | hr
  · exact Nat.lt_succ_of_lt (h.old r hr)
  · rcases Store.reply_cases hr with heq | ⟨key, val, -, hmem, -⟩
    · omega
    · exact Nat.lt_succ_of_lt (h.asks key _ hmem).lt

theorem reads_serve : ∀ i k c', (calls ++ [c])[i]? = some c' → c'.req = .read k →
    (replies ++ (s.serve calls.length c).2).filter (fun r => r.req = i) =
      [⟨i, latest db ((calls ++ [c]).take i) k,
        (latest db ((calls ++ [c]).take i) k).isSome⟩] := by
  intro i k c' hi hc'
  rw [List.filter_append]
  rcases Mealy.getElem?_of_concat hi with hi | ⟨rfl, rfl⟩
  · -- A `READ` before gets no answer now.
    have hlt : i < calls.length := (List.getElem?_eq_some_iff.mp hi).1
    have hnil : (s.serve calls.length c).2.filter (fun r => r.req = i) = [] := by
      rw [List.filter_eq_nil_iff]
      intro r hr hreq
      rcases Store.reply_cases hr with heq | ⟨key, val, -, hmem, -⟩
      · simp only [decide_eq_true_eq] at hreq
        omega
      · obtain ⟨c₁, hc₁, hask⟩ := h.asks key _ hmem
        rw [of_decide_eq_true hreq, hi] at hc₁
        rw [← Option.some.inj hc₁, hc'] at hask
        cases hask
    rw [hnil, List.append_nil, h.reads i k c' hi hc',
      List.take_append_of_le_length (Nat.le_of_lt hlt)]
  · rw [h.fresh.1, List.nil_append, Store.serve_read hc', List.take_left, h.contents]
    simp

/-- What is left to show of one more request: what it does to the queues. -/
theorem concat
    (hasks : ∀ k, ∀ i ∈ (s.serve calls.length c).1.pending k, Asks (calls ++ [c]) i k)
    (habsent : ∀ k, (s.serve calls.length c).1.pending k ≠ [] →
      (s.serve calls.length c).1.db k = none)
    (hwaits : ∀ i k, Asks (calls ++ [c]) i k →
      (i ∈ (s.serve calls.length c).1.pending k ↔ ¬ Due db (calls ++ [c]) i k))
    (honce : ∀ i k, Asks (calls ++ [c]) i k →
      (replies ++ (s.serve calls.length c).2).countP (fun r => r.req = i) +
        ((s.serve calls.length c).1.pending k).count i = 1) :
    Served db (calls ++ [c]) (s.serve calls.length c).1
      (replies ++ (s.serve calls.length c).2) :=
  ⟨h.db_serve, hasks, habsent, hwaits, h.old_serve, honce, h.reads_serve⟩

/-- A `READ`. -/
theorem read (hc : c.req = .read key) :
    Served db (calls ++ [c]) (s.serve calls.length c).1
      (replies ++ (s.serve calls.length c).2) := by
  have hasks : ∀ {i k}, Asks (calls ++ [c]) i k → Asks calls i k :=
    fun ha => ha.of_concat_of_ne fun k hreq => by simp [hc] at hreq
  refine h.concat ?_ ?_ (fun i k ha => ?_) (fun i k ha => ?_) <;> rw [Store.serve_read hc]
  · exact fun k i hi => (h.asks k i hi).concat
  · exact h.absent
  · rw [h.waits i k (hasks ha), due_concat (hasks ha).lt, hc]
    simp
  · have hlt := (hasks ha).lt
    rw [List.countP_append, List.countP_singleton, if_neg (by simpa using Nat.ne_of_gt hlt)]
    exact h.once i k (hasks ha)

/-- A `WRITE`, which answers the queue of its key. -/
theorem write {val : V} (hc : c.req = .write key val) :
    Served db (calls ++ [c]) (s.serve calls.length c).1
      (replies ++ (s.serve calls.length c).2) := by
  have hasks : ∀ {i k}, Asks (calls ++ [c]) i k → Asks calls i k :=
    fun ha => ha.of_concat_of_ne fun k hreq => by simp [hc] at hreq
  have hself : (s.write c.putOk key val).1.pending key = [] := Function.update_self ..
  have hother : ∀ {k}, k ≠ key → (s.write c.putOk key val).1.pending k = s.pending k :=
    fun hk => Function.update_of_ne hk ..
  refine h.concat ?_ ?_ (fun i k ha => ?_) (fun i k ha => ?_) <;> rw [Store.serve_write hc]
  · intro k i hi
    exact (h.asks k i (Store.mem_pending_write hi).2).concat
  · intro k hk
    have hne : k ≠ key := by
      rintro rfl
      exact hk hself
    rw [hother hne] at hk
    rw [Store.write_db_of_ne hne]
    exact h.absent k hk
  · rw [due_concat (hasks ha).lt, hc]
    by_cases hk : k = key
    · subst hk
      simp [hself]
    · rw [hother hk, h.waits i k (hasks ha)]
      simp [Ne.symm hk]
  · have hlt := (hasks ha).lt
    have honce := h.once i k (hasks ha)
    have hnew : ((s.pending key).map fun r => (⟨r, some val, true⟩ : StoreReply V)).countP
        (fun r => r.req = i) = (s.pending key).count i := List.countP_map
    rw [List.countP_append, List.countP_cons, hnew, if_neg (by simpa using Nat.ne_of_gt hlt)]
    by_cases hk : k = key
    · subst hk
      rw [hself, List.count_nil]
      omega
    · -- The request waits for another key, if it waits.
      have hzero : (s.pending key).count i = 0 :=
        List.count_eq_zero_of_not_mem fun hmem => hk ((hasks ha).unique (h.asks key i hmem))
      rw [hother hk, hzero]
      omega

/-- A `NOTIFYREAD` of a key that is there, which is answered. -/
theorem notifyRead_of_some {v : V} (hc : c.req = .notifyRead key) (hv : s.db key = some v) :
    Served db (calls ++ [c]) (s.serve calls.length c).1
      (replies ++ (s.serve calls.length c).2) := by
  obtain ⟨hnone, hnot⟩ := h.fresh
  refine h.concat ?_ ?_ (fun i k ha => ?_) (fun i k ha => ?_) <;>
    rw [Store.serve_notifyRead_of_some hc hv]
  · exact fun k i hi => (h.asks k i hi).concat
  · exact h.absent
  · rcases ha.of_concat with ha | ⟨rfl, hreq⟩
    · rw [h.waits i k ha, due_concat ha.lt, hc]
      simp
    · obtain rfl : key = k := by simpa [hc] using hreq
      rw [due_last, ← h.contents, hv]
      simp [hnot key]
  · rw [List.countP_append, List.countP_singleton]
    rcases ha.of_concat with ha | ⟨rfl, hreq⟩
    · rw [if_neg (by simpa using Nat.ne_of_gt ha.lt)]
      exact h.once i k ha
    · rw [List.countP_eq_length_filter, hnone, List.count_eq_zero_of_not_mem (hnot k),
        if_pos (by simp)]
      rfl

/-- A `NOTIFYREAD` of a key that is not there, which waits. -/
theorem notifyRead_of_none (hc : c.req = .notifyRead key) (hv : s.db key = none) :
    Served db (calls ++ [c]) (s.serve calls.length c).1
      (replies ++ (s.serve calls.length c).2) := by
  obtain ⟨hnone, hnot⟩ := h.fresh
  have hpending := fun k => Store.pending_notifyRead_of_none (i := calls.length) (k := k) hc hv
  -- The new request is not one of those before it.
  have hne : ∀ {i k}, Asks calls i k → i ∉ if k = key then [calls.length] else [] := by
    intro i k ha
    have hlt := ha.lt
    split_ifs <;> simp
    omega
  refine h.concat (fun k i hi => ?_) (fun k hk => ?_) (fun i k ha => ?_) (fun i k ha => ?_)
  · rw [hpending] at hi
    rcases List.mem_append.mp hi with hi | hi
    · exact (h.asks k i hi).concat
    · split_ifs at hi with hk
      · rw [List.mem_singleton.mp hi, hk]
        exact ⟨c, List.getElem?_concat_length, hc⟩
      · cases hi
  · rw [hpending] at hk
    rw [Store.serve_notifyRead_of_none hc hv]
    by_cases heq : k = key
    · rw [heq]
      exact hv
    · rw [if_neg heq, List.append_nil] at hk
      exact h.absent k hk
  · rw [hpending, List.mem_append]
    rcases ha.of_concat with ha | ⟨rfl, hreq⟩
    · rw [or_iff_left (hne ha), h.waits i k ha, due_concat ha.lt, hc]
      simp
    · obtain rfl : key = k := by simpa [hc] using hreq
      rw [due_last, ← h.contents, hv]
      simp
  · rw [hpending, List.count_append, Store.serve_notifyRead_of_none hc hv, List.append_nil]
    rcases ha.of_concat with ha | ⟨rfl, hreq⟩
    · rw [List.count_eq_zero_of_not_mem (hne ha)]
      exact h.once i k ha
    · obtain rfl : key = k := by simpa [hc] using hreq
      rw [List.countP_eq_length_filter, hnone, List.count_eq_zero_of_not_mem (hnot key)]
      simp

/-- Every request. -/
theorem serve (c : StoreCall K V) : Served db (calls ++ [c]) (s.serve calls.length c).1
    (replies ++ (s.serve calls.length c).2) := by
  cases hc : c.req with
  | read key => exact h.read hc
  | write key val => exact h.write hc
  | notifyRead key =>
    cases hv : s.db key with
    | some v => exact h.notifyRead_of_some hc hv
    | none => exact h.notifyRead_of_none hc hv

end Served

/-- A new store, after any sequence of requests. -/
theorem served_storeRun (db : K → Option V) (calls : List (StoreCall K V)) :
    (storeRun db calls).1.taken = calls.length ∧
      Served db calls (storeRun db calls).1.store (storeRun db calls).2.flatten := by
  refine Mealy.run_invariant StoreLoop.step (I := fun calls x replies =>
    x.taken = calls.length ∧ Served db calls x.store replies.flatten) ⟨rfl, ?_⟩ ?_ calls
  · refine ⟨rfl, ?_, ?_, ?_, ?_, ?_, ?_⟩ <;> simp [Asks]
  · rintro calls ⟨s, n⟩ replies c ⟨rfl, h⟩
    refine ⟨by simp [StoreLoop.step], ?_⟩
    rw [List.flatten_append]
    simpa [StoreLoop.step] using h.serve c

/-- The store after some requests of a sequence. -/
theorem served_storeAfter (db : K → Option V) (calls : List (StoreCall K V)) (j : ℕ) :
    Served db (calls.take j) (storeAfter db calls j) (storeRun db (calls.take j)).2.flatten :=
  (served_storeRun db (calls.take j)).2

/-- The answers that are given at a request are those of the loop after the requests before it. -/
theorem repliesAt_eq (db : K → Option V) (calls : List (StoreCall K V)) (j : ℕ) :
    repliesAt db calls j =
      ((calls[j]?).map fun c => (StoreLoop.step (storeRun db (calls.take j)).1 c).2).getD [] := by
  unfold repliesAt storeRun
  rw [List.getD_eq_getElem?_getD, Mealy.run_getElem?]

/-- The request with the name `j` is taken in the store after those before it. -/
theorem storeAfter_succ (db : K → Option V) (h : calls[j]? = some c) :
    storeAfter db calls (j + 1) = ((storeAfter db calls j).serve j c).1 ∧
      repliesAt db calls j = ((storeAfter db calls j).serve j c).2 := by
  have hlt : j < calls.length := (List.getElem?_eq_some_iff.mp h).1
  have htaken : (storeRun db (calls.take j)).1.taken = j := by
    rw [(served_storeRun db (calls.take j)).1, List.length_take, Nat.min_eq_left (Nat.le_of_lt hlt)]
  have hstep : StoreLoop.step (storeRun db (calls.take j)).1 c =
      (⟨((storeAfter db calls j).serve j c).1, j + 1⟩, ((storeAfter db calls j).serve j c).2) := by
    unfold StoreLoop.step storeAfter
    rw [htaken]
  have htake : calls.take (j + 1) = calls.take j ++ [c] := by
    rw [List.take_add_one, h]
    rfl
  constructor
  · have hrun : (storeRun db (calls.take j ++ [c])).1 =
        (StoreLoop.step (storeRun db (calls.take j)).1 c).1 :=
      congrArg Prod.fst (Mealy.run_concat _ (calls.take j) c)
    rw [hstep] at hrun
    rw [storeAfter, htake, hrun]
  · rw [repliesAt_eq, h, Option.map_some, Option.getD_some, hstep]

/-- An answer is given at a request. -/
theorem exists_call_of_reply {r : StoreReply V} (h : r ∈ repliesAt db calls j) :
    ∃ c, calls[j]? = some c := by
  cases hc : calls[j]? with
  | some c => exact ⟨c, rfl⟩
  | none =>
    rw [repliesAt_eq, hc] at h
    cases h

/-- A request that waits is one of those before. -/
theorem asks_of_pending (h : i ∈ (storeAfter db calls j).pending k) : Asks calls i k := by
  obtain ⟨c, hc, hreq⟩ := (served_storeAfter db calls j).asks k i h
  refine ⟨c, ?_, hreq⟩
  rw [List.getElem?_take] at hc
  split_ifs at hc
  exact hc

end Requests

/-! ## The answers to `NOTIFYREAD` -/

/-- Every answer to a `NOTIFYREAD` carries the value that the database holds under the key when the
answer is given. -/
def AnswersHeld (db : K → Option V) (calls : List (StoreCall K V)) : Prop :=
  ∀ i j k, Asks calls i k → ∀ r ∈ repliesAt db calls j, r.req = i →
    r.val.isSome = true ∧ r.val = (storeAfter db calls (j + 1)).db k

/-- Every write that fails leaves the queues as they were. -/
def FailuresKeepQueues (db : K → Option V) (calls : List (StoreCall K V)) : Prop :=
  ∀ j key val, calls[j]? = some ⟨.write key val, false⟩ →
    (storeAfter db calls (j + 1)).pending = (storeAfter db calls j).pending

/-- Nothing waits for the key of a write that fails. -/
def FailsUnwatched (db : K → Option V) (calls : List (StoreCall K V)) : Prop :=
  ∀ j key val, calls[j]? = some ⟨.write key val, false⟩ → (storeAfter db calls j).pending key = []

variable {db : K → Option V} {calls : List (StoreCall K V)}

theorem answersHeld_of_failsUnwatched (h : FailsUnwatched db calls) : AnswersHeld db calls := by
  rintro i j k hask r hr rfl
  obtain ⟨c, hc⟩ := exists_call_of_reply hr
  obtain ⟨hstore, hreplies⟩ := storeAfter_succ db hc
  rw [hreplies] at hr
  rw [hstore, Store.serve_db]
  rcases Store.reply_cases hr with hreq | ⟨key, val, hwrite, hmem, hval⟩
  · -- The request finds the key.
    rw [hreq] at hask
    obtain ⟨c', hc', hask⟩ := hask
    obtain rfl : c = c' := Option.some.inj (hc.symm.trans hc')
    cases hv : (storeAfter db calls j).db k with
    | none =>
      rw [Store.serve_notifyRead_of_none hask hv] at hr
      cases hr
    | some v =>
      rw [Store.serve_notifyRead_of_some hask hv] at hr
      obtain rfl := List.mem_singleton.mp hr
      have hnone : c.written? k = none := by
        unfold StoreCall.written?
        split
        case h_1 => cases hask
        case h_2 => rfl
      simp [hnone]
  · -- The request has waited for the key, which is written now.
    obtain rfl : k = key := hask.unique (asks_of_pending hmem)
    obtain ⟨req, putOk⟩ := c
    obtain rfl : req = .write k val := hwrite
    cases putOk with
    | false =>
      rw [h j k val hc] at hmem
      cases hmem
    | true => simp [hval, StoreCall.written?]

theorem failsUnwatched_of_answersHeld (h : AnswersHeld db calls) : FailsUnwatched db calls := by
  intro j key val hc
  obtain ⟨hstore, hreplies⟩ := storeAfter_succ db hc
  by_contra hne
  obtain ⟨i, hi⟩ := List.exists_mem_of_ne_nil _ hne
  -- The request gets the value, but the key is not there, before the write and after it.
  have hreply : (⟨i, some val, true⟩ : StoreReply V) ∈ repliesAt db calls j := by
    rw [hreplies, Store.serve_write rfl]
    exact List.mem_cons_of_mem _ (List.mem_map_of_mem hi)
  have hval := (h i j key (asks_of_pending hi) _ hreply rfl).2
  have habsent := (served_storeAfter db calls j).absent key hne
  rw [hstore, Store.serve_db, habsent] at hval
  cases hval

theorem failuresKeepQueues_iff : FailuresKeepQueues db calls ↔ FailsUnwatched db calls := by
  constructor
  · intro h j key val hc
    rw [← h j key val hc, (storeAfter_succ db hc).1, Store.serve_write rfl]
    exact Function.update_self ..
  · intro h j key val hc
    rw [(storeAfter_succ db hc).1, Store.serve_write rfl]
    have hupdate := Function.update_eq_self key (storeAfter db calls j).pending
    rw [h j key val hc] at hupdate
    exact hupdate

/-- While `DB.Put` succeeds, a `NOTIFYREAD` is answered exactly once if its key is there when it is
taken or is written after it, and never otherwise. The answer is the value of the key when it is
given, a `READ` gets the latest value, and no key that is waited for is there. -/
theorem notifyRead_once (db : K → Option V) (calls : List (StoreCall K V))
    (hput : ∀ c ∈ calls, c.putOk = true) :
    (∀ i k, Asks calls i k → (Due db calls i k → (repliesTo db calls i).length = 1) ∧
      (¬ Due db calls i k → repliesTo db calls i = [])) ∧
    AnswersHeld db calls ∧
    (∀ i k c, calls[i]? = some c → c.req = .read k → repliesTo db calls i =
      [⟨i, latest db (calls.take i) k, (latest db (calls.take i) k).isSome⟩]) ∧
    ∀ j k, (storeAfter db calls j).pending k ≠ [] → (storeAfter db calls j).db k = none := by
  have hserved := (served_storeRun db calls).2
  refine ⟨fun i k hask => ?_, ?_, hserved.reads, fun j => (served_storeAfter db calls j).absent⟩
  · have honce := hserved.once i k hask
    rw [List.countP_eq_length_filter] at honce
    constructor
    · intro hdue
      have hnot : i ∉ (storeRun db calls).1.store.pending k := by
        rw [hserved.waits i k hask, not_not]
        exact hdue
      rw [List.count_eq_zero_of_not_mem hnot] at honce
      exact honce
    · intro hdue
      have hpos := List.count_pos_iff.mpr ((hserved.waits i k hask).mpr hdue)
      refine List.length_eq_zero_iff.mp ?_
      unfold repliesTo
      omega
  · refine answersHeld_of_failsUnwatched fun j key val hc => ?_
    have hok := hput _ (List.mem_of_getElem? hc)
    cases hok

/-- A store over an empty database. Two requests wait for different keys, of which one is written,
and then a request finds the key. -/
def demoCalls : List (StoreCall ℕ ℕ) :=
  [⟨.notifyRead 1, true⟩, ⟨.notifyRead 2, true⟩, ⟨.write 1 5, true⟩, ⟨.notifyRead 1, true⟩,
    ⟨.write 1 6, true⟩, ⟨.read 1, true⟩]

/-- The two requests for the key that is written are answered, and the other is not. -/
theorem notifyRead_once_six : (repliesTo (fun _ => none) demoCalls 0).length = 1 ∧
    repliesTo (fun _ => none) demoCalls 1 = [] ∧
    (repliesTo (fun _ => none) demoCalls 3).length = 1 := by
  obtain ⟨honce, -⟩ := notifyRead_once (fun _ => none) demoCalls (by decide)
  refine ⟨(honce 0 1 ⟨_, rfl, rfl⟩).1 (.inr ⟨_, List.mem_cons_of_mem _ List.mem_cons_self, 5, rfl⟩),
    (honce 1 2 ⟨_, rfl, rfl⟩).2 ?_, (honce 3 1 ⟨_, rfl, rfl⟩).1 (.inl rfl)⟩
  rintro (hthere | ⟨c, hc, val, hval⟩)
  · cases hthere
  · -- Of the requests after it, none writes key 2.
    have hnone : ∀ c ∈ demoCalls.drop 2, c.written? 2 = none := by decide
    have hwrites := hnone c hc
    have hok : c.putOk = true := (by decide : ∀ c ∈ demoCalls.drop 2, c.putOk = true) c hc
    obtain ⟨req, putOk⟩ := c
    obtain rfl : req = .write 2 val := hval
    obtain rfl : putOk = true := hok
    cases hwrites

/-- Each of the two, that every answer is a value that the database holds and that a write that
fails leaves the queues alone, is so if and only if nothing waits for the key of such a write. -/
theorem failed_write_iff (db : K → Option V) (calls : List (StoreCall K V)) :
    (AnswersHeld db calls ↔ FailsUnwatched db calls) ∧
      (FailuresKeepQueues db calls ↔ FailsUnwatched db calls) :=
  ⟨⟨failsUnwatched_of_answersHeld, answersHeld_of_failsUnwatched⟩, failuresKeepQueues_iff⟩

/-- A request waits for a key, and the write to the key fails: the request gets the value, which the
database does not have, and is taken from the queue. -/
theorem failed_write_answers :
    repliesAt (fun _ => none) [⟨.notifyRead 1, true⟩, ⟨.write 1 5, false⟩] 1 =
      [⟨1, some 5, false⟩, ⟨0, some 5, true⟩] ∧
    (storeAfter (fun _ => none) [⟨.notifyRead 1, true⟩, ⟨.write 1 5, false⟩] 2).db 1 = none ∧
    (storeAfter (fun _ => none) [⟨.notifyRead 1, true⟩, ⟨.write 1 5, false⟩] 1).pending 1 = [0] ∧
    (storeAfter (fun _ => none) [⟨.notifyRead 1, true⟩, ⟨.write 1 5, false⟩] 2).pending 1 = [] := by
  decide

end SMVBA
