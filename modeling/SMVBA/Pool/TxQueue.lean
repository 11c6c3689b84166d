import Mathlib.Data.Finset.Card
import Mathlib.Data.Int.Notation
import Mathlib.Data.List.Nodup
import Mathlib.Data.List.ReduceOption
import SMVBA.Library.Mealy
import SMVBA.Library.Ring

/-!
# The transaction queue

`pool/pool.go`. Transactions are written into a ring of `maxQueueSize` cells, and as soon as
`batchSize` of them are there they are read again, as one batch. The write index `wind` is the cell
after the last transaction, and the read index `rind` is the cell before the first one, which at the
start is `-1`. The queue counts as full when the two are the same, so that a ring that has been read
has room for `maxQueueSize - 1` transactions, and a ring that has not been read is never full. The
ids of the batches are computed in `int`, with 64 bits, and wrap around; the indices and counters of
the ring are bounded by its size.

None of this matters if a batch is smaller than the ring: then the queue is never full, and what is
left of the stream after its full batches lies in the ring (`Follows`). A batch as large as the ring
is made once and never again (`run_of_eq`). A larger one would need more cells than there are
(`run_subset`).
-/

namespace SMVBA

/-- A `pool.Transaction`. -/
abbrev Transaction := List UInt8

/-- `pool.Batch`. -/
structure Batch where
  id : ℤ
  txs : List Transaction
deriving DecidableEq, Repr

/-- `txQueue`, less its channel. -/
structure TxQueue where
  queue : List Transaction
  wind : ℤ
  rind : ℤ
  nums : ℤ
  maxQueueSize : ℕ
  batchSize : ℕ
  n : ℤ
  id : ℤ
  bcnt : ℕ
deriving DecidableEq, Repr

/-- `newTxQueue`. -/
def newTxQueue (maxQueueSize batchSize : ℕ) (n id : ℤ) : TxQueue where
  queue := List.replicate maxQueueSize []
  wind := 0
  rind := -1
  nums := 0
  maxQueueSize := maxQueueSize
  batchSize := batchSize
  n := n
  id := id
  bcnt := 0

/-- The value of an `int` of 64 bits for the result of a computation. -/
def int64 (x : ℤ) : ℤ := (BitVec.ofInt 64 x).toInt

/-- Ids wrap around: the second batch of a pool with `N = 2^62`, and the fourth one. -/
example : int64 (0 + 2 ^ 62 * 1) = 2 ^ 62 ∧ int64 (0 + 2 ^ 62 * 3) = -2 ^ 62 := by decide

namespace TxQueue

/-- The loop of `txQueue.make`: the read index after so many turns from `rind` on, and the
transactions read. -/
def readTxs (queue : List Transaction) (maxQueueSize : ℕ) : ℕ → ℤ → ℤ × List Transaction
  | 0, rind => (rind, [])
  | i + 1, rind =>
    let rind := (rind + 1) % maxQueueSize
    let r := readTxs queue maxQueueSize i rind
    (r.1, queue.getD rind.toNat [] :: r.2)

/-- `txQueue.make`, with the batch that it puts on `batchChannel`. Each turn of its loop takes one
off `nums`. That `bcnt` would wrap around as well makes no difference to the id. -/
def make (q : TxQueue) : TxQueue × Batch :=
  let r := readTxs q.queue q.maxQueueSize q.batchSize q.rind
  ({ q with rind := r.1, nums := q.nums - q.batchSize, bcnt := q.bcnt + 1 },
    ⟨int64 (q.id + q.n * q.bcnt), r.2⟩)

/-- The write of a transaction in `txQueue.run`. -/
def write (q : TxQueue) (tx : Transaction) : TxQueue :=
  { q with
    queue := q.queue.set q.wind.toNat tx
    wind := (q.wind + 1) % q.maxQueueSize
    nums := q.nums + 1 }

/-- One turn of the loop of `txQueue.run`, with the batch that it makes. A transaction that finds
the queue full is dropped. -/
def put (q : TxQueue) (tx : Transaction) : TxQueue × Option Batch :=
  if q.wind = q.rind then (q, none)
  else if q.batchSize ≤ (q.write tx).nums then
    ((q.write tx).make.1, some (q.write tx).make.2)
  else (q.write tx, none)

/-- The batches that `txQueue.run` sends for a stream of transactions. -/
def run (q : TxQueue) (txs : List Transaction) : List Batch :=
  (Mealy.run put q txs).2.reduceOption

/-! ## Reading -/

variable {queue : List Transaction} {m b : ℕ} {rind : ℤ}

/-- The read index after some turns. -/
theorem readTxs_rind (queue : List Transaction) (hm : 0 < m) (i : ℕ) (rind : ℤ) :
    ((readTxs queue m i rind).1 + 1) % m = (rind + 1 + i) % m ∧
      (0 < i → 0 ≤ (readTxs queue m i rind).1 ∧ (readTxs queue m i rind).1 < m) := by
  have hpos : (0 : ℤ) < m := Int.natCast_pos.mpr hm
  induction i generalizing rind with
  | zero => simp [readTxs]
  | succ i ih =>
    obtain ⟨hmod, hrange⟩ := ih ((rind + 1) % m)
    dsimp only [readTxs]
    refine ⟨?_, fun _ => ?_⟩
    · rw [hmod, Int.add_assoc, Int.emod_add_emod]
      congr 1
      omega
    · cases i with
      | zero => exact ⟨Int.emod_nonneg _ hpos.ne', Int.emod_lt_of_pos _ hpos⟩
      | succ i => exact hrange (Nat.succ_pos i)

/-- What is read comes from the cells. -/
theorem readTxs_subset (hm : 0 < queue.length) (i : ℕ) (rind : ℤ) :
    (readTxs queue queue.length i rind).2 ⊆ queue := by
  have hpos : (0 : ℤ) < queue.length := Int.natCast_pos.mpr hm
  induction i generalizing rind with
  | zero => exact List.nil_subset _
  | succ i ih =>
    dsimp only [readTxs]
    refine List.cons_subset.mpr ⟨?_, ih _⟩
    have hlt : ((rind + 1) % queue.length).toNat < queue.length := by
      have hlow := Int.emod_nonneg (rind + 1) hpos.ne'
      have hhigh := Int.emod_lt_of_pos (rind + 1) hpos
      omega
    rw [List.getD_eq_getElem?_getD, List.getElem?_eq_getElem hlt, Option.getD_some]
    exact List.getElem_mem hlt

/-- The transactions that lie in the cells after the read index are read in their order. -/
theorem readTxs_stored {start i : ℕ} {l : List Transaction} (h : Ring.Stored queue start l)
    (hrind : (rind + 1) % queue.length = (start % queue.length : ℕ)) (hi : i ≤ l.length) :
    (readTxs queue queue.length i rind).2 = l.take i := by
  induction i generalizing rind start l with
  | zero => rfl
  | succ i ih =>
    cases l with
    | nil => exact absurd hi (Nat.not_succ_le_zero i)
    | cons tx l =>
      obtain ⟨hfirst, hrest⟩ := h.read
      dsimp only [readTxs]
      rw [List.take_succ_cons, ih hrest ?_ (Nat.le_of_succ_le_succ hi), hrind, Int.toNat_natCast,
        List.getD_eq_getElem?_getD, hfirst, Option.getD_some]
      rw [Int.emod_add_emod, Int.natCast_emod, ← Int.emod_add_emod (rind + 1), hrind,
        Int.natCast_emod, Int.emod_add_emod]
      rfl

/-! ## Every queue -/

variable {q : TxQueue} {tx : Transaction}

theorem put_full (h : q.wind = q.rind) : q.put tx = (q, none) := if_pos h

theorem put_kept (h : q.wind ≠ q.rind) (hlt : q.nums + 1 < q.batchSize) :
    q.put tx = (q.write tx, none) := by
  unfold put
  rw [if_neg h]
  exact if_neg (Int.not_le.mpr hlt)

theorem put_batch (h : q.wind ≠ q.rind) (hle : q.batchSize ≤ q.nums + 1) :
    q.put tx = ((q.write tx).make.1, some (q.write tx).make.2) := by
  unfold put
  rw [if_neg h]
  exact if_pos hle

/-- What holds of a queue at any time, whatever the sizes are: the write index is `nums` cells after
the one that is read next, and there is less than a batch. -/
structure Formed (m b : ℕ) (q : TxQueue) : Prop where
  pos : 0 < m
  size : q.maxQueueSize = m
  batch : q.batchSize = b
  length : q.queue.length = m
  wind : q.wind = (q.rind + 1 + q.nums) % m
  rind_ge : -1 ≤ q.rind
  rind_lt : q.rind < m
  nums_nonneg : 0 ≤ q.nums
  nums_lt : q.nums < b

theorem formed_new (hm : 0 < m) (hb : 0 < b) (n id : ℤ) : Formed m b (newTxQueue m b n id) where
  pos := hm
  size := rfl
  batch := rfl
  length := List.length_replicate
  wind := by simp [newTxQueue]
  rind_ge := Int.le_refl _
  rind_lt := by
    dsimp only [newTxQueue]
    omega
  nums_nonneg := Int.le_refl _
  nums_lt := Int.natCast_pos.mpr hb

namespace Formed

variable (h : Formed m b q)

include h

/-- The queue counts as full exactly when it has been read and one more transaction would close the
ring. -/
theorem full_iff (hle : b ≤ m) : q.wind = q.rind ↔ 0 ≤ q.rind ∧ q.nums + 1 = m := by
  have hpos : (0 : ℤ) < m := Int.natCast_pos.mpr h.pos
  have hnums := h.nums_nonneg
  have hlt := h.nums_lt
  rw [h.wind]
  constructor
  · intro heq
    have hnonneg : 0 ≤ q.rind := heq ▸ Int.emod_nonneg _ hpos.ne'
    refine ⟨hnonneg, ?_⟩
    -- The distance between the two indices is a multiple of the size.
    have hself : q.rind % m = q.rind := Int.emod_eq_of_lt hnonneg h.rind_lt
    have hzero := Int.emod_eq_emod_iff_emod_sub_eq_zero.mp (heq.trans hself.symm)
    have hdvd := Int.dvd_of_emod_eq_zero hzero
    have hbound := Int.le_of_dvd (by omega) hdvd
    omega
  · rintro ⟨hnonneg, hnums⟩
    have hsum : q.rind + 1 + q.nums = q.rind + m := by omega
    rw [hsum, Int.add_emod_right, Int.emod_eq_of_lt hnonneg h.rind_lt]

/-- A transaction that does not complete a batch. -/
theorem write (hlt : q.nums + 1 < b) : Formed m b (q.write tx) where
  pos := h.pos
  size := h.size
  batch := h.batch
  length := by
    dsimp only [TxQueue.write]
    rw [List.length_set, h.length]
  wind := by
    dsimp only [TxQueue.write]
    rw [h.size, h.wind, Int.emod_add_emod, Int.add_assoc (q.rind + 1)]
  rind_ge := h.rind_ge
  rind_lt := h.rind_lt
  nums_nonneg := Int.le_add_one h.nums_nonneg
  nums_lt := hlt

/-- A transaction that completes a batch. The queue has been read then. -/
theorem make (hb : q.nums + 1 = b) :
    Formed m b (q.write tx).make.1 ∧ 0 ≤ (q.write tx).make.1.rind := by
  have hnums := h.nums_nonneg
  obtain ⟨hmod, hrange⟩ := readTxs_rind (q.write tx).queue h.pos b q.rind
  obtain ⟨hge, hlt⟩ := hrange (by omega)
  have hrind : (q.write tx).make.1.rind = (readTxs (q.write tx).queue m b q.rind).1 := by
    rw [← h.size, ← h.batch]
    rfl
  have hzero : (q.write tx).make.1.nums = 0 := by
    have hbatch := h.batch
    dsimp only [TxQueue.make, TxQueue.write]
    omega
  rw [← hrind] at hmod hge hlt
  refine ⟨?_, hge⟩
  constructor
  case pos => exact h.pos
  case size => exact h.size
  case batch => exact h.batch
  case length => exact (List.length_set ..).trans h.length
  case wind =>
    rw [hzero, Int.add_zero, hmod, ← hb]
    dsimp only [TxQueue.make, TxQueue.write]
    rw [h.size, h.wind, Int.emod_add_emod, Int.add_assoc (q.rind + 1)]
  case rind_ge => omega
  case rind_lt => exact hlt
  case nums_nonneg => exact hzero.ge
  case nums_lt => omega

/-- The batch that is made. -/
theorem make_txs : (q.write tx).make.2.txs =
    (readTxs (q.write tx).queue (q.write tx).queue.length b q.rind).2 := by
  have hlength : (q.write tx).queue.length = m := (List.length_set ..).trans h.length
  rw [hlength, ← h.size, ← h.batch]
  rfl

/-- What one turn of the loop does: it drops the transaction, keeps it, or makes a batch of it and
those before it. -/
theorem put_cases (tx : Transaction) :
    (q.wind = q.rind ∧ q.put tx = (q, none)) ∨
    (q.wind ≠ q.rind ∧ q.nums + 1 < b ∧ q.put tx = (q.write tx, none)) ∨
    (q.wind ≠ q.rind ∧ q.nums + 1 = b ∧
      q.put tx = ((q.write tx).make.1, some (q.write tx).make.2)) := by
  have hbatch := h.batch
  have hlt := h.nums_lt
  by_cases hfull : q.wind = q.rind
  · exact .inl ⟨hfull, put_full hfull⟩
  · rcases lt_or_eq_of_le (Int.add_one_le_of_lt hlt) with hkept | hmade
    · exact .inr (.inl ⟨hfull, hkept, put_kept hfull (hbatch ▸ hkept)⟩)
    · exact .inr (.inr ⟨hfull, hmade, put_batch hfull (hbatch ▸ hmade.ge)⟩)

theorem put (tx : Transaction) : Formed m b (q.put tx).1 := by
  rcases h.put_cases tx with ⟨-, heq⟩ | ⟨-, hlt, heq⟩ | ⟨-, hb, heq⟩
  · rw [heq]
    exact h
  · rw [heq]
    exact h.write hlt
  · rw [heq]
    exact (h.make hb).1

end Formed

/-! ## Batches that are too large -/

/-- Of batches as large as the ring there is at most one: none is made once the queue has been read.
-/
theorem run_of_eq (hm : 0 < m) (n id : ℤ) (txs : List Transaction) :
    (run (newTxQueue m m n id) txs).length ≤ 1 := by
  have hinv := Mealy.run_invariant TxQueue.put (x := newTxQueue m m n id)
    (I := fun _ q bs => Formed m m q ∧ bs.reduceOption.length ≤ if 0 ≤ q.rind then 1 else 0)
    ⟨formed_new hm hm n id, Nat.zero_le _⟩ ?_ txs
  · refine hinv.2.trans ?_
    split_ifs <;> omega
  · rintro - q bs tx ⟨hq, hone⟩
    refine ⟨hq.put tx, ?_⟩
    rw [List.reduceOption_append, List.length_append]
    rcases hq.put_cases tx with ⟨-, heq⟩ | ⟨-, -, heq⟩ | ⟨hfull, hb, heq⟩
    · rw [heq]
      exact hone
    · rw [heq]
      exact hone
    · -- A queue that has been read would have been full.
      have hfirst : ¬ 0 ≤ q.rind := fun hread => hfull ((hq.full_iff le_rfl).mpr ⟨hread, hb⟩)
      rw [if_neg hfirst] at hone
      rw [heq, if_pos (hq.make hb).2]
      simpa using hone

/-- The transactions of a batch were all in the ring at once. -/
theorem run_subset (hm : 0 < m) (hb : 0 < b) (n id : ℤ) (txs : List Transaction) :
    ∀ batch ∈ run (newTxQueue m b n id) txs, ∃ cells : List Transaction,
      cells.length = m ∧ batch.txs ⊆ cells := by
  have hinv := Mealy.run_invariant TxQueue.put (x := newTxQueue m b n id)
    (I := fun _ q bs => Formed m b q ∧ ∀ batch ∈ bs.reduceOption, ∃ cells : List Transaction,
      cells.length = m ∧ batch.txs ⊆ cells)
    ⟨formed_new hm hb n id, by simp⟩ ?_ txs
  · exact hinv.2
  · rintro - q bs tx ⟨hq, hbs⟩
    refine ⟨hq.put tx, ?_⟩
    rw [List.reduceOption_append]
    rcases hq.put_cases tx with ⟨-, heq⟩ | ⟨-, -, heq⟩ | ⟨-, hb, heq⟩
    · rw [heq]
      simpa using hbs
    · rw [heq]
      simpa using hbs
    · rw [heq]
      intro batch hbatch
      rcases List.mem_append.mp hbatch with hold | hnew
      · exact hbs batch hold
      · obtain rfl : batch = (q.write tx).make.2 := by simpa using hnew
        have hlength : (q.write tx).queue.length = m := (List.length_set ..).trans hq.length
        refine ⟨(q.write tx).queue, hlength, ?_⟩
        rw [hq.make_txs]
        exact readTxs_subset (hlength ▸ hm) b q.rind

/-! ## Batches that are smaller than the ring -/

/-- The full batches of a stream, with the ids that they are to have, in the arithmetic of `int`. -/
def fullBatches (b : ℕ) (n id : ℤ) (txs : List Transaction) : List Batch :=
  (Ring.batches b txs).mapIdx fun j txs => ⟨int64 (id + n * j), txs⟩

/-- A queue that has taken a stream: what is left after the full batches lies in the ring. -/
structure Follows (m b : ℕ) (n id : ℤ) (txs : List Transaction) (q : TxQueue) : Prop where
  formed : Formed m b q
  n_eq : q.n = n
  id_eq : q.id = id
  bcnt : q.bcnt = txs.length / b
  nums : q.nums = (Ring.rest b txs).length
  rind : (q.rind + 1) % m = (txs.length / b * b % m : ℕ)
  stored : Ring.Stored q.queue (txs.length / b * b) (Ring.rest b txs)

namespace Follows

variable {n id : ℤ} {txs : List Transaction}

theorem new (hm : 0 < m) (hb : 0 < b) (n id : ℤ) : Follows m b n id [] (newTxQueue m b n id) where
  formed := formed_new hm hb n id
  n_eq := rfl
  id_eq := rfl
  bcnt := (Nat.zero_div b).symm
  nums := by simp [newTxQueue, Ring.rest]
  rind := by simp [newTxQueue]
  stored := by
    rw [Ring.rest, List.drop_nil]
    exact .nil

variable (h : Follows m b n id txs q)

include h

/-- The queue is never full. -/
theorem not_full (hlt : b < m) : q.wind ≠ q.rind := by
  intro hfull
  have hnums := ((h.formed.full_iff hlt.le).mp hfull).2
  have hless := h.formed.nums_lt
  omega

/-- A write goes to the cell after the last transaction. -/
theorem write_stored (hlt : b < m) (tx : Transaction) :
    Ring.Stored (q.write tx).queue (txs.length / b * b) (Ring.rest b txs ++ [tx]) := by
  have hfree : (Ring.rest b txs).length < q.queue.length := by
    have hnums := h.nums
    have hless := h.formed.nums_lt
    rw [h.formed.length]
    omega
  have hwind : q.wind.toNat =
      (txs.length / b * b + (Ring.rest b txs).length) % q.queue.length := by
    rw [h.formed.wind, ← Int.emod_add_emod, h.rind, h.nums, h.formed.length, Int.natCast_emod,
      Int.emod_add_emod, ← Int.natCast_add, ← Int.natCast_emod, Int.toNat_natCast]
  dsimp only [TxQueue.write]
  rw [hwind]
  exact h.stored.write hfree tx

/-- A transaction that does not complete a batch adds to the rest. -/
theorem kept (hlt : b < m) (hnums : q.nums + 1 < b) (tx : Transaction) :
    Follows m b n id (txs ++ [tx]) (q.write tx) ∧
      fullBatches b n id (txs ++ [tx]) = fullBatches b n id txs := by
  have hrest : (Ring.rest b txs).length + 1 < b := by
    have heq := h.nums
    omega
  obtain ⟨hbatches, hnew⟩ := Ring.concat_of_lt hrest tx
  have hdiv : (txs ++ [tx]).length / b = txs.length / b := by
    rw [← Ring.length_batches, hbatches, Ring.length_batches]
  constructor
  · constructor
    case formed => exact h.formed.write hnums
    case n_eq => exact h.n_eq
    case id_eq => exact h.id_eq
    case bcnt => rw [hdiv]; exact h.bcnt
    case nums =>
      rw [hnew, List.length_append, List.length_singleton]
      dsimp only [TxQueue.write]
      rw [h.nums]
      rfl
    case rind => rw [hdiv]; exact h.rind
    case stored =>
      rw [hdiv, hnew]
      exact h.write_stored hlt tx
  · rw [fullBatches, hbatches, fullBatches]

/-- A transaction that completes a batch has it made of the rest. -/
theorem made (hlt : b < m) (hnums : q.nums + 1 = b) (tx : Transaction) :
    Follows m b n id (txs ++ [tx]) (q.write tx).make.1 ∧
      fullBatches b n id (txs ++ [tx]) = fullBatches b n id txs ++ [(q.write tx).make.2] := by
  have hrest : (Ring.rest b txs).length + 1 = b := by
    have heq := h.nums
    omega
  obtain ⟨hbatches, hnew⟩ := Ring.concat_of_eq hrest tx
  have hdiv : (txs ++ [tx]).length / b = txs.length / b + 1 := by
    rw [← Ring.length_batches, hbatches, List.length_append, Ring.length_batches]
    rfl
  have hlength : (q.write tx).queue.length = m := (List.length_set ..).trans h.formed.length
  have htxs : (q.write tx).make.2.txs = Ring.rest b txs ++ [tx] := by
    rw [h.formed.make_txs, readTxs_stored (h.write_stored hlt tx) (by rw [hlength, h.rind])
      (by simpa using hrest.ge)]
    exact List.take_of_length_le (by simpa using hrest.le)
  have hrind : ((q.write tx).make.1.rind + 1) % m = (q.rind + 1 + b) % m := by
    have hmod := (readTxs_rind (q.write tx).queue h.formed.pos b q.rind).1
    rw [← h.formed.size, ← h.formed.batch] at hmod ⊢
    exact hmod
  constructor
  · constructor
    case formed => exact (h.formed.make hnums).1
    case n_eq => exact h.n_eq
    case id_eq => exact h.id_eq
    case bcnt => rw [hdiv, ← h.bcnt]; rfl
    case nums =>
      have hbatch := h.formed.batch
      rw [hnew, List.length_nil]
      dsimp only [TxQueue.make, TxQueue.write]
      omega
    case rind =>
      rw [hrind, ← Int.emod_add_emod, h.rind, hdiv, Nat.succ_mul, Int.natCast_emod,
        Int.emod_add_emod, Int.natCast_emod, Int.natCast_add]
    case stored =>
      rw [hnew]
      exact .nil
  · rw [fullBatches, hbatches, List.mapIdx_concat, ← fullBatches, Ring.length_batches, ← h.bcnt,
      ← htxs, ← h.n_eq, ← h.id_eq]
    rfl

end Follows

/-- Batches that are smaller than the ring are the full batches of the stream. -/
theorem run_of_lt (hb : 0 < b) (hlt : b < m) (n id : ℤ) (txs : List Transaction) :
    run (newTxQueue m b n id) txs = fullBatches b n id txs := by
  have hm : 0 < m := hb.trans hlt
  have hinv := Mealy.run_invariant TxQueue.put (x := newTxQueue m b n id)
    (I := fun txs q bs => Follows m b n id txs q ∧ bs.reduceOption = fullBatches b n id txs)
    ⟨.new hm hb n id, by simp [fullBatches, Ring.batches]⟩ ?_ txs
  · exact hinv.2
  · rintro txs q bs tx ⟨hq, hbs⟩
    rw [List.reduceOption_append, hbs]
    rcases hq.formed.put_cases tx with ⟨hfull, -⟩ | ⟨-, hkept, heq⟩ | ⟨-, hmade, heq⟩
    · exact absurd hfull (hq.not_full hlt)
    · obtain ⟨hnext, hsame⟩ := hq.kept hlt hkept tx
      rw [heq, hsame]
      exact ⟨hnext, by simp⟩
    · obtain ⟨hnext, hone⟩ := hq.made hlt hmade tx
      rw [heq, hone]
      exact ⟨hnext, rfl⟩

/-- `txQueue.run` is a lossless FIFO: for every stream it sends the full batches of the stream, in
order, with consecutive ids. -/
def Lossless (m b : ℕ) (n id : ℤ) : Prop :=
  ∀ txs, run (newTxQueue m b n id) txs = fullBatches b n id txs

/-- Transactions that all differ. -/
def differing (k : ℕ) : List Transaction := (List.range k).map fun i => List.replicate i 0

theorem nodup_differing (k : ℕ) : (differing k).Nodup := by
  refine List.Nodup.map (fun i j hij => ?_) List.nodup_range
  simpa using congrArg List.length hij

/-- The queue is a lossless FIFO exactly when a batch is smaller than the ring. -/
theorem lossless_iff (hm : 1 ≤ m) (hb : 1 ≤ b) (n id : ℤ) : Lossless m b n id ↔ b < m := by
  refine ⟨fun hloss => ?_, fun hlt txs => run_of_lt hb hlt n id txs⟩
  have hle : b ≤ m := by
    -- A first batch of `b` different transactions lies in `m` cells.
    have hrun := hloss (differing b)
    have hfirst : fullBatches b n id (differing b) = [⟨int64 id, differing b⟩] := by
      rw [fullBatches, Ring.batches_of_length hb (by simp [differing])]
      simp
    rw [hfirst] at hrun
    obtain ⟨cells, hcells, hsub⟩ := run_subset hm hb n id (differing b)
      ⟨int64 id, differing b⟩ (by rw [hrun]; exact List.mem_singleton_self _)
    have hcard := (nodup_differing b).subperm hsub
    have hlen := hcard.length_le
    rw [hcells] at hlen
    simpa [differing] using hlen
  refine lt_of_le_of_ne hle fun heq => ?_
  subst heq
  have hone := run_of_eq hm n id (differing (2 * b))
  rw [hloss, fullBatches, List.length_mapIdx, Ring.length_batches] at hone
  have htwo : (differing (2 * b)).length / b = 2 := by
    simp [differing, Nat.mul_div_cancel 2 hm]
  omega

/-- The default parameters are lossless, and a queue with room for one batch only is not. -/
theorem lossless_default : Lossless 10000 200 4 0 ∧ ¬ Lossless 200 200 4 0 :=
  ⟨(lossless_iff (by decide) (by decide) 4 0).mpr (by decide),
    fun h => absurd ((lossless_iff (by decide) (by decide) 4 0).mp h) (by decide)⟩

end TxQueue

end SMVBA
