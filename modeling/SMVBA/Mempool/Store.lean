import Mathlib.Logic.Function.Basic
import Mathlib.Tactic.SplitIfs

/-!
# The store

`store/store.go`. The loop of `NewStore` takes one request after the other from its channel. `READ`
and `WRITE` are answered at once. A `NOTIFYREAD` on a key that the database does not hold waits in
the queue of the key, and the next `WRITE` to the key answers the whole queue, also a write that the
database has refused. Keys, values and the names of the requests that wait are left open.
-/

namespace SMVBA

variable {K V R : Type*}

/-- The state of the loop of `NewStore`: the contents of the database, and the `NOTIFYREAD` requests
that wait, by key. -/
structure Store (K V R : Type*) where
  db : K → Option V := fun _ => none
  pending : K → List R := fun _ => []

namespace Store

variable [DecidableEq K] (s : Store K V R) {putOk : Bool} {key k : K} {val v : V} {r : R}

/-- `READ`. -/
def read (key : K) : Option V := s.db key

/-- `WRITE`, with the outcome of `DB.Put`: the store after it, and the requests that it answers. -/
def write (putOk : Bool) (key : K) (val : V) : Store K V R × List R :=
  (⟨if putOk then Function.update s.db key (some val) else s.db, Function.update s.pending key []⟩,
    s.pending key)

/-- `NOTIFYREAD`: the store after it, and whether the request was answered at once. -/
def notifyRead (key : K) (r : R) : Store K V R × Bool :=
  if (s.db key).isSome then (s, true)
  else ({ s with pending := Function.update s.pending key (s.pending key ++ [r]) }, false)

/-- The database holds the key. -/
def Holds (s : Store K V R) (key : K) : Prop := (s.db key).isSome = true

instance (key : K) : Decidable (s.Holds key) := inferInstanceAs (Decidable (_ = true))

variable {s}

theorem write_db (h : putOk = true) :
    (s.write putOk key val).1.db = Function.update s.db key (some val) :=
  if_pos h

/-- A write leaves the other keys alone. -/
theorem write_db_of_ne (hk : k ≠ key) : (s.write putOk key val).1.db k = s.db k := by
  cases hput : putOk with
  | false => rfl
  | true => rw [write_db rfl, Function.update_of_ne hk]

/-- A write makes its key present. -/
theorem holds_write_self (h : putOk = true) : (s.write putOk key val).1.Holds key := by
  rw [Holds, write_db h, Function.update_self]
  rfl

/-- No write loses a key. -/
theorem Holds.write (hk : s.Holds k) : (s.write putOk key val).1.Holds k := by
  cases hput : putOk with
  | false => exact hk
  | true =>
    by_cases hkey : k = key
    · subst hkey
      exact holds_write_self rfl
    · rw [Holds, write_db_of_ne hkey]
      exact hk

/-- The queues after a write. -/
theorem mem_pending_write (hr : r ∈ (s.write putOk key val).1.pending k) :
    k ≠ key ∧ r ∈ s.pending k := by
  have hupdate : r ∈ Function.update s.pending key [] k := hr
  by_cases hkey : k = key
  · subst hkey
    rw [Function.update_self] at hupdate
    cases hupdate
  · rw [Function.update_of_ne hkey] at hupdate
    exact ⟨hkey, hupdate⟩

theorem notifyRead_db : (s.notifyRead key r).1.db = s.db := by
  unfold notifyRead
  split_ifs <;> rfl

/-- A request is answered at once exactly when its key is present. -/
theorem notifyRead_answered : (s.notifyRead key r).2 = true ↔ s.Holds key := by
  unfold notifyRead Holds
  split_ifs with h <;> simp [h]

/-- The queues after a `NOTIFYREAD`. -/
theorem mem_pending_notifyRead {r' : R} (hr : r' ∈ (s.notifyRead key r).1.pending k) :
    r' ∈ s.pending k ∨ (k = key ∧ r' = r ∧ (s.notifyRead key r).2 = false) := by
  unfold notifyRead at hr ⊢
  split_ifs at hr ⊢ with h
  · exact .inl hr
  · dsimp only at hr ⊢
    by_cases hkey : k = key
    · subst hkey
      rw [Function.update_self] at hr
      rcases List.mem_append.mp hr with hr | hr
      · exact .inl hr
      · exact .inr ⟨rfl, List.mem_singleton.mp hr, rfl⟩
    · rw [Function.update_of_ne hkey] at hr
      exact .inl hr

end Store

end SMVBA
