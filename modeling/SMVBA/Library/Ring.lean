import Mathlib.Data.List.Basic

/-!
# Ring buffers and batches

A list of cells is read and written round and round. `Stored cells start l` says that `l` lies in
the cells from position `start` on, where positions count the cells over all rounds. Writing at the
position after `l` adds to `l` as long as there is a free cell (`Stored.write`), and reading at
`start` takes from it (`Stored.read`).

`batches b l` are the full batches of `b` elements that a list is cut into from the front, and
`rest b l` is what is left. One more element completes a batch, or adds to the rest.
-/

namespace Ring

variable {α : Type*} {cells l : List α} {start : ℕ} {a : α}

/-- The elements of a list lie in the cells from a position on. -/
def Stored (cells : List α) (start : ℕ) (l : List α) : Prop :=
  ∀ i < l.length, cells[(start + i) % cells.length]? = l[i]?

theorem Stored.nil : Stored cells start [] := fun _ hi => absurd hi (Nat.not_lt_zero _)

/-- Two positions that are less than one round apart are different cells. -/
theorem mod_ne {n i j : ℕ} (hij : i < j) (hj : j < n) : (start + i) % n ≠ (start + j) % n := by
  intro h
  have hzero := Nat.sub_mod_eq_zero_of_mod_eq h.symm
  rw [Nat.add_sub_add_left, Nat.mod_eq_of_lt (by omega)] at hzero
  omega

/-- A write after the last element adds one, if a cell is free. -/
theorem Stored.write (h : Stored cells start l) (hfree : l.length < cells.length) (a : α) :
    Stored (cells.set ((start + l.length) % cells.length) a) start (l ++ [a]) := by
  intro i hi
  rw [List.length_append, List.length_singleton] at hi
  rw [List.length_set]
  rcases Nat.lt_succ_iff_lt_or_eq.mp hi with hold | rfl
  · rw [List.getElem?_set_ne (mod_ne hold hfree).symm, List.getElem?_append_left hold]
    exact h i hold
  · have hlt : (start + l.length) % cells.length < cells.length := Nat.mod_lt _ (by omega)
    rw [List.getElem?_set_self hlt, List.getElem?_concat_length]

/-- A read at the start takes the first element. -/
theorem Stored.read (h : Stored cells start (a :: l)) :
    cells[start % cells.length]? = some a ∧ Stored cells (start + 1) l := by
  refine ⟨h 0 (Nat.succ_pos _), fun i hi => ?_⟩
  have hnext := h (i + 1) (Nat.succ_lt_succ hi)
  rwa [Nat.add_comm i 1, ← Nat.add_assoc, Nat.add_comm 1 i, List.getElem?_cons_succ] at hnext

/-! ## Batches -/

variable {b : ℕ}

/-- The full batches of a list. -/
def batches (b : ℕ) (l : List α) : List (List α) :=
  (List.range (l.length / b)).map fun j => (l.drop (j * b)).take b

/-- What is left after the full batches. -/
def rest (b : ℕ) (l : List α) : List α := l.drop (l.length / b * b)

theorem length_batches : (batches b l).length = l.length / b := by simp [batches]

theorem length_rest : (rest b l).length = l.length % b := by
  have hdiv := Nat.div_add_mod' l.length b
  rw [rest, List.length_drop]
  omega

/-- A list that is as long as a batch is one. -/
theorem batches_of_length (hb : 0 < b) (h : l.length = b) : batches b l = [l] := by
  rw [batches, h, Nat.div_self hb]
  simp [← h]

/-- A further element does not change the batches that are full. -/
theorem batches_append (a : α) :
    (List.range (l.length / b)).map (fun j => ((l ++ [a]).drop (j * b)).take b) = batches b l := by
  refine List.map_congr_left fun j hj => ?_
  have hle : (j + 1) * b ≤ l.length :=
    Nat.le_trans (Nat.mul_le_mul_right b (List.mem_range.mp hj)) (Nat.div_mul_le_self _ _)
  rw [Nat.add_mul, Nat.one_mul] at hle
  rw [List.drop_append_of_le_length (by omega), List.take_append_of_le_length]
  rw [List.length_drop]
  omega

/-- A further element adds to the rest. -/
theorem concat_of_lt (h : (rest b l).length + 1 < b) (a : α) :
    batches b (l ++ [a]) = batches b l ∧ rest b (l ++ [a]) = rest b l ++ [a] := by
  rw [length_rest] at h
  have hsplit := Nat.div_add_mod' l.length b
  have hdiv : (l ++ [a]).length / b = l.length / b := by
    rw [List.length_append, List.length_singleton]
    refine Nat.div_eq_of_lt_le (by omega) ?_
    rw [Nat.succ_mul]
    omega
  refine ⟨?_, ?_⟩
  · rw [batches, hdiv, batches_append]
  · rw [rest, hdiv, List.drop_append_of_le_length (by omega), rest]

/-- A further element completes a batch. -/
theorem concat_of_eq (h : (rest b l).length + 1 = b) (a : α) :
    batches b (l ++ [a]) = batches b l ++ [rest b l ++ [a]] ∧ rest b (l ++ [a]) = [] := by
  have hrest := h
  rw [length_rest] at h
  have hsplit := Nat.div_add_mod' l.length b
  have hdiv : (l ++ [a]).length / b = l.length / b + 1 := by
    rw [List.length_append, List.length_singleton]
    refine Nat.div_eq_of_lt_le ?_ ?_
    · rw [Nat.succ_mul]
      omega
    · rw [Nat.succ_mul, Nat.succ_mul]
      omega
  have hlast : ((l ++ [a]).drop (l.length / b * b)).take b = rest b l ++ [a] := by
    rw [List.drop_append_of_le_length (by omega)]
    refine List.take_of_length_le ?_
    rw [List.length_append, List.length_singleton]
    exact Nat.le_of_eq hrest
  refine ⟨?_, ?_⟩
  · rw [batches, hdiv, List.range_succ, List.map_append, batches_append, List.map_singleton, hlast]
  · rw [rest, hdiv]
    refine List.drop_eq_nil_of_le ?_
    rw [List.length_append, List.length_singleton, Nat.succ_mul]
    omega

end Ring
