import Mathlib.Data.Nat.Notation
import Mathlib.Logic.Relation
import Mathlib.Tactic.SplitIfs

/-!
# A bounded channel whose consumer pushes onto it

Many goroutines push onto a channel of a fixed capacity, and one takes from it. While this consumer
handles what it has taken it may have to push onto the channel itself, and until all of that is
pushed it takes nothing. A push onto a full channel waits.

A consumer that has to push onto a full channel is stuck: nobody else takes from the channel
(`Stuck.forever`). It is never stuck if there is always room for all that it has still to push
(`Fits`), and any queue of others' can put it there as long as it has something to push
(`reaches_fill`).
-/

namespace Channel

variable {α : Type*}

/-- A channel, and what its consumer has still to push before it takes the next. -/
structure Chan (α : Type*) where
  /-- What was pushed and is not taken, the oldest first. -/
  queue : List α := []
  /-- What the consumer has still to push, in order. -/
  pushing : List α := []
deriving DecidableEq

namespace Chan

variable (capacity : ℕ)

/-- Another goroutine pushes. -/
def put (x : Chan α) (a : α) : Option (Chan α) :=
  if x.queue.length < capacity then some { x with queue := x.queue ++ [a] } else none

/-- The consumer pushes the next of what it has to push. -/
def push (x : Chan α) : Option (Chan α) :=
  match x.pushing with
  | [] => none
  | a :: rest => if x.queue.length < capacity then some ⟨x.queue ++ [a], rest⟩ else none

/-- What the consumer takes, with the queue that it leaves. -/
def take (x : Chan α) : Option (α × List α) :=
  match x.pushing, x.queue with
  | [], a :: rest => some (a, rest)
  | _, _ => none

/-- The consumer is about to push onto a full channel. -/
def Stuck (x : Chan α) : Prop := x.pushing ≠ [] ∧ capacity ≤ x.queue.length

/-- There is room for all that the consumer has still to push. -/
def Fits (x : Chan α) : Prop := x.queue.length + x.pushing.length ≤ capacity

variable {capacity} {x y : Chan α} {a : α}

instance [DecidableEq α] (x : Chan α) : Decidable (x.Stuck capacity) :=
  inferInstanceAs (Decidable (_ ∧ _))

theorem put_eq_some (h : x.put capacity a = some y) :
    x.queue.length < capacity ∧ y = { x with queue := x.queue ++ [a] } := by
  unfold put at h
  split_ifs at h with hlt
  cases h
  exact ⟨hlt, rfl⟩

theorem push_eq_some (h : x.push capacity = some y) :
    ∃ a rest, x.pushing = a :: rest ∧ x.queue.length < capacity ∧ y = ⟨x.queue ++ [a], rest⟩ := by
  unfold push at h
  cases hpushing : x.pushing with
  | nil => simp [hpushing] at h
  | cons a rest =>
    simp only [hpushing] at h
    split_ifs at h with hlt
    cases h
    exact ⟨a, rest, rfl, hlt, rfl⟩

theorem take_eq_some {rest : List α} (h : x.take = some (a, rest)) :
    x.pushing = [] ∧ x.queue = a :: rest := by
  unfold take at h
  split at h
  case h_1 hpushing hqueue =>
    cases h
    exact ⟨hpushing, hqueue⟩
  case h_2 => cases h

/-! ## Room enough -/

theorem Fits.not_stuck (h : x.Fits capacity) : ¬ x.Stuck capacity := by
  rintro ⟨hpushing, hfull⟩
  have hpos := List.length_pos_iff.mpr hpushing
  unfold Fits at h
  omega

/-- Another goroutine may push while there is more room than the consumer needs. -/
theorem Fits.put (hroom : x.queue.length + x.pushing.length < capacity)
    (h : x.put capacity a = some y) : y.Fits capacity := by
  obtain ⟨-, rfl⟩ := put_eq_some h
  unfold Fits
  dsimp only
  rw [List.length_append, List.length_singleton]
  omega

/-- The consumer uses the room that it needs. -/
theorem Fits.push (hx : x.Fits capacity) (h : x.push capacity = some y) : y.Fits capacity := by
  obtain ⟨a, rest, hpushing, -, rfl⟩ := push_eq_some h
  unfold Fits at hx ⊢
  dsimp only
  rw [hpushing, List.length_cons] at hx
  rw [List.length_append, List.length_singleton]
  omega

/-! ## No way out -/

/-- Nothing moves a stuck channel. -/
theorem Stuck.forever (h : x.Stuck capacity) :
    (∀ a, x.put capacity a = none) ∧ x.push capacity = none ∧ x.take = none ∧ x.pushing ≠ [] := by
  obtain ⟨hpushing, hfull⟩ := h
  refine ⟨fun a => if_neg (Nat.not_lt.mpr hfull), ?_, ?_, hpushing⟩
  · unfold Chan.push
    split
    · rfl
    · exact if_neg (Nat.not_lt.mpr hfull)
  · unfold Chan.take
    split
    · contradiction
    · rfl

/-- The others can push as long as there is room. -/
theorem reaches_fill (l : List α) (hl : x.queue.length + l.length ≤ capacity) :
    Relation.ReflTransGen (fun x y : Chan α => ∃ a, x.put capacity a = some y) x
      { x with queue := x.queue ++ l } := by
  induction l generalizing x with
  | nil =>
    rw [List.append_nil]
  | cons a rest ih =>
    rw [List.length_cons] at hl
    have hput : x.put capacity a = some { x with queue := x.queue ++ [a] } := if_pos (by omega)
    have hrest := ih (x := { x with queue := x.queue ++ [a] })
      (by rw [List.length_append, List.length_singleton]; omega)
    rw [List.append_assoc] at hrest
    exact .head ⟨a, hput⟩ hrest

end Chan

end Channel
