import Mathlib.Data.List.Nodup
import SMVBA.Library.Mealy

/-!
# Tasks with keys

A task is started for a key, it ends, and its end is collected, in the order in which the tasks have
ended. It is open from its start until its end is collected. A `Log` says which tasks there were, by
their numbers, and carries that no end is there twice and that a key has one open task at most. So
it can only be extended by a task whose key is free (`start`), by the end of a task that has not
ended (`finish`) and by collecting the first end that is not yet collected (`collect`).
-/

namespace Tasks

variable {κ : Type*}

/-- The tasks that were started, and those of them that have ended. -/
structure Log (κ : Type*) where
  /-- The key of each task. -/
  keys : List κ
  /-- The ends that were collected, each with the number and the key of the task. -/
  collected : List (ℕ × κ)
  /-- The ends that wait to be collected. -/
  ended : List (ℕ × κ)
  nodup : ((collected ++ ended).map Prod.fst).Nodup
  started : ∀ e ∈ collected ++ ended, keys[e.1]? = some e.2
  unique : ∀ k k' h, keys[k]? = some h → (k, h) ∉ collected → keys[k']? = some h →
    (k', h) ∉ collected → k = k'

namespace Log

variable (t : Log κ) {k : ℕ} {h : κ}

/-- The task with the number `k` has the key and is open. -/
def Open (k : ℕ) (h : κ) : Prop := t.keys[k]? = some h ∧ (k, h) ∉ t.collected

/-- Nothing was started. -/
def empty : Log κ where
  keys := []
  collected := []
  ended := []
  nodup := List.nodup_nil
  started := by simp
  unique := by simp

/-- A task is started for a key that no open task has. -/
def start (h : κ) (hfree : ∀ k, ¬ t.Open k h) : Log κ where
  keys := t.keys ++ [h]
  collected := t.collected
  ended := t.ended
  nodup := t.nodup
  started e he := by
    have hold := t.started e he
    rw [List.getElem?_append_left (List.getElem?_eq_some_iff.mp hold).1, hold]
  unique := by
    -- Of two open tasks with one key, none is the new one, unless both are.
    have hcases : ∀ {k h'}, (t.keys ++ [h])[k]? = some h' → (k, h') ∉ t.collected →
        t.Open k h' ∨ (k = t.keys.length ∧ h' = h) := by
      intro k h' hk hnot
      rcases Mealy.getElem?_of_concat hk with hold | ⟨hlast, heq⟩
      · exact .inl ⟨hold, hnot⟩
      · exact .inr ⟨hlast, heq.symm⟩
    intro k k' h' hk hnot hk' hnot'
    rcases hcases hk hnot with hopen | ⟨rfl, rfl⟩
    · rcases hcases hk' hnot' with hopen' | ⟨rfl, rfl⟩
      · exact t.unique k k' h' hopen.1 hopen.2 hopen'.1 hopen'.2
      · exact absurd hopen (hfree k)
    · rcases hcases hk' hnot' with hopen' | ⟨rfl, -⟩
      · exact absurd hopen' (hfree k')
      · rfl

/-- A task ends. -/
def finish (hk : t.keys[k]? = some h) (hnew : (k, h) ∉ t.collected ++ t.ended) : Log κ where
  keys := t.keys
  collected := t.collected
  ended := t.ended ++ [(k, h)]
  nodup := by
    rw [← List.append_assoc, List.map_append, List.nodup_append]
    refine ⟨t.nodup, List.nodup_singleton _, ?_⟩
    rintro j hj j' hj' rfl
    obtain rfl : j = k := List.mem_singleton.mp hj'
    obtain ⟨⟨j, h'⟩, hmem, rfl⟩ := List.mem_map.mp hj
    obtain rfl : h = h' := Option.some.inj (hk.symm.trans (t.started _ hmem))
    exact hnew hmem
  started e he := by
    rw [← List.append_assoc] at he
    rcases List.mem_append.mp he with he | he
    · exact t.started e he
    · rw [List.mem_singleton.mp he, hk]
  unique := t.unique

/-- The first end is collected. -/
def collect {e : ℕ × κ} {rest : List (ℕ × κ)} (he : t.ended = e :: rest) : Log κ where
  keys := t.keys
  collected := t.collected ++ [e]
  ended := rest
  nodup := by
    rw [List.append_assoc, List.singleton_append, ← he]
    exact t.nodup
  started e' he' := by
    rw [List.append_assoc, List.singleton_append, ← he] at he'
    exact t.started e' he'
  unique k k' h hk hnot hk' hnot' :=
    t.unique k k' h hk (fun hmem => hnot (List.mem_append_left _ hmem)) hk'
      fun hmem => hnot' (List.mem_append_left _ hmem)

/-! ## Open tasks -/

variable {t}

/-- An end that waits to be collected is that of an open task. -/
theorem open_of_ended {e : ℕ × κ} (he : e ∈ t.ended) : t.Open e.1 e.2 := by
  refine ⟨t.started e (List.mem_append_right _ he), fun hmem => ?_⟩
  have hnodup := t.nodup
  rw [List.map_append, List.nodup_append] at hnodup
  exact hnodup.2.2 _ (List.mem_map_of_mem hmem) _ (List.mem_map_of_mem he) rfl

/-- A new task is open, and the others stay as they are. -/
theorem exists_open_start {h' : κ} {hfree : ∀ k, ¬ t.Open k h} :
    (∃ k, (t.start h hfree).Open k h') ↔ (∃ k, t.Open k h') ∨ h' = h := by
  constructor
  · rintro ⟨k, hk, hnot⟩
    rcases Mealy.getElem?_of_concat hk with hold | ⟨-, heq⟩
    · exact .inl ⟨k, hold, hnot⟩
    · exact .inr heq.symm
  · rintro (⟨k, hk, hnot⟩ | rfl)
    · refine ⟨k, ?_, hnot⟩
      exact (List.getElem?_append_left (List.getElem?_eq_some_iff.mp hk).1).trans hk
    · refine ⟨t.keys.length, List.getElem?_concat_length, fun hmem => ?_⟩
      have hlt := t.started _ (List.mem_append_left _ hmem)
      rw [List.getElem?_eq_none (Nat.le_refl _)] at hlt
      cases hlt

/-- A task whose end is collected is open no longer, and so its key is free. -/
theorem exists_open_collect {h' : κ} {e : ℕ × κ} {rest : List (ℕ × κ)} {he : t.ended = e :: rest} :
    (∃ k, (t.collect he).Open k h') ↔ (∃ k, t.Open k h') ∧ h' ≠ e.2 := by
  have hopen : t.Open e.1 e.2 := open_of_ended (he ▸ List.mem_cons_self)
  constructor
  · rintro ⟨k, hk, hnot⟩
    have hold : t.Open k h' := ⟨hk, fun hmem => hnot (List.mem_append_left _ hmem)⟩
    refine ⟨⟨k, hold⟩, ?_⟩
    rintro rfl
    -- It would be the task that was collected.
    have hsame := t.unique k e.1 e.2 hold.1 hold.2 hopen.1 hopen.2
    exact hnot (List.mem_append_right _ (by simp [hsame]))
  · rintro ⟨⟨k, hk, hnot⟩, hne⟩
    refine ⟨k, hk, fun hmem => ?_⟩
    rcases List.mem_append.mp hmem with hmem | hmem
    · exact hnot hmem
    · exact hne (congrArg Prod.snd (List.mem_singleton.mp hmem))

end Log

end Tasks
