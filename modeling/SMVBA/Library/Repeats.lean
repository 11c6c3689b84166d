import Mathlib.Data.List.Basic

/-!
# Machines that ignore repeated inputs

`first?` is the first element of a list with a key. The elements after it are of no account for the
key.

A machine takes inputs one by one, `step` being `none` where it cannot take one. Some inputs have a
key, and the machine ignores an input when it has absorbed its key before: it then does not move, as
far as `view` shows. If every input with a key leaves the key absorbed, and no input takes an
absorbed key away, then the machine shows the same after a sequence of inputs as after the sequence
that keeps, of the inputs with one key, only the first.
-/

namespace Repeats

variable {σ τ ι κ : Type*} [DecidableEq κ]

/-! ## The first of a key -/

/-- The first element of a list with a key. -/
def first? (key : ι → κ) (l : List ι) (k : κ) : Option ι := l.find? fun i => key i = k

section First

variable {key : ι → κ} {l : List ι} {i : ι} {k : κ}

@[simp] theorem first?_nil : first? key [] k = none := rfl

theorem first?_eq_none : first? key l k = none ↔ ∀ i ∈ l, key i ≠ k := by
  simp [first?]

/-- The first of a key is of the list, and has the key. -/
theorem mem_of_first? (h : first? key l k = some i) : i ∈ l ∧ key i = k := by
  have hkey := List.find?_some h
  exact ⟨List.mem_of_find?_eq_some h, by simpa using hkey⟩

/-- A further element is of no account for a key that is there. -/
theorem first?_concat_of_some {j : ι} (h : first? key l k = some j) :
    first? key (l ++ [i]) k = some j := by
  unfold first? at h ⊢
  rw [List.find?_append, h, Option.some_or]

/-- A further element is of no account for another key. -/
theorem first?_concat_of_ne (h : key i ≠ k) : first? key (l ++ [i]) k = first? key l k := by
  unfold first?
  rw [List.find?_append]
  simp [h]

/-- A further element is the first of its key, if there was none. -/
theorem first?_concat_self (h : first? key l (key i) = none) :
    first? key (l ++ [i]) (key i) = some i := by
  unfold first? at h ⊢
  rw [List.find?_append, h]
  simp

end First

/-! ## Repeated inputs -/

/-- The inputs of a sequence without those whose key was seen before, in the sequence or in `seen`.
-/
def firsts (key : ι → Option κ) : List κ → List ι → List ι
  | _, [] => []
  | seen, i :: rest =>
    match key i with
    | none => i :: firsts key seen rest
    | some k => if k ∈ seen then firsts key seen rest else i :: firsts key (k :: seen) rest

/-- A further input is kept if its key is new. -/
theorem firsts_concat (key : ι → κ) (seen : List κ) (l : List ι) (i : ι) :
    firsts (fun j => some (key j)) seen (l ++ [i]) = firsts (fun j => some (key j)) seen l ++
      if key i ∈ seen ∨ ∃ j ∈ l, key j = key i then [] else [i] := by
  induction l generalizing seen with
  | nil => simp [firsts]
  | cons j l ih =>
    simp only [List.cons_append, firsts]
    by_cases hj : key j ∈ seen
    · have hsame : (key i ∈ seen ∨ ∃ k ∈ l, key k = key i) ↔
          (key i ∈ seen ∨ ∃ k ∈ j :: l, key k = key i) := by
        have hmem : key j = key i → key i ∈ seen := fun heq => heq ▸ hj
        simp only [List.mem_cons, exists_eq_or_imp]
        tauto
      rw [if_pos hj, if_pos hj, ih seen, if_congr hsame rfl rfl]
    · have hsame : (key i ∈ key j :: seen ∨ ∃ k ∈ l, key k = key i) ↔
          (key i ∈ seen ∨ ∃ k ∈ j :: l, key k = key i) := by
        simp only [List.mem_cons, exists_eq_or_imp, eq_comm (a := key i)]
        tauto
      rw [if_neg hj, if_neg hj, ih (key j :: seen), if_congr hsame rfl rfl, List.cons_append]

/-- A machine ignores the inputs whose key it has absorbed. -/
structure Ignores (step : σ → ι → Option σ) (view : σ → τ) (key : ι → Option κ)
    (Absorbed : τ → κ → Prop) : Prop where
  /-- What a machine shows decides what it can take and what it shows then. -/
  congr : ∀ {x x' y : σ} {i : ι}, view x' = view x → step x i = some y →
    ∃ y', step x' i = some y' ∧ view y' = view y
  /-- An input leaves its key absorbed. -/
  absorb : ∀ {x y : σ} {i : ι} {k : κ}, step x i = some y → key i = some k → Absorbed (view y) k
  /-- Absorbed keys stay. -/
  keep : ∀ {x y : σ} {i : ι} {k : κ}, step x i = some y → Absorbed (view x) k → Absorbed (view y) k
  /-- An input with an absorbed key changes nothing. -/
  ignore : ∀ {x y : σ} {i : ι} {k : κ}, step x i = some y → key i = some k → Absorbed (view x) k →
    view y = view x

/-- Such a machine shows the same after the first inputs of each key as after all of them. -/
theorem Ignores.exists_firsts {step : σ → ι → Option σ} {view : σ → τ} {key : ι → Option κ}
    {Absorbed : τ → κ → Prop} (M : Ignores step view key Absorbed) {inputs : List ι} {x x' y : σ}
    {seen : List κ} (hseen : ∀ k ∈ seen, Absorbed (view x) k) (hview : view x' = view x)
    (h : inputs.foldlM step x = some y) :
    ∃ y', (firsts key seen inputs).foldlM step x' = some y' ∧ view y' = view y := by
  induction inputs generalizing x x' seen with
  | nil =>
    cases h
    exact ⟨x', rfl, hview⟩
  | cons i rest ih =>
    rw [List.foldlM_cons, Option.bind_eq_bind, Option.bind_eq_some_iff] at h
    obtain ⟨z, hz, hrest⟩ := h
    obtain ⟨z', hz', hview'⟩ := M.congr hview hz
    -- The step is made on both sides, and the rest goes on from what it shows.
    have hmade : ∀ seen', (∀ k ∈ seen', Absorbed (view z) k) →
        ∃ y', (i :: firsts key seen' rest).foldlM step x' = some y' ∧ view y' = view y := by
      intro seen' hseen'
      obtain ⟨y', hy', hview''⟩ := ih hseen' hview' hrest
      refine ⟨y', ?_, hview''⟩
      rw [List.foldlM_cons, hz']
      exact hy'
    have hkept : ∀ k ∈ seen, Absorbed (view z) k := fun k hk => M.keep hz (hseen k hk)
    unfold firsts
    cases hkey : key i with
    | none => exact hmade seen hkept
    | some k =>
      by_cases hk : k ∈ seen
      · simp only [if_pos hk]
        exact ih hkept (hview.trans (M.ignore hz hkey (hseen k hk)).symm) hrest
      · simp only [if_neg hk]
        refine hmade (k :: seen) fun k' hk' => ?_
        rcases List.mem_cons.mp hk' with rfl | hold
        · exact M.absorb hz hkey
        · exact hkept k' hold

end Repeats
