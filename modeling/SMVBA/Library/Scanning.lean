import Mathlib.Data.List.Basic

/-!
# Searching a text for a pattern

`findAll` gives the matches of a pattern in a text, from left to right, without overlaps. A pattern
is a function that tells what matches at the beginning of a text and how many characters the match
takes. The search goes past a character at which nothing matches (`findAll_cons_of_none`), so past
every text without the first character of the pattern (`findAll_append_of_notMem`), and after a
match it goes on behind it (`findAll_append_of_some`).
-/

namespace Scanning

variable {α β : Type*} (at? : List α → Option (β × ℕ)) {c : α} {s t : List α} {b : β}

/-- The matches of a text after its first `n` characters. -/
def findAllFrom : ℕ → List α → List β
  | _, [] => []
  | n + 1, _ :: s => findAllFrom n s
  | 0, c :: s =>
    match at? (c :: s) with
    | some (b, n) => b :: findAllFrom (n - 1) s
    | none => findAllFrom 0 s

/-- The matches of a text. -/
def findAll (s : List α) : List β := findAllFrom at? 0 s

@[simp]
theorem findAll_nil : findAll at? [] = [] := rfl

theorem findAllFrom_append (s t : List α) :
    findAllFrom at? s.length (s ++ t) = findAll at? t := by
  induction s with
  | nil => rfl
  | cons c s ih => exact ih

variable {at?}

theorem findAll_cons_of_none (h : at? (c :: s) = none) :
    findAll at? (c :: s) = findAll at? s := by
  unfold findAll
  rw [findAllFrom, h]

/-- A match of `s`, which is not empty. -/
theorem findAll_append_of_some (hs : s ≠ []) (h : at? (s ++ t) = some (b, s.length)) :
    findAll at? (s ++ t) = b :: findAll at? t := by
  cases s with
  | nil => exact absurd rfl hs
  | cons c s =>
    rw [List.cons_append] at h ⊢
    unfold findAll
    rw [findAllFrom, h]
    exact congrArg (b :: ·) (findAllFrom_append at? s t)

/-- A pattern that begins with `a` does not match before the first `a`. -/
theorem findAll_append_of_notMem {a : α} (hat : ∀ c s, c ≠ a → at? (c :: s) = none) (hs : a ∉ s) :
    findAll at? (s ++ t) = findAll at? t := by
  induction s with
  | nil => rfl
  | cons c s ih =>
    have hc : c ≠ a := fun heq => hs (heq ▸ List.mem_cons_self)
    rw [List.cons_append, findAll_cons_of_none (hat c _ hc)]
    exact ih fun hmem => hs (List.mem_cons_of_mem c hmem)

end Scanning
