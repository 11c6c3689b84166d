import Mathlib.Data.List.Induction
import Mathlib.Tactic.SplitIfs

/-!
# Machines that answer

A machine takes inputs one by one, and gives an answer to each. `run` is a whole sequence of inputs,
with the answers in order. What a sequence leads to is proved by adding one input at its end
(`run_invariant`). A machine that is made of several, one for each key, answers the inputs of a key
as the machine of the key does (`run_filter`). Two machines that stay in step answer alike
(`run_map`).
-/

namespace Mealy

variable {σ τ ι ρ : Type*}

/-- The state after a sequence of inputs, and the answers to them. -/
def run (step : σ → ι → σ × ρ) : σ → List ι → σ × List ρ
  | x, [] => (x, [])
  | x, i :: rest =>
    let (y, r) := step x i
    let (z, rs) := run step y rest
    (z, r :: rs)

variable {step : σ → ι → σ × ρ}

@[simp] theorem run_nil (x : σ) : run step x [] = (x, []) := rfl

@[simp] theorem run_cons (x : σ) (i : ι) (rest : List ι) :
    run step x (i :: rest) = ((run step (step x i).1 rest).1,
      (step x i).2 :: (run step (step x i).1 rest).2) := rfl

/-- One sequence after another. -/
theorem run_append (x : σ) (l l' : List ι) :
    run step x (l ++ l') = ((run step (run step x l).1 l').1,
      (run step x l).2 ++ (run step (run step x l).1 l').2) := by
  induction l generalizing x with
  | nil => rfl
  | cons i l ih => simp [ih]

/-- One more input. -/
theorem run_concat (x : σ) (l : List ι) (i : ι) :
    run step x (l ++ [i]) = ((step (run step x l).1 i).1,
      (run step x l).2 ++ [(step (run step x l).1 i).2]) := by
  rw [run_append]
  rfl

/-- An element of a sequence with one more at its end was there before, or is the last. -/
theorem getElem?_of_concat {α : Type*} {l : List α} {a b : α} {j : ℕ}
    (h : (l ++ [a])[j]? = some b) : l[j]? = some b ∨ (j = l.length ∧ a = b) := by
  rw [List.getElem?_append] at h
  split_ifs at h with hlt
  · exact .inl h
  · have hj : j - l.length < 1 := (List.getElem?_eq_some_iff.mp h).1
    obtain rfl : j = l.length := by omega
    rw [Nat.sub_self] at h
    exact .inr ⟨rfl, Option.some.inj h⟩

/-- The answer to one input is given in the state that those before it lead to. -/
theorem run_getElem? (x : σ) (l : List ι) (j : ℕ) :
    (run step x l).2[j]? = (l[j]?).map fun i => (step (run step x (l.take j)).1 i).2 := by
  induction l generalizing x j with
  | nil => rfl
  | cons i l ih =>
    cases j with
    | zero => rfl
    | succ j => simpa using ih (step x i).1 j

/-- What holds at the start, and stays with every further input, holds after every sequence. -/
theorem run_invariant (step : σ → ι → σ × ρ) {I : List ι → σ → List ρ → Prop}
    {x : σ} (h0 : I [] x [])
    (hstep : ∀ l y rs i, I l y rs → I (l ++ [i]) (step y i).1 (rs ++ [(step y i).2])) (l : List ι) :
    I l (run step x l).1 (run step x l).2 := by
  induction l using List.reverseRecOn with
  | nil => exact h0
  | append_singleton l i ih =>
    rw [run_concat]
    exact hstep l _ _ i ih

/-- Two machines in states with `R`, the second with the inputs that `g` makes of those of the
first, answer alike if every input keeps `R` and is answered alike. -/
theorem run_map {κ : Type*} {step' : τ → κ → τ × ρ} (g : ι → κ) {R : σ → τ → Prop} {l : List ι}
    (hstep : ∀ x y, ∀ i ∈ l, R x y → R (step x i).1 (step' y (g i)).1 ∧
      (step' y (g i)).2 = (step x i).2) {x : σ} {y : τ} (hR : R x y) :
    (run step' y (l.map g)).2 = (run step x l).2 := by
  induction l generalizing x y with
  | nil => rfl
  | cons i l ih =>
    obtain ⟨hnext, hanswer⟩ := hstep x y i List.mem_cons_self hR
    have hrest := ih (fun x y j hj => hstep x y j (List.mem_cons_of_mem _ hj)) hnext
    simp [hanswer, hrest]

/-! ## One machine of several -/

/-- The answers to the inputs with `p`. -/
def answersTo (step : σ → ι → σ × ρ) (p : ι → Bool) (x : σ) (l : List ι) : List ρ :=
  ((l.zip (run step x l).2).filter fun a => p a.1).map Prod.snd

/-- If the inputs with `p` move the part that `get` shows as `step'` does, with the same answers,
and the others leave it alone, then this part is after a sequence where it is after the inputs with
`p`, and has answered them alike. -/
theorem run_filter (step' : τ → ι → τ × ρ) (get : σ → τ) {p : ι → Bool}
    (hit : ∀ {x i}, p i = true →
      get (step x i).1 = (step' (get x) i).1 ∧ (step x i).2 = (step' (get x) i).2)
    (miss : ∀ {x i}, p i = false → get (step x i).1 = get x) (x : σ) (l : List ι) :
    get (run step x l).1 = (run step' (get x) (l.filter p)).1 ∧
      answersTo step p x l = (run step' (get x) (l.filter p)).2 := by
  induction l generalizing x with
  | nil => exact ⟨rfl, rfl⟩
  | cons i l ih =>
    obtain ⟨hget, hanswers⟩ := ih (step x i).1
    unfold answersTo at hanswers ⊢
    cases hp : p i with
    | true =>
      obtain ⟨hstate, hanswer⟩ := hit (x := x) hp
      rw [hstate] at hget hanswers
      simp [hp, hget, hanswers, hanswer]
    | false =>
      rw [miss hp] at hget hanswers
      simp [hp, hget, hanswers]

end Mealy
