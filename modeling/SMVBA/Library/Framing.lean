import Mathlib.Data.List.Basic
import Mathlib.Logic.Function.Basic

/-!
# Concatenations of codewords

An injective code need not stay injective when codewords are strung together without a separator. It
does when the lengths of the codewords are known.
-/

namespace Framing

variable {α β : Type*} {f : α → List β}

/-- A codeword of known length splits off the front. -/
theorem append_inj (hf : Function.Injective f) {a b : α} {s t : List β}
    (hlen : (f a).length = (f b).length) (h : f a ++ s = f b ++ t) : a = b ∧ s = t := by
  obtain ⟨hcode, hrest⟩ := List.append_inj h hlen
  exact ⟨hf hcode, hrest⟩

/-- Codewords of known lengths split off the front. -/
theorem flatMap_append_inj (hf : Function.Injective f) {xs ys : List α} {s t : List β}
    (hlen : xs.map (fun a => (f a).length) = ys.map fun a => (f a).length)
    (h : xs.flatMap f ++ s = ys.flatMap f ++ t) : xs = ys ∧ s = t := by
  induction xs generalizing ys with
  | nil =>
    cases ys with
    | nil => exact ⟨rfl, h⟩
    | cons b ys => simp at hlen
  | cons a xs ih =>
    cases ys with
    | nil => simp at hlen
    | cons b ys =>
      rw [List.map_cons, List.map_cons, List.cons.injEq] at hlen
      rw [List.flatMap_cons, List.flatMap_cons, List.append_assoc, List.append_assoc] at h
      obtain ⟨rfl, hrest⟩ := append_inj hf hlen.1 h
      obtain ⟨rfl, hst⟩ := ih hlen.2 hrest
      exact ⟨rfl, hst⟩

end Framing
