import Mathlib.Data.List.Infix

/-!
# Logs that agree

A log is a list that only grows at its end. Two logs that agree at every position that both have are
prefixes of one another, one way or the other (`prefix_total_of_agree`). Of logs that are, each is a
prefix of the longest (`forall_prefix_iff`). What a loop computes from a log by adding to another
one keeps prefixes (`prefix_foldl`), as does what is read off entry by entry (`prefix_flatMap`).
-/

namespace Logs

variable {α β σ : Type*} {l l' : List α}

/-- A log whose positions are all in another log, with the same entries, is a prefix of it. -/
theorem prefix_of_agree (hlen : l.length ≤ l'.length)
    (h : ∀ (j : ℕ) (a a' : α), l[j]? = some a → l'[j]? = some a' → a = a') : l <+: l' := by
  rw [List.prefix_iff_getElem?]
  intro j hj
  have hj' : j < l'.length := by omega
  rw [List.getElem?_eq_getElem hj', h j _ _ (List.getElem?_eq_getElem hj)
    (List.getElem?_eq_getElem hj')]

/-- Of two logs that agree where both have an entry, one is a prefix of the other. -/
theorem prefix_total_of_agree
    (h : ∀ (j : ℕ) (a a' : α), l[j]? = some a → l'[j]? = some a' → a = a') :
    l <+: l' ∨ l' <+: l := by
  rcases le_total l.length l'.length with hlen | hlen
  · exact .inl (prefix_of_agree hlen h)
  · exact .inr (prefix_of_agree hlen fun j a a' ha ha' => (h j a' a ha' ha).symm)

/-- Logs of which any two are prefixes of one another are the prefixes of the longest one. -/
theorem forall_prefix_iff {C : List α → Prop} {ref : List α} (href : C ref)
    (hmax : ∀ l, C l → l.length ≤ ref.length) :
    (∀ l, C l → l <+: ref) ↔ ∀ l, C l → ∀ l', C l' → l <+: l' ∨ l' <+: l := by
  constructor
  · intro h l hl l' hl'
    exact List.prefix_or_prefix_of_prefix (h l hl) (h l' hl')
  · intro h l hl
    rcases h l hl ref href with hle | hge
    · exact hle
    · -- A log that the longest one is a prefix of is no longer than it.
      rw [hge.eq_of_length_le (hmax l hl)]

/-- A loop that adds to a log has a longer log after more rounds. -/
theorem prefix_foldl {f : σ → α → σ} (log : σ → List β) (hf : ∀ s a, log s <+: log (f s a))
    (s : σ) (h : l <+: l') : log (l.foldl f s) <+: log (l'.foldl f s) := by
  obtain ⟨rest, rfl⟩ := h
  rw [List.foldl_append]
  generalize l.foldl f s = s'
  induction rest generalizing s' with
  | nil => exact List.prefix_rfl
  | cons a rest ih => exact (hf s' a).trans (ih (f s' a))

/-- What the entries of a log say, one after the other. -/
theorem prefix_flatMap (f : α → List β) (h : l <+: l') : l.flatMap f <+: l'.flatMap f := by
  obtain ⟨rest, rfl⟩ := h
  rw [List.flatMap_append]
  exact List.prefix_append _ _

end Logs
