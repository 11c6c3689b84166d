import Mathlib.Data.Finset.Card
import Mathlib.Data.Finset.Disjoint
import Mathlib.Data.List.Nodup
import SMVBA.Library.Repeats

/-!
# Counting quorums

Facts about finite sets of voters and about lists of votes with at most one vote of each voter. A
`Tally` is the meaning of a counter that keeps the set of its voters and one number for each of two
kinds of votes. A `Poll` is the same for a counter that takes a list of votes and counts the first
vote of each voter. None of this mentions a protocol.
-/

namespace Quorum

variable {α β : Type*} [DecidableEq α]

/-- Two subsets of a set share what they have together beyond the set. -/
theorem card_add_card_le {U A B : Finset α} (hA : A ⊆ U) (hB : B ⊆ U) :
    A.card + B.card ≤ U.card + (A ∩ B).card := by
  have hunion : (A ∪ B).card ≤ U.card := Finset.card_le_card (Finset.union_subset hA hB)
  have hinter := Finset.card_union_add_card_inter A B
  omega

/-- Of every size there are two subsets that share no more than they have together beyond the set.
-/
theorem exists_card_inter {U : Finset α} {q : ℕ} (hq : q ≤ U.card) :
    ∃ A ⊆ U, ∃ B ⊆ U, A.card = q ∧ B.card = q ∧ (A ∩ B).card = 2 * q - U.card := by
  obtain ⟨A, hA, hAq⟩ := Finset.exists_subset_card_eq hq
  have hrest : (U \ A).card = U.card - q := by rw [Finset.card_sdiff_of_subset hA, hAq]
  -- The other subset has as much as possible from outside of the first.
  obtain ⟨D, hD, hDq⟩ := Finset.exists_subset_card_eq (show 2 * q - U.card ≤ A.card by omega)
  obtain ⟨E, hE, hEq⟩ := Finset.exists_subset_card_eq
    (show q - (2 * q - U.card) ≤ (U \ A).card by omega)
  have hEA : Disjoint A E := Finset.disjoint_of_subset_right hE Finset.disjoint_sdiff
  refine ⟨A, hA, D ∪ E, ?_, hAq, ?_, ?_⟩
  · exact Finset.union_subset (hD.trans hA) (hE.trans Finset.sdiff_subset)
  · rw [Finset.card_union_of_disjoint (Finset.disjoint_of_subset_left hD hEA), hDq, hEq]
    omega
  · rw [Finset.inter_union_distrib_left, Finset.inter_eq_right.mpr hD,
      Finset.disjoint_iff_inter_eq_empty.mp hEA, Finset.union_empty, hDq]

/-- Two subsets of a set that together outnumber it meet. -/
theorem exists_mem_both {U A B : Finset α} (hA : A ⊆ U) (hB : B ⊆ U)
    (h : U.card < A.card + B.card) : ∃ x, x ∈ A ∧ x ∈ B := by
  have hle := card_add_card_le hA hB
  have hpos : 0 < (A ∩ B).card := by omega
  obtain ⟨x, hx⟩ := Finset.card_pos.mp hpos
  exact ⟨x, (Finset.mem_inter.mp hx).1, (Finset.mem_inter.mp hx).2⟩

/-- More members than there are outside of `H` include one of `H`. -/
theorem exists_mem_of_card_lt {U H A : Finset α} (hA : A ⊆ U) (h : (U \ H).card < A.card) :
    ∃ x ∈ A, x ∈ H := by
  by_contra hnone
  have hsub : A ⊆ U \ H := fun x hx =>
    Finset.mem_sdiff.mpr ⟨hA hx, fun hH => hnone ⟨x, hx, hH⟩⟩
  exact absurd (Finset.card_le_card hsub) (not_le.mpr h)

/-- A list with at most one vote of each voter has as many voters as votes. -/
theorem card_voters (voter : β → α) (l : List β)
    (h : ∀ a, l.countP (fun v => voter v = a) ≤ 1) : (l.map voter).toFinset.card = l.length := by
  have hnodup : (l.map voter).Nodup := by
    rw [List.nodup_iff_count_le_one]
    intro a
    rw [List.count_eq_countP, List.countP_map]
    have hcongr : l.countP ((fun b => b == a) ∘ voter) = l.countP (fun v => decide (voter v = a)) :=
      List.countP_congr (by simp)
    rw [hcongr]
    exact h a
  rw [List.toFinset_card_of_nodup hnodup, List.length_map]

/-- Votes that satisfy `p`, at most one of each voter: there are as many voters among them. -/
theorem le_card_voters (voter : β → α) (p : β → Bool) (l : List β)
    (h : ∀ a, l.countP (fun v => p v && decide (voter v = a)) ≤ 1) :
    l.countP p ≤ ((l.filter p).map voter).toFinset.card := by
  rw [card_voters, List.countP_eq_length_filter]
  intro a
  rw [List.countP_filter]
  refine le_trans (le_of_eq (List.countP_congr ?_)) (h a)
  intro v _
  simp [and_comm]

/-- A list with a vote of each of `A` that satisfies `p` has at least as many such votes. -/
theorem card_le_countP {A : Finset α} {p : β → Bool} {l : List β} (voter : β → α)
    (h : ∀ a ∈ A, ∃ v ∈ l, p v = true ∧ voter v = a) : A.card ≤ l.countP p := by
  have hsub : A ⊆ ((l.filter p).map voter).toFinset := by
    intro a ha
    obtain ⟨v, hv, hp, rfl⟩ := h a ha
    exact List.mem_toFinset.mpr (List.mem_map_of_mem (List.mem_filter.mpr ⟨hv, hp⟩))
  calc A.card ≤ ((l.filter p).map voter).toFinset.card := Finset.card_le_card hsub
    _ ≤ ((l.filter p).map voter).length := List.toFinset_card_le _
    _ = l.countP p := by rw [List.length_map, List.countP_eq_length_filter]

/-- Of a kind that a list has at most once, it has one at most. -/
theorem eq_of_countP_le_one {f : β → Bool} {l : List β} (h : l.countP f ≤ 1) {a b : β} (ha : a ∈ l)
    (hb : b ∈ l) (hfa : f a) (hfb : f b) : a = b := by
  rw [List.countP_eq_length_filter] at h
  have ha' : a ∈ l.filter f := List.mem_filter.mpr ⟨ha, hfa⟩
  have hb' : b ∈ l.filter f := List.mem_filter.mpr ⟨hb, hfb⟩
  match hl : l.filter f, h with
  | [], _ => rw [hl] at ha'; cases ha'
  | [c], _ =>
    rw [hl] at ha' hb'
    rw [List.mem_singleton.mp ha', List.mem_singleton.mp hb']

/-! ## Counters with two kinds of votes -/

/-- The voters `A` of a counter fall into `yes` voters with `P` and `no` voters with `Q`. -/
def Tally (P Q : α → Prop) (A : Finset α) (yes no : ℕ) : Prop :=
  ∃ Y N : Finset α, Disjoint Y N ∧ Y ∪ N = A ∧ Y.card = yes ∧ N.card = no ∧
    (∀ a ∈ Y, P a) ∧ ∀ a ∈ N, Q a

namespace Tally

variable {P Q P' Q' : α → Prop} {A : Finset α} {a : α} {yes no : ℕ}

/-- Nobody has voted. -/
theorem empty : Tally P Q ∅ 0 0 := ⟨∅, ∅, by simp⟩

/-- A new voter of the first kind. -/
theorem insert_yes (h : Tally P Q A yes no) (ha : a ∉ A) (hP : P a) :
    Tally P Q (insert a A) (yes + 1) no := by
  obtain ⟨Y, N, hdis, hA, hY, hN, hPY, hQN⟩ := h
  obtain ⟨haY, haN⟩ : a ∉ Y ∧ a ∉ N := by simpa [← hA] using ha
  refine ⟨insert a Y, N, Finset.disjoint_insert_left.mpr ⟨haN, hdis⟩, ?_, ?_, hN, ?_, hQN⟩
  · rw [Finset.insert_union, hA]
  · rw [Finset.card_insert_of_notMem haY, hY]
  · exact Finset.forall_mem_insert a Y P |>.mpr ⟨hP, hPY⟩

/-- A new voter of the second kind. -/
theorem insert_no (h : Tally P Q A yes no) (ha : a ∉ A) (hQ : Q a) :
    Tally P Q (insert a A) yes (no + 1) := by
  obtain ⟨Y, N, hdis, hA, hY, hN, hPY, hQN⟩ := h
  obtain ⟨haY, haN⟩ : a ∉ Y ∧ a ∉ N := by simpa [← hA] using ha
  refine ⟨Y, insert a N, Finset.disjoint_insert_right.mpr ⟨haY, hdis⟩, ?_, hY, ?_, hPY, ?_⟩
  · rw [Finset.union_insert, hA]
  · rw [Finset.card_insert_of_notMem haN, hN]
  · exact Finset.forall_mem_insert a N Q |>.mpr ⟨hQ, hQN⟩

/-- What is known of the votes may grow. -/
theorem mono (h : Tally P Q A yes no) (hP : ∀ a, P a → P' a) (hQ : ∀ a, Q a → Q' a) :
    Tally P' Q' A yes no := by
  obtain ⟨Y, N, hdis, hA, hY, hN, hPY, hQN⟩ := h
  exact ⟨Y, N, hdis, hA, hY, hN, fun a ha => hP a (hPY a ha), fun a ha => hQ a (hQN a ha)⟩

/-- The voters of the first kind. -/
theorem exists_yes (h : Tally P Q A yes no) : ∃ Y : Finset α, Y.card = yes ∧ ∀ a ∈ Y, P a := by
  obtain ⟨Y, N, -, -, hY, -, hPY, -⟩ := h
  exact ⟨Y, hY, hPY⟩

/-- The voters of the second kind. -/
theorem exists_no (h : Tally P Q A yes no) : ∃ N : Finset α, N.card = no ∧ ∀ a ∈ N, Q a := by
  obtain ⟨Y, N, -, -, -, hN, -, hQN⟩ := h
  exact ⟨N, hN, hQN⟩

/-- A counter that is not at zero has a voter. -/
theorem exists_voter (h : Tally P Q A yes no) (hpos : 0 < yes + no) : ∃ a, P a ∨ Q a := by
  obtain ⟨Y, N, -, -, hY, hN, hPY, hQN⟩ := h
  rcases Nat.eq_zero_or_pos yes with hzero | hyes
  · obtain ⟨a, ha⟩ := Finset.card_pos.mp (show 0 < N.card by omega)
    exact ⟨a, .inr (hQN a ha)⟩
  · obtain ⟨a, ha⟩ := Finset.card_pos.mp (show 0 < Y.card by omega)
    exact ⟨a, .inl (hPY a ha)⟩

/-- Every voter is of one kind. -/
theorem card_eq (h : Tally P Q A yes no) : A.card = yes + no := by
  obtain ⟨Y, N, hdis, rfl, rfl, rfl, -, -⟩ := h
  exact Finset.card_union_of_disjoint hdis

/-- The voters of the two kinds are among the voters. -/
theorem exists_subsets (h : Tally P Q A yes no) : ∃ Y ⊆ A, ∃ N ⊆ A, Y.card = yes ∧ N.card = no ∧
    (∀ a ∈ Y, P a) ∧ ∀ a ∈ N, Q a := by
  obtain ⟨Y, N, -, rfl, hY, hN, hPY, hQN⟩ := h
  exact ⟨Y, Finset.subset_union_left, N, Finset.subset_union_right, hY, hN, hPY, hQN⟩

end Tally

/-! ## Lists of votes -/

/-- The first vote of a voter satisfies `p`. -/
def FirstVote (voter : β → α) (p : β → Prop) (votes : List β) (a : α) : Prop :=
  ∃ v, Repeats.first? voter votes a = some v ∧ p v

/-- A counter after a list of votes: its voters are those of the list, and of their first votes
`yes` satisfy `p`, and `no` do not. -/
structure Poll (voter : β → α) (p : β → Prop) (votes : List β) (A : Finset α)
    (yes no : ℕ) : Prop where
  voters : ∀ a, a ∈ A ↔ Repeats.first? voter votes a ≠ none
  tally : Tally (FirstVote voter p votes) (FirstVote voter (fun v => ¬ p v) votes) A yes no

namespace Poll

variable {voter : β → α} {p q : β → Prop} {votes : List β} {v : β} {A : Finset α} {yes no : ℕ}

/-- First votes stay. -/
theorem firstVote_concat {a : α} (h : FirstVote voter q votes a) :
    FirstVote voter q (votes ++ [v]) a := by
  obtain ⟨w, hw, hq⟩ := h
  exact ⟨w, Repeats.first?_concat_of_some hw, hq⟩

/-- Before the first vote. -/
theorem nil : Poll voter p [] ∅ 0 0 := ⟨by simp, .empty⟩

theorem notMem_iff (h : Poll voter p votes A yes no) {a : α} :
    a ∉ A ↔ Repeats.first? voter votes a = none := by
  rw [h.voters, not_not]

/-- A further vote of a voter is of no account. -/
theorem again (h : Poll voter p votes A yes no) (hv : voter v ∈ A) :
    Poll voter p (votes ++ [v]) A yes no := by
  refine ⟨fun a => ?_, h.tally.mono (fun a => firstVote_concat) fun a => firstVote_concat⟩
  rw [h.voters]
  by_cases ha : voter v = a
  · subst ha
    obtain ⟨w, hw⟩ := Option.ne_none_iff_exists'.mp ((h.voters _).mp hv)
    rw [Repeats.first?_concat_of_some hw, hw]
  · rw [Repeats.first?_concat_of_ne ha]

/-- A vote of a new voter. -/
theorem new (h : Poll voter p votes A yes no) (hv : voter v ∉ A) :
    (p v → Poll voter p (votes ++ [v]) (insert (voter v) A) (yes + 1) no) ∧
      (¬ p v → Poll voter p (votes ++ [v]) (insert (voter v) A) yes (no + 1)) := by
  have hself := Repeats.first?_concat_self (h.notMem_iff.mp hv)
  have hvoters : ∀ a, a ∈ insert (voter v) A ↔ Repeats.first? voter (votes ++ [v]) a ≠ none := by
    intro a
    rw [Finset.mem_insert]
    by_cases ha : voter v = a
    · subst ha
      simp [hself]
    · rw [Repeats.first?_concat_of_ne ha, h.voters]
      simp [Ne.symm ha]
  have htally : Tally (FirstVote voter p (votes ++ [v]))
    (FirstVote voter (fun v => ¬ p v) (votes ++ [v]))
      A yes no := h.tally.mono (fun a => firstVote_concat) fun a => firstVote_concat
  constructor
  · intro hp
    exact ⟨hvoters, htally.insert_yes hv ⟨v, hself, hp⟩⟩
  · intro hp
    exact ⟨hvoters, htally.insert_no hv ⟨v, hself, hp⟩⟩

/-- The voters are those of the list. -/
theorem voters_eq (h : Poll voter p votes A yes no) : A = (votes.map voter).toFinset := by
  ext a
  rw [h.voters, ne_eq, Repeats.first?_eq_none]
  simp

/-- Two counters of votes of the members of a set `U`. If few voters have first votes of different
kinds at the two, then the votes for yes at the one and for no at the other do not outnumber `U` by
more. -/
theorem add_le {votes' : List β} {A' U D : Finset α} {yes' no' : ℕ}
    (h : Poll voter p votes A yes no) (h' : Poll voter p votes' A' yes' no')
    (hA : A ⊆ U) (hA' : A' ⊆ U)
    (hD : ∀ a, FirstVote voter p votes a → FirstVote voter (fun v => ¬ p v) votes' a → a ∈ D) :
    yes + no' ≤ U.card + D.card := by
  obtain ⟨Y, hYA, -, -, rfl, -, hY, -⟩ := h.tally.exists_subsets
  obtain ⟨-, -, N, hNA, -, rfl, -, hN⟩ := h'.tally.exists_subsets
  have hunion : (Y ∪ N).card ≤ U.card :=
    Finset.card_le_card (Finset.union_subset (hYA.trans hA) (hNA.trans hA'))
  have hinter : (Y ∩ N).card ≤ D.card := by
    refine Finset.card_le_card fun a ha => ?_
    obtain ⟨haY, haN⟩ := Finset.mem_inter.mp ha
    exact hD a (hY a haY) (hN a haN)
  have hsum := Finset.card_union_add_card_inter Y N
  omega

end Poll

end Quorum
