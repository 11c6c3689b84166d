import Mathlib.Algebra.Ring.Int.Defs
import Mathlib.Order.Bounds.Basic
import SMVBA.Consensus.Commitor
import SMVBA.Library.Mealy
import SMVBA.Library.Repeats

/-!
# The log of the committor

What the committor is for: whatever the order in which the blocks of the epochs come, with
repetitions and with blocks of epochs long past, they leave in the order of the epochs and without a
gap. `block?` is the block of an epoch among the calls. After a sequence of calls the committor has
sent the blocks of the epochs below its index and holds those above it, and there is none of its
index (`Logged`). The step of this is the loop of one call, which sends the blocks of the epochs
from the index up to the first that is not waiting (`drain_spec`).
-/

namespace SMVBA

namespace Committor

/-- A sequence of calls of `Commit`: the committor after them, and what each has sent on `commitCh`.
-/
def commitAll (calls : List ConsensusBlock) : Committor × List (List ConsensusBlock) :=
  Mealy.run commit {} calls

/-- The blocks that a sequence of calls sends on `commitCh`, in order. -/
def emitted (calls : List ConsensusBlock) : List ConsensusBlock := (commitAll calls).2.flatten

/-! ## The loop -/

/-- A round of the loop takes one entry out of the map. -/
theorem length_erase {blocks : AList fun _ : ℤ => ConsensusBlock} {e : ℤ} {b : ConsensusBlock}
    (h : blocks.lookup e = some b) :
    (blocks.erase e).entries.length + 1 = blocks.entries.length := by
  have hmem : e ∈ blocks.keys := by
    rw [← AList.mem_keys, ← AList.lookup_isSome, h]
    rfl
  have hkeys : (blocks.erase e).keys.length + 1 = blocks.keys.length := by
    rw [AList.keys_erase, List.length_erase_of_mem hmem]
    have hpos := List.length_pos_of_mem hmem
    omega
  simpa [AList.keys, List.keys] using hkeys

/-- The loop sends the blocks of the `k` epochs from the index on, and ends where none is waiting.
What waits for other epochs is left as it is. -/
theorem drain_spec : ∀ (n : ℕ) (c : Committor), c.blocks.entries.length ≤ n →
    ∃ k : ℕ, (drain n c).1.index = c.index + k ∧
      (drain n c).2.map some = (List.range k).map (fun j : ℕ => c.blocks.lookup (c.index + j)) ∧
      c.blocks.lookup (c.index + k) = none ∧
      ∀ e, (drain n c).1.blocks.lookup e =
        if c.index ≤ e ∧ e < c.index + k then none else c.blocks.lookup e
  | 0, c, h => by
    have hentries : c.blocks.entries = [] := List.length_eq_zero_iff.mp (by omega)
    have hnone : ∀ e, c.blocks.lookup e = none := by
      intro e
      rw [AList.lookup_eq_none, AList.mem_keys, AList.keys, hentries]
      simp
    exact ⟨0, by simp [drain, hnone]⟩
  | n + 1, c, h => by
    cases hl : c.blocks.lookup c.index with
    | none =>
      refine ⟨0, by simp [drain, hl], by simp [drain, hl], by rw [Nat.cast_zero, add_zero, hl],
        fun e => ?_⟩
      rw [if_neg (by push_cast; omega)]
      simp [drain, hl]
    | some b =>
      -- The block goes out, and the loop goes on with one entry less.
      have hlength := length_erase hl
      obtain ⟨k, hindex, hsent, hgap, hrest⟩ :=
        drain_spec n ⟨c.index + 1, c.blocks.erase c.index⟩ (by dsimp only; omega)
      dsimp only at hindex hsent hgap hrest
      have hother : ∀ e, e ≠ c.index → (c.blocks.erase c.index).lookup e = c.blocks.lookup e :=
        fun e he => AList.lookup_erase_ne he
      simp only [drain, hl]
      refine ⟨k + 1, by push_cast; omega, ?_, ?_, fun e => ?_⟩
      · have hfirst : c.blocks.lookup (c.index + (0 : ℕ)) = some b := by
          rw [Nat.cast_zero, add_zero, hl]
        rw [List.range_succ_eq_map, List.map_cons, List.map_cons, List.map_map, hsent, hfirst]
        congr 1
        refine List.map_congr_left fun j _ => ?_
        rw [hother _ (by omega), Function.comp_apply]
        congr 1
        push_cast
        omega
      · rw [hother _ (by omega)] at hgap
        rw [← hgap]
        push_cast
        congr 1
        omega
      · rw [hrest e]
        by_cases he : e = c.index
        · rw [if_neg (by omega), if_pos (by push_cast; omega), he, AList.lookup_erase]
        · rw [hother e he]
          refine if_congr ?_ rfl rfl
          push_cast
          omega

/-! ## Sequences of calls -/

/-- The first of the calls with a block of the epoch. -/
def block? (calls : List ConsensusBlock) (e : ℤ) : Option ConsensusBlock :=
  Repeats.first? ConsensusBlock.epoch calls e

/-- Calls with the same epoch carry the same block. -/
def Consistent (calls : List ConsensusBlock) : Prop :=
  ∀ b ∈ calls, ∀ b' ∈ calls, b.epoch = b'.epoch → b = b'

section Calls

variable {calls : List ConsensusBlock} {b : ConsensusBlock} {e : ℤ}

theorem block?_eq_some (h : Consistent calls) :
    block? calls e = some b ↔ b ∈ calls ∧ b.epoch = e := by
  constructor
  · exact Repeats.mem_of_first?
  · rintro ⟨hmem, rfl⟩
    cases hfound : block? calls b.epoch with
    | none => exact absurd rfl (Repeats.first?_eq_none.mp hfound b hmem)
    | some b' =>
      obtain ⟨hmem', hepoch⟩ := Repeats.mem_of_first? hfound
      rw [h b' hmem' b hmem hepoch]

/-- A further call is of no account for an epoch that has its block. -/
theorem block?_concat (h : block? calls e ≠ none) : block? (calls ++ [b]) e = block? calls e := by
  obtain ⟨b', hb'⟩ := Option.ne_none_iff_exists'.mp h
  rw [hb']
  exact Repeats.first?_concat_of_some hb'

/-- A further call is of no account for another epoch. -/
theorem block?_concat_of_ne (h : b.epoch ≠ e) : block? (calls ++ [b]) e = block? calls e :=
  Repeats.first?_concat_of_ne h

/-- After the calls the index of the committor is at `k`: the blocks of the epochs below it have
been sent, there is none of the epoch `k`, and those of the epochs above it are waiting. -/
structure Logged (calls : List ConsensusBlock) (k : ℕ) (c : Committor)
    (sent : List ConsensusBlock) : Prop where
  index : c.index = k
  sent : sent.map some = (List.range k).map fun j : ℕ => block? calls j
  gap : block? calls k = none
  waiting : ∀ e, c.blocks.lookup e = if k < e then block? calls e else none

namespace Logged

variable {k : ℕ} {c : Committor} {sent : List ConsensusBlock}

/-- The epochs below the index have their blocks. -/
theorem ne_none (h : Logged calls k c sent) {j : ℕ} (hj : j < k) : block? calls j ≠ none := by
  have hmem : block? calls j ∈ sent.map some := by
    rw [h.sent]
    exact List.mem_map.mpr ⟨j, List.mem_range.mpr hj, rfl⟩
  obtain ⟨b, -, hb⟩ := List.mem_map.mp hmem
  rw [← hb]
  simp

/-- A call with a block of an epoch that is past changes nothing. -/
theorem late (h : Logged calls k c sent) (hb : b.epoch < k) : Logged (calls ++ [b]) k c sent where
  index := h.index
  sent := by
    rw [h.sent]
    refine List.map_congr_left fun j hj => ?_
    exact (block?_concat (h.ne_none (List.mem_range.mp hj))).symm
  gap := by rw [block?_concat_of_ne (by omega), h.gap]
  waiting e := by
    rw [h.waiting e]
    split_ifs with he
    · exact (block?_concat_of_ne (by omega)).symm
    · rfl

/-- What is waiting once the block of a call is entered: of the epochs from the index on, the blocks
of the calls. -/
theorem lookup_insert (h : Logged calls k c sent) (hsame : Consistent (calls ++ [b])) (he : k ≤ e) :
    (c.blocks.insert b.epoch b).lookup e = block? (calls ++ [b]) e := by
  by_cases hb : e = b.epoch
  · rw [hb, AList.lookup_insert]
    exact ((block?_eq_some hsame).mpr ⟨by simp, rfl⟩).symm
  · rw [AList.lookup_insert_ne hb, block?_concat_of_ne (Ne.symm hb), h.waiting e]
    split_ifs with hlt
    · rfl
    · have heq : e = k := by omega
      rw [heq, h.gap]

/-- A call with a block of an epoch that is not past, and the loop after it. -/
theorem insert (h : Logged calls k c sent) (hsame : Consistent (calls ++ [b])) (hb : k ≤ b.epoch) :
    ∃ m : ℕ, Logged (calls ++ [b]) (k + m) (c.commit b).1 (sent ++ (c.commit b).2) := by
  have hcommit : c.commit b = drain (c.blocks.insert b.epoch b).entries.length
      { c with blocks := c.blocks.insert b.epoch b } := by
    unfold commit
    rw [if_neg (by rw [h.index]; omega)]
  obtain ⟨m, hindex, hsent, hgap, hrest⟩ := drain_spec _
    { c with blocks := c.blocks.insert b.epoch b } le_rfl
  rw [← hcommit] at hindex hsent hrest
  dsimp only at hindex hsent hgap hrest
  rw [h.index] at hindex hsent hgap hrest
  refine ⟨m, ?_, ?_, ?_, fun e => ?_⟩
  · rw [hindex]
    push_cast
    rfl
  · -- The old blocks are of the epochs below `k`, and the new ones of the `m` epochs from it on.
    rw [List.map_append, h.sent, hsent, List.range_add, List.map_append, List.map_map]
    congr 1
    · refine List.map_congr_left fun j hj => ?_
      exact (block?_concat (h.ne_none (List.mem_range.mp hj))).symm
    · refine List.map_congr_left fun j _ => ?_
      rw [h.lookup_insert hsame (by omega)]
      simp
  · rw [← hgap, h.lookup_insert hsame (by omega)]
    push_cast
    rfl
  · rw [hrest e]
    push_cast
    by_cases hlt : (k : ℤ) + m < e
    · rw [if_neg (by omega), if_pos hlt, h.lookup_insert hsame (by omega)]
    · rw [if_neg hlt]
      by_cases hk : (k : ℤ) ≤ e
      · by_cases hm : e = k + m
        · rw [if_neg (by omega), hm, hgap]
        · rw [if_pos (by omega)]
      · rw [if_neg (by omega), AList.lookup_insert_ne (by omega), h.waiting e, if_neg (by omega)]

/-- One call of `Commit`. -/
theorem commit (h : Logged calls k c sent) (hsame : Consistent (calls ++ [b])) :
    ∃ k', Logged (calls ++ [b]) k' (c.commit b).1 (sent ++ (c.commit b).2) := by
  by_cases hb : b.epoch < k
  · have hcommit : c.commit b = (c, []) := by
      unfold Committor.commit
      rw [h.index, if_pos hb]
    rw [hcommit, List.append_nil]
    exact ⟨k, h.late hb⟩
  · obtain ⟨m, hm⟩ := h.insert hsame (not_lt.mp hb)
    exact ⟨k + m, hm⟩

end Logged

/-- After every sequence of calls the committor is at the first epoch without a block. -/
theorem exists_logged (h : Consistent calls) :
    ∃ k, Logged calls k (commitAll calls).1 (emitted calls) := by
  refine Mealy.run_invariant Committor.commit
    (I := fun calls c sent => Consistent calls → ∃ k, Logged calls k c sent.flatten) ?_ ?_ calls h
  · intro _
    refine ⟨0, rfl, rfl, rfl, fun e => ?_⟩
    simp [block?, AList.lookup_empty]
  · intro calls c sent b ih hsame
    have hbefore : Consistent calls := fun b hb b' hb' =>
      hsame b (List.mem_append_left _ hb) b' (List.mem_append_left _ hb')
    obtain ⟨k, hk⟩ := ih hbefore
    rw [List.flatten_append, List.flatten_singleton]
    exact hk.commit hsame

/-- The epoch without a block is the least natural number that is not the epoch of a call. -/
theorem Logged.isLeast {k : ℕ} {c : Committor} {sent : List ConsensusBlock}
    (h : Logged calls k c sent) : IsLeast {k : ℕ | ∀ b ∈ calls, b.epoch ≠ k} k := by
  constructor
  · exact Repeats.first?_eq_none.mp h.gap
  · intro j hj
    by_contra hlt
    exact h.ne_none (not_le.mp hlt) (Repeats.first?_eq_none.mpr hj)

/-- The blocks that were sent are of the epochs before the gap, in order. -/
theorem Logged.epochs {k : ℕ} {c : Committor} {sent : List ConsensusBlock}
    (hsame : Consistent calls) (h : Logged calls k c sent) :
    sent.map ConsensusBlock.epoch = (List.range k).map Nat.cast := by
  refine List.map_injective_iff.mpr (Option.some_injective ℤ) ?_
  calc (sent.map ConsensusBlock.epoch).map some
      = (sent.map some).map (Option.map ConsensusBlock.epoch) := by simp
    _ = (List.range k).map fun j : ℕ => (block? calls j).map ConsensusBlock.epoch := by
      rw [h.sent, List.map_map]
      rfl
    _ = ((List.range k).map Nat.cast).map some := by
      rw [List.map_map]
      refine List.map_congr_left fun j hj => ?_
      obtain ⟨b, hb⟩ := Option.ne_none_iff_exists'.mp (h.ne_none (List.mem_range.mp hj))
      rw [hb, Option.map_some, ((block?_eq_some hsame).mp hb).2]
      rfl

/-- The block of an epoch does not depend on the order of the calls, and so neither does the log. -/
theorem emitted_eq {calls' : List ConsensusBlock} (hsame : Consistent calls)
    (hmem : ∀ b, b ∈ calls' ↔ b ∈ calls) : emitted calls' = emitted calls := by
  have hsame' : Consistent calls' := fun b hb b' hb' =>
    hsame b ((hmem b).mp hb) b' ((hmem b').mp hb')
  obtain ⟨k, hk⟩ := exists_logged hsame
  obtain ⟨k', hk'⟩ := exists_logged hsame'
  have hblock : ∀ e, block? calls' e = block? calls e := by
    intro e
    refine Option.ext fun b => ?_
    rw [block?_eq_some hsame', block?_eq_some hsame, hmem]
  have hgap : k' = k := by
    refine hk'.isLeast.unique ?_
    simp only [hmem]
    exact hk.isLeast
  refine List.map_injective_iff.mpr (Option.some_injective _) ?_
  rw [hk'.sent, hk.sent, hgap]
  simp only [hblock]

end Calls

/-- The committor is a log without gaps that does not depend on the order of the calls. -/
theorem commits_gap_free (calls : List ConsensusBlock)
    (hsame : ∀ b ∈ calls, ∀ b' ∈ calls, b.epoch = b'.epoch → b = b') :
    (∃ k : ℕ, IsLeast {k : ℕ | ∀ b ∈ calls, b.epoch ≠ k} k ∧
      (∀ b ∈ emitted calls, b ∈ calls) ∧
      (emitted calls).map ConsensusBlock.epoch = (List.range k).map Nat.cast ∧
      ∀ e b, (commitAll calls).1.blocks.lookup e = some b ↔ b ∈ calls ∧ b.epoch = e ∧ k < e) ∧
    ∀ calls' : List ConsensusBlock, (∀ b, b ∈ calls' ↔ b ∈ calls) →
      emitted calls' = emitted calls := by
  obtain ⟨k, hk⟩ := exists_logged hsame
  have hblock : ∀ {e b}, block? calls e = some b ↔ b ∈ calls ∧ b.epoch = e := block?_eq_some hsame
  refine ⟨⟨k, hk.isLeast, fun b hb => ?_, hk.epochs hsame, fun e b => ?_⟩,
    fun calls' => emitted_eq hsame⟩
  · have hmem : some b ∈ (emitted calls).map some := List.mem_map.mpr ⟨b, hb, rfl⟩
    rw [hk.sent] at hmem
    obtain ⟨j, -, hj⟩ := List.mem_map.mp hmem
    exact (hblock.mp hj).1
  · rw [hk.waiting e]
    split_ifs with hlt
    · rw [hblock]
      tauto
    · simp [hlt]

/-- Blocks of the epochs `1`, `-3`, `0`, `1` again and `4`. -/
def shuffledCalls : List ConsensusBlock :=
  [⟨7, [], 1⟩, ⟨8, [], -3⟩, ⟨9, [], 0⟩, ⟨7, [], 1⟩, ⟨9, [], 4⟩]

/-- They leave as those of `0` and `1`, and that of `4` is left waiting. -/
theorem commits_gap_free_shuffled :
    emitted shuffledCalls = [⟨9, [], 0⟩, ⟨7, [], 1⟩] ∧
    (∃ k : ℕ, IsLeast {k : ℕ | ∀ b ∈ shuffledCalls, b.epoch ≠ k} k ∧
      (emitted shuffledCalls).map ConsensusBlock.epoch = (List.range k).map Nat.cast ∧
      ∀ e b, (commitAll shuffledCalls).1.blocks.lookup e = some b ↔
        b ∈ shuffledCalls ∧ b.epoch = e ∧ k < e) ∧
    emitted shuffledCalls.reverse = emitted shuffledCalls := by
  obtain ⟨⟨k, hleast, -, hepochs, hwaiting⟩, hsame⟩ := commits_gap_free shuffledCalls (by decide)
  exact ⟨by decide, ⟨k, hleast, hepochs, hwaiting⟩, hsame _ fun b => List.mem_reverse⟩

end Committor

end SMVBA
