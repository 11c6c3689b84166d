import Mathlib.Data.List.AList
import SMVBA.Consensus.Message

/-!
# The committor

`Committor.Commit` of `core/smvba/consensus/commitor.go`. The blocks that are not yet in turn wait
in a map by epoch, and the loop sends on `commitCh` as long as the map has a block for the next
index. The map is finite, so the loop ends after at most as many rounds as it has entries.
-/

namespace SMVBA

/-- `Committor`: the next epoch to commit, and the waiting blocks. -/
structure Committor where
  index : ℤ := 0
  blocks : AList (fun _ : ℤ => ConsensusBlock) := ∅

namespace Committor

/-- The loop of `Commit`, with a bound on its rounds: the blocks sent on `commitCh`, in order. -/
def drain : ℕ → Committor → Committor × List ConsensusBlock
  | 0, c => (c, [])
  | n + 1, c =>
    match c.blocks.lookup c.index with
    | some b =>
      let (c', bs) := drain n { index := c.index + 1, blocks := c.blocks.erase c.index }
      (c', b :: bs)
    | none => (c, [])

/-- `Committor.Commit`. -/
def commit (c : Committor) (block : ConsensusBlock) : Committor × List ConsensusBlock :=
  if block.epoch < c.index then (c, [])
  else
    let blocks := c.blocks.insert block.epoch block
    drain blocks.entries.length { c with blocks := blocks }

/-- An entry that is left after an erasure was there. -/
theorem lookup_of_erase {blocks : AList (fun _ : ℤ => ConsensusBlock)}
    {index e : ℤ} {b : ConsensusBlock}
    (h : (blocks.erase index).lookup e = some b) : blocks.lookup e = some b := by
  by_cases hi : e = index
  · rw [hi, AList.lookup_erase] at h
    cases h
  · rwa [AList.lookup_erase_ne hi] at h

/-- What holds of every waiting block holds of every block that the loop sends, and still of every
block that waits afterwards. -/
theorem drain_forall {P : ConsensusBlock → Prop} : ∀ (n : ℕ) (c : Committor),
    (∀ e b, c.blocks.lookup e = some b → P b) →
    (∀ b ∈ (drain n c).2, P b) ∧ ∀ e b, (drain n c).1.blocks.lookup e = some b → P b
  | 0, c, h => ⟨by simp [drain], h⟩
  | n + 1, c, h => by
    cases hl : c.blocks.lookup c.index with
    | none => simpa [drain, hl] using h
    | some b =>
      have hrest : ∀ e b', (c.blocks.erase c.index).lookup e = some b' → P b' :=
        fun e b' he => h e b' (lookup_of_erase he)
      obtain ⟨hout, hwait⟩ := drain_forall n ⟨c.index + 1, c.blocks.erase c.index⟩ hrest
      simp only [drain, hl, List.mem_cons]
      refine ⟨?_, hwait⟩
      rintro b' (rfl | hb')
      · exact h c.index b' hl
      · exact hout b' hb'

/-- What holds of the committed block and of every waiting block holds of every block that `Commit`
sends and of every block that waits afterwards. -/
theorem commit_forall {P : ConsensusBlock → Prop} (c : Committor) (block : ConsensusBlock)
    (hb : P block) (h : ∀ e b, c.blocks.lookup e = some b → P b) :
    (∀ b ∈ (c.commit block).2, P b) ∧ ∀ e b, (c.commit block).1.blocks.lookup e = some b → P b := by
  unfold commit
  split_ifs with hlt
  · exact ⟨by simp, h⟩
  · apply drain_forall
    intro e b he
    by_cases hi : e = block.epoch
    · rw [hi, AList.lookup_insert] at he
      cases he
      exact hb
    · rw [AList.lookup_insert_ne hi] at he
      exact h e b he

/-! ## The order of the commits -/

/-- Every waiting block waits under its own epoch. -/
def Keyed (c : Committor) : Prop := ∀ e b, c.blocks.lookup e = some b → b.epoch = e

/-- The loop sends the blocks of the epochs from the old index up to the new one, in this order. -/
theorem drain_order : ∀ (n : ℕ) (c : Committor), c.Keyed →
    (drain n c).1.Keyed ∧ c.index ≤ (drain n c).1.index ∧
      (∀ b ∈ (drain n c).2, c.index ≤ b.epoch ∧ b.epoch < (drain n c).1.index) ∧
      (drain n c).2.Pairwise fun b b' => b.epoch < b'.epoch
  | 0, c, h => ⟨h, le_rfl, by simp [drain], by simp [drain]⟩
  | n + 1, c, h => by
    cases hl : c.blocks.lookup c.index with
    | none => simpa [drain, hl] using h
    | some b =>
      have hepoch : b.epoch = c.index := h c.index b hl
      obtain ⟨hkeyed, hindex, hout, hsorted⟩ := drain_order n ⟨c.index + 1, c.blocks.erase c.index⟩
        fun e b' he => h e b' (lookup_of_erase he)
      dsimp only at hindex hout
      simp only [drain, hl, List.mem_cons, List.pairwise_cons]
      refine ⟨hkeyed, by omega, ?_, ?_, hsorted⟩
      · rintro b' (rfl | hb')
        · omega
        · have := hout b' hb'
          omega
      · intro b' hb'
        have := hout b' hb'
        omega

/-- `Commit` sends blocks of epochs from the old index up to the new one, in order. -/
theorem commit_order (c : Committor) (block : ConsensusBlock) (h : c.Keyed) :
    (c.commit block).1.Keyed ∧ c.index ≤ (c.commit block).1.index ∧
      (∀ b ∈ (c.commit block).2, c.index ≤ b.epoch ∧ b.epoch < (c.commit block).1.index) ∧
      (c.commit block).2.Pairwise fun b b' => b.epoch < b'.epoch := by
  unfold commit
  split_ifs with hlt
  · exact ⟨h, le_rfl, by simp, by simp⟩
  · apply drain_order
    intro e b he
    by_cases hi : e = block.epoch
    · rw [hi, AList.lookup_insert] at he
      cases he
      exact hi.symm
    · rw [AList.lookup_insert_ne hi] at he
      exact h e b he

end Committor

end SMVBA
