import Mathlib.Algebra.Group.Int.Defs
import Mathlib.Algebra.Group.Nat.Defs
import Mathlib.Data.Finset.Card
import Mathlib.Data.Finset.Defs
import Mathlib.Data.Int.Notation

/-!
# Node ids, committees and digests

The parts of `core/config.go` and `crypto/crypto.go` that the consensus code computes with: node
ids with the reserved `NONE`, a committee with its two thresholds, 32-byte digests, and the bytes
that `strconv.AppendInt` writes in base two, of which every `Hash` method is built. Epochs, rounds
and node ids are `int64` and `int` in the source. They are integers here, and `succ64` is the
addition of `handleHalt` and of `advanceNextRound`, whose wrap a single message can reach.
-/

namespace SMVBA

/-- A `core.NodeID`. -/
abbrev NodeID := ℤ

/-- `core.NONE`, the id that no node has. As an addressee it stands for every other node. -/
def NONE : NodeID := -1

/-- A `core.Committee`, by the ids of its authorities. `NONE` is not the id of a node. -/
structure Committee where
  /-- The keys of `Authorities`. -/
  authorities : Finset NodeID
  /-- The reserved id is not used. -/
  none_notMem : NONE ∉ authorities

namespace Committee

/-- `Committee.Size`. -/
def size (c : Committee) : ℕ := c.authorities.card

/-- `Committee.HightThreshold`, the quorum `2f + 1`. -/
def hightThreshold (c : Committee) : ℕ := 2 * ((c.size - 1) / 3) + 1

/-- `Committee.LowThreshold`, `f + 1`. -/
def lowThreshold (c : Committee) : ℕ := (c.size - 1) / 3 + 1

theorem hightThreshold_pos (c : Committee) : 0 < c.hightThreshold := Nat.succ_pos _

/-- In a committee of `3f + 1` nodes a quorum is `2f + 1` nodes. -/
theorem hightThreshold_eq {c : Committee} {f : ℕ} (h : c.size = 3 * f + 1) :
    c.hightThreshold = 2 * f + 1 := by
  unfold hightThreshold
  omega

end Committee

/-- The largest `int64`. -/
def maxInt64 : ℤ := 2^63 - 1

/-- The smallest `int64`. -/
def minInt64 : ℤ := -2^63

/-- `e + 1` on `int64`: the largest value wraps to the smallest. -/
def succ64 (e : ℤ) : ℤ := if e = maxInt64 then minInt64 else e + 1

/-- Below the largest `int64` nothing wraps. -/
theorem succ64_of_ne {e : ℤ} (h : e ≠ maxInt64) : succ64 e = e + 1 := if_neg h

/-- A `crypto.Digest`, 32 bytes. -/
abbrev Digest := BitVec 256

/-- The bytes of a digest, the most significant first. -/
def Digest.bytes (d : Digest) : List UInt8 :=
  (List.range 32).map fun i => UInt8.ofNat (d.toNat >>> (8 * (31 - i)))

/-- `strconv.AppendInt(nil, x, 2)`: a sign and the binary digits, in ASCII. -/
def appendInt (x : ℤ) : List UInt8 :=
  (if x < 0 then [45] else []) ++ (Nat.toDigits 2 x.natAbs).map fun d => UInt8.ofNat d.toNat

end SMVBA
