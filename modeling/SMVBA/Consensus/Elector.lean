import SMVBA.Consensus.Aggreator

/-!
# Leader election

`core/smvba/consensus/elector.go` and the `ElectAggreator` of `aggreator.go`. The combined threshold
signature on a view's digest is the coin of that view. Its first three bytes, reduced modulo the
size of the committee, name the leader. The table of leaders has a second writer: `handleHalt` puts
the leader of a received `Halt` into it.
-/

namespace SMVBA

/-- `RANDOM_LEN`. -/
def randomLen : ℕ := 3

/-- The leader that a coin names: the first `RANDOM_LEN` bytes as one number, modulo the size of
the committee. Both branches of the source's loop add the byte's value, as the negation of the byte
zero is zero. `none` stands for the index out of range that a shorter coin would cause. -/
def coinLeader (S : Setup) (coin : List UInt8) : Option NodeID :=
  if randomLen ≤ coin.length then
    some (((coin.take randomLen).foldl (fun rand b => rand * 2^8 + b.toNat) 0 %
      S.committee.size : ℕ))
  else none

/-- A coin is long enough to name a leader. -/
def LongCoins (S : Setup) : Prop :=
  ∀ shares d coin, S.combineIntactTSPartial shares d = some coin → randomLen ≤ coin.length

/-- `ElectAggreator`. -/
structure ElectAggreator where
  shares : List SignatureShare := []
  authors : Finset NodeID := ∅

/-- `ElectAggreator.Append`, with `NONE` for "no leader yet". The coin is combined when the share
that completes the quorum arrives, and only then. -/
def ElectAggreator.append (S : Setup) (a : ElectAggreator) (e : ElectShare) :
    ElectAggreator × Except Err NodeID :=
  if e.author ∈ a.authors then (a, .error (.oneMoreMessage e.epoch e.round e.author))
  else
    let a : ElectAggreator := ⟨a.shares ++ [e.sigShare], insert e.author a.authors⟩
    if a.shares.length = S.quorum then
      match S.combineIntactTSPartial a.shares (S.electHash e.view) with
      | none => (a, .error .combine)
      | some coin =>
        match coinLeader S coin with
        | none => (a, .error .panic)
        | some leader => (a, .ok leader)
    else (a, .ok NONE)

/-- `Elector`. A view that has no entry in `leaders` reads as `NONE`. -/
structure Elector where
  leaders : View → NodeID := fun _ => NONE
  electAggreators : View → ElectAggreator := fun _ => {}

namespace Elector

/-- `Elector.SetLeader`. -/
def setLeader (e : Elector) (v : View) (leader : NodeID) : Elector :=
  { e with leaders := Function.update e.leaders v leader }

/-- `Elector.Leader`. -/
def leader (e : Elector) (v : View) : NodeID := e.leaders v

/-- `Elector.AddShareVote`. An error of `Append` is swallowed: the source returns `NONE` and no
error. -/
def addShareVote (S : Setup) (e : Elector) (s : ElectShare) : Elector × Except Err NodeID :=
  let (eA, r) := (e.electAggreators s.view).append S s
  let e := { e with electAggreators := Function.update e.electAggreators s.view eA }
  match r with
  | .error .panic => (e, .error .panic)
  | .error _ => (e, .ok NONE)
  | .ok node => if node ≠ NONE then (e.setLeader s.view node, .ok node) else (e, .ok node)

end Elector

end SMVBA
