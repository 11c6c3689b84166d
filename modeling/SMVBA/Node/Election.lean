import Mathlib.Data.Int.Interval
import SMVBA.Byzantine.Coin
import SMVBA.Library.Mealy
import SMVBA.Library.Repeats

/-!
# Electing a leader

`AddShareVote`, fed with any sequence of shares for one view. It keeps the first share of each
author, checks none of them, and combines them once, when there is a quorum of authors.

So it returns at most one leader, which is a member of the committee, and the same one at every node
if a coin depends on nothing but the digest that was signed (`election_deterministic`). But it
returns none if the combination fails, and that is so for good: the view has a leader exactly when
the first shares of the first quorum of authors are all valid, and of different signers
(`elects_iff`). One share that is not valid is enough to prevent it, if it comes early.
-/

namespace SMVBA

variable {S : Setup} {v : View} {e e' : Elector} {s : ElectShare} {shares shares' : List ElectShare}

/-! ## One leader for a view -/

/-- The leader that a call of `AddShareVote` returns, if it is one. -/
def elected? : Except Err NodeID → Option NodeID
  | .ok leader => if leader = NONE then none else some leader
  | .error _ => none

/-- The leaders that the calls of `AddShareVote` return for a sequence of shares. -/
def elected (S : Setup) (e : Elector) (shares : List ElectShare) : List NodeID :=
  (Mealy.run (Elector.addShareVote S) e shares).2.filterMap elected?

/-- What `CombineIntactTSPartial` returns depends only on the digest. -/
def CoinOfDigest (S : Setup) : Prop :=
  ∀ shares shares' d coin coin', S.combineIntactTSPartial shares d = some coin →
    S.combineIntactTSPartial shares' d = some coin' → coin = coin'

/-- A coin of the view names the leader. -/
def NamedByCoin (S : Setup) (v : View) (leader : NodeID) : Prop :=
  ∃ shares coin, S.combineIntactTSPartial shares (S.electHash v) = some coin ∧
    coinLeader S coin = some leader

/-- All coins of a view name one leader. -/
theorem NamedByCoin.unique {leader leader' : NodeID} (hcoin : CoinOfDigest S)
    (h : NamedByCoin S v leader) (h' : NamedByCoin S v leader') : leader = leader' := by
  obtain ⟨shares, coin, hc, hl⟩ := h
  obtain ⟨shares', coin', hc', hl'⟩ := h'
  have hsame : coin = coin' := hcoin _ _ _ _ _ hc hc'
  rw [hsame, hl'] at hl
  exact (Option.some.inj hl).symm

/-- A coin names a member of a committee with the ids `0, ..., n - 1`. -/
theorem NamedByCoin.mem {n : ℕ} {leader : NodeID} (hn : 0 < n)
    (hids : ∀ a, a ∈ S.committee.authorities ↔ 0 ≤ a ∧ a < n) (h : NamedByCoin S v leader) :
    leader ∈ S.committee.authorities := by
  obtain ⟨shares, coin, -, hl⟩ := h
  have hsize : S.committee.size = n := by
    have hinterval : S.committee.authorities = Finset.Ico 0 (n : ℤ) := by
      ext a
      rw [hids, Finset.mem_Ico]
    unfold Committee.size
    rw [hinterval, Int.card_Ico]
    omega
  unfold coinLeader at hl
  split_ifs at hl
  have hleader := Option.some.inj hl
  rw [hids, ← hleader, hsize]
  exact ⟨Int.natCast_nonneg _, Int.ofNat_lt.mpr (Nat.mod_lt _ hn)⟩

/-- No share is taken away. -/
theorem length_addShareVote (S : Setup) (e : Elector) (s : ElectShare) :
    (e.electAggreators s.view).shares.length ≤
      ((e.addShareVote S s).1.electAggreators s.view).shares.length := by
  rw [electAggreators_addShareVote]
  split_ifs
  · exact le_rfl
  · rw [List.length_append]
    omega

/-- A leader is returned for the share that completes the quorum, and is named by a coin. -/
theorem elected_addShareVote {leader : NodeID} (h : elected? (e.addShareVote S s).2 = some leader) :
    (e.electAggreators s.view).shares.length < S.quorum ∧
      S.quorum ≤ ((e.addShareVote S s).1.electAggreators s.view).shares.length ∧
      NamedByCoin S s.view leader := by
  rcases addShareVote_cases S e s with ⟨-, heq⟩ | ⟨-, ⟨r, hr, -, heq⟩ | ⟨coin, l, hq, hc, hl, heq⟩⟩
  · rw [heq] at h
    cases h
  · rw [heq] at h
    rcases hr with rfl | rfl
    · cases h
    · cases h
  · rw [heq] at h ⊢
    have hsame : l = leader := by simpa [elected?, coinLeader_ne_none hl] using h
    rw [List.length_append, List.length_singleton] at hq
    refine ⟨by omega, ?_, _, coin, hc, hsame ▸ hl⟩
    dsimp only
    rw [Function.update_self, List.length_append, List.length_singleton]
    exact hq.ge

/-- From any elector on: there is at most one leader, none before there is a quorum of shares, and
it is named by a coin. -/
theorem elected_run (S : Setup) (e : Elector) (hv : ∀ s ∈ shares, s.view = v) :
    (elected S e shares).length ≤ 1 ∧ ∀ leader ∈ elected S e shares, NamedByCoin S v leader := by
  have hinv := Mealy.run_invariant (Elector.addShareVote S) (x := e)
    (I := fun l y rs => (∀ s ∈ l, s.view = v) →
      (rs.filterMap elected?).length ≤ (if S.quorum ≤ (y.electAggreators v).shares.length then 1
        else 0) ∧ ∀ leader ∈ rs.filterMap elected?, NamedByCoin S v leader)
    (fun _ => ⟨Nat.zero_le _, by simp⟩) ?_ shares hv
  · refine ⟨hinv.1.trans ?_, hinv.2⟩
    split_ifs <;> omega
  · intro l y rs s hl hls
    obtain ⟨hone, hnamed⟩ := hl fun s' hs' => hls s' (List.mem_append_left _ hs')
    obtain rfl : s.view = v := hls s List.mem_concat_self
    have hle := length_addShareVote S y s
    rw [List.filterMap_append]
    cases hs : elected? (y.addShareVote S s).2 with
    | none =>
      have hnil : [(y.addShareVote S s).2].filterMap elected? = [] := by simp [hs]
      rw [hnil, List.append_nil]
      refine ⟨hone.trans ?_, hnamed⟩
      split_ifs <;> omega
    | some leader =>
      have hsingle : [(y.addShareVote S s).2].filterMap elected? = [leader] := by simp [hs]
      obtain ⟨hbefore, hafter, hcoin⟩ := elected_addShareVote hs
      rw [if_neg (Nat.not_le.mpr hbefore)] at hone
      rw [hsingle, List.length_append, List.length_singleton, if_pos hafter]
      refine ⟨by omega, fun l' hl' => ?_⟩
      rcases List.mem_append.mp hl' with hold | hnew
      · exact hnamed l' hold
      · rw [List.mem_singleton.mp hnew]
        exact hcoin

/-- Any two electors, and any two sequences of shares for one view: each returns a leader at most
once, which is one of the ids `0, ..., n - 1`, and if both do it is the same. -/
theorem election_deterministic {n : ℕ} (hn : 0 < n)
    (hids : ∀ a, a ∈ S.committee.authorities ↔ 0 ≤ a ∧ a < n) (hcoin : CoinOfDigest S)
    (e e' : Elector) (hv : ∀ s ∈ shares, s.view = v) (hv' : ∀ s ∈ shares', s.view = v) :
    (elected S e shares).length ≤ 1 ∧ (elected S e' shares').length ≤ 1 ∧
      (∀ leader ∈ elected S e shares ++ elected S e' shares', leader ∈ S.committee.authorities) ∧
      ∀ leader ∈ elected S e shares, ∀ leader' ∈ elected S e' shares', leader = leader' := by
  obtain ⟨hone, hnamed⟩ := elected_run S e hv
  obtain ⟨hone', hnamed'⟩ := elected_run S e' hv'
  refine ⟨hone, hone', fun leader hl => ?_, fun leader hl leader' hl' => ?_⟩
  · rcases List.mem_append.mp hl with hl | hl
    · exact (hnamed leader hl).mem hn hids
    · exact (hnamed' leader hl).mem hn hids
  · exact (hnamed leader hl).unique hcoin (hnamed' leader' hl')

/-- A share of a node for the first view. -/
def demoShare (a : NodeID) (sigShare : SignatureShare) : ElectShare := ⟨a, 0, 0, sigShare⟩

/-- Two nodes of four, with the shares of different nodes in different orders, and one of them
repeated. -/
theorem election_deterministic_four :
    elected (demo 4 2) {} ([0, 1, 1, 2, 3].map (demoShare · [])) = [2] ∧
    elected (demo 4 2) {} ([3, 1, 0].map (demoShare · [])) = [2] ∧
    (∀ leader ∈ elected (demo 4 2) {} ([0, 1, 1, 2, 3].map (demoShare · [])),
      ∀ leader' ∈ elected (demo 4 2) {} ([3, 1, 0].map (demoShare · [])), leader = leader') := by
  have hcoin : CoinOfDigest (demo 4 2) := by
    intro shares shares' d coin coin' h h'
    exact Option.some.inj (h.symm.trans h')
  have hids : ∀ a, a ∈ (demo 4 2).committee.authorities ↔ 0 ≤ a ∧ a < (4 : ℕ) := by
    intro a
    simp only [demo, Finset.mem_map, Finset.mem_range]
    constructor
    · rintro ⟨k, hk, rfl⟩
      exact ⟨Int.natCast_nonneg k, Int.ofNat_lt.mpr hk⟩
    · rintro ⟨hnonneg, hlt⟩
      exact ⟨a.toNat, (Int.toNat_lt hnonneg).mpr hlt, Int.toNat_of_nonneg hnonneg⟩
  refine ⟨by decide, by decide, ?_⟩
  exact (election_deterministic (v := ⟨0, 0⟩) (by decide) hids hcoin {} {} (by decide)
    (by decide)).2.2.2

/-! ## Shares that are not valid -/

/-- The shares that count, in their order: the first one of each author. -/
def firstShares (shares : List ElectShare) : List SignatureShare :=
  (Repeats.firsts (fun s => some s.author) [] shares).map ElectShare.sigShare

/-- A further share counts if its author is new. -/
theorem firstShares_concat (shares : List ElectShare) (s : ElectShare) :
    firstShares (shares ++ [s]) = firstShares shares ++
      if ∃ s' ∈ shares, s'.author = s.author then [] else [s.sigShare] := by
  unfold firstShares
  rw [Repeats.firsts_concat, List.map_append]
  simp only [List.not_mem_nil, false_or]
  split_ifs <;> rfl

/-- The leader of a view is set by a call that returns one. -/
theorem leader_addShareVote (S : Setup) (e : Elector) (s : ElectShare) :
    (e.addShareVote S s).1.leader s.view ≠ NONE ↔ e.leader s.view ≠ NONE ∨
      ∃ leader, leader ≠ NONE ∧ (e.addShareVote S s).2 = .ok leader := by
  rcases addShareVote_cases S e s with ⟨-, heq⟩ | ⟨-, ⟨r, hr, -, heq⟩ | ⟨coin, l, -, -, hl, heq⟩⟩
  · rw [heq]
    simp
  · rw [heq]
    rcases hr with rfl | rfl <;> simp [Elector.leader]
  · rw [heq]
    simp [Elector.leader, coinLeader_ne_none hl]

/-- What a new elector knows of a view after a sequence of shares for it. -/
structure Elector.Fed (S : Setup) (v : View) (l : List ElectShare) (e : Elector) : Prop where
  shares : (e.electAggreators v).shares = firstShares l
  authors : ∀ a, a ∈ (e.electAggreators v).authors ↔ ∃ s ∈ l, s.author = a
  leader : e.leader v ≠ NONE ↔ e.HasCoin S v

/-- One more share. -/
theorem Elector.Fed.addShareVote (h : e.Fed S s.view shares) :
    (e.addShareVote S s).1.Fed S s.view (shares ++ [s]) := by
  have hagg := electAggreators_addShareVote S e s
  rw [if_congr (h.authors s.author) rfl rfl, h.shares] at hagg
  refine ⟨?_, fun a => ?_, ?_⟩
  · rw [hagg, firstShares_concat]
    split_ifs with hold
    · rw [h.shares, List.append_nil]
    · rfl
  · have hmem : (∃ s' ∈ shares ++ [s], s'.author = a) ↔
        (∃ s' ∈ shares, s'.author = a) ∨ s.author = a := by simp [or_and_right, exists_or]
    rw [hagg, hmem]
    split_ifs with hold
    · -- The author of a repeated share is there already.
      have hsame : s.author = a → ∃ s' ∈ shares, s'.author = a := fun ha => ha ▸ hold
      rw [h.authors, or_iff_left_of_imp hsame]
    · rw [Finset.mem_insert, h.authors, or_comm, eq_comm]
  · rw [leader_addShareVote, hasCoin_addShareVote, h.leader]
    simp

/-- Every sequence of shares for the view. -/
theorem fed_run (S : Setup) (hv : ∀ s ∈ shares, s.view = v) :
    (Mealy.run (Elector.addShareVote S) {} shares).1.Fed S v shares := by
  refine Mealy.run_invariant (Elector.addShareVote S)
    (I := fun l e _ => (∀ s ∈ l, s.view = v) → e.Fed S v l) (fun _ => ⟨rfl, by simp, ?_⟩)
    (fun l e _ s hl hls => ?_) shares hv
  · have hnone : ¬ ({} : Elector).HasCoin S v := not_hasCoin_init S v
    simp [hnone, Elector.leader]
  · obtain rfl : s.view = v := hls s List.mem_concat_self
    exact (hl fun s' hs' => hls s' (List.mem_append_left _ hs')).addShareVote

section Signers

variable (signer : Digest → SignatureShare → Option NodeID)

/-- The signers of the valid shares of a list, where `signer` gives the node that has made a share
for the digest, and none if the share is not valid. -/
def signers (d : Digest) (shares : List SignatureShare) : Finset NodeID :=
  (shares.filterMap (signer d)).toFinset

/-- `CombineIntactTSPartial` succeeds exactly on valid shares of a quorum of different signers. -/
def CombinesQuorum (S : Setup) : Prop :=
  ∀ shares d, (S.combineIntactTSPartial shares d).isSome ↔ S.quorum ≤ (signers signer d shares).card

variable {signer}

/-- There are not more signers than shares. -/
theorem card_signers_le (d : Digest) (shares : List SignatureShare) :
    (signers signer d shares).card ≤ shares.length :=
  (List.toFinset_card_le _).trans (List.length_filterMap_le _ _)

/-- After a sequence of shares for a view it has a leader if and only if the first shares of the
first quorum of authors are valid shares of a quorum of signers. The shares after these do not
matter. -/
theorem elects_iff (hcombine : CombinesQuorum signer S) (hlong : LongCoins S)
    (hv : ∀ s ∈ shares, s.view = v) :
    (Mealy.run (Elector.addShareVote S) {} shares).1.leader v ≠ NONE ↔
      S.quorum ≤ (signers signer (S.electHash v) ((firstShares shares).take S.quorum)).card := by
  have hfed := fed_run S hv
  rw [hfed.leader, Elector.HasCoin, hfed.shares, ← hcombine]
  constructor
  · rintro ⟨-, coin, leader, hc, -⟩
    rw [hc]
    rfl
  · intro hsome
    obtain ⟨coin, hc⟩ := Option.isSome_iff_exists.mp hsome
    have hnamed : ∃ leader, coinLeader S coin = some leader :=
      ⟨_, if_pos (hlong _ _ _ hc)⟩
    have hlen : S.quorum ≤ ((firstShares shares).take S.quorum).length :=
      ((hcombine _ _).mp hsome).trans (card_signers_le _ _)
    rw [List.length_take] at hlen
    exact ⟨by omega, coin, hnamed.imp fun _ hl => ⟨hc, hl⟩⟩

end Signers

/-- Four nodes, of which the node with a given id signs with the byte of the id. -/
def byteSigner (_ : Digest) : SignatureShare → Option NodeID
  | [b] => if b < 4 then some (b.toNat : ℤ) else none
  | _ => none

/-- Four nodes whose coins name node 1. -/
def byteSetup : Setup :=
  { demo 4 1 with
    combineIntactTSPartial := fun shares d =>
      if 3 ≤ (signers byteSigner d shares).card then some [0, 0, 1] else none }

/-- The four nodes combine the shares of a quorum, to a coin that is long enough. -/
theorem byteSetup_combines : CombinesQuorum byteSigner byteSetup ∧ LongCoins byteSetup := by
  constructor
  · intro shares d
    have hq : byteSetup.quorum = 3 := by decide
    rw [hq]
    simp only [byteSetup]
    split_ifs with h <;> simp [h]
  · intro shares d coin hc
    simp only [byteSetup] at hc
    split_ifs at hc
    cases hc
    decide

/-- With a share that is not valid after the quorum there is a leader. -/
theorem elects_iff_late :
    (Mealy.run (Elector.addShareVote byteSetup) {}
      [demoShare 0 [0], demoShare 1 [1], demoShare 2 [2], demoShare 3 []]).1.leader ⟨0, 0⟩ ≠ NONE :=
  (elects_iff byteSetup_combines.1 byteSetup_combines.2 (by decide)).mpr (by decide +kernel)

/-- With a share of node 3 that is not valid before the others there is none, although three nodes
have sent valid shares. It is so with a share under its own id, and with one under another's. -/
theorem not_elects_early :
    CombinesQuorum byteSigner byteSetup ∧ LongCoins byteSetup ∧ byteSetup.quorum = 3 ∧
    byteSigner (byteSetup.electHash ⟨0, 0⟩) [] = none ∧
    (∀ b ∈ ([0, 1, 2] : List UInt8),
      byteSigner (byteSetup.electHash ⟨0, 0⟩) [b] = some (b.toNat : ℤ)) ∧
    ∀ a ∈ ([3, 0] : List NodeID), (Mealy.run (Elector.addShareVote byteSetup) {}
      [demoShare a [], demoShare 0 [0], demoShare 1 [1], demoShare 2 [2]]).1.leader ⟨0, 0⟩ = NONE :=
  ⟨byteSetup_combines.1, byteSetup_combines.2, by decide, by decide, by decide +kernel,
    by decide +kernel⟩

end SMVBA
