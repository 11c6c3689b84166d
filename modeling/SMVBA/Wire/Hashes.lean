import SMVBA.Library.Framing
import SMVBA.Network.Exec
import SMVBA.Wire.Message

/-!
# What a signature binds

A signature is on the hash of a message, and the hash is of the message's integers in base two,
strung together with no separator and no tag for the type, and of its block hash. Two messages with
the same bytes agree exactly when they have the same shape: the same type, integers of the same
lengths, a block in both or in none, and the same value of the field that the hash leaves out
(`signature_binds_iff`). Without the same shape they may have the same bytes and say different
things, and `collisions` has such pairs for most types.
-/

namespace SMVBA

/-! ## The renderings -/

/-- The digits that `appendInt` writes are bytes from 48 to 57. -/
theorem digit_bounds {n : ℕ} {d : Char} (hd : d ∈ Nat.toDigits 2 n) :
    48 ≤ d.toNat ∧ d.toNat ≤ 57 := by
  have hdigit := Nat.isDigit_of_mem_toDigits (by decide) (by decide) hd
  simp only [Char.isDigit, Bool.and_eq_true, decide_eq_true_eq] at hdigit
  exact ⟨UInt32.le_iff_toNat_le.mp hdigit.1, UInt32.le_iff_toNat_le.mp hdigit.2⟩

theorem digit_byte {n : ℕ} {d : Char} (hd : d ∈ Nat.toDigits 2 n) :
    (UInt8.ofNat d.toNat).toNat = d.toNat := by
  have hbounds := digit_bounds hd
  exact Nat.mod_eq_of_lt (by omega)

/-- The digits can be read off their bytes. -/
theorem toDigits_of_bytes {n m : ℕ} (h : (Nat.toDigits 2 n).map (fun d => UInt8.ofNat d.toNat) =
    (Nat.toDigits 2 m).map fun d => UInt8.ofNat d.toNat) : n = m := by
  have hread : ∀ k, ((Nat.toDigits 2 k).map fun d => UInt8.ofNat d.toNat).map
      (fun b => Char.ofNat b.toNat) = Nat.toDigits 2 k := by
    intro k
    rw [List.map_map]
    refine (List.map_congr_left fun d hd => ?_).trans (List.map_id _)
    simp [digit_byte hd]
  calc n = Nat.ofDigitChars 2 (Nat.toDigits 2 n) 0 :=
        (Nat.ofDigitChars_toDigits (by decide) (by decide)).symm
    _ = Nat.ofDigitChars 2 (Nat.toDigits 2 m) 0 := by rw [← hread n, ← hread m, h]
    _ = m := Nat.ofDigitChars_toDigits (by decide) (by decide)

/-- A rendering that has no sign does not begin with one. -/
theorem digits_ne_sign {n : ℕ} {l : List UInt8} :
    (Nat.toDigits 2 n).map (fun d => UInt8.ofNat d.toNat) ≠ 45 :: l := by
  intro h
  have hmem : (45 : UInt8) ∈ (Nat.toDigits 2 n).map fun d => UInt8.ofNat d.toNat := by
    rw [h]
    exact List.mem_cons_self
  obtain ⟨d, hd, hbyte⟩ := List.mem_map.mp hmem
  have hbounds := digit_bounds hd
  have hnat : d.toNat = 45 := (digit_byte hd).symm.trans (congrArg UInt8.toNat hbyte)
  omega

/-- The integer can be read off its rendering. -/
theorem appendInt_injective : Function.Injective appendInt := by
  intro x y h
  unfold appendInt at h
  by_cases hx : x < 0 <;> by_cases hy : y < 0
  · rw [if_pos hx, if_pos hy] at h
    have habs := toDigits_of_bytes (List.append_cancel_left h)
    omega
  · rw [if_pos hx, if_neg hy] at h
    exact absurd h.symm digits_ne_sign
  · rw [if_neg hx, if_pos hy] at h
    exact absurd h digits_ne_sign
  · rw [if_neg hx, if_neg hy] at h
    have habs := toDigits_of_bytes h
    omega

theorem Digest.length_bytes (d : Digest) : (Digest.bytes d).length = 32 := by
  simp [Digest.bytes]

/-- The digest can be read off its bytes. -/
theorem Digest.bytes_injective : Function.Injective Digest.bytes := by
  intro d d' h
  refine BitVec.eq_of_toNat_eq (Nat.eq_of_testBit_eq fun k => ?_)
  by_cases hk : k < 256
  · -- Bit `k` is bit `k % 8` of the byte `31 - k / 8`.
    have hbyte : UInt8.ofNat (d.toNat >>> (8 * (k / 8))) =
      UInt8.ofNat (d'.toNat >>> (8 * (k / 8))) := by
      have hget := congrArg (fun l : List UInt8 => l[31 - k / 8]?) h
      have hlt : 31 - k / 8 < 32 := by omega
      have hback : 31 - (31 - k / 8) = k / 8 := by omega
      simpa [Digest.bytes, List.getElem?_range hlt, hback] using hget
    have hbits := congrArg (fun b : UInt8 => b.toNat.testBit (k % 8)) hbyte
    have hlow : k % 8 < 8 := Nat.mod_lt _ (by decide)
    have hsum : 8 * (k / 8) + k % 8 = k := Nat.div_add_mod k 8
    simpa [UInt8.toNat_ofNat', Nat.testBit_mod_two_pow _ 8, hlow,
      Nat.testBit_shiftRight, hsum] using hbits
  · have hhigh : ∀ e : Digest, e.toNat.testBit k = false := fun e =>
      Nat.testBit_lt_two_pow (lt_of_lt_of_le e.isLt (Nat.pow_le_pow_right (by decide) (by omega)))
    rw [hhigh, hhigh]

namespace Wire

/-- The bytes of a digest that may be missing. -/
def optBytes (d : Option Digest) : List UInt8 := (d.map Digest.bytes).getD []

/-- A digest that is known to be there or not splits off the front. -/
theorem optBytes_append_inj {d d' : Option Digest} {s t : List UInt8} (hsome : d.isSome = d'.isSome)
    (h : optBytes d ++ s = optBytes d' ++ t) : d = d' ∧ s = t := by
  cases d with
  | none =>
    cases d' with
    | none => exact ⟨rfl, h⟩
    | some d' => cases hsome
  | some d =>
    cases d' with
    | none => cases hsome
    | some d' =>
      have hlen : (Digest.bytes d).length = (Digest.bytes d').length := by
        rw [Digest.length_bytes, Digest.length_bytes]
      obtain ⟨rfl, hrest⟩ := Framing.append_inj Digest.bytes_injective hlen h
      exact ⟨rfl, hrest⟩

/-! ## Shapes -/

namespace Message

/-- The integers of a message that its hash reads, in their order. -/
def ints : Message → List ℤ
  | .spbProposal author _ epoch round phase _ => [author, epoch, round, phase.toInt]
  | .spbVote author _ _ epoch round phase _ => [author, epoch, round, phase.toInt]
  | .finish author _ epoch round _ => [author, epoch, round]
  | .done author epoch round _ => [author, epoch, round]
  | .electShare _ epoch round _ => [epoch, round]
  | .prevote author leader epoch round flag _ _ => [author, leader, epoch, round, flag.toInt]
  | .finVote author leader epoch round flag _ _ => [author, leader, epoch, round, flag.toInt]
  | .halt author epoch _ leader _ _ => [author, epoch, leader]

/-- The digest that the hash of a message reads before the integers. -/
def digestBefore : Message → Option Digest
  | .finish _ blockHash _ _ _ => some blockHash
  | _ => none

/-- The digest that the hash of a message reads after the integers. -/
def digestAfter (S : Setup) : Message → Option Digest
  | .spbProposal _ b _ _ _ _ => b.map S.hash
  | .spbVote _ _ blockHash _ _ _ _ => some blockHash
  | .prevote _ _ _ _ _ blockHash _ => some blockHash
  | .finVote _ _ _ _ _ blockHash _ => some blockHash
  | .halt _ _ _ _ blockHash _ => some blockHash
  | _ => none

/-- The field, besides the signature, that the hash of a message does not read. -/
def unhashed : Message → Option ℤ
  | .spbVote _ proposer _ _ _ _ _ => some proposer
  | .halt _ _ round _ _ _ => some round
  | _ => none

theorem hashBytes_eq (S : Setup) (m : Message) : m.hashBytes S =
    optBytes m.digestBefore ++ (m.ints.flatMap appendInt ++ optBytes (m.digestAfter S)) := by
  cases m with
  | spbProposal author b epoch round phase signature =>
    cases b <;> simp [hashBytes, optBytes, ints, digestBefore, digestAfter]
  | _ => simp [hashBytes, optBytes, ints, digestBefore, digestAfter]

end Message

/-- The shape of a message: its type, the lengths of the integers that its hash reads, whether it
has a block, and the field that its hash leaves out. -/
structure Shape where
  msgType : MsgType
  widths : List ℕ
  block : Bool
  unhashed : Option ℤ
deriving DecidableEq

/-- The shape of a message. -/
def Message.shape (S : Setup) (m : Message) : Shape where
  msgType := m.msgType
  widths := m.ints.map fun x => (appendInt x).length
  block := (m.digestAfter S).isSome
  unhashed := m.unhashed

/-- The messages are of one type, and all their fields but the signature are the same. The blocks of
two proposals have the same hash, or are both missing. -/
def Message.Agrees (S : Setup) : Message → Message → Prop
  | .spbProposal author b epoch round phase _, .spbProposal author' b' epoch' round' phase' _ =>
    author = author' ∧ b.map S.hash = b'.map S.hash ∧ epoch = epoch' ∧
    round = round' ∧ phase = phase'
  | .spbVote author proposer blockHash epoch round phase _,
      .spbVote author' proposer' blockHash' epoch' round' phase' _ =>
    author = author' ∧ proposer = proposer' ∧ blockHash = blockHash' ∧ epoch = epoch' ∧
      round = round' ∧ phase = phase'
  | .finish author blockHash epoch round _, .finish author' blockHash' epoch' round' _ =>
    author = author' ∧ blockHash = blockHash' ∧ epoch = epoch' ∧ round = round'
  | .done author epoch round _, .done author' epoch' round' _ =>
    author = author' ∧ epoch = epoch' ∧ round = round'
  | .electShare author epoch round sigShare, .electShare author' epoch' round' sigShare' =>
    author = author' ∧ epoch = epoch' ∧ round = round' ∧ sigShare = sigShare'
  | .prevote author leader epoch round flag blockHash _,
      .prevote author' leader' epoch' round' flag' blockHash' _ =>
    author = author' ∧ leader = leader' ∧ epoch = epoch' ∧ round = round' ∧ flag = flag' ∧
      blockHash = blockHash'
  | .finVote author leader epoch round flag blockHash _,
      .finVote author' leader' epoch' round' flag' blockHash' _ =>
    author = author' ∧ leader = leader' ∧ epoch = epoch' ∧ round = round' ∧ flag = flag' ∧
      blockHash = blockHash'
  | .halt author epoch round leader blockHash _, .halt author' epoch' round' leader' blockHash' _ =>
    author = author' ∧ epoch = epoch' ∧ round = round' ∧ leader = leader' ∧ blockHash = blockHash'
  | _, _ => False

instance (S : Setup) (m m' : Message) : Decidable (m.Agrees S m') := by
  unfold Message.Agrees
  split <;> infer_instance

/-- A message is its type, what its hash reads, and what its hash leaves out. -/
theorem agrees_iff (S : Setup) {m m' : Message} (hm : m.msgType ≠ .electShare) : m.Agrees S m' ↔
    m.msgType = m'.msgType ∧ m.ints = m'.ints ∧ m.digestBefore = m'.digestBefore ∧
      m.digestAfter S = m'.digestAfter S ∧ m.unhashed = m'.unhashed := by
  cases m with
  | electShare => exact absurd rfl hm
  | spbProposal | spbVote | finish | done | prevote | finVote | halt =>
    cases m' <;> simp [Message.Agrees, Message.msgType, Message.ints, Message.digestBefore,
      Message.digestAfter, Message.unhashed, Int8.toInt_inj] <;> tauto

/-- Two signed messages whose hashes are of the same bytes agree exactly when they have the same
shape. -/
theorem signature_binds_iff (S : Setup) {m m' : Message} (hm : m.msgType ≠ .electShare)
    (h : m.hashBytes S = m'.hashBytes S) : m.Agrees S m' ↔ m.shape S = m'.shape S := by
  rw [agrees_iff S hm]
  constructor
  · rintro ⟨htype, hints, hbefore, hafter, hunhashed⟩
    simp [Message.shape, htype, hints, hafter, hunhashed]
  · intro hshape
    simp only [Message.shape, Shape.mk.injEq] at hshape
    obtain ⟨htype, hwidths, hblock, hunhashed⟩ := hshape
    have hbefore : m.digestBefore.isSome = m'.digestBefore.isSome := by
      cases m <;> cases m' <;> cases htype <;> rfl
    rw [Message.hashBytes_eq, Message.hashBytes_eq] at h
    -- The bytes come apart from the front: a digest, the integers, and a digest.
    obtain ⟨hb, hrest⟩ := optBytes_append_inj hbefore h
    obtain ⟨hints, hlast⟩ := Framing.flatMap_append_inj appendInt_injective hwidths hrest
    obtain ⟨ha, -⟩ := optBytes_append_inj hblock (congrArg (· ++ []) hlast)
    exact ⟨htype, hints, hb, ha, hunhashed⟩

/-- Two `Done` messages with the bytes `1110`, which do not agree, and are not of one shape. -/
theorem signature_binds_iff_done :
    (Message.done 1 1 2 []).hashBytes (demo 4 0) = (Message.done 1 3 0 []).hashBytes (demo 4 0) ∧
    ((Message.done 1 1 2 []).Agrees (demo 4 0) (.done 1 3 0 []) ↔
      (Message.done 1 1 2 []).shape (demo 4 0) = (Message.done 1 3 0 []).shape (demo 4 0)) :=
  ⟨by decide, signature_binds_iff (demo 4 0) (by decide) (by decide)⟩

/-- Pairs of messages that differ: a prevote and a final vote, a proposal and a vote for its block,
votes in the instances of different proposers, halts of different rounds, and messages of one type
whose integers run together. -/
def collisions : List (Message × Message) :=
  [(.prevote 1 2 0 0 0 5 [], .finVote 1 2 0 0 0 5 []),
    (.spbProposal 1 (some ⟨1, [], 0⟩) 0 0 0 [], .spbVote 1 2 ((demo 4 0).hash ⟨1, [], 0⟩) 0 0 0 []),
    (.spbVote 1 2 5 0 0 0 [], .spbVote 1 3 5 0 0 0 []),
    (.halt 1 0 0 2 5 [], .halt 1 0 1 2 5 []),
    (.done 1 1 2 [], .done 1 3 0 []),
    (.finish 1 5 1 2 [], .finish 1 5 3 0 [])]

/-- Each of the six pairs is hashed from the same bytes, so that a signature of the one verifies for
the other, and does not agree. -/
theorem signature_of_another : collisions.length = 6 ∧ ∀ p ∈ collisions,
    p.1.hashBytes (demo 4 0) = p.2.hashBytes (demo 4 0) ∧ ¬ p.1.Agrees (demo 4 0) p.2 := by
  decide +kernel

end Wire

end SMVBA
