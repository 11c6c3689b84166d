import SMVBA.Network.Exec
import SMVBA.Spb.Calls

/-!
# The phase-one votes of an SPB instance

`processProposal` looks whether the instance has a block and stores its own in two steps. Calls that
look before any of them has stored all go on: each stores its block, over the one of the call
before, and each sends a vote. An instance sends one phase-one vote and keeps its block if no call
finds the instance without a block while another one that has found it so has not stored yet
(`LoadsApart`).

Then at most one call is past its `Load` without its `Store`, and none once there is a block, so the
votes sent and to be sent are at most as many as there are blocks (`OneVote`).
-/

namespace SMVBA

open Threads

variable {S : Setup} {c : Core} {tasks : List Task} {p : Pool SPB Call Event} {t : Call}

/-- The call has found no block and has not stored its own yet. -/
def Call.isStoring : Call → Bool
  | .storeOne _ => true
  | _ => false

/-- The call has stored its block and has not sent its vote yet. -/
def Call.isSending : Call → Bool
  | .sendOne _ => true
  | _ => false

/-- The proposal of a call that looks for a block of the first phase. -/
def Call.loadOne? : Call → Option SPBProposal
  | .loadOne p => some p
  | _ => none

/-- A phase-one vote is sent. -/
def Event.isOneVote : Event → Bool
  | .out o => o.vote?.any fun v => v.phase = .one
  | .counted _ => false

/-- A call whose `Load` finds no block, and which goes on, takes this step when no other call is
between its `Load` and its `Store`. -/
def LoadsApart (p : Pool SPB Call Event) (t : Call) : Prop :=
  ∀ q ∈ t.loadOne?, p.shared.blockHash = none → q.author = q.b.proposer →
    p.threads.countP Call.isStoring = 0

instance (p : Pool SPB Call Event) (t : Call) : Decidable (LoadsApart p t) :=
  inferInstanceAs (Decidable (∀ q ∈ t.loadOne?, _))

/-- How many blocks an instance has: none or one. -/
def SPB.blocks (s : SPB) : ℕ := if s.blockHash = none then 0 else 1

/-- One block at most is stored or about to be stored, and votes are sent for a stored block only.
-/
structure OneVote (p : Pool SPB Call Event) : Prop where
  stores : p.threads.countP Call.isStoring + p.shared.blocks ≤ 1
  votes : p.threads.countP Call.isSending + p.trace.countP Event.isOneVote ≤ p.shared.blocks

/-! ## One step -/

theorem isStoring_of_starts (x : Call) (h : x.Starts) : x.isStoring = false := by
  cases h <;> rfl

theorem isSending_of_starts (x : Call) (h : x.Starts) : x.isSending = false := by
  cases h <;> rfl

/-- What a step has to do with blocks and votes of the first phase. -/
inductive OneStep (S : Setup) (s s' : SPB) (t : Call) (new : List Call) (evs : List Event) : Prop
  /-- A call finds no block and goes on. -/
  | find (q : SPBProposal) (ht : t = .loadOne q) (hb : s.blockHash = none)
      (ha : q.author = q.b.proposer) (hs : s' = s) (hnew : new = [.storeOne q]) (hev : evs = [])
  /-- A call stores its block. -/
  | store (q : SPBProposal) (ht : t = .storeOne q) (hb : s'.blockHash = some (S.hash q.b))
      (hnew : new = [.sendOne q]) (hev : evs = [])
  /-- A call sends its vote. -/
  | send (q : SPBProposal) (ht : t = .sendOne q) (hs : s' = s) (hnew : new = [.drain])
      (hev : evs.countP Event.isOneVote ≤ 1)
  /-- Nothing of that. -/
  | other (hstoring : t.isStoring = false) (hsending : t.isSending = false)
      (hb : s'.blockHash = s.blockHash) (hnew : new.countP Call.isStoring = 0)
      (hnew' : new.countP Call.isSending = 0) (hev : evs.countP Event.isOneVote = 0)

/-- Sending a vote is one event. -/
theorem length_sendVote (v : SPBVote) : (c.sendVote v).length = 1 := by
  unfold Core.sendVote
  split_ifs <;> rfl

/-- A phase-two vote is none of the first phase. -/
theorem countP_sendVote_two (q : SPBProposal) :
    ((c.sendVote (answerTwo c q)).map Event.out).countP Event.isOneVote = 0 := by
  unfold Core.sendVote
  split_ifs <;> rfl

/-- What a vote is answered with is no vote. -/
theorem countP_voteOutput (v : SPBVote) (d : Digest) (n : ℕ) :
    ((c.voteOutput S v d n).map Event.out).countP Event.isOneVote = 0 := by
  unfold Core.voteOutput
  split_ifs
  · split <;> rfl
  · rfl

theorem Call.oneStep (s : SPB) (t : Call) : OneStep S s (Call.step S c s t).1 t
    (Call.step S c s t).2.1 (Call.step S c s t).2.2 := by
  cases t with
  | loadOne q =>
    unfold Call.step
    dsimp only
    split_ifs with hskip
    · exact .other rfl rfl rfl rfl rfl rfl
    · rw [not_or, not_not, not_not] at hskip
      exact .find q rfl hskip.1 hskip.2 rfl rfl rfl
  | storeOne q => exact .store q rfl rfl rfl rfl
  | sendOne q =>
    refine .send q rfl rfl rfl (List.countP_le_length.trans ?_)
    rw [Call.step, List.length_map, length_sendVote]
  | drain =>
    exact .other rfl rfl rfl (countP_calls isStoring_of_starts _)
      (countP_calls isSending_of_starts _) rfl
  | loadTwo q | loadVote q =>
    unfold Call.step
    dsimp only
    split_ifs <;> exact .other rfl rfl rfl rfl rfl rfl
  | sendTwo q => exact .other rfl rfl rfl rfl rfl (countP_sendVote_two q)
  | answer v num => exact .other rfl rfl rfl rfl rfl (countP_voteOutput v _ num)
  | keepTwo q | lockTwo q | keepVote q | countVote q => exact .other rfl rfl rfl rfl rfl rfl

theorem SPB.blocks_eq {s s' : SPB} (h : s'.blockHash = s.blockHash) : s'.blocks = s.blocks := by
  unfold SPB.blocks
  rw [h]

theorem SPB.blocks_of_none {s : SPB} (h : s.blockHash = none) : s.blocks = 0 := if_pos h

theorem SPB.blocks_of_some {s : SPB} {d : Digest} (h : s.blockHash = some d) : s.blocks = 1 :=
  if_neg (by simp [h])

theorem OneVote.step (ht : t ∈ p.threads) (hok : LoadsApart p t) (hp : OneVote p) :
    OneVote (p.after (Call.step S c) t) := by
  have hstoring := p.countP_after (P := Call.step S c) Call.isStoring ht
  have hsending := p.countP_after (P := Call.step S c) Call.isSending ht
  have htrace : (p.after (Call.step S c) t).trace.countP Event.isOneVote =
      p.trace.countP Event.isOneVote + (Call.step S c p.shared t).2.2.countP Event.isOneVote :=
    List.countP_append
  have hstores := hp.stores
  have hvotes := hp.votes
  cases Call.oneStep (S := S) (c := c) p.shared t with
  | find q htq hb ha hs hnew hev =>
    subst htq
    have hblocks : (p.after (Call.step S c) (.loadOne q)).shared.blocks = p.shared.blocks :=
      congrArg SPB.blocks hs
    have hzero := hok q rfl hb ha
    have hnone := SPB.blocks_of_none hb
    rw [hnew] at hstoring hsending
    rw [hev] at htrace
    simp only [Call.isStoring, Call.isSending, List.countP_singleton, List.countP_nil, if_true,
      Bool.false_eq_true, if_false] at hstoring hsending htrace
    constructor <;> omega
  | store q htq hb hnew hev =>
    subst htq
    have hblocks : (p.after (Call.step S c) (.storeOne q)).shared.blocks = 1 :=
      SPB.blocks_of_some hb
    rw [hnew] at hstoring hsending
    rw [hev] at htrace
    simp only [Call.isStoring, Call.isSending, List.countP_singleton, List.countP_nil, if_true,
      Bool.false_eq_true, if_false] at hstoring hsending htrace
    constructor <;> omega
  | send q htq hs hnew hev =>
    subst htq
    have hblocks : (p.after (Call.step S c) (.sendOne q)).shared.blocks = p.shared.blocks :=
      congrArg SPB.blocks hs
    rw [hnew] at hstoring hsending
    simp only [Call.isStoring, Call.isSending, List.countP_singleton, if_true, Bool.false_eq_true,
      if_false] at hstoring hsending
    constructor <;> omega
  | other hno hno' hb hnew hnew' hev =>
    have hblocks : (p.after (Call.step S c) t).shared.blocks = p.shared.blocks := SPB.blocks_eq hb
    rw [hno, hnew] at hstoring
    rw [hno', hnew'] at hsending
    rw [hev] at htrace
    simp only [Bool.false_eq_true, if_false] at hstoring hsending
    constructor <;> omega

/-- A step of a run with one vote keeps the block. -/
theorem OneVote.blockHash_kept (hp : OneVote p) (ht : t ∈ p.threads) {d : Digest}
    (hd : p.shared.blockHash = some d) :
    (p.after (Call.step S c) t).shared.blockHash = some d := by
  cases Call.oneStep (S := S) (c := c) p.shared t with
  | find q htq hb ha hs hnew hev =>
    rw [hd] at hb
    cases hb
  | store q htq hb hnew hev =>
    -- There is a block, so no call is about to store one.
    have hstores := hp.stores
    rw [SPB.blocks_of_some hd] at hstores
    have hpos : 0 < p.threads.countP Call.isStoring := by
      refine List.countP_pos_iff.mpr ⟨t, ht, ?_⟩
      rw [htq]
      rfl
    omega
  | send q htq hs hnew hev => exact (congrArg SPB.blockHash hs).trans hd
  | other hno hno' hb hnew hnew' hev => exact hb.trans hd

theorem OneVote.start (tasks : List Task) : OneVote (spbPool tasks) := by
  have hstoring := countP_calls isStoring_of_starts tasks
  have hsending := countP_calls isSending_of_starts tasks
  have hthreads : (spbPool tasks).threads = tasks.flatMap Task.calls := rfl
  constructor
  · rw [hthreads, hstoring]
    exact Nat.zero_le 1
  · rw [hthreads, hsending]
    exact le_rfl

/-! ## Every run -/

/-- In every run in which no call finds the instance without a block while another one is about to
store one, of any calls and in any order of their steps, the instance sends at most one phase-one
vote, and once it has a block it keeps it. -/
theorem one_vote (hr : Reachable (Call.step S c) LoadsApart (spbPool tasks) p) :
    p.trace.countP Event.isOneVote ≤ 1 ∧
      ∀ d, p.shared.blockHash = some d → ∀ p', Reachable (Call.step S c) LoadsApart p p' →
        p'.shared.blockHash = some d := by
  have honce : ∀ {q}, Reachable (Call.step S c) LoadsApart (spbPool tasks) q → OneVote q :=
    fun hq => hq.invariant (OneVote.start tasks) fun ht hok h => h.step ht hok
  refine ⟨?_, fun d hd p' hr' => ?_⟩
  · have hvotes := (honce hr).votes
    have hstores := (honce hr).stores
    omega
  · induction hr' with
    | start => exact hd
    | step hr' ht hok ih => exact (honce (hr.trans hr')).blockHash_kept ht ih

/-- The first proposal of node `0`. -/
def fullProposal : SPBProposal := ⟨0, demoBlock 0 0, 0, 0, .one⟩

/-- Another one of it, for the same slot, with an empty block. -/
def emptyProposal : SPBProposal := ⟨0, ⟨0, [], 0⟩, 0, 0, .one⟩

/-- An instance with a call for each. -/
def twoCalls : Pool SPB Call Event :=
  spbPool [.processProposal fullProposal, .processProposal emptyProposal]

/-- One after the other: the second call finds the block of the first. -/
theorem one_vote_in_turn : ∃ p,
    Reachable (Call.step (demo 4 0) { name := 2 }) LoadsApart twoCalls p ∧
      p.threads = [.drain] ∧ p.trace.countP Event.isOneVote ≤ 1 := by
  have hplay : ((twoCalls.play (Call.step (demo 4 0) { name := 2 }) LoadsApart
      [.loadOne fullProposal, .storeOne fullProposal, .sendOne fullProposal,
        .loadOne emptyProposal]).any fun p => p.threads = [.drain]) = true := by decide +kernel
  rw [Option.any_eq_true] at hplay
  obtain ⟨p, hp, hend⟩ := hplay
  have hr := Reachable.start.play hp
  exact ⟨p, hr, of_decide_eq_true hend, (one_vote hr).1⟩

/-- Both calls look before one of them stores: the second block is written over the first, and two
votes are sent. -/
theorem two_votes : ∃ p p',
    Reachable (Call.step (demo 4 0) { name := 2 }) (fun _ _ => True) twoCalls p ∧
      p.shared.blockHash = some (demoHash 0) ∧
      Reachable (Call.step (demo 4 0) { name := 2 }) (fun _ _ => True) p p' ∧
      p'.shared.blockHash ≠ some (demoHash 0) ∧ p'.trace.countP Event.isOneVote = 2 := by
  have hplay : ((twoCalls.play (Call.step (demo 4 0) { name := 2 }) (fun _ _ => True)
      [.loadOne fullProposal, .loadOne emptyProposal, .storeOne fullProposal]).any fun p =>
      decide (p.shared.blockHash = some (demoHash 0)) &&
        ((p.play (Call.step (demo 4 0) { name := 2 }) (fun _ _ => True)
          [.sendOne fullProposal, .storeOne emptyProposal, .sendOne emptyProposal]).any fun p' =>
          decide (p'.shared.blockHash ≠ some (demoHash 0) ∧
            p'.trace.countP Event.isOneVote = 2))) = true := by decide +kernel
  rw [Option.any_eq_true] at hplay
  obtain ⟨p, hp, hrest⟩ := hplay
  rw [Bool.and_eq_true, Option.any_eq_true] at hrest
  obtain ⟨hhash, p', hp', hend⟩ := hrest
  obtain ⟨hchanged, hvotes⟩ := of_decide_eq_true hend
  exact ⟨p, p', Reachable.start.play hp, of_decide_eq_true hhash,
    Reachable.start.play hp', hchanged,
    hvotes⟩

end SMVBA
