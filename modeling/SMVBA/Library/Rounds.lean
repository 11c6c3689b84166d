import Mathlib.Algebra.Order.BigOperators.Group.Finset
import Mathlib.Data.List.Perm.Subperm
import Mathlib.Logic.Relation
import SMVBA.Library.Network

/-!
# Asynchronous rounds

Time in an asynchronous system is what must have happened: a round is over when the messages that
were let out before it have been taken (`Protocol.Delivered`), and when the calls that were spawned
before it have run (`Calls.RanBy`). In between, anything may happen in any order. A state in which
no message and no call waits is the end of a round that begins in it, and of as many rounds as one
likes.

`Protocol.nodes_path` sees a path of the system as a path of each of its nodes, so that what a
node's own steps keep is kept over a round. `RunUnder.waits_or_done` is the rule for messages that
have an effect only from some point on. `Calls.Machine.ran` is the rule for calls: what the
running of a call brings about, and no step takes back, holds at the end of the round.
-/

namespace MessagePassing.Protocol

variable {Id Msg St : Type*} [DecidableEq Id] [DecidableEq Msg] {P : Protocol Id Msg St}
  {s s' : State Id Msg St} {A : Finset Id}

/-- A path leads from a reachable state to a reachable state. -/
theorem Reachable.path (hr : P.Reachable s) (h : Relation.ReflTransGen P.Step s s') :
    P.Reachable s' := by
  induction h with
  | refl => exact hr
  | tail _ hstep ih => exact ih.step hstep

/-- One step of a node, whatever it takes and lets out. -/
def LocalStep (P : Protocol Id Msg St) (a : Id) (x y : St) : Prop := ∃ m out, P.step a x m y out

/-- Along a path of the system, a node goes a path of its own. -/
theorem nodes_path (h : Relation.ReflTransGen P.Step s s') (a : Id) :
    Relation.ReflTransGen (P.LocalStep a) (s.nodes a) (s'.nodes a) := by
  induction h with
  | refl => exact .refl
  | tail _ hstep ih =>
    exact hstep.preserves (fun hy hpath => hpath.tail ⟨_, _, hy⟩) ih

/-- The messages that were let out for the nodes of `A` in one state have been taken in another. -/
def Delivered (P : Protocol Id Msg St) (A : Finset Id) (s s' : State Id Msg St) : Prop :=
  ∀ q ∈ A, ∀ a ∈ P.ids, ∀ m ∈ P.sent a (s.nodes a) q, m ∈ P.received (s'.nodes q)

/-- What was let out for a node waits for it or was taken. -/
theorem Reachable.mem_of_sent (hr : P.Reachable s) {a q : Id} (ha : a ∈ P.ids) {m : Msg}
    (hm : m ∈ P.sent a (s.nodes a) q) : m ∈ s.inbox q ∨ m ∈ P.received (s.nodes q) := by
  have hsum := hr.conservation q (fun m' => m' = m)
  have hone : 0 < (P.sent a (s.nodes a) q).countP (fun m' => m' = m) :=
    List.countP_pos_iff.mpr ⟨m, hm, by simp⟩
  have hle : (P.sent a (s.nodes a) q).countP (fun m' => m' = m) ≤
      ∑ b ∈ P.ids, (P.sent b (s.nodes b) q).countP (fun m' => m' = m) :=
    Finset.single_le_sum (f := fun b => (P.sent b (s.nodes b) q).countP (fun m' => m' = m))
      (fun _ _ => Nat.zero_le _) ha
  by_cases hin : m ∈ s.inbox q
  · exact .inl hin
  · have hzero : (s.inbox q).countP (fun m' => decide (m' = m) = true) = 0 := by
      rw [Multiset.countP_eq_zero]
      intro m' hm' heq
      exact hin (of_decide_eq_true heq ▸ hm')
    have hpos : 0 < (P.received (s.nodes q)).countP (fun m' => m' = m) := by omega
    obtain ⟨m', hm', heq⟩ := List.countP_pos_iff.mp hpos
    exact .inr (of_decide_eq_true heq ▸ hm')

/-- Where no message waits, all were taken. -/
theorem Reachable.delivered (hr : P.Reachable s) (hempty : ∀ q ∈ A, s.inbox q = 0) :
    P.Delivered A s s := by
  intro q hq a ha m hm
  refine (hr.mem_of_sent ha hm).resolve_left ?_
  rw [hempty q hq]
  exact Multiset.notMem_zero m

/-- No message of a kind waits for a node that took as many of the kind as were let out for it. -/
theorem Reachable.notMem_inbox (hr : P.Reachable s) {q : Id} {f : Msg → Bool}
    (h : ∑ a ∈ P.ids, (P.sent a (s.nodes a) q).countP f = (P.received (s.nodes q)).countP f)
    {m : Msg} (hm : f m = true) : m ∉ s.inbox q := by
  have hsum := hr.conservation q f
  have hzero : (s.inbox q).countP (fun m => f m = true) = 0 := by omega
  rw [Multiset.countP_eq_zero] at hzero
  exact fun hin => hzero m hin hm

/-- What is let out for a node in a step waits for it after the step. -/
theorem Step.sent_or_inbox (h : P.Step s s') {a q : Id} {m : Msg}
    (hm : m ∈ P.sent a (s'.nodes a) q) : m ∈ P.sent a (s.nodes a) q ∨ m ∈ s'.inbox q := by
  obtain ⟨c, -, m', y, out, hy, -, rfl⟩ := h.exists_take
  dsimp only at hm ⊢
  by_cases hc : a = c
  · subst hc
    rw [Function.update_self, P.sent_step hy] at hm
    refine (List.mem_append.mp hm).imp_right fun hnew => ?_
    exact Multiset.mem_add.mpr (.inr (Multiset.mem_coe.mpr hnew))
  · rw [Function.update_of_ne hc] at hm
    exact .inl hm

/-- A message that is let out when a condition sets in, and whose taking under the condition has a
lasting effect, waits from then on or has had its effect. The message may have been taken before,
without effect. -/
theorem RunUnder.waits_or_done {ok : State Id Msg St → State Id Msg St → Prop}
    {T J : State Id Msg St → Prop} {q : Id} {m : Msg} (hstart : ¬ T P.start)
    (hnew : ∀ {s s'}, P.RunUnder ok s → P.Step s s' → T s' → T s ∨ m ∈ s'.inbox q)
    (htake : ∀ {s s'}, P.RunUnder ok s → P.Step s s' → ok s s' → T s →
      P.received (s'.nodes q) = P.received (s.nodes q) ++ [m] → J s')
    (hkeep : ∀ {s s'}, P.RunUnder ok s → P.Step s s' → J s → J s') (hr : P.RunUnder ok s)
    (hT : T s) : m ∈ s.inbox q ∨ J s := by
  induction hr with
  | start => exact absurd hT hstart
  | @step s s' hr h hok ih =>
    rcases hnew hr h hT with hold | hin
    · rcases ih hold with hwaits | hdone
      · obtain ⟨a, -, m', y, out, hy, -, heq⟩ := h.exists_take
        by_cases htaken : q = a ∧ m' = some m
        · obtain ⟨rfl, rfl⟩ := htaken
          refine .inr (htake hr h hok hold ?_)
          rw [heq]
          dsimp only
          rw [Function.update_self, P.received_step hy]
          rfl
        · rw [heq]
          exact .inl (Multiset.mem_add.mpr (.inl (mem_take hwaits htaken)))
      · exact .inr (hkeep hr h hdone)
    · exact .inl hin

end MessagePassing.Protocol

namespace Calls

variable {St Call : Type*} [DecidableEq Call]

/-- A machine that spawns calls and runs them one by one, later. -/
structure Machine (St Call : Type*) [DecidableEq Call] where
  /-- One step, with the call that it runs, if any. -/
  step : St → Option Call → St → Prop
  /-- The calls that wait to be run. -/
  waiting : St → List Call
  /-- The calls that were spawned so far. -/
  spawned : St → List Call
  /-- A call waits from when it is spawned until it is run. -/
  count_step : ∀ {x c y}, step x c y → ∀ t,
    (waiting y).count t + (spawned x).count t + (if c = some t then 1 else 0) =
      (waiting x).count t + (spawned y).count t

variable {M : Machine St Call} {x y : St}

/-- The calls that were spawned in one state have run in another: those that wait there were spawned
besides. -/
def RanBy (M : Machine St Call) (x y : St) : Prop :=
  List.Subperm (M.spawned x ++ M.waiting y) (M.spawned y)

instance (M : Machine St Call) (x y : St) : Decidable (RanBy M x y) :=
  inferInstanceAs (Decidable (List.Subperm _ _))

/-- Where no call waits, all have run. -/
theorem ranBy_of_waiting (h : M.waiting x = []) : RanBy M x x := by
  unfold RanBy
  rw [h, List.append_nil]

/-- What running a call brings about, under a condition, holds when the call has run, if neither
that nor the condition is lost in a step. -/
theorem Machine.ran {t : Call} {B J : St → Prop}
    (hpath : Relation.ReflTransGen (fun x y => ∃ c, M.step x c y) x y) (hran : RanBy M x y)
    (ht : t ∈ M.waiting x) (hB : ∀ {x c y}, M.step x c y → B x → B y)
    (hJ : ∀ {x c y}, M.step x c y → J x → J y)
    (hrun : ∀ {x y}, M.step x (some t) y → B x → J y) (hx : B x) : J y := by
  -- As long as the call has not been run, the balance of its count is the one of the beginning.
  have hbalance : J y ∨ (B y ∧ (M.waiting y).count t + (M.spawned x).count t =
      (M.waiting x).count t + (M.spawned y).count t) := by
    clear hran
    induction hpath with
    | refl => exact .inr ⟨hx, rfl⟩
    | tail _ hstep ih =>
      obtain ⟨c, hstep⟩ := hstep
      rcases ih with hj | ⟨hb, hcount⟩
      · exact .inl (hJ hstep hj)
      · by_cases hc : c = some t
        · subst hc
          exact .inl (hrun hstep hb)
        · have hone := M.count_step hstep t
          rw [if_neg hc] at hone
          exact .inr ⟨hB hstep hb, by omega⟩
  rcases hbalance with hj | ⟨-, hcount⟩
  · exact hj
  · have hle := hran.count_le t
    have hpos := List.count_pos_iff.mpr ht
    rw [List.count_append] at hle
    omega

end Calls
