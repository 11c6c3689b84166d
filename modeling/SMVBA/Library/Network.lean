import Mathlib.Algebra.BigOperators.Group.Finset.Basic
import Mathlib.Data.Multiset.AddSub
import Mathlib.Data.Multiset.Count
import Mathlib.Logic.Function.Basic
import Mathlib.Logic.Relation

/-!
# Asynchronous message passing

Nodes that keep their own history and exchange messages through a network that delivers in any
order, and neither invents nor copies a message. The local behaviour of a node is a relation: from a
state, with a message taken from its inbox or with none, to a state and the messages that it lets
out for each addressee. The history of a node, the messages that it took and the messages that it
let out, is a function of its state.

`Reachable.conservation` is the accounting of a whole run: the messages of a kind that wait in a
node's inbox and those that the node took are the ones that were let out for it. What a node took
was therefore let out by somebody (`Reachable.exists_sender`), and no more often than it was let out
(`Reachable.countP_received_le`). `Reachable.local_invariant` lifts what every node preserves on its
own to all nodes of a run, and `Reachable.forall_sent` what every node passes on.
`Reachable.project` is a simulation with stuttering: a system whose nodes do more than another's,
and pass more messages, runs as the other one does. `Reachable.of_layer` is for a system in which
the messages go through layers of queues and connections.
-/

namespace MessagePassing

variable {Id Msg St : Type*} [DecidableEq Id] [DecidableEq Msg]

/-- The nodes of a system, with the history that their states carry. -/
structure Protocol (Id Msg St : Type*) where
  /-- The nodes that take steps. -/
  ids : Finset Id
  /-- The initial state of a node. -/
  init : Id → St
  /-- One step of a node: the message it takes, if any, and the messages that it lets out, by
  addressee. -/
  step : Id → St → Option Msg → St → (Id → List Msg) → Prop
  /-- The messages taken so far. -/
  received : St → List Msg
  /-- The messages that a node let out so far, by addressee. -/
  sent : Id → St → Id → List Msg
  received_init : ∀ a, received (init a) = []
  sent_init : ∀ a d, sent a (init a) d = []
  received_step : ∀ {a x m y out}, step a x m y out → received y = received x ++ m.toList
  sent_step : ∀ {a x m y out}, step a x m y out → ∀ d, sent a y d = sent a x d ++ out d

/-- The states of all nodes, and the messages that wait for each of them. -/
structure State (Id Msg St : Type*) where
  nodes : Id → St
  inbox : Id → Multiset Msg

namespace Protocol

/-- No node has taken a step. -/
def start (P : Protocol Id Msg St) : State Id Msg St := ⟨P.init, fun _ => 0⟩

/-- One step of the system: a node takes a message from its inbox, or moves on its own. -/
inductive Step (P : Protocol Id Msg St) : State Id Msg St → State Id Msg St → Prop
  | deliver {s : State Id Msg St} {q : Id} {m : Msg} {y : St} {out : Id → List Msg}
      (hq : q ∈ P.ids) (hm : m ∈ s.inbox q) (h : P.step q (s.nodes q) (some m) y out) :
      Step P s ⟨Function.update s.nodes q y,
        fun d => Function.update s.inbox q ((s.inbox q).erase m) d + out d⟩
  | move {s : State Id Msg St} {q : Id} {y : St} {out : Id → List Msg}
      (hq : q ∈ P.ids) (h : P.step q (s.nodes q) none y out) :
      Step P s ⟨Function.update s.nodes q y, fun d => s.inbox d + out d⟩

/-- The states that the system reaches from the start. -/
inductive Reachable (P : Protocol Id Msg St) : State Id Msg St → Prop
  | start : Reachable P P.start
  | step {s s' : State Id Msg St} (hr : Reachable P s) (h : Step P s s') : Reachable P s'

/-- The states that the system reaches by steps that meet a condition on the states before and after
them. -/
inductive RunUnder (P : Protocol Id Msg St) (ok : State Id Msg St → State Id Msg St → Prop) :
    State Id Msg St → Prop
  | start : RunUnder P ok P.start
  | step {s s' : State Id Msg St} (hr : RunUnder P ok s) (h : Step P s s') (hok : ok s s') :
      RunUnder P ok s'

variable {P : Protocol Id Msg St} {s s' : State Id Msg St}

theorem RunUnder.reachable {ok : State Id Msg St → State Id Msg St → Prop} (hr : RunUnder P ok s) :
    Reachable P s := by
  induction hr with
  | start => exact .start
  | step _ h _ ih => exact ih.step h

/-- A run under a condition is a run under a weaker one. -/
theorem RunUnder.mono {ok ok' : State Id Msg St → State Id Msg St → Prop}
    (h : ∀ {s s'}, Reachable P s → Step P s s' → ok s s' → ok' s s') (hr : RunUnder P ok s) :
    RunUnder P ok' s := by
  induction hr with
  | start => exact .start
  | step hr hstep hok ih => exact ih.step hstep (h hr.reachable hstep hok)

/-- Every step is the step of one node, and the other nodes stay as they are. -/
theorem Step.exists_local (h : Step P s s') :
    ∃ q ∈ P.ids, ∃ m y out, P.step q (s.nodes q) m y out ∧ (∀ m' ∈ m, m' ∈ s.inbox q) ∧
      s'.nodes = Function.update s.nodes q y := by
  cases h with
  | deliver hq hm h => exact ⟨_, hq, _, _, _, h, by simpa using hm, rfl⟩
  | move hq h => exact ⟨_, hq, _, _, _, h, by simp, rfl⟩

/-- What holds of a node and what its own steps preserve, a step of the system preserves. -/
theorem Step.preserves (h : Step P s s') {I : St → Prop} {a : Id}
    (hs : ∀ {m y out}, P.step a (s.nodes a) m y out → I (s.nodes a) → I y) (ha : I (s.nodes a)) :
    I (s'.nodes a) := by
  obtain ⟨q, -, m, y, out, hy, -, hn⟩ := h.exists_local
  rw [hn]
  by_cases hq : a = q
  · subst hq
    rw [Function.update_self]
    exact hs hy ha
  · rwa [Function.update_of_ne hq]

/-- What holds initially at every node, and what every step of a node preserves, holds at every
node in every reachable state. -/
theorem Reachable.local_invariant {I : Id → St → Prop} (h0 : ∀ a, I a (P.init a))
    (hs : ∀ a x m y out, P.step a x m y out → I a x → I a y) (hr : Reachable P s) (a : Id) :
    I a (s.nodes a) := by
  induction hr with
  | start => exact h0 a
  | step hr h ih => exact h.preserves (fun hy => hs a _ _ _ _ hy) ih

/-- An id that is not one of the nodes stays as it was. -/
theorem Reachable.nodes_of_notMem (hr : Reachable P s) {a : Id} (ha : a ∉ P.ids) :
    s.nodes a = P.init a := by
  induction hr with
  | start => rfl
  | step hr h ih =>
    obtain ⟨q, hq, m, y, out, -, -, hn⟩ := h.exists_local
    have hne : a ≠ q := by
      rintro rfl
      exact ha hq
    rw [hn, Function.update_of_ne hne]
    exact ih

omit [DecidableEq Msg] in
/-- The histories of the nodes other than the acting one do not change the sum of all histories. -/
theorem sum_countP_update {q : Id} (hq : q ∈ P.ids) {m : Option Msg} {y : St}
    {out : Id → List Msg} (h : P.step q (s.nodes q) m y out) (d : Id) (f : Msg → Bool) :
    ∑ a ∈ P.ids, (P.sent a (Function.update s.nodes q y a) d).countP f =
      ∑ a ∈ P.ids, (P.sent a (s.nodes a) d).countP f + (out d).countP f := by
  rw [← Finset.add_sum_erase _ _ hq, ← Finset.add_sum_erase _ _ hq, Function.update_self,
    P.sent_step h, List.countP_append]
  have hrest : ∑ a ∈ P.ids.erase q, (P.sent a (Function.update s.nodes q y a) d).countP f =
      ∑ a ∈ P.ids.erase q, (P.sent a (s.nodes a) d).countP f := by
    apply Finset.sum_congr rfl
    intro a ha
    rw [Function.update_of_ne (Finset.ne_of_mem_erase ha)]
  rw [hrest]
  omega

omit [DecidableEq Msg] in
/-- Counting in a list of messages, put into an inbox. -/
theorem countP_coe (l : List Msg) (f : Msg → Bool) :
    (l : Multiset Msg).countP (fun m => f m) = l.countP f := by
  rw [Multiset.coe_countP]
  simp only [Bool.decide_eq_true]

/-- The accounting of a run: the messages of a kind that wait for a node and those that it took are
the ones that were let out for it. -/
theorem Reachable.conservation (hr : Reachable P s) (q : Id) (f : Msg → Bool) :
    (s.inbox q).countP (fun m => f m) + (P.received (s.nodes q)).countP f =
      ∑ a ∈ P.ids, (P.sent a (s.nodes a) q).countP f := by
  induction hr with
  | start => simp [Protocol.start, P.received_init, P.sent_init]
  | step hr h ih =>
    cases h with
    | @deliver r m y out hr' hm h =>
      rw [sum_countP_update hr' h, ← ih]
      dsimp only
      rw [Multiset.countP_add, countP_coe]
      by_cases hq : q = r
      · subst hq
        rw [Function.update_self, Function.update_self, P.received_step h, List.countP_append]
        have hcons := congrArg (Multiset.countP fun m => f m) (Multiset.cons_erase hm)
        rw [Multiset.countP_cons] at hcons
        simp only [Option.toList_some, List.countP_singleton]
        omega
      · rw [Function.update_of_ne hq, Function.update_of_ne hq]
        omega
    | @move r y out hr' h =>
      rw [sum_countP_update hr' h, ← ih]
      dsimp only
      rw [Multiset.countP_add, countP_coe]
      by_cases hq : q = r
      · subst hq
        rw [Function.update_self, P.received_step h]
        simp only [Option.toList_none, List.append_nil]
        omega
      · rw [Function.update_of_ne hq]
        omega

/-- What a node took, or can take, was let out for it by some node. -/
theorem Reachable.exists_sender' (hr : Reachable P s) {q : Id} {m : Msg}
    (hm : m ∈ P.received (s.nodes q) ∨ m ∈ s.inbox q) :
    ∃ a ∈ P.ids, m ∈ P.sent a (s.nodes a) q := by
  have hsum := hr.conservation q (fun m' => m' = m)
  have hpos : 0 < (s.inbox q).countP (fun m' => decide (m' = m)) +
      (P.received (s.nodes q)).countP (fun m' => m' = m) := by
    rcases hm with hm | hm
    · have := List.countP_pos_iff (p := fun m' => decide (m' = m)).mpr ⟨m, hm, by simp⟩
      omega
    · have := Multiset.countP_pos_of_mem (p := fun m' => decide (m' = m) = true) hm (by simp)
      omega
  have hne : ∑ a ∈ P.ids, (P.sent a (s.nodes a) q).countP (fun m' => m' = m) ≠ 0 := by omega
  obtain ⟨a, ha, hc⟩ := Finset.exists_ne_zero_of_sum_ne_zero hne
  obtain ⟨m', hm', he⟩ := List.countP_pos_iff.mp (Nat.pos_of_ne_zero hc)
  obtain rfl := of_decide_eq_true he
  exact ⟨a, ha, hm'⟩

/-- What a node took was let out for it by some node. -/
theorem Reachable.exists_sender (hr : Reachable P s) {q : Id} {m : Msg}
    (hm : m ∈ P.received (s.nodes q)) : ∃ a ∈ P.ids, m ∈ P.sent a (s.nodes a) q :=
  hr.exists_sender' (.inl hm)

/-- What a node has taken after a step was let out before it. -/
theorem Reachable.sender_before (hr : Reachable P s) (h : Step P s s') {q : Id} {m : Msg}
    (hm : m ∈ P.received (s'.nodes q)) : ∃ a ∈ P.ids, m ∈ P.sent a (s.nodes a) q := by
  obtain ⟨c, -, m', y, out, hy, hm', hn⟩ := h.exists_local
  rw [hn] at hm
  by_cases hc : q = c
  · subst hc
    rw [Function.update_self, P.received_step hy, List.mem_append, Option.mem_toList] at hm
    exact hr.exists_sender' (hm.imp_right (hm' m))
  · rw [Function.update_of_ne hc] at hm
    exact hr.exists_sender hm

/-- Messages of a kind that only one node lets out were taken at most as often as that node let them
out. -/
theorem Reachable.countP_received_le (hr : Reachable P s) {q a : Id} {f : Msg → Bool}
    (hf : ∀ b ∈ P.ids, ∀ m ∈ P.sent b (s.nodes b) q, f m → b = a) :
    (P.received (s.nodes q)).countP f ≤ (P.sent a (s.nodes a) q).countP f := by
  have hsum := hr.conservation q f
  have hle : ∑ b ∈ P.ids, (P.sent b (s.nodes b) q).countP f ≤
      (P.sent a (s.nodes a) q).countP f := by
    have hzero : ∀ b ∈ P.ids, b ≠ a → (P.sent b (s.nodes b) q).countP f = 0 := by
      intro b hb hne
      rw [List.countP_eq_zero]
      exact fun m hm hfm => hne (hf b hb m hm hfm)
    by_cases ha : a ∈ P.ids
    · rw [Finset.sum_eq_single_of_mem a ha hzero]
    · rw [Finset.sum_eq_zero fun b hb => hzero b hb fun hba => ha (hba ▸ hb)]
      exact Nat.zero_le _
  omega

/-- What every node passes on: if in every reachable state a node that took only messages with a
property lets out only messages with the property, then no other message is ever let out. The
property may look at the state, as long as no step takes it away from a message. -/
theorem Reachable.forall_sent {G : State Id Msg St → Msg → Prop}
    (hmono : ∀ {s s' : State Id Msg St} {m : Msg}, Reachable P s → Step P s s' → G s m → G s' m)
    (hG : ∀ {s : State Id Msg St}, Reachable P s → ∀ a ∈ P.ids,
      (∀ m ∈ P.received (s.nodes a), G s m) → ∀ d, ∀ m ∈ P.sent a (s.nodes a) d, G s m)
    (hr : Reachable P s) : ∀ a ∈ P.ids, ∀ d, ∀ m ∈ P.sent a (s.nodes a) d, G s m := by
  induction hr with
  | start => simp [Protocol.start, P.sent_init]
  | @step s s' hr h ih =>
    intro a haids
    refine hG (hr.step h) a haids fun m hm => hmono hr h ?_
    obtain ⟨b, hbids, hb⟩ := hr.sender_before h hm
    exact ih b hbids a m hb

/-- What holds at the start and not in a later state is lost in some step in between. -/
theorem Reachable.exists_crossing {C : State Id Msg St → Prop} (hr : Reachable P s)
    (h0 : C P.start) (hs : ¬ C s) : ∃ s₀ s₁, Reachable P s₀ ∧ Step P s₀ s₁ ∧ C s₀ ∧ ¬ C s₁ ∧
      Relation.ReflTransGen (Step P) s₁ s := by
  induction hr with
  | start => exact absurd h0 hs
  | @step s s' hr h ih =>
    by_cases hC : C s
    · exact ⟨s, s', hr, h, hC, hs, .refl⟩
    · obtain ⟨s₀, s₁, hr₀, h₀, hC₀, hC₁, hpath⟩ := ih hC
      exact ⟨s₀, s₁, hr₀, h₀, hC₀, hC₁, hpath.tail h⟩

end Protocol

/-! ## Projections -/

/-- The inboxes once a node has taken a message, or none. -/
def State.take (s : State Id Msg St) (q : Id) : Option Msg → Id → Multiset Msg
  | some m => Function.update s.inbox q ((s.inbox q).erase m)
  | none => s.inbox

/-- A message that is not the one that is taken stays. -/
theorem mem_take {s : State Id Msg St} {a q : Id} {m : Msg} {taken : Option Msg}
    (hm : m ∈ s.inbox q) (hne : ¬ (q = a ∧ taken = some m)) : m ∈ s.take a taken q := by
  cases taken with
  | none => exact hm
  | some m' =>
    dsimp only [State.take]
    by_cases hq : q = a
    · subst hq
      rw [Function.update_self]
      refine (Multiset.mem_erase_of_ne fun heq => ?_).mpr hm
      exact hne ⟨rfl, congrArg some heq.symm⟩
    · rwa [Function.update_of_ne hq]

/-- A step of a node, on a message that is there or on none, is a step of the system. -/
theorem Protocol.Step.of_local {P : Protocol Id Msg St} {s : State Id Msg St} {q : Id}
    {m : Option Msg} {y : St} {out : Id → List Msg} (hq : q ∈ P.ids) (hm : ∀ m' ∈ m, m' ∈ s.inbox q)
    (h : P.step q (s.nodes q) m y out) :
    P.Step s ⟨Function.update s.nodes q y, fun d => s.take q m d + out d⟩ := by
  cases m with
  | none => exact .move hq h
  | some m => exact .deliver hq (hm m rfl) h

/-- Every step of the system is of this form. -/
theorem Protocol.Step.exists_take {P : Protocol Id Msg St} {s s' : State Id Msg St}
    (h : P.Step s s') :
    ∃ q ∈ P.ids, ∃ m y out, P.step q (s.nodes q) m y out ∧ (∀ m' ∈ m, m' ∈ s.inbox q) ∧
      s' = ⟨Function.update s.nodes q y, fun d => s.take q m d + out d⟩ := by
  cases h with
  | deliver hq hm h => exact ⟨_, hq, _, _, _, h, by simpa using hm, rfl⟩
  | move hq h => exact ⟨_, hq, none, _, _, h, by simp, rfl⟩

/-- A system whose nodes take the same steps, as long as a condition on the states is met that no
step brings about, reaches the states that meet it. -/
theorem Protocol.Reachable.transfer {P Q : Protocol Id Msg St} {C : State Id Msg St → Prop}
    {s : State Id Msg St} (hids : P.ids ⊆ Q.ids) (hinit : P.init = Q.init)
    (hback : ∀ {s s'}, P.Step s s' → C s' → C s)
    (hstep : ∀ {s s' : State Id Msg St} {q m y out}, q ∈ P.ids → P.step q (s.nodes q) m y out →
      s'.nodes = Function.update s.nodes q y → C s' → Q.step q (s.nodes q) m y out)
    (hr : P.Reachable s) (hC : C s) : Q.Reachable s := by
  induction hr with
  | start =>
    unfold Protocol.start
    rw [hinit]
    exact .start
  | @step s s' hr h ih =>
    refine (ih (hback h hC)).step ?_
    obtain ⟨q, hq, m, y, out, hy, hm, rfl⟩ := h.exists_take
    exact .of_local (hids hq) hm (hstep hq hy rfl hC)

section Projection

variable {Msg' St' : Type*} [DecidableEq Msg'] {P : Protocol Id Msg St} {Q : Protocol Id Msg' St'}
  {node : St → St'} {msg : Msg → Option Msg'} {s s' : State Id Msg St}

/-- What another system sees of a state: a part of every node, and some of the messages. -/
def State.project (node : St → St') (msg : Msg → Option Msg') (s : State Id Msg St) :
    State Id Msg' St' :=
  ⟨fun a => node (s.nodes a), fun d => (s.inbox d).filterMap msg⟩

/-- What another system sees of a step of a node: a step of its own, or nothing. -/
inductive Protocol.Seen (Q : Protocol Id Msg' St') (node : St → St')
    (msg : Msg → Option Msg') (q : Id)
    (x : St) (m : Option Msg) (y : St) (out : Id → List Msg) : Prop
  | step (h : Q.step q (node x) (m.bind msg) (node y) fun d => (out d).filterMap msg)
  | stay (hm : m.bind msg = none) (hx : node y = node x) (hout : ∀ d, (out d).filterMap msg = [])

/-- The other system sees a message taken if it sees the message. -/
theorem State.project_take {q : Id} {m : Option Msg} (hm : ∀ m' ∈ m, m' ∈ s.inbox q) (d : Id) :
    (s.take q m d).filterMap msg = (s.project node msg).take q (m.bind msg) d := by
  cases m with
  | none => rfl
  | some m =>
    have hcons := congrArg (Multiset.filterMap msg) (Multiset.cons_erase (hm m rfl))
    dsimp only [State.take, Option.bind_some]
    by_cases hd : d = q
    · subst hd
      rw [Function.update_self]
      cases hmsg : msg m with
      | none => rwa [Multiset.filterMap_cons_none m _ hmsg] at hcons
      | some m' =>
        rw [Multiset.filterMap_cons_some msg m _ hmsg] at hcons
        dsimp only [State.project]
        rw [Function.update_self, ← hcons, Multiset.erase_cons_head]
    · rw [Function.update_of_ne hd]
      cases msg m with
      | none => rfl
      | some m' => exact (Function.update_of_ne hd _ (s.project node msg).inbox).symm

/-- What the other system sees after a step. -/
theorem State.project_step {q : Id} {m : Option Msg} (hm : ∀ m' ∈ m, m' ∈ s.inbox q) (y : St)
    (out : Id → List Msg) :
    State.project node msg ⟨Function.update s.nodes q y, fun d => s.take q m d + out d⟩ =
      ⟨Function.update (s.project node msg).nodes q (node y), fun d =>
        (s.project node msg).take q (m.bind msg) d + ((out d).filterMap msg : List Msg')⟩ := by
  refine congrArg₂ State.mk (funext fun a => ?_) (funext fun d => ?_)
  · by_cases ha : a = q
    · subst ha
      simp
    · simp [ha, State.project]
  · rw [Multiset.filterMap_add, State.project_take hm]
    rfl

/-- If another system sees every step of a node as a step of its own or not at all, it sees a
reachable state as one that it can reach. The steps may have to end in nodes with a property `B`
that no later step brings about. What holds of the states that the other system reaches can be used
of the state before the step. -/
theorem Protocol.Reachable.project {B : (Id → St) → Prop} (hids : P.ids = Q.ids)
    (hinit : ∀ a, node (P.init a) = Q.init a)
    (hB : ∀ {s : State Id Msg St} {q m y out}, q ∈ P.ids → P.step q (s.nodes q) m y out →
      B (Function.update s.nodes q y) → B s.nodes)
    (hseen : ∀ {s q m y out}, P.Reachable s → Q.Reachable (s.project node msg) → q ∈ P.ids →
      (∀ m' ∈ m.bind msg, m' ∈ (s.project node msg).inbox q) → P.step q (s.nodes q) m y out →
      B (Function.update s.nodes q y) → Q.Seen node msg q (s.nodes q) m y out)
    (hr : P.Reachable s) (hs : B s.nodes) : Q.Reachable (s.project node msg) := by
  induction hr with
  | start =>
    have hstart : P.start.project node msg = Q.start :=
      congrArg₂ State.mk (funext hinit) (funext fun d => Multiset.filterMap_zero msg)
    rw [hstart]
    exact .start
  | @step s s' hr h ih =>
    obtain ⟨q, hq, m, y, out, hstep, hm, rfl⟩ := h.exists_take
    have hbefore := ih (hB hq hstep hs)
    have hmsg : ∀ m' ∈ m.bind msg, m' ∈ (s.project node msg).inbox q := by
      intro m' hm'
      obtain ⟨m₀, hm₀, hmsg⟩ := Option.bind_eq_some_iff.mp hm'
      exact (Multiset.mem_filterMap msg _).mpr ⟨m₀, hm m₀ hm₀, hmsg⟩
    rw [State.project_step hm]
    cases hseen hr hbefore hq hmsg hstep hs with
    | step h => exact hbefore.step (.of_local (hids ▸ hq) hmsg h)
    | stay hnone hx hout =>
      -- The node and the messages that are seen are the same.
      have hsame : (⟨Function.update (s.project node msg).nodes q (node y), fun d =>
          (s.project node msg).take q (m.bind msg) d + ((out d).filterMap msg : List Msg')⟩ :
            State Id Msg' St') = s.project node msg := by
        refine congrArg₂ State.mk ?_ (funext fun d => ?_)
        · rw [hx]
          exact Function.update_eq_self q _
        · rw [hnone, hout]
          exact add_zero _
      rw [hsame]
      exact hbefore

end Projection

/-! ## Layers below the nodes -/

section Layers

variable {C : Type*} {R : C → C → Prop} {c₀ c : C} {P : Protocol Id Msg St} {nodes : C → Id → St}

/-- A layer below the nodes that takes their messages and hands them out again, in steps of its own,
keeps to the protocol if a node never gets a message once more often than it was let out for it. -/
theorem Protocol.Reachable.of_layer (hstart : nodes c₀ = P.init)
    (hstep : ∀ {c c'}, Relation.ReflTransGen R c₀ c → R c c' → nodes c' = nodes c ∨
      ∃ q ∈ P.ids, ∃ m y out, P.step q (nodes c q) m y out ∧
        nodes c' = Function.update (nodes c) q y ∧
        ∀ m' ∈ m, (P.received (nodes c q)).count m' <
          ∑ a ∈ P.ids, (P.sent a (nodes c a) q).count m')
    (h : Relation.ReflTransGen R c₀ c) : ∃ s, P.Reachable s ∧ s.nodes = nodes c := by
  induction h with
  | refl => exact ⟨P.start, .start, hstart.symm⟩
  | tail hpath hr ih =>
    obtain ⟨s, hs, hnodes⟩ := ih
    rcases hstep hpath hr with hsame | ⟨q, hq, m, y, out, hy, hn, hcount⟩
    · exact ⟨s, hs, hnodes.trans hsame.symm⟩
    · rw [← hnodes] at hy hn hcount
      have hm : ∀ m' ∈ m, m' ∈ s.inbox q := by
        intro m' hm'
        -- What was let out for the node and not taken waits for it.
        have hsum := hs.conservation q (fun m'' => m'' = m')
        have hlt := hcount m' hm'
        simp only [List.count_eq_countP, beq_eq_decide] at hlt
        have hpos : 0 < (s.inbox q).countP (fun m'' => decide (m'' = m') = true) := by omega
        obtain ⟨m'', hmem, heq⟩ := Multiset.countP_pos.mp hpos
        exact of_decide_eq_true heq ▸ hmem
      exact ⟨_, hs.step (.of_local hq hm hy), hn.symm⟩

end Layers

end MessagePassing
