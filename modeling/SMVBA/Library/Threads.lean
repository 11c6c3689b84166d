import Mathlib.Algebra.Order.Group.Multiset

/-!
# Threads over a shared state

A thread is a program counter with its local variables. A program says what one atomic step of a
thread does: the new shared state, the threads that the step leaves behind (itself further on,
threads that it has spawned, or none when it ends), and events for the trace. A pool of threads
takes its steps in any order, one thread at a time.

Two rules carry the proofs about a program. `Reachable.invariant` is induction over a run. With
`Reachable.balance` an account is kept: what the shared state holds, what the threads carry, and
what the trace has recorded always add up to what the threads started with, if every atomic step
keeps the sum.
-/

namespace Threads

variable {σ τ ε : Type*}

/-- One atomic step of a thread. -/
abbrev Program (σ τ ε : Type*) := σ → τ → σ × List τ × List ε

/-- A pool of threads. -/
structure Pool (σ τ ε : Type*) where
  /-- What all threads read and write. -/
  shared : σ
  /-- The threads that have not ended. -/
  threads : List τ
  /-- What has happened, in order. -/
  trace : List ε

variable [DecidableEq τ] (P : Program σ τ ε)

/-- The pool after one step of a thread of it. -/
def Pool.after (p : Pool σ τ ε) (t : τ) : Pool σ τ ε where
  shared := (P p.shared t).1
  threads := p.threads.erase t ++ (P p.shared t).2.1
  trace := p.trace ++ (P p.shared t).2.2

/-- The pools that are reached, each step under a condition on the pool and the thread that moves.
-/
inductive Reachable (ok : Pool σ τ ε → τ → Prop) (start : Pool σ τ ε) : Pool σ τ ε → Prop
  | start : Reachable ok start start
  | step {p : Pool σ τ ε} {t : τ} (hr : Reachable ok start p) (ht : t ∈ p.threads) (hok : ok p t) :
      Reachable ok start (p.after P t)

variable {P} {ok : Pool σ τ ε → τ → Prop} {start p : Pool σ τ ε} {t : τ}

namespace Reachable

/-- What holds at the start and is kept by every step holds in every pool that is reached. -/
theorem invariant {I : Pool σ τ ε → Prop} (h0 : I start)
    (hI : ∀ {p t}, t ∈ p.threads → ok p t → I p → I (p.after P t)) (hr : Reachable P ok start p) :
    I p := by
  induction hr with
  | start => exact h0
  | step _ ht hok ih => exact hI ht hok ih

/-- A run goes on from where another has come to. -/
theorem trans {p' : Pool σ τ ε} (hr : Reachable P ok start p) (hr' : Reachable P ok p p') :
    Reachable P ok start p' := by
  induction hr' with
  | start => exact hr
  | step _ ht hok ih => exact .step ih ht hok

end Reachable

/-- The threads of a kind, before and after a step. -/
theorem Pool.countP_after (f : τ → Bool) (ht : t ∈ p.threads) :
    (p.after P t).threads.countP f + (if f t then 1 else 0) =
      p.threads.countP f + (P p.shared t).2.1.countP f := by
  have herase : p.threads.countP f = (p.threads.erase t).countP f + if f t then 1 else 0 := by
    rw [(List.perm_cons_erase ht).countP_eq, List.countP_cons]
  unfold Pool.after
  rw [List.countP_append]
  omega

/-! ## Accounts -/

section Account

variable {β : Type*}

/-- What the shared state holds, what the threads carry, and what the trace has recorded. -/
def Pool.account (held : σ → List β) (carried : τ → Option β) (recorded : ε → Option β)
    (p : Pool σ τ ε) : List β :=
  held p.shared ++ p.threads.filterMap carried ++ p.trace.filterMap recorded

/-- If every atomic step of a run accounts for what the moving thread carried, nothing is lost and
nothing is made up in the run. -/
theorem Reachable.balance {held : σ → List β} {carried : τ → Option β} {recorded : ε → Option β}
    (hstep : ∀ {p t}, Reachable P ok start p → t ∈ p.threads →
      (held (P p.shared t).1 ++ (P p.shared t).2.1.filterMap carried ++
        (P p.shared t).2.2.filterMap recorded).Perm (held p.shared ++ (carried t).toList))
    (hr : Reachable P ok start p) :
    (p.account held carried recorded).Perm (start.account held carried recorded) := by
  induction hr with
  | start => exact .refl _
  | @step p t hr ht _ ih =>
    refine List.Perm.trans ?_ ih
    have hone := hstep hr ht
    have hcarried : (p.threads.filterMap carried).Perm
        ((carried t).toList ++ (p.threads.erase t).filterMap carried) := by
      have hperm := (List.perm_cons_erase ht).filterMap carried
      rw [List.filterMap_cons] at hperm
      cases hc : carried t with
      | none =>
        rw [hc] at hperm
        exact hperm
      | some b =>
        rw [hc] at hperm
        exact hperm
    unfold Pool.account Pool.after
    rw [List.filterMap_append, List.filterMap_append]
    rw [← Multiset.coe_eq_coe] at hone hcarried ⊢
    simp only [← Multiset.coe_add] at hone hcarried ⊢
    rw [hcarried]
    -- The rest of the pool goes along unchanged.
    calc _ = ((held (P p.shared t).1 : Multiset β) + (P p.shared t).2.1.filterMap carried +
            (P p.shared t).2.2.filterMap recorded) + (p.threads.erase t).filterMap carried +
            p.trace.filterMap recorded := by ac_rfl
      _ = ((held p.shared : Multiset β) + (carried t).toList) +
            (p.threads.erase t).filterMap carried +
            p.trace.filterMap recorded := by rw [hone]
      _ = _ := by ac_rfl

end Account

/-! ## Schedules -/

/-- The pool after the threads of a schedule have taken their steps in order, if each is there when
its turn comes and meets the condition. -/
def Pool.play (P : Program σ τ ε) (ok : Pool σ τ ε → τ → Prop) [∀ p t, Decidable (ok p t)] :
    Pool σ τ ε → List τ → Option (Pool σ τ ε)
  | p, [] => some p
  | p, t :: rest => if t ∈ p.threads ∧ ok p t then (p.after P t).play P ok rest else none

/-- What a schedule plays to is reached. -/
theorem Reachable.play [∀ p t, Decidable (ok p t)] {schedule : List τ} {p' : Pool σ τ ε}
    (hr : Reachable P ok start p) (h : p.play P ok schedule = some p') :
    Reachable P ok start p' := by
  induction schedule generalizing p with
  | nil =>
    cases h
    exact hr
  | cons t rest ih =>
    unfold Pool.play at h
    split_ifs at h with hok
    exact ih (.step hr hok.1 hok.2) h

end Threads
