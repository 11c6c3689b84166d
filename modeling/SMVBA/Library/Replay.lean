import SMVBA.Library.Network

/-!
# Replaying schedules

An `Exec` computes the steps of nodes. A schedule, a list of nodes and inputs, is replayed with the
messages in flight in a list, and `Exec.exists_run` turns a schedule that replays into a run of a
system whose steps the computed ones are.
-/

namespace MessagePassing

variable {Id Msg St Inp : Type*} [DecidableEq Id] [DecidableEq Msg]

/-- Nodes that compute: the message that an input takes, and the step of a node on an input. -/
structure Exec (Id Msg St Inp : Type*) where
  msg? : Inp → Option Msg
  step : Id → St → Inp → Option (St × (Id → List Msg))

/-- The nodes of a replayed run, and the messages in flight. -/
structure Playback (Id Msg St : Type*) where
  nodes : Id → St
  flight : List (Id × Msg)

/-- What is in flight after a message was taken, if it is there to be taken. -/
def takeFlight (flight : List (Id × Msg)) (q : Id) : Option Msg → Option (List (Id × Msg))
  | some m => if (q, m) ∈ flight then some (flight.erase (q, m)) else none
  | none => some flight

/-- What a step puts into flight for the nodes of a list. -/
def emitFlight (ids : List Id) (out : Id → List Msg) : List (Id × Msg) :=
  ids.flatMap fun d => (out d).map (d, ·)

namespace Exec

variable (E : Exec Id Msg St Inp) (ok : (Id → St) → (Id → St) → Bool) (ids : List Id)

/-- One input of a schedule. -/
def act (r : Playback Id Msg St) (q : Id) (i : Inp) : Option (Playback Id Msg St) :=
  match takeFlight r.flight q (E.msg? i), E.step q (r.nodes q) i with
  | some flight, some (y, out) =>
    if ok r.nodes (Function.update r.nodes q y) then
      some ⟨Function.update r.nodes q y, flight ++ emitFlight ids out⟩
    else none
  | _, _ => none

/-- A whole schedule. -/
def run : Playback Id Msg St → List (Id × Inp) → Option (Playback Id Msg St)
  | r, [] => some r
  | r, (q, i) :: rest =>
    match E.act ok ids r q i with
    | some r' => run r' rest
    | none => none

end Exec

/-! ## Soundness -/

/-- The messages of a list that are in flight to `d`. -/
def flightOf (l : List (Id × Msg)) (d : Id) : Multiset Msg :=
  ((l.filter (·.1 = d)).map (·.2) : List Msg)

omit [DecidableEq Msg] in
theorem flightOf_append (l l' : List (Id × Msg)) (d : Id) :
    flightOf (l ++ l') d = flightOf l d + flightOf l' d := by
  simp [flightOf]

omit [DecidableEq Msg] in
/-- What is put into flight for `d` is among what the step lets out for `d`. -/
theorem flightOf_emitFlight_le {ids : List Id} (hids : ids.Nodup) (out : Id → List Msg) (d : Id) :
    flightOf (emitFlight ids out) d ≤ (out d : Multiset Msg) := by
  have hsingle : ∀ e, flightOf ((out e).map (e, ·)) d =
    if e = d then (out d : Multiset Msg) else 0 := by
    intro e
    by_cases he : e = d
    · subst he
      simp [flightOf, List.filter_map, Function.comp_def]
    · simp [flightOf, List.filter_map, Function.comp_def, he]
  -- Only one of the nodes is `d`.
  have hcases : (d ∈ ids → flightOf (emitFlight ids out) d = out d) ∧
      (d ∉ ids → flightOf (emitFlight ids out) d = 0) := by
    induction ids with
    | nil => exact ⟨fun h => (List.not_mem_nil h).elim, fun _ => rfl⟩
    | cons e ids ih =>
      obtain ⟨he, hrest⟩ := List.nodup_cons.mp hids
      obtain ⟨hmem, hnot⟩ := ih hrest
      have hsplit : flightOf (emitFlight (e :: ids) out) d =
          flightOf ((out e).map (e, ·)) d + flightOf (emitFlight ids out) d := by
        rw [← flightOf_append]
        rfl
      rw [hsplit, hsingle e]
      by_cases hed : e = d
      · subst hed
        simp [hnot he]
      · have hde : d ≠ e := fun h => hed h.symm
        simp only [List.mem_cons, hde, false_or, if_neg hed, zero_add]
        exact ⟨hmem, hnot⟩
  by_cases hd : d ∈ ids
  · exact (hcases.1 hd).le
  · rw [hcases.2 hd]
    exact Multiset.zero_le _

/-- The replay follows the system: the same nodes, and nothing in flight that is not there. -/
structure Playback.Follows (s : State Id Msg St) (r : Playback Id Msg St) : Prop where
  nodes : s.nodes = r.nodes
  flight : ∀ d, flightOf r.flight d ≤ s.inbox d

variable {E : Exec Id Msg St Inp} {ok : (Id → St) → (Id → St) → Bool} {ids : List Id}
  {P : Protocol Id Msg St} {s : State Id Msg St} {r r' : Playback Id Msg St}

/-- What is taken from the list is there in the inbox, and what is left in the list is left there.
-/
theorem Playback.Follows.take (hf : r.Follows s) {q : Id} {m : Option Msg}
    {flight : List (Id × Msg)}
    (h : takeFlight r.flight q m = some flight) :
    (∀ m' ∈ m, m' ∈ s.inbox q) ∧ ∀ d, flightOf flight d ≤ s.take q m d := by
  cases m with
  | none =>
    cases h
    exact ⟨by simp, hf.flight⟩
  | some m =>
    dsimp only [takeFlight] at h
    split_ifs at h with hmem
    cases h
    have herase : ∀ d, flightOf r.flight d =
        if d = q then m ::ₘ flightOf (r.flight.erase (q, m)) d
        else flightOf (r.flight.erase (q, m)) d := by
      intro d
      have hperm : flightOf r.flight d = flightOf ((q, m) :: r.flight.erase (q, m)) d :=
        Multiset.coe_eq_coe.mpr (((List.perm_cons_erase hmem).filter _).map _)
      rw [hperm]
      by_cases hd : d = q
      · subst hd
        simp [flightOf]
      · simp [flightOf, hd, Ne.symm hd]
    refine ⟨?_, fun d => ?_⟩
    · rintro m' hm'
      obtain rfl := Option.some.inj hm'
      refine Multiset.mem_of_le (hf.flight q) ?_
      rw [herase, if_pos rfl]
      exact Multiset.mem_cons_self _ _
    · have hle := hf.flight d
      rw [herase] at hle
      dsimp only [State.take]
      by_cases hd : d = q
      · subst hd
        rw [Function.update_self]
        rw [if_pos rfl] at hle
        simpa using Multiset.erase_le_erase m hle
      · rw [Function.update_of_ne hd]
        rwa [if_neg hd] at hle

variable (hE : ∀ {q x i y out}, E.step q x i = some (y, out) → q ∈ P.ids ∧
  P.step q x (E.msg? i) y out)

include hE

/-- An input that replays is a step of the system. -/
theorem Playback.Follows.act (hids : ids.Nodup) (hf : r.Follows s) {q : Id} {i : Inp}
    (h : E.act ok ids r q i = some r') :
    ∃ s', P.Step s s' ∧ ok s.nodes s'.nodes = true ∧ r'.Follows s' := by
  unfold Exec.act at h
  split at h
  case h_2 => cases h
  case h_1 flight y out htake hstep =>
    split_ifs at h with hok
    cases h
    obtain ⟨hm, hle⟩ := hf.take htake
    rw [← hf.nodes] at hstep hok
    obtain ⟨hq, hlocal⟩ := hE hstep
    refine ⟨_, .of_local hq hm hlocal, hok, ?_, fun d => ?_⟩
    · rw [hf.nodes]
    · rw [flightOf_append]
      exact add_le_add (hle d) (flightOf_emitFlight_le hids out d)

theorem Playback.Follows.run (hids : ids.Nodup) {schedule : List (Id × Inp)}
    (hr : P.RunUnder (fun s s' => ok s.nodes s'.nodes = true) s) (hf : r.Follows s)
    (h : E.run ok ids r schedule = some r') :
    ∃ s', P.RunUnder (fun s s' => ok s.nodes s'.nodes = true) s' ∧ r'.Follows s' := by
  induction schedule generalizing s r with
  | nil =>
    cases h
    exact ⟨s, hr, hf⟩
  | cons a rest ih =>
    unfold Exec.run at h
    split at h
    case h_1 r₁ hact =>
      obtain ⟨s₁, hstep, hok, hf₁⟩ := hf.act hE hids hact
      exact ih (hr.step hstep hok) hf₁ h
    case h_2 => cases h

/-- What holds at the end of a replayed schedule holds at the end of a run. -/
theorem Exec.exists_run (ok : (Id → St) → (Id → St) → Bool) (ids : List Id)
    (schedule : List (Id × Inp)) (B : (Id → St) → Bool) (hids : ids.Nodup)
    (h : ((E.run ok ids ⟨P.init, []⟩ schedule).any fun r => B r.nodes) = true) :
    ∃ s, P.RunUnder (fun s s' => ok s.nodes s'.nodes = true) s ∧ B s.nodes = true := by
  rw [Option.any_eq_true] at h
  obtain ⟨r, hrun, hB⟩ := h
  have hstart : Playback.Follows P.start ⟨P.init, []⟩ := ⟨rfl, fun d => Multiset.zero_le _⟩
  obtain ⟨s, hr, hf⟩ := hstart.run hE hids .start hrun
  refine ⟨s, hr, ?_⟩
  rw [hf.nodes]
  exact hB

end MessagePassing
