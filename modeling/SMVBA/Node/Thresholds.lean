import SMVBA.Library.Mealy
import SMVBA.Network.Equivocation
import SMVBA.Network.Exec
import SMVBA.Node.Commits

/-!
# The thresholds of a committee

`HightThreshold` and `LowThreshold` are `2f + 1` and `f + 1` with `f = (n - 1) / 3`, for every
number `n` of nodes. A quorum remains when any `f` nodes are gone, but two quorums share `f + 1`
nodes only if `n` is `3f + 1` (`quorums_share_iff`). With six nodes there are quorums that share
none.

With less than four nodes the two thresholds are the same number. `DoneAggreator` looks at the low
one first, and so never says that there is a quorum (`done_fires_iff`). Such a committee decides and
commits nothing, whatever its nodes do (`Run.undecided`).
-/

namespace SMVBA

/-! ## Quorums that meet -/

namespace Committee

variable {c : Committee}

/-- Any two quorums share `LowThreshold` members. -/
def QuorumsShare (c : Committee) : Prop :=
  ∀ A ⊆ c.authorities, ∀ B ⊆ c.authorities, A.card = c.hightThreshold →
    B.card = c.hightThreshold → c.lowThreshold ≤ (A ∩ B).card

/-- A quorum remains when any `(n - 1) / 3` members are removed. -/
def QuorumRemains (c : Committee) : Prop :=
  ∀ R ⊆ c.authorities, R.card = (c.size - 1) / 3 → c.hightThreshold ≤ (c.authorities \ R).card

theorem quorumRemains (hn : 1 ≤ c.size) : c.QuorumRemains := by
  intro R hR hcard
  have hsize : c.authorities.card = c.size := rfl
  rw [Finset.card_sdiff_of_subset hR, hcard, hsize, hightThreshold]
  omega

theorem quorumsShare_iff (hn : 1 ≤ c.size) : c.QuorumsShare ↔ c.size % 3 = 1 := by
  have hsize : c.authorities.card = c.size := rfl
  constructor
  · intro hshare
    have hle : c.hightThreshold ≤ c.authorities.card := by
      rw [hsize, hightThreshold]
      omega
    obtain ⟨A, hA, B, hB, hAq, hBq, hinter⟩ := Quorum.exists_card_inter hle
    have hlow := hshare A hA B hB hAq hBq
    rw [hinter, hsize, hightThreshold, lowThreshold] at hlow
    omega
  · intro hmod A hA B hB hAq hBq
    have hsum := Quorum.card_add_card_le hA hB
    rw [hAq, hBq, hsize, hightThreshold] at hsum
    rw [lowThreshold]
    omega

end Committee

/-- In a committee of any size a quorum remains when `(n - 1) / 3` members are removed. Any two
quorums share `LowThreshold` members if and only if the size is `3f + 1`. -/
theorem quorums_share_iff {c : Committee} (hn : 1 ≤ c.size) :
    c.QuorumRemains ∧ (c.QuorumsShare ↔ c.size % 3 = 1) :=
  ⟨Committee.quorumRemains hn, Committee.quorumsShare_iff hn⟩

/-- Any two of three nodes out of four share two. -/
theorem quorums_share_iff_four : (demo 4 0).committee.QuorumsShare :=
  (quorums_share_iff (by decide)).2.mpr (by decide)

/-- Two of three nodes out of six that share none. -/
theorem quorums_apart_six : (demo 6 0).committee.size = 6 ∧
    (demo 6 0).committee.hightThreshold = 3 ∧ (demo 6 0).committee.lowThreshold = 2 ∧
    ({0, 1, 2} : Finset NodeID) ⊆ (demo 6 0).committee.authorities ∧
    ({3, 4, 5} : Finset NodeID) ⊆ (demo 6 0).committee.authorities ∧
    ({0, 1, 2} : Finset NodeID).card = 3 ∧ ({3, 4, 5} : Finset NodeID).card = 3 ∧
    (({0, 1, 2} : Finset NodeID) ∩ {3, 4, 5}).card = 0 := by
  decide

/-- The thresholds are different numbers exactly in committees of four and more. -/
theorem Committee.thresholds_ne_iff (c : Committee) :
    c.hightThreshold ≠ c.lowThreshold ↔ 4 ≤ c.size := by
  unfold hightThreshold lowThreshold
  omega

/-! ## The flags of `Done` messages -/

variable {S : Setup}

/-- The call has returned `DONE_HIGH_FLAG`. -/
def isHigh : Except Err DoneFlag → Bool
  | .ok .high => true
  | _ => false

/-- The authors of a sequence of `Done` messages. -/
def doneAuthors (dones : List Done) : Finset NodeID := (dones.map Done.author).toFinset

/-- A new `DoneAggreator` that was given a sequence of messages. -/
def doneAfter (S : Setup) (dones : List Done) : DoneAggreator :=
  (Mealy.run (DoneAggreator.append S) {} dones).1

/-- What the calls of `DoneAggreator.Append` return for a sequence of messages. -/
def doneAnswers (S : Setup) (dones : List Done) : List (Except Err DoneFlag) :=
  (Mealy.run (DoneAggreator.append S) {} dones).2

/-- A message is that of the author that completes the quorum. -/
def CompletesDones (S : Setup) (before : List Done) (d : Done) : Prop :=
  d.author ∉ doneAuthors before ∧ (doneAuthors (before ++ [d])).card = S.quorum

/-- `Append` returns `DONE_HIGH_FLAG` once, for the message of the author that completes the quorum,
and `handleDone` then sets the ready flag of the view, in every core that has counted the messages
before it. -/
structure FiresAtQuorum (S : Setup) (dones : List Done) : Prop where
  once : (doneAnswers S dones).countP isHigh = 1
  high : ∀ before d after, dones = before ++ d :: after →
    (((doneAfter S before).append S d).2 = .ok .high ↔ CompletesDones S before d)
  ready : ∀ before d after, dones = before ++ d :: after → CompletesDones S before d →
    ∀ c : Core, c.aggreator.doneAggreator d.view = doneAfter S before →
      c.messgaeFilter d.epoch = false → (c.handleDone S d).core.readyFlags d.view = true

namespace DoneAggreator

variable {a : DoneAggreator} {d : Done}

theorem append_again (h : d.author ∈ a.authors) :
    a.append S d = (a, .error (.oneMoreMessage d.epoch d.round d.author)) := if_pos h

theorem append_new (h : d.author ∉ a.authors) : a.append S d =
    (⟨insert d.author a.authors⟩, .ok <|
      if (insert d.author a.authors).card = S.committee.lowThreshold then .low
      else if (insert d.author a.authors).card = S.quorum then .high
      else .none) := if_neg h

/-- The author is counted. -/
theorem authors_append : (a.append S d).1.authors = insert d.author a.authors := by
  by_cases h : d.author ∈ a.authors
  · rw [append_again h, Finset.insert_eq_of_mem h]
  · rw [append_new h]

/-- The flag is that of the author that completes the quorum, where the quorum is not the low
threshold. -/
theorem append_high_iff : (a.append S d).2 = .ok .high ↔ d.author ∉ a.authors ∧
    (insert d.author a.authors).card = S.quorum ∧ 4 ≤ S.committee.size := by
  have hne := S.committee.thresholds_ne_iff
  by_cases h : d.author ∈ a.authors
  · rw [append_again h]
    simp [h]
  · rw [append_new h, and_iff_right h]
    constructor
    · intro hhigh
      have hflag := Except.ok.inj hhigh
      split_ifs at hflag with hlow hq
      refine ⟨hq, hne.mp fun heq => hlow ?_⟩
      rw [hq]
      exact heq
    · rintro ⟨hq, hsize⟩
      have hlow : ¬ (insert d.author a.authors).card = S.committee.lowThreshold := by
        rw [hq]
        exact hne.mpr hsize
      dsimp only
      rw [if_neg hlow, if_pos hq]

end DoneAggreator

theorem doneAuthors_concat (dones : List Done) (d : Done) :
    doneAuthors (dones ++ [d]) = insert d.author (doneAuthors dones) := by
  ext a
  simp [doneAuthors]

theorem isHigh_iff {r : Except Err DoneFlag} : isHigh r = true ↔ r = .ok .high := by
  unfold isHigh
  split <;> simp_all

/-- A new aggregator that is given messages has counted their authors. It has returned
`DONE_HIGH_FLAG` once when there is a quorum of them, if it ever does. -/
theorem doneAfter_spec (S : Setup) (dones : List Done) :
    (doneAfter S dones).authors = doneAuthors dones ∧
      (doneAnswers S dones).countP isHigh =
        if S.quorum ≤ (doneAuthors dones).card ∧ 4 ≤ S.committee.size then 1 else 0 := by
  refine Mealy.run_invariant (DoneAggreator.append S) (I := fun dones a answers =>
    a.authors = doneAuthors dones ∧ answers.countP isHigh =
      if S.quorum ≤ (doneAuthors dones).card ∧ 4 ≤ S.committee.size then 1 else 0) ?_ ?_ dones
  · have hpos := S.quorum_pos
    have hempty : (doneAuthors []).card = 0 := rfl
    refine ⟨rfl, ?_⟩
    rw [hempty, if_neg (by omega)]
    rfl
  · rintro dones a answers d ⟨ha, hcount⟩
    refine ⟨by rw [DoneAggreator.authors_append, doneAuthors_concat, ha], ?_⟩
    have hlast := isHigh_iff.trans (DoneAggreator.append_high_iff (S := S) (a := a) (d := d))
    rw [ha, ← doneAuthors_concat] at hlast
    rw [List.countP_append, hcount, List.countP_singleton, if_congr hlast rfl rfl]
    by_cases hnew : d.author ∈ doneAuthors dones
    · rw [doneAuthors_concat, Finset.insert_eq_of_mem hnew]
      simp [hnew]
    · have hcard : (doneAuthors (dones ++ [d])).card = (doneAuthors dones).card + 1 := by
        rw [doneAuthors_concat, Finset.card_insert_of_notMem hnew]
      simp only [hcard, hnew, not_false_eq_true, true_and]
      split_ifs <;> omega

/-- The flag is returned for the message that completes the quorum, in committees of four and more.
-/
theorem append_doneAfter_iff (S : Setup) (before : List Done) (d : Done) :
    ((doneAfter S before).append S d).2 = .ok .high ↔
      CompletesDones S before d ∧ 4 ≤ S.committee.size := by
  rw [DoneAggreator.append_high_iff, (doneAfter_spec S before).1, ← doneAuthors_concat,
    CompletesDones, and_assoc]

/-- `handleDone` sets the ready flag of the view when `Append` returns `DONE_HIGH_FLAG`, and leaves
the flags alone otherwise. -/
theorem handleDone_readyFlags (c : Core) (d : Done) : (c.handleDone S d).core.readyFlags =
    if c.messgaeFilter d.epoch = false ∧
      ((c.aggreator.doneAggreator d.view).append S d).2 = .ok .high
    then Function.update c.readyFlags d.view true else c.readyFlags := by
  have hadd : (c.aggreator.addDoneVote S d).2 =
    ((c.aggreator.doneAggreator d.view).append S d).2 := rfl
  rw [← hadd]
  unfold Core.handleDone
  by_cases hfilter : c.messgaeFilter d.epoch = true
  · rw [if_pos hfilter, if_neg (by simp [hfilter])]
    rfl
  · rw [if_neg hfilter]
    split
    case h_1 a e heq => simp [heq]
    case h_2 a heq =>
      simp only [heq, Except.ok.injEq, reduceCtorEq, and_false, if_false]
      unfold Core.invokeDoneAndShare
      split_ifs <;> rfl
    case h_3 a heq => simp [heq, hfilter, processLeader_core]
    case h_4 a heq => simp [heq, Outcome.ret]

/-- Any sequence of `Done` messages from a quorum of authors makes a view ready, at the message that
completes the quorum, if and only if the committee has four members or more. -/
theorem done_fires_iff {dones : List Done} (hq : S.quorum ≤ (doneAuthors dones).card) :
    FiresAtQuorum S dones ↔ 4 ≤ S.committee.size := by
  have hcount := (doneAfter_spec S dones).2
  constructor
  · intro hfires
    by_contra hsize
    rw [hfires.once, if_neg fun h => hsize h.2] at hcount
    cases hcount
  · intro hsize
    refine ⟨?_, fun before d after _ => ?_, fun before d after _ hd c hc hfilter => ?_⟩
    · rw [hcount, if_pos ⟨hq, hsize⟩]
    · rw [append_doneAfter_iff, and_iff_left hsize]
    · have hhigh := (append_doneAfter_iff S before d).mpr ⟨hd, hsize⟩
      rw [handleDone_readyFlags, hc, if_pos ⟨hfilter, hhigh⟩]
      exact Function.update_self ..

/-- Four nodes, of which three have sent `Done`, one of them twice. -/
theorem done_fires_iff_four :
    FiresAtQuorum (demo 4 0) [⟨0, 0, 0⟩, ⟨1, 0, 0⟩, ⟨1, 0, 0⟩, ⟨2, 0, 0⟩] :=
  (done_fires_iff (by decide)).mpr (by decide)

/-- With three nodes one author is a quorum. All three have sent `Done`, the flag is not returned,
and the view is not ready. -/
theorem done_never_high : (demo 3 0).quorum = 1 ∧
    doneAnswers (demo 3 0) [⟨0, 0, 0⟩, ⟨1, 0, 0⟩, ⟨2, 0, 0⟩] = [.ok .low, .ok .none, .ok .none] ∧
    (([⟨0, 0, 0⟩, ⟨1, 0, 0⟩, ⟨2, 0, 0⟩] : List Done).foldl
      (fun c d => (c.handleDone (demo 3 0) d).core) ({ name := 0 } : Core)).readyFlags ⟨0, 0⟩ =
        false :=
  ⟨by decide, rfl, by decide⟩

/-! ## Committees of less than four

No view is ever ready. `processLeader` then returns at once, so nobody prevotes or halts, and nobody
takes a prevote to vote on. -/

variable {env : Env} {i : Input} {x0 x y : Hist} {outs : List Output} {ok : Cond} {s : Net}

/-- No view is ready. -/
def NeverReady (x : Hist) : Prop := ∀ v, x.core.readyFlags v = false

theorem NeverReady.step (hsize : S.committee.size < 4) (h : x.step S env i = some (y, outs))
    (hx : NeverReady x) : NeverReady y := by
  by_cases hdone : ∃ d, i = .msg (.done d)
  · obtain ⟨d, rfl⟩ := hdone
    have hcore : y.core = (x.core.handleDone S d).core := (Hist.step_msg h).1
    have hlow : ((x.core.aggreator.doneAggreator d.view).append S d).2 ≠ .ok .high := by
      intro hhigh
      have hge := (DoneAggreator.append_high_iff.mp hhigh).2.2
      omega
    intro v
    rw [hcore, handleDone_readyFlags, if_neg fun h => hlow h.2]
    exact hx v
  · refine step_invariant (fun h hz => ?_) h hx
    cases h with
    | ready d outs hi => exact absurd ⟨d, hi⟩ hdone
    | _ => exact hz

/-- What comes after a decision: a node that has halted an epoch, or has committed a block or keeps
one to commit, has decided. -/
structure AfterDecision (x : Hist) : Prop where
  halted : ∀ e, x.core.haltFlags e = true → x.decided ≠ []
  committed : Committed (fun _ => x.decided ≠ []) x

theorem AfterDecision.rule (h : Rule S env i x0 x y) (hx : AfterDecision x) : AfterDecision y := by
  have hstays : x.decided ≠ [] → y.decided ≠ [] := by
    intro hne
    obtain ⟨ht, hm⟩ := List.exists_mem_of_ne_nil _ hne
    exact List.ne_nil_of_mem (h.mem_decided hm)
  refine ⟨?_, hx.committed.rule h (fun _ => hstays) (fun p _ _ hl => ?_)
    fun ht b _ _ _ _ _ hd => List.ne_nil_of_mem hd⟩
  · cases h with
    | haltStay ht k outs hi hh hx0 he hf ho hs => simp
    | haltNext ht k outs hi hr hh hx0 he hf ho hs => simp
    | _ => exact hx.halted
  · exact hstays (hx.halted p.epoch (of_decide_eq_true hl).2.1)

/-- A node prevotes in a ready view, and halts in one or when it took a final vote. -/
structure SentReady (x : Hist) : Prop where
  prevote : ∀ d pv, .prevote pv ∈ x.sentTo d → x.core.readyFlags pv.view = true
  halt : ∀ d h, .halt h ∈ x.sentTo d →
    x.core.readyFlags h.view = true ∨ ∃ fv, .finVote fv ∈ x.handled

theorem SentReady.rule (h : Rule S env i x0 x y) (hx : SentReady x) : SentReady y where
  prevote d pv hm := by
    rcases h.sent_cases hm with hm | ⟨new, hnew, hm⟩
    · exact h.ready_mono (hx.prevote d pv hm)
    · exact (hnew.prevote hm).2.2.1
  halt d ht hm := by
    rcases h.sent_cases hm with hm | ⟨new, hnew, hm⟩
    · exact (hx.halt d ht hm).imp h.ready_mono fun ⟨fv, hfv⟩ => ⟨fv, h.mem_handled hfv⟩
    · rcases hnew.of_halt hm with ⟨-, -, hr, -⟩ | ⟨fv, -, hfv, -⟩
      · exact .inl hr
      · exact .inr ⟨fv, h.mem_handled hfv⟩

theorem Run.neverReady (hsize : S.committee.size < 4) (hr : Run S ok s) (q : NodeID) :
    NeverReady (s.nodes q) := by
  refine hr.local_invariant (I := fun _ x => NeverReady x) (fun _ _ => rfl) ?_ q
  rintro q x m y out ⟨env, i, outs, -, -, -, h, -⟩ hx
  exact hx.step hsize h

theorem Run.decisionFacts (hr : Run S ok s) (q : NodeID) :
    SentReady (s.nodes q) ∧ DecidedOnce (s.nodes q) ∧ AfterDecision (s.nodes q) := by
  refine (hr.localRun q).invariant
    (I := fun z => SentReady z ∧ DecidedOnce z ∧ AfterDecision z) ⟨?_, .init q, ?_⟩ ?_
  · exact ⟨by simp [Hist.init, Hist.sentTo], by simp [Hist.init, Hist.sentTo]⟩
  · exact ⟨by simp [Hist.init], .init _ q⟩
  · rintro env i x0 z z' - h ⟨hsent, honce, hafter⟩
    exact ⟨hsent.rule h, honce.rule h, hafter.rule h⟩

/-- Nobody halts in a committee of less than four. -/
theorem Run.not_halt (hsize : S.committee.size < 4) (hr : Run S ok s) {q d : NodeID} {h : Halt} :
    .halt h ∉ (s.nodes q).sentTo d := by
  intro hm
  have hnever := hr.neverReady hsize
  rcases (hr.decisionFacts q).1.halt d h hm with hready | ⟨fv, hfv⟩
  · simp [hnever q h.view] at hready
  · -- Somebody has sent the final vote, and so took a prevote that somebody else has sent.
    obtain ⟨-, hvote⟩ := hr.sent_of_handled hfv
    obtain ⟨pv, hpv⟩ : ∃ pv, .prevote pv ∈ (s.nodes fv.author).handled := by
      cases ((hr.facts _).causes.finVote q fv hvote).2 with
      | yes pv hf hh hv hy hb => exact ⟨pv, hh⟩
      | no pv hf hh hv hy hb hq => exact ⟨pv, hh⟩
    obtain ⟨-, hprevote⟩ := hr.sent_of_handled hpv
    have hready := (hr.decisionFacts pv.author).1.prevote fv.author pv hprevote
    simp [hnever pv.author pv.view] at hready

/-- A committee of less than four nodes decides nothing and commits nothing, in any run. -/
theorem Run.undecided (hsize : S.committee.size < 4) (hr : Run S ok s) (q : NodeID) :
    (s.nodes q).decided = [] ∧ (s.nodes q).commits = [] := by
  obtain ⟨-, honce, hafter⟩ := hr.decisionFacts q
  have hdecided : (s.nodes q).decided = [] := by
    refine List.eq_nil_iff_forall_not_mem.mpr fun h hm => ?_
    obtain ⟨-, hsent⟩ := hr.sent_of_handled (honce.handled h hm)
    exact hr.not_halt hsize hsent
  refine ⟨hdecided, List.eq_nil_iff_forall_not_mem.mpr fun b hb => ?_⟩
  exact hafter.committed.sent b hb hdecided

end SMVBA
