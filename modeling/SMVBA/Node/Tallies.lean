import SMVBA.Library.Mealy
import SMVBA.Network.Exec

/-!
# What the vote aggregators answer

The two aggregators of the view change, fed with any sequence of votes. Both count the first vote of
each author (`Quorum.Poll`), and so the order of the votes and the repetitions among them do not
matter.

`FinVoteAggreator` answers once, with the vote of the author that completes a quorum. A quorum for
yes at one node and a quorum against it at another share more authors than those whose first votes
differ at the two nodes. `PreVoteAggreator` answers the first prevote for yes, and a quorum against
it, which there is not if more than `f` members prevote for yes.
-/

namespace SMVBA

open Quorum

variable {S : Setup}

/-- The call has returned an action other than `ACTION_NONE`. -/
def acts : Except Err Action → Bool
  | .ok .none => false
  | .ok _ => true
  | .error _ => false

/-! ## Final votes -/

/-- The authors of the votes for a view. -/
def finVoters (votes : List FinVote) (v : View) : Finset NodeID :=
  ((votes.filter fun fv => fv.view = v).map FinVote.author).toFinset

/-- What `AddFinVote` returns for a vote, on a new aggregator that was given some votes before. -/
def finAnswer (S : Setup) (votes : List FinVote) (fv : FinVote) : Except Err Action :=
  ((Mealy.run (Aggreator.addFinVote S) {} votes).1.addFinVote S fv).2

/-- What `AddFinVote` returns for the votes of a view among a sequence of votes, in order. -/
def finAnswers (S : Setup) (votes : List FinVote) (v : View) : List (Except Err Action) :=
  Mealy.answersTo (Aggreator.addFinVote S) (fun fv => fv.view = v) {} votes

namespace FinVoteAggreator

variable {a : FinVoteAggreator} {votes : List FinVote} {fv : FinVote}
  {answers : List (Except Err Action)}

/-- The aggregator has counted the first vote of each author. -/
abbrev Counts (votes : List FinVote) (a : FinVoteAggreator) : Prop :=
  Poll FinVote.author (fun fv => fv.flag = .yes) votes a.authors a.yesNums a.noNums

theorem append_again (h : fv.author ∈ a.authors) :
    a.append S fv = (a, .error (.oneMoreMessage fv.epoch fv.round fv.author)) := if_pos h

theorem append_new (h : fv.author ∉ a.authors) : a.append S fv = (a.count fv, .ok <|
    if (a.count fv).yesNums + (a.count fv).noNums = S.quorum then
      if (a.count fv).yesNums = S.quorum then .commit
      else if (a.count fv).noNums = S.quorum then .no
      else .yes
    else .none) := if_neg h

/-- A new vote is counted. -/
theorem Counts.count (h : Counts votes a) (hnew : fv.author ∉ a.authors) :
    Counts (votes ++ [fv]) (a.count fv) := by
  obtain ⟨hyes, hno⟩ := h.new hnew
  unfold FinVoteAggreator.count
  split_ifs with hflag
  · exact hyes hflag
  · exact hno hflag

theorem Counts.append (h : Counts votes a) : Counts (votes ++ [fv]) (a.append S fv).1 := by
  by_cases hnew : fv.author ∈ a.authors
  · rw [append_again hnew]
    exact h.again hnew
  · rw [append_new hnew]
    exact h.count hnew

/-- The aggregator acts exactly at the author that completes the quorum. -/
theorem Counts.acts_iff (h : Counts votes a) : acts (a.append S fv).2 = true ↔
    fv.author ∉ a.authors ∧ (insert fv.author a.authors).card = S.quorum := by
  by_cases hnew : fv.author ∈ a.authors
  · rw [append_again hnew]
    simp [acts, hnew]
  · have hcard := (h.count hnew).tally.card_eq
    rw [(a.count_cases fv).1] at hcard
    rw [append_new hnew, hcard]
    constructor
    · intro hacts
      refine ⟨hnew, ?_⟩
      by_contra hne
      rw [if_neg hne] at hacts
      cases hacts
    · rintro ⟨-, hq⟩
      rw [if_pos hq]
      split_ifs <;> rfl

/-- What the answers so far say about the aggregator: it has acted at most once, not before the
quorum, and an action for one kind of votes alone has a quorum of that kind behind it. -/
structure Answered (S : Setup) (a : FinVoteAggreator) (answers : List (Except Err Action)) :
    Prop where
  once : answers.countP acts ≤ if S.quorum ≤ a.authors.card then 1 else 0
  commit : .ok .commit ∈ answers → S.quorum ≤ a.yesNums
  no : .ok .no ∈ answers → S.quorum ≤ a.noNums

theorem Answered.append (ha : Answered S a answers) (h : Counts votes a) :
    Answered S (a.append S fv).1 (answers ++ [(a.append S fv).2]) := by
  have honce := ha.once
  by_cases hnew : fv.author ∈ a.authors
  · rw [append_again hnew]
    constructor
    · simpa [acts] using honce
    · simpa using ha.commit
    · simpa using ha.no
  · have hcount := a.count_cases fv
    have hcard : (insert fv.author a.authors).card = a.authors.card + 1 :=
      Finset.card_insert_of_notMem hnew
    have hle : a.yesNums ≤ (a.count fv).yesNums ∧ a.noNums ≤ (a.count fv).noNums := by omega
    have hlast : acts (a.append S fv).2 = true ↔ a.authors.card + 1 = S.quorum := by
      rw [h.acts_iff, hcard, and_iff_right hnew]
    rw [append_new hnew] at hlast ⊢
    constructor
    · -- The vote that completes the quorum is the only one that is answered.
      rw [List.countP_append, List.countP_singleton, if_congr hlast rfl rfl, hcount.1, hcard]
      split_ifs at honce ⊢ <;> omega
    · intro hmem
      rcases List.mem_append.mp hmem with hold | hlast
      · exact (ha.commit hold).trans hle.1
      · have heq := Except.ok.inj (List.mem_singleton.mp hlast)
        split_ifs at heq with hq hyes
        exact hyes.ge
    · intro hmem
      rcases List.mem_append.mp hmem with hold | hlast
      · exact (ha.no hold).trans hle.2
      · have heq := Except.ok.inj (List.mem_singleton.mp hlast)
        split_ifs at heq with hq hyes hno
        exact hno.ge

/-- A new aggregator that is fed with votes. -/
theorem run_spec (S : Setup) (votes : List FinVote) :
    Counts votes (Mealy.run (FinVoteAggreator.append S) {} votes).1 ∧
      Answered S (Mealy.run (FinVoteAggreator.append S) {} votes).1
        (Mealy.run (FinVoteAggreator.append S) {} votes).2 := by
  refine Mealy.run_invariant _ (I := fun votes a answers => Counts votes a ∧ Answered S a answers)
    ?_ ?_ votes
  · exact ⟨.nil, ⟨by simp, by simp, by simp⟩⟩
  · rintro votes a answers fv ⟨hcounts, hanswered⟩
    exact ⟨hcounts.append, hanswered.append hcounts⟩

end FinVoteAggreator

/-- The aggregator of a view, among those of all views. -/
theorem finAnswers_eq (S : Setup) (votes : List FinVote) (v : View) :
    (Mealy.run (Aggreator.addFinVote S) {} votes).1.finvoteAggreator v =
        (Mealy.run (FinVoteAggreator.append S) {} (votes.filter fun fv => fv.view = v)).1 ∧
      finAnswers S votes v =
        (Mealy.run (FinVoteAggreator.append S) {} (votes.filter fun fv => fv.view = v)).2 := by
  refine Mealy.run_filter (FinVoteAggreator.append S) (fun a : Aggreator => a.finvoteAggreator v)
    ?_ ?_ {} votes
  · intro a fv hv
    obtain rfl : fv.view = v := of_decide_eq_true hv
    exact ⟨Function.update_self .., rfl⟩
  · intro a fv hv
    have hne : v ≠ fv.view := Ne.symm (of_decide_eq_false hv)
    exact Function.update_of_ne hne ..

/-- The aggregator of a view acts at most once, exactly at the author that completes a quorum. -/
def ActsAtQuorum (S : Setup) (v : View) (votes : List FinVote) : Prop :=
  (finAnswers S votes v).countP acts ≤ 1 ∧
    ∀ before fv after, votes = before ++ fv :: after → fv.view = v →
      (acts (finAnswer S before fv) = true ↔
        fv.author ∉ finVoters before v ∧ (finVoters (before ++ [fv]) v).card = S.quorum)

theorem actsAtQuorum (S : Setup) (v : View) (votes : List FinVote) : ActsAtQuorum S v votes := by
  constructor
  · have honce := (FinVoteAggreator.run_spec S (votes.filter fun fv => fv.view = v)).2.once
    rw [(finAnswers_eq S votes v).2]
    refine honce.trans ?_
    split_ifs <;> omega
  · rintro before fv after - rfl
    have hcounts := (FinVoteAggreator.run_spec S (before.filter fun w => w.view = fv.view)).1
    have hanswer : finAnswer S before fv =
        ((Mealy.run (FinVoteAggreator.append S) {}
          (before.filter fun w => w.view = fv.view)).1.append S fv).2 := by
      rw [← (finAnswers_eq S before fv.view).1]
      rfl
    have hvoters : finVoters (before ++ [fv]) fv.view =
        insert fv.author (finVoters before fv.view) := by
      ext a
      simp [finVoters, List.filter_append]
    rw [hanswer, hcounts.acts_iff, hvoters, hcounts.voters_eq]
    rfl

/-- The first votes of an author for the view, at two nodes, have different flags. -/
def FirstsDiffer (votes votes' : List FinVote) (v : View) (a : NodeID) : Prop :=
  ∃ fv ∈ Repeats.first? FinVote.author (votes.filter fun fv => fv.view = v) a,
    ∃ fv' ∈ Repeats.first? FinVote.author (votes'.filter fun fv => fv.view = v) a,
    fv.flag ≠ fv'.flag

instance (votes votes' : List FinVote) (v : View) : DecidablePred (FirstsDiffer votes votes' v) :=
  fun _ => inferInstanceAs (Decidable (∃ fv ∈ _, ∃ fv' ∈ _, _))

/-- `ACTION_COMMIT` at one node has a quorum for yes behind it, and `ACTION_NO` at another a quorum
against it. Too many authors are in both. -/
theorem no_of_commit {f : ℕ} (hf : S.committee.size = 3 * f + 1) {v : View}
    {votes votes' : List FinVote}
    (hvotes : ∀ fv ∈ votes, fv.author ∈ S.committee.authorities)
    (hvotes' : ∀ fv ∈ votes', fv.author ∈ S.committee.authorities) {D : Finset NodeID}
    (hD : ∀ a, FirstsDiffer votes votes' v a → a ∈ D) (hcard : D.card ≤ f)
    (hcommit : .ok .commit ∈ finAnswers S votes v) : .ok .no ∉ finAnswers S votes' v := by
  intro hno
  have hquorum : S.quorum = 2 * f + 1 := Committee.hightThreshold_eq hf
  have hsize : S.committee.authorities.card = 3 * f + 1 := hf
  obtain ⟨hcounts, hanswered⟩ :=
    FinVoteAggreator.run_spec S (votes.filter fun fv => fv.view = v)
  obtain ⟨hcounts', hanswered'⟩ :=
    FinVoteAggreator.run_spec S (votes'.filter fun fv => fv.view = v)
  rw [(finAnswers_eq S votes v).2] at hcommit
  rw [(finAnswers_eq S votes' v).2] at hno
  have hyes := hanswered.commit hcommit
  have hnos := hanswered'.no hno
  -- The members outnumber neither.
  have hle := hcounts.add_le hcounts' (U := S.committee.authorities) (D := D) ?_ ?_ ?_
  · omega
  · rw [hcounts.voters_eq]
    intro a ha
    obtain ⟨fv, hfv, rfl⟩ := List.mem_map.mp (List.mem_toFinset.mp ha)
    exact hvotes fv (List.mem_of_mem_filter hfv)
  · rw [hcounts'.voters_eq]
    intro a ha
    obtain ⟨fv, hfv, rfl⟩ := List.mem_map.mp (List.mem_toFinset.mp ha)
    exact hvotes' fv (List.mem_of_mem_filter hfv)
  · rintro a ⟨fv, hfv, hflag⟩ ⟨fv', hfv', hflag'⟩
    refine hD a ⟨fv, hfv, fv', hfv', fun heq => hflag' ?_⟩
    rw [← heq, hflag]

/-- The aggregators of a view at two nodes, fed with any final votes of members. Each acts at most
once, exactly at the author that completes a quorum. If the first votes of at most `f` authors have
different flags at the two nodes, and one of the aggregators returns `ACTION_COMMIT`, the other does
not return `ACTION_NO`. -/
theorem commit_excludes_no {f : ℕ} (hf : S.committee.size = 3 * f + 1) (v : View)
    (votes votes' : List FinVote) (hvotes : ∀ fv ∈ votes, fv.author ∈ S.committee.authorities)
    (hvotes' : ∀ fv ∈ votes', fv.author ∈ S.committee.authorities)
    (hdiffer : (S.committee.authorities.filter (FirstsDiffer votes votes' v)).card ≤ f) :
    ActsAtQuorum S v votes ∧ ActsAtQuorum S v votes' ∧
      (.ok .commit ∈ finAnswers S votes v → .ok .no ∉ finAnswers S votes' v) ∧
      (.ok .commit ∈ finAnswers S votes' v → .ok .no ∉ finAnswers S votes v) := by
  have hmember : ∀ a, FirstsDiffer votes votes' v a →
      a ∈ S.committee.authorities.filter (FirstsDiffer votes votes' v) := by
    intro a ha
    obtain ⟨fv, hfv, -⟩ := id ha
    obtain ⟨hmem, rfl⟩ := Repeats.mem_of_first? hfv
    exact Finset.mem_filter.mpr ⟨hvotes fv (List.mem_of_mem_filter hmem), ha⟩
  refine ⟨actsAtQuorum S v votes, actsAtQuorum S v votes', ?_, ?_⟩
  · exact no_of_commit hf hvotes hvotes' hmember hdiffer
  · refine no_of_commit hf hvotes' hvotes (fun a ha => hmember a ?_) hdiffer
    obtain ⟨fv, hfv, fv', hfv', hne⟩ := ha
    exact ⟨fv', hfv', fv, hfv, Ne.symm hne⟩

/-- A final vote of a node for the first view. -/
def demoFinVote (a : NodeID) (flag : VoteFlag) : FinVote := ⟨a, 0, 0, 0, flag, 0⟩

/-- Four nodes, of which `0` votes differently at two of them. -/
theorem commit_excludes_no_four :
    .ok .commit ∈ finAnswers (demo 4 0) ([0, 1, 2].map (demoFinVote · .yes)) ⟨0, 0⟩ ∧
      .ok .no ∉ finAnswers (demo 4 0)
        [demoFinVote 0 .no, demoFinVote 3 .no, demoFinVote 0 .no, demoFinVote 1 .yes] ⟨0, 0⟩ := by
  have hcommit : .ok .commit ∈
      finAnswers (demo 4 0) ([0, 1, 2].map (demoFinVote · .yes)) ⟨0, 0⟩ := by decide
  have hexcludes := commit_excludes_no (S := demo 4 0) (f := 1) (by decide) ⟨0, 0⟩
    ([0, 1, 2].map (demoFinVote · .yes))
    [demoFinVote 0 .no, demoFinVote 3 .no, demoFinVote 0 .no, demoFinVote 1 .yes]
    (by decide) (by decide) (by decide)
  exact ⟨hcommit, hexcludes.2.2.1 hcommit⟩

/-! ## Prevotes -/

namespace PreVoteAggreator

variable {a : PreVoteAggreator} {votes : List Prevote} {pv : Prevote}
  {answers : List (Except Err Action)}

/-- The aggregator has counted the first vote of each author. -/
abbrev Counts (votes : List Prevote) (a : PreVoteAggreator) : Prop :=
  Poll Prevote.author (fun pv => pv.flag ≠ .no) votes a.authors a.yesNums a.noNums

/-- A new vote is counted. -/
theorem Counts.count (h : Counts votes a) (hnew : pv.author ∉ a.authors) :
    Counts (votes ++ [pv]) (a.count pv) := by
  obtain ⟨hyes, hno⟩ := h.new hnew
  unfold PreVoteAggreator.count
  split_ifs with hflag
  · exact hno (not_not.mpr hflag)
  · exact hyes hflag

/-- What the answers so far say about the aggregator: its flag is that of a vote for yes, and has
been answered once, and an answer for no has a quorum behind it. -/
structure Answered (S : Setup) (a : PreVoteAggreator) (answers : List (Except Err Action)) :
    Prop where
  flag : a.flag = true ↔ 0 < a.yesNums
  yes : answers.count (.ok .yes) = a.flag.toNat
  no : .ok .no ∈ answers → S.quorum ≤ a.noNums

/-- One call of `Append`. -/
theorem Answered.append (ha : Answered S a answers) (h : Counts votes a) :
    Counts (votes ++ [pv]) (a.append S pv).1 ∧
      Answered S (a.append S pv).1 (answers ++ [(a.append S pv).2]) := by
  have hflag := ha.flag
  have hyes := ha.yes
  by_cases hnew : pv.author ∈ a.authors
  · have heq : a.append S pv = (a, .error (.oneMoreMessage pv.epoch pv.round pv.author)) :=
      if_pos hnew
    rw [heq]
    refine ⟨h.again hnew, hflag, ?_, ?_⟩
    · simpa using hyes
    · simpa using ha.no
  · obtain ⟨-, hsame, hcases⟩ := a.count_cases pv
    have hcounts := h.count hnew
    have hle : a.yesNums ≤ (a.count pv).yesNums ∧ a.noNums ≤ (a.count pv).noNums := by omega
    have heq : a.append S pv = if 0 < (a.count pv).yesNums ∧ (a.count pv).flag = false then
          ({ a.count pv with flag := true }, .ok .yes)
        else if (a.count pv).noNums = S.quorum ∧ (a.count pv).flag = false then
          (a.count pv, .ok .no)
        else (a.count pv, .ok .none) := if_neg hnew
    -- Without a first vote for yes the flag stays as it is, and says what it said.
    have hkept : ¬ (0 < (a.count pv).yesNums ∧ (a.count pv).flag = false) →
        ((a.count pv).flag = true ↔ 0 < (a.count pv).yesNums) := by
      intro hnot
      rw [hsame] at hnot ⊢
      cases hf : a.flag with
      | true =>
        have hpos := hflag.mp hf
        exact iff_of_true rfl (by omega)
      | false => exact iff_of_false (by simp) fun hpos => hnot ⟨hpos, hf⟩
    rw [heq]
    split_ifs with hfirst hquorum
    · -- The first vote for yes sets the flag.
      rw [hsame] at hfirst
      refine ⟨hcounts, ?_, ?_, ?_⟩
      · exact iff_of_true rfl hfirst.1
      · rw [List.count_append, hyes, hfirst.2]
        rfl
      · intro hmem
        have hold : .ok .no ∈ answers := by simpa using hmem
        exact (ha.no hold).trans hle.2
    · refine ⟨hcounts, hkept hfirst, ?_, fun _ => hquorum.1.ge⟩
      rw [hsame, ← hyes]
      simp [List.count_append]
    · refine ⟨hcounts, hkept hfirst, ?_, ?_⟩
      · rw [hsame, ← hyes]
        simp [List.count_append]
      · intro hmem
        have hold : .ok .no ∈ answers := by simpa using hmem
        exact (ha.no hold).trans hle.2

/-- A new aggregator that is fed with votes. -/
theorem run_spec (S : Setup) (votes : List Prevote) :
    Counts votes (Mealy.run (PreVoteAggreator.append S) {} votes).1 ∧
      Answered S (Mealy.run (PreVoteAggreator.append S) {} votes).1
        (Mealy.run (PreVoteAggreator.append S) {} votes).2 := by
  refine Mealy.run_invariant _ (I := fun votes a answers => Counts votes a ∧ Answered S a answers)
    ?_ ?_ votes
  · exact ⟨.nil, ⟨by simp, rfl, by simp⟩⟩
  · rintro votes a answers pv ⟨hcounts, hanswered⟩
    exact hanswered.append hcounts

end PreVoteAggreator

/-- What the calls of `Append` on a new aggregator return for prevotes, in order. -/
def prevoteAnswers (S : Setup) (votes : List Prevote) : List (Except Err Action) :=
  (Mealy.run (PreVoteAggreator.append S) {} votes).2

/-- Every member of a committee of `3f + 1` has one flag, and at least `f + 1` of the flags are yes.
Then an aggregator that gets prevotes of members with their flags, whichever of them and in whatever
order, never returns `ACTION_NO`, returns `ACTION_YES` at most once, and has returned it when it has
the prevotes of a quorum of authors. -/
theorem yes_excludes_no {f : ℕ} (hf : S.committee.size = 3 * f + 1) (flag : NodeID → VoteFlag)
    (hyes : f + 1 ≤ (S.committee.authorities.filter fun a => flag a = .yes).card)
    (votes : List Prevote)
    (hvotes : ∀ pv ∈ votes, pv.author ∈ S.committee.authorities ∧ pv.flag = flag pv.author) :
    .ok .no ∉ prevoteAnswers S votes ∧
      (prevoteAnswers S votes).count (.ok .yes) ≤ 1 ∧
      (S.quorum ≤ (votes.map Prevote.author).toFinset.card →
        .ok .yes ∈ prevoteAnswers S votes) := by
  have hquorum : S.quorum = 2 * f + 1 := Committee.hightThreshold_eq hf
  have hsize : S.committee.authorities.card = 3 * f + 1 := hf
  obtain ⟨hcounts, hanswered⟩ := PreVoteAggreator.run_spec S votes
  -- The members with a counted vote for no are among those whose flag is not yes.
  have hno : (Mealy.run (PreVoteAggreator.append S) {} votes).1.noNums ≤ 2 * f := by
    obtain ⟨N, hN, hfirst⟩ := hcounts.tally.exists_no
    have hsub : N ⊆ S.committee.authorities.filter fun a => ¬ flag a = .yes := by
      intro a ha
      obtain ⟨pv, hpv, hflag⟩ := hfirst a ha
      obtain ⟨hmem, rfl⟩ := Repeats.mem_of_first? hpv
      obtain ⟨hauthor, heq⟩ := hvotes pv hmem
      refine Finset.mem_filter.mpr ⟨hauthor, fun hyes => ?_⟩
      rw [not_not, heq, hyes] at hflag
      cases hflag
    have hcard := Finset.card_le_card hsub
    have hsplit := Finset.card_filter_add_card_filter_not (s := S.committee.authorities)
      fun a => flag a = .yes
    omega
  have hcount := hanswered.yes
  refine ⟨fun hmem => ?_, ?_, fun hle => ?_⟩
  · have hge := hanswered.no hmem
    omega
  · rw [prevoteAnswers, hcount]
    exact Bool.toNat_le _
  · -- A quorum of counted votes has one for yes among them.
    have hcard := hcounts.tally.card_eq
    rw [hcounts.voters_eq] at hcard
    have hflag := hanswered.flag.mpr (by omega)
    rw [hflag] at hcount
    exact List.count_pos_iff.mp (by rw [prevoteAnswers, hcount]; decide)

/-- Four nodes, of which `1` and `3` prevote for yes: the first of their prevotes is answered, also
after two for no. -/
theorem yes_excludes_no_four :
    .ok .no ∉ prevoteAnswers (demo 4 0) [⟨0, 0, 0, 0, .no, 0⟩, ⟨2, 0, 0, 0, .no, 0⟩,
      ⟨0, 0, 0, 0, .no, 0⟩, ⟨3, 0, 0, 0, .yes, 0⟩, ⟨1, 0, 0, 0, .yes, 0⟩] ∧
    .ok .yes ∈ prevoteAnswers (demo 4 0) [⟨0, 0, 0, 0, .no, 0⟩, ⟨2, 0, 0, 0, .no, 0⟩,
      ⟨0, 0, 0, 0, .no, 0⟩, ⟨3, 0, 0, 0, .yes, 0⟩, ⟨1, 0, 0, 0, .yes, 0⟩] := by
  obtain ⟨hno, -, hyes⟩ := yes_excludes_no (S := demo 4 0) (f := 1) (by decide)
    (fun a => if a = 1 ∨ a = 3 then .yes else .no) (by decide)
    [⟨0, 0, 0, 0, .no, 0⟩, ⟨2, 0, 0, 0, .no, 0⟩, ⟨0, 0, 0, 0, .no, 0⟩, ⟨3, 0, 0, 0, .yes, 0⟩,
      ⟨1, 0, 0, 0, .yes, 0⟩] (by decide)
  exact ⟨hno, hyes (by decide)⟩

end SMVBA
