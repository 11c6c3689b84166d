import SMVBA.Byzantine.System
import SMVBA.Node.Epochs

/-!
# Decisions with Byzantine nodes

A `Halt` carries no certificate, and `handleHalt` checks nothing of it beyond its epoch and that its
block can be read. One halt of a Byzantine node is enough to decide any block that a node has
stored, or any payload that it holds, in any epoch that the node has not left.

What a node decides an honest node has broadcast as long as a halt of a Byzantine node is accepted
only when it is at least the `f + 1`-st halt for its epoch and hash, counted by their authors: one
of `f + 1` authors is honest, and signatures cannot be forged.
-/

namespace SMVBA

variable {S : Setup} {honest : Finset NodeID} {nodes : NodeID → Hist} {x y : Hist}
  {env : Env} {i : Input} {outs : List Output} {ok : Cond}

/-- What may be taken where signatures cannot be forged: a message of a member of the committee,
which an honest author has issued. The share of a coin is the one message whose `Verify` checks
nothing. -/
def Authentic (S : Setup) (honest : Finset NodeID) (issued : Issues) : Message → Prop
  | .electShare _ => True
  | m => m.author ∈ S.committee.authorities ∧ (m.author ∈ honest → issued m.author m)

theorem Authentic.mono {I I' : Issues} {m : Message} (h : ∀ a m, I a m → I' a m)
    (hm : Authentic S honest I m) : Authentic S honest I' m := by
  cases m with
  | electShare s => trivial
  | _ => exact ⟨hm.1, fun ha => h _ _ (hm.2 ha)⟩

/-- The author of a halt for the epoch with the hash. -/
def Message.haltAuthor? (epoch : ℤ) (blockHash : Digest) : Message → Option NodeID
  | .halt h => if h.epoch = epoch ∧ h.blockHash = blockHash then some h.author else none
  | _ => none

/-- The authors of the halts for an epoch with a hash that a node has taken. -/
def Hist.haltAuthors (x : Hist) (epoch : ℤ) (blockHash : Digest) : Finset NodeID :=
  (x.handled.filterMap (Message.haltAuthor? epoch blockHash)).toFinset

theorem Hist.mem_haltAuthors {epoch : ℤ} {blockHash : Digest} {a : NodeID} :
    a ∈ x.haltAuthors epoch blockHash ↔
      ∃ h, .halt h ∈ x.handled ∧ h.author = a ∧ h.epoch = epoch ∧ h.blockHash = blockHash := by
  rw [Hist.haltAuthors, List.mem_toFinset, List.mem_filterMap]
  constructor
  · rintro ⟨m, hm, ha⟩
    cases m with
    | halt h =>
      obtain ⟨⟨he, hb⟩, rfl⟩ : (h.epoch = epoch ∧ h.blockHash = blockHash) ∧ h.author = a := by
        simpa [Message.haltAuthor?] using ha
      exact ⟨h, hm, rfl, he, hb⟩
    | _ => cases ha
  · rintro ⟨h, hm, rfl, rfl, rfl⟩
    exact ⟨_, hm, by simp [Message.haltAuthor?]⟩

/-- A halt that is accepted has an honest author, or the node has taken halts for its epoch with its
hash from `f + 1` authors, this one included. -/
def BackedHalts (S : Setup) (honest : Finset NodeID) : Cond := fun x env i =>
  ∀ h ∈ i.halt?, x.core.acceptsHalt S env h = true → h.author ∈ honest ∨
    S.committee.lowThreshold ≤ (insert h.author (x.haltAuthors h.epoch h.blockHash)).card

instance (S : Setup) (honest : Finset NodeID) (x : Hist) (env : Env) (i : Input) :
    Decidable (BackedHalts S honest x env i) :=
  inferInstanceAs (Decidable (∀ h ∈ i.halt?, _ → _))

/-- A step decides by the halt that it takes, and only by one that it accepts. -/
theorem Hist.step_decided (h : x.step S env i = some (y, outs)) {ht : Halt} (hd : ht ∈ y.decided) :
    ht ∈ x.decided ∨ (i = .msg (.halt ht) ∧ x.core.acceptsHalt S env ht = true) := by
  rcases Hist.step_halts h with ⟨-, heq, -⟩ | ⟨ht', hi, haccepts, -, heq, -⟩
  · exact .inl (heq ▸ hd)
  · rw [heq, List.mem_append, List.mem_singleton] at hd
    rcases hd with hold | rfl
    · exact .inl hold
    · exact .inr ⟨hi, haccepts⟩

/-- The halts that a node took stay on record. -/
theorem Hist.haltAuthors_step (h : x.step S env i = some (y, outs)) (epoch : ℤ)
    (blockHash : Digest) : x.haltAuthors epoch blockHash ⊆ y.haltAuthors epoch blockHash := by
  intro a ha
  obtain ⟨ht, hm, hrest⟩ := Hist.mem_haltAuthors.mp ha
  refine Hist.mem_haltAuthors.mpr ⟨ht, ?_, hrest⟩
  rw [Hist.step_handled h]
  exact List.mem_append_left _ hm

/-- The decision of a halt is backed: an honest node is among the authors from whom the node has
taken it, or they are `f + 1`. -/
def Hist.Backed (S : Setup) (honest : Finset NodeID) (x : Hist) (ht : Halt) : Prop :=
  (∃ a ∈ x.haltAuthors ht.epoch ht.blockHash, a ∈ honest) ∨
    S.committee.lowThreshold ≤ (x.haltAuthors ht.epoch ht.blockHash).card

/-- Under the condition, the decisions of a node are backed. -/
theorem LocalRun.haltsBacked {name : NodeID} (hr : LocalRun S (BackedHalts S honest) name x)
    {ht : Halt} (hd : ht ∈ x.decided) : x.Backed S honest ht := by
  induction hr with
  | init => cases hd
  | @step x y env i outs hr hok h ih =>
    have hsub := Hist.haltAuthors_step h ht.epoch ht.blockHash
    rcases Hist.step_decided h hd with hold | ⟨rfl, ha⟩
    · refine (ih hold).imp (fun ⟨a, hmem, hhonest⟩ => ⟨a, hsub hmem, hhonest⟩) fun hcard => ?_
      exact hcard.trans (Finset.card_le_card hsub)
    · -- The halt in hand is among those taken after the step.
      have hself : ht.author ∈ y.haltAuthors ht.epoch ht.blockHash := by
        refine Hist.mem_haltAuthors.mpr ⟨ht, ?_, rfl, rfl, rfl⟩
        rw [Hist.step_handled h]
        exact List.mem_append_right _ (List.mem_singleton_self _)
      refine (hok ht rfl ha).imp (fun hhonest => ⟨_, hself, hhonest⟩) fun hcard => ?_
      exact hcard.trans (Finset.card_le_card (Finset.insert_subset hself hsub))

/-- Among the authors of a backed decision is an honest node, if at most `f` nodes are not. -/
theorem Hist.Backed.exists_honest {f : ℕ} (hsize : S.committee.size = 3 * f + 1)
    (hbyz : (S.committee.authorities \ honest).card ≤ f) {ht : Halt}
    (hmem : x.haltAuthors ht.epoch ht.blockHash ⊆ S.committee.authorities)
    (hb : x.Backed S honest ht) : ∃ a ∈ x.haltAuthors ht.epoch ht.blockHash, a ∈ honest := by
  refine hb.elim id fun hcard => ?_
  have hlow : S.committee.lowThreshold = f + 1 := by
    unfold Committee.lowThreshold
    omega
  exact Quorum.exists_mem_of_card_lt hmem (by omega)

/-- The messages that may be taken, decided. -/
def authenticCheck (nodes : NodeID → Hist) : Message → Bool
  | .electShare _ => true
  | m => decide (m.author ∈ (demo 4 0).committee.authorities ∧
      (m.author ∈ ({0, 1, 2} : Finset NodeID) → (nodes m.author).Issued m))

theorem authentic_of_check {m : Message} (h : authenticCheck nodes m = true) :
    Authentic (demo 4 0) {0, 1, 2} (fun a => (nodes a).Issued) m := by
  cases m with
  | electShare s => trivial
  | _ =>
    have hm := of_decide_eq_true (p := _ ∧ _) h
    exact hm

/-- The whole instance of the first block of `p`, with the votes of the honest nodes 0 and 1 and of
the Byzantine node 3. -/
def lentRun (p : NodeID) : List Act :=
  [0, 1].flatMap (Act.proposal ⟨p, demoBlock p 0, 0, 0, .one⟩) ++
    [0, 1, 3].flatMap (fun q => Act.vote ⟨q, p, demoHash p, 0, 0, .one⟩ p) ++ locks p [0, 1] ++
    [0, 1, 3].flatMap fun q => Act.vote ⟨q, p, 0, 0, 0, .two⟩ p

/-- The honest nodes 0 and 1 finish, and with the `Finish` and the `Done` of the Byzantine node 3
node 0 comes to elect itself and halts. Node 2 takes its halt before the block, and after the block
a halt of the Byzantine node for the same decision. -/
def backedDecision : List Act :=
  [0, 1, 2].map .start ++ lentRun 0 ++ lentRun 1 ++ finishes 0 [0, 1, 3] ++
    dones 1 [0, 3] ++ dones 0 [0, 1, 3] ++ shares 0 [0, 1, 3] ++
    [.deliver 2 (.halt ⟨0, 0, 0, 0, demoHash 0⟩),
      .deliver 2 (.spbProposal ⟨0, demoBlock 0 0, 0, 0, .one⟩),
      .deliver 2 (.halt ⟨3, 0, 0, 0, demoHash 0⟩)]

/-- Node 0 has stored its own block, and the Byzantine node 3 sends it a halt for that block. -/
def forgedDecision : List Act :=
  .start 0 :: Act.proposal ⟨0, demoBlock 0 0, 0, 0, .one⟩ 0 ++
    [.deliver 0 (.halt ⟨3, 0, 0, 3, demoHash 0⟩)]

end SMVBA
