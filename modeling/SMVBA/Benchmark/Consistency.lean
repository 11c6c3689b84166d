import Mathlib.Data.List.MinMax
import SMVBA.Consensus.Config
import SMVBA.Library.Logs
import SMVBA.Library.Numerals
import SMVBA.Library.Scanning

/-!
# The check of the logs

`benchmark/consistency.py` reads the logs that the nodes of a benchmark have written and tells
whether the nodes have committed the same payloads in the same order. It collects the lines that
`Committor.run` writes for each payload, drops repetitions, takes the longest sequence as the
reference and compares every other one with as much of the reference.

`compareDigestSequences_iff` is what the answer means: any two of the sequences, without
repetitions, are prefixes of one another. The name of a file that is given twice, and which of the
longest sequences is taken, do not matter. `extract_writtenTo` is the other half: the items that the
pattern finds in a log are those of the committor's lines, if it finds nothing in the other lines.

In Python `\d` stands for the decimal digits of Unicode, and not only for those of ASCII. Which ones
there are is a matter of its version. What is proved here holds for any class of digits that has the
ASCII digits and no other ASCII character (`Digits`).
-/

namespace SMVBA.Consistency

open Scanning

/-- Characters of a log. -/
abbrev Text := List Char

/-- The two groups of a match, as text: the proposer of a payload and the number of its batch. -/
abbrev Item := Text × Text

/-! ## The script -/

/-- The class `\d` of the regular expressions of Python. -/
structure Digits where
  isDigit : Char → Bool
  ascii : ∀ c : Char, c.val < 128 → isDigit c = c.isDigit

variable (D : Digits)

/-- A group `(\d+)` at the beginning of a text. It takes all digits that there are, since what
follows it in the pattern is not a digit. -/
def group? (s : Text) : Option Text :=
  let digits := s.takeWhile D.isDigit
  if digits = [] then none else some digits

/-- The pattern `commit Block node (\d+) batch_id (\d+)` at the beginning of a text. -/
def commitBlock? (s : Text) : Option (Item × ℕ) := do
  let s ← s.dropPrefix? "commit Block node ".toList
  let node ← group? D s
  let s ← (s.drop node.length).dropPrefix? " batch_id ".toList
  let batch ← group? D s
  return ((node, batch), 18 + node.length + 10 + batch.length)

/-- `extract_committed_digests`, on the lines of a file. -/
def extractCommittedDigests (lines : List Text) : List Item :=
  lines.flatMap (findAll (commitBlock? D))

section Duplicates

variable {α : Type*} [DecidableEq α]

/-- One round of the loop of `remove_duplicates`. The set `seen` has the elements of the result. -/
def removeDuplicate (acc : List α × ℕ) (item : α) : List α × ℕ :=
  if item ∈ acc.1 then (acc.1, acc.2 + 1) else (acc.1 ++ [item], acc.2)

/-- `remove_duplicates`: the first occurrences, in order, and the number of the others. -/
def removeDuplicates (seq : List α) : List α × ℕ := seq.foldl removeDuplicate ([], 0)

end Duplicates

section Compare

variable {Name : Type*} [DecidableEq Name]

/-- The sequence of a file, without repetitions. -/
def uniqueDigests (file : List Text) : List Item :=
  (removeDuplicates (extractCommittedDigests D file)).1

/-- The dictionary `digest_sequences`, in the order of insertion. A name that comes again is set to
the sequence that it has. -/
def digestSequences (read : Name → List Text) (logFiles : List Name) : List (Name × List Item) :=
  (removeDuplicates logFiles).1.map fun file => (file, uniqueDigests D (read file))

/-- `compare_digest_sequences`, less what it prints. The first longest sequence is the reference.
Without a file `max` raises an error. -/
def compareDigestSequences (read : Name → List Text) (logFiles : List Name) : Option Bool :=
  let sequences := digestSequences D read logFiles
  (sequences.argmax fun item => item.2.length).map fun (refFile, refDigests) =>
    sequences.all fun (file, digests) =>
      file = refFile ∨ digests = refDigests.take digests.length

end Compare

/-! ## Repetitions -/

section Duplicates

variable {α : Type*} [DecidableEq α]

theorem mem_foldl_removeDuplicate (seq : List α) (acc : List α × ℕ) (a : α) :
    a ∈ (seq.foldl removeDuplicate acc).1 ↔ a ∈ acc.1 ∨ a ∈ seq := by
  induction seq generalizing acc with
  | nil => simp
  | cons item seq ih =>
    have hround : a ∈ (removeDuplicate acc item).1 ↔ a ∈ acc.1 ∨ a = item := by
      unfold removeDuplicate
      split_ifs with hmem
      · exact ⟨.inl, fun h => h.elim id fun heq => heq ▸ hmem⟩
      · simp
    rw [List.foldl_cons, ih, hround, List.mem_cons, or_assoc]

/-- No item is lost. -/
theorem mem_removeDuplicates {seq : List α} {a : α} : a ∈ (removeDuplicates seq).1 ↔ a ∈ seq := by
  rw [removeDuplicates, mem_foldl_removeDuplicate]
  exact or_iff_right List.not_mem_nil

/-- The sequence without repetitions grows with the sequence. -/
theorem removeDuplicates_prefix {seq seq' : List α} (h : seq <+: seq') :
    (removeDuplicates seq).1 <+: (removeDuplicates seq').1 := by
  refine Logs.prefix_foldl Prod.fst (fun acc item => ?_) ([], 0) h
  unfold removeDuplicate
  split_ifs
  · exact List.prefix_rfl
  · exact List.prefix_append _ _

end Duplicates

/-! ## The answer -/

section Compare

variable {Name : Type*} [DecidableEq Name] {read : Name → List Text} {logFiles : List Name}

variable {D}

theorem mem_digestSequences {f : Name} {l : List Item} : (f, l) ∈ digestSequences D read logFiles ↔
    f ∈ logFiles ∧ uniqueDigests D (read f) = l := by
  simp [digestSequences, mem_removeDuplicates]

/-- The check accepts the logs if and only if there are some, and of the sequences of any two of
them, without repetitions, one is a prefix of the other. -/
theorem compareDigestSequences_iff (D : Digits) (read : Name → List Text) (logFiles : List Name) :
    compareDigestSequences D read logFiles = some true ↔ logFiles ≠ [] ∧
      ∀ f ∈ logFiles, ∀ g ∈ logFiles, uniqueDigests D (read f) <+: uniqueDigests D (read g) ∨
        uniqueDigests D (read g) <+: uniqueDigests D (read f) := by
  unfold compareDigestSequences
  dsimp only
  cases hmax : (digestSequences D read logFiles).argmax fun item => item.2.length with
  | none =>
    have hnil : logFiles = [] := by
      have hempty := List.argmax_eq_none.mp hmax
      refine List.eq_nil_iff_forall_not_mem.mpr fun f hf => ?_
      have hmem : (f, uniqueDigests D (read f)) ∈ digestSequences D read logFiles :=
        mem_digestSequences.mpr ⟨hf, rfl⟩
      rw [hempty] at hmem
      cases hmem
    simp [hnil]
  | some item =>
    obtain ⟨refFile, refDigests⟩ := item
    obtain ⟨href, hseq⟩ := mem_digestSequences.mp (List.argmax_mem hmax)
    have hlen : ∀ f ∈ logFiles, (uniqueDigests D (read f)).length ≤ refDigests.length := by
      intro f hf
      have hmem : (f, uniqueDigests D (read f)) ∈ digestSequences D read logFiles :=
        mem_digestSequences.mpr ⟨hf, rfl⟩
      have hle := List.le_of_mem_argmax hmem hmax
      exact hle
    -- A file passes if its sequence is a prefix of the reference. The reference passes by its name.
    have hpass : ∀ f, (f = refFile ∨ uniqueDigests D (read f) =
        refDigests.take (uniqueDigests D (read f)).length) ↔
          uniqueDigests D (read f) <+: refDigests := by
      intro f
      rw [← List.prefix_iff_eq_take]
      refine or_iff_right_of_imp fun heq => ?_
      rw [heq, hseq]
    have hall := Logs.forall_prefix_iff
      (C := fun l => ∃ f ∈ logFiles, uniqueDigests D (read f) = l) ⟨refFile, href, hseq⟩
      (by rintro l ⟨f, hf, rfl⟩; exact hlen f hf)
    simp only [forall_exists_index, and_imp, forall_apply_eq_imp_iff₂] at hall
    rw [← hall]
    have hne : logFiles ≠ [] := List.ne_nil_of_mem href
    simp only [Option.map_some, Option.some.injEq, List.all_eq_true, decide_eq_true_eq, hne, ne_eq,
      not_false_eq_true, true_and]
    constructor
    · intro h f hf
      exact (hpass f).mp (h _ (mem_digestSequences.mpr ⟨hf, rfl⟩))
    · rintro h ⟨f, l⟩ hmem
      obtain ⟨hf, rfl⟩ := mem_digestSequences.mp hmem
      exact (hpass f).mpr (h f hf)

end Compare

/-! ## The lines of the committor -/

/-- What `Committor.run` writes to the info log. -/
inductive LogLine where
  /-- A payload, with its proposer and the number of its batch. -/
  | commitBlock (node : NodeID) (batchId : ℤ)
  /-- A consensus block, after its payloads. -/
  | commitConsensusBlock (epoch : ℤ) (node : NodeID)
deriving DecidableEq, Repr

namespace LogLine

/-- The message of a line. `%d` writes a number in decimal, with a sign if it is negative. -/
def message : LogLine → Text
  | .commitBlock node batchId => "commit Block node ".toList ++ (node.repr.toList ++
      (" batch_id ".toList ++ (batchId.repr.toList ++ " \n".toList)))
  | .commitConsensusBlock epoch node => "commit ConsensusBlock epoch ".toList ++
      (epoch.repr.toList ++ (" node ".toList ++ (node.repr.toList ++ "\n".toList)))

/-- The source line that the logger names. -/
def place : LogLine → Text
  | .commitBlock .. => " commitor.go:50: ".toList
  | .commitConsensusBlock .. => " commitor.go:57: ".toList

/-- The line in the log: the prefix of `logger.Info`, date and time, the source line, and the
message. -/
def text (stamp : Text) (line : LogLine) : Text :=
  "[INFO] ".toList ++ (stamp ++ (line.place ++ line.message))

/-- The item of a line. The pattern has no sign, so it passes over negative numbers. -/
def item? : LogLine → Option Item
  | .commitBlock node batchId =>
    if 0 ≤ node ∧ 0 ≤ batchId then some (node.repr.toList, batchId.repr.toList) else none
  | .commitConsensusBlock .. => none

end LogLine

/-- A log file with the lines of the committor, in order, among other lines in which the pattern
does not occur. Date and time have no letter. -/
inductive WrittenTo (D : Digits) : List LogLine → List Text → Prop
  | nil : WrittenTo D [] []
  | line {lines : List LogLine} {file : List Text} (line : LogLine) (stamp : Text)
      (hstamp : 'c' ∉ stamp) (h : WrittenTo D lines file) :
      WrittenTo D (lines ++ [line]) (file ++ [line.text stamp])
  | other {lines : List LogLine} {file : List Text} (text : Text)
      (htext : findAll (commitBlock? D) text = []) (h : WrittenTo D lines file) :
      WrittenTo D lines (file ++ [text])

/-! ## What the pattern finds -/

variable {D}

/-- The pattern begins with the letter `c`. -/
theorem commitBlock?_of_ne (c : Char) (s : Text) (hc : c ≠ 'c') :
    commitBlock? D (c :: s) = none := by
  have hdrop : (c :: s).dropPrefix? "commit Block node ".toList = none := by
    show (if (c == 'c') = true then _ else none) = none
    rw [if_neg (by simpa using hc)]
  rw [commitBlock?, hdrop]
  rfl

/-- Text without the letter is passed over. -/
theorem findAll_pass {s t : Text} (hs : 'c' ∉ s) :
    findAll (commitBlock? D) (s ++ t) = findAll (commitBlock? D) t :=
  findAll_append_of_notMem commitBlock?_of_ne hs

theorem isDigit_of_mem_repr {x : ℤ} (hx : 0 ≤ x) : ∀ c ∈ x.repr.toList, c.isDigit = true := by
  obtain ⟨n, rfl⟩ := Int.eq_ofNat_of_zero_le hx
  intro c hc
  exact Nat.isDigit_of_mem_toDigits (by decide) (by decide) (Nat.toList_repr ▸ hc)

/-- The digits of ASCII are in the class. -/
theorem Digits.of_isDigit {c : Char} (hc : c.isDigit = true) : D.isDigit c = true := by
  rw [D.ascii c ?_, hc]
  have hle : c.val ≤ '9'.val := by
    simp only [Char.isDigit, Bool.and_eq_true, decide_eq_true_eq] at hc
    exact hc.2
  exact UInt32.lt_of_le_of_lt hle (by decide)

theorem repr_ne_nil (x : ℤ) : x.repr.toList ≠ [] := by
  intro hnil
  have hread := Numerals.decimal?_repr x
  rw [hnil] at hread
  cases hread

theorem notMem_repr (x : ℤ) : 'c' ∉ x.repr.toList := by
  cases x with
  | ofNat n =>
    intro hc
    exact absurd (isDigit_of_mem_repr (Int.natCast_nonneg n) _ hc) (by decide)
  | negSucc n =>
    intro hc
    rw [Int.repr, String.toList_append, Nat.toList_repr, List.mem_append] at hc
    rcases hc with hc | hc
    · exact absurd hc (by decide)
    · exact absurd (Nat.isDigit_of_mem_toDigits (by decide) (by decide) hc) (by decide)

/-- So is text that begins with the letter, if the pattern does not match there. -/
theorem findAll_pass_cons {s t : Text} (h : commitBlock? D ('c' :: (s ++ t)) = none)
    (hs : 'c' ∉ s) :
    findAll (commitBlock? D) ('c' :: (s ++ t)) = findAll (commitBlock? D) t := by
  rw [findAll_cons_of_none h, findAll_pass hs]

/-- The name of the source file begins as the pattern does. -/
theorem findAll_place (line : LogLine) (t : Text) :
    findAll (commitBlock? D) (line.place ++ t) = findAll (commitBlock? D) t := by
  cases line with
  | commitBlock node batchId =>
    calc findAll (commitBlock? D) (LogLine.place (.commitBlock node batchId) ++ t)
        = findAll (commitBlock? D) (" ".toList ++ 'c' :: ("ommitor.go:50: ".toList ++ t)) := rfl
      _ = findAll (commitBlock? D) t := by
        rw [findAll_pass (by decide), findAll_pass_cons rfl (by decide)]
  | commitConsensusBlock epoch node =>
    calc findAll (commitBlock? D) (LogLine.place (.commitConsensusBlock epoch node) ++ t)
        = findAll (commitBlock? D) (" ".toList ++ 'c' :: ("ommitor.go:57: ".toList ++ t)) := rfl
      _ = findAll (commitBlock? D) t := by
        rw [findAll_pass (by decide), findAll_pass_cons rfl (by decide)]

/-- A group takes the digits of a number that something else follows. -/
theorem group?_repr {x : ℤ} (hx : 0 ≤ x) {c : Char} (hc : D.isDigit c = false) (s : Text) :
    group? D (x.repr.toList ++ c :: s) = some x.repr.toList := by
  unfold group?
  rw [List.takeWhile_append_of_pos fun c hc => D.of_isDigit (isDigit_of_mem_repr hx c hc),
    List.takeWhile_cons_of_neg (by simp [hc]), List.append_nil]
  exact if_neg (repr_ne_nil x)

/-- A negative number gives it nothing to take. -/
theorem group?_repr_of_neg {x : ℤ} (hx : x < 0) (s : Text) :
    group? D (x.repr.toList ++ s) = none := by
  obtain ⟨n, rfl⟩ := Int.eq_negSucc_of_lt_zero hx
  have hsign : D.isDigit '-' = false := D.ascii '-' (by decide)
  unfold group?
  rw [Int.repr, String.toList_append, List.append_assoc]
  change (if (('-' :: _).takeWhile D.isDigit) = [] then _ else _) = _
  rw [List.takeWhile_cons_of_neg (by simp [hsign]), if_pos rfl]

/-- The pattern on the message for a payload. -/
theorem commitBlock?_message (node batchId : ℤ) :
    commitBlock? D (LogLine.commitBlock node batchId).message =
      (LogLine.commitBlock node batchId).item?.map fun item =>
        (item, 18 + item.1.length + 10 + item.2.length) := by
  have hspace : D.isDigit ' ' = false := D.ascii ' ' (by decide)
  unfold LogLine.message LogLine.item? commitBlock?
  dsimp only
  rw [List.dropPrefix?_append_of_beq _ (by simp), Option.bind_eq_bind, Option.bind_some]
  rcases lt_or_ge node 0 with hnode | hnode
  · rw [group?_repr_of_neg hnode, if_neg fun h => absurd h.1 (not_le.mpr hnode)]
    rfl
  have hgroup : group? D (node.repr.toList ++ (" batch_id ".toList ++
      (batchId.repr.toList ++ " \n".toList))) = some node.repr.toList := group?_repr hnode hspace _
  rw [hgroup, Option.bind_some, List.drop_left, List.dropPrefix?_append_of_beq _ (by simp),
    Option.bind_some]
  rcases lt_or_ge batchId 0 with hbatch | hbatch
  · rw [group?_repr_of_neg hbatch, if_neg fun h => absurd h.2 (not_le.mpr hbatch)]
    rfl
  have hgroup' : group? D (batchId.repr.toList ++ " \n".toList) = some batchId.repr.toList :=
    group?_repr hbatch hspace _
  rw [hgroup', if_pos ⟨hnode, hbatch⟩]
  rfl

/-- What follows the first letter of the message for a payload is passed over. -/
theorem findAll_message_tail (node batchId : ℤ) :
    findAll (commitBlock? D) (LogLine.commitBlock node batchId).message.tail = [] := by
  have htail : (LogLine.commitBlock node batchId).message.tail =
      "ommit Blo".toList ++ 'c' :: ("k node ".toList ++ (node.repr.toList ++
        (" bat".toList ++ 'c' :: ("h_id ".toList ++
          (batchId.repr.toList ++ (" \n".toList ++ [])))))) := rfl
  rw [htail, findAll_pass (by decide), findAll_pass_cons rfl (by decide),
    findAll_pass (notMem_repr _), findAll_pass (by decide), findAll_pass_cons rfl (by decide),
    findAll_pass (notMem_repr _), findAll_pass (by decide), findAll_nil]

/-- The pattern finds the item of a line, and nothing else. -/
theorem findAll_text (line : LogLine) {stamp : Text} (hstamp : 'c' ∉ stamp) :
    findAll (commitBlock? D) (line.text stamp) = line.item?.toList := by
  unfold LogLine.text
  rw [findAll_pass (by decide), findAll_pass hstamp, findAll_place]
  cases line with
  | commitBlock node batchId =>
    have hmatch := commitBlock?_message (D := D) node batchId
    cases hitem : (LogLine.commitBlock node batchId).item? with
    | none =>
      rw [hitem] at hmatch
      exact (findAll_cons_of_none hmatch).trans (findAll_message_tail node batchId)
    | some item =>
      obtain ⟨-, heq⟩ := Option.ite_none_right_eq_some.mp hitem
      cases heq
      rw [hitem, Option.map_some] at hmatch
      let matched := "commit Block node ".toList ++ node.repr.toList ++ " batch_id ".toList ++
        batchId.repr.toList
      have hsplit : (LogLine.commitBlock node batchId).message = matched ++ " \n".toList := by
        simp only [matched, List.append_assoc]
        rfl
      have hlen : matched.length = 18 + node.repr.toList.length + 10 +
          batchId.repr.toList.length := by
        simp only [matched, List.length_append]
        rfl
      rw [hsplit, ← hlen] at hmatch
      rw [hsplit, findAll_append_of_some (by simp [matched]) hmatch]
      rfl
  | commitConsensusBlock epoch node =>
    have hmessage : (LogLine.commitConsensusBlock epoch node).message =
        'c' :: ("ommit ConsensusBlo".toList ++ 'c' :: ("k epo".toList ++ 'c' :: ("h ".toList ++
          (epoch.repr.toList ++ (" node ".toList ++ (node.repr.toList ++
            ("\n".toList ++ []))))))) := rfl
    rw [hmessage, findAll_pass_cons rfl (by decide), findAll_pass_cons rfl (by decide),
      findAll_pass_cons rfl (by decide), findAll_pass (notMem_repr _), findAll_pass (by decide),
      findAll_pass (notMem_repr _), findAll_pass (by decide), findAll_nil]
    rfl

/-- The items of a log are those of the committor's lines. -/
theorem extract_writtenTo {lines : List LogLine} {file : List Text} (h : WrittenTo D lines file) :
    extractCommittedDigests D file = lines.filterMap LogLine.item? := by
  unfold extractCommittedDigests
  induction h with
  | nil => rfl
  | line line stamp hstamp h ih =>
    rw [List.flatMap_append, List.filterMap_append, ih, List.flatMap_singleton,
      findAll_text line hstamp]
    cases hitem : line.item? <;> simp [hitem]
  | other text htext h ih =>
    rw [List.flatMap_append, List.flatMap_singleton, htext, List.append_nil, ih]

/-- A log with nothing but the committor's lines. -/
theorem writtenTo_map_text (lines : List LogLine) {stamp : Text} (hstamp : 'c' ∉ stamp) :
    WrittenTo D lines (lines.map (LogLine.text stamp)) := by
  induction lines using List.reverseRecOn with
  | nil => exact .nil
  | append_singleton lines line ih =>
    rw [List.map_append]
    exact .line line stamp hstamp ih

/-- The items of a committor's lines, without repetitions. -/
def committed (lines : List LogLine) : List Item :=
  (removeDuplicates (lines.filterMap LogLine.item?)).1

theorem uniqueDigests_writtenTo {lines : List LogLine} {file : List Text}
    (h : WrittenTo D lines file) : uniqueDigests D file = committed lines := by
  rw [uniqueDigests, extract_writtenTo h, committed]

/-- They grow with the lines. -/
theorem committed_prefix {lines lines' : List LogLine} (h : lines <+: lines') :
    committed lines <+: committed lines' :=
  removeDuplicates_prefix (h.filterMap LogLine.item?)

/-- The committors' lines go through the logs and the script. The script accepts the logs of some
nodes if and only if of the payloads that any two of the committors have logged, without
repetitions, one sequence is a prefix of the other. -/
theorem accepts_iff_same_order {Name : Type*} [DecidableEq Name] {lines : Name → List LogLine}
    {read : Name → List Text} {logFiles : List Name} (hne : logFiles ≠ [])
    (h : ∀ f ∈ logFiles, WrittenTo D (lines f) (read f)) :
    compareDigestSequences D read logFiles = some true ↔ ∀ f ∈ logFiles, ∀ g ∈ logFiles,
      committed (lines f) <+: committed (lines g) ∨
        committed (lines g) <+: committed (lines f) := by
  rw [compareDigestSequences_iff, and_iff_right hne]
  refine forall₄_congr fun f hf g hg => ?_
  rw [uniqueDigests_writtenTo (h f hf), uniqueDigests_writtenTo (h g hg)]

/-- The digits of ASCII and of Arabic. -/
def arabicDigits : Digits where
  isDigit c := c.isDigit || (0x660 ≤ c.val && c.val ≤ 0x669)
  ascii c hc := by
    have hlow : ¬ 0x660 ≤ c.val := UInt32.not_le.mpr (UInt32.lt_trans hc (by decide))
    simp [hlow]

/-- The lines of a node that has logged two payloads, the first of them again in the next epoch. -/
def twoPayloads : List LogLine :=
  [.commitBlock 1 4, .commitBlock 2 5, .commitConsensusBlock 0 2, .commitBlock 1 4]

/-- The logs of a node that has logged them all and of one that has logged a part. -/
def twoLogs (part : List LogLine) (f : Bool) : List LogLine :=
  if f = true then twoPayloads else part

/-- A log that ends before the second payload is accepted, and one without the first is not. -/
theorem accepts_iff_same_order_two :
    compareDigestSequences arabicDigits
      (fun f => (twoLogs (twoPayloads.take 1) f).map (LogLine.text [])) [true, false] = some true ∧
    compareDigestSequences arabicDigits
      (fun f => (twoLogs twoPayloads.tail f).map (LogLine.text [])) [true, false] ≠ some true := by
  have hwritten : ∀ part, ∀ f ∈ [true, false],
      WrittenTo arabicDigits (twoLogs part f) ((twoLogs part f).map (LogLine.text [])) :=
    fun _ _ _ => writtenTo_map_text _ List.not_mem_nil
  constructor
  · refine (accepts_iff_same_order (by decide) (hwritten _)).mpr ?_
    decide +kernel
  · intro h
    have horder := (accepts_iff_same_order (by decide) (hwritten _)).mp h
    revert horder
    decide +kernel

end SMVBA.Consistency
