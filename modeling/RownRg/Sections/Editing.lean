import RownRg.Lib.Fallible
import RownRg.Core.Renumbering
import RownRg.Sections.Evidence
import RownRg.Workflows.WorkingCopy

/-! Manual saves and block rewrites of a stored section. -/

open PyText Fallible RownRg.Citations RownRg.Workflows

namespace RownRg.Sections

variable {ι : Type} {orig row row' : Section ι} {n : Nat} {c : ι}

/-- `MAX_SECTION_CHARS`. -/
def maxSectionChars : Nat := 200000

inductive EditError where
  | requestInvalid
  | sectionLocked (chapterNumber sectionNumber : Nat)
  | blockNotFound
  | blockIsChart
  | blockRewriteEmpty

def EditError.code : EditError → String
  | .requestInvalid => "VALIDATION_ERROR"
  | .sectionLocked .. => "SECTION_LOCKED"
  | .blockNotFound => "BLOCK_NOT_FOUND"
  | .blockIsChart => "BLOCK_IS_CHART"
  | .blockRewriteEmpty => "BLOCK_REWRITE_EMPTY"

def ensureUnlocked (row : Section ι) : Except EditError Unit :=
  require (!row.locked) (.sectionLocked row.chapterNumber row.sectionNumber)

/-- A manual save replaces the body; a locked section may be saved too. -/
def updateSectionContent (row : Section ι) (content : Text) : Except EditError (Section ι) := do
  require (content.length ≤ maxSectionChars) .requestInvalid
  return { row with content, completed := true }

/-- Replaces the first occurrence of a block by what the rewriter returned for it. -/
def rewriteSectionBlock (row : Section ι) (block newBlock : Text) :
    Except EditError (Section ι) := do
  require (1 ≤ block.length && block.length ≤ maxSectionChars) .requestInvalid
  ensureUnlocked row
  require (contains block row.content) .blockNotFound
  require (!Charts.hasChartFence block) .blockIsChart
  require (!(strip newBlock).isEmpty) .blockRewriteEmpty
  let lost := row.sectionMeta.evidenceLost.filter fun p => !contains p.text block
  return { row with
    content := replaceFirst block newBlock row.content
    sectionMeta := { row.sectionMeta with evidenceLost := lost } }

inductive Edit where
  | save (content : Text)
  | rewriteBlock (block newBlock : Text)

def applyEdit (row : Section ι) : Edit → Except EditError (Section ι)
  | .save content => updateSectionContent row content
  | .rewriteBlock block newBlock => rewriteSectionBlock row block newBlock

/-- The rows that edits lead to while the body has no number that the original body lacks. -/
inductive Edited (orig : Section ι) : Section ι → Prop
  | start : Edited orig orig
  | edit {row row' : Section ι} (h : Edited orig row) (e : Edit) (happly : applyEdit row e = .ok row')
      (hnumbers : ∀ n ∈ numbersInOrder row'.content, n ∈ numbersInOrder orig.content) :
      Edited orig row'

/-- The numbers of the body pair off with the stored ids, and no other record exists yet. -/
structure Positional (row : Section ι) : Prop where
  covered : (numbersInOrder row.content).length = row.sourceIds.length
  unrecorded : row.sectionMeta.citationChunks = []

/-- The chunk a number of the body stands for. -/
def denotes (row : Section ι) (n : Nat) : Option ι :=
  ((numbersInOrder row.content).zip row.sourceIds).lookup n

/-- An edit never touches the stored ids or the recorded chunks. -/
theorem applyEdit_frame {e : Edit} (h : applyEdit row e = .ok row') :
    row'.id = row.id ∧ row'.sourceIds = row.sourceIds ∧
      row'.sectionMeta.citationChunks = row.sectionMeta.citationChunks := by
  cases e with
  | save content =>
    simp only [applyEdit, updateSectionContent, bind_eq_ok, pure, Except.pure] at h
    obtain ⟨-, -, h⟩ := h
    cases h
    exact ⟨rfl, rfl, rfl⟩
  | rewriteBlock block newBlock =>
    simp only [applyEdit, rewriteSectionBlock, bind_eq_ok, pure, Except.pure] at h
    obtain ⟨-, -, -, -, -, -, -, -, -, -, h⟩ := h
    cases h
    exact ⟨rfl, rfl, rfl⟩

theorem edited_frame (h : Edited orig row) :
    row.id = orig.id ∧ row.sourceIds = orig.sourceIds ∧
      row.sectionMeta.citationChunks = orig.sectionMeta.citationChunks := by
  induction h with
  | start => exact ⟨rfl, rfl, rfl⟩
  | edit _ e happly _ ih =>
    obtain ⟨hid, hids, hchunks⟩ := applyEdit_frame happly
    exact ⟨hid.trans ih.1, hids.trans ih.2.1, hchunks.trans ih.2.2⟩

theorem edited_numbers (h : Edited orig row) :
    ∀ n ∈ numbersInOrder row.content, n ∈ numbersInOrder orig.content := by
  cases h with
  | start => exact fun _ hn => hn
  | edit _ _ _ hnumbers => exact hnumbers

theorem denotes_isSome (h : Positional orig) (hn : n ∈ numbersInOrder orig.content) :
    (denotes orig n).isSome := by
  have hmap : ((numbersInOrder orig.content).zip orig.sourceIds).map Prod.fst =
      numbersInOrder orig.content := List.map_fst_zip (le_of_eq h.covered)
  by_contra hnone
  simp only [denotes, Option.not_isSome_iff_eq_none, List.lookup_eq_none_iff] at hnone
  rw [← hmap, List.mem_map] at hn
  obtain ⟨x, hx, rfl⟩ := hn
  simpa using hnone x hx

/-- The numbers of the original body stand for the stored chunks, in order. -/
theorem denoted_chunks (h : Positional orig) :
    (numbersInOrder orig.content).filterMap (denotes orig) = orig.sourceIds := by
  have hsome : ∀ n ∈ numbersInOrder orig.content, (denotes orig n).isSome :=
    fun n hn => denotes_isSome h hn
  have hprefix := (Pairing.zip_prefix_iff orig.sourceIds
    (nodup_numbersInOrder orig.content) hsome).mp fun _ _ => rfl
  refine hprefix.eq_of_length ?_
  rw [← h.covered, List.length_filterMap_eq_countP, List.countP_eq_length.mpr]
  exact hsome

/-- A body with a mark is not blank. -/
theorem not_blank_of_mem (hn : n ∈ numbersInOrder row.content) :
    (strip row.content).isEmpty = false := by
  obtain ⟨c, hc, hspace⟩ := exists_not_isSpace hn
  by_contra hblank
  have hall := isSpace_of_strip (by simpa using hblank) c hc
  simp [hall] at hspace

/-- What assembly takes a number of a stored section for: in every state whose plan has the section,
with its row laid over the candidates, each draft of the section sends the number to the source of
the chunk. -/
def AssembledAs [DecidableEq ι] (row : Section ι) (n : Nat) (c : ι) : Prop :=
  ∀ (uuid4 : ι → ι) (s : ProjectState ι) (working : List (ι × Text × List ι)),
    row.id ∈ s.sectionPlan → lastFor row.id working = some (row.content, row.sourceIds) →
    ∀ cs ∈ (overlayWorkingCopy uuid4 s working).sectionCandidates, cs.sectionId = row.id →
    ∀ cand ∈ cs.candidates, ∀ chunkToGlobal : ι → Option Nat,
      (localToGlobal cand.draft.content cand.draft.citedChunkIds chunkToGlobal).lookup n =
        chunkToGlobal c

/-- Every number left in the edited body is traced to the chunk it stood for originally, on the
evidence screen and at assembly. -/
def Truthful [DecidableEq ι] (orig row : Section ι) : Prop :=
  ∀ n ∈ numbersInOrder row.content, ∀ c, denotes orig n = some c →
    (markerChunkIds row.content row.sourceIds row.sectionMeta false).1.lookup n = some [c] ∧
      AssembledAs row n c

/-- The chunks behind the numbers left, in the order of first appearance, open the stored list. -/
def KeepsOrder (orig row : Section ι) : Prop :=
  (numbersInOrder row.content).filterMap (denotes orig) <+: orig.sourceIds

theorem assembledAs_of_denotes [DecidableEq ι] (hn : n ∈ numbersInOrder row.content)
    (h : denotes row n = some c) : AssembledAs row n c := by
  intro uuid4 s working hplan hrow cs hcs hid cand hcand chunkToGlobal
  have hcarries := overlayWorkingCopy_carries hcs (hid ▸ hplan)
  obtain ⟨hcontent, hcited⟩ := hcarries _ _ (hid ▸ hrow) (not_blank_of_mem hn) cand hcand
  rw [hcontent, hcited, lookup_localToGlobal]
  simpa [denotes] using congrArg (Option.bind · chunkToGlobal) h

/-- The stored row stays truthful through manual saves and block rewrites if and only if the numbers
left still run through the stored chunks from the start; where the chunks are distinct, if and only
if they are the first numbers of the original body in their original order. -/
theorem truthful_iff [DecidableEq ι] (hpos : Positional orig) (h : Edited orig row) :
    (Truthful orig row ↔ KeepsOrder orig row) ∧
      (orig.sourceIds.Nodup →
        (Truthful orig row ↔ numbersInOrder row.content <+: numbersInOrder orig.content)) := by
  obtain ⟨hid, hids, hchunks⟩ := edited_frame h
  have hsome : ∀ n ∈ numbersInOrder row.content, (denotes orig n).isSome :=
    fun n hn => denotes_isSome hpos (edited_numbers h n hn)
  have hprefix := Pairing.zip_prefix_iff orig.sourceIds
    (nodup_numbersInOrder row.content) hsome
  have hlookup : Truthful orig row ↔ ∀ n ∈ numbersInOrder row.content,
      denotes row n = denotes orig n := by
    constructor
    · intro ht n hn
      obtain ⟨c, hc⟩ := Option.isSome_iff_exists.mp (hsome n hn)
      have hev := (ht n hn c hc).1
      rw [lookup_markerChunkIds (hchunks.trans hpos.unrecorded), Option.map_eq_some_iff] at hev
      obtain ⟨c', hc', hcc⟩ := hev
      rw [hc, denotes, hc', List.singleton_inj.mp hcc]
    · intro heq n hn c hc
      have hrow := (heq n hn).trans hc
      refine ⟨?_, assembledAs_of_denotes hn hrow⟩
      rw [lookup_markerChunkIds (hchunks.trans hpos.unrecorded)]
      exact congrArg (Option.map fun c => [c]) hrow
  have hiff : Truthful orig row ↔ KeepsOrder orig row := by
    rw [hlookup, KeepsOrder, ← hprefix]
    unfold denotes
    rw [hids]
  refine ⟨hiff, fun hnodup => ?_⟩
  rw [hiff, KeepsOrder, ← denoted_chunks hpos]
  refine Pairing.filterMap_prefix_iff hsome (fun n hn => denotes_isSome hpos hn) ?_
  intro n hn m hm heq
  obtain ⟨c, hc⟩ := Option.isSome_iff_exists.mp (hsome n hn)
  exact Pairing.lookup_zip_injective hnodup hc (heq.symm.trans hc)

/-- A section that cites two chunks. -/
def twoMarks : Section Nat :=
  ⟨0, 1, 1, "가 (출처 1) 나 (출처 2)".toList, [10, 20], .empty, false, true⟩

theorem twoMarks_positional : Positional twoMarks := ⟨by decide, rfl⟩

theorem twoMarks_edited (content : Text)
    (h : ∀ n ∈ numbersInOrder content, n ∈ numbersInOrder twoMarks.content)
    (hlen : content.length ≤ maxSectionChars) :
    Edited twoMarks { twoMarks with content, completed := true } :=
  .edit .start (.save content) (by simp [applyEdit, updateSectionContent, require, hlen]) h

/-- The first mark stays and the second goes: the condition holds. -/
theorem truthful_twoMarks :
    (Truthful twoMarks { twoMarks with content := "가 (출처 1) 나".toList, completed := true } ↔
      KeepsOrder twoMarks { twoMarks with content := "가 (출처 1) 나".toList, completed := true }) ∧
    (twoMarks.sourceIds.Nodup →
      (Truthful twoMarks { twoMarks with content := "가 (출처 1) 나".toList, completed := true } ↔
        numbersInOrder "가 (출처 1) 나".toList <+: numbersInOrder twoMarks.content)) :=
  truthful_iff twoMarks_positional
    (twoMarks_edited "가 (출처 1) 나".toList (by decide) (by decide))

/-- Deleting the sentence of the first mark moves the second to the first chunk. -/
theorem not_truthful_first_mark_deleted :
    ¬ ∀ orig row : Section Nat, Positional orig → Edited orig row → Truthful orig row := by
  intro h
  have ht := h twoMarks _ twoMarks_positional
    (twoMarks_edited "나 (출처 2)".toList (by decide) (by decide))
  have hev := (ht 2 (by decide) 20 (by decide)).1
  revert hev
  decide

end RownRg.Sections
