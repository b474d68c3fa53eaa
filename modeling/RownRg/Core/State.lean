import Mathlib.Data.List.Nodup
import RownRg.Lib.Text

/-! The records of one report: chunks, drafts, candidates and the project state. -/

open PyText

namespace RownRg

/-- A retrieved chunk; a summary is never citable. -/
structure RetrievedChunk (ι : Type) where
  chunkId : ι
  content : Text
  isSummary : Bool

/-- A written section. The pool is what the writer was shown, in marker order. -/
structure SectionDraft (ι : Type) where
  sectionId : ι
  content : Text
  citedChunkIds : List ι
  poolChunkIds : List ι
  splitFallback : Bool
  volumeScaled : Bool

structure SectionCandidate (ι : Type) where
  candidateId : ι
  draft : SectionDraft ι

structure SectionCandidateSet (ι : Type) where
  sectionId : ι
  candidates : List (SectionCandidate ι)

/-- A paragraph that lost marks, as it reads now. -/
structure LostParagraph where
  text : Text
  nMarkers : Nat

/-- The record a section carries beside its body. -/
structure SectionMeta (ι : Type) where
  citationChunks : List (Nat × List ι)
  poolChunkIds : List ι
  evidenceLost : List LostParagraph
  planFailed : Bool
  volumeScaled : Bool
  evidenceCount : Nat

def SectionMeta.empty {ι : Type} : SectionMeta ι := ⟨[], [], [], false, false, 0⟩

/-- A stored section. -/
structure Section (ι : Type) where
  id : ι
  chapterNumber : Nat
  sectionNumber : Nat
  content : Text
  sourceIds : List ι
  sectionMeta : SectionMeta ι
  locked : Bool
  completed : Bool

structure ProjectState (ι : Type) where
  sectionPlan : List ι
  sectionCandidates : List (SectionCandidateSet ι)
  sectionSelections : List (ι × ι)
  sectionMeta : List (ι × SectionMeta ι)

variable {ι : Type} [DecidableEq ι]

/-- A dictionary read: the entry written last. -/
def lastFor {α : Type} (key : ι) (entries : List (ι × α)) : Option α := entries.reverse.lookup key

theorem mem_of_lastFor {α : Type} {key : ι} {x : α} {entries : List (ι × α)}
    (h : lastFor key entries = some x) : (key, x) ∈ entries := by
  obtain ⟨l₁, l₂, hl, -⟩ := List.lookup_eq_some_iff.mp h
  rw [← List.mem_reverse, hl]
  simp

theorem lastFor_isSome {α : Type} {key : ι} {x : α} {entries : List (ι × α)}
    (h : (key, x) ∈ entries) : (lastFor key entries).isSome := by
  by_contra hnone
  rw [Bool.not_eq_true, Option.isSome_eq_false_iff, Option.isNone_iff_eq_none, lastFor,
    List.lookup_eq_none_iff] at hnone
  simpa using hnone (key, x) (List.mem_reverse.mpr h)

/-- A dictionary read where all entries of the key agree. -/
theorem lastFor_of_mem {α : Type} {key : ι} {x : α} {entries : List (ι × α)}
    (hfun : ∀ y, (key, y) ∈ entries → y = x) (h : (key, x) ∈ entries) :
    lastFor key entries = some x := by
  obtain ⟨y, hy⟩ := Option.isSome_iff_exists.mp (lastFor_isSome h)
  rw [hy, hfun y (mem_of_lastFor hy)]

/-- A dictionary read of entries with pairwise distinct keys. -/
theorem lastFor_eq_some {α : Type} {key : ι} {x : α} {entries : List (ι × α)}
    (hkeys : (entries.map Prod.fst).Nodup) : lastFor key entries = some x ↔ (key, x) ∈ entries := by
  refine ⟨mem_of_lastFor, fun h => lastFor_of_mem (fun y hy => ?_) h⟩
  have heq := List.inj_on_of_nodup_map hkeys hy h rfl
  exact (Prod.mk.inj heq).2

section LastFor

variable {α : Type} {id x : ι} {l l₁ l₂ : List (ι × α)}

theorem lastFor_eq_none_iff : lastFor id l = none ↔ ∀ y ∈ l, y.1 ≠ id := by
  simp only [lastFor, List.lookup_eq_none_iff, List.mem_reverse, bne_iff_ne, ne_comm]

theorem lastFor_append : lastFor id (l₁ ++ l₂) = (lastFor id l₂).or (lastFor id l₁) := by
  simp only [lastFor, List.reverse_append, List.lookup_append]

theorem lastFor_append_of_forall_ne (h : ∀ y ∈ l₂, y.1 ≠ id) :
    lastFor id (l₁ ++ l₂) = lastFor id l₁ := by
  rw [lastFor_append, lastFor_eq_none_iff.2 h, Option.none_or]

theorem lastFor_append_self (a : α) : lastFor id (l₁ ++ [(id, a)]) = some a := by
  simp [lastFor]

theorem lastFor_filter_self : lastFor id (l.filter fun y => y.1 ≠ id) = none := by
  refine lastFor_eq_none_iff.2 fun y hy => ?_
  simpa using (List.mem_filter.mp hy).2

theorem lastFor_filter_ne (h : id ≠ x) :
    lastFor id (l.filter fun y => y.1 ≠ x) = lastFor id l := by
  simp only [lastFor, ← List.filter_reverse]
  induction l.reverse with
  | nil => rfl
  | cons y l ih =>
    obtain ⟨k, a⟩ := y
    by_cases hk : k = x
    · have hne : (id == x) = false := beq_eq_false_iff_ne.mpr h
      simpa [List.lookup_cons, hk, hne] using ih
    · by_cases hid : id = k
      · simp [hid, hk]
      · have hne : (id == k) = false := beq_eq_false_iff_ne.mpr hid
        simpa [List.lookup_cons, hk, hne] using ih

end LastFor

/-- The drafts of the selected candidates, in the order of the plan. -/
def ProjectState.selectedDrafts (s : ProjectState ι) : List (SectionDraft ι) :=
  s.sectionPlan.filterMap fun sectionId =>
    match lastFor sectionId s.sectionSelections,
        lastFor sectionId (s.sectionCandidates.map fun cs => (cs.sectionId, cs)) with
    | some chosen, some cset =>
      (cset.candidates.find? fun cand => cand.candidateId = chosen).map (·.draft)
    | _, _ => none

end RownRg
