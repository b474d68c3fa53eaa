import RownRg.Core.State

/-! The stored bodies laid over the candidates before assembly. -/

open PyText

namespace RownRg.Workflows

variable {ι : Type} [DecidableEq ι]

/-- `state.record_selection`. -/
def recordSelection (s : ProjectState ι) (sectionId candidateId : ι) : ProjectState ι :=
  { s with sectionSelections := s.sectionSelections ++ [(sectionId, candidateId)] }

def withContent (d : SectionDraft ι) (content : Text) (cited : List ι) : SectionDraft ι :=
  { d with content := content, citedChunkIds := cited }

/-- The loop over the plan: the sets still unvisited, the sets built so far and the state with the
selections recorded so far. `uuid4` is the candidate id drawn for a section without candidates. -/
structure Overlay (ι : Type) where
  bySec : List (ι × SectionCandidateSet ι)
  newSets : List (SectionCandidateSet ι)
  updated : ProjectState ι

/-- A section's candidates under its stored row, with the candidate to select if it is new. -/
def overlaySet (uuid4 : ι → ι) (sectionId : ι) (content : Text) (cited : List ι) :
    Option (SectionCandidateSet ι) → SectionCandidateSet ι × Option ι
  | some ⟨csetId, c :: cs⟩ =>
    (⟨csetId, (c :: cs).map fun c => { c with draft := withContent c.draft content cited }⟩, none)
  | _ =>
    let cand := ⟨uuid4 sectionId, ⟨sectionId, content, cited, [], false, false⟩⟩
    (⟨sectionId, [cand]⟩, some cand.candidateId)

/-- One planned section: the stored row replaces every candidate's draft, or becomes a selected
candidate where there is none. -/
def overlaySection (uuid4 : ι → ι) (working : List (ι × Text × List ι)) (o : Overlay ι)
    (sectionId : ι) : Overlay ι :=
  let bySec := o.bySec.filter fun x => x.1 ≠ sectionId
  match lastFor sectionId working with
  | none => { o with bySec, newSets := o.newSets ++ (lastFor sectionId o.bySec).toList }
  | some (content, cited) =>
    if (strip content).isEmpty then
      { o with bySec, newSets := o.newSets ++ (lastFor sectionId o.bySec).toList }
    else
      let placed := overlaySet uuid4 sectionId content cited (lastFor sectionId o.bySec)
      { bySec
        newSets := o.newSets ++ [placed.1]
        updated := placed.2.elim o.updated (recordSelection o.updated sectionId) }

/-- The candidate sets by section; of several sets of one section the last stays. -/
def setsBySection (sets : List (SectionCandidateSet ι)) : List (ι × SectionCandidateSet ι) :=
  (sets.map (·.sectionId)).eraseDups.filterMap fun id =>
    (lastFor id (sets.map fun cs => (cs.sectionId, cs))).map fun cs => (id, cs)

/-- Rows of the section table win over the candidates in memory. -/
def overlayWorkingCopy (uuid4 : ι → ι) (s : ProjectState ι) (working : List (ι × Text × List ι)) :
    ProjectState ι :=
  if working.isEmpty && s.sectionCandidates.isEmpty then s
  else
    let o := s.sectionPlan.foldl (overlaySection uuid4 working)
      ⟨setsBySection s.sectionCandidates, [], s⟩
    { o.updated with sectionCandidates := o.newSets ++ o.bySec.map (·.2) }

variable {uuid4 : ι → ι} {working : List (ι × Text × List ι)} {s : ProjectState ι}
  {o : Overlay ι} {sectionId : ι} {content : Text} {cited : List ι}

/-- The drafts of a section that has a stored body carry exactly that body. -/
def CarriesRows (working : List (ι × Text × List ι)) (cs : SectionCandidateSet ι) : Prop :=
  ∀ content cited, lastFor cs.sectionId working = some (content, cited) →
    (strip content).isEmpty = false →
    ∀ c ∈ cs.candidates, c.draft.content = content ∧ c.draft.citedChunkIds = cited

/-- The sets are filed under their own section. -/
def Filed (o : Overlay ι) : Prop := ∀ x ∈ o.bySec, x.2.sectionId = x.1

theorem filed_lastFor {cs : SectionCandidateSet ι} (h : Filed o)
    (hcs : lastFor sectionId o.bySec = some cs) : cs.sectionId = sectionId :=
  h _ (mem_of_lastFor hcs)

theorem bySec_overlaySection :
    (overlaySection uuid4 working o sectionId).bySec = o.bySec.filter fun x => x.1 ≠ sectionId := by
  unfold overlaySection
  split
  · rfl
  · split <;> rfl

omit [DecidableEq ι] in
theorem overlaySet_spec (uuid4 : ι → ι) (content : Text) (cited : List ι)
    {cset : Option (SectionCandidateSet ι)}
    (h : ∀ cs ∈ cset, cs.sectionId = sectionId) :
    (overlaySet uuid4 sectionId content cited cset).1.sectionId = sectionId ∧
      ∀ c ∈ (overlaySet uuid4 sectionId content cited cset).1.candidates,
        c.draft.content = content ∧ c.draft.citedChunkIds = cited := by
  unfold overlaySet
  split
  · rename_i csetId c cs
    exact ⟨h ⟨csetId, c :: cs⟩ rfl, by simp [withContent]⟩
  · exact ⟨rfl, by simp⟩

/-- One more planned section keeps the sets built so far in line with the rows. -/
theorem carriesRows_overlaySection (hf : Filed o) (h : ∀ cs ∈ o.newSets, CarriesRows working cs) :
    ∀ cs ∈ (overlaySection uuid4 working o sectionId).newSets, CarriesRows working cs := by
  have hid : ∀ cs ∈ lastFor sectionId o.bySec, cs.sectionId = sectionId :=
    fun cs hcs => filed_lastFor hf hcs
  intro cs hcs content' cited' hw hne
  unfold overlaySection at hcs
  split at hcs
  · rename_i hrow
    rcases List.mem_append.mp hcs with hcs | hcs
    · exact h cs hcs content' cited' hw hne
    · rw [hid cs (by simpa using hcs), hrow] at hw
      cases hw
  · rename_i content cited hrow
    split at hcs
    · rename_i hblank
      rcases List.mem_append.mp hcs with hcs | hcs
      · exact h cs hcs content' cited' hw hne
      · rw [hid cs (by simpa using hcs), hrow] at hw
        obtain ⟨rfl, rfl⟩ : content = content' ∧ cited = cited' := by simpa using hw
        simp [hblank] at hne
    · rcases List.mem_append.mp hcs with hcs | hcs
      · exact h cs hcs content' cited' hw hne
      · obtain rfl := List.mem_singleton.mp hcs
        obtain ⟨hsec, hcands⟩ := overlaySet_spec uuid4 content cited hid
        rw [hsec, hrow] at hw
        obtain ⟨rfl, rfl⟩ : content = content' ∧ cited = cited' := by simpa using hw
        exact hcands

theorem filed_setsBySection (sets : List (SectionCandidateSet ι)) :
    ∀ x ∈ setsBySection sets, x.2.sectionId = x.1 := by
  intro x hx
  obtain ⟨id, -, hid⟩ := List.mem_filterMap.mp hx
  obtain ⟨cs, hcs, rfl⟩ := Option.map_eq_some_iff.mp hid
  obtain ⟨cs', -, heq⟩ := List.mem_map.mp (mem_of_lastFor hcs)
  obtain ⟨rfl, rfl⟩ := Prod.mk.inj heq
  rfl

/-- The whole pass over the plan. -/
theorem overlay_plan (uuid4 : ι → ι) (plan : List ι) (hf : Filed o) (h : ∀ cs ∈ o.newSets, CarriesRows working cs) :
    let o' := plan.foldl (overlaySection uuid4 working) o
    Filed o' ∧ (∀ cs ∈ o'.newSets, CarriesRows working cs) ∧
      ∀ x ∈ o'.bySec, x ∈ o.bySec ∧ x.1 ∉ plan := by
  induction plan generalizing o with
  | nil => exact ⟨hf, h, fun x hx => ⟨hx, by simp⟩⟩
  | cons sectionId plan ih =>
    have hf' : Filed (overlaySection uuid4 working o sectionId) := by
      intro x hx
      rw [bySec_overlaySection] at hx
      exact hf x (List.mem_of_mem_filter hx)
    obtain ⟨hfiled, hcarries, hleft⟩ := ih hf' (carriesRows_overlaySection hf h)
    refine ⟨hfiled, hcarries, fun x hx => ?_⟩
    obtain ⟨hmem, hplan⟩ := hleft x hx
    rw [bySec_overlaySection, List.mem_filter] at hmem
    simp_all

/-- After the overlay every candidate of a planned section with a stored body is that body. -/
theorem overlayWorkingCopy_carries {cs : SectionCandidateSet ι}
    (hcs : cs ∈ (overlayWorkingCopy uuid4 s working).sectionCandidates)
    (hplan : cs.sectionId ∈ s.sectionPlan) : CarriesRows working cs := by
  unfold overlayWorkingCopy at hcs
  split at hcs
  · rename_i hempty
    have hnil : s.sectionCandidates = [] := by simp_all
    simp [hnil] at hcs
  · obtain ⟨hfiled, hcarries, hleft⟩ := 
      overlay_plan (o := ⟨setsBySection s.sectionCandidates, [], s⟩) uuid4 s.sectionPlan
        (filed_setsBySection _) (by simp)
    rcases List.mem_append.mp hcs with hcs | hcs
    · exact hcarries cs hcs
    · obtain ⟨x, hx, rfl⟩ := List.mem_map.mp hcs
      rw [hfiled x hx] at hplan
      exact absurd hplan (hleft x hx).2

end RownRg.Workflows
