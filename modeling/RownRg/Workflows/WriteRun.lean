import RownRg.Lib.Fallible
import RownRg.Sections.Renumber
import RownRg.Sections.Store
import RownRg.Workflows.RowWins

/-! A run from its first section to the stored report: what it keeps, writes and replaces. -/

open PyText RownRg.SectionPlan RownRg.Sections RownRg.Workflows

namespace RownRg.WriteRun

/-- The part of the project state that a run carries. -/
structure RunState where
  sectionPlan : List SectionPlan
  sectionCandidates : List (SectionCandidateSet Uuid)
  sectionSelections : List (Uuid × Uuid)
  sectionMeta : List (Uuid × RowMeta)

/-- What a run is told from outside: the hash of a plan, the source number of a chunk, the clean-up
of a text, fresh candidate ids, the chapter titles of the preset, which candidates pass the checks
and which with warnings, and the time. -/
structure Env (δ : Type) where
  digest : Json → δ
  toGlobal : Uuid → Option Nat
  scrub : Text → Text
  uuid4 : Uuid → Uuid
  presetTitles : List Text
  survives : Uuid → Bool
  warned : Uuid → Bool
  now : Nat

variable {δ : Type} {env : Env δ} {s s' : RunState} {plan : List SectionPlan} {p : SectionPlan}
  {rows : List (SectionRow δ)} {r : SectionRow δ} {t t' : SectionTable δ} {row : SectionRow δ} {id : Uuid} {key : Text}

def citationChunksKey : Text := "citation_chunks".toList

def writeFailedKey : Text := "write_failed".toList

/-- The state as the passes over candidates see it. -/
def RunState.core (s : RunState) : ProjectState Uuid :=
  ⟨s.sectionPlan.map (·.sectionId), s.sectionCandidates, s.sectionSelections, []⟩

/-- `state.section_meta.get(id) or {}` -/
def RunState.metaOf (s : RunState) (id : Uuid) : RowMeta := (lastFor id s.sectionMeta).getD []

/-! Assembly: the rows over the candidates, then the numbers of the whole report. -/

def workingCopy (rows : List (SectionRow δ)) : List (Uuid × Text × List Uuid) :=
  rows.map fun r => (r.id, r.content, r.sourceIds)

def RunState.overlay (uuid4 : Uuid → Uuid) (rows : List (SectionRow δ)) (s : RunState) : RunState :=
  let o := overlayWorkingCopy uuid4 s.core (workingCopy rows)
  { s with sectionCandidates := o.sectionCandidates, sectionSelections := o.sectionSelections }

def citedChunks (s : RunState) : List Uuid := s.core.selectedDrafts.flatMap (·.citedChunkIds)

/-- Only chunks that a selected draft cites have a number. -/
def chunkNumber (env : Env δ) (s : RunState) (c : Uuid) : Option Nat :=
  if c ∈ citedChunks s then env.toGlobal c else none

def renumberDraft (env : Env δ) (s : RunState) (d : SectionDraft Uuid) :
    Option (SectionDraft Uuid) := do
  let content ← renumberContent d.content d.citedChunkIds (chunkNumber env s)
  return { d with content := env.scrub content }

def isChosen (s : RunState) (cset : SectionCandidateSet Uuid) (cand : SectionCandidate Uuid) :
    Bool :=
  lastFor cset.sectionId s.sectionSelections = some cand.candidateId

def renumberCandidate (env : Env δ) (s : RunState) (cset : SectionCandidateSet Uuid)
    (cand : SectionCandidate Uuid) : Option (SectionCandidate Uuid) :=
  if isChosen s cset cand then
    (renumberDraft env s cand.draft).map fun draft => { cand with draft }
  else some cand

/-- A set with a new form of each candidate. -/
def rewriteSet (g : SectionCandidate Uuid → Option (SectionCandidate Uuid))
    (cset : SectionCandidateSet Uuid) : Option (SectionCandidateSet Uuid) := do
  let candidates ← cset.candidates.mapM g
  return { cset with candidates }

def renumberSet (env : Env δ) (s : RunState) (cset : SectionCandidateSet Uuid) :
    Option (SectionCandidateSet Uuid) :=
  rewriteSet (renumberCandidate env s cset) cset

/-- `{str(g): [str(c), ...]}`, by number -/
def chunkMapJson (mapping : List (Nat × List Uuid)) : Json :=
  .obj ((mapping.mergeSort fun x y => x.1 ≤ y.1).map fun x =>
    (ofNat x.1, .texts (x.2.map Uuid.str)))

/-- The chunks behind the new numbers, beside what the section had on record. -/
def chunkMeta (env : Env δ) (s : RunState) (cset : SectionCandidateSet Uuid) :
    List (Uuid × RowMeta) :=
  (cset.candidates.filter (isChosen s cset)).map fun cand =>
    (cset.sectionId, setKey (s.metaOf cset.sectionId) citationChunksKey
      (chunkMapJson (citationChunkMap cand.draft.content cand.draft.citedChunkIds
        (chunkNumber env s))))

/-- No chunk of the report has a number. -/
def unnumbered (env : Env δ) (s : RunState) : Bool :=
  (citedChunks s).all fun c => (env.toGlobal c).isNone

/-- Rewrites the selected drafts to source numbers; `none` where the chart pass raises. -/
def renumberState (env : Env δ) (s : RunState) : Option RunState :=
  if unnumbered env s then some s
  else do
    let sectionCandidates ← s.sectionCandidates.mapM (renumberSet env s)
    return { s with
      sectionCandidates
      sectionMeta := s.sectionMeta ++ s.sectionCandidates.flatMap (chunkMeta env s) }

/-- An assembly goes on with the local numbers where the new ones fail. -/
def assembled (env : Env δ) (rows : List (SectionRow δ)) (s : RunState) : RunState :=
  let o := s.overlay env.uuid4 rows
  (renumberState env o).getD o

/-- `f"{chapter_number}.{section_number}"` by section id -/
def refOf (s : RunState) (id : Uuid) : Option Text :=
  lastFor id (s.sectionPlan.map fun p =>
    (p.sectionId, BuildsOn.sectionLabel p.chapterNumber p.sectionNumber))

def compressCandidate (s : RunState) (contentByRef : List (Text × Text))
    (cset : SectionCandidateSet Uuid) (cand : SectionCandidate Uuid) : SectionCandidate Uuid :=
  if isChosen s cset cand then
    match (refOf s cset.sectionId).bind fun ref => contentByRef.lookup ref with
    | some content => { cand with draft := { cand.draft with content } }
    | none => cand
  else cand

/-- The selected drafts whose repeated paragraphs a model has rewritten get their new texts. -/
def compress (contentByRef : List (Text × Text)) (s : RunState) : RunState :=
  { s with
    sectionCandidates := s.sectionCandidates.map fun cset =>
      { cset with candidates := cset.candidates.map (compressCandidate s contentByRef cset) } }

/-! The section table. -/

/-- The first title that the plan has for a chapter, else that of the preset. -/
def chapterTitle (env : Env δ) (plan : List SectionPlan) (n : Nat) : Text :=
  match plan.find? fun p => p.chapterNumber = n && !p.chapterTitle.isEmpty with
  | some p => p.chapterTitle
  | none =>
    ((env.presetTitles.zipIdx 1).find? fun x => x.2 = n).elim (ofNat n ++ ['장']) (·.1)

def qaStatus (env : Env δ) (s : RunState) (id : Uuid) : QaStatus :=
  match lastFor id s.sectionSelections with
  | none => .pending
  | some chosen =>
    let cands := (s.sectionCandidates.filter fun cset => cset.sectionId = id).flatMap (·.candidates)
    if cands.any fun cand => cand.candidateId = chosen then
      if env.warned chosen then .failed else .passed
    else .pending

/-- The selected drafts by section; of several with one section id the last one counts. -/
def draftFor (s : RunState) (id : Uuid) : Option (SectionDraft Uuid) :=
  lastFor id (s.core.selectedDrafts.map fun d => (d.sectionId, d))

/-- A row has no lock of its own, and the fingerprint of the plan as it is now. -/
def rowOf (env : Env δ) (s : RunState) (p : SectionPlan) : SectionRow δ where
  id := p.sectionId
  chapterNumber := p.chapterNumber
  sectionNumber := p.sectionNumber
  chapterTitle := chapterTitle env s.sectionPlan p.chapterNumber
  title := p.title
  content := (draftFor s p.sectionId).elim [] (·.content)
  sourceIds := (draftFor s p.sectionId).elim [] (·.citedChunkIds)
  planHash := (draftFor s p.sectionId).map fun _ => contentFingerprint env.digest p
  locked := false
  rowMeta := s.metaOf p.sectionId
  qaStatus := qaStatus env s p.sectionId
  status :=
    if (draftFor s p.sectionId).isSome then .completed
    else if (Json.get (s.metaOf p.sectionId) writeFailedKey).truthy then .failed else .pending
  createdAt := env.now

/-- A row without a record takes over that of the row it replaces. -/
def withPrior (rows : List (SectionRow δ)) (row : SectionRow δ) : SectionRow δ :=
  if row.rowMeta.isEmpty then
    { row with rowMeta := (rows.find? fun r => r.id = row.id).elim [] (·.rowMeta) }
  else row

def newRows (env : Env δ) (s : RunState) (rows : List (SectionRow δ)) : List (SectionRow δ) :=
  s.sectionPlan.map fun p => withPrior rows (rowOf env s p)

/-- Replaces all rows; `none` where the database refuses the new ones. -/
def persistSections (env : Env δ) (s : RunState) (t : SectionTable δ) : Option (SectionTable δ) :=
  if h : ((newRows env s t.rows).map (·.id)).Nodup ∧
      ((newRows env s t.rows).map (·.position)).Nodup then
    some ⟨newRows env s t.rows, h.1, h.2⟩
  else none

/-- A section the write loop is done with: its record and its draft, if one survived. -/
structure DraftCall where
  plan : SectionPlan
  rowMeta : RowMeta
  draft : Option (SectionDraft Uuid)

def draftRow (env : Env δ) (plan : List SectionPlan) (call : DraftCall) : SectionRow δ where
  id := call.plan.sectionId
  chapterNumber := call.plan.chapterNumber
  sectionNumber := call.plan.sectionNumber
  chapterTitle := chapterTitle env plan call.plan.chapterNumber
  title := call.plan.title
  content := call.draft.elim [] (·.content)
  sourceIds := call.draft.elim [] (·.citedChunkIds)
  planHash := call.draft.map fun _ => contentFingerprint env.digest call.plan
  locked := false
  rowMeta := call.rowMeta
  qaStatus := .pending
  status := if call.draft.isSome then .writing else .failed
  createdAt := env.now

/-- The rows that a draft replaces: its own, and whatever stands at its position. -/
def replacedBy (call : DraftCall) (r : SectionRow δ) : Bool :=
  r.id = call.plan.sectionId || r.position = (call.plan.chapterNumber, call.plan.sectionNumber)

def persistDraftSection (env : Env δ) (plan : List SectionPlan) (call : DraftCall)
    (t : SectionTable δ) : SectionTable δ where
  rows := t.rows.filter (fun r => !replacedBy call r) ++ [draftRow env plan call]
  ids := by
    rw [List.map_append, List.nodup_append]
    refine ⟨t.ids.sublist (List.filter_sublist.map _), by simp, ?_⟩
    intro a ha b hb
    obtain ⟨r, hr, rfl⟩ := List.mem_map.mp ha
    obtain rfl : (draftRow env plan call).id = b := by simpa [eq_comm] using hb
    have hkept := (List.mem_filter.mp hr).2
    simp only [replacedBy, Bool.not_eq_eq_eq_not, Bool.not_true, Bool.or_eq_false_iff,
      decide_eq_false_iff_not] at hkept
    exact hkept.1
  positions := by
    rw [List.map_append, List.nodup_append]
    refine ⟨t.positions.sublist (List.filter_sublist.map _), by simp, ?_⟩
    intro a ha b hb
    obtain ⟨r, hr, rfl⟩ := List.mem_map.mp ha
    obtain rfl : (draftRow env plan call).position = b := by simpa [eq_comm] using hb
    have hkept := (List.mem_filter.mp hr).2
    simp only [replacedBy, Bool.not_eq_eq_eq_not, Bool.not_true, Bool.or_eq_false_iff,
      decide_eq_false_iff_not] at hkept
    exact hkept.2

/-! The start of a run: what an earlier one has finished is not written again. -/

def isWritten (r : SectionRow δ) : Bool := !(strip r.content).isEmpty

def doneRows (plan : List SectionPlan) (rows : List (SectionRow δ)) : List (SectionRow δ) :=
  rows.filter fun r => isWritten r && (plan.map (·.sectionId)).contains r.id

/-- Rows with a text that the plan does not know. -/
def orphans (plan : List SectionPlan) (rows : List (SectionRow δ)) : List (SectionRow δ) :=
  rows.filter fun r => isWritten r && !(plan.map (·.sectionId)).contains r.id

def remaining (plan : List SectionPlan) (rows : List (SectionRow δ)) : List SectionPlan :=
  plan.filter fun p => !((doneRows plan rows).map (·.id)).contains p.sectionId

/-- The table is cleared only where it holds no text. -/
def cleaned (plan : List SectionPlan) (t : SectionTable δ) : SectionTable δ :=
  if (doneRows plan t.rows).isEmpty && (orphans plan t.rows).isEmpty then
    ⟨[], List.nodup_nil, List.nodup_nil⟩
  else t

/-- Candidate sets whose drafts belong to their section. -/
structure OwnSets where
  sets : List (SectionCandidateSet Uuid)
  own : ∀ cs ∈ sets, ∀ c ∈ cs.candidates, c.draft.sectionId = cs.sectionId

/-- What the write loop does with the sections it is given: it stores drafts, in whatever order,
and comes back with candidates and a record of each section. -/
structure LoopRun (sections : List SectionPlan) where
  calls : List DraftCall
  given : ∀ call ∈ calls, call.plan ∈ sections
  candidates : OwnSets
  sectionIds : candidates.sets.map (·.sectionId) = sections.map (·.sectionId)
  records : List (Uuid × RowMeta)
  recordIds : records.map Prod.fst = sections.map (·.sectionId)

/-- Takes the first candidate of each set that passes the checks. -/
def autoSelect (env : Env δ) (sets : List (SectionCandidateSet Uuid)) : List (Uuid × Uuid) :=
  sets.filterMap fun cset =>
    (cset.candidates.find? fun cand => env.survives cand.candidateId).map fun cand =>
      (cset.sectionId, cand.candidateId)

/-- How a run comes to the assembly: through the write stage, or at once. -/
inductive Entry (plan : List SectionPlan) (t : SectionTable δ) where
  | write (loop : LoopRun (remaining plan t.rows))
  | assembly (candidates : OwnSets) (selections : List (Uuid × Uuid))

variable {entry : Entry plan t}

/-- The table that the assembly finds. -/
def Entry.table (env : Env δ) : Entry plan t → SectionTable δ
  | .write loop => loop.calls.foldl
      (fun t' call => persistDraftSection env (remaining plan t.rows) call t') (cleaned plan t)
  | .assembly _ _ => t

/-- The state that the assembly is given; without a write stage no records come with it. -/
def Entry.state (env : Env δ) : Entry plan t → RunState
  | .write loop =>
    { sectionPlan := plan
      sectionCandidates := loop.candidates.sets
      sectionSelections := autoSelect env loop.candidates.sets
      sectionMeta := (doneRows plan t.rows).map (fun r => (r.id, r.rowMeta)) ++ loop.records }
  | .assembly candidates selections => ⟨plan, candidates.sets, selections, []⟩

/-- The table behind the run. -/
def Entry.stored (env : Env δ) (entry : Entry plan t) : Option (SectionTable δ) :=
  persistSections env (assembled env (entry.table env).rows (entry.state env)) (entry.table env)

/-! The drafts of a state, section by section. -/

variable {d d' : SectionDraft Uuid} {content : Text} {cited : List Uuid} {uuid4 : Uuid → Uuid}

theorem selectedDraft_overlay_eq : selectedDraft (s.overlay uuid4 rows).core id =
    selectedDraft (overlayWorkingCopy uuid4 s.core (workingCopy rows)) id := rfl

theorem lastFor_workingCopy (hids : (rows.map (·.id)).Nodup) (hr : r ∈ rows) :
    lastFor r.id (workingCopy rows) = some (r.content, r.sourceIds) := by
  have hkeys : ((workingCopy rows).map Prod.fst).Nodup := by
    simpa [workingCopy, Function.comp_def] using hids
  exact (lastFor_eq_some hkeys).mpr (List.mem_map.mpr ⟨r, hr, rfl⟩)

theorem writtenRow_workingCopy (hids : (rows.map (·.id)).Nodup) (hr : r ∈ rows)
    (hw : isWritten r) : writtenRow (workingCopy rows) r.id = some (r.content, r.sourceIds) := by
  rw [writtenRow, lastFor_workingCopy hids hr]
  simpa [isWritten] using hw

/-- The drafts of the planned sections belong to them. -/
def OwnDrafts (s : RunState) : Prop :=
  ∀ id ∈ s.sectionPlan.map (·.sectionId), ∀ d, selectedDraft s.core id = some d → d.sectionId = id

theorem draftFor_eq (hids : (s.sectionPlan.map (·.sectionId)).Nodup) (hown : OwnDrafts s)
    (hid : id ∈ s.sectionPlan.map (·.sectionId)) : draftFor s id = selectedDraft s.core id := by
  have hfiled : s.core.selectedDrafts.map (fun d => (d.sectionId, d)) =
      keyed (selectedDraft s.core) (s.sectionPlan.map (·.sectionId)) := by
    rw [selectedDrafts_eq, List.map_filterMap, keyed]
    refine List.filterMap_congr fun x hx => ?_
    cases h : selectedDraft s.core x with
    | none => rfl
    | some d => simp [hown x hx d h]
  have hkeys : ((keyed (selectedDraft s.core) (s.sectionPlan.map (·.sectionId))).map
      Prod.fst).Nodup := by
    rw [map_fst_keyed]
    exact hids.filter _
  refine Option.ext fun d => ?_
  rw [draftFor, hfiled, lastFor_eq_some hkeys, keyed, List.mem_filterMap]
  constructor
  · rintro ⟨x, -, hx⟩
    obtain ⟨d', hd', heq⟩ := Option.map_eq_some_iff.mp hx
    obtain ⟨rfl, rfl⟩ := Prod.mk.inj heq
    exact hd'
  · intro h
    exact ⟨id, hid, by simp [h]⟩

theorem ownDrafts_of_own {sets : List (SectionCandidateSet Uuid)}
    (hown : ∀ cs ∈ sets, ∀ c ∈ cs.candidates, c.draft.sectionId = cs.sectionId)
    (hs : s.sectionCandidates = sets) : OwnDrafts s := by
  intro id _ d hd
  obtain ⟨chosen, -, hd⟩ := Option.bind_eq_some_iff.mp hd
  obtain ⟨cset, hcset, hd⟩ := Option.bind_eq_some_iff.mp hd
  obtain ⟨c, hc, rfl⟩ := Option.map_eq_some_iff.mp hd
  obtain ⟨cs, hcs, heq⟩ := List.mem_map.mp (mem_of_lastFor hcset)
  obtain ⟨rfl, rfl⟩ := Prod.mk.inj heq
  exact hown cs (hs ▸ hcs) c (List.mem_of_find?_eq_some hc)

/-- The drafts that the rows give are those of the sections. -/
theorem ownDrafts_overlay (hids : (s.sectionPlan.map (·.sectionId)).Nodup) (hown : OwnDrafts s) :
    OwnDrafts (s.overlay uuid4 rows) := by
  intro id hid d hd
  have hcount : s.core.sectionPlan.count id = 1 := List.count_eq_one_of_mem hids hid
  cases hrow : writtenRow (workingCopy rows) id with
  | none =>
    rw [selectedDraft_overlay_eq, selectedDraft_overlay_none hid hrow] at hd
    exact hown id hid d hd
  | some row =>
    obtain ⟨content, cited⟩ := row
    rw [selectedDraft_overlay_eq] at hd
    by_cases hcand : HasCandidates s.core id
    · rw [selectedDraft_overlay_candidates hcount hcand hrow] at hd
      obtain ⟨d₀, hd₀, rfl⟩ := Option.map_eq_some_iff.mp hd
      exact hown id hid d₀ hd₀
    · rw [selectedDraft_overlay_fresh hid hrow fun _ => hcand] at hd
      obtain rfl := Option.some.inj hd
      rfl

theorem overlay_sectionPlan : (s.overlay uuid4 rows).sectionPlan = s.sectionPlan := rfl

/-- A selected section with a written row has the text of the row. -/
theorem selectedDraft_of_row (hids : (s.sectionPlan.map (·.sectionId)).Nodup)
    (hid : id ∈ s.sectionPlan.map (·.sectionId))
    (hrow : writtenRow (workingCopy rows) id = some (content, cited))
    (hd : selectedDraft (s.overlay uuid4 rows).core id = some d) :
    d.content = content ∧ d.citedChunkIds = cited := by
  have hcount : s.core.sectionPlan.count id = 1 := List.count_eq_one_of_mem hids hid
  rw [selectedDraft_overlay_eq] at hd
  by_cases hcand : HasCandidates s.core id
  · rw [selectedDraft_overlay_candidates hcount hcand hrow] at hd
    obtain ⟨d₀, -, rfl⟩ := Option.map_eq_some_iff.mp hd
    exact ⟨rfl, rfl⟩
  · rw [selectedDraft_overlay_fresh hid hrow fun _ => hcand] at hd
    obtain rfl := Option.some.inj hd
    exact ⟨rfl, rfl⟩

/-- A written row is selected unless its section has candidates of which none is. -/
theorem selected_of_row (hids : (s.sectionPlan.map (·.sectionId)).Nodup)
    (hid : id ∈ s.sectionPlan.map (·.sectionId))
    (hrow : writtenRow (workingCopy rows) id = some (content, cited))
    (h : HasCandidates s.core id → NamesCandidate s.core id) :
    (selectedDraft (s.overlay uuid4 rows).core id).isSome := by
  have hcount : s.core.sectionPlan.count id = 1 := List.count_eq_one_of_mem hids hid
  rw [selectedDraft_overlay_eq]
  by_cases hcand : HasCandidates s.core id
  · rw [selectedDraft_overlay_candidates hcount hcand hrow, Option.isSome_map]
    exact selectedDraft_isSome.2 (h hcand)
  · rw [selectedDraft_overlay_fresh hid hrow fun _ => hcand]
    rfl

/-! New numbers. -/

theorem find?_of_map {α β : Type} {f : α → Option β} {P : α → Bool} {Q : β → Bool} {as : List α}
    {bs : List β} (hfg : ∀ a b, f a = some b → Q b = P a) (h : as.map f = bs.map some) :
    (as.find? P).map f = (bs.find? Q).map some := by
  induction as generalizing bs with
  | nil =>
    obtain rfl : bs = [] := by simpa using h.symm
    rfl
  | cons a as ih =>
    cases bs with
    | nil => simp at h
    | cons b bs =>
      rw [List.map_cons, List.map_cons] at h
      obtain ⟨hab, hrest⟩ := List.cons.inj h
      rw [List.find?_cons, List.find?_cons, hfg a b hab]
      cases P a with
      | true => simp [hab]
      | false => exact ih hrest

theorem setFor_eq_find {sets : List (SectionCandidateSet Uuid)} :
    setFor id sets = sets.reverse.find? fun cs => cs.sectionId = id := by
  rw [setFor, lastFor, ← List.map_reverse]
  induction sets.reverse with
  | nil => rfl
  | cons cs sets ih =>
    rw [List.map_cons, List.find?_cons, List.lookup_cons, ih]
    by_cases h : cs.sectionId = id
    · simp [h]
    · have hne : (id == cs.sectionId) = false := beq_eq_false_iff_ne.mpr (Ne.symm h)
      simp [h, hne]

theorem rewriteSet_eq_some {g : SectionCandidate Uuid → Option (SectionCandidate Uuid)}
    {cset cset' : SectionCandidateSet Uuid} (h : rewriteSet g cset = some cset') :
    cset'.sectionId = cset.sectionId ∧ cset.candidates.map g = cset'.candidates.map some := by
  obtain ⟨candidates, hc, h⟩ := Option.bind_eq_some_iff.mp h
  obtain rfl := Option.some.inj h
  exact ⟨rfl, Fallible.mapM_eq_some.mp hc⟩

/-- A pass that gives every candidate of every set a new form, under its old id. -/
structure Pass (s : RunState) (sets : List (SectionCandidateSet Uuid))
    (g : SectionCandidateSet Uuid → SectionCandidate Uuid → Option (SectionCandidate Uuid)) :
    Prop where
  sets : s.sectionCandidates.map (fun cs => rewriteSet (g cs) cs) = sets.map some
  ids : ∀ cs c c', g cs c = some c' → c'.candidateId = c.candidateId

/-- What a pass does to the chosen candidates of a section it does to its draft. -/
theorem Pass.selectedDraft {sets : List (SectionCandidateSet Uuid)}
    {g : SectionCandidateSet Uuid → SectionCandidate Uuid → Option (SectionCandidate Uuid)}
    {f : SectionDraft Uuid → Option (SectionDraft Uuid)} (h : Pass s sets g)
    (hchosen : ∀ cs c, cs.sectionId = id → isChosen s cs c →
      g cs c = (f c.draft).map fun draft => { c with draft }) :
    (selectedDraft s.core id).map f =
      (selectedDraft { s with sectionCandidates := sets }.core id).map some := by
  have hset : (setFor id s.sectionCandidates).map (fun cs => rewriteSet (g cs) cs) =
      (setFor id sets).map some := by
    rw [setFor_eq_find, setFor_eq_find]
    refine find?_of_map (fun cs cs' hcs => ?_) ?_
    · rw [(rewriteSet_eq_some hcs).1]
    · rw [List.map_reverse, List.map_reverse, h.sets]
  unfold Workflows.selectedDraft chosenIn RunState.core
  simp only
  cases hsel : lastFor id s.sectionSelections with
  | none => rfl
  | some chosen =>
    cases hcs : setFor id s.sectionCandidates with
    | none =>
      rw [hcs] at hset
      simp [Option.map_eq_none_iff.mp hset.symm]
    | some cs =>
      rw [hcs] at hset
      obtain ⟨cs', hcs', hcset⟩ := Option.map_eq_some_iff.mp hset.symm
      have hcands := (rewriteSet_eq_some hcset.symm).2
      have hcsid : cs.sectionId = id := by
        rw [setFor_eq_find] at hcs
        simpa using List.find?_some hcs
      simp only [hcs', Option.bind_some, Option.map_map]
      have hfind := find?_of_map (P := fun c => c.candidateId = chosen)
        (Q := fun c => c.candidateId = chosen) (fun c c' hc => by rw [h.ids cs c c' hc])
        hcands
      cases hc : cs.candidates.find? fun c => c.candidateId = chosen with
      | none =>
        rw [hc] at hfind
        simp [Option.map_eq_none_iff.mp hfind.symm]
      | some c =>
        rw [hc] at hfind
        obtain ⟨c', hc', hcand⟩ := Option.map_eq_some_iff.mp hfind.symm
        have hcid : c.candidateId = chosen := by simpa using List.find?_some hc
        have hgc := hchosen cs c hcsid (by simp [isChosen, hcsid, hsel, hcid])
        obtain ⟨draft, hdraft, rfl⟩ := Option.map_eq_some_iff.mp (hgc.symm.trans hcand.symm)
        simp [hc', hdraft]

/-- The new numbers come, and some chunk has one. -/
def Renumbers (env : Env δ) (s : RunState) : Prop :=
  unnumbered env s = false ∧ (renumberState env s).isSome

/-- An assembly either leaves the drafts as the rows gave them or gives all of them new numbers. -/
theorem assembled_cases (env : Env δ) (rows : List (SectionRow δ)) (s : RunState) :
    (¬ Renumbers env (s.overlay env.uuid4 rows) ∧
      assembled env rows s = s.overlay env.uuid4 rows) ∨
    (Renumbers env (s.overlay env.uuid4 rows) ∧
      unnumbered env (s.overlay env.uuid4 rows) = false ∧
      renumberState env (s.overlay env.uuid4 rows) = some (assembled env rows s)) := by
  unfold assembled Renumbers
  simp only
  cases hun : unnumbered env (s.overlay env.uuid4 rows) with
  | true =>
    refine .inl ⟨by simp, ?_⟩
    rw [renumberState, if_pos hun]
    rfl
  | false =>
    cases h : renumberState env (s.overlay env.uuid4 rows) with
    | none => exact .inl ⟨by simp, rfl⟩
    | some s' => exact .inr ⟨by simp, rfl, rfl⟩

theorem renumberState_spec (hun : unnumbered env s = false) (h : renumberState env s = some s') :
    ∃ sets, s.sectionCandidates.map (renumberSet env s) = sets.map some ∧
      s' = { s with
        sectionCandidates := sets
        sectionMeta := s.sectionMeta ++ s.sectionCandidates.flatMap (chunkMeta env s) } := by
  rw [renumberState, if_neg (by simp [hun])] at h
  obtain ⟨sets, hsets, h⟩ := Option.bind_eq_some_iff.mp h
  exact ⟨sets, Fallible.mapM_eq_some.mp hsets, (Option.some.inj h).symm⟩

theorem pass_renumber {sets : List (SectionCandidateSet Uuid)}
    (h : s.sectionCandidates.map (renumberSet env s) = sets.map some) :
    Pass s sets (renumberCandidate env s) where
  sets := h
  ids cs c c' h := by
    unfold renumberCandidate at h
    split at h
    · obtain ⟨draft, -, rfl⟩ := Option.map_eq_some_iff.mp h
      rfl
    · obtain rfl := Option.some.inj h
      rfl

/-- The draft of each section is renumbered. -/
theorem selectedDraft_renumber (hun : unnumbered env s = false)
    (h : renumberState env s = some s') :
    (selectedDraft s.core id).map (renumberDraft env s) =
      (selectedDraft s'.core id).map some := by
  obtain ⟨sets, hsets, rfl⟩ := renumberState_spec hun h
  exact (pass_renumber hsets).selectedDraft fun cs c _ hc => by rw [renumberCandidate, if_pos hc]

/-- The draft of each section gets its new text. -/
theorem selectedDraft_compress {contentByRef : List (Text × Text)} :
    selectedDraft (compress contentByRef s).core id = (selectedDraft s.core id).map fun d =>
      { d with content := ((refOf s id).bind fun ref => contentByRef.lookup ref).getD d.content } := by
  have hpass : Pass s (compress contentByRef s).sectionCandidates
      (fun cs c => some (compressCandidate s contentByRef cs c)) := by
    refine ⟨?_, fun cs c c' h => ?_⟩
    · rw [compress, List.map_map]
      refine List.map_congr_left fun cs _ => ?_
      have hall : cs.candidates.mapM (fun c => some (compressCandidate s contentByRef cs c)) =
          some (cs.candidates.map (compressCandidate s contentByRef cs)) := by
        rw [Fallible.mapM_eq_some, List.map_map]
        rfl
      rw [rewriteSet, hall]
      rfl
    · obtain rfl := Option.some.inj h
      unfold compressCandidate
      split
      · split <;> rfl
      · rfl
  have hdraft : (selectedDraft s.core id).map (fun d => some
      { d with content := ((refOf s id).bind fun ref => contentByRef.lookup ref).getD d.content }) =
      (selectedDraft (compress contentByRef s).core id).map some := by
    refine hpass.selectedDraft fun cs c hcs hc => ?_
    unfold compressCandidate
    rw [if_pos hc, hcs]
    cases (refOf s id).bind fun ref => contentByRef.lookup ref <;> rfl
  cases hd : selectedDraft s.core id with
  | none =>
    rw [hd] at hdraft
    exact Option.map_eq_none_iff.mp hdraft.symm
  | some d =>
    rw [hd] at hdraft
    obtain ⟨d', hd', heq⟩ := Option.map_eq_some_iff.mp hdraft.symm
    rw [hd', Option.some.inj heq]
    rfl

theorem renumberDraft_sectionId (h : renumberDraft env s d = some d') :
    d'.sectionId = d.sectionId := by
  obtain ⟨content, -, h⟩ := Option.bind_eq_some_iff.mp h
  obtain rfl := Option.some.inj h
  rfl

theorem ownDrafts_renumber (hown : OwnDrafts s) (hun : unnumbered env s = false)
    (h : renumberState env s = some s') : OwnDrafts s' := by
  intro id hid d hd
  have hplan : s'.sectionPlan = s.sectionPlan := by
    obtain ⟨sets, -, rfl⟩ := renumberState_spec hun h
    rfl
  have hren : (selectedDraft s.core id).map (renumberDraft env s) =
      (selectedDraft s'.core id).map some := selectedDraft_renumber hun h
  rw [hd] at hren
  obtain ⟨d₀, hd₀, hd'⟩ := Option.map_eq_some_iff.mp hren
  rw [renumberDraft_sectionId hd']
  exact hown id (hplan ▸ hid) d₀ hd₀

theorem assembled_sectionPlan : (assembled env rows s).sectionPlan = s.sectionPlan := by
  rcases assembled_cases env rows s with ⟨-, h⟩ | ⟨-, hun, h⟩
  · rw [h]
    rfl
  · obtain ⟨sets, -, heq⟩ := renumberState_spec hun h
    rw [heq]
    rfl

/-- The draft of a section behind an assembly, with new numbers where they come. -/
theorem selectedDraft_assembled (env : Env δ) (rows : List (SectionRow δ)) (s : RunState)
    (id : Uuid) :
    (¬ Renumbers env (s.overlay env.uuid4 rows) ∧ selectedDraft (assembled env rows s).core id =
      selectedDraft (s.overlay env.uuid4 rows).core id) ∨
    (Renumbers env (s.overlay env.uuid4 rows) ∧
      (selectedDraft (s.overlay env.uuid4 rows).core id).map
        (renumberDraft env (s.overlay env.uuid4 rows)) =
          (selectedDraft (assembled env rows s).core id).map some) := by
  rcases assembled_cases env rows s with ⟨hno, h⟩ | ⟨hren, hun, h⟩
  · exact .inl ⟨hno, by rw [h]⟩
  · exact .inr ⟨hren, selectedDraft_renumber hun h⟩

theorem ownDrafts_assembled (hids : (s.sectionPlan.map (·.sectionId)).Nodup) (hown : OwnDrafts s) :
    OwnDrafts (assembled env rows s) := by
  have hown' : OwnDrafts (s.overlay env.uuid4 rows) := ownDrafts_overlay hids hown
  rcases assembled_cases env rows s with ⟨-, h⟩ | ⟨-, hun, h⟩
  · rw [h]
    exact hown'
  · exact ownDrafts_renumber hown' hun h

theorem ownDrafts_compress {contentByRef : List (Text × Text)} (hown : OwnDrafts s) :
    OwnDrafts (compress contentByRef s) := by
  intro id hid d hd
  rw [selectedDraft_compress] at hd
  obtain ⟨d₀, hd₀, rfl⟩ := Option.map_eq_some_iff.mp hd
  exact hown id hid d₀ hd₀

/-! The new rows. -/

theorem stored_rows (h : persistSections env s t = some t') : t'.rows = newRows env s t.rows := by
  unfold persistSections at h
  split at h
  · rw [← Option.some.inj h]
  · cases h

theorem mem_stored (h : persistSections env s t = some t') (hp : p ∈ s.sectionPlan) :
    withPrior t.rows (rowOf env s p) ∈ t'.rows := by
  rw [stored_rows h]
  exact List.mem_map_of_mem hp

theorem withPrior_id : (withPrior rows row).id = row.id := by
  unfold withPrior
  split <;> rfl

theorem withPrior_content : (withPrior rows row).content = row.content := by
  unfold withPrior
  split <;> rfl

theorem withPrior_position : (withPrior rows row).position = row.position := by
  unfold withPrior
  split <;> rfl

theorem withPrior_locked : (withPrior rows row).locked = row.locked := by
  unfold withPrior
  split <;> rfl

theorem withPrior_planHash : (withPrior rows row).planHash = row.planHash := by
  unfold withPrior
  split <;> rfl

theorem newRows_ids : (newRows env s rows).map (·.id) = s.sectionPlan.map (·.sectionId) := by
  rw [newRows, List.map_map]
  exact List.map_congr_left fun p _ => withPrior_id

theorem newRows_positions : (newRows env s rows).map (·.position) =
    s.sectionPlan.map fun p => (p.chapterNumber, p.sectionNumber) := by
  rw [newRows, List.map_map]
  exact List.map_congr_left fun p _ => withPrior_position

/-- The database takes the rows of a plan that names no section and no position twice. -/
theorem persistSections_isSome : (persistSections env s t).isSome ↔
    (s.sectionPlan.map (·.sectionId)).Nodup ∧
      (s.sectionPlan.map fun p => (p.chapterNumber, p.sectionNumber)).Nodup := by
  have hids : (newRows env s t.rows).map (·.id) = _ := newRows_ids
  have hpositions : (newRows env s t.rows).map (·.position) = _ := newRows_positions
  rw [← hids, ← hpositions]
  unfold persistSections
  split
  · simpa
  · rename_i h
    simpa only [Option.isSome_none, Bool.false_eq_true, false_iff] using h

end RownRg.WriteRun
