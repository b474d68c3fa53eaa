import RownRg.Core.OutlineIds
import RownRg.Lib.Pairing
import RownRg.Lib.Runs
import RownRg.Sections.Editing
import RownRg.Workflows.WriteRun

/-! Sections that models rewrite while people lock them. -/

open PyText Fallible RownRg.SectionPlan RownRg.Sections

namespace RownRg.AiEdits

/-- What the requests are told from outside, beside what a run is told: the plan of the project
and that of its outline, the facts of a text, and `repr`. -/
structure EditEnv (δ : Type) extends WriteRun.Env δ where
  plan : List SectionPlan
  outlinePlan : List SectionPlan
  extractEntries : Text → Text → List Text → Option Json
  repr : Json → Text

/-- What a model has written for a section. -/
structure RewriteDraft extends SectionDraft Uuid where
  incompleteReason : Text
  repairLog : List (Text × Json)

/-- The ways to have a model change one section. -/
inductive AiRequest where
  | rewriteSection
  | rewriteBatchItem
  | adoptSectionVariant (variantId : Text)
  | rewriteSectionBlock (block : Text)

/-- What the model answers; an adoption asks none. -/
inductive Reply where
  | draft (draft : RewriteDraft)
  | newBlock (newBlock : Text)
  | nothing

inductive AiEditError where
  | edit (e : EditError)
  | rewriteIncomplete
  | variantNotFound
  | variantInvalid

/-- The columns that a request has assigned; a commit writes no others. -/
structure Columns (δ : Type) where
  content : Option Text
  rowMeta : Option RowMeta
  sourceIds : Option (List Uuid)
  planHash : Option (Option δ)
  status : Option SectionStatus
  qaStatus : Option QaStatus

variable {δ : Type} {env : EditEnv δ} {row r : SectionRow δ} {t t' : SectionTable δ} {id j : Uuid}
  {columns : Columns δ} {request : AiRequest} {reply : Reply}

def Columns.write (columns : Columns δ) (row : SectionRow δ) : SectionRow δ :=
  { row with
    content := columns.content.getD row.content
    rowMeta := columns.rowMeta.getD row.rowMeta
    sourceIds := columns.sourceIds.getD row.sourceIds
    planHash := columns.planHash.getD row.planHash
    status := columns.status.getD row.status
    qaStatus := columns.qaStatus.getD row.qaStatus }

theorem Columns.write_id : (columns.write row).id = row.id := rfl

theorem Columns.write_position : (columns.write row).position = row.position := rfl

/-- A body equal to the one that was loaded is not written. -/
def assignContent (row : SectionRow δ) (content : Text) : Option Text :=
  if content = row.content then none else some content

def ensureUnlocked (row : SectionRow δ) : Except AiEditError Unit :=
  require (!row.locked) (.edit (.sectionLocked row.chapterNumber row.sectionNumber))

/-- The plan of a stored section: by id from the plan, then from the outline, else what the row
itself says. -/
def planForRow (env : EditEnv δ) (row : SectionRow δ) : SectionPlan :=
  match env.plan.find? (·.sectionId = row.id) with
  | some p =>
    if p.chapterTitle.isEmpty && !row.chapterTitle.isEmpty then
      { p with chapterTitle := row.chapterTitle }
    else p
  | none =>
    (env.outlinePlan.find? (·.sectionId = row.id)).getD
      { sectionId := row.id
        chapterNumber := row.chapterNumber
        sectionNumber := row.sectionNumber
        chapterTitle := row.chapterTitle
        title := row.title
        direction := []
        keyPoints := []
        searchQueries := []
        analysts := []
        buildsOn := []
        minChars := none
        maxChars := none }

def dropKey (rowMeta : RowMeta) (key : Text) : RowMeta := rowMeta.filter (·.1 ≠ key)

/-- The record of a section that is rewritten as a whole. -/
def rewrittenMeta (env : EditEnv δ) (row : SectionRow δ) (draft : RewriteDraft) : RowMeta :=
  let pool := draft.poolChunkIds.map Uuid.str
  let rowMeta := dropKey (setKey row.rowMeta "pool_chunk_ids".toList (.texts pool))
    "evidence_lost".toList
  let rowMeta := setKey rowMeta "plan_failed".toList (.bool draft.splitFallback)
  let rowMeta := setKey rowMeta "volume_scaled".toList (.bool draft.volumeScaled)
  let rowMeta :=
    if pool.isEmpty then rowMeta else setKey rowMeta "evidence_count".toList (.num pool.length)
  let rowMeta :=
    if draft.repairLog.isEmpty then dropKey rowMeta "citation_repair".toList
    else setKey rowMeta "citation_repair".toList (.obj draft.repairLog)
  let markerMap := citationChunkMap draft.content draft.citedChunkIds env.toGlobal
  let rowMeta :=
    if markerMap.isEmpty then rowMeta
    else setKey rowMeta WriteRun.citationChunksKey (WriteRun.chunkMapJson markerMap)
  match env.extractEntries draft.content row.label pool with
  | some entries => setKey rowMeta ledgerEntries entries
  -- a failing extraction keeps the old facts
  | none => rowMeta

def applySectionRewrite (env : EditEnv δ) (row : SectionRow δ) (plan : SectionPlan)
    (draft : RewriteDraft) : Columns δ where
  content := assignContent row
    ((renumberContent draft.content draft.citedChunkIds env.toGlobal).getD draft.content)
  rowMeta := some (rewrittenMeta env row draft)
  sourceIds := some draft.citedChunkIds
  planHash := some (some (contentFingerprint env.digest plan))
  status := some .completed
  qaStatus := some .passed

/-- A rewrite that broke off, or came back blank, is not applied. -/
def rewriteWhole (env : EditEnv δ) (row : SectionRow δ) (draft : RewriteDraft) :
    Except AiEditError (Columns δ) := do
  require (draft.incompleteReason.isEmpty && !(strip draft.content).isEmpty) .rewriteIncomplete
  return applySectionRewrite env row (planForRow env row) draft

/-- `[v for v in (meta.get(key) or []) if isinstance(v, dict)]` -/
def dictsOf (rowMeta : RowMeta) (key : Text) : List (List (Text × Json)) :=
  match Json.get rowMeta key with
  | .arr xs => xs.filterMap fun
    | .obj fields => some fields
    | _ => none
  | _ => []

/-- `str(v or "")` -/
def textOf (repr : Json → Text) (x : Json) : Text := if x.truthy then x.toText repr else []

def pickVariant (env : EditEnv δ) (row : SectionRow δ) (variantId : Text) :
    Option (List (Text × Json)) :=
  (dictsOf row.rowMeta "variants".toList).find? fun v =>
    (Json.get v "id".toList).toText env.repr = variantId

/-- `[UUID(c) for c in (v or [])]`; `none` where it raises. -/
def uuidsOf (x : Json) : Option (List Uuid) :=
  match x.orElse (.arr []) with
  | .arr xs => xs.mapM fun
    | .str t => Uuid.parse t
    | _ => none
  | _ => none

def repairLogOf (x : Json) : Option (List (Text × Json)) :=
  match x.orElse (.obj []) with
  | .obj fields => some fields
  | _ => none

def draftOfVariant (env : EditEnv δ) (row : SectionRow δ) (picked : List (Text × Json)) :
    Option RewriteDraft := do
  let cited ← uuidsOf (Json.get picked "cited_chunk_ids".toList)
  let pool ← uuidsOf (Json.get picked "pool_chunk_ids".toList)
  let repairLog ← repairLogOf (Json.get picked "repair_log".toList)
  return {
    sectionId := row.id
    content := textOf env.repr (Json.get picked "content".toList)
    citedChunkIds := cited
    poolChunkIds := pool
    splitFallback := (Json.get picked "split_fallback".toList).truthy
    volumeScaled := (Json.get picked "volume_scaled".toList).truthy
    incompleteReason := []
    repairLog }

/-- A variant takes the way of a rewrite; the others are dropped. -/
def adoptSectionVariant (env : EditEnv δ) (row : SectionRow δ) (variantId : Text) :
    Except AiEditError (Columns δ) :=
  match pickVariant env row variantId with
  | none => .error .variantNotFound
  | some picked =>
    match draftOfVariant env row picked with
    | none => .error .variantInvalid
    | some draft =>
      let columns := applySectionRewrite env row (planForRow env row) draft
      .ok { columns with
        rowMeta := some (setKey (rewrittenMeta env row draft) "variants".toList (.arr [])) }

/-- The marks of lost evidence inside the block go with it. -/
def rewriteSectionBlock (env : EditEnv δ) (row : SectionRow δ) (block newBlock : Text) :
    Except AiEditError (Columns δ) := do
  require (!(strip newBlock).isEmpty) (.edit .blockRewriteEmpty)
  let lost := dictsOf row.rowMeta "evidence_lost".toList
  let kept := lost.filter fun p => !contains (textOf env.repr (Json.get p "text".toList)) block
  return {
    content := assignContent row (replaceFirst block newBlock row.content)
    rowMeta :=
      if kept.length = lost.length then none
      else some (setKey row.rowMeta "evidence_lost".toList (.arr (kept.map .obj)))
    sourceIds := none
    planHash := none
    status := none
    qaStatus := none }

/-- The checks on the loaded row; the lock is looked at here and nowhere else. -/
def checkLoaded (env : EditEnv δ) (row : SectionRow δ) : AiRequest → Except AiEditError Unit
  | .rewriteSection | .rewriteBatchItem => ensureUnlocked row
  | .adoptSectionVariant variantId => do
    ensureUnlocked row
    require (pickVariant env row variantId).isSome .variantNotFound
  | .rewriteSectionBlock block => do
    require (1 ≤ block.length && block.length ≤ maxSectionChars) (.edit .requestInvalid)
    ensureUnlocked row
    require (contains block row.content) (.edit .blockNotFound)
    require (!Charts.hasChartFence block) (.edit .blockIsChart)

/-- What a request assigns to its loaded row once the model has answered. -/
def assign (env : EditEnv δ) (row : SectionRow δ) (request : AiRequest) (reply : Reply) :
    Option (Except AiEditError (Columns δ)) :=
  match request, reply with
  | .rewriteSection, .draft draft | .rewriteBatchItem, .draft draft =>
    some (rewriteWhole env row draft)
  | .adoptSectionVariant variantId, .nothing => some (adoptSectionVariant env row variantId)
  | .rewriteSectionBlock block, .newBlock newBlock =>
    some (rewriteSectionBlock env row block newBlock)
  | _, _ => none

/-- An AI edit under way: a request with the row as it was loaded, later the columns it has
assigned; an assembly with the drafts as they were laid over, later the compressed ones. -/
inductive AiEdit (δ : Type) where
  | waiting (request : AiRequest) (row : SectionRow δ)
  | answered (sectionId : Uuid) (columns : Columns δ)
  | assembling (s : WriteRun.RunState)
  | compressed (before after : WriteRun.RunState)
  | closed

/-- The committed rows, and the AI edits in the order in which they came. -/
structure Project (δ : Type) where
  table : SectionTable δ
  edits : List (AiEdit δ)

inductive EditEvent where
  | load (request : AiRequest) (sectionId : Uuid)
  | answer (i : Nat) (reply : Reply)
  | commit (i : Nat)
  | assemble (s : WriteRun.RunState)
  | compress (i : Nat) (contentByRef : List (Text × Text))
  | persist (i : Nat)
  | setSectionLock (sectionId : Uuid) (locked : Bool)
  | updateSectionContent (sectionId : Uuid) (content : Text)

def findRow (t : SectionTable δ) (id : Uuid) : Option (SectionRow δ) :=
  t.rows.find? (·.id = id)

/-- One row changes, in columns other than its id and its place. -/
def updateRow (t : SectionTable δ) (id : Uuid) (f : SectionRow δ → SectionRow δ)
    (hid : ∀ r, (f r).id = r.id) (hposition : ∀ r, (f r).position = r.position) :
    SectionTable δ where
  rows := t.rows.map fun r => if r.id = id then f r else r
  ids := by
    have hsame : (t.rows.map fun r => if r.id = id then f r else r).map (·.id) =
        t.rows.map (·.id) := by
      rw [List.map_map]
      refine List.map_congr_left fun r _ => ?_
      by_cases h : r.id = id <;> simp [h, hid]
    rw [hsame]
    exact t.ids
  positions := by
    have hsame : (t.rows.map fun r => if r.id = id then f r else r).map (·.position) =
        t.rows.map (·.position) := by
      rw [List.map_map]
      refine List.map_congr_left fun r _ => ?_
      by_cases h : r.id = id <;> simp [h, hposition]
    rw [hsame]
    exact t.positions

def commitRow (t : SectionTable δ) (id : Uuid) (columns : Columns δ) : SectionTable δ :=
  updateRow t id columns.write (fun _ => columns.write_id) fun _ => columns.write_position

def withLock (locked : Bool) (row : SectionRow δ) : SectionRow δ := { row with locked }

theorem withLock_id {locked : Bool} : (withLock locked row).id = row.id := rfl

theorem withLock_position {locked : Bool} : (withLock locked row).position = row.position := rfl

def setSectionLock (t : SectionTable δ) (id : Uuid) (locked : Bool) : SectionTable δ :=
  updateRow t id (withLock locked) (fun _ => withLock_id) fun _ => withLock_position

/-- A manual save; the lock does not hold it back. -/
def updateSectionContent (t : SectionTable δ) (id : Uuid) (content : Text) : SectionTable δ :=
  commitRow t id ⟨some content, none, none, none, some .completed, none⟩

/-- The row that a request goes on with, if it is not turned away. -/
def admitted (env : EditEnv δ) (t : SectionTable δ) (request : AiRequest) (id : Uuid) :
    Option (SectionRow δ) :=
  (findRow t id).filter fun row => (checkLoaded env row request).isOk

def Project.step (env : EditEnv δ) (p : Project δ) : EditEvent → Option (Project δ)
  | .load request id =>
    match admitted env p.table request id with
    | some row => some { p with edits := p.edits ++ [.waiting request row] }
    | none => some p
  | .answer i reply =>
    match p.edits[i]? with
    | some (.waiting request row) =>
      (assign env row request reply).map fun
        | .ok columns => { p with edits := p.edits.set i (.answered row.id columns) }
        | .error _ => { p with edits := p.edits.set i .closed }
    | _ => none
  | .commit i =>
    match p.edits[i]? with
    | some (.answered id columns) =>
      -- a row that is gone fails the commit
      (findRow p.table id).map fun _ =>
        { table := commitRow p.table id columns, edits := p.edits.set i .closed }
    | _ => none
  | .assemble s =>
    some { p with
      edits := p.edits ++ [.assembling (WriteRun.assembled env.toEnv p.table.rows s)] }
  | .compress i contentByRef =>
    match p.edits[i]? with
    | some (.assembling s) =>
      some { p with edits := p.edits.set i (.compressed s (WriteRun.compress contentByRef s)) }
    | _ => none
  | .persist i =>
    match p.edits[i]? with
    | some (.compressed _ after) =>
      (WriteRun.persistSections env.toEnv after p.table).map fun table =>
        { table, edits := p.edits.set i .closed }
    | _ => none
  | .setSectionLock id locked =>
    (findRow p.table id).map fun _ => { p with table := setSectionLock p.table id locked }
  | .updateSectionContent id content =>
    if content.length ≤ maxSectionChars then
      (findRow p.table id).map fun _ => { p with table := updateSectionContent p.table id content }
    else none

/-- The sections whose body an edit is about to change with a text of the model. -/
def AiEdit.targets : AiEdit δ → List Uuid
  | .answered id columns => if columns.content.isSome then [id] else []
  | .compressed before after => (after.sectionPlan.map (·.sectionId)).filter fun id =>
      (WriteRun.draftFor after id).map (·.content) ≠ (WriteRun.draftFor before id).map (·.content)
  | _ => []

def lockOf (t : SectionTable δ) (id : Uuid) : Bool := (findRow t id).elim false (·.locked)

/-! What happened before: history that no step reads. -/

/-- The time since an edit has read its rows: the locks as they were then, and the last toggle of
each section since. -/
structure Window where
  read : Uuid → Bool
  toggled : Uuid → Option Bool

/-- A window for each edit, and each body that an AI edit has changed, with its lock at the
commit. -/
structure LockHistory where
  windows : List Window
  changes : List (Uuid × Bool)

def Window.toggle (toggles : Uuid → Option Bool) (w : Window) : Window :=
  { w with toggled := fun id => (toggles id).or (w.toggled id) }

def LockHistory.openWindow (h : LockHistory) (t : SectionTable δ) : LockHistory :=
  { h with windows := h.windows ++ [⟨lockOf t, fun _ => none⟩] }

def LockHistory.toggle (h : LockHistory) (toggles : Uuid → Option Bool) : LockHistory :=
  { h with windows := h.windows.map (Window.toggle toggles) }

/-- The AI changes of the edit at `i` commit. -/
def LockHistory.change (h : LockHistory) (p : Project δ) (i : Nat) : LockHistory :=
  { h with
    changes := (p.edits[i]?.elim [] AiEdit.targets).map (fun id => (id, lockOf p.table id)) ++
      h.changes }

/-- A persisted assembly leaves no section locked. -/
def LockHistory.record (env : EditEnv δ) (h : LockHistory) (p : Project δ) :
    EditEvent → LockHistory
  | .load request id => if (admitted env p.table request id).isSome then h.openWindow p.table else h
  | .assemble _ => h.openWindow p.table
  | .commit i => h.change p i
  | .persist i => (h.change p i).toggle fun _ => some false
  | .setSectionLock id locked => h.toggle fun j => if j = id then some locked else none
  | _ => h

/-- A step with its history. -/
def editStep (env : EditEnv δ) (st : Project δ × LockHistory) (e : EditEvent) :
    Option (Project δ × LockHistory) :=
  (st.1.step env e).map fun p => (p, st.2.record env st.1 e)

/-- A table that nobody is editing. -/
def idle (t : SectionTable δ) : Project δ × LockHistory := (⟨t, []⟩, ⟨[], []⟩)

/-- No text of a model has entered a locked section. -/
def Respected (st : Project δ × LockHistory) : Prop := ∀ x ∈ st.2.changes, x.2 = false

/-- The lock of a section stays open from the moment an edit reads the section to the moment it
changes it, but for toggles taken back in between; an assembly, which looks at no lock, has to
meet an open one as well. -/
def InTime (st : Project δ × LockHistory) : EditEvent → Prop
  | .commit i => ∀ edit ∈ st.1.edits[i]?, ∀ w ∈ st.2.windows[i]?, ∀ id ∈ edit.targets,
      w.toggled id ≠ some true
  | .persist i => ∀ edit ∈ st.1.edits[i]?, ∀ w ∈ st.2.windows[i]?, ∀ id ∈ edit.targets,
      w.toggled id ≠ some true ∧ (w.toggled id = none → w.read id = false)
  | _ => True

/-! Locks. -/

theorem findRow_updateRow {f : SectionRow δ → SectionRow δ} {hid : ∀ r, (f r).id = r.id}
    {hposition : ∀ r, (f r).position = r.position} :
    findRow (updateRow t id f hid hposition) j =
      (findRow t j).map fun r => if r.id = id then f r else r := by
  rw [findRow, findRow, updateRow, List.find?_map]
  congr 2
  funext r
  by_cases h : r.id = id <;> simp [h, hid]

theorem findRow_id (h : findRow t id = some row) : row.id = id := by
  simpa using List.find?_some h

/-- A commit leaves the locks alone. -/
theorem lockOf_commitRow : lockOf (commitRow t id columns) j = lockOf t j := by
  rw [lockOf, lockOf, commitRow, findRow_updateRow]
  cases findRow t j with
  | none => rfl
  | some r => by_cases h : r.id = id <;> simp [h, Columns.write]

theorem lockOf_setSectionLock {locked : Bool} (h : (findRow t id).isSome) :
    lockOf (setSectionLock t id locked) j = if j = id then locked else lockOf t j := by
  rw [lockOf, lockOf, setSectionLock, findRow_updateRow]
  by_cases hj : j = id
  · subst hj
    obtain ⟨r, hr⟩ := Option.isSome_iff_exists.mp h
    simp [hr, findRow_id hr, withLock]
  · rw [if_neg hj]
    cases hr : findRow t j with
    | none => rfl
    | some r =>
      have hne : r.id ≠ id := (findRow_id hr).symm ▸ hj
      simp [hne]

/-- An assembly stores its rows without a lock. -/
theorem lockOf_persist {env : WriteRun.Env δ} {s : WriteRun.RunState}
    (h : WriteRun.persistSections env s t = some t') : lockOf t' j = false := by
  rw [lockOf]
  cases hr : findRow t' j with
  | none => rfl
  | some r =>
    have hmem := List.mem_of_find?_eq_some hr
    rw [WriteRun.stored_rows h] at hmem
    obtain ⟨p, -, rfl⟩ := List.mem_map.mp hmem
    exact WriteRun.withPrior_locked

/-- The section whose lock a request has looked at. -/
def AiEdit.loaded : AiEdit δ → Option Uuid
  | .waiting _ row => some row.id
  | .answered id _ => some id
  | _ => none

/-- The window of an edit knows the locks of the moment, and a request has met an open one. -/
structure Tracks (t : SectionTable δ) (edit : AiEdit δ) (w : Window) : Prop where
  lock : ∀ id, lockOf t id = (w.toggled id).getD (w.read id)
  loaded : ∀ id ∈ edit.loaded, w.read id = false

def LockInv (st : Project δ × LockHistory) : Prop :=
  List.Forall₂ (Tracks st.1.table) st.1.edits st.2.windows

variable {edit edit' : AiEdit δ} {w : Window} {st st' : Project δ × LockHistory} {e : EditEvent}
  {i : Nat}

theorem Tracks.frame (h : Tracks t edit w) (hlock : ∀ id, lockOf t' id = lockOf t id) :
    Tracks t' edit w :=
  ⟨fun id => (hlock id).trans (h.lock id), h.loaded⟩

theorem Tracks.toggle {toggles : Uuid → Option Bool} (h : Tracks t edit w)
    (hlock : ∀ id, lockOf t' id = (toggles id).getD (lockOf t id)) :
    Tracks t' edit (w.toggle toggles) := by
  refine ⟨fun id => ?_, h.loaded⟩
  rw [hlock id, h.lock id]
  cases ht : toggles id <;> simp [Window.toggle, ht]

theorem Tracks.turn (h : Tracks t edit w) (hloaded : ∀ id ∈ edit'.loaded, id ∈ edit.loaded) :
    Tracks t edit' w :=
  ⟨h.lock, fun id hid => h.loaded id (hloaded id hid)⟩

/-- One edit goes on; what it has looked at stays. -/
theorem LockInv.turn (h : LockInv st) (hedit : st.1.edits[i]? = some edit)
    (hloaded : ∀ id ∈ edit'.loaded, id ∈ edit.loaded) :
    List.Forall₂ (Tracks st.1.table) (st.1.edits.set i edit') st.2.windows := by
  refine Pairing.related_set_left h fun w hw => ?_
  obtain ⟨w', hw', htracks⟩ := Pairing.related_getElem? h hedit
  obtain rfl : w' = w := Option.some.inj (hw'.symm.trans hw)
  exact htracks.turn hloaded

/-- An edit that is closed has looked at nothing. -/
theorem loaded_closed : ∀ id ∈ (AiEdit.closed : AiEdit δ).loaded, id ∈ edit.loaded := by
  intro id hid
  cases hid

theorem LockInv.openWindow (h : LockInv st)
    (hloaded : ∀ id ∈ edit.loaded, lockOf st.1.table id = false) :
    List.Forall₂ (Tracks st.1.table) (st.1.edits ++ [edit])
      (st.2.openWindow st.1.table).windows :=
  List.rel_append h (.cons ⟨fun _ => rfl, hloaded⟩ .nil)

theorem tracks_toggle {toggles : Uuid → Option Bool} {edits : List (AiEdit δ)}
    {windows : List Window} (h : List.Forall₂ (Tracks t) edits windows)
    (hlock : ∀ id, lockOf t' id = (toggles id).getD (lockOf t id)) :
    List.Forall₂ (Tracks t') edits (windows.map (Window.toggle toggles)) :=
  List.forall₂_map_right_iff.mpr (h.imp fun _ _ htracks => htracks.toggle hlock)

theorem unlocked_of_check (h : checkLoaded env row request = .ok ()) : row.locked = false := by
  have hlock : ensureUnlocked row = .ok () := by
    cases request with
    | rewriteSection => exact h
    | rewriteBatchItem => exact h
    | adoptSectionVariant variantId =>
      obtain ⟨_, hlock, -⟩ := bind_eq_ok.1 h
      exact hlock
    | rewriteSectionBlock block =>
      obtain ⟨_, -, h⟩ := bind_eq_ok.1 h
      obtain ⟨_, hlock, -⟩ := bind_eq_ok.1 h
      exact hlock
  simpa using require_eq_ok.1 hlock

theorem admitted_unlocked (h : admitted env t request id = some row) :
    lockOf t row.id = false := by
  obtain ⟨hrow, hok⟩ := Option.filter_eq_some_iff.mp h
  rw [findRow_id hrow, lockOf, hrow]
  cases hcheck : checkLoaded env row request with
  | error e => simp [hcheck, Except.isOk, Except.toBool] at hok
  | ok _ => exact unlocked_of_check hcheck

theorem editStep_eq (hst : editStep env st e = some st') :
    st.1.step env e = some st'.1 ∧ st'.2 = st.2.record env st.1 e := by
  obtain ⟨p, hp, rfl⟩ := Option.map_eq_some_iff.mp hst
  exact ⟨hp, rfl⟩

theorem lockInv_step (h : LockInv st) (hst : editStep env st e = some st') : LockInv st' := by
  obtain ⟨p, hist⟩ := st
  obtain ⟨p', hist'⟩ := st'
  obtain ⟨hp, hh⟩ := editStep_eq hst
  simp only at hp hh
  subst hh
  cases e with
  | load request id =>
    simp only [Project.step] at hp
    simp only [LockHistory.record]
    cases hrow : admitted env p.table request id with
    | none =>
      rw [hrow] at hp
      cases hp
      exact h
    | some row =>
      rw [hrow] at hp
      cases hp
      refine h.openWindow fun id hid => ?_
      cases hid
      exact admitted_unlocked hrow
  | answer i reply =>
    simp only [Project.step] at hp
    split at hp
    · rename_i request row hedit
      obtain ⟨assigned, -, hp⟩ := Option.map_eq_some_iff.mp hp
      cases assigned with
      | error e =>
        cases hp
        exact h.turn hedit loaded_closed
      | ok columns =>
        cases hp
        exact h.turn hedit fun id hid => hid
    · cases hp
  | commit i =>
    simp only [Project.step] at hp
    split at hp
    · rename_i id columns hedit
      obtain ⟨row, -, hp⟩ := Option.map_eq_some_iff.mp hp
      cases hp
      exact (h.turn hedit loaded_closed).imp fun _ _ htracks =>
        htracks.frame fun id => lockOf_commitRow
    · cases hp
  | assemble s =>
    cases hp
    refine h.openWindow fun id hid => ?_
    cases hid
  | compress i contentByRef =>
    simp only [Project.step] at hp
    split at hp
    · rename_i s hedit
      cases hp
      exact h.turn hedit fun id hid => hid
    · cases hp
  | persist i =>
    simp only [Project.step] at hp
    split at hp
    · rename_i before after hedit
      obtain ⟨table, htable, hp⟩ := Option.map_eq_some_iff.mp hp
      cases hp
      exact tracks_toggle (h.turn hedit loaded_closed) fun id => lockOf_persist htable
    · cases hp
  | setSectionLock id locked =>
    obtain ⟨row, hrow, hp⟩ := Option.map_eq_some_iff.mp hp
    cases hp
    refine tracks_toggle h fun j => ?_
    rw [lockOf_setSectionLock (Option.isSome_of_eq_some hrow)]
    by_cases hj : j = id <;> simp [hj]
  | updateSectionContent id content =>
    simp only [Project.step] at hp
    split at hp
    · obtain ⟨row, -, hp⟩ := Option.map_eq_some_iff.mp hp
      cases hp
      exact h.imp fun _ _ htracks => htracks.frame fun id => lockOf_commitRow
    · cases hp

theorem respected_change {h : LockHistory} {p : Project δ} {i : Nat} (hs : Respected (p, h)) :
    (∀ x ∈ (h.change p i).changes, x.2 = false) ↔
      ∀ edit ∈ p.edits[i]?, ∀ id ∈ edit.targets, lockOf p.table id = false := by
  have hbefore : ∀ x ∈ h.changes, x.2 = false := hs
  rw [LockHistory.change]
  simp only [List.forall_mem_append, List.forall_mem_map]
  rw [and_iff_left hbefore]
  cases p.edits[i]? with
  | none => simp
  | some edit => simp

/-- An answered request has an open lock while no toggle has shut it. -/
theorem Tracks.unlocked_iff (h : Tracks t edit w) :
    lockOf t id = false ↔ w.toggled id ≠ some true ∧ (w.toggled id = none → w.read id = false) := by
  rw [h.lock id]
  cases w.toggled id with
  | none => simp
  | some locked => simp

theorem respected_step (hst : editStep env st e = some st') (h : LockInv st)
    (hs : Respected st) : Respected st' ↔ InTime st e := by
  obtain ⟨p, hist⟩ := st
  obtain ⟨p', hist'⟩ := st'
  obtain ⟨hp, hh⟩ := editStep_eq hst
  simp only at hp hh
  subst hh
  cases e with
  | load request id =>
    simp only [Respected, InTime, LockHistory.record]
    split
    · exact iff_of_true hs trivial
    · exact iff_of_true hs trivial
  | commit i =>
    simp only [Project.step] at hp
    split at hp
    · rename_i id columns hedit
      obtain ⟨w, hw, htracks⟩ := Pairing.related_getElem? h hedit
      have hread := htracks.loaded id rfl
      have hchange : Respected (p', hist.record env p (.commit i)) ↔
          ∀ edit ∈ p.edits[i]?, ∀ id ∈ edit.targets, lockOf p.table id = false :=
        respected_change hs
      simp only at hw
      rw [hchange]
      simp only [InTime, hedit, hw, Option.mem_some_iff, forall_eq', htracks.unlocked_iff]
      refine forall₂_congr fun j hj => ?_
      obtain rfl : j = id := by
        simp only [AiEdit.targets] at hj
        split at hj
        · exact List.mem_singleton.mp hj
        · cases hj
      simp [hread]
    · cases hp
  | persist i =>
    simp only [Project.step] at hp
    split at hp
    · rename_i before after hedit
      obtain ⟨w, hw, htracks⟩ := Pairing.related_getElem? h hedit
      have hchange : Respected (p', hist.record env p (.persist i)) ↔
          ∀ edit ∈ p.edits[i]?, ∀ id ∈ edit.targets, lockOf p.table id = false :=
        respected_change hs
      simp only at hw
      rw [hchange]
      simp only [InTime, hedit, hw, Option.mem_some_iff, forall_eq', htracks.unlocked_iff]
    · cases hp
  | answer _ _ | assemble _ | compress _ _ | setSectionLock _ _ | updateSectionContent _ _ =>
    exact iff_of_true hs trivial

/-- AI edits respect the locks in exactly the runs that are in time. -/
theorem respected_iff_inTime (env : EditEnv δ) (t : SectionTable δ) (es : List EditEvent) :
    Runs.Always (editStep env) Respected (idle t) es ↔
      Runs.Along (editStep env) (fun st e _ => InTime st e) (idle t) es :=
  Runs.always_iff_along (fun _ _ _ hst hi => lockInv_step hi hst)
    (fun _ _ _ hst hi hs => respected_step hst hi hs) List.Forall₂.nil (by simp [Respected, idle])

def plainEditEnv : EditEnv Nat where
  digest := fun _ => 0
  toGlobal := fun _ => none
  scrub := fun t => t
  uuid4 := fun _ => Outlines.drawn 0
  presetTitles := []
  survives := fun _ => true
  warned := fun _ => false
  now := 0
  plan := []
  outlinePlan := []
  extractEntries := fun _ _ _ => none
  repr := fun _ => []

/-- One section with a text, and no lock. -/
def openTable : SectionTable Nat where
  rows := [⟨Outlines.drawn 1, 1, 1, "1장".toList, "개요".toList, "고친 본문".toList, [], none, false,
    [], .passed, .completed, 0⟩]
  ids := List.nodup_singleton _
  positions := List.nodup_singleton _

/-- A section that is locked while a model rewrites it is rewritten. -/
theorem not_respected_locked : ¬ ∀ (env : EditEnv Nat) (t : SectionTable Nat)
    (es : List EditEvent), Runs.Always (editStep env) Respected (idle t) es := by
  intro h
  have hrun := h plainEditEnv openTable [.load .rewriteSection (Outlines.drawn 1),
    .setSectionLock (Outlines.drawn 1) true,
    .answer 0 (.draft ⟨⟨Outlines.drawn 1, "새 본문".toList, [], [], false, false⟩, [], []⟩),
    .commit 0]
  have hends : ((Runs.run (editStep plainEditEnv) (idle openTable)
      [.load .rewriteSection (Outlines.drawn 1), .setSectionLock (Outlines.drawn 1) true,
        .answer 0 (.draft ⟨⟨Outlines.drawn 1, "새 본문".toList, [], [], false, false⟩, [], []⟩),
        .commit 0]).map fun st => (st.1.table.rows.map (·.content), st.2.changes)) =
      some (["새 본문".toList], [(Outlines.drawn 1, true)]) := by decide
  obtain ⟨st, hst, hend⟩ := Option.map_eq_some_iff.mp hends
  have hrespected : Respected st := Runs.Always.last hrun hst
  rw [Respected, (Prod.mk.inj hend).2] at hrespected
  exact absurd (hrespected _ (.head _)) (by decide)

end RownRg.AiEdits
