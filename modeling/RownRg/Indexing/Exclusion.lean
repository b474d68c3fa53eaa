import Mathlib.Logic.Function.Basic
import RownRg.Lib.Runs
import RownRg.Workflows.WebCollect

/-! Which sources of a project are used: what people decide, and what indexing does to it. -/

open PyText RownRg.WebCollect Runs

namespace RownRg.Exclusion

/-- The partial unique key of a source that has a file. -/
inductive FileKey where
  | upload (uploadPath : Text)
  | library (libraryNodeId : Nat)
  deriving DecidableEq

/-- The tables of one project: its sources, the keys of those with a file, and the number of
chunks of each. -/
structure Corpus where
  pool : Pool
  keyOf : Nat → Option FileKey
  chunks : Nat → Nat

/-- `_NO_CONTENT_MESSAGE` -/
def noContentMessage : Text :=
  "색인된 본문이 없어 근거에서 제외했습니다 - 파일을 다시 올리면 복구됩니다.".toList

/-- The error that the run leaves at a file it could not index. -/
def fileErrorMessage : Text :=
  "자료를 색인하지 못했습니다. 파일이 손상되지 않았는지 확인해 주세요.".toList

def applyIndexOutcome (row : SourceRow) (nChunks : Nat) : SourceRow :=
  if nChunks > 0 then
    if row.autoExcluded then { row with autoExcluded := false, isIncluded := true } else row
  else { row with
    autoExcluded := true
    indexError := orText row.indexError (some noContentMessage)
    isIncluded := false }

def Corpus.update (c : Corpus) (id : Nat) (f : SourceRow → SourceRow) : Corpus :=
  { c with pool := c.pool.update id f }

def autoExcludeChunkless (c : Corpus) (sourceIds : List Nat) : Corpus :=
  { c with pool := { c.pool with rows := c.pool.rows.map fun row =>
      if row.id ∈ sourceIds ∧ row.isIncluded ∧ c.chunks row.id = 0 then applyIndexOutcome row 0
      else row } }

/-- The source with the key. -/
def Corpus.withKey (c : Corpus) (key : FileKey) : Option SourceRow :=
  c.pool.rows.find? fun row => c.keyOf row.id = some key

/-- A new source with a file; included, as the column has it. -/
def Corpus.insert (c : Corpus) (key : FileKey) (title : Text) : Corpus :=
  { pool := {
      rows := c.pool.rows ++ [{
        id := c.pool.next, url := none, title := some title, reliability := none
        fileBacked := true, contentMd := none, matchedSections := [], pageAge := none }]
      next := c.pool.next + 1 }
    keyOf := Function.update c.keyOf c.pool.next (some key)
    chunks := Function.update c.chunks c.pool.next 0 }

/-- `_placeholder_source` -/
def placeholderSource (c : Corpus) (key : FileKey) (title : Text) : Corpus :=
  match c.withKey key with
  | some row => c.update row.id fun r => { r with indexError := none }
  | none => c.insert key title

/-- The first session of `index_source`: the source is written and its chunks are deleted. -/
def upsertSource (c : Corpus) (key : FileKey) (title : Text) : Corpus :=
  match c.withKey key with
  | some row => { c.update row.id fun r =>
        { r with title := some title, url := none, reliability := none } with
      chunks := Function.update c.chunks row.id 0 }
  | none => c.insert key title

/-- The new chunks of a source; a chunk of a source that is gone breaks its foreign key. -/
def insertChunks (c : Corpus) (id n : Nat) : Option Corpus :=
  if (c.pool.row id).isSome then
    some { c with chunks := Function.update c.chunks id (c.chunks id + n) }
  else none

/-- The end of `_index_in_background`. -/
def backgroundOutcome (c : Corpus) (key : FileKey) (error : Option Text) : Corpus :=
  match c.withKey key with
  | some row => c.update row.id fun r =>
      applyIndexOutcome { r with indexError := error } (c.chunks row.id)
  | none => c

/-- The end of one round of `_index_pending_file_sources`; `none` is a file that failed. -/
def runOutcome (c : Corpus) (id : Nat) (result : Option Nat) : Corpus :=
  c.update id fun r =>
    applyIndexOutcome
      { r with indexError := if result.isSome then none else some fileErrorMessage }
      (result.getD 0)

/-- `update_project_source` -/
def updateProjectSource (c : Corpus) (id : Nat) (isIncluded : Bool) : Corpus :=
  c.update id fun r => { r with isIncluded }

/-- `_apply_source_pool_exclusions` -/
def applySourcePoolExclusions (c : Corpus) (excluded : List Nat) : Corpus :=
  { c with pool := { c.pool with rows := c.pool.rows.map fun row =>
      if row.id ∈ excluded then { row with isIncluded := false } else row } }

/-- `delete_project_source` -/
def deleteProjectSource (c : Corpus) (id : Nat) : Option Corpus :=
  match c.pool.row id with
  | some row =>
    if row.fileBacked then
      some { c with
        pool := { c.pool with rows := c.pool.rows.filter (·.id ≠ id) }
        chunks := Function.update c.chunks id 0 }
    else none
  | none => none

structure StagedWebSource where
  sourceId : Nat
  contentMd : Text
  title : Option Text
  url : Option Text

def loadIncluded (c : Corpus) : List StagedWebSource :=
  (c.pool.rows.filter fun row => !row.fileBacked && row.isIncluded).map fun row =>
    { sourceId := row.id, contentMd := row.contentMd.getD [], title := row.title, url := row.url }

/-- Where the index stage of the run is: it has loaded its sources, or it has also seen which of
them have chunks, and is at the first of `todo`. -/
inductive IndexStage where
  | loaded (staged : List StagedWebSource)
  | indexing (staged todo : List StagedWebSource) (indexed : List Nat)

structure World where
  corpus : Corpus
  stage : Option IndexStage := none

def World.row (w : World) (id : Nat) : Option SourceRow := w.corpus.pool.row id

/-- A transaction on the tables. Those of different tasks come in any order. -/
inductive SourceEvent where
  | staged (contentMd : Text) (src : CollectedSource)
  | attached (key : FileKey) (title : Text)
  | upserted (key : FileKey) (title : Text)
  | inserted (id n : Nat)
  | indexedInBackground (key : FileKey) (error : Option Text)
  | indexedByRun (id : Nat) (result : Option Nat)
  | toggled (id : Nat) (isIncluded : Bool)
  | decided (excluded : List Nat)
  | deleted (id : Nat)
  | nodeDeleted (libraryNodeId : Nat)
  | loaded
  | compared
  | embedded
  | swept
  | stopped

/-- The sources that the sweep looks at. -/
def IndexStage.unindexed : IndexStage → List Nat
  | .loaded _ => []
  | .indexing staged _ indexed => (staged.map (·.sourceId)).filter (· ∉ indexed)

/-- The tables after an event outside the index stage of the run. -/
def tablesStep (c : Corpus) : SourceEvent → Option Corpus
  | .staged contentMd src => some { c with pool := (stage c.pool contentMd src).1 }
  | .attached key title => some (placeholderSource c key title)
  | .upserted key title => some (upsertSource c key title)
  | .inserted id n =>
    if ((c.pool.row id).any (·.fileBacked)) then insertChunks c id n else none
  | .indexedInBackground key error => some (backgroundOutcome c key error)
  | .indexedByRun id result =>
    if (c.pool.row id).any (!·.fileBacked) then none else some (runOutcome c id result)
  | .toggled id isIncluded =>
    if (c.pool.row id).isSome then some (updateProjectSource c id isIncluded) else none
  | .decided excluded => some (applySourcePoolExclusions c excluded)
  | .deleted id => deleteProjectSource c id
  | .nodeDeleted node =>
    let keyOf id := (c.keyOf id).filter (· ≠ .library node)
    some { c with keyOf }
  | _ => none

variable (chunkMarkdown : Text → Nat)

/-- `index_existing`; `chunkMarkdown` says how many chunks a text has. -/
def indexExisting (c : Corpus) (src : StagedWebSource) : Option (Corpus × Nat) :=
  let contentMd := cleanWebMarkdown src.contentMd
  let n := if contentMd.isEmpty then 0 else chunkMarkdown contentMd
  if n = 0 then some (c, 0) else (insertChunks c src.sourceId n).map fun c => (c, n)

def step (w : World) (e : SourceEvent) : Option World :=
  match e, w.stage with
  | .loaded, none => some { w with stage := some (.loaded (loadIncluded w.corpus)) }
  | .compared, some (.loaded staged) =>
    let usable := staged.filter fun s => hasUsableContent s.contentMd
    some { w with stage := some (.indexing staged
      (usable.filter fun s => w.corpus.chunks s.sourceId = 0)
      ((usable.filter fun s => w.corpus.chunks s.sourceId ≠ 0).map (·.sourceId))) }
  | .embedded, some (.indexing staged (src :: todo) indexed) =>
    (indexExisting chunkMarkdown w.corpus src).map fun (corpus, n) =>
      { corpus, stage := some (.indexing staged todo
          (if n = 0 then indexed else indexed ++ [src.sourceId])) }
  | .swept, some (.indexing staged [] indexed) =>
    let unindexed := (IndexStage.indexing staged [] indexed).unindexed
    some { corpus := autoExcludeChunkless w.corpus unindexed }
  | .stopped, some _ => some { w with stage := none }
  | e, _ => (tablesStep w.corpus e).map fun corpus => { w with corpus }

/-- Whether the source of the key has the id. -/
def Corpus.Keyed (c : Corpus) (key : FileKey) (id : Nat) : Prop :=
  ∃ row, c.withKey key = some row ∧ row.id = id

instance (c : Corpus) (key : FileKey) (id : Nat) : Decidable (c.Keyed key id) :=
  decidable_of_iff ((c.withKey key).any (·.id = id)) (by simp [Corpus.Keyed, Option.any_eq_true])

/-- Whether the source is the first one of its address and waits for its content. -/
def Pool.Awaits (pool : Pool) (url : Text) (id : Nat) : Prop :=
  ∃ row, existing pool url = some row ∧ row.isBlank ∧ row.id = id

instance (pool : Pool) (url : Text) (id : Nat) : Decidable (Pool.Awaits pool url id) :=
  decidable_of_iff ((existing pool url).any fun row => row.isBlank && row.id = id)
    (by simp [Pool.Awaits, Option.any_eq_true])

def World.unindexed (w : World) : List Nat := (w.stage.map (·.unindexed)).getD []

/-- What an event makes of a source that stays. -/
def rowAfter (w : World) (row : SourceRow) : SourceEvent → SourceRow
  | .staged contentMd src =>
    if Pool.Awaits w.corpus.pool src.url row.id then row.fill contentMd src else row
  | .attached key _ => if w.corpus.Keyed key row.id then { row with indexError := none } else row
  | .upserted key title =>
    if w.corpus.Keyed key row.id then
      { row with title := some title, url := none, reliability := none }
    else row
  | .indexedInBackground key error =>
    if w.corpus.Keyed key row.id then
      applyIndexOutcome { row with indexError := error } (w.corpus.chunks row.id)
    else row
  | .indexedByRun id result =>
    if row.id = id then
      applyIndexOutcome
        { row with indexError := if result.isSome then none else some fileErrorMessage }
        (result.getD 0)
    else row
  | .toggled id isIncluded => if row.id = id then { row with isIncluded } else row
  | .decided excluded => if row.id ∈ excluded then { row with isIncluded := false } else row
  | .swept =>
    if row.id ∈ w.unindexed ∧ row.isIncluded ∧ w.corpus.chunks row.id = 0 then
      applyIndexOutcome row 0
    else row
  | _ => row

def survives (row : SourceRow) : SourceEvent → Bool
  | .deleted id => row.id ≠ id
  | _ => true

/-- The sources after an event: those that stay, and at most one that is new. -/
structure Grows (w : World) (e : SourceEvent) (w' : World) (new : List SourceRow) : Prop where
  rows : w'.corpus.pool.rows =
    (w.corpus.pool.rows.filter (survives · e)).map (rowAfter w · e) ++ new
  next : w'.corpus.pool.next = w.corpus.pool.next + new.length
  ids : ∀ row ∈ new, row.id = w.corpus.pool.next
  one : new.length ≤ 1
  keys : ∀ id, (∀ row ∈ new, row.id = id → row.fileBacked = false) →
    w'.corpus.keyOf id = w.corpus.keyOf id ∨ w'.corpus.keyOf id = none
  file : ∀ row ∈ new, row.fileBacked → row.url = none

variable {chunkMarkdown} {w w' : World} {e : SourceEvent} {row : SourceRow} {id n : Nat}

@[simp] theorem applyIndexOutcome_id (row : SourceRow) (n : Nat) :
    (applyIndexOutcome row n).id = row.id := by
  unfold applyIndexOutcome
  split_ifs <;> rfl

@[simp] theorem applyIndexOutcome_fileBacked (row : SourceRow) (n : Nat) :
    (applyIndexOutcome row n).fileBacked = row.fileBacked := by
  unfold applyIndexOutcome
  split_ifs <;> rfl

@[simp] theorem applyIndexOutcome_url (row : SourceRow) (n : Nat) :
    (applyIndexOutcome row n).url = row.url := by
  unfold applyIndexOutcome
  split_ifs <;> rfl

@[simp] theorem rowAfter_id (w : World) (row : SourceRow) (e : SourceEvent) :
    (rowAfter w row e).id = row.id := by
  cases e <;> simp only [rowAfter] <;> split_ifs <;> simp

@[simp] theorem rowAfter_fileBacked (w : World) (row : SourceRow) (e : SourceEvent) :
    (rowAfter w row e).fileBacked = row.fileBacked := by
  cases e <;> simp only [rowAfter] <;> split_ifs <;> simp [SourceRow.fill]

/-- What a step of the machine is: one of the index stage of the run, or another transaction. -/
theorem step_cases (h : step chunkMarkdown w e = some w') :
    (e = .loaded ∧ w.stage = none ∧
      w' = { w with stage := some (.loaded (loadIncluded w.corpus)) }) ∨
    (∃ staged, e = .compared ∧ w.stage = some (.loaded staged) ∧
      w' = { w with stage := some (.indexing staged
        ((staged.filter fun s => hasUsableContent s.contentMd).filter fun s =>
          w.corpus.chunks s.sourceId = 0)
        (((staged.filter fun s => hasUsableContent s.contentMd).filter fun s =>
          w.corpus.chunks s.sourceId ≠ 0).map (·.sourceId))) }) ∨
    (∃ staged src todo indexed corpus n, e = .embedded ∧
      w.stage = some (.indexing staged (src :: todo) indexed) ∧
      indexExisting chunkMarkdown w.corpus src = some (corpus, n) ∧
      w' = { corpus, stage := some (.indexing staged todo
          (if n = 0 then indexed else indexed ++ [src.sourceId])) }) ∨
    (∃ staged indexed, e = .swept ∧ w.stage = some (.indexing staged [] indexed) ∧
      w' = { corpus := autoExcludeChunkless w.corpus w.unindexed }) ∨
    (e = .stopped ∧ w' = { w with stage := none }) ∨
    ∃ corpus, tablesStep w.corpus e = some corpus ∧ w' = { w with corpus } := by
  unfold step at h
  split at h
  · rename_i hstage
    cases h
    exact .inl ⟨rfl, hstage, rfl⟩
  · rename_i staged hstage
    cases h
    exact .inr (.inl ⟨staged, rfl, hstage, rfl⟩)
  · rename_i staged src todo indexed hstage
    obtain ⟨⟨corpus, n⟩, hindex, rfl⟩ := Option.map_eq_some_iff.mp h
    exact .inr (.inr (.inl ⟨staged, src, todo, indexed, corpus, n, rfl, hstage, hindex, rfl⟩))
  · rename_i staged indexed hstage
    cases h
    refine .inr (.inr (.inr (.inl ⟨staged, indexed, rfl, hstage, ?_⟩)))
    simp [World.unindexed, hstage]
  · cases h
    exact .inr (.inr (.inr (.inr (.inl ⟨rfl, rfl⟩))))
  · obtain ⟨corpus, htables, rfl⟩ := Option.map_eq_some_iff.mp h
    exact .inr (.inr (.inr (.inr (.inr ⟨corpus, htables, rfl⟩))))

/-- The chunks of the next source, if it has any, come to those that are there. -/
theorem indexExisting_cases {c c' : Corpus} {src : StagedWebSource}
    (h : indexExisting chunkMarkdown c src = some (c', n)) :
    c'.pool = c.pool ∧ c'.keyOf = c.keyOf ∧
      c'.chunks = Function.update c.chunks src.sourceId (c.chunks src.sourceId + n) := by
  dsimp only [indexExisting] at h
  generalize (if (cleanWebMarkdown src.contentMd).isEmpty then 0
    else chunkMarkdown (cleanWebMarkdown src.contentMd)) = made at h
  split at h
  · cases h
    exact ⟨rfl, rfl, (Function.update_eq_self _ _).symm⟩
  · obtain ⟨corpus, hinsert, heq⟩ := Option.map_eq_some_iff.mp h
    cases heq
    simp only [insertChunks, Option.ite_none_right_eq_some, Option.some.injEq] at hinsert
    obtain ⟨-, rfl⟩ := hinsert
    exact ⟨rfl, rfl, rfl⟩

theorem update_rows (pool : Pool) (id : Nat) (f : SourceRow → SourceRow) :
    (pool.update id f).rows = pool.rows.map fun row => if row.id = id then f row else row := rfl

theorem keyed_iff {c : Corpus} {key : FileKey} (h : c.withKey key = some row) :
    c.Keyed key id ↔ row.id = id := by
  simp [Corpus.Keyed, h]

/-- An event that changes the sources one by one. -/
theorem grows_of_map (g : SourceRow → SourceRow)
    (hrows : w'.corpus.pool.rows = w.corpus.pool.rows.map g)
    (hnext : w'.corpus.pool.next = w.corpus.pool.next)
    (hkeys : ∀ id, w'.corpus.keyOf id = w.corpus.keyOf id ∨ w'.corpus.keyOf id = none)
    (hall : ∀ row, survives row e) (hg : ∀ row ∈ w.corpus.pool.rows, g row = rowAfter w row e) :
    Grows w e w' [] where
  rows := by
    have hkeep : w.corpus.pool.rows.filter (survives · e) = w.corpus.pool.rows :=
      List.filter_eq_self.mpr fun row _ => hall row
    rw [hkeep, List.append_nil, hrows]
    exact List.map_congr_left hg
  next := hnext
  ids := by simp
  one := Nat.zero_le _
  keys id _ := hkeys id
  file := by simp

theorem grows_of_same (hpool : w'.corpus.pool = w.corpus.pool)
    (hkeys : ∀ id, w'.corpus.keyOf id = w.corpus.keyOf id ∨ w'.corpus.keyOf id = none)
    (hall : ∀ row, survives row e) (hg : ∀ row, rowAfter w row e = row) : Grows w e w' [] :=
  grows_of_map (fun row => row) (by rw [hpool, List.map_id']) (by rw [hpool]) hkeys hall
    fun row _ => (hg row).symm

/-- An event that adds one source and leaves the others. -/
theorem grows_of_insert (new : SourceRow)
    (hrows : w'.corpus.pool.rows = w.corpus.pool.rows ++ [new])
    (hnext : w'.corpus.pool.next = w.corpus.pool.next + 1)
    (hnew : new.id = w.corpus.pool.next)
    (hkeys : ∀ id, (new.id = id → new.fileBacked = false) →
      w'.corpus.keyOf id = w.corpus.keyOf id)
    (hfile : new.fileBacked → new.url = none)
    (hall : ∀ row, survives row e) (hg : ∀ row ∈ w.corpus.pool.rows, rowAfter w row e = row) :
    Grows w e w' [new] where
  rows := by
    have hkeep : w.corpus.pool.rows.filter (survives · e) = w.corpus.pool.rows :=
      List.filter_eq_self.mpr fun row _ => hall row
    have hmap : w.corpus.pool.rows.map (rowAfter w · e) = w.corpus.pool.rows := by
      conv_rhs => rw [← List.map_id w.corpus.pool.rows]
      exact List.map_congr_left hg
    rw [hkeep, hmap, hrows]
  next := hnext
  ids := by simpa using hnew
  one := Nat.le_refl _
  keys id h := .inl (hkeys id (h new (List.mem_singleton_self _)))
  file := by simpa using hfile

theorem stage_grow (contentMd : Text) (src : CollectedSource) :
    ∃ new, Grows w (.staged contentMd src)
      { w with corpus := { w.corpus with pool := (stage w.corpus.pool contentMd src).1 } } new := by
  cases hrow : existing w.corpus.pool src.url with
  | none =>
    have hidle : ∀ id, ¬ Pool.Awaits w.corpus.pool src.url id := by simp [Pool.Awaits, hrow]
    obtain ⟨new, hnew, hweb, hstage⟩ : ∃ new : SourceRow,
        new.id = w.corpus.pool.next ∧ new.fileBacked = false ∧
          (stage w.corpus.pool contentMd src).1 =
            { rows := w.corpus.pool.rows ++ [new], next := w.corpus.pool.next + 1 } :=
      ⟨_, rfl, rfl, by rw [stage, hrow]⟩
    refine ⟨[new], grows_of_insert new (by rw [hstage]) (by rw [hstage]) hnew (fun _ _ => rfl)
      (by simp [hweb]) (fun _ => rfl) ?_⟩
    intro row _
    rw [rowAfter, if_neg (hidle row.id)]
  | some found =>
    by_cases hblank : found.isBlank
    · refine ⟨[], grows_of_map
        (fun row => if row.id = found.id then row.fill contentMd src else row)
        (by simp [stage, hrow, hblank, update_rows]) (by simp [stage, hrow, hblank, Pool.update])
        (fun _ => .inl rfl) (fun _ => rfl) ?_⟩
      intro row _
      have hawaits : Pool.Awaits w.corpus.pool src.url row.id ↔ row.id = found.id := by
        simp only [Pool.Awaits, hrow, Option.some.injEq, exists_eq_left', hblank, true_and]
        exact eq_comm
      simp only [rowAfter, hawaits]
    · have hidle : ∀ id, ¬ Pool.Awaits w.corpus.pool src.url id := by
        simp [Pool.Awaits, hrow, hblank]
      exact ⟨[], grows_of_same (by simp [stage, hrow, hblank]) (fun _ => .inl rfl) (fun _ => rfl)
        fun row => by rw [rowAfter, if_neg (hidle row.id)]⟩

theorem insert_grow {c : Corpus} {key : FileKey} {title : Text}
    (hnone : w.corpus.withKey key = none) (hc : c = w.corpus.insert key title)
    (he : e = .attached key title ∨ e = .upserted key title) :
    ∃ new, Grows w e { w with corpus := c } new := by
  subst hc
  have hnot : ∀ id, ¬ w.corpus.Keyed key id := by simp [Corpus.Keyed, hnone]
  have hkeys : ∀ id, (w.corpus.pool.next = id → true = false) →
      (w.corpus.insert key title).keyOf id = w.corpus.keyOf id := fun id hid =>
    Function.update_of_ne (fun heq => Bool.noConfusion (hid heq.symm)) _ _
  rcases he with rfl | rfl
  · exact ⟨_, grows_of_insert _ rfl rfl rfl hkeys (fun _ => rfl) (fun _ => rfl)
      fun row _ => by rw [rowAfter, if_neg (hnot row.id)]⟩
  · exact ⟨_, grows_of_insert _ rfl rfl rfl hkeys (fun _ => rfl) (fun _ => rfl)
      fun row _ => by rw [rowAfter, if_neg (hnot row.id)]⟩

theorem tables_grow {c : Corpus} (h : tablesStep w.corpus e = some c) :
    ∃ new, Grows w e { w with corpus := c } new := by
  cases e with
  | staged contentMd src =>
    cases h
    exact stage_grow contentMd src
  | attached key title =>
    cases h
    cases hkey : w.corpus.withKey key with
    | none => exact insert_grow hkey (by rw [placeholderSource, hkey]) (.inl rfl)
    | some found =>
      refine ⟨[], grows_of_map
        (fun row => if row.id = found.id then { row with indexError := none } else row)
        (by simp [placeholderSource, hkey, Corpus.update, update_rows])
        (by simp [placeholderSource, hkey, Corpus.update, Pool.update])
        (fun _ => .inl (by simp [placeholderSource, hkey, Corpus.update])) (fun _ => rfl) ?_⟩
      intro row _
      simp only [rowAfter, keyed_iff hkey, eq_comm]
  | upserted key title =>
    cases h
    cases hkey : w.corpus.withKey key with
    | none => exact insert_grow hkey (by rw [upsertSource, hkey]) (.inr rfl)
    | some found =>
      refine ⟨[], grows_of_map
        (fun row => if row.id = found.id then
          { row with title := some title, url := none, reliability := none } else row)
        (by simp [upsertSource, hkey, Corpus.update, update_rows])
        (by simp [upsertSource, hkey, Corpus.update, Pool.update])
        (fun _ => .inl (by simp [upsertSource, hkey, Corpus.update])) (fun _ => rfl) ?_⟩
      intro row _
      simp only [rowAfter, keyed_iff hkey, eq_comm]
  | inserted id n =>
    simp only [tablesStep, insertChunks, Option.ite_none_right_eq_some, Option.some.injEq] at h
    obtain ⟨-, -, rfl⟩ := h
    exact ⟨[], grows_of_same rfl (fun _ => .inl rfl) (fun _ => rfl) fun _ => rfl⟩
  | indexedInBackground key error =>
    cases h
    cases hkey : w.corpus.withKey key with
    | none =>
      have hnot : ∀ id, ¬ w.corpus.Keyed key id := by simp [Corpus.Keyed, hkey]
      exact ⟨[], grows_of_same (by simp [backgroundOutcome, hkey])
        (fun _ => .inl (by simp [backgroundOutcome, hkey])) (fun _ => rfl) fun row => by
        rw [rowAfter, if_neg (hnot row.id)]⟩
    | some found =>
      refine ⟨[], grows_of_map
        (fun row => if row.id = found.id then
          applyIndexOutcome { row with indexError := error } (w.corpus.chunks found.id) else row)
        (by simp [backgroundOutcome, hkey, Corpus.update, update_rows])
        (by simp [backgroundOutcome, hkey, Corpus.update, Pool.update])
        (fun _ => .inl (by simp [backgroundOutcome, hkey, Corpus.update])) (fun _ => rfl) ?_⟩
      intro row _
      simp only [rowAfter, keyed_iff hkey, eq_comm (a := found.id)]
      by_cases hid : row.id = found.id
      · rw [if_pos hid, if_pos hid, hid]
      · rw [if_neg hid, if_neg hid]
  | indexedByRun id result =>
    simp only [tablesStep, Option.ite_none_left_eq_some, Option.some.injEq] at h
    obtain ⟨-, rfl⟩ := h
    exact ⟨[], grows_of_map _ rfl rfl (fun _ => .inl rfl) (fun _ => rfl) fun _ _ => rfl⟩
  | toggled id isIncluded =>
    simp only [tablesStep, Option.ite_none_right_eq_some, Option.some.injEq] at h
    obtain ⟨-, rfl⟩ := h
    exact ⟨[], grows_of_map _ rfl rfl (fun _ => .inl rfl) (fun _ => rfl) fun _ _ => rfl⟩
  | decided excluded =>
    cases h
    exact ⟨[], grows_of_map _ rfl rfl (fun _ => .inl rfl) (fun _ => rfl) fun _ _ => rfl⟩
  | deleted id =>
    simp only [tablesStep, deleteProjectSource] at h
    split at h
    · split at h
      · cases h
        refine ⟨[], ?_, rfl, by simp, Nat.zero_le _, fun _ _ => .inl rfl, by simp⟩
        simp [survives, rowAfter]
      · cases h
    · cases h
  | nodeDeleted node =>
    cases h
    have hkeys : ∀ id, (w.corpus.keyOf id).filter (· ≠ .library node) = w.corpus.keyOf id ∨
        (w.corpus.keyOf id).filter (· ≠ .library node) = none := by
      intro id
      cases w.corpus.keyOf id with
      | none => exact .inl rfl
      | some key => by_cases hkey : key = .library node <;> simp [Option.filter, hkey]
    exact ⟨[], grows_of_same rfl hkeys (fun _ => rfl) fun _ => rfl⟩
  | loaded => cases h
  | compared => cases h
  | embedded => cases h
  | swept => cases h
  | stopped => cases h

theorem grows_step (h : step chunkMarkdown w e = some w') : ∃ new, Grows w e w' new := by
  rcases step_cases h with ⟨rfl, -, rfl⟩ | ⟨staged, rfl, -, rfl⟩ |
    ⟨staged, src, todo, indexed, corpus, n, rfl, -, hindex, rfl⟩ | ⟨staged, indexed, rfl, -, rfl⟩ |
    ⟨rfl, rfl⟩ | ⟨corpus, htables, rfl⟩
  · exact ⟨[], grows_of_same rfl (fun _ => .inl rfl) (fun _ => rfl) fun _ => rfl⟩
  · exact ⟨[], grows_of_same rfl (fun _ => .inl rfl) (fun _ => rfl) fun _ => rfl⟩
  · exact ⟨[], grows_of_same (indexExisting_cases hindex).1
      (fun _ => .inl (by rw [(indexExisting_cases hindex).2.1])) (fun _ => rfl) fun _ => rfl⟩
  · exact ⟨[], grows_of_map _ rfl rfl (fun _ => .inl rfl) (fun _ => rfl) fun _ _ => rfl⟩
  · exact ⟨[], grows_of_same rfl (fun _ => .inl rfl) (fun _ => rfl) fun _ => rfl⟩
  · exact tables_grow htables

/-- What the tables always satisfy: the ids are their own, only a source with a file has a key,
and one with a file has no address. -/
structure Corpus.Sound (c : Corpus) : Prop where
  fresh : ∀ row ∈ c.pool.rows, row.id < c.pool.next
  ids : (c.pool.rows.map (·.id)).Nodup
  unused : ∀ id, c.pool.next ≤ id → c.keyOf id = none
  web : ∀ row ∈ c.pool.rows, row.fileBacked = false → c.keyOf row.id = none
  file : ∀ row ∈ c.pool.rows, row.fileBacked → row.url = none

/-- The source with the id is a web source. -/
def World.Web (w : World) (id : Nat) : Prop := ∃ row, w.row id = some row ∧ row.fileBacked = false

theorem row_of_mem (hs : w.corpus.Sound) (h : row ∈ w.corpus.pool.rows) :
    w.row row.id = some row := by
  obtain ⟨r, hr⟩ : ∃ r, w.row row.id = some r :=
    Option.isSome_iff_exists.mp (List.find?_isSome.mpr ⟨row, h, by simp⟩)
  have hid : r.id = row.id := by simpa using List.find?_some hr
  rw [hr, List.inj_on_of_nodup_map hs.ids (List.mem_of_find?_eq_some hr) h hid]

theorem mem_of_row (h : w.row id = some row) : row ∈ w.corpus.pool.rows ∧ row.id = id :=
  ⟨List.mem_of_find?_eq_some h, by simpa using List.find?_some h⟩

/-- A source that is not deleted is found again, as the event leaves it. -/
theorem row_step (h : step chunkMarkdown w e = some w') (hrow : w.row id = some row)
    (hdel : e ≠ .deleted id) : w'.row id = some (rowAfter w row e) := by
  obtain ⟨new, hg⟩ := grows_step h
  have hkept : ∀ r : SourceRow, r.id = id → survives r e := by
    intro r hr
    cases e with
    | deleted i =>
      have : r.id ≠ i := fun heq => hdel (by rw [← heq, hr])
      simpa [survives] using this
    | _ => rfl
  have hsame : (fun r => decide (survives r e ∧
      ((fun r : SourceRow => decide (r.id = id)) ∘ (rowAfter w · e)) r)) =
      fun r : SourceRow => decide (r.id = id) := by
    funext r
    by_cases hr : r.id = id
    · simp [hr, hkept r hr]
    · simp [hr]
  have hfind : ((w.corpus.pool.rows.filter (survives · e)).map (rowAfter w · e)).find?
      (·.id = id) = some (rowAfter w row e) := by
    rw [List.find?_map, List.find?_filter, hsame]
    exact congrArg (Option.map (rowAfter w · e)) hrow
  rw [World.row, Pool.row, hg.rows, List.find?_append, hfind, Option.some_or]

theorem rowAfter_url (w : World) (row : SourceRow) (e : SourceEvent) :
    (rowAfter w row e).url = row.url ∨ (rowAfter w row e).url = none := by
  cases e with
  | upserted key title =>
    simp only [rowAfter]
    split_ifs
    · exact .inr rfl
    · exact .inl rfl
  | _ =>
    left
    simp only [rowAfter]
    try split_ifs <;> simp [SourceRow.fill]

theorem keyOf_of_keyed {key : FileKey} (h : w.corpus.Keyed key id) :
    w.corpus.keyOf id = some key := by
  obtain ⟨row, hrow, rfl⟩ := h
  simpa using List.find?_some hrow

theorem not_keyed (hkey : w.corpus.keyOf id = none) (key : FileKey) : ¬ w.corpus.Keyed key id := by
  intro h
  rw [keyOf_of_keyed h] at hkey
  cases hkey

/-- Only an upsert of its key changes the address of a source. -/
theorem rowAfter_url_of_web (hkey : w.corpus.keyOf row.id = none) :
    (rowAfter w row e).url = row.url := by
  cases e with
  | upserted key title => rw [rowAfter, if_neg (not_keyed hkey key)]
  | _ =>
    simp only [rowAfter]
    try split_ifs <;> simp [SourceRow.fill]

theorem sound_step (h : step chunkMarkdown w e = some w') (hs : w.corpus.Sound) :
    w'.corpus.Sound := by
  obtain ⟨new, hg⟩ := grows_step h
  have hnext : w.corpus.pool.next ≤ w'.corpus.pool.next := by
    rw [hg.next]
    exact Nat.le_add_right _ _
  have hcases : ∀ row' ∈ w'.corpus.pool.rows,
      (∃ row ∈ w.corpus.pool.rows, row' = rowAfter w row e) ∨ row' ∈ new := by
    intro row' hrow'
    rw [hg.rows] at hrow'
    rcases List.mem_append.mp hrow' with hold | hnew
    · obtain ⟨row, hrow, rfl⟩ := List.mem_map.mp hold
      exact .inl ⟨row, (List.mem_filter.mp hrow).1, rfl⟩
    · exact .inr hnew
  have hlast : ∀ row ∈ new, row.id < w'.corpus.pool.next := by
    intro row hrow
    rw [hg.ids row hrow, hg.next]
    exact Nat.lt_add_of_pos_right (List.length_pos_of_mem hrow)
  refine ⟨?_, ?_, ?_, ?_, ?_⟩
  · intro row' hrow'
    rcases hcases row' hrow' with ⟨row, hrow, rfl⟩ | hnew
    · rw [rowAfter_id]
      exact (hs.fresh row hrow).trans_le hnext
    · exact hlast row' hnew
  · have hold : (w.corpus.pool.rows.filter (survives · e)).map ((·.id) ∘ (rowAfter w · e)) =
        (w.corpus.pool.rows.filter (survives · e)).map (·.id) :=
      List.map_congr_left fun row _ => rowAfter_id w row e
    have hnew : (new.map (·.id)).Nodup := by
      rcases Nat.le_one_iff_eq_zero_or_eq_one.mp hg.one with h0 | h1
      · rw [List.length_eq_zero_iff.mp h0]
        exact List.nodup_nil
      · obtain ⟨r, hr⟩ := List.length_eq_one_iff.mp h1
        rw [hr]
        exact List.nodup_singleton _
    rw [hg.rows, List.map_append, List.map_map, hold]
    refine List.nodup_append.mpr ⟨?_, hnew, ?_⟩
    · exact (List.filter_sublist.map _).nodup hs.ids
    · intro i hi j hj heq
      obtain ⟨row, hrow, rfl⟩ := List.mem_map.mp hi
      obtain ⟨r, hr, rfl⟩ := List.mem_map.mp hj
      have hlt := hs.fresh row (List.mem_filter.mp hrow).1
      have hid := hg.ids r hr
      omega
  · intro id hid
    rcases hg.keys id fun row hrow heq => absurd (hlast row hrow) (by omega) with heq | heq
    · rw [heq, hs.unused id (hnext.trans hid)]
    · exact heq
  · intro row' hrow' hweb
    rcases hcases row' hrow' with ⟨row, hrow, rfl⟩ | hnew
    · rw [rowAfter_id]
      rw [rowAfter_fileBacked] at hweb
      have hlt := hs.fresh row hrow
      rcases hg.keys row.id fun r hr heq => absurd (hg.ids r hr) (by omega) with heq | heq
      · rw [heq, hs.web row hrow hweb]
      · exact heq
    · have hone : ∀ r ∈ new, r = row' := by
        obtain ⟨r, rfl⟩ := List.length_eq_one_iff.mp
          (Nat.le_antisymm hg.one (List.length_pos_of_mem hnew))
        simp_all
      rcases hg.keys row'.id fun r hr _ => hone r hr ▸ hweb with heq | heq
      · rw [heq, hg.ids row' hnew, hs.unused _ (Nat.le_refl _)]
      · exact heq
  · intro row' hrow' hfile
    rcases hcases row' hrow' with ⟨row, hrow, rfl⟩ | hnew
    · rw [rowAfter_fileBacked] at hfile
      rcases rowAfter_url w row e with heq | heq
      · rw [heq, hs.file row hrow hfile]
      · exact heq
    · exact hg.file row' hnew hfile

end RownRg.Exclusion
