import RownRg.Workflows.WebContent
import Mathlib.Data.List.Dedup

/-! The sources that a research run collects into the pool. -/

open PyText

namespace RownRg.WebCollect

structure CollectedSource where
  url : Text
  title : Option Text := none
  contentMd : Option Text := none
  reliability : Option Text := none
  matchedSections : List Text := []
  pageAge : Option Text := none
  deriving DecidableEq

/-- A row of `project_sources`; the fields from `contentMd` on are in its metadata. -/
structure SourceRow where
  id : Nat
  url : Option Text
  title : Option Text
  reliability : Option Text
  fileBacked : Bool := false
  isIncluded : Bool := true
  contentMd : Option Text
  matchedSections : List Text
  pageAge : Option Text
  autoExcluded : Bool := false
  indexError : Option Text := none

/-- The sources of a project, and the next fresh id. -/
structure Pool where
  rows : List SourceRow := []
  next : Nat := 0

structure SourceRef where
  id : Nat
  title : Text
  url : Option Text
  reliability : Option Text
  matchedSections : List Text
  pageAge : Option Text
  hasContent : Bool
  deriving DecidableEq

/-- `a or b` -/
def orText (a b : Option Text) : Option Text := if (a.getD []).isEmpty then b else a

def sourceDedupKey (lower : Text → Text) (url title : Option Text) : Text :=
  lower (strip ((orText url title).getD []))

def SourceRow.isBlank (row : SourceRow) : Bool := (strip (row.contentMd.getD [])).isEmpty

def SourceRow.isUsable (row : SourceRow) : Bool := hasUsableContent (row.contentMd.getD [])

/-- `_source_ref_from_row` -/
def sourceRefFromRow (row : SourceRow) : SourceRef where
  id := row.id
  title := (orText row.title (orText row.url (some "(제목 없음)".toList))).getD []
  url := row.url
  reliability := row.reliability
  matchedSections := row.matchedSections
  pageAge := row.pageAge
  hasContent := row.isUsable || row.fileBacked

/-- The keys of the sources that are not collected again. -/
def excludeKeys (lower : Text → Text) (rows : List SourceRow) : List Text :=
  (((rows.map sourceRefFromRow).filter (·.hasContent)).map fun ref =>
    sourceDedupKey lower ref.url (some ref.title)).filter (!·.isEmpty) |>.dedup

/-- The row of a failed retrieval takes the content; one that was excluded only for having none
is included again. -/
def SourceRow.fill (row : SourceRow) (contentMd : Text) (src : CollectedSource) : SourceRow :=
  let promoted := !(strip contentMd).isEmpty && row.autoExcluded
  { row with
    contentMd := some contentMd
    matchedSections :=
      if src.matchedSections.isEmpty then row.matchedSections else src.matchedSections
    pageAge := orText src.pageAge row.pageAge
    autoExcluded := row.autoExcluded && !promoted
    indexError := if promoted then none else row.indexError
    isIncluded := row.isIncluded || promoted
    title := orText src.title row.title
    reliability := orText src.reliability row.reliability }

def Pool.update (pool : Pool) (id : Nat) (f : SourceRow → SourceRow) : Pool :=
  { pool with rows := pool.rows.map fun row => if row.id = id then f row else row }

def existing (pool : Pool) (url : Text) : Option SourceRow :=
  if url.isEmpty then none else pool.rows.find? fun row => row.url == some url

def stage (pool : Pool) (contentMd : Text) (src : CollectedSource) : Pool × Nat :=
  match existing pool src.url with
  | some row =>
    if row.isBlank then
      (pool.update row.id fun r => r.fill contentMd src, row.id)
    else (pool, row.id)
  | none =>
    ({ rows := pool.rows ++ [{
          id := pool.next
          url := some src.url
          title := src.title
          reliability := src.reliability
          contentMd := some contentMd
          matchedSections := src.matchedSections
          pageAge := src.pageAge }]
       next := pool.next + 1 }, pool.next)

/-- `refs`, `seen` and the pool of the collection so far. -/
structure Collected where
  refs : List SourceRef := []
  seen : List Text
  pool : Pool

def CollectedSource.key (lower : Text → Text) (src : CollectedSource) : Text :=
  sourceDedupKey lower (some src.url) src.title

def CollectedSource.content (src : CollectedSource) : Text :=
  cleanWebMarkdown (src.contentMd.getD [])

def CollectedSource.ref (src : CollectedSource) (id : Nat) : SourceRef where
  id
  title := (orText src.title (some src.url)).getD []
  url := some src.url
  reliability := src.reliability
  matchedSections := src.matchedSections
  pageAge := src.pageAge
  hasContent := true

/-- One source of a call. -/
def take (lower : Text → Text) (st : Collected) (src : CollectedSource) : Collected :=
  let key := src.key lower
  if !key.isEmpty && st.seen.contains key then st
  else
    let seen := if key.isEmpty then st.seen else key :: st.seen
    if !hasUsableContent src.content then { st with seen }
    else
      let staged := stage st.pool src.content src
      { refs := st.refs ++ [src.ref staged.2], seen, pool := staged.1 }

/-- The sources of the successful calls, call after call. -/
def collect (lower : Text → Text) (pool : Pool) (calls : List (List CollectedSource)) : Collected :=
  calls.foldl (fun st call => call.foldl (take lower) st)
    { seen := excludeKeys lower pool.rows, pool }

structure Chapter where
  number : Nat
  title : Text
  sectionTitles : List Text

structure CollectRun where
  st : Collected
  nOk : Nat := 0
  failed : Bool := false

/-- `none` is a call that failed or did not answer in time. -/
def takeCall (lower : Text → Text) (run : CollectRun) :
    Option (List CollectedSource) → CollectRun
  | none => { run with failed := true }
  | some sources => { run with nOk := run.nOk + 1, st := sources.foldl (take lower) run.st }

/-- One pass over the chapters, left at the first one before which `stop` holds. -/
def collectPass (lower : Text → Text) (research : Chapter → Option (List CollectedSource))
    (stop : Collected → Bool) : List Chapter → CollectRun → CollectRun
  | [], run => run
  | ch :: chs, run =>
    if stop run.st then run
    else collectPass lower research stop chs (takeCall lower run (research ch))

def targetMet (target : Option Nat) (st : Collected) : Bool :=
  match target with
  | none => false
  | some n => (st.refs.filter (·.hasContent)).length ≥ n

/-- The chapters in the order of the calls, with the titles that are asked for. -/
def chaptersFor (chapters : List Chapter) (focusTitles : List Text) (ensureCoverage : Bool)
    (excluded : Nat) : List Chapter :=
  let focused := (chapters.map fun ch =>
    { ch with sectionTitles := ch.sectionTitles.filter (· ∈ focusTitles) }).filter
      (!·.sectionTitles.isEmpty)
  let chapters := if focusTitles.isEmpty || focused.isEmpty then chapters else focused
  if ensureCoverage || chapters.isEmpty then chapters
  else
    let offset := excluded % chapters.length
    chapters.drop offset ++ chapters.take offset

/-- `_collect_sources`; `research` answers the call for a chapter in a pass. -/
def collectSources (lower : Text → Text)
    (research : Nat → Chapter → Option (List CollectedSource)) (chapters : List Chapter)
    (target : Option Nat) (ensureCoverage : Bool) (focusTitles : List Text) (pool : Pool) :
    Option Collected :=
  let exclude := excludeKeys lower pool.rows
  let chapters := chaptersFor chapters focusTitles ensureCoverage exclude.length
  let run := collectPass lower (research 1) (fun st => !ensureCoverage && targetMet target st)
    chapters { st := { seen := exclude, pool } }
  let run :=
    if target.isNone || targetMet target run.st then run
    else collectPass lower (research 2) (targetMet target) chapters run
  if run.nOk = 0 && run.failed then none else some run.st

/-- What the rows of a pool always satisfy: their ids are their own, and the content of a row is
missing or can be used. -/
structure Pool.Sound (pool : Pool) : Prop where
  fresh : ∀ row ∈ pool.rows, row.id < pool.next
  ids : (pool.rows.map (·.id)).Nodup
  content : ∀ row ∈ pool.rows, row.isBlank ∨ row.isUsable

def Pool.row (pool : Pool) (id : Nat) : Option SourceRow := pool.rows.find? (·.id = id)

def SourceRef.key (lower : Text → Text) (ref : SourceRef) : Text :=
  sourceDedupKey lower ref.url (some ref.title)

/-- The first source with the key. -/
def firstWith (lower : Text → Text) (k : Text) (came : List CollectedSource) :
    Option CollectedSource :=
  came.find? fun src => src.key lower = k

/-- The first source with the key whose content can be used. -/
def firstUsable (lower : Text → Text) (k : Text) (came : List CollectedSource) :
    Option CollectedSource :=
  came.find? fun src => src.key lower = k && hasUsableContent src.content

/-- One usable copy of every source that came and was not in the pool. -/
structure KeepsUsable (lower : Text → Text) (pool : Pool) (came : List CollectedSource)
    (out : Collected) : Prop where
  kept : ∀ k, k ≠ [] → k ∉ excludeKeys lower pool.rows → ∀ src,
    firstUsable lower k came = some src →
      ∃ ref row, out.refs.filter (·.key lower = k) = [ref] ∧ out.pool.row ref.id = some row ∧
        row.contentMd = some src.content
  usable : ∀ ref ∈ out.refs, ∃ row, out.pool.row ref.id = some row ∧ row.isUsable
  listed : ∀ row ∈ out.pool.rows, row ∈ pool.rows ∨ ∃ ref ∈ out.refs, ref.id = row.id

variable {lower : Text → Text} {pool pool₀ : Pool} {row : SourceRow} {src : CollectedSource}
  {st : Collected} {came : List CollectedSource} {k t : Text} {id : Nat}

@[simp] theorem fill_id (row : SourceRow) (t : Text) (src : CollectedSource) :
    (row.fill t src).id = row.id := rfl

@[simp] theorem fill_url (row : SourceRow) (t : Text) (src : CollectedSource) :
    (row.fill t src).url = row.url := rfl

@[simp] theorem fill_contentMd (row : SourceRow) (t : Text) (src : CollectedSource) :
    (row.fill t src).contentMd = some t := rfl

@[simp] theorem ref_id (src : CollectedSource) (id : Nat) : (src.ref id).id = id := rfl

/-- A collected source is listed under its own key. -/
@[simp] theorem ref_key (lower : Text → Text) (src : CollectedSource) (id : Nat) :
    (src.ref id).key lower = src.key lower := by
  cases hurl : src.url with
  | nil =>
    cases htitle : src.title with
    | none => simp [SourceRef.key, CollectedSource.key, CollectedSource.ref, sourceDedupKey, orText,
        hurl, htitle]
    | some title =>
      cases title <;> simp [SourceRef.key, CollectedSource.key, CollectedSource.ref,
        sourceDedupKey, orText, hurl, htitle]
  | cons c url => simp [SourceRef.key, CollectedSource.key, CollectedSource.ref, sourceDedupKey,
      orText, hurl]

theorem key_of_url (hurl : src.url ≠ []) : src.key lower = lower (strip src.url) := by
  simp [CollectedSource.key, sourceDedupKey, orText, hurl]

theorem existing_some (h : existing pool src.url = some row) :
    src.url ≠ [] ∧ row ∈ pool.rows ∧ row.url = some src.url := by
  unfold existing at h
  split at h
  · cases h
  · rename_i hurl
    exact ⟨by simpa using hurl, List.mem_of_find?_eq_some h, by simpa using List.find?_some h⟩

theorem row_of_mem (hs : pool.Sound) (hrow : row ∈ pool.rows) : pool.row row.id = some row := by
  obtain ⟨r, hr⟩ : ∃ r, pool.row row.id = some r :=
    Option.isSome_iff_exists.mp (List.find?_isSome.mpr ⟨row, hrow, by simp⟩)
  have hid : r.id = row.id := by simpa using List.find?_some hr
  rw [hr, List.inj_on_of_nodup_map hs.ids (List.mem_of_find?_eq_some hr) hrow hid]

theorem not_isBlank_of_isUsable (h : row.isUsable) : row.isBlank = false := by
  simpa [SourceRow.isBlank] using not_blank_of_usable h

/-- What staging does: it fills a blank row with the address, leaves one that has content, or adds
a row. -/
theorem stage_cases (pool : Pool) (t : Text) (src : CollectedSource) :
    (∃ row, existing pool src.url = some row ∧ row.isBlank ∧
      stage pool t src = (pool.update row.id fun r => r.fill t src, row.id)) ∨
    (∃ row, existing pool src.url = some row ∧ row.isBlank = false ∧
      stage pool t src = (pool, row.id)) ∨
    (∃ row : SourceRow, row.id = pool.next ∧ row.contentMd = some t ∧ row.url = some src.url ∧
      stage pool t src = ({ rows := pool.rows ++ [row], next := pool.next + 1 }, pool.next)) := by
  unfold stage
  cases hrow : existing pool src.url with
  | none => exact .inr (.inr ⟨_, rfl, rfl, rfl, rfl⟩)
  | some row =>
    cases hblank : row.isBlank with
    | true => exact .inl ⟨row, rfl, hblank, by simp [hblank]⟩
    | false => exact .inr (.inl ⟨row, rfl, hblank, by simp [hblank]⟩)

theorem stage_sound (hs : pool.Sound) (ht : hasUsableContent t) : (stage pool t src).1.Sound := by
  rcases stage_cases pool t src with ⟨row, -, -, heq⟩ | ⟨row, -, -, heq⟩ | ⟨row, hid, hmd, -, heq⟩
  · rw [heq]
    refine ⟨?_, ?_, ?_⟩
    · intro r' hr'
      obtain ⟨r, hr, rfl⟩ := List.mem_map.mp hr'
      split <;> exact hs.fresh r hr
    · have hids : (pool.update row.id fun r => r.fill t src).rows.map (·.id) =
          pool.rows.map (·.id) := by
        refine (List.map_map).trans (List.map_congr_left ?_)
        intro r _
        dsimp only [Function.comp]
        split <;> rfl
      exact hids ▸ hs.ids
    · intro r' hr'
      obtain ⟨r, hr, rfl⟩ := List.mem_map.mp hr'
      split
      · exact .inr ht
      · exact hs.content r hr
  · rw [heq]
    exact hs
  · rw [heq]
    refine ⟨?_, ?_, ?_⟩
    · intro r hr
      rcases List.mem_append.mp hr with hr | hr
      · exact Nat.lt_succ_of_lt (hs.fresh r hr)
      · rw [List.mem_singleton.mp hr, hid]
        exact Nat.lt_succ_self _
    · rw [List.map_append, List.map_singleton, ← List.concat_eq_append, List.nodup_concat]
      refine ⟨?_, hs.ids⟩
      intro hmem
      obtain ⟨r, hr, hrid⟩ := List.mem_map.mp hmem
      exact absurd (hs.fresh r hr) (by omega)
    · intro r hr
      rcases List.mem_append.mp hr with hr | hr
      · exact hs.content r hr
      · rw [List.mem_singleton.mp hr]
        exact .inr (by simpa [SourceRow.isUsable, hmd] using ht)

/-- Rows with content stay as they are. -/
theorem mem_stage (hs : pool.Sound) (hrow : row ∈ pool.rows) (hblank : row.isBlank = false) :
    row ∈ (stage pool t src).1.rows := by
  rcases stage_cases pool t src with ⟨r, hr, hrb, heq⟩ | ⟨r, -, -, heq⟩ | ⟨r, -, -, -, heq⟩
  · rw [heq]
    refine List.mem_map.mpr ⟨row, hrow, if_neg ?_⟩
    intro hid
    rw [List.inj_on_of_nodup_map hs.ids hrow (existing_some hr).2.1 hid, hrb] at hblank
    cases hblank
  · rwa [heq]
  · rw [heq]
    exact List.mem_append_left _ hrow

/-- A row of the pool after staging was there before, or is the staged one. -/
theorem mem_of_mem_stage (hs : pool.Sound) (hrow : row ∈ (stage pool t src).1.rows) :
    row ∈ pool.rows ∨ row.id = (stage pool t src).2 ∧ row.url = some src.url := by
  rcases stage_cases pool t src with ⟨r, hr, -, heq⟩ | ⟨r, -, -, heq⟩ | ⟨r, hid, -, hurl, heq⟩
  · rw [heq] at hrow ⊢
    obtain ⟨r', hr', rfl⟩ := List.mem_map.mp hrow
    split
    · rename_i hid
      obtain ⟨-, hmem, hurl⟩ := existing_some hr
      rw [List.inj_on_of_nodup_map hs.ids hr' hmem hid]
      exact .inr ⟨rfl, hurl⟩
    · exact .inl hr'
  · rw [heq] at hrow
    exact .inl hrow
  · rw [heq] at hrow ⊢
    rcases List.mem_append.mp hrow with hrow | hrow
    · exact .inl hrow
    · rw [List.mem_singleton.mp hrow]
      exact .inr ⟨hid, hurl⟩

/-- The staged row; with no content at the address before, it holds the content. -/
theorem exists_staged (hs : pool.Sound) (ht : hasUsableContent t) :
    ∃ row ∈ (stage pool t src).1.rows, row.id = (stage pool t src).2 ∧ row.isUsable ∧
      ((src.url ≠ [] → ∀ r ∈ pool.rows, r.url = some src.url → r.isBlank) →
        row.contentMd = some t) := by
  rcases stage_cases pool t src with ⟨r, hr, -, heq⟩ | ⟨r, hr, hblank, heq⟩ | ⟨r, hid, hmd, -, heq⟩
  · rw [heq]
    refine ⟨r.fill t src, List.mem_map.mpr ⟨r, (existing_some hr).2.1, if_pos rfl⟩, rfl, ht, ?_⟩
    exact fun _ => rfl
  · obtain ⟨hurl, hmem, hrurl⟩ := existing_some hr
    rw [heq]
    refine ⟨r, hmem, rfl, ?_, ?_⟩
    · rcases hs.content r hmem with h | h
      · rw [hblank] at h
        cases h
      · exact h
    · intro hall
      rw [hall hurl r hmem hrurl] at hblank
      cases hblank
  · rw [heq]
    refine ⟨r, List.mem_append_right _ List.mem_cons_self, hid, ?_, fun _ => hmd⟩
    simpa [SourceRow.isUsable, hmd] using ht

/-! One source after the other. -/

/-- The keys seen after a source. -/
def seenAfter (lower : Text → Text) (st : Collected) (src : CollectedSource) : List Text :=
  if (src.key lower).isEmpty then st.seen else src.key lower :: st.seen

theorem mem_seenAfter (hk : k ≠ []) :
    k ∈ seenAfter lower st src ↔ k = src.key lower ∨ k ∈ st.seen := by
  unfold seenAfter
  split
  · rename_i hkey
    have hne : k ≠ src.key lower := fun h => hk (h.trans (List.isEmpty_iff.mp hkey))
    exact ⟨.inr, fun h => h.resolve_left hne⟩
  · exact List.mem_cons

/-- A source is passed over as seen, is passed over without content, or is staged and listed. -/
theorem take_cases (lower : Text → Text) (st : Collected) (src : CollectedSource) :
    (src.key lower ≠ [] ∧ src.key lower ∈ st.seen ∧ take lower st src = st) ∨
    ((src.key lower = [] ∨ src.key lower ∉ st.seen) ∧ hasUsableContent src.content = false ∧
      take lower st src = { st with seen := seenAfter lower st src }) ∨
    ((src.key lower = [] ∨ src.key lower ∉ st.seen) ∧ hasUsableContent src.content ∧
      take lower st src =
        { refs := st.refs ++ [src.ref (stage st.pool src.content src).2]
          seen := seenAfter lower st src
          pool := (stage st.pool src.content src).1 }) := by
  by_cases hseen : (!(src.key lower).isEmpty && st.seen.contains (src.key lower)) = true
  · refine .inl ⟨?_, ?_, by rw [take, if_pos hseen]⟩
    · simpa using (Bool.and_eq_true_iff.mp hseen).1
    · simpa using (Bool.and_eq_true_iff.mp hseen).2
  · have hnew : src.key lower = [] ∨ src.key lower ∉ st.seen := by
      simpa [Classical.or_iff_not_imp_left] using hseen
    cases husable : hasUsableContent src.content with
    | false =>
      refine .inr (.inl ⟨hnew, rfl, (if_neg hseen).trans ?_⟩)
      simp [husable, seenAfter]
    | true =>
      refine .inr (.inr ⟨hnew, rfl, (if_neg hseen).trans ?_⟩)
      simp [husable, seenAfter]

theorem firstWith_append_other (h : src.key lower ≠ k) :
    firstWith lower k (came ++ [src]) = firstWith lower k came := by
  simp [firstWith, List.find?_append, h]

theorem firstWith_append_seen (h : ∃ s ∈ came, s.key lower = k) :
    firstWith lower k (came ++ [src]) = firstWith lower k came := by
  obtain ⟨s, hs, hkey⟩ := h
  obtain ⟨s', hs'⟩ : ∃ s', firstWith lower k came = some s' :=
    Option.isSome_iff_exists.mp (List.find?_isSome.mpr ⟨s, hs, by simpa using hkey⟩)
  unfold firstWith at hs' ⊢
  rw [List.find?_append, hs', Option.some_or]

theorem firstWith_append_new (h : ∀ s ∈ came, s.key lower ≠ src.key lower) :
    firstWith lower (src.key lower) (came ++ [src]) = some src := by
  unfold firstWith
  rw [List.find?_append, List.find?_eq_none.mpr (by simpa using h)]
  simp

/-- The key is listed once, with the content of the source. -/
def Listed (lower : Text → Text) (st : Collected) (k : Text) (src : CollectedSource) : Prop :=
  ∃ ref, st.refs.filter (·.key lower = k) = [ref] ∧
    ∃ row ∈ st.pool.rows, row.id = ref.id ∧ row.isBlank = false ∧ row.contentMd = some src.content

/-- After the sources `came`: for each key that the pool did not have, the first source decides. -/
structure Holds (lower : Text → Text) (pool₀ : Pool) (came : List CollectedSource)
    (st : Collected) : Prop where
  sound : st.pool.Sound
  seen : ∀ k, k ≠ [] → (k ∈ st.seen ↔
    k ∈ excludeKeys lower pool₀.rows ∨ ∃ src ∈ came, src.key lower = k)
  usable : ∀ ref ∈ st.refs, ∃ row ∈ st.pool.rows, row.id = ref.id ∧ row.isUsable
  blank : ∀ row ∈ st.pool.rows, ∀ url, url ≠ [] → row.url = some url →
    lower (strip url) ≠ [] → lower (strip url) ∉ st.seen → row.isBlank
  listed : ∀ row ∈ st.pool.rows, row ∈ pool₀.rows ∨ ∃ ref ∈ st.refs, ref.id = row.id
  kept : ∀ k, k ≠ [] → k ∉ excludeKeys lower pool₀.rows → ∀ src, firstWith lower k came = some src →
    hasUsableContent src.content → Listed lower st k src
  lost : ∀ k, k ≠ [] → k ∉ excludeKeys lower pool₀.rows →
    (∀ src, firstWith lower k came = some src → hasUsableContent src.content = false) →
    st.refs.filter (·.key lower = k) = []

theorem mem_excludeKeys (hrow : row ∈ pool.rows) (h : row.isUsable) {url : Text} (hurl : url ≠ [])
    (hrurl : row.url = some url) (hkey : lower (strip url) ≠ []) :
    lower (strip url) ∈ excludeKeys lower pool.rows := by
  refine List.mem_dedup.mpr (List.mem_filter.mpr ⟨List.mem_map.mpr ⟨sourceRefFromRow row, ?_, ?_⟩, ?_⟩)
  · exact List.mem_filter.mpr ⟨List.mem_map_of_mem hrow, by simp [sourceRefFromRow, h]⟩
  · simp [sourceRefFromRow, sourceDedupKey, orText, hrurl, hurl]
  · simpa using hkey

theorem holds_nil (hs : pool₀.Sound) :
    Holds lower pool₀ [] { seen := excludeKeys lower pool₀.rows, pool := pool₀ } where
  sound := hs
  seen k _ := by simp
  usable ref href := by cases href
  blank row hrow url hurl hrurl hkey hnot := by
    rcases hs.content row hrow with hblank | husable
    · exact hblank
    · exact absurd (mem_excludeKeys hrow husable hurl hrurl hkey) hnot
  listed row hrow := .inl hrow
  kept k _ _ src h := by cases h
  lost k _ _ _ := rfl

theorem not_seen (h : Holds lower pool₀ came st) (hk : src.key lower ≠ [])
    (hnew : src.key lower ∉ st.seen) : ∀ s ∈ came, s.key lower ≠ src.key lower :=
  fun s hs hkey => hnew ((h.seen _ hk).mpr (.inr ⟨s, hs, hkey⟩))

theorem holds_seen (h : Holds lower pool₀ came st) (hk : src.key lower ≠ [])
    (hseen : src.key lower ∈ st.seen) : Holds lower pool₀ (came ++ [src]) st := by
  have hfirst : ∀ k, k ∉ excludeKeys lower pool₀.rows →
      firstWith lower k (came ++ [src]) = firstWith lower k came := by
    intro k hex
    by_cases hkey : src.key lower = k
    · subst hkey
      exact firstWith_append_seen (((h.seen _ hk).mp hseen).resolve_left hex)
    · exact firstWith_append_other hkey
  refine ⟨h.sound, ?_, h.usable, h.blank, h.listed, ?_, ?_⟩
  · intro k hne
    constructor
    · intro hmem
      rcases (h.seen k hne).mp hmem with hex | ⟨s, hs, hkey⟩
      · exact .inl hex
      · exact .inr ⟨s, List.mem_append_left _ hs, hkey⟩
    · rintro (hex | ⟨s, hs, hkey⟩)
      · exact (h.seen k hne).mpr (.inl hex)
      · rcases List.mem_append.mp hs with hs | hs
        · exact (h.seen k hne).mpr (.inr ⟨s, hs, hkey⟩)
        · rwa [← hkey, List.mem_singleton.mp hs]
  · intro k hne hex s hs
    exact h.kept k hne hex s (hfirst k hex ▸ hs)
  · intro k hne hex hall
    exact h.lost k hne hex (hfirst k hex ▸ hall)

theorem seen_seenAfter (h : Holds lower pool₀ came st) (hk : k ≠ []) :
    k ∈ seenAfter lower st src ↔
      k ∈ excludeKeys lower pool₀.rows ∨ ∃ s ∈ came ++ [src], s.key lower = k := by
  rw [mem_seenAfter hk, h.seen k hk]
  constructor
  · rintro (rfl | hex | ⟨s, hs, hkey⟩)
    · exact .inr ⟨src, by simp, rfl⟩
    · exact .inl hex
    · exact .inr ⟨s, List.mem_append_left _ hs, hkey⟩
  · rintro (hex | ⟨s, hs, hkey⟩)
    · exact .inr (.inl hex)
    · rcases List.mem_append.mp hs with hs | hs
      · exact .inr (.inr ⟨s, hs, hkey⟩)
      · rw [List.mem_singleton.mp hs] at hkey
        exact .inl hkey.symm

/-- The first source with a key, after a source whose key was not seen. -/
theorem firstWith_new (h : Holds lower pool₀ came st)
    (hnew : src.key lower = [] ∨ src.key lower ∉ st.seen) (hk : k ≠ []) :
    firstWith lower k (came ++ [src]) =
      if src.key lower = k then some src else firstWith lower k came := by
  split
  · rename_i hkey
    subst hkey
    exact firstWith_append_new (not_seen h hk (hnew.resolve_left hk))
  · rename_i hkey
    exact firstWith_append_other hkey

theorem holds_unusable (h : Holds lower pool₀ came st)
    (hnew : src.key lower = [] ∨ src.key lower ∉ st.seen)
    (hcontent : hasUsableContent src.content = false) :
    Holds lower pool₀ (came ++ [src]) { st with seen := seenAfter lower st src } := by
  refine ⟨h.sound, fun k hk => seen_seenAfter h hk, h.usable, ?_, h.listed, ?_, ?_⟩
  · intro row hrow url hurl hrurl hkey hnot
    exact h.blank row hrow url hurl hrurl hkey fun hmem =>
      hnot ((mem_seenAfter hkey).mpr (.inr hmem))
  · intro k hk hex s hs husable
    rw [firstWith_new h hnew hk] at hs
    split at hs
    · obtain rfl := Option.some.inj hs
      rw [hcontent] at husable
      cases husable
    · exact h.kept k hk hex s hs husable
  · intro k hk hex hall
    rw [firstWith_new h hnew hk] at hall
    split at hall
    · rename_i hkey
      subst hkey
      refine h.lost _ hk hex fun s hs => ?_
      have hmem := List.mem_of_find?_eq_some hs
      exact absurd (by simpa using List.find?_some hs)
        (not_seen h hk (hnew.resolve_left hk) s hmem)
    · exact h.lost k hk hex hall

theorem holds_staged (h : Holds lower pool₀ came st)
    (hnew : src.key lower = [] ∨ src.key lower ∉ st.seen)
    (hcontent : hasUsableContent src.content) :
    Holds lower pool₀ (came ++ [src])
      { refs := st.refs ++ [src.ref (stage st.pool src.content src).2]
        seen := seenAfter lower st src
        pool := (stage st.pool src.content src).1 } := by
  obtain ⟨row, hrow, hid, husable, hfilled⟩ := @exists_staged _ src _ h.sound hcontent
  refine ⟨stage_sound h.sound hcontent, fun k hk => seen_seenAfter h hk, ?_, ?_, ?_, ?_, ?_⟩
  · intro ref href
    rcases List.mem_append.mp href with href | href
    · obtain ⟨r, hr, hrid, hru⟩ := h.usable ref href
      exact ⟨r, mem_stage h.sound hr (not_isBlank_of_isUsable hru), hrid, hru⟩
    · rw [List.mem_singleton.mp href]
      exact ⟨row, hrow, hid, husable⟩
  · intro r hr url hurl hrurl hkey hnot
    rcases mem_of_mem_stage h.sound hr with hold | ⟨-, hstaged⟩
    · exact h.blank r hold url hurl hrurl hkey fun hmem =>
        hnot ((mem_seenAfter hkey).mpr (.inr hmem))
    · obtain rfl : url = src.url := Option.some.inj (hrurl.symm.trans hstaged)
      exact absurd ((mem_seenAfter hkey).mpr (.inl (key_of_url hurl).symm)) hnot
  · intro r hr
    rcases mem_of_mem_stage h.sound hr with hold | ⟨hrid, -⟩
    · rcases h.listed r hold with hold | ⟨ref, href, hrid⟩
      · exact .inl hold
      · exact .inr ⟨ref, List.mem_append_left _ href, hrid⟩
    · exact .inr ⟨_, List.mem_append_right _ List.mem_cons_self, hrid.symm⟩
  · intro k hk hex s hs hus
    rw [firstWith_new h hnew hk] at hs
    split at hs
    · rename_i hkey
      subst hkey
      obtain rfl := Option.some.inj hs
      have hnot := hnew.resolve_left hk
      have hnone : st.refs.filter (·.key lower = src.key lower) = [] :=
        h.lost _ hk hex fun s hs => absurd (by simpa using List.find?_some hs)
          (not_seen h hk hnot s (List.mem_of_find?_eq_some hs))
      refine ⟨src.ref (stage st.pool src.content src).2, ?_, row, hrow, hid,
        not_isBlank_of_isUsable husable, hfilled ?_⟩
      · rw [List.filter_append, hnone]
        simp
      · intro hurl r hr hrurl
        rw [key_of_url hurl] at hk hnot
        exact h.blank r hr _ hurl hrurl hk hnot
    · rename_i hkey
      obtain ⟨ref, href, r, hr, hrid, hblank, hmd⟩ := h.kept k hk hex s hs hus
      refine ⟨ref, ?_, r, mem_stage h.sound hr hblank, hrid, hblank, hmd⟩
      rw [List.filter_append, href]
      simp [hkey]
  · intro k hk hex hall
    rw [firstWith_new h hnew hk] at hall
    split at hall
    · rw [hall src rfl] at hcontent
      cases hcontent
    · rename_i hkey
      rw [List.filter_append, h.lost k hk hex hall]
      simp [hkey]

theorem take_holds (h : Holds lower pool₀ came st) (src : CollectedSource) :
    Holds lower pool₀ (came ++ [src]) (take lower st src) := by
  rcases take_cases lower st src with ⟨hk, hseen, heq⟩ | ⟨hnew, hcontent, heq⟩ |
    ⟨hnew, hcontent, heq⟩ <;> rw [heq]
  · exact holds_seen h hk hseen
  · exact holds_unusable h hnew hcontent
  · exact holds_staged h hnew hcontent

theorem collect_holds (hs : pool.Sound) (calls : List (List CollectedSource)) :
    Holds lower pool calls.flatten (collect lower pool calls) := by
  have hall : ∀ (srcs came : List CollectedSource) (st : Collected), Holds lower pool came st →
      Holds lower pool (came ++ srcs) (srcs.foldl (take lower) st) := by
    intro srcs
    induction srcs with
    | nil => exact fun came st h => by simpa using h
    | cons src srcs ih =>
      intro came st h
      simpa using ih _ _ (take_holds h src)
  rw [collect, ← List.foldl_flatten]
  simpa using hall calls.flatten [] _ (holds_nil hs)

/-! The calls of a collection. -/

theorem collectPass_collects {research : Chapter → Option (List CollectedSource)}
    {stop : Collected → Bool} (chapters : List Chapter) (run : CollectRun) :
    ∃ calls : List (List CollectedSource),
      (∀ call ∈ calls, ∃ ch ∈ chapters, research ch = some call) ∧
      (collectPass lower research stop chapters run).st =
        calls.foldl (fun st call => call.foldl (take lower) st) run.st := by
  induction chapters generalizing run with
  | nil => exact ⟨[], by simp, rfl⟩
  | cons ch chs ih =>
    unfold collectPass
    split
    · exact ⟨[], by simp, rfl⟩
    · obtain ⟨calls, hcalls, heq⟩ := ih (takeCall lower run (research ch))
      have hrest : ∀ call ∈ calls, ∃ ch' ∈ ch :: chs, research ch' = some call := by
        intro call hcall
        obtain ⟨ch', hch', hans⟩ := hcalls call hcall
        exact ⟨ch', List.mem_cons_of_mem _ hch', hans⟩
      cases hans : research ch with
      | none =>
        rw [hans] at heq
        exact ⟨calls, hrest, heq⟩
      | some call =>
        rw [hans] at heq
        exact ⟨call :: calls, List.forall_mem_cons.mpr ⟨⟨ch, List.mem_cons_self, hans⟩, hrest⟩, heq⟩

/-- A collection takes the sources of its successful calls, in their order. -/
theorem collectSources_collects {research : Nat → Chapter → Option (List CollectedSource)}
    {chapters : List Chapter} {target : Option Nat} {ensureCoverage : Bool}
    {focusTitles : List Text}
    (h : collectSources lower research chapters target ensureCoverage focusTitles pool = some st) :
    ∃ calls, (∀ call ∈ calls, ∃ pass ch, research pass ch = some call) ∧
      st = collect lower pool calls := by
  unfold collectSources at h
  dsimp only at h
  generalize chaptersFor chapters focusTitles ensureCoverage _ = chs at h
  generalize hrun₀ : ({ st := { seen := excludeKeys lower pool.rows, pool } } : CollectRun) = run₀ at h
  generalize hrun : collectPass lower (research 1) _ chs run₀ = run at h
  obtain ⟨calls, hcalls, heq⟩ := @collectPass_collects lower (research 1)
    (fun st => !ensureCoverage && targetMet target st) chs run₀
  have hanswered : ∀ call ∈ calls, ∃ pass ch, research pass ch = some call := by
    intro call hcall
    obtain ⟨ch, -, hans⟩ := hcalls call hcall
    exact ⟨1, ch, hans⟩
  rw [hrun, ← hrun₀] at heq
  generalize hrun' : (if target.isNone || targetMet target run.st then run else _) = run' at h
  split at h
  · cases h
  · obtain rfl := Option.some.inj h
    split at hrun'
    · exact ⟨calls, hanswered, hrun' ▸ heq⟩
    · obtain ⟨calls', hcalls', heq'⟩ :=
        @collectPass_collects lower (research 2) (targetMet target) chs run
      refine ⟨calls ++ calls', ?_, ?_⟩
      · intro call hcall
        rcases List.mem_append.mp hcall with hcall | hcall
        · exact hanswered call hcall
        · obtain ⟨ch, -, hans⟩ := hcalls' call hcall
          exact ⟨2, ch, hans⟩
      · rw [collect, List.foldl_append, ← hrun', heq', heq]

theorem firstUsable_of_firstWith (h : firstWith lower k came = some src)
    (husable : hasUsableContent src.content) : firstUsable lower k came = some src := by
  obtain ⟨hkey, before, after, rfl, hbefore⟩ := List.find?_eq_some_iff_append.mp h
  refine List.find?_eq_some_iff_append.mpr ⟨by simp_all, before, after, rfl, ?_⟩
  intro s hs
  have hne := hbefore s hs
  simp_all

theorem exists_firstWith (h : firstUsable lower k came = some src) :
    hasUsableContent src.content ∧ ∃ s, firstWith lower k came = some s := by
  have hsrc := List.find?_some h
  rw [Bool.and_eq_true] at hsrc
  exact ⟨hsrc.2, Option.isSome_iff_exists.mp
    (List.find?_isSome.mpr ⟨src, List.mem_of_find?_eq_some h, hsrc.1⟩)⟩

/-- Collection keeps one usable copy of every source if and only if each source that comes with
usable content has it when it first comes. -/
theorem collect_keeps_usable_iff (hs : pool.Sound) (calls : List (List CollectedSource)) :
    KeepsUsable lower pool calls.flatten (collect lower pool calls) ↔
      ∀ k, k ≠ [] → k ∉ excludeKeys lower pool.rows → ∀ src,
        firstUsable lower k calls.flatten = some src →
          firstWith lower k calls.flatten = some src := by
  have h := @collect_holds lower _ hs calls
  constructor
  · intro hkeeps k hk hex src hsrc
    obtain ⟨-, first, hfirst⟩ := exists_firstWith hsrc
    cases husable : hasUsableContent first.content with
    | true => rw [hfirst, ← hsrc, firstUsable_of_firstWith hfirst husable]
    | false =>
      -- an unusable first copy has taken the key, so the source is not listed
      obtain ⟨ref, row, href, -⟩ := hkeeps.kept k hk hex src hsrc
      have hlost := h.lost k hk hex fun s hs => by
        obtain rfl := Option.some.inj (hfirst.symm.trans hs)
        exact husable
      rw [hlost] at href
      cases href
  · intro hfirst
    refine ⟨?_, ?_, h.listed⟩
    · intro k hk hex src hsrc
      obtain ⟨ref, href, row, hrow, hid, -, hmd⟩ :=
        h.kept k hk hex src (hfirst k hk hex src hsrc) (exists_firstWith hsrc).1
      exact ⟨ref, row, href, hid ▸ row_of_mem h.sound hrow, hmd⟩
    · intro ref href
      obtain ⟨row, hrow, hid, husable⟩ := h.usable ref href
      exact ⟨row, hid ▸ row_of_mem h.sound hrow, husable⟩

/-- A page that was found but not fetched. -/
def unfetched : CollectedSource := { url := "https://stat.go.kr/1".toList }

/-- The same page, fetched. -/
def fetched : CollectedSource :=
  { unfetched with contentMd := some (List.replicate 200 '가') }

/-- The failed retrieval of an earlier round. -/
def shellPool : Pool where
  rows := [{
    id := 0
    url := some unfetched.url
    title := none
    reliability := none
    contentMd := none
    matchedSections := []
    pageAge := none }]
  next := 1

theorem collect_keeps_usable_promoted :
    KeepsUsable (·.map Char.toLower) shellPool [fetched]
      (collect (·.map Char.toLower) shellPool [[fetched]]) := by
  have hsound : shellPool.Sound := ⟨by decide, by decide, by decide⟩
  refine (collect_keeps_usable_iff hsound [[fetched]]).mpr ?_
  intro k _ _ src h
  obtain ⟨-, s, hs⟩ := exists_firstWith h
  have hfirst := List.mem_singleton.mp (List.mem_of_find?_eq_some hs)
  have hsrc := List.mem_singleton.mp (List.mem_of_find?_eq_some h)
  rw [hs, hfirst, hsrc]

/-- A page that first comes without content takes its key: the copy that was fetched is lost. -/
theorem fetched_copy_lost : ¬ KeepsUsable (·.map Char.toLower) {} [unfetched, fetched]
    (collect (·.map Char.toLower) {} [[unfetched, fetched]]) := by
  have hlost : firstUsable (·.map Char.toLower) unfetched.url [unfetched, fetched] = some fetched ∧
      (collect (·.map Char.toLower) {} [[unfetched, fetched]]).refs = [] := by decide +kernel
  intro h
  obtain ⟨ref, row, href, -⟩ := h.kept unfetched.url (by decide) (by decide) fetched hlost.1
  rw [hlost.2] at href
  exact absurd href.symm (List.cons_ne_nil _ _)

end RownRg.WebCollect
